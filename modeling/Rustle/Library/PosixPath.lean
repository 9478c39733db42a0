import Rustle.Library.Text

/-!
# Paths of a POSIX system, as `os.path` treats them

* `normpath`, `join`, `abspath` — the functions of `os.path`.
* `names` — the names on the way of a path, which say where it leads.
* `Clean`, `render` — the names of an absolute path without dots, and such a path.
* `abspath_parent` — `..` takes the last name away, and at the root it does **nothing**.
-/

namespace PosixPath

def dot : Str := ['.']

def dotdot : Str := ['.', '.']

/-- The body of the loop of `normpath`, for a path that is absolute or not. -/
def push (absolute : Bool) (new_comps : List Str) (comp : Str) : List Str :=
  if comp = [] ∨ comp = dot then new_comps
  else if comp ≠ dotdot ∨ (absolute = false ∧ new_comps = []) ∨
      new_comps.getLast? = some dotdot then
    new_comps ++ [comp]
  else new_comps.dropLast

/-- The slashes that are kept in front: two if there are exactly two. -/
def initialSlashes : Str → Nat
  | '/' :: '/' :: '/' :: _ => 1
  | '/' :: '/' :: _ => 2
  | '/' :: _ => 1
  | _ => 0

/-- `os.path.normpath` -/
def normpath (path : Str) : Str :=
  let slashes := initialSlashes path
  let comps := (path.splitOn '/').foldl (push (slashes != 0)) []
  let s := List.replicate slashes '/' ++ ['/'].intercalate comps
  if s = [] then dot else s

/-- `os.path.join` -/
def join (a b : Str) : Str :=
  if b.head? = some '/' then b
  else if a = [] ∨ a.getLast? = some '/' then a ++ b
  else a ++ '/' :: b

/-- `os.path.abspath` in a working directory -/
def abspath (cwd path : Str) : Str :=
  normpath (if path.head? = some '/' then path else join cwd path)

/-- The names on the way of a path; slashes in a row count as one. -/
def names (path : Str) : List Str := (path.splitOn '/').filter fun name => !name.isEmpty

/-! ## Names without dots -/

/-- Names that stand for themselves. -/
def Clean (comps : List Str) : Prop :=
  ∀ c ∈ comps, c ≠ [] ∧ c ≠ dot ∧ c ≠ dotdot ∧ '/' ∉ c

theorem Clean.dropLast {comps : List Str} (h : Clean comps) : Clean comps.dropLast :=
  fun c hc => h c (List.mem_of_mem_dropLast hc)

theorem Clean.getLast?_ne {comps : List Str} (h : Clean comps) :
    comps.getLast? ≠ some dotdot := by
  intro hlast
  exact (h dotdot (List.mem_of_getLast? hlast)).2.2.1 rfl

theorem push_dotdot {comps : List Str} (h : Clean comps) :
    push true comps dotdot = comps.dropLast := by
  rw [push, if_neg (by decide), if_neg]
  rintro (hne | ⟨habsolute, -⟩ | hlast)
  · exact hne rfl
  · cases habsolute
  · exact h.getLast?_ne hlast

theorem push_clean {comps : List Str} (h : Clean comps) {comp : Str} (hcomp : '/' ∉ comp) :
    Clean (push true comps comp) := by
  by_cases hskip : comp = [] ∨ comp = dot
  · rwa [push, if_pos hskip]
  by_cases hdotdot : comp = dotdot
  · rw [hdotdot, push_dotdot h]
    exact h.dropLast
  · rw [push, if_neg hskip, if_pos (Or.inl hdotdot)]
    rw [not_or] at hskip
    intro c hc
    rcases List.mem_append.1 hc with hc | hc
    · exact h c hc
    · rw [List.mem_singleton.1 hc]
      exact ⟨hskip.1, hskip.2, hdotdot, hcomp⟩

theorem foldl_push_clean {pieces comps : List Str} (hpieces : ∀ p ∈ pieces, '/' ∉ p)
    (h : Clean comps) : Clean (pieces.foldl (push true) comps) := by
  induction pieces generalizing comps with
  | nil => exact h
  | cons p pieces ih =>
    rw [List.foldl_cons]
    exact ih (fun q hq => hpieces q (List.mem_cons_of_mem p hq))
      (push_clean h (hpieces p List.mem_cons_self))

theorem foldl_push_of_clean {pieces : List Str} (h : Clean pieces) (comps : List Str) :
    pieces.foldl (push true) comps = comps ++ pieces := by
  induction pieces generalizing comps with
  | nil => rw [List.foldl_nil, List.append_nil]
  | cons p pieces ih =>
    obtain ⟨hne, hdot, hdotdot, -⟩ := h p List.mem_cons_self
    have hpush : push true comps p = comps ++ [p] := by
      rw [push, if_neg (not_or.2 ⟨hne, hdot⟩), if_pos (Or.inl hdotdot)]
    rw [List.foldl_cons, hpush, ih fun q hq => h q (List.mem_cons_of_mem p hq),
      List.append_assoc, List.singleton_append]

/-! ## Absolute paths -/

/-- The names that are left when the dots of an absolute path are followed. -/
def directory (path : Str) : List Str := (path.splitOn '/').foldl (push true) []

theorem directory_clean (path : Str) : Clean (directory path) :=
  foldl_push_clean (fun _ hp => Text.not_mem_of_mem_splitOn hp)
    fun _ hc => absurd hc List.not_mem_nil

theorem directory_parent (path : Str) :
    directory (path ++ '/' :: dotdot) = (directory path).dropLast := by
  rw [directory, List.splitOn_append_cons_self, List.foldl_append]
  exact push_dotdot (directory_clean path)

theorem directory_slash (path : Str) : directory (path ++ ['/']) = directory path := by
  rw [directory, List.splitOn_append_cons_self, List.foldl_append]
  rfl

/-- An absolute path with one or two slashes in front. -/
def render (slashes : Nat) (comps : List Str) : Str :=
  List.replicate slashes '/' ++ ['/'].intercalate comps

theorem splitOn_render {comps : List Str} (h : Clean comps) (slashes : Nat) :
    (render slashes comps).splitOn '/'
      = List.replicate slashes [] ++ if comps = [] then [[]] else comps := by
  induction slashes with
  | zero =>
    rw [render, List.replicate_zero, List.replicate_zero, List.nil_append, List.nil_append]
    split
    · rename_i hnil
      rw [hnil]
      rfl
    · rename_i hne
      exact List.splitOn_intercalate '/' (fun c hc => (h c hc).2.2.2) hne
  | succ slashes ih =>
    have hcons : render (slashes + 1) comps = [] ++ '/' :: render slashes comps := rfl
    rw [hcons, List.splitOn_append_cons_self, ih]
    rfl

theorem names_render {comps : List Str} (h : Clean comps) (slashes : Nat) :
    names (render slashes comps) = comps := by
  have hslashes : (List.replicate slashes ([] : Str)).filter (fun name => !name.isEmpty) = [] :=
    List.filter_eq_nil_iff.2 fun name hname => by
      rw [List.eq_of_mem_replicate hname]
      decide
  rw [names, splitOn_render h, List.filter_append, hslashes, List.nil_append]
  split
  · rename_i hnil
    rw [hnil]
    rfl
  · refine List.filter_eq_self.2 fun c hc => ?_
    rw [Bool.not_eq_true', List.isEmpty_eq_false_iff]
    exact (h c hc).1

theorem directory_render {comps : List Str} (h : Clean comps) (slashes : Nat) :
    directory (render slashes comps) = comps := by
  have hslashes : (List.replicate slashes ([] : Str)).foldl (push true) [] = [] := by
    induction slashes with
    | zero => rfl
    | succ slashes ih =>
      rw [List.replicate_succ, List.foldl_cons]
      exact ih
  rw [directory, splitOn_render h, List.foldl_append, hslashes]
  split
  · rename_i hnil
    rw [hnil]
    rfl
  · rw [foldl_push_of_clean h, List.nil_append]

theorem names_append (path name : Str) :
    names (path ++ '/' :: name) = names path ++ names name := by
  rw [names, names, names, List.splitOn_append_cons_self, List.filter_append]

theorem initialSlashes_pos {path : Str} (h : path.head? = some '/') :
    0 < initialSlashes path := by
  obtain ⟨rest, rfl⟩ := List.head?_eq_some_iff.1 h
  unfold initialSlashes
  split <;> simp_all

/-- What `normpath` makes of an absolute path. -/
theorem exists_render {path : Str} (h : path.head? = some '/') :
    ∃ slashes, 0 < slashes ∧ normpath path = render slashes (directory path) := by
  have hpos := initialSlashes_pos h
  refine ⟨initialSlashes path, hpos, ?_⟩
  have habsolute : (initialSlashes path != 0) = true := by
    rw [bne_iff_ne]
    omega
  have hne : render (initialSlashes path) (directory path) ≠ [] := by
    apply List.append_ne_nil_of_left_ne_nil
    rw [ne_eq, List.replicate_eq_nil_iff]
    omega
  rw [normpath, habsolute]
  exact if_neg hne

theorem render_head? {slashes : Nat} (h : 0 < slashes) (comps : List Str) (rest : Str) :
    (render slashes comps ++ rest).head? = some '/' := by
  obtain ⟨n, rfl⟩ : ∃ n, slashes = n + 1 := ⟨slashes - 1, by omega⟩
  rfl

/-- The parent of an absolute path. -/
theorem abspath_render {comps : List Str} (h : Clean comps) {slashes : Nat} (hpos : 0 < slashes)
    (cwd : Str) : ∃ slashes', 0 < slashes' ∧
      abspath cwd (render slashes comps ++ '/' :: dotdot) = render slashes' comps.dropLast := by
  have hhead := render_head? hpos comps ('/' :: dotdot)
  obtain ⟨slashes', hpos', heq⟩ := exists_render hhead
  refine ⟨slashes', hpos', ?_⟩
  rw [abspath, if_pos hhead, heq, directory_parent, directory_render h]

/-- A path with something behind it is made absolute by the same text in front. -/
theorem exists_absolute {cwd : Str} (hcwd : cwd.head? = some '/') (path : Str) :
    ∃ q : Str, ∀ rest : Str, (q ++ '/' :: rest).head? = some '/' ∧
      abspath cwd (path ++ '/' :: rest) = normpath (q ++ '/' :: rest) := by
  cases path with
  | nil => exact ⟨[], fun rest => ⟨rfl, rfl⟩⟩
  | cons c path =>
    by_cases hc : c = '/'
    · subst hc
      exact ⟨'/' :: path, fun rest => ⟨rfl, rfl⟩⟩
    · have hrel : ∀ rest : Str, (c :: path ++ '/' :: rest).head? ≠ some '/' := by
        intro rest h
        exact hc (Option.some.inj h)
      obtain ⟨d, hd⟩ := List.head?_eq_some_iff.1 hcwd
      by_cases hlast : cwd = [] ∨ cwd.getLast? = some '/'
      · refine ⟨cwd ++ c :: path, fun rest => ⟨by rw [hd]; rfl, ?_⟩⟩
        rw [abspath, if_neg (hrel rest), join, if_neg (hrel rest), if_pos hlast,
          List.append_assoc]
      · refine ⟨cwd ++ '/' :: c :: path, fun rest => ⟨by rw [hd]; rfl, ?_⟩⟩
        rw [abspath, if_neg (hrel rest), join, if_neg (hrel rest), if_neg hlast,
          List.append_assoc]
        rfl

/-- `..` takes the last name of a path away. -/
theorem abspath_parent {cwd : Str} (hcwd : cwd.head? = some '/') (path : Str) :
    ∃ slashes, 0 < slashes ∧ abspath cwd (path ++ '/' :: dotdot)
      = render slashes (names (abspath cwd (path ++ ['/']))).dropLast := by
  obtain ⟨q, hq⟩ := exists_absolute hcwd path
  obtain ⟨hhead, habs⟩ := hq dotdot
  obtain ⟨hhead', habs'⟩ := hq []
  obtain ⟨slashes, hpos, heq⟩ := exists_render hhead
  obtain ⟨slashes', -, heq'⟩ := exists_render hhead'
  refine ⟨slashes, hpos, ?_⟩
  rw [habs, heq, habs', heq', names_render (directory_clean _), directory_parent,
    directory_slash]

end PosixPath
