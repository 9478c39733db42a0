import Mathlib.Logic.Function.Basic
import Mathlib.Data.List.Basic
import Mathlib.Data.List.Induction

/-!
# Recipes on a directory

A recipe is a list of commands that remove, extend and replace the files of a
directory; the first command that fails ends it.

* `Command`, `exec`, `run` — the commands and what they do.
* `run_other` — the frame: what no command writes stays as it was.
* `check` — which files a recipe determines, whatever stood in them before;
  `check_sound` — the analysis is right.
* `rebuild` — a recipe that makes a file anew, and leaves it alone when what it
  needs is not made.
* `session` — recipe after recipe, each with a file of its own.
-/

namespace Directory

/-- What stands in the files; `none` is a file that is not there. -/
abbrev Dir (F α : Type) := F → Option (List α)

/-- A command.  A tool is given the contents of the files it reads. -/
inductive Command (F α : Type) where
  /-- `rm -f` -/
  | remove (files : List F)
  /-- A file opened for writing, and left empty. -/
  | create (file : F)
  /-- Tools that run one after the other and add to the end of one file. -/
  | append (file : F) (reads : List F) (tools : List (List (Option (List α)) → List α))
  /-- A tool that writes a file, or none, and says whether it went well. -/
  | script (file : F) (reads : List F)
      (tool : List (Option (List α)) → Option (List α) × Bool)
  /-- A file changed in place. -/
  | rewrite (file : F) (change : List α → List α)

section

variable {F α : Type} [DecidableEq F]

/-- The directory with `text` in `file`. -/
def put (d : Dir F α) (file : F) (text : List α) : Dir F α := Function.update d file (some text)

/-- What a command leaves, and its exit status. -/
def exec (d : Dir F α) : Command F α → Dir F α × Bool
  | .remove files => (fun f => if f ∈ files then none else d f, true)
  | .create file => (put d file [], true)
  | .append file reads tools =>
    (tools.foldl (fun d tool => put d file ((d file).getD [] ++ tool (reads.map d))) d, true)
  | .script file reads tool =>
    let r := tool (reads.map d)
    (r.1.elim d (put d file), r.2)
  | .rewrite file change => (Function.update d file ((d file).map change), true)

/-- The commands one after the other, up to the first that fails. -/
def run : List (Command F α) → Dir F α → Dir F α × Bool
  | [], d => (d, true)
  | c :: cs, d => if (exec d c).2 then run cs (exec d c).1 else exec d c

/-- The files that a command may change. -/
def Command.writes : Command F α → List F
  | .remove files => files
  | .create file | .append file _ _ | .script file _ _ | .rewrite file _ => [file]

/-! ## The frame -/

theorem put_other {d : Dir F α} {file f : F} (h : f ≠ file) (text : List α) :
    put d file text f = d f := Function.update_of_ne h _ _

theorem put_self (d : Dir F α) (file : F) (text : List α) : put d file text file = some text :=
  Function.update_self ..

theorem put_put (d : Dir F α) (file : F) (text text' : List α) :
    put (put d file text) file text' = put d file text' := Function.update_idem ..

theorem append_other {file f : F} (h : f ≠ file) (reads : List F)
    (tools : List (List (Option (List α)) → List α)) (d : Dir F α) :
    (tools.foldl (fun d tool => put d file ((d file).getD [] ++ tool (reads.map d))) d) f
      = d f := by
  induction tools generalizing d with
  | nil => rfl
  | cons tool tools ih => rw [List.foldl_cons, ih, put_other h]

/-- Tools that do not read the file they write are given the same each. -/
theorem append_eq {file : F} {reads : List F} (h : file ∉ reads)
    {tools : List (List (Option (List α)) → List α)} (hne : tools ≠ []) (d : Dir F α) :
    tools.foldl (fun d tool => put d file ((d file).getD [] ++ tool (reads.map d))) d
      = put d file ((d file).getD [] ++ (tools.map fun tool => tool (reads.map d)).flatten) := by
  have hreads : ∀ (d : Dir F α) text, reads.map (put d file text) = reads.map d :=
    fun d text => List.map_congr_left fun f hf => put_other (ne_of_mem_of_not_mem hf h) text
  induction tools generalizing d with
  | nil => exact absurd rfl hne
  | cons tool tools ih =>
    rw [List.foldl_cons]
    by_cases htools : tools = []
    · subst htools
      simp
    · rw [ih htools, put_self, hreads, put_put, List.map_cons, List.flatten_cons,
        Option.getD_some, List.append_assoc]

theorem exec_other {c : Command F α} {f : F} (h : f ∉ c.writes) (d : Dir F α) :
    (exec d c).1 f = d f := by
  cases c with
  | remove files => exact if_neg h
  | create file => exact put_other (fun hf => h (List.mem_singleton.2 hf)) _
  | append file reads tools =>
    exact append_other (fun hf => h (List.mem_singleton.2 hf)) reads tools d
  | script file reads tool =>
    have hf : f ≠ file := fun hf => h (List.mem_singleton.2 hf)
    show (((tool (reads.map d)).1.elim d (put d file)) : Dir F α) f = d f
    cases (tool (reads.map d)).1 with
    | none => rfl
    | some text => exact put_other hf text
  | rewrite file change =>
    exact Function.update_of_ne (fun hf => h (List.mem_singleton.2 hf)) _ _

theorem run_cons_ok {c : Command F α} {d : Dir F α} (h : (exec d c).2 = true)
    (cs : List (Command F α)) : run (c :: cs) d = run cs (exec d c).1 := by
  rw [run, if_pos h]

theorem run_cons_fail {c : Command F α} {d : Dir F α} (h : (exec d c).2 = false)
    (cs : List (Command F α)) : run (c :: cs) d = exec d c := by
  rw [run, if_neg (by rw [h]; exact Bool.false_ne_true)]

theorem run_other {cs : List (Command F α)} {f : F} (h : ∀ c ∈ cs, f ∉ c.writes)
    (d : Dir F α) : (run cs d).1 f = d f := by
  induction cs generalizing d with
  | nil => rfl
  | cons c cs ih =>
    have hc := exec_other (h c List.mem_cons_self) d
    cases hs : (exec d c).2 with
    | true => rw [run_cons_ok hs, ih fun c hc => h c (List.mem_cons_of_mem _ hc), hc]
    | false => rw [run_cons_fail hs, hc]

theorem run_append_ok {cs : List (Command F α)} {d : Dir F α} (h : (run cs d).2 = true)
    (cs' : List (Command F α)) : run (cs ++ cs') d = run cs' (run cs d).1 := by
  induction cs generalizing d with
  | nil => rfl
  | cons c cs ih =>
    rw [List.cons_append]
    cases hs : (exec d c).2 with
    | true =>
      rw [run_cons_ok hs] at h ⊢
      rw [run_cons_ok hs]
      exact ih h
    | false =>
      rw [run_cons_fail hs, hs] at h
      exact absurd h Bool.false_ne_true

theorem run_append_fail {cs : List (Command F α)} {d : Dir F α} (h : (run cs d).2 = false)
    (cs' : List (Command F α)) : run (cs ++ cs') d = run cs d := by
  induction cs generalizing d with
  | nil => exact absurd h.symm Bool.false_ne_true
  | cons c cs ih =>
    rw [List.cons_append]
    cases hs : (exec d c).2 with
    | true =>
      rw [run_cons_ok hs] at h ⊢
      rw [run_cons_ok hs]
      exact ih h
    | false => rw [run_cons_fail hs, run_cons_fail hs]

/-! ## What a recipe determines -/

/-- The same stands in the files of `A`, or they are in neither. -/
def AgreeOn (A : List F) (d d' : Dir F α) : Prop := ∀ f ∈ A, d f = d' f

omit [DecidableEq F] in
theorem AgreeOn.mono {A B : List F} {d d' : Dir F α} (h : AgreeOn A d d') (hBA : B ⊆ A) :
    AgreeOn B d d' := fun f hf => h f (hBA hf)

omit [DecidableEq F] in
theorem AgreeOn.reads {A reads : List F} {d d' : Dir F α} (h : AgreeOn A d d')
    (hr : reads ⊆ A) : reads.map d = reads.map d' :=
  List.map_congr_left fun f hf => h f (hr hf)

theorem AgreeOn.put {A : List F} {d d' : Dir F α} (h : AgreeOn A d d') (file : F)
    (text : List α) : AgreeOn (file :: A) (put d file text) (put d' file text) := by
  intro f hf
  by_cases hfile : f = file
  · rw [hfile, put_self, put_self]
  · rw [put_other hfile, put_other hfile]
    exact h f ((List.mem_cons.1 hf).resolve_left hfile)

variable (keep : List F)

/-- The files that a command determines, given those that are determined before
it; `none` when that is not enough to say whether it fails, or when it may fail
while a file of `keep` is not determined. -/
def Command.check (A : List F) : Command F α → Option (List F)
  | .remove files => some (files ++ A)
  | .create file => some (file :: A)
  | .append file reads _ =>
    if file ∈ A ∧ reads ⊆ A then some A else some (A.filter (· ≠ file))
  | .script _ reads _ => if reads ⊆ A ∧ keep ⊆ A then some A else none
  | .rewrite _ _ => some A

/-- The files that a recipe determines. -/
def check : List (Command F α) → List F → Option (List F)
  | [], A => some A
  | c :: cs, A => (c.check keep A).bind (check cs)

variable {keep}

theorem append_agree {A reads : List F} {file : F} (hfile : file ∈ A) (hr : reads ⊆ A)
    (tools : List (List (Option (List α)) → List α)) {d d' : Dir F α} (h : AgreeOn A d d') :
    AgreeOn A
      (tools.foldl (fun d tool => put d file ((d file).getD [] ++ tool (reads.map d))) d)
      (tools.foldl (fun d tool => put d file ((d file).getD [] ++ tool (reads.map d))) d') := by
  induction tools generalizing d d' with
  | nil => exact h
  | cons tool tools ih =>
    rw [List.foldl_cons, List.foldl_cons]
    apply ih
    rw [h file hfile, h.reads hr]
    exact (h.put file _).mono fun f hf => List.mem_cons_of_mem _ hf

/-- A command does to two directories the same, as far as the analysis says. -/
theorem exec_check {c : Command F α} {A B : List F} {d d' : Dir F α}
    (hc : c.check keep A = some B) (h : AgreeOn A d d') :
    (exec d c).2 = (exec d' c).2 ∧ AgreeOn B (exec d c).1 (exec d' c).1 ∧
      ((exec d c).2 = false → keep ⊆ B) := by
  cases c with
  | remove files =>
    obtain rfl := Option.some.inj hc
    refine ⟨rfl, fun f hf => ?_, fun hfail => absurd hfail.symm Bool.false_ne_true⟩
    show (if f ∈ files then none else d f) = if f ∈ files then none else d' f
    by_cases hfiles : f ∈ files
    · rw [if_pos hfiles, if_pos hfiles]
    · rw [if_neg hfiles, if_neg hfiles]
      exact h f ((List.mem_append.1 hf).resolve_left hfiles)
  | create file =>
    obtain rfl := Option.some.inj hc
    exact ⟨rfl, h.put file [], fun hfail => absurd hfail.symm Bool.false_ne_true⟩
  | append file reads tools =>
    refine ⟨rfl, ?_, fun hfail => absurd hfail.symm Bool.false_ne_true⟩
    rw [Command.check] at hc
    split at hc
    · rename_i hcond
      obtain rfl := Option.some.inj hc
      exact append_agree hcond.1 hcond.2 tools h
    · obtain rfl := Option.some.inj hc
      intro f hf
      obtain ⟨hfA, hne⟩ := List.mem_filter.1 hf
      have hne := of_decide_eq_true hne
      exact (append_other hne reads tools d).trans
        ((h f hfA).trans (append_other hne reads tools d').symm)
  | script file reads tool =>
    rw [Command.check] at hc
    split at hc
    · rename_i hcond
      obtain rfl := Option.some.inj hc
      have hreads := h.reads hcond.1
      refine ⟨congrArg (fun r => (tool r).2) hreads, ?_, fun _ => hcond.2⟩
      show AgreeOn A ((tool (reads.map d)).1.elim d (put d file))
        ((tool (reads.map d')).1.elim d' (put d' file))
      rw [hreads]
      cases (tool (reads.map d')).1 with
      | none => exact h
      | some text => exact (h.put file text).mono fun f hf => List.mem_cons_of_mem _ hf
    · cases hc
  | rewrite file change =>
    obtain rfl := Option.some.inj hc
    refine ⟨rfl, fun f hf => ?_, fun hfail => absurd hfail.symm Bool.false_ne_true⟩
    show Function.update d file _ f = Function.update d' file _ f
    by_cases hfile : f = file
    · subst hfile
      rw [Function.update_self, Function.update_self, h f hf]
    · rw [Function.update_of_ne hfile, Function.update_of_ne hfile, h f hf]

/-- The analysis is right: from directories that agree on `A` a recipe fails in
both or in neither; it makes them agree on `B` if it does not, and on `keep` if
it does. -/
theorem check_sound {cs : List (Command F α)} {A B : List F} (hB : check keep cs A = some B)
    {d d' : Dir F α} (h : AgreeOn A d d') :
    (run cs d).2 = (run cs d').2 ∧
      ((run cs d).2 = true → AgreeOn B (run cs d).1 (run cs d').1) ∧
      ((run cs d).2 = false → AgreeOn keep (run cs d).1 (run cs d').1) := by
  induction cs generalizing A d d' with
  | nil =>
    obtain rfl := Option.some.inj hB
    exact ⟨rfl, fun _ => h, fun hfail => absurd hfail.symm Bool.false_ne_true⟩
  | cons c cs ih =>
    rw [check] at hB
    obtain ⟨A', hA', hB⟩ := Option.bind_eq_some_iff.1 hB
    obtain ⟨hstatus, hagree, hkeep⟩ := exec_check hA' h
    cases hs : (exec d c).2 with
    | true =>
      rw [run_cons_ok hs, run_cons_ok (hstatus ▸ hs)]
      exact ih hB hagree
    | false =>
      rw [run_cons_fail hs, run_cons_fail (hstatus ▸ hs)]
      refine ⟨hstatus, fun hok => ?_, fun _ => hagree.mono (hkeep hs)⟩
      rw [hs] at hok
      exact absurd hok Bool.false_ne_true

/-! ## Making a file anew -/

/-- A recipe `own`, after the recipes `pre` of what it needs, that makes the file
`f` from nothing but what `pre` makes. -/
structure Remakes (pre own : List (Command F α)) (f : F) (A B : List F) : Prop where
  pre_other : ∀ c ∈ pre, f ∉ c.writes
  pre_check : check [] pre [] = some A
  own_check : check [f] own A = some B
  mem : f ∈ B

/-- What stands in the file afterwards does not depend on the rest of the
directory; nor on the file, if that is not there or holds the same already. -/
theorem rebuild {pre own : List (Command F α)} {f : F} {A B : List F}
    (h : Remakes pre own f A B) {d d' : Dir F α} (hd' : d' f = none)
    (hd : d f = none ∨ d f = (run (pre ++ own) d').1 f) :
    (run (pre ++ own) d).1 f = (run (pre ++ own) d').1 f ∧
      (run (pre ++ own) d).2 = (run (pre ++ own) d').2 := by
  obtain ⟨hstatus, hagree, -⟩ := check_sound h.pre_check
    (fun _ hf => absurd hf List.not_mem_nil : AgreeOn [] d d')
  cases hs : (run pre d).2 with
  | true =>
    rw [run_append_ok hs, run_append_ok (hstatus ▸ hs)]
    obtain ⟨hstatus', hagree', hkeep⟩ := check_sound h.own_check (hagree hs)
    refine ⟨?_, hstatus'⟩
    cases hs' : (run own (run pre d).1).2 with
    | true => exact hagree' hs' f h.mem
    | false => exact hkeep hs' f (List.mem_singleton_self _)
  | false =>
    have hs' : (run pre d').2 = false := hstatus ▸ hs
    rw [run_append_fail hs'] at hd ⊢
    rw [run_append_fail hs]
    refine ⟨?_, hstatus⟩
    rw [run_other h.pre_other] at hd ⊢
    rw [run_other h.pre_other, hd']
    rw [hd'] at hd
    exact hd.elim id id

/-! ## Sessions -/

variable {G : Type}

/-- One goal after the other, whatever the status. -/
def session (build : G → Dir F α → Dir F α) (goals : List G) (d : Dir F α) : Dir F α :=
  goals.foldl (fun d g => build g d) d

omit [DecidableEq F] in
/-- Goals that each leave the files of the others alone: a session makes the
files of its goals right and leaves the others as they were. -/
theorem session_spec {build : G → Dir F α → Dir F α} {file : G → F}
    {right : G → Option (List α) → Prop} {Inv : Dir F α → Prop}
    (hinv : ∀ g d, Inv d → Inv (build g d))
    (hright : ∀ g d, Inv d → right g (build g d (file g)))
    (hother : ∀ g g' d, g' ≠ g → build g d (file g') = d (file g'))
    {d : Dir F α} (hd : Inv d) (goals : List G) :
    Inv (session build goals d) ∧
      (∀ g ∈ goals, right g (session build goals d (file g))) ∧
      ∀ g, g ∉ goals → session build goals d (file g) = d (file g) := by
  classical
  induction goals using List.reverseRecOn with
  | nil => exact ⟨hd, fun _ h => absurd h List.not_mem_nil, fun _ _ => rfl⟩
  | append_singleton goals g ih =>
    obtain ⟨hInv, hdone, hrest⟩ := ih
    have hlast : session build (goals ++ [g]) d = build g (session build goals d) := by
      rw [session, List.foldl_append]
      rfl
    rw [hlast]
    refine ⟨hinv g _ hInv, fun g' hg' => ?_, fun g' hg' => ?_⟩
    · by_cases heq : g' = g
      · rw [heq]
        exact hright g _ hInv
      · rw [hother g g' _ heq]
        refine hdone g' ((List.mem_append.1 hg').resolve_right fun h => heq ?_)
        exact List.mem_singleton.1 h
    · rw [hother g g' _ fun heq => hg' (List.mem_append_right _ (heq ▸ List.mem_singleton_self _))]
      exact hrest g' fun h => hg' (List.mem_append_left _ h)

end

end Directory
