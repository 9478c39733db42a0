import Rustle.Library.PosixPath

/-!
# `unsafe-math-toml`: the manifests of a project

The detector looks at the `Cargo.toml` files below the project, and at those above it as
long as each directory has one.

* `findCargoToml` — the search; it goes up from a directory to its parent.
* `ListsChain` — the files of the unbroken chain of directories, each once.
* `findCargoToml_lists_iff` — when it ends, and with these files: the parent of the root is
  the root itself, so **some** directory on the way must be without the file.
-/

namespace UnsafeMathToml

open PosixPath
open Text (lit)

/-- The part of a system that the search looks at. -/
structure System where
  /-- `os.getcwd()` -/
  cwd : Str
  cwd_absolute : cwd.head? = some '/'
  /-- The files that are there, by the names on the way to them from the root. -/
  files : List Str → Bool
  /-- `glob.glob` -/
  glob : Str → List Str

def cargoToml : Str := lit "Cargo.toml" rfl

section

variable (S : System)

/-- `os.path.exists` of an absolute path -/
def System.hasFile (path : Str) : Bool := S.files (names path)

/-- The loop, with fuel: the files found are added to the list. -/
def climb : Nat → Str → List Str → Option (List Str)
  | 0, _, _ => none
  | n + 1, path, toml_list =>
    if S.hasFile (path ++ '/' :: cargoToml) then
      climb n (abspath S.cwd (path ++ '/' :: dotdot)) (toml_list ++ [path ++ '/' :: cargoToml])
    else some toml_list

/-- What is listed of the files below a path. -/
def System.below (path : Str) : List Str := S.glob (path ++ lit "/**/Cargo.toml" rfl)

/-- `findCargoToml(path)` -/
def findCargoToml (n : Nat) (path : Str) : Option (List Str) :=
  climb S n (abspath S.cwd (path ++ '/' :: dotdot)) (S.below path)

/-- The directory above the one that a path leads to, the root for the root. -/
def System.above (path : Str) : List Str := (names (abspath S.cwd (path ++ ['/']))).dropLast

/-- The directory has a `Cargo.toml`. -/
def System.HasCargo (dir : List Str) : Prop := S.files (dir ++ [cargoToml]) = true

/-- Paths that lead to the manifests of the unbroken chain of directories from `dir` up, to
each of them once. -/
structure ListsChain (dir : List Str) (paths : List Str) : Prop where
  once : (paths.map names).Nodup
  exact : ∀ file, file ∈ paths.map names ↔
    ∃ d, file = d ++ [cargoToml] ∧ d <+: dir ∧ ∀ e, d <+: e → e <+: dir → S.HasCargo e

end

variable {S : System}

theorem names_cargoToml (path : Str) :
    names (path ++ '/' :: cargoToml) = names path ++ [cargoToml] := by
  rw [names_append]
  rfl

theorem hasFile_iff {comps : List Str} (h : Clean comps) (slashes : Nat) :
    S.hasFile (render slashes comps ++ '/' :: cargoToml) = true ↔ S.HasCargo comps := by
  rw [System.hasFile, names_cargoToml, names_render h, System.HasCargo]

/-- The step: from a directory with the file to its parent. -/
theorem climb_step {comps : List Str} (h : Clean comps) (hcargo : S.HasCargo comps)
    {slashes : Nat} (hpos : 0 < slashes) :
    ∃ slashes', 0 < slashes' ∧ ∀ n toml_list,
      climb S (n + 1) (render slashes comps) toml_list
        = climb S n (render slashes' comps.dropLast)
            (toml_list ++ [render slashes comps ++ '/' :: cargoToml]) := by
  obtain ⟨slashes', hpos', hparent⟩ := abspath_render h hpos S.cwd
  refine ⟨slashes', hpos', fun n toml_list => ?_⟩
  rw [climb, if_pos ((hasFile_iff h slashes).2 hcargo), hparent]

theorem climb_end {comps : List Str} (h : Clean comps) (hcargo : ¬ S.HasCargo comps)
    (slashes n : Nat) (toml_list : List Str) :
    climb S (n + 1) (render slashes comps) toml_list = some toml_list := by
  rw [climb, if_neg]
  rwa [hasFile_iff h]

/-- Where all directories up to the root have the file, the search goes on at the root for
ever. -/
theorem climb_never {comps : List Str} (h : Clean comps)
    (hcargo : ∀ d, d <+: comps → S.HasCargo d) {slashes : Nat} (hpos : 0 < slashes) (n : Nat)
    (toml_list : List Str) : climb S n (render slashes comps) toml_list = none := by
  induction n generalizing comps slashes toml_list with
  | zero => rfl
  | succ n ih =>
    obtain ⟨slashes', hpos', hstep⟩ := climb_step h (hcargo comps List.prefix_rfl) hpos
    rw [hstep]
    exact ih h.dropLast (fun d hd => hcargo d (hd.trans (List.dropLast_prefix comps))) hpos' _

/-- Nothing is listed where the directory itself has no file. -/
theorem listsChain_nil {dir : List Str} (h : ¬ S.HasCargo dir) : ListsChain S dir [] := by
  refine ⟨List.nodup_nil, fun file => ⟨fun hmem => absurd hmem List.not_mem_nil, ?_⟩⟩
  rintro ⟨d, -, hd, hall⟩
  exact absurd (hall dir hd List.prefix_rfl) h

theorem prefix_dropLast_or {d dir : List Str} (h : d <+: dir) : d = dir ∨ d <+: dir.dropLast := by
  obtain ⟨t, rfl⟩ := h
  cases t using List.reverseRecOn with
  | nil => exact Or.inl (List.append_nil d).symm
  | append_singleton t x =>
    right
    rw [← List.append_assoc, List.dropLast_concat]
    exact List.prefix_append d t

/-- The file of a directory in front of the files of the chain from its parent up. -/
theorem listsChain_cons {dir paths : List Str} (h : Clean dir) (hne : dir ≠ [])
    (hcargo : S.HasCargo dir) (slashes : Nat) (hrest : ListsChain S dir.dropLast paths) :
    ListsChain S dir ((render slashes dir ++ '/' :: cargoToml) :: paths) := by
  have hhead : names (render slashes dir ++ '/' :: cargoToml) = dir ++ [cargoToml] := by
    rw [names_cargoToml, names_render h]
  have hproper : ¬ dir <+: dir.dropLast := by
    intro hpre
    have hlen := hpre.length_le
    rw [List.length_dropLast] at hlen
    have := List.length_pos_of_ne_nil hne
    omega
  constructor
  · rw [List.map_cons, hhead, List.nodup_cons]
    refine ⟨fun hmem => ?_, hrest.once⟩
    obtain ⟨d, heq, hd, -⟩ := (hrest.exact _).1 hmem
    rw [← List.append_cancel_right heq] at hd
    exact hproper hd
  · intro file
    rw [List.map_cons, List.mem_cons, hhead, hrest.exact]
    constructor
    · rintro (rfl | ⟨d, rfl, hd, hall⟩)
      · refine ⟨dir, rfl, List.prefix_rfl, fun e hde hed => ?_⟩
        rwa [hed.eq_of_length_le hde.length_le]
      · refine ⟨d, rfl, hd.trans (List.dropLast_prefix dir), fun e hde hed => ?_⟩
        rcases prefix_dropLast_or hed with rfl | hed
        · exact hcargo
        · exact hall e hde hed
    · rintro ⟨d, rfl, hd, hall⟩
      rcases prefix_dropLast_or hd with rfl | hd
      · exact Or.inl rfl
      · exact Or.inr ⟨d, rfl, hd, fun e hde hed =>
          hall e hde (hed.trans (List.dropLast_prefix dir))⟩

/-- Where a directory on the way is without the file, the search ends with the chain. -/
theorem climb_lists {comps : List Str} (h : Clean comps)
    (hcargo : ∃ d, d <+: comps ∧ ¬ S.HasCargo d) {slashes : Nat} (hpos : 0 < slashes) :
    ∃ n paths, ListsChain S comps paths ∧
      ∀ toml_list, climb S n (render slashes comps) toml_list = some (toml_list ++ paths) := by
  induction comps using List.reverseRecOn generalizing slashes with
  | nil =>
    obtain ⟨d, hd, hno⟩ := hcargo
    rw [List.prefix_nil.1 hd] at hno
    refine ⟨1, [], listsChain_nil hno, fun toml_list => ?_⟩
    rw [climb_end h hno, List.append_nil]
  | append_singleton dir name ih =>
    by_cases hhere : S.HasCargo (dir ++ [name])
    · obtain ⟨slashes', hpos', hstep⟩ := climb_step h hhere hpos
      have hdrop : (dir ++ [name]).dropLast = dir := List.dropLast_concat
      have habove : ∃ d, d <+: dir ∧ ¬ S.HasCargo d := by
        obtain ⟨d, hd, hno⟩ := hcargo
        rcases prefix_dropLast_or hd with rfl | hd
        · exact absurd hhere hno
        · exact ⟨d, by rwa [hdrop] at hd, hno⟩
      have hclean : Clean dir := by
        rw [← hdrop]
        exact h.dropLast
      obtain ⟨n, paths, hlists, hclimb⟩ := ih hclean habove hpos'
      refine ⟨n + 1, _, listsChain_cons h (by simp) hhere slashes (by rwa [hdrop]), ?_⟩
      intro toml_list
      rw [hstep, hdrop, hclimb, List.append_assoc, List.singleton_append]
    · refine ⟨1, [], listsChain_nil hhere, fun toml_list => ?_⟩
      rw [climb_end h hhere, List.append_nil]

/-- The search ends, with the files of the chain above the project behind those below it,
exactly when some directory above the project has none. -/
theorem findCargoToml_lists_iff (S : System) (path : Str) :
    (∃ n paths, findCargoToml S n path = some (S.below path ++ paths) ∧
        ListsChain S (S.above path) paths) ↔
      ∃ d, d <+: S.above path ∧ ¬ S.HasCargo d := by
  obtain ⟨slashes, hpos, hparent⟩ := abspath_parent S.cwd_absolute path
  have hclean : Clean (S.above path) := by
    obtain ⟨q, hq⟩ := exists_absolute S.cwd_absolute path
    obtain ⟨hhead, habs⟩ := hq []
    obtain ⟨k, -, heq⟩ := exists_render hhead
    rw [System.above, habs, heq, names_render (directory_clean _)]
    exact (directory_clean _).dropLast
  have hfind : ∀ n, findCargoToml S n path
      = climb S n (render slashes (S.above path)) (S.below path) := by
    intro n
    rw [findCargoToml, hparent]
    rfl
  constructor
  · rintro ⟨n, paths, hn, -⟩
    by_contra hall
    simp only [not_exists, not_and, not_not] at hall
    rw [hfind, climb_never hclean hall hpos] at hn
    cases hn
  · intro hno
    obtain ⟨n, paths, hlists, hclimb⟩ := climb_lists hclean hno hpos
    exact ⟨n, paths, by rw [hfind, hclimb], hlists⟩

/-- A container whose root holds the workspace, and the contract one level below. -/
def containerSystem : System where
  cwd := lit "/" rfl
  cwd_absolute := rfl
  files file := file = [cargoToml] || file = [lit "contract" rfl, cargoToml]
  glob _ := [lit "/contract/Cargo.toml" rfl]

/-- The root is its own parent, and its file is listed again and again. -/
theorem root_listed_for_ever :
    ¬ ∀ (S : System) (path : Str), ∃ n paths,
      findCargoToml S n path = some (S.below path ++ paths) ∧
        ListsChain S (S.above path) paths := by
  intro h
  obtain ⟨n, paths, hn, -⟩ := h containerSystem (lit "/contract" rfl)
  have hall : ∀ d, d <+: ([] : List Str) → containerSystem.HasCargo d := by
    intro d hd
    rw [List.prefix_nil.1 hd, System.HasCargo]
    decide +kernel
  have hroot : abspath containerSystem.cwd (lit "/contract" rfl ++ '/' :: dotdot)
      = render 1 [] := by decide +kernel
  rw [findCargoToml, hroot, climb_never (fun c hc => absurd hc List.not_mem_nil) hall
    (by decide)] at hn
  cases hn

end UnsafeMathToml
