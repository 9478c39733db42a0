import Rustle.Library.WholeLines
import Rustle.Pass.YoctoAttach

/-!
# `callback`: the functions that read a promise result

The pass writes the functions with a direct call of the functions that read the
results of promises; `yocto-attach` reads its log **word by word**.

* `Callback.scan`, `Callback.runOnModule`, `Callback.log` — the pass.
* `ReadsResult`, `scan_isSome_iff` — which functions get a line.
* `mem_loadCallbacks_log` — the callbacks that `yocto-attach` knows.
-/

open Llvm NearCore
open Text (lit)

namespace Callback

/-- The loop over the instructions of a function: the name of the file in the
line written, if one is. -/
def scan (M : Module) : List (ValueId × Instruction) → Str → Option Str
  | [], _ => none
  | (_, i) :: is, funcFileName =>
    if !inProject i then scan M is funcFileName
    else
      let funcFileName := if funcFileName.isEmpty then
          (i.debugLoc.map DebugLoc.filename).getD [] else funcFileName
      match M.getCalledFunction i with
      | none => scan M is funcFileName
      | some G =>
        if Regex.matchPattern regexPromiseResult G.name then some funcFileName
        else scan M is funcFileName

/-- `runOnFunction`: the line written, as function name and file name. -/
def runOnFunction (M : Module) (F : Function) : Option (Str × Str) :=
  if skipFunc F then none else (scan M (F.instructions M) []).map fun file => (F.name, file)

def runOnModule (M : Module) : List (Str × Str) := M.functions.filterMap (runOnFunction M)

/-- `F.getName() << "@" << funcFileName` -/
def line (l : Str × Str) : Str := l.1 ++ '@' :: l.2

/-- What the pass adds to the log for a module. -/
def log (M : Module) : Str := Text.unlines ((runOnModule M).map line)

/-! ## What is written -/

/-- A direct call, at a location of the project, that reads the result of a
promise. -/
def ReadsResult (M : Module) (F : Function) : Prop :=
  ∃ p ∈ F.instructions M, inProject p.2 = true ∧ isInstCallFunc M p.2 regexPromiseResult = true

theorem scan_isSome_iff {M : Module} {is : List (ValueId × Instruction)} {file : Str} :
    (scan M is file).isSome ↔ ∃ p ∈ is, inProject p.2 = true ∧
      isInstCallFunc M p.2 regexPromiseResult = true := by
  induction is generalizing file with
  | nil => simp [scan]
  | cons p is ih =>
    obtain ⟨v, i⟩ := p
    rw [scan]
    by_cases hi : inProject i = true
    · rw [if_neg (by simp [hi])]
      cases hG : M.getCalledFunction i with
      | none => simp [ih, hG, isInstCallFunc]
      | some G =>
        by_cases hm : Regex.matchPattern regexPromiseResult G.name = true
        · simp [hi, hG, hm, isInstCallFunc]
        · simp [ih, hG, hm, isInstCallFunc]
    · rw [if_pos (by simp [hi]), ih]
      simp [hi, isInstCallFunc]

/-- The file in a line is that given, if it is not empty, or of a location of the
function. -/
theorem scan_file {M : Module} {is : List (ValueId × Instruction)} {file f : Str}
    (h : scan M is file = some f) :
    f = file ∧ file ≠ [] ∨ ∃ p ∈ is, ∃ loc, p.2.debugLoc = some loc ∧ f = loc.filename := by
  induction is generalizing file with
  | nil => cases h
  | cons p is ih =>
    obtain ⟨v, i⟩ := p
    rw [scan] at h
    have hrest : ∀ {file}, scan M is file = some f →
        f = file ∧ file ≠ [] ∨ ∃ p ∈ (v, i) :: is, ∃ loc, p.2.debugLoc = some loc ∧
          f = loc.filename := by
      intro file h
      rcases ih h with h | ⟨p, hp, h⟩
      · exact Or.inl h
      · exact Or.inr ⟨p, List.mem_cons_of_mem _ hp, h⟩
    by_cases hi : inProject i = true
    · rw [if_neg (by simp [hi])] at h
      obtain ⟨loc, hloc⟩ : ∃ loc, i.debugLoc = some loc := by
        cases hl : i.debugLoc with
        | none => simp [inProject, hl] at hi
        | some loc => exact ⟨loc, rfl⟩
      have hfile : ∀ g, g = (if file.isEmpty = true then
          (i.debugLoc.map DebugLoc.filename).getD [] else file) → f = g →
          f = file ∧ file ≠ [] ∨ ∃ p ∈ (v, i) :: is, ∃ loc, p.2.debugLoc = some loc ∧
            f = loc.filename := by
        rintro g rfl rfl
        split
        · exact Or.inr ⟨_, List.mem_cons_self, loc, hloc, by rw [hloc]; rfl⟩
        · rename_i hne
          exact Or.inl ⟨rfl, fun h => hne (List.isEmpty_iff.2 h)⟩
      simp only at h
      cases hG : M.getCalledFunction i with
      | none =>
        rw [hG] at h
        rcases hrest h with h | h
        · exact hfile _ rfl h.1
        · exact Or.inr h
      | some G =>
        rw [hG] at h
        simp only at h
        split at h
        · exact hfile _ rfl (Option.some.inj h).symm
        · rcases hrest h with h | h
          · exact hfile _ rfl h.1
          · exact Or.inr h
    · rw [if_pos (by simp [hi])] at h
      exact hrest h

theorem runOnFunction_isSome_iff {M : Module} {F : Function} :
    (runOnFunction M F).isSome ↔ ReadsResult M F := by
  rw [runOnFunction, if_neg (by simp), Option.isSome_map, scan_isSome_iff]
  rfl

/-! ## What `yocto-attach` reads -/

/-- Names and paths that a word can hold, with no separator in the names. -/
structure Readable (M : Module) : Prop where
  name : ∀ F ∈ M.functions, F.name ≠ [] ∧ '@' ∉ F.name ∧ ∀ c ∈ F.name, Text.isBlank c = false
  path : ∀ F ∈ M.functions, ∀ p ∈ F.instructions M, ∀ loc, p.2.debugLoc = some loc →
    ∀ c ∈ loc.filename, Text.isBlank c = false

theorem mem_runOnModule {M : Module} {l : Str × Str} (h : l ∈ runOnModule M) :
    ∃ F ∈ M.functions, l.1 = F.name ∧ ReadsResult M F ∧
      ∃ p ∈ F.instructions M, ∃ loc, p.2.debugLoc = some loc ∧ l.2 = loc.filename := by
  obtain ⟨F, hF, hl⟩ := List.mem_filterMap.1 h
  have hread : ReadsResult M F := runOnFunction_isSome_iff.1 (by rw [hl]; rfl)
  rw [runOnFunction, if_neg (by simp)] at hl
  obtain ⟨file, hfile, rfl⟩ := Option.map_eq_some_iff.1 hl
  exact ⟨F, hF, rfl, hread, (scan_file hfile).resolve_left fun h => h.2 rfl⟩

theorem exists_mem_runOnModule {M : Module} {F : Function} (hF : F ∈ M.functions)
    (hread : ReadsResult M F) : ∃ l ∈ runOnModule M, l.1 = F.name := by
  obtain ⟨l, hl⟩ := Option.isSome_iff_exists.1 (runOnFunction_isSome_iff.2 hread)
  refine ⟨l, List.mem_filterMap.2 ⟨F, hF, hl⟩, ?_⟩
  rw [runOnFunction, if_neg (by simp)] at hl
  obtain ⟨file, -, rfl⟩ := Option.map_eq_some_iff.1 hl
  rfl

/-- The words of the log are its lines. -/
theorem words_log {M : Module} (hM : Readable M) :
    Text.words (log M) = (runOnModule M).map line := by
  apply Text.words_unlines
  intro t ht
  obtain ⟨l, hl, rfl⟩ := List.mem_map.1 ht
  obtain ⟨F, hF, hname, -, p, hp, loc, hloc, hfile⟩ := mem_runOnModule hl
  refine ⟨List.append_ne_nil_of_right_ne_nil _ (List.cons_ne_nil _ _), fun c hc => ?_⟩
  rcases List.mem_append.1 hc with hc | hc
  · exact (hM.name F hF).2.2 c (hname ▸ hc)
  · rcases List.mem_cons.1 hc with rfl | hc
    · decide
    · exact hM.path F hF p hp loc hloc c (hfile ▸ hc)

/-- The callbacks that `yocto-attach` reads from the log of a module are the
functions that read a result. -/
theorem mem_loadCallbacks_log {M : Module} (hM : Readable M) {name : Str} :
    name ∈ YoctoAttach.loadCallbacks (log M) ↔
      ∃ F ∈ M.functions, ReadsResult M F ∧ F.name = name := by
  have hcut : ∀ l ∈ runOnModule M, (line l).takeWhile (· != '@') = l.1 := by
    intro l hl
    obtain ⟨F, hF, hname, -⟩ := mem_runOnModule hl
    have hno : ∀ c ∈ l.1, (c != '@') = true := by
      intro c hc
      refine bne_iff_ne.2 fun h => (hM.name F hF).2.1 ?_
      rw [← h, ← hname]
      exact hc
    rw [line, List.takeWhile_append_of_pos hno, List.takeWhile_cons]
    simp
  have hload : YoctoAttach.loadCallbacks (log M) = (runOnModule M).map Prod.fst := by
    rw [YoctoAttach.loadCallbacks, words_log hM, List.map_map]
    exact List.map_congr_left hcut
  rw [hload]
  constructor
  · intro h
    obtain ⟨l, hl, rfl⟩ := List.mem_map.1 h
    obtain ⟨F, hF, hname, hread, -⟩ := mem_runOnModule hl
    exact ⟨F, hF, hread, hname.symm⟩
  · rintro ⟨F, hF, hread, rfl⟩
    exact List.mem_map.2 (exists_mem_runOnModule hF hread)

/-- With several modules, of any of them. -/
theorem mem_loadCallbacks_logs {Ms : List Module} (hM : ∀ M ∈ Ms, Readable M) {name : Str} :
    name ∈ YoctoAttach.loadCallbacks (Ms.map log).flatten ↔
      ∃ M ∈ Ms, ∃ F ∈ M.functions, ReadsResult M F ∧ F.name = name := by
  have hwhole : ∀ t ∈ Ms.map log, Text.Whole t := by
    intro t ht
    obtain ⟨M, -, rfl⟩ := List.mem_map.1 ht
    exact Text.whole_unlines _
  have hload : YoctoAttach.loadCallbacks (Ms.map log).flatten
      = Ms.flatMap fun M => YoctoAttach.loadCallbacks (log M) := by
    rw [YoctoAttach.loadCallbacks, Text.words_flatten hwhole, List.map_flatMap, List.flatMap_map]
    rfl
  rw [hload, List.mem_flatMap]
  exact exists_congr fun M => and_congr_right fun h => mem_loadCallbacks_log (hM M h)

end Callback
