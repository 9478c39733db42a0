import Rustle.Llvm.NearCore

/-!
# `upgrade-func`: functions that deploy and call

The pass writes a line for a function that both deploys a contract and calls a
function, with the file of the **last** instruction that deploys.

* `scan`, `runOnModule` — the pass.
* `Upgrades`, `LastDeploy` — what a line is about.
* `mem_runOnModule` — the lines are those of the functions that upgrade.
-/

open Llvm NearCore
open Text (lit)

namespace UpgradeFunc

def promiseBatchActionDeployContract : Str := lit "promise_batch_action_deploy_contract" rfl

def promiseBatchActionFunctionCall : Str := lit "promise_batch_action_function_call" rfl

/-- The variables of the loop over the instructions. -/
structure Scan where
  callPromiseBatchActionDeployContract : Bool
  callPromiseBatchActionFunctionCall : Bool
  funcFileName : Str
  deriving DecidableEq

section

variable (M : Module)

/-- The body of the loop over the instructions. -/
def step (s : Scan) (i : Instruction) : Scan :=
  if !inProject i then s
  else
    let s := if isInstCallFunc M i promiseBatchActionDeployContract then
        { s with
          callPromiseBatchActionDeployContract := true
          funcFileName := (i.debugLoc.map DebugLoc.filename).getD s.funcFileName }
      else s
    if isInstCallFunc M i promiseBatchActionFunctionCall then
      { s with callPromiseBatchActionFunctionCall := true }
    else s

/-- The loop over the instructions of a function. -/
def scan (F : Function) : Scan :=
  (F.instructions M).foldl (fun s p => step M s p.2) ⟨false, false, []⟩

/-- The line written for a function, as function name and file name. -/
def report (F : Function) : Option (Str × Str) :=
  let s := scan M F
  if s.callPromiseBatchActionDeployContract && s.callPromiseBatchActionFunctionCall then
    some (F.name, s.funcFileName)
  else none

/-- The loop over the functions; a library function would end it. -/
def runOnFunctions : List Function → List (Str × Str)
  | [] => []
  | F :: Fs => if skipFunc F then [] else (report M F).toList ++ runOnFunctions Fs

def runOnModule : List (Str × Str) := runOnFunctions M M.functions

/-! ## What is written -/

/-- The instruction deploys a contract, at a location of the project. -/
def Deploys (i : Instruction) : Prop :=
  inProject i = true ∧ isInstCallFunc M i promiseBatchActionDeployContract = true

/-- It calls a function by a promise. -/
def CallsFunction (i : Instruction) : Prop :=
  inProject i = true ∧ isInstCallFunc M i promiseBatchActionFunctionCall = true

/-- The location is that of the last instruction of the function that deploys. -/
def LastDeploy (F : Function) (loc : DebugLoc) : Prop :=
  ∃ pre p post, F.instructions M = pre ++ p :: post ∧ Deploys M p.2 ∧
    p.2.debugLoc = some loc ∧ ∀ q ∈ post, ¬ Deploys M q.2

/-- A function that both deploys and calls. -/
structure Upgrades (F : Function) : Prop where
  function : F ∈ M.functions
  deploys : ∃ p ∈ F.instructions M, Deploys M p.2
  calls : ∃ p ∈ F.instructions M, CallsFunction M p.2

/-- The invariant of the loop, on the instructions it has gone over. -/
structure Scanned (is : List (ValueId × Instruction)) (s : Scan) : Prop where
  deploys : s.callPromiseBatchActionDeployContract = true ↔ ∃ p ∈ is, Deploys M p.2
  calls : s.callPromiseBatchActionFunctionCall = true ↔ ∃ p ∈ is, CallsFunction M p.2
  file : s.callPromiseBatchActionDeployContract = true → ∃ pre p post loc,
    is = pre ++ p :: post ∧ Deploys M p.2 ∧ p.2.debugLoc = some loc ∧
      s.funcFileName = loc.filename ∧ ∀ q ∈ post, ¬ Deploys M q.2

end

section

variable {M : Module}

theorem exists_mem_snoc {α : Type} {P : α → Prop} {l : List α} {a : α} :
    (∃ x ∈ l ++ [a], P x) ↔ (∃ x ∈ l, P x) ∨ P a := by
  simp only [List.mem_append, List.mem_singleton, or_and_right, exists_or, exists_eq_left]

theorem Scanned.snoc {is : List (ValueId × Instruction)} {s : Scan} (h : Scanned M is s)
    (p : ValueId × Instruction) : Scanned M (is ++ [p]) (step M s p.2) := by
  by_cases hi : inProject p.2 = true
  · obtain ⟨loc, hloc⟩ : ∃ loc, p.2.debugLoc = some loc := by
      cases hl : p.2.debugLoc with
      | none => simp [inProject, hl] at hi
      | some loc => exact ⟨loc, rfl⟩
    have hdep : Deploys M p.2 ↔ isInstCallFunc M p.2 promiseBatchActionDeployContract = true :=
      and_iff_right hi
    have hcall : CallsFunction M p.2 ↔
        isInstCallFunc M p.2 promiseBatchActionFunctionCall = true := and_iff_right hi
    refine ⟨?_, ?_, fun hd => ?_⟩
    · rw [exists_mem_snoc, ← h.deploys, hdep, step, if_neg (by simp [hi])]
      by_cases h1 : isInstCallFunc M p.2 promiseBatchActionDeployContract = true
      · simp only [h1, if_true]
        split <;> simp
      · simp only [h1]
        split <;> simp
    · rw [exists_mem_snoc, ← h.calls, hcall, step, if_neg (by simp [hi])]
      by_cases h1 : isInstCallFunc M p.2 promiseBatchActionDeployContract = true
      · simp only [h1, if_true]
        split <;> simp_all
      · simp only [h1]
        split <;> simp_all
    · by_cases h1 : isInstCallFunc M p.2 promiseBatchActionDeployContract = true
      · refine ⟨is, p, [], loc, rfl, hdep.2 h1, hloc, ?_, fun q hq => absurd hq List.not_mem_nil⟩
        rw [step, if_neg (by simp [hi])]
        simp only [h1, if_true, hloc]
        split <;> rfl
      · have hsame : (step M s p.2).callPromiseBatchActionDeployContract
            = s.callPromiseBatchActionDeployContract ∧
            (step M s p.2).funcFileName = s.funcFileName := by
          rw [step, if_neg (by simp [hi])]
          simp only [h1]
          split <;> exact ⟨rfl, rfl⟩
        rw [hsame.1] at hd
        obtain ⟨pre, q, post, loc', rfl, hq, hloc', hfile, hpost⟩ := h.file hd
        refine ⟨pre, q, post ++ [p], loc', by simp, hq, hloc', hsame.2.trans hfile, fun r hr => ?_⟩
        rcases List.mem_append.1 hr with hr | hr
        · exact hpost r hr
        · rw [List.mem_singleton.1 hr]
          exact fun hp => h1 (hdep.1 hp)
  · have hstep : step M s p.2 = s := by rw [step, if_pos (by simp [hi])]
    have hno : ¬ Deploys M p.2 := fun hd => hi hd.1
    have hno' : ¬ CallsFunction M p.2 := fun hd => hi hd.1
    rw [hstep]
    refine ⟨?_, ?_, fun hd => ?_⟩
    · rw [exists_mem_snoc, h.deploys, or_iff_left hno]
    · rw [exists_mem_snoc, h.calls, or_iff_left hno']
    · obtain ⟨pre, q, post, loc', rfl, hq, hloc', hfile, hpost⟩ := h.file hd
      refine ⟨pre, q, post ++ [p], loc', by simp, hq, hloc', hfile, fun r hr => ?_⟩
      rcases List.mem_append.1 hr with hr | hr
      · exact hpost r hr
      · rw [List.mem_singleton.1 hr]
        exact hno

theorem scanned_scan (F : Function) : Scanned M (F.instructions M) (scan M F) := by
  have hrun : ∀ is : List (ValueId × Instruction),
      Scanned M is (is.foldl (fun s p => step M s p.2) ⟨false, false, []⟩) := by
    intro is
    induction is using List.reverseRecOn with
    | nil => exact ⟨by simp, by simp, fun h => absurd h Bool.false_ne_true⟩
    | append_singleton is p ih =>
      rw [List.foldl_append]
      exact ih.snoc p
  exact hrun _

theorem Upgrades.exists_lastDeploy {F : Function} (h : Upgrades M F) :
    ∃ loc, LastDeploy M F loc := by
  have hscan := scanned_scan (M := M) F
  obtain ⟨pre, p, post, loc, his, hp, hloc, -, hpost⟩ := hscan.file (hscan.deploys.2 h.deploys)
  exact ⟨loc, pre, p, post, his, hp, hloc, hpost⟩

theorem runOnFunctions_eq (Fs : List Function) :
    runOnFunctions M Fs = Fs.filterMap (report M) := by
  induction Fs with
  | nil => rfl
  | cons F Fs ih =>
    rw [runOnFunctions, if_neg (by simp), ih, List.filterMap_cons]
    cases report M F with
    | none => rfl
    | some l => rfl

/-- The lines are those of the functions that upgrade, each with the file of the
last instruction that deploys. -/
theorem mem_runOnModule {l : Str × Str} :
    l ∈ runOnModule M ↔
      ∃ F loc, Upgrades M F ∧ LastDeploy M F loc ∧ l = (F.name, loc.filename) := by
  rw [runOnModule, runOnFunctions_eq, List.mem_filterMap]
  constructor
  · rintro ⟨F, hF, h⟩
    have hscan := scanned_scan (M := M) F
    unfold report at h
    simp only at h
    split at h
    · rename_i hboth
      rw [Bool.and_eq_true] at hboth
      obtain rfl := Option.some.inj h
      obtain ⟨pre, p, post, loc, his, hp, hloc, hfile, hpost⟩ := hscan.file hboth.1
      exact ⟨F, loc, ⟨hF, hscan.deploys.1 hboth.1, hscan.calls.1 hboth.2⟩,
        ⟨pre, p, post, his, hp, hloc, hpost⟩, by rw [hfile]⟩
    · cases h
  · rintro ⟨F, loc, ⟨hF, hdeploys, hcalls⟩, ⟨pre, p, post, his, hp, hloc, hpost⟩, rfl⟩
    have hscan := scanned_scan (M := M) F
    obtain ⟨pre', p', post', loc', his', hp', hloc', hfile, hpost'⟩ :=
      hscan.file (hscan.deploys.2 hdeploys)
    have hsame : p = p' := by
      rw [his] at his'
      rcases List.append_eq_append_iff.1 his' with ⟨as, rfl, has⟩ | ⟨as, rfl, has⟩
      · cases as with
        | nil => exact (List.cons.inj has).1
        | cons a as =>
          obtain ⟨-, rfl⟩ := List.cons.inj has
          exact absurd hp' (hpost p' (by simp))
      · cases as with
        | nil => exact (List.cons.inj has).1.symm
        | cons a as =>
          obtain ⟨-, rfl⟩ := List.cons.inj has
          exact absurd hp (hpost' p (by simp))
    subst hsame
    rw [hloc, Option.some.injEq] at hloc'
    subst hloc'
    refine ⟨F, hF, ?_⟩
    unfold report
    simp only [hscan.deploys.2 hdeploys, hscan.calls.2 hcalls, Bool.and_self, if_true, hfile]

end

end UpgradeFunc
