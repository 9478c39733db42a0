import Rustle.Library.FaultyLoop
import Rustle.Llvm.FindUsers

/-!
# `unclaimed-storage-fee`: is the balance compared with zero?

* `hasBalanceCmp` — the search of a function and of what it calls, down to a depth,
  or the null function it comes to.
* `Bare`, `MeetsNull` — what such a search comes through, and what it breaks down
  on; `hasBalanceCmp_eq_false_iff` and `hasBalanceCmp_eq_error_iff` say so.
* `runOnModule_eq_error_iff` — the pass as a whole.
-/

namespace UnclaimedStorageFee

open Llvm NearCore FaultyLoop
open Text (lit)

def regex_storage_unregister : Str := lit "[0-9]+storage_unregister[0-9]+" rfl

section

variable (M : TypedModule)

/-- `isa<ConstantInt>(v) && getZExtValue() == 0`: the value is read from the low 64
bits. -/
def isZero (v : ValueId) : Bool :=
  match M.constantInt v with
  | some n => n % 2 ^ 64 == 0
  | none => false

/-- Is the instruction a comparison of a 128-bit integer with zero? -/
def isBalanceCmp (v : ValueId) (i : Instruction) : Bool :=
  match i.op, M.otherClass v with
  | .other [lhs, rhs], .icmp predicate =>
    M.isInt128 lhs &&
      match predicate with
      | .eq | .ne => isZero M rhs || isZero M lhs
      | .ule | .ugt => isZero M rhs
      | .uge | .ult => isZero M lhs
      | .sgt | .sge | .slt | .sle => false
  | _, _ => false

/-- What the loop over the instructions does at one of them. -/
def instCmp (search : Option Function → Except Fault Bool) (p : ValueId × Instruction) :
    Except Fault Bool :=
  if p.2.isCall then
    match search (M.getCalledFunction p.2) with
    | .ok false => .ok (isBalanceCmp M p.1 p.2)
    | r => r
  else .ok (isBalanceCmp M p.1 p.2)

/-- `hasBalanceCmp(F, depth)`; the function may be null. -/
def hasBalanceCmp : Nat → Option Function → Except Fault Bool
  | 0, _ => .ok false
  | _ + 1, none => .error .nullFunction
  | depth + 1, some F =>
    if skipFunc F then .ok false
    else (F.instructions M.toModule).anyM (instCmp M (hasBalanceCmp depth))

/-- Is the function examined? -/
def isStorageUnregister (F : Function) : Bool :=
  !skipFunc F && Regex.matchPattern regex_storage_unregister F.name

/-- The line written for a function, as function and verdict. -/
def storageLine (F : Function) : Except Fault (List (Str × Bool)) :=
  if isStorageUnregister F then (hasBalanceCmp M 3 (some F)).map fun found => [(F.name, found)]
  else .ok []

/-- `runOnModule` -/
def runOnModule : Except Fault (List (Str × Bool)) :=
  (M.functions.mapM (storageLine M)).map List.flatten

/-! ## What a search comes to -/

/-- Nothing stops the search of the function: it has no comparison, nor have the
functions it calls, down to the depth; and every call above the last level is
direct. -/
def Bare : Nat → Option Function → Prop
  | 0, _ => True
  | _ + 1, none => False
  | depth + 1, some F => ∀ p ∈ F.instructions M.toModule,
      isBalanceCmp M p.1 p.2 = false ∧
        (p.2.isCall = true → Bare depth (M.getCalledFunction p.2))

/-- The search comes to a null function before anything else stops it. -/
def MeetsNull : Nat → Option Function → Prop
  | 0, _ => False
  | _ + 1, none => True
  | depth + 1, some F =>
    Reaches
      (fun p => isBalanceCmp M p.1 p.2 = false ∧
        (p.2.isCall = true → Bare M depth (M.getCalledFunction p.2)))
      (fun p => p.2.isCall = true ∧ MeetsNull depth (M.getCalledFunction p.2))
      (F.instructions M.toModule)

theorem instCmp_eq_false_iff {search : Option Function → Except Fault Bool}
    {p : ValueId × Instruction} :
    instCmp M search p = .ok false ↔ isBalanceCmp M p.1 p.2 = false ∧
      (p.2.isCall = true → search (M.getCalledFunction p.2) = .ok false) := by
  unfold instCmp
  cases p.2.isCall with
  | false => simp
  | true =>
    rcases search (M.getCalledFunction p.2) with e | b
    · simp
    · cases b <;> simp

theorem instCmp_eq_error_iff {search : Option Function → Except Fault Bool}
    {p : ValueId × Instruction} {e : Fault} :
    instCmp M search p = .error e ↔
      p.2.isCall = true ∧ search (M.getCalledFunction p.2) = .error e := by
  unfold instCmp
  cases p.2.isCall with
  | false => simp
  | true =>
    rcases search (M.getCalledFunction p.2) with e' | b
    · simp
    · cases b <;> simp

theorem hasBalanceCmp_eq_false_iff {depth : Nat} {F : Option Function} :
    hasBalanceCmp M depth F = .ok false ↔ Bare M depth F := by
  induction depth generalizing F with
  | zero => simp [hasBalanceCmp, Bare]
  | succ depth ih =>
    cases F with
    | none => simp [hasBalanceCmp, Bare]
    | some F =>
      rw [hasBalanceCmp, if_neg (by simp), Bare, anyM_eq_ok_false_iff]
      simp only [instCmp_eq_false_iff, ih]

theorem hasBalanceCmp_eq_error_iff {depth : Nat} {F : Option Function} {e : Fault} :
    hasBalanceCmp M depth F = .error e ↔ e = .nullFunction ∧ MeetsNull M depth F := by
  induction depth generalizing F with
  | zero => simp [hasBalanceCmp, MeetsNull]
  | succ depth ih =>
    cases F with
    | none => simp [hasBalanceCmp, MeetsNull, eq_comm]
    | some F =>
      rw [hasBalanceCmp, if_neg (by simp), MeetsNull, anyM_eq_error_iff]
      simp only [instCmp_eq_false_iff, instCmp_eq_error_iff, hasBalanceCmp_eq_false_iff, ih]
      by_cases he : e = .nullFunction
      · simp only [he, true_and]
      · refine iff_of_false (fun hreach => ?_) (fun h => he h.1)
        obtain ⟨p, -, -, hp, -⟩ := hreach.exists_mem
        exact he hp

/-- The pass breaks down on a function that it examines. -/
theorem runOnModule_eq_error_iff {e : Fault} :
    runOnModule M = .error e ↔ e = .nullFunction ∧
      ∃ F ∈ M.functions, isStorageUnregister F = true ∧ MeetsNull M 3 (some F) := by
  have hline : ∀ F e, storageLine M F = .error e ↔
      e = .nullFunction ∧ isStorageUnregister F = true ∧ MeetsNull M 3 (some F) := by
    intro F e
    unfold storageLine
    cases isStorageUnregister F with
    | false => simp
    | true =>
      simp only [if_true, true_and, ← hasBalanceCmp_eq_error_iff, map_eq_error_iff]
  rw [runOnModule, map_eq_error_iff]
  constructor
  · intro h
    obtain ⟨F, hF, herr⟩ := (mapM_eq_error_iff.1 h).exists_mem
    obtain ⟨he, hmeets⟩ := (hline F e).1 herr
    exact ⟨he, F, hF, hmeets⟩
  · rintro ⟨rfl, F, hF, hmeets⟩
    -- a loop that does not go through ends with a fault, and there is one only
    cases hall : M.functions.mapM (storageLine M) with
    | error e' =>
      obtain ⟨G, -, hG⟩ := (mapM_eq_error_iff.1 hall).exists_mem
      rw [((hline G e').1 hG).1]
    | ok lines =>
      obtain ⟨line, hF'⟩ := exists_mapM_iff.1 ⟨lines, hall⟩ F hF
      have herr := (hline F .nullFunction).2 ⟨rfl, hmeets⟩
      rw [hF'] at herr
      cases herr

end

end UnclaimedStorageFee
