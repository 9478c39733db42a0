import Rustle.Library.BoundedSearch
import Rustle.Llvm.UserFlow

/-!
# The callers of a function, down to a depth

* `findFunctionCallerRec` — the search of `near_core.cpp`.
* `CallChain` — a chain of calls from one function to another.
* `ComesTo` — the functions the search comes to, with the depth left and the set then.
* `callers_exact` — when the search finds all callers within its depth: a function that
  is in the set is **not** gone on from again, whatever depth is left.
* `callers_exact_iff` — the same, as a condition on what the whole search has entered.
-/

namespace FunctionCallers

open Llvm NearCore
open Text (lit)

section

variable (M : Module)

/-- The function a call stands in. -/
def caller? (u : ValueId) : Option ValueId :=
  match M.instruction? u with
  | some i => if i.isCall then (M.getFunction u).map Function.value else none
  | none => none

/-- `findFunctionCallerRec(F, set, depth)`: functions stand for themselves as values. -/
def findFunctionCallerRec : Nat → ValueId → List ValueId → List ValueId
  | 0, _, set => set
  | depth + 1, F, set =>
    (M.users F).foldl
      (fun set u =>
        match caller? M u with
        | some caller =>
          if caller ∈ set then set else findFunctionCallerRec depth caller (caller :: set)
        | none => set)
      set

/-! ## Chains of calls -/

/-- A call instruction of the function `G` has the function `F` as an operand. -/
def Calls (G F : ValueId) : Prop :=
  ∃ u i, M.instruction? u = some i ∧ i.isCall = true ∧ F ∈ i.op.operands ∧
    ∃ P, M.getFunction u = some P ∧ P.value = G

/-- A chain of `k` calls leads from `G` to `F`. -/
def CallChain : Nat → ValueId → ValueId → Prop
  | 0, G, F => G = F
  | k + 1, G, F => ∃ H, Calls M G H ∧ CallChain k H F

/-- The callers of a function, in the order of its uses. -/
def callers (F : ValueId) : List ValueId := (M.users F).filterMap (caller? M)

/-- The search from `F` comes to the caller `H` with the depth `r` left for it; `set` is the
set at this time, with the depth that was left for each function when it was put in. -/
def ComesTo (d : Nat) (F H : ValueId) (r : Nat) (set : List (ValueId × Nat)) : Prop :=
  ∃ e, d = e + 1 ∧ BoundedSearch.Meets (callers M) e (callers M F) [] H r set

/-- The functions that the search enters, with the depth that is left there; the first
one is where it starts. -/
def entered (d : Nat) (F : ValueId) : List (ValueId × Nat) :=
  (F, d) :: BoundedSearch.found (callers M) d F

/-- A function that the search enters with no depth left, although fewer than `d` calls
lead from it to `F`, has no other callers than functions that the search enters with
some depth left have too. -/
def NothingCutOff (d : Nat) (F : ValueId) : Prop :=
  ∀ H, (H, 0) ∈ entered M d F → (∃ k, 1 ≤ k ∧ k < d ∧ CallChain M k H F) → ∀ G, Calls M G H →
    ∃ q ∈ entered M d F, 0 < q.2 ∧ Calls M G q.1

end

section

variable {M : Module}

theorem caller?_eq_some_iff {u G : ValueId} :
    caller? M u = some G ↔ ∃ i, M.instruction? u = some i ∧ i.isCall = true ∧
      ∃ P, M.getFunction u = some P ∧ P.value = G := by
  rw [caller?]
  cases M.instruction? u with
  | none => simp
  | some i =>
    cases hcall : i.isCall with
    | true => simp [hcall]
    | false => simp [hcall]

/-- The callers are those that have the function as an operand of a call. -/
theorem mem_callers_iff {F G : ValueId} : G ∈ callers M F ↔ Calls M G F := by
  rw [callers, List.mem_filterMap]
  constructor
  · rintro ⟨u, hu, hG⟩
    obtain ⟨i, hi, hcall, hP⟩ := caller?_eq_some_iff.1 hG
    obtain ⟨x, hx, hoperand⟩ := UserFlow.exists_of_mem_users hu
    rw [UserFlow.values_of_instruction? hi, Option.some.injEq] at hx
    subst hx
    exact ⟨u, i, hi, hcall, hoperand, hP⟩
  · rintro ⟨u, i, hi, hcall, hF, hP⟩
    exact ⟨u, Module.mem_users_of_operand hi hF, caller?_eq_some_iff.2 ⟨i, hi, hcall, hP⟩⟩

theorem chain_iff_callChain {k : Nat} {F G : ValueId} :
    BoundedSearch.Chain (callers M) k G F ↔ CallChain M k G F := by
  induction k generalizing G with
  | zero => exact Iff.rfl
  | succ k ih =>
    rw [BoundedSearch.Chain, CallChain]
    simp only [mem_callers_iff, ih]

/-- The search is the one of the library, from the callers of a function. -/
theorem findFunctionCallerRec_eq (depth : Nat) (F : ValueId) (set : List ValueId) :
    findFunctionCallerRec M depth F set = BoundedSearch.search (callers M) depth F set := by
  induction depth generalizing F set with
  | zero => rfl
  | succ depth ih =>
    rw [findFunctionCallerRec, BoundedSearch.search, callers, List.foldl_filterMap]
    congr 1
    funext set u
    cases caller? M u with
    | none => rfl
    | some caller => simp only [ih]

theorem nothingCutOff_iff {d : Nat} {F : ValueId} :
    BoundedSearch.NothingCutOff (callers M) d F ↔ NothingCutOff M d F := by
  rw [BoundedSearch.NothingCutOff, NothingCutOff]
  simp only [mem_callers_iff, chain_iff_callChain, entered]
  refine ⟨fun h H hH hchain => ?_, fun h H hH => h H (List.mem_cons_of_mem _ hH)⟩
  rcases List.mem_cons.1 hH with heq | hH
  · -- with no depth at all, no chain is short enough
    obtain ⟨k, hk, hkd, -⟩ := hchain
    rw [Prod.mk.injEq] at heq
    omega
  · exact h H hH hchain

end

/-- The search finds exactly the functions with a chain of at most `d` calls to `F`
if and only if nothing is cut off. -/
theorem callers_exact_iff {M : Module} {F : Function} {d : Nat} :
    (∀ G, G ∈ findFunctionCallerRec M d F.value [] ↔
      ∃ k, 1 ≤ k ∧ k ≤ d ∧ CallChain M k G F.value) ↔ NothingCutOff M d F.value := by
  rw [← nothingCutOff_iff, ← BoundedSearch.search_complete_iff, findFunctionCallerRec_eq]
  simp only [chain_iff_callChain]

/-- If every function that the search comes to again had been put into the set with as much
depth left or more, the search finds exactly the functions with a chain of at most `d`
calls to `F`. -/
theorem callers_exact (M : Module) (F : Function) (d : Nat)
    (h : ∀ H r set, ComesTo M d F.value H r set → ∀ p ∈ set, p.1 = H → r ≤ p.2) (G : ValueId) :
    G ∈ findFunctionCallerRec M d F.value [] ↔
      ∃ k, 1 ≤ k ∧ k ≤ d ∧ CallChain M k G F.value := by
  have hnever : ∀ e, d = e + 1 →
      BoundedSearch.NeverDeeper (callers M) e (callers M F.value) [] :=
    fun e he H r set hmeets => h H r set ⟨e, he, hmeets⟩
  rw [findFunctionCallerRec_eq, BoundedSearch.search_complete hnever]
  simp only [chain_iff_callChain]

/-- `mint` is called by `deposit` and by `refund`, `deposit` by `refund`, and `refund`
by `on_transfer`. -/
def refundModule : Module where
  values :=
    [.function, .function, .function, .function,
     .instruction ⟨.call [] [] 0 true, some ⟨lit "src/lib.rs" rfl, 12⟩⟩,
     .instruction ⟨.call [] [] 0 true, some ⟨lit "src/lib.rs" rfl, 20⟩⟩,
     .instruction ⟨.call [] [] 1 true, some ⟨lit "src/lib.rs" rfl, 21⟩⟩,
     .instruction ⟨.call [] [] 2 true, some ⟨lit "src/lib.rs" rfl, 30⟩⟩]
  functions :=
    [⟨lit "_ZN5token5Token4mint17h1E" rfl, 0, [], []⟩,
     ⟨lit "_ZN5token5Token7deposit17h2E" rfl, 1, [], [⟨lit "start" rfl, [4]⟩]⟩,
     ⟨lit "_ZN5token5Token6refund17h3E" rfl, 2, [], [⟨lit "start" rfl, [5, 6]⟩]⟩,
     ⟨lit "_ZN5token5Token11on_transfer17h4E" rfl, 3, [], [⟨lit "start" rfl, [7]⟩]⟩]
  users := useList _
  users_perm := fun _ => .refl _
  operands_lt := by decide
  params_lt := by decide
  names_nodup := by decide +kernel
  functions_nodup := by decide

def mint : Function := ⟨lit "_ZN5token5Token4mint17h1E" rfl, 0, [], []⟩

/-- The same calls, with the use of `mint` in `refund` before the one in `deposit`. -/
def refundFirst : Module where
  values :=
    [.function, .function, .function, .function,
     .instruction ⟨.call [] [] 0 true, some ⟨lit "src/lib.rs" rfl, 12⟩⟩,
     .instruction ⟨.call [] [] 0 true, some ⟨lit "src/lib.rs" rfl, 20⟩⟩,
     .instruction ⟨.call [] [] 1 true, some ⟨lit "src/lib.rs" rfl, 21⟩⟩,
     .instruction ⟨.call [] [] 2 true, some ⟨lit "src/lib.rs" rfl, 30⟩⟩]
  functions :=
    [mint,
     ⟨lit "_ZN5token5Token7deposit17h2E" rfl, 1, [], [⟨lit "start" rfl, [4]⟩]⟩,
     ⟨lit "_ZN5token5Token6refund17h3E" rfl, 2, [], [⟨lit "start" rfl, [5, 6]⟩]⟩,
     ⟨lit "_ZN5token5Token11on_transfer17h4E" rfl, 3, [], [⟨lit "start" rfl, [7]⟩]⟩]
  users := fun v => (useList _ v).reverse
  users_perm := fun _ => List.reverse_perm _
  operands_lt := refundModule.operands_lt
  params_lt := refundModule.params_lt
  names_nodup := refundModule.names_nodup
  functions_nodup := refundModule.functions_nodup

/-- The search comes to `refund` again behind `deposit`, with no depth left. -/
theorem refundFirst_never_deeper : ∀ H r set, ComesTo refundFirst 2 mint.value H r set →
    ∀ p ∈ set, p.1 = H → r ≤ p.2 := by
  have hmint : callers refundFirst 0 = [2, 1] := by decide
  have hdeposit : callers refundFirst 1 = [2] := by decide
  have hrefund : callers refundFirst 2 = [3] := by decide
  have hset : BoundedSearch.visit (callers refundFirst) 1 [] 2 = [(3, 0), (2, 1)] := by decide
  rintro H r set ⟨e, he, hmeets⟩
  obtain rfl : e = 1 := by omega
  rw [show mint.value = 0 from rfl, hmint] at hmeets
  cases hmeets with
  | here => simp
  | into hnew hmeets =>
    rw [hrefund] at hmeets
    cases hmeets with
    | here => simp
    | on hmeets => cases hmeets
  | on hmeets =>
    rw [hset] at hmeets
    cases hmeets with
    | here => simp
    | into hnew hmeets =>
      rw [hdeposit] at hmeets
      cases hmeets with
      | here => simp
      | on hmeets => cases hmeets
    | on hmeets => cases hmeets

theorem callers_exact_refundFirst :
    3 ∈ findFunctionCallerRec refundFirst 2 mint.value [] ↔
      ∃ k, 1 ≤ k ∧ k ≤ 2 ∧ CallChain refundFirst k 3 mint.value :=
  callers_exact refundFirst mint 2 refundFirst_never_deeper 3

/-- `on_transfer` is two calls away from `mint`, through `refund`, which the search meets
first behind `deposit`. -/
theorem refund_callers_missed :
    ¬ ∀ G, G ∈ findFunctionCallerRec refundModule 2 mint.value [] ↔
      ∃ k, 1 ≤ k ∧ k ≤ 2 ∧ CallChain refundModule k G mint.value := by
  intro h
  have hrefund : Calls refundModule 2 0 := ⟨5, _, rfl, rfl, by decide, _, rfl, rfl⟩
  have htransfer : Calls refundModule 3 2 := ⟨7, _, rfl, rfl, by decide, _, rfl, rfl⟩
  have hchain : CallChain refundModule 2 3 mint.value := ⟨2, htransfer, 0, hrefund, rfl⟩
  have hmem := (h 3).2 ⟨2, by decide, by decide, hchain⟩
  have hrun : findFunctionCallerRec refundModule 2 mint.value [] = [2, 1] := by decide +kernel
  rw [hrun] at hmem
  exact absurd hmem (by decide)


end FunctionCallers
