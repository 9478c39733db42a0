import Rustle.Pass.ReentrancyWalk
import Rustle.Pass.UnsavedChanges
import Rustle.Pass.NftApprovalCheck

/-!
# Passes that iterate a set of pointers

Three passes pick one element out of a set of values that is iterated by
address.  `lines_order_independent_iff` puts together when their lines are a
function of the module: the elements that may be picked have to **agree**.
-/

namespace AddressIndependence

open Llvm NearCore
open Text (lit)
open AddressOrder (Order natOrder)

/-- With the values at the addresses of `o` and of `o'`, each pass comes to the same: it
ends with the same lines, or it ends neither way. -/
structure SameLines (M : Module) (o o' : Order ValueId) : Prop where
  reentrancy : ∀ F ∈ M.functions, ∀ lines,
    (∃ n, Reentrancy.runOnFunction M F o n = some lines) ↔
      ∃ n, Reentrancy.runOnFunction M F o' n = some lines
  unsaved_changes : ∀ line,
    line ∈ UnsavedChanges.runOnModule M o ↔ line ∈ UnsavedChanges.runOnModule M o'
  nft_approval_check : ∀ F ∈ M.functions, ∀ lines,
    (∃ n, NftApprovalCheck.runOnFunction M o n F = some lines) ↔
      ∃ n, NftApprovalCheck.runOnFunction M o' n F = some lines

/-- For every module: the lines of the three passes do not depend on the
addresses if and only if the arms, the unwraps and the slots that may be picked
agree. -/
theorem lines_order_independent_iff (M : Module) :
    (∀ o o' : Order ValueId, SameLines M o o') ↔
      (∀ F ∈ M.functions, Reentrancy.ArmsAgree M F) ∧
      UnsavedChanges.CandidatesAgree M ∧
      ∀ F ∈ M.functions, ∀ l, NftApprovalCheck.entry F = some l →
        NftApprovalCheck.SlotsAgree M l := by
  constructor
  · intro h
    refine ⟨fun F hF => ?_, ?_, fun F hF => ?_⟩
    · exact (Reentrancy.order_independent_iff M F).1 fun o o' => (h o o').reentrancy F hF
    · exact (UnsavedChanges.order_independent_iff M).1 fun o o' => (h o o').unsaved_changes
    · exact (NftApprovalCheck.order_independent_iff M hF).1
        fun o o' => (h o o').nft_approval_check F hF
  · rintro ⟨harms, hcands, hslots⟩ o o'
    refine ⟨fun F hF => ?_, ?_, fun F hF => ?_⟩
    · exact (Reentrancy.order_independent_iff M F).2 (harms F hF) o o'
    · exact (UnsavedChanges.order_independent_iff M).2 hcands o o'
    · exact (NftApprovalCheck.order_independent_iff M hF).2 (hslots F hF) o o'

/-- A callback with two switches on its promise result: the case of success
leads to a store in the first and to nothing in the second. -/
def twoSwitches : Function :=
  ⟨lit "_ZN5token5Token11on_transfer17h1E" rfl, 0, [2],
    [⟨lit "start" rfl, [3, 4, 5]⟩, ⟨lit "bb1" rfl, [6]⟩, ⟨lit "bb2" rfl, [7, 8, 9]⟩,
     ⟨lit "bb3" rfl, [10]⟩]⟩

def switchModule : Module where
  values :=
    [.function, .function, .argument,
     .instruction ⟨.other [], none⟩,
     .instruction ⟨.call [3] [] 1 true, some ⟨lit "src/lib.rs" rfl, 30⟩⟩,
     .instruction ⟨.switch 3 1 [(1, 2)], some ⟨lit "src/lib.rs" rfl, 30⟩⟩,
     .instruction ⟨.switch 3 3 [(1, 3)], some ⟨lit "src/lib.rs" rfl, 31⟩⟩,
     .instruction ⟨.getElementPtr (lit "%Token" rfl) 2 [], some ⟨lit "src/lib.rs" rfl, 32⟩⟩,
     .instruction ⟨.store 2 7, some ⟨lit "src/lib.rs" rfl, 32⟩⟩,
     .instruction ⟨.br none [1], some ⟨lit "src/lib.rs" rfl, 33⟩⟩,
     .instruction ⟨.ret none, some ⟨lit "src/lib.rs" rfl, 34⟩⟩]
  functions :=
    [twoSwitches,
     ⟨lit "_ZN8near_sdk11environment3env14promise_result17h2E" rfl, 1, [], []⟩]
  users := useList _
  users_perm := fun _ => .refl _
  operands_lt := by decide
  params_lt := by decide
  names_nodup := by decide
  functions_nodup := by decide

/-- Addresses that exchange the two switches. -/
def exchanged : Order Nat where
  addr v := if v = 5 then 6 else if v = 6 then 5 else v
  injective := by
    intro a b h
    simp only at h
    split_ifs at h <;> omega

/-- The line of `twoSwitches` depends on the addresses of the two switches. -/
theorem twoSwitches_order_dependent : ¬ ∀ o o' : Order ValueId, SameLines switchModule o o' := by
  intro h
  have h₁ : Reentrancy.runOnFunction switchModule twoSwitches natOrder 3 =
      some [(lit "_ZN5token5Token11on_transfer17h1E" rfl, lit "src/lib.rs" rfl, 32)] := by
    decide +kernel
  have h₂ : Reentrancy.runOnFunction switchModule twoSwitches exchanged 3 = some [] := by
    decide +kernel
  have hmem : twoSwitches ∈ switchModule.functions := by simp [switchModule]
  obtain ⟨n, hn⟩ := ((h natOrder exchanged).reentrancy twoSwitches hmem _).1 ⟨3, h₁⟩
  -- the run that ends after three blocks has ended with nothing
  have h₃ := Reentrancy.runOnFunction_mono switchModule twoSwitches (Nat.le_max_left 3 n) h₂
  rw [Reentrancy.runOnFunction_mono switchModule twoSwitches (Nat.le_max_right 3 n) hn] at h₃
  cases h₃

end AddressIndependence
