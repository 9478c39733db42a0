import Rustle.Llvm.NearCore

/-!
# Typed modules, and the users of a value with a bounded depth

* `TypedModule` — a module with what the printer and the class tests say of its
  values.
* `findUsers` — the users of a value, through operands as well;
  `exists_findUsers` says that its fuel is enough.
-/

namespace Llvm

/-- The comparison of an `icmp`. -/
inductive Predicate where
  | eq | ne | ugt | uge | ult | ule | sgt | sge | slt | sle
  deriving DecidableEq, Repr

/-- What kind of instruction stands behind `Op.other`. -/
inductive OtherClass where
  /-- A `UnaryInstruction` that is no cast. -/
  | unary
  /-- A `CastInst`, which is a `UnaryInstruction` too. -/
  | cast
  | binaryOperator
  | icmp (predicate : Predicate)
  | rest
  deriving DecidableEq, Repr

/-- A module with what the printer and the class tests say of its values. -/
structure TypedModule extends Module where
  /-- The kind of an instruction that is `Op.other`. -/
  otherClass : ValueId → OtherClass
  /-- `printToString(v->getType())` -/
  typeName : ValueId → Str
  /-- `printToString(v)` -/
  printed : ValueId → Str
  /-- `getType()->isIntegerTy(128)` -/
  isInt128 : ValueId → Bool
  /-- The bits of a `ConstantInt` as a number, `none` for any other value. -/
  constantInt : ValueId → Option Nat

/-- The kind of the instruction `v`, if it is `Op.other`. -/
def TypedModule.other? (M : TypedModule) (v : ValueId) : Option OtherClass :=
  match M.instruction? v with
  | some ⟨.other _, _⟩ => some (M.otherClass v)
  | _ => none

end Llvm

namespace NearCore

open Llvm
open Text (lit)

/-- `__INT32_MAX__`, the default depth. -/
def INT32_MAX : Nat := 2147483647

section

variable (M : TypedModule)

/-- The users that a copy to the target of a `memcpy` reaches. -/
def memcpySteps (i : Instruction) : List ValueId :=
  match i.getArgOperand 0 with
  | none => []
  | some target =>
    M.users target ++
      -- the pointer that the target is cast from
      if M.other? target = some .cast then
        match (M.instruction? target).bind fun j => j.getArgOperand 0 with
        | some source => M.users source
        | none => []
      else []

/-- Where `findUsers` goes from the call `v`, with the default `GEP_OFFSET`. -/
def callSteps (v : ValueId) (i : Instruction) (set : List ValueId) : List ValueId :=
  let name := (M.getCalledFunction i).map Function.name
  if name.any fun n => (lit "llvm.memcpy" rfl).isPrefixOf n then memcpySteps M i
  else if name.any fun n => Text.contains n (lit "core..cmp" rfl) then []
  else if (name.any fun n => Text.contains n (lit "core..convert..Into" rfl)) &&
      decide (2 ≤ i.args.length) && (i.getArgOperand 1).any set.contains then
    (i.getArgOperand 0).toList
  else i.args ++ M.users v

/-- Where `findUsers` goes from `v` at some depth. -/
def findUsersSteps (node : ValueId × Nat) (set : List ValueId) : List (ValueId × Nat) :=
  match M.instruction? node.1 with
  | some i =>
    (match i.op with
      | .store _ pointer => [pointer]
      | .getElementPtr .. => M.users node.1
      | .call .. => callSteps M node.1 i set
      | .other _ =>
        match M.otherClass node.1 with
        | .unary | .cast | .binaryOperator => M.users node.1
        | .icmp _ | .rest => []
      | .br .. | .switch .. | .ret .. => []).map fun u => (u, node.2 - 1)
  -- the search of the users of any other value starts with the default depth again
  | none => (M.users node.1).map fun u => (u, INT32_MAX)

/-- `findUsers(value, set)`: the set of users of a value, the last one found first. -/
def findUsers (v : ValueId) : Option (List ValueId) :=
  Visit.visitBy Prod.fst (fun node => decide (node.2 = 0) || M.isLabelTy node.1)
    (findUsersSteps M) (M.values.length + 1) (v, INT32_MAX) []

theorem memcpySteps_lt {u : ValueId} {i : Instruction} (h : u ∈ memcpySteps M i) :
    u < M.values.length := by
  unfold memcpySteps at h
  split at h
  · exact absurd h List.not_mem_nil
  · rcases List.mem_append.1 h with h | h
    · exact M.users_lt h
    · split at h
      · split at h
        · exact M.users_lt h
        · exact absurd h List.not_mem_nil
      · exact absurd h List.not_mem_nil

theorem callSteps_lt {v u : ValueId} {i : Instruction} {set : List ValueId}
    (hi : M.instruction? v = some i) (h : u ∈ callSteps M v i set) : u < M.values.length := by
  have hoperand : ∀ {k w}, i.getArgOperand k = some w → w < M.values.length :=
    fun hw => M.instruction_operands_lt hi (List.mem_of_getElem? hw)
  unfold callSteps at h
  simp only at h
  split at h
  · exact memcpySteps_lt M h
  · split at h
    · exact absurd h List.not_mem_nil
    · split at h
      · exact hoperand (Option.mem_toList.1 h)
      · rcases List.mem_append.1 h with h | h
        · exact M.instruction_operands_lt hi (Instruction.mem_operands_of_mem_args h)
        · exact M.users_lt h

theorem findUsersSteps_lt {node node' : ValueId × Nat} {set : List ValueId}
    (h : node' ∈ findUsersSteps M node set) : node'.1 < M.values.length := by
  unfold findUsersSteps at h
  split at h
  · rename_i i hi
    obtain ⟨u, hu, rfl⟩ := List.mem_map.1 h
    split at hu
    · rename_i value pointer hop
      rw [List.mem_singleton] at hu
      subst hu
      exact M.instruction_operands_lt hi (by simp [hop, Op.operands])
    · exact M.users_lt hu
    · exact callSteps_lt M hi hu
    · split at hu
      · exact M.users_lt hu
      · exact M.users_lt hu
      · exact M.users_lt hu
      · exact absurd hu List.not_mem_nil
      · exact absurd hu List.not_mem_nil
    · exact absurd hu List.not_mem_nil
    · exact absurd hu List.not_mem_nil
    · exact absurd hu List.not_mem_nil
  · obtain ⟨u, hu, rfl⟩ := List.mem_map.1 h
    exact M.users_lt hu

/-- The search always ends. -/
theorem exists_findUsers {v : ValueId} (hv : v < M.values.length) :
    ∃ users, findUsers M v = some users := by
  have hclosed : ∀ node : ValueId × Nat, Prod.fst node ∈ List.range M.values.length → ∀ set,
      ∀ node' ∈ findUsersSteps M node set, Prod.fst node' ∈ List.range M.values.length :=
    fun _ _ set node' hnode => List.mem_range.2 (findUsersSteps_lt M hnode)
  have hnone : Visit.Within (List.range M.values.length) [] := ⟨List.nodup_nil, List.nil_subset _⟩
  obtain ⟨users, h, -⟩ : ∃ users, findUsers M v = some users ∧
      Visit.Within (List.range M.values.length) users ∧ [].length ≤ users.length :=
    Visit.visitBy_isSome hclosed (List.mem_range.2 hv) hnone (by simp)
  exact ⟨users, h⟩

end

end NearCore
