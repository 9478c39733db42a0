import Rustle.Library.Text

/-!
# LLVM modules, as far as the detectors read them

A module is a table of values and a list of functions.  A value is referred to
by its index in the table, a block by its index in the function it belongs to.

* `Op`, `Instruction`, `Value` — the instructions the detectors look at by
  name; every other instruction is `Op.other` with its operands.
* `Module` — the module with the use list of each value.  The order of a use
  list is part of the module; what it holds is forced by the operands.
* `getCalledFunction`, `getArgOperand`, `getArg` — the accessors, **without**
  the assertions of a debug build.
-/

namespace Llvm

/-- A value, by its index in the table of the module. -/
abbrev ValueId := Nat

/-- A basic block, by its index in its function. -/
abbrev BlockId := Nat

/-- A source location. -/
structure DebugLoc where
  /-- `getFilename` -/
  filename : Str
  /-- `getLine` -/
  line : Nat
  deriving DecidableEq, Repr

/-- What a pass uses although it is not there. -/
inductive Fault where
  /-- The function called by an indirect call. -/
  | nullFunction
  /-- The location of an instruction or a loop that has none. -/
  | nullLocation
  /-- A parameter behind the last one of a function. -/
  | noParameter
  deriving DecidableEq, Repr

/-- What an instruction does. -/
inductive Op where
  /-- A call or an invoke.  `extra` are the operands between the arguments and
  the called operand: bundles, and the destinations of an invoke.  `typed` says
  that the type called is the type of the called operand. -/
  | call (args extra : List ValueId) (called : ValueId) (typed : Bool)
  | store (value pointer : ValueId)
  | br (condition : Option ValueId) (successors : List BlockId)
  | switch (condition : ValueId) (default : BlockId) (cases : List (Nat × BlockId))
  | ret (value : Option ValueId)
  | getElementPtr (sourceElementType : Str) (pointer : ValueId) (indices : List ValueId)
  | other (operands : List ValueId)
  deriving DecidableEq, Repr

/-- The values an operation uses, in the order of its operand list. -/
def Op.operands : Op → List ValueId
  | .call args extra called _ => args ++ extra ++ [called]
  | .store value pointer => [value, pointer]
  | .br condition _ => condition.toList
  | .switch condition _ _ => [condition]
  | .ret value => value.toList
  | .getElementPtr _ pointer indices => pointer :: indices
  | .other operands => operands

/-- An instruction. -/
structure Instruction where
  op : Op
  /-- `getDebugLoc`, `none` when it holds no location. -/
  debugLoc : Option DebugLoc
  deriving DecidableEq, Repr

/-- What stands in the table of values. -/
inductive Value where
  | instruction (i : Instruction)
  | argument
  | function
  /-- A basic block, the only kind of value of label type. -/
  | basicBlock
  | constant (operands : List ValueId)
  deriving DecidableEq, Repr

/-- The values a value uses. -/
def Value.operands : Value → List ValueId
  | .instruction i => i.op.operands
  | .constant operands => operands
  | .argument | .function | .basicBlock => []

/-- A basic block: its name and its instructions. -/
structure BasicBlock where
  name : Str
  insts : List ValueId
  deriving Repr

/-- A function; a declaration has no blocks. -/
structure Function where
  name : Str
  /-- The function as a value. -/
  value : ValueId
  params : List ValueId
  blocks : List BasicBlock
  deriving Repr

/-- A block of a module, with the function it belongs to. -/
abbrev Block := Function × BlockId

/-- The block with that index in its function. -/
def Block.get? (b : Block) : Option BasicBlock := b.1.blocks[b.2]?

/-- The users of `v` that the operands in the table give, once for each use. -/
def useList (values : List Value) (v : ValueId) : List ValueId :=
  (List.range values.length).flatMap fun u =>
    match values[u]? with
    | some x => (x.operands.filter (· == v)).map fun _ => u
    | none => []

/-- A module whose references all lead somewhere and whose functions have
different names. -/
structure Module where
  values : List Value
  functions : List Function
  /-- The use list of each value. -/
  users : ValueId → List ValueId
  users_perm : ∀ v, (users v).Perm (useList values v)
  operands_lt : ∀ x ∈ values, ∀ v ∈ x.operands, v < values.length
  params_lt : ∀ F ∈ functions, ∀ p ∈ F.params, p < values.length
  names_nodup : (functions.map Function.name).Nodup
  functions_nodup : (functions.map Function.value).Nodup

theorem mem_useList_lt {values : List Value} {u v : ValueId} (h : u ∈ useList values v) :
    u < values.length := by
  unfold useList at h
  obtain ⟨w, hw, hu⟩ := List.mem_flatMap.1 h
  rw [List.mem_range] at hw
  split at hu
  · obtain ⟨_, _, rfl⟩ := List.mem_map.1 hu
    exact hw
  · simp at hu

namespace Module

variable (M : Module)

/-- The instruction that the value `v` is, if it is one. -/
def instruction? (v : ValueId) : Option Instruction :=
  match M.values[v]? with
  | some (.instruction i) => some i
  | _ => none

/-- `getType()->isLabelTy()` -/
def isLabelTy (v : ValueId) : Bool := M.values[v]? == some .basicBlock

/-- The function that the value `v` is, if it is one. -/
def function? (v : ValueId) : Option Function := M.functions.find? fun F => F.value == v

/-- `getFunction` of an instruction: the function in one of whose blocks it stands. -/
def getFunction (v : ValueId) : Option Function :=
  M.functions.find? fun F => F.blocks.any fun B => B.insts.contains v

/-- The instructions of a block with their values, in order. -/
def instructions (B : BasicBlock) : List (ValueId × Instruction) :=
  B.insts.filterMap fun v => (M.instruction? v).map fun i => (v, i)

/-- `getCalledFunction`: the function called directly. -/
def getCalledFunction (i : Instruction) : Option Function :=
  match i.op with
  | .call _ _ called true => M.function? called
  | _ => none

theorem users_lt {u v : ValueId} (h : u ∈ M.users v) : u < M.values.length :=
  mem_useList_lt ((M.users_perm v).subset h)

theorem mem_functions_of_function? {v : ValueId} {F : Function} (h : M.function? v = some F) :
    F ∈ M.functions :=
  List.mem_of_find?_eq_some h

theorem mem_functions_of_getCalledFunction {i : Instruction} {F : Function}
    (h : M.getCalledFunction i = some F) : F ∈ M.functions := by
  unfold getCalledFunction at h
  split at h
  · exact M.mem_functions_of_function? h
  · simp at h

theorem instruction?_lt {u : ValueId} {i : Instruction} (h : M.instruction? u = some i) :
    u < M.values.length := by
  unfold instruction? at h
  split at h
  · rename_i j hj
    exact (List.getElem?_eq_some_iff.1 hj).1
  · cases h

/-- What an instruction uses lies in the table. -/
theorem instruction_operands_lt {u v : ValueId} {i : Instruction}
    (h : M.instruction? u = some i) (hv : v ∈ i.op.operands) : v < M.values.length := by
  unfold instruction? at h
  split at h
  · rename_i j hj
    rw [Option.some.injEq] at h
    subst h
    exact M.operands_lt _ (List.mem_of_getElem? hj) v hv
  · simp at h

end Module

/-- The arguments of a call, none for any other instruction. -/
def Instruction.args (i : Instruction) : List ValueId :=
  match i.op with
  | .call args _ _ _ => args
  | _ => []

/-- `isa<CallBase>` -/
def Instruction.isCall (i : Instruction) : Bool :=
  match i.op with
  | .call .. => true
  | _ => false

/-- `getArgOperand(k)`: without the assertion it reads the operand list, which
goes on behind the arguments. -/
def Instruction.getArgOperand (i : Instruction) (k : Nat) : Option ValueId := i.op.operands[k]?

theorem Instruction.mem_operands_of_mem_args {i : Instruction} {v : ValueId} (h : v ∈ i.args) :
    v ∈ i.op.operands := by
  unfold Instruction.args at h
  split at h
  · rename_i args extra called typed hop
    simp [hop, Op.operands, h]
  · exact absurd h List.not_mem_nil

/-- An instruction is a user of what it uses. -/
theorem Module.mem_users_of_operand {M : Module} {u v : ValueId} {i : Instruction}
    (hu : M.instruction? u = some i) (hv : v ∈ i.op.operands) : u ∈ M.users v := by
  unfold Module.instruction? at hu
  split at hu
  · rename_i j hj
    rw [Option.some.injEq] at hu
    subst hu
    obtain ⟨hlt, -⟩ := List.getElem?_eq_some_iff.1 hj
    refine (M.users_perm v).mem_iff.2 (List.mem_flatMap.2 ⟨u, List.mem_range.2 hlt, ?_⟩)
    rw [hj]
    exact List.mem_map.2 ⟨v, List.mem_filter.2 ⟨hv, beq_self_eq_true v⟩, rfl⟩
  · cases hu

/-- A call has a first operand, if only the function it calls. -/
theorem Module.exists_getArgOperand_zero {M : Module} {i : Instruction} {G : Function}
    (h : M.getCalledFunction i = some G) : ∃ v, i.getArgOperand 0 = some v := by
  unfold getCalledFunction at h
  split at h
  · rename_i args extra called hop
    have hlen : 0 < i.op.operands.length := by
      rw [hop, Op.operands, List.length_append, List.length_singleton]
      omega
    exact ⟨_, List.getElem?_eq_getElem hlen⟩
  · simp at h

/-- `F.getArg(k)`; reading past the parameters is undefined. -/
def Function.getArg (F : Function) (k : Nat) : Option ValueId := F.params[k]?

/-- `getNumArgs` of a function. -/
def Function.arg_size (F : Function) : Nat := F.params.length

/-- All instructions of a function, block by block. -/
def Function.instructions (M : Module) (F : Function) : List (ValueId × Instruction) :=
  F.blocks.flatMap M.instructions

theorem Module.instruction?_of_mem {M : Module} {B : BasicBlock} {p : ValueId × Instruction}
    (h : p ∈ M.instructions B) : M.instruction? p.1 = some p.2 := by
  obtain ⟨v, -, hv⟩ := List.mem_filterMap.1 h
  obtain ⟨i, hi, rfl⟩ := Option.map_eq_some_iff.1 hv
  exact hi

theorem Function.instruction?_of_mem {M : Module} {F : Function} {p : ValueId × Instruction}
    (h : p ∈ F.instructions M) : M.instruction? p.1 = some p.2 := by
  obtain ⟨B, -, hB⟩ := List.mem_flatMap.1 h
  exact Module.instruction?_of_mem hB

end Llvm
