import Rustle.Library.FaultyLoop
import Rustle.Llvm.UserFlow

/-!
# `div-before-mul`: divisions whose result is multiplied

* `runOnFunction` — the pass: the lines written, each with its instruction, until
  the function ends or the search reads a parameter that does not exist.
* `lines_sound` — every line names a division from which a multiplication is
  reached by steps of the flow, and **no** division has two lines.
-/

namespace DivBeforeMul

open Llvm NearCore UserFlow
open Text (lit)
open Relation (ReflTransGen TransGen)

/-- A module with the names of its opcodes. -/
structure OpcodeModule extends Module where
  /-- `getOpcodeName` of an instruction. -/
  opcodeName : ValueId → Str
  call_opcodeName : ∀ v i, toModule.instruction? v = some i → i.isCall = true →
    opcodeName v ∈ [lit "call" rfl, lit "invoke" rfl, lit "callbr" rfl]

/-- A line of the log: function, file and line. -/
abbrev Line := Str × Str × Nat

def regexLlvmMul : Str := lit "llvm\\.[a-z]?mul\\.with\\.overflow\\." rfl

section

variable (M : OpcodeModule) (F : Function)

/-- `mul`, and any one letter followed by it. -/
def isMul (v : ValueId) : Bool :=
  (lit "mul" rfl).isPrefixOf (M.opcodeName v) ||
    (lit "mul" rfl).isPrefixOf ((M.opcodeName v).drop 1)

def isLlvmMul (i : Instruction) : Bool := isInstCallFunc M.toModule i regexLlvmMul

/-- Any one letter followed by `div`. -/
def isDiv (v : ValueId) : Bool := (lit "div" rfl).isPrefixOf ((M.opcodeName v).drop 1)

/-- Is the value a multiplication in the project? -/
def isProduct (v : ValueId) : Bool :=
  match M.instruction? v with
  | some i => inProject i && (isMul M v || isLlvmMul M i)
  | none => false

/-- The body of the loop over the instructions. -/
def divLine (p : ValueId × Instruction) : Except Fault (Option (ValueId × Line)) :=
  if inProject p.2 && isDiv M p.1 then
    match simpleFindUsers M.toModule true false p.1 with
    | none => .error .noParameter
    | some set =>
      .ok (if set.any (isProduct M) then
        p.2.debugLoc.map fun loc => (p.1, F.name, loc.filename, loc.line)
      else none)
  else .ok none

/-- `runOnFunction`: the lines written, each with its instruction. -/
def runOnFunction : List (ValueId × Line) :=
  if skipFunc F then [] else FaultyLoop.written (divLine M F) (F.instructions M.toModule)

end

/-- A multiplication in the project that a value is carried to. -/
structure Reaches (M : OpcodeModule) (v m : ValueId) : Prop where
  product : ∃ i, M.instruction? m = some i ∧ inProject i = true ∧
    (isMul M m = true ∨ isLlvmMul M i = true)
  path : TransGen (FlowStep M.toModule) v m

/-- What a line of the log says of a division. -/
structure Reports (M : OpcodeModule) (F : Function) (l : ValueId × Line)
    (p : ValueId × Instruction) : Prop where
  instruction : l.1 = p.1
  isDiv : isDiv M p.1 = true
  inProject : inProject p.2 = true
  location : ∃ loc, p.2.debugLoc = some loc ∧ l.2 = (F.name, loc.filename, loc.line)
  reaches : ∃ m, Reaches M p.1 m

section

variable {M : OpcodeModule} {F : Function}

/-- No opcode is a division and a multiplication. -/
theorem isMul_eq_false {v : ValueId} (h : isDiv M v = true) : isMul M v = false := by
  have hpre : lit "div" rfl <+: (M.opcodeName v).drop 1 := List.isPrefixOf_iff_prefix.1 h
  obtain ⟨rest, hrest⟩ := hpre
  cases hname : M.opcodeName v with
  | nil => simp [hname, lit] at hrest
  | cons c cs =>
    rw [hname, List.drop_one, List.tail_cons] at hrest
    rw [isMul, hname, ← hrest]
    simp [lit, List.isPrefixOf]

/-- A division is no call. -/
theorem isLlvmMul_eq_false {v : ValueId} {i : Instruction} (hv : M.instruction? v = some i)
    (h : isDiv M v = true) : isLlvmMul M i = false := by
  cases hG : M.getCalledFunction i with
  | none => rw [isLlvmMul, isInstCallFunc, hG]
  | some G =>
    obtain ⟨args, extra, called, hop, -⟩ := operands_of_getCalledFunction hG
    have hname := M.call_opcodeName v i hv (by rw [Instruction.isCall, hop])
    rw [isDiv] at h
    simp only [List.mem_cons, List.not_mem_nil, or_false] at hname
    rcases hname with hname | hname | hname <;> rw [hname] at h <;> cases h

/-- The values in which the search finds a multiplication are reached by one or more
steps. -/
theorem reaches_of_mem {v m : ValueId} {set : List ValueId} (hdiv : isDiv M v = true)
    (h : simpleFindUsers M.toModule true false v = some set) (hm : m ∈ set)
    (hprod : isProduct M m = true) : Reaches M v m := by
  unfold isProduct at hprod
  split at hprod
  · rename_i i hi
    rw [Bool.and_eq_true, Bool.or_eq_true] at hprod
    refine ⟨⟨i, hi, hprod⟩, ?_⟩
    have hflow := ReflTransGen.mono (fun _ _ hstep => hstep.1) v m (mem_flows h m hm)
    rcases Relation.reflTransGen_iff_eq_or_transGen.1 hflow with rfl | hpath
    · rw [isMul_eq_false hdiv, isLlvmMul_eq_false hi hdiv] at hprod
      simp at hprod
    · exact hpath
  · cases hprod

/-- A step of the loop writes a line only for a division that is multiplied. -/
theorem reports_of_divLine {p : ValueId × Instruction} {l : ValueId × Line}
    (h : divLine M F p = .ok (some l)) : Reports M F l p := by
  unfold divLine at h
  split at h
  · rename_i hp
    rw [Bool.and_eq_true] at hp
    split at h
    · cases h
    · rename_i set hset
      rw [Except.ok.injEq] at h
      split at h
      · rename_i hany
        obtain ⟨loc, hloc, rfl⟩ := Option.map_eq_some_iff.1 h
        obtain ⟨m, hm, hprod⟩ := List.any_eq_true.1 hany
        exact ⟨rfl, hp.2, hp.1, ⟨loc, hloc, rfl⟩, m, reaches_of_mem hp.2 hset hm hprod⟩
      · cases h
  · cases h

end

/-- Every line names a division in the project from which a multiplication in the
project is reached by the flow, and each instruction has one line at most. -/
theorem lines_sound (M : OpcodeModule) (F : Function) :
    (∀ l ∈ runOnFunction M F, ∃ p ∈ F.instructions M.toModule, Reports M F l p) ∧
    ((runOnFunction M F).map Prod.fst).Sublist ((F.instructions M.toModule).map Prod.fst) := by
  rw [runOnFunction, skipFunc_eq_false, if_neg Bool.false_ne_true]
  refine ⟨fun l hl => ?_, ?_⟩
  · obtain ⟨p, hp, hline⟩ := FaultyLoop.exists_of_mem_written hl
    exact ⟨p, hp, reports_of_divLine hline⟩
  · exact FaultyLoop.map_written_sublist (fun _ _ hline => (reports_of_divLine hline).instruction) _

/-- `share(total, part)` multiplies the quotient of its parameters. -/
def share : Function :=
  ⟨lit "_ZN4pool4Pool5share17h1E" rfl, 0, [1, 2], [⟨lit "start" rfl, [3, 4, 5]⟩]⟩

def shareBase : Module where
  values :=
    [.function, .argument, .argument,
     .instruction ⟨.other [1, 2], some ⟨lit "src/lib.rs" rfl, 40⟩⟩,
     .instruction ⟨.other [3, 1], some ⟨lit "src/lib.rs" rfl, 41⟩⟩,
     .instruction ⟨.ret (some 4), some ⟨lit "src/lib.rs" rfl, 42⟩⟩]
  functions := [share]
  users := useList _
  users_perm := fun _ => .refl _
  operands_lt := by decide
  params_lt := by decide
  names_nodup := by simp
  functions_nodup := by simp

/-- The instructions of `share` are no calls. -/
theorem shareBase_isCall (v : ValueId) (i : Instruction) (hi : shareBase.instruction? v = some i)
    (hcall : i.isCall = true) : False := by
  have hno := @forall_instruction shareBase (fun _ i => i.isCall = false) _ (by decide) v i hi
  rw [hno] at hcall
  cases hcall

def shareModule : OpcodeModule where
  toModule := shareBase
  opcodeName v := if v = 3 then lit "udiv" rfl else if v = 4 then lit "mul" rfl else lit "ret" rfl
  call_opcodeName v i hi hcall := (shareBase_isCall v i hi hcall).elim

/-- The line of the division is written, and a multiplication is reached from it. -/
theorem lines_sound_share : ∃ p ∈ share.instructions shareModule.toModule,
    Reports shareModule share (3, share.name, lit "src/lib.rs" rfl, 40) p :=
  (lines_sound shareModule share).1 _ (by decide +kernel)

end DivBeforeMul
