import Rustle.Llvm.CallGraphSearch

/-!
# The passes that write the lines of some instructions

`timestamp`, `round`, `promise-result`, `transfer` and `unsafe-math` go over the
instructions of the project and write function, file and line of each that they
**select**; they differ in what they select only.

* `sites`, `mem_sites` — the loop they share, and what it writes.
* `Timestamp.selects`, `Round.selects`, `PromiseResult.selects`,
  `Transfer.selects`, `UnsafeMath.selects` — what they select.
* `UnsafeMath.isMath_iff` — the opcodes that count as arithmetic, one of which is
  none.
-/

open Llvm NearCore
open CallGraphSearch (instCallsRec)
open Text (lit)

namespace SiteLines

/-- The loop over the instructions of all functions. -/
def sites (M : Module) (selects : ValueId → Instruction → Bool) : List (Str × Str × Nat) :=
  M.functions.flatMap fun F =>
    if skipFunc F then []
    else (F.instructions M).filterMap fun (v, i) =>
      if !inProject i then none
      else if selects v i then i.debugLoc.map fun loc => (F.name, loc.filename, loc.line)
      else none

/-- A selected instruction of the project, in a function at a location. -/
structure Selected (M : Module) (selects : ValueId → Instruction → Bool) (F : Function)
    (loc : DebugLoc) : Prop where
  function : F ∈ M.functions
  instruction : ∃ p ∈ F.instructions M, inProject p.2 = true ∧ selects p.1 p.2 = true ∧
    p.2.debugLoc = some loc

/-- What is written are the functions and locations of the selected instructions. -/
theorem mem_sites {M : Module} {selects : ValueId → Instruction → Bool} {s : Str × Str × Nat} :
    s ∈ sites M selects ↔
      ∃ F loc, Selected M selects F loc ∧ s = (F.name, loc.filename, loc.line) := by
  unfold sites
  rw [List.mem_flatMap]
  constructor
  · rintro ⟨F, hF, h⟩
    rw [if_neg (by simp)] at h
    obtain ⟨⟨v, i⟩, hp, h⟩ := List.mem_filterMap.1 h
    simp only at h
    by_cases hi : inProject i = true
    · rw [if_neg (by simp [hi])] at h
      by_cases hs : selects v i = true
      · rw [if_pos hs] at h
        obtain ⟨loc, hloc, rfl⟩ := Option.map_eq_some_iff.1 h
        exact ⟨F, loc, ⟨hF, (v, i), hp, hi, hs, hloc⟩, rfl⟩
      · rw [if_neg hs] at h
        cases h
    · rw [if_pos (by simp [hi])] at h
      cases h
  · rintro ⟨F, loc, ⟨hF, p, hp, hi, hs, hloc⟩, rfl⟩
    refine ⟨F, hF, ?_⟩
    rw [if_neg (by simp)]
    exact List.mem_filterMap.2 ⟨p, hp, by simp [hi, hs, hloc]⟩

end SiteLines

/-! ## What the passes select -/

def regexRound : Str := lit "[0-9]+std[0-9]+.+[0-9]+(try_round|round)[0-9]+" rfl

def regexPromiseTransfer : Str :=
  lit "near_sdk[0-9]+promise[0-9]+Promise[0-9]+transfer[0-9]+" rfl

def regexNep141Transfer : Str := lit "[0-9]+(ft_transfer(_call)?)[0-9]+" rfl

def Timestamp.selects (M : Module) (_ : ValueId) (i : Instruction) : Bool :=
  isInstCallFunc M i (lit "block_timestamp" rfl)

def Round.selects (M : Module) (_ : ValueId) (i : Instruction) : Bool :=
  isInstCallFunc M i regexRound

def PromiseResult.selects (M : Module) (_ : ValueId) (i : Instruction) : Bool :=
  isInstCallFunc M i regexPromiseResult

/-- A transfer of NEAR or of tokens, directly or by the function called. -/
def Transfer.selects (M : Module) (CG : CallGraph) (_ : ValueId) (i : Instruction) : Bool :=
  instCallsRec CG regexPromiseTransfer M i || instCallsRec CG regexNep141Transfer M i

namespace UnsafeMath

/-- The names of values and of opcodes in a module. -/
structure Names where
  getName : ValueId → Str
  getOpcodeName : ValueId → Str

/-- `strncmp(opName + k, word, 3) == 0` for a word of three letters -/
def hasAt (opName : Str) (k : Nat) (word : Str) : Bool := word.isPrefixOf (opName.drop k)

/-- The test on the name of the opcode. -/
def isMath (opName : Str) : Bool :=
  ((hasAt opName 0 (lit "mul" rfl) || hasAt opName 1 (lit "mul" rfl) ||
    hasAt opName 0 (lit "add" rfl) || hasAt opName 1 (lit "add" rfl) ||
    hasAt opName 0 (lit "sub" rfl) || hasAt opName 1 (lit "sub" rfl)) &&
  opName.head? != some 'f')

/-- The opcodes of binary operators. -/
def binaryOperators : List Str :=
  [lit "add" rfl, lit "fadd" rfl, lit "sub" rfl, lit "fsub" rfl, lit "mul" rfl, lit "fmul" rfl,
    lit "udiv" rfl, lit "sdiv" rfl, lit "fdiv" rfl, lit "urem" rfl, lit "srem" rfl,
    lit "frem" rfl, lit "shl" rfl, lit "lshr" rfl, lit "ashr" rfl, lit "and" rfl, lit "or" rfl,
    lit "xor" rfl]

/-- The other opcodes. -/
def otherOpcodes : List Str :=
  [lit "ret" rfl, lit "br" rfl, lit "switch" rfl, lit "indirectbr" rfl, lit "invoke" rfl,
    lit "resume" rfl, lit "unreachable" rfl, lit "cleanupret" rfl, lit "catchret" rfl,
    lit "catchswitch" rfl, lit "callbr" rfl, lit "fneg" rfl, lit "alloca" rfl, lit "load" rfl,
    lit "store" rfl, lit "getelementptr" rfl, lit "fence" rfl, lit "cmpxchg" rfl,
    lit "atomicrmw" rfl, lit "trunc" rfl, lit "zext" rfl, lit "sext" rfl, lit "fptoui" rfl,
    lit "fptosi" rfl, lit "uitofp" rfl, lit "sitofp" rfl, lit "fptrunc" rfl, lit "fpext" rfl,
    lit "ptrtoint" rfl, lit "inttoptr" rfl, lit "bitcast" rfl, lit "addrspacecast" rfl,
    lit "cleanuppad" rfl, lit "catchpad" rfl, lit "icmp" rfl, lit "fcmp" rfl, lit "phi" rfl,
    lit "call" rfl, lit "select" rfl, lit "va_arg" rfl, lit "extractelement" rfl,
    lit "insertelement" rfl, lit "shufflevector" rfl, lit "extractvalue" rfl,
    lit "insertvalue" rfl, lit "landingpad" rfl, lit "freeze" rfl]

/-- Of the opcodes, those of integer arithmetic count, and one cast. -/
theorem isMath_iff : ∀ opName ∈ binaryOperators ++ otherOpcodes,
    isMath opName = true ↔ opName ∈ [lit "add" rfl, lit "sub" rfl, lit "mul" rfl,
      lit "addrspacecast" rfl] := by
  decide +kernel

/-- Does the instruction compute with a variable of the user? -/
def selects (names : Names) (v : ValueId) (i : Instruction) : Bool :=
  isMath (names.getOpcodeName v) &&
    ((binaryOperators.contains (names.getOpcodeName v) && names.getName v != []) ||
      i.op.operands.any fun u => names.getName u != [])

end UnsafeMath
