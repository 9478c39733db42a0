import Rustle.Library.AddressOrder
import Rustle.Library.FaultyLoop
import Rustle.Llvm.NearCore

/-!
# `reentrancy`: state changed upon a successful promise

* `runOnFunction` — the pass, with fuel for the walk over the blocks; `none`
  when it does not end, or ends in undefined behaviour.
* `Reentrant` — what a line is meant to say about a function.
* `walk_writes_iff` — the walk follows **one** successor of each block, the last
  one whose name starts with `bb`.
* `runOnFunction_writes_iff` — the pass starts from one arm, of the first call
  that has one.
* `writes_iff_reentrant` — when a line is what it is meant to be.
-/

namespace Reentrancy

open Llvm NearCore
open Text (lit)
open AddressOrder (Order natOrder)
open FaultyLoop (Reaches reaches_cons)

/-- A line of the log: function, file and line. -/
abbrev Line := Str × Str × Nat

section

variable (M : Module) (F : Function)

/-- Is the location `pointer` used in a value that is returned? -/
def usedInReturn (pointer : ValueId) : Option Bool :=
  (simpleFindUsers M false false pointer).map fun stLocUsers =>
    stLocUsers.any fun v =>
      match M.instruction? v with
      | some ⟨.ret _, _⟩ => true
      | _ => false

/-- Is the location `pointer` a user of the first parameter? -/
def useSelf (pointer : ValueId) : Option Bool :=
  match F.getArg 0 with
  | none => none
  | some arg => (simpleFindUsers M false false arg).map fun selfUsers => selfUsers.contains pointer

/-- The test on a store: `none` when it is undefined. -/
def changesState (pointer : ValueId) : Option Bool :=
  match usedInReturn M pointer, useSelf M F pointer with
  | some usedInReturn, some useSelf => some (!usedInReturn && useSelf)
  | _, _ => none

/-- `getSuccessor(i)->getName().startswith("bb")` -/
def isBB (b : Block) : Bool :=
  match b.get? with
  | some B => (lit "bb" rfl).isPrefixOf B.name
  | none => false

/-- The loop over the successors of a branch in `G`: the last one named `bb…` stays. -/
def branchTo (G : Function) (successors : List BlockId) (currentBlock : Option Block) :
    Option Block :=
  successors.foldl (fun cur b => if isBB (G, b) then some (G, b) else cur) currentBlock

/-- How the scan of a block ends: with a line, or with the block to go to. -/
inductive Scan where
  | line (l : Line)
  | next (b : Option Block)

/-- The loop over the instructions of a block of `G`. -/
def scanBlock (G : Function) : List (ValueId × Instruction) → Option Block → Option Scan
  | [], currentBlock => some (.next currentBlock)
  | (_, i) :: is, currentBlock =>
    match i.op with
    | .br _ successors => scanBlock G is (branchTo G successors currentBlock)
    | .store _ pointer =>
      match changesState M F pointer with
      | none => none
      | some false => scanBlock G is currentBlock
      | some true =>
        match i.debugLoc with
        | none => none
        | some loc => some (.line (F.name, loc.filename, loc.line))
    | _ => scanBlock G is currentBlock

/-- The walk over the blocks. -/
def walk : Nat → Block → Option (List Line)
  | 0, _ => none
  | n + 1, b =>
    match b.get? with
    | none => none
    | some B =>
      match scanBlock M F b.1 (M.instructions B) none with
      | none => none
      | some (.line l) => some [l]
      | some (.next none) => some []
      | some (.next (some b')) => walk n b'

/-- The successor of the first case of value one, `PromiseResult::Successful`.  The
switch may stand in **another** function: the users of a function lie in all of them. -/
def successfulCase (v : ValueId) : Option Block :=
  match M.instruction? v, M.getFunction v with
  | some ⟨.switch _ _ cases, _⟩, some G =>
    (cases.find? fun c => c.1 == 1).map fun c => (G, c.2)
  | _, _ => none

/-- The loop over the users: the arm of the first switch that has one. -/
def successfulBlock (o : Order ValueId) (pmRsUsers : List ValueId) : Option Block :=
  (o.iterate pmRsUsers).findSome? (successfulCase M)

/-- The users of the result of a call: its first operand is where the result goes. -/
def resultUsers (i : Instruction) : Option (List ValueId) :=
  (i.getArgOperand 0).bind (simpleFindUsers M false true)

/-- Is the instruction a call of a promise-result function from the project? -/
def isPromiseResult (i : Instruction) : Bool :=
  inProject i && isInstCallFunc M i regexPromiseResult

/-- The loop over the instructions of the function; the walk from an arm ends it. -/
def runOnInsts (o : Order ValueId) (fuel : Nat) :
    List (ValueId × Instruction) → Option (List Line)
  | [] => some []
  | (_, i) :: is =>
    if !isPromiseResult M i then runOnInsts o fuel is
    else
      match resultUsers M i with
      | none => none
      | some pmRsUsers =>
        match successfulBlock M o pmRsUsers with
        | none => runOnInsts o fuel is
        | some b => walk M F fuel b

/-- `runOnFunction`: the lines written. -/
def runOnFunction (o : Order ValueId) (fuel : Nat) : Option (List Line) :=
  if skipFunc F then some [] else runOnInsts M F o fuel (F.instructions M)

/-! ## What a line is meant to say -/

/-- The block holds a store into a location that is a user of the first
parameter and is not used in a return. -/
def Exposed (b : Block) : Prop :=
  ∃ B, b.get? = some B ∧ ∃ p ∈ M.instructions B, ∃ value pointer,
    p.2.op = .store value pointer ∧ changesState M F pointer = some true

/-- A branch edge into a block whose name starts with `bb`. -/
def BranchEdge (a b : Block) : Prop :=
  a.1 = b.1 ∧ ∃ A, a.get? = some A ∧ ∃ p ∈ M.instructions A, ∃ condition successors,
    p.2.op = .br condition successors ∧ b.2 ∈ successors ∧ isBB b = true

/-- The block is the successor of a case of value one of some switch among the
users of the result of the call. -/
def Arm (i : Instruction) (b : Block) : Prop :=
  ∃ pmRsUsers, resultUsers M i = some pmRsUsers ∧ ∃ v ∈ pmRsUsers, ∃ j,
    M.instruction? v = some j ∧ M.getFunction v = some b.1 ∧ ∃ condition default cases,
      j.op = .switch condition default cases ∧ (1, b.2) ∈ cases

/-- Some promise-result call has an arm from which branch edges lead to a block
with an exposed store. -/
def Reentrant : Prop :=
  ∃ p ∈ F.instructions M, isPromiseResult M p.2 = true ∧ ∃ b, Arm M p.2 b ∧
    ∃ b', Relation.ReflTransGen (BranchEdge M) b b' ∧ Exposed M F b'

/-! ## The walk over the blocks -/

/-- The block the walk goes to from a block of `G` without an exposed store. -/
def nextBlock (G : Function) (is : List (ValueId × Instruction)) (currentBlock : Option Block) :
    Option Block :=
  is.foldl (fun cur p =>
    match p.2.op with
    | .br _ successors => branchTo G successors cur
    | _ => cur) currentBlock

/-- The edge the walk follows: to the last `bb…` successor of the last branch. -/
def LastEdge (a b : Block) : Prop :=
  ∃ A, a.get? = some A ∧ nextBlock a.1 (M.instructions A) none = some b

/-- The scan of a block goes on behind the instruction. -/
def Passed (p : ValueId × Instruction) : Prop :=
  ∀ value pointer, p.2.op = .store value pointer → changesState M F pointer = some false

/-- The scan of a block ends at the instruction, with the line. -/
def Writes (l : Line) (p : ValueId × Instruction) : Prop :=
  ∃ value pointer loc, p.2.op = .store value pointer ∧ changesState M F pointer = some true ∧
    p.2.debugLoc = some loc ∧ l = (F.name, loc.filename, loc.line)

theorem scanBlock_next_iff {G : Function} {is : List (ValueId × Instruction)}
    {cur next : Option Block} :
    scanBlock M F G is cur = some (.next next) ↔
      (∀ p ∈ is, Passed M F p) ∧ next = nextBlock G is cur := by
  induction is generalizing cur with
  | nil => simp [scanBlock, nextBlock, eq_comm]
  | cons p is ih =>
    obtain ⟨v, i⟩ := p
    rw [List.forall_mem_cons]
    cases hop : i.op with
    | store value pointer =>
      have hpassed : Passed M F (v, i) ↔ changesState M F pointer = some false := by
        simp [Passed, hop]
      have hnext : nextBlock G ((v, i) :: is) cur = nextBlock G is cur := by
        simp [nextBlock, hop]
      rw [hpassed, hnext, scanBlock]
      simp only [hop]
      rcases changesState M F pointer with _ | _ | _
      · simp
      · simp [ih]
      · cases i.debugLoc <;> simp
    | br condition successors =>
      have hnext : nextBlock G ((v, i) :: is) cur =
          nextBlock G is (branchTo G successors cur) := by
        simp [nextBlock, hop]
      rw [hnext, scanBlock]
      simp [hop, ih, Passed]
    | call | switch | ret | getElementPtr | other =>
      have hnext : nextBlock G ((v, i) :: is) cur = nextBlock G is cur := by
        simp [nextBlock, hop]
      rw [hnext, scanBlock]
      simp [hop, ih, Passed]

theorem scanBlock_line_iff {G : Function} {is : List (ValueId × Instruction)}
    {cur : Option Block} {l : Line} :
    scanBlock M F G is cur = some (.line l) ↔ Reaches (Passed M F) (Writes M F l) is := by
  induction is generalizing cur with
  | nil => simp [scanBlock]
  | cons p is ih =>
    obtain ⟨v, i⟩ := p
    rw [reaches_cons, scanBlock]
    cases hop : i.op with
    | store value pointer =>
      have hpassed : Passed M F (v, i) ↔ changesState M F pointer = some false := by
        simp [Passed, hop]
      have hwrites : Writes M F l (v, i) ↔ changesState M F pointer = some true ∧
          ∃ loc, i.debugLoc = some loc ∧ l = (F.name, loc.filename, loc.line) := by
        simp [Writes, hop]
      rw [hpassed, hwrites]
      simp only
      rcases changesState M F pointer with _ | _ | _
      · simp
      · simp [ih]
      · cases i.debugLoc <;> simp [eq_comm]
    | br | call | switch | ret | getElementPtr | other => simp [hop, ih, Passed, Writes]

/-- A walk that ends writes a line exactly when the chain of last edges leads to
an exposed store. -/
theorem walk_writes_iff {n : Nat} {b : Block} {lines : List Line}
    (h : walk M F n b = some lines) :
    lines ≠ [] ↔ ∃ b', Relation.ReflTransGen (LastEdge M) b b' ∧ Exposed M F b' := by
  induction n generalizing b with
  | zero => simp [walk] at h
  | succ n ih =>
    rw [walk] at h
    cases hB : b.get? with
    | none => simp [hB] at h
    | some B =>
      simp only [hB] at h
      cases hs : scanBlock M F b.1 (M.instructions B) none with
      | none => simp [hs] at h
      | some r =>
        cases r with
        | line l =>
          simp only [hs, Option.some.injEq] at h
          obtain ⟨p, hp, value, pointer, -, hop, hc, -⟩ :=
            ((scanBlock_line_iff M F).1 hs).exists_mem
          have hexp : Exposed M F b := ⟨B, hB, p, hp, value, pointer, hop, hc⟩
          exact ⟨fun _ => ⟨b, .refl, hexp⟩, fun _ => by simp [← h]⟩
        | next nb =>
          obtain ⟨hstores, hnext⟩ := (scanBlock_next_iff M F).1 hs
          have hnot : ¬ Exposed M F b := by
            rintro ⟨B', hB', p, hp, value, pointer, hop, hc⟩
            rw [hB, Option.some.injEq] at hB'
            subst hB'
            rw [hstores p hp value pointer hop] at hc
            simp at hc
          have hedge : ∀ c, LastEdge M b c → nb = some c := by
            rintro c ⟨A, hA, hc⟩
            rw [hB, Option.some.injEq] at hA
            subst hA
            rw [hnext, hc]
          cases nb with
          | none =>
            simp only [hs, Option.some.injEq] at h
            subst h
            refine ⟨fun hne => absurd rfl hne, ?_⟩
            rintro ⟨b', hreach, hexp⟩
            rcases hreach.cases_head with rfl | ⟨c, hc, -⟩
            · exact absurd hexp hnot
            · have hnone := hedge c hc
              cases hnone
          | some c =>
            simp only [hs] at h
            rw [ih h]
            constructor
            · rintro ⟨b', hreach, hexp⟩
              exact ⟨b', .head ⟨B, hB, hnext.symm⟩ hreach, hexp⟩
            · rintro ⟨b', hreach, hexp⟩
              rcases hreach.cases_head with rfl | ⟨d, hd, hreach⟩
              · exact absurd hexp hnot
              · have hcd := hedge d hd
                rw [Option.some.injEq] at hcd
                exact ⟨b', hcd ▸ hreach, hexp⟩

/-- More fuel does not change a walk that ends. -/
theorem walk_mono {n m : Nat} (hnm : n ≤ m) {b : Block} {lines : List Line}
    (h : walk M F n b = some lines) : walk M F m b = some lines := by
  induction n generalizing m b with
  | zero => simp [walk] at h
  | succ n ih =>
    obtain ⟨m, rfl⟩ : ∃ k, m = k + 1 := ⟨m - 1, by omega⟩
    rw [walk] at h ⊢
    cases hB : b.get? with
    | none => simp [hB] at h
    | some B =>
      simp only [hB] at h ⊢
      cases hs : scanBlock M F b.1 (M.instructions B) none with
      | none => simp [hs] at h
      | some r =>
        rcases r with l | (_ | c)
        · simpa [hs] using h
        · simpa [hs] using h
        · simp only [hs] at h ⊢
          exact ih (by omega) h

/-! ## The choice of an arm -/

/-- A promise-result call from the project that has an arm. -/
def HasArm (i : Instruction) : Prop := isPromiseResult M i = true ∧ ∃ b, Arm M i b

/-- The first instruction with an arm: the one the pass decides on. -/
def Decides (is : List (ValueId × Instruction)) (p : ValueId × Instruction) : Prop :=
  ∃ pre post, is = pre ++ p :: post ∧ (∀ q ∈ pre, ¬ HasArm M q.2) ∧ HasArm M p.2

/-- An arm that some order may pick: the first case of value one of a switch
among the users. -/
def Candidate (i : Instruction) (b : Block) : Prop :=
  ∃ pmRsUsers, resultUsers M i = some pmRsUsers ∧ ∃ v ∈ pmRsUsers,
    successfulCase M v = some b

/-- The arm the order picks. -/
def Picked (o : Order ValueId) (i : Instruction) (b : Block) : Prop :=
  ∃ pmRsUsers, resultUsers M i = some pmRsUsers ∧ successfulBlock M o pmRsUsers = some b

theorem successfulCase_eq_some {v : ValueId} {b : Block} (h : successfulCase M v = some b) :
    ∃ j, M.instruction? v = some j ∧ M.getFunction v = some b.1 ∧ ∃ condition default cases,
      j.op = .switch condition default cases ∧ (1, b.2) ∈ cases := by
  unfold successfulCase at h
  split at h
  · rename_i condition default cases loc G hj hG
    obtain ⟨c, hc, rfl⟩ := Option.map_eq_some_iff.1 h
    have h1 : c.1 = 1 := by simpa using List.find?_some hc
    refine ⟨_, hj, hG, condition, default, cases, rfl, ?_⟩
    rw [← h1]
    exact List.mem_of_find?_eq_some hc
  · cases h

theorem exists_successfulCase {v : ValueId} {j : Instruction} {G : Function}
    {condition : ValueId} {default b : BlockId} {cases : List (Nat × BlockId)}
    (hj : M.instruction? v = some j) (hG : M.getFunction v = some G)
    (hop : j.op = .switch condition default cases) (hmem : (1, b) ∈ cases) :
    ∃ b', successfulCase M v = some b' := by
  obtain ⟨op, loc⟩ := j
  subst hop
  simp only [successfulCase, hj, hG]
  cases hf : cases.find? fun c => c.1 == 1 with
  | none => simpa using List.find?_eq_none.1 hf _ hmem
  | some c => exact ⟨(G, c.2), rfl⟩

theorem arm_of_candidate {i : Instruction} {b : Block} (h : Candidate M i b) : Arm M i b := by
  obtain ⟨users, husers, v, hv, hb⟩ := h
  exact ⟨users, husers, v, hv, successfulCase_eq_some M hb⟩

theorem exists_candidate_of_arm {i : Instruction} {b : Block} (h : Arm M i b) :
    ∃ b', Candidate M i b' := by
  obtain ⟨users, husers, v, hv, j, hj, hG, condition, default, cases, hop, hmem⟩ := h
  obtain ⟨b', hb'⟩ := exists_successfulCase M hj hG hop hmem
  exact ⟨b', users, husers, v, hv, hb'⟩

theorem candidate_of_picked {o : Order ValueId} {i : Instruction} {b : Block}
    (h : Picked M o i b) : Candidate M i b := by
  obtain ⟨users, husers, hb⟩ := h
  obtain ⟨v, hv, hcase⟩ := List.exists_of_findSome?_eq_some hb
  exact ⟨users, husers, v, AddressOrder.mem_iterate.1 hv, hcase⟩

theorem not_arm_of_successfulBlock_none {o : Order ValueId} {i : Instruction}
    {users : List ValueId} (husers : resultUsers M i = some users)
    (h : successfulBlock M o users = none) (b : Block) : ¬ Arm M i b := by
  intro harm
  obtain ⟨b', users', husers', v, hv, hcase⟩ := exists_candidate_of_arm M harm
  rw [husers, Option.some.injEq] at husers'
  subst husers'
  have hnone := List.findSome?_eq_none_iff.1 h v (AddressOrder.mem_iterate.2 hv)
  simp [hnone] at hcase

/-- What a run can do: nothing where no instruction has an arm, else the walk
from the arm picked for the deciding one. -/
theorem runOnInsts_cases {o : Order ValueId} {n : Nat}
    {is : List (ValueId × Instruction)} {lines : List Line}
    (h : runOnInsts M F o n is = some lines) :
    (lines = [] ∧ ∀ q ∈ is, ¬ HasArm M q.2) ∨
      ∃ p b, Decides M is p ∧ Picked M o p.2 b ∧ walk M F n b = some lines := by
  induction is with
  | nil =>
    simp only [runOnInsts, Option.some.injEq] at h
    exact Or.inl ⟨h.symm, by simp⟩
  | cons p is ih =>
    obtain ⟨v, i⟩ := p
    have hskip (hno : ¬ HasArm M i) (hrest : runOnInsts M F o n is = some lines) :
        (lines = [] ∧ ∀ q ∈ (v, i) :: is, ¬ HasArm M q.2) ∨
          ∃ p b, Decides M ((v, i) :: is) p ∧ Picked M o p.2 b ∧ walk M F n b = some lines := by
      rcases ih hrest with ⟨hl, hall⟩ | ⟨p, b, ⟨pre, post, his, hpre, hp⟩, hb, hw⟩
      · exact Or.inl ⟨hl, by simpa [hno] using hall⟩
      · refine Or.inr ⟨p, b, ⟨(v, i) :: pre, post, by rw [his]; rfl, ?_, hp⟩, hb, hw⟩
        simpa [hno] using hpre
    rw [runOnInsts] at h
    by_cases hpr : isPromiseResult M i = true
    · rw [if_neg (by simp [hpr])] at h
      cases husers : resultUsers M i with
      | none => simp [husers] at h
      | some users =>
        simp only [husers] at h
        cases hb : successfulBlock M o users with
        | none =>
          simp only [hb] at h
          exact hskip (fun ha => not_arm_of_successfulBlock_none M husers hb _ ha.2.choose_spec) h
        | some b =>
          simp only [hb] at h
          have hpick : Picked M o i b := ⟨users, husers, hb⟩
          have harm : HasArm M i := ⟨hpr, b, arm_of_candidate M (candidate_of_picked M hpick)⟩
          exact Or.inr ⟨(v, i), b, ⟨[], is, rfl, by simp, harm⟩, hpick, h⟩
    · rw [if_pos (by simp [hpr])] at h
      exact hskip (fun ha => hpr ha.1) h

/-! ## When a line is what it is meant to be -/

/-- The exposed store the pass looks for: on the chain of last edges from the arm
that the order picks for the deciding call. -/
def LastReentrant (o : Order ValueId) : Prop :=
  ∃ p b, Decides M (F.instructions M) p ∧ Picked M o p.2 b ∧
    ∃ b', Relation.ReflTransGen (LastEdge M) b b' ∧ Exposed M F b'

theorem decides_unique {is : List (ValueId × Instruction)} {p q : ValueId × Instruction}
    (hp : Decides M is p) (hq : Decides M is q) : p = q := by
  obtain ⟨pre, post, his, hpre, hpa⟩ := hp
  obtain ⟨pre', post', his', hpre', hqa⟩ := hq
  rw [his] at his'
  rcases List.append_eq_append_iff.1 his' with ⟨xs, hx, hy⟩ | ⟨xs, hx, hy⟩
  · cases xs with
    | nil =>
      rw [List.nil_append, List.cons.injEq] at hy
      exact hy.1
    | cons x xs =>
      rw [List.cons_append, List.cons.injEq] at hy
      exact absurd (hy.1 ▸ hpa) (hpre' x (by rw [hx]; simp))
  · cases xs with
    | nil =>
      rw [List.nil_append, List.cons.injEq] at hy
      exact hy.1.symm
    | cons x xs =>
      rw [List.cons_append, List.cons.injEq] at hy
      exact absurd (hy.1 ▸ hqa) (hpre x (by rw [hx]; simp))

theorem picked_unique {o : Order ValueId} {i : Instruction} {b b' : Block}
    (h : Picked M o i b) (h' : Picked M o i b') : b = b' := by
  obtain ⟨users, husers, hb⟩ := h
  obtain ⟨users', husers', hb'⟩ := h'
  rw [husers, Option.some.injEq] at husers'
  rw [← husers', hb, Option.some.injEq] at hb'
  exact hb'

/-- A run that ends writes a line exactly when the chain of last edges from the
picked arm leads to an exposed store. -/
theorem runOnFunction_writes_iff {o : Order ValueId} {n : Nat} {lines : List Line}
    (h : runOnFunction M F o n = some lines) : lines ≠ [] ↔ LastReentrant M F o := by
  rw [runOnFunction, if_neg (by simp)] at h
  rcases runOnInsts_cases M F h with ⟨rfl, hno⟩ | ⟨p, b, hdec, hpick, hw⟩
  · refine ⟨fun hne => absurd rfl hne, ?_⟩
    rintro ⟨p, b, ⟨pre, post, his, -, harm⟩, -⟩
    exact absurd harm (hno p (by rw [his]; simp))
  · rw [walk_writes_iff M F hw]
    constructor
    · exact fun hreach => ⟨p, b, hdec, hpick, hreach⟩
    · rintro ⟨p', b', hdec', hpick', hreach⟩
      have hp := decides_unique M hdec hdec'
      subst hp
      rwa [picked_unique M hpick hpick']

theorem branchTo_mem {G : Function} {successors : List BlockId} {cur : Option Block} {b : Block}
    (h : branchTo G successors cur = some b) :
    cur = some b ∨ G = b.1 ∧ b.2 ∈ successors ∧ isBB b = true := by
  induction successors generalizing cur with
  | nil => exact Or.inl h
  | cons c cs ih =>
    rw [branchTo, List.foldl_cons] at h
    rcases ih h with hc | ⟨hG, hmem, hbb⟩
    · by_cases hbb : isBB (G, c) = true
      · rw [if_pos hbb, Option.some.injEq] at hc
        subst hc
        exact Or.inr ⟨rfl, by simp, hbb⟩
      · rw [if_neg hbb] at hc
        exact Or.inl hc
    · exact Or.inr ⟨hG, List.mem_cons_of_mem _ hmem, hbb⟩

/-- A last edge is a branch edge. -/
theorem branchEdge_of_lastEdge {a b : Block} (h : LastEdge M a b) : BranchEdge M a b := by
  obtain ⟨A, hA, hb⟩ := h
  have hmem : ∀ (is : List (ValueId × Instruction)) (cur : Option Block),
      nextBlock a.1 is cur = some b → cur = some b ∨ a.1 = b.1 ∧ ∃ p ∈ is, ∃ condition successors,
        p.2.op = .br condition successors ∧ b.2 ∈ successors ∧ isBB b = true := by
    intro is
    induction is with
    | nil => exact fun cur h => Or.inl h
    | cons p is ih =>
      intro cur h
      rw [nextBlock, List.foldl_cons] at h
      rcases ih _ h with hcur | ⟨hG, q, hq, hedge⟩
      · cases hop : p.2.op with
        | br condition successors =>
          simp only [hop] at hcur
          rcases branchTo_mem hcur with hc | ⟨hG, hm, hbb⟩
          · exact Or.inl hc
          · exact Or.inr ⟨hG, p, by simp, condition, successors, hop, hm, hbb⟩
        | call | store | switch | ret | getElementPtr | other =>
          simp only [hop] at hcur
          exact Or.inl hcur
      · exact Or.inr ⟨hG, q, List.mem_cons_of_mem _ hq, hedge⟩
  rcases hmem _ none hb with h | ⟨hG, hedge⟩
  · cases h
  · exact ⟨hG, A, hA, hedge⟩

theorem reentrant_of_lastReentrant {o : Order ValueId}
    (h : LastReentrant M F o) : Reentrant M F := by
  obtain ⟨p, b, ⟨pre, post, his, -, harm⟩, hpick, b', hreach, hexp⟩ := h
  refine ⟨p, by rw [his]; simp, harm.1, b, arm_of_candidate M (candidate_of_picked M hpick),
    b', ?_, hexp⟩
  exact Relation.ReflTransGen.mono (fun _ _ => branchEdge_of_lastEdge M) _ _ hreach

end

/-- For every function on which the pass ends, in every address order: a line
says what it is meant to say if and only if a reentrant function has an exposed
store on the chain of last `bb…` successors from the first arm of the first
promise-result call that has one. -/
theorem writes_iff_reentrant (M : Module) (F : Function) (o : Order ValueId)
    {n : Nat} {lines : List Line} (h : runOnFunction M F o n = some lines) :
    (lines ≠ [] ↔ Reentrant M F) ↔ (Reentrant M F → LastReentrant M F o) := by
  rw [runOnFunction_writes_iff M F h]
  exact ⟨fun hiff => hiff.2, fun himp => ⟨reentrant_of_lastReentrant M F, himp⟩⟩

/-! ## The arms that are picked -/

section

variable (M : Module) (F : Function)

/-- Every candidate is picked in some order. -/
theorem exists_picked {i : Instruction} {b : Block} (h : Candidate M i b) :
    ∃ o, Picked M o i b := by
  obtain ⟨users, husers, v, hv, hcase⟩ := h
  refine ⟨natOrder.prefer (· = v) users, users, husers, ?_⟩
  have hfind : ∀ l : List ValueId, l.findSome? (successfulCase M) =
      (l.find? fun v => (successfulCase M v).isSome).bind (successfulCase M) := by
    intro l
    induction l with
    | nil => rfl
    | cons x l ih =>
      rw [List.findSome?_cons, List.find?_cons]
      cases hx : successfulCase M x with
      | none => simpa [hx] using ih
      | some c => simp [hx]
  have hv' : (successfulCase M v).isSome = true := by rw [hcase]; rfl
  obtain ⟨y, hy⟩ := AddressOrder.exists_find_iterate (natOrder.prefer (· = v) users)
    (p := fun v => (successfulCase M v).isSome) hv hv'
  have hyv : y = v := AddressOrder.find_prefer (P := (· = v)) (fun w hw => hw) hv hv' rfl hy
  rw [successfulBlock, hfind, hy, hyv, Option.bind_some, hcase]

/-- Where an instruction decides, every order picks an arm for it. -/
theorem exists_picked_of_decides {is : List (ValueId × Instruction)} {p : ValueId × Instruction}
    (o : Order ValueId) (hdec : Decides M is p) : ∃ b, Picked M o p.2 b := by
  obtain ⟨-, -, -, -, -, b, harm⟩ := hdec
  obtain ⟨users, husers, -⟩ := id harm
  cases hpick : successfulBlock M o users with
  | none => exact absurd harm (not_arm_of_successfulBlock_none M husers hpick b)
  | some b' => exact ⟨b', users, husers, hpick⟩

/-- The users of the result of a call are always defined. -/
theorem exists_resultUsers {v : ValueId} {i : Instruction} (hi : M.instruction? v = some i)
    (h : isPromiseResult M i = true) : ∃ users, resultUsers M i = some users := by
  have hcall : ∃ G, M.getCalledFunction i = some G := by
    unfold isPromiseResult isInstCallFunc at h
    cases hG : M.getCalledFunction i with
    | none => simp [hG] at h
    | some G => exact ⟨G, rfl⟩
  obtain ⟨G, hG⟩ := hcall
  obtain ⟨a, ha⟩ := Module.exists_getArgOperand_zero hG
  rw [resultUsers, ha]
  exact exists_simpleFindUsers M false
    (M.instruction_operands_lt hi (List.mem_of_getElem? ha))

/-- The run passes over the instructions without an arm. -/
theorem runOnInsts_append {o : Order ValueId} {n : Nat} {pre post : List (ValueId × Instruction)}
    (hi : ∀ q ∈ pre, M.instruction? q.1 = some q.2) (hno : ∀ q ∈ pre, ¬ HasArm M q.2) :
    runOnInsts M F o n (pre ++ post) = runOnInsts M F o n post := by
  induction pre with
  | nil => rfl
  | cons q pre ih =>
    rw [List.forall_mem_cons] at hi hno
    have ih' := ih hi.2 hno.2
    rw [List.cons_append, runOnInsts]
    by_cases hqr : isPromiseResult M q.2 = true
    · rw [if_neg (by simp [hqr])]
      obtain ⟨users, husers⟩ := exists_resultUsers M hi.1 hqr
      simp only [husers]
      cases hb : successfulBlock M o users with
      | none => exact ih'
      | some c =>
        have harm := arm_of_candidate M (candidate_of_picked M ⟨users, husers, hb⟩)
        exact absurd ⟨hqr, c, harm⟩ hno.1
    · rw [if_pos (by simp [hqr])]
      exact ih'

/-- Without an arm the run writes nothing. -/
theorem runOnInsts_of_not_hasArm {o : Order ValueId} {n : Nat} {is : List (ValueId × Instruction)}
    (hi : ∀ q ∈ is, M.instruction? q.1 = some q.2) (hno : ∀ q ∈ is, ¬ HasArm M q.2) :
    runOnInsts M F o n is = some [] := by
  have happend : runOnInsts M F o n (is ++ []) = runOnInsts M F o n [] :=
    runOnInsts_append M F hi hno
  rwa [List.append_nil, runOnInsts] at happend

/-- The run is the walk from the arm picked for the deciding call. -/
theorem runOnInsts_of_decides {o : Order ValueId} {n : Nat} {is : List (ValueId × Instruction)}
    (hi : ∀ q ∈ is, M.instruction? q.1 = some q.2) {p : ValueId × Instruction} {b : Block}
    (hdec : Decides M is p) (hpick : Picked M o p.2 b) :
    runOnInsts M F o n is = walk M F n b := by
  obtain ⟨pre, post, rfl, hpre, hpr, -⟩ := hdec
  obtain ⟨users, husers, hb⟩ := hpick
  rw [runOnInsts_append M F (fun q hq => hi q (List.mem_append_left _ hq)) hpre, runOnInsts,
    if_neg (by simp [hpr])]
  simp only [husers, hb]

/-- More fuel does not change a run that ends. -/
theorem runOnFunction_mono {o : Order ValueId} {n m : Nat} (hnm : n ≤ m) {lines : List Line}
    (h : runOnFunction M F o n = some lines) : runOnFunction M F o m = some lines := by
  have hi : ∀ q ∈ F.instructions M, M.instruction? q.1 = some q.2 :=
    fun q hq => Function.instruction?_of_mem hq
  rw [runOnFunction, if_neg (by simp)] at h ⊢
  rcases runOnInsts_cases M F h with ⟨rfl, hno⟩ | ⟨p, b, hdec, hpick, hw⟩
  · exact runOnInsts_of_not_hasArm M F hi hno
  · rw [runOnInsts_of_decides M F hi hdec hpick]
    exact walk_mono M F hnm hw

end

/-- A callback that stores to the state in the first of two branches. -/
def onTransfer : Function :=
  ⟨lit "_ZN5token5Token11on_transfer17h1E" rfl, 0, [2],
    [⟨lit "start" rfl, [3, 4, 5, 6]⟩, ⟨lit "bb1" rfl, [7]⟩, ⟨lit "bb2" rfl, [8, 9, 10]⟩,
     ⟨lit "bb3" rfl, [11]⟩]⟩

def branchModule : Module where
  values :=
    [.function, .function, .argument,
     .instruction ⟨.other [], none⟩,
     .instruction ⟨.call [3] [] 1 true, some ⟨lit "src/lib.rs" rfl, 30⟩⟩,
     .instruction ⟨.other [3], some ⟨lit "src/lib.rs" rfl, 30⟩⟩,
     .instruction ⟨.switch 5 3 [(1, 1)], some ⟨lit "src/lib.rs" rfl, 30⟩⟩,
     .instruction ⟨.br (some 5) [2, 3], some ⟨lit "src/lib.rs" rfl, 31⟩⟩,
     .instruction ⟨.getElementPtr (lit "%Token" rfl) 2 [], some ⟨lit "src/lib.rs" rfl, 32⟩⟩,
     .instruction ⟨.store 5 8, some ⟨lit "src/lib.rs" rfl, 32⟩⟩,
     .instruction ⟨.ret none, some ⟨lit "src/lib.rs" rfl, 34⟩⟩,
     .instruction ⟨.ret none, some ⟨lit "src/lib.rs" rfl, 34⟩⟩]
  functions :=
    [onTransfer,
     ⟨lit "_ZN8near_sdk11environment3env14promise_result17h2E" rfl, 1, [], []⟩]
  users := useList _
  users_perm := fun _ => .refl _
  operands_lt := by decide
  params_lt := by decide
  names_nodup := by decide
  functions_nodup := by decide

theorem runOnFunction_onTransfer : runOnFunction branchModule onTransfer natOrder 3 = some [] := by
  decide +kernel

theorem writes_iff_reentrant_onTransfer :
    runOnFunction branchModule onTransfer natOrder 3 = some [] ∧
      ((([] : List Line) ≠ [] ↔ Reentrant branchModule onTransfer) ↔
        (Reentrant branchModule onTransfer →
          LastReentrant branchModule onTransfer natOrder)) :=
  ⟨runOnFunction_onTransfer,
    writes_iff_reentrant branchModule onTransfer natOrder runOnFunction_onTransfer⟩

/-- The store in the first branch goes unreported. -/
theorem first_branch_not_reported :
    ∃ lines, runOnFunction branchModule onTransfer natOrder 3 = some lines ∧
      ¬ (lines ≠ [] ↔ Reentrant branchModule onTransfer) := by
  refine ⟨[], runOnFunction_onTransfer, fun h => h.2 ?_ rfl⟩
  have harm : Arm branchModule ⟨.call [3] [] 1 true, some ⟨lit "src/lib.rs" rfl, 30⟩⟩
      (onTransfer, 1) :=
    ⟨[8, 9, 7, 6, 5, 4, 3], by decide +kernel, 6, by simp, _, rfl, rfl, 5, 3, [(1, 1)], rfl,
      by simp⟩
  have hedge : BranchEdge branchModule (onTransfer, 1) (onTransfer, 2) :=
    ⟨rfl, _, rfl, (7, ⟨.br (some 5) [2, 3], some ⟨lit "src/lib.rs" rfl, 31⟩⟩), by decide +kernel,
      some 5, [2, 3], rfl, by simp, by decide +kernel⟩
  have hexp : Exposed branchModule onTransfer (onTransfer, 2) :=
    ⟨_, rfl, (9, ⟨.store 5 8, some ⟨lit "src/lib.rs" rfl, 32⟩⟩), by decide +kernel, 5, 8, rfl,
      by decide +kernel⟩
  exact ⟨(4, _), by decide +kernel, by decide +kernel, _, harm, _, .single hedge, hexp⟩

end Reentrancy
