import Rustle.Library.DeepSearch
import Rustle.Pass.Reentrancy

/-!
# `reentrancy`: when the walk over the blocks ends

* `blockAt` — the block the walk is at after some number of passes of its loop.
* `WalkEnds`, `walk_fuel` — the walk ends, and then its fuel does not matter.
* `Goes` — the walk goes from a block to the next: to the last `bb…` successor of
  the last branch, unless a store of the block ends it.
* `walk_ends_iff` — the walk ends exactly when it does **not** come around.
-/

namespace Reentrancy

open Llvm NearCore
open Relation (ReflTransGen TransGen)
open AddressOrder (Order natOrder)
open FaultyLoop (Reaches)
open Text (lit)

section

variable (M : Module) (F : Function)

/-- One pass of the `while` loop: the block it leaves in `currentBlock`, if it
sets `hasNewBlock`. -/
def walkStep (b : Block) : Option Block :=
  match b.get? with
  | none => none
  | some B =>
    match scanBlock M F b.1 (M.instructions B) none with
    | some (.next next) => next
    | _ => none

/-- The block the walk from `b` is at after `n` passes; `none` when it has ended. -/
def blockAt : Nat → Block → Option Block
  | 0, b => some b
  | n + 1, b => (walkStep M F b).bind (blockAt n)

/-- The walk from `b` ends after finitely many blocks. -/
def WalkEnds (b : Block) : Prop := ∃ n, blockAt M F n b = none

/-- A pass of the walk is one step, or the last one. -/
theorem walk_succ (n : Nat) (b : Block) :
    (∃ b', walkStep M F b = some b' ∧ walk M F (n + 1) b = walk M F n b') ∨
      (walkStep M F b = none ∧ walk M F (n + 1) b = walk M F 1 b) := by
  rw [walk, walk, walkStep]
  cases b.get? with
  | none => exact Or.inr ⟨rfl, rfl⟩
  | some B =>
    simp only
    rcases scanBlock M F b.1 (M.instructions B) none with _ | l | _ | b'
    · exact Or.inr ⟨rfl, rfl⟩
    · exact Or.inr ⟨rfl, rfl⟩
    · exact Or.inr ⟨rfl, rfl⟩
    · exact Or.inl ⟨b', rfl, rfl⟩

/-- Once the walk has ended, more fuel does not change what it comes to. -/
theorem walk_fuel {n : Nat} {b : Block} (h : blockAt M F n b = none) (m : Nat) :
    walk M F (n + m) b = walk M F n b := by
  induction n generalizing b with
  | zero => cases h
  | succ n ih =>
    rw [Nat.add_right_comm]
    rcases walk_succ M F (n + m) b with ⟨b', hb', hw⟩ | ⟨hb', hw⟩
    · rw [blockAt, hb', Option.bind_some] at h
      rcases walk_succ M F n b with ⟨c, hc, hwc⟩ | ⟨hc, -⟩
      · rw [hb', Option.some.injEq] at hc
        subst hc
        rw [hw, hwc, ih h]
      · rw [hb'] at hc
        cases hc
    · rcases walk_succ M F n b with ⟨c, hc, -⟩ | ⟨-, hwc⟩
      · rw [hb'] at hc
        cases hc
      · rw [hw, hwc]

/-! ## Where the walk goes -/

/-- No store of the block ends the walk. -/
def Plain (b : Block) : Prop := ∃ B, b.get? = some B ∧ ∀ p ∈ M.instructions B, Passed M F p

/-- The walk goes from `a` to `b`. -/
def Goes (a b : Block) : Prop := Plain M F a ∧ LastEdge M a b

theorem walkStep_eq_some_iff {a b : Block} : walkStep M F a = some b ↔ Goes M F a b := by
  unfold walkStep Goes Plain LastEdge
  cases a.get? with
  | none => simp
  | some A =>
    simp only [Option.some.injEq, exists_eq_left']
    refine ⟨fun h => ?_, ?_⟩
    · split at h
      · rename_i next hnext
        obtain ⟨hstores, heq⟩ := (scanBlock_next_iff M F).1 hnext
        exact ⟨hstores, by rw [← heq, h]⟩
      · cases h
    · rintro ⟨hstores, hnext⟩
      rw [(scanBlock_next_iff M F).2 ⟨hstores, rfl⟩]
      exact hnext

/-- The walk stays in the function it starts in, and comes to finitely many blocks. -/
theorem reachable_blocks {a b : Block} (h : ReflTransGen (Goes M F) a b) :
    b ∈ ({a} ∪ (fun c => (a.1, c)) '' Set.Iio a.1.blocks.length : Set Block) := by
  have hfunction : a.1 = b.1 := by
    induction h with
    | refl => rfl
    | tail _ hlast ih => exact ih.trans (branchEdge_of_lastEdge M hlast.2).1
  cases h with
  | refl => exact Or.inl rfl
  | tail _ hlast =>
    obtain ⟨-, A, -, p, -, condition, successors, -, -, hbb⟩ := branchEdge_of_lastEdge M hlast.2
    refine Or.inr ⟨b.2, ?_, Prod.ext hfunction rfl⟩
    by_contra hlen
    have hnone : b.get? = none := by
      rw [Block.get?, ← hfunction]
      exact List.getElem?_eq_none (Nat.not_lt.1 hlen)
    simp [isBB, hnone] at hbb

/-- The walk ends exactly when no chain of its steps is endless. -/
theorem walkEnds_iff_acc (b : Block) :
    WalkEnds M F b ↔ Acc (fun c d => Goes M F d c) b := by
  constructor
  · rintro ⟨n, h⟩
    induction n generalizing b with
    | zero => cases h
    | succ n ih =>
      refine ⟨b, fun c hc => ih c ?_⟩
      rw [blockAt, (walkStep_eq_some_iff M F).2 hc, Option.bind_some] at h
      exact h
  · intro h
    induction h with
    | intro b _ ih =>
      cases hb : walkStep M F b with
      | none => exact ⟨1, by rw [blockAt, hb, Option.bind_none]⟩
      | some c =>
        obtain ⟨n, hn⟩ := ih c ((walkStep_eq_some_iff M F).1 hb)
        exact ⟨n + 1, by rw [blockAt, hb, Option.bind_some, hn]⟩

/-- A chain of steps that comes back to a block. -/
def ComesAround (b : Block) : Prop :=
  ∃ c, ReflTransGen (Goes M F) b c ∧ TransGen (Goes M F) c c

/-- Whatever arm is picked, the walk of the pass ends exactly when it does not
come around. -/
theorem walk_ends_iff (o : Order ValueId) :
    (∀ p b, Decides M (F.instructions M) p → Picked M o p.2 b → WalkEnds M F b) ↔
      ∀ p b, Decides M (F.instructions M) p → Picked M o p.2 b → ¬ ComesAround M F b := by
  have hwalk : ∀ b, WalkEnds M F b ↔ ¬ ComesAround M F b := by
    intro b
    rw [walkEnds_iff_acc]
    exact DeepSearch.acc_iff_no_cycle ((Set.finite_singleton b).union ((Set.finite_Iio _).image _))
      fun c hc => reachable_blocks M F hc
  simp only [hwalk]

/-! ## When the addresses do not matter -/

/-- The walk ends in the block: with the line of its first exposed store, or with none
where no store is exposed and no branch leads on. -/
def EndsAt (b : Block) (lines : List Line) : Prop :=
  (∃ B, b.get? = some B ∧ ∃ l, Reaches (Passed M F) (Writes M F l) (M.instructions B) ∧
    lines = [l]) ∨
  (Plain M F b ∧ (∀ c, ¬ LastEdge M b c) ∧ lines = [])

/-- The chain of the blocks the walk goes to leads to one where it ends. -/
def LeadsTo (b : Block) (lines : List Line) : Prop :=
  ∃ c, ReflTransGen (Goes M F) b c ∧ EndsAt M F c lines

theorem walk_one_iff {b : Block} {lines : List Line} :
    walk M F 1 b = some lines ↔ EndsAt M F b lines := by
  have hscan : walk M F 1 b = some lines ↔ ∃ B, b.get? = some B ∧
      ((∃ l, scanBlock M F b.1 (M.instructions B) none = some (.line l) ∧ lines = [l]) ∨
        (scanBlock M F b.1 (M.instructions B) none = some (.next none) ∧ lines = [])) := by
    rw [walk]
    cases b.get? with
    | none => simp
    | some B =>
      simp only [Option.some.injEq, exists_eq_left']
      rcases scanBlock M F b.1 (M.instructions B) none with _ | l | _ | c <;> simp [walk, eq_comm]
  rw [hscan]
  simp only [scanBlock_line_iff, scanBlock_next_iff]
  constructor
  · rintro ⟨B, hB, ⟨l, hl, rfl⟩ | ⟨⟨hpassed, hnone⟩, rfl⟩⟩
    · exact .inl ⟨B, hB, l, hl, rfl⟩
    · refine .inr ⟨⟨B, hB, hpassed⟩, ?_, rfl⟩
      rintro c ⟨A, hA, hc⟩
      rw [hB, Option.some.injEq] at hA
      rw [← hA, ← hnone] at hc
      cases hc
  · rintro (⟨B, hB, l, hl, rfl⟩ | ⟨⟨B, hB, hpassed⟩, hlast, rfl⟩)
    · exact ⟨B, hB, .inl ⟨l, hl, rfl⟩⟩
    · refine ⟨B, hB, .inr ⟨⟨hpassed, ?_⟩, rfl⟩⟩
      cases hn : nextBlock b.1 (M.instructions B) none with
      | none => rfl
      | some c => exact absurd ⟨B, hB, hn⟩ (hlast c)

/-- With some fuel the walk ends with the lines its chain of blocks leads to. -/
theorem exists_walk_iff {b : Block} {lines : List Line} :
    (∃ n, walk M F n b = some lines) ↔ LeadsTo M F b lines := by
  constructor
  · rintro ⟨n, h⟩
    induction n generalizing b with
    | zero => cases h
    | succ n ih =>
      rcases walk_succ M F n b with ⟨b', hb', hw⟩ | ⟨-, hw⟩
      · obtain ⟨c, hpath, hc⟩ := ih (hw ▸ h)
        exact ⟨c, .head ((walkStep_eq_some_iff M F).1 hb') hpath, hc⟩
      · exact ⟨b, .refl, (walk_one_iff M F).1 (hw ▸ h)⟩
  · rintro ⟨c, hpath, hc⟩
    induction hpath using Relation.ReflTransGen.head_induction_on with
    | refl => exact ⟨1, (walk_one_iff M F).2 hc⟩
    | @head b d hstep _ ih =>
      obtain ⟨n, hn⟩ := ih
      have hstep' := (walkStep_eq_some_iff M F).2 hstep
      rcases walk_succ M F n b with ⟨b', hb', hw⟩ | ⟨hnone, -⟩
      · rw [hstep', Option.some.injEq] at hb'
        exact ⟨n + 1, by rw [hw, ← hb', hn]⟩
      · rw [hstep'] at hnone
        cases hnone

/-- The arms an order may pick for the deciding call lead to the same lines, or to no end. -/
def ArmsAgree : Prop :=
  ∀ p, Decides M (F.instructions M) p → ∀ b b', Candidate M p.2 b → Candidate M p.2 b' →
    ∀ lines, LeadsTo M F b lines → LeadsTo M F b' lines

/-- What a run comes to: nothing where no instruction has an arm, else what the arm picked
for the deciding one leads to. -/
theorem exists_runOnFunction_iff {o : Order ValueId} {lines : List Line} :
    (∃ n, runOnFunction M F o n = some lines) ↔
      (lines = [] ∧ ∀ q ∈ F.instructions M, ¬ HasArm M q.2) ∨
      ∃ p b, Decides M (F.instructions M) p ∧ Picked M o p.2 b ∧ LeadsTo M F b lines := by
  have his : ∀ q ∈ F.instructions M, M.instruction? q.1 = some q.2 :=
    fun q hq => Function.instruction?_of_mem hq
  have hrun : ∀ n, runOnFunction M F o n = runOnInsts M F o n (F.instructions M) := by
    intro n
    rw [runOnFunction, if_neg (by simp)]
  simp only [hrun]
  constructor
  · rintro ⟨n, h⟩
    rcases runOnInsts_cases M F h with hno | ⟨p, b, hdec, hpick, hw⟩
    · exact Or.inl hno
    · exact Or.inr ⟨p, b, hdec, hpick, (exists_walk_iff M F).1 ⟨n, hw⟩⟩
  · rintro (⟨rfl, hno⟩ | ⟨p, b, hdec, hpick, hleads⟩)
    · exact ⟨0, runOnInsts_of_not_hasArm M F his hno⟩
    · obtain ⟨n, hn⟩ := (exists_walk_iff M F).2 hleads
      exact ⟨n, by rw [runOnInsts_of_decides M F his hdec hpick, hn]⟩

/-- In any two orders the pass comes to the same exactly when the arms agree. -/
theorem order_independent_iff :
    (∀ (o o' : Order ValueId) (lines : List Line),
        (∃ n, runOnFunction M F o n = some lines) ↔ ∃ n, runOnFunction M F o' n = some lines) ↔
      ArmsAgree M F := by
  have hnone : ∀ p, Decides M (F.instructions M) p →
      ¬ ∀ q ∈ F.instructions M, ¬ HasArm M q.2 := by
    rintro p ⟨pre, post, his, -, harm⟩ hno
    exact hno p (by rw [his]; simp) harm
  simp only [exists_runOnFunction_iff]
  constructor
  · intro h p hdec b b' hb hb' lines hleads
    obtain ⟨o, ho⟩ := exists_picked M hb
    obtain ⟨o', ho'⟩ := exists_picked M hb'
    rcases (h o o' lines).1 (Or.inr ⟨p, b, hdec, ho, hleads⟩) with
      ⟨-, hno⟩ | ⟨p', c, hdec', hpick, hc⟩
    · exact absurd hno (hnone p hdec)
    · have hp := decides_unique M hdec hdec'
      subst hp
      rwa [picked_unique M ho' hpick]
  · intro h
    have himp : ∀ (o o' : Order ValueId) (lines : List Line),
        ((lines = [] ∧ ∀ q ∈ F.instructions M, ¬ HasArm M q.2) ∨
          ∃ p b, Decides M (F.instructions M) p ∧ Picked M o p.2 b ∧ LeadsTo M F b lines) →
        (lines = [] ∧ ∀ q ∈ F.instructions M, ¬ HasArm M q.2) ∨
          ∃ p b, Decides M (F.instructions M) p ∧ Picked M o' p.2 b ∧ LeadsTo M F b lines := by
      rintro o o' lines (hno | ⟨p, b, hdec, hpick, hleads⟩)
      · exact Or.inl hno
      · obtain ⟨b', hpick'⟩ := exists_picked_of_decides M o' hdec
        exact Or.inr ⟨p, b', hdec, hpick', h p hdec b b' (candidate_of_picked M hpick)
          (candidate_of_picked M hpick') lines hleads⟩
    exact fun o o' lines => ⟨himp o o' lines, himp o' o lines⟩

end

/-- A callback with a loop below the arm. -/
def onPayout : Function :=
  ⟨lit "_ZN5token5Token9on_payout17h1E" rfl, 0, [2],
    [⟨lit "start" rfl, [3, 4, 5, 6]⟩, ⟨lit "bb1" rfl, [7]⟩, ⟨lit "bb2" rfl, [8]⟩]⟩

/-- The arm leads to `bb1`, whose branch goes to `bb2` and back to `bb1`. -/
def loopModule : Module where
  values :=
    [.function, .function, .argument,
     .instruction ⟨.other [], none⟩,
     .instruction ⟨.call [3] [] 1 true, some ⟨lit "src/lib.rs" rfl, 30⟩⟩,
     .instruction ⟨.other [3], some ⟨lit "src/lib.rs" rfl, 30⟩⟩,
     .instruction ⟨.switch 5 2 [(1, 1)], some ⟨lit "src/lib.rs" rfl, 30⟩⟩,
     .instruction ⟨.br (some 5) [2, 1], some ⟨lit "src/lib.rs" rfl, 31⟩⟩,
     .instruction ⟨.ret none, some ⟨lit "src/lib.rs" rfl, 34⟩⟩]
  functions :=
    [onPayout, ⟨lit "_ZN8near_sdk11environment3env14promise_result17h2E" rfl, 1, [], []⟩]
  users := useList _
  users_perm := fun _ => .refl _
  operands_lt := by decide
  params_lt := by decide
  names_nodup := by decide
  functions_nodup := by decide

/-- The walk goes from `bb1` to `bb1` for ever. -/
theorem loop_below_arm_not_ended :
    ¬ ∀ p b, Decides loopModule (onPayout.instructions loopModule) p →
      Picked loopModule natOrder p.2 b → WalkEnds loopModule onPayout b := by
  intro h
  have hpick : Picked loopModule natOrder
      ⟨.call [3] [] 1 true, some ⟨lit "src/lib.rs" rfl, 30⟩⟩ (onPayout, 1) :=
    ⟨[7, 6, 5, 4, 3], by decide +kernel, rfl⟩
  have harm := arm_of_candidate loopModule (candidate_of_picked loopModule hpick)
  have hdec : Decides loopModule (onPayout.instructions loopModule)
      (4, ⟨.call [3] [] 1 true, some ⟨lit "src/lib.rs" rfl, 30⟩⟩) := by
    refine ⟨[(3, ⟨.other [], none⟩)], _, rfl, fun q hq harm' => ?_, by decide +kernel, _, harm⟩
    rw [List.mem_singleton] at hq
    subst hq
    exact absurd harm'.1 (by decide +kernel)
  obtain ⟨n, hn⟩ := h _ _ hdec hpick
  have hstep : walkStep loopModule onPayout (onPayout, 1) = some (onPayout, 1) := rfl
  have hstay : ∀ m, blockAt loopModule onPayout m (onPayout, 1) = some (onPayout, 1) := by
    intro m
    induction m with
    | zero => rfl
    | succ m ih => rw [blockAt, hstep, Option.bind_some, ih]
  rw [hstay] at hn
  cases hn

end Reentrancy
