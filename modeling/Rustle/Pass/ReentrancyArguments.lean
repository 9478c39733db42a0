import Rustle.Library.FaultyLoop
import Rustle.Pass.ReentrancyWalk

/-!
# `reentrancy`: the arguments and parameters it reads

* `accesses` — the reads of a first operand and of a first parameter that a run
  makes, in order.
* `CameTo`, `AsksParameter` — the calls whose operand is read, and the blocks in
  which the parameter is asked for.
* `accesses_in_range_iff` — when every read is in range: the calls of the pattern
  need **not** have an argument, nor the functions a parameter.
-/

namespace Reentrancy

open Llvm NearCore
open FaultyLoop (Reaches reaches_cons)
open Relation (ReflTransGen)
open AddressOrder (Order natOrder)
open Text (lit)

/-- A read by index. -/
inductive Access where
  /-- `getArgOperand(0)` of a call. -/
  | operand (i : Instruction)
  /-- `F.getArg(0)` -/
  | parameter

/-- What is read is there: an argument of the call, or a parameter of the function. -/
def Access.InRange (F : Function) : Access → Prop
  | .operand i => 0 < i.args.length
  | .parameter => 0 < F.arg_size

section

variable (M : Module) (F : Function)

/-- The reads of the scan of a block: at each store it comes to, after the search for the
users of the location. -/
def blockAccesses : List (ValueId × Instruction) → List Access
  | [] => []
  | (_, i) :: is =>
    match i.op with
    | .store _ pointer =>
      match usedInReturn M pointer with
      | none => []
      | some _ =>
        .parameter ::
          match changesState M F pointer with
          | some false => blockAccesses is
          | _ => []
    | _ => blockAccesses is

/-- The reads of a block of the walk. -/
def accessesAt (b : Block) : List Access :=
  match b.get? with
  | some B => blockAccesses M F (M.instructions B)
  | none => []

/-- The reads of the walk over the blocks. -/
def walkAccesses : Nat → Block → List Access
  | 0, _ => []
  | n + 1, b =>
    accessesAt M F b ++
      match walkStep M F b with
      | some b' => walkAccesses n b'
      | none => []

/-- The reads of the loop over the instructions. -/
def instAccesses (o : Order ValueId) (fuel : Nat) : List (ValueId × Instruction) → List Access
  | [] => []
  | (_, i) :: is =>
    if !isPromiseResult M i then instAccesses o fuel is
    else
      .operand i ::
        match resultUsers M i with
        | none => []
        | some pmRsUsers =>
          match successfulBlock M o pmRsUsers with
          | none => instAccesses o fuel is
          | some b => walkAccesses M F fuel b

/-- The reads of `runOnFunction`. -/
def accesses (o : Order ValueId) (fuel : Nat) : List Access :=
  if skipFunc F then [] else instAccesses M F o fuel (F.instructions M)

/-! ## What is read -/

/-- A promise-result call with none before it that has an arm. -/
def CameTo (is : List (ValueId × Instruction)) (p : ValueId × Instruction) : Prop :=
  Reaches (fun q => ¬ HasArm M q.2) (fun q => q = p ∧ isPromiseResult M p.2 = true) is

/-- The scan of the instructions comes to a store, and the search for the users of its
location is defined. -/
def AsksIn (is : List (ValueId × Instruction)) : Prop :=
  Reaches (Passed M F)
    (fun q => ∃ value pointer, q.2.op = .store value pointer ∧
      ∃ r, usedInReturn M pointer = some r) is

/-- The scan of the block asks for the first parameter. -/
def AsksParameter (b : Block) : Prop := ∃ B, b.get? = some B ∧ AsksIn M F (M.instructions B)

/-- A location whose use is decided has been searched for. -/
theorem exists_usedInReturn {pointer : ValueId} {b : Bool}
    (h : changesState M F pointer = some b) : ∃ r, usedInReturn M pointer = some r := by
  unfold changesState at h
  split at h
  · rename_i used self hused hself
    exact ⟨used, hused⟩
  · cases h

theorem parameter_mem_blockAccesses_iff {is : List (ValueId × Instruction)} :
    Access.parameter ∈ blockAccesses M F is ↔ AsksIn M F is := by
  induction is with
  | nil => simp [blockAccesses, AsksIn]
  | cons p is ih =>
    obtain ⟨v, i⟩ := p
    rw [AsksIn, reaches_cons, ← AsksIn, ← ih, blockAccesses]
    cases hop : i.op with
    | store value pointer =>
      cases hused : usedInReturn M pointer with
      | none =>
        have hnone : changesState M F pointer ≠ some false := by
          intro hc
          obtain ⟨r, hr⟩ := exists_usedInReturn M F hc
          rw [hused] at hr
          cases hr
        simp [hused, hnone, Passed, hop]
      | some r => simp [hused]
    | call | br | switch | ret | getElementPtr | other => simp [Passed, hop]

theorem parameter_mem_accessesAt_iff {b : Block} :
    Access.parameter ∈ accessesAt M F b ↔ AsksParameter M F b := by
  rw [accessesAt, AsksParameter]
  cases b.get? with
  | none => simp
  | some B => simp [parameter_mem_blockAccesses_iff]

/-- The scan of a block reads no operand. -/
theorem eq_parameter_of_mem_blockAccesses {is : List (ValueId × Instruction)} {a : Access}
    (h : a ∈ blockAccesses M F is) : a = .parameter := by
  induction is with
  | nil => exact absurd h List.not_mem_nil
  | cons p is ih =>
    obtain ⟨v, i⟩ := p
    rw [blockAccesses] at h
    split at h
    · split at h
      · exact absurd h List.not_mem_nil
      · rcases List.mem_cons.1 h with rfl | h
        · rfl
        · split at h
          · exact ih h
          · exact absurd h List.not_mem_nil
    · exact ih h

theorem eq_parameter_of_mem_walkAccesses {n : Nat} {b : Block} {a : Access}
    (h : a ∈ walkAccesses M F n b) : a = .parameter := by
  induction n generalizing b with
  | zero => exact absurd h List.not_mem_nil
  | succ n ih =>
    rw [walkAccesses, List.mem_append] at h
    rcases h with h | h
    · rw [accessesAt] at h
      split at h
      · exact eq_parameter_of_mem_blockAccesses M F h
      · exact absurd h List.not_mem_nil
    · split at h
      · exact ih h
      · exact absurd h List.not_mem_nil

/-- With some fuel the walk asks for the parameter exactly when it comes to a block that
does. -/
theorem exists_parameter_mem_walkAccesses_iff {b : Block} :
    (∃ n, Access.parameter ∈ walkAccesses M F n b) ↔
      ∃ c, ReflTransGen (Goes M F) b c ∧ AsksParameter M F c := by
  constructor
  · rintro ⟨n, h⟩
    induction n generalizing b with
    | zero => exact absurd h List.not_mem_nil
    | succ n ih =>
      rw [walkAccesses, List.mem_append] at h
      rcases h with h | h
      · exact ⟨b, .refl, (parameter_mem_accessesAt_iff M F).1 h⟩
      · split at h
        · rename_i b' hb'
          obtain ⟨c, hpath, hc⟩ := ih h
          exact ⟨c, .head ((walkStep_eq_some_iff M F).1 hb') hpath, hc⟩
        · exact absurd h List.not_mem_nil
  · rintro ⟨c, hpath, hc⟩
    induction hpath using Relation.ReflTransGen.head_induction_on with
    | refl =>
      refine ⟨1, ?_⟩
      rw [walkAccesses, List.mem_append]
      exact Or.inl ((parameter_mem_accessesAt_iff M F).2 hc)
    | head hstep _ ih =>
      obtain ⟨n, hn⟩ := ih
      refine ⟨n + 1, ?_⟩
      rw [walkAccesses, List.mem_append, (walkStep_eq_some_iff M F).2 hstep]
      exact Or.inr hn

/-- The deciding instruction is the first one, or that of the rest. -/
theorem decides_cons {q p : ValueId × Instruction} {is : List (ValueId × Instruction)} :
    Decides M (q :: is) p ↔ (q = p ∧ HasArm M p.2) ∨ (¬ HasArm M q.2 ∧ Decides M is p) := by
  have hreaches : ∀ is, Decides M is p ↔
      Reaches (fun q => ¬ HasArm M q.2) (fun q => q = p ∧ HasArm M p.2) is := by
    intro is
    constructor
    · rintro ⟨pre, post, rfl, hpre, hp⟩
      exact ⟨pre, p, post, rfl, hpre, rfl, hp⟩
    · rintro ⟨pre, q, post, rfl, hpre, rfl, hp⟩
      exact ⟨pre, post, rfl, hpre, hp⟩
  rw [hreaches, hreaches, reaches_cons]

/-- What the loop reads: the operand of each call it comes to, and what the walk from the
arm picked for the deciding call reads. -/
theorem mem_instAccesses_iff {o : Order ValueId} {n : Nat} {is : List (ValueId × Instruction)}
    (his : ∀ q ∈ is, M.instruction? q.1 = some q.2) {a : Access} :
    a ∈ instAccesses M F o n is ↔
      (∃ p, CameTo M is p ∧ a = .operand p.2) ∨
      ∃ p b, Decides M is p ∧ Picked M o p.2 b ∧ a ∈ walkAccesses M F n b := by
  induction is with
  | nil =>
    rw [instAccesses]
    simp [CameTo, Decides]
  | cons q is ih =>
    obtain ⟨v, i⟩ := q
    have ih' := ih fun q hq => his q (List.mem_cons_of_mem _ hq)
    have hcame : ∀ p, CameTo M ((v, i) :: is) p ↔
        ((v, i) = p ∧ isPromiseResult M p.2 = true) ∨ (¬ HasArm M i ∧ CameTo M is p) :=
      fun p => reaches_cons
    have hreads : ((∃ p, CameTo M ((v, i) :: is) p ∧ a = .operand p.2) ∨
          ∃ p b, Decides M ((v, i) :: is) p ∧ Picked M o p.2 b ∧ a ∈ walkAccesses M F n b) ↔
        (isPromiseResult M i = true ∧ a = .operand i) ∨
        (HasArm M i ∧ ∃ b, Picked M o i b ∧ a ∈ walkAccesses M F n b) ∨
        (¬ HasArm M i ∧ a ∈ instAccesses M F o n is) := by
      constructor
      · rintro (⟨p, hp, ha⟩ | ⟨p, b, hp, hpick, ha⟩)
        · rcases (hcame p).1 hp with ⟨rfl, hpr⟩ | ⟨hno, hp⟩
          · exact .inl ⟨hpr, ha⟩
          · exact .inr (.inr ⟨hno, ih'.2 (.inl ⟨p, hp, ha⟩)⟩)
        · rcases (decides_cons M).1 hp with ⟨rfl, harm⟩ | ⟨hno, hp⟩
          · exact .inr (.inl ⟨harm, b, hpick, ha⟩)
          · exact .inr (.inr ⟨hno, ih'.2 (.inr ⟨p, b, hp, hpick, ha⟩)⟩)
      · rintro (⟨hpr, ha⟩ | ⟨harm, b, hpick, ha⟩ | ⟨hno, ha⟩)
        · exact .inl ⟨(v, i), (hcame (v, i)).2 (.inl ⟨rfl, hpr⟩), ha⟩
        · exact .inr ⟨(v, i), b, (decides_cons M).2 (.inl ⟨rfl, harm⟩), hpick, ha⟩
        · rcases ih'.1 ha with ⟨p, hp, ha⟩ | ⟨p, b, hp, hpick, ha⟩
          · exact .inl ⟨p, (hcame p).2 (.inr ⟨hno, hp⟩), ha⟩
          · exact .inr ⟨p, b, (decides_cons M).2 (.inr ⟨hno, hp⟩), hpick, ha⟩
    rw [hreads, instAccesses]
    by_cases hpr : isPromiseResult M i = true
    · rw [if_neg (by simp [hpr]), List.mem_cons]
      obtain ⟨users, husers⟩ :=
        exists_resultUsers M (his (v, i) (by simp)) hpr
      simp only [husers]
      cases hb : successfulBlock M o users with
      | none =>
        have hno : ¬ HasArm M i := fun harm =>
          not_arm_of_successfulBlock_none M husers hb _ harm.2.choose_spec
        simp [hpr, hno]
      | some b =>
        have hpick : Picked M o i b := ⟨users, husers, hb⟩
        have harm : HasArm M i := ⟨hpr, b, arm_of_candidate M (candidate_of_picked M hpick)⟩
        have hall : ∀ b', Picked M o i b' ↔ b' = b :=
          fun b' => ⟨fun h => picked_unique M h hpick, fun h => h ▸ hpick⟩
        simp [hpr, harm, hall]
    · have hno : ¬ HasArm M i := fun harm => hpr harm.1
      rw [if_pos (by simp [hpr])]
      simp [hpr, hno]

end

/-- Every run of the pass on a function reads in range if and only if every
promise-result call it comes to has an argument, and the function has a parameter or
the walk from the arm comes to no block that asks for it. -/
theorem accesses_in_range_iff (M : Module) (F : Function) (o : Order ValueId) :
    (∀ n, ∀ a ∈ accesses M F o n, a.InRange F) ↔
      (∀ p, CameTo M (F.instructions M) p → 0 < p.2.args.length) ∧
      (0 < F.arg_size ∨ ∀ p b, Decides M (F.instructions M) p → Picked M o p.2 b →
        ∀ c, ReflTransGen (Goes M F) b c → ¬ AsksParameter M F c) := by
  have his : ∀ q ∈ F.instructions M, M.instruction? q.1 = some q.2 :=
    fun q hq => Function.instruction?_of_mem hq
  have hmem : ∀ n a, a ∈ accesses M F o n ↔
      (∃ p, CameTo M (F.instructions M) p ∧ a = .operand p.2) ∨
      ∃ p b, Decides M (F.instructions M) p ∧ Picked M o p.2 b ∧ a ∈ walkAccesses M F n b := by
    intro n a
    rw [accesses, skipFunc_eq_false, if_neg Bool.false_ne_true]
    exact mem_instAccesses_iff M F his
  constructor
  · intro h
    refine ⟨fun p hp => h 0 (.operand p.2) ((hmem 0 _).2 (.inl ⟨p, hp, rfl⟩)), ?_⟩
    by_cases hsize : 0 < F.arg_size
    · exact Or.inl hsize
    · refine Or.inr fun p b hp hpick c hpath hc => hsize ?_
      obtain ⟨n, hn⟩ := (exists_parameter_mem_walkAccesses_iff M F).2 ⟨c, hpath, hc⟩
      exact h n .parameter ((hmem n _).2 (.inr ⟨p, b, hp, hpick, hn⟩))
  · rintro ⟨hargs, hparam⟩ n a ha
    rcases (hmem n a).1 ha with ⟨p, hp, rfl⟩ | ⟨p, b, hp, hpick, hwalk⟩
    · exact hargs p hp
    · have ha' := eq_parameter_of_mem_walkAccesses M F hwalk
      subst ha'
      rcases hparam with hsize | hnone
      · exact hsize
      · obtain ⟨c, hpath, hc⟩ := (exists_parameter_mem_walkAccesses_iff M F).1 ⟨n, hwalk⟩
        exact absurd hc (hnone p b hp hpick c hpath)

/-- A callback that asks how many results there are. -/
def onResolve : Function :=
  ⟨lit "_ZN5token5Token10on_resolve17h1E" rfl, 0, [2], [⟨lit "start" rfl, [3, 4]⟩]⟩

def countModule : Module where
  values :=
    [.function, .function, .argument,
     .instruction ⟨.call [] [] 1 true, some ⟨lit "src/lib.rs" rfl, 40⟩⟩,
     .instruction ⟨.ret none, some ⟨lit "src/lib.rs" rfl, 41⟩⟩]
  functions :=
    [onResolve,
     ⟨lit "_ZN8near_sdk11environment3env21promise_results_count17h2E" rfl, 1, [], []⟩]
  users := useList _
  users_perm := fun _ => .refl _
  operands_lt := by decide
  params_lt := by decide
  names_nodup := by decide
  functions_nodup := by decide

/-- The call of `promise_results_count` has no argument, and its first operand is read. -/
theorem count_operand_out_of_range :
    ¬ ∀ (M : Module) (F : Function) (o : Order ValueId) (n : Nat), ∀ a ∈ accesses M F o n,
      a.InRange F := by
  intro h
  have hcame : CameTo countModule (onResolve.instructions countModule)
      (3, ⟨.call [] [] 1 true, some ⟨lit "src/lib.rs" rfl, 40⟩⟩) :=
    ⟨[], _, [(4, ⟨.ret none, some ⟨lit "src/lib.rs" rfl, 41⟩⟩)], rfl, by simp, rfl,
      by decide +kernel⟩
  have hread : .operand ⟨.call [] [] 1 true, some ⟨lit "src/lib.rs" rfl, 40⟩⟩ ∈
      accesses countModule onResolve natOrder 0 := by
    rw [accesses, skipFunc_eq_false, if_neg Bool.false_ne_true]
    exact (mem_instAccesses_iff countModule onResolve
      fun q hq => Function.instruction?_of_mem hq).2 (.inl ⟨_, hcame, rfl⟩)
  exact absurd (h countModule onResolve natOrder 0 _ hread) (Nat.lt_irrefl 0)

end Reentrancy
