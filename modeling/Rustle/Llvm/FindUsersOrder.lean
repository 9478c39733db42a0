import Rustle.Llvm.FindUsers
import Rustle.Llvm.UserFlow

/-!
# The order of the uses, for the search with a bounded depth

From a call of `into` whose second argument is in the set, `findUsers` goes on to the
first argument **instead** of going on as from any other call.

* `Enters` — the search enters a value while it holds some set.
* `dependsOnSecond` — the calls for which the two ways on differ.
* `AskedAlike` — the answer at such a call is a matter of the call alone.
* `mem_findUsers_iff` — then the search follows fixed rules.
* `users_agree` — and finds the same values in any order.
-/

namespace FindUsersOrder

open Llvm NearCore UserFlow
open Text (lit)
open Relation (ReflTransGen)

/-- The program with the use lists of `N`. -/
def withUses (M : TypedModule) (N : Module) : TypedModule := { M with toModule := N }

section

variable (M : TypedModule)

/-- Where the search goes from a value, if `calls` says where it goes from a call. -/
def targets (calls : Instruction → List ValueId) (v : ValueId) : List ValueId :=
  match M.instruction? v with
  | some i =>
    match i.op with
    | .store _ pointer => [pointer]
    | .getElementPtr .. => M.users v
    | .call .. => calls i
    | .other _ =>
      match M.otherClass v with
      | .unary | .cast | .binaryOperator => M.users v
      | .icmp _ | .rest => []
    | .br .. | .switch .. | .ret .. => []
  | none => M.users v

/-- Does the search ask for the second argument of the call? -/
def asksSecond (i : Instruction) : Bool :=
  let name := (M.getCalledFunction i).map Function.name
  !(name.any fun n => (lit "llvm.memcpy" rfl).isPrefixOf n) &&
  !(name.any fun n => Text.contains n (lit "core..cmp" rfl)) &&
  (name.any fun n => Text.contains n (lit "core..convert..Into" rfl)) &&
  decide (2 ≤ i.args.length)

/-- Is there more to go on to from the call `c` than its first two arguments? -/
def dependsOnSecond (c : ValueId) (i : Instruction) : Bool :=
  asksSecond M i && (decide (2 < i.args.length) || !(M.users c).isEmpty)

/-- Where the search goes from the call `c`, when `second` says what it finds out about
the second argument. -/
def callTargets (second : ValueId → Bool) (c : ValueId) (i : Instruction) : List ValueId :=
  if asksSecond M i then if second c then i.args.take 2 else i.args ++ M.users c
  else callSteps M c i []

/-- The search for the users of `v` enters `c` while it holds the set `s`. -/
def Enters (v c : ValueId) (s : List ValueId) : Prop :=
  ∃ depth, Visit.Tries Prod.fst (fun node => decide (node.2 = 0) || M.isLabelTy node.1)
    (findUsersSteps M) (M.values.length + 1) (v, INT32_MAX) [] (c, depth) s ∧ c ∉ s

/-- Whenever the search enters a call for which it matters, it finds out about the second
argument what `second` says. -/
def AskedAlike (second : ValueId → Bool) (v : ValueId) : Prop :=
  ∀ c s i, Enters M v c s → M.instruction? c = some i → dependsOnSecond M c i = true →
    (i.getArgOperand 1).any (c :: s).contains = second c

/-- One step of the search by fixed rules. -/
def Step (second : ValueId → Bool) (v w : ValueId) : Prop :=
  w ∈ targets M (callTargets M second v) v

end

section

variable {M : TypedModule} {second : ValueId → Bool}

theorem map_findUsersSteps (node : ValueId × Nat) (set : List ValueId) :
    (findUsersSteps M node set).map Prod.fst =
      targets M (fun i => callSteps M node.1 i set) node.1 := by
  rw [findUsersSteps, targets]
  cases M.instruction? node.1 with
  | none =>
    rw [List.map_map]
    exact List.map_id _
  | some i =>
    rw [List.map_map]
    exact List.map_id _

/-- A call for which the second argument is not asked for has the same steps
whatever the set. -/
theorem callSteps_of_not_asksSecond {c : ValueId} {i : Instruction} (h : asksSecond M i = false)
    (set : List ValueId) : callSteps M c i set = callSteps M c i [] := by
  simp only [asksSecond, Bool.and_eq_false_iff, Bool.not_eq_false'] at h
  simp only [callSteps]
  rcases h with ((h | h) | h) | h
  · rw [if_pos h, if_pos h]
  · simp only [h, if_true]
  · simp only [h, Bool.false_and, Bool.false_eq_true, if_false]
  · simp only [h, Bool.and_false, Bool.false_and, Bool.false_eq_true, if_false]

theorem callSteps_of_asksSecond {c : ValueId} {i : Instruction} (h : asksSecond M i = true)
    (set : List ValueId) :
    callSteps M c i set =
      if (i.getArgOperand 1).any set.contains then (i.getArgOperand 0).toList
      else i.args ++ M.users c := by
  simp only [asksSecond, Bool.and_eq_true, Bool.not_eq_true'] at h
  obtain ⟨⟨⟨hmemcpy, hcmp⟩, hname⟩, hlen⟩ := h
  simp only [callSteps, hmemcpy, hcmp, hname, hlen, Bool.true_and, Bool.false_eq_true, if_false]

/-- A call whose second argument is asked for has two arguments. -/
theorem exists_args_of_asksSecond {i : Instruction} (h : asksSecond M i = true) :
    ∃ a b rest, i.args = a :: b :: rest ∧ i.getArgOperand 0 = some a ∧
      i.getArgOperand 1 = some b := by
  simp only [asksSecond, Bool.and_eq_true, decide_eq_true_eq] at h
  obtain ⟨⟨-, hname⟩, hlen⟩ := h
  obtain ⟨name, hmap, -⟩ := (Option.any_eq_true _ _).1 hname
  obtain ⟨G, hG, -⟩ := Option.map_eq_some_iff.1 hmap
  have h0 := getArgOperand_of_lt hG (k := 0) (by omega)
  have h1 := getArgOperand_of_lt hG (k := 1) (by omega)
  cases hargs : i.args with
  | nil => simp [hargs] at hlen
  | cons a as =>
    cases as with
    | nil => simp [hargs] at hlen
    | cons b rest =>
      rw [hargs] at h0 h1
      exact ⟨a, b, rest, rfl, h0, h1⟩

/-- Where it does not matter, the fixed steps are the arguments. -/
theorem callTargets_of_not_dependsOnSecond {c : ValueId} {i : Instruction}
    (h : asksSecond M i = true) (hdep : dependsOnSecond M c i = false) :
    callTargets M second c i = i.args ∧ M.users c = [] := by
  simp only [dependsOnSecond, h, Bool.true_and, Bool.or_eq_false_iff, decide_eq_false_iff_not,
    Bool.not_eq_false', List.isEmpty_iff] at hdep
  rw [callTargets, if_pos h, hdep.2, List.append_nil, List.take_of_length_le (by omega)]
  exact ⟨ite_self _, rfl⟩

/-- The search follows the fixed steps only. -/
theorem mem_callTargets_of_mem_callSteps {c w : ValueId} {i : Instruction} {set : List ValueId}
    (hsecond : dependsOnSecond M c i = true → (i.getArgOperand 1).any set.contains = second c)
    (hw : w ∈ callSteps M c i set) : w ∈ callTargets M second c i := by
  cases hasks : asksSecond M i with
  | false =>
    rw [callTargets, hasks, if_neg Bool.false_ne_true]
    rwa [callSteps_of_not_asksSecond hasks] at hw
  | true =>
    obtain ⟨a, b, rest, hargs, h0, h1⟩ := exists_args_of_asksSecond hasks
    rw [callSteps_of_asksSecond hasks] at hw
    cases hdep : dependsOnSecond M c i with
    | true =>
      rw [hsecond hdep, h0] at hw
      rw [callTargets, if_pos hasks]
      cases hc : second c with
      | true =>
        have hwa : w = a := by simpa [hc] using hw
        simp [hwa, hargs]
      | false => simpa [hc] using hw
    | false =>
      obtain ⟨htargets, hvoid⟩ : callTargets M second c i = i.args ∧ M.users c = [] :=
        callTargets_of_not_dependsOnSecond hasks hdep
      rw [htargets]
      rw [hvoid, List.append_nil, h0] at hw
      split at hw
      · have hwa : w = a := by simpa using hw
        simp [hwa, hargs]
      · exact hw

/-- The search follows every fixed step that does not lead into the set. -/
theorem mem_callSteps_of_mem_callTargets {c w : ValueId} {i : Instruction} {set : List ValueId}
    (hsecond : dependsOnSecond M c i = true → (i.getArgOperand 1).any set.contains = second c)
    (hw : w ∈ callTargets M second c i) : w ∈ set ∨ w ∈ callSteps M c i set := by
  cases hasks : asksSecond M i with
  | false =>
    rw [callTargets, hasks, if_neg Bool.false_ne_true] at hw
    rw [callSteps_of_not_asksSecond hasks]
    exact Or.inr hw
  | true =>
    obtain ⟨a, b, rest, hargs, h0, h1⟩ := exists_args_of_asksSecond hasks
    rw [callSteps_of_asksSecond hasks, h0, h1]
    cases hb : (some b).any set.contains with
    | false =>
      refine Or.inr ?_
      cases hdep : dependsOnSecond M c i with
      | true =>
        rw [callTargets, if_pos hasks, ← hsecond hdep, h1, hb] at hw
        simpa using hw
      | false =>
        obtain ⟨htargets, -⟩ : callTargets M second c i = i.args ∧ M.users c = [] :=
          callTargets_of_not_dependsOnSecond hasks hdep
        rw [htargets] at hw
        simp [hw]
    | true =>
      -- the second argument is in the set already
      have hbset : b ∈ set := by simpa using hb
      have hpair : w = a ∨ w = b := by
        cases hdep : dependsOnSecond M c i with
        | true =>
          rw [callTargets, if_pos hasks, ← hsecond hdep, h1, hb, hargs] at hw
          simpa using hw
        | false =>
          obtain ⟨htargets, -⟩ : callTargets M second c i = i.args ∧ M.users c = [] :=
            callTargets_of_not_dependsOnSecond hasks hdep
          simp only [dependsOnSecond, hasks, hargs, Bool.true_and, Bool.or_eq_false_iff,
            decide_eq_false_iff_not, List.length_cons] at hdep
          have hrest : rest = [] := List.length_eq_zero_iff.1 (by omega)
          rw [htargets, hargs, hrest] at hw
          simpa using hw
      rcases hpair with rfl | rfl
      · exact Or.inr (by simp)
      · exact Or.inl hbset

/-- The steps of the search from a value, and the fixed ones. -/
theorem targets_congr {v : ValueId} {calls calls' : Instruction → List ValueId}
    {P : ValueId → Prop} (h : ∀ i, M.instruction? v = some i → ∀ w ∈ calls i, P w ∨ w ∈ calls' i)
    {w : ValueId} (hw : w ∈ targets M calls v) : P w ∨ w ∈ targets M calls' v := by
  unfold targets at hw ⊢
  split at hw
  · rename_i i hi
    split at hw
    all_goals first
      | exact Or.inr hw
      | exact h i hi w hw
  · exact Or.inr hw

/-- A search of fewer than `INT32_MAX` values never runs out of depth. -/
theorem depth_pos {n : Nat} {node node' : ValueId × Nat} {set s : List ValueId}
    (h : Visit.Tries Prod.fst (fun node => decide (node.2 = 0) || M.isLabelTy node.1)
      (findUsersSteps M) n node set node' s) (hn : n < node.2) (hmax : n < INT32_MAX) :
    0 < node'.2 := by
  induction h with
  | here => omega
  | @deeper n node set bs bs' c s d t hskip hnew hsteps hpre htries ih =>
    have hc : c ∈ findUsersSteps M node (node.1 :: set) := by rw [hsteps]; simp
    refine ih ?_ (by omega)
    unfold findUsersSteps at hc
    split at hc
    · obtain ⟨u, -, rfl⟩ := List.mem_map.1 hc
      simp only
      omega
    · obtain ⟨u, -, rfl⟩ := List.mem_map.1 hc
      simp only
      omega

/-- Where the answers are a matter of the call, the search follows fixed rules. -/
theorem mem_findUsers_iff {v : ValueId} {set : List ValueId}
    (hlen : M.values.length + 1 < INT32_MAX) (halike : AskedAlike M second v)
    (hv : M.isLabelTy v = false) (h : findUsers M v = some set) {w : ValueId} :
    w ∈ set ↔ ReflTransGen (fun u w => Step M second u w ∧ M.isLabelTy w = false) v w := by
  have hcall : ∀ (c : ValueId × Nat) s i, Visit.Tries Prod.fst
      (fun node => decide (node.2 = 0) || M.isLabelTy node.1) (findUsersSteps M)
      (M.values.length + 1) (v, INT32_MAX) [] c s → c.1 ∉ s → M.instruction? c.1 = some i →
      dependsOnSecond M c.1 i = true →
      (i.getArgOperand 1).any (c.1 :: s).contains = second c.1 :=
    fun c s i htries hnew hi hdep => halike c.1 s i ⟨c.2, htries, hnew⟩ hi hdep
  refine Visit.mem_visitBy_iff (b := (v, INT32_MAX)) h ?_ ?_ ?_ hv
  · intro c s htries
    have hpos := depth_pos htries hlen hlen
    have hne : c.2 ≠ 0 := by omega
    simp [hne]
  · intro c s htries _ hnew d hd
    have hmem : d.1 ∈ targets M (fun i => callSteps M c.1 i (c.1 :: s)) c.1 := by
      rw [← map_findUsersSteps]
      exact List.mem_map_of_mem hd
    rcases targets_congr (P := fun _ => False) (fun i hi w hw => Or.inr
      (mem_callTargets_of_mem_callSteps (hcall c s i htries hnew hi) hw)) hmem with hfalse | hstep
    · exact hfalse.elim
    · exact hstep
  · intro c s htries _ hnew w hw
    rcases targets_congr (P := fun w => w ∈ c.1 :: s) (fun i hi w hw =>
      mem_callSteps_of_mem_callTargets (hcall c s i htries hnew hi) hw) hw with hset | hstep
    · exact Or.inl hset
    · rw [← map_findUsersSteps] at hstep
      obtain ⟨d, hd, rfl⟩ := List.mem_map.1 hstep
      exact Or.inr ⟨d, hd, rfl⟩

end

/-! ## Two orders of the uses -/

section

variable {M : TypedModule} {N : Module} (h : SameProgram M.toModule N)

include h

theorem instruction?_withUses : (withUses M N).instruction? = M.instruction? := h.instruction?

theorem getCalledFunction_withUses :
    (withUses M N).getCalledFunction = M.getCalledFunction := h.getCalledFunction

theorem isLabelTy_withUses : (withUses M N).isLabelTy = M.isLabelTy := h.isLabelTy

theorem mem_users_withUses {u v : ValueId} : u ∈ (withUses M N).users v ↔ u ∈ M.users v :=
  h.mem_users

theorem asksSecond_withUses (i : Instruction) : asksSecond (withUses M N) i = asksSecond M i := by
  rw [asksSecond, asksSecond, getCalledFunction_withUses h]

theorem mem_memcpySteps_withUses {i : Instruction} {w : ValueId} :
    w ∈ memcpySteps (withUses M N) i ↔ w ∈ memcpySteps M i := by
  have hother : (withUses M N).other? = M.other? := by
    funext v
    rw [TypedModule.other?, TypedModule.other?, instruction?_withUses h]
    rfl
  rw [memcpySteps, memcpySteps, instruction?_withUses h, hother]
  cases i.getArgOperand 0 with
  | none => exact Iff.rfl
  | some target =>
    simp only [List.mem_append, mem_users_withUses h]
    refine or_congr_right ?_
    split
    · split
      · exact mem_users_withUses h
      · exact Iff.rfl
    · exact Iff.rfl

theorem mem_callSteps_withUses {c : ValueId} {i : Instruction} {set : List ValueId} {w : ValueId} :
    w ∈ callSteps (withUses M N) c i set ↔ w ∈ callSteps M c i set := by
  simp only [callSteps, getCalledFunction_withUses h]
  split
  · exact mem_memcpySteps_withUses h
  · split
    · exact Iff.rfl
    · split
      · exact Iff.rfl
      · simp only [List.mem_append, mem_users_withUses h]

/-- The fixed rules do not depend on the order of the uses. -/
theorem step_withUses {second : ValueId → Bool} {v w : ValueId} :
    Step (withUses M N) second v w ↔ Step M second v w := by
  have hcall : ∀ i, w ∈ callTargets (withUses M N) second v i ↔ w ∈ callTargets M second v i := by
    intro i
    rw [callTargets, callTargets, asksSecond_withUses h]
    split
    · split
      · exact Iff.rfl
      · simp only [List.mem_append, mem_users_withUses h]
    · exact mem_callSteps_withUses h
  rw [Step, Step, targets, targets, instruction?_withUses h]
  split
  · split
    · exact Iff.rfl
    · exact mem_users_withUses h
    · exact hcall _
    · rw [show (withUses M N).otherClass v = M.otherClass v from rfl]
      split
      · exact mem_users_withUses h
      · exact mem_users_withUses h
      · exact mem_users_withUses h
      · exact Iff.rfl
      · exact Iff.rfl
    all_goals exact Iff.rfl
  · exact mem_users_withUses h

end

/-- In both orders the search finds out the same about the second argument of a call,
wherever it matters. -/
def Alike (M : TypedModule) (N : Module) (v : ValueId) : Prop :=
  ∃ second, AskedAlike M second v ∧ AskedAlike (withUses M N) second v

/-- The search ends in both orders, with the same values. -/
def SameUsers (M : TypedModule) (N : Module) (v : ValueId) : Prop :=
  ∃ set set', findUsers M v = some set ∧ findUsers (withUses M N) v = some set' ∧
    ∀ w, w ∈ set ↔ w ∈ set'

/-- A value of label type has no users. -/
theorem findUsers_label {M : TypedModule} {v : ValueId} (hv : M.isLabelTy v = true) :
    findUsers M v = some [] := by
  rw [findUsers, Visit.visitBy, if_pos (by simp [hv])]

theorem users_agree {M : TypedModule} {N : Module} (hsame : SameProgram M.toModule N)
    (hlen : M.values.length + 1 < INT32_MAX) {v : ValueId} (hv : v < M.values.length)
    (halike : Alike M N v) : SameUsers M N v := by
  obtain ⟨second, hM, hN⟩ := halike
  have hvalues : (withUses M N).values = M.values := hsame.values
  obtain ⟨set, hset⟩ := exists_findUsers M hv
  obtain ⟨set', hset'⟩ := exists_findUsers (withUses M N) (hvalues ▸ hv)
  refine ⟨set, set', hset, hset', fun w => ?_⟩
  cases hlabel : M.isLabelTy v with
  | true =>
    have hlabel' : (withUses M N).isLabelTy v = true := by rw [isLabelTy_withUses hsame, hlabel]
    rw [findUsers_label hlabel, Option.some.injEq] at hset
    rw [findUsers_label hlabel', Option.some.injEq] at hset'
    rw [← hset, ← hset']
  | false =>
    have hlabel' : (withUses M N).isLabelTy v = false := by rw [isLabelTy_withUses hsame, hlabel]
    rw [mem_findUsers_iff hlen hM hlabel hset,
      mem_findUsers_iff (hvalues ▸ hlen) hN hlabel' hset']
    simp only [step_withUses hsame, isLabelTy_withUses hsame]

end FindUsersOrder
