import Rustle.Library.AddressOrder
import Rustle.Library.FaultyLoop
import Rustle.Llvm.NearCore

/-!
# `nft-approval-check`: is the approval id compared?

* `hasApprovalCheck` — the search of a function, and of the functions the
  approval id is handed to, with fuel; `none` when it does not end.
* `Level`, `Next` — a function and one of its parameters, and the levels the
  search goes on to.
* `Settles` — the levels from which every search ends.
* `exists_true_iff` — a search succeeds exactly when it may come to the standard
  implementation, or to a level that compares the slot picked there: the one of the
  **last** matching store in address order.
* `order_independent_iff` — when the verdict does not depend on the addresses.
-/

namespace NftApprovalCheck

open Llvm NearCore
open Text (lit)
open AddressOrder (Order natOrder findLast? IsHighest IsTrap)
open FaultyLoop (Reaches reaches_cons)
open Relation (ReflTransGen)

def regex_standard_nft_transfer_or_call : Str :=
  lit "near_contract_standards.+non_fungible_token.+core_impl.+NonFungibleToken.+" rfl ++
  lit "[0-9](nft_transfer(_call)?|internal_transfer)[0-9]" rfl

def regex_nft_transfer : Str := lit "[0-9]nft_transfer[0-9]" rfl

def regex_nft_transfer_call : Str := lit "[0-9]nft_transfer_call[0-9]" rfl

/-- A function, and the offset of the parameter that holds the approval id. -/
abbrev Level := Function × Nat

section

variable (M : Module)

/-- The location a store writes to, if it is a field of an `Option<u64>`. -/
def approvalSlot (v : ValueId) : Option ValueId :=
  match M.instruction? v with
  | some ⟨.store _ pointer, _⟩ =>
    match M.instruction? pointer with
    | some ⟨.getElementPtr sourceElementType slot _, _⟩ =>
      if sourceElementType = lit "{ i64, i64 }" rfl then some slot else none
    | _ => none
  | _ => none

def isSlotStore (v : ValueId) : Bool := (approvalSlot M v).isSome

/-- The loop over the users of the parameter: the last slot stays. -/
def approvalId (o : Order ValueId) (usersOfApprovalId0 : List ValueId) : Option ValueId :=
  (findLast? (isSlotStore M) (o.iterate usersOfApprovalId0)).bind (approvalSlot M)

/-- Is the instruction a comparison of one of the values? -/
def compares (usersOfApprovalId : List ValueId) (i : Instruction) : Bool :=
  isInstCallFunc M i regexPartialEq && i.args.any fun a => usersOfApprovalId.contains a

/-- The level a call hands the approval id to. -/
def nextLevel (usersOfApprovalId0 : List ValueId) (i : Instruction) : Option Level :=
  if isInstCallFunc M i regexPartialEq then none
  else
    match i.args.findIdx? fun a => usersOfApprovalId0.contains a, M.getCalledFunction i with
    | some k, some G => some (G, k)
    | _, _ => none

/-- The loop over the instructions of a function. -/
def scanInsts (search : Level → Option Bool) (usersOfApprovalId0 usersOfApprovalId : List ValueId) :
    List (ValueId × Instruction) → Option Bool
  | [] => some false
  | (_, i) :: is =>
    if compares M usersOfApprovalId i then some true
    else
      match nextLevel M usersOfApprovalId0 i with
      | none => scanInsts search usersOfApprovalId0 usersOfApprovalId is
      | some l =>
        match search l with
        | none => none
        | some true => some true
        | some false => scanInsts search usersOfApprovalId0 usersOfApprovalId is

/-- The users of the parameter of a level. -/
def levelUsers (l : Level) : Option (List ValueId) :=
  (l.1.getArg l.2).bind (simpleFindUsers M false true)

/-- The implementation of the standard library. -/
def Standard (l : Level) : Prop :=
  Regex.matchPattern regex_standard_nft_transfer_or_call l.1.name = true

instance (l : Level) : Decidable (Standard l) := inferInstanceAs (Decidable (_ = true))

/-- `hasApprovalCheck(F, approvalId0Offset)` -/
def hasApprovalCheck (o : Order ValueId) : Nat → Level → Option Bool
  | 0, _ => none
  | n + 1, l =>
    if Standard l then some true
    else
      match levelUsers M l with
      | none => none
      | some usersOfApprovalId0 =>
        match approvalId M o usersOfApprovalId0 with
        | none => some false
        | some slot =>
          match simpleFindUsers M false true slot with
          | none => none
          | some usersOfApprovalId =>
            scanInsts M (hasApprovalCheck o n) usersOfApprovalId0 usersOfApprovalId
              (l.1.instructions M)

/-- The parameter a function is searched for, if it is `nft_transfer` or
`nft_transfer_call` with as many parameters as these have. -/
def entry (F : Function) : Option Level :=
  if Regex.matchPattern regex_nft_transfer F.name then
    if F.arg_size < 6 then none else some (F, 3)
  else if Regex.matchPattern regex_nft_transfer_call F.name then
    if F.arg_size < 7 then none else some (F, 4)
  else none

/-- `runOnFunction`: the line written, as function and verdict. -/
def runOnFunction (o : Order ValueId) (fuel : Nat) (F : Function) : Option (List (Str × Bool)) :=
  if skipFunc F then some []
  else
    match entry F with
    | none => some []
    | some l => (hasApprovalCheck M o fuel l).map fun check => [(F.name, check)]

/-! ## The levels of a search -/

/-- The stores whose slot the loop over the users may end with. -/
def slotStores (l : Level) : List ValueId := ((levelUsers M l).getD []).filter (isSlotStore M)

/-- The search of `l` goes on to `l'`, unless a comparison ends it before. -/
def Next (l l' : Level) : Prop :=
  ¬ Standard l ∧ slotStores M l ≠ [] ∧ ∃ users0, levelUsers M l = some users0 ∧
    ∃ p ∈ l.1.instructions M, nextLevel M users0 p.2 = some l'

/-- The levels from which every search ends. -/
inductive Settles : Level → Prop where
  | standard {l : Level} (h : Standard l) : Settles l
  | step {l : Level} {users0 : List ValueId} (h : levelUsers M l = some users0)
      (hnext : ∀ l', Next M l l' → Settles l') : Settles l

/-- The loop over the instructions gets behind the instruction, unless it finds something. -/
def Passes (users0 : List ValueId) (p : ValueId × Instruction) : Prop :=
  ∀ l', nextLevel M users0 p.2 = some l' → Settles M l'

/-- The loop over the function of `l` comes to a call that goes on to `l'`. -/
def Enters (l l' : Level) : Prop :=
  ¬ Standard l ∧ slotStores M l ≠ [] ∧ ∃ users0, levelUsers M l = some users0 ∧
    Reaches (Passes M users0) (fun p => nextLevel M users0 p.2 = some l') (l.1.instructions M)

/-- The levels a search may come to. -/
def Reach (l l' : Level) : Prop := ReflTransGen (Enters M) l l'

/-- The loop over the function of `l` comes to a comparison of the slot of the store. -/
def Compared (l : Level) (u : ValueId) : Prop :=
  ∃ users0 slot users, levelUsers M l = some users0 ∧ approvalSlot M u = some slot ∧
    simpleFindUsers M false true slot = some users ∧
    Reaches (Passes M users0) (fun p => compares M users p.2 = true) (l.1.instructions M)

/-- The picked store is the one of highest address. -/
theorem approvalId_eq_some {o : Order ValueId} {l : Level} {users0 : List ValueId} {slot : ValueId}
    (hl : levelUsers M l = some users0) (h : approvalId M o users0 = some slot) :
    ∃ u, IsHighest o (slotStores M l) u ∧ approvalSlot M u = some slot := by
  obtain ⟨u, hu, hslot⟩ := Option.bind_eq_some_iff.1 h
  obtain ⟨hmem, hst, hmax⟩ := AddressOrder.findLast_iterate_iff.1 hu
  refine ⟨u, ⟨?_, ?_⟩, hslot⟩
  · simp [slotStores, hl, hmem, hst]
  · intro y hy
    simp only [slotStores, hl, Option.getD_some, List.mem_filter] at hy
    exact hmax y hy.1 hy.2

theorem approvalId_eq_none {o : Order ValueId} {l : Level} {users0 : List ValueId}
    (hl : levelUsers M l = some users0) (h : approvalId M o users0 = none) :
    slotStores M l = [] := by
  rw [slotStores, hl, Option.getD_some, List.filter_eq_nil_iff]
  intro v hv hst
  obtain ⟨u, hu⟩ := AddressOrder.exists_findLast_iterate o hv hst
  obtain ⟨-, hsome, -⟩ := AddressOrder.findLast_iterate_iff.1 hu
  rw [approvalId, hu, Option.bind_some] at h
  rw [isSlotStore, h] at hsome
  exact Bool.noConfusion hsome

theorem isHighest_unique {o : Order ValueId} {s : List ValueId} {u v : ValueId}
    (hu : IsHighest o s u) (hv : IsHighest o s v) : u = v :=
  o.injective (Nat.le_antisymm (hv.2 u hu.1) (hu.2 v hv.1))

/-- A scan succeeds at the first comparison, or the first search that succeeds, if all
searches before fail. -/
theorem scanInsts_true_iff {search : Level → Option Bool} {users0 users : List ValueId}
    {is : List (ValueId × Instruction)} :
    scanInsts M search users0 users is = some true ↔
      Reaches (fun p => ∀ l, nextLevel M users0 p.2 = some l → search l = some false)
        (fun p => compares M users p.2 = true ∨
          ∃ l, nextLevel M users0 p.2 = some l ∧ search l = some true) is := by
  induction is with
  | nil => simp [scanInsts]
  | cons p is ih =>
    obtain ⟨v, i⟩ := p
    rw [reaches_cons, ← ih, scanInsts]
    by_cases hc : compares M users i = true
    · simp [hc]
    · cases hn : nextLevel M users0 i with
      | none => simp [hc]
      | some l => rcases hl : search l with _ | _ | _ <;> simp [hc, hl]

theorem scanInsts_false {search : Level → Option Bool} {users0 users : List ValueId}
    {is : List (ValueId × Instruction)} (h : scanInsts M search users0 users is = some false) :
    ∀ p ∈ is, compares M users p.2 = false ∧
      ∀ l, nextLevel M users0 p.2 = some l → search l = some false := by
  induction is with
  | nil => simp
  | cons p is ih =>
    obtain ⟨v, i⟩ := p
    rw [scanInsts] at h
    by_cases hc : compares M users i = true
    · simp [hc] at h
    · rw [if_neg hc] at h
      rw [Bool.not_eq_true] at hc
      rw [List.forall_mem_cons]
      cases hn : nextLevel M users0 i with
      | none =>
        simp only [hn] at h
        exact ⟨⟨hc, by simp⟩, ih h⟩
      | some l =>
        simp only [hn] at h
        cases hs : search l with
        | none => simp [hs] at h
        | some b =>
          cases b with
          | true => simp [hs] at h
          | false =>
            simp only [hs] at h
            refine ⟨⟨hc, fun l' hl' => ?_⟩, ih h⟩
            rw [Option.some.injEq] at hl'
            rw [← hl', hs]

/-- What a search of a level comes to. -/
theorem hasApprovalCheck_cases {o : Order ValueId} {n : Nat} {l : Level} {b : Bool}
    (h : hasApprovalCheck M o (n + 1) l = some b) :
    (Standard l ∧ b = true) ∨
      ∃ users0, ¬ Standard l ∧ levelUsers M l = some users0 ∧
        ((slotStores M l = [] ∧ b = false) ∨
          ∃ u slot users, IsHighest o (slotStores M l) u ∧ approvalSlot M u = some slot ∧
            simpleFindUsers M false true slot = some users ∧
            scanInsts M (hasApprovalCheck M o n) users0 users (l.1.instructions M) = some b) := by
  rw [hasApprovalCheck] at h
  by_cases hs : Standard l
  · rw [if_pos hs, Option.some.injEq] at h
    exact Or.inl ⟨hs, h.symm⟩
  · rw [if_neg hs] at h
    cases hl : levelUsers M l with
    | none => simp [hl] at h
    | some users0 =>
      simp only [hl] at h
      refine Or.inr ⟨users0, hs, rfl, ?_⟩
      cases ha : approvalId M o users0 with
      | none =>
        simp only [ha, Option.some.injEq] at h
        exact Or.inl ⟨approvalId_eq_none M hl ha, h.symm⟩
      | some slot =>
        simp only [ha] at h
        cases hu : simpleFindUsers M false true slot with
        | none => simp [hu] at h
        | some users =>
          simp only [hu] at h
          obtain ⟨u, hhigh, hslot⟩ := approvalId_eq_some M hl ha
          exact Or.inr ⟨u, slot, users, hhigh, hslot, hu, h⟩

/-! ## Which searches end -/

/-- More fuel does not change a scan whose searches end. -/
theorem scanInsts_mono {search search' : Level → Option Bool}
    (hs : ∀ l b, search l = some b → search' l = some b) {users0 users : List ValueId}
    {is : List (ValueId × Instruction)} {b : Bool}
    (h : scanInsts M search users0 users is = some b) :
    scanInsts M search' users0 users is = some b := by
  induction is with
  | nil => exact h
  | cons p is ih =>
    obtain ⟨v, i⟩ := p
    rw [scanInsts] at h ⊢
    by_cases hc : compares M users i = true
    · rwa [if_pos hc] at h ⊢
    · rw [if_neg hc] at h ⊢
      cases hn : nextLevel M users0 i with
      | none =>
        simp only [hn] at h ⊢
        exact ih h
      | some l =>
        simp only [hn] at h ⊢
        cases hsl : search l with
        | none => simp [hsl] at h
        | some c =>
          rw [hs l c hsl]
          cases c with
          | true => simpa [hsl] using h
          | false =>
            simp only [hsl] at h ⊢
            exact ih h

/-- More fuel does not change a search that ends. -/
theorem hasApprovalCheck_mono {o : Order ValueId} {n m : Nat} (hnm : n ≤ m) {l : Level} {b : Bool}
    (h : hasApprovalCheck M o n l = some b) : hasApprovalCheck M o m l = some b := by
  induction n generalizing m l b with
  | zero => simp [hasApprovalCheck] at h
  | succ n ih =>
    obtain ⟨m, rfl⟩ : ∃ k, m = k + 1 := ⟨m - 1, by omega⟩
    rw [hasApprovalCheck] at h ⊢
    by_cases hs : Standard l
    · simp only [if_pos hs] at h ⊢
      exact h
    · simp only [if_neg hs] at h ⊢
      cases hl : levelUsers M l with
      | none => simp [hl] at h
      | some users0 =>
        simp only [hl] at h ⊢
        cases ha : approvalId M o users0 with
        | none => simpa [ha] using h
        | some slot =>
          simp only [ha] at h ⊢
          cases hu : simpleFindUsers M false true slot with
          | none => simp [hu] at h
          | some users =>
            simp only [hu] at h ⊢
            exact scanInsts_mono M (fun l b hb => ih (by omega) hb) h

/-- The slot of a store lies in the table. -/
theorem approvalSlot_lt {u slot : ValueId} (h : approvalSlot M u = some slot) :
    slot < M.values.length := by
  unfold approvalSlot at h
  split at h
  · split at h
    · rename_i ty ptr indices loc hp
      split at h
      · rw [Option.some.injEq] at h
        subst h
        exact M.instruction_operands_lt hp (by simp [Op.operands])
      · simp at h
    · simp at h
  · simp at h

/-- A scan ends when the searches it starts do. -/
theorem exists_scanInsts {search : Level → Option Bool} {users0 users : List ValueId}
    {is : List (ValueId × Instruction)}
    (h : ∀ p ∈ is, ∀ l, nextLevel M users0 p.2 = some l → ∃ b, search l = some b) :
    ∃ b, scanInsts M search users0 users is = some b := by
  induction is with
  | nil => exact ⟨false, rfl⟩
  | cons p is ih =>
    obtain ⟨v, i⟩ := p
    obtain ⟨b, hb⟩ := ih fun q hq => h q (List.mem_cons_of_mem _ hq)
    rw [scanInsts]
    by_cases hc : compares M users i = true
    · exact ⟨true, by rw [if_pos hc]⟩
    · rw [if_neg hc]
      cases hn : nextLevel M users0 i with
      | none => exact ⟨b, hb⟩
      | some l =>
        obtain ⟨c, hsl⟩ := h (v, i) (by simp) l hn
        cases c with
        | true => exact ⟨true, by simp [hsl]⟩
        | false => exact ⟨b, by simpa [hsl] using hb⟩

/-- One amount of fuel is enough for all calls of a function. -/
theorem exists_fuel {o : Order ValueId} {users0 : List ValueId}
    {is : List (ValueId × Instruction)}
    (h : ∀ p ∈ is, ∀ l, nextLevel M users0 p.2 = some l →
      ∃ n b, hasApprovalCheck M o n l = some b) :
    ∃ n, ∀ p ∈ is, ∀ l, nextLevel M users0 p.2 = some l →
      ∃ b, hasApprovalCheck M o n l = some b := by
  induction is with
  | nil => exact ⟨0, by simp⟩
  | cons p is ih =>
    obtain ⟨n, hn⟩ := ih fun q hq => h q (List.mem_cons_of_mem _ hq)
    cases hp : nextLevel M users0 p.2 with
    | none =>
      refine ⟨n, fun q hq l hl => ?_⟩
      rcases List.mem_cons.1 hq with rfl | hq
      · simp [hp] at hl
      · exact hn q hq l hl
    | some m =>
      obtain ⟨n', b, hb⟩ := h p (by simp) m hp
      refine ⟨max n n', fun q hq l hl => ?_⟩
      rcases List.mem_cons.1 hq with rfl | hq
      · rw [hp, Option.some.injEq] at hl
        subst hl
        exact ⟨b, hasApprovalCheck_mono M (by omega) hb⟩
      · obtain ⟨c, hc⟩ := hn q hq l hl
        exact ⟨c, hasApprovalCheck_mono M (by omega) hc⟩

/-- From a level that settles every search ends. -/
theorem exists_hasApprovalCheck {l : Level} (h : Settles M l) (o : Order ValueId) :
    ∃ n b, hasApprovalCheck M o n l = some b := by
  induction h with
  | standard hs => exact ⟨1, true, by rw [hasApprovalCheck, if_pos hs]⟩
  | @step l users0 hl hnext ih =>
    by_cases hs : Standard l
    · exact ⟨1, true, by rw [hasApprovalCheck, if_pos hs]⟩
    · cases ha : approvalId M o users0 with
      | none => exact ⟨1, false, by rw [hasApprovalCheck, if_neg hs]; simp [hl, ha]⟩
      | some slot =>
        obtain ⟨u, hhigh, hslot⟩ := approvalId_eq_some M hl ha
        have hne : slotStores M l ≠ [] := List.ne_nil_of_mem hhigh.1
        obtain ⟨users, husers⟩ := exists_simpleFindUsers M false (approvalSlot_lt M hslot)
        have hends : ∀ p ∈ l.1.instructions M, ∀ m, nextLevel M users0 p.2 = some m →
            ∃ n b, hasApprovalCheck M o n m = some b :=
          fun p hp m hm => ih m ⟨hs, hne, users0, hl, p, hp, hm⟩
        obtain ⟨n, hn⟩ := exists_fuel M hends
        obtain ⟨b, hb⟩ : ∃ b, scanInsts M (hasApprovalCheck M o n) users0 users
            (l.1.instructions M) = some b := exists_scanInsts M hn
        exact ⟨n + 1, b, by rw [hasApprovalCheck, if_neg hs]; simp [hl, ha, husers, hb]⟩

/-- A search that fails has seen every level it can reach. -/
theorem settles_of_false {o : Order ValueId} {n : Nat} {l : Level}
    (h : hasApprovalCheck M o n l = some false) : Settles M l := by
  induction n generalizing l with
  | zero => simp [hasApprovalCheck] at h
  | succ n ih =>
    rcases hasApprovalCheck_cases M h with
      ⟨hs, -⟩ | ⟨users0, hs, hl, ⟨hnil, -⟩ | ⟨u, slot, users, hhigh, hslot, husers, hscan⟩⟩
    · exact .standard hs
    · exact .step hl fun m hm => absurd hnil hm.2.1
    · apply Settles.step hl
      intro m hm
      obtain ⟨-, -, users0', hl', p, hp, hm⟩ := hm
      rw [hl, Option.some.injEq] at hl'
      subst hl'
      exact ih ((scanInsts_false M hscan p hp).2 m hm)

/-! ## What a search finds -/

theorem approvalId_of_isHighest {o : Order ValueId} {l : Level} {users0 : List ValueId}
    {u slot : ValueId} (hl : levelUsers M l = some users0) (hu : IsHighest o (slotStores M l) u)
    (hslot : approvalSlot M u = some slot) : approvalId M o users0 = some slot := by
  cases ha : approvalId M o users0 with
  | none => exact absurd (approvalId_eq_none M hl ha) (List.ne_nil_of_mem hu.1)
  | some slot' =>
    obtain ⟨v, hv, hslot'⟩ := approvalId_eq_some M hl ha
    rw [isHighest_unique hv hu, hslot] at hslot'
    exact hslot'.symm

/-- Behind searches that end, a comparison or a search that succeeds is come to. -/
theorem exists_true_of_reaches {o : Order ValueId} {l : Level} {users0 users : List ValueId}
    {slot : ValueId} (hs : ¬ Standard l) (hl : levelUsers M l = some users0)
    (ha : approvalId M o users0 = some slot)
    (husers : simpleFindUsers M false true slot = some users)
    (h : Reaches (Passes M users0) (fun p => compares M users p.2 = true ∨
      ∃ l', nextLevel M users0 p.2 = some l' ∧ ∃ n, hasApprovalCheck M o n l' = some true)
      (l.1.instructions M)) :
    ∃ n, hasApprovalCheck M o n l = some true := by
  obtain ⟨pre, p, post, his, hpre, hp⟩ := h
  obtain ⟨n, hn⟩ : ∃ n, ∀ q ∈ pre, ∀ l', nextLevel M users0 q.2 = some l' →
      ∃ b, hasApprovalCheck M o n l' = some b :=
    exists_fuel M fun q hq l' hl' => exists_hasApprovalCheck M (hpre q hq l' hl') o
  have hstop : ∃ m, n ≤ m ∧ (compares M users p.2 = true ∨
      ∃ l', nextLevel M users0 p.2 = some l' ∧ hasApprovalCheck M o m l' = some true) := by
    rcases hp with hc | ⟨l', hl', k, hk⟩
    · exact ⟨n, le_rfl, Or.inl hc⟩
    · exact ⟨max n k, le_max_left n k,
        Or.inr ⟨l', hl', hasApprovalCheck_mono M (le_max_right n k) hk⟩⟩
  obtain ⟨m, hnm, hstop⟩ := hstop
  refine ⟨m + 1, ?_⟩
  rw [hasApprovalCheck, if_neg hs]
  simp only [hl, ha, husers]
  rw [scanInsts_true_iff, his]
  clear his
  -- an earlier search may succeed as well
  induction pre with
  | nil => exact ⟨[], p, post, rfl, by simp, hstop⟩
  | cons q pre ih =>
    rw [List.forall_mem_cons] at hpre hn
    rw [List.cons_append, reaches_cons]
    by_cases hq : ∃ l', nextLevel M users0 q.2 = some l' ∧ hasApprovalCheck M o m l' = some true
    · exact Or.inl (Or.inr hq)
    · refine Or.inr ⟨fun l' hl' => ?_, ih hpre.2 hn.2⟩
      obtain ⟨b, hb⟩ := hn.1 l' hl'
      cases b with
      | true => exact absurd ⟨l', hl', hasApprovalCheck_mono M hnm hb⟩ hq
      | false => exact hasApprovalCheck_mono M hnm hb

/-- A search succeeds exactly when it may come to the standard implementation, or to a level
that compares the slot picked there. -/
theorem exists_true_iff {o : Order ValueId} {l : Level} :
    (∃ n, hasApprovalCheck M o n l = some true) ↔ ∃ l', Reach M l l' ∧
      (Standard l' ∨ ∃ u, IsHighest o (slotStores M l') u ∧ Compared M l' u) := by
  constructor
  · rintro ⟨n, h⟩
    induction n generalizing l with
    | zero => simp [hasApprovalCheck] at h
    | succ n ih =>
      rcases hasApprovalCheck_cases M h with
        ⟨hs, -⟩ | ⟨users0, hs, hl, ⟨-, hb⟩ | ⟨u, slot, users, hhigh, hslot, husers, hscan⟩⟩
      · exact ⟨l, .refl, Or.inl hs⟩
      · cases hb
      · obtain ⟨pre, p, post, his, hpre, hp⟩ := (scanInsts_true_iff M).1 hscan
        have hpass : ∀ q ∈ pre, Passes M users0 q :=
          fun q hq l' hl' => settles_of_false M (hpre q hq l' hl')
        rcases hp with hc | ⟨m, hm, hsearch⟩
        · exact ⟨l, .refl, Or.inr ⟨u, hhigh, users0, slot, users, hl, hslot, husers,
            pre, p, post, his, hpass, hc⟩⟩
        · obtain ⟨l', hreach, hgood⟩ := ih hsearch
          have henters : Enters M l m :=
            ⟨hs, List.ne_nil_of_mem hhigh.1, users0, hl, pre, p, post, his, hpass, hm⟩
          exact ⟨l', .head henters hreach, hgood⟩
  · rintro ⟨l', hreach, hgood⟩
    induction hreach using ReflTransGen.head_induction_on with
    | refl =>
      by_cases hs : Standard l'
      · exact ⟨1, by rw [hasApprovalCheck, if_pos hs]⟩
      · obtain ⟨u, hhigh, users0, slot, users, hl, hslot, husers, pre, p, post, his, hpre, hc⟩ :=
          hgood.resolve_left hs
        exact exists_true_of_reaches M hs hl (approvalId_of_isHighest M hl hhigh hslot) husers
          ⟨pre, p, post, his, hpre, Or.inl hc⟩
    | @head l m henters _ ih =>
      obtain ⟨hs, hne, users0, hl, pre, p, post, his, hpre, hm⟩ := henters
      cases ha : approvalId M o users0 with
      | none => exact absurd (approvalId_eq_none M hl ha) hne
      | some slot =>
        obtain ⟨u, -, hslot⟩ := approvalId_eq_some M hl ha
        obtain ⟨users, husers⟩ := exists_simpleFindUsers M false (approvalSlot_lt M hslot)
        exact exists_true_of_reaches M hs hl ha husers
          ⟨pre, p, post, his, hpre, Or.inr ⟨m, hm, ih⟩⟩

/-- A search fails exactly when every search ends and it does not succeed. -/
theorem exists_false_iff {o : Order ValueId} {l : Level} :
    (∃ n, hasApprovalCheck M o n l = some false) ↔
      Settles M l ∧ ¬ ∃ n, hasApprovalCheck M o n l = some true := by
  constructor
  · rintro ⟨n, h⟩
    refine ⟨settles_of_false M h, ?_⟩
    rintro ⟨m, hm⟩
    have htrue := hasApprovalCheck_mono M (le_max_right n m) hm
    rw [hasApprovalCheck_mono M (le_max_left n m) h] at htrue
    cases htrue
  · rintro ⟨hset, hno⟩
    obtain ⟨n, b, hb⟩ := exists_hasApprovalCheck M hset o
    cases b with
    | true => exact absurd ⟨n, hb⟩ hno
    | false => exact ⟨n, hb⟩

/-! ## When the addresses do not matter -/

/-- The levels a search may come to that have a slot to compare. -/
def Contested (l l' : Level) : Prop := Reach M l l' ∧ slotStores M l' ≠ []

/-- The verdict on a level is the same whatever slots are picked: the search may come to
the standard implementation, or to no comparison of a slot that may be picked, or some
levels compare between them every slot they may pick. -/
def SlotsAgree (l : Level) : Prop :=
  (∃ l', Reach M l l' ∧ Standard l') ∨
    (∀ l', Reach M l l' → ∀ u ∈ slotStores M l', ¬ Compared M l' u) ∨
    ∃ N, IsTrap (slotStores M) (Compared M) (Contested M l) N

theorem reach_mem_functions {l l' : Level} (hl : l.1 ∈ M.functions) (h : Reach M l l') :
    l'.1 ∈ M.functions := by
  induction h with
  | refl => exact hl
  | tail _ henters _ =>
    obtain ⟨-, -, users0, -, hreaches⟩ := henters
    obtain ⟨p, -, hm⟩ := hreaches.exists_mem
    unfold nextLevel at hm
    split at hm
    · simp at hm
    · split at hm
      · rename_i k G hk hG
        rw [Option.some.injEq] at hm
        rw [← hm]
        exact M.mem_functions_of_getCalledFunction hG
      · simp at hm

theorem slotStores_lt {l : Level} (hl : l.1 ∈ M.functions) {u : ValueId}
    (h : u ∈ slotStores M l) : u < M.values.length := by
  unfold slotStores levelUsers at h
  cases harg : l.1.getArg l.2 with
  | none => simp [harg] at h
  | some arg =>
    have harg' : arg < M.values.length := M.params_lt l.1 hl arg (List.mem_of_getElem? harg)
    cases husers : simpleFindUsers M false true arg with
    | none => simp [harg, husers] at h
    | some users =>
      simp only [harg, husers, Option.bind_some, Option.getD_some, List.mem_filter] at h
      exact (simpleFindUsers_within M false true harg' husers).2 u h.1

/-- In every order a compared slot is picked exactly when the levels contain a trap. -/
theorem forall_picked_iff {l : Level} (hl : l.1 ∈ M.functions) :
    (∀ o : Order ValueId, ∃ l', Contested M l l' ∧
      ∃ u, IsHighest o (slotStores M l') u ∧ Compared M l' u) ↔
      ∃ N, IsTrap (slotStores M) (Compared M) (Contested M l) N :=
  AddressOrder.forall_exists_good_iff (slotStores M) (Compared M) natOrder _ fun _ hl' =>
    ⟨hl'.2, fun _ hu => List.mem_range.2 (slotStores_lt M (reach_mem_functions M hl hl'.1) hu)⟩

/-- Where the slots agree, a search that succeeds in one order does in the other. -/
theorem exists_true_of_slotsAgree {l : Level} (hl : l.1 ∈ M.functions) (h : SlotsAgree M l)
    {o o' : Order ValueId} (hfound : ∃ n, hasApprovalCheck M o n l = some true) :
    ∃ n, hasApprovalCheck M o' n l = some true := by
  rw [exists_true_iff] at hfound ⊢
  rcases h with ⟨l', hreach, hs⟩ | hcmp | hN
  · exact ⟨l', hreach, Or.inl hs⟩
  · obtain ⟨l', hreach, hs | ⟨u, hu, hc⟩⟩ := hfound
    · exact ⟨l', hreach, Or.inl hs⟩
    · exact absurd hc (hcmp l' hreach u hu.1)
  · obtain ⟨l', hl', hgood⟩ := (forall_picked_iff M hl).2 hN o'
    exact ⟨l', hl'.1, Or.inr hgood⟩

/-- Any two searches come to the same, or both do not end, exactly when the slots agree. -/
theorem search_independent_iff {l : Level} (hl : l.1 ∈ M.functions) :
    (∀ (o o' : Order ValueId) (b : Bool), (∃ n, hasApprovalCheck M o n l = some b) ↔
        ∃ n, hasApprovalCheck M o' n l = some b) ↔ SlotsAgree M l := by
  constructor
  · intro h
    by_contra hcon
    unfold SlotsAgree at hcon
    rw [not_or, not_or] at hcon
    obtain ⟨hstd, hcmp, htrap⟩ := hcon
    obtain ⟨l₁, hl₁, u₁, hu₁, hc₁⟩ :
        ∃ l₁, Reach M l l₁ ∧ ∃ u ∈ slotStores M l₁, Compared M l₁ u := by
      by_contra hall
      exact hcmp fun l' hl' u hu hc => hall ⟨l', hl', u, hu, hc⟩
    -- one order puts the slot that is compared on top
    have hhigh : IsHighest (natOrder.prefer (· ≠ u₁) (slotStores M l₁)) (slotStores M l₁) u₁ := by
      refine ⟨hu₁, fun y hy => ?_⟩
      by_cases hy₁ : y = u₁
      · rw [hy₁]
      · exact Nat.le_of_lt (natOrder.prefer_addr_lt (P := (· ≠ u₁)) hy hy₁ (by simp))
    have htrue := (exists_true_iff M).2 ⟨l₁, hl₁, Or.inr ⟨u₁, hhigh, hc₁⟩⟩
    -- in another one nothing that is picked is compared
    rw [← forall_picked_iff M hl] at htrap
    obtain ⟨o, ho⟩ := not_forall.1 htrap
    obtain ⟨l', hreach, hs | ⟨u, hu, hc⟩⟩ := (exists_true_iff M).1 ((h _ o true).1 htrue)
    · exact hstd ⟨l', hreach, hs⟩
    · exact ho ⟨l', ⟨hreach, List.ne_nil_of_mem hu.1⟩, u, hu, hc⟩
  · intro h o o' b
    have htrue : (∃ n, hasApprovalCheck M o n l = some true) ↔
        ∃ n, hasApprovalCheck M o' n l = some true :=
      ⟨exists_true_of_slotsAgree M hl h, exists_true_of_slotsAgree M hl h⟩
    cases b with
    | true => exact htrue
    | false => rw [exists_false_iff, exists_false_iff, htrue]

/-- In any two orders the pass comes to the same exactly when the slots agree. -/
theorem order_independent_iff {F : Function} (hF : F ∈ M.functions) :
    (∀ (o o' : Order ValueId) (lines : List (Str × Bool)),
        (∃ n, runOnFunction M o n F = some lines) ↔ ∃ n, runOnFunction M o' n F = some lines) ↔
      ∀ l, entry F = some l → SlotsAgree M l := by
  unfold runOnFunction
  cases he : entry F with
  | none => simp
  | some l =>
    have hl : l.1 ∈ M.functions := by
      unfold entry at he
      split_ifs at he <;> rw [Option.some.injEq] at he <;> rw [← he] <;> exact hF
    simp only [skipFunc_eq_false, Bool.false_eq_true, if_false, Option.some.injEq, forall_eq',
      Option.map_eq_some_iff]
    rw [← search_independent_iff M hl]
    constructor
    · intro h o o' b
      have hlines := h o o' [(F.name, b)]
      simpa using hlines
    · intro h o o' lines
      constructor
      · rintro ⟨n, b, hb, rfl⟩
        obtain ⟨m, hm⟩ := (h o o' b).1 ⟨n, hb⟩
        exact ⟨m, b, hm, rfl⟩
      · rintro ⟨n, b, hb, rfl⟩
        obtain ⟨m, hm⟩ := (h o o' b).2 ⟨n, hb⟩
        exact ⟨m, b, hm, rfl⟩

end

end NftApprovalCheck
