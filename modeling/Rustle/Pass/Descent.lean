import Rustle.Pass.NftApprovalCheck
import Rustle.Pass.SelfTransfer
import Rustle.Pass.UnregisteredReceiver

/-!
# The searches that follow a parameter from function to function

* `approvalEvents`, `hasApprovalCheck_eq` — the third search of the kind, in the
  form of the other two.
* `Carries` — in each search, every function and parameter that a call of the
  level carries a tracked value to, whereas the search goes on to the **first**.
* `positions_accounted_iff` — when a search accounts for all of them.
* `searches_end_iff` — when a search ends.
* `hasSenderReceiverCheck_returns`, `hasApprovalCheck_returns` — without recursion
  the searches by offset return.
-/

open Llvm NearCore Forwarding
open AddressOrder (Order natOrder)
open DeepSearch (Event Outcome search Reach Follows Explores Enters Finds Ends)
open Relation (ReflTransGen TransGen)
open Text (lit)

namespace NftApprovalCheck

variable (M : Module)

/-- What the loop over the instructions does at one of them. -/
def approvalEvent (usersOfApprovalId0 usersOfApprovalId : List ValueId) (i : Instruction) :
    Option (Event Level) :=
  if compares M usersOfApprovalId i then some .found
  else (nextLevel M usersOfApprovalId0 i).map .descend

/-- The body of `hasApprovalCheck`, in the order of its steps. -/
def approvalEvents (o : Order ValueId) (l : Level) : List (Event Level) :=
  if Standard l then [.found]
  else
    match levelUsers M l with
    | none => [.stuck]
    | some usersOfApprovalId0 =>
      match approvalId M o usersOfApprovalId0 with
      | none => []
      | some slot =>
        match simpleFindUsers M false true slot with
        | none => [.stuck]
        | some usersOfApprovalId =>
          (l.1.instructions M).filterMap fun p =>
            approvalEvent M usersOfApprovalId0 usersOfApprovalId p.2

/-- A call of the level has a tracked value where `l'` has its parameter. -/
def Carries (l l' : Level) : Prop :=
  ∃ users, levelUsers M l = some users ∧ Carried M l.1 users l'

theorem Carries.isCallLevel {M : Module} {l l' : Level} (h : Carries M l l') :
    IsCallLevel M l' := by
  obtain ⟨users, -, hcarried⟩ := h
  exact isCallLevel_of_carried M hcarried

theorem levelUsers_of_inRange {l : Level} (h : InRange M l) :
    ∃ users, levelUsers M l = some users := by
  obtain ⟨v, hv, hlt⟩ := h.exists_getArg
  rw [levelUsers, hv, Option.bind_some]
  exact exists_simpleFindUsers M false hlt

theorem scanInsts_eq {go : Level → Option Outcome} {users0 users : List ValueId}
    (is : List (ValueId × Instruction)) :
    scanInsts M (fun l => (go l).bind Outcome.verdict) users0 users is =
      (DeepSearch.scan go (is.filterMap fun p => approvalEvent M users0 users p.2)).bind
        Outcome.verdict := by
  induction is with
  | nil => rfl
  | cons p is ih =>
    obtain ⟨v, i⟩ := p
    rw [scanInsts, List.filterMap_cons]
    by_cases hc : compares M users i = true
    · simp [approvalEvent, hc, DeepSearch.scan, Outcome.verdict]
    · cases hn : nextLevel M users0 i with
      | none => simp [approvalEvent, hc, hn, ih]
      | some l =>
        simp only [approvalEvent, hc, hn, Bool.false_eq_true, if_false, Option.map_some,
          DeepSearch.scan]
        cases go l with
        | none => rfl
        | some r =>
          cases r with
          | found => rfl
          | missing => exact ih
          | stuck => rfl

/-- `hasApprovalCheck` is a search without memory. -/
theorem hasApprovalCheck_eq (o : Order ValueId) (n : Nat) (l : Level) :
    hasApprovalCheck M o n l = (search (approvalEvents M o) n l).bind Outcome.verdict := by
  induction n generalizing l with
  | zero => rfl
  | succ n ih =>
    have hgo : hasApprovalCheck M o n =
        fun l => (search (approvalEvents M o) n l).bind Outcome.verdict := funext ih
    rw [hasApprovalCheck, search, approvalEvents]
    by_cases hs : Standard l
    · simp [hs, DeepSearch.scan, Outcome.verdict]
    · rw [if_neg hs, if_neg hs]
      cases levelUsers M l with
      | none => rfl
      | some users0 =>
        simp only
        cases approvalId M o users0 with
        | none => rfl
        | some slot =>
          simp only
          cases simpleFindUsers M false true slot with
          | none => rfl
          | some users =>
            simp only
            rw [hgo, scanInsts_eq]

/-- The search goes on only to what a call carries a tracked value to. -/
theorem carries_of_follows {o : Order ValueId} {l l' : Level}
    (h : Follows (approvalEvents M o) l l') : Carries M l l' := by
  unfold Follows approvalEvents at h
  split at h
  · simp at h
  · split at h
    · simp at h
    · rename_i users0 hl
      split at h
      · simp at h
      · split at h
        · simp at h
        · obtain ⟨p, hp, he⟩ := List.mem_filterMap.1 h
          refine ⟨users0, hl, carried_of_forwarded M hp ?_⟩
          unfold approvalEvent at he
          split at he
          · simp at he
          · obtain ⟨m, hm, hml⟩ := Option.map_eq_some_iff.1 he
            rw [Event.descend.injEq] at hml
            subst hml
            unfold nextLevel at hm
            split at hm
            · simp at hm
            · exact hm

/-- At a level in range nothing is undefined. -/
theorem stuck_notMem_of_inRange {o : Order ValueId} {l : Level} (h : InRange M l) :
    .stuck ∉ approvalEvents M o l := by
  obtain ⟨users0, hl⟩ := levelUsers_of_inRange M h
  unfold approvalEvents
  split
  · simp
  · simp only [hl]
    cases ha : approvalId M o users0 with
    | none => simp
    | some slot =>
      obtain ⟨u, -, hslot⟩ := approvalId_eq_some M hl ha
      obtain ⟨users, husers⟩ := exists_simpleFindUsers M false (approvalSlot_lt M hslot)
      simp only [husers, List.mem_filterMap, not_exists, not_and]
      intro p _ hp
      unfold approvalEvent at hp
      split at hp
      · simp at hp
      · simp at hp

/-- Without recursion, every search returns. -/
theorem hasApprovalCheck_returns (hM : Acyclic M) (hA : FixedArity M) (o : Order ValueId)
    {l : Level} (hl : InRange M l) : ∃ n b, hasApprovalCheck M o n l = some b := by
  simp only [hasApprovalCheck_eq]
  refine exists_verdict_of_acyclic hM (fun m m' hm => ?_) (fun l' hreach => ?_)
  · obtain ⟨users, -, p, hp, hG, -⟩ := carries_of_follows M hm
    exact ⟨p, hp, hG⟩
  · have hlevel := hreach.eq_or fun m m' hm => (carries_of_follows M hm).isCallLevel
    rcases hlevel with rfl | hcall
    · exact stuck_notMem_of_inRange M hl
    · exact stuck_notMem_of_inRange M (hA.inRange hcall)

end NftApprovalCheck

namespace SelfTransfer

variable (M : TypedModule)

/-- A call of the level has a tracked value where `l'` has its parameter. -/
def Carries (l l' : Level) : Prop :=
  ∃ users, levelUsers M l = some users ∧ Carried M.toModule l.1 users l'

theorem Carries.isCallLevel {M : TypedModule} {l l' : Level} (h : Carries M l l') :
    IsCallLevel M.toModule l' := by
  obtain ⟨users, -, hcarried⟩ := h
  exact isCallLevel_of_carried M.toModule hcarried

/-- The search goes on only to what a call carries a tracked value to. -/
theorem carries_of_follows {l l' : Level} (h : Follows (events M) l l') : Carries M l l' := by
  obtain ⟨-, users, hl, p, hp, -, hfwd⟩ := (follows_iff M).1 h
  exact ⟨users, hl, carried_of_forwarded M.toModule hp hfwd⟩

/-- At a level in range nothing is undefined. -/
theorem stuck_notMem_of_inRange {l : Level} (h : InRange M.toModule l) :
    .stuck ∉ events M l := by
  obtain ⟨v, hv, hlt⟩ := h.exists_getArg
  obtain ⟨users, husers⟩ := exists_findUsers M hlt
  have hl : levelUsers M l = some users := by rw [levelUsers, hv, Option.bind_some, husers]
  unfold events
  split
  · simp
  · simp only [hl, mem_instEvents]
    simp

/-- Without recursion, every search returns. -/
theorem hasSenderReceiverCheck_returns (hM : Acyclic M.toModule) (hA : FixedArity M.toModule)
    {l : Level} (hl : InRange M.toModule l) : ∃ n b, hasSenderReceiverCheck M n l = some b := by
  refine exists_verdict_of_acyclic hM (fun m m' hm => ?_) (fun l' hreach => ?_)
  · obtain ⟨users, -, p, hp, hG, -⟩ := carries_of_follows M hm
    exact ⟨p, hp, hG⟩
  · have hlevel := hreach.eq_or fun m m' hm => (carries_of_follows M hm).isCallLevel
    rcases hlevel with rfl | hcall
    · exact stuck_notMem_of_inRange M hl
    · exact stuck_notMem_of_inRange M (hA.inRange hcall)

end SelfTransfer

namespace UnregisteredReceiver

variable (M : Module)

/-- A call of the level has a tracked value where `l'` has its parameter. -/
def Carries (l l' : Level) : Prop :=
  ∃ users, levelUsers M l = some users ∧ ∃ k, Carried M l.1 users (l'.1, k) ∧
    l'.1.getArg k = some l'.2

/-- Some call of the module passes an argument where `l` has its parameter. -/
def IsReceiverLevel (l : Level) : Prop := ∃ k, IsCallLevel M (l.1, k) ∧ l.1.getArg k = some l.2

theorem receiverLevels_finite : {l | IsReceiverLevel M l}.Finite := by
  refine ((callLevels_finite M).image fun c => (c.1, (c.1.getArg c.2).getD 0)).subset ?_
  rintro l ⟨k, hk, harg⟩
  refine ⟨(l.1, k), hk, ?_⟩
  simp [harg]

theorem isReceiverLevel_of_follows {o : Order ValueId} {l l' : Level}
    (h : Follows (events M o) l l') : IsReceiverLevel M l' := by
  obtain ⟨-, users, -, v, -, i, hi, -, k, hfwd, harg⟩ := (follows_iff M).1 h
  obtain ⟨hk, hG⟩ := (forwarded_eq_some_iff M).1 hfwd
  obtain ⟨a, -, ha⟩ := exists_of_nextOffset hk
  exact ⟨k, ⟨v, i, hi, hG, (List.getElem?_eq_some_iff.1 ha).1⟩, harg⟩

end UnregisteredReceiver

namespace Descent

/-- If the search of any level that `l` carries a tracked value to returns true, the search
of `l` does. -/
def Accounts {L : Type} (verdict : Nat → L → Option Bool) (carries : L → L → Prop) (l : L) :
    Prop :=
  ∀ l', carries l l' → (∃ m, verdict m l' = some true) → ∃ n, verdict n l = some true

/-- A chain of calls hands the tracked value on from `l` to `l'`, at any positions. -/
def Handed {L : Type} (events : L → List (Event L)) (carries : L → L → Prop) (l l' : L) : Prop :=
  ReflTransGen (fun a b => carries a b ∨ Enters events a b) l l'

/-- A chain of calls from `l`, each of which the loop comes to and hands the value on at its
first position, leads to a find. -/
def LeadsFirst {L : Type} (events : L → List (Event L)) (l : L) : Prop :=
  ∃ l', ReflTransGen (Enters events) l l' ∧ Finds events l'

theorem accounts_iff {L : Type} {events : L → List (Event L)} {verdict : Nat → L → Option Bool}
    (hverdict : ∀ n l, verdict n l = (search events n l).bind Outcome.verdict)
    (carries : L → L → Prop) (l₀ : L) :
    (∀ l, Handed events carries l₀ l → Accounts verdict carries l) ↔
      ∀ l, Handed events carries l₀ l →
        (∃ l', Handed events carries l l' ∧ Finds events l') → LeadsFirst events l := by
  have htrue : ∀ l, (∃ n, verdict n l = some true) ↔ LeadsFirst events l := by
    intro l
    rw [LeadsFirst, ← DeepSearch.found_iff_enters]
    refine exists_congr fun n => ?_
    rw [hverdict]
    rcases search events n l with _ | _ | _ | _ <;> simp [Outcome.verdict]
  unfold Accounts
  simp only [htrue]
  constructor
  · rintro hall l hl ⟨l', hpath, hfinds⟩
    induction hpath using ReflTransGen.head_induction_on with
    | refl => exact ⟨l', .refl, hfinds⟩
    | @head a b hstep _ ih =>
      obtain ⟨c, hbc, hc⟩ := ih (hl.tail hstep)
      rcases hstep with hcarries | henters
      · exact hall a hl b hcarries ⟨c, hbc, hc⟩
      · exact ⟨c, .head henters hbc, hc⟩
  · rintro hcond l hl l' hcarries ⟨c, hpath, hc⟩
    have hhanded : Handed events carries l' c := ReflTransGen.mono (fun _ _ => Or.inr) _ _ hpath
    exact hcond l hl ⟨c, .head (Or.inl hcarries) hhanded, hc⟩

/-- The functions and parameters that a tracked value is handed to account for every position
it is passed at exactly when, from each of them, a chain of first positions leads to a find if
a chain of any positions does. -/
theorem positions_accounted_iff (M : TypedModule) (o : Order ValueId) :
    (∀ l₀, (∀ l, Handed (SelfTransfer.events M) (SelfTransfer.Carries M) l₀ l →
        Accounts (SelfTransfer.hasSenderReceiverCheck M) (SelfTransfer.Carries M) l) ↔
      ∀ l, Handed (SelfTransfer.events M) (SelfTransfer.Carries M) l₀ l →
        (∃ l', Handed (SelfTransfer.events M) (SelfTransfer.Carries M) l l' ∧
          Finds (SelfTransfer.events M) l') → LeadsFirst (SelfTransfer.events M) l) ∧
    (∀ l₀, (∀ l, Handed (NftApprovalCheck.approvalEvents M.toModule o)
          (NftApprovalCheck.Carries M.toModule) l₀ l →
        Accounts (NftApprovalCheck.hasApprovalCheck M.toModule o)
          (NftApprovalCheck.Carries M.toModule) l) ↔
      ∀ l, Handed (NftApprovalCheck.approvalEvents M.toModule o)
          (NftApprovalCheck.Carries M.toModule) l₀ l →
        (∃ l', Handed (NftApprovalCheck.approvalEvents M.toModule o)
            (NftApprovalCheck.Carries M.toModule) l l' ∧
          Finds (NftApprovalCheck.approvalEvents M.toModule o) l') →
        LeadsFirst (NftApprovalCheck.approvalEvents M.toModule o) l) ∧
    (∀ l₀, (∀ l, Handed (UnregisteredReceiver.events M.toModule o)
          (UnregisteredReceiver.Carries M.toModule) l₀ l →
        Accounts (UnregisteredReceiver.allowUnregisteredReceiver M.toModule o)
          (UnregisteredReceiver.Carries M.toModule) l) ↔
      ∀ l, Handed (UnregisteredReceiver.events M.toModule o)
          (UnregisteredReceiver.Carries M.toModule) l₀ l →
        (∃ l', Handed (UnregisteredReceiver.events M.toModule o)
            (UnregisteredReceiver.Carries M.toModule) l l' ∧
          Finds (UnregisteredReceiver.events M.toModule o) l') →
        LeadsFirst (UnregisteredReceiver.events M.toModule o) l) := by
  refine ⟨fun l₀ => ?_, fun l₀ => ?_, fun l₀ => ?_⟩
  · exact accounts_iff (fun _ _ => rfl) _ l₀
  · exact accounts_iff (NftApprovalCheck.hasApprovalCheck_eq M.toModule o) _ l₀
  · exact accounts_iff (fun _ _ => rfl) _ l₀

/-- `ft_transfer` of a contract that hands the receiver on twice. -/
def payTransfer : Function :=
  ⟨lit "_ZN3pay97_$LT$impl$u20$near_contract_standards..fungible_token..core.." rfl ++
    lit "FungibleTokenCore$u20$for$u20$pay..Pay$GT$11ft_transfer17h1E" rfl, 0, [3, 4, 5],
    [⟨lit "start" rfl, [9]⟩]⟩

/-- The function it calls: only the second parameter goes to the standard
implementation. -/
def payOut : Function :=
  ⟨lit "_ZN3pay3Pay7pay_out17h2E" rfl, 1, [6, 7], [⟨lit "start" rfl, [10]⟩]⟩

/-- `FungibleToken::internal_transfer` of the standard library. -/
def stdTransfer : Function :=
  ⟨lit "_ZN23near_contract_standards14fungible_token9core_impl13FungibleToken" rfl ++
    lit "17internal_transfer17h3E" rfl, 2, [8], []⟩

def payModule : TypedModule where
  values :=
    [.function, .function, .function, .argument, .argument, .argument, .argument, .argument,
     .argument,
     .instruction ⟨.call [4, 4] [] 1 true, some ⟨lit "src/lib.rs" rfl, 20⟩⟩,
     .instruction ⟨.call [7] [] 2 true, some ⟨lit "src/lib.rs" rfl, 30⟩⟩]
  functions := [payTransfer, payOut, stdTransfer]
  users := useList _
  users_perm := fun _ => .refl _
  operands_lt := by decide
  params_lt := by decide
  names_nodup := by decide +kernel
  functions_nodup := by decide
  otherClass _ := .rest
  typeName _ := []
  printed _ := []
  isInt128 _ := false
  constantInt _ := none

theorem payModule_acyclic : Acyclic payModule.toModule :=
  acyclic_of_rank (fun F => 2 - F.value) (by decide +kernel)

theorem payModule_returns :
    SelfTransfer.hasSenderReceiverCheck payModule 3 (payTransfer, 1) = some false := by
  decide +kernel

/-- The call passes the receiver at offsets 0 and 1, and the search goes on to the
first of them alone. -/
theorem second_position_overlooked :
    ∃ M l, Acyclic M.toModule ∧
      ¬ Accounts (SelfTransfer.hasSenderReceiverCheck M) (SelfTransfer.Carries M) l := by
  refine ⟨payModule, (payTransfer, 1), payModule_acyclic, ?_⟩
  intro hall
  have hsecond : SelfTransfer.hasSenderReceiverCheck payModule 2 (payOut, 1) = some true := by
    decide +kernel
  have hcarries : SelfTransfer.Carries payModule (payTransfer, 1) (payOut, 1) := by
    have husers : SelfTransfer.levelUsers payModule (payTransfer, 1) = some [9, 4] := by
      decide +kernel
    exact ⟨[9, 4], husers,
      (9, ⟨.call [4, 4] [] 1 true, some ⟨lit "src/lib.rs" rfl, 20⟩⟩), by decide +kernel, rfl,
      4, by decide, rfl⟩
  obtain ⟨n, hn⟩ := hall (payOut, 1) hcarries ⟨2, hsecond⟩
  have htrue := DeepSearch.verdict_mono _ (Nat.le_max_left n 3) hn
  have hfalse := DeepSearch.verdict_mono _ (Nat.le_max_right n 3) payModule_returns
  rw [htrue] at hfalse
  cases hfalse

/-! ## Which searches end -/

/-- A search ends exactly when the functions and parameters that it explores do
**not** come around. -/
theorem searches_end_iff (M : TypedModule) (o : Order ValueId) :
    (∀ l, Ends (SelfTransfer.events M) l ↔
      ¬ ∃ c, ReflTransGen (Explores (SelfTransfer.events M)) l c ∧
        TransGen (Explores (SelfTransfer.events M)) c c) ∧
    (∀ l, Ends (NftApprovalCheck.approvalEvents M.toModule o) l ↔
      ¬ ∃ c, ReflTransGen (Explores (NftApprovalCheck.approvalEvents M.toModule o)) l c ∧
        TransGen (Explores (NftApprovalCheck.approvalEvents M.toModule o)) c c) ∧
    (∀ l, Ends (UnregisteredReceiver.events M.toModule o) l ↔
      ¬ ∃ c, ReflTransGen (Explores (UnregisteredReceiver.events M.toModule o)) l c ∧
        TransGen (Explores (UnregisteredReceiver.events M.toModule o)) c c) := by
  refine ⟨?_, ?_, ?_⟩
  · exact DeepSearch.ends_iff_no_cycle (callLevels_finite M.toModule) fun l l' h =>
      (SelfTransfer.carries_of_follows M h).isCallLevel
  · exact DeepSearch.ends_iff_no_cycle (callLevels_finite M.toModule) fun l l' h =>
      (NftApprovalCheck.carries_of_follows M.toModule h).isCallLevel
  · exact DeepSearch.ends_iff_no_cycle (UnregisteredReceiver.receiverLevels_finite M.toModule)
      fun l l' h => UnregisteredReceiver.isReceiverLevel_of_follows M.toModule h

/-- `ft_transfer` of a contract that calls itself with the receiver. -/
def retryTransfer : Function :=
  ⟨lit "_ZN5retry97_$LT$impl$u20$near_contract_standards..fungible_token..core.." rfl ++
    lit "FungibleTokenCore$u20$for$u20$retry..Retry$GT$11ft_transfer17h1E" rfl, 0, [1, 2, 3],
    [⟨lit "start" rfl, [4]⟩]⟩

def retryModule : TypedModule where
  values :=
    [.function, .argument, .argument, .argument,
     .instruction ⟨.call [1, 2, 3] [] 0 true, some ⟨lit "src/lib.rs" rfl, 20⟩⟩]
  functions := [retryTransfer]
  users := useList _
  users_perm := fun _ => .refl _
  operands_lt := by decide
  params_lt := by decide
  names_nodup := by decide +kernel
  functions_nodup := by decide
  otherClass _ := .rest
  typeName _ := []
  printed _ := []
  isInt128 _ := false
  constantInt _ := none

/-- The call makes all its arguments tracked values: the search goes on to the
first parameter, whichever it started with. -/
theorem events_retryModule {k : Nat} (hk : k < 3) :
    SelfTransfer.events retryModule (retryTransfer, k) = [.descend (retryTransfer, 0)] := by
  have hstd : ¬ SelfTransfer.Standard (retryTransfer, k) := by
    have hname : Regex.matchPattern SelfTransfer.regex_standard_ft_transfer_or_call
        retryTransfer.name = false := by decide +kernel
    rw [SelfTransfer.Standard, hname]
    exact Bool.false_ne_true
  have husers : ∃ users ∈ SelfTransfer.levelUsers retryModule (retryTransfer, k), 1 ∈ users := by
    have hall : ∀ k < 3, ∃ users ∈ SelfTransfer.levelUsers retryModule (retryTransfer, k),
        1 ∈ users := by decide +kernel
    exact hall k hk
  obtain ⟨users, hl, hone⟩ := husers
  rw [Option.mem_def] at hl
  have hinsts : retryTransfer.instructions retryModule.toModule =
      [(4, ⟨.call [1, 2, 3] [] 0 true, some ⟨lit "src/lib.rs" rfl, 20⟩⟩)] := by decide +kernel
  have heq : NearCore.isInstCallFunc retryModule.toModule
      ⟨.call [1, 2, 3] [] 0 true, some ⟨lit "src/lib.rs" rfl, 20⟩⟩ regexPartialEq = false := by
    decide +kernel
  have hnext : nextOffset users ⟨.call [1, 2, 3] [] 0 true, some ⟨lit "src/lib.rs" rfl, 20⟩⟩ =
      some 0 := by
    simp [nextOffset, Instruction.args, List.findIdx?_cons, hone]
  have hfwd : forwarded retryModule.toModule users
      ⟨.call [1, 2, 3] [] 0 true, some ⟨lit "src/lib.rs" rfl, 20⟩⟩ = some (retryTransfer, 0) :=
    (forwarded_eq_some_iff _).2 ⟨hnext, rfl⟩
  rw [SelfTransfer.events, if_neg hstd]
  simp [hl, hinsts, SelfTransfer.instEvent, heq, hfwd]

/-- The search of a transfer that calls itself runs without end. -/
theorem own_call_never_ends :
    ∃ M F l, SelfTransfer.entry F = some l ∧ ¬ Ends (SelfTransfer.events M) l := by
  refine ⟨retryModule, retryTransfer, (retryTransfer, 1), ?_, ?_⟩
  · have htrait : Regex.matchPattern SelfTransfer.regex_ft_transfer_trait
        retryTransfer.name = true := by decide +kernel
    rw [SelfTransfer.entry, if_pos htrait]
    rfl
  · refine DeepSearch.not_ends_of_loop (c := (retryTransfer, 0)) ?_ ?_
    · exact events_retryModule (by decide)
    · exact events_retryModule (by decide)

end Descent
