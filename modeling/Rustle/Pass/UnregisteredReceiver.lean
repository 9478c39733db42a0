import Rustle.Library.AddressOrder
import Rustle.Pass.Forwarding

/-!
# `unregistered-receiver`: may the receiver be unregistered?

* `allowUnregisteredReceiver` — the search of a value, and of the parameters it is
  handed to, with fuel; `none` when it does not return.
* `UncheckedGet` — what the search is for: a `get` with the receiver, unwrapped
  without a check.
* `Standard` — what the search takes for it: the standard implementation, which
  is **safe**.
* `allows_sound_iff` — when a positive answer is right.
-/

namespace UnregisteredReceiver

open Llvm NearCore Forwarding
open DeepSearch (Event Outcome search Reach)
open AddressOrder (Order natOrder)
open Relation (ReflTransGen)
open Text (lit)

def regex_ft_transfer_or_call : Str :=
  lit "near_contract_standards..fungible_token..core_impl..FungibleToken\\$" rfl ++
  lit ".+[0-9]ft_transfer(_call)?[0-9]" rfl

def regex_ft_transfer_trait : Str :=
  lit "near_contract_standards..fungible_token..core..FungibleTokenCore\\$" rfl ++
  lit ".+[0-9]ft_transfer[0-9]" rfl

def regex_ft_transfer_call_trait : Str :=
  lit "near_contract_standards..fungible_token..core..FungibleTokenCore\\$" rfl ++
  lit ".+[0-9]ft_transfer_call[0-9]" rfl

def regex_get : Str :=
  lit "near_sdk[0-9]+collections[0-9]+" rfl ++
  lit "(lookup_map[0-9]+LookupMap|tree_map[0-9]+TreeMap|unordered_map[0-9]+UnorderedMap" rfl ++
  lit "|legacy_tree_map[0-9]+LegacyTreeMap)\\$.+[0-9]+get[0-9]+" rfl

def regex_unchecked_unwrap : Str :=
  lit "core[0-9]+(option[0-9]+Option|result[0-9]+Result)\\$" rfl ++
  lit ".+[0-9]+(unwrap_or|unwrap_or_default|unwrap_unchecked)[0-9]+" rfl

/-- A function, and the value that holds the receiver in it. -/
abbrev Level := Function × ValueId

section

variable (M : Module)

/-- The implementation of the standard library. -/
def Standard (l : Level) : Prop :=
  Regex.matchPattern regex_ft_transfer_or_call l.1.name = true

instance (l : Level) : Decidable (Standard l) := inferInstanceAs (Decidable (_ = true))

/-- `usersOfReceiverId` -/
def levelUsers (l : Level) : Option (List ValueId) := simpleFindUsers M false true l.2

/-- `returnValueOfGet`, for the `get` that is the value `v`. -/
def returnValueOfGet (v : ValueId) (i : Instruction) : Option ValueId :=
  match i.args.length with
  | 2 => some v
  | 3 => i.getArgOperand 0
  | _ => none

/-- Is the value a call that unwraps without a check? -/
def isUncheckedUnwrap (v : ValueId) : Bool :=
  (M.instruction? v).any fun i => isInstCallFunc M i regex_unchecked_unwrap

/-- What happens at the `get` that is the value `v`. -/
def getEvent (v : ValueId) (i : Instruction) : Option (Event Level) :=
  match returnValueOfGet v i with
  | none => none
  | some result =>
    match simpleFindUsers M false false result with
    | none => some .stuck
    | some usersOfGet => if usersOfGet.any (isUncheckedUnwrap M) then some .found else none

/-- What happens at any other call: the receiver may be handed on. -/
def forwardEvent (usersOfReceiverId : List ValueId) (i : Instruction) : Option (Event Level) :=
  match forwarded M usersOfReceiverId i with
  | none => none
  | some (G, k) =>
    match G.getArg k with
    | none => some .stuck
    | some receiver => some (.descend (G, receiver))

/-- What the loop over the users does at one of them. -/
def userEvent (usersOfReceiverId : List ValueId) (v : ValueId) : Option (Event Level) :=
  match M.instruction? v with
  | none => none
  | some i =>
    if isInstCallFunc M i regex_get then getEvent M v i
    else forwardEvent M usersOfReceiverId i

/-- The body of `allowUnregisteredReceiver`, in the order of its steps. -/
def events (o : Order ValueId) (l : Level) : List (Event Level) :=
  if Standard l then [.found]
  else
    match levelUsers M l with
    | none => [.stuck]
    | some usersOfReceiverId =>
      (o.iterate usersOfReceiverId).filterMap (userEvent M usersOfReceiverId)

/-- `allowUnregisteredReceiver(F, receiver)` -/
def allowUnregisteredReceiver (o : Order ValueId) (fuel : Nat) (l : Level) : Option Bool :=
  (search (events M o) fuel l).bind Outcome.verdict

/-- The parameter a function is searched for, if it is `ft_transfer` or
`ft_transfer_call` with as many parameters as these have. -/
def entry (F : Function) : Option Level :=
  if Regex.matchPattern regex_ft_transfer_trait F.name then
    if F.arg_size < 3 then none else (F.getArg 1).map fun receiver => (F, receiver)
  else if Regex.matchPattern regex_ft_transfer_call_trait F.name then
    if F.arg_size < 3 then none else (F.getArg 2).map fun receiver => (F, receiver)
  else none

/-- `runOnFunction`: the line written, as function and verdict; a search that
succeeds is bad news. -/
def runOnFunction (o : Order ValueId) (fuel : Nat) (F : Function) : Option (List (Str × Bool)) :=
  if skipFunc F then some []
  else
    match entry F with
    | none => some []
    | some l => (allowUnregisteredReceiver M o fuel l).map fun allow => [(F.name, !allow)]

/-! ## What the search is for -/

/-- The function has a `get` with the receiver whose result is unwrapped without
a check. -/
def UncheckedGet (l : Level) : Prop :=
  ∃ users, levelUsers M l = some users ∧ ∃ v ∈ users, ∃ i, M.instruction? v = some i ∧
    isInstCallFunc M i regex_get = true ∧ ∃ result, returnValueOfGet v i = some result ∧
      ∃ usersOfGet, simpleFindUsers M false false result = some usersOfGet ∧
        ∃ w ∈ usersOfGet, isUncheckedUnwrap M w = true

/-- A call among the users of the receiver has one of them at some offset, and
`l'` is the function called with its parameter there. -/
def Receives (l l' : Level) : Prop :=
  ∃ users, levelUsers M l = some users ∧ ∃ v ∈ users, ∃ i, M.instruction? v = some i ∧
    M.getCalledFunction i = some l'.1 ∧ ∃ a ∈ users, ∃ k, i.args[k]? = some a ∧
      l'.1.getArg k = some l'.2

/-- Some function that the receiver comes to unwraps a `get` without a check. -/
def Allows (l : Level) : Prop := ∃ l', ReflTransGen (Receives M) l l' ∧ UncheckedGet M l'

/-! ## What the search finds -/

theorem mem_events {o : Order ValueId} {l : Level} {users : List ValueId} (hs : ¬ Standard l)
    (hl : levelUsers M l = some users) {e : Event Level} :
    e ∈ events M o l ↔ ∃ v ∈ users, ∃ i, M.instruction? v = some i ∧
      ((isInstCallFunc M i regex_get = true ∧ getEvent M v i = some e) ∨
        (isInstCallFunc M i regex_get = false ∧ forwardEvent M users i = some e)) := by
  rw [events, if_neg hs]
  simp only [hl, List.mem_filterMap, AddressOrder.mem_iterate]
  refine exists_congr fun v => and_congr_right fun _ => ?_
  unfold userEvent
  cases M.instruction? v with
  | none => simp
  | some i =>
    by_cases hg : isInstCallFunc M i regex_get = true
    · simp [hg]
    · simp [hg]

theorem getEvent_found_iff {v : ValueId} {i : Instruction} :
    getEvent M v i = some .found ↔ ∃ result, returnValueOfGet v i = some result ∧
      ∃ usersOfGet, simpleFindUsers M false false result = some usersOfGet ∧
        ∃ w ∈ usersOfGet, isUncheckedUnwrap M w = true := by
  unfold getEvent
  cases returnValueOfGet v i with
  | none => simp
  | some result =>
    simp only [Option.some.injEq, exists_eq_left']
    cases simpleFindUsers M false false result with
    | none => simp
    | some usersOfGet => simp

theorem getEvent_ne_descend {v : ValueId} {i : Instruction} {l : Level} :
    getEvent M v i ≠ some (.descend l) := by
  unfold getEvent
  cases returnValueOfGet v i with
  | none => simp
  | some result =>
    cases hu : simpleFindUsers M false false result with
    | none => simp [hu]
    | some usersOfGet =>
      by_cases hany : usersOfGet.any (isUncheckedUnwrap M) = true
      · simp [hu, hany]
      · simp [hu, hany]

theorem forwardEvent_descend_iff {users : List ValueId} {i : Instruction} {l' : Level} :
    forwardEvent M users i = some (.descend l') ↔
      ∃ k, forwarded M users i = some (l'.1, k) ∧ l'.1.getArg k = some l'.2 := by
  unfold forwardEvent
  rcases forwarded M users i with _ | ⟨G, k⟩
  · simp
  · simp only [Option.some.injEq, Prod.mk.injEq]
    cases hG : G.getArg k with
    | none =>
      simp only [Option.some.injEq, reduceCtorEq, false_iff]
      rintro ⟨k', ⟨rfl, rfl⟩, h⟩
      rw [hG] at h
      cases h
    | some receiver =>
      simp only [Option.some.injEq, Event.descend.injEq]
      constructor
      · rintro rfl
        exact ⟨k, ⟨rfl, rfl⟩, hG⟩
      · rintro ⟨k', ⟨rfl, rfl⟩, h⟩
        rw [hG, Option.some.injEq] at h
        rw [h]

theorem forwardEvent_ne_found {users : List ValueId} {i : Instruction} :
    forwardEvent M users i ≠ some .found := by
  unfold forwardEvent
  rcases forwarded M users i with _ | ⟨G, k⟩
  · simp
  · simp only
    cases G.getArg k <;> simp

/-- The search goes on to `l'`: a call that is no `get` hands the receiver on. -/
theorem follows_iff {o : Order ValueId} {l l' : Level} :
    DeepSearch.Follows (events M o) l l' ↔ ¬ Standard l ∧ ∃ users, levelUsers M l = some users ∧
      ∃ v ∈ users, ∃ i, M.instruction? v = some i ∧ isInstCallFunc M i regex_get = false ∧
        ∃ k, forwarded M users i = some (l'.1, k) ∧ l'.1.getArg k = some l'.2 := by
  unfold DeepSearch.Follows
  by_cases hs : Standard l
  · simp [events, hs]
  · cases hl : levelUsers M l with
    | none => simp [events, hs, hl]
    | some users =>
      rw [mem_events M hs hl]
      simp only [getEvent_ne_descend, and_false, false_or, forwardEvent_descend_iff, hs,
        not_false_eq_true, true_and, Option.some.injEq, exists_eq_left']

/-- A find is the standard implementation, or what the search is for. -/
theorem found_iff {o : Order ValueId} {l : Level} :
    .found ∈ events M o l ↔ Standard l ∨ (¬ Standard l ∧ UncheckedGet M l) := by
  by_cases hs : Standard l
  · simp [events, hs]
  · rw [or_iff_right hs, and_iff_right hs]
    cases hl : levelUsers M l with
    | none => simp [events, hs, hl, UncheckedGet]
    | some users =>
      rw [mem_events M hs hl]
      simp only [forwardEvent_ne_found, and_false, or_false, getEvent_found_iff, UncheckedGet, hl,
        Option.some.injEq, exists_eq_left']

/-- The receiver comes to where the search goes. -/
theorem receives_of_follows {o : Order ValueId} {l l' : Level}
    (h : DeepSearch.Follows (events M o) l l') : Receives M l l' := by
  obtain ⟨-, users, hl, v, hv, i, hi, -, k, hfwd, harg⟩ := (follows_iff M).1 h
  obtain ⟨hk, hG⟩ := (forwarded_eq_some_iff M).1 hfwd
  obtain ⟨a, ha, hka⟩ := exists_of_nextOffset hk
  exact ⟨users, hl, v, hv, i, hi, hG, a, ha, k, hka, harg⟩

theorem allows_of_reach {o : Order ValueId} {l l' : Level} (h : Reach (events M o) l l')
    (hget : UncheckedGet M l') : Allows M l :=
  ⟨l', ReflTransGen.mono (fun _ _ => receives_of_follows M) _ _ h, hget⟩

/-- A search that returns answers right exactly when the receiver may come to an
unchecked `get`, in case the search comes to the standard implementation. -/
theorem allows_sound_iff {o : Order ValueId} {n : Nat} {l : Level} {b : Bool}
    (h : allowUnregisteredReceiver M o n l = some b) :
    (b = true → Allows M l) ↔
      ((∃ l', Reach (events M o) l l' ∧ Standard l') → Allows M l) := by
  have hleads := DeepSearch.found_iff_leads (events M o) h
  constructor
  · rintro hsound ⟨l', hreach, hs⟩
    exact hsound (hleads.2 ⟨l', hreach, (found_iff M).2 (Or.inl hs)⟩)
  · intro hcond htrue
    obtain ⟨l', hreach, hfound⟩ := hleads.1 htrue
    rcases (found_iff M).1 hfound with hs | ⟨-, hget⟩
    · exact hcond ⟨l', hreach, hs⟩
    · exact allows_of_reach M hreach hget

/-- What is written for a transfer is the opposite of what the search returns. -/
theorem runOnFunction_eq {o : Order ValueId} {n : Nat} {F : Function} {l : Level} {b : Bool}
    (hF : entry F = some l) (h : allowUnregisteredReceiver M o n l = some b) :
    runOnFunction M o n F = some [(F.name, !b)] := by
  rw [runOnFunction, if_neg (by simp), hF]
  simp [h]

end

/-- `ft_transfer` of a contract that forwards everything to its `FungibleToken`. -/
def ftTransfer : Function :=
  ⟨lit "_ZN97_$LT$token..Token$u20$as$u20$near_contract_standards..fungible_token..core.." rfl ++
    lit "FungibleTokenCore$GT$11ft_transfer17h1E" rfl, 0, [2, 3, 4], [⟨lit "start" rfl, [8]⟩]⟩

/-- `FungibleToken::ft_transfer` of the standard library. -/
def stdTransfer : Function :=
  ⟨lit "_ZN135_$LT$near_contract_standards..fungible_token..core_impl..FungibleToken$u20$" rfl ++
    lit "as$u20$near_contract_standards..fungible_token..core..FungibleTokenCore$GT$" rfl ++
    lit "11ft_transfer17h2E" rfl, 1, [5, 6, 7], []⟩

def forwardModule : Module where
  values :=
    [.function, .function, .argument, .argument, .argument, .argument, .argument, .argument,
     .instruction ⟨.call [2, 3, 4] [] 1 true, some ⟨lit "src/lib.rs" rfl, 20⟩⟩]
  functions := [ftTransfer, stdTransfer]
  users := useList _
  users_perm := fun _ => .refl _
  operands_lt := by decide
  params_lt := by decide
  names_nodup := by decide +kernel
  functions_nodup := by decide

theorem allowUnregisteredReceiver_forwardModule :
    allowUnregisteredReceiver forwardModule natOrder 2 (ftTransfer, 3) = some true := by
  decide +kernel

theorem allows_sound_iff_forwardModule :
    allowUnregisteredReceiver forwardModule natOrder 2 (ftTransfer, 3) = some true ∧
      ((true = true → Allows forwardModule (ftTransfer, 3)) ↔
        ((∃ l', Reach (events forwardModule natOrder) (ftTransfer, 3) l' ∧ Standard l') →
          Allows forwardModule (ftTransfer, 3))) :=
  ⟨allowUnregisteredReceiver_forwardModule,
    allows_sound_iff forwardModule allowUnregisteredReceiver_forwardModule⟩

/-- The transfer is reported, although nothing is unwrapped. -/
theorem forwarding_reported :
    ∃ n, runOnFunction forwardModule natOrder n ftTransfer = some [(ftTransfer.name, false)] ∧
      allowUnregisteredReceiver forwardModule natOrder n (ftTransfer, 3) = some true ∧
      ¬ Allows forwardModule (ftTransfer, 3) := by
  refine ⟨2, by decide +kernel, allowUnregisteredReceiver_forwardModule, ?_⟩
  rintro ⟨l', -, users, -, v, -, i, hi, hget, -⟩
  -- the module has one instruction, and it calls no `get`
  have hall : ∀ v < 9, ∀ i ∈ forwardModule.instruction? v,
      isInstCallFunc forwardModule i regex_get = false := by decide +kernel
  rw [hall v (forwardModule.instruction?_lt hi) i hi] at hget
  cases hget

end UnregisteredReceiver
