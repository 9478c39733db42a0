import Rustle.Pass.Forwarding

/-!
# `self-transfer`: is the receiver compared with the sender?

* `hasSenderReceiverCheck` — the search of a function, and of the functions the
  receiver is handed to, with fuel; `none` when it does not return.
* `ComparesAccounts` — what the search takes for the check: a comparison of
  account ids, **whoever** they belong to.
* `ComparesReceiver` — what the check is meant to be.
* `checked_sound_iff` — when a positive answer is right.
-/

namespace SelfTransfer

open Llvm NearCore Forwarding
open DeepSearch (Event Outcome search Reach)
open Text (lit)

def regex_standard_ft_transfer_or_call : Str :=
  lit "near_contract_standards.+fungible_token.+core_impl.+FungibleToken.+" rfl ++
  lit "[0-9](ft_transfer(_call)?|internal_transfer)[0-9]" rfl

def regex_ft_transfer_trait : Str :=
  lit "near_contract_standards\\.\\.fungible_token\\.\\.core\\.\\.FungibleTokenCore\\$" rfl ++
  lit ".+[0-9]ft_transfer[0-9]" rfl

def regex_ft_transfer_call_trait : Str :=
  lit "near_contract_standards\\.\\.fungible_token\\.\\.core\\.\\.FungibleTokenCore\\$" rfl ++
  lit ".+[0-9]ft_transfer_call[0-9]" rfl

/-- A function, and the offset of the parameter that holds the receiver. -/
abbrev Level := Function × Nat

section

variable (M : TypedModule)

/-- The implementation of the standard library. -/
def Standard (l : Level) : Prop :=
  Regex.matchPattern regex_standard_ft_transfer_or_call l.1.name = true

instance (l : Level) : Decidable (Standard l) := inferInstanceAs (Decidable (_ = true))

/-- `usersOfReceiverId` -/
def levelUsers (l : Level) : Option (List ValueId) := (l.1.getArg l.2).bind (findUsers M)

/-- Is the type of the value the one of an account id, or of a string? -/
def isAccountType (a : ValueId) : Bool :=
  Text.contains (M.typeName a) (lit "%\"near_sdk::types::account_id::AccountId\"" rfl) ||
  Text.contains (M.typeName a) (lit "%\"alloc::string::String\"" rfl)

/-- `useReceiverId` -/
def useReceiverId (i : Instruction) : Bool := i.args.any (isAccountType M)

/-- What the loop over the instructions does at one of them. -/
def instEvent (usersOfReceiverId : List ValueId) (i : Instruction) : Option (Event Level) :=
  if isInstCallFunc M.toModule i regexPartialEq then
    if useReceiverId M i then some .found else none
  else (forwarded M.toModule usersOfReceiverId i).map .descend

/-- The body of `hasSenderReceiverCheck`, in the order of its steps. -/
def events (l : Level) : List (Event Level) :=
  if Standard l then [.found]
  else
    match levelUsers M l with
    | none => [.stuck]
    | some usersOfReceiverId =>
      (l.1.instructions M.toModule).filterMap fun p => instEvent M usersOfReceiverId p.2

/-- `hasSenderReceiverCheck(F, receiverOffset)` -/
def hasSenderReceiverCheck (fuel : Nat) (l : Level) : Option Bool :=
  (search (events M) fuel l).bind Outcome.verdict

/-- The parameter a function is searched for, if it is `ft_transfer` or
`ft_transfer_call` with as many parameters as these have. -/
def entry (F : Function) : Option Level :=
  if Regex.matchPattern regex_ft_transfer_trait F.name then
    if F.arg_size < 3 then none else some (F, 1)
  else if Regex.matchPattern regex_ft_transfer_call_trait F.name then
    if F.arg_size < 3 then none else some (F, 2)
  else none

/-- `runOnFunction`: the line written, as function and verdict. -/
def runOnFunction (fuel : Nat) (F : Function) : Option (List (Str × Bool)) :=
  if skipFunc F then some []
  else
    match entry F with
    | none => some []
    | some l => (hasSenderReceiverCheck M fuel l).map fun check => [(F.name, check)]

/-! ## What the check is meant to be -/

/-- The function compares two values, one of them an account id or a string. -/
def ComparesAccounts (l : Level) : Prop :=
  ∃ p ∈ l.1.instructions M.toModule,
    isInstCallFunc M.toModule p.2 regexPartialEq = true ∧ useReceiverId M p.2 = true

/-- The function compares a value that is derived from the tracked parameter. -/
def ComparesReceiver (l : Level) : Prop :=
  ∃ users, levelUsers M l = some users ∧ ∃ p ∈ l.1.instructions M.toModule,
    isInstCallFunc M.toModule p.2 regexPartialEq = true ∧ ∃ a ∈ p.2.args, a ∈ users

/-- The check is made on some chain of calls from `l` on. -/
def Checked (l : Level) : Prop :=
  ∃ l', Reach (events M) l l' ∧ (Standard l' ∨ ComparesReceiver M l')

/-! ## What the search finds -/

theorem mem_instEvents {users : List ValueId} {is : List (ValueId × Instruction)}
    {e : Event Level} :
    e ∈ is.filterMap (fun p => instEvent M users p.2) ↔
      (e = .found ∧ ∃ p ∈ is, isInstCallFunc M.toModule p.2 regexPartialEq = true ∧
        useReceiverId M p.2 = true) ∨
      ∃ l', e = .descend l' ∧ ∃ p ∈ is, isInstCallFunc M.toModule p.2 regexPartialEq = false ∧
        forwarded M.toModule users p.2 = some l' := by
  rw [List.mem_filterMap]
  constructor
  · rintro ⟨p, hp, he⟩
    unfold instEvent at he
    split at he
    · rename_i heq
      split at he
      · rename_i huse
        exact Or.inl ⟨(Option.some.inj he).symm, p, hp, heq, huse⟩
      · cases he
    · rename_i hne
      obtain ⟨l', hl', rfl⟩ := Option.map_eq_some_iff.1 he
      exact Or.inr ⟨l', rfl, p, hp, by simpa using hne, hl'⟩
  · rintro (⟨rfl, p, hp, heq, huse⟩ | ⟨l', rfl, p, hp, hne, hl'⟩)
    · exact ⟨p, hp, by rw [instEvent, if_pos heq, if_pos huse]⟩
    · exact ⟨p, hp, by rw [instEvent, if_neg (by simp [hne]), hl']; rfl⟩

/-- The search goes on to `l'`: a call that is no comparison hands the receiver on. -/
theorem follows_iff {l l' : Level} :
    DeepSearch.Follows (events M) l l' ↔ ¬ Standard l ∧ ∃ users, levelUsers M l = some users ∧
      ∃ p ∈ l.1.instructions M.toModule, isInstCallFunc M.toModule p.2 regexPartialEq = false ∧
        forwarded M.toModule users p.2 = some l' := by
  unfold DeepSearch.Follows events
  by_cases hs : Standard l
  · simp [hs]
  · rw [if_neg hs]
    cases hl : levelUsers M l with
    | none => simp
    | some users =>
      simp only [mem_instEvents, Event.descend.injEq, reduceCtorEq, false_and, false_or,
        Option.some.injEq, exists_eq_left', hs, not_false_eq_true, true_and]

/-- A find is the standard implementation, or a comparison of accounts. -/
theorem standard_or_compares_of_found {l : Level} (h : .found ∈ events M l) :
    Standard l ∨ ComparesAccounts M l := by
  unfold events at h
  by_cases hs : Standard l
  · exact Or.inl hs
  · rw [if_neg hs] at h
    cases hl : levelUsers M l with
    | none => simp [hl] at h
    | some users =>
      simp only [hl] at h
      rcases (mem_instEvents M).1 h with ⟨-, hp⟩ | ⟨l', hl', -⟩
      · exact Or.inr hp
      · cases hl'

/-- At a level where only searches happen, nothing is compared. -/
theorem not_compares_of_descends {l : Level} (h : ∀ e ∈ events M l, ∃ m, e = .descend m) :
    ¬ ComparesAccounts M l := by
  rintro ⟨p, hp, heq, huse⟩
  unfold events at h
  by_cases hs : Standard l
  · obtain ⟨m, hm⟩ := h .found (by simp [hs])
    cases hm
  · rw [if_neg hs] at h
    cases hl : levelUsers M l with
    | none =>
      simp only [hl] at h
      obtain ⟨m, hm⟩ := h .stuck (List.mem_singleton_self _)
      cases hm
    | some users =>
      simp only [hl] at h
      obtain ⟨m, hm⟩ := h .found ((mem_instEvents M).2 (Or.inl ⟨rfl, p, hp, heq, huse⟩))
      cases hm

/-- A search that returns answers right exactly when it makes the check, in case
it comes to a comparison of accounts. -/
theorem checked_sound_iff {n : Nat} {l : Level} {b : Bool}
    (h : hasSenderReceiverCheck M n l = some b) :
    (b = true → Checked M l) ↔
      ((∃ l', Reach (events M) l l' ∧ ComparesAccounts M l') → Checked M l) := by
  constructor
  · rintro hsound ⟨l', hreach, hcmp⟩
    cases b with
    | true => exact hsound rfl
    | false =>
      obtain ⟨r, hr, hb⟩ := Option.bind_eq_some_iff.1 h
      cases r with
      | missing =>
        have hsilent := DeepSearch.silent_of_missing (events M) hr
        exact absurd hcmp (not_compares_of_descends M (hsilent l' hreach))
      | found => cases hb
      | stuck => cases hb
  · rintro hcond rfl
    obtain ⟨l', hreach, hfound⟩ := (DeepSearch.found_iff_leads (events M) h).1 rfl
    rcases standard_or_compares_of_found M hfound with hs | hcmp
    · exact ⟨l', hreach, Or.inl hs⟩
    · exact hcond ⟨l', hreach, hcmp⟩

end

/-- `ft_transfer` of a contract that asks whether its owner is on a black list
and never looks at the receiver. -/
def ftTransfer : Function :=
  ⟨lit "_ZN5token97_$LT$impl$u20$near_contract_standards..fungible_token..core.." rfl ++
    lit "FungibleTokenCore$u20$for$u20$token..Token$GT$11ft_transfer17h1E" rfl, 0, [2, 3, 4],
    [⟨lit "start" rfl, [5, 6, 7]⟩]⟩

def ownerModule : TypedModule where
  values :=
    [.function, .function, .argument, .argument, .argument,
     .instruction ⟨.getElementPtr (lit "%Token" rfl) 2 [], some ⟨lit "src/lib.rs" rfl, 20⟩⟩,
     .instruction ⟨.getElementPtr (lit "%Token" rfl) 2 [], some ⟨lit "src/lib.rs" rfl, 20⟩⟩,
     .instruction ⟨.call [5, 6] [] 1 true, some ⟨lit "src/lib.rs" rfl, 20⟩⟩]
  functions :=
    [ftTransfer,
     ⟨lit "_ZN81_$LT$near_sdk..types..account_id..AccountId$u20$as$u20$core..cmp.." rfl ++
      lit "PartialEq$GT$2eq17h2E" rfl, 1, [], []⟩]
  users := useList _
  users_perm := fun _ => .refl _
  operands_lt := by decide
  params_lt := by decide
  names_nodup := by decide +kernel
  functions_nodup := by decide
  otherClass _ := .rest
  typeName v :=
    if v = 5 ∨ v = 6 then lit "%\"near_sdk::types::account_id::AccountId\"*" rfl
    else lit "%\"token::Token\"*" rfl
  printed _ := []
  isInt128 _ := false
  constantInt _ := none

theorem hasSenderReceiverCheck_ownerModule :
    hasSenderReceiverCheck ownerModule 1 (ftTransfer, 1) = some true := by
  decide +kernel

theorem checked_sound_iff_ownerModule :
    hasSenderReceiverCheck ownerModule 1 (ftTransfer, 1) = some true ∧
      ((true = true → Checked ownerModule (ftTransfer, 1)) ↔
        ((∃ l', Reach (events ownerModule) (ftTransfer, 1) l' ∧
          ComparesAccounts ownerModule l') → Checked ownerModule (ftTransfer, 1))) :=
  ⟨hasSenderReceiverCheck_ownerModule,
    checked_sound_iff ownerModule hasSenderReceiverCheck_ownerModule⟩

/-- The comparison of the owner is taken for the check of the receiver. -/
theorem owner_comparison_counts :
    ∃ n, hasSenderReceiverCheck ownerModule n (ftTransfer, 1) = some true ∧
      ¬ Checked ownerModule (ftTransfer, 1) := by
  refine ⟨1, hasSenderReceiverCheck_ownerModule, ?_⟩
  have hstd : ¬ Standard (ftTransfer, 1) := by decide +kernel
  have husers : levelUsers ownerModule (ftTransfer, 1) = some [3] := by decide +kernel
  rintro ⟨l', hreach, hcheck⟩
  have hnone : ∀ l', ¬ DeepSearch.Follows (events ownerModule) (ftTransfer, 1) l' := by
    intro l' hl'
    obtain ⟨-, users, hu, p, hp, hne, hfwd⟩ := (follows_iff ownerModule).1 hl'
    rw [husers, Option.some.injEq] at hu
    subst hu
    have hall : ∀ p ∈ ftTransfer.instructions ownerModule.toModule,
        forwarded ownerModule.toModule [3] p.2 = none := by decide +kernel
    rw [hall p hp] at hfwd
    cases hfwd
  rcases hreach.cases_head with rfl | ⟨l'', hl'', -⟩
  · rcases hcheck with hs | ⟨users, hu, p, hp, -, a, ha, hmem⟩
    · exact hstd hs
    · rw [husers, Option.some.injEq] at hu
      subst hu
      have hall : ∀ p ∈ ftTransfer.instructions ownerModule.toModule, 3 ∉ p.2.args := by
        decide +kernel
      rw [List.mem_singleton] at hmem
      subst hmem
      exact hall p hp ha
  · exact hnone l'' hl''

end SelfTransfer
