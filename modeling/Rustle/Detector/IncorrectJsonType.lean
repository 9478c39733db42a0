import Rustle.Library.GrowingLoop
import Rustle.Library.Text

/-!
# `incorrect-json-type`: the types that hold a large integer

The loop of `incorrect-json-type.py` that collects in `typesWITHu128` the structs
with a large integer inside.

* `search` — the whole-word search; `search_iff` says what it looks for.
* `typesWITHu128` — the loop, with fuel; `none` when it runs out.
* `typesWITHu128_eq` — the outer loop makes **one** round.
* `types_end_iff` — when the loop ends.
* `types_exact_iff` — when the list holds the structs it is meant to hold.
-/

namespace IncorrectJsonType

open Text (lit)

section

/- The classification of characters behind `\w` and `\b`. -/
variable (isWord : Char → Bool)

/-! ## Whole words -/

/-- No word goes on at this character. -/
def isBreak (c : Option Char) : Bool := !c.any isWord

/-- Does the word stand at the start of the text, behind the character `prev`? -/
def wordAt (word : Str) (prev : Option Char) (text : Str) : Bool :=
  isBreak isWord prev && word.isPrefixOf text && isBreak isWord (text.drop word.length).head?

/-- `re.search(r"\b" + word + r"\b", text)` from the character `prev` on, for a text
of word characters. -/
def searchFrom (word : Str) : Option Char → Str → Bool
  | prev, [] => wordAt isWord word prev []
  | prev, c :: text => wordAt isWord word prev (c :: text) || searchFrom word (some c) text

def search (word text : Str) : Bool := searchFrom isWord word none text

theorem wordAt_iff {word text : Str} {prev : Option Char} :
    wordAt isWord word prev text = true ↔ isBreak isWord prev = true ∧
      ∃ b, text = word ++ b ∧ isBreak isWord b.head? = true := by
  rw [wordAt, Bool.and_eq_true, Bool.and_eq_true, List.isPrefixOf_iff_prefix, and_assoc]
  apply and_congr_right
  intro _
  constructor
  · rintro ⟨⟨b, rfl⟩, hb⟩
    rw [List.drop_left] at hb
    exact ⟨b, rfl, hb⟩
  · rintro ⟨b, rfl, hb⟩
    rw [List.drop_left]
    exact ⟨⟨b, rfl⟩, hb⟩

theorem searchFrom_iff {word text : Str} {prev : Option Char} :
    searchFrom isWord word prev text = true ↔ ∃ a b, text = a ++ word ++ b ∧
      isBreak isWord (a.getLast?.or prev) = true ∧ isBreak isWord b.head? = true := by
  induction text generalizing prev with
  | nil =>
    rw [searchFrom, wordAt_iff]
    constructor
    · rintro ⟨hprev, b, hb, hbreak⟩
      exact ⟨[], b, hb, hprev, hbreak⟩
    · rintro ⟨a, b, hab, ha, hb⟩
      obtain rfl : a = [] := by
        cases a with
        | nil => rfl
        | cons c a => simp at hab
      exact ⟨ha, b, hab, hb⟩
  | cons c text ih =>
    rw [searchFrom, Bool.or_eq_true, wordAt_iff, ih]
    constructor
    · rintro (⟨hprev, b, hb, hbreak⟩ | ⟨a, b, hab, ha, hb⟩)
      · exact ⟨[], b, hb, hprev, hbreak⟩
      · refine ⟨c :: a, b, by simp [hab], ?_, hb⟩
        cases a with
        | nil => simpa using ha
        | cons d a => simpa [List.getLast?_cons_cons, List.getLast?_eq_some_getLast] using ha
    · rintro ⟨a, b, hab, ha, hb⟩
      cases a with
      | nil => exact Or.inl ⟨ha, b, hab, hb⟩
      | cons d a =>
        simp only [List.cons_append, List.cons.injEq] at hab
        obtain ⟨rfl, hab⟩ := hab
        refine Or.inr ⟨a, b, hab, ?_, hb⟩
        cases a with
        | nil => simpa using ha
        | cons d a => simpa [List.getLast?_cons_cons, List.getLast?_eq_some_getLast] using ha

/-- The search looks for an occurrence with no word going on around it. -/
theorem search_iff {word text : Str} :
    search isWord word text = true ↔ ∃ a b, text = a ++ word ++ b ∧
      isBreak isWord a.getLast? = true ∧ isBreak isWord b.head? = true := by
  rw [search, searchFrom_iff]
  simp

/-! ## The loop -/

/-- A struct of `structMember_dict`: its name, a word, and the types of its
members. -/
structure StructDetail where
  structName : Str
  memTypes : List Str
  name_ne_nil : structName ≠ []
  name_word : ∀ c ∈ structName, isWord c = true

/-- `structMember_dict`, in the order of its keys. -/
structure StructTable where
  structs : List (StructDetail isWord)
  names_nodup : (structs.map StructDetail.structName).Nodup

end

section

variable {isWord : Char → Bool}

/-- Does some member type mention the name as a whole word? -/
def StructDetail.mentions (s : StructDetail isWord) (typeWITHu128 : Str) : Bool :=
  s.memTypes.any fun typeStruct => search isWord typeWITHu128 typeStruct

/-- The types the list starts with. -/
def baseTypes : List Str :=
  [lit "u128" rfl, lit "u64" rfl, lit "Balance" rfl, lit "Timestamp" rfl]

/-- The `for` loops of one round. -/
def oneRound (fuel : Nat) (T : StructTable isWord) (types : List Str) : Option (List Str) :=
  GrowingLoop.growAll StructDetail.structName StructDetail.mentions fuel T.structs types

/-- The `while` loop: `len` is `_typesWITHu128_len`. -/
def repeatUntil (round : List Str → Option (List Str)) : Nat → Nat → List Str → Option (List Str)
  | 0, _, _ => none
  | n + 1, len, types =>
    if len = types.length then some types
    else
      match round types with
      | none => none
      | some types' => repeatUntil round n types'.length types'

/-- `typesWITHu128`, as the loop leaves it. -/
def typesWITHu128 (fuel : Nat) (T : StructTable isWord) : Option (List Str) :=
  repeatUntil (oneRound fuel T) fuel (baseTypes.length + 1) baseTypes

/-- The length is noted after the round it is to be compared with, so the outer
loop makes one round. -/
theorem typesWITHu128_eq (n : Nat) (T : StructTable isWord) :
    typesWITHu128 (n + 2) T = oneRound (n + 2) T baseTypes := by
  rw [typesWITHu128, repeatUntil, if_neg (Nat.succ_ne_self _)]
  cases oneRound (n + 2) T baseTypes with
  | none => rfl
  | some types => simp [repeatUntil]

theorem StructTable.structs_nodup (T : StructTable isWord) : T.structs.Nodup :=
  List.Nodup.of_map _ T.names_nodup

/-- A struct with a base type inside, or with an earlier struct that is early. -/
def StructTable.Early (T : StructTable isWord) (s : StructDetail isWord) : Prop :=
  GrowingLoop.Early StructDetail.structName StructDetail.mentions baseTypes T.structs s

/-- A struct that reaches a base type by a chain of mentions. -/
inductive StructTable.Reaches (T : StructTable isWord) : StructDetail isWord → Prop where
  | base {s t} (hs : s ∈ T.structs) (ht : t ∈ baseTypes) (hm : s.mentions t = true) : T.Reaches s
  | step {s r} (hs : s ∈ T.structs) (hr : T.Reaches r) (hm : s.mentions r.structName = true) :
      T.Reaches s

/-- An early struct reaches a base type. -/
theorem StructTable.Early.reaches {T : StructTable isWord} {s : StructDetail isWord}
    (h : T.Early s) : T.Reaches s := by
  induction h with
  | base htable ht hcalled => exact .base (by rw [htable]; simp) ht hcalled
  | step htable _ _ hcalled ih => exact .step (by rw [htable]; simp) ih hcalled

theorem exists_run_iff (T : StructTable isWord) :
    (∃ n types, typesWITHu128 n T = some types) ↔
      ∃ n types, oneRound n T baseTypes = some types := by
  constructor
  · rintro ⟨n, types, h⟩
    rcases n with _ | _ | n
    · cases h
    · rw [typesWITHu128, repeatUntil, if_neg (Nat.succ_ne_self _)] at h
      cases hr : oneRound 1 T baseTypes with
      | none => simp [hr] at h
      | some types' => exact ⟨1, types', hr⟩
    · exact ⟨n + 2, types, typesWITHu128_eq n T ▸ h⟩
  · rintro ⟨n, types, h⟩
    refine ⟨n + 2, types, ?_⟩
    rw [typesWITHu128_eq]
    exact GrowingLoop.growAll_mono (Nat.le_add_right n 2) h

/-- More fuel does not change a run that ends. -/
theorem typesWITHu128_mono {T : StructTable isWord} {n m : Nat} (hnm : n ≤ m) {types : List Str}
    (h : typesWITHu128 n T = some types) : typesWITHu128 m T = some types := by
  rcases n with _ | _ | n
  · cases h
  · rw [typesWITHu128, repeatUntil, if_neg (Nat.succ_ne_self _)] at h
    cases hr : oneRound 1 T baseTypes <;> simp [hr, repeatUntil] at h
  · obtain ⟨m, rfl⟩ : ∃ k, m = k + 2 := ⟨m - 2, by omega⟩
    rw [typesWITHu128_eq] at h ⊢
    exact GrowingLoop.growAll_mono hnm h

/-- What the list of a run that ends holds. -/
theorem mem_types_iff {T : StructTable isWord} {n : Nat} {types : List Str}
    (h : typesWITHu128 n T = some types) (x : Str) :
    x ∈ types ↔ x ∈ baseTypes ∨ ∃ s ∈ T.structs, T.Early s ∧ s.structName = x := by
  rcases n with _ | _ | n
  · cases h
  · rw [typesWITHu128, repeatUntil, if_neg (Nat.succ_ne_self _)] at h
    cases hr : oneRound 1 T baseTypes <;> simp [hr, repeatUntil] at h
  · rw [typesWITHu128_eq] at h
    exact GrowingLoop.mem_growAll_iff T.structs_nodup h x

/-- The loop ends exactly when no early struct mentions itself. -/
theorem types_end_iff (T : StructTable isWord) :
    (∃ n types, typesWITHu128 n T = some types) ↔
      ¬ ∃ s ∈ T.structs, s.mentions s.structName = true ∧ T.Early s := by
  rw [exists_run_iff]
  refine (GrowingLoop.growAll_ends_iff T.structs_nodup).trans ?_
  simp only [not_exists, not_and]
  rfl

/-- When the loop ends, the list is the base types and the structs that reach
one, exactly when every such struct is early or has the name of a base type. -/
theorem types_exact_iff (T : StructTable isWord) {n : Nat} {types : List Str}
    (h : typesWITHu128 n T = some types) :
    (∀ x, x ∈ types ↔ x ∈ baseTypes ∨ ∃ s ∈ T.structs, T.Reaches s ∧ s.structName = x) ↔
      ∀ s ∈ T.structs, T.Reaches s → T.Early s ∨ s.structName ∈ baseTypes := by
  constructor
  · intro hexact s hs hreach
    have hmem : s.structName ∈ types := (hexact _).2 (Or.inr ⟨s, hs, hreach, rfl⟩)
    rcases (mem_types_iff h _).1 hmem with hbase | ⟨s', hs', hearly, hname⟩
    · exact Or.inr hbase
    · exact Or.inl (List.inj_on_of_nodup_map T.names_nodup hs' hs hname ▸ hearly)
  · intro hall x
    rw [mem_types_iff h]
    constructor
    · rintro (hx | ⟨s, hs, hearly, hx⟩)
      · exact Or.inl hx
      · exact Or.inr ⟨s, hs, hearly.reaches, hx⟩
    · rintro (hx | ⟨s, hs, hreach, rfl⟩)
      · exact Or.inl hx
      · exact (hall s hs hreach).symm.imp_right fun hearly => ⟨s, hs, hearly, rfl⟩

end

/-- `pub struct Node { value: u128, children: Vec<Node> }` -/
def node : StructDetail Text.isAsciiWord where
  structName := lit "Node" rfl
  memTypes := [lit "u128" rfl, lit "Vec<Node>" rfl]
  name_ne_nil := by decide
  name_word := @of_decide_eq_true _ (List.decidableBAll _ _) rfl

/-- A struct that holds an integer and mentions itself keeps the loop running. -/
theorem node_runs_forever :
    ¬ ∃ n types, typesWITHu128 n (⟨[node], by simp⟩ : StructTable Text.isAsciiWord) = some types := by
  rw [exists_run_iff]
  rintro ⟨n, types, h⟩
  have hearly : GrowingLoop.Early StructDetail.structName StructDetail.mentions baseTypes
      [node] node :=
    .base (t := lit "u128" rfl) (List.nil_append _).symm (by decide) (by decide +kernel)
  exact (GrowingLoop.growAll_ends_iff (List.nodup_singleton node)).1 ⟨n, types, h⟩ node
    (List.mem_singleton_self node) (by decide +kernel) hearly

/-- `pub struct Metadata { stats: Stats }` -/
def metadata : StructDetail Text.isAsciiWord where
  structName := lit "Metadata" rfl
  memTypes := [lit "Stats" rfl]
  name_ne_nil := by decide
  name_word := @of_decide_eq_true _ (List.decidableBAll _ _) rfl

/-- `pub struct Stats { pool_count: u64 }` -/
def stats : StructDetail Text.isAsciiWord where
  structName := lit "Stats" rfl
  memTypes := [lit "u64" rfl]
  name_ne_nil := by decide
  name_word := @of_decide_eq_true _ (List.decidableBAll _ _) rfl

/-- A struct, and behind it the struct it contains. -/
def outerFirst : StructTable Text.isAsciiWord := ⟨[metadata, stats], by decide⟩

/-- The same structs in the other order. -/
def innerFirst : StructTable Text.isAsciiWord := ⟨[stats, metadata], by decide⟩

theorem typesWITHu128_innerFirst :
    typesWITHu128 9 innerFirst = some (baseTypes ++ [lit "Stats" rfl, lit "Metadata" rfl]) := by
  decide +kernel

theorem types_exact_iff_innerFirst :
    typesWITHu128 9 innerFirst = some (baseTypes ++ [lit "Stats" rfl, lit "Metadata" rfl]) ∧
      ((∀ x, x ∈ baseTypes ++ [lit "Stats" rfl, lit "Metadata" rfl] ↔
          x ∈ baseTypes ∨ ∃ s ∈ innerFirst.structs, innerFirst.Reaches s ∧ s.structName = x) ↔
        ∀ s ∈ innerFirst.structs, innerFirst.Reaches s →
          innerFirst.Early s ∨ s.structName ∈ baseTypes) :=
  ⟨typesWITHu128_innerFirst, types_exact_iff innerFirst typesWITHu128_innerFirst⟩

/-- The outer struct is not in the list. -/
theorem outer_before_inner_missed :
    ∃ n types, typesWITHu128 n outerFirst = some types ∧
      ¬ ∀ x, x ∈ types ↔ x ∈ baseTypes ∨
        ∃ s ∈ outerFirst.structs, outerFirst.Reaches s ∧ s.structName = x := by
  refine ⟨9, baseTypes ++ [lit "Stats" rfl], by decide +kernel, fun h => ?_⟩
  have hstats : outerFirst.Reaches stats :=
    .base (t := lit "u64" rfl) (by simp [outerFirst]) (by decide) (by decide +kernel)
  have hmetadata : outerFirst.Reaches metadata :=
    .step (by simp [outerFirst]) hstats (by decide +kernel)
  have hmem := (h (lit "Metadata" rfl)).2
    (Or.inr ⟨metadata, by simp [outerFirst], hmetadata, rfl⟩)
  exact absurd hmem (by decide)

end IncorrectJsonType
