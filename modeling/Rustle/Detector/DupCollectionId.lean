import Rustle.Library.Backtrack
import Rustle.Library.Dict

/-!
# `dup-collection-id`: storage ids that collections share

The detector gathers the initialisers of collections from all files in a dictionary from
ids to the fields that are initialised with them.

* `initialiser`, `id_map` — the pattern and the dictionary.
* `reported_iff` — an id is reported when fields of **different names** use it.
* `reports_shared_iff` — when these are the ids that different collections share.
-/

namespace DupCollectionId

open Backtrack Pattern
open Text (lit isSpace)

/-- The groups of the pattern. -/
inductive Group where
  | name | collection | id
  deriving DecidableEq

/-- The names of the collections, in the order of the pattern. -/
def collections : Pattern Group :=
  .alt (literal (lit "LazyOption" rfl)) <| .alt (literal (lit "LegacyTreeMap" rfl)) <|
  .alt (literal (lit "LookupMap" rfl)) <| .alt (literal (lit "LookupSet" rfl)) <|
  .alt (literal (lit "TreeMap" rfl)) <| .alt (literal (lit "UnorderedMap" rfl)) <|
  .alt (literal (lit "UnorderedSet" rfl)) <| literal (lit "Vector" rfl)

/-- A match: the file and the place where it stands, the field and the id. -/
structure Initialiser where
  path : Str
  start : Nat
  name : Str
  id : Str
  deriving DecidableEq

section

/- The character class `\w`. -/
variable (isWord : Char → Bool)

/-- `(?P<name>\w+):\s*(?P<collection>...)::new\((?P<id>(\w|:)+)\),` -/
def initialiser : Pattern Group :=
  seqs
    [.group .name (many1 (.char isWord)), .char (· == ':'), .many (.char isSpace),
      .group .collection collections, literal (lit "::new(" rfl),
      .group .id (many1 (.alt (.char isWord) (.char (· == ':')))), literal (lit ")," rfl)]

/-- The matches in a file. -/
def initialisers (path text : Str) : List Initialiser :=
  (finditer id (initialiser isWord) (Text.universalNewlines text)).map fun m =>
    ⟨path, m.start, (m.group? .name).getD [], (m.group? .id).getD []⟩

/-- The matches in all the files, in the order in which these are visited. -/
def allInitialisers (files : List (Str × Str)) : List Initialiser :=
  files.flatMap fun file => initialisers isWord file.1 file.2

/-- The body of the loop over the matches. -/
def addMatch (id_map : Dict Str (Finset Str)) (i : Initialiser) : Dict Str (Finset Str) :=
  match id_map.get? i.id with
  | some name_list => id_map.set i.id (insert i.name name_list)
  | none => id_map.set i.id {i.name}

/-- `id_map` behind the loop over the files -/
def id_map (files : List (Str × Str)) : Dict Str (Finset Str) :=
  (allInitialisers isWord files).foldl addMatch Dict.empty

/-- What is written for an id and its fields. -/
def reportLine (id : Str) (name_list : Finset Str) : Str :=
  let names := name_list.sort (· ≤ ·)
  lit "collection id `" rfl ++ id ++ lit "` used in multiple collections: [" rfl ++
    (lit ", " rfl).intercalate (names.map fun name => '`' :: name ++ ['`']) ++ lit "]; " rfl

/-- The ids with more than one field. -/
def duplicates (files : List (Str × Str)) : List (Str × Finset Str) :=
  (id_map isWord files).entries.filter fun e => 1 < e.2.card

/-- The contents of the log -/
def report (files : List (Str × Str)) : Str :=
  (duplicates isWord files).flatMap fun e => reportLine e.1 e.2

/-- Is the id reported? -/
def Reported (files : List (Str × Str)) (id : Str) : Prop :=
  ∃ name_list, (id, name_list) ∈ duplicates isWord files

/-- Two initialisers of different collections, those of different structs or of different
fields, have the id. -/
def Shared {σ : Type} (owner : Initialiser → σ) (files : List (Str × Str)) (id : Str) : Prop :=
  ∃ i ∈ allInitialisers isWord files, ∃ j ∈ allInitialisers isWord files,
    i.id = id ∧ j.id = id ∧ (owner i, i.name) ≠ (owner j, j.name)

end

/-! ## The dictionary -/

/-- The fields that a dictionary has for an id. -/
def fields (id_map : Dict Str (Finset Str)) (id : Str) : Finset Str := (id_map.get? id).getD ∅

theorem get?_addMatch (id_map : Dict Str (Finset Str)) (i : Initialiser) (id : Str) :
    (addMatch id_map i).get? id
      = if id = i.id then some (insert i.name (fields id_map id)) else id_map.get? id := by
  have hadd : addMatch id_map i = id_map.set i.id (insert i.name (fields id_map i.id)) := by
    rw [addMatch, fields]
    cases id_map.get? i.id with
    | none => rfl
    | some name_list => rfl
  rw [hadd]
  split
  · rename_i heq
    rw [heq, Dict.get?_set_self]
  · rename_i hne
    rw [Dict.get?_set_of_ne _ _ hne]

/-- The loop: an id has the fields that it had, and those of the matches. -/
theorem mem_fields_foldl {is : List Initialiser} {d : Dict Str (Finset Str)} {id name : Str} :
    name ∈ fields (is.foldl addMatch d) id ↔
      name ∈ fields d id ∨ ∃ i ∈ is, i.id = id ∧ i.name = name := by
  induction is generalizing d with
  | nil => simp
  | cons i is ih =>
    have hstep : name ∈ fields (addMatch d i) id ↔
        name ∈ fields d id ∨ (i.id = id ∧ i.name = name) := by
      rw [fields, get?_addMatch]
      split
      · rename_i heq
        subst heq
        rw [Option.getD_some, Finset.mem_insert]
        tauto
      · rename_i hne
        constructor
        · exact Or.inl
        · rintro (hmem | ⟨heq, -⟩)
          · exact hmem
          · exact absurd heq.symm hne
    rw [List.foldl_cons, ih, hstep, or_assoc]
    simp only [List.mem_cons, exists_eq_or_imp]

variable {isWord : Char → Bool}

theorem mem_fields_iff {files : List (Str × Str)} {id name : Str} :
    name ∈ fields (id_map isWord files) id ↔
      ∃ i ∈ allInitialisers isWord files, i.id = id ∧ i.name = name := by
  rw [id_map, mem_fields_foldl]
  constructor
  · rintro (hmem | h)
    · exact absurd hmem (Finset.notMem_empty name)
    · exact h
  · exact Or.inr

/-- An id is reported when fields of different names use it. -/
theorem reported_iff {files : List (Str × Str)} {id : Str} :
    Reported isWord files id ↔ ∃ i ∈ allInitialisers isWord files,
      ∃ j ∈ allInitialisers isWord files, i.id = id ∧ j.id = id ∧ i.name ≠ j.name := by
  have hcard : Reported isWord files id ↔ 1 < (fields (id_map isWord files) id).card := by
    constructor
    · rintro ⟨name_list, hmem⟩
      obtain ⟨hentry, hlt⟩ := List.mem_filter.1 hmem
      rw [Dict.mem_entries_iff] at hentry
      rw [fields, hentry]
      simpa using hlt
    · intro hlt
      cases hget : (id_map isWord files).get? id with
      | none =>
        rw [fields, hget, Option.getD_none, Finset.card_empty] at hlt
        omega
      | some name_list =>
        rw [fields, hget, Option.getD_some] at hlt
        refine ⟨name_list, List.mem_filter.2 ⟨Dict.mem_entries_iff.2 hget, ?_⟩⟩
        simpa using hlt
  rw [hcard, Finset.one_lt_card_iff]
  constructor
  · rintro ⟨a, b, ha, hb, hne⟩
    obtain ⟨i, hi, hid, rfl⟩ := mem_fields_iff.1 ha
    obtain ⟨j, hj, hjd, rfl⟩ := mem_fields_iff.1 hb
    exact ⟨i, hi, j, hj, hid, hjd, hne⟩
  · rintro ⟨i, hi, j, hj, hid, hjd, hne⟩
    exact ⟨i.name, j.name, mem_fields_iff.2 ⟨i, hi, hid, rfl⟩,
      mem_fields_iff.2 ⟨j, hj, hjd, rfl⟩, hne⟩

/-- The ids that are reported are those that different collections share exactly when
every id that fields of one name in different structs use is used by a field of another
name as well. -/
theorem reports_shared_iff (isWord : Char → Bool) {σ : Type} (owner : Initialiser → σ)
    (files : List (Str × Str)) :
    (∀ id, Reported isWord files id ↔ Shared isWord owner files id) ↔
      ∀ i ∈ allInitialisers isWord files, ∀ j ∈ allInitialisers isWord files,
        i.id = j.id → i.name = j.name → owner i ≠ owner j →
          ∃ k ∈ allInitialisers isWord files, k.id = i.id ∧ k.name ≠ i.name := by
  constructor
  · intro h i hi j hj hid hname howner
    have hshared : Shared isWord owner files i.id := by
      refine ⟨i, hi, j, hj, rfl, hid.symm, fun heq => ?_⟩
      exact howner (Prod.mk.inj heq).1
    obtain ⟨k, hk, l, hl, hkid, hlid, hne⟩ := reported_iff.1 ((h i.id).2 hshared)
    -- of two different names one differs from any third
    by_cases hki : k.name = i.name
    · exact ⟨l, hl, hlid, fun hli => hne (hki.trans hli.symm)⟩
    · exact ⟨k, hk, hkid, hki⟩
  · intro h id
    rw [reported_iff]
    constructor
    · rintro ⟨i, hi, j, hj, hid, hjd, hne⟩
      exact ⟨i, hi, j, hj, hid, hjd, fun heq => hne (Prod.mk.inj heq).2⟩
    · rintro ⟨i, hi, j, hj, rfl, hjd, hne⟩
      by_cases hname : i.name = j.name
      · have howner : owner i ≠ owner j := fun heq => hne (by rw [heq, hname])
        obtain ⟨k, hk, hkid, hki⟩ := h i hi j hj hjd.symm hname howner
        exact ⟨k, hk, i, hi, hkid, rfl, hki⟩
      · exact ⟨i, hi, j, hj, rfl, hjd, hname⟩

/-- Two contracts, each in a file of its own, whose fields of one name have one id. -/
theorem same_field_not_reported :
    ¬ ∀ (isWord : Char → Bool) (σ : Type) (owner : Initialiser → σ) (files : List (Str × Str))
      (id : Str), Reported isWord files id ↔ Shared isWord owner files id := by
  intro h
  have hspec := h Text.isAsciiWord Str Initialiser.path
    [(lit "a.rs" rfl, lit "users: UnorderedSet::new(Key::A)," rfl),
     (lit "b.rs" rfl, lit "users: UnorderedSet::new(Key::A)," rfl)] (lit "Key::A" rfl)
  have hall : allInitialisers Text.isAsciiWord
      [(lit "a.rs" rfl, lit "users: UnorderedSet::new(Key::A)," rfl),
       (lit "b.rs" rfl, lit "users: UnorderedSet::new(Key::A)," rfl)]
      = [⟨lit "a.rs" rfl, 0, lit "users" rfl, lit "Key::A" rfl⟩,
         ⟨lit "b.rs" rfl, 0, lit "users" rfl, lit "Key::A" rfl⟩] := by
    decide +kernel
  rw [reported_iff, Shared, hall] at hspec
  obtain ⟨i, hi, j, hj, -, -, hne⟩ := hspec.2
    ⟨_, List.mem_cons_self, _, List.mem_cons_of_mem _ List.mem_cons_self, rfl, rfl,
      by decide +kernel⟩
  have hname : ∀ k ∈ [(⟨lit "a.rs" rfl, 0, lit "users" rfl, lit "Key::A" rfl⟩ : Initialiser),
      ⟨lit "b.rs" rfl, 0, lit "users" rfl, lit "Key::A" rfl⟩], k.name = lit "users" rfl :=
    List.forall_mem_cons.2 ⟨rfl, List.forall_mem_singleton.2 rfl⟩
  exact hne ((hname i hi).trans (hname j hj).symm)

end DupCollectionId
