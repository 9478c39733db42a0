import Rustle.Source.FindStruct

/-!
# Structs as they are written, and as they are found

A file as it is laid out: structs with their attributes, and between them text that holds
no struct.  Each field of a struct stands on lines of its own and ends with a comma.

* `Field`, `Item`, `Gap`, `Layout` — the pieces of a file, with what they must not contain.
* `memberList_fields` — the fields that are found are those that are written.
* `findStruct_layout` — the structs, likewise; a last field without a comma is missed.
-/

namespace FindStruct

open Backtrack Pattern
open Text (lit isSpace)

section

/- The character class `\w`. -/
variable (isWord : Char → Bool)

/-! ## Fields -/

/-- A field: the rest of the line above, what stands in front of its name, the name, the
blanks around the colon, and the type up to the last comma of its line. -/
structure Field where
  line : Str
  indent : Str
  name : Str
  before : Str
  behind : Str
  type : Str
  line_plain : ∀ c ∈ line, c ≠ ':' ∧ c ≠ ',' ∧ c ≠ '\n'
  indent_colon : ':' ∉ indent
  indent_comma : (Text.lstrip indent).head? ≠ some ','
  indent_word : ∀ c ∈ indent.getLast?, isWord c = false
  name_ne_nil : name ≠ []
  name_word : ∀ c ∈ name, isWord c = true
  before_space : ∀ c ∈ before, isSpace c = true
  behind_space : ∀ c ∈ behind, isSpace c = true
  type_ne_nil : type ≠ []
  type_solid : ∀ c ∈ type.head?, isSpace c = false
  type_line : '\n' ∉ type

end

section

variable {isWord : Char → Bool}

/-- What stands in front of the name. -/
def Field.lead (f : Field isWord) : Str := f.line ++ '\n' :: f.indent

/-- From the name to the comma. -/
def Field.member (f : Field isWord) : Str :=
  f.name ++ (f.before ++ ':' :: (f.behind ++ (f.type ++ [','])))

def Field.text (f : Field isWord) : Str := f.lead ++ f.member

/-- A text in which the type before it does not go on: neither on its line, nor behind
blanks, stands a comma. -/
def Uncontinued (s : Str) : Prop :=
  ∀ u v w, s = u ++ (v ++ ',' :: w) → '\n' ∉ u → ¬ ∀ c ∈ v, isSpace c = true

theorem uncontinued_of_not_mem {s : Str} (h : ',' ∉ s) : Uncontinued s := by
  rintro u v w rfl - -
  simp at h

/-- Where blanks and then a comma stand at the head. -/
theorem head?_lstrip_comma {v w : Str} (hv : ∀ c ∈ v, isSpace c = true) :
    (Text.lstrip (v ++ ',' :: w)).head? = some ',' := by
  rw [Text.lstrip_append_solid v w (by decide), Text.lstrip, List.dropWhile_eq_nil_iff.2 hv]
  rfl

/-- A word behind the indentation is not hidden by it. -/
theorem head?_lstrip_indent (hword : WordClass isWord) (f : Field isWord) (s : Str) :
    (Text.lstrip (f.indent ++ (f.name ++ s))).head? ≠ some ',' := by
  obtain ⟨c, n, hn⟩ := List.exists_cons_of_ne_nil f.name_ne_nil
  have hc := hword c (f.name_word c (by rw [hn]; exact List.mem_cons_self))
  rw [hn, List.cons_append, Text.lstrip_append_solid f.indent (n ++ s) hc.1]
  cases hl : Text.lstrip f.indent with
  | nil =>
    rw [List.nil_append, List.head?_cons, Ne, Option.some.injEq]
    rintro rfl
    exact hc.2 (by decide)
  | cons d l =>
    have hcomma := f.indent_comma
    rwa [hl] at hcomma

/-- A field in the next line ends the type before it. -/
theorem uncontinued_field (hword : WordClass isWord) (f : Field isWord) (s : Str) :
    Uncontinued (f.text ++ s) := by
  intro u v w heq hu hv
  have htext : f.text ++ s = f.line ++ '\n' :: (f.indent ++ (f.name ++
      ((f.before ++ ':' :: (f.behind ++ (f.type ++ [',']))) ++ s))) := by
    simp [Field.text, Field.lead, Field.member]
  rw [htext] at heq
  -- the newline of the line above comes before the comma
  have hblank : ∀ a, f.line = u ++ a →
      v ++ ',' :: w = a ++ '\n' :: (f.indent ++ (f.name ++
        ((f.before ++ ':' :: (f.behind ++ (f.type ++ [',']))) ++ s))) → False := by
    intro a hline hrest
    rcases List.append_eq_append_iff.1 hrest with ⟨b, hab, hb⟩ | ⟨b, hvb, hb⟩
    · cases b with
      | nil => simp at hb
      | cons d b =>
        rw [List.cons_append, List.cons.injEq] at hb
        refine (f.line_plain ',' ?_).2.1 rfl
        rw [hline, hab, hb.1]
        simp
    · cases b with
      | nil => simp at hb
      | cons d b =>
        rw [List.cons_append, List.cons.injEq] at hb
        have hspace : ∀ c ∈ b, isSpace c = true := by
          intro c hc
          refine hv c ?_
          rw [hvb]
          exact List.mem_append_right _ (List.mem_cons_of_mem d hc)
        refine head?_lstrip_indent hword f
          ((f.before ++ ':' :: (f.behind ++ (f.type ++ [',']))) ++ s) ?_
        rw [hb.2]
        exact head?_lstrip_comma hspace
  rcases List.append_eq_append_iff.1 heq with ⟨a, hua, ha⟩ | ⟨a, hline, ha⟩
  · cases a with
    | nil =>
      rw [List.append_nil] at hua
      exact hblank [] (by rw [List.append_nil, hua]) (by simpa using ha.symm)
    | cons d a =>
      rw [List.cons_append, List.cons.injEq] at ha
      refine hu ?_
      rw [hua, ← ha.1]
      simp
  · exact hblank a hline ha

theorem colon_not_mem_lead (f : Field isWord) : ':' ∉ f.lead := by
  intro hmem
  rcases List.mem_append.1 hmem with hmem | hmem
  · exact (f.line_plain _ hmem).1 rfl
  · rcases List.mem_cons.1 hmem with heq | hmem
    · exact absurd heq (by decide)
    · exact f.indent_colon hmem

/-- No word goes on from the lead into the name. -/
theorem getLast?_lead (hword : WordClass isWord) (f : Field isWord) :
    ∀ c ∈ f.lead.getLast?, isWord c = false := by
  have hnewline : isWord '\n' = false := by
    by_contra hnot
    rw [Bool.not_eq_false] at hnot
    exact absurd (hword _ hnot).1 (by decide)
  intro c hc
  have hlead : f.lead = (f.line ++ ['\n']) ++ f.indent := by simp [Field.lead]
  rw [hlead, List.getLast?_append, List.getLast?_concat] at hc
  have hindent := f.indent_word
  cases hlast : f.indent.getLast? with
  | none =>
    rw [hlast] at hc
    obtain rfl : '\n' = c := by simpa using hc
    exact hnewline
  | some d =>
    rw [hlast] at hc hindent
    exact hindent c hc

/-- A text that does not end within a word, without colons and in front of a word, is not
the start of a member. -/
theorem matchAt_noColon (hword : WordClass isWord) {v s : Str} (hcolon : ':' ∉ v) (hv : v ≠ [])
    (hlast : ∀ c ∈ v.getLast?, isWord c = false) {c : Char} (hc : isWord c = true) :
    matchAt id (memberPattern isWord) (v ++ c :: s) = none := by
  rw [Option.eq_none_iff_forall_ne_some]
  intro o ho
  obtain ⟨used, hused, hlang⟩ := lang_of_parses (parses_of_matchAt ho)
  obtain ⟨n, r, rfl, hn, sp, r', rfl, hsp, colon, r'', rfl, ⟨d, rfl, hd⟩, -⟩ := hlang
  have hname := (lang_many1_char.1 hn).2
  have hblank := lang_many_char.1 hsp
  obtain rfl : d = ':' := by simpa using hd
  dsimp only at hused
  rw [List.append_assoc, List.append_assoc, List.append_assoc, List.singleton_append] at hused
  have hmark := (hword c hc).2
  rcases List.append_eq_append_iff.1 hused with ⟨a, hna, -⟩ | ⟨a, hva, ha⟩
  · -- the name would hold the end of the text
    have hmem : v.getLast hv ∈ n := by
      rw [hna]
      exact List.mem_append_left a (List.getLast_mem hv)
    have hlword := hname _ hmem
    rw [id, hlast _ (List.getLast?_eq_some_getLast hv)] at hlword
    cases hlword
  · rcases List.append_eq_append_iff.1 ha with ⟨b, hab, hb⟩ | ⟨b, hspb, hb⟩
    · -- the blanks would end within the text
      cases b with
      | nil =>
        rw [List.nil_append, List.cons.injEq] at hb
        rw [← hb.1] at hmark
        exact hmark (by decide)
      | cons e b =>
        rw [List.cons_append, List.cons.injEq] at hb
        refine hcolon ?_
        rw [hva, hab, ← hb.1]
        simp
    · cases b with
      | nil =>
        rw [List.nil_append, List.cons.injEq] at hb
        rw [hb.1] at hmark
        exact hmark (by decide)
      | cons e b =>
        rw [List.cons_append, List.cons.injEq] at hb
        have hspace := hblank e (by rw [hspb]; simp)
        rw [id, ← hb.1, (hword c hc).1] at hspace
        cases hspace

/-- Where no comma is, no member is. -/
theorem matchAt_noComma {s : Str} (h : ',' ∉ s) : matchAt id (memberPattern isWord) s = none := by
  rw [Option.eq_none_iff_forall_ne_some]
  intro o ho
  obtain ⟨used, hused, hlang⟩ := lang_of_parses (parses_of_matchAt ho)
  obtain ⟨n, r, rfl, -, sp, r', rfl, -, colon, r'', rfl, -, sp', t, rfl, -, ty, t', rfl, -, sp'',
    t'', rfl, -, comma, rest, rfl, ⟨d, rfl, hd⟩, -⟩ := hlang
  obtain rfl : d = ',' := by simpa using hd
  dsimp only at hused
  rw [hused] at h
  simp at h

theorem run_one {β : Type} {c : Char} {k : State Group Char → Option β} {t : Str}
    {groups : List (Group × Str)} {b : β} (hk : k ⟨t, groups⟩ = some b) :
    run id (one c) k ⟨c :: t, groups⟩ = some b :=
  (run_char (beq_self_eq_true c)).trans hk

/-- The member at the head of a text. -/
theorem matchAt_member (hword : WordClass isWord) (f : Field isWord) {s : Str}
    (hs : Uncontinued s) :
    matchAt id (memberPattern isWord) (f.member ++ s)
      = some ⟨s, [(.type, f.type), (.name, f.name)]⟩ := by
  obtain ⟨c, t, ht⟩ := List.exists_cons_of_ne_nil f.type_ne_nil
  have hsolid := f.type_solid c (by rw [ht]; rfl)
  have hnotword : ∀ d, isSpace d = true ∨ d ∈ marks → isWord d = false := by
    intro d hd
    by_contra hnot
    rw [Bool.not_eq_false] at hnot
    rcases hd with hd | hd
    · rw [(hword d hnot).1] at hd
      cases hd
    · exact (hword d hnot).2 hd
  have hmember : f.member ++ s
      = f.name ++ (f.before ++ ':' :: (f.behind ++ (f.type ++ ',' :: s))) := by
    simp [Field.member]
  rw [matchAt, hmember]
  simp only [memberPattern, seqs, List.foldr_cons, List.foldr_nil]
  rw [run_seq]
  refine run_group_exact f.name_ne_nil f.name_word ?_ ?_
  · cases hb : f.before with
    | nil => exact ends_cons (hnotword ':' (Or.inr (by decide)))
    | cons d b =>
      exact ends_cons (hnotword d (Or.inl (f.before_space d (by rw [hb]; exact List.mem_cons_self))))
  rw [run_seq]
  refine run_many_exact f.before_space (ends_cons (by decide)) ?_
  rw [run_seq]
  refine run_one ?_
  rw [run_seq]
  refine run_many_exact f.behind_space ?_ ?_
  · rw [ht]
    exact ends_cons hsolid
  rw [run_seq]
  refine run_group_last f.type_ne_nil ?_ ?_ ?_
  · intro d hd
    have hne : d ≠ '\n' := by
      rintro rfl
      exact f.type_line hd
    simpa using hne
  · rw [run_seq]
    refine run_many_exact (u := []) (by simp) (ends_cons (by decide)) ?_
    rw [run_seq]
    exact run_one rfl
  · intro v w hvw hv hline
    rw [Option.eq_none_iff_forall_ne_some]
    intro o ho
    obtain ⟨o', hparses, -⟩ := parses_of_run _ _ _ _ ho
    obtain ⟨used, hused, sp, r, rfl, hsp, comma, rest, rfl, ⟨d, rfl, hd⟩, -⟩ :=
      lang_of_parses hparses
    obtain rfl : d = ',' := by simpa using hd
    obtain ⟨e, v, rfl⟩ := List.exists_cons_of_ne_nil hv
    rw [List.cons_append, List.cons.injEq] at hvw
    dsimp only at hused
    refine hs v sp (rest ++ o'.rest) ?_ ?_ (lang_many_char.1 hsp)
    · rw [hvw.2, hused]
      simp
    · intro hmem
      have hnl := hline _ (List.mem_cons_of_mem e hmem)
      simp at hnl

/-- The groups of a field. -/
def Field.groups (f : Field isWord) : List (Group × Str) := [(.type, f.type), (.name, f.name)]

theorem found_fields (hword : WordClass isWord) (fields : List (Field isWord)) {tail : Str}
    (htail : ',' ∉ tail) :
    found id (memberPattern isWord) (fields.flatMap Field.text ++ tail)
      = fields.map Field.groups := by
  induction fields with
  | nil =>
    have hquiet : found id (memberPattern isWord) (tail ++ [])
        = found id (memberPattern isWord) [] := by
      refine found_quiet fun u v huv _ => ?_
      rw [List.append_nil]
      refine matchAt_noComma fun hc => htail ?_
      rw [huv]
      exact List.mem_append_right u hc
    rw [List.append_nil] at hquiet
    exact hquiet
  | cons f fields ih =>
    have huncontinued : Uncontinued (fields.flatMap Field.text ++ tail) := by
      cases fields with
      | nil => exact uncontinued_of_not_mem htail
      | cons g fields =>
        rw [List.flatMap_cons, List.append_assoc]
        exact uncontinued_field hword g _
    have hsplit : (f :: fields).flatMap Field.text ++ tail
        = f.lead ++ (f.member ++ (fields.flatMap Field.text ++ tail)) := by
      simp [Field.text]
    have hmember : f.member ≠ [] := by simp [Field.member]
    rw [hsplit, found_quiet, found_append hmember (matchAt_member hword f huncontinued), ih]
    · rfl
    · intro u v huv hv
      obtain ⟨c, n, hn⟩ := List.exists_cons_of_ne_nil f.name_ne_nil
      have hcolon : ':' ∉ v := by
        intro hc
        refine colon_not_mem_lead f ?_
        rw [huv]
        exact List.mem_append_right u hc
      have hlast : ∀ d ∈ v.getLast?, isWord d = false := by
        intro d hd
        refine getLast?_lead hword f d ?_
        rw [huv, List.getLast?_append_of_ne_nil u hv]
        exact hd
      have hc := f.name_word c (by rw [hn]; exact List.mem_cons_self)
      rw [Field.member, hn]
      exact matchAt_noColon hword hcolon hv hlast hc

/-- The members that are found are the fields that are written, up to the last comma. -/
theorem memberList_fields (hword : WordClass isWord) (fields : List (Field isWord)) {tail : Str}
    (htail : ',' ∉ tail) :
    memberList isWord (fields.flatMap Field.text ++ tail)
      = fields.map fun f => (f.name, f.type) := by
  have hfound := congrArg (List.map fun groups => (groupText groups .name, groupText groups .type))
    (found_fields hword fields htail)
  rw [found, List.map_map, List.map_map] at hfound
  exact hfound

end

/-! ## Structs -/

section

/- The character class `\w`. -/
variable (isWord : Char → Bool)

/-- A struct: its attributes, with what stands in their brackets and the blanks behind, the
name, the type parameters, the fields, and what follows the last comma. -/
structure Item where
  attrs : List (Str × Str)
  afterPub : Str
  afterStruct : Str
  name : Str
  afterName : Str
  generics : Option Str
  afterGenerics : Str
  fields : List (Field isWord)
  tail : Str
  attrs_plain : ∀ a ∈ attrs, a.1 ≠ [] ∧ ']' ∉ a.1 ∧ ∀ c ∈ a.2, isSpace c = true
  afterPub_space : afterPub ≠ [] ∧ ∀ c ∈ afterPub, isSpace c = true
  afterStruct_space : afterStruct ≠ [] ∧ ∀ c ∈ afterStruct, isSpace c = true
  name_ne_nil : name ≠ []
  name_word : ∀ c ∈ name, isWord c = true
  afterName_space : ∀ c ∈ afterName, isSpace c = true
  generics_plain : ∀ g ∈ generics, g ≠ [] ∧ '>' ∉ g
  afterGenerics_space : ∀ c ∈ afterGenerics, isSpace c = true
  body_ne_nil : fields ≠ [] ∨ tail ≠ []
  tail_comma : ',' ∉ tail
  body_closed : '\x7d' ∉ fields.flatMap Field.text ++ tail

end

/-- An attribute as it is written. -/
def attrText (a : Str × Str) : Str := '#' :: '[' :: (a.1 ++ ']' :: a.2)

/-- No public struct starts in the text. -/
def NoStruct (s : Str) : Prop :=
  ∀ u v w, s = u ++ (lit "pub" rfl ++ (v ++ (lit "struct" rfl ++ w))) → v ≠ [] →
    ¬ ∀ c ∈ v, isSpace c = true

/-- Whole lines between two structs, with no public struct in them, and no attribute that
could belong to the next one. -/
structure Gap where
  text : Str
  whole_lines : ∀ c ∈ text.getLast?, c = '\n'
  no_struct : NoStruct text
  attrs_closed : ∀ u v, text = u ++ '#' :: '[' :: v → ']' ∈ v
  no_attr : (Text.rstrip text).getLast? ≠ some ']'

section

variable {isWord : Char → Bool}

/-- What stands between the braces. -/
def Item.body (i : Item isWord) : Str := i.fields.flatMap Field.text ++ i.tail

/-- From the name to the first brace. -/
def Item.afterHead (i : Item isWord) : Str :=
  match i.generics with
  | none => i.afterName ++ (i.afterGenerics ++ ['\x7b'])
  | some g => i.afterName ++ ('<' :: (g ++ '>' :: (i.afterGenerics ++ ['\x7b'])))

def Item.text (i : Item isWord) : Str :=
  (i.attrs.map attrText).flatten ++ (lit "pub" rfl ++ (i.afterPub ++ (lit "struct" rfl ++
    (i.afterStruct ++ (i.name ++ (i.afterHead ++ (i.body ++ ['\x7d'])))))))

/-- The groups of a struct. -/
def Item.groups (i : Item isWord) : List (Group × Str) :=
  (.members, i.body) ::
    ((i.generics.map fun g => (Group.trait, '<' :: (g ++ ['>']))).toList ++ [(.name, i.name)])

/-- The struct with its fields, in a file. -/
def Item.result (filename : Str) (i : Item isWord) : Result where
  name := i.name
  members := i.fields.map fun f => (f.name, f.type)
  file := filename

/-- A file: what stands in front of each struct, and the struct; then the rest. -/
def layoutText (items : List (Gap × Item isWord)) (rest : Str) : Str :=
  items.flatMap (fun e => e.1.text ++ e.2.text) ++ rest

/-- Behind white space, an attribute or a word comes first. -/
theorem head_text (i : Item isWord) (s : Str) :
    ∃ c t, i.text ++ s = c :: t ∧ (c = '#' ∨ c = 'p') := by
  rw [Item.text]
  cases i.attrs with
  | nil => exact ⟨'p', _, rfl, Or.inr rfl⟩
  | cons a attrs => exact ⟨'#', _, rfl, Or.inl rfl⟩

theorem run_attr {β : Type} {a : Str × Str}
    (ha : a.1 ≠ [] ∧ ']' ∉ a.1 ∧ ∀ c ∈ a.2, isSpace c = true) {s : Str}
    (hs : Ends id isSpace s) {k : State Group Char → Option β} {b : β}
    {groups : List (Group × Str)} (hk : k ⟨s, groups⟩ = some b) :
    run id attr k ⟨attrText a ++ s, groups⟩ = some b := by
  have htext : attrText a ++ s = ['#', '['] ++ (a.1 ++ ']' :: (a.2 ++ s)) := by
    simp [attrText]
  rw [htext]
  simp only [attr, seqs, List.foldr_cons, List.foldr_nil]
  rw [run_seq, run_literal_append (by rfl), run_seq]
  refine run_many1_exact ha.1 ?_ (ends_cons (by decide)) ?_
  · intro c hc
    have hne : c ≠ ']' := by
      rintro rfl
      exact ha.2.1 hc
    simpa using hne
  rw [run_seq]
  refine run_one ?_
  rw [run_seq]
  exact run_many_exact ha.2.2 hs hk

/-- No attribute starts at a letter. -/
theorem run_attr_none {β : Type} {s : Str} {k : State Group Char → Option β}
    {groups : List (Group × Str)} :
    run id attr k ⟨lit "pub" rfl ++ s, groups⟩ = none := by
  simp only [attr, seqs, List.foldr_cons, List.foldr_nil]
  rw [run_seq, run_literal, if_neg]
  intro h
  rw [List.map_id] at h
  exact absurd (List.cons_prefix_cons.1 h).1 (by decide)

/-- The class of words ends at white space and at a mark. -/
theorem ends_word (hword : WordClass isWord) {c : Char} (hc : isSpace c = true ∨ c ∈ marks)
    (s : Str) : Ends id isWord (c :: s) := by
  refine ends_cons ?_
  by_contra hnot
  rw [Bool.not_eq_false] at hnot
  rcases hc with hc | hc
  · rw [(hword c hnot).1] at hc
    cases hc
  · exact (hword c hnot).2 hc

/-- The group of the type parameters. -/
def Item.traitGroups (i : Item isWord) : List (Group × Str) :=
  (i.generics.map fun g => (Group.trait, '<' :: (g ++ ['>']))).toList

theorem run_trait {β : Type} {g s : Str} (hg : g ≠ [] ∧ '>' ∉ g) {k : State Group Char → Option β}
    {b : β} {groups : List (Group × Str)}
    (hk : k ⟨s, (.trait, '<' :: (g ++ ['>'])) :: groups⟩ = some b) :
    run id (.group .trait trait) k ⟨'<' :: (g ++ '>' :: s), groups⟩ = some b := by
  have htext : '<' :: (g ++ '>' :: s) = '<' :: (g ++ ['>']) ++ s := by simp
  rw [run]
  simp only [trait, seqs, List.foldr_cons, List.foldr_nil]
  rw [run_seq]
  refine run_one ?_
  rw [run_seq]
  refine run_many1_exact hg.1 ?_ (ends_cons (by decide)) ?_
  · intro c hc
    have hne : c ≠ '>' := by
      rintro rfl
      exact hg.2 hc
    simpa using hne
  rw [run_seq]
  refine run_one ?_
  rw [run]
  dsimp only
  rw [htext, List.length_append, Nat.add_sub_cancel, List.take_left]
  exact hk

/-- From the name to the brace, with type parameters or without. -/
theorem run_afterHead {β : Type} (i : Item isWord) {a : Pattern Group} {s : Str}
    {k : State Group Char → Option β} {b : β} {groups : List (Group × Str)}
    (hk : run id a k ⟨s, i.traitGroups ++ groups⟩ = some b) :
    run id (.seq (.many space) (.seq (opt (.group .trait trait)) (.seq (.many space)
      (.seq (one '\x7b') a)))) k ⟨i.afterHead ++ s, groups⟩ = some b := by
  have hopen : ∀ {gs : List (Group × Str)}, run id a k ⟨s, gs⟩ = some b →
      ∀ u : Str, (∀ c ∈ u, isSpace c = true) →
        run id (.seq (.many space) (.seq (one '\x7b') a)) k ⟨u ++ '\x7b' :: s, gs⟩ = some b := by
    intro gs hgs u hu
    rw [run_seq]
    refine run_many_exact hu (ends_cons (by decide)) ?_
    rw [run_seq]
    exact run_one hgs
  rw [Item.traitGroups] at hk
  rw [Item.afterHead, run_seq]
  cases hgen : i.generics with
  | none =>
    rw [hgen] at hk
    have htext : i.afterName ++ (i.afterGenerics ++ ['\x7b']) ++ s
        = (i.afterName ++ i.afterGenerics) ++ '\x7b' :: s := by simp
    dsimp only
    rw [htext]
    refine run_many_exact ?_ (ends_cons (by decide)) ?_
    · intro c hc
      rcases List.mem_append.1 hc with hc | hc
      · exact i.afterName_space c hc
      · exact i.afterGenerics_space c hc
    · -- no type parameter starts at the brace
      have hnone : ∀ k' : State Group Char → Option β,
          run id (.group .trait trait) k' ⟨'\x7b' :: s, groups⟩ = none := fun _ => rfl
      rw [run_seq, opt, run, hnone, Option.orElse_none]
      exact hopen hk [] (by simp)
  | some g =>
    rw [hgen] at hk
    have htext : i.afterName ++ ('<' :: (g ++ '>' :: (i.afterGenerics ++ ['\x7b']))) ++ s
        = i.afterName ++ '<' :: (g ++ '>' :: (i.afterGenerics ++ '\x7b' :: s)) := by simp
    dsimp only
    rw [htext]
    have hg : g ≠ [] ∧ '>' ∉ g := i.generics_plain g (by rw [hgen]; rfl)
    have hk' : run id a k ⟨s, (.trait, '<' :: (g ++ ['>'])) :: groups⟩ = some b := hk
    refine run_many_exact i.afterName_space (ends_cons (by decide)) ?_
    rw [run_seq, opt, run, run_trait hg (hopen hk' i.afterGenerics i.afterGenerics_space)]
    rfl

/-- The struct at the head of a text. -/
theorem matchAt_item (hword : WordClass isWord) (i : Item isWord) (s : Str) :
    matchAt id (structPattern isWord false) (i.text ++ s) = some ⟨s, i.groups⟩ := by
  have htext : i.text ++ s = (i.attrs.map attrText).flatten ++ (lit "pub" rfl ++ (i.afterPub ++
      (lit "struct" rfl ++ (i.afterStruct ++ (i.name ++ (i.afterHead ++
        (i.body ++ '\x7d' :: s))))))) := by
    simp [Item.text]
  have hpub : ∀ t, Ends id isSpace (lit "pub" rfl ++ t) := fun t => ends_cons (by decide)
  have hbody : i.body ≠ [] := by
    intro h
    obtain ⟨hfields, htail⟩ := List.append_eq_nil_iff.1 h
    rcases i.body_ne_nil with hne | hne
    · obtain ⟨f, fields, heq⟩ := List.exists_cons_of_ne_nil hne
      rw [heq] at hfields
      simp [Field.text, Field.lead] at hfields
    · exact hne htail
  rw [htext, structPattern, if_neg (by decide), matchAt]
  simp only [publicStruct, seqs, List.foldr_cons, List.foldr_nil]
  rw [run_seq]
  refine run_many_pieces ?_ (hpub _) (fun k' => run_attr_none) _ fun p hp => ?_
  swap
  · obtain ⟨a, ha, rfl⟩ := List.mem_map.1 hp
    refine ⟨List.cons_ne_nil _ _, fun t ht => ⟨ends_cons (by decide), fun k' hk' => ?_⟩⟩
    exact run_attr (i.attrs_plain a ha) ht hk'
  rw [run_seq, run_literal_append (by rfl), run_seq]
  refine run_many1_exact i.afterPub_space.1 i.afterPub_space.2 (ends_cons (by decide)) ?_
  rw [run_seq, run_literal_append (by rfl), run_seq]
  refine run_many1_exact i.afterStruct_space.1 i.afterStruct_space.2 ?_ ?_
  · obtain ⟨c, n, hn⟩ := List.exists_cons_of_ne_nil i.name_ne_nil
    rw [hn]
    exact ends_cons (hword c (i.name_word c (by rw [hn]; exact List.mem_cons_self))).1
  rw [run_seq]
  refine run_group_exact i.name_ne_nil i.name_word ?_ ?_
  · rw [Item.afterHead]
    cases hgen : i.generics with
    | none =>
      dsimp only
      cases hafter : i.afterName with
      | nil =>
        cases hafter' : i.afterGenerics with
        | nil => exact ends_word hword (Or.inr (by decide)) _
        | cons c t =>
          refine ends_word hword (Or.inl (i.afterGenerics_space c ?_)) _
          rw [hafter']
          exact List.mem_cons_self
      | cons c t =>
        refine ends_word hword (Or.inl (i.afterName_space c ?_)) _
        rw [hafter]
        exact List.mem_cons_self
    | some g =>
      dsimp only
      cases hafter : i.afterName with
      | nil => exact ends_word hword (Or.inr (by decide)) _
      | cons c t =>
        refine ends_word hword (Or.inl (i.afterName_space c ?_)) _
        rw [hafter]
        exact List.mem_cons_self
  refine run_afterHead i ?_
  rw [run_seq]
  refine run_group_exact hbody ?_ (ends_cons (by decide)) ?_
  · intro c hc
    have hne : c ≠ '\x7d' := by
      rintro rfl
      exact i.body_closed hc
    simpa using hne
  rw [run_seq]
  exact run_one rfl

/-! ## Between the structs -/

/-- What the pattern takes first: attributes, then the two words. -/
theorem lang_publicStruct {s : Str} (h : Lang id (publicStruct isWord) s) :
    ∃ (pieces : List Str) (v w : Str),
      s = pieces.flatten ++ (lit "pub" rfl ++ (v ++ (lit "struct" rfl ++ w))) ∧
      (∀ p ∈ pieces, Lang id attr p) ∧ v ≠ [] ∧ ∀ c ∈ v, isSpace c = true := by
  obtain ⟨attrs, r, rfl, ⟨pieces, rfl, hpieces⟩, p, r', rfl, hp, v, r'', rfl, hv, t, w, rfl, ht,
    -⟩ := h
  rw [lang_literal, List.map_id] at hp ht
  have hblank := lang_many1_char.1 hv
  exact ⟨pieces, v, w, by rw [hp, ht], hpieces, hblank.1, hblank.2⟩

/-- What an attribute is. -/
theorem lang_attr {s : Str} (h : Lang id attr s) :
    ∃ b v, s = '#' :: '[' :: (b ++ ']' :: v) ∧ ']' ∉ b ∧ ∀ c ∈ v, isSpace c = true := by
  obtain ⟨p, r, rfl, hp, b, r', rfl, hb, bracket, v, rfl, ⟨d, rfl, hd⟩, v', e, rfl, hv, he⟩ := h
  obtain rfl : e = [] := he
  obtain rfl : d = ']' := by simpa using hd
  rw [lang_literal, List.map_id] at hp
  refine ⟨b, v', by rw [hp]; simp, fun hc => ?_, lang_many_char.1 hv⟩
  have hne := (lang_many1_char.1 hb).2 _ hc
  simp at hne

/-- Text that follows a gap: a struct, or nothing. -/
def Behind (s : Str) : Prop := ∀ c t, s = c :: t → c = '#' ∨ c = 'p'

theorem not_space_of_behind {s t : Str} {c : Char} (h : Behind s) (hs : s = c :: t) :
    isSpace c = false ∧ c ≠ 's' := by
  rcases h c t hs with rfl | rfl
  · decide
  · decide

theorem Gap.last_newline (g : Gap) {u v : Str} (huv : g.text = u ++ v) (hv : v ≠ []) :
    ∃ w, v = w ++ ['\n'] := by
  refine ⟨v.dropLast, ?_⟩
  have hlast : v.getLast hv = '\n' := by
    refine g.whole_lines _ ?_
    rw [huv, List.getLast?_append_of_ne_nil u hv]
    exact List.getLast?_eq_some_getLast hv
  rw [← hlast, List.dropLast_concat_getLast]

/-- The words of a struct do not start in a gap. -/
theorem no_words (g : Gap) {s : Str} (hs : Behind s) {u v : Str} (huv : g.text = u ++ v)
    (hv : v ≠ []) {sp r : Str} (hne : sp ≠ []) (hsp : ∀ c ∈ sp, isSpace c = true)
    (heq : v ++ s = (lit "pub" rfl ++ sp) ++ (lit "struct" rfl ++ r)) : False := by
  obtain ⟨w, hw⟩ := g.last_newline huv hv
  rcases List.append_eq_append_iff.1 heq with ⟨a, ha, hsa⟩ | ⟨a, hva, ha⟩
  · -- the blanks reach beyond the gap
    cases a with
    | nil =>
      rw [List.nil_append] at hsa
      exact (not_space_of_behind hs hsa).2 rfl
    | cons c a =>
      have hc := (not_space_of_behind hs hsa).1
      rcases List.append_eq_append_iff.1 ha with ⟨b, -, hb⟩ | ⟨b, hpub, -⟩
      · rw [hsp c (by rw [hb]; simp)] at hc
        cases hc
      · have hmem : '\n' ∈ lit "pub" rfl := by
          rw [hpub, hw]
          simp
        exact absurd hmem (by decide)
  · rcases List.append_eq_append_iff.1 ha with ⟨b, hab, -⟩ | ⟨b, hab, hb⟩
    · refine g.no_struct u sp b ?_ hne hsp
      rw [huv, hva, hab]
      simp
    · cases a with
      | nil =>
        rw [List.nil_append] at hab
        rw [← hab] at hb
        exact (not_space_of_behind hs hb).2 rfl
      | cons c a =>
        have hmem : '\n' ∈ lit "struct" rfl := by
          rw [hab]
          refine List.mem_append_left b ?_
          have hlast := congrArg List.getLast? hva
          rw [hw, List.getLast?_concat, List.getLast?_append_of_ne_nil _ (List.cons_ne_nil c a)]
            at hlast
          exact List.mem_of_getLast? hlast.symm
        exact absurd hmem (by decide)

/-- Blanks do not fill a gap behind an attribute. -/
theorem Gap.solid_behind (g : Gap) {u v : Str} (huv : g.text = u ++ ']' :: v) :
    ¬ ∀ c ∈ v, isSpace c = true := by
  intro hv
  refine g.no_attr ?_
  have hnil : Text.rstrip v = [] := by
    rw [Text.rstrip, List.rdropWhile_eq_nil_iff]
    exact hv
  rw [huv, Text.rstrip_append_solid u v (by decide), hnil, List.getLast?_concat]

/-- No struct starts in a gap, not with an attribute either. -/
theorem no_head (g : Gap) {s : Str} (hs : Behind s) {pieces : List Str}
    (hpieces : ∀ p ∈ pieces, Lang id attr p) {u v : Str} (huv : g.text = u ++ v) (hv : v ≠ [])
    {sp r : Str} (hne : sp ≠ []) (hsp : ∀ c ∈ sp, isSpace c = true)
    (heq : v ++ s = pieces.flatten ++ (lit "pub" rfl ++ (sp ++ (lit "struct" rfl ++ r)))) :
    False := by
  induction pieces generalizing u v with
  | nil =>
    refine no_words g hs huv hv (r := r) hne hsp ?_
    rw [List.append_assoc]
    exact heq
  | cons p pieces ih =>
    obtain ⟨b, bl, rfl, hb, hbl⟩ := lang_attr (hpieces p List.mem_cons_self)
    obtain ⟨w, hw⟩ := g.last_newline huv hv
    rw [List.flatten_cons, List.append_assoc] at heq
    generalize hrest : pieces.flatten ++ (lit "pub" rfl ++ (sp ++ (lit "struct" rfl ++ r))) = rest
      at heq
    -- the bracket of the attribute is closed in the gap
    obtain ⟨v₂, rfl⟩ : ∃ v₂, v = '#' :: '[' :: v₂ := by
      cases v with
      | nil => exact absurd rfl hv
      | cons c v =>
        rw [List.cons_append, List.cons_append, List.cons.injEq] at heq
        obtain ⟨rfl, heq⟩ := heq
        cases v with
        | nil =>
          have hlast := congrArg List.getLast? hw
          rw [List.getLast?_concat] at hlast
          exact absurd hlast (by decide)
        | cons d v =>
          rw [List.cons_append, List.cons_append, List.cons.injEq] at heq
          exact ⟨v, by rw [heq.1]⟩
    have hclosed := g.attrs_closed u v₂ huv
    simp only [List.cons_append, List.append_assoc, List.cons.injEq, true_and] at heq
    rcases List.append_eq_append_iff.1 heq with ⟨a, hba, -⟩ | ⟨a, hva, ha⟩
    · refine hb ?_
      rw [hba]
      exact List.mem_append_left a hclosed
    · cases a with
      | nil =>
        rw [List.append_nil] at hva
        exact hb (hva ▸ hclosed)
      | cons c a =>
        rw [List.cons_append, List.cons.injEq] at ha
        obtain ⟨rfl, ha⟩ := ha
        have hgap : g.text = (u ++ '#' :: '[' :: b) ++ ']' :: a := by
          rw [huv, hva]
          simp
        have hsolid := g.solid_behind hgap
        rcases List.append_eq_append_iff.1 ha with ⟨d, had, hrest'⟩ | ⟨d, hbl', -⟩
        · cases d with
          | nil =>
            rw [List.append_nil] at had
            rw [had] at hsolid
            exact hsolid hbl
          | cons e d =>
            refine ih (fun q hq => hpieces q (List.mem_cons_of_mem _ hq))
              (u := (u ++ '#' :: '[' :: b) ++ ']' :: bl) (v := e :: d) ?_
              (List.cons_ne_nil e d) ?_
            · rw [hgap, had]
              simp
            · rw [← hrest', hrest]
        · refine hsolid fun c hc => hbl c ?_
          rw [hbl']
          exact List.mem_append_left d hc

/-- Nothing is found in a gap. -/
theorem matchAt_gap (g : Gap) {s : Str} (hs : Behind s) {u v : Str} (huv : g.text = u ++ v)
    (hv : v ≠ []) : matchAt id (structPattern isWord false) (v ++ s) = none := by
  rw [Option.eq_none_iff_forall_ne_some]
  intro o ho
  obtain ⟨used, hused, hlang⟩ := lang_of_parses (parses_of_matchAt ho)
  obtain ⟨pieces, sp, w, rfl, hpieces, hne, hsp⟩ := lang_publicStruct hlang
  dsimp only at hused
  refine no_head g hs hpieces huv hv hne hsp (r := w ++ o.rest) ?_
  rw [hused]
  simp

/-- Nothing is found in a text where no struct starts. -/
theorem matchAt_noStruct {s u v : Str} (hs : NoStruct s) (huv : s = u ++ v) :
    matchAt id (structPattern isWord false) v = none := by
  rw [Option.eq_none_iff_forall_ne_some]
  intro o ho
  obtain ⟨used, hused, hlang⟩ := lang_of_parses (parses_of_matchAt ho)
  obtain ⟨pieces, sp, w, rfl, -, hne, hsp⟩ := lang_publicStruct hlang
  dsimp only at hused
  refine hs (u ++ pieces.flatten) sp (w ++ o.rest) ?_ hne hsp
  rw [huv, hused]
  simp

/-! ## The structs of a file -/

theorem found_layout (hword : WordClass isWord) (items : List (Gap × Item isWord)) {rest : Str}
    (hrest : NoStruct rest) :
    found id (structPattern isWord false) (layoutText items rest)
      = items.map fun e => e.2.groups := by
  induction items with
  | nil =>
    have hquiet : found id (structPattern isWord false) (rest ++ [])
        = found id (structPattern isWord false) [] := by
      refine found_quiet fun u v huv _ => ?_
      rw [List.append_nil]
      exact matchAt_noStruct hrest huv
    rw [List.append_nil] at hquiet
    exact hquiet
  | cons e items ih =>
    have hsplit : layoutText (e :: items) rest
        = e.1.text ++ (e.2.text ++ layoutText items rest) := by
      simp [layoutText]
    have hbehind : Behind (e.2.text ++ layoutText items rest) := by
      obtain ⟨c, t, ht, hc⟩ := head_text e.2 (layoutText items rest)
      intro d t' ht'
      rw [ht, List.cons.injEq] at ht'
      rw [← ht'.1]
      exact hc
    have htext : e.2.text ≠ [] := by
      obtain ⟨c, t, ht, -⟩ := head_text e.2 []
      rw [List.append_nil] at ht
      rw [ht]
      exact List.cons_ne_nil c t
    rw [hsplit, found_quiet fun u v huv hv => matchAt_gap e.1 hbehind huv hv,
      found_append htext (matchAt_item hword e.2 _), ih]
    rfl

theorem result_groups (hword : WordClass isWord) (filename : Str) (i : Item isWord) :
    result isWord filename i.groups = i.result filename := by
  have hname : groupText i.groups .name = i.name := by
    rw [Item.groups]
    cases i.generics with
    | none => rfl
    | some g => rfl
  have hmembers : groupText i.groups .members = i.body := rfl
  rw [result, hname, hmembers, Item.body, memberList_fields hword i.fields i.tail_comma]
  rfl

/-- The structs that are found in a file, whose comments may stand anywhere, are those that
are written, in their order and with their fields; what follows the last comma of a struct
is missed. -/
theorem findStruct_layout (hword : WordClass isWord) {items : List (Gap × Item isWord)}
    {rest : Str} (hrest : NoStruct rest) {text : Str} (htext : cleaned text = layoutText items rest)
    (filename : Str) :
    findStruct isWord false filename text = items.map fun e => e.2.result filename := by
  have hfound := congrArg (List.map (result isWord filename)) (found_layout hword items hrest)
  rw [found, List.map_map, List.map_map, ← htext] at hfound
  refine hfound.trans (List.map_congr_left fun e _ => ?_)
  exact result_groups hword filename e.2

end

/-! ## A struct whose last field ends without a comma -/

theorem noStruct_of_absent {s : Str} (h : ¬ lit "struct" rfl <:+: s) : NoStruct s := by
  rintro u v w rfl - -
  refine h ⟨u ++ (lit "pub" rfl ++ v), w, by simp⟩

def owner : Field Text.isAsciiWord where
  line := []
  indent := lit "    \n    pub " rfl
  name := lit "owner" rfl
  before := []
  behind := [' ']
  type := lit "AccountId" rfl
  line_plain := by simp
  indent_colon := by decide +kernel
  indent_comma := by decide +kernel
  indent_word := by
    rintro c ⟨rfl⟩
    decide +kernel
  name_ne_nil := by decide +kernel
  name_word := List.all_eq_true.1 (by decide +kernel)
  before_space := by simp
  behind_space := List.all_eq_true.1 (by decide +kernel)
  type_ne_nil := by decide +kernel
  type_solid := by
    rintro c ⟨rfl⟩
    decide +kernel
  type_line := by decide +kernel

def pool : Item Text.isAsciiWord where
  attrs := [(lit "derive(Clone)" rfl, ['\n'])]
  afterPub := [' ']
  afterStruct := [' ']
  name := lit "Pool" rfl
  afterName := [' ']
  generics := none
  afterGenerics := []
  fields := [owner]
  tail := lit "\n    last: u8\n" rfl
  attrs_plain := by
    intro a ha
    obtain rfl := List.mem_singleton.1 ha
    exact ⟨by decide, by decide +kernel, List.all_eq_true.1 (by decide +kernel)⟩
  afterPub_space := ⟨by decide, List.all_eq_true.1 (by decide +kernel)⟩
  afterStruct_space := ⟨by decide, List.all_eq_true.1 (by decide +kernel)⟩
  name_ne_nil := by decide +kernel
  name_word := List.all_eq_true.1 (by decide +kernel)
  afterName_space := List.all_eq_true.1 (by decide +kernel)
  generics_plain := by simp
  afterGenerics_space := by simp
  body_ne_nil := Or.inr (by decide +kernel)
  tail_comma := by decide +kernel
  body_closed := by decide +kernel

def imports : Gap where
  text := lit "use near_sdk::near_bindgen;\n\n" rfl
  whole_lines := by
    rintro c ⟨rfl⟩
    rfl
  no_struct := noStruct_of_absent (by decide +kernel)
  attrs_closed := by
    intro u v h
    have hmem : '#' ∈ lit "use near_sdk::near_bindgen;\n\n" rfl := by
      rw [h]
      simp
    exact absurd hmem (by decide +kernel)
  no_attr := by decide +kernel

/-- The file, with a comment. -/
def poolText : Str := lit "use near_sdk::near_bindgen;\n\n#[derive(Clone)]\npub struct Pool \x7b
    // the owner\n    pub owner: AccountId,\n    last: u8\n\x7d\n" rfl

theorem findStruct_layout_pool :
    findStruct Text.isAsciiWord false (lit "src/lib.rs" rfl) poolText
      = [⟨lit "Pool" rfl, [(lit "owner" rfl, lit "AccountId" rfl)], lit "src/lib.rs" rfl⟩] :=
  @findStruct_layout Text.isAsciiWord wordClass_ascii [(imports, pool)] ['\n']
    (noStruct_of_absent (by decide +kernel)) poolText (by decide +kernel) (lit "src/lib.rs" rfl)

end FindStruct
