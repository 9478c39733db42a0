import Rustle.Source.FindFunc

/-!
# What is left of a file for `findFunc`

Three replacements take comments, an attribute and the test modules out of the text.

* `IsComment`, `IsAllow`, `IsTestModule` — the texts of the three patterns.
* `mem_prepare_iff` — the characters that are left: those that lie in none of them.
* `prepare_faithful_iff` — when these are the characters of the code.
-/

namespace FindFunc

open Backtrack Pattern
open Text (lit isSpace)

/-! ## The texts that are taken out -/

/-- Blanks, two slashes, a character at least, and the newline. -/
def IsComment (w : Str) : Prop :=
  ∃ blanks rest, w = blanks ++ ('/' :: '/' :: (rest ++ ['\n'])) ∧ blanks ≠ [] ∧
    (∀ c ∈ blanks, c = ' ') ∧ rest ≠ [] ∧ '\n' ∉ rest

def IsAllow (w : Str) : Prop := w = lit "#[allow(unused)]" rfl

/-- The header of a test module, up to the brace that opens it. -/
def IsTestHeader (isWord : Char → Bool) (h : Str) : Prop :=
  ∃ newlines blanks name blanks',
    h = lit "#[cfg(test)]" rfl ++ (newlines ++ (lit "mod" rfl ++ (blanks ++ (name ++
      (blanks' ++ ['{']))))) ∧
    (newlines ≠ [] ∧ ∀ c ∈ newlines, c = '\n') ∧ (blanks ≠ [] ∧ ∀ c ∈ blanks, isSpace c = true) ∧
    (name ≠ [] ∧ ∀ c ∈ name, isWord c = true) ∧ ∀ c ∈ blanks', isSpace c = true

/-- A header, a character at least, and a closing brace at the start of a line,
whichever it closes. -/
def IsTestModule (isWord : Char → Bool) (w : Str) : Prop :=
  ∃ header body, w = header ++ (body ++ ['\n', '}']) ∧ IsTestHeader isWord header ∧ body ≠ []

theorem lang_noneOf {cs s : Str} :
    Lang id (many1 (noneOf cs)) s ↔ s ≠ [] ∧ ∀ c ∈ s, c ∉ cs := by
  rw [noneOf, lang_many1_char]
  simp

theorem lang_many1_one {c : Char} {s : Str} :
    Lang id (many1 (one c)) s ↔ s ≠ [] ∧ ∀ d ∈ s, d = c := by
  rw [one, lang_many1_char]
  simp

theorem lang_one {c : Char} {s : Str} : Lang id (one c) s ↔ s = [c] := by
  rw [one, lang_char]
  simp

theorem lang_trailingComment {w : Str} : Lang id trailingComment w ↔ IsComment w := by
  simp only [trailingComment, seqs, List.foldr_cons, List.foldr_nil, lang_seq, lang_empty,
    lang_many1_one, lang_literal, lang_noneOf, lang_one, List.map_id, IsComment]
  constructor
  · rintro ⟨blanks, v, rfl, ⟨hne, hblanks⟩, slashes, v', rfl, rfl, rest, v'', rfl, ⟨hrest, hnone⟩,
      nl, v3, rfl, rfl, rfl⟩
    exact ⟨blanks, rest, by simp, hne, hblanks, hrest, fun h => hnone _ h (by simp)⟩
  · rintro ⟨blanks, rest, rfl, hne, hblanks, hrest, hnone⟩
    refine ⟨blanks, _, rfl, ⟨hne, hblanks⟩, ['/', '/'], _, rfl, rfl, rest, _, rfl, ⟨hrest, ?_⟩,
      ['\n'], [], rfl, rfl, rfl⟩
    intro c hc hmem
    rw [List.mem_singleton.1 hmem] at hc
    exact hnone hc

theorem lang_testModule {isWord : Char → Bool} {w : Str} :
    Lang id (testModule isWord) w ↔ IsTestModule isWord w := by
  have hany : ∀ s : Str, Lang id (many1 (.char fun c => c != '\n' || isSpace c) :
      Pattern Group) s ↔ s ≠ [] := by
    intro s
    rw [lang_many1_char]
    refine and_iff_left_of_imp fun _ c _ => ?_
    by_cases hc : c = '\n'
    · rw [hc]
      decide
    · simp [hc]
  simp only [testModule, space, word, seqs, List.foldr_cons, List.foldr_nil, lang_seq, lang_empty,
    lang_many1_one, lang_literal, lang_many1_char, lang_many_char, lang_one, hany, List.map_id,
    id_eq, IsTestModule, IsTestHeader]
  constructor
  · rintro ⟨cfg, v, rfl, rfl, newlines, v', rfl, hnl, m, v'', rfl, rfl, blanks, v3, rfl, hb, name,
      v4, rfl, hname, blanks', v5, rfl, hb', brace, v6, rfl, rfl, body, v7, rfl, hbody, last, v8,
      rfl, rfl, rfl⟩
    exact ⟨_, body, by simp, ⟨newlines, blanks, name, blanks', rfl, hnl, hb, hname, hb'⟩, hbody⟩
  · rintro ⟨header, body, rfl, ⟨newlines, blanks, name, blanks', rfl, hnl, hb, hname, hb'⟩, hbody⟩
    refine ⟨_, newlines ++ (lit "mod" rfl ++ (blanks ++ (name ++ (blanks' ++ ('{' :: (body ++
      ['\n', '}'])))))), by simp, rfl, newlines, _, rfl, hnl, _, _, rfl, rfl, blanks, _, rfl, hb,
      name, _, rfl, hname, blanks', _, rfl, hb', ['{'], body ++ ['\n', '}'], rfl, rfl, body, _, rfl,
      hbody, ['\n', '}'], [], rfl, rfl, rfl⟩

/-! ## What a replacement leaves -/

theorem textAt_spec' {a : Pattern Group} (hleast : 0 < a.least) :
    ∀ (s m : List Cell), textAt Prod.fst a s = some m → m ≠ [] ∧ m <+: s := by
  intro s m hm
  obtain ⟨o, -, hs, hlen, -⟩ := textAt_spec hm
  exact ⟨List.ne_nil_of_length_pos (by omega), o.rest, hs.symm⟩

theorem sub_sublist {a : Pattern Group} (hleast : 0 < a.least) {f : List Cell → List Cell}
    (hf : ∀ m, (f m).Sublist m) (s : List Cell) : (Backtrack.sub Prod.fst a f s).Sublist s :=
  Scan.sub_sublist (textAt_spec' hleast) hf s

/-- What is left when the matches are dropped. -/
theorem mem_sub_nil_iff {a : Pattern Group} (hleast : 0 < a.least) {s : List Cell} {x : Cell} :
    x ∈ Backtrack.sub Prod.fst a (fun _ => []) s ↔
      ∃ j, s[j]? = some x ∧ ¬ ∃ b ∈ Scan.finditer (textAt Prod.fst a) s, b.Holds j := by
  rw [Backtrack.sub, Scan.mem_sub_iff fun s m hm => (textAt_spec' hleast s m hm).1]
  simp

/-- The newline of a comment is the only one in it. -/
theorem newline_of_isComment {w u v : Str} (h : IsComment w) (hw : w = u ++ '\n' :: v) :
    v = [] := by
  obtain ⟨blanks, rest, rfl, -, hblanks, -, hrest⟩ := h
  have hnone : '\n' ∉ blanks ++ ('/' :: '/' :: rest) := by
    intro hmem
    rcases List.mem_append.1 hmem with hmem | hmem
    · exact absurd (hblanks _ hmem) (by decide)
    · simp only [List.mem_cons] at hmem
      rcases hmem with hmem | hmem | hmem
      · exact absurd hmem (by decide)
      · exact absurd hmem (by decide)
      · exact hrest hmem
  have hsplit : (blanks ++ ('/' :: '/' :: rest)) ++ ['\n'] = u ++ '\n' :: v := by
    rw [← hw]
    simp
  rcases List.append_eq_append_iff.1 hsplit with ⟨x, -, hx⟩ | ⟨x, hx, hx'⟩
  · cases x with
    | nil =>
      rw [List.nil_append, List.cons.injEq] at hx
      exact hx.2.symm
    | cons d x => simp at hx
  · cases x with
    | nil =>
      rw [List.nil_append, List.cons.injEq] at hx'
      exact hx'.2
    | cons d x =>
      rw [List.cons_append, List.cons.injEq] at hx'
      rw [hx, ← hx'.1] at hnone
      simp at hnone

/-- A comment that starts inside of another one ends with it. -/
theorem comment_nest {s w w' : Str} {p q : Nat} (hw : w <+: s.drop p) (hw' : w' <+: s.drop q)
    (h : IsComment w) (h' : IsComment w') (hpq : p ≤ q) (hq : q < p + w.length) :
    q + w'.length ≤ p + w.length := by
  by_contra hlt
  -- the newline of the outer one would stand before that of the inner one
  obtain ⟨t, ht⟩ := hw
  obtain ⟨t', ht'⟩ := hw'
  obtain ⟨u, hu⟩ : ∃ u, w = u ++ ['\n'] := by
    obtain ⟨blanks, rest, rfl, -⟩ := h
    exact ⟨blanks ++ ('/' :: '/' :: rest), by simp⟩
  have hdrop : s.drop q = (w ++ t).drop (q - p) := by
    rw [ht, List.drop_drop]
    congr 1
    omega
  have hlen : w.length = u.length + 1 := by rw [hu]; simp
  have hshort : (q - p) ≤ u.length := by omega
  have hsplit : w' ++ t' = u.drop (q - p) ++ '\n' :: t := by
    rw [ht', hdrop, hu, List.append_assoc, List.drop_append_of_le_length hshort]
    rfl
  have hwlen : (u.drop (q - p)).length + 1 < w'.length := by
    rw [List.length_drop]
    omega
  obtain ⟨v, hv⟩ : ∃ v, w' = u.drop (q - p) ++ '\n' :: v := by
    rcases List.append_eq_append_iff.1 hsplit with ⟨x, hx, -⟩ | ⟨x, hx, hx'⟩
    · rw [hx, List.length_append] at hwlen
      omega
    · cases x with
      | nil =>
        rw [hx, List.append_nil] at hwlen
        omega
      | cons d x =>
        rw [List.cons_append, List.cons.injEq] at hx'
        exact ⟨x, by rw [hx, ← hx'.1]⟩
  have hnil := newline_of_isComment h' hv
  rw [hv, hnil, List.length_append] at hwlen
  simp at hwlen

/-- A position lies in a comment, in front of its newline. -/
def InComment (s : Str) (j : Nat) : Prop :=
  ∃ p w, w <+: s.drop p ∧ IsComment w ∧ p ≤ j ∧ j + 1 < p + w.length

theorem found_isComment {s : List Cell} {b : Scan.Found Cell}
    (hb : b ∈ Scan.finditer (textAt Prod.fst trailingComment) s) :
    IsComment (chars b.text) ∧ chars b.text <+: (chars s).drop b.start := by
  obtain ⟨hlang, hpre⟩ := found_text hb
  exact ⟨lang_trailingComment.1 hlang, hpre⟩

theorem found_nest {s : List Cell} {b : Scan.Found Cell}
    (hb : b ∈ Scan.finditer (textAt Prod.fst trailingComment) s) {p : Nat} {w : Str}
    (hpre : w <+: (chars s).drop p) (hw : IsComment w) (hstart : b.start ≤ p)
    (hstop : p < b.stop) : p + w.length ≤ b.stop := by
  obtain ⟨hcomment, hbpre⟩ := found_isComment hb
  have hlen : (chars b.text).length = b.text.length := List.length_map _
  have h := comment_nest hbpre hpre hcomment hw hstart (by rw [hlen]; exact hstop)
  rwa [hlen] at h

/-- A comment lies in one that is found. -/
theorem exists_found_comment {s : List Cell} {p : Nat} {w : Str}
    (hpre : w <+: (chars s).drop p) (hw : IsComment w) :
    ∃ b ∈ Scan.finditer (textAt Prod.fst trailingComment) s,
      b.start ≤ p ∧ p < b.stop ∧ p + w.length ≤ b.stop := by
  have hpos : 0 < w.length := by
    obtain ⟨blanks, rest, rfl, -⟩ := hw
    simp
  obtain ⟨b, hb, hstart, hstop⟩ := (holds_iff_within (by decide) (by decide)
    (fun b hb p w hp hlang => found_nest hb hp (lang_trailingComment.1 hlang)) p).2
    ⟨p, w, hpre, lang_trailingComment.2 hw, le_refl p, by omega⟩
  exact ⟨b, hb, hstart, hstop, found_nest hb hpre hw hstart hstop⟩

/-- The last character of a match stands in front of its end. -/
theorem getElem?_of_getLast {s : List Cell} {b : Scan.Found Cell} {x : Cell}
    (hpre : b.text <+: s.drop b.start) (hlast : b.text.getLast? = some x) :
    s[b.stop - 1]? = some x := by
  obtain ⟨u, hu⟩ := List.getLast?_eq_some_iff.1 hlast
  obtain ⟨t, ht⟩ := hpre
  have hget : (s.drop b.start)[u.length]? = some x := by
    rw [← ht, hu, List.append_assoc, List.getElem?_append_right (le_refl _)]
    simp
  rw [List.getElem?_drop] at hget
  rw [Scan.Found.stop, hu, List.length_append, List.length_singleton]
  exact hget

/-- The first replacement leaves what lies in no comment. -/
theorem mem_cutComments_iff {s : List Cell} {x : Cell} :
    x ∈ cutComments s ↔ ∃ j, s[j]? = some x ∧ ¬ InComment (chars s) j := by
  rw [cutComments, Backtrack.sub,
    Scan.mem_sub_iff fun s m hm => (textAt_spec' (by decide) s m hm).1]
  constructor
  · rintro (⟨j, hj, hnot⟩ | ⟨b, hb, hx⟩)
    · refine ⟨j, hj, ?_⟩
      rintro ⟨p, w, hpre, hw, hp, hlt⟩
      obtain ⟨b, hb, hstart, hstop, hend⟩ := exists_found_comment hpre hw
      exact hnot b hb ⟨by omega, by omega⟩
    · have hx : b.text.getLast? = some x := by simpa using hx
      refine ⟨_, getElem?_of_getLast (lang_of_textAt (Scan.mem_finditer hb).2).2 hx, ?_⟩
      rintro ⟨p, w, hpre, hw, hp, hlt⟩
      have hne : b.text ≠ [] := by
        intro h
        rw [h] at hx
        cases hx
      have hpos : b.start < b.stop := by
        have := List.length_pos_of_ne_nil hne
        rw [Scan.Found.stop]
        omega
      obtain ⟨b', hb', hstart, hstop, hend⟩ := exists_found_comment hpre hw
      rcases Scan.finditer_disjoint hb hb' with rfl | h | h
      · omega
      · omega
      · omega
  · rintro ⟨j, hj, hnot⟩
    by_cases hheld : ∃ b ∈ Scan.finditer (textAt Prod.fst trailingComment) s, b.Holds j
    · obtain ⟨b, hb, hstart, hstop⟩ := hheld
      obtain ⟨hcomment, hpre⟩ := found_isComment hb
      have hlen : (chars b.text).length = b.text.length := List.length_map _
      have hend : j = b.stop - 1 := by
        by_contra hne
        refine hnot ⟨b.start, _, hpre, hcomment, hstart, ?_⟩
        rw [hlen]
        rw [Scan.Found.stop] at hstop hne
        omega
      obtain ⟨y, hy⟩ : ∃ y, b.text.getLast? = some y := by
        rw [← Option.isSome_iff_exists, List.getLast?_isSome]
        intro h
        rw [Scan.Found.stop, h, List.length_nil] at hstop
        omega
      have hget := getElem?_of_getLast (lang_of_textAt (Scan.mem_finditer hb).2).2 hy
      rw [← hend, hj, Option.some.injEq] at hget
      exact Or.inr ⟨b, hb, by rw [hy, hget]; simp⟩
    · exact Or.inl ⟨j, hj, fun b hb hholds => hheld ⟨b, hb, hholds⟩⟩

/-- No occurrence of the attribute starts inside of another one. -/
theorem allow_nest {s w w' : Str} {p q : Nat} (hw : w <+: s.drop p) (hw' : w' <+: s.drop q)
    (h : IsAllow w) (h' : IsAllow w') (hpq : p ≤ q) (hq : q < p + w.length) :
    q + w'.length ≤ p + w.length := by
  obtain rfl : w = lit "#[allow(unused)]" rfl := h
  obtain rfl : w' = lit "#[allow(unused)]" rfl := h'
  have hhead : ∀ i < 16, 0 < i → (lit "#[allow(unused)]" rfl)[i]? ≠ some '#' := by
    decide +kernel
  obtain ⟨t, ht⟩ := hw
  obtain ⟨t', ht'⟩ := hw'
  have hget : s[q]? = some '#' := by
    have h0 : (s.drop q)[0]? = some '#' := by
      rw [← ht']
      rfl
    rwa [List.getElem?_drop, Nat.add_zero] at h0
  have hlen : (lit "#[allow(unused)]" rfl).length = 16 := rfl
  have hget' : (lit "#[allow(unused)]" rfl)[q - p]? = some '#' := by
    have h1 : (s.drop p)[q - p]? = some '#' := by
      rw [List.getElem?_drop, show p + (q - p) = q by omega]
      exact hget
    rwa [← ht, List.getElem?_append_left (by omega)] at h1
  by_cases hqp : q = p
  · omega
  · exact absurd hget' (hhead (q - p) (by omega) (by omega))

/-- The second replacement leaves what lies in no occurrence of the attribute. -/
theorem mem_cutAllows_iff {s : List Cell} {x : Cell} :
    x ∈ cutAllows s ↔ ∃ j, s[j]? = some x ∧ ¬ Within IsAllow (chars s) j := by
  have hlang : ∀ w : Str,
      Lang id (literal (lit "#[allow(unused)]" rfl) : Pattern Group) w ↔ IsAllow w := by
    intro w
    rw [lang_literal, List.map_id]
    rfl
  have hwithin : ∀ j, Within (Lang id (literal (lit "#[allow(unused)]" rfl) : Pattern Group))
      (chars s) j ↔ Within IsAllow (chars s) j := by
    intro j
    simp only [Within, hlang]
  rw [cutAllows, mem_sub_nil_iff (by decide)]
  refine exists_congr fun j => and_congr_right fun _ => not_congr ?_
  rw [← hwithin]
  refine holds_iff_within (by decide) (by decide) (fun b hb p w hpre hw hstart hstop => ?_) j
  obtain ⟨hlang', hbpre⟩ := found_text hb
  have hlen : (chars b.text).length = b.text.length := List.length_map _
  have h := allow_nest hbpre hpre ((hlang _).1 hlang') ((hlang w).1 hw) hstart
    (by rw [List.length_map]; exact hstop)
  rwa [List.length_map] at h

/-! ## Test modules -/

section

variable {isWord : Char → Bool}

theorem testModule_least : 0 < (testModule isWord).least := Nat.zero_lt_succ _

theorem testModule_proper : (testModule isWord).proper = true := rfl

/-- Behind a match no brace closes at the start of a line. -/
theorem testModule_last {s t r : List Cell}
    (h : textAt Prod.fst (testModule isWord) s = some t) (hs : s = t ++ r) :
    ¬ ['\n', '}'] <:+: chars r := by
  obtain ⟨o, ho, hrest, -, -⟩ := textAt_spec h
  obtain rfl : r = o.rest := List.append_cancel_left (hs.symm.trans hrest)
  have hany : ∀ c : Char, (c != '\n' || isSpace c) = true := by
    intro c
    by_cases hc : c = '\n'
    · rw [hc]
      decide
    · simp [hc]
  -- up to the brace that opens the module any way through the pattern will do
  obtain ⟨o₁, -, h₁⟩ := parses_of_run_seq ho
  obtain ⟨o₂, -, h₂⟩ := parses_of_run_seq h₁
  obtain ⟨o₃, -, h₃⟩ := parses_of_run_seq h₂
  obtain ⟨o₄, -, h₄⟩ := parses_of_run_seq h₃
  obtain ⟨o₅, -, h₅⟩ := parses_of_run_seq h₄
  obtain ⟨o₆, -, h₆⟩ := parses_of_run_seq h₅
  obtain ⟨o₇, -, h₇⟩ := parses_of_run_seq h₆
  have hbody : run Prod.fst (many1 (.char fun c => c != '\n' || isSpace c))
      (run Prod.fst (seqs [literal ['\n', '}']]) some) o₇ = some o := h₇
  obtain ⟨o₈, -, h₈⟩ := parses_of_run_seq hbody
  obtain ⟨u, v, -, hk, hlast⟩ := run_many_any hany h₈
  have hcont : ∀ (v : List Cell) (g : List (Group × List Cell)),
      run Prod.fst (seqs [literal ['\n', '}']]) some ⟨v, g⟩
        = if ['\n', '}'] <+: v.map Prod.fst then some ⟨v.drop 2, g⟩ else none :=
    fun v g => run_literal ['\n', '}'] some v g
  have hv : o.rest = v.drop 2 := by
    have hk' := (hcont v o₈.groups).symm.trans hk
    split at hk'
    · rw [Option.some.injEq] at hk'
      rw [← hk']
    · cases hk'
  rintro ⟨x, y, hxy⟩
  -- a later end would have been preferred
  have hlen : 2 ≤ (chars o.rest).length := by
    rw [← hxy]
    simp
    omega
  have hsuffix : o.rest.drop x.length <:+ v := by
    rw [hv, List.drop_drop]
    exact List.drop_suffix _ _
  have hne : o.rest.drop x.length ≠ v := by
    intro heq
    have hl := congrArg List.length heq
    rw [hv, List.length_drop, List.length_drop] at hl
    rw [chars, List.length_map, hv, List.length_drop] at hlen
    omega
  have hnone := (hcont _ o₈.groups).symm.trans (hlast _ hsuffix hne)
  rw [if_pos] at hnone
  · cases hnone
  · refine ⟨y, ?_⟩
    rw [List.map_drop, show o.rest.map Prod.fst = chars o.rest from rfl, ← hxy, List.append_assoc,
      List.drop_left]

/-- No text of the pattern ends behind a match. -/
theorem test_nest {s : List Cell} {b : Scan.Found Cell}
    (hb : b ∈ Scan.finditer (textAt Prod.fst (testModule isWord)) s) {p : Nat} {w : Str}
    (hpre : w <+: (chars s).drop p) (hw : IsTestModule isWord w) :
    p + w.length ≤ b.stop := by
  have hfound := (Scan.mem_finditer hb).2
  obtain ⟨r, hr⟩ := (lang_of_textAt hfound).2
  have hnot := testModule_last hfound hr.symm
  have hr' : r = s.drop b.stop := by
    rw [Scan.Found.stop, ← List.drop_drop, ← hr, List.drop_left]
  obtain ⟨header, body, rfl, -, -⟩ := hw
  by_contra hlt
  -- the closing brace lies behind the match, or its newline does
  have hclose : ['\n', '}'] <+: (chars s).drop (p + (header ++ body).length) := by
    obtain ⟨t, ht⟩ := hpre
    refine ⟨t, ?_⟩
    rw [← List.drop_drop, ← ht, ← List.append_assoc, List.append_assoc (header ++ body),
      List.drop_left]
  have hlen : (header ++ (body ++ ['\n', '}'])).length = (header ++ body).length + 2 := by
    simp
    omega
  by_cases hbehind : b.stop ≤ p + (header ++ body).length
  · apply hnot
    obtain ⟨t, ht⟩ := hclose
    rw [hr', chars, List.map_drop]
    refine ⟨((chars s).drop b.stop).take (p + (header ++ body).length - b.stop), t, ?_⟩
    have hsplit : (chars s).drop (p + (header ++ body).length)
        = ((chars s).drop b.stop).drop (p + (header ++ body).length - b.stop) := by
      rw [List.drop_drop]
      congr 1
      omega
    rw [List.append_assoc, ht, hsplit, List.take_append_drop]
    rfl
  · -- the match would end with a newline
    have hend : b.stop = p + (header ++ body).length + 1 := by omega
    have hnl : (chars s)[b.stop - 1]? = some '\n' := by
      obtain ⟨t, ht⟩ := hclose
      have h0 : ((chars s).drop (p + (header ++ body).length))[0]? = some '\n' := by
        rw [← ht]
        rfl
      rw [List.getElem?_drop, Nat.add_zero] at h0
      rw [hend, Nat.add_sub_cancel]
      exact h0
    obtain ⟨hlang, hbpre⟩ := found_text hb
    obtain ⟨header', body', hw', -, -⟩ := lang_testModule.1 hlang
    obtain ⟨x, hx⟩ : ∃ x, b.text.getLast? = some x := by
      rw [← Option.isSome_iff_exists, List.getLast?_isSome]
      rintro hnil
      rw [hnil] at hw'
      simp at hw'
    have hbrace : x.1 = '}' := by
      have hmap := congrArg List.getLast? hw'
      rw [List.getLast?_map, hx] at hmap
      simpa using hmap
    have hget := getElem?_of_getLast (lang_of_textAt hfound).2 hx
    rw [chars, List.getElem?_map, hget, Option.map_some, hbrace] at hnl
    exact absurd hnl (by decide)

/-- The third replacement leaves what lies in no such text. -/
theorem mem_cutTests_iff {s : List Cell} {x : Cell} :
    x ∈ cutTests isWord s ↔
      ∃ j, s[j]? = some x ∧ ¬ Within (IsTestModule isWord) (chars s) j := by
  have hwithin : ∀ j, Within (Lang id (testModule isWord)) (chars s) j
      ↔ Within (IsTestModule isWord) (chars s) j := by
    intro j
    simp only [Within, lang_testModule]
  rw [cutTests, mem_sub_nil_iff testModule_least]
  refine exists_congr fun j => and_congr_right fun _ => not_congr ?_
  rw [← hwithin]
  exact holds_iff_within testModule_proper testModule_least
    (fun b hb p w hpre hw _ _ => test_nest hb hpre (lang_testModule.1 hw)) j

end

/-! ## What is left of a file -/

/-- The text without some places of the file. -/
noncomputable def without (P : Nat → Prop) (s : List Cell) : List Cell :=
  open Classical in s.filter fun x => ¬ P x.2

/-- A place of the file lies in a piece of what is left of it. -/
def OnPiece (L : Str → Prop) (s : List Cell) (k : Nat) : Prop :=
  ∃ j x, s[j]? = some x ∧ x.2 = k ∧ Within L (chars s) j

/-- What the comments of the pattern leave. -/
noncomputable def uncommented (text : Str) : List Cell :=
  without (InComment (Text.universalNewlines text)) (cells text)

/-- What the attributes leave of that. -/
noncomputable def unallowed (text : Str) : List Cell :=
  without (OnPiece IsAllow (uncommented text)) (uncommented text)

theorem mem_cells_iff {text : Str} {c : Char} {k : Nat} :
    (c, k) ∈ cells text ↔ (Text.universalNewlines text)[k]? = some c :=
  List.mk_mem_zipIdx_iff_getElem?

theorem chars_cells (text : Str) : chars (cells text) = Text.universalNewlines text :=
  List.zipIdx_map_fst 0 _

theorem cells_pairwise (text : Str) : (cells text).Pairwise fun x y => x.2 < y.2 := by
  rw [← List.pairwise_map (f := Prod.snd), cells, List.zipIdx_map_snd]
  exact List.pairwise_lt_range'

theorem cells_getElem?_iff {text : Str} {j : Nat} {x : Cell} :
    (cells text)[j]? = some x ↔ x ∈ cells text ∧ x.2 = j := by
  obtain ⟨c, k⟩ := x
  rw [mem_cells_iff, cells, List.getElem?_zipIdx]
  cases h : (Text.universalNewlines text)[j]? with
  | none =>
    rw [Option.map_none]
    refine iff_of_false (by simp) ?_
    rintro ⟨hk, rfl⟩
    rw [h] at hk
    cases hk
  | some d =>
    rw [Option.map_some, Option.some.injEq, Prod.mk.injEq, Nat.zero_add]
    constructor
    · rintro ⟨rfl, rfl⟩
      exact ⟨h, rfl⟩
    · rintro ⟨hk, rfl⟩
      rw [h, Option.some.injEq] at hk
      exact ⟨hk, rfl⟩

/-- A part of a text whose places ascend is determined by its members. -/
theorem eq_without {s t : List Cell} {P : Nat → Prop} (hs : s.Pairwise fun x y => x.2 < y.2)
    (hsub : t.Sublist s) (hmem : ∀ x ∈ s, x ∈ t ↔ ¬ P x.2) : t = without P s := by
  induction hsub with
  | slnil => rfl
  | cons x hsub ih =>
    rw [List.pairwise_cons] at hs
    have hx : P x.2 := by
      by_contra hP
      have hxt := hsub.subset ((hmem x List.mem_cons_self).2 hP)
      exact absurd (hs.1 x hxt) (lt_irrefl _)
    rw [without, List.filter_cons_of_neg (by simpa using hx)]
    exact ih hs.2 fun y hy => hmem y (List.mem_cons_of_mem x hy)
  | cons_cons x hsub ih =>
    rw [List.pairwise_cons] at hs
    have hx : ¬ P x.2 := (hmem x List.mem_cons_self).1 List.mem_cons_self
    rw [without, List.filter_cons_of_pos (by simpa using hx)]
    refine congrArg _ (ih hs.2 fun y hy => ?_)
    rw [← hmem y (List.mem_cons_of_mem x hy), List.mem_cons, or_iff_right]
    rintro rfl
    exact absurd (hs.1 y hy) (lt_irrefl _)

/-- In a text whose places ascend, positions are ordered as the places are. -/
theorem le_iff_of_getElem? {s : List Cell} (hs : s.Pairwise fun x y => x.2 < y.2) {i j : Nat}
    {x y : Cell} (hi : s[i]? = some x) (hj : s[j]? = some y) : i ≤ j ↔ x.2 ≤ y.2 := by
  obtain ⟨hi', rfl⟩ := List.getElem?_eq_some_iff.1 hi
  obtain ⟨hj', rfl⟩ := List.getElem?_eq_some_iff.1 hj
  rcases lt_trichotomy i j with hlt | rfl | hlt
  · have := List.pairwise_iff_getElem.1 hs i j hi' hj' hlt
    omega
  · omega
  · have := List.pairwise_iff_getElem.1 hs j i hj' hi' hlt
    omega

/-- A member stands at one position only. -/
theorem getElem?_unique {s : List Cell} (hs : s.Pairwise fun x y => x.2 < y.2) {i j : Nat}
    {x y : Cell} (hi : s[i]? = some x) (hj : s[j]? = some y) (hxy : x.2 = y.2) : i = j := by
  have hij := (le_iff_of_getElem? hs hi hj).2 hxy.le
  have hji := (le_iff_of_getElem? hs hj hi).2 hxy.ge
  omega

theorem mem_onPiece_iff {s : List Cell} (hs : s.Pairwise fun x y => x.2 < y.2) {L : Str → Prop}
    {x : Cell} (hx : x ∈ s) :
    (∃ j, s[j]? = some x ∧ ¬ Within L (chars s) j) ↔ ¬ OnPiece L s x.2 := by
  constructor
  · rintro ⟨j, hj, hnot⟩ ⟨i, y, hi, hy, hwithin⟩
    obtain rfl := getElem?_unique hs hi hj hy
    exact hnot hwithin
  · intro hnot
    obtain ⟨j, hj⟩ := List.mem_iff_getElem?.1 hx
    exact ⟨j, hj, fun hwithin => hnot ⟨j, x, hj, rfl, hwithin⟩⟩

theorem mem_without {P : Nat → Prop} {s : List Cell} {x : Cell} :
    x ∈ without P s ↔ x ∈ s ∧ ¬ P x.2 := by
  simp only [without, List.mem_filter, decide_eq_true_eq]

theorem without_sublist (P : Nat → Prop) (s : List Cell) : (without P s).Sublist s :=
  List.filter_sublist

theorem cutComments_cells (text : Str) : cutComments (cells text) = uncommented text := by
  refine eq_without (cells_pairwise text) (sub_sublist (by decide) ?_ _) fun x hx => ?_
  · intro m
    cases h : m.getLast? with
    | none => exact List.nil_sublist _
    | some x => exact List.singleton_sublist.2 (List.mem_of_getLast? h)
  · rw [mem_cutComments_iff, chars_cells]
    constructor
    · rintro ⟨j, hj, hnot⟩
      rw [(cells_getElem?_iff.1 hj).2]
      exact hnot
    · intro hnot
      exact ⟨x.2, cells_getElem?_iff.2 ⟨hx, rfl⟩, hnot⟩

theorem uncommented_pairwise (text : Str) :
    (uncommented text).Pairwise fun x y => x.2 < y.2 :=
  (cells_pairwise text).sublist (without_sublist _ _)

theorem cutAllows_uncommented (text : Str) : cutAllows (uncommented text) = unallowed text := by
  refine eq_without (uncommented_pairwise text)
    (sub_sublist (by decide) (fun m => List.nil_sublist m) _) fun x hx => ?_
  rw [mem_cutAllows_iff]
  exact mem_onPiece_iff (uncommented_pairwise text) hx

theorem unallowed_pairwise (text : Str) : (unallowed text).Pairwise fun x y => x.2 < y.2 :=
  (uncommented_pairwise text).sublist (without_sublist _ _)

section

variable {isWord : Char → Bool}

theorem prepare_eq (text : Str) : prepare isWord text = cutTests isWord (unallowed text) := by
  rw [prepare, cutComments_cells, cutAllows_uncommented]

variable (isWord) in
/-- A place of the file is taken out by one of the three replacements. -/
def TakenOut (text : Str) (k : Nat) : Prop :=
  InComment (Text.universalNewlines text) k ∨ OnPiece IsAllow (uncommented text) k ∨
    OnPiece (IsTestModule isWord) (unallowed text) k

/-- What is left for the search. -/
theorem mem_prepare_iff {text : Str} {c : Char} {k : Nat} :
    (c, k) ∈ prepare isWord text ↔
      (Text.universalNewlines text)[k]? = some c ∧ ¬ TakenOut isWord text k := by
  have hleft : (c, k) ∈ unallowed text ↔ (Text.universalNewlines text)[k]? = some c ∧
      ¬ InComment (Text.universalNewlines text) k ∧ ¬ OnPiece IsAllow (uncommented text) k := by
    rw [unallowed, mem_without, uncommented, mem_without, mem_cells_iff, and_assoc]
  have hpieces : (c, k) ∈ prepare isWord text ↔
      (c, k) ∈ unallowed text ∧ ¬ OnPiece (IsTestModule isWord) (unallowed text) k := by
    rw [prepare_eq, mem_cutTests_iff]
    constructor
    · rintro ⟨j, hj, hnot⟩
      have hx : (c, k) ∈ unallowed text := List.mem_of_getElem? hj
      exact ⟨hx, (mem_onPiece_iff (unallowed_pairwise text) hx).1 ⟨j, hj, hnot⟩⟩
    · rintro ⟨hx, hnot⟩
      exact (mem_onPiece_iff (unallowed_pairwise text) hx).2 hnot
  rw [hpieces, hleft, TakenOut, not_or, not_or, and_assoc, and_assoc]

end

/-! ## Whether it is the code that is left -/

/-- A file, its comments, and its test modules. -/
structure Marked where
  text : Str
  /-- Where the slashes of each comment are. -/
  comments : List Nat
  /-- Where each test module starts and stops. -/
  tests : List (Nat × Nat)
  comments_slashes : ∀ p ∈ comments, ['/', '/'] <+: (Text.universalNewlines text).drop p
  tests_open : ∀ t ∈ tests, lit "#[cfg(test)]" rfl <+: (Text.universalNewlines text).drop t.1
  tests_close : ∀ t ∈ tests, t.1 < t.2 ∧ (Text.universalNewlines text)[t.2 - 1]? = some '}'

namespace Marked

variable (S : Marked)

/-- The file as it is read. -/
def file : Str := Text.universalNewlines S.text

/-- From one place to another the line does not end. -/
def OnLine (p k : Nat) : Prop :=
  p ≤ k ∧ ∀ j, p ≤ j → j ≤ k → ∃ c, S.file[j]? = some c ∧ c ≠ '\n'

/-- The place lies in a comment. -/
def InRemark (k : Nat) : Prop := ∃ p ∈ S.comments, S.OnLine p k

/-- The place is one of the blanks in front of a comment. -/
def Gap (k : Nat) : Prop := ∃ p ∈ S.comments, k < p ∧ ∀ j, k ≤ j → j < p → S.file[j]? = some ' '

def InTest (k : Nat) : Prop := ∃ t ∈ S.tests, t.1 ≤ k ∧ k < t.2

/-- The place belongs to the code; an `#[allow(unused)]` is taken out on purpose. -/
def Code (k : Nat) : Prop :=
  k < S.file.length ∧ ¬ S.InRemark k ∧ ¬ S.Gap k ∧ ¬ S.InTest k ∧ ¬ Within IsAllow S.file k

section

variable (isWord : Char → Bool)

/-- What is searched contains all of the code, and nothing of a comment. -/
def Faithful : Prop :=
  (∀ k c, S.file[k]? = some c → S.Code k → (c, k) ∈ prepare isWord S.text) ∧
    ∀ k c, S.InRemark k → (c, k) ∉ prepare isWord S.text

/-- No code lies in a piece of one of the three patterns. -/
def CodeSafe : Prop := ∀ k, S.Code k → ¬ TakenOut isWord S.text k

/-- Every comment starts in a piece of the first pattern or of the third. -/
def CommentsCaught : Prop :=
  ∀ p ∈ S.comments, InComment S.file p ∨ OnPiece (IsTestModule isWord) (unallowed S.text) p

end

variable {S}

theorem getElem?_of_mem_comments {p : Nat} (h : p ∈ S.comments) : S.file[p]? = some '/' := by
  obtain ⟨t, ht⟩ := S.comments_slashes p h
  have h0 : (S.file.drop p)[0]? = some '/' := by
    rw [file, ← ht]
    rfl
  rwa [List.getElem?_drop, Nat.add_zero] at h0

theorem inRemark_of_mem {p : Nat} (h : p ∈ S.comments) : S.InRemark p := by
  refine ⟨p, h, le_refl p, fun j hpj hjp => ?_⟩
  obtain rfl : j = p := by omega
  exact ⟨'/', getElem?_of_mem_comments h, by decide⟩

end Marked

theorem getElem?_of_isComment {s w : Str} {p : Nat} (h : IsComment w) (hpre : w <+: s.drop p) :
    s[p + w.length - 1]? = some '\n' := by
  obtain ⟨blanks, rest, rfl, -⟩ := h
  obtain ⟨t, ht⟩ := hpre
  have hget : (s.drop p)[blanks.length + rest.length + 2]? = some '\n' := by
    rw [← ht, ← List.cons_append, ← List.cons_append, ← List.append_assoc, List.append_assoc,
      List.getElem?_append_right (by simp; omega)]
    have hzero : blanks.length + rest.length + 2 - (blanks ++ '/' :: '/' :: rest).length = 0 := by
      simp
      omega
    rw [hzero]
    rfl
  rw [List.getElem?_drop] at hget
  rw [← hget]
  congr 1
  simp
  omega

namespace Marked

variable {S : Marked}

/-- A piece of the first pattern reaches to the end of the line. -/
theorem inComment_of_onLine {p k : Nat} (h : InComment S.file p) (hline : S.OnLine p k) :
    InComment S.file k := by
  obtain ⟨q, w, hpre, hw, hq, hlt⟩ := h
  refine ⟨q, w, hpre, hw, le_trans hq hline.1, ?_⟩
  by_contra hge
  obtain ⟨c, hc, hne⟩ := hline.2 (q + w.length - 1) (by omega) (by omega)
  rw [getElem?_of_isComment hw hpre, Option.some.injEq] at hc
  exact hne hc.symm

/-- A member of a text stands where its place in the file is. -/
theorem getElem?_of_mem_unallowed {x : Cell} (h : x ∈ unallowed S.text) :
    S.file[x.2]? = some x.1 := by
  have hcell : x ∈ uncommented S.text := (without_sublist _ _).subset h
  exact mem_cells_iff.1 ((without_sublist _ _).subset hcell)

variable {isWord : Char → Bool}

/-- A piece of the third pattern does not end on the line of a comment in it. -/
theorem onTest_of_onLine {p k : Nat} {c : Char} (hp : p ∈ S.comments)
    (h : OnPiece (IsTestModule isWord) (unallowed S.text) p) (hline : S.OnLine p k)
    (hk : (c, k) ∈ unallowed S.text) :
    OnPiece (IsTestModule isWord) (unallowed S.text) k := by
  obtain ⟨j, x, hj, rfl, q, w, hpre, hw, hq, hlt⟩ := h
  obtain ⟨i, hi⟩ := List.mem_iff_getElem?.1 hk
  have hascend := unallowed_pairwise S.text
  have hji : j ≤ i := (le_iff_of_getElem? hascend hj hi).2 hline.1
  refine ⟨i, _, hi, rfl, q, w, hpre, hw, by omega, ?_⟩
  by_contra hge
  -- the last two characters of the piece
  obtain ⟨header, body, rfl, -, -⟩ := hw
  obtain ⟨t, ht⟩ := hpre
  have hlen : (header ++ (body ++ ['\n', '}'])).length = header.length + body.length + 2 := by
    simp
    omega
  have hlast : ∀ m d, ['\n', '}'][m]? = some d →
      (chars (unallowed S.text))[q + (header.length + body.length) + m]? = some d := by
    intro m d hd
    have hm : m < 2 := (List.getElem?_eq_some_iff.1 hd).1
    have hget : ((chars (unallowed S.text)).drop q)[header.length + body.length + m]? = some d := by
      rw [← ht, ← List.append_assoc, List.append_assoc (header ++ body),
        List.getElem?_append_right (by simp), List.length_append, Nat.add_sub_cancel_left,
        List.getElem?_append_left hm]
      exact hd
    rw [List.getElem?_drop] at hget
    rwa [Nat.add_assoc]
  have hbrace : j ≠ q + (header.length + body.length) + 1 := by
    rintro rfl
    have h1 := hlast 1 '}' rfl
    rw [chars, List.getElem?_map, hj, Option.map_some, Option.some.injEq] at h1
    have hslash := getElem?_of_mem_unallowed (List.mem_of_getElem? hj)
    rw [getElem?_of_mem_comments hp, Option.some.injEq, h1] at hslash
    exact absurd hslash (by decide)
  -- the newline stands between the comment and the place
  have hnl := hlast 0 '\n' rfl
  rw [chars, List.getElem?_map, Nat.add_zero] at hnl
  obtain ⟨y, hy, hynl⟩ := Option.map_eq_some_iff.1 hnl
  have hxy : x.2 ≤ y.2 := (le_iff_of_getElem? hascend hj hy).1 (by omega)
  have hyk : y.2 ≤ k := (le_iff_of_getElem? hascend hy hi).1 (by omega)
  obtain ⟨d, hd, hne⟩ := hline.2 y.2 hxy hyk
  rw [getElem?_of_mem_unallowed (List.mem_of_getElem? hy), Option.some.injEq, hynl] at hd
  exact hne hd.symm

/-- What is searched is the code without the comments exactly when no code lies in a piece
that is taken out, and every comment starts in one. -/
theorem prepare_faithful_iff (isWord : Char → Bool) (S : Marked) :
    S.Faithful isWord ↔ S.CodeSafe isWord ∧ S.CommentsCaught isWord := by
  constructor
  · rintro ⟨hcode, hremark⟩
    constructor
    · intro k hk
      obtain ⟨c, hc⟩ : ∃ c, S.file[k]? = some c := ⟨_, List.getElem?_eq_getElem hk.1⟩
      exact (mem_prepare_iff.1 (hcode k c hc hk)).2
    · intro p hp
      have hslash := getElem?_of_mem_comments hp
      have htaken : TakenOut isWord S.text p := by
        by_contra hnot
        exact hremark p '/' (inRemark_of_mem hp) (mem_prepare_iff.2 ⟨hslash, hnot⟩)
      rcases htaken with hcomment | hallow | htest
      · exact Or.inl hcomment
      · -- the attribute has no slash
        obtain ⟨j, x, hj, rfl, hwithin⟩ := hallow
        obtain ⟨w, c, hw, hc, hget⟩ := hwithin.getElem?
        have hx : x ∈ uncommented S.text := List.mem_of_getElem? hj
        have hfile : S.file[x.2]? = some x.1 :=
          mem_cells_iff.1 ((without_sublist _ _).subset hx)
        rw [hslash, Option.some.injEq] at hfile
        rw [chars, List.getElem?_map, hj, Option.map_some, Option.some.injEq, ← hfile] at hget
        rw [← hget, show w = lit "#[allow(unused)]" rfl from hw] at hc
        exact absurd hc (by decide)
      · exact Or.inr htest
  · rintro ⟨hcode, hremark⟩
    constructor
    · intro k c hc hk
      exact mem_prepare_iff.2 ⟨hc, hcode k hk⟩
    · intro k c hk hmem
      obtain ⟨p, hp, hline⟩ := hk
      obtain ⟨hc, hnot⟩ := mem_prepare_iff.1 hmem
      rcases hremark p hp with hcomment | htest
      · exact hnot (Or.inl (inComment_of_onLine hcomment hline))
      · by_cases hleft : (c, k) ∈ unallowed S.text
        · exact hnot (Or.inr (Or.inr (onTest_of_onLine hp htest hline hleft)))
        · -- an earlier replacement takes it out
          rw [unallowed, mem_without, uncommented, mem_without, mem_cells_iff, and_assoc] at hleft
          have : TakenOut isWord S.text k := by
            by_contra htaken
            rw [TakenOut, not_or, not_or] at htaken
            exact hleft ⟨hc, htaken.1, htaken.2.1⟩
          exact hnot this

end Marked

/-- A file whose first line is a comment. -/
def oldComment : Marked where
  text := lit "// fn old() \x7b\x7d\nfn new() \x7b\x7d\n" rfl
  comments := [0]
  tests := []
  comments_slashes := by decide
  tests_open := by decide
  tests_close := by decide

/-- A comment at the start of a line is left. -/
theorem first_column_left :
    ¬ ∀ (isWord : Char → Bool) (S : Marked), S.Faithful isWord := by
  intro h
  have hremark : oldComment.InRemark 0 := Marked.inRemark_of_mem (by decide)
  have hleft : ('/', 0) ∈ prepare Text.isAsciiWord oldComment.text := by decide +kernel
  exact (h Text.isAsciiWord oldComment).2 0 '/' hremark hleft

end FindFunc
