import Rustle.Source.LineNumbers

/-!
# The functions of `#[near_bindgen]` blocks

The second pass of `findFunc` adds `(near_bindgen)` to the visibility of a function, by a
flag that some lines set and others clear.

* `Flagged` — the flag at a line, read off the lines above.
* `visibility_runLines` — the suffix is added once for each flagged line that belongs to
  the function.
* `suffix_exact_iff` — when it is there once for the functions of the blocks with the
  attribute, and for no other.
-/

namespace FindFunc

open Backtrack Pattern
open Text (lit)

/-- What is added to the visibility. -/
def suffix : Str := lit "(near_bindgen)" rfl

/-- Some suffixes in a row. -/
def suffixes (k : Nat) : Str := (List.replicate k suffix).flatten

theorem suffixes_succ (k : Nat) : suffixes (k + 1) = suffixes k ++ suffix := by
  rw [suffixes, suffixes, List.replicate_succ', List.flatten_append, List.flatten_singleton]

theorem suffixes_length (k : Nat) : (suffixes k).length = k * 14 := by
  rw [suffixes, List.length_flatten, List.map_replicate, List.sum_replicate]
  rfl

theorem suffixes_inj {j k : Nat} (h : suffixes j = suffixes k) : j = k := by
  have hlen := congrArg List.length h
  rw [suffixes_length, suffixes_length] at hlen
  omega

/-! ## The flag -/

section

variable (isWord : Char → Bool)

/-- A line that starts a block and has nothing but a name between `impl` and the brace. -/
def isHeader (line : Str) : Bool := (matchAt id (implLine isWord) line).isSome

/-- A line that starts with a closing brace. -/
def isClosing (line : Str) : Bool := (matchAt id closingLine line).isSome

/-- The line at an index, unless it is a comment. -/
def liveLine (text : Str) (k : Nat) : Option Str :=
  (Text.lines text)[k]?.filter fun line => !(matchAt id commentLine line).isSome

/-- The last line above an index that is no comment holds the attribute. -/
def AttributeAbove (text : Str) (k : Nat) : Prop :=
  ∃ p line, p < k ∧ liveLine text p = some line ∧
    Text.contains line (lit "#[near_bindgen]" rfl) = true ∧
    ∀ j, p < j → j < k → liveLine text j = none

/-- The last line above an index that is a header or starts with a closing brace is a
header below the attribute. -/
def Flagged (text : Str) (k : Nat) : Prop :=
  ∃ h line, h < k ∧ liveLine text h = some line ∧ isHeader isWord line = true ∧
    AttributeAbove text h ∧
    ∀ j line', h < j → j < k → liveLine text j = some line' →
      isHeader isWord line' = false ∧ isClosing line' = false

variable {isWord}

theorem matchAt_isSome_iff {a : Pattern Group} (hproper : a.proper = true) {s : Str} :
    (matchAt id a s).isSome ↔ ∃ used t, s = used ++ t ∧ Lang id a used := by
  rw [← textAt_isSome_iff hproper, textAt, Option.isSome_map]

/-- No line is both. -/
theorem not_header_of_closing {line : Str} (h : isClosing line = true) :
    isHeader isWord line = false := by
  rw [isClosing, matchAt_isSome_iff (by decide)] at h
  obtain ⟨used, t, rfl, brace, u, rfl, ⟨c, rfl, hc⟩, -⟩ := h
  rw [Bool.eq_false_iff, isHeader, ne_eq, matchAt_isSome_iff rfl]
  rintro ⟨used, t', heq, word, u', rfl, hword, -⟩
  rw [lang_literal, List.map_id] at hword
  subst hword
  rw [List.append_assoc, List.append_assoc, List.singleton_append] at heq
  rw [(List.cons.inj heq).1] at hc
  exact absurd hc (by decide)

theorem nextBindgen_eq (bindgen : Bool) (prev_line line : Str) :
    nextBindgen isWord bindgen prev_line line =
      if isClosing line = true then false
      else if isHeader isWord line = true then
        Text.contains prev_line (lit "#[near_bindgen]" rfl)
      else bindgen := rfl

theorem step_comment {text : Str} {k : Nat} {line : Str} {s : State}
    (hline : (Text.lines text)[k]? = some line) (hlive : liveLine text k = none) :
    step isWord s line = { s with line_number := s.line_number + 1 } := by
  rw [liveLine, hline, Option.filter_some] at hlive
  have hcomment : (matchAt id commentLine line).isSome = true := by
    cases hc : (matchAt id commentLine line).isSome with
    | true => rfl
    | false =>
      rw [hc] at hlive
      cases hlive
  rw [step, if_pos hcomment]

theorem step_live {text : Str} {k : Nat} {line : Str} {s : State}
    (hline : (Text.lines text)[k]? = some line) (hlive : liveLine text k = some line) :
    (step isWord s line).prev_line = line ∧ (step isWord s line).last_impl_bindgen
      = nextBindgen isWord s.last_impl_bindgen s.prev_line line := by
  rw [liveLine, hline, Option.filter_some] at hlive
  have hcomment : ¬ (matchAt id commentLine line).isSome = true := by
    intro h
    simp [h] at hlive
  rw [step, if_neg hcomment]
  exact ⟨rfl, rfl⟩

theorem liveLine_cases {text line : Str} {k : Nat} (h : (Text.lines text)[k]? = some line) :
    liveLine text k = none ∨ liveLine text k = some line := by
  rw [liveLine, h, Option.filter_some]
  split
  · exact Or.inr rfl
  · exact Or.inl rfl

theorem attributeAbove_succ_of_none {text : Str} {k : Nat} (h : liveLine text k = none) :
    AttributeAbove text (k + 1) ↔ AttributeAbove text k := by
  constructor
  · rintro ⟨p, line, hp, hline, hattr, hnone⟩
    have hpk : p ≠ k := by
      rintro rfl
      rw [h] at hline
      cases hline
    exact ⟨p, line, by omega, hline, hattr, fun j hj hjk => hnone j hj (by omega)⟩
  · rintro ⟨p, line, hp, hline, hattr, hnone⟩
    refine ⟨p, line, by omega, hline, hattr, fun j hj hjk => ?_⟩
    rcases Nat.lt_succ_iff_lt_or_eq.1 hjk with hlt | rfl
    · exact hnone j hj hlt
    · exact h

theorem attributeAbove_succ_of_some {text line : Str} {k : Nat}
    (h : liveLine text k = some line) :
    AttributeAbove text (k + 1) ↔ Text.contains line (lit "#[near_bindgen]" rfl) = true := by
  constructor
  · rintro ⟨p, line', hp, hline, hattr, hnone⟩
    rcases Nat.lt_succ_iff_lt_or_eq.1 hp with hlt | rfl
    · rw [hnone k hlt (by omega)] at h
      cases h
    · rw [h, Option.some.injEq] at hline
      rwa [hline]
  · intro hattr
    exact ⟨k, line, by omega, h, hattr, fun j hj hjk => by omega⟩

theorem flagged_succ_of_none {text : Str} {k : Nat} (h : liveLine text k = none) :
    Flagged isWord text (k + 1) ↔ Flagged isWord text k := by
  constructor
  · rintro ⟨p, line, hp, hline, hheader, hattr, hnone⟩
    have hpk : p ≠ k := by
      rintro rfl
      rw [h] at hline
      cases hline
    exact ⟨p, line, by omega, hline, hheader, hattr, fun j l hj hjk => hnone j l hj (by omega)⟩
  · rintro ⟨p, line, hp, hline, hheader, hattr, hnone⟩
    refine ⟨p, line, by omega, hline, hheader, hattr, fun j l hj hjk hl => ?_⟩
    rcases Nat.lt_succ_iff_lt_or_eq.1 hjk with hlt | rfl
    · exact hnone j l hj hlt hl
    · rw [h] at hl
      cases hl

theorem flagged_succ_of_some {text line : Str} {k : Nat} (h : liveLine text k = some line) :
    Flagged isWord text (k + 1) ↔
      isClosing line = false ∧
        (isHeader isWord line = true ∧ AttributeAbove text k ∨
          isHeader isWord line = false ∧ Flagged isWord text k) := by
  constructor
  · rintro ⟨p, line', hp, hline, hheader, hattr, hnone⟩
    rcases Nat.lt_succ_iff_lt_or_eq.1 hp with hlt | rfl
    · obtain ⟨hnot, hclosing⟩ := hnone k line hlt (by omega) h
      exact ⟨hclosing, Or.inr ⟨hnot, p, line', hlt, hline, hheader, hattr, fun j l hj hjk =>
        hnone j l hj (by omega)⟩⟩
    · rw [h, Option.some.injEq] at hline
      subst hline
      refine ⟨?_, Or.inl ⟨hheader, hattr⟩⟩
      by_contra hclosing
      rw [Bool.not_eq_false] at hclosing
      rw [not_header_of_closing hclosing] at hheader
      cases hheader
  · rintro ⟨hclosing, ⟨hheader, hattr⟩ | ⟨hnot, p, line', hp, hline, hheader, hattr, hnone⟩⟩
    · exact ⟨k, line, by omega, h, hheader, hattr, fun j l hj hjk => by omega⟩
    · refine ⟨p, line', by omega, hline, hheader, hattr, fun j l hj hjk hl => ?_⟩
      rcases Nat.lt_succ_iff_lt_or_eq.1 hjk with hlt | rfl
      · exact hnone j l hj hlt hl
      · rw [h, Option.some.injEq] at hl
        subst hl
        exact ⟨hnot, hclosing⟩

/-- The flag and the line kept, after some lines of the file. -/
theorem runLines_flag (text : Str) (results : List Result) (n : Nat)
    (hn : n ≤ (Text.lines text).length) :
    (Text.contains (runLines isWord ((Text.lines text).take n) results).prev_line
        (lit "#[near_bindgen]" rfl) = true ↔ AttributeAbove text n) ∧
      ((runLines isWord ((Text.lines text).take n) results).last_impl_bindgen = true ↔
        Flagged isWord text n) := by
  induction n with
  | zero =>
    constructor
    · have hnil : (runLines isWord ((Text.lines text).take 0) results).prev_line = [] := rfl
      rw [hnil]
      refine iff_of_false (by decide) ?_
      rintro ⟨p, line, hp, -⟩
      exact absurd hp (Nat.not_lt_zero p)
    · refine iff_of_false Bool.false_ne_true ?_
      rintro ⟨h, line, hh, -⟩
      exact absurd hh (Nat.not_lt_zero h)
  | succ n ih =>
    obtain ⟨hattr, hflag⟩ := ih (by omega)
    have hline := List.getElem?_eq_getElem (show n < (Text.lines text).length by omega)
    rw [runLines_succ hline]
    rcases liveLine_cases hline with hlive | hlive
    · rw [step_comment hline hlive, attributeAbove_succ_of_none hlive, flagged_succ_of_none hlive]
      exact ⟨hattr, hflag⟩
    · obtain ⟨hprev, hnext⟩ := @step_live isWord _ _ _
        (runLines isWord ((Text.lines text).take n) results) hline hlive
      rw [hprev, hnext, attributeAbove_succ_of_some hlive, flagged_succ_of_some hlive,
        nextBindgen_eq]
      refine ⟨Iff.rfl, ?_⟩
      by_cases hclosing : isClosing (Text.lines text)[n] = true
      · rw [if_pos hclosing]
        exact iff_of_false Bool.false_ne_true (by simp [hclosing])
      · rw [if_neg hclosing]
        by_cases hheader : isHeader isWord (Text.lines text)[n] = true
        · rw [if_pos hheader, hattr]
          simp [hclosing, hheader]
        · rw [if_neg hheader, hflag]
          simp [hclosing, hheader]

/-! ## The suffixes -/

variable (isWord) in
/-- A line that belongs to the function at an index, by its name and its place. -/
def BelongsTo (ignoreTest : Bool) (text : Str) (i n : Nat) : Prop :=
  Tracking.Belongs 4 (marks isWord text) (slots isWord ignoreTest text) i n

variable (isWord) in
/-- The line at an index belongs to the function, and stands under the flag. -/
def Marks (ignoreTest : Bool) (text : Str) (i k : Nat) : Prop :=
  BelongsTo isWord ignoreTest text i (k + 1) ∧ Flagged isWord text k

theorem getElem?_correctResults (b : Bool) (n i : Nat) (line : Str) (results : List Result) :
    ((correctResults isWord b n line results)[i]?).map Result.visibility
      = (results[i]?).map fun r => r.visibility ++
          if b = true ∧ Tracking.taker 4 n (recognised isWord line) (results.map Result.slot)
            = some i then suffix else [] := by
  rw [correctResults_eq]
  cases Tracking.taker 4 n (recognised isWord line) (results.map Result.slot) with
  | none => simp
  | some j =>
    rw [Option.elim_some, List.getElem?_modify]
    cases results[i]? with
    | none => rfl
    | some r =>
      by_cases hj : j = i
      · cases b with
        | false => simp [hj, correct]
        | true => simp [hj, correct, suffix]
      · simp [hj]

open Classical in
/-- A line puts a suffix to the function that it marks, and to no other one. -/
theorem visibility_step {ignoreTest : Bool} {text : Str} {n : Nat}
    (hn : n < (Text.lines text).length) (i : Nat) :
    ((runLines isWord ((Text.lines text).take (n + 1))
        (firstPass isWord ignoreTest text)).results[i]?).map Result.visibility
      = (((runLines isWord ((Text.lines text).take n)
          (firstPass isWord ignoreTest text)).results[i]?).map Result.visibility).map
          (· ++ if Marks isWord ignoreTest text i n then suffix else []) := by
  have hline := List.getElem?_eq_getElem hn
  obtain ⟨hnumber, hslots⟩ :=
    @runLines_slots isWord text (firstPass isWord ignoreTest text) n hn.le
  rw [← slots] at hslots
  have hflag := (@runLines_flag isWord text (firstPass isWord ignoreTest text) n hn.le).2
  have hmark : recognised isWord (Text.lines text)[n] = marks isWord text n := by
    rw [marks, hline]
    rfl
  have hmarks : ((runLines isWord ((Text.lines text).take n)
      (firstPass isWord ignoreTest text)).last_impl_bindgen = true ∧
        Tracking.taker 4 (n + 1) (marks isWord text n) (Tracking.run 4 (marks isWord text)
          (slots isWord ignoreTest text) n) = some i) ↔ Marks isWord ignoreTest text i n := by
    rw [hflag, Tracking.taker_eq_some_iff, Tracking.takes_iff_belongs, Marks, BelongsTo]
    exact and_comm
  rw [runLines_succ hline, step_results, getElem?_correctResults, hnumber, hslots, hmark,
    Option.map_map]
  simp only [hmarks]
  rfl

open Classical in
/-- After some lines, a function has a suffix for each of them that marks it. -/
theorem visibility_runLines {ignoreTest : Bool} {text : Str} (n : Nat)
    (hn : n ≤ (Text.lines text).length) (i : Nat) :
    ((runLines isWord ((Text.lines text).take n)
        (firstPass isWord ignoreTest text)).results[i]?).map Result.visibility
      = ((firstPass isWord ignoreTest text)[i]?).map fun r => r.visibility ++
          suffixes (Nat.count (Marks isWord ignoreTest text i) n) := by
  induction n with
  | zero =>
    rw [Nat.count_zero]
    cases h : (firstPass isWord ignoreTest text)[i]? with
    | none =>
      rw [Option.map_none, Option.map_eq_none_iff]
      exact h
    | some r =>
      have hstart : (runLines isWord ((Text.lines text).take 0)
          (firstPass isWord ignoreTest text)).results[i]? = some r := h
      rw [hstart]
      simp [suffixes]
  | succ n ih =>
    rw [visibility_step hn, ih (Nat.le_of_succ_le hn), Option.map_map, Nat.count_succ]
    congr 1
    funext r
    rw [Function.comp_apply]
    by_cases hm : Marks isWord ignoreTest text i n
    · rw [if_pos hm, if_pos hm, suffixes_succ, List.append_assoc]
    · rw [if_neg hm, if_neg hm, List.append_nil, Nat.add_zero]

theorem count_eq_zero_iff {P : Nat → Prop} [DecidablePred P] {n : Nat} :
    Nat.count P n = 0 ↔ ∀ k < n, ¬ P k := by
  rw [Nat.count_eq_card_filter_range, Finset.card_eq_zero, Finset.filter_eq_empty_iff]
  simp

theorem count_eq_one_iff {P : Nat → Prop} [DecidablePred P] {n : Nat} :
    Nat.count P n = 1 ↔ ∃! k, k < n ∧ P k := by
  rw [Nat.count_eq_card_filter_range, Finset.card_eq_one]
  constructor
  · rintro ⟨k, hk⟩
    have hmem : ∀ j, j < n ∧ P j ↔ j = k := by
      intro j
      rw [← Finset.mem_singleton, ← hk, Finset.mem_filter, Finset.mem_range]
    exact ⟨k, (hmem k).2 rfl, fun j hj => (hmem j).1 hj⟩
  · rintro ⟨k, hk, hunique⟩
    refine ⟨k, Finset.ext fun j => ?_⟩
    rw [Finset.mem_filter, Finset.mem_range, Finset.mem_singleton]
    constructor
    · exact hunique j
    · rintro rfl
      exact hk

theorem Marks.lt_length {ignoreTest : Bool} {text : Str} {i k : Nat}
    (h : Marks isWord ignoreTest text i k) : k < (Text.lines text).length := by
  obtain ⟨⟨⟨hnames, -⟩, -⟩, -⟩ := h
  obtain ⟨k', r, hk', -, hmark⟩ := hnames
  obtain rfl : k = k' := by omega
  by_contra hlt
  rw [marks, List.getElem?_eq_none (by omega)] at hmark
  cases hmark

open Classical in
/-- What `findFunc` records as the visibility. -/
theorem visibility_findFunc {ignoreTest : Bool} {text : Str} {i : Nat} {r₀ r : Result}
    (h₀ : (firstPass isWord ignoreTest text)[i]? = some r₀)
    (h : (findFunc isWord ignoreTest text)[i]? = some r) :
    r.visibility = r₀.visibility ++
      suffixes (Nat.count (Marks isWord ignoreTest text i) (Text.lines text).length) := by
  have hne : firstPass isWord ignoreTest text ≠ [] := by
    intro hnil
    rw [hnil] at h₀
    cases h₀
  have hmap : (findFunc isWord ignoreTest text).map Result.visibility
      = (secondPass isWord text (firstPass isWord ignoreTest text)).map Result.visibility := by
    rw [findFunc, if_neg hne, thirdPass_map fun r modifier => rfl]
  have hget := congrArg (·[i]?) hmap
  rw [List.getElem?_map, List.getElem?_map, h, secondPass] at hget
  have hruns := @visibility_runLines isWord ignoreTest text (Text.lines text).length (le_refl _) i
  rw [List.take_length, h₀] at hruns
  rw [hruns] at hget
  simpa using hget

end

/-! ## Whether the right functions are marked -/

/-- An `impl` block of a file, and whether the attribute is applied to it. -/
structure Block where
  start : Nat
  stop : Nat
  bindgen : Bool

/-- A file and its `impl` blocks. -/
structure Contract where
  text : Str
  blocks : List Block
  blocks_impl : ∀ b ∈ blocks, lit "impl" rfl <+: (Text.universalNewlines text).drop b.start
  blocks_disjoint : blocks.Pairwise fun b b' => b.stop ≤ b'.start
  applied : ∀ b ∈ blocks, b.bindgen = true →
    ∃ p, p + 15 ≤ b.start ∧
      lit "#[near_bindgen]" rfl <+: (Text.universalNewlines text).drop p

namespace Contract

/-- The function of a match is declared in a block with the attribute. -/
def InBindgen (C : Contract) (m : Match Group Cell) : Prop :=
  ∃ b ∈ C.blocks, b.bindgen = true ∧ b.start ≤ fnPlace m ∧ fnPlace m < b.stop

/-- The suffix is there once for the functions of blocks with the attribute, and for no
other. -/
def SuffixRight (isWord : Char → Bool) (ignoreTest : Bool) (C : Contract) : Prop :=
  ∀ (i : Nat) (m : Match Group Cell) (r₀ r : Result),
    (matchesOf isWord ignoreTest C.text)[i]? = some m →
    (firstPass isWord ignoreTest C.text)[i]? = some r₀ →
    (findFunc isWord ignoreTest C.text)[i]? = some r →
      (C.InBindgen m → r.visibility = r₀.visibility ++ suffix) ∧
        (¬ C.InBindgen m → r.visibility = r₀.visibility)

end Contract

theorem exists_results {isWord : Char → Bool} {ignoreTest : Bool} {text : Str} {i : Nat}
    {m : Match Group Cell} (h : (matchesOf isWord ignoreTest text)[i]? = some m) :
    ∃ r₀ r, (firstPass isWord ignoreTest text)[i]? = some r₀ ∧
      (findFunc isWord ignoreTest text)[i]? = some r := by
  obtain ⟨r, hr⟩ := exists_result h
  refine ⟨result (findImpl text) (prepare isWord text) m, r, ?_, hr⟩
  rw [firstPass, List.getElem?_map, h, Option.map_some]

/-- The suffix is right exactly when each function of a block with the attribute has one
flagged line that belongs to it, and each other function has none. -/
theorem suffix_exact_iff (isWord : Char → Bool) (ignoreTest : Bool) (C : Contract) :
    C.SuffixRight isWord ignoreTest ↔
      ∀ i m, (matchesOf isWord ignoreTest C.text)[i]? = some m →
        (C.InBindgen m → ∃! k, Marks isWord ignoreTest C.text i k) ∧
          (¬ C.InBindgen m → ∀ k, ¬ Marks isWord ignoreTest C.text i k) := by
  classical
  -- the marking lines are lines of the file
  have hone : ∀ i, Nat.count (Marks isWord ignoreTest C.text i) (Text.lines C.text).length = 1 ↔
      ∃! k, Marks isWord ignoreTest C.text i k := by
    intro i
    rw [count_eq_one_iff]
    exact existsUnique_congr fun k => and_iff_right_of_imp fun h => h.lt_length
  have hzero : ∀ i, Nat.count (Marks isWord ignoreTest C.text i) (Text.lines C.text).length = 0 ↔
      ∀ k, ¬ Marks isWord ignoreTest C.text i k := by
    intro i
    rw [count_eq_zero_iff]
    exact forall_congr' fun k => ⟨fun h hk => h hk.lt_length hk, fun h _ => h⟩
  have hsuffix : suffix = suffixes 1 := rfl
  have hnil : ∀ v : Str, v = v ++ suffixes 0 := fun v => (List.append_nil v).symm
  constructor
  · intro h i m hm
    obtain ⟨r₀, r, h₀, hr⟩ := exists_results hm
    obtain ⟨hin, hout⟩ := h i m r₀ r hm h₀ hr
    have hvis := visibility_findFunc h₀ hr
    constructor
    · intro hbindgen
      rw [hin hbindgen, hsuffix] at hvis
      exact (hone i).1 (suffixes_inj (List.append_cancel_left hvis)).symm
    · intro hbindgen
      rw [hout hbindgen] at hvis
      nth_rewrite 1 [hnil r₀.visibility] at hvis
      exact (hzero i).1 (suffixes_inj (List.append_cancel_left hvis)).symm
  · intro h i m r₀ r hm h₀ hr
    obtain ⟨hin, hout⟩ := h i m hm
    rw [visibility_findFunc h₀ hr]
    constructor
    · intro hbindgen
      rw [(hone i).2 (hin hbindgen), hsuffix]
    · intro hbindgen
      rw [(hzero i).2 (hout hbindgen), ← hnil]

def tokenImplText : Str :=
  lit "#[near_bindgen]\nimpl Token for Ft \x7b\n    fn supply(&self) -> u8 \x7b\n" rfl ++
  lit "        0\n    \x7d\n\x7d\n" rfl

theorem tokenImpl_applied : ∀ b ∈ [(⟨16, 82, true⟩ : Block)], b.bindgen = true →
    ∃ p, p + 15 ≤ b.start ∧
      lit "#[near_bindgen]" rfl <+: (Text.universalNewlines tokenImplText).drop p := by
  intro b hb _
  rw [List.mem_singleton.1 hb]
  exact ⟨0, by decide, by decide +kernel⟩

/-- A contract with an implementation of a trait. -/
def tokenImpl : Contract where
  text := tokenImplText
  blocks := [⟨16, 82, true⟩]
  blocks_impl := by decide +kernel
  blocks_disjoint := List.pairwise_singleton _ _
  applied := tokenImpl_applied

/-- The function of the trait is not marked. -/
theorem trait_impl_unmarked :
    ¬ ∀ (isWord : Char → Bool) (ignoreTest : Bool) (C : Contract),
      C.SuffixRight isWord ignoreTest := by
  intro h
  have hplace : (matchesOf Text.isAsciiWord false tokenImpl.text).map fnPlace = [40] := by
    decide +kernel
  have hvis : (findFunc Text.isAsciiWord false tokenImpl.text).map Result.visibility
      = (firstPass Text.isAsciiWord false tokenImpl.text).map Result.visibility := by
    decide +kernel
  obtain ⟨m, hm, hmplace⟩ := List.map_eq_singleton_iff.1 hplace
  have hm₀ : (matchesOf Text.isAsciiWord false tokenImpl.text)[0]? = some m := by
    rw [hm]
    rfl
  obtain ⟨r₀, r, h₀, hr⟩ := exists_results hm₀
  -- the word `fn` is in the block
  have hin : tokenImpl.InBindgen m :=
    ⟨⟨16, 82, true⟩, List.mem_singleton_self _, rfl, by rw [hmplace]; decide,
      by rw [hmplace]; decide⟩
  have hmarked := (h Text.isAsciiWord false tokenImpl 0 m r₀ r hm₀ h₀ hr).1 hin
  have hvis₀ := congrArg (·[0]?) hvis
  rw [List.getElem?_map, List.getElem?_map, h₀, hr, Option.map_some, Option.map_some,
    Option.some.injEq, hmarked] at hvis₀
  have hlen₀ := congrArg List.length hvis₀
  rw [List.length_append] at hlen₀
  exact absurd hlen₀ (by simp [suffix, lit])

end FindFunc
