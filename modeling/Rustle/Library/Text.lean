import Mathlib

/-!
# Text as lists of characters

The string operations a scripting language offers on text, with the laws that
make them composable.  A text is the list of its characters.

* `lit` — the text of a string literal.
* `strip` — remove white space at both ends; `strip_append_solid` says that a
  solid character shields what stands on its other side.
* `endswith`, `contains` — suffix and substring tests.  `suffix_sep_iff` and
  `infix_sep_iff` say how a test that carries a separator splits at the last,
  or the only, separator of the text.
* `lines` — a text read line by line with universal newlines;
  `lines_unlines` is the round trip of a file of newline-free lines.
* `words` — a text read word by word; `words_unlines` is the round trip of a
  file that holds one word a line.
* `decimal`, `int` — numerals and how they are read back (`int_decimal`).
-/

/-- A text: the list of its characters. -/
abbrev Str := List Char

namespace Text

/-- The text of a string literal.  The proof hands the characters over, so that
an evaluation need not decode the string: write `lit "text" rfl`. -/
def lit (s : String) {l : Str} (_ : s = String.ofList l) : Str := l

/-! ## White space -/

/-- The characters that count as white space. -/
def isSpace (c : Char) : Bool :=
  c == ' ' || (9 ≤ c.toNat && c.toNat ≤ 13) || (28 ≤ c.toNat && c.toNat ≤ 31) ||
  c.toNat == 0x85 || c.toNat == 0xa0 || c.toNat == 0x1680 ||
  (0x2000 ≤ c.toNat && c.toNat ≤ 0x200a) || c.toNat == 0x2028 || c.toNat == 0x2029 ||
  c.toNat == 0x202f || c.toNat == 0x205f || c.toNat == 0x3000

/-- The letters, digits and the underscore of ASCII. -/
def isAsciiWord (c : Char) : Bool :=
  (lit "abcdefghijklmnopqrstuvwxyzABCDEFGHIJKLMNOPQRSTUVWXYZ0123456789_" rfl).contains c

/-- Remove the leading white space. -/
def lstrip (s : Str) : Str := s.dropWhile isSpace

/-- Remove the trailing white space. -/
def rstrip (s : Str) : Str := s.rdropWhile isSpace

/-- Remove the white space at both ends. -/
def strip (s : Str) : Str := rstrip (lstrip s)

@[simp] theorem strip_nil : strip [] = [] := rfl

/-- A solid character ends what `lstrip` can reach. -/
theorem lstrip_append_solid (a : Str) {c : Char} (b : Str) (hc : isSpace c = false) :
    lstrip (a ++ c :: b) = lstrip a ++ c :: b := by
  induction a with
  | nil => simp [lstrip, hc]
  | cons d a ih =>
    unfold lstrip at ih ⊢
    rw [List.cons_append, List.dropWhile_cons, List.dropWhile_cons]
    by_cases hd : isSpace d = true
    · rw [if_pos hd, if_pos hd, ih]
    · rw [if_neg hd, if_neg hd, List.cons_append]

/-- A solid character ends what `rstrip` can reach. -/
theorem rstrip_append_solid (a : Str) {c : Char} (b : Str) (hc : isSpace c = false) :
    rstrip (a ++ c :: b) = a ++ c :: rstrip b := by
  induction b using List.reverseRecOn with
  | nil =>
    unfold rstrip
    rw [List.rdropWhile_concat_neg _ _ _ (by simp [hc])]
    simp
  | append_singleton b d ih =>
    unfold rstrip at ih ⊢
    rw [← List.cons_append, ← List.append_assoc, List.rdropWhile_concat, ih,
      List.rdropWhile_concat]
    by_cases hd : isSpace d = true
    · rw [if_pos hd, if_pos hd]
    · rw [if_neg hd, if_neg hd]
      simp

/-- What stands around a solid character is stripped on its own side. -/
theorem strip_append_solid (a : Str) {c : Char} (b : Str) (hc : isSpace c = false) :
    strip (a ++ c :: b) = lstrip a ++ c :: rstrip b := by
  rw [strip, lstrip_append_solid a b hc, rstrip_append_solid _ _ hc]

/-- A text that starts and ends with solid characters is left alone. -/
theorem strip_eq_self {s : Str} (hl : lstrip s = s) (hr : rstrip s = s) : strip s = s := by
  rw [strip, hl, hr]

/-- What `rstrip` leaves does not grow when the text is stripped again. -/
theorem rstrip_idem (s : Str) : rstrip (rstrip s) = rstrip s :=
  List.rdropWhile_idempotent _ _

theorem lstrip_eq_nil_or_cons (s : Str) :
    lstrip s = [] ∨ ∃ c t, lstrip s = c :: t ∧ isSpace c = false := by
  induction s with
  | nil => exact Or.inl rfl
  | cons c s ih =>
    unfold lstrip at ih ⊢
    rw [List.dropWhile_cons]
    by_cases hc : isSpace c = true
    · rw [if_pos hc]
      exact ih
    · rw [if_neg hc]
      exact Or.inr ⟨c, s, rfl, by simpa using hc⟩

/-- A stripped text starts with a solid character. -/
theorem lstrip_strip (s : Str) : lstrip (strip s) = strip s := by
  rcases lstrip_eq_nil_or_cons s with h | ⟨c, t, h, hc⟩
  · rw [strip, h]
    rfl
  · have hstrip : strip s = [] ++ c :: rstrip t := by
      rw [strip, h]
      exact rstrip_append_solid [] t hc
    rw [hstrip, lstrip_append_solid [] _ hc]
    rfl

/-- A stripped text ends with a solid character. -/
theorem rstrip_strip (s : Str) : rstrip (strip s) = strip s := rstrip_idem (lstrip s)

/-- Stripping leaves nothing exactly when the text is blank. -/
theorem strip_eq_nil_iff {s : Str} : strip s = [] ↔ ∀ c ∈ s, isSpace c = true := by
  unfold strip rstrip lstrip
  rw [List.rdropWhile_eq_nil_iff]
  constructor
  · intro h c hc
    rw [← List.takeWhile_append_dropWhile (p := isSpace) (l := s)] at hc
    rcases List.mem_append.1 hc with hc | hc
    · exact List.mem_takeWhile_imp hc
    · exact h c hc
  · intro h c hc
    exact h c ((List.dropWhile_sublist _).subset hc)

theorem mem_of_mem_strip {s : Str} {c : Char} (h : c ∈ strip s) : c ∈ s :=
  (List.dropWhile_sublist _).subset ((List.rdropWhile_prefix _ _).subset h)

/-- White space at the end is not seen by `strip`. -/
theorem strip_append_space (s : Str) {c : Char} (hc : isSpace c = true) :
    strip (s ++ [c]) = strip s := by
  have hl : lstrip (s ++ [c]) = if lstrip s = [] then [] else lstrip s ++ [c] := by
    unfold lstrip
    rw [List.dropWhile_append]
    cases h : s.dropWhile isSpace with
    | nil => simp [hc]
    | cons d t => simp
  rw [strip, hl, strip]
  split
  · rename_i h
    rw [h]
  · exact List.rdropWhile_concat_pos _ _ _ hc

/-- Solid characters stay. -/
theorem mem_rstrip {c : Char} (hc : isSpace c = false) {s : Str} : c ∈ rstrip s ↔ c ∈ s := by
  refine ⟨fun h => (List.rdropWhile_prefix isSpace s).subset h, fun h => ?_⟩
  obtain ⟨a, b, rfl⟩ := List.append_of_mem h
  rw [rstrip_append_solid _ _ hc]
  simp

/-! ## Suffixes and substrings -/

/-- Does `s` end with `t`? -/
def endswith (s t : Str) : Bool := decide (t <:+ s)

/-- Does `t` occur in `s`? -/
def contains (s t : Str) : Bool := decide (t <:+: s)

@[simp] theorem endswith_iff {s t : Str} : endswith s t = true ↔ t <:+ s := by
  simp [endswith]

@[simp] theorem contains_iff {s t : Str} : contains s t = true ↔ t <:+: s := by
  simp [contains]

/-- A suffix test whose pattern carries a separator `c` splits at the last `c`:
what follows must be equal, and what precedes is a suffix test again. -/
theorem suffix_sep_iff {c : Char} {a b u v : Str} (hv : c ∉ v) (hb : c ∉ b) :
    a ++ c :: b <:+ u ++ c :: v ↔ a <:+ u ∧ b = v := by
  constructor
  · rintro ⟨w, hw⟩
    have hw' : (w ++ a) ++ c :: b = u ++ c :: v := by rw [← hw]; simp
    rcases List.append_eq_append_iff.1 hw' with ⟨x, hu, hx⟩ | ⟨x, hwa, hx⟩
    · cases x with
      | nil =>
        rw [List.append_nil] at hu
        rw [List.nil_append, List.cons.injEq] at hx
        exact ⟨⟨w, hu.symm⟩, hx.2⟩
      | cons d x =>
        rw [List.cons_append, List.cons.injEq] at hx
        exact absurd (by rw [hx.2]; simp) hb
    · cases x with
      | nil =>
        rw [List.append_nil] at hwa
        rw [List.nil_append, List.cons.injEq] at hx
        exact ⟨⟨w, hwa⟩, hx.2.symm⟩
      | cons d x =>
        rw [List.cons_append, List.cons.injEq] at hx
        exact absurd (by rw [hx.2]; simp) hv
  · rintro ⟨⟨w, rfl⟩, rfl⟩
    exact ⟨w, by simp⟩

/-- A substring test whose pattern contains a character that the text has only
once is decided around that character. -/
theorem infix_sep_iff {c : Char} {a b u v : Str} (hu : c ∉ u) (hv : c ∉ v) :
    a ++ c :: b <:+: u ++ c :: v ↔ a <:+ u ∧ b <+: v := by
  constructor
  · rintro ⟨s, t, h⟩
    have h' : (s ++ a) ++ c :: (b ++ t) = u ++ c :: v := by rw [← h]; simp
    rcases List.append_eq_append_iff.1 h' with ⟨x, hux, hx⟩ | ⟨x, hsa, hx⟩
    · cases x with
      | nil =>
        rw [List.append_nil] at hux
        rw [List.nil_append, List.cons.injEq] at hx
        exact ⟨⟨s, hux.symm⟩, ⟨t, hx.2⟩⟩
      | cons d x =>
        rw [List.cons_append, List.cons.injEq] at hx
        exact absurd (by rw [hux, hx.1]; simp) hu
    · cases x with
      | nil =>
        rw [List.append_nil] at hsa
        rw [List.nil_append, List.cons.injEq] at hx
        exact ⟨⟨s, hsa⟩, ⟨t, hx.2.symm⟩⟩
      | cons d x =>
        rw [List.cons_append, List.cons.injEq] at hx
        exact absurd (by rw [hx.2]; simp) hv
  · rintro ⟨⟨s, rfl⟩, ⟨t, rfl⟩⟩
    exact ⟨s, t, by simp⟩

/-- A text without the separator is a suffix exactly of what follows the last
separator. -/
theorem suffix_after_sep_iff {c : Char} {a p b : Str} (ha : c ∉ a) :
    a <:+ p ++ c :: b ↔ a <:+ b := by
  refine ⟨fun h => ?_, fun h => h.trans ⟨p ++ [c], by simp⟩⟩
  rcases List.suffix_or_suffix_of_suffix h (List.suffix_append p (c :: b)) with h | h
  · rcases List.suffix_cons_iff.1 h with rfl | h
    · exact absurd (List.mem_cons_self ..) ha
    · exact h
  · exact absurd (h.subset (List.mem_cons_self ..)) ha

/-- A substring test whose pattern carries a separator, on a text that may carry
it several times: it succeeds at the first separator, or behind it. -/
theorem infix_first_sep_iff {c : Char} {a b u v : Str} (ha : c ∉ a) (hu : c ∉ u) :
    a ++ c :: b <:+: u ++ c :: v ↔ (a <:+ u ∧ b <+: v) ∨ a ++ c :: b <:+: v := by
  refine ⟨?_, ?_⟩
  · rintro ⟨s, t, h⟩
    have h' : s ++ (a ++ c :: (b ++ t)) = u ++ c :: v := by rw [← h]; simp
    rcases List.append_eq_append_iff.1 h' with ⟨x, hux, hx⟩ | ⟨x, hsa, hx⟩
    · left
      rcases List.append_eq_append_iff.1 hx with ⟨y, hxa, hy⟩ | ⟨y, hay, hy⟩
      · cases y with
        | nil =>
          rw [List.append_nil] at hxa
          rw [List.nil_append, List.cons.injEq] at hy
          exact ⟨⟨s, by rw [hux, hxa]⟩, ⟨t, hy.2⟩⟩
        | cons d y =>
          rw [List.cons_append, List.cons.injEq] at hy
          exact absurd (by rw [hux, hxa, hy.1]; simp) hu
      · cases y with
        | nil =>
          rw [List.append_nil] at hay
          rw [List.nil_append, List.cons.injEq] at hy
          exact ⟨⟨s, by rw [hux, hay]⟩, ⟨t, hy.2.symm⟩⟩
        | cons d y =>
          rw [List.cons_append, List.cons.injEq] at hy
          exact absurd (by rw [hay, hy.1]; simp) ha
    · cases x with
      | nil =>
        rw [List.append_nil] at hsa
        cases a with
        | nil =>
          left
          rw [List.nil_append, List.nil_append, List.cons.injEq] at hx
          exact ⟨List.nil_suffix, ⟨t, hx.2.symm⟩⟩
        | cons d a =>
          rw [List.nil_append, List.cons_append, List.cons.injEq] at hx
          exact absurd (by rw [hx.1]; simp) ha
      | cons d x =>
        right
        rw [List.cons_append, List.cons.injEq] at hx
        exact ⟨x, t, by rw [hx.2]; simp⟩
  · rintro (⟨⟨s, rfl⟩, ⟨t, rfl⟩⟩ | ⟨s, t, rfl⟩)
    · exact ⟨s, t, by simp⟩
    · exact ⟨u ++ c :: s, t, by simp⟩

/-! ## Splitting and joining -/

/-- No piece of a split contains the separator. -/
theorem not_mem_of_mem_splitOn {c : Char} {s l : Str} (h : l ∈ s.splitOn c) : c ∉ l := by
  induction s generalizing l with
  | nil => simp at h; subst h; simp
  | cons d s ih =>
    rw [List.splitOn_cons_eq_if_modifyHead] at h
    split at h
    · rcases List.mem_cons.1 h with rfl | h
      · simp
      · exact ih h
    · rename_i hd
      obtain ⟨x, xs, hx⟩ := List.exists_cons_of_ne_nil (List.splitOn_ne_nil c s)
      rw [hx] at h
      rcases List.mem_cons.1 h with rfl | h
      · intro hc
        rcases List.mem_cons.1 hc with rfl | hc
        · simp at hd
        · exact ih (by rw [hx]; simp) hc
      · exact ih (by rw [hx]; simp [h])

/-- A text with the separator splits into two pieces at least. -/
theorem splitOn_of_mem {c : Char} {s : Str} (h : c ∈ s) : ∃ u v w, s.splitOn c = u :: v :: w := by
  obtain ⟨u, t, hu⟩ := List.exists_cons_of_ne_nil (List.splitOn_ne_nil c s)
  cases t with
  | nil =>
    have hjoin : [c].intercalate (s.splitOn c) = s := List.intercalate_splitOn c
    rw [hu, List.intercalate_singleton] at hjoin
    exact absurd (hjoin ▸ h) (not_mem_of_mem_splitOn (by rw [hu]; exact List.mem_singleton_self u))
  | cons v w => exact ⟨u, v, w, hu⟩

/-- A character of joined pieces stands in the separator or in a piece. -/
theorem mem_of_mem_intercalate {sep : Str} {c : Char} {ls : List Str}
    (h : c ∈ sep.intercalate ls) : c ∈ sep ∨ ∃ l ∈ ls, c ∈ l := by
  induction ls with
  | nil => simp at h
  | cons x xs ih =>
    cases xs with
    | nil =>
      rw [List.intercalate_singleton] at h
      exact Or.inr ⟨x, List.mem_cons_self, h⟩
    | cons y ys =>
      rw [List.intercalate_cons_cons, List.mem_append, List.mem_append] at h
      rcases h with (h | h) | h
      · exact Or.inr ⟨x, List.mem_cons_self, h⟩
      · exact Or.inl h
      · rcases ih h with h | ⟨l, hl, hc⟩
        · exact Or.inl h
        · exact Or.inr ⟨l, List.mem_cons_of_mem x hl, hc⟩

/-- A character of a piece is a character of the joined pieces. -/
theorem mem_intercalate_of_mem {sep l : Str} {c : Char} {ls : List Str} (h : l ∈ ls) (hc : c ∈ l) :
    c ∈ sep.intercalate ls := by
  induction ls with
  | nil => simp at h
  | cons x xs ih =>
    cases xs with
    | nil => simp at h; subst h; simpa using hc
    | cons y ys =>
      rw [List.intercalate_cons_cons]
      rcases List.mem_cons.1 h with rfl | h
      · simp [hc]
      · simp [ih h]

/-- A piece has no other characters than the text. -/
theorem mem_of_mem_splitOn {c d : Char} {s l : Str} (h : l ∈ s.splitOn d) (hc : c ∈ l) : c ∈ s := by
  have hjoin : [d].intercalate (s.splitOn d) = s := List.intercalate_splitOn d
  rw [← hjoin]
  exact mem_intercalate_of_mem h hc

/-! ## Lines -/

/-- Universal newlines: a carriage return, with or without a line feed after
it, is read as a line feed. -/
def universalNewlines : Str → Str
  | [] => []
  | '\r' :: '\n' :: s => '\n' :: universalNewlines s
  | '\r' :: s => '\n' :: universalNewlines s
  | c :: s => c :: universalNewlines s

/-- The lines of a text, without their newlines.  What follows the last newline
is a line only when it is not empty. -/
def lines (text : Str) : List Str :=
  let pieces := (universalNewlines text).splitOn '\n'
  if pieces.getLast? = some [] then pieces.dropLast else pieces

/-- The file whose lines are `ls`. -/
def unlines (ls : List Str) : Str := (ls.map (· ++ ['\n'])).flatten

theorem universalNewlines_eq_self {s : Str} (h : '\r' ∉ s) : universalNewlines s = s := by
  fun_induction universalNewlines s with
  | case1 => rfl
  | case2 s ih => simp at h
  | case3 s hs ih => simp at h
  | case4 c s h1 h2 ih => rw [ih (fun hc => h (List.mem_cons_of_mem _ hc))]

theorem cr_not_mem_universalNewlines (s : Str) : '\r' ∉ universalNewlines s := by
  fun_induction universalNewlines s with
  | case1 => simp
  | case2 s ih => simpa using ih
  | case3 s hs ih => simpa using ih
  | case4 c s h1 h2 ih =>
    intro hc
    rcases List.mem_cons.1 hc with hc | hc
    · exact h2 hc.symm
    · exact ih hc

theorem unlines_cons (l : Str) (ls : List Str) : unlines (l :: ls) = l ++ '\n' :: unlines ls := by
  simp [unlines]

theorem unlines_append (ls ls' : List Str) : unlines (ls ++ ls') = unlines ls ++ unlines ls' := by
  simp [unlines]

theorem cr_not_mem_unlines {ls : List Str} (h : ∀ l ∈ ls, '\r' ∉ l) : '\r' ∉ unlines ls := by
  intro hc
  obtain ⟨m, hm, hcm⟩ := List.mem_flatten.1 hc
  obtain ⟨l, hl, rfl⟩ := List.mem_map.1 hm
  rcases List.mem_append.1 hcm with hcl | hcl
  · exact h l hl hcl
  · simp at hcl

theorem splitOn_unlines {ls : List Str} (h : ∀ l ∈ ls, '\n' ∉ l) :
    (unlines ls).splitOn '\n' = ls ++ [[]] := by
  induction ls with
  | nil => rfl
  | cons l ls ih =>
    rw [unlines_cons, List.splitOn_append_cons_self_of_not_mem (h l (by simp)),
      ih (fun x hx => h x (by simp [hx])), List.cons_append]

/-- A file of newline-free lines is read back line by line. -/
theorem lines_unlines {ls : List Str} (h : ∀ l ∈ ls, '\n' ∉ l ∧ '\r' ∉ l) :
    lines (unlines ls) = ls := by
  have hcr : '\r' ∉ unlines ls := cr_not_mem_unlines fun l hl => (h l hl).2
  rw [lines, universalNewlines_eq_self hcr, splitOn_unlines (fun l hl => (h l hl).1)]
  simp

/-- No line contains a newline character of either kind. -/
theorem newline_not_mem_lines {text l : Str} (h : l ∈ lines text) : '\n' ∉ l ∧ '\r' ∉ l := by
  have hmem : l ∈ (universalNewlines text).splitOn '\n' := by
    unfold lines at h
    simp only at h
    split at h
    · exact List.mem_of_mem_dropLast h
    · exact h
  exact ⟨not_mem_of_mem_splitOn hmem,
    fun hc => cr_not_mem_universalNewlines text (mem_of_mem_splitOn hmem hc)⟩

/-- `f.readline()` on what is left of the file: the line, with its newline if it has
one, and the rest. -/
def readline (f : Str) : Str × Str :=
  match f.dropWhile (· != '\n') with
  | [] => (f.takeWhile (· != '\n'), [])
  | c :: rest => (f.takeWhile (· != '\n') ++ [c], rest)

theorem readline_line {l : Str} (h : '\n' ∉ l) (rest : Str) :
    readline (l ++ '\n' :: rest) = (l ++ ['\n'], rest) := by
  have hl : ∀ c ∈ l, (c != '\n') = true := by
    intro c hc
    have : c ≠ '\n' := by
      rintro rfl
      exact h hc
    simpa using this
  rw [readline, List.dropWhile_append_of_pos hl, List.takeWhile_append_of_pos hl]
  simp

/-! ## Words -/

/-- The characters that separate words in the classic locale. -/
def isBlank (c : Char) : Bool := c == ' ' || (9 ≤ c.toNat && c.toNat ≤ 13)

/-- The words of a text, in order. -/
def words (text : Str) : List Str := (text.splitOnP isBlank).filter fun w => !w.isEmpty

/-- A file that holds one word a line is read back word by word. -/
theorem words_unlines {ls : List Str} (h : ∀ l ∈ ls, l ≠ [] ∧ ∀ c ∈ l, isBlank c = false) :
    words (unlines ls) = ls := by
  have hsplit : (unlines ls).splitOnP isBlank = ls ++ [[]] := by
    induction ls with
    | nil => rfl
    | cons l ls ih =>
      have hword : ∀ c ∈ l, isBlank c = false := (h l (by simp)).2
      rw [unlines_cons, List.splitOnP_append_cons_of_forall_mem hword _ (by decide),
        ih (fun x hx => h x (by simp [hx])), List.cons_append]
  rw [words, hsplit, List.filter_append, List.filter_eq_self.2]
  · simp
  · intro l hl
    simpa using (h l hl).1

/-! ## Numerals -/

/-- The decimal numeral of a natural number. -/
def decimal (n : Nat) : Str := Nat.toDigits 10 n

/-- The decimal numeral of an integer. -/
def intStr : Int → Str
  | .ofNat n => decimal n
  | .negSucc n => '-' :: decimal (n + 1)

/-- Read a run of digits in which single underscores may separate groups. -/
def digits (s : Str) : Option Nat :=
  if (s.splitOn '_').all (fun g => decide (g ≠ []) && g.all Char.isDigit) then
    some (Nat.ofDigitChars 10 (s.filter (· != '_')) 0)
  else none

/-- Read an integer: white space around it and one sign before it are allowed. -/
def int (s : Str) : Option Int :=
  match strip s with
  | '-' :: ds => (digits ds).map fun n => -(n : Int)
  | '+' :: ds => (digits ds).map fun n => (n : Int)
  | ds => (digits ds).map fun n => (n : Int)

theorem isDigit_of_mem_decimal {n : Nat} {c : Char} (h : c ∈ decimal n) : c.isDigit = true :=
  Nat.isDigit_of_mem_toDigits (by decide) (by decide) h

theorem decimal_ne_nil (n : Nat) : decimal n ≠ [] := Nat.toDigits_ne_nil

theorem isSpace_of_isDigit {c : Char} (h : c.isDigit = true) : isSpace c = false := by
  have h' : 48 ≤ c.toNat ∧ c.toNat ≤ 57 := Char.isDigit_iff_toNat.1 h
  have hs : (c == ' ') = false := by
    rw [beq_eq_false_iff_ne]
    rintro rfl
    exact absurd h'.1 (by decide)
  unfold isSpace
  simp only [hs, Bool.or_eq_false_iff, Bool.and_eq_false_iff, decide_eq_false_iff_not,
    beq_eq_false_iff_ne, Bool.false_or]
  omega

theorem digits_decimal (n : Nat) : digits (decimal n) = some n := by
  have hus : '_' ∉ decimal n := Nat.underscore_not_in_toDigits
  have hall : (decimal n).all Char.isDigit = true :=
    List.all_eq_true.2 fun c hc => isDigit_of_mem_decimal hc
  have hfil : (decimal n).filter (· != '_') = decimal n := by
    rw [List.filter_eq_self]
    intro c hc
    have : c ≠ '_' := fun h => hus (h ▸ hc)
    simpa using this
  rw [digits, List.splitOn_eq_singleton hus, hfil, List.all_cons, List.all_nil, Bool.and_true,
    hall, decide_eq_true (decimal_ne_nil n), Bool.and_true, if_pos rfl, decimal,
    Nat.ofDigitChars_ten_toDigits]

/-- A solid text is its own strip. -/
theorem strip_of_all_solid {s : Str} (h : ∀ c ∈ s, isSpace c = false) : strip s = s := by
  have hl : lstrip s = s := by
    cases s with
    | nil => rfl
    | cons c s => simp [lstrip, h c (by simp)]
  refine strip_eq_self hl ?_
  rw [rstrip, List.rdropWhile_eq_self_iff]
  intro hne
  simp [h _ (List.getLast_mem hne)]

/-- A written numeral is read back. -/
theorem int_decimal (n : Nat) : int (decimal n) = some (n : Int) := by
  have hstrip : strip (decimal n) = decimal n :=
    strip_of_all_solid fun c hc => isSpace_of_isDigit (isDigit_of_mem_decimal hc)
  obtain ⟨c, s, hs⟩ := List.exists_cons_of_ne_nil (decimal_ne_nil n)
  have hc : c.isDigit = true := isDigit_of_mem_decimal (by rw [hs]; simp)
  have hd := digits_decimal n
  rw [hs] at hstrip hd
  rw [int, hs, hstrip]
  split
  · rename_i heq
    simp only [List.cons.injEq] at heq
    rw [heq.1] at hc
    exact absurd hc (by decide)
  · rename_i heq
    simp only [List.cons.injEq] at heq
    rw [heq.1] at hc
    exact absurd hc (by decide)
  · rw [hd]; rfl

/-- A written numeral is read back, with its sign. -/
theorem int_intStr (n : Int) : int (intStr n) = some n := by
  cases n with
  | ofNat n => exact int_decimal n
  | negSucc n =>
    have hstrip : strip ('-' :: decimal (n + 1)) = '-' :: decimal (n + 1) := by
      apply strip_of_all_solid
      intro c hc
      rcases List.mem_cons.1 hc with rfl | hc
      · decide
      · exact isSpace_of_isDigit (isDigit_of_mem_decimal hc)
    rw [intStr, int, hstrip]
    simp only [digits_decimal]
    rfl

/-- A numeral consists of digits, and perhaps a sign. -/
theorem mem_intStr {n : Int} {c : Char} (h : c ∈ intStr n) : c = '-' ∨ c.isDigit = true := by
  cases n with
  | ofNat n => exact Or.inr (isDigit_of_mem_decimal h)
  | negSucc n => exact (List.mem_cons.1 h).imp_right isDigit_of_mem_decimal

theorem isSpace_of_mem_intStr {n : Int} {c : Char} (h : c ∈ intStr n) : isSpace c = false := by
  rcases mem_intStr h with rfl | h
  · decide
  · exact isSpace_of_isDigit h

theorem rstrip_intStr (n : Int) : rstrip (intStr n) = intStr n := by
  have h := rstrip_strip (intStr n)
  rwa [strip_of_all_solid fun c hc => isSpace_of_mem_intStr hc] at h

/-- Integers with the same numeral are the same. -/
theorem intStr_injective : Function.Injective intStr := by
  intro a b h
  have hint := congrArg int h
  rwa [int_intStr, int_intStr, Option.some.injEq] at hint

end Text
