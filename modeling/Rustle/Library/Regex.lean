import Rustle.Library.Text

/-!
# Extended regular expressions

The extended regular expressions of POSIX as far as search patterns use them:
characters, the dot, bracket expressions of ranges, groups, alternatives, the
repetitions star, plus and question mark, and the two anchors.

* `RE`, `Matches` — the syntax, and the relation that says which positions an
  expression can lead to from a position.  The anchors `^` and `$` hold only at
  the very start and the very end of the text, wherever they stand in the
  expression.
* `ends` — the matcher, as a list of possible end positions; `mem_ends` says it
  computes exactly `Matches`.
* `search` — does the expression match somewhere in the text?  `search_iff` is
  its specification.
* `parse` — from the text of a pattern to the expression, `none` for a pattern
  the compiler rejects.
* `matchPattern_plain` — what a pattern of letters, dots and dollar signs
  matches; `matchPattern_dollar` says that a dollar sign **inside** such a
  pattern keeps it from matching anything.
-/

namespace Regex

/-- An extended regular expression. -/
inductive RE where
  /-- The empty text. -/
  | eps
  /-- Any single character. -/
  | any
  /-- One character out of a list of ranges. -/
  | set (ranges : List (Char × Char))
  /-- The start of the text. -/
  | bol
  /-- The end of the text. -/
  | eol
  /-- One after the other. -/
  | seq (a b : RE)
  /-- Either one. -/
  | alt (a b : RE)
  /-- Any number of times. -/
  | star (a : RE)

/-- A position in a text: whether it is the very start, and what is left. -/
structure Pos where
  /-- Nothing of the text lies before this position. -/
  start : Bool
  /-- The text from this position on. -/
  rest : Str

/-- Is the character in one of the ranges? -/
def inRanges (ranges : List (Char × Char)) (c : Char) : Bool :=
  ranges.any fun r => Nat.ble r.1.toNat c.toNat && Nat.ble c.toNat r.2.toNat

/-! ## Meaning -/

/-- `Matches r p q`: the expression `r` matches the text between `p` and `q`. -/
inductive Matches : RE → Pos → Pos → Prop where
  | eps (p : Pos) : Matches .eps p p
  | any (b : Bool) (c : Char) (s : Str) : Matches .any ⟨b, c :: s⟩ ⟨false, s⟩
  | set {ranges : List (Char × Char)} (b : Bool) {c : Char} (s : Str)
      (h : inRanges ranges c = true) : Matches (.set ranges) ⟨b, c :: s⟩ ⟨false, s⟩
  | bol (s : Str) : Matches .bol ⟨true, s⟩ ⟨true, s⟩
  | eol (b : Bool) : Matches .eol ⟨b, []⟩ ⟨b, []⟩
  | seq {a b : RE} {p q r : Pos} (ha : Matches a p q) (hb : Matches b q r) :
      Matches (.seq a b) p r
  | altLeft {a b : RE} {p q : Pos} (h : Matches a p q) : Matches (.alt a b) p q
  | altRight {a b : RE} {p q : Pos} (h : Matches b p q) : Matches (.alt a b) p q
  | starNil (a : RE) (p : Pos) : Matches (.star a) p p
  | starCons {a : RE} {p q r : Pos} (ha : Matches a p q) (hs : Matches (.star a) q r) :
      Matches (.star a) p r

/-- A match either consumes something or stays where it is. -/
theorem Matches.eq_or_shorter {r : RE} {p q : Pos} (h : Matches r p q) :
    q = p ∨ q.rest.length < p.rest.length := by
  induction h with
  | eps p => exact Or.inl rfl
  | any b c s => exact Or.inr (by simp)
  | set b s h => exact Or.inr (by simp)
  | bol s => exact Or.inl rfl
  | eol b => exact Or.inl rfl
  | seq ha hb iha ihb =>
    rcases iha with rfl | ha'
    · exact ihb
    · rcases ihb with rfl | hb'
      · exact Or.inr ha'
      · exact Or.inr (lt_trans hb' ha')
  | altLeft h ih => exact ih
  | altRight h ih => exact ih
  | starNil a p => exact Or.inl rfl
  | starCons ha hs iha ihs =>
    rcases iha with rfl | ha'
    · exact ihs
    · rcases ihs with rfl | hs'
      · exact Or.inr ha'
      · exact Or.inr (lt_trans hs' ha')

/-! ## The matcher -/

/-- Repeat a matcher as long as it consumes something. -/
def starEnds (f : Pos → List Pos) : Nat → Pos → List Pos
  | 0, p => [p]
  | n + 1, p =>
      p :: ((f p).filter fun q => decide (q.rest.length < p.rest.length)).flatMap (starEnds f n)

/-- The positions an expression can lead to from `p`. -/
def ends : RE → Pos → List Pos
  | .eps, p => [p]
  | .any, p =>
      match p.rest with
      | [] => []
      | _ :: s => [⟨false, s⟩]
  | .set ranges, p =>
      match p.rest with
      | [] => []
      | c :: s => if inRanges ranges c then [⟨false, s⟩] else []
  | .bol, p => if p.start then [p] else []
  | .eol, p => if p.rest.isEmpty then [p] else []
  | .seq a b, p => (ends a p).flatMap (ends b)
  | .alt a b, p => ends a p ++ ends b p
  | .star a, p => starEnds (ends a) p.rest.length p

theorem matches_of_mem_starEnds {a : RE} (ih : ∀ p q, q ∈ ends a p → Matches a p q) :
    ∀ (n : Nat) (p q : Pos), q ∈ starEnds (ends a) n p → Matches (.star a) p q := by
  intro n
  induction n with
  | zero =>
    intro p q hq
    rw [starEnds, List.mem_singleton] at hq
    subst hq
    exact .starNil a q
  | succ n ihn =>
    intro p q hq
    rw [starEnds] at hq
    rcases List.mem_cons.1 hq with rfl | hq
    · exact .starNil a q
    · obtain ⟨m, hm, hq⟩ := List.mem_flatMap.1 hq
      exact .starCons (ih p m (List.mem_filter.1 hm).1) (ihn m q hq)

/-- With as much fuel as there is text, every repetition is found: a round that
consumes nothing can be left out. -/
theorem mem_starEnds_of_matches {a : RE} (ih : ∀ p q, Matches a p q → q ∈ ends a p)
    {r : RE} {p q : Pos} (h : Matches r p q) (hr : r = .star a) :
    ∀ n, p.rest.length ≤ n → q ∈ starEnds (ends a) n p := by
  induction h with
  | starNil a' p =>
    intro n _
    cases n <;> simp [starEnds]
  | @starCons a' p m q ha hs iha ihs =>
    cases hr
    intro n hn
    rcases ha.eq_or_shorter with rfl | hlt
    · exact ihs rfl n hn
    · obtain ⟨n, rfl⟩ : ∃ k, n = k + 1 := ⟨n - 1, by omega⟩
      rw [starEnds]
      refine List.mem_cons_of_mem _ (List.mem_flatMap.2 ⟨m, ?_, ihs rfl n (by omega)⟩)
      exact List.mem_filter.2 ⟨ih p m ha, by simpa using hlt⟩
  | eps | any | set | bol | eol | seq | altLeft | altRight => cases hr

/-- The matcher computes exactly the matches. -/
theorem mem_ends (r : RE) : ∀ p q, q ∈ ends r p ↔ Matches r p q := by
  induction r with
  | eps =>
    intro p q
    constructor
    · intro h; rw [ends, List.mem_singleton] at h; subst h; exact .eps q
    · intro h; cases h; simp [ends]
  | any =>
    rintro ⟨b, s⟩ q
    constructor
    · intro h
      cases s with
      | nil => simp [ends] at h
      | cons c s => simp [ends] at h; subst h; exact .any b c s
    · intro h; cases h; simp [ends]
  | set ranges =>
    rintro ⟨b, s⟩ q
    constructor
    · intro h
      cases s with
      | nil => simp [ends] at h
      | cons c s =>
        simp only [ends] at h
        split at h
        · rename_i hc; simp at h; subst h; exact .set b s hc
        · simp at h
    · intro h
      cases h with
      | set _ _ hc => simp [ends, hc]
  | bol =>
    rintro ⟨b, s⟩ q
    constructor
    · intro h
      cases b with
      | false => simp [ends] at h
      | true => simp [ends] at h; subst h; exact .bol s
    · intro h; cases h; simp [ends]
  | eol =>
    rintro ⟨b, s⟩ q
    constructor
    · intro h
      cases s with
      | nil => simp [ends] at h; subst h; exact .eol b
      | cons c s => simp [ends] at h
    · intro h; cases h; simp [ends]
  | seq a b iha ihb =>
    intro p q
    rw [ends, List.mem_flatMap]
    constructor
    · rintro ⟨m, hm, hq⟩
      exact .seq ((iha p m).1 hm) ((ihb m q).1 hq)
    · intro h
      cases h with
      | seq ha hb => exact ⟨_, (iha p _).2 ha, (ihb _ q).2 hb⟩
  | alt a b iha ihb =>
    intro p q
    rw [ends, List.mem_append]
    constructor
    · rintro (h | h)
      · exact .altLeft ((iha p q).1 h)
      · exact .altRight ((ihb p q).1 h)
    · intro h
      cases h with
      | altLeft h => exact Or.inl ((iha p q).2 h)
      | altRight h => exact Or.inr ((ihb p q).2 h)
  | star a ih =>
    intro p q
    rw [ends]
    constructor
    · exact matches_of_mem_starEnds (fun p q => (ih p q).1) _ p q
    · intro h
      exact mem_starEnds_of_matches (fun p q => (ih p q).2) h rfl _ le_rfl

/-- All positions of a text. -/
def positions (s : Str) : List Pos :=
  ⟨true, s⟩ :: s.tails.tail.map fun t => ⟨false, t⟩

/-- Does the expression match somewhere in the text? -/
def search (r : RE) (s : Str) : Bool :=
  (positions s).any fun p => !(ends r p).isEmpty

theorem search_iff {r : RE} {s : Str} :
    search r s = true ↔ ∃ p ∈ positions s, ∃ q, Matches r p q := by
  rw [search, List.any_eq_true]
  constructor
  · rintro ⟨p, hp, h⟩
    obtain ⟨q, hq⟩ : ∃ q, q ∈ ends r p := by
      apply List.exists_mem_of_ne_nil
      intro he
      simp [he] at h
    exact ⟨p, hp, q, (mem_ends r p q).1 hq⟩
  · rintro ⟨p, hp, q, hq⟩
    have hne : ends r p ≠ [] := List.ne_nil_of_mem ((mem_ends r p q).2 hq)
    exact ⟨p, hp, by simpa using hne⟩

/-! ## Patterns -/

/-- What a character of a pattern stands for. -/
inductive Token where
  | opn | close | openBracket | closeBracket | bar | star | plus | opt | dot | caret | dollar
  | dash | backslash
  | lit (c : Char)

/-- Read one character of a pattern. -/
def token : Char → Token
  | '(' => .opn
  | ')' => .close
  | '[' => .openBracket
  | ']' => .closeBracket
  | '|' => .bar
  | '*' => .star
  | '+' => .plus
  | '?' => .opt
  | '.' => .dot
  | '^' => .caret
  | '$' => .dollar
  | '-' => .dash
  | '\\' => .backslash
  | c => .lit c

/-- A group being parsed: the alternatives already closed, and the pieces of
the current one, the last piece first. -/
structure Frame where
  /-- The alternatives before the current one. -/
  done : Option RE
  /-- The pieces of the current alternative, in reverse. -/
  pieces : List RE

/-- The concatenation of the pieces, which are given in reverse; an empty
alternative is an error. -/
def branch : List RE → Option RE
  | [] => none
  | [r] => some r
  | r :: rs => (branch rs).map fun a => .seq a r

/-- Close the current alternative of a group. -/
def Frame.close (f : Frame) : Option RE :=
  (branch f.pieces).map fun b =>
    match f.done with
    | none => b
    | some a => .alt a b

/-- Add a piece to the current alternative. -/
def Frame.push (f : Frame) (r : RE) : Frame := { f with pieces := r :: f.pieces }

/-- Replace the last piece by a repetition of it; with nothing to repeat the
pattern is an error. -/
def Frame.repeated (f : Frame) (g : RE → RE) : Option Frame :=
  match f.pieces with
  | [] => none
  | r :: rs => some { f with pieces := g r :: rs }

/-- What the parser is inside of. -/
inductive Mode where
  /-- Outside brackets. -/
  | plain
  /-- Right after a backslash. -/
  | escape
  /-- Inside a bracket expression: the ranges so far and the last character,
  which may still open a range. -/
  | bracket (ranges : List (Char × Char)) (last : Option Char)
  /-- Inside a bracket expression, after a character and a dash. -/
  | range (ranges : List (Char × Char)) (low : Char)

/-- One character inside a bracket expression; `none` when it closes it. -/
def Mode.next (ranges : List (Char × Char)) (last : Option Char) (t : Token) (c : Char) :
    Option Mode :=
  match t, last with
  | .closeBracket, _ => none
  | .dash, some low => some (.range ranges low)
  | _, _ => some (.bracket ((c, c) :: ranges) (some c))

/-- One character outside brackets: the group being parsed, the groups around
it, and the mode of the next character. -/
def step (t : Token) (c : Char) (f : Frame) (stack : List Frame) :
    Option (Mode × Frame × List Frame) :=
  match t with
  | .opn => some (.plain, ⟨none, []⟩, f :: stack)
  | .close =>
      match stack with
      | [] => none
      | g :: stack => f.close.map fun r => (.plain, g.push r, stack)
  | .bar => f.close.map fun r => (.plain, ⟨some r, []⟩, stack)
  | .star => (f.repeated .star).map fun f => (.plain, f, stack)
  | .plus => (f.repeated fun r => .seq r (.star r)).map fun f => (.plain, f, stack)
  | .opt => (f.repeated fun r => .alt r .eps).map fun f => (.plain, f, stack)
  | .dot => some (.plain, f.push .any, stack)
  | .caret => some (.plain, f.push .bol, stack)
  | .dollar => some (.plain, f.push .eol, stack)
  | .backslash => some (.escape, f, stack)
  | .openBracket => some (.bracket [] none, f, stack)
  | .closeBracket | .dash | .lit _ => some (.plain, f.push (.set [(c, c)]), stack)

/-- The pattern parser, one character at a time. -/
def parseFrom : Str → Mode → Frame → List Frame → Option RE
  | [], .plain, f, [] => f.close
  | [], _, _, _ => none
  | c :: s, .plain, f, stack =>
      match step (token c) c f stack with
      | none => none
      | some (mode, f, stack) => parseFrom s mode f stack
  | c :: s, .escape, f, stack => parseFrom s .plain (f.push (.set [(c, c)])) stack
  | c :: s, .bracket ranges last, f, stack =>
      match Mode.next ranges last (token c) c with
      | none => parseFrom s .plain (f.push (.set ranges)) stack
      | some mode => parseFrom s mode f stack
  | c :: s, .range ranges low, f, stack =>
      match token c with
      | .closeBracket => parseFrom s .plain (f.push (.set (('-', '-') :: ranges))) stack
      | _ => parseFrom s (.bracket ((low, c) :: ranges) none) f stack

/-- Compile a pattern; `none` when the pattern is malformed. -/
def parse (pattern : Str) : Option RE := parseFrom pattern .plain ⟨none, []⟩ []

/-- Match a text against a pattern: somewhere in the text.  A malformed pattern
matches nothing. -/
def matchPattern (pattern text : Str) : Bool :=
  match parse pattern with
  | none => false
  | some r => search r text

/-! ## Plain patterns -/

/-- A character that stands for itself, for any character, or for the end. -/
def Plain (c : Char) : Prop :=
  match token c with
  | .dot | .dollar | .lit _ => True
  | _ => False

/-- The expression of a plain character. -/
def atom (c : Char) : RE :=
  match token c with
  | .dot => .any
  | .dollar => .eol
  | _ => .set [(c, c)]

/-- Does the text start the way a plain pattern says? -/
def agrees : Str → Str → Bool
  | [], _ => true
  | c :: p, s =>
    match token c, s with
    | .dollar, [] => agrees p []
    | .dollar, _ :: _ => false
    | .dot, _ :: s => agrees p s
    | .dot, [] => false
    | _, d :: s => d == c && agrees p s
    | _, [] => false

/-- One expression after the other. -/
def Chain : List RE → Pos → Pos → Prop
  | [], p, q => p = q
  | r :: rs, p, q => ∃ m, Matches r p m ∧ Chain rs m q

theorem chain_append {rs rs' : List RE} {p q : Pos} :
    Chain (rs ++ rs') p q ↔ ∃ m, Chain rs p m ∧ Chain rs' m q := by
  induction rs generalizing p with
  | nil => simp [Chain]
  | cons r rs ih =>
    simp only [List.cons_append, Chain, ih]
    constructor
    · rintro ⟨m, hm, n, hn, hq⟩
      exact ⟨n, ⟨m, hm, hn⟩, hq⟩
    · rintro ⟨n, ⟨m, hm, hn⟩, hq⟩
      exact ⟨m, hm, n, hn, hq⟩

theorem matches_branch {ps : List RE} {r : RE} (h : branch ps = some r) {p q : Pos} :
    Matches r p q ↔ Chain ps.reverse p q := by
  induction ps generalizing r q with
  | nil => simp [branch] at h
  | cons a ps ih =>
    cases ps with
    | nil =>
      rw [branch, Option.some.injEq] at h
      subst h
      simp [Chain]
    | cons b ps =>
      simp only [branch, Option.map_eq_some_iff] at h
      obtain ⟨s, hs, rfl⟩ := h
      rw [List.reverse_cons, chain_append]
      constructor
      · intro hm
        cases hm with
        | seq ha hb => exact ⟨_, (ih hs).1 ha, _, hb, rfl⟩
      · rintro ⟨m, hm, _, hb, rfl⟩
        exact .seq ((ih hs).2 hm) hb

theorem parseFrom_plain {p : Str} (h : ∀ c ∈ p, Plain c) (rs : List RE) :
    parseFrom p .plain ⟨none, rs⟩ [] = branch (p.reverse.map atom ++ rs) := by
  induction p generalizing rs with
  | nil =>
    rw [parseFrom, Frame.close]
    simp
  | cons c p ih =>
    have hc := h c (by simp)
    have hstep : step (token c) c ⟨none, rs⟩ [] = some (.plain, ⟨none, atom c :: rs⟩, []) := by
      unfold Plain at hc
      unfold atom
      split at hc <;> rename_i ht <;> simp [ht, step, Frame.push] at hc ⊢
    simp only [parseFrom, hstep]
    rw [ih (fun d hd => h d (by simp [hd]))]
    simp

/-- One character of a plain pattern. -/
theorem agrees_cons {c : Char} (hc : Plain c) (p : Str) (b : Bool) (s : Str) :
    agrees (c :: p) s = true ↔ ∃ q, Matches (atom c) ⟨b, s⟩ q ∧ agrees p q.rest = true := by
  unfold Plain at hc
  unfold atom
  cases ht : token c with
  | dot =>
    cases s with
    | nil =>
      simp only [agrees, ht, Bool.false_eq_true, false_iff]
      rintro ⟨q, hm, -⟩
      cases hm
    | cons d s =>
      simp only [agrees, ht]
      refine ⟨fun ha => ⟨_, .any b d s, ha⟩, ?_⟩
      rintro ⟨q, hm, ha⟩
      cases hm
      exact ha
  | dollar =>
    cases s with
    | nil =>
      simp only [agrees, ht]
      refine ⟨fun ha => ⟨_, .eol b, ha⟩, ?_⟩
      rintro ⟨q, hm, ha⟩
      cases hm
      exact ha
    | cons d s =>
      simp only [agrees, ht, Bool.false_eq_true, false_iff]
      rintro ⟨q, hm, -⟩
      cases hm
  | lit e =>
    cases s with
    | nil =>
      simp only [agrees, ht, Bool.false_eq_true, false_iff]
      rintro ⟨q, hm, -⟩
      cases hm
    | cons d s =>
      have hset : inRanges [(c, c)] d = true ↔ d = c := by
        simp only [inRanges, List.any_cons, List.any_nil, Bool.or_false, Bool.and_eq_true,
          Nat.ble_eq]
        exact ⟨fun h => Char.toNat_inj.1 (by omega), fun h => by simp [h]⟩
      simp only [agrees, ht, Bool.and_eq_true, beq_iff_eq]
      constructor
      · rintro ⟨hd, ha⟩
        exact ⟨_, .set b s (hset.2 hd), ha⟩
      · rintro ⟨q, hm, ha⟩
        cases hm with
        | set _ _ hr => exact ⟨hset.1 hr, ha⟩
  | opn | close | openBracket | closeBracket | bar | star | plus | opt | caret | dash
  | backslash => simp [ht] at hc

theorem chain_atoms {p : Str} (h : ∀ c ∈ p, Plain c) (b : Bool) (s : Str) :
    (∃ q, Chain (p.map atom) ⟨b, s⟩ q) ↔ agrees p s = true := by
  induction p generalizing b s with
  | nil => simp [Chain, agrees]
  | cons c p ih =>
    have ih' := ih fun d hd => h d (by simp [hd])
    rw [agrees_cons (h c (by simp)) p b s]
    simp only [List.map_cons, Chain]
    constructor
    · rintro ⟨q, m, hm, hq⟩
      exact ⟨m, hm, (ih' m.start m.rest).1 ⟨q, hq⟩⟩
    · rintro ⟨m, hm, ha⟩
      obtain ⟨q, hq⟩ := (ih' m.start m.rest).2 ha
      exact ⟨q, m, hm, hq⟩

theorem exists_branch {ps : List RE} (h : ps ≠ []) : ∃ r, branch ps = some r := by
  induction ps with
  | nil => exact absurd rfl h
  | cons a ps ih =>
    cases ps with
    | nil => exact ⟨a, rfl⟩
    | cons b ps =>
      obtain ⟨r, hr⟩ := ih (by simp)
      exact ⟨.seq r a, by simp [branch, hr]⟩

theorem suffix_of_mem_positions {s : Str} {p : Pos} (h : p ∈ positions s) : p.rest <:+ s := by
  rcases List.mem_cons.1 h with rfl | h
  · exact List.suffix_rfl
  · obtain ⟨t, ht, rfl⟩ := List.mem_map.1 h
    exact (List.mem_tails t s).1 (List.mem_of_mem_tail ht)

theorem exists_mem_positions {s t : Str} (h : t <:+ s) : ∃ b, ⟨b, t⟩ ∈ positions s := by
  have hmem : t ∈ s.tails := (List.mem_tails t s).2 h
  have htails : s.tails = s :: s.tails.tail := by cases s <;> rfl
  rw [htails] at hmem
  rcases List.mem_cons.1 hmem with rfl | hmem
  · exact ⟨true, by simp [positions]⟩
  · exact ⟨false, List.mem_cons_of_mem _ (List.mem_map.2 ⟨t, hmem, rfl⟩)⟩

/-- A plain pattern matches where some rest of the text agrees with it. -/
theorem matchPattern_plain {p : Str} (hne : p ≠ []) (h : ∀ c ∈ p, Plain c) (s : Str) :
    matchPattern p s = true ↔ ∃ t, t <:+ s ∧ agrees p t = true := by
  have hparse : parse p = branch (p.reverse.map atom) := by
    rw [parse, parseFrom_plain h, List.append_nil]
  have hatoms : p.reverse.map atom ≠ [] := by simpa using hne
  obtain ⟨r, hr⟩ := exists_branch hatoms
  have hchain : (p.reverse.map atom).reverse = p.map atom := by simp
  unfold matchPattern
  rw [hparse, hr]
  simp only [search_iff, matches_branch hr, hchain]
  constructor
  · rintro ⟨⟨b, t⟩, ht, hq⟩
    exact ⟨t, suffix_of_mem_positions ht, (chain_atoms h b t).1 hq⟩
  · rintro ⟨t, ht, ha⟩
    obtain ⟨b, hb⟩ := exists_mem_positions ht
    exact ⟨⟨b, t⟩, hb, (chain_atoms h b t).2 ha⟩

/-- A dollar sign with a letter after it keeps a plain pattern from matching. -/
theorem agrees_dollar {c : Char} (hc : token c = .lit c) (a b : Str) (s : Str) :
    agrees (a ++ '$' :: c :: b) s = false := by
  induction a generalizing s with
  | nil => cases s <;> simp [agrees, hc, show token '$' = .dollar from rfl]
  | cons d a ih =>
    rw [List.cons_append]
    unfold agrees
    split <;> simp [ih]

theorem matchPattern_dollar {a b : Str} {c : Char} (hc : token c = .lit c)
    (h : ∀ d ∈ a ++ '$' :: c :: b, Plain d) (s : Str) :
    matchPattern (a ++ '$' :: c :: b) s = false := by
  rw [← Bool.not_eq_true, matchPattern_plain (by simp) h]
  rintro ⟨t, -, ha⟩
  simp [agrees_dollar hc] at ha

end Regex
