import Rustle.Library.GapEdit
import Rustle.Source.DeclaredAt

/-!
# Declarations around a gap

What is declared behind a newline, where a text with a gap is filled in two ways.

* `Kept`, `tailStop_kept` — the rest of a declaration that begins in front of the gap.
* `Stays`, `stays_of_solid` — a whole declaration, whose words stand in front of the gap.
* `stays_of_slash` — a declaration that text behind a slash would cut off, and is none.
* `stable_of_blank` — when all matches that start in front of the gap stay.
-/

namespace GlobalVars

open Backtrack Pattern
open Text (lit isSpace)

/-! ## Two fillings of a gap -/

section

variable {Y V g g' : Str}

/-- A reader of texts ends at the same place, with each of two fillings of the gap. -/
def Kept (f : Str → Option Str) (Y V g g' : Str) : Prop :=
  ∃ d : Option (Str ⊕ Str), (∀ e, d = some e → Left Y V e) ∧
    ∀ x, x = g ∨ x = g' → f (Y ++ (x ++ V)) = d.map (fill x V)

theorem left_mono {Y' : Str} (h : Y' <:+ Y) {e : Str ⊕ Str} (he : Left Y' V e) : Left Y V e := by
  cases e with
  | inl Z => exact List.IsSuffix.trans he h
  | inr R => exact he

/-- A filling that does not end a declaration: without `;`, and without `=` where text
follows. -/
def Dull (V x : Str) : Prop := (∀ c ∈ x, c ≠ ';') ∧ ((∀ c ∈ x, c ≠ '=') ∨ V = [])

/-- What is read where the first solid character is looked for. -/
def spaceStop (s : Str) : Option Str := endStop (s.dropWhile isSpace)

/-- What is read where a type may end or go on. -/
def eitherStop (V : Str) : Option Str := (typeStop V).or (spaceStop V)

theorem Kept.none {f : Str → Option Str} (h : ∀ x, x = g ∨ x = g' → f (Y ++ (x ++ V)) = none) :
    Kept f Y V g g' :=
  ⟨Option.none, fun e he => absurd he (by simp), h⟩

/-- The reader ends in front of the gap. -/
theorem Kept.front {f : Str → Option Str} (Z : Str) (hZ : Z <:+ Y)
    (h : ∀ x, x = g ∨ x = g' → f (Y ++ (x ++ V)) = some (Z ++ (x ++ V))) : Kept f Y V g g' := by
  refine ⟨some (Sum.inl Z), fun e he => ?_, h⟩
  rw [Option.some.injEq] at he
  rw [← he]
  exact hZ

/-- The reader does not end in front of the gap. -/
theorem Kept.behind {f : Str → Option Str} (r : Option Str) (hr : ∀ R, r = some R → R <:+ V)
    (h : ∀ x, x = g ∨ x = g' → f (Y ++ (x ++ V)) = r) : Kept f Y V g g' := by
  refine ⟨r.map Sum.inr, fun e he => ?_, fun x hx => ?_⟩
  · obtain ⟨R, hR, rfl⟩ := Option.map_eq_some_iff.1 he
    exact hr R hR
  · rw [h x hx]
    cases r with
    | none => rfl
    | some z => rfl

theorem Kept.or {f f' f'' : Str → Option Str} {Y' : Str} (hY : Y' <:+ Y)
    (h : Kept f Y' V g g') (h' : Kept f' Y' V g g')
    (hf : ∀ x, x = g ∨ x = g' →
      f'' (Y ++ (x ++ V)) = (f (Y' ++ (x ++ V))).or (f' (Y' ++ (x ++ V)))) :
    Kept f'' Y V g g' := by
  obtain ⟨d, hleft, hd⟩ := h
  obtain ⟨d', hleft', hd'⟩ := h'
  refine ⟨d.or d', fun e hd₀ => ?_, fun x hx => ?_⟩
  · rcases Option.or_eq_some_iff.1 hd₀ with h | ⟨-, h⟩
    · exact left_mono hY (hleft e h)
    · exact left_mono hY (hleft' e h)
  · rw [hf x hx, hd x hx, hd' x hx, Option.map_or]

theorem Kept.of_eq {f f' : Str → Option Str} {Y' : Str} (hY : Y' <:+ Y) (h : Kept f Y' V g g')
    (hf : ∀ x, x = g ∨ x = g' → f' (Y ++ (x ++ V)) = f (Y' ++ (x ++ V))) : Kept f' Y V g g' := by
  obtain ⟨d, hleft, hd⟩ := h
  exact ⟨d, fun e he => left_mono hY (hleft e he), fun x hx => by rw [hf x hx, hd x hx]⟩

/-! ## The rest of a declaration -/

theorem Dull.append {x y : Str} (hx : Dull V x) (hy : Dull V y) : Dull V (x ++ y) := by
  refine ⟨fun c hc => ?_, ?_⟩
  · rcases List.mem_append.1 hc with hc | hc
    · exact hx.1 c hc
    · exact hy.1 c hc
  · rcases hx.2 with hx | hV
    · rcases hy.2 with hy | hV
      · left
        intro c hc
        rcases List.mem_append.1 hc with hc | hc
        · exact hx c hc
        · exact hy c hc
      · exact Or.inr hV
    · exact Or.inr hV

theorem Dull.of_cons {c : Char} {x : Str} (h : Dull V (c :: x)) : Dull V x := by
  refine ⟨fun d hd => h.1 d (List.mem_cons_of_mem c hd), ?_⟩
  rcases h.2 with h | hV
  · exact Or.inl fun d hd => h d (List.mem_cons_of_mem c hd)
  · exact Or.inr hV

theorem dull_of_space {x : Str} (h : ∀ c ∈ x, isSpace c = true) : Dull V x :=
  ⟨fun c hc => (isSpace_mark (h c hc)).2.2, Or.inl fun c hc => (isSpace_mark (h c hc)).2.1⟩

theorem valueStop_dull {x : Str} (hx : ∀ c ∈ x, c ≠ ';') (h : x ≠ [] ∨ V.head? ≠ some ';') :
    valueStop (x ++ V) = (V.dropWhile (· != ';')).tail? := by
  have hhead : (x ++ V).head? ≠ some ';' := by
    cases x with
    | nil => exact h.resolve_left fun hne => hne rfl
    | cons c x => simpa using hx c List.mem_cons_self
  rw [valueStop, if_neg hhead,
    List.dropWhile_append_of_pos fun c hc => by simpa using hx c hc]

theorem tail?_suffix {s r : Str} (h : s.tail? = some r) : r <:+ s := by
  cases s with
  | nil => cases h
  | cons c s =>
    rw [List.tail?_cons, Option.some.injEq] at h
    exact h ▸ List.suffix_cons c s

theorem valueStop_suffix {s r : Str} (h : valueStop s = some r) : r <:+ s := by
  rw [valueStop] at h
  split at h
  · cases h
  · exact (tail?_suffix h).trans (List.dropWhile_suffix _)

theorem endStop_suffix {s r : Str} (h : endStop s = some r) : r <:+ s.tail := by
  cases s with
  | nil => cases h
  | cons c s =>
    rw [endStop] at h
    split at h
    · exact valueStop_suffix h
    · split at h
      · rw [Option.some.injEq] at h
        exact h ▸ List.suffix_rfl
      · cases h

theorem typeStop_suffix {s r : Str} (h : typeStop s = some r) : r <:+ s.tail := by
  induction s with
  | nil => cases h
  | cons c s ih =>
    rw [typeStop] at h
    split at h
    · cases h
    · rcases Option.or_eq_some_iff.1 h with h | ⟨-, h⟩
      · exact (ih h).trans (List.tail_suffix s)
      · exact ((endStop_suffix h).trans (List.tail_suffix _)).trans (List.dropWhile_suffix _)

theorem tailStop_suffix {s r : Str} (h : tailStop s = some r) : r <:+ s.tail := by
  cases s with
  | nil => cases h
  | cons c s =>
    rw [tailStop] at h
    split at h
    · exact (typeStop_suffix h).trans (List.tail_suffix s)
    · exact endStop_suffix h

theorem spaceStop_suffix {s r : Str} (h : spaceStop s = some r) : r <:+ s.tail := by
  have hsuf := endStop_suffix h
  cases s with
  | nil => cases h
  | cons c s =>
    by_cases hc : isSpace c = true
    · rw [List.dropWhile_cons_of_pos hc] at hsuf
      exact (hsuf.trans (List.tail_suffix _)).trans (List.dropWhile_suffix _)
    · rwa [List.dropWhile_cons_of_neg hc] at hsuf

theorem eitherStop_suffix {r : Str} (h : eitherStop V = some r) : r <:+ V := by
  rcases Option.or_eq_some_iff.1 h with h | ⟨-, h⟩
  · exact (typeStop_suffix h).trans (List.tail_suffix V)
  · exact (spaceStop_suffix h).trans (List.tail_suffix V)

/-- Behind `=`. -/
theorem valueStop_kept (hg : ∀ x, x = g ∨ x = g' → Dull V x)
    (h : Y = [] → V.head? = some ';' → g ≠ [] ∧ g' ≠ []) : Kept valueStop Y V g g' := by
  by_cases hY : ';' ∈ Y
  · cases Y with
    | nil => cases hY
    | cons c Y =>
      by_cases hc : c = ';'
      · subst hc
        exact .none fun x hx => rfl
      · obtain ⟨a, Z, ha, hnot⟩ := List.eq_append_cons_of_mem hY
        have hsuf : Z <:+ c :: Y :=
          ⟨a ++ [';'], by rw [ha, List.append_assoc, List.singleton_append]⟩
        refine .front Z hsuf fun x _ => ?_
        have hpos : ∀ d ∈ a, (d != ';') = true := by
          intro d hd
          rw [bne_iff_ne]
          rintro rfl
          exact hnot hd
        rw [valueStop, if_neg (by simpa using hc), ha, List.append_assoc,
          List.dropWhile_append_of_pos hpos, List.cons_append, List.dropWhile_cons_of_neg (by simp)]
        rfl
  · have hnot : ∀ c ∈ Y, c ≠ ';' := by
      rintro c hc rfl
      exact hY hc
    refine .behind ((V.dropWhile (· != ';')).tail?) (fun R hR => ?_) fun x hx => ?_
    · exact (tail?_suffix hR).trans (List.dropWhile_suffix _)
    rw [← List.append_assoc]
    apply valueStop_dull
    · intro c hc
      rcases List.mem_append.1 hc with hc | hc
      · exact hnot c hc
      · exact (hg x hx).1 c hc
    · by_cases hhead : V.head? = some ';'
      · left
        intro hnil
        obtain ⟨rfl, rfl⟩ := List.append_eq_nil_iff.1 hnil
        rcases hx with rfl | rfl
        · exact (h rfl hhead).1 rfl
        · exact (h rfl hhead).2 rfl
      · exact Or.inr hhead

/-- At the first solid character, when there is one in front of the gap. -/
theorem spaceStop_kept (hg : ∀ x, x = g ∨ x = g' → Dull V x) (hsolid : ∃ c ∈ Y, isSpace c = false)
    (h : Y.getLast? = some '=' → V.head? = some ';' → g ≠ [] ∧ g' ≠ []) :
    Kept spaceStop Y V g g' := by
  cases hY : Y.dropWhile isSpace with
  | nil =>
    rw [List.dropWhile_eq_nil_iff] at hY
    obtain ⟨c, hc, hspace⟩ := hsolid
    rw [hY c hc] at hspace
    cases hspace
  | cons c Z =>
    have hsuf : (c :: Z) <:+ Y := hY ▸ List.dropWhile_suffix isSpace
    have hZ : Z <:+ Y := (List.suffix_cons c Z).trans hsuf
    have hstop : ∀ t, spaceStop (Y ++ t) = endStop (c :: (Z ++ t)) := by
      intro t
      rw [spaceStop, List.dropWhile_append, hY]
      rfl
    by_cases hc : c = '='
    · subst hc
      refine .of_eq hZ (@valueStop_kept Z V g g' hg ?_) fun x _ => by rw [hstop]; rfl
      rintro rfl
      apply h
      obtain ⟨a, rfl⟩ := hsuf
      exact List.getLast?_concat
    · by_cases hc' : c = ';'
      · subst hc'
        exact .front Z hZ fun x _ => by rw [hstop]; rfl
      · exact .none fun x _ => by rw [hstop, endStop, if_neg hc, if_neg hc']

theorem valueStop_none {s : Str} (h : ∀ c ∈ s, c ≠ ';') : valueStop s = none := by
  have hdrop : s.dropWhile (· != ';') = [] := by
    rw [List.dropWhile_eq_nil_iff]
    exact fun c hc => by simpa using h c hc
  rw [valueStop, hdrop]
  exact ite_self none

/-- Dull text is either passed over or ends the search. -/
theorem spaceStop_dull {y : Str} (hy : Dull V y) :
    spaceStop (y ++ V) = spaceStop V ∨ spaceStop (y ++ V) = none := by
  rw [spaceStop, List.dropWhile_append]
  cases hdrop : y.dropWhile isSpace with
  | nil => exact Or.inl rfl
  | cons c Z =>
    right
    have hsuf : (c :: Z) <:+ y := hdrop ▸ List.dropWhile_suffix isSpace
    have hmem : ∀ d ∈ c :: Z, d ∈ y := fun d hd => hsuf.subset hd
    have hsemi : c ≠ ';' := hy.1 c (hmem c List.mem_cons_self)
    rw [List.isEmpty_cons, if_neg Bool.false_ne_true, List.cons_append, endStop, if_neg hsemi]
    split
    · rename_i hc
      rcases hy.2 with heq | rfl
      · exact absurd hc (heq c (hmem c List.mem_cons_self))
      · apply valueStop_none
        intro d hd
        rw [List.append_nil] at hd
        exact hy.1 d (hmem d (List.mem_cons_of_mem c hd))
    · rfl

/-- In front of dull text, a type may end behind it. -/
theorem or_spaceStop_dull {y : Str} (hy : Dull V y) :
    (eitherStop V).or (spaceStop (y ++ V)) = eitherStop V := by
  rcases spaceStop_dull hy with h | h
  · rw [h, eitherStop, Option.or_assoc, Option.or_self]
  · rw [h, Option.or_none]

/-- A type goes on over dull text. -/
theorem typeStop_dull {y : Str} (hy : Dull V y) (hne : y ≠ []) :
    typeStop (y ++ V) = eitherStop V := by
  induction y with
  | nil => exact absurd rfl hne
  | cons c y ih =>
    rw [List.cons_append, typeStop]
    split
    · rename_i hc
      rcases hy.2 with heq | rfl
      · exact absurd hc (heq c List.mem_cons_self)
      · rfl
    · cases y with
      | nil => rfl
      | cons d y =>
        rw [ih hy.of_cons (List.cons_ne_nil d y)]
        exact or_spaceStop_dull hy.of_cons

theorem eitherStop_eq (h : ¬ (V.head? = some '=' ∨ V.head? = some ';')) :
    eitherStop V = typeStop V := by
  cases V with
  | nil => rfl
  | cons c V =>
    rw [List.head?_cons, Option.some.injEq, Option.some.injEq, not_or] at h
    rw [eitherStop, spaceStop]
    by_cases hc : isSpace c = true
    · rw [List.dropWhile_cons_of_pos hc, typeStop, if_neg h.1, Option.or_assoc, Option.or_self]
    · rw [List.dropWhile_cons_of_neg hc, endStop, if_neg h.1, if_neg h.2, Option.or_none]

/-- Behind the `:` of the type. -/
theorem typeStop_kept (hg : ∀ x, x = g ∨ x = g' → Dull V x)
    (h : Y.getLast? = some '=' → V.head? = some ';' → g ≠ [] ∧ g' ≠ [])
    (hnil : Y = [] → V.head? = some '=' ∨ V.head? = some ';' → g ≠ [] ∧ g' ≠ []) :
    Kept typeStop Y V g g' := by
  induction Y with
  | nil =>
    refine .behind (eitherStop V) (fun R hR => eitherStop_suffix hR) fun x hx => ?_
    by_cases hne : x = []
    · have hhead : ¬ (V.head? = some '=' ∨ V.head? = some ';') := by
        intro hhead
        rcases hx with rfl | rfl
        · exact (hnil rfl hhead).1 hne
        · exact (hnil rfl hhead).2 hne
      rw [hne]
      exact (eitherStop_eq hhead).symm
    · exact typeStop_dull (hg x hx) hne
  | cons c Y ih =>
    by_cases hc : c = '='
    · subst hc
      exact .none fun x _ => rfl
    · have hstep : ∀ t, typeStop (c :: t) = (typeStop t).or (spaceStop t) := fun t => if_neg hc
      by_cases hdull : Dull V Y
      · -- the type may end behind the gap only
        refine .behind (eitherStop V) (fun R hR => eitherStop_suffix hR) fun x hx => ?_
        have hY := hdull.append (hg x hx)
        rw [List.cons_append, hstep, ← List.append_assoc]
        by_cases hne : Y ++ x = []
        · rw [hne]
          rfl
        · rw [typeStop_dull hY hne, or_spaceStop_dull hY]
      · have hsolid : ∃ d ∈ Y, isSpace d = false := by
          by_contra hall
          refine hdull (dull_of_space fun d hd => ?_)
          by_contra hd'
          exact hall ⟨d, hd, by simpa using hd'⟩
        have hne : Y ≠ [] := by
          rintro rfl
          obtain ⟨d, hd, -⟩ := hsolid
          cases hd
        have hlast : Y.getLast? = some '=' → V.head? = some ';' → g ≠ [] ∧ g' ≠ [] := by
          rw [List.getLast?_cons_of_ne_nil hne] at h
          exact h
        exact .or (List.suffix_cons c Y) (ih hlast fun hnil => absurd hnil hne)
          (spaceStop_kept hg hsolid hlast) fun x _ => hstep _

/-- Two fillings that one may take for each other in the rest of a declaration: where one of
them is empty, what they stand between must not need them. -/
structure Fits (U V g g' : Str) : Prop where
  dull : ∀ x, x = g ∨ x = g' → Dull V x
  value : U.getLast? = some '=' → V.head? = some ';' → g ≠ [] ∧ g' ≠ []
  type : U.getLast? = some ':' → V.head? = some '=' ∨ V.head? = some ';' → g ≠ [] ∧ g' ≠ []

theorem Fits.suffix {U : Str} (h : Fits U V g g') (hY : Y <:+ U) (hne : Y ≠ []) :
    Fits Y V g g' := by
  have hlast : U.getLast? = Y.getLast? := by
    obtain ⟨a, rfl⟩ := hY
    rw [List.getLast?_append_of_ne_nil _ hne]
  exact ⟨h.dull, hlast ▸ h.value, hlast ▸ h.type⟩

/-- Behind the name, when the rest of the declaration begins in front of the gap. -/
theorem tailStop_kept {U : Str} (h : Fits U V g g') (hY : Y <:+ U) (hne : Y ≠ []) :
    Kept tailStop Y V g g' := by
  have hfits := h.suffix hY hne
  cases Y with
  | nil => exact absurd rfl hne
  | cons c Y =>
    have hsuf := List.suffix_cons c Y
    have hlast : ∀ d, Y.getLast? = some d → (c :: Y).getLast? = some d := by
      intro d hd
      cases Y with
      | nil => cases hd
      | cons e Y => exact hd
    by_cases hcolon : c = ':'
    · subst hcolon
      refine .of_eq hsuf (typeStop_kept h.dull (fun heq => hfits.value (hlast '=' heq)) ?_)
        fun x _ => rfl
      rintro rfl
      exact hfits.type rfl
    · have hend : ∀ t, tailStop (c :: t) = endStop (c :: t) := fun t => if_neg hcolon
      by_cases heq : c = '='
      · subst heq
        refine .of_eq hsuf (valueStop_kept h.dull ?_) fun x _ => rfl
        rintro rfl
        exact hfits.value rfl
      · by_cases hsemi : c = ';'
        · subst hsemi
          exact .front Y hsuf fun x _ => rfl
        · refine .none fun x _ => ?_
          rw [List.cons_append, hend, endStop, if_neg heq, if_neg hsemi]

end

/-! ## A whole declaration -/

section

variable {W : WordClass} {U V Y g g' : Str}

/-- The same is declared behind a newline, and the declaration ends at the same place. -/
def Stays (W : WordClass) (Y V g g' : Str) : Prop :=
  ∃ d : Option (Option Str × (Str ⊕ Str)), (∀ n e, d = some (n, e) → Left Y V e) ∧
    ∀ x, x = g ∨ x = g' → declaredAt W.isWord (Y ++ (x ++ V)) = d.map (Prod.map id (fill x V))

theorem alikeAt_of_stays (h : Stays W Y V g g') :
    AlikeAt id (declaration W.isWord) declaredName V g g' '\n' Y := by
  obtain ⟨d, hleft, hd⟩ := h
  have hg := hd g (Or.inl rfl)
  have hg' := hd g' (Or.inr rfl)
  rw [← map_matchAt_newline] at hg hg'
  cases d with
  | none =>
    rw [Option.map_none, Option.map_eq_none_iff] at hg hg'
    rw [AlikeAt, hg, hg']
    exact .fail
  | some p =>
    rw [Option.map_some, Option.map_eq_some_iff] at hg hg'
    obtain ⟨o, ho, hoeq⟩ := hg
    obtain ⟨o', ho', hoeq'⟩ := hg'
    rw [Prod.mk.injEq] at hoeq hoeq'
    rw [AlikeAt, ho, ho']
    exact .same p.2 (hoeq'.1.trans hoeq.1.symm) hoeq.2 hoeq'.2 (hleft p.1 p.2 rfl)

/-- A declaration starts at a newline. -/
theorem alikeAt_of_ne {c : Char} (hc : c ≠ '\n') :
    AlikeAt id (declaration W.isWord) declaredName V g g' c Y := by
  rw [AlikeAt, matchAt_cons_of_ne hc, matchAt_cons_of_ne hc]
  exact .fail

theorem stable_of_stays (h : ∀ Y, ('\n' :: Y) <:+ U → Stays W Y V g g') :
    Stable id (declaration W.isWord) declaredName U V g g' := by
  intro c Y hY
  by_cases hc : c = '\n'
  · subst hc
    exact alikeAt_of_stays (h Y hY)
  · exact alikeAt_of_ne hc

theorem Stays.of_eq {r : Option (Option Str × Str)} (hr : ∀ n R, r = some (n, R) → R <:+ V)
    (h : ∀ x, x = g ∨ x = g' → declaredAt W.isWord (Y ++ (x ++ V)) = r) : Stays W Y V g g' := by
  refine ⟨r.map (Prod.map id Sum.inr), fun n e he => ?_, fun x hx => ?_⟩
  · obtain ⟨p, hp, heq⟩ := Option.map_eq_some_iff.1 he
    obtain rfl : Sum.inr p.2 = e := congrArg Prod.snd heq
    exact hr p.1 p.2 hp
  · rw [h x hx]
    cases r with
    | none => rfl
    | some p => rfl

theorem Stays.none (h : ∀ x, x = g ∨ x = g' → declaredAt W.isWord (Y ++ (x ++ V)) = Option.none) :
    Stays W Y V g g' :=
  .of_eq (fun n R hR => absurd hR (by simp)) h

/-- Where a declaration ends that has its words and its name in front of a text. -/
theorem declaredAt_suffix {s r : Str} {n : Option Str} (h : declaredAt W.isWord s = some (n, r)) :
    r <:+ s.dropWhile (isHead W.isWord) := by
  rw [declaredAt, headAt] at h
  split at h
  · obtain ⟨r', hr', heq⟩ := Option.map_eq_some_iff.1 h
    obtain rfl : r' = r := congrArg Prod.snd heq
    exact (tailStop_suffix hr').trans (List.tail_suffix _)
  · cases h

/-- The words and the name are read in front of what is added. -/
theorem declaredAt_solid (hsolid : ∃ c ∈ Y, isHead W.isWord c = false) :
    Y.dropWhile (isHead W.isWord) ≠ [] ∧ ((∀ t, declaredAt W.isWord (Y ++ t) = none) ∨
      ∃ n : Option Str, ∀ t, declaredAt W.isWord (Y ++ t) =
        (tailStop (Y.dropWhile (isHead W.isWord) ++ t)).map fun r => (n, r)) := by
  cases hdrop : Y.dropWhile (isHead W.isWord) with
  | nil =>
    rw [List.dropWhile_eq_nil_iff] at hdrop
    obtain ⟨c, hc, hhead⟩ := hsolid
    rw [hdrop c hc] at hhead
    cases hhead
  | cons c R =>
    refine ⟨List.cons_ne_nil c R, ?_⟩
    have hparts := @List.takeWhile_append_dropWhile _ (isHead W.isWord) Y
    rw [hdrop] at hparts
    have hhead : isHead W.isWord c = false := by
      have h := head?_dropWhile_any (isHead W.isWord) Y
      rwa [hdrop] at h
    have hparts' : ∀ t, (Y ++ t).takeWhile (isHead W.isWord) = Y.takeWhile (isHead W.isWord) ∧
        (Y ++ t).dropWhile (isHead W.isWord) = (c :: R) ++ t := by
      intro t
      have hend : ((c :: R) ++ t).head?.any (isHead W.isWord) = false := hhead
      have hall : ∀ d ∈ Y.takeWhile (isHead W.isWord), isHead W.isWord d = true :=
        fun d hd => List.mem_takeWhile_imp hd
      have ht := takeWhile_of_forall hall hend
      rwa [← List.append_assoc, hparts] at ht
    have hfirst : ∀ t, (Y ++ t).head? = Y.head? := by
      intro t
      cases Y with
      | nil => cases hdrop
      | cons d Y => rfl
    by_cases hcond : Y.head?.any W.isWord = true ∧
        (words (Y.takeWhile (isHead W.isWord))).dropLast.Sublist (qualifiers.map Prod.snd)
    · right
      refine ⟨if false = false ∧ (words (Y.takeWhile (isHead W.isWord))).dropLast = [] then none
        else (words (Y.takeWhile (isHead W.isWord))).getLast?, fun t => ?_⟩
      rw [declaredAt, headAt, (hparts' t).1, (hparts' t).2, hfirst, if_pos hcond]
    · left
      intro t
      rw [declaredAt, headAt, (hparts' t).1, (hparts' t).2, hfirst, if_neg hcond]

/-- The words and the name stand in front of the gap. -/
theorem stays_of_solid (hfits : Fits U V g g') (hY : Y <:+ U)
    (hsolid : ∃ c ∈ Y, isHead W.isWord c = false) : Stays W Y V g g' := by
  have hsuf : Y.dropWhile (isHead W.isWord) <:+ Y := List.dropWhile_suffix _
  obtain ⟨hne, hnone | ⟨n, hat⟩⟩ := declaredAt_solid hsolid
  · exact .none fun x _ => hnone _
  · obtain ⟨d, hleft, hd⟩ := tailStop_kept hfits (hsuf.trans hY) hne
    refine ⟨d.map fun e => (n, e), fun n' e hv => ?_, fun x hx => ?_⟩
    · obtain ⟨e', he', heq⟩ := Option.map_eq_some_iff.1 hv
      obtain rfl : e' = e := congrArg Prod.snd heq
      exact left_mono hsuf (hleft e' he')
    · rw [hat, hd x hx, Option.map_map, Option.map_map]
      rfl

/-- What stands at the head of a declaration is not word and gap and word. -/
def Apart (W : WordClass) (U V g g' : Str) : Prop :=
  U.getLast?.any (fun c => W.isWord c || c == '\n') = true → V.head?.any W.isWord = true →
    g ≠ [] ∧ g' ≠ []

theorem words_nil : words [] = [] := rfl

theorem words_append_apart {a b : Str}
    (h : a.getLast?.any isSpace = true ∨ b = [] ∨ b.head?.any isSpace = true) :
    words (a ++ b) = words a ++ words b := by
  have hone : ∀ (u v : Str) (c : Char), isSpace c = true →
      words (u ++ ([c] ++ v)) = words u ++ words v := by
    intro u v c hc
    refine words_append_space u v (List.cons_ne_nil c []) fun d hd => ?_
    rwa [List.mem_singleton.1 hd]
  rcases h with h | rfl | h
  · cases a using List.reverseRecOn with
    | nil => cases h
    | append_singleton a c =>
      rw [List.getLast?_concat] at h
      have hc : isSpace c = true := h
      have hleft := hone a [] c hc
      rw [List.append_nil, words_nil, List.append_nil] at hleft
      rw [List.append_assoc, hone a b c hc, hleft]
  · rw [List.append_nil, words_nil, List.append_nil]
  · cases b with
    | nil => cases h
    | cons c b =>
      have hc : isSpace c = true := h
      have hright := hone [] b c hc
      rw [words_nil, List.nil_append, List.nil_append] at hright
      rw [← List.singleton_append, hone a b c hc, hright]

/-- The words on both sides of white space, which may be missing where no word would go on. -/
theorem words_fill {x : Str} (hne : Y ≠ []) (hhead : ∀ c ∈ Y, isHead W.isWord c = true)
    (hspace : ∀ c ∈ x, isSpace c = true)
    (h : x = [] → Y.getLast?.any W.isWord = true → ¬ V.head?.any W.isWord = true) :
    words ((Y ++ (x ++ V)).takeWhile (isHead W.isWord))
        = words Y ++ words (V.takeWhile (isHead W.isWord)) ∧
      (Y ++ (x ++ V)).dropWhile (isHead W.isWord) = V.dropWhile (isHead W.isWord) := by
  have hall : ∀ c ∈ Y ++ x, isHead W.isWord c = true := by
    intro c hc
    rcases List.mem_append.1 hc with hc | hc
    · exact hhead c hc
    · exact isHead_of_isSpace (hspace c hc)
  rw [← List.append_assoc, List.takeWhile_append_of_pos hall, List.dropWhile_append_of_pos hall]
  refine ⟨?_, rfl⟩
  by_cases hnil : x = []
  · rw [hnil, List.append_nil]
    apply words_append_apart
    by_cases hY : Y.getLast?.any W.isWord = true
    · -- then no word stands behind the gap
      right
      have hV := h hnil hY
      cases V with
      | nil => exact Or.inl rfl
      | cons c V =>
        by_cases hc : isHead W.isWord c = true
        · right
          have hc' : ¬ W.isWord c = true := hV
          rw [List.takeWhile_cons_of_pos hc, List.head?_cons, Option.any_some]
          rw [isHead, Bool.or_eq_true] at hc
          exact hc.resolve_left hc'
        · exact Or.inl (List.takeWhile_cons_of_neg hc)
    · left
      cases Y using List.reverseRecOn with
      | nil => exact absurd rfl hne
      | append_singleton Y c =>
        rw [List.getLast?_concat] at hY ⊢
        have hc := hhead c (List.mem_append_right Y List.mem_cons_self)
        rw [isHead, Bool.or_eq_true] at hc
        exact hc.resolve_left hY
  · rw [List.append_assoc, words_append_space _ _ hnil hspace]

/-- The gap stands in front of the type and the value, and is filled with white space. -/
theorem stays_of_blank (hspace : ∀ x, x = g ∨ x = g' → ∀ c ∈ x, isSpace c = true)
    (hapart : Apart W U V g g') (hY : ('\n' :: Y) <:+ U)
    (hhead : ∀ c ∈ Y, isHead W.isWord c = true) : Stays W Y V g g' := by
  have hfilled : ∀ x, x = g ∨ x = g' → g ≠ [] ∧ g' ≠ [] → x ≠ [] := by
    rintro x (rfl | rfl) h
    · exact h.1
    · exact h.2
  by_cases hword : Y.head?.any W.isWord = true
  · have hne : Y ≠ [] := by
      rintro rfl
      cases hword
    have hlast : U.getLast? = Y.getLast? := by
      obtain ⟨a, rfl⟩ := hY
      rw [List.getLast?_append_of_ne_nil _ (List.cons_ne_nil _ _),
        List.getLast?_cons_of_ne_nil hne]
    -- the words are the same, whatever is between them
    have hwords := fun x (hx : x = g ∨ x = g') => words_fill hne hhead (hspace x hx)
      fun hnil hYlast hV => by
        refine hfilled x hx (hapart ?_ hV) hnil
        rw [hlast]
        cases hc : Y.getLast? with
        | none =>
          rw [hc] at hYlast
          cases hYlast
        | some c =>
          rw [hc, Option.any_some] at hYlast
          rw [Option.any_some, hYlast, Bool.true_or]
    refine .of_eq (r := declaredAt W.isWord (Y ++ (g ++ V))) (fun n R hR => ?_) fun x hx => ?_
    · have hsuf := declaredAt_suffix hR
      rw [(hwords g (Or.inl rfl)).2] at hsuf
      exact hsuf.trans (List.dropWhile_suffix _)
    have hfirst : ∀ t, (Y ++ t).head? = Y.head? := by
      intro t
      cases Y with
      | nil => cases hword
      | cons d Y => rfl
    rw [declaredAt, declaredAt, headAt, headAt, (hwords x hx).1, (hwords x hx).2,
      (hwords g (Or.inl rfl)).1, (hwords g (Or.inl rfl)).2, hfirst, hfirst]
  · refine .none fun x hx => headAt_none ?_ _ _
    cases Y with
    | cons c Y => exact hword
    | nil =>
      cases x with
      | cons c x =>
        have hc := W.space c (hspace _ hx c List.mem_cons_self)
        simp [hc]
      | nil =>
        intro hV
        have hnewline : U.getLast?.any (fun c => W.isWord c || c == '\n') = true := by
          obtain ⟨a, rfl⟩ := hY
          rw [List.getLast?_concat]
          simp
        exact hfilled [] hx (hapart hnewline hV) rfl

/-- Words with a slash behind them declare nothing. -/
theorem declaredAt_slash {b n : Str} (hb : ∀ c ∈ b, isSpace c = true)
    (hhead : ∀ c ∈ Y, isHead W.isWord c = true) :
    declaredAt W.isWord (Y ++ (b ++ '/' :: n)) = none := by
  have hslash : isHead W.isWord '/' = false := by
    rw [isHead, W.marks '/' (by simp)]
    rfl
  have hall : ∀ c ∈ Y ++ b, isHead W.isWord c = true := by
    intro c hc
    rcases List.mem_append.1 hc with hc | hc
    · exact hhead c hc
    · exact isHead_of_isSpace (hb c hc)
  have hend : ('/' :: n).head?.any (isHead W.isWord) = false := hslash
  have hdrop := (takeWhile_of_forall hall hend).2
  rw [← List.append_assoc, declaredAt, headAt, hdrop]
  exact ite_self none

/-- The gap stands in front of the type and the value, and one filling ends there. -/
theorem stays_of_slash {b n : Str} (hb : ∀ c ∈ b, isSpace c = true)
    (hhead : ∀ c ∈ Y, isHead W.isWord c = true) (hnone : declaredAt W.isWord (Y ++ V) = none) :
    Stays W Y V [] (b ++ '/' :: n) := by
  refine .none fun x hx => ?_
  rcases hx with rfl | rfl
  · exact hnone
  · rw [List.append_assoc, List.cons_append]
    exact declaredAt_slash hb hhead

theorem exists_solid {Y : Str} (h : ¬ ∀ d ∈ Y, isHead W.isWord d = true) :
    ∃ d ∈ Y, isHead W.isWord d = false := by
  by_contra hall
  refine h fun d hd => ?_
  by_contra hd'
  exact hall ⟨d, hd, by simpa using hd'⟩

/-- White space may be put for white space. -/
theorem stable_of_blank (hspace : ∀ x, x = g ∨ x = g' → ∀ c ∈ x, isSpace c = true)
    (hapart : Apart W U V g g') (hfits : Fits U V g g') :
    Stable id (declaration W.isWord) declaredName U V g g' := by
  apply stable_of_stays
  intro Y hY
  by_cases hhead : ∀ d ∈ Y, isHead W.isWord d = true
  · exact stays_of_blank hspace hapart hY hhead
  · exact stays_of_solid hfits ((List.suffix_cons '\n' Y).trans hY) (exists_solid hhead)

end

end GlobalVars
