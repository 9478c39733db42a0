import Rustle.Library.Text

/-!
# Texts of whole lines

A log is written line by line, so that it ends with a newline, and what is
written next begins a line of its own.

* `Whole` — a text of whole lines; the empty one is.
* `lines_append`, `words_append` — behind whole lines a text is read on its own.
* `mapLines` — a filter that changes each line; `mapLines_append`.
* `copies` — each of some texts `k` times over.
-/

namespace Text

/-- A text that is empty or ends with a newline. -/
def Whole (text : Str) : Prop := text = [] ∨ ∃ t, text = t ++ ['\n']

theorem whole_nil : Whole [] := Or.inl rfl

theorem Whole.append {a b : Str} (ha : Whole a) (hb : Whole b) : Whole (a ++ b) := by
  rcases hb with rfl | ⟨t, rfl⟩
  · rwa [List.append_nil]
  · exact Or.inr ⟨a ++ t, (List.append_assoc ..).symm⟩

theorem whole_flatten {texts : List Str} (h : ∀ t ∈ texts, Whole t) : Whole texts.flatten := by
  induction texts with
  | nil => exact whole_nil
  | cons t texts ih =>
    rw [List.flatten_cons]
    exact (h t List.mem_cons_self).append (ih fun x hx => h x (List.mem_cons_of_mem _ hx))

theorem whole_unlines (ls : List Str) : Whole (unlines ls) := by
  refine whole_flatten fun t ht => ?_
  obtain ⟨l, -, rfl⟩ := List.mem_map.1 ht
  exact Or.inr ⟨l, rfl⟩

/-! ## Reading on behind whole lines -/

theorem universalNewlines_cons {c : Char} (h : c ≠ '\r') (s : Str) :
    universalNewlines (c :: s) = c :: universalNewlines s := by
  rw [universalNewlines]
  · intro t hc
    exact absurd hc h
  · exact h

theorem universalNewlines_cr {c : Char} (h : c ≠ '\n') (s : Str) :
    universalNewlines ('\r' :: c :: s) = '\n' :: universalNewlines (c :: s) := by
  rw [universalNewlines]
  intro t ht
  exact h (List.cons.inj ht).1

theorem universalNewlines_append (a b : Str) :
    universalNewlines (a ++ '\n' :: b)
      = universalNewlines (a ++ ['\n']) ++ universalNewlines b := by
  fun_induction universalNewlines a with
  | case1 => simp [universalNewlines]
  | case2 s ih => simp [universalNewlines, ih]
  | case3 s hs ih =>
    cases s with
    | nil => simp [universalNewlines]
    | cons c s =>
      have hc : c ≠ '\n' := fun h => hs s (by rw [h])
      simp only [List.cons_append] at ih ⊢
      rw [universalNewlines_cr hc, universalNewlines_cr hc, ih]
      rfl
  | case4 c s h1 h2 ih =>
    rw [List.cons_append, List.cons_append, universalNewlines_cons h2,
      universalNewlines_cons h2, ih]
    rfl

/-- A text that ends with a newline still does. -/
theorem universalNewlines_newline (a : Str) :
    ∃ u, universalNewlines (a ++ ['\n']) = u ++ ['\n'] := by
  fun_induction universalNewlines a with
  | case1 => exact ⟨[], by simp [universalNewlines]⟩
  | case2 s ih =>
    obtain ⟨u, hu⟩ := ih
    exact ⟨'\n' :: u, by simp [universalNewlines, hu]⟩
  | case3 s hs ih =>
    obtain ⟨u, hu⟩ := ih
    cases s with
    | nil => exact ⟨[], by simp [universalNewlines]⟩
    | cons c s =>
      have hc : c ≠ '\n' := fun h => hs s (by rw [h])
      rw [List.cons_append] at hu
      rw [List.cons_append, List.cons_append, universalNewlines_cr hc, hu]
      exact ⟨'\n' :: u, rfl⟩
  | case4 c s h1 h2 ih =>
    obtain ⟨u, hu⟩ := ih
    rw [List.cons_append, universalNewlines_cons h2, hu]
    exact ⟨c :: u, rfl⟩

/-- Behind whole lines the lines of a text are read on their own. -/
theorem lines_append {a : Str} (ha : Whole a) (b : Str) : lines (a ++ b) = lines a ++ lines b := by
  rcases ha with rfl | ⟨t, rfl⟩
  · rfl
  · obtain ⟨u, hu⟩ := universalNewlines_newline t
    have hne : (universalNewlines b).splitOn '\n' ≠ [] := List.splitOn_ne_nil _ _
    rw [List.append_assoc, List.singleton_append]
    unfold lines
    rw [universalNewlines_append, hu, List.append_assoc, List.singleton_append,
      List.splitOn_append_cons_self, List.splitOn_append_cons_self, List.splitOn_nil]
    simp only [List.getLast?_append_of_ne_nil _ hne, List.getLast?_concat, if_true,
      List.dropLast_concat]
    split
    · rw [List.dropLast_append_of_ne_nil hne]
    · rfl

theorem lines_flatten {texts : List Str} (h : ∀ t ∈ texts, Whole t) :
    lines texts.flatten = texts.flatMap lines := by
  induction texts with
  | nil => rfl
  | cons t texts ih =>
    rw [List.flatten_cons, lines_append (h t List.mem_cons_self),
      ih fun x hx => h x (List.mem_cons_of_mem _ hx), List.flatMap_cons]

/-- So are its words. -/
theorem words_append {a : Str} (ha : Whole a) (b : Str) : words (a ++ b) = words a ++ words b := by
  rcases ha with rfl | ⟨t, rfl⟩
  · rfl
  · rw [List.append_assoc, List.singleton_append, words, words,
      List.splitOnP_append_cons _ _ (by decide), List.splitOnP_append_cons _ _ (by decide),
      List.filter_append, List.filter_append, List.splitOnP_nil]
    simp [words]

theorem words_flatten {texts : List Str} (h : ∀ t ∈ texts, Whole t) :
    words texts.flatten = texts.flatMap words := by
  induction texts with
  | nil => rfl
  | cons t texts ih =>
    rw [List.flatten_cons, words_append (h t List.mem_cons_self),
      ih fun x hx => h x (List.mem_cons_of_mem _ hx), List.flatMap_cons]

/-! ## Filters -/

/-- The text with `f` applied to each line, and to what follows the last newline
if that is not empty. -/
def mapLines (f : Str → Str) (text : Str) : Str :=
  let pieces := text.splitOn '\n'
  unlines (pieces.dropLast.map f) ++
    if pieces.getLastD [] = [] then [] else f (pieces.getLastD [])

theorem mapLines_newline (f : Str → Str) (a : Str) :
    mapLines f (a ++ ['\n']) = unlines ((a.splitOn '\n').map f) := by
  rw [mapLines, List.splitOn_append_cons_self, List.splitOn_nil]
  simp

theorem mapLines_unlines (f : Str → Str) {ls : List Str} (h : ∀ l ∈ ls, '\n' ∉ l) :
    mapLines f (unlines ls) = unlines (ls.map f) := by
  rw [mapLines, splitOn_unlines h]
  simp

/-- A filter treats what follows whole lines on its own. -/
theorem mapLines_append (f : Str → Str) {a : Str} (ha : Whole a) (b : Str) :
    mapLines f (a ++ b) = mapLines f a ++ mapLines f b := by
  rcases ha with rfl | ⟨t, rfl⟩
  · rfl
  · have hne : b.splitOn '\n' ≠ [] := List.splitOn_ne_nil _ _
    rw [mapLines_newline, List.append_assoc, List.singleton_append, mapLines,
      List.splitOn_append_cons_self, List.dropLast_append_of_ne_nil hne, List.map_append,
      unlines_append, List.append_assoc, List.getLastD_eq_getLast?,
      List.getLast?_append_of_ne_nil _ hne, ← List.getLastD_eq_getLast?]
    rfl

theorem whole_mapLines (f : Str → Str) {a : Str} (ha : Whole a) : Whole (mapLines f a) := by
  rcases ha with rfl | ⟨t, rfl⟩
  · exact whole_nil
  · rw [mapLines_newline]
    exact whole_unlines _

theorem mapLines_flatten (f : Str → Str) {texts : List Str} (h : ∀ t ∈ texts, Whole t) :
    mapLines f texts.flatten = (texts.map (mapLines f)).flatten := by
  induction texts with
  | nil => rfl
  | cons t texts ih =>
    rw [List.flatten_cons, mapLines_append f (h t List.mem_cons_self),
      ih fun x hx => h x (List.mem_cons_of_mem _ hx), List.map_cons, List.flatten_cons]

/-! ## Copies -/

/-- Each of the texts `k` times over. -/
def copies {α : Type} (k : Nat) (texts : List α) : List α := texts.flatMap (List.replicate k)

theorem mem_copies {α : Type} {k : Nat} {texts : List α} {t : α} (h : t ∈ copies k texts) :
    t ∈ texts := by
  obtain ⟨t', ht', h⟩ := List.mem_flatMap.1 h
  exact List.eq_of_mem_replicate h ▸ ht'

theorem flatten_copies {α : Type} (k : Nat) (texts : List (List α)) :
    (copies k texts).flatten = (texts.map fun t => (List.replicate k t).flatten).flatten := by
  induction texts with
  | nil => rfl
  | cons t texts ih =>
    rw [copies, List.flatMap_cons, List.flatten_append, List.map_cons, List.flatten_cons, ← ih]
    rfl

theorem map_copies {α β : Type} (g : α → β) (k : Nat) (texts : List α) :
    (copies k texts).map g = copies k (texts.map g) := by
  simp [copies, List.map_flatMap, List.flatMap_map]

end Text
