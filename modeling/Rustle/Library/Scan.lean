import Mathlib

/-!
# Scanning a list for matches

From left to right, the matches that do not overlap, as `finditer` returns them.

* `finditer` — the scan, for a matcher that says what stands at the head of a list.
* `mem_finditer` — what is found stands there.
* `finditer_covers` — a match that is **not** found starts inside of one that is.
* `finditer_pairwise` — the matches do not overlap.
* `sub` — their replacement; `mem_sub_iff` — what it leaves.
-/

namespace Scan

variable {α : Type}

/-- A match: where it starts, and what it is. -/
structure Found (α : Type) where
  start : Nat
  text : List α
  deriving DecidableEq

/-- The place behind a match. -/
def Found.stop (a : Found α) : Nat := a.start + a.text.length

variable (matchAt : List α → Option (List α))

/-- The scan from a position, where `skip` more elements belong to the last match. -/
def scanFrom : Nat → Nat → List α → List (Found α)
  | _, _, [] => []
  | skip + 1, pos, _ :: s => scanFrom skip (pos + 1) s
  | 0, pos, c :: s =>
    match matchAt (c :: s) with
    | some m => ⟨pos, m⟩ :: scanFrom (m.length - 1) (pos + 1) s
    | none => scanFrom 0 (pos + 1) s

/-- `finditer` -/
def finditer (s : List α) : List (Found α) := scanFrom matchAt 0 0 s

variable {matchAt}

theorem mem_scanFrom {skip pos : Nat} {s : List α} {a : Found α}
    (h : a ∈ scanFrom matchAt skip pos s) :
    ∃ k, a.start = pos + k ∧ skip ≤ k ∧ k < s.length ∧ matchAt (s.drop k) = some a.text := by
  induction s generalizing skip pos with
  | nil =>
    rw [scanFrom] at h
    exact absurd h List.not_mem_nil
  | cons c s ih =>
    -- what is found behind the first element is found one place on
    have hnext : ∀ {skip'}, a ∈ scanFrom matchAt skip' (pos + 1) s →
        ∃ k, a.start = pos + k ∧ skip' + 1 ≤ k ∧ k < (c :: s).length ∧
          matchAt ((c :: s).drop k) = some a.text := by
      intro skip' hmem
      obtain ⟨k, hstart, hskip, hlt, hk⟩ := ih hmem
      refine ⟨k + 1, by omega, by omega, ?_, hk⟩
      rw [List.length_cons]
      omega
    cases skip with
    | succ skip =>
      rw [scanFrom] at h
      exact hnext h
    | zero =>
      rw [scanFrom] at h
      cases hm : matchAt (c :: s) with
      | none =>
        rw [hm] at h
        obtain ⟨k, hstart, -, hlt, hk⟩ := hnext h
        exact ⟨k, hstart, Nat.zero_le k, hlt, hk⟩
      | some m =>
        rw [hm] at h
        rcases List.mem_cons.1 h with rfl | h
        · exact ⟨0, rfl, le_refl 0, by simp, hm⟩
        · obtain ⟨k, hstart, -, hlt, hk⟩ := hnext h
          exact ⟨k, hstart, Nat.zero_le k, hlt, hk⟩

/-- The rest of a match is passed over. -/
theorem scanFrom_skip (skip pos : Nat) (s : List α) :
    scanFrom matchAt skip pos s = scanFrom matchAt 0 (pos + skip) (s.drop skip) := by
  induction s generalizing skip pos with
  | nil => rw [List.drop_nil, scanFrom, scanFrom]
  | cons c s ih =>
    cases skip with
    | zero => rfl
    | succ skip =>
      rw [scanFrom, List.drop_succ_cons, ih, show pos + 1 + skip = pos + (skip + 1) by omega]

/-- What is found stands there. -/
theorem mem_finditer {s : List α} {a : Found α} (h : a ∈ finditer matchAt s) :
    a.start < s.length ∧ matchAt (s.drop a.start) = some a.text := by
  obtain ⟨k, hstart, -, hlt, hk⟩ := mem_scanFrom h
  rw [Nat.zero_add] at hstart
  rw [hstart]
  exact ⟨hlt, hk⟩

theorem scanFrom_covers {skip pos k : Nat} {s m : List α} (hm : matchAt (s.drop k) = some m)
    (hskip : skip ≤ k) (hk : k < s.length) :
    ⟨pos + k, m⟩ ∈ scanFrom matchAt skip pos s ∨
      ∃ b ∈ scanFrom matchAt skip pos s, b.start < pos + k ∧ pos + k < b.stop := by
  induction s generalizing skip pos k with
  | nil => simp at hk
  | cons c s ih =>
    cases skip with
    | succ skip =>
      obtain ⟨j, rfl⟩ : ∃ j, k = j + 1 := ⟨k - 1, by omega⟩
      rw [scanFrom, show pos + (j + 1) = pos + 1 + j by omega]
      exact ih hm (by omega) (by simpa using hk)
    | zero =>
      cases k with
      | zero =>
        rw [List.drop_zero] at hm
        rw [scanFrom, hm]
        exact Or.inl (List.mem_cons_self ..)
      | succ j =>
        rw [scanFrom, show pos + (j + 1) = pos + 1 + j by omega]
        have hlt : j < s.length := by simpa using hk
        cases hhead : matchAt (c :: s) with
        | none => exact ih hm (Nat.zero_le j) hlt
        | some n =>
          by_cases hj : n.length - 1 ≤ j
          · refine Or.imp (List.mem_cons_of_mem _) ?_ (ih hm hj hlt)
            rintro ⟨b, hb, hinside⟩
            exact ⟨b, List.mem_cons_of_mem _ hb, hinside⟩
          · -- the match at the head reaches beyond
            refine Or.inr ⟨⟨pos, n⟩, List.mem_cons_self .., by simp only; omega, ?_⟩
            simp only [Found.stop]
            omega

/-- A match that is not found starts inside of one that is. -/
theorem finditer_covers {s m : List α} {k : Nat} (hm : matchAt (s.drop k) = some m)
    (hk : k < s.length) :
    ⟨k, m⟩ ∈ finditer matchAt s ∨ ∃ b ∈ finditer matchAt s, b.start < k ∧ k < b.stop := by
  have h := @scanFrom_covers α matchAt 0 0 k s m hm (Nat.zero_le k) hk
  rw [Nat.zero_add] at h
  exact h

theorem scanFrom_pairwise (skip pos : Nat) (s : List α) :
    (scanFrom matchAt skip pos s).Pairwise fun a b => a.stop ≤ b.start := by
  induction s generalizing skip pos with
  | nil =>
    rw [scanFrom]
    exact List.Pairwise.nil
  | cons c s ih =>
    cases skip with
    | succ skip =>
      rw [scanFrom]
      exact ih skip (pos + 1)
    | zero =>
      rw [scanFrom]
      cases hm : matchAt (c :: s) with
      | none => exact ih 0 (pos + 1)
      | some m =>
        refine List.pairwise_cons.2 ⟨fun b hb => ?_, ih _ _⟩
        obtain ⟨k, hstart, hskip, -, -⟩ := mem_scanFrom hb
        rw [Found.stop]
        dsimp only
        omega

/-- The matches do not overlap, and come in their order. -/
theorem finditer_pairwise (s : List α) :
    (finditer matchAt s).Pairwise fun a b => a.stop ≤ b.start :=
  scanFrom_pairwise 0 0 s

/-- Two matches are the same, or one ends before the other starts. -/
theorem finditer_disjoint {s : List α} {a b : Found α} (ha : a ∈ finditer matchAt s)
    (hb : b ∈ finditer matchAt s) : a = b ∨ a.stop ≤ b.start ∨ b.stop ≤ a.start := by
  have hpairs := @finditer_pairwise α matchAt s
  refine List.Pairwise.forall_of_forall_of_flip (R := fun a b : Found α =>
    a = b ∨ a.stop ≤ b.start ∨ b.stop ≤ a.start) (fun a _ => Or.inl rfl) ?_ ?_ ha hb
  · exact hpairs.imp fun h => Or.inr (Or.inl h)
  · exact hpairs.imp fun h => Or.inr (Or.inr h)

/-! ## Replacing what is found -/

variable (matchAt) in
/-- The replacement from a position, where `skip` more elements belong to the last match. -/
def subFrom (f : List α → List α) : Nat → List α → List α
  | _, [] => []
  | skip + 1, _ :: s => subFrom f skip s
  | 0, c :: s =>
    match matchAt (c :: s) with
    | some m => f m ++ subFrom f (m.length - 1) s
    | none => c :: subFrom f 0 s

variable (matchAt) in
/-- `re.sub`, where `f` says what stands for a match. -/
def sub (f : List α → List α) (s : List α) : List α := subFrom matchAt f 0 s

theorem subFrom_sublist (hm : ∀ s m, matchAt s = some m → m ≠ [] ∧ m <+: s)
    {f : List α → List α} (hf : ∀ m, (f m).Sublist m) (skip : Nat) (s : List α) :
    (subFrom matchAt f skip s).Sublist (s.drop skip) := by
  induction s generalizing skip with
  | nil => simp [subFrom]
  | cons c s ih =>
    cases skip with
    | succ skip =>
      rw [subFrom, List.drop_succ_cons]
      exact ih skip
    | zero =>
      rw [subFrom, List.drop_zero]
      cases h : matchAt (c :: s) with
      | none => exact (ih 0).cons_cons c
      | some m =>
        obtain ⟨hne, t, ht⟩ := hm _ m h
        have hdrop : s.drop (m.length - 1) = t := by
          have hlen : m.length = (m.length - 1) + 1 := by
            have := List.length_pos_of_ne_nil hne
            omega
          have hcons := congrArg (List.drop m.length) ht
          rw [List.drop_left] at hcons
          rw [hcons]
          nth_rewrite 2 [hlen]
          rw [List.drop_succ_cons]
        have htail := ih (m.length - 1)
        rw [hdrop] at htail
        dsimp only
        rw [← ht]
        exact (hf m).append htail

/-- A replacement by parts of the matches leaves a part of the text. -/
theorem sub_sublist (hm : ∀ s m, matchAt s = some m → m ≠ [] ∧ m <+: s)
    {f : List α → List α} (hf : ∀ m, (f m).Sublist m) (s : List α) :
    (sub matchAt f s).Sublist s := by
  have h := subFrom_sublist hm hf 0 s
  rwa [List.drop_zero] at h

/-- Does the position lie in the match? -/
def Found.Holds (a : Found α) (j : Nat) : Prop := a.start ≤ j ∧ j < a.stop

/-- Does the element stand at or behind `skip`, in no match?  The list starts at `pos`. -/
def Outside (found : List (Found α)) (skip pos : Nat) (s : List α) (x : α) : Prop :=
  ∃ j, s[j]? = some x ∧ skip ≤ j ∧ ∀ a ∈ found, ¬ a.Holds (pos + j)

theorem outside_succ_iff {found : List (Found α)} {skip pos : Nat} {c x : α} {s : List α} :
    Outside found (skip + 1) pos (c :: s) x ↔ Outside found skip (pos + 1) s x := by
  constructor
  · rintro ⟨j, hj, hskip, hnot⟩
    obtain ⟨i, rfl⟩ : ∃ i, j = i + 1 := ⟨j - 1, by omega⟩
    refine ⟨i, by simpa using hj, by omega, fun a ha => ?_⟩
    rw [show pos + 1 + i = pos + (i + 1) by omega]
    exact hnot a ha
  · rintro ⟨j, hj, hskip, hnot⟩
    refine ⟨j + 1, by simpa using hj, by omega, fun a ha => ?_⟩
    rw [show pos + (j + 1) = pos + 1 + j by omega]
    exact hnot a ha

/-- The head is outside of matches that start behind it. -/
theorem outside_zero_iff {found : List (Found α)} {pos : Nat} {c x : α} {s : List α}
    (h : ∀ a ∈ found, pos < a.start) :
    Outside found 0 pos (c :: s) x ↔ x = c ∨ Outside found 0 (pos + 1) s x := by
  rw [← @outside_succ_iff α found 0 pos c x s]
  constructor
  · rintro ⟨j, hj, -, hnot⟩
    cases j with
    | zero => exact Or.inl (by simpa using hj.symm)
    | succ j => exact Or.inr ⟨j + 1, hj, Nat.le_add_left 1 j, hnot⟩
  · rintro (rfl | ⟨j, hj, -, hnot⟩)
    · refine ⟨0, rfl, le_refl 0, fun a ha hholds => ?_⟩
      have hstart := h a ha
      have hle := hholds.1
      omega
    · exact ⟨j, hj, Nat.zero_le j, hnot⟩

/-- A match at the head passes over the rest of it. -/
theorem outside_cons_iff {found : List (Found α)} {pos : Nat} {c x : α} {m s : List α}
    (hm : 0 < m.length) :
    Outside (⟨pos, m⟩ :: found) 0 pos (c :: s) x ↔ Outside found (m.length - 1) (pos + 1) s x := by
  rw [← @outside_succ_iff α found (m.length - 1) pos c x s, Nat.sub_add_cancel hm]
  have hhead : ∀ j, ¬ (⟨pos, m⟩ : Found α).Holds (pos + j) ↔ m.length ≤ j := by
    intro j
    simp only [Found.Holds, Found.stop]
    omega
  constructor
  · rintro ⟨j, hj, -, hnot⟩
    exact ⟨j, hj, (hhead j).1 (hnot _ List.mem_cons_self),
      fun a ha => hnot a (List.mem_cons_of_mem _ ha)⟩
  · rintro ⟨j, hj, hskip, hnot⟩
    refine ⟨j, hj, Nat.zero_le j, fun a ha => ?_⟩
    rcases List.mem_cons.1 ha with rfl | ha
    · exact (hhead j).2 hskip
    · exact hnot a ha

theorem mem_subFrom_iff (hne : ∀ s m, matchAt s = some m → m ≠ []) {f : List α → List α}
    {skip pos : Nat} {s : List α} {x : α} :
    x ∈ subFrom matchAt f skip s ↔
      Outside (scanFrom matchAt skip pos s) skip pos s x ∨
      ∃ a ∈ scanFrom matchAt skip pos s, x ∈ f a.text := by
  induction s generalizing skip pos with
  | nil => simp [subFrom, scanFrom, Outside]
  | cons c s ih =>
    cases skip with
    | succ skip => rw [subFrom, scanFrom, @ih skip (pos + 1), outside_succ_iff]
    | zero =>
      rw [subFrom, scanFrom]
      cases hm : matchAt (c :: s) with
      | none =>
        dsimp only
        have hbehind : ∀ a ∈ scanFrom matchAt 0 (pos + 1) s, pos < a.start := by
          intro a ha
          obtain ⟨k, hstart, -, -, -⟩ := mem_scanFrom ha
          omega
        rw [List.mem_cons, @ih 0 (pos + 1), outside_zero_iff hbehind, or_assoc]
      | some m =>
        dsimp only
        rw [List.mem_append, @ih (m.length - 1) (pos + 1),
          outside_cons_iff (List.length_pos_of_ne_nil (hne _ m hm)), List.exists_mem_cons_iff]
        exact or_left_comm

/-- A replacement leaves what lies in no match, and puts what it says for each. -/
theorem mem_sub_iff (hne : ∀ s m, matchAt s = some m → m ≠ []) {f : List α → List α}
    {s : List α} {x : α} :
    x ∈ sub matchAt f s ↔
      (∃ j, s[j]? = some x ∧ ∀ a ∈ finditer matchAt s, ¬ a.Holds j) ∨
      ∃ a ∈ finditer matchAt s, x ∈ f a.text := by
  rw [sub, @mem_subFrom_iff α matchAt hne f 0 0 s x, Outside]
  simp only [Nat.zero_le, true_and, Nat.zero_add]
  rfl

end Scan
