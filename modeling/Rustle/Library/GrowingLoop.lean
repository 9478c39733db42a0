import Mathlib

/-!
# Loops over a list that grows

A loop that goes through a list by index and appends to that same list, and a
table of such loops, one for each row, that share the list.

* `grow` — the loop of one row, with fuel; `none` when it runs out.
* `grow_ends`, `grow_diverges` — the loop ends unless the row is called for by
  some element **and** calls for itself.
* `growAll` — one loop for each row of a table, in order.
* `Early` — a row is called for by an element of the base, or by an earlier row
  that is itself early.
* `growAll_ends_iff`, `mem_growAll_iff` — when the loops end, and what the list
  holds then.
-/

namespace GrowingLoop

variable {α : Type}

/-- `for t in list: if p t: list.append(s)`, from index `i` on. -/
def grow (p : α → Bool) (s : α) : Nat → Nat → List α → Option (List α)
  | 0, _, _ => none
  | n + 1, i, list =>
    match list[i]? with
    | none => some list
    | some t => grow p s n (i + 1) (if p t then list ++ [s] else list)

section

variable (p : α → Bool) (s : α)

theorem grow_nil (n : Nat) (done : List α) : grow p s (n + 1) done.length done = some done := by
  simp [grow]

/-- One turn of the loop moves one element from what is to come to what is done. -/
theorem grow_cons (n : Nat) (done rest : List α) (t : α) :
    grow p s (n + 1) done.length (done ++ t :: rest) =
      grow p s n (done ++ [t]).length (done ++ [t] ++ if p t then rest ++ [s] else rest) := by
  have hget : (done ++ t :: rest)[done.length]? = some t := by simp
  rw [grow, hget]
  by_cases hp : p t = true
  · simp [hp]
  · simp [hp]

/-- The loop ends if its own element does not call for it, or nothing does.  It
has then appended once for each element that does. -/
theorem grow_ends {m : Nat} {d rest : List α} (h : p s = false ∨ ∀ t ∈ rest, p t = false)
    (hm : rest.length + rest.countP p ≤ m) :
    grow p s (m + 1) d.length (d ++ rest) =
      some (d ++ rest ++ List.replicate (rest.countP p) s) := by
  induction m generalizing d rest with
  | zero =>
    obtain rfl : rest = [] := List.length_eq_zero_iff.1 (by omega)
    simpa using grow_nil p s 0 d
  | succ m ih =>
    cases rest with
    | nil => simpa using grow_nil p s (m + 1) d
    | cons t rest =>
      rw [grow_cons]
      by_cases hp : p t = true
      · -- the element calls for `s`, so `s` does not call for itself
        have hs : p s = false := by
          rcases h with hs | hall
          · exact hs
          · rw [hall t (List.mem_cons_self ..)] at hp
            cases hp
        rw [if_pos hp, ih (Or.inl hs)]
        · simp [hp, hs, List.countP_append, List.replicate_succ]
        · simp [hp, hs, List.countP_append] at hm ⊢
          omega
      · have hrest : p s = false ∨ ∀ t ∈ rest, p t = false :=
          h.imp_right fun hall t' ht' => hall t' (List.mem_cons_of_mem _ ht')
        rw [if_neg hp, ih hrest]
        · simp [hp]
        · simp [hp] at hm
          omega

/-- An element that is called for and calls for itself is appended for ever. -/
theorem grow_diverges (hs : p s = true) {d rest : List α} (h : ∃ t ∈ rest, p t = true)
    (n : Nat) : grow p s n d.length (d ++ rest) = none := by
  induction n generalizing d rest with
  | zero => rfl
  | succ n ih =>
    cases rest with
    | nil =>
      obtain ⟨t, ht, -⟩ := h
      exact absurd ht List.not_mem_nil
    | cons t rest =>
      rw [grow_cons]
      refine ih ?_
      by_cases hp : p t = true
      · rw [if_pos hp]
        exact ⟨s, by simp, hs⟩
      · rw [if_neg hp]
        obtain ⟨t', ht', hp'⟩ := h
        rcases List.mem_cons.1 ht' with rfl | ht'
        · exact absurd hp' hp
        · exact ⟨t', ht', hp'⟩

theorem grow_succ {n i : Nat} {list list' : List α} (h : grow p s n i list = some list') :
    grow p s (n + 1) i list = some list' := by
  induction n generalizing i list with
  | zero => cases h
  | succ n ih =>
    rw [grow] at h ⊢
    cases ht : list[i]? with
    | none => simpa [ht] using h
    | some t =>
      simp only [ht] at h ⊢
      exact ih h

theorem grow_mono {n m : Nat} (hnm : n ≤ m) {i : Nat} {list list' : List α}
    (h : grow p s n i list = some list') : grow p s m i list = some list' := by
  induction m, hnm using Nat.le_induction with
  | base => exact h
  | succ m _ ih => exact grow_succ p s ih

/-- The loop over a list ends exactly when its element is not called for, or does
not call for itself. -/
theorem grow_ends_iff (list : List α) :
    (∃ n list', grow p s n 0 list = some list') ↔
      ¬ (p s = true ∧ ∃ t ∈ list, p t = true) := by
  refine ⟨?_, fun h => ?_⟩
  · rintro ⟨n, list', hgrow⟩ ⟨hs, hcalled⟩
    have hnone := grow_diverges p s hs (d := []) hcalled n
    rw [List.length_nil, List.nil_append, hgrow] at hnone
    cases hnone
  · have hends : p s = false ∨ ∀ t ∈ list, p t = false := by
      by_cases hs : p s = true
      · apply Or.inr
        intro t ht
        by_contra hp
        exact h ⟨hs, t, ht, by simpa using hp⟩
      · exact Or.inl (by simpa using hs)
    exact ⟨_, _, grow_ends p s (d := []) hends (Nat.le_refl _)⟩

/-- A loop that ends has appended its element if something called for it. -/
theorem mem_grow_iff {n : Nat} {list list' : List α} (h : grow p s n 0 list = some list') {x : α} :
    x ∈ list' ↔ x ∈ list ∨ (x = s ∧ ∃ t ∈ list, p t = true) := by
  have hends : p s = false ∨ ∀ t ∈ list, p t = false := by
    by_contra hno
    refine (grow_ends_iff p s list).1 ⟨n, list', h⟩ ?_
    simp only [not_or, Bool.not_eq_false, not_forall] at hno
    obtain ⟨hs, t, ht, hp⟩ := hno
    exact ⟨hs, t, ht, hp⟩
  have hrun := grow_ends p s (d := []) hends (Nat.le_refl _)
  rw [List.nil_append, List.length_nil] at hrun
  have hmax := grow_mono p s (Nat.le_max_left n (list.length + list.countP p + 1)) h
  rw [grow_mono p s (Nat.le_max_right n _) hrun, Option.some.injEq] at hmax
  rw [← hmax, List.mem_append, List.mem_replicate]
  refine or_congr_right (and_comm.trans (and_congr_right fun _ => ?_))
  rw [← Nat.pos_iff_ne_zero, List.countP_pos_iff]

end

/-! ## One loop for each row -/

variable {β : Type}

section

variable (name : β → α) (calledBy : β → α → Bool)

/-- The loops of the rows of a table, in order. -/
def growAll (fuel : Nat) : List β → List α → Option (List α)
  | [], list => some list
  | row :: table, list =>
    match grow (calledBy row) (name row) fuel 0 list with
    | none => none
    | some list' => growAll fuel table list'

/-- A row that is called for by the base, or by an earlier row that is early. -/
inductive Early (base : List α) (table : List β) : β → Prop where
  | base {pre row post t} (htable : table = pre ++ row :: post) (ht : t ∈ base)
      (hcalled : calledBy row t = true) : Early base table row
  | step {pre row post row'} (htable : table = pre ++ row :: post) (hmem : row' ∈ pre)
      (hrow : Early base table row') (hcalled : calledBy row (name row') = true) :
      Early base table row

variable {name calledBy} {base : List α} {table : List β}

/-- In a table without repetition a row stands in one place. -/
theorem split_unique (hnodup : table.Nodup) {pre pre' post post' : List β} {row : β}
    (h : table = pre ++ row :: post) (h' : table = pre' ++ row :: post') : pre = pre' := by
  have hmid : row ∉ pre ++ post := (List.nodup_middle.1 (h ▸ hnodup)).notMem
  have hpre : row ∉ pre := fun hm => hmid (List.mem_append_left _ hm)
  have hpost : row ∉ post := fun hm => hmid (List.mem_append_right _ hm)
  exact ((List.append_cons_inj_of_notMem hpre hpost).1 (h.symm.trans h')).1

/-- What calls for a row, among the base and the rows before it. -/
theorem early_iff (hnodup : table.Nodup) {pre post : List β} {row : β}
    (h : table = pre ++ row :: post) :
    Early name calledBy base table row ↔
      ∃ t, (t ∈ base ∨ ∃ r ∈ pre, Early name calledBy base table r ∧ name r = t) ∧
        calledBy row t = true := by
  refine ⟨fun he => ?_, ?_⟩
  · cases he with
    | base htable ht hcalled => exact ⟨_, Or.inl ht, hcalled⟩
    | step htable hmem hrow hcalled =>
      rw [← split_unique hnodup h htable] at hmem
      exact ⟨_, Or.inr ⟨_, hmem, hrow, rfl⟩, hcalled⟩
  · rintro ⟨t, ht | ⟨r, hr, hearly, rfl⟩, hcalled⟩
    · exact .base h ht hcalled
    · exact .step h hr hearly hcalled

/-- What the list holds behind the rows of `pre`. -/
def Holds (name : β → α) (calledBy : β → α → Bool) (base : List α) (table pre : List β)
    (list : List α) : Prop :=
  ∀ x, x ∈ list ↔ x ∈ base ∨ ∃ r ∈ pre, Early name calledBy base table r ∧ name r = x

/-- What calls for the next row, in the list. -/
theorem Holds.called_iff (hnodup : table.Nodup) {pre post : List β} {row : β} {list : List α}
    (h : table = pre ++ row :: post) (hlist : Holds name calledBy base table pre list) :
    (∃ t ∈ list, calledBy row t = true) ↔ Early name calledBy base table row := by
  rw [early_iff hnodup h]
  exact exists_congr fun t => and_congr_left' (hlist t)

/-- One row keeps the list what it is meant to be. -/
theorem Holds.grow (hnodup : table.Nodup) {pre post : List β} {row : β} {list list' : List α}
    (h : table = pre ++ row :: post) (hlist : Holds name calledBy base table pre list) {n : Nat}
    (hrun : grow (calledBy row) (name row) n 0 list = some list') :
    Holds name calledBy base table (pre ++ [row]) list' := by
  intro x
  rw [mem_grow_iff _ _ hrun, hlist.called_iff hnodup h, hlist x]
  constructor
  · rintro ((hx | ⟨r, hr, hearly, hx⟩) | ⟨rfl, hearly⟩)
    · exact Or.inl hx
    · exact Or.inr ⟨r, by simp [hr], hearly, hx⟩
    · exact Or.inr ⟨row, by simp, hearly, rfl⟩
  · rintro (hx | ⟨r, hr, hearly, hx⟩)
    · exact Or.inl (Or.inl hx)
    · rcases List.mem_append.1 hr with hr | hr
      · exact Or.inl (Or.inr ⟨r, hr, hearly, hx⟩)
      · rw [List.mem_singleton] at hr
        subst hr
        exact Or.inr ⟨hx.symm, hearly⟩

theorem growAll_mono {n m : Nat} (hnm : n ≤ m) {rows : List β} {list list' : List α}
    (h : growAll name calledBy n rows list = some list') :
    growAll name calledBy m rows list = some list' := by
  induction rows generalizing list with
  | nil => exact h
  | cons row rows ih =>
    rw [growAll] at h ⊢
    cases hg : GrowingLoop.grow (calledBy row) (name row) n 0 list with
    | none => simp [hg] at h
    | some mid =>
      rw [grow_mono _ _ hnm hg]
      simp only [hg] at h
      exact ih h

/-- The run from the rows of `post` on: it keeps the list what it is meant to be. -/
theorem Holds.growAll (hnodup : table.Nodup) {pre post : List β} {list list' : List α}
    (h : table = pre ++ post) (hlist : Holds name calledBy base table pre list) {n : Nat}
    (hrun : growAll name calledBy n post list = some list') :
    Holds name calledBy base table table list' := by
  induction post generalizing pre list with
  | nil =>
    rw [GrowingLoop.growAll, Option.some.injEq] at hrun
    subst hrun
    rw [List.append_nil] at h
    rw [← h] at hlist
    exact hlist
  | cons row post ih =>
    rw [GrowingLoop.growAll] at hrun
    cases hg : GrowingLoop.grow (calledBy row) (name row) n 0 list with
    | none => simp [hg] at hrun
    | some mid =>
      simp only [hg] at hrun
      exact ih (by simp [h]) (hlist.grow hnodup h hg) hrun

/-- The list of a run that ends holds the base and the early rows. -/
theorem mem_growAll_iff (hnodup : table.Nodup) {n : Nat} {list : List α}
    (h : growAll name calledBy n table base = some list) (x : α) :
    x ∈ list ↔ x ∈ base ∨ ∃ r ∈ table, Early name calledBy base table r ∧ name r = x := by
  have hbase : Holds name calledBy base table [] base := by
    intro x
    simp
  exact hbase.growAll hnodup (List.nil_append table).symm h x

/-- From a list that is what it is meant to be, the rest of the run ends exactly
when no early row of it calls for itself. -/
theorem Holds.growAll_ends_iff (hnodup : table.Nodup) {pre post : List β} {list : List α}
    (h : table = pre ++ post) (hlist : Holds name calledBy base table pre list) :
    (∃ n list', GrowingLoop.growAll name calledBy n post list = some list') ↔
      ∀ row ∈ post, calledBy row (name row) = true → ¬ Early name calledBy base table row := by
  induction post generalizing pre list with
  | nil => exact iff_of_true ⟨0, list, rfl⟩ fun row hrow => absurd hrow List.not_mem_nil
  | cons row post ih =>
    have hrow : (∃ n mid, GrowingLoop.grow (calledBy row) (name row) n 0 list = some mid) ↔
        (calledBy row (name row) = true → ¬ Early name calledBy base table row) := by
      rw [grow_ends_iff, hlist.called_iff hnodup h, not_and]
    rw [List.forall_mem_cons, ← hrow]
    constructor
    · rintro ⟨n, list', hrun⟩
      rw [GrowingLoop.growAll] at hrun
      cases hg : GrowingLoop.grow (calledBy row) (name row) n 0 list with
      | none => simp [hg] at hrun
      | some mid =>
        simp only [hg] at hrun
        exact ⟨⟨n, mid, hg⟩, (ih (by simp [h]) (hlist.grow hnodup h hg)).1 ⟨n, list', hrun⟩⟩
    · rintro ⟨⟨n, mid, hg⟩, hpost⟩
      obtain ⟨m, list', hrun⟩ := (ih (by simp [h]) (hlist.grow hnodup h hg)).2 hpost
      refine ⟨max n m, list', ?_⟩
      rw [GrowingLoop.growAll, grow_mono _ _ (Nat.le_max_left n m) hg]
      exact growAll_mono (Nat.le_max_right n m) hrun

/-- The loops of a table end exactly when no early row calls for itself. -/
theorem growAll_ends_iff (hnodup : table.Nodup) :
    (∃ n list, growAll name calledBy n table base = some list) ↔
      ∀ row ∈ table, calledBy row (name row) = true → ¬ Early name calledBy base table row := by
  have hbase : Holds name calledBy base table [] base := by
    intro x
    simp
  exact hbase.growAll_ends_iff hnodup (List.nil_append table).symm

end

end GrowingLoop
