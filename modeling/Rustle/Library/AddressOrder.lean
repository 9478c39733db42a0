import Mathlib

/-!
# Iterating a set in address order

A set of pointers is iterated by increasing address, and the addresses are not
part of what a program is given.  What a loop over such a set does is a function
of the set only if it is the same for every assignment of addresses.

* `Order` — an assignment of different addresses; `iterate` — a set in that order.
* `find_iterate_iff`, `findLast_iterate_iff` — what a loop finds that leaves at
  the first success, or keeps the last one: the success of lowest, or highest,
  address.
* `Order.prefer` — the order that puts some elements before all others.
* `forall_exists_good_iff` — several loops over one order: in **every** order one
  of them ends with something good for it, exactly when they contain a trap.
-/

namespace AddressOrder

variable {α : Type}

/-- An assignment of addresses. -/
structure Order (α : Type) where
  addr : α → Nat
  injective : Function.Injective addr

/-- Numbers as their own addresses. -/
def natOrder : Order Nat := ⟨id, Function.injective_id⟩

/-- The elements of a set by increasing address. -/
def Order.iterate (o : Order α) (s : List α) : List α :=
  s.insertionSort fun a b => o.addr a ≤ o.addr b

@[simp] theorem mem_iterate {o : Order α} {s : List α} {x : α} : x ∈ o.iterate s ↔ x ∈ s :=
  List.mem_insertionSort _

theorem iterate_pairwise (o : Order α) (s : List α) :
    (o.iterate s).Pairwise fun a b => o.addr a ≤ o.addr b := by
  have : Std.Total fun a b : α => o.addr a ≤ o.addr b := ⟨fun a b => Nat.le_total _ _⟩
  have : IsTrans α fun a b : α => o.addr a ≤ o.addr b := ⟨fun a b c => Nat.le_trans⟩
  exact List.pairwise_insertionSort _ s

/-- The last element of a list that satisfies a test. -/
def findLast? (p : α → Bool) (l : List α) : Option α := l.reverse.find? p

/-- What a loop leaves with at the first success: the success of lowest address. -/
theorem find_iterate_iff {o : Order α} {s : List α} {p : α → Bool} {x : α} :
    (o.iterate s).find? p = some x ↔
      x ∈ s ∧ p x = true ∧ ∀ y ∈ s, p y = true → o.addr x ≤ o.addr y := by
  have hleast : ∀ x, (o.iterate s).find? p = some x →
      x ∈ s ∧ p x = true ∧ ∀ y ∈ s, p y = true → o.addr x ≤ o.addr y := by
    intro x h
    obtain ⟨hp, as, bs, hl, hpre⟩ := List.find?_eq_some_iff_append.1 h
    refine ⟨mem_iterate.1 (List.mem_of_find?_eq_some h), hp, fun y hy hpy => ?_⟩
    have hmem : y ∈ as ++ x :: bs := hl ▸ mem_iterate.2 hy
    have hsort := iterate_pairwise o s
    rw [hl] at hsort
    rcases List.mem_append.1 hmem with ha | hb
    · have hnot := hpre y ha
      simp [hpy] at hnot
    · rcases List.mem_cons.1 hb with rfl | hb
      · exact Nat.le_refl _
      · exact (List.pairwise_cons.1 (List.pairwise_append.1 hsort).2.1).1 y hb
  refine ⟨hleast x, ?_⟩
  rintro ⟨hx, hp, hmin⟩
  cases hf : (o.iterate s).find? p with
  | none => exact absurd hp (by simpa using List.find?_eq_none.1 hf x (mem_iterate.2 hx))
  | some y =>
    obtain ⟨hy, hpy, hmin'⟩ := hleast y hf
    rw [o.injective (Nat.le_antisymm (hmin y hy hpy) (hmin' x hx hp))]

/-- What a loop ends with that keeps the last success: the success of highest
address. -/
theorem findLast_iterate_iff {o : Order α} {s : List α} {p : α → Bool} {x : α} :
    findLast? p (o.iterate s) = some x ↔
      x ∈ s ∧ p x = true ∧ ∀ y ∈ s, p y = true → o.addr y ≤ o.addr x := by
  have hgreatest : ∀ x, findLast? p (o.iterate s) = some x →
      x ∈ s ∧ p x = true ∧ ∀ y ∈ s, p y = true → o.addr y ≤ o.addr x := by
    intro x h
    unfold findLast? at h
    obtain ⟨hp, as, bs, hl, hpre⟩ := List.find?_eq_some_iff_append.1 h
    refine ⟨mem_iterate.1 (List.mem_reverse.1 (List.mem_of_find?_eq_some h)), hp,
      fun y hy hpy => ?_⟩
    have hmem : y ∈ as ++ x :: bs := hl ▸ List.mem_reverse.2 (mem_iterate.2 hy)
    have hsort := List.pairwise_reverse.2 (iterate_pairwise o s)
    rw [hl] at hsort
    rcases List.mem_append.1 hmem with ha | hb
    · have hnot := hpre y ha
      simp [hpy] at hnot
    · rcases List.mem_cons.1 hb with rfl | hb
      · exact Nat.le_refl _
      · exact (List.pairwise_cons.1 (List.pairwise_append.1 hsort).2.1).1 y hb
  refine ⟨hgreatest x, ?_⟩
  rintro ⟨hx, hp, hmax⟩
  cases hf : findLast? p (o.iterate s) with
  | none =>
    unfold findLast? at hf
    exact absurd hp (by simpa using List.find?_eq_none.1 hf x (by simpa using hx))
  | some y =>
    obtain ⟨hy, hpy, hmax'⟩ := hgreatest y hf
    rw [o.injective (Nat.le_antisymm (hmax' x hx hp) (hmax y hy hpy))]

theorem exists_find_iterate (o : Order α) {s : List α} {p : α → Bool} {x : α} (hx : x ∈ s)
    (hp : p x = true) : ∃ y, (o.iterate s).find? p = some y := by
  cases hf : (o.iterate s).find? p with
  | none => exact absurd hp (by simpa using List.find?_eq_none.1 hf x (mem_iterate.2 hx))
  | some y => exact ⟨y, rfl⟩

theorem exists_findLast_iterate (o : Order α) {s : List α} {p : α → Bool} {x : α} (hx : x ∈ s)
    (hp : p x = true) : ∃ y, findLast? p (o.iterate s) = some y := by
  cases hf : findLast? p (o.iterate s) with
  | none =>
    unfold findLast? at hf
    exact absurd hp (by simpa using List.find?_eq_none.1 hf x (by simpa using hx))
  | some y => exact ⟨y, rfl⟩

/-! ## Some elements before all others -/

/-- An address above those of the elements of `s`. -/
def Order.above (o : Order α) (s : List α) : Nat := (s.map o.addr).foldr max 0 + 1

theorem Order.addr_lt_above (o : Order α) {s : List α} {x : α} (h : x ∈ s) :
    o.addr x < o.above s := by
  unfold above
  induction s with
  | nil => simp at h
  | cons y s ih =>
    rw [List.map_cons, List.foldr_cons]
    rcases List.mem_cons.1 h with rfl | h
    · omega
    · have := ih h
      omega

open Classical in
/-- The order that puts the elements of `s` with a property before all others. -/
noncomputable def Order.prefer (o : Order α) (P : α → Prop) (s : List α) : Order α where
  addr v := if v ∈ s ∧ P v then o.addr v else o.addr v + o.above s
  injective := by
    intro a b h
    by_cases ha : a ∈ s ∧ P a <;> by_cases hb : b ∈ s ∧ P b
    · simp only [ha, hb, and_self, if_true] at h
      exact o.injective h
    · simp only [ha, hb, and_self, if_true, if_false] at h
      have := o.addr_lt_above ha.1
      omega
    · simp only [ha, hb, and_self, if_true, if_false] at h
      have := o.addr_lt_above hb.1
      omega
    · simp only [ha, hb, if_false, Nat.add_right_cancel_iff] at h
      exact o.injective h

theorem Order.prefer_addr_lt (o : Order α) {P : α → Prop} {s : List α} {x y : α} (hx : x ∈ s)
    (hP : P x) (hy : ¬ P y) : (o.prefer P s).addr x < (o.prefer P s).addr y := by
  have := o.addr_lt_above hx
  simp only [prefer, hx, hP, hy, and_self, and_false, if_true, if_false]
  omega

/-- A loop that leaves at the first success finds a preferred one if there is any. -/
theorem find_prefer {o : Order α} {P : α → Prop} {s l : List α} {p : α → Bool} {x y : α}
    (hls : ∀ v ∈ l, v ∈ s) (hx : x ∈ l) (hp : p x = true) (hP : P x)
    (h : ((o.prefer P s).iterate l).find? p = some y) : P y := by
  by_contra hy
  have hle := (find_iterate_iff.1 h).2.2 x hx hp
  have hlt := o.prefer_addr_lt (hls x hx) hP hy
  omega

/-! ## Several loops over one order -/

section

variable {ι : Type} (C : ι → List α) (good : ι → α → Prop)

/-- The element of highest address. -/
def IsHighest (o : Order α) (l : List α) (x : α) : Prop :=
  x ∈ l ∧ ∀ y ∈ l, o.addr y ≤ o.addr x

/-- Loops every candidate of which is good for one of those that have it. -/
structure IsTrap (L N : ι → Prop) : Prop where
  nonempty : ∃ i, N i
  sub : ∀ i, N i → L i ∧ C i ≠ []
  good_somewhere : ∀ i, N i → ∀ x ∈ C i, ∃ j, N j ∧ x ∈ C j ∧ good j x

open Classical in
/-- Without a trap some order disappoints every loop. -/
theorem exists_avoiding (o : Order α) (n : Nat) :
    ∀ (s : List α) (L : ι → Prop), s.length = n →
      (∀ i, L i → C i ≠ [] ∧ ∀ x ∈ C i, x ∈ s) → (¬ ∃ N, IsTrap C good L N) →
      ∃ o' : Order α, ∀ i, L i → ∀ x, IsHighest o' (C i) x → ¬ good i x := by
  induction n using Nat.strong_induction_on with
  | _ n ih =>
    intro s L hn hL htrap
    by_cases hne : ∃ i, L i
    · -- `L` itself is no trap: one of its candidates is good nowhere, and goes on top
      obtain ⟨i, hi, x, hx, hbad⟩ : ∃ i, L i ∧ ∃ x ∈ C i, ∀ j, L j → x ∈ C j → ¬ good j x := by
        by_contra hcon
        refine htrap ⟨L, hne, fun i hi => ⟨hi, (hL i hi).1⟩, fun i hi x hx => ?_⟩
        by_contra hno
        exact hcon ⟨i, hi, x, hx, fun j hj hxj hg => hno ⟨j, hj, hxj, hg⟩⟩
      have hxs : x ∈ s := (hL i hi).2 x hx
      have hlt : (s.filter (· ≠ x)).length < n := by
        rw [← hn]
        refine List.length_filter_lt_length_iff_exists.2 ⟨x, hxs, by simp⟩
      obtain ⟨o', ho'⟩ := ih _ hlt (s.filter (· ≠ x)) (fun j => L j ∧ x ∉ C j) rfl
        (fun j hj => ⟨(hL j hj.1).1, fun y hy => List.mem_filter.2 ⟨(hL j hj.1).2 y hy,
          by simpa using fun h : y = x => hj.2 (h ▸ hy)⟩⟩)
        (by
          rintro ⟨N, hN⟩
          exact htrap ⟨N, hN.nonempty, fun j hj => ⟨(hN.sub j hj).1.1, (hN.sub j hj).2⟩,
            hN.good_somewhere⟩)
      refine ⟨o'.prefer (· ≠ x) s, fun j hj y hy => ?_⟩
      by_cases hxj : x ∈ C j
      · have hyx : y = x := by
          by_contra hyx
          have hlt := o'.prefer_addr_lt (P := (· ≠ x)) ((hL j hj).2 y hy.1) hyx
            (by simp : ¬ x ≠ x)
          have hle := hy.2 x hxj
          omega
        exact hyx ▸ hbad j hj hxj
      · have haddr : ∀ z ∈ C j, (o'.prefer (· ≠ x) s).addr z = o'.addr z := by
          intro z hz
          have hzx : z ≠ x := fun h => hxj (h ▸ hz)
          simp [Order.prefer, (hL j hj).2 z hz, hzx]
        refine ho' j ⟨hj, hxj⟩ y ⟨hy.1, fun z hz => ?_⟩
        rw [← haddr z hz, ← haddr y hy.1]
        exact hy.2 z hz
    · exact ⟨o, fun i hi => absurd ⟨i, hi⟩ hne⟩

open Classical in
/-- In every order one of the loops ends with something good for it exactly when
the loops contain a trap. -/
theorem forall_exists_good_iff (o : Order α) (s : List α) {L : ι → Prop}
    (hL : ∀ i, L i → C i ≠ [] ∧ ∀ x ∈ C i, x ∈ s) :
    (∀ o' : Order α, ∃ i, L i ∧ ∃ x, IsHighest o' (C i) x ∧ good i x) ↔
      ∃ N, IsTrap C good L N := by
  constructor
  · intro h
    by_contra htrap
    obtain ⟨o', ho'⟩ := exists_avoiding C good o s.length s L rfl hL htrap
    obtain ⟨i, hi, x, hx, hg⟩ := h o'
    exact ho' i hi x hx hg
  · rintro ⟨N, hN⟩ o'
    obtain ⟨i, hi⟩ := hN.nonempty
    obtain ⟨x, hx⟩ := List.exists_mem_of_ne_nil _ (hN.sub i hi).2
    -- the highest candidate of all loops of the trap
    obtain ⟨y, hy⟩ := exists_findLast_iterate o' (p := fun y => decide (∃ j, N j ∧ y ∈ C j))
      ((hL i (hN.sub i hi).1).2 x hx) (by simpa using ⟨i, hi, hx⟩)
    obtain ⟨-, hp, hmax⟩ := findLast_iterate_iff.1 hy
    obtain ⟨j, hj, hyj⟩ := of_decide_eq_true hp
    obtain ⟨k, hk, hyk, hg⟩ := hN.good_somewhere j hj y hyj
    refine ⟨k, (hN.sub k hk).1, y, ⟨hyk, fun z hz => ?_⟩, hg⟩
    exact hmax z ((hL k (hN.sub k hk).1).2 z hz) (by simpa using ⟨k, hk, hz⟩)

end

end AddressOrder
