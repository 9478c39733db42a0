import Mathlib

/-!
# Concatenation in any order

When a fold appends a piece for each element of an unordered collection, the
result is a function of the collection exactly if the pieces commute.

* `flatMap_eq_of_perm` — commuting pieces may be met in any order.
* `forall_perm_flatMap_eq_iff` — and only these may.
* `filterMap_eq_pointwise` — equal filtered lists, one filter within the other.
-/

namespace Concat

variable {α β : Type}

/-- Pieces that commute give the same concatenation in every order. -/
theorem flatMap_eq_of_perm {f : α → List β} {l l' : List α} (h : l.Perm l')
    (hc : ∀ a ∈ l, ∀ b ∈ l, f a ++ f b = f b ++ f a) : l.flatMap f = l'.flatMap f := by
  induction h with
  | nil => rfl
  | cons a h ih =>
    rw [List.flatMap_cons, List.flatMap_cons,
      ih fun x hx y hy => hc x (List.mem_cons_of_mem _ hx) y (List.mem_cons_of_mem _ hy)]
  | swap a b l =>
    have hab := hc b (by simp) a (by simp)
    simp only [List.flatMap_cons]
    rw [← List.append_assoc, hab, List.append_assoc]
  | trans h₁ h₂ ih₁ ih₂ =>
    rw [ih₁ hc, ih₂ fun x hx y hy => hc x (h₁.mem_iff.2 hx) y (h₁.mem_iff.2 hy)]

/-- Two elements of a list can be brought to its head. -/
theorem perm_cons_cons_of_mem {l : List α} {a b : α} (ha : a ∈ l) (hb : b ∈ l) (hne : a ≠ b) :
    ∃ rest, l.Perm (a :: b :: rest) := by
  obtain ⟨s, t, rfl⟩ := List.append_of_mem ha
  have hb' : b ∈ s ++ t := by
    rcases List.mem_append.1 hb with hb | hb
    · exact List.mem_append_left _ hb
    · exact List.mem_append_right _ ((List.mem_cons.1 hb).resolve_left (Ne.symm hne))
  obtain ⟨u, v, huv⟩ := List.append_of_mem hb'
  refine ⟨u ++ v, List.perm_middle.trans ?_⟩
  rw [huv]
  exact List.Perm.cons a List.perm_middle

/-- A concatenation depends on the order exactly if two of its pieces do not
commute. -/
theorem forall_perm_flatMap_eq_iff {f : α → List β} {l : List α} :
    (∀ l' : List α, l'.Perm l → l'.flatMap f = l.flatMap f) ↔
      ∀ a ∈ l, ∀ b ∈ l, f a ++ f b = f b ++ f a := by
  refine ⟨fun h a ha b hb => ?_, fun h l' hp => (flatMap_eq_of_perm hp.symm h).symm⟩
  by_cases hab : a = b
  · rw [hab]
  · obtain ⟨rest, hrest⟩ := perm_cons_cons_of_mem ha hb hab
    have h₁ := h _ hrest.symm
    have h₂ := h (b :: a :: rest) ((List.Perm.swap a b rest).trans hrest.symm)
    rw [← h₂] at h₁
    simp only [List.flatMap_cons, ← List.append_assoc] at h₁
    exact List.append_cancel_right h₁

/-- If one of two filters keeps whatever the other one keeps and both give the
same list, they agree everywhere. -/
theorem filterMap_eq_pointwise {f g : α → Option β} {l : List α}
    (hmono : ∀ a ∈ l, (f a).isSome = true → (g a).isSome = true)
    (h : l.filterMap f = l.filterMap g) : ∀ a ∈ l, f a = g a := by
  induction l with
  | nil => exact fun a ha => absurd ha List.not_mem_nil
  | cons a l ih =>
    have hmono' : ∀ x ∈ l, (f x).isSome = true → (g x).isSome = true := fun x hx =>
      hmono x (List.mem_cons_of_mem _ hx)
    rw [List.filterMap_cons, List.filterMap_cons] at h
    cases hf : f a with
    | none =>
      cases hg : g a with
      | none =>
        rw [hf, hg] at h
        exact List.forall_mem_cons.2 ⟨by rw [hf, hg], ih hmono' h⟩
      | some y =>
        -- `g` would keep more elements than `f`
        rw [hf, hg] at h
        have hlen := congrArg List.length h
        have hle := length_filterMap_le_of_mono hmono'
        simp only [List.length_cons] at hlen
        omega
    | some x =>
      obtain ⟨y, hy⟩ := Option.isSome_iff_exists.1 (hmono a (by simp) (by rw [hf]; rfl))
      rw [hf, hy] at h
      obtain ⟨hxy, htail⟩ := List.cons.inj h
      exact List.forall_mem_cons.2 ⟨by rw [hf, hy, hxy], ih hmono' htail⟩
where
  length_filterMap_le_of_mono {f g : α → Option β} {l : List α}
      (hmono : ∀ a ∈ l, (f a).isSome = true → (g a).isSome = true) :
      (l.filterMap f).length ≤ (l.filterMap g).length := by
    induction l with
    | nil => exact Nat.le_refl 0
    | cons a l ih =>
      have ih' := ih fun x hx => hmono x (List.mem_cons_of_mem _ hx)
      rw [List.filterMap_cons, List.filterMap_cons]
      cases hf : f a with
      | none => cases g a with
        | none => exact ih'
        | some y => exact Nat.le_succ_of_le ih'
      | some x =>
        obtain ⟨y, hy⟩ := Option.isSome_iff_exists.1 (hmono a (by simp) (by rw [hf]; rfl))
        rw [hy]
        exact Nat.succ_le_succ ih'

end Concat
