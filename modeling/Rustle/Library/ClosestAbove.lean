import Mathlib

/-!
# The closest entry above a line

A loop over entries with a line each, which keeps the smallest distance to a line so far
and what the entry at this distance carries.

* `search` — the loop.
* `Closest` — the entry that starts last of those not below a bound, the first of several.
* `search_spec` — the loop ends with the closest entry, if there is one.
-/

namespace ClosestAbove

variable {α β : Type} (number : α → Int) (payload : α → β)

/-- One round; only entries up to the bound count. -/
def visit (line bound : Int) (closest : Option Int × β) (a : α) : Option Int × β :=
  if number a ≤ bound then
    if closest.1.all fun d => line - number a < d then (some (line - number a), payload a)
    else closest
  else closest

def search (line bound : Int) (b : β) (entries : List α) : Option Int × β :=
  entries.foldl (visit number payload line bound) (none, b)

/-- The entry `a` at `k` is the closest one. -/
structure Closest (entries : List α) (bound : Int) (k : Nat) (a : α) : Prop where
  stands : entries[k]? = some a
  above : number a ≤ bound
  closest : ∀ (j : Nat) (c : α), entries[j]? = some c → number c ≤ bound →
    number c ≤ number a ∧ (number c = number a → k ≤ j)

variable {number payload}

theorem getElem?_snoc_iff {entries : List α} {c a : α} {j : Nat} :
    (entries ++ [c])[j]? = some a ↔ entries[j]? = some a ∨ j = entries.length ∧ a = c := by
  rcases lt_trichotomy j entries.length with hj | rfl | hj
  · rw [List.getElem?_append_left hj]
    simp [hj.ne]
  · simp [eq_comm]
  · rw [List.getElem?_eq_none (by simp; omega), List.getElem?_eq_none hj.le]
    simp [hj.ne']

/-- An entry that does not start later leaves the closest one as it is. -/
theorem Closest.snoc_of_le {entries : List α} {bound : Int} {k : Nat} {a c : α}
    (h : Closest number entries bound k a) (hc : number c ≤ bound → number c ≤ number a) :
    Closest number (entries ++ [c]) bound k a where
  stands := getElem?_snoc_iff.2 (Or.inl h.stands)
  above := h.above
  closest j f hf habove := by
    rcases getElem?_snoc_iff.1 hf with hold | ⟨rfl, rfl⟩
    · exact h.closest j f hold habove
    · obtain ⟨hk, -⟩ := List.getElem?_eq_some_iff.1 h.stands
      exact ⟨hc habove, fun _ => hk.le⟩

/-- An entry that starts later than all others is the closest one. -/
theorem closest_snoc_of_lt {entries : List α} {bound : Int} {c : α} (habove : number c ≤ bound)
    (hc : ∀ f ∈ entries, number f ≤ bound → number f < number c) :
    Closest number (entries ++ [c]) bound entries.length c where
  stands := getElem?_snoc_iff.2 (Or.inr ⟨rfl, rfl⟩)
  above := habove
  closest j f hf hline := by
    rcases getElem?_snoc_iff.1 hf with hold | ⟨rfl, rfl⟩
    · have hlt := hc f (List.mem_of_getElem? hold) hline
      exact ⟨hlt.le, fun heq => absurd heq hlt.ne⟩
    · exact ⟨le_refl _, fun _ => le_refl _⟩

theorem Closest.unique {entries : List α} {bound : Int} {k k' : Nat} {a a' : α}
    (h : Closest number entries bound k a) (h' : Closest number entries bound k' a') : a = a' := by
  have hle := h.closest k' a' h'.stands h'.above
  have hle' := h'.closest k a h.stands h.above
  have hline : number a' = number a := le_antisymm hle.1 hle'.1
  have hk : k = k' := le_antisymm (hle.2 hline) (hle'.2 hline.symm)
  subst hk
  have hstands := h'.stands
  rw [h.stands, Option.some.injEq] at hstands
  exact hstands

/-- The loop ends with the closest entry, if there is one. -/
theorem search_spec (line bound : Int) (b : β) (entries : List α) :
    (∃ k a, Closest number entries bound k a ∧
      search number payload line bound b entries = (some (line - number a), payload a)) ∨
    ((∀ a ∈ entries, bound < number a) ∧
      search number payload line bound b entries = (none, b)) := by
  induction entries using List.reverseRecOn with
  | nil => exact Or.inr ⟨by simp, rfl⟩
  | append_singleton entries c ih =>
    rw [search, List.foldl_append, ← search, List.foldl_cons, List.foldl_nil, visit]
    by_cases habove : number c ≤ bound
    · rw [if_pos habove]
      rcases ih with ⟨k, a, hclosest, hstate⟩ | ⟨hnone, hstate⟩
      · rw [hstate]
        by_cases hlater : number a < number c
        · refine Or.inl ⟨entries.length, c, closest_snoc_of_lt habove ?_, ?_⟩
          · intro f hf hline
            obtain ⟨j, hj⟩ := List.mem_iff_getElem?.1 hf
            exact lt_of_le_of_lt (hclosest.closest j f hj hline).1 hlater
          · rw [if_pos (by simpa using hlater)]
        · refine Or.inl ⟨k, a, hclosest.snoc_of_le fun _ => not_lt.1 hlater, ?_⟩
          rw [if_neg (by simpa using hlater)]
      · rw [hstate]
        refine Or.inl ⟨entries.length, c, closest_snoc_of_lt habove ?_, rfl⟩
        intro f hf hline
        exact absurd hline (not_le.2 (hnone f hf))
    · rw [if_neg habove]
      rcases ih with ⟨k, a, hclosest, hstate⟩ | ⟨hnone, hstate⟩
      · exact Or.inl ⟨k, a, hclosest.snoc_of_le fun hc => absurd hc habove, hstate⟩
      · refine Or.inr ⟨?_, hstate⟩
        intro f hf
        rcases List.mem_append.1 hf with hf | hf
        · exact hnone f hf
        · rw [List.mem_singleton.1 hf]
          exact not_le.1 habove

end ClosestAbove
