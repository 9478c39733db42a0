import Rustle.Library.Visit

/-!
# What a visit collects

The guards of a visit are answered by the set collected so far, and each edge is
looked at once.

* `ComesTo` — a visit comes to an edge of a value while it holds some set.
* `Saturated` — the closed sets, with the guards answered by the whole set.
* `visit_le` — a visit collects **nothing** outside a closed set.
* `visit_saturated` — what it collects is closed when no edge is passed over
  that is open in the end.
* `Tries`, `mem_visitBy_iff` — the same for visits whose steps depend on the set:
  where these agree with fixed rules, the visit collects their closure.
-/

namespace Visit

variable {α : Type} [DecidableEq α]

/-! ## The moments of a visit -/

/-- The visit of `v` from `seen` comes to the edge `e` of `u` with the set `s`. -/
inductive ComesTo (skip : α → Bool) (edges : α → List (Edge α)) :
    Nat → α → List α → α → Edge α → List α → Prop
  | own {n : Nat} {v : α} {seen : List α} {es es' : List (Edge α)} {e : Edge α} {s : List α} :
      skip v = false → v ∉ seen → edges v = es ++ e :: es' →
      follow (visit skip edges n) es (v :: seen) = some s →
      ComesTo skip edges (n + 1) v seen v e s
  | deeper {n : Nat} {v : α} {seen : List α} {es es' : List (Edge α)} {e : Edge α} {s : List α}
      {w u : α} {f : Edge α} {t : List α} :
      skip v = false → v ∉ seen → edges v = es ++ e :: es' →
      follow (visit skip edges n) es (v :: seen) = some s →
      e.guard s = true → e.target = some w → ComesTo skip edges n w s u f t →
      ComesTo skip edges (n + 1) v seen u f t

omit [DecidableEq α] in
/-- A chain of visits is its first part and then the rest. -/
theorem follow_append {go : α → List α → Option (List α)} {es es' : List (Edge α)}
    {seen seen' : List α} :
    follow go (es ++ es') seen = some seen' ↔
      ∃ s, follow go es seen = some s ∧ follow go es' s = some seen' := by
  induction es generalizing seen with
  | nil => simp [follow]
  | cons e es ih =>
    rw [List.cons_append, follow, follow]
    by_cases hg : e.guard seen = true
    · rw [if_pos hg, if_pos hg]
      cases e.target with
      | none => simp
      | some w =>
        cases hgo : go w seen with
        | none => simp [hgo]
        | some s => simpa [hgo] using ih
    · rw [if_neg hg, if_neg hg]
      exact ih

omit [DecidableEq α] in
/-- An edge that is open is followed. -/
theorem follow_cons_of_guard {go : α → List α → Option (List α)} {e : Edge α}
    {es : List (Edge α)} {seen seen' : List α} (h : follow go (e :: es) seen = some seen')
    (hg : e.guard seen = true) :
    ∃ w s, e.target = some w ∧ go w seen = some s ∧ follow go es s = some seen' := by
  rw [follow, if_pos hg] at h
  cases hw : e.target with
  | none => simp [hw] at h
  | some w =>
    cases hs : go w seen with
    | none => simp [hw, hs] at h
    | some s => exact ⟨w, s, rfl, hs, by simpa [hw, hs] using h⟩

/-- What a chain of visits adds, one of its visits adds. -/
theorem exists_of_mem_follow {go : α → List α → Option (List α)} {es : List (Edge α)}
    {seen seen' : List α} (h : follow go es seen = some seen') {u : α} (hu : u ∈ seen')
    (hnew : u ∉ seen) :
    ∃ es₁ e es₂ s w t, es = es₁ ++ e :: es₂ ∧ follow go es₁ seen = some s ∧ e.guard s = true ∧
      e.target = some w ∧ go w s = some t ∧ u ∈ t ∧ u ∉ s ∧ follow go es₂ t = some seen' := by
  induction es generalizing seen with
  | nil =>
    rw [follow, Option.some.injEq] at h
    exact absurd (h ▸ hu) hnew
  | cons e es ih =>
    by_cases hg : e.guard seen = true
    · obtain ⟨w, s, hw, hs, hrest⟩ := follow_cons_of_guard h hg
      by_cases hus : u ∈ s
      · exact ⟨[], e, es, seen, w, s, rfl, rfl, hg, hw, hs, hus, hnew, hrest⟩
      · obtain ⟨es₁, f, es₂, s', w', t, rfl, hpre, hfound⟩ := ih hrest hus
        have hcons : follow go (e :: es₁) seen = some s' := by
          rw [follow, if_pos hg]
          simp only [hw, hs, hpre]
        exact ⟨e :: es₁, f, es₂, s', w', t, rfl, hcons, hfound⟩
    · have hrest : follow go es seen = some seen' := by rwa [follow, if_neg hg] at h
      obtain ⟨es₁, f, es₂, s', w', t, rfl, hpre, hfound⟩ := ih hrest hnew
      have hcons : follow go (e :: es₁) seen = some s' := by rw [follow, if_neg hg, hpre]
      exact ⟨e :: es₁, f, es₂, s', w', t, rfl, hcons, hfound⟩

variable {skip : α → Bool} {edges : α → List (Edge α)} {n : Nat} {v : α} {seen seen' : List α}

/-- A chain of visits only adds to the set. -/
theorem follow_subset {es : List (Edge α)} (h : follow (visit skip edges n) es seen = some seen') :
    seen ⊆ seen' := by
  refine follow_preserves (P := fun s => seen ⊆ s) h ?_ (List.Subset.refl _)
  intro e _ w _ s s' _ hs hgo
  exact List.Subset.trans hs (visit_subset hgo)

theorem visit_new (hskip : skip v = false) (hv : v ∉ seen) :
    visit skip edges (n + 1) v seen = follow (visit skip edges n) (edges v) (v :: seen) := by
  rw [visit, if_neg (by simp [hskip]), if_neg hv]

/-- A value that a visit adds is one the visit starts with, or one found below. -/
theorem visit_cases {u : α} (h : visit skip edges (n + 1) v seen = some seen') (hu : u ∈ seen')
    (hnew : u ∉ seen) :
    skip v = false ∧ v ∉ seen ∧
      follow (visit skip edges n) (edges v) (v :: seen) = some seen' := by
  cases hskip : skip v with
  | true =>
    rw [visit, if_pos hskip, Option.some.injEq] at h
    exact absurd (h ▸ hu) hnew
  | false =>
    by_cases hv : v ∈ seen
    · rw [visit, if_neg (by simp [hskip]), if_pos hv, Option.some.injEq] at h
      exact absurd (h ▸ hu) hnew
    · exact ⟨rfl, hv, (visit_new hskip hv).symm.trans h⟩

/-- The visit comes to every edge of a value it adds, and follows it if it is
open then. -/
theorem visit_comesTo (h : visit skip edges n v seen = some seen') {u : α} (hu : u ∈ seen')
    (hnew : u ∉ seen) {f : Edge α} (hf : f ∈ edges u) :
    ∃ s, ComesTo skip edges n v seen u f s ∧
      (f.guard s = true → ∃ w, f.target = some w ∧ (skip w = false → w ∈ seen')) := by
  induction n generalizing v seen seen' with
  | zero => simp [visit] at h
  | succ n ih =>
    obtain ⟨hskip, hv, hfollow⟩ := visit_cases h hu hnew
    by_cases huv : u = v
    · subst huv
      obtain ⟨es, es', hes⟩ := List.append_of_mem hf
      rw [hes] at hfollow
      obtain ⟨s, hpre, hrest⟩ := follow_append.1 hfollow
      refine ⟨s, .own hskip hv hes hpre, fun hg => ?_⟩
      obtain ⟨w, t, hw, hgo, hend⟩ := follow_cons_of_guard hrest hg
      exact ⟨w, hw, fun hs => follow_subset hend (mem_visit hgo hs)⟩
    · have hnew' : u ∉ v :: seen := by simp [huv, hnew]
      obtain ⟨es, e, es', s, w, t, hes, hpre, hg, hw, hgo, hut, hus, hend⟩ :=
        exists_of_mem_follow hfollow hu hnew'
      obtain ⟨s', hcomes, htarget⟩ := ih hgo hut hus
      refine ⟨s', .deeper hskip hv hes hpre hg hw hcomes, fun hfs => ?_⟩
      obtain ⟨w', hw', hmem⟩ := htarget hfs
      exact ⟨w', hw', fun hs => follow_subset hend (hmem hs)⟩

/-- The set at any moment holds what the visit started from, and the value whose
edge it comes to. -/
theorem ComesTo.subset {u : α} {f : Edge α} {s : List α} (h : ComesTo skip edges n v seen u f s) :
    seen ⊆ s ∧ u ∈ s := by
  induction h with
  | own hskip hv hes hpre =>
    have hsub := List.cons_subset.1 (follow_subset hpre)
    exact ⟨hsub.2, hsub.1⟩
  | deeper hskip hv hes hpre hg hw hcomes ih =>
    exact ⟨List.Subset.trans (List.cons_subset.1 (follow_subset hpre)).2 ih.1, ih.2⟩

/-- The set at any moment holds the start of the visit. -/
theorem ComesTo.start_mem {u : α} {f : Edge α} {s : List α}
    (h : ComesTo skip edges n v seen u f s) : v ∈ s := by
  cases h with
  | own hskip hv hes hpre => exact follow_subset hpre (List.mem_cons_self ..)
  | deeper hskip hv hes hpre hg hw hcomes =>
    exact hcomes.subset.1 (follow_subset hpre (List.mem_cons_self ..))

/-- The set at any moment is part of what is collected in the end. -/
theorem ComesTo.subset_result {u : α} {f : Edge α} {s : List α}
    (h : ComesTo skip edges n v seen u f s) (hrun : visit skip edges n v seen = some seen') :
    s ⊆ seen' := by
  induction h generalizing seen' with
  | own hskip hv hes hpre =>
    rw [visit_new hskip hv, hes] at hrun
    obtain ⟨s, hpre', hrest⟩ := follow_append.1 hrun
    rw [hpre, Option.some.injEq] at hpre'
    subst hpre'
    exact follow_subset hrest
  | deeper hskip hv hes hpre hg hw hcomes ih =>
    rw [visit_new hskip hv, hes] at hrun
    obtain ⟨s, hpre', hrest⟩ := follow_append.1 hrun
    rw [hpre, Option.some.injEq] at hpre'
    subst hpre'
    obtain ⟨w, t, hw', hgo, hend⟩ := follow_cons_of_guard hrest hg
    rw [hw, Option.some.injEq] at hw'
    subst hw'
    exact List.Subset.trans (ih hgo) (follow_subset hend)

/-- An edge that is open when the visit comes to it is followed. -/
theorem ComesTo.target_mem {u : α} {f : Edge α} {s : List α}
    (h : ComesTo skip edges n v seen u f s) (hrun : visit skip edges n v seen = some seen')
    (hgf : f.guard s = true) : ∃ w, f.target = some w ∧ (skip w = false → w ∈ seen') := by
  induction h generalizing seen' with
  | own hskip hv hes hpre =>
    rw [visit_new hskip hv, hes] at hrun
    obtain ⟨s, hpre', hrest⟩ := follow_append.1 hrun
    rw [hpre, Option.some.injEq] at hpre'
    subst hpre'
    obtain ⟨w, t, hw, hgo, hend⟩ := follow_cons_of_guard hrest hgf
    exact ⟨w, hw, fun hs => follow_subset hend (mem_visit hgo hs)⟩
  | deeper hskip hv hes hpre hg hw hcomes ih =>
    rw [visit_new hskip hv, hes] at hrun
    obtain ⟨s, hpre', hrest⟩ := follow_append.1 hrun
    rw [hpre, Option.some.injEq] at hpre'
    subst hpre'
    obtain ⟨w, t, hw', hgo, hend⟩ := follow_cons_of_guard hrest hg
    rw [hw, Option.some.injEq] at hw'
    subst hw'
    obtain ⟨x, hx, hmem⟩ := ih hgo hgf
    exact ⟨x, hx, fun hs => follow_subset hend (hmem hs)⟩

/-- A value whose edge the visit comes to is its start, or was found through an
edge of a value of the set. -/
theorem ComesTo.entered {u : α} {f : Edge α} {s : List α} (h : ComesTo skip edges n v seen u f s) :
    f ∈ edges u ∧ (u = v ∨ ∃ p ∈ s, ∃ e ∈ edges p, e.target = some u) := by
  induction h with
  | own hskip hv hes hpre => exact ⟨by rw [hes]; simp, Or.inl rfl⟩
  | @deeper n v seen es es' e s w u f t hskip hv hes hpre hg hw hcomes ih =>
    refine ⟨ih.1, Or.inr ?_⟩
    rcases ih.2 with rfl | hfound
    · have hvt : v ∈ t := hcomes.subset.1 (follow_subset hpre (List.mem_cons_self ..))
      exact ⟨v, hvt, e, by rw [hes]; simp, hw⟩
    · exact hfound

/-! ## Closed sets -/

/-- A set that every edge of a member stays in whose guard members can open. -/
def Saturated (skip : α → Bool) (edges : α → List (Edge α)) (X : Set α) : Prop :=
  ∀ u ∈ X, ∀ e ∈ edges u, ∀ s : List α, (∀ x ∈ s, x ∈ X) → e.guard s = true →
    ∀ w, e.target = some w → skip w = false → w ∈ X

/-- A visit collects nothing outside a set that every open edge it comes to leads into. -/
theorem visit_le_of_comesTo {X : Set α}
    (hX : ∀ u f s, ComesTo skip edges n v seen u f s → u ∈ X → (∀ x ∈ s, x ∈ X) →
      f.guard s = true → ∀ w, f.target = some w → skip w = false → w ∈ X)
    (h : visit skip edges n v seen = some seen') (hv : skip v = false → v ∈ X)
    (hseen : ∀ x ∈ seen, x ∈ X) : ∀ x ∈ seen', x ∈ X := by
  induction n generalizing v seen seen' with
  | zero => simp [visit] at h
  | succ n ih =>
    intro x hx
    by_cases hold : x ∈ seen
    · exact hseen x hold
    · obtain ⟨hskip, hnew, hfollow⟩ := visit_cases h hx hold
      have hvX := hv hskip
      -- along the edges, the set stays inside
      have hchain : ∀ es es' s, edges v = es ++ es' →
          follow (visit skip edges n) es (v :: seen) = some s → (∀ y ∈ s, y ∈ X) →
          follow (visit skip edges n) es' s = some seen' → ∀ y ∈ seen', y ∈ X := by
        intro es es'
        induction es' generalizing es with
        | nil =>
          intro s _ _ hs hend
          rw [follow, Option.some.injEq] at hend
          exact hend ▸ hs
        | cons e es' ihes =>
          intro s hes hpre hs hrest
          have hes' : edges v = (es ++ [e]) ++ es' := by simp [hes]
          by_cases hg : e.guard s = true
          · obtain ⟨w, t, hw, hgo, hend⟩ := follow_cons_of_guard hrest hg
            have ht : ∀ y ∈ t, y ∈ X :=
              ih (fun u f s' hcomes => hX u f s' (.deeper hskip hnew hes hpre hg hw hcomes)) hgo
                (hX v e s (.own hskip hnew hes hpre) hvX hs hg w hw) hs
            have hstep : follow (visit skip edges n) [e] s = some t := by
              simp [follow, hg, hw, hgo]
            exact ihes (es ++ [e]) t hes' (follow_append.2 ⟨s, hpre, hstep⟩) ht hend
          · have hstep : follow (visit skip edges n) [e] s = some s := by simp [follow, hg]
            rw [follow, if_neg hg] at hrest
            exact ihes (es ++ [e]) s hes' (follow_append.2 ⟨s, hpre, hstep⟩) hs hrest
      exact hchain [] (edges v) (v :: seen) rfl rfl (List.forall_mem_cons.2 ⟨hvX, hseen⟩) hfollow
        x hx

/-- A visit that starts inside a closed set collects nothing outside it. -/
theorem visit_le {X : Set α} (hX : Saturated skip edges X)
    (h : visit skip edges n v seen = some seen') (hv : skip v = false → v ∈ X)
    (hseen : ∀ x ∈ seen, x ∈ X) : ∀ x ∈ seen', x ∈ X :=
  visit_le_of_comesTo (fun u f s hcomes hu hs hg => hX u hu f hcomes.entered.1 s hs hg) h hv hseen

/-- Nor does it ever hold anything outside it. -/
theorem ComesTo.le {X : Set α} (hX : Saturated skip edges X) {u : α} {f : Edge α} {s : List α}
    (h : ComesTo skip edges n v seen u f s) (hv : skip v = false → v ∈ X)
    (hseen : ∀ x ∈ seen, x ∈ X) : ∀ x ∈ s, x ∈ X := by
  have hchain : ∀ {n : Nat} {v : α} {seen s : List α} {es es' : List (Edge α)} {e : Edge α},
      v ∈ X → (∀ x ∈ seen, x ∈ X) → edges v = es ++ e :: es' →
      follow (visit skip edges n) es (v :: seen) = some s → ∀ x ∈ s, x ∈ X := by
    intro n v seen s es es' e hvX hseen hes hpre
    refine follow_preserves (P := fun s => ∀ y ∈ s, y ∈ X) hpre ?_
      (List.forall_mem_cons.2 ⟨hvX, hseen⟩)
    intro f hf w hw s s' hg hs hgo
    have hfv : f ∈ edges v := by rw [hes]; exact List.mem_append_left _ hf
    exact visit_le hX hgo (hX v hvX f hfv s hs hg w hw) hs
  induction h with
  | own hskip hnew hes hpre => exact hchain (hv hskip) hseen hes hpre
  | @deeper n v seen es es' e s w u f t hskip hnew hes hpre hg hw hcomes ih =>
    have hs := hchain (hv hskip) hseen hes hpre
    exact ih (hX v (hv hskip) e (by rw [hes]; simp) s hs hg w hw) hs

/-- Guards that stay open when the set grows. -/
def MonotoneGuards (edges : α → List (Edge α)) : Prop :=
  ∀ u, ∀ e ∈ edges u, ∀ s t : List α, s ⊆ t → e.guard s = true → e.guard t = true

/-- What a visit collects is closed, provided that an edge that is passed over
although it is open in the end leads to a member anyway. -/
theorem visit_saturated (hmono : MonotoneGuards edges) (h : visit skip edges n v [] = some seen')
    (hlate : ∀ u f s, ComesTo skip edges n v [] u f s → f.guard s = false →
      f.guard seen' = true → ∀ w, f.target = some w → skip w = false → w ∈ seen') :
    Saturated skip edges {u | u ∈ seen'} := by
  intro u hu f hf t ht hg w hw hskip
  obtain ⟨s, hcomes, htarget⟩ := visit_comesTo h hu List.not_mem_nil hf
  have hopen : f.guard seen' = true := hmono u f hf t seen' ht hg
  cases hgs : f.guard s with
  | false => exact hlate u f s hcomes hgs hopen w hw hskip
  | true =>
    obtain ⟨w', hw', hmem⟩ := htarget hgs
    rw [hw, Option.some.injEq] at hw'
    subst hw'
    exact hmem hskip

/-! ## Where a visit is not defined -/

/-- A chain that is not defined stops at one of its edges. -/
theorem exists_stop {U : List α} (hU : Closed edges U) {es : List (Edge α)}
    (hes : ∀ e ∈ es, ∀ w, e.target = some w → w ∈ U) (hw : Within U seen)
    (h : follow (visit skip edges n) es seen = none) :
    ∃ es₁ e es₂ s, es = es₁ ++ e :: es₂ ∧ follow (visit skip edges n) es₁ seen = some s ∧
      Within U s ∧ seen.length ≤ s.length ∧ e.guard s = true ∧
      ∀ w, e.target = some w → visit skip edges n w s = none := by
  induction es generalizing seen with
  | nil => cases h
  | cons e es ih =>
    have hes' := fun f hf => hes f (List.mem_cons_of_mem e hf)
    rw [follow] at h
    by_cases hg : e.guard seen = true
    · rw [if_pos hg] at h
      cases hew : e.target with
      | none => exact ⟨[], e, es, seen, rfl, rfl, hw, Nat.le_refl _, hg, by simp [hew]⟩
      | some w =>
        cases hgo : visit skip edges n w seen with
        | none =>
          refine ⟨[], e, es, seen, rfl, rfl, hw, Nat.le_refl _, hg, ?_⟩
          simpa [hew] using hgo
        | some s =>
          obtain ⟨hw', hle⟩ := visit_within hU (hes e (by simp) w hew) hw hgo
          simp only [hew, hgo] at h
          obtain ⟨es₁, f, es₂, s', rfl, hpre, hws, hlen, hstop⟩ := ih hes' hw' h
          refine ⟨e :: es₁, f, es₂, s', rfl, ?_, hws, Nat.le_trans hle hlen, hstop⟩
          rw [follow, if_pos hg]
          simp only [hew, hgo, hpre]
    · rw [if_neg hg] at h
      obtain ⟨es₁, f, es₂, s', rfl, hpre, hws, hlen, hstop⟩ := ih hes' hw h
      exact ⟨e :: es₁, f, es₂, s', rfl, by rw [follow, if_neg hg, hpre], hws, hlen, hstop⟩

/-- A visit with enough fuel that is not defined comes to an open edge without a
target. -/
theorem exists_missing {U : List α} (hU : Closed edges U) (hv : v ∈ U) (hw : Within U seen)
    (hn : U.length + 1 ≤ n + seen.length) (h : visit skip edges n v seen = none) :
    ∃ u f s, ComesTo skip edges n v seen u f s ∧ f.guard s = true ∧ f.target = none := by
  induction n generalizing v seen with
  | zero =>
    have := hw.length_le
    omega
  | succ n ih =>
    have hskip : skip v = false := by
      rw [← Bool.not_eq_true]
      intro hs
      rw [visit, if_pos hs] at h
      cases h
    have hnew : v ∉ seen := by
      intro hm
      rw [visit, if_neg (by simp [hskip]), if_pos hm] at h
      cases h
    rw [visit_new hskip hnew] at h
    obtain ⟨es, e, es', s, hes, hpre, hs, hle, hg, hstop⟩ :=
      exists_stop hU (hU v hv) (hw.cons hv hnew) h
    cases hew : e.target with
    | none => exact ⟨v, e, s, .own hskip hnew hes hpre, hg, hew⟩
    | some w =>
      have hwU : w ∈ U := hU v hv e (by rw [hes]; simp) w hew
      rw [List.length_cons] at hle
      obtain ⟨u, f, t, hcomes, hmissing⟩ := ih hwU hs (by omega) (hstop w hew)
      exact ⟨u, f, t, .deeper hskip hnew hes hpre hg hew hcomes, hmissing⟩

/-! ## Visits whose steps depend on the set -/

section VisitBy

variable {β : Type} {key : β → α} {skip : β → Bool} {steps : β → List α → List β} {n : Nat}
  {b : β} {seen seen' : List α}

/-- The visit of `b` from `seen` calls for a visit of `d` with the set `t`. -/
inductive Tries (key : β → α) (skip : β → Bool) (steps : β → List α → List β) :
    Nat → β → List α → β → List α → Prop
  | here {n : Nat} {b : β} {seen : List α} : Tries key skip steps n b seen b seen
  | deeper {n : Nat} {b : β} {seen : List α} {bs bs' : List β} {c : β} {s : List α} {d : β}
      {t : List α} :
      skip b = false → key b ∉ seen → steps b (key b :: seen) = bs ++ c :: bs' →
      visitAll (visitBy key skip steps n) bs (key b :: seen) = some s →
      Tries key skip steps n c s d t → Tries key skip steps (n + 1) b seen d t

omit [DecidableEq α] in
theorem visitAll_append {go : β → List α → Option (List α)} {bs bs' : List β} :
    visitAll go (bs ++ bs') seen = some seen' ↔
      ∃ s, visitAll go bs seen = some s ∧ visitAll go bs' s = some seen' := by
  induction bs generalizing seen with
  | nil => simp [visitAll]
  | cons b bs ih =>
    rw [List.cons_append, visitAll, visitAll]
    cases go b seen with
    | none => simp
    | some s => exact ih

omit [DecidableEq α] in
theorem visitAll_cons {go : β → List α → Option (List α)} {bs : List β}
    (h : visitAll go (b :: bs) seen = some seen') :
    ∃ s, go b seen = some s ∧ visitAll go bs s = some seen' := by
  rw [visitAll] at h
  cases hs : go b seen with
  | none => simp [hs] at h
  | some s => exact ⟨s, rfl, by simpa [hs] using h⟩

omit [DecidableEq α] in
/-- What a visit starts from and each of its calls preserves, the chain preserves. -/
theorem visitAll_preserves {go : β → List α → Option (List α)} {P : List α → Prop} {bs : List β}
    (h : visitAll go bs seen = some seen')
    (hgo : ∀ c ∈ bs, ∀ s s', P s → go c s = some s' → P s') (hP : P seen) : P seen' := by
  induction bs generalizing seen with
  | nil =>
    rw [visitAll, Option.some.injEq] at h
    exact h ▸ hP
  | cons c bs ih =>
    obtain ⟨s, hs, hrest⟩ := visitAll_cons h
    exact ih hrest (fun d hd => hgo d (List.mem_cons_of_mem c hd))
      (hgo c (List.mem_cons_self ..) seen s hP hs)

theorem visitBy_new (hskip : skip b = false) (hb : key b ∉ seen) :
    visitBy key skip steps (n + 1) b seen =
      visitAll (visitBy key skip steps n) (steps b (key b :: seen)) (key b :: seen) := by
  rw [visitBy, if_neg (by simp [hskip]), if_neg hb]

/-- A visit is passed over, or goes through its steps. -/
theorem visitBy_cases (h : visitBy key skip steps (n + 1) b seen = some seen') :
    ((skip b = true ∨ key b ∈ seen) ∧ seen' = seen) ∨
      (skip b = false ∧ key b ∉ seen ∧
        visitAll (visitBy key skip steps n) (steps b (key b :: seen)) (key b :: seen) =
          some seen') := by
  cases hskip : skip b with
  | true =>
    rw [visitBy, if_pos hskip, Option.some.injEq] at h
    exact Or.inl ⟨Or.inl rfl, h.symm⟩
  | false =>
    by_cases hb : key b ∈ seen
    · rw [visitBy, if_neg (by simp [hskip]), if_pos hb, Option.some.injEq] at h
      exact Or.inl ⟨Or.inr hb, h.symm⟩
    · exact Or.inr ⟨rfl, hb, (visitBy_new hskip hb).symm.trans h⟩

theorem visitBy_subset (h : visitBy key skip steps n b seen = some seen') : seen ⊆ seen' := by
  induction n generalizing b seen seen' with
  | zero => simp [visitBy] at h
  | succ n ih =>
    rcases visitBy_cases h with ⟨-, rfl⟩ | ⟨-, -, hall⟩
    · exact List.Subset.refl _
    · refine visitAll_preserves (P := fun s => seen ⊆ s) hall ?_ (List.subset_cons_self _ _)
      intro c _ s s' hs hgo
      exact List.Subset.trans hs (ih hgo)

theorem visitAll_subset {bs : List β}
    (h : visitAll (visitBy key skip steps n) bs seen = some seen') : seen ⊆ seen' := by
  refine visitAll_preserves (P := fun s => seen ⊆ s) h ?_ (List.Subset.refl _)
  intro c _ s s' hs hgo
  exact List.Subset.trans hs (visitBy_subset hgo)

/-- The start of a visit is collected, unless it is of the kind to skip. -/
theorem key_mem_visitBy (h : visitBy key skip steps n b seen = some seen') (hs : skip b = false) :
    key b ∈ seen' := by
  cases n with
  | zero => simp [visitBy] at h
  | succ n =>
    rcases visitBy_cases h with ⟨hpass, rfl⟩ | ⟨-, -, hall⟩
    · rw [hs] at hpass
      simpa using hpass
    · exact visitAll_subset hall (List.mem_cons_self ..)

/-- What a chain adds, one of its visits adds. -/
theorem exists_of_mem_visitAll {go : β → List α → Option (List α)} {bs : List β}
    (h : visitAll go bs seen = some seen') {u : α} (hu : u ∈ seen') (hnew : u ∉ seen) :
    ∃ pre c post s t, bs = pre ++ c :: post ∧ visitAll go pre seen = some s ∧ go c s = some t ∧
      u ∈ t ∧ u ∉ s ∧ visitAll go post t = some seen' := by
  induction bs generalizing seen with
  | nil =>
    rw [visitAll, Option.some.injEq] at h
    exact absurd (h ▸ hu) hnew
  | cons b bs ih =>
    obtain ⟨s, hs, hrest⟩ := visitAll_cons h
    by_cases hus : u ∈ s
    · exact ⟨[], b, bs, seen, s, rfl, rfl, hs, hus, hnew, hrest⟩
    · obtain ⟨pre, c, post, s', t, rfl, hpre, hfound⟩ := ih hrest hus
      exact ⟨b :: pre, c, post, s', t, rfl, by rw [visitAll, hs]; exact hpre, hfound⟩

/-- The set a visit is called with holds what the visit started from, and is part of
what is collected. -/
theorem Tries.subset {d : β} {t : List α} (h : Tries key skip steps n b seen d t) : seen ⊆ t := by
  induction h with
  | here => exact List.Subset.refl _
  | deeper hskip hb hsteps hpre htries ih =>
    exact List.Subset.trans (List.cons_subset.1 (visitAll_subset hpre)).2 ih

theorem Tries.subset_result {d : β} {t : List α} (h : Tries key skip steps n b seen d t)
    (hrun : visitBy key skip steps n b seen = some seen') : t ⊆ seen' := by
  induction h generalizing seen' with
  | here => exact visitBy_subset hrun
  | deeper hskip hb hsteps hpre htries ih =>
    rw [visitBy_new hskip hb, hsteps] at hrun
    obtain ⟨s, hpre', hrest⟩ := visitAll_append.1 hrun
    rw [hpre, Option.some.injEq] at hpre'
    subst hpre'
    obtain ⟨t, hgo, hend⟩ := visitAll_cons hrest
    exact List.Subset.trans (ih hgo) (visitAll_subset hend)

/-- A visit called for is the first one, or a step of one that goes through its steps. -/
theorem Tries.called {d : β} {t : List α} (h : Tries key skip steps n b seen d t) :
    (d = b ∧ t = seen) ∨ ∃ c s, Tries key skip steps n b seen c s ∧ skip c = false ∧ key c ∉ s ∧
      d ∈ steps c (key c :: s) ∧ key c :: s ⊆ t := by
  induction h with
  | here => exact Or.inl ⟨rfl, rfl⟩
  | @deeper n b seen bs bs' c s d t hskip hb hsteps hpre htries ih =>
    refine Or.inr ?_
    rcases ih with ⟨rfl, rfl⟩ | ⟨c', s', htries', hskip', hkey, hmem, hsub⟩
    · exact ⟨b, seen, .here, hskip, hb, by rw [hsteps]; simp, visitAll_subset hpre⟩
    · exact ⟨c', s', .deeper hskip hb hsteps hpre htries', hskip', hkey, hmem, hsub⟩

/-- A visit collects nothing outside a set in which its steps stay. -/
theorem visitBy_le {X : Set α}
    (hX : ∀ c s d t, Tries key skip steps n b seen c s → skip c = false → key c ∉ s → key c ∈ X →
      d ∈ steps c (key c :: s) → Tries key skip steps n b seen d t → skip d = false → key d ∈ X)
    (h : visitBy key skip steps n b seen = some seen') (hb : skip b = false → key b ∈ X)
    (hseen : ∀ x ∈ seen, x ∈ X) : ∀ x ∈ seen', x ∈ X := by
  induction n generalizing b seen seen' with
  | zero => simp [visitBy] at h
  | succ n ih =>
    rcases visitBy_cases h with ⟨-, rfl⟩ | ⟨hskip, hnew, hall⟩
    · exact hseen
    have hstart := hb hskip
    intro x hx
    by_contra hout
    have hnotin : x ∉ key b :: seen := fun hin =>
      hout (List.forall_mem_cons.2 ⟨hstart, hseen⟩ x hin)
    -- the first visit that leaves `X` starts inside it
    have hstay : ∀ pre post s, steps b (key b :: seen) = pre ++ post →
        visitAll (visitBy key skip steps n) pre (key b :: seen) = some s → ∀ y ∈ s, y ∈ X := by
      intro pre
      induction pre using List.reverseRecOn with
      | nil =>
        intro post s _ hs
        rw [visitAll, Option.some.injEq] at hs
        exact hs ▸ List.forall_mem_cons.2 ⟨hstart, hseen⟩
      | append_singleton pre c ihpre =>
        intro post s hsteps hs
        obtain ⟨mid, hmid, hlast⟩ := visitAll_append.1 hs
        obtain ⟨t, hgo, hend⟩ := visitAll_cons hlast
        rw [visitAll, Option.some.injEq] at hend
        subst hend
        rw [List.append_assoc, List.singleton_append] at hsteps
        have hc : c ∈ steps b (key b :: seen) := by rw [hsteps]; simp
        have hdeeper : ∀ {d : β} {t' : List α}, Tries key skip steps n c mid d t' →
            Tries key skip steps (n + 1) b seen d t' :=
          fun htries => .deeper hskip hnew hsteps hmid htries
        exact ih (fun c' s' d t' htries hc' hkey hin hd htried =>
            hX c' s' d t' (hdeeper htries) hc' hkey hin hd (hdeeper htried)) hgo
          (hX b seen c mid .here hskip hnew hstart hc (hdeeper .here))
          (ihpre (c :: post) mid hsteps hmid)
    exact hout (hstay _ [] seen' (List.append_nil _).symm hall x hx)

/-- A value that a visit adds is the key of a visit that goes through its steps, and
each of these is visited. -/
theorem exists_entered (h : visitBy key skip steps n b seen = some seen') {u : α} (hu : u ∈ seen')
    (hnew : u ∉ seen) :
    ∃ c s, Tries key skip steps n b seen c s ∧ skip c = false ∧ key c ∉ s ∧ key c = u ∧
      ∀ d ∈ steps c (key c :: s), ∃ t, Tries key skip steps n b seen d t ∧
        (skip d = false → key d ∈ seen') := by
  induction n generalizing b seen seen' with
  | zero => simp [visitBy] at h
  | succ n ih =>
    rcases visitBy_cases h with ⟨-, rfl⟩ | ⟨hskip, hb, hall⟩
    · exact absurd hu hnew
    by_cases hub : u = key b
    · refine ⟨b, seen, .here, hskip, hb, hub.symm, fun d hd => ?_⟩
      obtain ⟨bs, bs', hbs⟩ := List.append_of_mem hd
      rw [hbs] at hall
      obtain ⟨s, hpre, hrest⟩ := visitAll_append.1 hall
      obtain ⟨t, hgo, hend⟩ := visitAll_cons hrest
      exact ⟨s, .deeper hskip hb hbs hpre .here,
        fun hd => visitAll_subset hend (key_mem_visitBy hgo hd)⟩
    · obtain ⟨pre, c, post, s, t, hsteps, hpre, hgo, hut, hus, hend⟩ :=
        exists_of_mem_visitAll hall hu (by simp [hub, hnew])
      obtain ⟨c', s', htries, hskip', hkey, heq, hall'⟩ := ih hgo hut hus
      refine ⟨c', s', .deeper hskip hb hsteps hpre htries, hskip', hkey, heq, fun d hd => ?_⟩
      obtain ⟨t', htries', hmem⟩ := hall' d hd
      exact ⟨t', .deeper hskip hb hsteps hpre htries',
        fun hs => visitAll_subset hend (hmem hs)⟩

/-- Where the steps agree with fixed rules, up to what is in the set already, a visit
collects what the rules lead to. -/
theorem mem_visitBy_iff {label : α → Bool} {next : α → α → Prop}
    (h : visitBy key skip steps n b [] = some seen')
    (hskip : ∀ c s, Tries key skip steps n b [] c s → skip c = label (key c))
    (hsound : ∀ c s, Tries key skip steps n b [] c s → skip c = false → key c ∉ s →
      ∀ d ∈ steps c (key c :: s), next (key c) (key d))
    (hcomplete : ∀ c s, Tries key skip steps n b [] c s → skip c = false → key c ∉ s →
      ∀ w, next (key c) w → w ∈ key c :: s ∨ ∃ d ∈ steps c (key c :: s), key d = w)
    (hb : label (key b) = false) {w : α} :
    w ∈ seen' ↔ Relation.ReflTransGen (fun u w => next u w ∧ label w = false) (key b) w := by
  have hstart : skip b = false := (hskip b [] .here).trans hb
  refine ⟨visitBy_le (X := {w | Relation.ReflTransGen _ (key b) w}) ?_ h (fun _ => .refl) (by simp)
    w, fun hpath => ?_⟩
  · intro c s d t htries hc hnew hX hd htried hlabel
    exact .tail hX ⟨hsound c s htries hc hnew d hd, (hskip d t htried).symm.trans hlabel⟩
  · induction hpath with
    | refl => exact key_mem_visitBy h hstart
    | tail _ hstep ih =>
      obtain ⟨c, s, htries, hc, hnew, rfl, hall⟩ := exists_entered h ih List.not_mem_nil
      rcases hcomplete c s htries hc hnew _ hstep.1 with hin | ⟨d, hd, rfl⟩
      · exact List.forall_mem_cons.2 ⟨ih, fun x hx => htries.subset_result h hx⟩ _ hin
      · obtain ⟨t, htries', hmem⟩ := hall d hd
        exact hmem ((hskip d t htries').trans hstep.2)

end VisitBy

end Visit
