import Mathlib

/-!
# Depth-first visits that share one set

A recursive visit that inserts what it meets in one set, passed along by
reference, and stops at what the set already holds.

* `Edge` — where a visit may go next; a guard decides on the set collected so
  far, and a missing target is an undefined step.
* `visit` — the visit, with fuel for the depth of the recursion.
* `visit_grows` — a visit only adds to the set, and adds its start.
* `visit_stays` — the set stays inside a closed universe, without repetition.
* `visit_fuel` — fuel for one value more than the universe holds is **enough**:
  more fuel gives the same result, a missing target included.
* `visit_isSome` — the visit is defined where no edge misses its target.
* `visitBy` — the variant whose next steps depend on the set as it is when a value
  is entered, and carry more than the value; `visitBy_isSome` is its fuel.
-/

namespace Visit

variable {α : Type} [DecidableEq α]

/-- Where a visit may go next. -/
structure Edge (α : Type) where
  /-- Taken only if this holds of the set collected so far. -/
  guard : List α → Bool
  /-- The value to visit; `none` when there is no such value. -/
  target : Option α

/-- Follow the edges in order, handing the set on from one visit to the next. -/
def follow (go : α → List α → Option (List α)) : List (Edge α) → List α → Option (List α)
  | [], seen => some seen
  | e :: es, seen =>
    if e.guard seen then
      match e.target with
      | none => none
      | some w =>
        match go w seen with
        | none => none
        | some seen' => follow go es seen'
    else follow go es seen

/-- Visit `v` and everything its edges lead to. -/
def visit (skip : α → Bool) (edges : α → List (Edge α)) : Nat → α → List α → Option (List α)
  | 0, _, _ => none
  | n + 1, v, seen =>
    if skip v then some seen
    else if v ∈ seen then some seen
    else follow (visit skip edges n) (edges v) (v :: seen)

/-! ## The set only grows -/

omit [DecidableEq α] in
/-- What every single visit preserves and every visit starts from, the chain of
visits preserves. -/
theorem follow_preserves {go : α → List α → Option (List α)} {P : List α → Prop}
    {es : List (Edge α)} {seen seen' : List α} (h : follow go es seen = some seen')
    (hgo : ∀ e ∈ es, ∀ w, e.target = some w → ∀ s s', e.guard s = true → P s →
      go w s = some s' → P s')
    (hP : P seen) : P seen' := by
  induction es generalizing seen with
  | nil =>
    rw [follow, Option.some.injEq] at h
    exact h ▸ hP
  | cons e es ih =>
    have ih' := fun {s} (hs : follow go es s = some seen') =>
      ih hs (fun e he => hgo e (List.mem_cons_of_mem _ he))
    rw [follow] at h
    by_cases hg : e.guard seen = true
    · rw [if_pos hg] at h
      cases hw : e.target with
      | none => simp [hw] at h
      | some w =>
        cases hs : go w seen with
        | none => simp [hw, hs] at h
        | some s =>
          simp only [hw, hs] at h
          exact ih' h (hgo e (by simp) w hw seen s hg hP hs)
    · rw [if_neg hg] at h
      exact ih' h hP

/-- A visit only adds to the set. -/
theorem visit_subset {skip : α → Bool} {edges : α → List (Edge α)} {n : Nat} {v : α}
    {seen seen' : List α} (h : visit skip edges n v seen = some seen') : seen ⊆ seen' := by
  induction n generalizing v seen seen' with
  | zero => simp [visit] at h
  | succ n ih =>
    rw [visit] at h
    by_cases hs : skip v = true
    · rw [if_pos hs, Option.some.injEq] at h
      exact h ▸ List.Subset.refl _
    · rw [if_neg hs] at h
      by_cases hv : v ∈ seen
      · rw [if_pos hv, Option.some.injEq] at h
        exact h ▸ List.Subset.refl _
      · rw [if_neg hv] at h
        refine follow_preserves (P := fun s => seen ⊆ s) h ?_ (List.subset_cons_self _ _)
        intro e he w hw s s' _ hss hgo
        exact List.Subset.trans hss (ih hgo)

/-- The start of a visit is collected, unless it is of the kind to skip. -/
theorem mem_visit {skip : α → Bool} {edges : α → List (Edge α)} {n : Nat} {v : α}
    {seen seen' : List α} (h : visit skip edges n v seen = some seen') (hs : skip v = false) :
    v ∈ seen' := by
  cases n with
  | zero => simp [visit] at h
  | succ n =>
    rw [visit, if_neg (by simp [hs])] at h
    by_cases hv : v ∈ seen
    · rw [if_pos hv, Option.some.injEq] at h
      exact h ▸ hv
    · rw [if_neg hv] at h
      refine follow_preserves (P := fun s => v ∈ s) h ?_ (by simp)
      intro e he w hw s s' _ hvs hgo
      exact visit_subset hgo hvs

/-! ## The fuel is enough -/

/-- A universe that no edge leaves. -/
def Closed (edges : α → List (Edge α)) (U : List α) : Prop :=
  ∀ v ∈ U, ∀ e ∈ edges v, ∀ w, e.target = some w → w ∈ U

/-- A set without repetition inside the universe. -/
def Within (U seen : List α) : Prop := seen.Nodup ∧ seen ⊆ U

omit [DecidableEq α] in
theorem Within.length_le {U seen : List α} (h : Within U seen) : seen.length ≤ U.length :=
  (List.subperm_of_subset h.1 h.2).length_le

omit [DecidableEq α] in
theorem Within.cons {U seen : List α} {v : α} (h : Within U seen) (hU : v ∈ U) (hv : v ∉ seen) :
    Within U (v :: seen) :=
  ⟨List.nodup_cons.2 ⟨hv, h.1⟩, List.cons_subset.2 ⟨hU, h.2⟩⟩

/-- A visit that starts inside a closed universe stays inside it. -/
theorem visit_within {skip : α → Bool} {edges : α → List (Edge α)} {U : List α}
    (hU : Closed edges U) {n : Nat} {v : α} {seen seen' : List α} (hv : v ∈ U)
    (hw : Within U seen) (h : visit skip edges n v seen = some seen') :
    Within U seen' ∧ seen.length ≤ seen'.length := by
  induction n generalizing v seen seen' with
  | zero => simp [visit] at h
  | succ n ih =>
    rw [visit] at h
    by_cases hs : skip v = true
    · rw [if_pos hs, Option.some.injEq] at h
      exact h ▸ ⟨hw, Nat.le_refl _⟩
    · rw [if_neg hs] at h
      by_cases hm : v ∈ seen
      · rw [if_pos hm, Option.some.injEq] at h
        exact h ▸ ⟨hw, Nat.le_refl _⟩
      · rw [if_neg hm] at h
        refine follow_preserves (P := fun s => Within U s ∧ seen.length ≤ s.length) h ?_
          ⟨hw.cons hv hm, by simp⟩
        intro e he w hew s s' _ hss hgo
        have hstep := ih (hU v hv e he w hew) hss.1 hgo
        exact ⟨hstep.1, Nat.le_trans hss.2 hstep.2⟩

/-- With fuel for every value the set does not hold yet, one more unit of fuel
changes nothing. -/
theorem visit_succ {skip : α → Bool} {edges : α → List (Edge α)} {U : List α}
    (hU : Closed edges U) {n : Nat} {v : α} {seen : List α} (hv : v ∈ U) (hw : Within U seen)
    (hn : U.length + 1 ≤ n + seen.length) :
    visit skip edges (n + 1) v seen = visit skip edges n v seen := by
  induction n generalizing v seen with
  | zero =>
    have := hw.length_le
    omega
  | succ n ih =>
    rw [visit, visit]
    by_cases hs : skip v = true
    · rw [if_pos hs, if_pos hs]
    · by_cases hm : v ∈ seen
      · rw [if_neg hs, if_pos hm, if_neg hs, if_pos hm]
      · rw [if_neg hs, if_neg hm, if_neg hs, if_neg hm]
        exact follow_succ ih (fun e he w hew => hU v hv e he w hew) (hw.cons hv hm)
          (by rw [List.length_cons]; omega)
where
  /-- The chain of visits inherits the stability of the single visits. -/
  follow_succ {n : Nat} (ih : ∀ {v : α} {seen : List α}, v ∈ U → Within U seen →
      U.length + 1 ≤ n + seen.length →
      visit skip edges (n + 1) v seen = visit skip edges n v seen)
      {es : List (Edge α)} {seen : List α}
      (hes : ∀ e ∈ es, ∀ w, e.target = some w → w ∈ U) (hw : Within U seen)
      (hn : U.length + 1 ≤ n + seen.length) :
      follow (visit skip edges (n + 1)) es seen = follow (visit skip edges n) es seen := by
    induction es generalizing seen with
    | nil => rfl
    | cons e es ihes =>
      have hes' : ∀ e ∈ es, ∀ w, e.target = some w → w ∈ U :=
        fun e he => hes e (List.mem_cons_of_mem _ he)
      rw [follow, follow]
      by_cases hg : e.guard seen = true
      · rw [if_pos hg, if_pos hg]
        cases hew : e.target with
        | none => rfl
        | some w =>
          have hwU : w ∈ U := hes e (by simp) w hew
          simp only [ih hwU hw hn]
          cases hgo : visit skip edges n w seen with
          | none => rfl
          | some seen' =>
            have hstep := visit_within hU hwU hw hgo
            exact ihes hes' hstep.1 (by omega)
      · rw [if_neg hg, if_neg hg]
        exact ihes hes' hw hn

/-- Fuel for one value more than the universe holds is enough. -/
theorem visit_fuel {skip : α → Bool} {edges : α → List (Edge α)} {U : List α}
    (hU : Closed edges U) {v : α} (hv : v ∈ U) {n : Nat} (hn : U.length + 1 ≤ n) :
    visit skip edges n v [] = visit skip edges (U.length + 1) v [] := by
  have hw : Within U [] := ⟨List.nodup_nil, List.nil_subset _⟩
  induction n, hn using Nat.le_induction with
  | base => rfl
  | succ n hn ih => rw [visit_succ hU hv hw (by simpa using hn), ih]

/-- A visit is defined when every edge that may be taken has a target. -/
theorem visit_isSome {skip : α → Bool} {edges : α → List (Edge α)} {U : List α}
    (hU : Closed edges U)
    (hdef : ∀ v ∈ U, ∀ e ∈ edges v, ∀ seen, e.guard seen = true → ∃ w, e.target = some w)
    {n : Nat} {v : α} {seen : List α} (hv : v ∈ U) (hw : Within U seen)
    (hn : U.length + 1 ≤ n + seen.length) : ∃ seen', visit skip edges n v seen = some seen' := by
  induction n generalizing v seen with
  | zero =>
    have := hw.length_le
    omega
  | succ n ih =>
    rw [visit]
    by_cases hs : skip v = true
    · exact ⟨seen, by rw [if_pos hs]⟩
    · by_cases hm : v ∈ seen
      · exact ⟨seen, by rw [if_neg hs, if_pos hm]⟩
      · rw [if_neg hs, if_neg hm]
        exact follow_isSome ih (fun e he => ⟨hdef v hv e he, hU v hv e he⟩) (hw.cons hv hm)
          (by rw [List.length_cons]; omega)
where
  follow_isSome {n : Nat} (ih : ∀ {v : α} {seen : List α}, v ∈ U → Within U seen →
      U.length + 1 ≤ n + seen.length → ∃ seen', visit skip edges n v seen = some seen')
      {es : List (Edge α)} {seen : List α}
      (hes : ∀ e ∈ es, (∀ seen, e.guard seen = true → ∃ w, e.target = some w) ∧
        ∀ w, e.target = some w → w ∈ U)
      (hw : Within U seen) (hn : U.length + 1 ≤ n + seen.length) :
      ∃ seen', follow (visit skip edges n) es seen = some seen' := by
    induction es generalizing seen with
    | nil => exact ⟨seen, rfl⟩
    | cons e es ihes =>
      have hes' := fun e he => hes e (List.mem_cons_of_mem _ he)
      rw [follow]
      by_cases hg : e.guard seen = true
      · rw [if_pos hg]
        obtain ⟨w, hew⟩ := (hes e (by simp)).1 seen hg
        have hwU : w ∈ U := (hes e (by simp)).2 w hew
        obtain ⟨seen', hgo⟩ := ih hwU hw hn
        have hstep := visit_within hU hwU hw hgo
        simp only [hew, hgo]
        exact ihes hes' hstep.1 (by omega)
      · rw [if_neg hg]
        exact ihes hes' hw hn

/-! ## Steps that look at the set -/

variable {β : Type}

/-- Visit in order, handing the set on. -/
def visitAll (go : β → List α → Option (List α)) : List β → List α → Option (List α)
  | [], seen => some seen
  | b :: bs, seen =>
    match go b seen with
    | none => none
    | some seen' => visitAll go bs seen'

/-- Visit `b`, which stands for the value `key b`, and the steps it leads to. -/
def visitBy (key : β → α) (skip : β → Bool) (steps : β → List α → List β) :
    Nat → β → List α → Option (List α)
  | 0, _, _ => none
  | n + 1, b, seen =>
    if skip b then some seen
    else if key b ∈ seen then some seen
    else visitAll (visitBy key skip steps n) (steps b (key b :: seen)) (key b :: seen)

/-- Fuel for every value the set does not hold yet is enough. -/
theorem visitBy_isSome {key : β → α} {skip : β → Bool} {steps : β → List α → List β} {U : List α}
    (hU : ∀ b, key b ∈ U → ∀ seen, ∀ b' ∈ steps b seen, key b' ∈ U) {n : Nat} {b : β}
    {seen : List α} (hb : key b ∈ U) (hw : Within U seen) (hn : U.length + 1 ≤ n + seen.length) :
    ∃ seen', visitBy key skip steps n b seen = some seen' ∧ Within U seen' ∧
      seen.length ≤ seen'.length := by
  induction n generalizing b seen with
  | zero =>
    have := hw.length_le
    omega
  | succ n ih =>
    rw [visitBy]
    by_cases hs : skip b = true
    · exact ⟨seen, by rw [if_pos hs], hw, Nat.le_refl _⟩
    · by_cases hm : key b ∈ seen
      · exact ⟨seen, by rw [if_neg hs, if_pos hm], hw, Nat.le_refl _⟩
      · rw [if_neg hs, if_neg hm]
        obtain ⟨seen', hrun, hw', hlen⟩ :=
          visitAll_isSome ih (hU b hb (key b :: seen)) (hw.cons hb hm)
            (by rw [List.length_cons]; omega)
        exact ⟨seen', hrun, hw', Nat.le_trans (Nat.le_succ _) hlen⟩
where
  visitAll_isSome {n : Nat} (ih : ∀ {b : β} {seen : List α}, key b ∈ U → Within U seen →
      U.length + 1 ≤ n + seen.length → ∃ seen', visitBy key skip steps n b seen = some seen' ∧
        Within U seen' ∧ seen.length ≤ seen'.length)
      {bs : List β} {seen : List α} (hbs : ∀ b ∈ bs, key b ∈ U) (hw : Within U seen)
      (hn : U.length + 1 ≤ n + seen.length) :
      ∃ seen', visitAll (visitBy key skip steps n) bs seen = some seen' ∧ Within U seen' ∧
        seen.length ≤ seen'.length := by
    induction bs generalizing seen with
    | nil => exact ⟨seen, rfl, hw, Nat.le_refl _⟩
    | cons b bs ihbs =>
      obtain ⟨mid, hgo, hmid, hle⟩ := ih (hbs b (List.mem_cons_self ..)) hw hn
      obtain ⟨seen', hrun, hw', hlen⟩ :=
        ihbs (fun b' hb' => hbs b' (List.mem_cons_of_mem _ hb')) hmid (by omega)
      refine ⟨seen', ?_, hw', by omega⟩
      rw [visitAll, hgo]
      exact hrun

end Visit
