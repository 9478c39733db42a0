import Mathlib.Data.List.Basic
import Mathlib.Data.List.Induction
import Mathlib.Logic.Relation

/-!
# Targets and their prerequisites

A builder makes the prerequisites of a target, each in its turn, before the
target itself, and nothing twice.

* `Rules` — targets with their prerequisites; a rank excludes cycles.
* `visit`, `plan` — the targets made for some goals, in order.
* `Ordered` — no target twice, and each behind its prerequisites.
* `ordered_plan`, `mem_plan`, `needed_of_mem_plan` — what a plan holds.
* `Ordered.needed_mem` — an ordered list holds what its targets need.
-/

namespace Prerequisites

/-- Targets with their prerequisites. -/
structure Rules (T : Type) where
  prerequisites : T → List T
  rank : T → Nat
  rank_lt : ∀ t, ∀ p ∈ prerequisites t, rank p < rank t

variable {T : Type} [DecidableEq T] (R : Rules T)

/-- The targets made when `t` is needed and those of `done` are made already. -/
def visit : Nat → List T → T → List T
  | 0, done, _ => done
  | n + 1, done, t =>
    if t ∈ done then done else (R.prerequisites t).foldl (visit n) done ++ [t]

/-- The targets made for the goals of one invocation. -/
def plan (goals : List T) : List T :=
  goals.foldl (fun done t => visit R (R.rank t + 1) done t) []

/-- No target twice, and each behind its prerequisites. -/
inductive Ordered : List T → Prop
  | nil : Ordered []
  | snoc {done : List T} {t : T} (hdone : Ordered done) (hnew : t ∉ done)
      (hpre : ∀ p ∈ R.prerequisites t, p ∈ done) : Ordered (done ++ [t])

/-- `u` is `t`, or needed for it. -/
def Needed (t u : T) : Prop := Relation.ReflTransGen (fun a b => b ∈ R.prerequisites a) t u

variable {R}

/-- What a visit adds. -/
structure Extends (goals done next : List T) : Prop where
  ordered : Ordered R next
  grows : done <+: next
  made : ∀ t ∈ goals, t ∈ next
  needed : ∀ u ∈ next, u ∈ done ∨ ∃ t ∈ goals, Needed R t u

omit [DecidableEq T] in
theorem Extends.trans {gs gs' a b c : List T} (h : Extends (R := R) gs a b)
    (h' : Extends (R := R) gs' b c) : Extends (R := R) (gs ++ gs') a c where
  ordered := h'.ordered
  grows := h.grows.trans h'.grows
  made t ht := (List.mem_append.1 ht).elim (fun ht => h'.grows.subset (h.made t ht)) (h'.made t)
  needed u hu := by
    rcases h'.needed u hu with hu | ⟨t, ht, hn⟩
    · rcases h.needed u hu with hu | ⟨t, ht, hn⟩
      · exact Or.inl hu
      · exact Or.inr ⟨t, List.mem_append_left _ ht, hn⟩
    · exact Or.inr ⟨t, List.mem_append_right _ ht, hn⟩

omit [DecidableEq T] in
/-- The loop over some targets, given what one visit adds. -/
theorem foldl_extends {f : List T → T → List T} {goals : List T}
    (hf : ∀ t ∈ goals, ∀ done, Ordered R done → Extends (R := R) [t] done (f done t))
    {done : List T} (hdone : Ordered R done) :
    Extends (R := R) goals done (goals.foldl f done) := by
  induction goals generalizing done with
  | nil => exact ⟨hdone, List.prefix_rfl, fun t ht => absurd ht List.not_mem_nil, fun u => Or.inl⟩
  | cons t goals ih =>
    have hstep := hf t List.mem_cons_self done hdone
    exact hstep.trans (ih (fun u hu => hf u (List.mem_cons_of_mem _ hu)) hstep.ordered)

theorem visit_extends {n : Nat} {t : T} (hn : R.rank t < n) {done : List T}
    (hdone : Ordered R done) : Extends (R := R) [t] done (visit R n done t) := by
  induction n generalizing t done with
  | zero => exact absurd hn (Nat.not_lt_zero _)
  | succ n ih =>
    rw [visit]
    by_cases ht : t ∈ done
    · rw [if_pos ht]
      refine ⟨hdone, List.prefix_rfl, fun u hu => ?_, fun u => Or.inl⟩
      rw [List.mem_singleton.1 hu]
      exact ht
    · rw [if_neg ht]
      have hpre : Extends (R := R) (R.prerequisites t) done
          ((R.prerequisites t).foldl (visit R n) done) := by
        refine foldl_extends (fun p hp done hdone => ?_) hdone
        have hrank := R.rank_lt t p hp
        exact ih (by omega) hdone
      -- what is needed for a prerequisite has a smaller rank than `t`
      have hrank : ∀ p ∈ R.prerequisites t, ∀ u, Needed R p u → R.rank u < R.rank t := by
        intro p hp u hu
        induction hu with
        | refl => exact R.rank_lt t p hp
        | tail _ hstep ih => exact Nat.lt_trans (R.rank_lt _ _ hstep) ih
      have hnew : t ∉ (R.prerequisites t).foldl (visit R n) done := by
        intro hmem
        rcases hpre.needed t hmem with hmem | ⟨p, hp, hneed⟩
        · exact ht hmem
        · exact absurd (hrank p hp t hneed) (Nat.lt_irrefl _)
      refine ⟨hpre.ordered.snoc hnew hpre.made, hpre.grows.trans (List.prefix_append _ _),
        fun u hu => ?_, fun u hu => ?_⟩
      · rw [List.mem_singleton.1 hu]
        exact List.mem_append_right _ (List.mem_singleton_self t)
      · rcases List.mem_append.1 hu with hu | hu
        · rcases hpre.needed u hu with hu | ⟨p, hp, hneed⟩
          · exact Or.inl hu
          · exact Or.inr ⟨t, List.mem_singleton_self t, hneed.head hp⟩
        · rw [List.mem_singleton.1 hu]
          exact Or.inr ⟨t, List.mem_singleton_self t, .refl⟩

theorem plan_extends (goals : List T) : Extends (R := R) goals [] (plan R goals) :=
  foldl_extends (fun _ _ _ hdone => visit_extends (Nat.lt_succ_self _) hdone) Ordered.nil

/-- A plan makes nothing twice, and everything behind what it needs. -/
theorem ordered_plan (goals : List T) : Ordered R (plan R goals) := (plan_extends goals).ordered

/-- It makes all goals. -/
theorem mem_plan {goals : List T} {t : T} (h : t ∈ goals) : t ∈ plan R goals :=
  (plan_extends goals).made t h

/-- It makes nothing that no goal needs. -/
theorem needed_of_mem_plan {goals : List T} {u : T} (h : u ∈ plan R goals) :
    ∃ t ∈ goals, Needed R t u := by
  rcases (plan_extends goals).needed u h with h | h
  · exact absurd h List.not_mem_nil
  · exact h

/-- What is planned for the first goals comes first. -/
theorem plan_append (goals goals' : List T) : plan R goals <+: plan R (goals ++ goals') := by
  rw [plan, plan, List.foldl_append]
  exact (foldl_extends (fun _ _ _ hdone => visit_extends (Nat.lt_succ_self _) hdone)
    (ordered_plan goals)).grows

/-! ## Ordered lists -/

omit [DecidableEq T]

/-- The last target of an ordered list. -/
theorem Ordered.last {l : List T} {t : T} (h : Ordered R (l ++ [t])) :
    Ordered R l ∧ t ∉ l ∧ ∀ p ∈ R.prerequisites t, p ∈ l := by
  generalize hl : l ++ [t] = m at h
  cases h with
  | nil => simp at hl
  | snoc hdone hnew hpre =>
    obtain ⟨rfl, ht⟩ := List.append_inj' hl rfl
    obtain rfl := List.singleton_inj.1 ht
    exact ⟨hdone, hnew, hpre⟩

/-- What is needed for a target of an ordered list is in the list. -/
theorem Ordered.needed_mem {l : List T} (h : Ordered R l) {t u : T} (ht : t ∈ l)
    (hu : Needed R t u) : u ∈ l := by
  induction hu with
  | refl => exact ht
  | tail _ hstep ih =>
    clear ht
    induction h with
    | nil => exact absurd ih List.not_mem_nil
    | snoc hdone hnew hpre ihl =>
      rcases List.mem_append.1 ih with hmem | hmem
      · exact List.mem_append_left _ (ihl hmem)
      · rw [List.mem_singleton.1 hmem] at hstep
        exact List.mem_append_left _ (hpre _ hstep)

end Prerequisites
