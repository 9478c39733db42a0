import Rustle.Library.DeepSearch

/-!
# Recursive searches that join what they find

A search that either knows the value of a level or joins the values of other levels, in
their order, and keeps no record of the levels it has been at.

* `Step`, `collect` — the search, with fuel for the depth of the recursion.
* `terminates_iff_no_cycle` — when it ends.
* `collect_le_iff` — its value is the join of the values at the levels it **comes to**.
* `Finishes` — all ways end, and end well; `Finishes.collects` — then there is a value.
-/

namespace JoinSearch

open DeepSearch (Event Outcome search scan Follows Reach Explores Ends Silent)
open Relation (ReflTransGen TransGen)

variable {L β : Type}

/-- What a search does at a level: it knows the value, or goes on to other levels, where
`none` is an undefined step. -/
inductive Step (L β : Type) where
  | done (b : β)
  | go (ls : List (Option L))
  deriving DecidableEq

/-- Where a step goes on to. -/
def Step.next : Step L β → List (Option L)
  | done _ => []
  | go ls => ls

def event : Option L → Event L
  | none => .stuck
  | some l => .descend l

/-- The steps as events of a search without values. -/
def events (step : L → Step L β) (l : L) : List (Event L) := (step l).next.map event

section

variable {step : L → Step L β}

theorem follows_iff {l l' : L} : Follows (events step) l l' ↔ some l' ∈ (step l).next := by
  rw [Follows, events, List.mem_map]
  constructor
  · rintro ⟨o, ho, heq⟩
    cases o with
    | none => cases heq
    | some m =>
      rw [event, Event.descend.injEq] at heq
      rwa [← heq]
  · intro h
    exact ⟨some l', h, rfl⟩

theorem reach_of_done {l l' : L} {b : β} (h : step l = .done b)
    (hreach : Reach (events step) l l') : l' = l := by
  rcases hreach.cases_head with rfl | ⟨m, hm, -⟩
  · rfl
  · rw [follows_iff, h] at hm
    exact absurd hm List.not_mem_nil

variable (step) in
/-- All ways from a level end, at a level of known value with a property or at one without
a next level, and none is undefined. -/
inductive Finishes (P : L → Prop) : L → Prop
  | leaf {l : L} {b : β} (h : step l = .done b) (hP : P l) : Finishes P l
  | go {l : L} {ls : List (Option L)} (h : step l = .go ls) (hdefined : none ∉ ls)
      (hnext : ∀ l', some l' ∈ ls → Finishes P l') : Finishes P l

variable {P : L → Prop}

theorem Finishes.follows {l l' : L} (h : Finishes step P l) (hl : Follows (events step) l l') :
    Finishes step P l' := by
  rw [follows_iff] at hl
  cases h with
  | leaf h hP =>
    rw [h] at hl
    exact absurd hl List.not_mem_nil
  | go h hdefined hnext =>
    rw [h] at hl
    exact hnext l' hl

theorem Finishes.reach {l l' : L} (h : Finishes step P l) (hl : Reach (events step) l l') :
    Finishes step P l' := by
  induction hl with
  | refl => exact h
  | tail _ hlast ih => exact ih.follows hlast

theorem Finishes.of_done {l : L} {b : β} (h : Finishes step P l) (hb : step l = .done b) :
    P l := by
  cases h with
  | leaf h hP => exact hP
  | go h hdefined hnext =>
    rw [h] at hb
    cases hb

theorem Finishes.acc {l : L} (h : Finishes step P l) :
    Acc (fun a b => Follows (events step) b a) l := by
  induction h with
  | leaf h hP =>
    refine ⟨_, fun l' hl' => ?_⟩
    rw [follows_iff, h] at hl'
    exact absurd hl' List.not_mem_nil
  | go h hdefined hnext ih =>
    refine ⟨_, fun l' hl' => ?_⟩
    rw [follows_iff, h] at hl'
    exact ih l' hl'

theorem Finishes.silent {l : L} (h : Finishes step P l) : Silent (events step) l := by
  intro l' hreach e he
  obtain ⟨o, ho, rfl⟩ := List.mem_map.1 he
  cases o with
  | some m => exact ⟨m, rfl⟩
  | none =>
    cases h.reach hreach with
    | leaf h hP =>
      rw [h] at ho
      exact absurd ho List.not_mem_nil
    | go h hdefined hnext =>
      rw [h] at ho
      exact absurd ho hdefined

end

/-! ## The search -/

section

variable [SemilatticeSup β]

/-- Join the values of the levels to `acc`; the inner `none` is an undefined step. -/
def joinAll (go : L → Option (Option β)) : List (Option L) → β → Option (Option β)
  | [], acc => some (some acc)
  | none :: _, _ => some none
  | some l :: ls, acc =>
    match go l with
    | none => none
    | some none => some none
    | some (some b) => joinAll go ls (acc ⊔ b)

variable [OrderBot β] (step : L → Step L β)

/-- Search a level; the outer `none` when the fuel runs out. -/
def collect : Nat → L → Option (Option β)
  | 0, _ => none
  | n + 1, l =>
    match step l with
    | .done b => some (some b)
    | .go ls => joinAll (collect n) ls ⊥

/-- Does the search end? -/
def Terminates (l : L) : Prop := ∃ n r, collect step n l = some r

variable {step}

theorem collect_done {n : Nat} {l : L} {b : β} (h : step l = .done b) :
    collect step (n + 1) l = some (some b) := by
  rw [collect, h]

theorem collect_go {n : Nat} {l : L} {ls : List (Option L)} (h : step l = .go ls) :
    collect step (n + 1) l = joinAll (collect step n) ls ⊥ := by
  rw [collect, h]

/-! ## When it ends -/

/-- What the search without values comes to. -/
def outcome (r : Option β) : Outcome := if r.isSome then .missing else .stuck

omit [OrderBot β] in
theorem scan_events {go : L → Option (Option β)} (ls : List (Option L)) (acc : β) :
    scan (fun l => (go l).map outcome) (ls.map event) = (joinAll go ls acc).map outcome := by
  induction ls generalizing acc with
  | nil => rfl
  | cons o ls ih =>
    cases o with
    | none => rfl
    | some l =>
      rw [List.map_cons, event, scan, joinAll]
      cases go l with
      | none => rfl
      | some r =>
        cases r with
        | none => rfl
        | some b => exact ih (acc ⊔ b)

/-- Apart from the values, it is a search without memory. -/
theorem search_events (n : Nat) (l : L) :
    search (events step) n l = (collect step n l).map outcome := by
  induction n generalizing l with
  | zero => rfl
  | succ n ih =>
    have hgo : search (events step) n = fun l => (collect step n l).map outcome := funext ih
    rw [search, hgo, events]
    cases h : step l with
    | done b =>
      rw [collect_done h]
      rfl
    | go ls => rw [collect_go h, Step.next, scan_events ls ⊥]

theorem terminates_iff_ends (l : L) : Terminates step l ↔ Ends (events step) l := by
  constructor
  · rintro ⟨n, r, h⟩
    exact ⟨n, outcome r, by rw [search_events, h, Option.map_some]⟩
  · rintro ⟨n, r, h⟩
    rw [search_events, Option.map_eq_some_iff] at h
    obtain ⟨r', hr', -⟩ := h
    exact ⟨n, r', hr'⟩

/-- A search among finitely many levels ends exactly when those it goes into do not come
around. -/
theorem terminates_iff_no_cycle {U : Set L} (hU : U.Finite)
    (hnext : ∀ l l', some l' ∈ (step l).next → l' ∈ U) (l : L) :
    Terminates step l ↔ ¬ ∃ c, ReflTransGen (Explores (events step)) l c ∧
      TransGen (Explores (events step)) c c := by
  rw [terminates_iff_ends]
  exact DeepSearch.ends_iff_no_cycle hU (fun a b hab => hnext a b (follows_iff.1 hab)) l

/-! ## Its value -/

omit [OrderBot β] in
theorem joinAll_spec {go : L → Option (Option β)} {ls : List (Option L)} {acc b : β}
    (h : joinAll go ls acc = some (some b)) :
    (∀ o ∈ ls, ∃ l b', o = some l ∧ go l = some (some b')) ∧
    ∀ c, b ≤ c ↔ acc ≤ c ∧ ∀ l b', some l ∈ ls → go l = some (some b') → b' ≤ c := by
  induction ls generalizing acc with
  | nil =>
    rw [joinAll, Option.some.injEq, Option.some.injEq] at h
    subst h
    simp
  | cons o ls ih =>
    cases o with
    | none => cases h
    | some l =>
      rw [joinAll] at h
      cases hl : go l with
      | none =>
        rw [hl] at h
        cases h
      | some r =>
        rw [hl] at h
        cases r with
        | none => cases h
        | some b₁ =>
          obtain ⟨hall, hle⟩ := ih h
          refine ⟨?_, fun c => ?_⟩
          · intro o ho
            rcases List.mem_cons.1 ho with rfl | ho
            · exact ⟨l, b₁, rfl, hl⟩
            · exact hall o ho
          · rw [hle c, sup_le_iff, and_assoc]
            refine and_congr_right fun _ => ?_
            constructor
            · rintro ⟨hb₁, hrest⟩ l' b' hmem hl'
              rcases List.mem_cons.1 hmem with heq | hmem
              · rw [Option.some.injEq] at heq
                rw [heq, hl, Option.some.injEq, Option.some.injEq] at hl'
                rwa [← hl']
              · exact hrest l' b' hmem hl'
            · intro hrest
              exact ⟨hrest l b₁ List.mem_cons_self hl,
                fun l' b' hmem => hrest l' b' (List.mem_cons_of_mem _ hmem)⟩

/-- The value is the join of the values that the search comes to. -/
theorem collect_le_iff {n : Nat} {l : L} {b : β} (h : collect step n l = some (some b)) (c : β) :
    b ≤ c ↔ ∀ l' x, Reach (events step) l l' → step l' = .done x → x ≤ c := by
  induction n generalizing l b with
  | zero => cases h
  | succ n ih =>
    cases hstep : step l with
    | done x =>
      rw [collect_done hstep, Option.some.injEq, Option.some.injEq] at h
      subst h
      constructor
      · intro hle l' y hreach hy
        rw [reach_of_done hstep hreach, hstep, Step.done.injEq] at hy
        rwa [← hy]
      · intro hall
        exact hall l x .refl hstep
    | go ls =>
      rw [collect_go hstep] at h
      obtain ⟨hall, hle⟩ := joinAll_spec h
      rw [hle c]
      constructor
      · rintro ⟨-, hnext⟩ l' x hreach hx
        rcases hreach.cases_head with rfl | ⟨m, hm, hreach⟩
        · rw [hstep] at hx
          cases hx
        · rw [follows_iff, hstep] at hm
          obtain ⟨m', b', heq, hb'⟩ := hall _ hm
          rw [Option.some.injEq] at heq
          subst heq
          exact (ih hb').1 (hnext m b' hm hb') l' x hreach hx
      · intro hreach
        refine ⟨bot_le, fun m b' hm hb' => (ih hb').2 fun l' x hl' hx => ?_⟩
        refine hreach l' x (.head ?_ hl') hx
        rw [follows_iff, hstep]
        exact hm

variable {P : L → Prop}

/-- A search whose ways all end has a value. -/
theorem Finishes.collects {l : L} (h : Finishes step P l) :
    ∃ n b, collect step n l = some (some b) := by
  obtain ⟨n, r, hr⟩ := DeepSearch.ends_of_acc h.acc
  have hmissing := DeepSearch.missing_of_silent (events step) h.silent hr
  rw [search_events, Option.map_eq_some_iff] at hr
  obtain ⟨o, ho, hout⟩ := hr
  cases o with
  | some b => exact ⟨n, b, ho⟩
  | none =>
    rw [← hout] at hmissing
    cases hmissing

/-- The value does not depend on the fuel. -/
theorem collect_unique {m n : Nat} {l : L} {b b' : β} (h : collect step m l = some (some b))
    (h' : collect step n l = some (some b')) : b = b' := by
  apply le_antisymm
  · rw [collect_le_iff h, ← collect_le_iff h']
  · rw [collect_le_iff h', ← collect_le_iff h]

end

end JoinSearch
