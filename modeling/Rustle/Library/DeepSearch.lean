import Mathlib

/-!
# Recursive searches without memory

A search looks at the things that happen at a level in order: something is found,
another level is searched first, or an undefined step is met.  It keeps no record
of the levels it has been at.

* `Event`, `search` — the search, with fuel for the depth of the recursion.
* `Reach`, `Leads` — the levels a search may come to, and whether one of them has
  a find.
* `found_iff_leads` — a search that returns has found something exactly when its
  level leads to a find.
* `Explores` — the levels a search does go into: nothing before them ends it.
* `ends_iff_acc`, `ends_iff_no_cycle` — a search ends exactly when the levels it
  explores do **not** come around.
* `Enters`, `found_iff_enters` — where a search comes to behind searches that end
  without a find; whether it finds something, be it that it returns or not.
-/

namespace DeepSearch

open Relation (ReflTransGen TransGen)

variable {L : Type}

/-- What happens at a level. -/
inductive Event (L : Type) where
  | found
  | descend (l : L)
  | stuck

/-- What a search comes to. -/
inductive Outcome where
  | found
  | missing
  | stuck
  deriving DecidableEq, Repr

/-- The value returned, if one is. -/
def Outcome.verdict : Outcome → Option Bool
  | found => some true
  | missing => some false
  | stuck => none

/-- Go through the events of a level in order. -/
def scan (go : L → Option Outcome) : List (Event L) → Option Outcome
  | [] => some .missing
  | .found :: _ => some .found
  | .stuck :: _ => some .stuck
  | .descend l :: es =>
    match go l with
    | none => none
    | some .missing => scan go es
    | some .found => some .found
    | some .stuck => some .stuck

/-- Search a level; `none` when the fuel runs out. -/
def search (events : L → List (Event L)) : Nat → L → Option Outcome
  | 0, _ => none
  | n + 1, l => scan (search events n) (events l)

/-! ## One level -/

/-- All events are searches that come to nothing. -/
def Passed (go : L → Option Outcome) (es : List (Event L)) : Prop :=
  ∀ e ∈ es, ∃ l, e = .descend l ∧ go l = some .missing

theorem Passed.nil (go : L → Option Outcome) : Passed go [] := by
  intro e he
  exact absurd he List.not_mem_nil

theorem Passed.cons {go : L → Option Outcome} {l : L} {es : List (Event L)}
    (h : go l = some .missing) (hes : Passed go es) : Passed go (.descend l :: es) := by
  intro e he
  rcases List.mem_cons.1 he with rfl | he
  · exact ⟨l, rfl, h⟩
  · exact hes e he

/-- The event that decides a scan. -/
def Decides (go : L → Option Outcome) (e : Event L) (r : Outcome) : Prop :=
  (e = .found ∧ r = .found) ∨ (e = .stuck ∧ r = .stuck) ∨
    ∃ l, e = .descend l ∧ go l = some r ∧ r ≠ .missing

/-- A scan ends with the first event that decides, or behind the last one. -/
theorem scan_cases {go : L → Option Outcome} {es : List (Event L)} {r : Outcome}
    (h : scan go es = some r) :
    (Passed go es ∧ r = .missing) ∨
      ∃ pre e post, es = pre ++ e :: post ∧ Passed go pre ∧ Decides go e r := by
  induction es with
  | nil =>
    rw [scan, Option.some.injEq] at h
    exact Or.inl ⟨.nil go, h.symm⟩
  | cons e es ih =>
    cases e with
    | found =>
      rw [scan, Option.some.injEq] at h
      exact Or.inr ⟨[], .found, es, rfl, .nil go, Or.inl ⟨rfl, h.symm⟩⟩
    | stuck =>
      rw [scan, Option.some.injEq] at h
      exact Or.inr ⟨[], .stuck, es, rfl, .nil go, Or.inr (Or.inl ⟨rfl, h.symm⟩)⟩
    | descend l =>
      rw [scan] at h
      cases hl : go l with
      | none => simp [hl] at h
      | some o =>
        cases o with
        | missing =>
          simp only [hl] at h
          rcases ih h with ⟨hes, hr⟩ | ⟨pre, e, post, hes, hpre, he⟩
          · exact Or.inl ⟨hes.cons hl, hr⟩
          · exact Or.inr ⟨.descend l :: pre, e, post, by rw [hes]; rfl, hpre.cons hl, he⟩
        | found | stuck =>
          simp only [hl, Option.some.injEq] at h
          subst h
          exact Or.inr ⟨[], _, es, rfl, .nil go, Or.inr (Or.inr ⟨l, rfl, hl, by simp⟩)⟩

theorem scan_append {go : L → Option Outcome} {pre es : List (Event L)} (h : Passed go pre) :
    scan go (pre ++ es) = scan go es := by
  induction pre with
  | nil => rfl
  | cons e pre ih =>
    obtain ⟨l, rfl, hl⟩ := h e (by simp)
    rw [List.cons_append, scan, hl]
    exact ih fun e' he' => h e' (List.mem_cons_of_mem _ he')

/-- A scan ends if the searches it comes to do. -/
theorem scan_isSome {go : L → Option Outcome} {es : List (Event L)}
    (h : ∀ pre l post, es = pre ++ .descend l :: post → Passed go pre → ∃ r, go l = some r) :
    ∃ r, scan go es = some r := by
  induction es with
  | nil => exact ⟨_, rfl⟩
  | cons e es ih =>
    cases e with
    | found | stuck => exact ⟨_, rfl⟩
    | descend l =>
      obtain ⟨o, ho⟩ := h [] l es rfl (.nil go)
      rw [scan]
      cases o with
      | missing =>
        simp only [ho]
        refine ih ?_
        intro pre l' post hes hpre
        exact h (.descend l :: pre) l' post (by rw [hes]; rfl) (hpre.cons ho)
      | found => exact ⟨.found, by simp [ho]⟩
      | stuck => exact ⟨.stuck, by simp [ho]⟩

/-- More fuel does not change a scan whose searches end. -/
theorem scan_mono {go go' : L → Option Outcome} (hgo : ∀ l r, go l = some r → go' l = some r)
    {es : List (Event L)} {r : Outcome} (h : scan go es = some r) : scan go' es = some r := by
  induction es with
  | nil => exact h
  | cons e es ih =>
    cases e with
    | found | stuck => exact h
    | descend l =>
      rw [scan] at h ⊢
      cases hl : go l with
      | none => simp [hl] at h
      | some o =>
        rw [hgo l o hl]
        cases o with
        | missing =>
          simp only [hl] at h
          exact ih h
        | found | stuck => simpa [hl] using h

section

variable (events : L → List (Event L))

theorem search_succ {n : Nat} {l : L} {r : Outcome} (h : search events n l = some r) :
    search events (n + 1) l = some r := by
  induction n generalizing l r with
  | zero => simp [search] at h
  | succ n ih =>
    rw [search] at h ⊢
    exact scan_mono (fun l r hl => ih hl) h

theorem search_mono {n m : Nat} (hnm : n ≤ m) {l : L} {r : Outcome}
    (h : search events n l = some r) : search events m l = some r := by
  induction m, hnm using Nat.le_induction with
  | base => exact h
  | succ m _ ih => exact search_succ events ih

theorem verdict_mono {n m : Nat} (hnm : n ≤ m) {l : L} {b : Bool}
    (h : (search events n l).bind Outcome.verdict = some b) :
    (search events m l).bind Outcome.verdict = some b := by
  obtain ⟨r, hr, hb⟩ := Option.bind_eq_some_iff.1 h
  rw [search_mono events hnm hr, Option.bind_some, hb]

/-! ## Where a search may come to -/

/-- The search of `l` goes on to `l'`, unless something before ends it. -/
def Follows (l l' : L) : Prop := .descend l' ∈ events l

/-- The levels a search may come to. -/
def Reach (l l' : L) : Prop := ReflTransGen (Follows events) l l'

/-- Some level the search may come to has a find. -/
def Leads (l : L) : Prop := ∃ l', Reach events l l' ∧ .found ∈ events l'

/-- Nothing that the search may come to ends it. -/
def Silent (l : L) : Prop := ∀ l', Reach events l l' → ∀ e ∈ events l', ∃ m, e = .descend m

/-- What is found is found at a level the search may come to. -/
theorem leads_of_found {n : Nat} {l : L} (h : search events n l = some .found) :
    Leads events l := by
  induction n generalizing l with
  | zero => simp [search] at h
  | succ n ih =>
    rw [search] at h
    rcases scan_cases h with ⟨-, hr⟩ | ⟨pre, e, post, hes, -, hdec⟩
    · cases hr
    · have hmem : e ∈ events l := by simp [hes]
      rcases hdec with ⟨rfl, -⟩ | ⟨-, hr⟩ | ⟨m, rfl, hm, -⟩
      · exact ⟨l, .refl, hmem⟩
      · cases hr
      · obtain ⟨l', hreach, hfound⟩ := ih hm
        exact ⟨l', .head hmem hreach, hfound⟩

/-- A search that comes to nothing has been everywhere. -/
theorem silent_of_missing {n : Nat} {l : L} (h : search events n l = some .missing) :
    Silent events l := by
  induction n generalizing l with
  | zero => simp [search] at h
  | succ n ih =>
    rw [search] at h
    rcases scan_cases h with ⟨hpassed, -⟩ | ⟨pre, e, post, -, -, hdec⟩
    · intro l' hreach
      rcases hreach.cases_head with rfl | ⟨m, hm, hreach⟩
      · intro e he
        obtain ⟨m, rfl, -⟩ := hpassed e he
        exact ⟨m, rfl⟩
      · obtain ⟨m', hm', hsearch⟩ := hpassed _ hm
        rw [Event.descend.injEq] at hm'
        subst hm'
        exact ih hsearch l' hreach
    · rcases hdec with ⟨-, hr⟩ | ⟨-, hr⟩ | ⟨-, -, -, hne⟩
      · cases hr
      · cases hr
      · exact absurd rfl hne

theorem not_leads_of_silent {l : L} (h : Silent events l) : ¬ Leads events l := by
  rintro ⟨l', hreach, hfound⟩
  obtain ⟨m, hm⟩ := h l' hreach _ hfound
  cases hm

/-- An undefined step is met at a level the search may come to. -/
theorem exists_stuck {n : Nat} {l : L} (h : search events n l = some .stuck) :
    ∃ l', Reach events l l' ∧ .stuck ∈ events l' := by
  induction n generalizing l with
  | zero => simp [search] at h
  | succ n ih =>
    rw [search] at h
    rcases scan_cases h with ⟨-, hr⟩ | ⟨pre, e, post, hes, -, hdec⟩
    · cases hr
    · have hmem : e ∈ events l := by simp [hes]
      rcases hdec with ⟨-, hr⟩ | ⟨rfl, -⟩ | ⟨m, rfl, hm, -⟩
      · cases hr
      · exact ⟨l, .refl, hmem⟩
      · obtain ⟨l', hreach, hstuck⟩ := ih hm
        exact ⟨l', .head hmem hreach, hstuck⟩

/-- A silent level that is searched to the end comes to nothing. -/
theorem missing_of_silent {n : Nat} {l : L} {r : Outcome} (hl : Silent events l)
    (h : search events n l = some r) : r = .missing := by
  cases r with
  | missing => rfl
  | found => exact absurd (leads_of_found events h) (not_leads_of_silent events hl)
  | stuck =>
    obtain ⟨l', hreach, hstuck⟩ := exists_stuck events h
    obtain ⟨m, hm⟩ := hl l' hreach _ hstuck
    cases hm

/-- A search that returns has found something exactly when its level leads to a
find. -/
theorem found_iff_leads {n : Nat} {l : L} {b : Bool}
    (h : (search events n l).bind Outcome.verdict = some b) : b = true ↔ Leads events l := by
  obtain ⟨r, hr, hb⟩ := Option.bind_eq_some_iff.1 h
  cases r with
  | found =>
    rw [Outcome.verdict, Option.some.injEq] at hb
    exact iff_of_true hb.symm (leads_of_found events hr)
  | missing =>
    rw [Outcome.verdict, Option.some.injEq] at hb
    exact iff_of_false (by simp [← hb])
      (not_leads_of_silent events (silent_of_missing events hr))
  | stuck => cases hb

/-! ## Which searches end -/

/-- All events are levels without anything that ends a search. -/
def Quiet (es : List (Event L)) : Prop := ∀ e ∈ es, ∃ l, e = .descend l ∧ Silent events l

/-- The search of `l` goes into `l'`: nothing before ends it. -/
def Explores (l l' : L) : Prop :=
  ∃ pre post, events l = pre ++ .descend l' :: post ∧ Quiet events pre

/-- The search ends. -/
def Ends (l : L) : Prop := ∃ n r, search events n l = some r

theorem Explores.follows {l l' : L} (h : Explores events l l') : Follows events l l' := by
  obtain ⟨pre, post, hes, -⟩ := h
  rw [Follows, hes]
  simp

theorem quiet_of_passed {n : Nat} {es : List (Event L)} (h : Passed (search events n) es) :
    Quiet events es := by
  intro e he
  obtain ⟨l, rfl, hl⟩ := h e he
  exact ⟨l, rfl, silent_of_missing events hl⟩

/-- The levels a search explores are searched, with less fuel. -/
theorem explored_ends {n : Nat} {l l' : L} {r : Outcome} (h : search events (n + 1) l = some r)
    (hl : Explores events l l') : ∃ r', search events n l' = some r' := by
  obtain ⟨pre, post, hes, hquiet⟩ := hl
  rw [search, hes] at h
  clear hes
  induction pre with
  | nil =>
    rw [List.nil_append, scan] at h
    cases hl' : search events n l' with
    | none => simp [hl'] at h
    | some r' => exact ⟨r', rfl⟩
  | cons e pre ih =>
    obtain ⟨m, rfl, hm⟩ := hquiet e (by simp)
    rw [List.cons_append, scan] at h
    cases hgo : search events n m with
    | none => simp [hgo] at h
    | some o =>
      have ho : o = .missing := missing_of_silent events hm hgo
      subst ho
      simp only [hgo] at h
      exact ih h fun e he => hquiet e (by simp [he])

/-- Fuel for every level that is explored is fuel for the level. -/
theorem ends_of_explored {l : L} (h : ∀ l', Explores events l l' → Ends events l') :
    Ends events l := by
  -- one amount of fuel for all the levels that stand in the list
  have hfuel : ∃ n, ∀ l', Explores events l l' → ∃ r, search events n l' = some r := by
    have hlist : ∀ es : List (Event L), ∃ n, ∀ l', .descend l' ∈ es → Explores events l l' →
        ∃ r, search events n l' = some r := by
      intro es
      induction es with
      | nil => exact ⟨0, fun l' hl' => absurd hl' List.not_mem_nil⟩
      | cons e es ih =>
        obtain ⟨n, hn⟩ := ih
        by_cases he : ∃ m, e = .descend m ∧ Explores events l m
        · obtain ⟨m, rfl, hm⟩ := he
          obtain ⟨k, r, hr⟩ := h m hm
          refine ⟨max n k, fun l' hmem hl' => ?_⟩
          rcases List.mem_cons.1 hmem with heq | hmem
          · rw [Event.descend.injEq] at heq
            subst heq
            exact ⟨r, search_mono events (Nat.le_max_right n k) hr⟩
          · obtain ⟨r', hr'⟩ := hn l' hmem hl'
            exact ⟨r', search_mono events (Nat.le_max_left n k) hr'⟩
        · refine ⟨n, fun l' hmem hl' => ?_⟩
          rcases List.mem_cons.1 hmem with rfl | hmem
          · exact absurd ⟨l', rfl, hl'⟩ he
          · exact hn l' hmem hl'
    obtain ⟨n, hn⟩ := hlist (events l)
    exact ⟨n, fun l' hl' => hn l' (Explores.follows events hl') hl'⟩
  obtain ⟨n, hn⟩ := hfuel
  obtain ⟨r, hr⟩ : ∃ r, scan (search events n) (events l) = some r := by
    refine scan_isSome ?_
    intro pre l' post hes hpre
    exact hn l' ⟨pre, post, hes, quiet_of_passed events hpre⟩
  exact ⟨n + 1, r, hr⟩

/-- A search ends exactly when no chain of explored levels is endless. -/
theorem ends_iff_acc (l : L) : Ends events l ↔ Acc (fun a b => Explores events b a) l := by
  constructor
  · rintro ⟨n, r, h⟩
    induction n generalizing l r with
    | zero => simp [search] at h
    | succ n ih =>
      refine ⟨l, fun l' hl' => ?_⟩
      obtain ⟨r', hr'⟩ := explored_ends events h hl'
      exact ih l' r' hr'
  · intro h
    induction h with
    | intro l _ ih => exact ends_of_explored events fun l' hl' => ih l' hl'

/-! ## Which searches find something -/

/-- The search of the level ends without a find. -/
def Barren (l : L) : Prop := Silent events l ∧ Acc (fun a b => Explores events b a) l

/-- All events are levels whose search ends without a find. -/
def Clear (es : List (Event L)) : Prop := ∀ e ∈ es, ∃ l, e = .descend l ∧ Barren events l

/-- The search of `l` comes to `l'`, behind searches that end without a find. -/
def Enters (l l' : L) : Prop :=
  ∃ pre post, events l = pre ++ .descend l' :: post ∧ Clear events pre

/-- The search of `l` comes to a find of its own. -/
def Finds (l : L) : Prop := ∃ pre post, events l = pre ++ .found :: post ∧ Clear events pre

theorem Enters.follows {l l' : L} (h : Enters events l l') : Follows events l l' := by
  obtain ⟨pre, post, hes, -⟩ := h
  rw [Follows, hes]
  simp

theorem missing_iff_barren {l : L} :
    (∃ n, search events n l = some .missing) ↔ Barren events l := by
  constructor
  · rintro ⟨n, h⟩
    exact ⟨silent_of_missing events h, (ends_iff_acc events l).1 ⟨n, _, h⟩⟩
  · rintro ⟨hsilent, hacc⟩
    obtain ⟨n, r, hr⟩ := (ends_iff_acc events l).2 hacc
    exact ⟨n, missing_of_silent events hsilent hr ▸ hr⟩

/-- One amount of fuel is enough for all searches of a clear list. -/
theorem Clear.exists_passed {es : List (Event L)} (h : Clear events es) :
    ∃ n, ∀ m, n ≤ m → Passed (search events m) es := by
  induction es with
  | nil => exact ⟨0, fun m _ => .nil _⟩
  | cons e es ih =>
    obtain ⟨n, hn⟩ := ih fun e' he' => h e' (List.mem_cons_of_mem _ he')
    obtain ⟨l, rfl, hl⟩ := h e (by simp)
    obtain ⟨k, hk⟩ := (missing_iff_barren events).2 hl
    refine ⟨max n k, fun m hm => ?_⟩
    exact (hn m (by omega)).cons (search_mono events (by omega) hk)

/-- A search finds something exactly when it comes, from level to level, to one with a find
of its own. -/
theorem found_iff_enters {l : L} :
    (∃ n, search events n l = some .found) ↔
      ∃ l', ReflTransGen (Enters events) l l' ∧ Finds events l' := by
  constructor
  · rintro ⟨n, h⟩
    induction n generalizing l with
    | zero => simp [search] at h
    | succ n ih =>
      rw [search] at h
      rcases scan_cases h with ⟨-, hr⟩ | ⟨pre, e, post, hes, hpre, hdec⟩
      · cases hr
      · have hclear : Clear events pre := by
          intro e' he'
          obtain ⟨m, rfl, hm⟩ := hpre e' he'
          exact ⟨m, rfl, (missing_iff_barren events).1 ⟨n, hm⟩⟩
        rcases hdec with ⟨rfl, -⟩ | ⟨-, hr⟩ | ⟨m, rfl, hm, -⟩
        · exact ⟨l, .refl, pre, post, hes, hclear⟩
        · cases hr
        · obtain ⟨l', hpath, hfinds⟩ := ih hm
          exact ⟨l', .head ⟨pre, post, hes, hclear⟩ hpath, hfinds⟩
  · rintro ⟨l', hpath, pre, post, hes, hclear⟩
    induction hpath using ReflTransGen.head_induction_on with
    | refl =>
      obtain ⟨n, hn⟩ := hclear.exists_passed
      refine ⟨n + 1, ?_⟩
      rw [search, hes, scan_append (hn n le_rfl)]
      rfl
    | @head l m hstep _ ih =>
      obtain ⟨pre, post, hes, hclear⟩ := hstep
      obtain ⟨n, hn⟩ := hclear.exists_passed
      obtain ⟨k, hk⟩ := ih
      refine ⟨max n k + 1, ?_⟩
      rw [search, hes, scan_append (hn _ (Nat.le_max_left n k)), scan,
        search_mono events (Nat.le_max_right n k) hk]

end

/-- On finitely many points a relation has no endless chain exactly when it does
not come around. -/
theorem acc_iff_no_cycle {r : L → L → Prop} {U : Set L} (hU : U.Finite) {l : L}
    (hl : ∀ l', ReflTransGen r l l' → l' ∈ U) :
    Acc (fun a b => r b a) l ↔ ¬ ∃ c, ReflTransGen r l c ∧ TransGen r c c := by
  constructor
  · intro hacc
    rintro ⟨c, hlc, hcc⟩
    have hc : Acc (fun a b => r b a) c := by
      clear hcc hl
      induction hlc with
      | refl => exact hacc
      | tail _ hbc ih => exact ih.inv hbc
    have hloop : ∀ x, Acc (fun a b => TransGen r b a) x → ¬ TransGen r x x := by
      intro x hx
      induction hx with
      | intro x _ ih => exact fun hxx => ih x hxx hxx
    refine hloop c ?_ hcc
    have htrans := hc.transGen
    refine Subrelation.accessible ?_ htrans
    intro a b hab
    exact Relation.transGen_swap.1 hab
  · intro hno
    -- the points that can be reached are finitely many, and `r` strictly orders them
    have hfin : Finite {x // ReflTransGen r l x} := (hU.subset fun x hx => hl x hx).to_subtype
    let s : {x // ReflTransGen r l x} → {x // ReflTransGen r l x} → Prop :=
      fun a b => TransGen r b.1 a.1
    have htrans : IsTrans _ s := ⟨fun a b c hab hbc => hbc.trans hab⟩
    have hirrefl : Std.Irrefl s := ⟨fun a ha => hno ⟨a.1, a.2, ha⟩⟩
    have hwf : WellFounded s := Finite.wellFounded_of_trans_of_irrefl s
    have hacc : ∀ a : {x // ReflTransGen r l x}, Acc (fun a b => r b a) a.1 := by
      intro a
      induction a using hwf.induction with
      | _ a ih =>
        refine ⟨a.1, fun b hb => ?_⟩
        exact ih ⟨b, a.2.tail hb⟩ (.single hb)
    exact hacc ⟨l, .refl⟩

/-- What a search goes on to is where it may come to, apart from its start. -/
theorem Reach.eq_or {events : L → List (Event L)} {P : L → Prop}
    (hP : ∀ a b, Follows events a b → P b) {l l' : L} (h : Reach events l l') :
    l' = l ∨ P l' := by
  rcases h.cases_tail with rfl | ⟨m, -, hm⟩
  · exact Or.inl rfl
  · exact Or.inr (hP m l' hm)

/-- A search that goes on to finitely many levels ends exactly when the levels it
explores do not come around. -/
theorem ends_iff_no_cycle {events : L → List (Event L)} {U : Set L} (hU : U.Finite)
    (hfollows : ∀ a b, Follows events a b → b ∈ U) (l : L) :
    Ends events l ↔
      ¬ ∃ c, ReflTransGen (Explores events) l c ∧ TransGen (Explores events) c c := by
  rw [ends_iff_acc]
  apply acc_iff_no_cycle ((Set.finite_singleton l).union hU)
  intro l' hl'
  have hreach : Reach events l l' :=
    ReflTransGen.mono (fun a b hab => Explores.follows events hab) _ _ hl'
  exact hreach.eq_or hfollows

/-- A search that goes to a level whose search goes to itself does not end. -/
theorem not_ends_of_loop {events : L → List (Event L)} {l c : L} (hl : events l = [.descend c])
    (hc : events c = [.descend c]) : ¬ Ends events l := by
  have hone : ∀ {a : L}, events a = [.descend c] → Explores events a c := by
    intro a ha
    exact ⟨[], [], ha, fun e he => absurd he List.not_mem_nil⟩
  intro h
  have hacc : Acc (fun a b => Explores events b a) c := ((ends_iff_acc events l).1 h).inv (hone hl)
  induction hacc with
  | intro c _ ih => exact ih c (hone hc) hl hc hone

/-- A search ends where no chain of levels is endless. -/
theorem ends_of_acc {events : L → List (Event L)} {l : L}
    (h : Acc (fun a b => Follows events b a) l) : Ends events l := by
  rw [ends_iff_acc]
  exact Subrelation.accessible (fun hab => Explores.follows events hab) h

end DeepSearch
