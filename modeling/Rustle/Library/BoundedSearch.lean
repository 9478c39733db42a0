import Mathlib

/-!
# Depth-first search with one set and a bounded depth

A recursion that inserts what it meets in a set passed along by reference, and goes
on from it with one unit of depth less; what the set holds is not gone on from again.

* `search` — the search; `entries` keeps with each value the depth that was left.
* `Chain` — a value is a number of steps away.
* `Entered` — what a search adds: chains of the right length, and every step from a
  value that was entered with some depth left.
* `search_complete_iff` — the search finds **everything** within its depth exactly when
  nothing is lost behind a value that is entered with no depth left.
* `Meets`, `search_complete` — it does if nothing that it comes to again has more depth
  left than it was entered with.
-/

namespace BoundedSearch

variable {α : Type} [DecidableEq α] (next : α → List α)

/-- The search from `a` down to a depth. -/
def search : Nat → α → List α → List α
  | 0, _, set => set
  | depth + 1, a, set =>
    (next a).foldl (fun set b => if b ∈ set then set else search depth b (b :: set)) set

/-- The search, with the depth left at each value. -/
def entries : Nat → α → List (α × Nat) → List (α × Nat)
  | 0, _, set => set
  | depth + 1, a, set =>
    (next a).foldl (fun set b =>
      if b ∈ set.map Prod.fst then set else entries depth b ((b, depth) :: set)) set

/-- The value `b` is `k` steps away from `a`. -/
def Chain (next : α → List α) : Nat → α → α → Prop
  | 0, b, a => b = a
  | k + 1, b, a => ∃ c, b ∈ next c ∧ Chain next k c a

theorem map_entries (depth : Nat) (a : α) (set : List (α × Nat)) :
    (entries next depth a set).map Prod.fst = search next depth a (set.map Prod.fst) := by
  induction depth generalizing a set with
  | zero => rfl
  | succ depth ih =>
    rw [entries, search]
    generalize next a = bs
    induction bs generalizing set with
    | nil => rfl
    | cons b bs ihbs =>
      rw [List.foldl_cons, List.foldl_cons, ihbs]
      congr 1
      by_cases hb : b ∈ set.map Prod.fst
      · rw [if_pos hb, if_pos hb]
      · rw [if_neg hb, if_neg hb, ih, List.map_cons]

variable {next}

omit [DecidableEq α] in
/-- One more step at the near end. -/
theorem Chain.snoc {k : Nat} {b c a : α} (h : Chain next k b c) (hc : c ∈ next a) :
    Chain next (k + 1) b a := by
  induction k generalizing b with
  | zero =>
    rw [Chain] at h
    subst h
    exact ⟨a, hc, rfl⟩
  | succ k ih =>
    obtain ⟨e, he, hchain⟩ := h
    exact ⟨e, he, ih hchain⟩

/-! ## What a search adds -/

/-- What stands in `set'` but not in `set` was entered by a search from `a` with the
depth `d`. -/
structure Entered (next : α → List α) (d : Nat) (a : α) (set set' : List (α × Nat)) : Prop where
  subset : set ⊆ set'
  chain : ∀ p ∈ set', p ∉ set → p.2 < d ∧ Chain next (d - p.2) p.1 a
  origin : ∀ p ∈ set', p ∉ set → ∃ q ∈ (a, d) :: set', q.2 = p.2 + 1 ∧ p.1 ∈ next q.1
  closed : ∀ p ∈ set', p ∉ set → 0 < p.2 → ∀ b ∈ next p.1, b ∈ set'.map Prod.fst

omit [DecidableEq α] in
theorem Entered.refl (d : Nat) (a : α) (set : List (α × Nat)) : Entered next d a set set where
  subset := List.Subset.refl _
  chain _ hp hnew := absurd hp hnew
  origin _ hp hnew := absurd hp hnew
  closed _ hp hnew := absurd hp hnew

omit [DecidableEq α] in
theorem Entered.trans {d : Nat} {a : α} {set mid set' : List (α × Nat)}
    (h : Entered next d a set mid) (h' : Entered next d a mid set') :
    Entered next d a set set' where
  subset := List.Subset.trans h.subset h'.subset
  chain p hp hnew := by
    by_cases hmid : p ∈ mid
    · exact h.chain p hmid hnew
    · exact h'.chain p hp hmid
  origin p hp hnew := by
    by_cases hmid : p ∈ mid
    · obtain ⟨q, hq, hrest⟩ := h.origin p hmid hnew
      exact ⟨q, List.cons_subset_cons _ h'.subset hq, hrest⟩
    · exact h'.origin p hp hmid
  closed p hp hnew hpos b hb := by
    by_cases hmid : p ∈ mid
    · exact List.map_subset _ h'.subset (h.closed p hmid hnew hpos b hb)
    · exact h'.closed p hp hmid hpos b hb

/-- The search from a value that the set does not hold yet. -/
theorem Entered.of_next {d : Nat} {a b : α} {set set' : List (α × Nat)}
    (h : Entered next d b ((b, d) :: set) set')
    (hstart : 0 < d → ∀ c ∈ next b, c ∈ set'.map Prod.fst) (hb : b ∈ next a) :
    Entered next (d + 1) a set set' where
  subset := (List.cons_subset.1 h.subset).2
  chain p hp hnew := by
    by_cases hpb : p = (b, d)
    · subst hpb
      refine ⟨Nat.lt_succ_self d, ?_⟩
      rw [show d + 1 - d = 0 + 1 from by omega]
      exact ⟨a, hb, rfl⟩
    · obtain ⟨hlt, hchain⟩ := h.chain p hp (by simp [hpb, hnew])
      refine ⟨by omega, ?_⟩
      rw [show d + 1 - p.2 = d - p.2 + 1 from by omega]
      exact hchain.snoc hb
  origin p hp hnew := by
    by_cases hpb : p = (b, d)
    · subst hpb
      exact ⟨(a, d + 1), List.mem_cons_self .., rfl, hb⟩
    · obtain ⟨q, hq, hrest⟩ := h.origin p hp (by simp [hpb, hnew])
      have hq' : q ∈ set' := by
        rcases List.mem_cons.1 hq with rfl | hq
        · exact h.subset (List.mem_cons_self ..)
        · exact hq
      exact ⟨q, List.mem_cons_of_mem _ hq', hrest⟩
  closed p hp hnew hpos c hc := by
    by_cases hpb : p = (b, d)
    · subst hpb
      exact hstart hpos c hc
    · exact h.closed p hp (by simp [hpb, hnew]) hpos c hc

/-- A search adds what it enters, and everything one step from its start. -/
theorem entries_spec (d : Nat) (a : α) (set : List (α × Nat)) :
    Entered next d a set (entries next d a set) ∧
      (0 < d → ∀ b ∈ next a, b ∈ (entries next d a set).map Prod.fst) := by
  induction d generalizing a set with
  | zero => exact ⟨Entered.refl 0 a set, fun h => absurd h (Nat.lt_irrefl 0)⟩
  | succ d ih =>
    rw [entries]
    have hloop := loop ih (next a) (fun b hb => hb) set
    exact ⟨hloop.1, fun _ => hloop.2⟩
where
  /-- The loop over the values one step away. -/
  loop {d : Nat} {a : α} (ih : ∀ a set, Entered next d a set (entries next d a set) ∧
      (0 < d → ∀ b ∈ next a, b ∈ (entries next d a set).map Prod.fst))
      (bs : List α) (hbs : ∀ b ∈ bs, b ∈ next a) (set : List (α × Nat)) :
      Entered next (d + 1) a set (bs.foldl (fun set b =>
        if b ∈ set.map Prod.fst then set else entries next d b ((b, d) :: set)) set) ∧
      ∀ b ∈ bs, b ∈ (bs.foldl (fun set b =>
        if b ∈ set.map Prod.fst then set else entries next d b ((b, d) :: set)) set).map
          Prod.fst := by
    induction bs generalizing set with
    | nil => exact ⟨Entered.refl _ _ _, by simp⟩
    | cons b bs ihbs =>
      rw [List.forall_mem_cons] at hbs
      rw [List.foldl_cons, List.forall_mem_cons]
      by_cases hb : b ∈ set.map Prod.fst
      · rw [if_pos hb]
        obtain ⟨hent, hall⟩ := ihbs hbs.2 set
        exact ⟨hent, List.map_subset _ hent.subset hb, hall⟩
      · rw [if_neg hb]
        have hstep := Entered.of_next (ih b ((b, d) :: set)).1 (ih b ((b, d) :: set)).2 hbs.1
        obtain ⟨hent, hall⟩ := ihbs hbs.2 (entries next d b ((b, d) :: set))
        refine ⟨hstep.trans hent, List.map_subset _ hent.subset ?_, hall⟩
        exact List.mem_map.2 ⟨(b, d), (ih b ((b, d) :: set)).1.subset (List.mem_cons_self ..), rfl⟩

/-! ## What a search misses -/

/-- A search from the empty set. -/
def found (next : α → List α) (d : Nat) (a : α) : List (α × Nat) := entries next d a []

/-- Whatever is one step from a value that the search enters with no depth left, and
that is fewer than `d` steps from the start, is also one step from a value that it
enters with some depth left, or from the start. -/
def NothingCutOff (next : α → List α) (d : Nat) (a : α) : Prop :=
  ∀ c, (c, 0) ∈ found next d a → (∃ k, 1 ≤ k ∧ k < d ∧ Chain next k c a) → ∀ b ∈ next c,
    ∃ q ∈ (a, d) :: found next d a, 0 < q.2 ∧ b ∈ next q.1

theorem mem_search_iff_found {d : Nat} {a b : α} :
    b ∈ search next d a [] ↔ ∃ r, (b, r) ∈ found next d a := by
  have h := map_entries next d a []
  rw [List.map_nil] at h
  rw [← h, List.mem_map]
  constructor
  · rintro ⟨p, hp, rfl⟩
    exact ⟨p.2, hp⟩
  · rintro ⟨r, hr⟩
    exact ⟨(b, r), hr, rfl⟩

/-- What is found is within the depth. -/
theorem exists_chain_of_mem {d : Nat} {a b : α} (h : b ∈ search next d a []) :
    ∃ k, 1 ≤ k ∧ k ≤ d ∧ Chain next k b a := by
  obtain ⟨r, hr⟩ := mem_search_iff_found.1 h
  obtain ⟨hlt, hchain⟩ := (entries_spec d a []).1.chain (b, r) hr List.not_mem_nil
  exact ⟨d - r, by simp only at hlt; omega, Nat.sub_le d r, hchain⟩

/-- The search finds what is one step from a value entered with some depth left. -/
theorem mem_search_of_next {d : Nat} {a b : α} {q : α × Nat}
    (hq : q ∈ (a, d) :: found next d a) (hpos : 0 < q.2) (hb : b ∈ next q.1) :
    b ∈ search next d a [] := by
  have hspec : Entered next d a [] (entries next d a []) ∧
      (0 < d → ∀ b ∈ next a, b ∈ (entries next d a []).map Prod.fst) := entries_spec d a []
  have hmem : b ∈ (entries next d a []).map Prod.fst := by
    rcases List.mem_cons.1 hq with rfl | hq
    · exact hspec.2 hpos b hb
    · exact hspec.1.closed q hq List.not_mem_nil hpos b hb
  rwa [map_entries, List.map_nil] at hmem

/-- The search finds exactly what is within its depth if and only if nothing is cut
off. -/
theorem search_complete_iff (d : Nat) (a : α) :
    (∀ b, b ∈ search next d a [] ↔ ∃ k, 1 ≤ k ∧ k ≤ d ∧ Chain next k b a) ↔
      NothingCutOff next d a := by
  constructor
  · intro hall c hc hchain b hb
    obtain ⟨k, hk, hkd, hchain⟩ := hchain
    have hfound := (hall b).2 ⟨k + 1, by omega, by omega, c, hb, hchain⟩
    obtain ⟨r, hr⟩ := mem_search_iff_found.1 hfound
    obtain ⟨q, hq, hleft, hnext⟩ := (entries_spec d a []).1.origin (b, r) hr List.not_mem_nil
    exact ⟨q, hq, by omega, hnext⟩
  · intro hcut b
    refine ⟨exists_chain_of_mem, ?_⟩
    rintro ⟨k, hk, hkd, hchain⟩
    induction k generalizing b with
    | zero => omega
    | succ k ih =>
      obtain ⟨c, hb, hchain'⟩ := hchain
      cases k with
      | zero =>
        rw [Chain] at hchain'
        subst hchain'
        exact mem_search_of_next (List.mem_cons_self ..) (by simp only; omega) hb
      | succ k =>
        obtain ⟨r, hr⟩ := mem_search_iff_found.1 (ih c (by omega) (by omega) hchain')
        cases r with
        | zero =>
          obtain ⟨q, hq, hpos, hnext⟩ := hcut c hr ⟨k + 1, by omega, by omega, hchain'⟩ b hb
          exact mem_search_of_next hq hpos hnext
        | succ r =>
          exact mem_search_of_next (List.mem_cons_of_mem _ hr) (Nat.succ_pos r) hb

/-! ## What is met again -/

/-- One step of the loop over the values one step away. -/
def visit (next : α → List α) (d : Nat) (set : List (α × Nat)) (b : α) : List (α × Nat) :=
  if b ∈ set.map Prod.fst then set else entries next d b ((b, d) :: set)

/-- The loop over `bs`, with the depth `d` left behind each of them, comes to `c` with the
depth `r` left behind it; `s` is the set at this time. -/
inductive Meets (next : α → List α) :
    Nat → List α → List (α × Nat) → α → Nat → List (α × Nat) → Prop where
  | here {d : Nat} {b : α} {bs : List α} {set : List (α × Nat)} : Meets next d (b :: bs) set b d set
  | into {d r : Nat} {b c : α} {bs : List α} {set s : List (α × Nat)}
      (hnew : b ∉ set.map Prod.fst) (h : Meets next d (next b) ((b, d + 1) :: set) c r s) :
      Meets next (d + 1) (b :: bs) set c r s
  | on {d r : Nat} {b c : α} {bs : List α} {set s : List (α × Nat)}
      (h : Meets next d bs (visit next d set b) c r s) : Meets next d (b :: bs) set c r s

/-- Nothing that the loop comes to has more depth left than it was entered with. -/
def NeverDeeper (next : α → List α) (d : Nat) (bs : List α) (set : List (α × Nat)) : Prop :=
  ∀ c r s, Meets next d bs set c r s → ∀ p ∈ s, p.1 = c → r ≤ p.2

/-- Whatever is one step from a value entered with some depth left is entered too, with as
much depth left or more. -/
structure Settled (next : α → List α) (set set' : List (α × Nat)) : Prop where
  subset : set ⊆ set'
  closed : ∀ p ∈ set', p ∉ set → ∀ r, p.2 = r + 1 → ∀ b ∈ next p.1, ∃ q ∈ set', q.1 = b ∧ r ≤ q.2

omit [DecidableEq α] in
theorem Settled.trans {set mid set' : List (α × Nat)} (h : Settled next set mid)
    (h' : Settled next mid set') : Settled next set set' where
  subset := List.Subset.trans h.subset h'.subset
  closed p hp hnew r hr b hb := by
    by_cases hmid : p ∈ mid
    · obtain ⟨q, hq, hqb⟩ := h.closed p hmid hnew r hr b hb
      exact ⟨q, h'.subset hq, hqb⟩
    · exact h'.closed p hp hmid r hr b hb

/-- A search in which nothing is met again with more depth left. -/
theorem entries_settled (d : Nat) (a : α) (set : List (α × Nat))
    (h : ∀ e, d = e + 1 → NeverDeeper next e (next a) set) :
    Settled next set (entries next d a set) ∧
      ∀ e, d = e + 1 → ∀ b ∈ next a, ∃ q ∈ entries next d a set, q.1 = b ∧ e ≤ q.2 := by
  induction d generalizing a set with
  | zero => exact ⟨⟨List.Subset.refl _, fun p hp hnew => absurd hp hnew⟩, fun e he => by omega⟩
  | succ d ih =>
    obtain ⟨hsettled, hall⟩ := loop ih (next a) set (h d rfl)
    refine ⟨hsettled, fun e he => ?_⟩
    obtain rfl : d = e := by omega
    exact hall
where
  /-- The loop over the values one step away. -/
  loop {d : Nat} (ih : ∀ a set, (∀ e, d = e + 1 → NeverDeeper next e (next a) set) →
      Settled next set (entries next d a set) ∧
        ∀ e, d = e + 1 → ∀ b ∈ next a, ∃ q ∈ entries next d a set, q.1 = b ∧ e ≤ q.2)
      (bs : List α) (set : List (α × Nat)) (h : NeverDeeper next d bs set) :
      Settled next set (bs.foldl (visit next d) set) ∧
        ∀ b ∈ bs, ∃ q ∈ bs.foldl (visit next d) set, q.1 = b ∧ d ≤ q.2 := by
    induction bs generalizing set with
    | nil => exact ⟨⟨List.Subset.refl _, fun p hp hnew => absurd hp hnew⟩, by simp⟩
    | cons b bs ihbs =>
      have hstep : Settled next set (visit next d set b) ∧
          ∃ q ∈ visit next d set b, q.1 = b ∧ d ≤ q.2 := by
        unfold visit
        by_cases hb : b ∈ set.map Prod.fst
        · rw [if_pos hb]
          obtain ⟨q, hq, hqb⟩ := List.mem_map.1 hb
          exact ⟨⟨List.Subset.refl _, fun p hp hnew => absurd hp hnew⟩,
            q, hq, hqb, h b d set .here q hq hqb⟩
        · rw [if_neg hb]
          obtain ⟨hsettled, hstart⟩ := ih b ((b, d) :: set) fun e he c r s hmeets =>
            h c r s (by subst he; exact .into hb hmeets)
          obtain ⟨hmem, hsub⟩ := List.cons_subset.1 hsettled.subset
          refine ⟨⟨hsub, fun p hp hnew r hr => ?_⟩, (b, d), hmem, rfl, le_rfl⟩
          by_cases hpb : p = (b, d)
          · subst hpb
            exact hstart r hr
          · exact hsettled.closed p hp (by simp [hpb, hnew]) r hr
      obtain ⟨hsettled, hall⟩ := ihbs (visit next d set b) fun c r s hmeets => h c r s (.on hmeets)
      obtain ⟨hfirst, q, hq, hqb⟩ := hstep
      rw [List.foldl_cons, List.forall_mem_cons]
      exact ⟨hfirst.trans hsettled, ⟨q, hsettled.subset hq, hqb⟩, hall⟩

/-- If nothing is met again with more depth left than it was entered with, the search finds
exactly what is within its depth. -/
theorem search_complete {d : Nat} {a : α} (h : ∀ e, d = e + 1 → NeverDeeper next e (next a) [])
    (b : α) : b ∈ search next d a [] ↔ ∃ k, 1 ≤ k ∧ k ≤ d ∧ Chain next k b a := by
  refine ⟨exists_chain_of_mem, ?_⟩
  obtain ⟨hsettled, hstart⟩ := entries_settled d a [] h
  rintro ⟨k, hk, hkd, hchain⟩
  -- a value `k` steps away is entered with at least `d - k` left
  have hentered : ∃ q ∈ entries next d a [], q.1 = b ∧ d - k ≤ q.2 := by
    induction k generalizing b with
    | zero => omega
    | succ k ih =>
      obtain ⟨c, hb, hchain'⟩ := hchain
      cases k with
      | zero =>
        rw [Chain] at hchain'
        subst hchain'
        exact hstart (d - 1) (by omega) b hb
      | succ k =>
        obtain ⟨p, hp, rfl, hleft⟩ := ih c (by omega) (by omega) hchain'
        obtain ⟨q, hq, hqb, hqr⟩ := hsettled.closed p hp List.not_mem_nil (p.2 - 1) (by omega) b hb
        exact ⟨q, hq, hqb, by omega⟩
  obtain ⟨q, hq, hqb, -⟩ := hentered
  exact mem_search_iff_found.2 ⟨q.2, hqb ▸ hq⟩

end BoundedSearch
