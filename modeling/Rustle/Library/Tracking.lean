import Mathlib

/-!
# Numbers that follow marks

Some slots have a key and a number each.  The marks of a list are read one after the
other; a mark names a key, and the first slot of this key whose number is at most `d` off
takes the place of the mark as its number.

* `step`, `run` — the rounds.
* `Takes` — a slot takes a mark; `number_succ_of_takes`, `number_succ_of_not_takes`.
* `Fits` — a slot that ends at a place that is given: a condition on the marks and on the
  numbers at the start.
* `run_own_iff` — all slots end at the places given exactly when each of them fits.
* `takes_iff_belongs` — the places that a slot takes, without the run.
-/

namespace Tracking

/-- A slot. -/
structure Slot (κ : Type) where
  key : κ
  number : Int

section

variable {κ : Type} [DecidableEq κ] (d : Nat)

/-- The first slot that a mark may move: it has the key, and is at most `d` off. -/
def taker (n : Nat) (mark : Option κ) (slots : List (Slot κ)) : Option Nat :=
  slots.findIdx? fun r => mark = some r.key ∧ (r.number - (n : Int)).natAbs ≤ d

def Slot.moveTo (n : Nat) (r : Slot κ) : Slot κ := { r with number := n }

/-- What a place does to the slots. -/
def step (n : Nat) (mark : Option κ) (slots : List (Slot κ)) : List (Slot κ) :=
  match taker d n mark slots with
  | none => slots
  | some i => slots.modify i (Slot.moveTo n)

variable (marks : Nat → Option κ) (slots : List (Slot κ))

/-- The slots after the first places; the place at index `n` has the number `n + 1`. -/
def run : Nat → List (Slot κ)
  | 0 => slots
  | n + 1 => step d (n + 1) (marks n) (run n)

/-- The number of a slot after the first places. -/
def number (n i : Nat) : Int := (((run d marks slots n)[i]?).map Slot.number).getD 0

/-- The place with the number `n` names the key of the slot at `i`. -/
def Names (i n : Nat) : Prop :=
  ∃ k r, n = k + 1 ∧ slots[i]? = some r ∧ marks k = some r.key

/-- The place after the first `n` ones can be taken by the slot at `i`. -/
def Near (n i : Nat) : Prop :=
  Names marks slots i (n + 1) ∧ (number d marks slots n i - (n + 1 : Int)).natAbs ≤ d

/-- It is taken by it. -/
def Takes (n i : Nat) : Prop :=
  Near d marks slots n i ∧ ∀ j < i, ¬ Near d marks slots n j

/-! ## One round -/

variable {d marks slots}

theorem step_length (n : Nat) (mark : Option κ) (slots : List (Slot κ)) :
    (step d n mark slots).length = slots.length := by
  rw [step]
  split
  · rfl
  · exact List.length_modify _ _ _

theorem step_key (n : Nat) (mark : Option κ) (slots : List (Slot κ)) (i : Nat) :
    (step d n mark slots)[i]?.map Slot.key = slots[i]?.map Slot.key := by
  rw [step]
  split
  · rfl
  · rename_i j _
    rw [List.getElem?_modify]
    by_cases h : j = i
    · cases slots[i]? with
      | none => rfl
      | some r => simp [h, Slot.moveTo]
    · simp [h]

theorem run_length (n : Nat) : (run d marks slots n).length = slots.length := by
  induction n with
  | zero => rfl
  | succ n ih => rw [run, step_length, ih]

theorem run_key (n i : Nat) :
    (run d marks slots n)[i]?.map Slot.key = slots[i]?.map Slot.key := by
  induction n with
  | zero => rfl
  | succ n ih => rw [run, step_key, ih]

/-- Whether the slot at an index is near, read off the slots. -/
theorem near_iff {n i : Nat} {r : Slot κ} (hr : (run d marks slots n)[i]? = some r) :
    Near d marks slots n i ↔
      marks n = some r.key ∧ (r.number - ((n + 1 : Nat) : Int)).natAbs ≤ d := by
  have hkey := @run_key κ _ d marks slots n i
  rw [hr, Option.map_some] at hkey
  obtain ⟨r', hr', hkey'⟩ := Option.map_eq_some_iff.1 hkey.symm
  rw [Near, number, hr, Option.map_some, Option.getD_some]
  push_cast
  refine and_congr_left fun _ => ?_
  constructor
  · rintro ⟨k, r'', hk, hr'', hmark⟩
    obtain rfl : n = k := by omega
    rw [hr', Option.some.injEq] at hr''
    rw [hmark, ← hr'', hkey']
  · intro h
    exact ⟨n, r', rfl, hr', by rw [h, hkey']⟩

omit [DecidableEq κ] in
theorem Names.lt {i n : Nat} (h : Names marks slots i n) : i < slots.length := by
  obtain ⟨k, r, -, hr, -⟩ := h
  exact (List.getElem?_eq_some_iff.1 hr).1

theorem exists_run {i : Nat} (h : i < slots.length) (n : Nat) :
    ∃ r, (run d marks slots n)[i]? = some r :=
  ⟨_, List.getElem?_eq_getElem (by rw [run_length]; exact h)⟩

/-- A place that some slot is near to is taken. -/
theorem exists_takes {n i : Nat} (h : Near d marks slots n i) :
    ∃ j ≤ i, Takes d marks slots n j := by
  induction i using Nat.strong_induction_on with
  | _ i ih =>
    by_cases hfirst : ∀ j < i, ¬ Near d marks slots n j
    · exact ⟨i, le_refl i, h, hfirst⟩
    · push Not at hfirst
      obtain ⟨j, hj, hnear⟩ := hfirst
      obtain ⟨j', hj', htakes⟩ := ih j hj hnear
      exact ⟨j', le_trans hj' hj.le, htakes⟩

theorem Takes.unique {n i j : Nat} (hi : Takes d marks slots n i) (hj : Takes d marks slots n j) :
    i = j := by
  rcases lt_trichotomy i j with h | h | h
  · exact absurd hi.1 (hj.2 i h)
  · exact h
  · exact absurd hj.1 (hi.2 j h)

theorem taker_eq_some_iff {n i : Nat} :
    taker d (n + 1) (marks n) (run d marks slots n) = some i ↔ Takes d marks slots n i := by
  rw [taker, List.findIdx?_eq_some_iff_getElem, Takes]
  constructor
  · rintro ⟨hi, hnear, hfirst⟩
    refine ⟨(near_iff (List.getElem?_eq_getElem hi)).2 (by simpa using hnear), fun j hj => ?_⟩
    rw [near_iff (List.getElem?_eq_getElem (by omega))]
    simpa using hfirst j hj
  · rintro ⟨hnear, hfirst⟩
    have hi : i < (run d marks slots n).length := by
      rw [run_length]
      exact hnear.1.lt
    refine ⟨hi, by simpa using (near_iff (List.getElem?_eq_getElem hi)).1 hnear, fun j hj => ?_⟩
    have hnot := hfirst j hj
    rw [near_iff (List.getElem?_eq_getElem (by omega))] at hnot
    simpa using hnot

theorem number_succ_of_takes {n i : Nat} (h : Takes d marks slots n i) :
    number d marks slots (n + 1) i = n + 1 := by
  obtain ⟨r, hr⟩ := @exists_run κ _ d marks slots i h.1.1.lt n
  rw [number, run, step, taker_eq_some_iff.2 h]
  dsimp only
  rw [List.getElem?_modify, hr]
  simp [Slot.moveTo]

theorem number_succ_of_not_takes {n i : Nat} (h : ¬ Takes d marks slots n i) :
    number d marks slots (n + 1) i = number d marks slots n i := by
  rw [number, run, step]
  split
  · rfl
  · rename_i j hj
    have hne : j ≠ i := by
      rintro rfl
      exact h (taker_eq_some_iff.1 hj)
    rw [List.getElem?_modify]
    simp [hne, number]

/-! ## What a number can be -/

/-- A number that was taken from a mark does not go back. -/
theorem le_number_of_takes {m n i : Nat} (h : Takes d marks slots m i) (hmn : m < n) :
    (m + 1 : Int) ≤ number d marks slots n i := by
  induction n with
  | zero => omega
  | succ n ih =>
    by_cases htakes : Takes d marks slots n i
    · rw [number_succ_of_takes htakes]
      omega
    · rw [number_succ_of_not_takes htakes]
      rcases Nat.lt_succ_iff_lt_or_eq.1 hmn with hlt | rfl
      · exact ih hlt
      · exact absurd h htakes

/-- A number that no mark changes from one place to another. -/
theorem number_eq_of_not_takes {m n i : Nat} (hmn : m ≤ n)
    (h : ∀ k, m ≤ k → k < n → ¬ Takes d marks slots k i) :
    number d marks slots n i = number d marks slots m i := by
  induction n, hmn using Nat.le_induction with
  | base => rfl
  | succ n hmn ih =>
    rw [number_succ_of_not_takes (h n hmn (by omega))]
    exact ih fun k hk hkn => h k hk (by omega)

/-- A number is the one at the start, or that of the last mark that was taken. -/
theorem number_cases (n i : Nat) :
    ((∀ m < n, ¬ Takes d marks slots m i) ∧
        number d marks slots n i = number d marks slots 0 i) ∨
      ∃ m < n, Takes d marks slots m i ∧ number d marks slots n i = m + 1 ∧
        ∀ k, m < k → k < n → ¬ Takes d marks slots k i := by
  induction n with
  | zero => exact Or.inl ⟨fun m hm => absurd hm (Nat.not_lt_zero m), rfl⟩
  | succ n ih =>
    by_cases htakes : Takes d marks slots n i
    · exact Or.inr ⟨n, by omega, htakes, number_succ_of_takes htakes,
        fun k hk hkn => by omega⟩
    · rw [number_succ_of_not_takes htakes]
      have hlast : ∀ k, k < n + 1 → ¬ k < n → ¬ Takes d marks slots k i := by
        intro k hk hkn
        obtain rfl : k = n := by omega
        exact htakes
      rcases ih with ⟨hnone, hnumber⟩ | ⟨m, hm, hm', hnumber, hafter⟩
      · refine Or.inl ⟨fun m hm => ?_, hnumber⟩
        by_cases hmn : m < n
        · exact hnone m hmn
        · exact hlast m hm hmn
      · refine Or.inr ⟨m, by omega, hm', hnumber, fun k hk hkn => ?_⟩
        by_cases hlt : k < n
        · exact hafter k hk hlt
        · exact hlast k hkn hlt

/-- A number that lies too far back stays. -/
theorem number_stays {m n i : Nat} (hmn : m ≤ n)
    (hfar : ∀ k, m ≤ k → k < n → Names marks slots i (k + 1) →
      number d marks slots m i + d < k + 1) :
    number d marks slots n i = number d marks slots m i := by
  induction n, hmn using Nat.le_induction with
  | base => rfl
  | succ n hmn ih =>
    have hih := ih fun k hk hkn => hfar k hk (by omega)
    rw [number_succ_of_not_takes, hih]
    rintro ⟨hnear, -⟩
    have hfar' := hfar n hmn (by omega) hnear.1
    have hclose := hnear.2
    rw [hih] at hclose
    omega

/-! ## Which slots end where they should -/

variable (d marks slots)

/-- The place may move the slot at `i`: it is not far above the number at the start, and
behind the places where the slots of this key before it end. -/
structure Candidate (own : Nat → Nat) (i n : Nat) : Prop where
  names : Names marks slots i n
  not_above : number d marks slots 0 i ≤ n + d
  behind : ∀ j < i, Names marks slots j n → own j < n

/-- The marks lead the slot at `i` to the place that is given. -/
structure Led (own : Nat → Nat) (i : Nat) : Prop where
  own_candidate : Candidate d marks slots own i (own i)
  start : ∃ n, Candidate d marks slots own i n ∧ (n : Int) ≤ number d marks slots 0 i + d
  linked : ∀ n, Candidate d marks slots own i n → n < own i →
    ∃ n', Names marks slots i n' ∧ n < n' ∧ n' ≤ n + d
  last : ∀ n, Names marks slots i n → own i < n → own i + d < n

/-- The slot at `i` is at the place given from the start, and no mark moves it. -/
structure Untouched (own : Nat → Nat) (i : Nat) : Prop where
  number_eq : number d marks slots 0 i = own i
  far : ∀ n, Candidate d marks slots own i n → number d marks slots 0 i + d < n

def Fits (own : Nat → Nat) (i : Nat) : Prop :=
  Led d marks slots own i ∨ Untouched d marks slots own i

variable {d marks slots} {own : Nat → Nat}

omit [DecidableEq κ] in
theorem Names.exists_pred {i n : Nat} (h : Names marks slots i n) : ∃ k, n = k + 1 := by
  obtain ⟨k, r, hk, -⟩ := h
  exact ⟨k, hk⟩

omit [DecidableEq κ] in
/-- Two slots of one key are named by the same places. -/
theorem Names.of_names {i j m n : Nat} (hi : Names marks slots i m) (hj : Names marks slots j m)
    (h : Names marks slots i n) : Names marks slots j n := by
  obtain ⟨k, r, rfl, hr, hk⟩ := hi
  obtain ⟨k', s, hkk', hs, hk'⟩ := hj
  obtain rfl : k = k' := by omega
  obtain ⟨l, r', rfl, hr', hl⟩ := h
  rw [hr, Option.some.injEq] at hr'
  subst hr'
  rw [hk, Option.some.injEq] at hk'
  exact ⟨l, s, rfl, hs, by rw [hl, hk']⟩

/-! ### From the condition to the end -/

variable (d marks slots own) in
/-- The slot has not moved so far. -/
structure Unmoved (n i : Nat) : Prop where
  number_eq : number d marks slots n i = number d marks slots 0 i
  far : ∀ m ≤ n, Candidate d marks slots own i m → number d marks slots 0 i + d < m

variable (d marks slots own) in
/-- The slot has moved to a place, the last one so far that names it or its own. -/
structure Moved (n i m : Nat) : Prop where
  number_eq : number d marks slots n i = m
  candidate : Candidate d marks slots own i m
  le : m ≤ n
  le_own : m ≤ own i
  last : ∀ k, Names marks slots i k → m < k → k ≤ n → m = own i

variable (d marks slots own) in
def Kept (n i : Nat) : Prop :=
  Unmoved d marks slots own n i ∨ ∃ m, Moved d marks slots own n i m

/-- A slot that has moved is one that the marks lead. -/
theorem Moved.led {n i m : Nat} (h : Moved d marks slots own n i m)
    (hfits : Fits d marks slots own i) : Led d marks slots own i := by
  rcases hfits with hled | huntouched
  · exact hled
  · have hfar := huntouched.far m h.candidate
    have hown := huntouched.number_eq
    have hle := h.le_own
    omega

/-- Where a slot has moved to but not to its own place, its own place is still to come. -/
theorem Moved.lt_own {n i m : Nat} (h : Moved d marks slots own n i m)
    (hled : Led d marks slots own i) (hne : m ≠ own i) : n < own i := by
  by_contra hle
  have hlt := lt_of_le_of_ne h.le_own hne
  exact hne (h.last (own i) hled.own_candidate.names hlt (by omega))

/-- The next place is near to a slot that it is a candidate of and whose own place is to
come. -/
theorem near_of_candidate {n i : Nat} (hfits : Fits d marks slots own i)
    (hkept : Kept d marks slots own n i) (hcand : Candidate d marks slots own i (n + 1))
    (hown : n + 1 ≤ own i) : Near d marks slots n i := by
  refine ⟨hcand.names, ?_⟩
  have habove := hcand.not_above
  rcases hkept with hunmoved | ⟨m, hmoved⟩
  · rw [hunmoved.number_eq]
    rcases hfits with hled | huntouched
    · obtain ⟨c, hc, hle⟩ := hled.start
      have hnc : n < c := by
        by_contra hcn
        have := hunmoved.far c (by omega) hc
        omega
      push_cast at habove
      omega
    · have := huntouched.far (n + 1) hcand
      have := huntouched.number_eq
      push_cast at *
      omega
  · have hled := hmoved.led hfits
    have hle := hmoved.le
    obtain ⟨k, hk, hmk, hkd⟩ := hled.linked m hmoved.candidate (by omega)
    have hnk : n < k := by
      by_contra hkn
      have := hmoved.last k hk hmk (by omega)
      omega
    rw [hmoved.number_eq]
    omega

section

variable (hnumber : ∀ i j, i ≤ j → j < slots.length →
  number d marks slots 0 i ≤ number d marks slots 0 j)
  (hfits : ∀ i, i < slots.length → Fits d marks slots own i) {n : Nat}
  (hkept : ∀ i, i < slots.length → Kept d marks slots own n i)

include hnumber hfits hkept

/-- A slot takes only a candidate, and none behind its own place. -/
theorem candidate_of_takes {i : Nat} (h : Takes d marks slots n i) :
    Candidate d marks slots own i (n + 1) ∧ n + 1 ≤ own i := by
  have hi := h.1.1.lt
  have hnear := h.1.2
  have habove : number d marks slots 0 i ≤ ((n + 1 : Nat) : Int) + d := by
    rcases hkept i hi with hunmoved | ⟨m, hmoved⟩
    · rw [← hunmoved.number_eq]
      push_cast
      omega
    · have := hmoved.candidate.not_above
      have := hmoved.le
      push_cast
      omega
  -- an earlier slot whose own place is not passed would have taken it
  have hbehind : ∀ j < i, Names marks slots j (n + 1) → own j < n + 1 := by
    intro j
    induction j using Nat.strong_induction_on with
    | _ j ih =>
      intro hji hj
      by_contra hlt
      have hcand : Candidate d marks slots own j (n + 1) :=
        ⟨hj, le_trans (hnumber j i hji.le hi) habove, fun j' hj' hnames =>
          ih j' hj' (by omega) hnames⟩
      have hjlen : j < slots.length := by omega
      exact h.2 j hji (near_of_candidate (hfits j hjlen) (hkept j hjlen) hcand (by omega))
  have hcand : Candidate d marks slots own i (n + 1) := ⟨h.1.1, habove, hbehind⟩
  refine ⟨hcand, ?_⟩
  rcases hkept i hi with hunmoved | ⟨m, hmoved⟩
  · rw [hunmoved.number_eq] at hnear
    rcases hfits i hi with hled | huntouched
    · by_contra hlt
      have := hunmoved.far (own i) (by omega) hled.own_candidate
      omega
    · have := huntouched.far (n + 1) hcand
      push_cast at this
      omega
  · have hled := hmoved.led (hfits i hi)
    have hle := hmoved.le
    by_cases hm : m = own i
    · have := hled.last (n + 1) h.1.1 (by omega)
      rw [hmoved.number_eq] at hnear
      omega
    · exact hmoved.lt_own hled hm

theorem kept_succ {i : Nat} (hi : i < slots.length) : Kept d marks slots own (n + 1) i := by
  by_cases htakes : Takes d marks slots n i
  · obtain ⟨hcand, hle⟩ := candidate_of_takes hnumber hfits hkept htakes
    refine Or.inr ⟨n + 1, number_succ_of_takes htakes, hcand, le_refl _, hle, ?_⟩
    intro k _ hlt hle
    omega
  · have hnumber' := number_succ_of_not_takes htakes
    -- an earlier slot that takes the place is not past its own one
    have hother : Near d marks slots n i → ∃ j < i, Names marks slots j (n + 1) ∧ n + 1 ≤ own j := by
      intro hnear
      obtain ⟨j, hj, hjtakes⟩ := exists_takes hnear
      have hji : j ≠ i := by
        rintro rfl
        exact htakes hjtakes
      exact ⟨j, by omega, hjtakes.1.1, (candidate_of_takes hnumber hfits hkept hjtakes).2⟩
    rcases hkept i hi with hunmoved | ⟨m, hmoved⟩
    · refine Or.inl ⟨by rw [hnumber', hunmoved.number_eq], fun m hm hcand => ?_⟩
      by_cases hmn : m ≤ n
      · exact hunmoved.far m hmn hcand
      · obtain rfl : m = n + 1 := by omega
        by_contra hle
        have habove := hcand.not_above
        have hnear : Near d marks slots n i := by
          refine ⟨hcand.names, ?_⟩
          rw [hunmoved.number_eq]
          push_cast at *
          omega
        obtain ⟨j, hj, hnames, hown⟩ := hother hnear
        have := hcand.behind j hj hnames
        omega
    · refine Or.inr ⟨m, by rw [hnumber', hmoved.number_eq], hmoved.candidate,
        by have := hmoved.le; omega, hmoved.le_own, fun k hk hmk hkn => ?_⟩
      by_cases hle : k ≤ n
      · exact hmoved.last k hk hmk hle
      · obtain rfl : k = n + 1 := by omega
        by_contra hne
        have hbehind : ∀ j < i, Names marks slots j (n + 1) → own j < m := fun j hj hnames =>
          hmoved.candidate.behind j hj (hk.of_names hnames hmoved.candidate.names)
        have habove := hmoved.candidate.not_above
        have hcand : Candidate d marks slots own i (n + 1) := by
          refine ⟨hk, by push_cast; omega, fun j hj hnames => ?_⟩
          have := hbehind j hj hnames
          omega
        have hown := hmoved.lt_own (hmoved.led (hfits i hi)) hne
        obtain ⟨j, hj, hnames, hle'⟩ := hother
          (near_of_candidate (hfits i hi) (Or.inr ⟨m, hmoved⟩) hcand hown)
        have := hbehind j hj hnames
        omega

end

section

variable (hnumber : ∀ i j, i ≤ j → j < slots.length →
  number d marks slots 0 i ≤ number d marks slots 0 j)

include hnumber

theorem kept_run (hfits : ∀ i, i < slots.length → Fits d marks slots own i) (n : Nat) :
    ∀ i, i < slots.length → Kept d marks slots own n i := by
  induction n with
  | zero =>
    intro i _
    refine Or.inl ⟨rfl, fun m hm hcand => ?_⟩
    obtain ⟨k, rfl⟩ := hcand.names.exists_pred
    omega
  | succ n ih => exact fun i hi => kept_succ hnumber hfits ih hi

variable {last : Nat} (hlast : ∀ i n, Names marks slots i n → n ≤ last)

include hlast

/-- Slots that fit end at their places. -/
theorem number_of_fits (hfits : ∀ i, i < slots.length → Fits d marks slots own i) {i : Nat}
    (hi : i < slots.length) : number d marks slots last i = own i := by
  rcases kept_run hnumber hfits last i hi with hunmoved | ⟨m, hmoved⟩
  · rw [hunmoved.number_eq]
    rcases hfits i hi with hled | huntouched
    · obtain ⟨n, hn, hle⟩ := hled.start
      have := hunmoved.far n (hlast i n hn.names) hn
      omega
    · exact huntouched.number_eq
  · have hled := hmoved.led (hfits i hi)
    have hend := hlast i (own i) hled.own_candidate.names
    rw [hmoved.number_eq]
    by_contra hne
    have := hmoved.lt_own hled (by omega)
    omega

/-! ### From the end to the condition -/

variable (hown : ∀ i j, i ≤ j → j < slots.length → own i ≤ own j)
  (hend : ∀ i, i < slots.length → number d marks slots last i = own i)

include hend

omit hnumber hlast in
/-- No slot takes a place behind its own one. -/
theorem le_own_of_takes {m i : Nat} (h : Takes d marks slots m i) (hm : m < last) :
    m + 1 ≤ own i := by
  have hle := le_number_of_takes h hm
  rw [hend i h.1.1.lt] at hle
  omega

omit hnumber hlast in
/-- A candidate that is near is taken. -/
theorem takes_of_near {m i : Nat} (hm : m < last)
    (hcand : Candidate d marks slots own i (m + 1)) (h : Near d marks slots m i) :
    Takes d marks slots m i := by
  obtain ⟨j, hj, htakes⟩ := exists_takes h
  rcases lt_or_eq_of_le hj with hlt | rfl
  · have := le_own_of_takes hend htakes hm
    have := hcand.behind j hlt htakes.1.1
    omega
  · exact htakes

include hown in
omit hnumber in
/-- Close behind its own place nothing names a slot. -/
theorem far_behind {i n : Nat} (h : Names marks slots i n) (hlt : own i < n) :
    own i + d < n := by
  by_contra hle
  have hi := h.lt
  have hn := hlast i n h
  obtain ⟨k, rfl⟩ := h.exists_pred
  have hnone : ∀ m, k ≤ m → m < last → ¬ Takes d marks slots m i := by
    intro m hkm hm htakes
    have := le_own_of_takes hend htakes hm
    omega
  have hk : number d marks slots k i = own i := by
    rw [← hend i hi]
    exact (number_eq_of_not_takes (by omega) hnone).symm
  have hnear : Near d marks slots k i := by
    refine ⟨h, ?_⟩
    rw [hk]
    omega
  obtain ⟨j, hj, htakes⟩ := exists_takes hnear
  have := le_own_of_takes hend htakes (by omega)
  have := hown j i hj hi
  omega

omit hlast in
/-- What a slot takes was a candidate for it. -/
theorem candidate_of_taken {m i : Nat} (h : Takes d marks slots m i) (hm : m < last) :
    Candidate d marks slots own i (m + 1) := by
  induction m using Nat.strong_induction_on with
  | _ m ih =>
    have hi := h.1.1.lt
    have hnear := h.1.2
    have habove : number d marks slots 0 i ≤ ((m + 1 : Nat) : Int) + d := by
      rcases @number_cases κ _ d marks slots m i with ⟨-, hnumber'⟩ | ⟨k, hk, htakes, -, -⟩
      · rw [hnumber'] at hnear
        push_cast
        omega
      · have := (ih k hk htakes (by omega)).not_above
        push_cast at *
        omega
    refine ⟨h.1.1, habove, fun j hj hnames => ?_⟩
    by_contra hlt
    -- an earlier slot would lie too far back to get to its own place
    have hjlen : j < slots.length := by omega
    have hle : number d marks slots m j ≤ ((m + 1 : Nat) : Int) + d := by
      rcases @number_cases κ _ d marks slots m j with ⟨-, hnumber'⟩ | ⟨k, hk, -, hnumber', -⟩
      · rw [hnumber']
        exact le_trans (hnumber j i hj.le hi) habove
      · rw [hnumber']
        push_cast
        omega
    have hback : number d marks slots m j + d < m + 1 := by
      by_contra hback
      refine h.2 j hj ⟨hnames, ?_⟩
      push_cast at hle
      omega
    have hstays : number d marks slots last j = number d marks slots m j :=
      number_stays (by omega) fun k hk _ _ => by omega
    rw [hend j hjlen] at hstays
    omega

omit hnumber in
/-- A slot that never moves is at its place, and no place is near to it. -/
theorem untouched_of_not_takes {i : Nat} (hi : i < slots.length)
    (hnone : ∀ m, m < last → ¬ Takes d marks slots m i)
    (hnumber' : number d marks slots last i = number d marks slots 0 i) :
    Untouched d marks slots own i := by
  have hstart : number d marks slots 0 i = own i := by rw [← hnumber', hend i hi]
  refine ⟨hstart, fun n hcand => ?_⟩
  by_contra hle
  have hn := hlast i n hcand.names
  have habove := hcand.not_above
  obtain ⟨k, rfl⟩ := hcand.names.exists_pred
  have hk : number d marks slots k i = number d marks slots 0 i :=
    number_eq_of_not_takes (Nat.zero_le k) fun m _ hmk => hnone m (by omega)
  refine hnone k (by omega) (takes_of_near hend (by omega) hcand ⟨hcand.names, ?_⟩)
  rw [hk]
  push_cast at *
  omega

omit hnumber hlast in
/-- At a candidate with no other place in reach, the slot is there or too far back for all
that follow. -/
theorem number_far_of_last {i k : Nat} (hk : k < last)
    (hcand : Candidate d marks slots own i (k + 1))
    (hnext : ∀ n, Names marks slots i n → k + 1 < n → ((k + 1 : Nat) : Int) + d < n) :
    number d marks slots (k + 1) i ≤ k + 1 ∧
      ∀ l, k + 1 ≤ l → Names marks slots i (l + 1) →
        number d marks slots (k + 1) i + d < l + 1 := by
  rcases @number_cases κ _ d marks slots (k + 1) i with
    ⟨hnever, hnumber'⟩ | ⟨l, hl, -, hnumber', -⟩
  · have hnear : ¬ Near d marks slots k i := fun hnear =>
      hnever k (by omega) (takes_of_near hend hk hcand hnear)
    have hstays : number d marks slots k i = number d marks slots 0 i :=
      number_eq_of_not_takes (Nat.zero_le k) fun l _ hl => hnever l (by omega)
    have habove := hcand.not_above
    have hfar : number d marks slots 0 i + d < k + 1 := by
      by_contra hle
      refine hnear ⟨hcand.names, ?_⟩
      rw [hstays]
      push_cast at habove
      omega
    rw [hnumber']
    exact ⟨by omega, fun l hl _ => by omega⟩
  · rw [hnumber']
    refine ⟨by omega, fun l' hl' hnames => ?_⟩
    have := hnext (l' + 1) hnames (by omega)
    push_cast at this
    omega

omit hnumber in
/-- From a candidate in front of its own place a slot gets to another one. -/
theorem linked_of_end {i n : Nat} (hcand : Candidate d marks slots own i n) (hlt : n < own i) :
    ∃ n', Names marks slots i n' ∧ n < n' ∧ n' ≤ n + d := by
  by_contra hnone
  push Not at hnone
  obtain ⟨k, rfl⟩ := hcand.names.exists_pred
  have hn := hlast i _ hcand.names
  obtain ⟨hle, hfar⟩ := number_far_of_last hend (by omega) hcand fun n' hnames hn' => by
    have := hnone n' hnames hn'
    omega
  have hstays : number d marks slots last i = number d marks slots (k + 1) i :=
    number_stays hn fun l hl _ hnames => hfar l hl hnames
  rw [hend i hcand.names.lt] at hstays
  omega

include hown in
/-- A slot that moves to its place is led there. -/
theorem led_of_takes {m i : Nat} (htakes : Takes d marks slots m i) (hm : m < last)
    (hown' : own i = m + 1) : Led d marks slots own i := by
  refine ⟨?_, ?_, fun n hcand hlt => linked_of_end hlast hend hcand hlt,
    fun n hn hlt => far_behind hlast hown hend hn hlt⟩
  · rw [hown']
    exact candidate_of_taken hnumber hend htakes hm
  · -- the first place that is taken
    have hex : ∃ k, Takes d marks slots k i := ⟨m, htakes⟩
    classical
    have hfirst := Nat.find_spec hex
    have hle : Nat.find hex ≤ m := Nat.find_min' hex htakes
    refine ⟨_, candidate_of_taken hnumber hend hfirst (by omega), ?_⟩
    have hnear := hfirst.1.2
    rw [number_eq_of_not_takes (Nat.zero_le _) fun k _ hk => Nat.find_min hex hk] at hnear
    push_cast
    omega

include hown in
/-- Slots that end at their places fit. -/
theorem fits_of_number {i : Nat} (hi : i < slots.length) : Fits d marks slots own i := by
  rcases @number_cases κ _ d marks slots last i with
    ⟨hnone, hnumber'⟩ | ⟨m, hm, htakes, hnumber', -⟩
  · exact Or.inr (untouched_of_not_takes hlast hend hi hnone hnumber')
  · rw [hend i hi] at hnumber'
    exact Or.inl (led_of_takes hnumber hlast hown hend htakes hm (by omega))

omit hend in
include hown in
/-- All slots end at their places exactly when each of them fits. -/
theorem run_own_iff :
    (∀ i, i < slots.length → number d marks slots last i = own i) ↔
      ∀ i, i < slots.length → Fits d marks slots own i := by
  constructor
  · exact fun hend i hi => fits_of_number hnumber hlast hown hend hi
  · exact fun hfits i hi => number_of_fits hnumber hlast hfits hi

end

end

/-! ## The places that a slot takes -/

section

variable {κ : Type} (d : Nat)

/-- The chain of places from a number on: the first one at most `d` off, and then the next
ones as long as each is at most `d` behind the one before. -/
def Chain (free : Nat → Prop) (e : Int) (n : Nat) : Prop :=
  free n ∧ ∃ f ≤ n, free f ∧ (e - (f : Int)).natAbs ≤ d ∧
    (∀ f' < f, free f' → d < (e - (f' : Int)).natAbs) ∧
    ∀ m, free m → f ≤ m → m < n → ∃ m', free m' ∧ m < m' ∧ m' ≤ m + d

variable [DecidableEq κ] (marks : Nat → Option κ) (slots : List (Slot κ))

/-- The place belongs to one of the first slots. -/
def Given : Nat → Nat → Prop
  | 0, _ => False
  | i + 1, n =>
    Given i n ∨ Chain d (fun m => Names marks slots i m ∧ ¬ Given i m) (number d marks slots 0 i) n

/-- The place belongs to the slot at `i`: it is in the chain from its number on, among the
places that name it and belong to no slot before. -/
def Belongs (i n : Nat) : Prop :=
  Chain d (fun m => Names marks slots i m ∧ ¬ Given d marks slots i m)
    (number d marks slots 0 i) n

variable {d marks slots}

theorem given_iff {i n : Nat} :
    Given d marks slots i n ↔ ∃ j < i, Belongs d marks slots j n := by
  induction i with
  | zero => simp [Given]
  | succ i ih =>
    rw [Given, ih]
    constructor
    · rintro (⟨j, hj, h⟩ | h)
      · exact ⟨j, by omega, h⟩
      · exact ⟨i, by omega, h⟩
    · rintro ⟨j, hj, h⟩
      rcases Nat.lt_succ_iff_lt_or_eq.1 hj with hlt | rfl
      · exact Or.inl ⟨j, hlt, h⟩
      · exact Or.inr h

/-- A slot whose earlier ones take what belongs to them takes what is near and free. -/
theorem takes_iff_free {i : Nat}
    (hbefore : ∀ j < i, ∀ m, Takes d marks slots m j ↔ Belongs d marks slots j (m + 1)) {n : Nat} :
    Takes d marks slots n i ↔
      (Names marks slots i (n + 1) ∧ ¬ Given d marks slots i (n + 1)) ∧
        (number d marks slots n i - ((n + 1 : Nat) : Int)).natAbs ≤ d := by
  constructor
  · intro h
    refine ⟨⟨h.1.1, fun hgiven => ?_⟩, by push_cast; exact h.1.2⟩
    obtain ⟨j, hj, hbelongs⟩ := given_iff.1 hgiven
    exact h.2 j hj ((hbefore j hj n).2 hbelongs).1
  · rintro ⟨⟨hnames, hfree⟩, hclose⟩
    push_cast at hclose
    obtain ⟨j, hj, htakes⟩ := exists_takes (⟨hnames, hclose⟩ : Near d marks slots n i)
    rcases lt_or_eq_of_le hj with hlt | rfl
    · exact absurd (given_iff.2 ⟨j, hlt, (hbefore j hlt n).1 htakes⟩) hfree
    · exact htakes

theorem belongs_of_takes {i : Nat}
    (hbefore : ∀ j < i, ∀ m, Takes d marks slots m j ↔ Belongs d marks slots j (m + 1)) {n : Nat}
    (h : Takes d marks slots n i) : Belongs d marks slots i (n + 1) := by
  induction n using Nat.strong_induction_on with
  | _ n ih =>
    obtain ⟨hfree, hclose⟩ := (takes_iff_free hbefore).1 h
    rcases @number_cases κ _ d marks slots n i with
      ⟨hnever, hnumber⟩ | ⟨m, hm, htakes, hnumber, hlast⟩
    · refine ⟨hfree, n + 1, le_refl _, hfree, by rwa [← hnumber], fun f hf hfree' => ?_,
        fun m _ hle hlt => by omega⟩
      by_contra hnear
      obtain ⟨k, rfl⟩ := hfree'.1.exists_pred
      have hk : number d marks slots k i = number d marks slots 0 i :=
        number_eq_of_not_takes (Nat.zero_le k) fun l _ hl => hnever l (by omega)
      exact hnever k (by omega) ((takes_iff_free hbefore).2 ⟨hfree', by rw [hk]; omega⟩)
    · obtain ⟨-, f, hf, hfree', hnear, hfirst, hlinks⟩ := ih m hm htakes
      rw [hnumber] at hclose
      refine ⟨hfree, f, by omega, hfree', hnear, hfirst, fun l hl hfl hln => ?_⟩
      rcases lt_trichotomy l (m + 1) with hlt | rfl | hlt
      · exact hlinks l hl hfl hlt
      · exact ⟨n + 1, hfree, by omega, by omega⟩
      · -- a free place in between would be as near
        obtain ⟨k, rfl⟩ := hl.1.exists_pred
        have hk : number d marks slots k i = m + 1 := by
          rw [← number_succ_of_takes htakes]
          exact number_eq_of_not_takes (by omega) fun l hl hlk => hlast l (by omega) (by omega)
        refine absurd ((takes_iff_free hbefore).2 ⟨hl, ?_⟩) (hlast k (by omega) (by omega))
        rw [hk]
        omega

theorem takes_of_belongs {i : Nat}
    (hbefore : ∀ j < i, ∀ m, Takes d marks slots m j ↔ Belongs d marks slots j (m + 1)) {n : Nat}
    (h : Belongs d marks slots i (n + 1)) : Takes d marks slots n i := by
  induction n using Nat.strong_induction_on with
  | _ n ih =>
    obtain ⟨hfree, f, hf, hfree', hnear, hfirst, hlinks⟩ := h
    refine (takes_iff_free hbefore).2 ⟨hfree, ?_⟩
    -- a free place between the first one and this one is in the chain as well
    have hbetween : ∀ m, f ≤ m + 1 → m < n →
        (Names marks slots i (m + 1) ∧ ¬ Given d marks slots i (m + 1)) →
          Takes d marks slots m i := fun m hfm hmn hfreem =>
      ih m hmn ⟨hfreem, f, hfm, hfree', hnear, hfirst, fun l hl hfl hlm =>
        hlinks l hl hfl (by omega)⟩
    rcases @number_cases κ _ d marks slots n i with
      ⟨hnever, hnumber⟩ | ⟨m, hm, htakes, hnumber, hlast⟩
    · rw [hnumber]
      rcases Nat.lt_or_eq_of_le hf with hlt | rfl
      · obtain ⟨k, rfl⟩ := hfree'.1.exists_pred
        exact absurd (hbetween k (le_refl _) (by omega) hfree') (hnever k (by omega))
      · exact hnear
    · rw [hnumber]
      obtain ⟨hfreem, f', hf', hfreef', hnearf', -⟩ := belongs_of_takes hbefore htakes
      have hff' : f ≤ f' := by
        by_contra hlt
        have := hfirst f' (by omega) hfreef'
        omega
      obtain ⟨l, hl, hml, hlm⟩ := hlinks (m + 1) hfreem (by omega) (by omega)
      by_cases hln : l < n + 1
      · obtain ⟨k, rfl⟩ := hl.1.exists_pred
        exact absurd (hbetween k (by omega) (by omega) hl) (hlast k (by omega) (by omega))
      · omega

/-- A slot takes exactly the places that belong to it. -/
theorem takes_iff_belongs {i n : Nat} :
    Takes d marks slots n i ↔ Belongs d marks slots i (n + 1) := by
  induction i using Nat.strong_induction_on generalizing n with
  | _ i ih =>
    have hbefore : ∀ j < i, ∀ m, Takes d marks slots m j ↔ Belongs d marks slots j (m + 1) :=
      fun j hj m => ih j hj
    exact ⟨belongs_of_takes hbefore, takes_of_belongs hbefore⟩

end

end Tracking
