import Mathlib

/-!
# Matching blocks of two sequences

`difflib.SequenceMatcher` without junk: the longest block that two sequences share, the
longest ones on either side of it, and so on.  Elements that a long sequence repeats too
often are popular; blocks start from other elements only.

* `findLongestMatch` — the longest block in a window of both sequences.
* `matchingBlocks`, `matching` — the blocks, and how much they cover.
* `findLongestMatch_stands`, `le_size`, `findLongestMatch_first` — the block stands in both
  sequences; no other one is longer, and none of its size starts earlier.
* `matching_sublist`, `le_matching` — what is covered lies between the longest common block
  and the longest common subsequence.
-/

namespace SequenceMatcher

variable {α : Type*} [DecidableEq α]

/-- A block of some size, and where it starts in both sequences. -/
structure Match where
  a : Nat
  b : Nat
  size : Nat
  deriving DecidableEq, Repr

/-! ## The longest match -/

section

variable (a b : List α)

/-- The places of an element. -/
def indices (x : α) : List Nat := (List.range b.length).filter fun j => b[j]? = some x

/-- `len(b) >= 200 and len(idxs) > len(b) // 100 + 1` -/
def popular (x : α) : Bool := 200 ≤ b.length && b.length / 100 + 1 < (indices b x).length

/-- The places of an element that is not popular. -/
def b2j (x : α) : List Nat := if popular b x then [] else indices b x

/-- `j2len.get(j - 1, 0)` -/
def before (j2len : Nat → Nat) : Nat → Nat
  | 0 => 0
  | j + 1 => j2len j

/-- The block that ends at a place of both, if it is longer than the best one. -/
def improve (i : Nat) (j2len : Nat → Nat) (best : Match) (j : Nat) : Match :=
  if best.size < before j2len j + 1 then
    ⟨i - before j2len j, j - before j2len j, before j2len j + 1⟩
  else best

/-- `for j in b2j.get(a[i], nothing)` -/
def scanRow (blo bhi i : Nat) (j2len : Nat → Nat) :
    List Nat → Match → (Nat → Nat) → Match × (Nat → Nat)
  | [], best, newj2len => (best, newj2len)
  | j :: js, best, newj2len =>
    if j < blo then scanRow blo bhi i j2len js best newj2len
    else if bhi ≤ j then (best, newj2len)
    else scanRow blo bhi i j2len js (improve i j2len best j)
      (Function.update newj2len j (before j2len j + 1))

/-- `for i in range(alo, ahi)`, with the rows still to come. -/
def scan (blo bhi : Nat) : Nat → Nat → Match → (Nat → Nat) → Match
  | 0, _, best, _ => best
  | n + 1, i, best, j2len =>
    scan blo bhi n (i + 1)
      (scanRow blo bhi i j2len (a[i]?.elim [] (b2j b)) best fun _ => 0).1
      (scanRow blo bhi i j2len (a[i]?.elim [] (b2j b)) best fun _ => 0).2

/-- `while besti > alo and bestj > blo and a[besti - 1] == b[bestj - 1]` -/
def extendLeft (alo blo : Nat) : Nat → Nat → Nat → Match
  | i + 1, j + 1, k =>
    if alo ≤ i ∧ blo ≤ j ∧ a[i]? = b[j]? then extendLeft alo blo i j (k + 1) else ⟨i + 1, j + 1, k⟩
  | 0, j, k => ⟨0, j, k⟩
  | i + 1, 0, k => ⟨i + 1, 0, k⟩

/-- `while besti + bestsize < ahi and bestj + bestsize < bhi and …` -/
def extendRight (ahi bhi : Nat) : Nat → Match → Match
  | 0, m => m
  | n + 1, m =>
    if m.a + m.size < ahi ∧ m.b + m.size < bhi ∧ a[m.a + m.size]? = b[m.b + m.size]? then
      extendRight ahi bhi n { m with size := m.size + 1 }
    else m

def findLongestMatch (alo ahi blo bhi : Nat) : Match :=
  let best := scan a b blo bhi (ahi - alo) alo ⟨alo, blo, 0⟩ fun _ => 0
  extendRight a b ahi bhi ahi (extendLeft a b alo blo best.a best.b best.size)

/-- The longest match, between the blocks on either side of it; every call shortens the
window in the first sequence. -/
def matchingBlocks : Nat → Nat → Nat → Nat → Nat → List Match
  | 0, _, _, _, _ => []
  | n + 1, alo, ahi, blo, bhi =>
    let m := findLongestMatch a b alo ahi blo bhi
    if m.size = 0 then []
    else
      (if alo < m.a ∧ blo < m.b then matchingBlocks n alo m.a blo m.b else []) ++
        m :: if m.a + m.size < ahi ∧ m.b + m.size < bhi then
          matchingBlocks n (m.a + m.size) ahi (m.b + m.size) bhi else []

/-- `sum(triple[-1] for triple in self.get_matching_blocks())` -/
def matching : Nat :=
  ((matchingBlocks a b a.length 0 a.length 0 b.length).map Match.size).sum

end

/-! ## Blocks -/

/-- The block lies in the window, and its pairs of places are related. -/
structure Stands (R : Nat → Nat → Prop) (alo ahi blo bhi : Nat) (m : Match) : Prop where
  alo_le : alo ≤ m.a
  le_ahi : m.a + m.size ≤ ahi
  blo_le : blo ≤ m.b
  le_bhi : m.b + m.size ≤ bhi
  run : ∀ t < m.size, R (m.a + t) (m.b + t)

/-- The block starts earlier, first of all in the first sequence. -/
def Earlier (m m' : Match) : Prop := m.a < m'.a ∨ m.a = m'.a ∧ m.b ≤ m'.b

section

variable {R : Nat → Nat → Prop} {alo ahi blo bhi : Nat}

theorem Stands.mono {m : Match} (h : Stands R alo ahi blo bhi m) {ahi' : Nat} (hle : ahi ≤ ahi') :
    Stands R alo ahi' blo bhi m :=
  ⟨h.alo_le, h.le_ahi.trans hle, h.blo_le, h.le_bhi, h.run⟩

theorem Stands.imp {m : Match} (h : Stands R alo ahi blo bhi m) {R' : Nat → Nat → Prop}
    (hR : ∀ i j, R i j → R' i j) : Stands R' alo ahi blo bhi m :=
  ⟨h.alo_le, h.le_ahi, h.blo_le, h.le_bhi, fun t ht => hR _ _ (h.run t ht)⟩

/-- A block grows by the pair of places behind it. -/
theorem Stands.snoc {m : Match} (h : Stands R alo ahi blo bhi m) (ha : m.a + m.size < ahi)
    (hb : m.b + m.size < bhi) (hR : R (m.a + m.size) (m.b + m.size)) :
    Stands R alo ahi blo bhi { m with size := m.size + 1 } where
  alo_le := h.alo_le
  le_ahi := ha
  blo_le := h.blo_le
  le_bhi := hb
  run t ht := by
    rcases Nat.lt_succ_iff_lt_or_eq.1 ht with hlt | rfl
    · exact h.run t hlt
    · exact hR

/-- A block grows by the pair of places before it. -/
theorem Stands.cons {i j k : Nat} (h : Stands R alo ahi blo bhi ⟨i + 1, j + 1, k⟩) (ha : alo ≤ i)
    (hb : blo ≤ j) (hR : R i j) : Stands R alo ahi blo bhi ⟨i, j, k + 1⟩ where
  alo_le := ha
  le_ahi := by
    have := h.le_ahi
    simp only at this ⊢
    omega
  blo_le := hb
  le_bhi := by
    have := h.le_bhi
    simp only at this ⊢
    omega
  run t ht := by
    cases t with
    | zero => exact hR
    | succ t =>
      have hrun := h.run t (Nat.lt_of_succ_lt_succ ht)
      rwa [Nat.add_right_comm i, Nat.add_right_comm j] at hrun

/-- A block that ends at a row is one of the rows above and a pair of places. -/
theorem Stands.last {m : Match} {i j : Nat} (h : Stands R alo ahi blo bhi m) (hpos : 0 < m.size)
    (hi : m.a + m.size = i + 1) (hj : m.b + m.size = j + 1) :
    R i j ∧ alo ≤ i ∧ blo ≤ j ∧ j < bhi ∧
      Stands R alo i blo bhi { m with size := m.size - 1 } := by
  have hrun := h.run (m.size - 1) (Nat.sub_lt hpos Nat.one_pos)
  rw [show m.a + (m.size - 1) = i by omega, show m.b + (m.size - 1) = j by omega] at hrun
  have halo := h.alo_le
  have hblo := h.blo_le
  have hbhi := h.le_bhi
  refine ⟨hrun, by omega, by omega, by omega, ⟨halo, ?_, hblo, ?_, fun t ht => h.run t ?_⟩⟩
  · show m.a + (m.size - 1) ≤ i
    omega
  · show m.b + (m.size - 1) ≤ bhi
    omega
  · exact lt_of_lt_of_le ht (Nat.sub_le _ _)

/-! ## The rows -/

/-- `j2len` has the size of the longest block that ends above a row, for every column. -/
structure Reaches (R : Nat → Nat → Prop) (alo blo bhi i : Nat) (j2len : Nat → Nat) : Prop where
  stands : ∀ c, 0 < before j2len c → ∃ m, Stands R alo i blo bhi m ∧ m.size = before j2len c ∧
    m.a + m.size = i ∧ m.b + m.size = c
  longest : ∀ m, Stands R alo i blo bhi m → 0 < m.size → m.a + m.size = i →
    m.size ≤ before j2len (m.b + m.size)

theorem Reaches.start : Reaches R alo blo bhi alo fun _ => 0 where
  stands c hc := by cases c <;> cases hc
  longest m hm hpos ha := by
    have := hm.alo_le
    omega

variable {i : Nat} {j2len : Nat → Nat}

/-- The block that ends at a pair of places. -/
theorem Reaches.stands_succ (h : Reaches R alo blo bhi i j2len) {j : Nat} (halo : alo ≤ i)
    (hblo : blo ≤ j) (hbhi : j < bhi) (hR : R i j) :
    before j2len j ≤ i ∧ before j2len j ≤ j ∧ Stands R alo (i + 1) blo bhi
      ⟨i - before j2len j, j - before j2len j, before j2len j + 1⟩ := by
  rcases Nat.eq_zero_or_pos (before j2len j) with hzero | hpos
  · rw [hzero]
    refine ⟨Nat.zero_le _, Nat.zero_le _, ⟨halo, le_refl _, hblo, hbhi, fun t ht => ?_⟩⟩
    rw [Nat.lt_one_iff.1 ht]
    exact hR
  · obtain ⟨m, hm, hsize, ha, hb⟩ := h.stands j hpos
    rw [← hsize]
    refine ⟨by omega, by omega, ?_⟩
    rw [show i - m.size = m.a by omega, show j - m.size = m.b by omega]
    refine (hm.mono (Nat.le_succ i)).snoc ?_ ?_ ?_
    · omega
    · omega
    · rwa [ha, hb]

theorem Reaches.le_succ (h : Reaches R alo blo bhi i j2len) {m : Match} {j : Nat}
    (hm : Stands R alo ahi blo bhi m) (hpos : 0 < m.size) (ha : m.a + m.size = i + 1)
    (hb : m.b + m.size = j + 1) : m.size ≤ before j2len j + 1 := by
  obtain ⟨-, -, -, -, hshort⟩ := hm.last hpos ha hb
  rcases Nat.eq_zero_or_pos (m.size - 1) with hzero | hpos'
  · omega
  · have hle := h.longest _ hshort hpos' (by simp only; omega)
    simp only [show m.b + (m.size - 1) = j by omega] at hle
    omega

/-- The next row, given the columns that are related to it. -/
theorem Reaches.succ (h : Reaches R alo blo bhi i j2len) (halo : alo ≤ i) {js : List Nat}
    (hjs : ∀ j, j ∈ js ↔ blo ≤ j ∧ j < bhi ∧ R i j) :
    Reaches R alo blo bhi (i + 1) fun j => if j ∈ js then before j2len j + 1 else 0 where
  stands c hc := by
    cases c with
    | zero => cases hc
    | succ j =>
      rw [before] at hc ⊢
      by_cases hj : j ∈ js
      · obtain ⟨hblo, hbhi, hR⟩ := (hjs j).1 hj
        obtain ⟨hi', hj', hstands⟩ := h.stands_succ halo hblo hbhi hR
        rw [if_pos hj]
        exact ⟨_, hstands, rfl, by simp only; omega, by simp only; omega⟩
      · rw [if_neg hj] at hc
        cases hc
  longest m hm hpos ha := by
    obtain ⟨j, hj⟩ : ∃ j, m.b + m.size = j + 1 := ⟨m.b + m.size - 1, by omega⟩
    obtain ⟨hR, -, hblo, hbhi, -⟩ := hm.last hpos ha hj
    rw [hj, before, if_pos ((hjs j).2 ⟨hblo, hbhi, hR⟩)]
    exact h.le_succ hm hpos ha hj

/-- The block ends above a row, or in it above a column. -/
def Seen (i c : Nat) (m : Match) : Prop :=
  m.a + m.size ≤ i ∨ m.a + m.size = i + 1 ∧ m.b + m.size ≤ c

/-- The block is the first one of the longest seen so far. -/
structure Leads (R : Nat → Nat → Prop) (alo blo bhi i c : Nat) (best : Match) : Prop where
  stands : Stands R alo (i + 1) blo bhi best
  top : best.a ≤ i
  seen : Seen i c best
  first : ∀ m, Stands R alo (i + 1) blo bhi m → 0 < m.size → Seen i c m →
    m.size < best.size ∨ m.size = best.size ∧ Earlier best m

theorem Leads.start (hb : blo ≤ bhi) : Leads R alo blo bhi alo 0 ⟨alo, blo, 0⟩ where
  stands := ⟨le_refl _, Nat.le_succ _, le_refl _, hb, fun t ht => by cases ht⟩
  top := le_refl _
  seen := Or.inl (le_refl _)
  first m hm hpos hseen := by
    have := hm.alo_le
    rcases hseen with h | ⟨-, h⟩
    · omega
    · omega

variable {c : Nat} {best : Match}

/-- A block that has come into sight ends where none was seen before. -/
theorem seen_of_skip {j : Nat} (hskip : ∀ j', c ≤ j' → j' < j → blo ≤ j' → j' < bhi → ¬ R i j')
    {m : Match} (hm : Stands R alo (i + 1) blo bhi m) (hpos : 0 < m.size) (h : Seen i j m) :
    Seen i c m := by
  rcases h with h | ⟨ha, hb⟩
  · exact Or.inl h
  · refine Or.inr ⟨ha, not_lt.1 fun hlt => ?_⟩
    obtain ⟨j', hj'⟩ : ∃ j', m.b + m.size = j' + 1 := ⟨m.b + m.size - 1, by omega⟩
    obtain ⟨hR, -, hblo, hbhi, -⟩ := hm.last hpos ha hj'
    exact hskip j' (by omega) (by omega) hblo hbhi hR

theorem Leads.improve (h : Leads R alo blo bhi i c best) (hreach : Reaches R alo blo bhi i j2len)
    {j : Nat} (halo : alo ≤ i) (hblo : blo ≤ j) (hbhi : j < bhi) (hR : R i j) (hcj : c ≤ j)
    (hskip : ∀ j', c ≤ j' → j' < j → blo ≤ j' → j' < bhi → ¬ R i j') :
    Leads R alo blo bhi i (j + 1) (improve i j2len best j) := by
  obtain ⟨hki, hkj, hstands⟩ := hreach.stands_succ halo hblo hbhi hR
  -- a block in sight was seen before, or ends at this pair
  have hcases : ∀ m, Stands R alo (i + 1) blo bhi m → 0 < m.size → Seen i (j + 1) m →
      Seen i c m ∨ m.a + m.size = i + 1 ∧ m.b + m.size = j + 1 := by
    intro m hm hpos hseen
    by_cases hj : m.b + m.size = j + 1 ∧ m.a + m.size = i + 1
    · exact Or.inr hj.symm
    · refine Or.inl (seen_of_skip hskip hm hpos ?_)
      rcases hseen with hseen | ⟨ha, hb⟩
      · exact Or.inl hseen
      · exact Or.inr ⟨ha, by omega⟩
  rw [SequenceMatcher.improve]
  split
  · rename_i hlt
    refine ⟨hstands, Nat.sub_le _ _, Or.inr ⟨by simp only; omega, by simp only; omega⟩, ?_⟩
    intro m hm hpos hseen
    rcases hcases m hm hpos hseen with hold | ⟨ha, hb⟩
    · rcases h.first m hm hpos hold with hless | ⟨heq, -⟩
      · exact Or.inl (by simp only; omega)
      · exact Or.inl (by simp only; omega)
    · rcases Nat.lt_or_eq_of_le (hreach.le_succ hm hpos ha hb) with hless | heq
      · exact Or.inl hless
      · exact Or.inr ⟨heq, Or.inr ⟨by simp only; omega, by simp only; omega⟩⟩
  · rename_i hge
    refine ⟨h.stands, h.top, ?_, fun m hm hpos hseen => ?_⟩
    · exact h.seen.imp_right fun hb => ⟨hb.1, by omega⟩
    · rcases hcases m hm hpos hseen with hold | ⟨ha, hb⟩
      · exact h.first m hm hpos hold
      · rcases Nat.lt_or_eq_of_le (hreach.le_succ hm hpos ha hb) with hless | heq
        · exact Or.inl (by omega)
        · refine (Nat.lt_or_eq_of_le (not_lt.1 hge)).imp (fun hless => by omega) fun hsize => ?_
          rcases h.seen with hbest | ⟨hbest, hcol⟩
          · exact ⟨by omega, Or.inl (by omega)⟩
          · exact ⟨by omega, Or.inr ⟨by omega, by omega⟩⟩

/-- The rest of a row without a related column. -/
theorem Leads.succ (h : Leads R alo blo bhi i c best)
    (hskip : ∀ j', c ≤ j' → blo ≤ j' → j' < bhi → ¬ R i j') :
    Leads R alo blo bhi (i + 1) 0 best where
  stands := h.stands.mono (Nat.le_succ _)
  top := Nat.le_succ_of_le h.top
  seen := Or.inl h.stands.le_ahi
  first m hm hpos hseen := by
    have hle : m.a + m.size ≤ i + 1 := by
      rcases hseen with hseen | ⟨-, hb⟩
      · exact hseen
      · omega
    have hm' : Stands R alo (i + 1) blo bhi m :=
      ⟨hm.alo_le, hle, hm.blo_le, hm.le_bhi, hm.run⟩
    refine h.first m hm' hpos (seen_of_skip (j := m.b + m.size) ?_ hm' hpos ?_)
    · exact fun j' hc _ => hskip j' hc
    · rcases Nat.lt_or_eq_of_le hle with hlt | heq
      · exact Or.inl (Nat.lt_succ_iff.1 hlt)
      · exact Or.inr ⟨heq, le_refl _⟩

/-- A row, given its related columns in order. -/
theorem Leads.foldl (hreach : Reaches R alo blo bhi i j2len) (halo : alo ≤ i) {js : List Nat}
    (hsorted : js.Pairwise (· < ·)) (h : Leads R alo blo bhi i c best)
    (hjs : ∀ j, j ∈ js ↔ c ≤ j ∧ blo ≤ j ∧ j < bhi ∧ R i j) :
    Leads R alo blo bhi (i + 1) 0 (js.foldl (SequenceMatcher.improve i j2len) best) := by
  induction js generalizing c best with
  | nil =>
    refine h.succ fun j' hc hblo hbhi hR => ?_
    exact List.not_mem_nil ((hjs j').2 ⟨hc, hblo, hbhi, hR⟩)
  | cons j js ih =>
    rw [List.pairwise_cons] at hsorted
    obtain ⟨hc, hblo, hbhi, hR⟩ := (hjs j).1 List.mem_cons_self
    have hskip : ∀ j', c ≤ j' → j' < j → blo ≤ j' → j' < bhi → ¬ R i j' := by
      intro j' hc' hlt hblo' hbhi' hR'
      rcases List.mem_cons.1 ((hjs j').2 ⟨hc', hblo', hbhi', hR'⟩) with rfl | hmem
      · exact lt_irrefl _ hlt
      · exact lt_asymm hlt (hsorted.1 j' hmem)
    rw [List.foldl_cons]
    refine ih hsorted.2 (h.improve hreach halo hblo hbhi hR hc hskip) fun j' => ?_
    constructor
    · intro hmem
      exact ⟨hsorted.1 j' hmem, ((hjs j').1 (List.mem_cons_of_mem j hmem)).2⟩
    · rintro ⟨hlt, hin⟩
      rcases List.mem_cons.1 ((hjs j').2 ⟨by omega, hin⟩) with rfl | hmem
      · omega
      · exact hmem

end

/-! ## The match that is found -/

section

variable (a b : List α)

/-- The same element stands at both places. -/
def Same (i j : Nat) : Prop := ∃ x, a[i]? = some x ∧ b[j]? = some x

/-- An element that is not popular stands at both places. -/
def Kept (i j : Nat) : Prop := ∃ x, a[i]? = some x ∧ b[j]? = some x ∧ popular b x = false

variable {a b}

theorem Kept.same {i j : Nat} (h : Kept a b i j) : Same a b i j := by
  obtain ⟨x, ha, hb, -⟩ := h
  exact ⟨x, ha, hb⟩

/-- In a short sequence no element is popular. -/
theorem not_popular (hshort : b.length < 200) (x : α) : popular b x = false := by
  rw [popular, decide_eq_false (not_le.2 hshort), Bool.false_and]

theorem Same.kept (hshort : b.length < 200) {i j : Nat} (h : Same a b i j) : Kept a b i j := by
  obtain ⟨x, ha, hb⟩ := h
  exact ⟨x, ha, hb, not_popular hshort x⟩

theorem mem_b2j_iff {i j : Nat} : j ∈ a[i]?.elim [] (b2j b) ↔ Kept a b i j := by
  have hindices : ∀ x, j ∈ indices b x ↔ b[j]? = some x := by
    intro x
    rw [indices, List.mem_filter, List.mem_range, decide_eq_true_eq]
    exact and_iff_right_of_imp fun h => (List.getElem?_eq_some_iff.1 h).1
  cases hx : a[i]? with
  | none => simp [Kept, hx]
  | some x =>
    simp only [Option.elim_some, b2j, Kept, hx, Option.some.injEq]
    split
    · rename_i hpop
      simp [hpop]
    · rename_i hpop
      rw [hindices]
      simp [Bool.eq_false_of_not_eq_true hpop]

theorem b2j_sorted (i : Nat) : (a[i]?.elim [] (b2j b)).Pairwise (· < ·) := by
  cases a[i]? with
  | none => exact List.Pairwise.nil
  | some x =>
    rw [Option.elim_some, b2j]
    split
    · exact List.Pairwise.nil
    · exact List.Pairwise.filter _ List.pairwise_lt_range

/-- The loop takes the columns of the window, one after the other. -/
theorem scanRow_eq (blo bhi i : Nat) (j2len : Nat → Nat) {js : List Nat}
    (hsorted : js.Pairwise (· < ·)) (best : Match) (new : Nat → Nat) :
    scanRow blo bhi i j2len js best new
      = ((js.filter fun j => blo ≤ j && j < bhi).foldl (improve i j2len) best, fun j =>
          if j ∈ js.filter fun j => blo ≤ j && j < bhi then before j2len j + 1 else new j) := by
  induction js generalizing best new with
  | nil => simp [scanRow]
  | cons j js ih =>
    rw [List.pairwise_cons] at hsorted
    rw [scanRow]
    by_cases hblo : j < blo
    · rw [if_pos hblo, ih hsorted.2, List.filter_cons_of_neg (by simp [hblo])]
    · rw [if_neg hblo]
      by_cases hbhi : bhi ≤ j
      · -- the columns behind are those of the window behind
        have hnil : (j :: js).filter (fun j => blo ≤ j && j < bhi) = [] := by
          rw [List.filter_eq_nil_iff]
          intro j' hj'
          have hle : bhi ≤ j' := by
            rcases List.mem_cons.1 hj' with rfl | hmem
            · exact hbhi
            · exact hbhi.trans (hsorted.1 j' hmem).le
          simp [hle]
        rw [if_pos hbhi, hnil]
        simp
      · rw [if_neg hbhi, ih hsorted.2, List.filter_cons_of_pos (by simp; omega), List.foldl_cons]
        refine Prod.ext rfl (funext fun j' => ?_)
        simp only [List.mem_cons]
        by_cases hj : j' = j
        · subst hj
          simp
        · simp [hj]

variable {alo ahi blo bhi : Nat}

theorem scan_leads {n i : Nat} (halo : alo ≤ i) {best : Match} {j2len : Nat → Nat}
    (hbest : Leads (Kept a b) alo blo bhi i 0 best)
    (hreach : Reaches (Kept a b) alo blo bhi i j2len) :
    Leads (Kept a b) alo blo bhi (i + n) 0 (scan a b blo bhi n i best j2len) := by
  induction n generalizing i best j2len with
  | zero => exact hbest
  | succ n ih =>
    have hjs : ∀ j, j ∈ (a[i]?.elim [] (b2j b)).filter (fun j => blo ≤ j && j < bhi) ↔
        blo ≤ j ∧ j < bhi ∧ Kept a b i j := by
      intro j
      rw [List.mem_filter, mem_b2j_iff, Bool.and_eq_true, decide_eq_true_eq, decide_eq_true_eq]
      exact and_comm.trans and_assoc
    rw [scan, scanRow_eq _ _ _ _ (b2j_sorted i), show i + (n + 1) = i + 1 + n by omega]
    refine ih (Nat.le_succ_of_le halo) ?_ (hreach.succ halo hjs)
    refine hbest.foldl hreach halo ((b2j_sorted i).filter _) fun j => ?_
    rw [hjs]
    simp

omit [DecidableEq α] in
theorem same_of_eq {i j : Nat} (hi : i < a.length) (h : a[i]? = b[j]?) : Same a b i j :=
  ⟨a[i], List.getElem?_eq_getElem hi, h ▸ List.getElem?_eq_getElem hi⟩

omit [DecidableEq α] in
theorem Same.eq {i j : Nat} (h : Same a b i j) : a[i]? = b[j]? := by
  obtain ⟨x, ha, hb⟩ := h
  rw [ha, hb]

/-- Blocks are extended to blocks; those that cannot be extended stay. -/
theorem extendLeft_spec (hahi : ahi ≤ a.length) {i j k : Nat}
    (h : Stands (Same a b) alo ahi blo bhi ⟨i, j, k⟩) :
    Stands (Same a b) alo ahi blo bhi (extendLeft a b alo blo i j k) ∧
      k ≤ (extendLeft a b alo blo i j k).size ∧
      ((∀ m, Stands (Same a b) alo ahi blo bhi m → m.size ≤ k) →
        extendLeft a b alo blo i j k = ⟨i, j, k⟩) := by
  fun_induction extendLeft a b alo blo i j k with
  | case1 i j k hext ih =>
    obtain ⟨hi, hj, heq⟩ := hext
    have hlt : i < a.length := by
      have := h.le_ahi
      simp only at this
      omega
    have hcons := h.cons hi hj (same_of_eq hlt heq)
    obtain ⟨hstands, hle, -⟩ := ih hcons
    refine ⟨hstands, (Nat.le_succ k).trans hle, fun hlong => ?_⟩
    exact absurd (hlong _ hcons) (Nat.not_succ_le_self k)
  | case2 i j k hext => exact ⟨h, le_refl _, fun _ => rfl⟩
  | case3 j k => exact ⟨h, le_refl _, fun _ => rfl⟩
  | case4 i k => exact ⟨h, le_refl _, fun _ => rfl⟩

theorem extendRight_spec (hahi : ahi ≤ a.length) (n : Nat) {m : Match}
    (h : Stands (Same a b) alo ahi blo bhi m) :
    Stands (Same a b) alo ahi blo bhi (extendRight a b ahi bhi n m) ∧
      m.size ≤ (extendRight a b ahi bhi n m).size ∧
      ((∀ m', Stands (Same a b) alo ahi blo bhi m' → m'.size ≤ m.size) →
        extendRight a b ahi bhi n m = m) := by
  fun_induction extendRight a b ahi bhi n m with
  | case1 m => exact ⟨h, le_refl _, fun _ => rfl⟩
  | case2 m n hext ih =>
    obtain ⟨ha, hb, heq⟩ := hext
    have hsnoc := h.snoc ha hb (same_of_eq (lt_of_lt_of_le ha hahi) heq)
    obtain ⟨hstands, hle, -⟩ := ih hsnoc
    refine ⟨hstands, (Nat.le_succ _).trans hle, fun hlong => ?_⟩
    exact absurd (hlong _ hsnoc) (Nat.not_succ_le_self _)
  | case3 m n hext => exact ⟨h, le_refl _, fun _ => rfl⟩

section

variable (halo : alo ≤ ahi) (hahi : ahi ≤ a.length) (hblo : blo ≤ bhi)

include halo hblo in
/-- The loop ends with the first of the longest blocks of elements that are not popular. -/
theorem scan_spec : Stands (Kept a b) alo ahi blo bhi
      (scan a b blo bhi (ahi - alo) alo ⟨alo, blo, 0⟩ fun _ => 0) ∧
    ∀ m, Stands (Kept a b) alo ahi blo bhi m → 0 < m.size →
      m.size < (scan a b blo bhi (ahi - alo) alo ⟨alo, blo, 0⟩ fun _ => 0).size ∨
        m.size = (scan a b blo bhi (ahi - alo) alo ⟨alo, blo, 0⟩ fun _ => 0).size ∧
          Earlier (scan a b blo bhi (ahi - alo) alo ⟨alo, blo, 0⟩ fun _ => 0) m := by
  have h := scan_leads (n := ahi - alo) (a := a) (b := b) (le_refl alo) (Leads.start hblo)
    Reaches.start
  rw [Nat.add_sub_cancel' halo] at h
  revert h
  generalize (scan a b blo bhi (ahi - alo) alo ⟨alo, blo, 0⟩ fun _ => 0) = best
  intro h
  refine ⟨⟨h.stands.alo_le, ?_, h.stands.blo_le, h.stands.le_bhi, h.stands.run⟩, ?_⟩
  · rcases h.seen with hseen | ⟨-, hb⟩
    · exact hseen
    · rw [(Nat.add_eq_zero_iff.1 (Nat.le_zero.1 hb)).2]
      exact h.top
  · exact fun m hm hpos => h.first m (hm.mono (Nat.le_succ _)) hpos (Or.inl hm.le_ahi)

include halo hblo in
theorem size_le_scan {m : Match} (hm : Stands (Kept a b) alo ahi blo bhi m) :
    m.size ≤ (scan a b blo bhi (ahi - alo) alo ⟨alo, blo, 0⟩ fun _ => 0).size := by
  rcases Nat.eq_zero_or_pos m.size with hzero | hpos
  · rw [hzero]
    exact Nat.zero_le _
  · rcases (scan_spec halo hblo).2 m hm hpos with hlt | ⟨heq, -⟩
    · exact hlt.le
    · exact heq.le

include halo hahi hblo

/-- The longest match stands in both sequences, at the end of its extension. -/
theorem findLongestMatch_stands :
    Stands (Same a b) alo ahi blo bhi (findLongestMatch a b alo ahi blo bhi) := by
  have hscan := (scan_spec (a := a) (b := b) halo hblo).1.imp fun i j => Kept.same
  exact (extendRight_spec hahi ahi (extendLeft_spec hahi hscan).1).1

/-- No block of elements that are not popular is longer. -/
theorem le_size {m : Match} (hm : Stands (Kept a b) alo ahi blo bhi m) :
    m.size ≤ (findLongestMatch a b alo ahi blo bhi).size := by
  have hstands := (scan_spec (a := a) (b := b) halo hblo).1
  have hleft := extendLeft_spec hahi (hstands.imp fun i j => Kept.same)
  have hright := extendRight_spec hahi ahi hleft.1
  exact (size_le_scan halo hblo hm).trans (hleft.2.1.trans hright.2.1)

/-- In a short sequence no block is longer, and none of the same size starts earlier, as is
documented of the longest match. -/
theorem findLongestMatch_first (hshort : b.length < 200) {m : Match}
    (hm : Stands (Same a b) alo ahi blo bhi m) (hpos : 0 < m.size) :
    m.size < (findLongestMatch a b alo ahi blo bhi).size ∨
      m.size = (findLongestMatch a b alo ahi blo bhi).size ∧
        Earlier (findLongestMatch a b alo ahi blo bhi) m := by
  obtain ⟨hstands, hlong⟩ := scan_spec (a := a) (b := b) halo hblo
  have hsame := hstands.imp fun i j => Kept.same
  have hmax : ∀ m, Stands (Same a b) alo ahi blo bhi m →
      m.size ≤ (scan a b blo bhi (ahi - alo) alo ⟨alo, blo, 0⟩ fun _ => 0).size :=
    fun m hm => size_le_scan halo hblo (hm.imp fun i j => Same.kept hshort)
  -- the longest block of all cannot be extended
  have heq : findLongestMatch a b alo ahi blo bhi
      = scan a b blo bhi (ahi - alo) alo ⟨alo, blo, 0⟩ fun _ => 0 := by
    rw [findLongestMatch]
    simp only [(extendLeft_spec hahi hsame).2.2 hmax]
    exact (extendRight_spec hahi ahi hsame).2.2 hmax
  rw [heq]
  exact hlong m (hm.imp fun i j => Same.kept hshort) hpos

end

/-! ## What the blocks cover -/

/-- The elements of a window. -/
def slice (l : List α) (lo hi : Nat) : List α := (l.take hi).drop lo

omit [DecidableEq α] in
theorem slice_append {l : List α} {lo mid hi : Nat} (h : lo ≤ mid) (h' : mid ≤ hi) :
    slice l lo hi = slice l lo mid ++ slice l mid hi := by
  have hmid : l.take mid = (l.take hi).take mid := by rw [List.take_take, min_eq_left h']
  have hdrop : (l.take hi).drop mid = ((l.take hi).drop lo).drop (mid - lo) := by
    rw [List.drop_drop, Nat.add_sub_cancel' h]
  rw [slice, slice, slice, hmid, hdrop]
  generalize l.take hi = t
  rw [List.drop_take, List.take_append_drop]

omit [DecidableEq α] in
theorem length_slice {l : List α} {lo hi : Nat} (h : hi ≤ l.length) :
    (slice l lo hi).length = hi - lo := by
  rw [slice, List.length_drop, List.length_take, min_eq_left h]

omit [DecidableEq α] in
theorem getElem?_slice (l : List α) (lo k t : Nat) :
    (slice l lo (lo + k))[t]? = if t < k then l[lo + t]? else none := by
  rw [slice, List.getElem?_drop, List.getElem?_take]
  by_cases ht : t < k
  · rw [if_pos ht, if_pos (by omega)]
  · rw [if_neg ht, if_neg (by omega)]

omit [DecidableEq α] in
/-- A block stands in both sequences. -/
theorem slice_eq {m : Match} (h : Stands (Same a b) alo ahi blo bhi m) :
    slice a m.a (m.a + m.size) = slice b m.b (m.b + m.size) := by
  refine List.ext_getElem? fun t => ?_
  rw [getElem?_slice, getElem?_slice]
  split
  · rename_i ht
    exact (h.run t ht).eq
  · rfl

/-- One call for every element of the window is enough. -/
theorem matchingBlocks_fuel (a b : List α) {n alo ahi blo bhi : Nat} (halo : alo ≤ ahi)
    (hahi : ahi ≤ a.length) (hblo : blo ≤ bhi) (hn : ahi ≤ alo + n) :
    matchingBlocks a b (n + 1) alo ahi blo bhi = matchingBlocks a b n alo ahi blo bhi := by
  induction n generalizing alo ahi blo bhi with
  | zero =>
    have hm := findLongestMatch_stands (b := b) halo hahi hblo
    have hlo := hm.alo_le
    have hhi := hm.le_ahi
    have hzero : (findLongestMatch a b alo ahi blo bhi).size = 0 := by omega
    simp [matchingBlocks, hzero]
  | succ n ih =>
    have hm := findLongestMatch_stands (b := b) halo hahi hblo
    conv_lhs => rw [matchingBlocks]
    conv_rhs => rw [matchingBlocks]
    revert hm
    generalize findLongestMatch a b alo ahi blo bhi = m
    intro hm
    obtain ⟨hlo, hhi, hlo', hhi', -⟩ := hm
    by_cases hsize : m.size = 0
    · rw [if_pos hsize, if_pos hsize]
    · rw [if_neg hsize, if_neg hsize, ih hlo (by omega) hlo' (by omega),
        ih hhi hahi hhi' (by omega)]

/-- What the blocks cover stands in both windows, in this order. -/
theorem matchingBlocks_sublist (a b : List α) (n : Nat) {alo ahi blo bhi : Nat}
    (halo : alo ≤ ahi) (hahi : ahi ≤ a.length) (hblo : blo ≤ bhi) (hbhi : bhi ≤ b.length) :
    ∃ c : List α, c.Sublist (slice a alo ahi) ∧ c.Sublist (slice b blo bhi) ∧
      c.length = ((matchingBlocks a b n alo ahi blo bhi).map Match.size).sum := by
  induction n generalizing alo ahi blo bhi with
  | zero => exact ⟨[], List.nil_sublist _, List.nil_sublist _, rfl⟩
  | succ n ih =>
    have hm := findLongestMatch_stands (b := b) halo hahi hblo
    rw [matchingBlocks]
    revert hm
    generalize findLongestMatch a b alo ahi blo bhi = m
    intro hm
    obtain ⟨hlo, hhi, hlo', hhi', -⟩ := id hm
    split
    · exact ⟨[], List.nil_sublist _, List.nil_sublist _, rfl⟩
    · -- left of the block, the block, and right of it
      obtain ⟨l, hla, hlb, hlen⟩ : ∃ l : List α, l.Sublist (slice a alo m.a) ∧
          l.Sublist (slice b blo m.b) ∧ l.length = (((if alo < m.a ∧ blo < m.b then
            matchingBlocks a b n alo m.a blo m.b else [])).map Match.size).sum := by
        split
        · exact ih hlo (by omega) hlo' (by omega)
        · exact ⟨[], List.nil_sublist _, List.nil_sublist _, rfl⟩
      obtain ⟨r, hra, hrb, hren⟩ : ∃ r : List α, r.Sublist (slice a (m.a + m.size) ahi) ∧
          r.Sublist (slice b (m.b + m.size) bhi) ∧ r.length = (((if m.a + m.size < ahi ∧
            m.b + m.size < bhi then matchingBlocks a b n (m.a + m.size) ahi (m.b + m.size) bhi
              else [])).map Match.size).sum := by
        split
        · exact ih hhi hahi hhi' hbhi
        · exact ⟨[], List.nil_sublist _, List.nil_sublist _, rfl⟩
      refine ⟨l ++ (slice a m.a (m.a + m.size) ++ r), ?_, ?_, ?_⟩
      · rw [slice_append hlo (by omega : m.a ≤ ahi), slice_append (Nat.le_add_right _ _) hhi]
        exact hla.append ((List.Sublist.refl _).append hra)
      · rw [slice_append hlo' (by omega : m.b ≤ bhi), slice_append (Nat.le_add_right _ _) hhi',
          slice_eq hm]
        exact hlb.append ((List.Sublist.refl _).append hrb)
      · rw [List.length_append, List.length_append, length_slice (hhi.trans hahi), hlen, hren,
          List.map_append, List.map_cons, List.sum_append, List.sum_cons]
        omega

end

section

variable (a b : List α)

omit [DecidableEq α] in
theorem slice_all (l : List α) : slice l 0 l.length = l := by
  rw [slice, List.take_length, List.drop_zero]

/-- What the blocks cover is a common subsequence. -/
theorem matching_sublist :
    ∃ c : List α, c.Sublist a ∧ c.Sublist b ∧ c.length = matching a b := by
  have h := matchingBlocks_sublist a b a.length (Nat.zero_le _) (le_refl a.length)
    (Nat.zero_le _) (le_refl b.length)
  rwa [slice_all, slice_all] at h

/-- The blocks cover as much as any common block of elements that are not popular. -/
theorem le_matching {m : Match} (hm : Stands (Kept a b) 0 a.length 0 b.length m) :
    m.size ≤ matching a b := by
  have hle := le_size (Nat.zero_le _) (le_refl a.length) (Nat.zero_le _) hm
  rw [matching]
  cases hn : a.length with
  | zero =>
    have := hm.le_ahi
    omega
  | succ n =>
    rw [hn] at hle
    rw [matchingBlocks]
    split
    · rename_i hzero
      rw [List.map_nil, List.sum_nil]
      exact hle.trans hzero.le
    · rw [List.map_append, List.map_cons, List.sum_append, List.sum_cons]
      omega

/-- In a short sequence no common block is longer than what the blocks cover. -/
theorem length_le_matching (hshort : b.length < 200) {w : List α} (ha : w <:+: a)
    (hb : w <:+: b) : w.length ≤ matching a b := by
  obtain ⟨s, t, rfl⟩ := ha
  obtain ⟨s', t', rfl⟩ := hb
  refine le_matching _ _ (m := ⟨s.length, s'.length, w.length⟩)
    ⟨Nat.zero_le _, ?_, Nat.zero_le _, ?_, ?_⟩
  · simp
  · simp
  · intro k hk
    have hget : ∀ u v : List α, (u ++ w ++ v)[u.length + k]? = some w[k] := by
      intro u v
      rw [List.append_assoc, List.getElem?_append_right (Nat.le_add_right _ _),
        Nat.add_sub_cancel_left, List.getElem?_append_left hk, List.getElem?_eq_getElem hk]
    exact Same.kept hshort ⟨w[k], hget s t, hget s' t'⟩

end

end SequenceMatcher
