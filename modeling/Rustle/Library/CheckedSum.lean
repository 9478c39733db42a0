import Mathlib

/-!
# Sums of natural numbers in signed integers

A fold that adds natural numbers in a signed integer of `w + 1` bits, once with
wrapping and once with a check of each addition.

* `foldl_add_eq` — the wrapping fold is the total, as a machine integer.
* `foldlM_checkedAdd_eq` — the checked one fails exactly if the total does not fit.
* `slt_ofNat_iff` — what a signed comparison with the total says.
-/

namespace CheckedSum

variable {α : Type} {w : Nat}

/-- Addition that fails where the signed sum leaves the range. -/
def checkedAdd (a b : BitVec w) : Option (BitVec w) :=
  if a.saddOverflow b then none else some (a + b)

/-- A natural number as a signed integer of `w + 1` bits, where it fits. -/
def ofNat? (w n : Nat) : Option (BitVec (w + 1)) :=
  if n < 2 ^ w then some (BitVec.ofNat (w + 1) n) else none

theorem ofNat?_of_lt {n : Nat} (h : n < 2 ^ w) : ofNat? w n = some (BitVec.ofNat (w + 1) n) := by
  rw [ofNat?, if_pos h]

@[simp] theorem ofNat?_isSome (n : Nat) : (ofNat? w n).isSome ↔ n < 2 ^ w := by
  unfold ofNat?
  split
  · simpa
  · simpa using Nat.le_of_not_lt ‹_›

theorem toInt_ofNat_of_lt {n : Nat} (h : n < 2 ^ w) : (BitVec.ofNat (w + 1) n).toInt = n := by
  have hw : 2 ^ (w + 1) = 2 * 2 ^ w := by rw [pow_succ, mul_comm]
  rw [BitVec.toInt_eq_toNat_cond, BitVec.toNat_ofNat, Nat.mod_eq_of_lt (by omega),
    if_pos (by omega)]

/-- One checked addition. -/
theorem checkedAdd_ofNat {a b : Nat} (ha : a < 2 ^ w) (hb : b < 2 ^ w) :
    checkedAdd (BitVec.ofNat (w + 1) a) (BitVec.ofNat (w + 1) b) = ofNat? w (a + b) := by
  have hcast : ((2 : Int) ^ w) = ((2 ^ w : Nat) : Int) := by norm_cast
  unfold checkedAdd ofNat?
  rw [BitVec.saddOverflow, toInt_ofNat_of_lt ha, toInt_ofNat_of_lt hb, Nat.add_sub_cancel, hcast,
    ← BitVec.ofNat_add]
  by_cases h : a + b < 2 ^ w
  · rw [if_pos h, if_neg]
    simp only [Bool.or_eq_true, decide_eq_true_eq]
    omega
  · rw [if_neg h, if_pos]
    simp only [Bool.or_eq_true, decide_eq_true_eq]
    omega

/-- Additions that wrap come to the total, reduced once. -/
theorem foldl_add_eq {l : List α} {g : α → BitVec w} {v : α → Nat}
    (h : ∀ x ∈ l, g x = BitVec.ofNat w (v x)) (a : Nat) :
    l.foldl (fun s x => s + g x) (BitVec.ofNat w a) = BitVec.ofNat w (a + (l.map v).sum) := by
  induction l generalizing a with
  | nil => rfl
  | cons x l ih =>
    rw [List.foldl_cons, h x List.mem_cons_self, ← BitVec.ofNat_add,
      ih (fun y hy => h y (List.mem_cons_of_mem _ hy)), List.map_cons, List.sum_cons, add_assoc]

/-- Checked additions succeed exactly if the total fits: no addition on the way
fails on its own. -/
theorem foldlM_checkedAdd_eq {l : List α} {g : α → Option (BitVec (w + 1))} {v : α → Nat}
    (h : ∀ x ∈ l, g x = ofNat? w (v x)) {a : Nat} (ha : a < 2 ^ w) :
    l.foldlM (fun s x => (g x).bind (checkedAdd s)) (BitVec.ofNat (w + 1) a)
      = ofNat? w (a + (l.map v).sum) := by
  induction l generalizing a with
  | nil => exact (ofNat?_of_lt ha).symm
  | cons x l ih =>
    rw [List.foldlM_cons, h x List.mem_cons_self, List.map_cons, List.sum_cons]
    by_cases hx : v x < 2 ^ w
    · rw [ofNat?_of_lt hx, Option.bind_some, checkedAdd_ofNat ha hx]
      by_cases hax : a + v x < 2 ^ w
      · rw [ofNat?_of_lt hax, ← add_assoc]
        exact ih (fun y hy => h y (List.mem_cons_of_mem _ hy)) hax
      · rw [ofNat?, if_neg hax, ofNat?, if_neg (by omega)]
        rfl
    · rw [ofNat?, if_neg hx, ofNat?, if_neg (by omega)]
      rfl

/-- A number below the sign bit is less than the total in a signed comparison
exactly if the reduced total is greater and below the sign bit too. -/
theorem slt_ofNat_iff {k n : Nat} (hk : k < 2 ^ w) :
    (BitVec.ofNat (w + 1) k).slt (BitVec.ofNat (w + 1) n) ↔
      k < n % 2 ^ (w + 1) ∧ n % 2 ^ (w + 1) < 2 ^ w := by
  have hw : 2 ^ (w + 1) = 2 * 2 ^ w := by rw [pow_succ, mul_comm]
  have hlt : n % 2 ^ (w + 1) < 2 ^ (w + 1) := Nat.mod_lt _ (by positivity)
  rw [BitVec.slt, decide_eq_true_eq, toInt_ofNat_of_lt hk, BitVec.toInt_eq_toNat_cond,
    BitVec.toNat_ofNat]
  split
  · omega
  · omega

end CheckedSum
