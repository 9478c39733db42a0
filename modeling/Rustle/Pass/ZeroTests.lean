import Rustle.Pass.UnclaimedStorageFee

/-!
# Which comparisons test for zero, and which the search takes for one

* `Predicate.holds` — the outcome of an `icmp` on two 128-bit numbers.
* `zeroTest_iff` — the comparisons with a constant that test for zero: one constant for
  each unsigned predicate, none for a signed one.
* `isBalanceCmp_iff`, `testsZero_iff` — what the search accepts and what tests for zero
  agree on the spellings with a zero; they differ on `Misread` and `Missed`.
* `balance_cmp_exact_iff` — when the search is right.
-/

namespace UnclaimedStorageFee

open Llvm NearCore FaultyLoop
open Text (lit)

/-! ## The outcome of a comparison -/

/-- The 128 bits as a signed number. -/
def toSigned (n : Nat) : Int := if n < 2 ^ 127 then n else n - 2 ^ 128

/-- The outcome of `icmp predicate a, b`. -/
def holds (predicate : Predicate) (a b : Nat) : Prop :=
  match predicate with
  | .eq => a = b
  | .ne => a ≠ b
  | .ugt => b < a
  | .uge => b ≤ a
  | .ult => a < b
  | .ule => a ≤ b
  | .sgt => toSigned b < toSigned a
  | .sge => toSigned b ≤ toSigned a
  | .slt => toSigned a < toSigned b
  | .sle => toSigned a ≤ toSigned b

instance (predicate : Predicate) (a b : Nat) : Decidable (holds predicate a b) :=
  match predicate with
  | .eq => inferInstanceAs (Decidable (a = b))
  | .ne => inferInstanceAs (Decidable (a ≠ b))
  | .ugt => inferInstanceAs (Decidable (b < a))
  | .uge => inferInstanceAs (Decidable (b ≤ a))
  | .ult => inferInstanceAs (Decidable (a < b))
  | .ule => inferInstanceAs (Decidable (a ≤ b))
  | .sgt => inferInstanceAs (Decidable (toSigned b < toSigned a))
  | .sge => inferInstanceAs (Decidable (toSigned b ≤ toSigned a))
  | .slt => inferInstanceAs (Decidable (toSigned a < toSigned b))
  | .sle => inferInstanceAs (Decidable (toSigned a ≤ toSigned b))

/-- The predicate with its operands exchanged. -/
def swapped : Predicate → Predicate
  | .eq => .eq
  | .ne => .ne
  | .ugt => .ult
  | .uge => .ule
  | .ult => .ugt
  | .ule => .uge
  | .sgt => .slt
  | .sge => .sle
  | .slt => .sgt
  | .sle => .sge

theorem holds_swapped (predicate : Predicate) (a b : Nat) :
    holds (swapped predicate) b a ↔ holds predicate a b := by
  cases predicate with
  | eq | ne => simp [holds, swapped, eq_comm]
  | ugt | uge | ult | ule | sgt | sge | slt | sle => rfl

/-- Over all 128-bit numbers, the test is *equals 0* or *differs from 0*. -/
def IsZeroTest (test : Nat → Prop) : Prop :=
  (∀ n < 2 ^ 128, test n ↔ n = 0) ∨ ∀ n < 2 ^ 128, test n ↔ n ≠ 0

/-- The constant that makes a comparison with it, on the right, a test for zero. -/
def zeroConstant : Predicate → Option Nat
  | .eq | .ne | .ugt | .ule => some 0
  | .uge | .ult => some 1
  | .sgt | .sge | .slt | .sle => none

theorem toSigned_zero : toSigned 0 = 0 := rfl

theorem toSigned_one : toSigned 1 = 1 := rfl

theorem toSigned_min : toSigned (2 ^ 127) = -2 ^ 127 := by decide

/-- A test for zero tells zero from every other number, and these not from each other. -/
theorem IsZeroTest.values {test : Nat → Prop} (h : IsZeroTest test) :
    (test 0 ∧ ¬ test 1 ∧ ¬ test 2 ∧ ¬ test (2 ^ 127)) ∨
      (¬ test 0 ∧ test 1 ∧ test 2 ∧ test (2 ^ 127)) := by
  rcases h with h | h
  · refine Or.inl ⟨?_, ?_, ?_, ?_⟩
    · exact (h 0 (by norm_num)).2 rfl
    · exact fun hone => absurd ((h 1 (by norm_num)).1 hone) (by norm_num)
    · exact fun htwo => absurd ((h 2 (by norm_num)).1 htwo) (by norm_num)
    · exact fun hmin => absurd ((h (2 ^ 127) (by norm_num)).1 hmin) (by norm_num)
  · refine Or.inr ⟨?_, ?_, ?_, ?_⟩
    · exact fun hzero => (h 0 (by norm_num)).1 hzero rfl
    · exact (h 1 (by norm_num)).2 (by norm_num)
    · exact (h 2 (by norm_num)).2 (by norm_num)
    · exact (h (2 ^ 127) (by norm_num)).2 (by norm_num)

/-- The tests for zero among the comparisons with a constant on the right. -/
theorem zeroTest_iff (predicate : Predicate) (c : Nat) :
    IsZeroTest (fun n => holds predicate n c) ↔ zeroConstant predicate = some c := by
  constructor
  · intro h
    have hvalues := h.values
    cases predicate with
    | eq | ne | ugt | uge | ult | ule =>
      simp only [holds] at hvalues
      simp only [zeroConstant, Option.some.injEq]
      omega
    | sgt | sge | slt | sle =>
      simp only [holds, toSigned_zero, toSigned_one, toSigned_min] at hvalues
      omega
  · intro h
    cases predicate with
    | eq =>
      obtain rfl : 0 = c := by simpa [zeroConstant] using h
      exact Or.inl fun n _ => Iff.rfl
    | ne =>
      obtain rfl : 0 = c := by simpa [zeroConstant] using h
      exact Or.inr fun n _ => Iff.rfl
    | ule | ult =>
      simp only [zeroConstant, Option.some.injEq] at h
      subst h
      refine Or.inl fun n _ => ?_
      simp only [holds]
      omega
    | ugt | uge =>
      simp only [zeroConstant, Option.some.injEq] at h
      subst h
      refine Or.inr fun n _ => ?_
      simp only [holds]
      omega
    | sgt | sge | slt | sle => simp [zeroConstant] at h

/-! ## What the search accepts -/

section

variable (M : TypedModule)

/-- The value is a constant with the property. -/
def IsConst (P : Nat → Prop) (v : ValueId) : Prop := ∃ c, M.constantInt v = some c ∧ P c

/-- A 128-bit comparison, of which something holds. -/
def Compared (R : Predicate → ValueId → ValueId → Prop) (p : ValueId × Instruction) : Prop :=
  ∃ lhs rhs predicate, p.2.op = .other [lhs, rhs] ∧ M.otherClass p.1 = .icmp predicate ∧
    M.isInt128 lhs = true ∧ R predicate lhs rhs

/-- The operands where the constant of a spelling with zero stands: on either side of an
equality, `_ <= 0`, `_ > 0`, `0 >= _` and `0 < _`. -/
def SpelledBy (P : Nat → Prop) (predicate : Predicate) (lhs rhs : ValueId) : Prop :=
  match predicate with
  | .eq | .ne => IsConst M P rhs ∨ IsConst M P lhs
  | .ule | .ugt => IsConst M P rhs
  | .uge | .ult => IsConst M P lhs
  | .sgt | .sge | .slt | .sle => False

/-- The comparison is with zero. -/
def WithZero : ValueId × Instruction → Prop := Compared M (SpelledBy M (· = 0))

/-- The comparison is with another constant, whose low 64 bits are zero. -/
def Misread : ValueId × Instruction → Prop :=
  Compared M (SpelledBy M fun c => c ≠ 0 ∧ c % 2 ^ 64 = 0)

/-- A test for zero by a one: `_ < 1`, `_ >= 1`, `1 > _` and `1 <= _`. -/
def Missed : ValueId × Instruction → Prop :=
  Compared M fun predicate lhs rhs =>
    match predicate with
    | .ult | .uge => IsConst M (· = 1) rhs
    | .ugt | .ule => IsConst M (· = 1) lhs
    | .eq | .ne | .sgt | .sge | .slt | .sle => False

/-- A 128-bit comparison with a constant whose outcome, as a function of the other
operand, is a test for zero. -/
def TestsZero : ValueId × Instruction → Prop :=
  Compared M fun predicate lhs rhs =>
    IsConst M (fun c => IsZeroTest fun n => holds predicate n c) rhs ∨
      IsConst M (fun c => IsZeroTest fun n => holds predicate c n) lhs

/-- The function `G` is `n` direct calls away from `F`. -/
inductive Away (G : Function) : Nat → Function → Prop
  | here : Away G 0 G
  | call {n : Nat} {F H : Function} {p : ValueId × Instruction} :
    p ∈ F.instructions M.toModule → M.getCalledFunction p.2 = some H → Away G n H →
      Away G (n + 1) F

/-- The function, or one at most `d` direct calls away, contains such an instruction. -/
def InRange (d : Nat) (F : Function) (P : ValueId × Instruction → Prop) : Prop :=
  ∃ n ≤ d, ∃ G, Away M G n F ∧ ∃ p ∈ G.instructions M.toModule, P p

/-- Every call of the module is direct. -/
def AllDirect : Prop :=
  ∀ F ∈ M.functions, ∀ p ∈ F.instructions M.toModule, p.2.isCall = true →
    ∃ G, M.getCalledFunction p.2 = some G

end

section

variable {M : TypedModule} {p : ValueId × Instruction}

theorem compared_congr {R R' : Predicate → ValueId → ValueId → Prop}
    (h : ∀ predicate lhs rhs, R predicate lhs rhs ↔ R' predicate lhs rhs) :
    Compared M R p ↔ Compared M R' p := by
  simp only [Compared, h]

theorem compared_or {R R' : Predicate → ValueId → ValueId → Prop} :
    Compared M (fun predicate lhs rhs => R predicate lhs rhs ∨ R' predicate lhs rhs) p ↔
      Compared M R p ∨ Compared M R' p := by
  simp only [Compared, and_or_left, exists_or]

theorem isConst_or {P Q : Nat → Prop} {v : ValueId} :
    IsConst M (fun c => P c ∨ Q c) v ↔ IsConst M P v ∨ IsConst M Q v := by
  simp only [IsConst, and_or_left, exists_or]

theorem isZero_iff {v : ValueId} : isZero M v = true ↔ IsConst M (· % 2 ^ 64 = 0) v := by
  unfold isZero IsConst
  cases M.constantInt v with
  | none => simp
  | some n => simp

theorem spelledBy_or {P Q : Nat → Prop} {predicate : Predicate} {lhs rhs : ValueId} :
    SpelledBy M (fun c => P c ∨ Q c) predicate lhs rhs ↔
      SpelledBy M P predicate lhs rhs ∨ SpelledBy M Q predicate lhs rhs := by
  cases predicate with
  | eq | ne => simp only [SpelledBy, isConst_or, or_or_or_comm]
  | ule | ugt | uge | ult => exact isConst_or
  | sgt | sge | slt | sle => simp [SpelledBy]

/-- The search accepts the spellings by what reads as a zero. -/
theorem isBalanceCmp_iff_compared :
    isBalanceCmp M p.1 p.2 = true ↔ Compared M (SpelledBy M (· % 2 ^ 64 = 0)) p := by
  unfold isBalanceCmp
  constructor
  · intro h
    split at h
    · rename_i lhs rhs predicate hop hclass
      rw [Bool.and_eq_true] at h
      refine ⟨lhs, rhs, predicate, hop, hclass, h.1, ?_⟩
      cases predicate with
      | eq | ne => simpa [SpelledBy, isZero_iff] using h.2
      | ule | ugt | uge | ult => simpa [SpelledBy, isZero_iff] using h.2
      | sgt | sge | slt | sle => simp at h
    · simp at h
  · rintro ⟨lhs, rhs, predicate, hop, hclass, hint, hspelled⟩
    rw [hop, hclass]
    cases predicate with
    | eq | ne => simpa [SpelledBy, hint, isZero_iff] using hspelled
    | ule | ugt | uge | ult => simpa [SpelledBy, hint, isZero_iff] using hspelled
    | sgt | sge | slt | sle => exact hspelled.elim

/-- What reads as a zero is a zero, or another constant with zeros below. -/
theorem isBalanceCmp_iff : isBalanceCmp M p.1 p.2 = true ↔ WithZero M p ∨ Misread M p := by
  rw [isBalanceCmp_iff_compared, WithZero, Misread, ← compared_or]
  have hlow : (fun c : Nat => c % 2 ^ 64 = 0) = fun c => c = 0 ∨ c ≠ 0 ∧ c % 2 ^ 64 = 0 := by
    funext c
    rw [eq_iff_iff]
    omega
  refine compared_congr fun predicate lhs rhs => ?_
  rw [hlow, spelledBy_or]

/-- The tests for zero are the spellings by a zero, and those by a one. -/
theorem testsZero_iff : TestsZero M p ↔ WithZero M p ∨ Missed M p := by
  rw [TestsZero, WithZero, Missed, ← compared_or]
  refine compared_congr fun predicate lhs rhs => ?_
  have hright : ∀ c, IsZeroTest (fun n => holds predicate n c) ↔
      zeroConstant predicate = some c := zeroTest_iff predicate
  have hleft : ∀ c, IsZeroTest (fun n => holds predicate c n) ↔
      zeroConstant (swapped predicate) = some c := by
    intro c
    rw [← zeroTest_iff]
    simp only [holds_swapped]
  simp only [hright, hleft]
  cases predicate with
  | eq | ne | ule | ugt | uge | ult =>
    simp [zeroConstant, swapped, SpelledBy, IsConst, eq_comm, or_comm]
  | sgt | sge | slt | sle => simp [zeroConstant, swapped, SpelledBy, IsConst]

/-! ## The search of a module without indirect calls -/

theorem isCall_of_getCalledFunction {N : Module} {i : Instruction} {G : Function}
    (h : N.getCalledFunction i = some G) : i.isCall = true := by
  unfold Module.getCalledFunction at h
  split at h
  · rename_i hop
    rw [Instruction.isCall, hop]
  · cases h

theorem inRange_zero_iff {F : Function} {P : ValueId × Instruction → Prop} :
    InRange M 0 F P ↔ ∃ p ∈ F.instructions M.toModule, P p := by
  constructor
  · rintro ⟨n, hn, G, haway, hp⟩
    obtain rfl : n = 0 := by omega
    cases haway
    exact hp
  · intro hp
    exact ⟨0, le_refl 0, F, .here, hp⟩

/-- The function itself, or what is in range of a function it calls. -/
theorem inRange_succ_iff {d : Nat} {F : Function} {P : ValueId × Instruction → Prop} :
    InRange M (d + 1) F P ↔ ∃ p ∈ F.instructions M.toModule, P p ∨
      ∃ H, M.getCalledFunction p.2 = some H ∧ InRange M d H P := by
  constructor
  · rintro ⟨n, hn, G, haway, q, hq, hP⟩
    cases haway with
    | here => exact ⟨q, hq, Or.inl hP⟩
    | call hp hH haway' => exact ⟨_, hp, Or.inr ⟨_, hH, _, by omega, G, haway', q, hq, hP⟩⟩
  · rintro ⟨p, hp, hP | ⟨H, hH, n, hn, G, haway, hq⟩⟩
    · exact ⟨0, Nat.zero_le _, F, .here, p, hp, hP⟩
    · exact ⟨n + 1, by omega, G, .call hp hH haway, hq⟩

theorem inRange_or {d : Nat} {F : Function} {P Q : ValueId × Instruction → Prop} :
    InRange M d F (fun p => P p ∨ Q p) ↔ InRange M d F P ∨ InRange M d F Q := by
  simp only [InRange, and_or_left, exists_or]

/-- No call of the module leads to a null function. -/
theorem not_meetsNull (hM : AllDirect M) {d : Nat} {F : Function} (hF : F ∈ M.functions) :
    ¬ MeetsNull M d (some F) := by
  induction d generalizing F with
  | zero => exact id
  | succ d ih =>
    intro hreach
    obtain ⟨p, hp, hcall, hnull⟩ := Reaches.exists_mem hreach
    obtain ⟨G, hG⟩ := hM F hF p hp hcall
    rw [hG] at hnull
    exact ih (M.mem_functions_of_getCalledFunction hG) hnull

/-- The search comes through without a comparison exactly when there is none in range. -/
theorem bare_iff (hM : AllDirect M) {d : Nat} {F : Function} (hF : F ∈ M.functions) :
    Bare M (d + 1) (some F) ↔ ¬ InRange M d F fun p => isBalanceCmp M p.1 p.2 = true := by
  induction d generalizing F with
  | zero =>
    rw [inRange_zero_iff]
    simp [Bare]
  | succ d ih =>
    rw [inRange_succ_iff, Bare]
    push Not
    refine forall₂_congr fun p hp => and_congr (by simp) ?_
    constructor
    · intro hbare H hH
      have hcalled := hbare (isCall_of_getCalledFunction hH)
      rw [hH] at hcalled
      exact (ih (M.mem_functions_of_getCalledFunction hH)).1 hcalled
    · intro hnone hcall
      obtain ⟨H, hH⟩ := hM F hF p hp hcall
      rw [hH]
      exact (ih (M.mem_functions_of_getCalledFunction hH)).2 (hnone H hH)

/-- The search looks for what it accepts down to its depth. -/
theorem hasBalanceCmp_iff (hM : AllDirect M) {d : Nat} {F : Function} (hF : F ∈ M.functions) :
    ∃ found, hasBalanceCmp M (d + 1) (some F) = .ok found ∧
      (found = true ↔ InRange M d F fun p => isBalanceCmp M p.1 p.2 = true) := by
  cases hfound : hasBalanceCmp M (d + 1) (some F) with
  | error e => exact absurd ((hasBalanceCmp_eq_error_iff M).1 hfound).2 (not_meetsNull hM hF)
  | ok found =>
    refine ⟨found, rfl, ?_⟩
    rw [← not_iff_not, ← bare_iff hM hF, ← hasBalanceCmp_eq_false_iff, hfound,
      Except.ok.injEq, Bool.not_eq_true]

/-- The search is right about a function exactly when a comparison with zero is in range,
or both or none of the two kinds are that it gets wrong. -/
theorem balance_cmp_exact_iff (M : TypedModule) (hM : AllDirect M) (F : Function)
    (hF : F ∈ M.functions) :
    (∃ found, hasBalanceCmp M 3 (some F) = .ok found ∧
      (found = true ↔ InRange M 2 F (TestsZero M))) ↔
      InRange M 2 F (WithZero M) ∨ (InRange M 2 F (Misread M) ↔ InRange M 2 F (Missed M)) := by
  obtain ⟨found, hfound, hiff⟩ := hasBalanceCmp_iff hM hF (d := 2)
  have haccepted : (fun p => isBalanceCmp M p.1 p.2 = true) =
      fun p => WithZero M p ∨ Misread M p := by
    funext p
    rw [eq_iff_iff, isBalanceCmp_iff]
  have htests : TestsZero M = fun p => WithZero M p ∨ Missed M p := by
    funext p
    rw [eq_iff_iff, testsZero_iff]
  rw [haccepted, inRange_or] at hiff
  rw [htests, inRange_or, hfound]
  simp only [Except.ok.injEq, exists_eq_left', hiff]
  tauto

end

/-- `storage_unregister` of a contract that compares the balance with a constant. -/
def storageUnregister : Function :=
  ⟨lit "_ZN4bank4Bank18storage_unregister17h1E" rfl, 0, [1], [⟨lit "start" rfl, [3]⟩]⟩

/-- The comparison is with the constant, by the predicate. -/
def bank (predicate : Predicate) (constant : Nat) : TypedModule where
  values :=
    [.function, .argument, .constant [],
     .instruction ⟨.other [1, 2], some ⟨lit "src/lib.rs" rfl, 20⟩⟩]
  functions := [storageUnregister]
  users := useList _
  users_perm := fun _ => .refl _
  operands_lt := by decide
  params_lt := by decide
  names_nodup := by decide +kernel
  functions_nodup := by decide
  otherClass _ := .icmp predicate
  typeName _ := []
  printed _ := []
  isInt128 _ := true
  constantInt v := if v = 2 then some constant else none

theorem bank_allDirect (predicate : Predicate) (constant : Nat) :
    AllDirect (bank predicate constant) := by
  intro F hF p hp hcall
  obtain rfl := List.mem_singleton.1 hF
  obtain rfl := List.mem_singleton.1 hp
  cases hcall

theorem balance_cmp_exact_iff_bank :
    (∃ found, hasBalanceCmp (bank .eq 0) 3 (some storageUnregister) = .ok found ∧
      (found = true ↔ InRange (bank .eq 0) 2 storageUnregister (TestsZero (bank .eq 0)))) ↔
      InRange (bank .eq 0) 2 storageUnregister (WithZero (bank .eq 0)) ∨
        (InRange (bank .eq 0) 2 storageUnregister (Misread (bank .eq 0)) ↔
          InRange (bank .eq 0) 2 storageUnregister (Missed (bank .eq 0))) :=
  balance_cmp_exact_iff (bank .eq 0) (bank_allDirect .eq 0) storageUnregister
    (List.mem_singleton.2 rfl)

/-- What is in range of the function stands in it. -/
theorem inRange_bank {predicate : Predicate} {constant : Nat}
    {P : ValueId × Instruction → Prop}
    (h : InRange (bank predicate constant) 2 storageUnregister P) :
    P (3, ⟨.other [1, 2], some ⟨lit "src/lib.rs" rfl, 20⟩⟩) := by
  obtain ⟨n, -, G, haway, p, hp, hP⟩ := h
  cases haway with
  | here =>
    obtain rfl := List.mem_singleton.1 hp
    exact hP
  | call hq hH _ =>
    obtain rfl := List.mem_singleton.1 hq
    cases hH

/-- A comparison with 2^64 is taken for one with zero, and `balance < 1` for none. -/
theorem large_constant_accepted :
    (hasBalanceCmp (bank .eq (2 ^ 64)) 3 (some storageUnregister) = .ok true ∧
      ¬ InRange (bank .eq (2 ^ 64)) 2 storageUnregister (TestsZero (bank .eq (2 ^ 64)))) ∧
    (hasBalanceCmp (bank .ult 1) 3 (some storageUnregister) = .ok false ∧
      InRange (bank .ult 1) 2 storageUnregister (TestsZero (bank .ult 1))) := by
  refine ⟨⟨by decide +kernel, fun hrange => ?_⟩, by decide +kernel, ?_⟩
  · obtain ⟨lhs, rhs, predicate, hop, hclass, -, htest⟩ := inRange_bank hrange
    cases hop
    cases hclass
    rcases htest with ⟨c, hc, hzero⟩ | ⟨c, hc, -⟩
    · cases hc
      -- equality with 2^64 holds neither of zero nor of one
      rcases hzero.values with ⟨h0, -⟩ | ⟨-, h1, -⟩
      · exact absurd h0 (by decide)
      · exact absurd h1 (by decide)
    · cases hc
  · refine ⟨0, by omega, _, .here, _, List.mem_singleton.2 rfl, testsZero_iff.2 (Or.inr ?_)⟩
    exact ⟨1, 2, .ult, rfl, rfl, rfl, 1, rfl, rfl⟩

end UnclaimedStorageFee
