import Rustle.Llvm.NearCore

/-!
# `nft-owner-check`: approval functions without an owner check

The pass writes down, for each approval function, whether `isFuncPrivileged` finds a check
of the caller in it or in what it calls.

* `isFuncPrivilegedAt` — the search at any depth, a negative one included.
* `Calls`, `CallChain` — the calls that the search follows, and some of them in a row.
* `isFuncPrivilegedAt_iff` — what the search finds is at the end of a chain that is **not
  longer** than its depth.
* `runOnModule` — the pass; `mem_runOnModule_iff` — what its lines say.
-/

namespace NftOwnerCheck

open Llvm NearCore
open Text (lit)

section

variable (M : Module)

/-- `isFuncPrivileged(F, depth)` -/
def isFuncPrivilegedAt (depth : Int) (F : Function) : Bool :=
  isFuncPrivilegedRec M (depth + 1).toNat F

/-! ## Chains of calls -/

/-- A project-located direct call of `G` in `F`, where the name of `G` is not that of
`predecessor_account_id`. -/
def Calls (F G : Function) : Prop :=
  ∃ p ∈ F.instructions M, inProject p.2 = true ∧ M.getCalledFunction p.2 = some G ∧
    Regex.matchPattern regex_predecessor G.name = false

/-- `k` such calls in a row lead from `F` to `G`. -/
inductive CallChain : Nat → Function → Function → Prop
  | refl (F : Function) : CallChain 0 F F
  | step {k : Nat} {F G H : Function} (h : Calls M F G) (hs : CallChain k G H) :
      CallChain (k + 1) F H

/-- A project-located call of `predecessor_account_id`, and some call of the equality of
`AccountId`. -/
structure ChecksCaller (F : Function) : Prop where
  reads : ∃ p ∈ F.instructions M, inProject p.2 = true ∧
    isInstCallFunc M p.2 regex_predecessor = true
  compares : ∃ p ∈ F.instructions M, isInstCallFunc M p.2 regex_eq = true

end

variable {M : Module}

/-! ## The search -/

/-- The recursion of the source. -/
theorem isFuncPrivilegedAt_eq (depth : Int) (F : Function) :
    isFuncPrivilegedAt M depth F =
      (!decide (depth < 0) && (F.instructions M).any fun p =>
        inProject p.2 &&
          if isInstCallFunc M p.2 regex_predecessor then
            (F.instructions M).any fun q => isInstCallFunc M q.2 regex_eq
          else (M.getCalledFunction p.2).any (isFuncPrivilegedAt M (depth - 1))) := by
  rcases lt_or_ge depth 0 with hneg | hpos
  · rw [isFuncPrivilegedAt, show (depth + 1).toNat = 0 by omega, isFuncPrivilegedRec,
      decide_eq_true hneg]
    rfl
  · have hdepth : (depth + 1).toNat = (depth - 1 + 1).toNat + 1 := by omega
    rw [isFuncPrivilegedAt, hdepth, isFuncPrivilegedRec, decide_eq_false (by omega)]
    simp only [Bool.not_false, Bool.true_and]
    refine congrArg (F.instructions M).any (funext fun p => ?_)
    cases M.getCalledFunction p.2 with
    | none => rfl
    | some G => rfl

/-- A direct call that is not taken for `predecessor_account_id` is one that the search
follows. -/
theorem calls_of_instruction {F G : Function} {p : ValueId × Instruction}
    (hp : p ∈ F.instructions M) (hproject : inProject p.2 = true)
    (hother : isInstCallFunc M p.2 regex_predecessor = false)
    (hG : M.getCalledFunction p.2 = some G) : Calls M F G := by
  rw [isInstCallFunc, hG] at hother
  exact ⟨p, hp, hproject, hG, hother⟩

/-- The step: the search finds a check in the function itself, or one depth less in a
function that it calls. -/
theorem isFuncPrivilegedAt_step {depth : Int} {F : Function} :
    isFuncPrivilegedAt M depth F = true ↔
      0 ≤ depth ∧ (ChecksCaller M F ∨
        ∃ G, Calls M F G ∧ isFuncPrivilegedAt M (depth - 1) G = true) := by
  rw [isFuncPrivilegedAt_eq, Bool.and_eq_true, Bool.not_eq_true', decide_eq_false_iff_not,
    not_lt, List.any_eq_true]
  refine and_congr_right fun _ => ?_
  constructor
  · rintro ⟨p, hp, hcond⟩
    rw [Bool.and_eq_true] at hcond
    obtain ⟨hproject, hcond⟩ := hcond
    cases hpred : isInstCallFunc M p.2 regex_predecessor with
    | true =>
      rw [hpred, if_pos rfl, List.any_eq_true] at hcond
      exact Or.inl ⟨⟨p, hp, hproject, hpred⟩, hcond⟩
    | false =>
      rw [hpred, if_neg Bool.false_ne_true, Option.any_eq_true] at hcond
      obtain ⟨G, hG, hfound⟩ := hcond
      exact Or.inr ⟨G, calls_of_instruction hp hproject hpred hG, hfound⟩
  · rintro (⟨⟨p, hp, hproject, hpred⟩, hcompares⟩ | ⟨G, ⟨p, hp, hproject, hG, hname⟩, hfound⟩)
    · refine ⟨p, hp, ?_⟩
      rw [hproject, hpred, if_pos rfl, Bool.true_and, List.any_eq_true]
      exact hcompares
    · have hpred : isInstCallFunc M p.2 regex_predecessor = false := by
        rw [isInstCallFunc, hG]
        exact hname
      refine ⟨p, hp, ?_⟩
      rw [hproject, hpred, if_neg Bool.false_ne_true, Bool.true_and, hG]
      exact hfound

theorem isFuncPrivilegedAt_iff {depth : Int} {F : Function} :
    isFuncPrivilegedAt M depth F = true ↔
      ∃ k : Nat, (k : Int) ≤ depth ∧ ∃ G, CallChain M k F G ∧ ChecksCaller M G := by
  constructor
  · -- a negative depth finds nothing, so the depth is a number to induct on
    rcases lt_or_ge depth 0 with hneg | hpos
    · intro h
      have := (isFuncPrivilegedAt_step.1 h).1
      omega
    · obtain ⟨n, rfl⟩ := Int.eq_ofNat_of_zero_le hpos
      clear hpos
      induction n generalizing F with
      | zero =>
        intro h
        obtain ⟨-, hchecks | ⟨G, -, hG⟩⟩ := isFuncPrivilegedAt_step.1 h
        · exact ⟨0, le_refl _, F, .refl F, hchecks⟩
        · have := (isFuncPrivilegedAt_step.1 hG).1
          omega
      | succ n ih =>
        intro h
        obtain ⟨-, hchecks | ⟨G, hcalls, hG⟩⟩ := isFuncPrivilegedAt_step.1 h
        · exact ⟨0, by omega, F, .refl F, hchecks⟩
        · rw [show ((n + 1 : Nat) : Int) - 1 = n by omega] at hG
          obtain ⟨k, hk, H, hchain, hchecks⟩ := ih hG
          exact ⟨k + 1, by omega, H, .step hcalls hchain, hchecks⟩
  · rintro ⟨k, hk, G, hchain, hchecks⟩
    induction hchain generalizing depth with
    | refl F => exact isFuncPrivilegedAt_step.2 ⟨by omega, Or.inl hchecks⟩
    | step hcalls hs ih =>
      refine isFuncPrivilegedAt_step.2 ⟨by omega, Or.inr ⟨_, hcalls, ?_⟩⟩
      exact ih (by omega) hchecks

/-- The search finds the chains that are not longer than its depth, so a larger depth finds
no less. -/
theorem privileged_iff_chain (M : Module) (F : Function) (depth : Int) :
    (isFuncPrivilegedAt M depth F = true ↔
      ∃ k : Nat, (k : Int) ≤ depth ∧ ∃ G, CallChain M k F G ∧ ChecksCaller M G) ∧
    ∀ depth', depth ≤ depth' → isFuncPrivilegedAt M depth F = true →
      isFuncPrivilegedAt M depth' F = true := by
  refine ⟨isFuncPrivilegedAt_iff, fun depth' hle h => ?_⟩
  obtain ⟨k, hk, G, hchain, hchecks⟩ := isFuncPrivilegedAt_iff.1 h
  exact isFuncPrivilegedAt_iff.2 ⟨k, hk.trans hle, G, hchain, hchecks⟩

/-! ## The pass -/

def regex_nft_approve_function : Str :=
  lit "[0-9]+(nft_approve|nft_revoke|nft_revoke_all)[0-9]+" rfl

/-- Is the function one of those that the pass looks at? -/
def isApproval (F : Function) : Bool :=
  !skipFunc F && !Text.contains F.name (lit "$closure$" rfl) &&
    Regex.matchPattern regex_nft_approve_function F.name

/-- `runOnModule`: a line for each approval function, with `True` or `False`. -/
def runOnModule (M : Module) : List (Str × Bool) :=
  (M.functions.filter isApproval).map fun F => (F.name, isFuncPrivilegedAt M 2 F)

/-- The line of a function says `True` exactly when the check is at most two calls away. -/
theorem mem_runOnModule_iff {F : Function} (hF : F ∈ M.functions) :
    (F.name, true) ∈ runOnModule M ↔ isApproval F = true ∧
      ∃ k ≤ 2, ∃ G, CallChain M k F G ∧ ChecksCaller M G := by
  have hchain : isFuncPrivilegedAt M 2 F = true ↔
      ∃ k ≤ 2, ∃ G, CallChain M k F G ∧ ChecksCaller M G := by
    rw [isFuncPrivilegedAt_iff]
    simp only [Nat.cast_le_ofNat]
  rw [runOnModule, List.mem_map, ← hchain]
  constructor
  · rintro ⟨F', hF', heq⟩
    rw [List.mem_filter] at hF'
    rw [Prod.mk.injEq] at heq
    obtain rfl : F' = F := List.inj_on_of_nodup_map M.names_nodup hF'.1 hF heq.1
    exact ⟨hF'.2, heq.2⟩
  · rintro ⟨happroval, hfound⟩
    exact ⟨F, List.mem_filter.2 ⟨hF, happroval⟩, by rw [hfound]⟩

end NftOwnerCheck
