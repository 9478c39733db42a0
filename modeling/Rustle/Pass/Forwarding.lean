import Rustle.Library.DeepSearch
import Rustle.Llvm.FindUsers

/-!
# Handing a tracked value on

Three passes follow a parameter from function to function: a call hands it on at
the **first** argument whose operand is in the set of tracked values.

* `forwarded` — the function and the offset a call hands the value on to.
* `Carried` — every function and offset a call carries the value to.
* `callLevels_finite` — a module has finitely many of them.
* `Acyclic`, `acc_calls`, `exists_verdict_of_acyclic` — modules without recursion,
  where every search returns.
-/

namespace Forwarding

open Llvm
open Relation (ReflTransGen TransGen)

variable (M : Module)

/-- The loop over the arguments: the first whose operand is in the set. -/
def nextOffset (users : List ValueId) (i : Instruction) : Option Nat :=
  i.args.findIdx? fun a => users.contains a

/-- The function and the offset a call hands the value on to. -/
def forwarded (users : List ValueId) (i : Instruction) : Option (Function × Nat) :=
  match nextOffset users i, M.getCalledFunction i with
  | some k, some G => some (G, k)
  | _, _ => none

/-- Some call of the function `l.1` in `F` has a value of the set at offset `l.2`. -/
def Carried (F : Function) (users : List ValueId) (l : Function × Nat) : Prop :=
  ∃ p ∈ F.instructions M, M.getCalledFunction p.2 = some l.1 ∧
    ∃ a ∈ users, p.2.args[l.2]? = some a

theorem forwarded_eq_some_iff {users : List ValueId} {i : Instruction} {l : Function × Nat} :
    forwarded M users i = some l ↔
      nextOffset users i = some l.2 ∧ M.getCalledFunction i = some l.1 := by
  unfold forwarded
  cases nextOffset users i <;> cases M.getCalledFunction i <;> simp [Prod.ext_iff, and_comm]

/-- What a call hands on is in the set. -/
theorem exists_of_nextOffset {users : List ValueId} {i : Instruction} {k : Nat}
    (h : nextOffset users i = some k) : ∃ a ∈ users, i.args[k]? = some a := by
  obtain ⟨hk, ha, -⟩ := List.findIdx?_eq_some_iff_getElem.1 h
  exact ⟨i.args[k], by simpa using ha, List.getElem?_eq_getElem hk⟩

/-- A call hands the value on to an offset that carries it. -/
theorem carried_of_forwarded {F : Function} {users : List ValueId}
    {p : ValueId × Instruction} (hp : p ∈ F.instructions M) {l : Function × Nat}
    (h : forwarded M users p.2 = some l) : Carried M F users l := by
  obtain ⟨hk, hG⟩ := (forwarded_eq_some_iff M).1 h
  exact ⟨p, hp, hG, exists_of_nextOffset hk⟩

/-! ## The calls of a module -/

/-- Some instruction of the module calls `l.1` with an argument at offset `l.2`. -/
def IsCallLevel (l : Function × Nat) : Prop :=
  ∃ u i, M.instruction? u = some i ∧ M.getCalledFunction i = some l.1 ∧ l.2 < i.args.length

theorem callLevels_finite : {l | IsCallLevel M l}.Finite := by
  have hcall : ∀ u, {l : Function × Nat | ∃ i, M.instruction? u = some i ∧
      M.getCalledFunction i = some l.1 ∧ l.2 < i.args.length}.Finite := by
    intro u
    cases hi : M.instruction? u with
    | none => simp
    | some i =>
      cases hG : M.getCalledFunction i with
      | none => simp [hG]
      | some G =>
        refine ((Set.finite_Iio i.args.length).image fun k => (G, k)).subset ?_
        rintro ⟨G', k⟩ ⟨j, hj, hG', hk⟩
        rw [Option.some.injEq] at hj
        subst hj
        rw [hG, Option.some.injEq] at hG'
        exact ⟨k, hk, by rw [hG']⟩
  refine ((Set.finite_Iio M.values.length).biUnion fun u _ => hcall u).subset ?_
  rintro l ⟨u, i, hi, hG, hk⟩
  exact Set.mem_biUnion (x := u) (M.instruction?_lt hi) ⟨i, hi, hG, hk⟩

theorem isCallLevel_of_carried {F : Function} {users : List ValueId} {l : Function × Nat}
    (h : Carried M F users l) : IsCallLevel M l := by
  obtain ⟨p, hp, hG, a, -, ha⟩ := h
  exact ⟨p.1, p.2, Function.instruction?_of_mem hp, hG, (List.getElem?_eq_some_iff.1 ha).1⟩

/-- `F` calls `G` directly. -/
def Calls (F G : Function) : Prop :=
  ∃ p ∈ F.instructions M, M.getCalledFunction p.2 = some G

/-- No function calls itself, directly or through others. -/
def Acyclic : Prop := ∀ F, ¬ TransGen (Calls M) F F

/-- No call passes more arguments than the function has parameters, as a call of
a variadic function does. -/
def FixedArity : Prop :=
  ∀ u i G, M.instruction? u = some i → M.getCalledFunction i = some G →
    i.args.length ≤ G.params.length

/-- Without recursion no chain of calls is endless. -/
theorem acc_calls (hM : Acyclic M) (F : Function) : Acc (fun a b => Calls M b a) F := by
  have hfin : ({F} ∪ {G | G ∈ M.functions} : Set Function).Finite :=
    (Set.finite_singleton F).union (List.finite_toSet M.functions)
  refine (DeepSearch.acc_iff_no_cycle hfin ?_).2 ?_
  · intro G hG
    cases hG with
    | refl => exact Or.inl rfl
    | tail _ hlast =>
      obtain ⟨p, -, hp⟩ := hlast
      exact Or.inr (M.mem_functions_of_getCalledFunction hp)
  · rintro ⟨G, -, hcycle⟩
    exact hM G hcycle

/-- A module where every call goes down in some rank has no recursion. -/
theorem acyclic_of_rank {M : Module} (rank : Function → Nat)
    (h : ∀ F ∈ M.functions, ∀ p ∈ F.instructions M, ∀ G, M.getCalledFunction p.2 = some G →
      rank G < rank F) : Acyclic M := by
  have hlt : ∀ F ∈ M.functions, ∀ G, TransGen (Calls M) F G → rank G < rank F := by
    intro F hF G hFG
    induction hFG with
    | single hcall =>
      obtain ⟨p, hp, hG⟩ := hcall
      exact h F hF p hp _ hG
    | @tail G H hprev hcall ih =>
      have hG : G ∈ M.functions := by
        cases hprev with
        | single hlast | tail _ hlast =>
          obtain ⟨p, -, hp⟩ := hlast
          exact M.mem_functions_of_getCalledFunction hp
      obtain ⟨p, hp, hH⟩ := hcall
      exact (h G hG p hp H hH).trans ih
  intro F hcycle
  have hF : F ∈ M.functions := by
    obtain ⟨G, -, p, -, hp⟩ := TransGen.tail'_iff.1 hcycle
    exact M.mem_functions_of_getCalledFunction hp
  exact Nat.lt_irrefl _ (hlt F hF F hcycle)

/-- The function is one of the module, and has a parameter at the offset. -/
def InRange (l : Function × Nat) : Prop := l.1 ∈ M.functions ∧ l.2 < l.1.arg_size

/-- In a module without variadic calls a call level is in range. -/
theorem FixedArity.inRange {M : Module} (h : FixedArity M) {l : Function × Nat}
    (hl : IsCallLevel M l) : InRange M l := by
  obtain ⟨u, i, hi, hG, hk⟩ := hl
  exact ⟨M.mem_functions_of_getCalledFunction hG, Nat.lt_of_lt_of_le hk (h u i l.1 hi hG)⟩

/-- The parameter of a level in range is a value of the module. -/
theorem InRange.exists_getArg {M : Module} {l : Function × Nat} (h : InRange M l) :
    ∃ v, l.1.getArg l.2 = some v ∧ v < M.values.length :=
  ⟨_, List.getElem?_eq_getElem h.2, M.params_lt l.1 h.1 _ (List.getElem_mem h.2)⟩

/-- A search that goes on to functions called, and meets nothing undefined, returns
if there is no recursion. -/
theorem exists_verdict_of_acyclic {M : Module} (hM : Acyclic M)
    {events : Function × Nat → List (DeepSearch.Event (Function × Nat))}
    (hcalls : ∀ l l', DeepSearch.Follows events l l' → Calls M l.1 l'.1)
    {l : Function × Nat} (hstuck : ∀ l', DeepSearch.Reach events l l' → .stuck ∉ events l') :
    ∃ n b, (DeepSearch.search events n l).bind DeepSearch.Outcome.verdict = some b := by
  have hacc : Acc (fun a b => DeepSearch.Follows events b a) l := by
    have hcaller := InvImage.accessible (f := Prod.fst) (a := l) (acc_calls M hM l.1)
    exact Subrelation.accessible (fun hab => hcalls _ _ hab) hcaller
  obtain ⟨n, r, hr⟩ := DeepSearch.ends_of_acc hacc
  cases r with
  | found => exact ⟨n, true, by rw [hr]; rfl⟩
  | missing => exact ⟨n, false, by rw [hr]; rfl⟩
  | stuck =>
    obtain ⟨l', hreach, hl'⟩ := DeepSearch.exists_stuck events hr
    exact absurd hl' (hstuck l' hreach)

end Forwarding
