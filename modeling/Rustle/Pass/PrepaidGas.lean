import Rustle.Llvm.FindUsersOrder
import Rustle.Pass.SelfTransfer

/-!
# `prepaid-gas`, and the verdicts read off `findUsers`

* `runOnFunction` — the pass: is the prepaid gas of `ft_transfer_call` compared?
* `verdicts_agree` — when the sets of `findUsers`, and with them the verdicts of
  `prepaid-gas` and `self-transfer`, do not depend on the order of the uses.
* `into_order_dependent` — a call of `into` with three arguments, for which they do.
-/

namespace PrepaidGas

open Llvm NearCore UserFlow FindUsersOrder
open Text (lit)

def regex_ft_transfer_call : Str :=
  lit "near_contract_standards..fungible_token..core..FungibleTokenCore\\$" rfl ++
  lit ".+[0-9]ft_transfer_call[0-9]" rfl

def rePrepaidGas : Str := lit "near_sdk[0-9]+environment[0-9]+env[0-9]+prepaid_gas" rfl

def regexPartialOrd : Str := lit "(core[0-9]+cmp[0-9]+PartialOrd)" rfl

section

variable (M : TypedModule)

/-- Is the value a call that compares? -/
def compares (v : ValueId) : Bool :=
  match M.instruction? v with
  | some i => isInstCallFunc M.toModule i regexPartialOrd
  | none => false

/-- `checkPrepaidGas` -/
def checkPrepaidGas (p : ValueId × Instruction) : Bool :=
  inProject p.2 && isInstCallFunc M.toModule p.2 rePrepaidGas &&
    (findUsers M p.1).any fun prepaidGasUsers => prepaidGasUsers.any (compares M)

/-- `runOnFunction`: the line written, as function and verdict. -/
def runOnFunction (F : Function) : List (Str × Bool) :=
  if skipFunc F then []
  else if !Regex.matchPattern regex_ft_transfer_call F.name then []
  else [(F.name, (F.instructions M.toModule).any (checkPrepaidGas M))]

end

section

variable {M : TypedModule} {N : Module}

/-- A value behind the table has no users. -/
theorem findUsers_of_le {v : ValueId} (hv : M.values.length ≤ v) : findUsers M v = some [v] := by
  have husers : M.users v = [] := by
    refine List.eq_nil_iff_forall_not_mem.2 fun u hu => ?_
    obtain ⟨x, hx, hoperand⟩ := exists_of_mem_users hu
    exact absurd (M.operands_lt x (List.mem_of_getElem? hx) v hoperand) (Nat.not_lt.2 hv)
  have hnone : M.values[v]? = none := List.getElem?_eq_none hv
  have hlabel : M.isLabelTy v = false := by
    rw [Module.isLabelTy, hnone]
    rfl
  have hinst : M.instruction? v = none := by rw [Module.instruction?, hnone]
  rw [findUsers, Visit.visitBy_new (by simp [hlabel, INT32_MAX]) List.not_mem_nil, findUsersSteps,
    hinst, husers]
  rfl

/-- If the searches agree for the values of the table, they agree for all. -/
theorem sameUsers_of_alike (hsame : SameProgram M.toModule N)
    (hlen : M.values.length + 1 < INT32_MAX) (halike : ∀ v < M.values.length, Alike M N v)
    (v : ValueId) : SameUsers M N v := by
  by_cases hv : v < M.values.length
  · exact users_agree hsame hlen hv (halike v hv)
  · have hle : M.values.length ≤ v := Nat.le_of_not_lt hv
    have hle' : (withUses M N).values.length ≤ v := hsame.values.symm ▸ hle
    exact ⟨[v], [v], findUsers_of_le hle, findUsers_of_le hle', fun _ => Iff.rfl⟩

theorem isInstCallFunc_withUses (hsame : SameProgram M.toModule N) :
    isInstCallFunc (withUses M N).toModule = isInstCallFunc M.toModule := hsame.isInstCallFunc

theorem instructions_withUses (hsame : SameProgram M.toModule N) (F : Function) :
    F.instructions (withUses M N).toModule = F.instructions M.toModule := hsame.instructions F

/-- The pass reads only which values a set holds. -/
theorem runOnFunction_withUses (hsame : SameProgram M.toModule N) (h : ∀ v, SameUsers M N v)
    (F : Function) : runOnFunction (withUses M N) F = runOnFunction M F := by
  have hcompares : compares (withUses M N) = compares M := by
    funext u
    rw [compares, compares, instruction?_withUses hsame, isInstCallFunc_withUses hsame]
  have hcheck : checkPrepaidGas (withUses M N) = checkPrepaidGas M := by
    funext p
    obtain ⟨set, set', hset, hset', hmem⟩ := h p.1
    rw [checkPrepaidGas, checkPrepaidGas, isInstCallFunc_withUses hsame, hset, hset', hcompares,
      Option.any_some, Option.any_some]
    congr 1
    rw [Bool.eq_iff_iff, List.any_eq_true, List.any_eq_true]
    simp only [hmem]
  rw [runOnFunction, runOnFunction, hcheck, instructions_withUses hsame]

end

end PrepaidGas

namespace SelfTransfer

open Llvm NearCore Forwarding UserFlow FindUsersOrder

variable {M : TypedModule} {N : Module}

/-- What a call hands on depends only on which values the set holds. -/
theorem forwarded_withUses (hsame : SameProgram M.toModule N) {users users' : List ValueId}
    (h : ∀ w, w ∈ users ↔ w ∈ users') (i : Instruction) :
    forwarded (withUses M N).toModule users' i = forwarded M.toModule users i := by
  have hoffset : nextOffset users' i = nextOffset users i := by
    rw [nextOffset, nextOffset]
    congr 1
    funext a
    rw [Bool.eq_iff_iff, List.contains_iff_mem, List.contains_iff_mem, h]
  rw [forwarded, forwarded, hoffset, getCalledFunction_withUses hsame]

/-- The search reads only which values the sets hold. -/
theorem events_withUses (hsame : SameProgram M.toModule N) (h : ∀ v, SameUsers M N v) :
    events (withUses M N) = events M := by
  funext l
  rw [events, events]
  split
  · rfl
  · rw [levelUsers, levelUsers]
    cases l.1.getArg l.2 with
    | none => rfl
    | some v =>
      obtain ⟨set, set', hset, hset', hmem⟩ := h v
      simp only [Option.bind_some, hset, hset']
      rw [show l.1.instructions (withUses M N).toModule = l.1.instructions M.toModule from
        hsame.instructions l.1]
      refine List.filterMap_congr fun p _ => ?_
      rw [instEvent, instEvent, forwarded_withUses hsame hmem,
        show isInstCallFunc (withUses M N).toModule = isInstCallFunc M.toModule from
          hsame.isInstCallFunc]
      rfl

theorem runOnFunction_withUses (hsame : SameProgram M.toModule N) (h : ∀ v, SameUsers M N v)
    (fuel : Nat) (F : Function) :
    runOnFunction (withUses M N) fuel F = runOnFunction M fuel F := by
  have hcheck : hasSenderReceiverCheck (withUses M N) fuel = hasSenderReceiverCheck M fuel := by
    funext l
    rw [hasSenderReceiverCheck, hasSenderReceiverCheck, events_withUses hsame h]
  rw [runOnFunction, runOnFunction, hcheck]

end SelfTransfer

namespace FindUsersOrder

open Llvm NearCore UserFlow
open Text (lit)

theorem dependsOnSecond_withUses {M : TypedModule} {N : Module} (h : SameProgram M.toModule N)
    (c : ValueId) (i : Instruction) :
    dependsOnSecond (withUses M N) c i = dependsOnSecond M c i := by
  have husers : ((withUses M N).users c).isEmpty = (M.users c).isEmpty := by
    rw [Bool.eq_iff_iff, List.isEmpty_iff, List.isEmpty_iff, List.eq_nil_iff_forall_not_mem,
      List.eq_nil_iff_forall_not_mem]
    simp only [mem_users_withUses h]
  rw [dependsOnSecond, dependsOnSecond, asksSecond_withUses h, husers]

/-- Where no call depends on its second argument, the searches are alike. -/
theorem alike_of_independent {M : TypedModule} {N : Module} (hsame : SameProgram M.toModule N)
    (h : ∀ c i, M.instruction? c = some i → dependsOnSecond M c i = false) (v : ValueId) :
    Alike M N v := by
  refine ⟨fun _ => false, fun c s i _ hi hdep => ?_, fun c s i _ hi hdep => ?_⟩
  · rw [h c i hi] at hdep
    cases hdep
  · rw [instruction?_withUses hsame] at hi
    rw [dependsOnSecond_withUses hsame, h c i hi] at hdep
    cases hdep

/-- In a module of fewer than `INT32_MAX` values: where the searches of two orders
find out the same about the second argument of a call, they find the same users, and
the verdicts read off them are the same. -/
theorem verdicts_agree (M : TypedModule) (N : Module) (hsame : SameProgram M.toModule N)
    (hlen : M.values.length + 1 < INT32_MAX) :
    (∀ v < M.values.length, Alike M N v → SameUsers M N v) ∧
    ((∀ v < M.values.length, Alike M N v) → ∀ F,
      PrepaidGas.runOnFunction (withUses M N) F = PrepaidGas.runOnFunction M F ∧
      ∀ fuel, SelfTransfer.runOnFunction (withUses M N) fuel F =
        SelfTransfer.runOnFunction M fuel F) := by
  refine ⟨fun v hv halike => users_agree hsame hlen hv halike, fun halike F => ?_⟩
  have husers := PrepaidGas.sameUsers_of_alike hsame hlen halike
  exact ⟨PrepaidGas.runOnFunction_withUses hsame husers F,
    fun fuel => SelfTransfer.runOnFunction_withUses hsame husers fuel F⟩

/-- A function that converts a string into `dest`; a conversion with `length` passes
the length of the string as well. -/
def stringModule (length : Bool) : TypedModule where
  values :=
    [.function, .function, .argument, .argument, .argument, .argument, .argument,
     .instruction ⟨.call ([8, 9] ++ if length then [3] else []) [] 1 true, none⟩,
     .instruction ⟨.other [2], none⟩,
     .instruction ⟨.other [2], none⟩]
  functions :=
    [⟨lit "_ZN5token5Token4name17h1E" rfl, 0, [2, 3], [⟨lit "start" rfl, [8, 9, 7]⟩]⟩,
     ⟨lit "_ZN50_$LT$T$u20$as$u20$core..convert..Into$LT$U$GT$$GT$4into17h2E" rfl, 1,
       [4, 5] ++ (if length then [6] else []), []⟩]
  users := useList _
  users_perm := fun _ => .refl _
  operands_lt := by cases length <;> decide
  params_lt := by cases length <;> decide
  names_nodup := by cases length <;> decide +kernel
  functions_nodup := by cases length <;> decide
  otherClass _ := .cast
  typeName _ := []
  printed _ := []
  isInt128 _ := false
  constantInt _ := none

/-- The same function, with the uses in reverse. -/
def stringModule' (length : Bool) : Module :=
  { (stringModule length).toModule with
    users := fun v => (useList (stringModule length).values v).reverse
    users_perm := fun _ => List.reverse_perm _ }

theorem stringModule_same (length : Bool) :
    SameProgram (stringModule length).toModule (stringModule' length) := ⟨rfl, rfl⟩

theorem verdicts_agree_string :
    SameUsers (stringModule false) (stringModule' false) 2 ∧
    ∀ F, PrepaidGas.runOnFunction (withUses (stringModule false) (stringModule' false)) F =
        PrepaidGas.runOnFunction (stringModule false) F ∧
      ∀ fuel, SelfTransfer.runOnFunction (withUses (stringModule false) (stringModule' false))
        fuel F = SelfTransfer.runOnFunction (stringModule false) fuel F := by
  have hsame := stringModule_same false
  have halike := alike_of_independent hsame fun c i hi =>
    forall_instruction (P := fun c i => dependsOnSecond (stringModule false) c i = false)
      (by decide +kernel) hi
  have h := verdicts_agree (stringModule false) (stringModule' false) hsame (by decide +kernel)
  exact ⟨h.1 2 (by decide) (halike 2), h.2 fun v _ => halike v⟩

/-- If the search comes to the conversion from the string, it leaves the length out; if
it comes from `dest`, it goes on to the length too. -/
theorem into_order_dependent :
    ¬ ∀ (M : TypedModule) (N : Module), SameProgram M.toModule N → ∀ v < M.values.length,
      SameUsers M N v := by
  intro h
  obtain ⟨set, set', hset, hset', hmem⟩ :=
    h (stringModule true) (stringModule' true) (stringModule_same true) 2 (by decide)
  have h₁ : findUsers (stringModule true) 2 = some [3, 9, 7, 8, 2] := by decide +kernel
  have h₂ : findUsers (withUses (stringModule true) (stringModule' true)) 2 =
      some [8, 7, 9, 2] := by decide +kernel
  rw [h₁, Option.some.injEq] at hset
  rw [h₂, Option.some.injEq] at hset'
  subst hset hset'
  exact absurd ((hmem 3).1 (by decide)) (by decide)

end FindUsersOrder
