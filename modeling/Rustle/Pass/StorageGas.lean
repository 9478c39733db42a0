import Rustle.Llvm.CallGraphSearch
import Rustle.Llvm.FunctionCallers

/-!
# `storage-gas`: storage that grows without a check of its usage

The pass writes a line for each function that inserts into a collection: `True` if
it calls `storage_usage`, or one of its callers at a depth of two does.

* `runOnModule` — the pass; the callers are gone through in **some** order, and
  `hasGasCheck_perm` says that the order does not matter.
* `mem_runOnModule_iff` — one line for each such function.
* `ChecksUsage`, `Calls` — the calls that the search sees.
* `hasGasCheck_between` — a check in the function or a direct caller is found, and
  what is found is at most two calls away; `hasGasCheck_iff` — when nothing is cut
  off, that is exact.
-/

open Llvm NearCore CallGraphSearch FunctionCallers
open Text (lit)

namespace StorageGas

def regexStorageExpansion : Str := lit "near_sdk[0-9]+collections[0-9]+.+(insert|extend)" rfl

section

variable (M : Module) (CG : CallGraph)

/-- The loop over the blocks, which an insertion does not leave. -/
def hasStorageExpansion (F : Function) : Bool :=
  F.blocks.any fun B => (M.instructions B).any fun (_, i) =>
    inProject i && isInstCallFunc M i regexStorageExpansion

/-- `isFuncCallFuncRec(F, CG, regexStorageUse)` -/
def usesStorage (F : Function) : Bool := funcCallsRec CG regexStorageUse F

/-- The callers in the set that the search fills, in the order of an iteration. -/
def setCallers (order : List ValueId → List ValueId) (F : Function) : List ValueId :=
  order (findFunctionCallerRec M 2 F.value [])

/-- The loop over the callers, which a check leaves. -/
def callersCheck (hasGasCheck : Bool) : List ValueId → Bool
  | [] => hasGasCheck
  | caller :: callers =>
    let hasGasCheck := hasGasCheck || (M.function? caller).any (usesStorage CG)
    if hasGasCheck then true else callersCheck hasGasCheck callers

variable (order : List ValueId → List ValueId)

/-- The verdict on a function. -/
def hasGasCheck (F : Function) : Bool :=
  let hasGasCheck := usesStorage CG F
  if !hasGasCheck then callersCheck M CG hasGasCheck (setCallers M order F) else hasGasCheck

/-- `runOnModule`: the lines written, as function name and verdict. -/
def runOnModule : List (Str × Bool) :=
  M.functions.filterMap fun F =>
    if skipFunc F then none
    else if hasStorageExpansion M F then some (F.name, hasGasCheck M CG order F) else none

/-! ## What is written -/

/-- A direct call, at a location of the project, that inserts into a collection. -/
def Expands (F : Function) : Prop :=
  ∃ p ∈ F.instructions M, inProject p.2 = true ∧ isInstCallFunc M p.2 regexStorageExpansion = true

/-- An edge of the call graph leads from the function, which is no intrinsic, to
`storage_usage`. -/
def ChecksUsage (F : Function) : Prop :=
  Regex.matchPattern (lit "llvm" rfl) F.name = false ∧
    DirectMatch CG regexStorageUse (CG.node F.name)

/-- A chain of `k` calls leads from a function that checks the usage to `F`. -/
def CheckedAt (k : Nat) (F : Function) : Prop :=
  ∃ G, M.function? G.value = some G ∧ CallChain M k G.value F.value ∧ ChecksUsage CG G

end

variable {M : Module} {CG : CallGraph} {order : List ValueId → List ValueId}

theorem hasStorageExpansion_iff {F : Function} :
    hasStorageExpansion M F = true ↔ Expands M F := by
  unfold hasStorageExpansion Expands Function.instructions
  simp only [List.any_eq_true, Bool.and_eq_true, List.mem_flatMap]
  constructor
  · rintro ⟨B, hB, p, hp, hi, hm⟩
    exact ⟨p, ⟨B, hB, hp⟩, hi, hm⟩
  · rintro ⟨p, ⟨B, hB, hp⟩, hi, hm⟩
    exact ⟨B, hB, p, hp, hi, hm⟩

theorem usesStorage_iff {F : Function} : usesStorage CG F = true ↔ ChecksUsage CG F := by
  unfold usesStorage funcCallsRec ChecksUsage isFuncCallFuncRec
  cases hname : Regex.matchPattern (lit "llvm" rfl) F.name with
  | true => simp
  | false =>
    rw [if_neg Bool.false_ne_true, searchNode_eq _ _ (List.mem_singleton_self _),
      Option.getD_some, any_isMatch_iff]
    simp

theorem callersCheck_iff (callers : List ValueId) (b : Bool) :
    callersCheck M CG b callers = true ↔
      b = true ∨ ∃ c ∈ callers, (M.function? c).any (usesStorage CG) = true := by
  induction callers generalizing b with
  | nil => simp [callersCheck]
  | cons c callers ih =>
    rw [callersCheck]
    cases hb : (b || (M.function? c).any (usesStorage CG)) with
    | true =>
      rw [if_pos rfl, List.exists_mem_cons_iff, ← or_assoc, ← Bool.or_eq_true, hb]
      simp
    | false =>
      rw [if_neg Bool.false_ne_true, ih, List.exists_mem_cons_iff, ← or_assoc, ← Bool.or_eq_true,
        hb]

/-- The verdict is about the functions in the set. -/
theorem hasGasCheck_eq_true {F : Function} (horder : ∀ l, (order l).Perm l) :
    hasGasCheck M CG order F = true ↔ ChecksUsage CG F ∨
      ∃ c ∈ findFunctionCallerRec M 2 F.value [], ∃ G, M.function? c = some G ∧
        ChecksUsage CG G := by
  have hset : callersCheck M CG false (setCallers M order F) = true ↔
      ∃ c ∈ findFunctionCallerRec M 2 F.value [], ∃ G, M.function? c = some G ∧
        ChecksUsage CG G := by
    rw [callersCheck_iff, or_iff_right Bool.false_ne_true]
    refine exists_congr fun c => and_congr ((horder _).mem_iff) ?_
    rw [Option.any_eq_true]
    simp only [usesStorage_iff]
  unfold hasGasCheck
  cases hown : usesStorage CG F with
  | true => simp [usesStorage_iff.1 hown]
  | false =>
    have hno : ¬ ChecksUsage CG F := fun h => by simp [usesStorage_iff.2 h] at hown
    simp [hset, hno]

/-- The order of the set does not matter. -/
theorem hasGasCheck_perm {order' : List ValueId → List ValueId} (h : ∀ l, (order l).Perm l)
    (h' : ∀ l, (order' l).Perm l) (F : Function) :
    hasGasCheck M CG order F = hasGasCheck M CG order' F := by
  rw [Bool.eq_iff_iff, hasGasCheck_eq_true h, hasGasCheck_eq_true h']

/-- One line for each function that expands the storage. -/
theorem mem_runOnModule_iff {l : Str × Bool} :
    l ∈ runOnModule M CG order ↔
      ∃ F ∈ M.functions, Expands M F ∧ l = (F.name, hasGasCheck M CG order F) := by
  unfold runOnModule
  rw [List.mem_filterMap]
  refine exists_congr fun F => and_congr_right fun _ => ?_
  rw [if_neg (by simp)]
  by_cases h : hasStorageExpansion M F = true
  · rw [if_pos h, Option.some.injEq, and_iff_right (hasStorageExpansion_iff.1 h)]
    exact eq_comm
  · rw [if_neg h]
    exact iff_of_false (by simp) fun he => h (hasStorageExpansion_iff.2 he.1)

/-! ## How far the search reaches -/

theorem function?_value {F : Function} (hF : F ∈ M.functions) : M.function? F.value = some F := by
  rw [Module.function?]
  cases h : M.functions.find? fun G => G.value == F.value with
  | none => exact absurd (List.find?_eq_none.1 h F hF) (by simp)
  | some G =>
    have hG := List.find?_some h
    rw [beq_iff_eq] at hG
    exact congrArg some (List.inj_on_of_nodup_map M.functions_nodup (List.mem_of_find?_eq_some h)
      hF hG)

/-- What is in the set of callers is one or two calls away. -/
theorem mem_callers_chain {F : Function} {c : ValueId}
    (h : c ∈ findFunctionCallerRec M 2 F.value []) :
    ∃ k, 1 ≤ k ∧ k ≤ 2 ∧ CallChain M k c F.value := by
  rw [findFunctionCallerRec_eq] at h
  obtain ⟨k, hk, hk', hchain⟩ := BoundedSearch.exists_chain_of_mem h
  exact ⟨k, hk, hk', chain_iff_callChain.1 hchain⟩

/-- A direct caller is in the set, whatever the order of the uses. -/
theorem mem_callers_direct {F : Function} {c : ValueId} (h : FunctionCallers.Calls M c F.value) :
    c ∈ findFunctionCallerRec M 2 F.value [] := by
  rw [findFunctionCallerRec_eq]
  exact BoundedSearch.mem_search_of_next (q := (F.value, 2)) List.mem_cons_self Nat.zero_lt_two
    (mem_callers_iff.2 h)

/-- A check in the function or in a direct caller is found; what is found is at
most two calls away. -/
theorem hasGasCheck_between (horder : ∀ l, (order l).Perm l) {F : Function}
    (hF : F ∈ M.functions) :
    (CheckedAt M CG 0 F ∨ CheckedAt M CG 1 F → hasGasCheck M CG order F = true) ∧
      (hasGasCheck M CG order F = true → ∃ k ≤ 2, CheckedAt M CG k F) := by
  rw [hasGasCheck_eq_true horder]
  refine ⟨?_, ?_⟩
  · rintro (⟨G, hG, hchain, hcheck⟩ | ⟨G, hG, ⟨H, hcalls, hchain⟩, hcheck⟩)
    · have hvalue : G.value = F.value := hchain
      rw [hvalue, function?_value hF] at hG
      obtain rfl := Option.some.inj hG
      exact Or.inl hcheck
    · have hvalue : H = F.value := hchain
      subst hvalue
      exact Or.inr ⟨G.value, mem_callers_direct hcalls, G, hG, hcheck⟩
  · rintro (hcheck | ⟨c, hc, G, hG, hcheck⟩)
    · exact ⟨0, by omega, F, function?_value hF, rfl, hcheck⟩
    · obtain ⟨k, -, hk, hchain⟩ := mem_callers_chain hc
      have hvalue : G.value = c := by
        have := List.find?_some hG
        exact beq_iff_eq.1 this
      subst hvalue
      exact ⟨k, hk, G, hG, hchain, hcheck⟩

/-- When no caller is cut off, the verdict is exact. -/
theorem hasGasCheck_iff (horder : ∀ l, (order l).Perm l) {F : Function} (hF : F ∈ M.functions)
    (hcut : NothingCutOff M 2 F.value) :
    hasGasCheck M CG order F = true ↔ ∃ k ≤ 2, CheckedAt M CG k F := by
  refine ⟨(hasGasCheck_between horder hF).2, ?_⟩
  rintro ⟨k, hk, G, hG, hchain, hcheck⟩
  rw [hasGasCheck_eq_true horder]
  rcases Nat.eq_zero_or_pos k with rfl | hpos
  · have hvalue : G.value = F.value := hchain
    rw [hvalue, function?_value hF] at hG
    obtain rfl := Option.some.inj hG
    exact Or.inl hcheck
  · refine Or.inr ⟨G.value, ?_, G, hG, hcheck⟩
    exact (callers_exact_iff.2 hcut G.value).2 ⟨k, hpos, hk, hchain⟩

/-- For every module and every order in which the set of callers is iterated: there
is one line for each function that expands the storage and no other, a check in it
or in a direct caller makes it `True`, only a check at most two calls away does,
and each such check does if the search for callers cuts nothing off. -/
theorem runOnModule_spec (M : Module) (CG : CallGraph) (order : List ValueId → List ValueId)
    (horder : ∀ l, (order l).Perm l) :
    (∀ l, l ∈ runOnModule M CG order ↔
      ∃ F ∈ M.functions, Expands M F ∧ l = (F.name, hasGasCheck M CG order F)) ∧
    ∀ F ∈ M.functions,
      (CheckedAt M CG 0 F ∨ CheckedAt M CG 1 F → hasGasCheck M CG order F = true) ∧
      (hasGasCheck M CG order F = true → ∃ k ≤ 2, CheckedAt M CG k F) ∧
      (NothingCutOff M 2 F.value →
        (hasGasCheck M CG order F = true ↔ ∃ k ≤ 2, CheckedAt M CG k F)) :=
  ⟨fun _ => mem_runOnModule_iff, fun _ hF => ⟨(hasGasCheck_between horder hF).1,
    (hasGasCheck_between horder hF).2, hasGasCheck_iff horder hF⟩⟩

def inserting : Function := ⟨lit "_ZN5token5Token4mint17h1E" rfl, 0, [], [⟨lit "start" rfl, [4]⟩]⟩

/-- `deposit` asks for the usage and calls `mint`, which inserts. -/
def depositModule : Module where
  values :=
    [.function, .function, .function, .function,
     .instruction ⟨.call [] [] 2 true, some ⟨lit "src/lib.rs" rfl, 12⟩⟩,
     .instruction ⟨.call [] [] 3 true, some ⟨lit "src/lib.rs" rfl, 20⟩⟩,
     .instruction ⟨.call [] [] 0 true, some ⟨lit "src/lib.rs" rfl, 21⟩⟩]
  functions :=
    [inserting,
     ⟨lit "_ZN5token5Token7deposit17h2E" rfl, 1, [], [⟨lit "start" rfl, [5, 6]⟩]⟩,
     ⟨lit "_ZN8near_sdk11collections10lookup_map18LookupMap6insert17h3E" rfl, 2, [], []⟩,
     ⟨lit "_ZN8near_sdk11environment3env13storage_usage17h4E" rfl, 3, [], []⟩]
  users := useList _
  users_perm := fun _ => .refl _
  operands_lt := by decide
  params_lt := by decide
  names_nodup := by decide
  functions_nodup := by decide

def depositGraph : CallGraph where
  node name := (depositModule.functions.map Function.name).idxOf name
  callees node := if node = 0 then [2] else if node = 1 then [3, 0] else []
  functionName node := (depositModule.functions[node]?).map Function.name

/-- The insertion of `mint` has a line, and the check of its caller counts. -/
theorem runOnModule_spec_deposit :
    (lit "_ZN5token5Token4mint17h1E" rfl, true)
      ∈ runOnModule depositModule depositGraph List.reverse := by
  have hspec := runOnModule_spec depositModule depositGraph List.reverse
    fun l => List.reverse_perm l
  have hmem : inserting ∈ depositModule.functions := List.mem_cons_self
  have hexpands : Expands depositModule inserting :=
    hasStorageExpansion_iff.1 (by decide +kernel)
  have hcalls : Calls depositModule 1 0 := ⟨6, _, rfl, rfl, by decide, _, rfl, rfl⟩
  have hchecks : CheckedAt depositModule depositGraph 1 inserting :=
    ⟨⟨lit "_ZN5token5Token7deposit17h2E" rfl, 1, [], [⟨lit "start" rfl, [5, 6]⟩]⟩, rfl,
      ⟨0, hcalls, rfl⟩, usesStorage_iff.1 (by decide +kernel)⟩
  refine (hspec.1 _).2 ⟨inserting, hmem, hexpands, ?_⟩
  rw [(hspec.2 inserting hmem).1 (Or.inr hchecks)]
  rfl

end StorageGas
