import Rustle.Llvm.NearCore

/-!
# The search over the call graph, and what it misses

`isFuncCallFuncRec` and `isInstCallFuncRec` of `near_core.cpp`, with fuel for the
depth of the recursion; `none` when it runs out.

* `searchNode_eq` — the search of a node **ends** on the first level.
* `instCallsRec`, `funcCallsRec` — what the two return, for the passes that call them.
* `PathToMatch`, `FarMatch` — what the search is for, and what it does not see.
* `search_exact_iff` — when the answer is right.
-/

namespace CallGraphSearch

open Llvm NearCore
open Text (lit)
open Relation (TransGen)

section

variable (CG : CallGraph) (regex : Str)

/-- Does the function of the node have a name that matches? -/
def isMatch (node : Nat) : Bool :=
  match CG.functionName node with
  | some name => Regex.matchPattern regex name
  | none => false

/-- The loop `Find in next level`. -/
def nextLevel (search : Nat → List Nat → Option Bool) (node : Nat) (callStack : List Nat) :
    List Nat → Option Bool
  | [] => some false
  | callee :: callees =>
    -- the guard looks for `node`, which its caller has pushed already
    if callee == node || callStack.contains node then nextLevel search node callStack callees
    else
      match search callee (callStack ++ [callee]) with
      | none => none
      | some true => some true
      | some false => nextLevel search node callStack callees

/-- `isFuncCallFuncRec(node, regex, callStack)` -/
def searchNode : Nat → Nat → List Nat → Option Bool
  | 0, _, _ => none
  | n + 1, node, callStack =>
    if (CG.callees node).any (isMatch CG regex) then some true
    else nextLevel (searchNode n) node callStack (CG.callees node)

/-- `isFuncCallFuncRec(F, CG, regex)` -/
def isFuncCallFuncRec (fuel : Nat) (F : Function) : Option Bool :=
  if Regex.matchPattern (lit "llvm" rfl) F.name then some false
  else searchNode CG regex fuel (CG.node F.name) [CG.node F.name]

/-- `isInstCallFuncRec(I, CG, regex)` -/
def isInstCallFuncRec (M : Module) (fuel : Nat) (i : Instruction) : Option Bool :=
  if isInstCallFunc M i regex then some true
  else
    match M.getCalledFunction i with
    | some G => isFuncCallFuncRec CG regex fuel G
    | none => some false

/-- What `isInstCallFuncRec(I, CG, regex)` returns; the search ends on the first level, so that
this much fuel is enough. -/
def instCallsRec (M : Module) (i : Instruction) : Bool :=
  (isInstCallFuncRec CG regex M 1 i).getD false

/-- What `isFuncCallFuncRec(F, CG, regex)` returns. -/
def funcCallsRec (F : Function) : Bool := (isFuncCallFuncRec CG regex 1 F).getD false

/-- From some amount of fuel on the search returns `b`. -/
def Returns (search : Nat → Option Bool) (b : Bool) : Prop := ∃ k, ∀ n, k ≤ n → search n = some b

/-! ## What the search is for -/

/-- An edge of the call graph. -/
def Calls (a b : Nat) : Prop := b ∈ CG.callees a

instance (a b : Nat) : Decidable (Calls CG a b) := inferInstanceAs (Decidable (b ∈ CG.callees a))

/-- A path of one or more call edges leads to a function whose name matches. -/
def PathToMatch (node : Nat) : Prop := ∃ b, TransGen (Calls CG) node b ∧ isMatch CG regex b = true

/-- The node calls a function whose name matches. -/
def DirectMatch (node : Nat) : Prop := ∃ b, Calls CG node b ∧ isMatch CG regex b = true

/-- A path of two or more call edges leads to a function whose name matches. -/
def FarMatch (node : Nat) : Prop :=
  ∃ a b, Calls CG node a ∧ TransGen (Calls CG) a b ∧ isMatch CG regex b = true

theorem pathToMatch_iff {node : Nat} :
    PathToMatch CG regex node ↔ DirectMatch CG regex node ∨ FarMatch CG regex node := by
  refine ⟨?_, ?_⟩
  · rintro ⟨b, hpath, hb⟩
    rcases TransGen.head'_iff.1 hpath with ⟨a, ha, hab⟩
    rcases hab.cases_head with rfl | ⟨c, hc, hcb⟩
    · exact Or.inl ⟨a, ha, hb⟩
    · exact Or.inr ⟨a, b, ha, TransGen.head' hc hcb, hb⟩
  · rintro (⟨b, ha, hb⟩ | ⟨a, b, ha, hab, hb⟩)
    · exact ⟨b, .single ha, hb⟩
    · exact ⟨b, .head ha hab, hb⟩

/-! ## What the search does -/

/-- With the node on the stack, the loop passes every callee over. -/
theorem nextLevel_eq {search : Nat → List Nat → Option Bool} {node : Nat} {callStack : List Nat}
    (h : node ∈ callStack) (callees : List Nat) :
    nextLevel search node callStack callees = some false := by
  have hcond : callStack.contains node = true := by simpa using h
  induction callees with
  | nil => rfl
  | cons callee callees ih => rw [nextLevel, hcond, Bool.or_true, if_pos rfl, ih]

/-- The search of a node ends on the first level. -/
theorem searchNode_eq {node : Nat} {callStack : List Nat} (h : node ∈ callStack) (n : Nat) :
    searchNode CG regex (n + 1) node callStack =
      some ((CG.callees node).any (isMatch CG regex)) := by
  rw [searchNode, nextLevel_eq h]
  by_cases hany : (CG.callees node).any (isMatch CG regex) = true
  · rw [if_pos hany, hany]
  · rw [if_neg hany]
    rw [Bool.not_eq_true] at hany
    rw [hany]

theorem returns_searchNode (node : Nat) :
    Returns (fun n => searchNode CG regex n node [node])
      ((CG.callees node).any (isMatch CG regex)) := by
  refine ⟨1, fun n hn => ?_⟩
  obtain ⟨m, rfl⟩ : ∃ m, n = m + 1 := ⟨n - 1, by omega⟩
  exact searchNode_eq CG regex (List.mem_singleton_self node) m

theorem returns_funcCallsRec (F : Function) :
    Returns (fun n => isFuncCallFuncRec CG regex n F) (funcCallsRec CG regex F) := by
  refine ⟨1, fun n hn => ?_⟩
  obtain ⟨m, rfl⟩ : ∃ m, n = m + 1 := ⟨n - 1, by omega⟩
  rw [funcCallsRec]
  simp only [isFuncCallFuncRec]
  split
  · rfl
  · rw [searchNode_eq CG regex (List.mem_singleton_self _),
      searchNode_eq CG regex (List.mem_singleton_self _)]
    rfl

/-- The passes ask for this value. -/
theorem returns_instCallsRec (M : Module) (i : Instruction) :
    Returns (fun n => isInstCallFuncRec CG regex M n i) (instCallsRec CG regex M i) := by
  rw [instCallsRec]
  simp only [isInstCallFuncRec]
  split
  · exact ⟨0, fun n _ => rfl⟩
  · cases M.getCalledFunction i with
    | none => exact ⟨0, fun n _ => rfl⟩
    | some G => exact returns_funcCallsRec CG regex G

theorem Returns.unique {search : Nat → Option Bool} {b b' : Bool} (h : Returns search b)
    (h' : Returns search b') : b = b' := by
  obtain ⟨k, hk⟩ := h
  obtain ⟨k', hk'⟩ := h'
  have hmax := hk (max k k') (Nat.le_max_left k k')
  rw [hk' (max k k') (Nat.le_max_right k k'), Option.some.injEq] at hmax
  exact hmax.symm

/-- A search that returns `b` has the right answer for `P` exactly when `b` does. -/
theorem right_answer_iff {search : Nat → Option Bool} {b : Bool} (h : Returns search b)
    {P : Prop} : (∃ r, Returns search r ∧ (r = true ↔ P)) ↔ (b = true ↔ P) := by
  refine ⟨?_, fun hb => ⟨b, h, hb⟩⟩
  rintro ⟨r, hr, hP⟩
  rw [h.unique hr]
  exact hP

theorem any_isMatch_iff {node : Nat} :
    (CG.callees node).any (isMatch CG regex) = true ↔ DirectMatch CG regex node := by
  rw [List.any_eq_true]
  rfl

theorem direct_iff_path {node : Nat} :
    (DirectMatch CG regex node ↔ PathToMatch CG regex node) ↔
      (FarMatch CG regex node → DirectMatch CG regex node) := by
  rw [pathToMatch_iff]
  tauto

end

/-- The search always ends.  Its answer for a function is right exactly when no
function two or more call edges away matches, or one that is called directly does
as well; for a call it is also right when the function called matches. -/
theorem search_exact_iff (M : Module) (CG : CallGraph) (regex : Str) (F : Function)
    (hF : Regex.matchPattern (lit "llvm" rfl) F.name = false) :
    (∃ r, Returns (fun n => isFuncCallFuncRec CG regex n F) r) ∧
    ((∃ r, Returns (fun n => isFuncCallFuncRec CG regex n F) r ∧
        (r = true ↔ PathToMatch CG regex (CG.node F.name))) ↔
      (FarMatch CG regex (CG.node F.name) → DirectMatch CG regex (CG.node F.name))) ∧
    ∀ i, M.getCalledFunction i = some F →
      (∃ r, Returns (fun n => isInstCallFuncRec CG regex M n i) r) ∧
      ((∃ r, Returns (fun n => isInstCallFuncRec CG regex M n i) r ∧
        (r = true ↔ Regex.matchPattern regex F.name = true ∨
          PathToMatch CG regex (CG.node F.name))) ↔
        Regex.matchPattern regex F.name = true ∨
          (FarMatch CG regex (CG.node F.name) → DirectMatch CG regex (CG.node F.name))) := by
  have hfunc : (fun n => isFuncCallFuncRec CG regex n F) =
      fun n => searchNode CG regex n (CG.node F.name) [CG.node F.name] := by
    funext n
    rw [isFuncCallFuncRec, hF, if_neg Bool.false_ne_true]
  have hret := returns_searchNode CG regex (CG.node F.name)
  refine ⟨⟨_, hfunc ▸ hret⟩, ?_, fun i hi => ?_⟩
  · rw [hfunc, right_answer_iff hret, any_isMatch_iff, direct_iff_path]
  · have hcall : isInstCallFunc M i regex = Regex.matchPattern regex F.name := by
      rw [isInstCallFunc, hi]
    by_cases hname : Regex.matchPattern regex F.name = true
    · have htrue : Returns (fun n => isInstCallFuncRec CG regex M n i) true :=
        ⟨0, fun n _ => by simp only [isInstCallFuncRec]; rw [hcall, if_pos hname]⟩
      exact ⟨⟨_, htrue⟩, iff_of_true ⟨_, htrue, by simp [hname]⟩ (Or.inl hname)⟩
    · have hinst : (fun n => isInstCallFuncRec CG regex M n i) =
          fun n => searchNode CG regex n (CG.node F.name) [CG.node F.name] := by
        rw [← hfunc]
        funext n
        simp only [isInstCallFuncRec]
        rw [hcall, if_neg hname, hi]
      rw [hinst]
      refine ⟨⟨_, hret⟩, ?_⟩
      rw [right_answer_iff hret, any_isMatch_iff, or_iff_right hname, or_iff_right hname,
        direct_iff_path]

/-- `mint` calls `check`, which calls `env::storage_usage`. -/
def storageChain : Module where
  values :=
    [.function, .function, .function,
     .instruction ⟨.call [] [] 1 true, some ⟨lit "src/lib.rs" rfl, 12⟩⟩,
     .instruction ⟨.call [] [] 2 true, some ⟨lit "src/lib.rs" rfl, 30⟩⟩]
  functions :=
    [⟨lit "_ZN5token5Token4mint17h1E" rfl, 0, [], [⟨lit "start" rfl, [3]⟩]⟩,
     ⟨lit "_ZN5token5Token5check17h2E" rfl, 1, [], [⟨lit "start" rfl, [4]⟩]⟩,
     ⟨lit "_ZN8near_sdk11environment3env13storage_usage17h3E" rfl, 2, [], []⟩]
  users := useList _
  users_perm := fun _ => .refl _
  operands_lt := by decide
  params_lt := by decide
  names_nodup := by decide
  functions_nodup := by decide

/-- The call graph of `storageChain`. -/
def storageChainGraph : CallGraph where
  node name := (storageChain.functions.map Function.name).idxOf name
  callees node := if node = 0 then [1] else if node = 1 then [2] else []
  functionName node := (storageChain.functions[node]?).map Function.name

/-- `regexStorageUse` of `storage-gas`. -/
def regexStorageUse : Str :=
  lit "near_sdk[0-9]+environment[0-9]+env[0-9]+storage_usage[0-9]+" rfl

def mint : Function := ⟨lit "_ZN5token5Token4mint17h1E" rfl, 0, [], [⟨lit "start" rfl, [3]⟩]⟩

theorem search_exact_iff_mint :
    Regex.matchPattern (lit "llvm" rfl) mint.name = false ∧
    (∃ r, Returns (fun n => isFuncCallFuncRec storageChainGraph regexStorageUse n mint) r) ∧
    ((∃ r, Returns (fun n => isFuncCallFuncRec storageChainGraph regexStorageUse n mint) r ∧
        (r = true ↔ PathToMatch storageChainGraph regexStorageUse 0)) ↔
      (FarMatch storageChainGraph regexStorageUse 0 →
        DirectMatch storageChainGraph regexStorageUse 0)) := by
  have hmint : Regex.matchPattern (lit "llvm" rfl) mint.name = false := by decide +kernel
  have h := search_exact_iff storageChain storageChainGraph regexStorageUse mint hmint
  exact ⟨hmint, h.1, h.2.1⟩

/-- The call of `storage_usage` behind `check` is not found. -/
theorem far_call_not_found :
    ¬ ∃ r, Returns (fun n => isFuncCallFuncRec storageChainGraph regexStorageUse n mint) r ∧
      (r = true ↔ PathToMatch storageChainGraph regexStorageUse
        (storageChainGraph.node mint.name)) := by
  rintro ⟨r, ⟨k, hk⟩, hr⟩
  have hcheck : Calls storageChainGraph 0 1 := by decide
  have husage : Calls storageChainGraph 1 2 := by decide
  have hpath : PathToMatch storageChainGraph regexStorageUse
      (storageChainGraph.node mint.name) :=
    ⟨2, .head hcheck (.single husage), by decide +kernel⟩
  have hrun : isFuncCallFuncRec storageChainGraph regexStorageUse (k + 1) mint = some false := by
    have hmint : Regex.matchPattern (lit "llvm" rfl) mint.name = false := by decide +kernel
    have hnode : storageChainGraph.node mint.name = 0 := by decide
    rw [isFuncCallFuncRec, hmint, if_neg Bool.false_ne_true, hnode,
      searchNode_eq _ _ (List.mem_singleton_self 0)]
    decide +kernel
  have heq := hk (k + 1) (Nat.le_succ k)
  simp only [hrun, Option.some.injEq] at heq
  subst heq
  exact absurd (hr.2 hpath) Bool.false_ne_true

end CallGraphSearch
