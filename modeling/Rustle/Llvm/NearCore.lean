import Rustle.Library.Regex
import Rustle.Library.Visit
import Rustle.Llvm.Module

/-!
# The functions all passes share

`near_core.h` and `near_core.cpp`: the built-in patterns, the tests on call
instructions, the search for privileged functions and for users of a value.

* `inProject` — the filter at the head of every instruction loop.
* `isInstCallFunc`, `isFuncPrivileged` — the tests on calls.
* `CallGraph` — the call graph, for the searches over it.
* `simpleFindUsers` — the users of a value; `simpleFindUsers_fuel` says that the
  fuel of the definition is enough.
-/

namespace NearCore

open Llvm
open Text (lit)

/-! ## Built-in patterns -/

/-- `debug_check_all_func` -/
def debug_check_all_func : Bool := true

def regexForLibFunc : Str :=
  lit "(^/cargo)|(^/rustc)" rfl ++
  lit "|(_ZN\\d+(core|std|alloc|num_traits|solana_program|byteorder|hex|bytemuck|borsh" rfl ++
  lit "|enumflags2|safe_transmute|thiserror|byteorder)([0-9]+|\\.\\.)[a-zA-Z]+)" rfl ++
  lit "|(serde\\.\\.de\\.\\.Deserialize)" rfl

def regexForLibLoc : Str :=
  lit "(^/rustc)|(^/cargo)|(^/root/.cargo)|(^/home/.+/.cargo)|(^$)" rfl

def regexExtCall : Str :=
  lit "(.+near_sdk[0-9]+promise[0-9]+Promise[0-9]+function_call(_weight)?[0-9]+)" rfl

def regexPartialEq : Str := lit "(core..cmp..PartialEq)" rfl

def regexPromiseResult : Str :=
  lit "(near_sdk[0-9]+environment[0-9]+env[0-9]+(promise_result|promise_results_count)[0-9]+)|" rfl ++
  lit "(near_sdk[0-9]+utils[0-9]+(is_promise_success|promise_result_as_success)[0-9]+)" rfl

/-! ## Tests on instructions -/

section

variable (M : Module)

/-- Does the instruction carry a location that is not one of a library? -/
def inProject (i : Instruction) : Bool :=
  match i.debugLoc with
  | none => false
  | some loc => !Regex.matchPattern regexForLibLoc loc.filename

/-- Is the function skipped as a library function?  The flag
`debug_check_all_func` turns the test off. -/
def skipFunc (F : Function) : Bool :=
  !debug_check_all_func && Regex.matchPattern regexForLibFunc F.name

@[simp] theorem skipFunc_eq_false (F : Function) : skipFunc F = false := by
  simp [skipFunc, debug_check_all_func]

/-- Does the instruction call a function whose name matches directly? -/
def isInstCallFunc (i : Instruction) (regex : Str) : Bool :=
  match M.getCalledFunction i with
  | some G => Regex.matchPattern regex G.name
  | none => false

def regex_predecessor : Str :=
  lit "near_sdk[0-9]+environment[0-9]+env[0-9]+predecessor_account_id" rfl

def regex_eq : Str :=
  lit "near_sdk\\.\\.types\\.\\.account_id\\.\\.AccountId.+core\\.\\.cmp\\.\\.PartialEq" rfl

/-- `isFuncPrivileged(F, depth)` at `depth + 1`: the source's depth starts at two
and ends below zero. -/
def isFuncPrivilegedRec : Nat → Function → Bool
  | 0, _ => false
  | depth + 1, F =>
    (F.instructions M).any fun (_, i) =>
      inProject i &&
        if isInstCallFunc M i regex_predecessor then
          (F.instructions M).any fun (_, j) => isInstCallFunc M j regex_eq
        else
          match M.getCalledFunction i with
          | some G => isFuncPrivilegedRec depth G
          | none => false

/-- `isFuncPrivileged(F)`, with the default depth of two. -/
def isFuncPrivileged (F : Function) : Bool := isFuncPrivilegedRec M 3 F

end

/-! ## The call graph -/

/-- A call graph as the analysis offers it: the node of each function, the
nodes called from a node, in order, and the name of the function of a node. -/
structure CallGraph where
  node : Str → Nat
  callees : Nat → List Nat
  functionName : Nat → Option Str

/-! ## Users of a value -/

section

variable (M : Module) (restrictCrossFunction disableCrossFunction : Bool)

/-- Where the search goes from a call: for each argument first into the called
function, then from the second argument of an `into` to its first. -/
def callEdges (i : Instruction) : List (Visit.Edge ValueId) :=
  match M.getCalledFunction i with
  | none => []
  | some G =>
    (List.range i.args.length).flatMap fun k =>
      [⟨fun set => !disableCrossFunction &&
          (!restrictCrossFunction || (i.getArgOperand k).any set.contains), G.getArg k⟩,
       ⟨fun set => Text.contains G.name (lit "core..convert..Into" rfl) &&
          decide (2 ≤ i.args.length) && (i.getArgOperand 1).any set.contains,
        i.getArgOperand 0⟩]

/-- Where the search goes from a value: what a call leads to, or the pointer
operand of a store, and then the users. -/
def userEdges (v : ValueId) : List (Visit.Edge ValueId) :=
  (match M.instruction? v with
    | some i =>
      match i.op with
      | .call .. => callEdges M restrictCrossFunction disableCrossFunction i
      | .store _ pointer => [⟨fun _ => true, some pointer⟩]
      | _ => []
    | none => []) ++
  (M.users v).map fun u => ⟨fun _ => true, some u⟩

/-- `simpleFindUsers`: the set of users of a value, the last one found first;
`none` when the search reads a parameter that does not exist. -/
def simpleFindUsers (v : ValueId) : Option (List ValueId) :=
  Visit.visit M.isLabelTy (userEdges M restrictCrossFunction disableCrossFunction)
    (M.values.length + 1) v []

theorem userEdges_closed :
    Visit.Closed (userEdges M restrictCrossFunction disableCrossFunction)
      (List.range M.values.length) := by
  intro v hv e he w hw
  rw [List.mem_range]
  rcases List.mem_append.1 he with he | he
  · cases hi : M.instruction? v with
    | none => simp [hi] at he
    | some i =>
      simp only [hi] at he
      cases hop : i.op with
      | call args extra called typed =>
        simp only [hop] at he
        exact callEdges_lt hi he hw
      | store value pointer =>
        simp only [hop, List.mem_singleton] at he
        subst he
        rw [Option.some.injEq] at hw
        subst hw
        exact M.instruction_operands_lt hi (by simp [hop, Op.operands])
      | br | switch | ret | getElementPtr | other => simp [hop] at he
  · obtain ⟨u, hu, rfl⟩ := List.mem_map.1 he
    rw [Option.some.injEq] at hw
    subst hw
    exact M.users_lt hu
where
  callEdges_lt {v w : ValueId} {i : Instruction} {e : Visit.Edge ValueId}
      (hi : M.instruction? v = some i)
      (he : e ∈ callEdges M restrictCrossFunction disableCrossFunction i)
      (hw : e.target = some w) : w < M.values.length := by
    unfold callEdges at he
    cases hG : M.getCalledFunction i with
    | none => simp [hG] at he
    | some G =>
      simp only [hG] at he
      obtain ⟨k, _, he⟩ := List.mem_flatMap.1 he
      rcases List.mem_pair.1 he with rfl | rfl
      · exact M.params_lt G (M.mem_functions_of_getCalledFunction hG) w
          (List.mem_of_getElem? hw)
      · exact M.instruction_operands_lt hi (List.mem_of_getElem? hw)

/-- The fuel of `simpleFindUsers` is enough. -/
theorem simpleFindUsers_fuel {v : ValueId} (hv : v < M.values.length) {n : Nat}
    (hn : M.values.length + 1 ≤ n) :
    Visit.visit M.isLabelTy (userEdges M restrictCrossFunction disableCrossFunction) n v [] =
      simpleFindUsers M restrictCrossFunction disableCrossFunction v := by
  have hlen : (List.range M.values.length).length + 1 ≤ n := by simpa using hn
  rw [Visit.visit_fuel (userEdges_closed M restrictCrossFunction disableCrossFunction)
    (List.mem_range.2 hv) hlen, simpleFindUsers, List.length_range]

/-- The users found lie in the table, each once. -/
theorem simpleFindUsers_within {v : ValueId} (hv : v < M.values.length) {users : List ValueId}
    (h : simpleFindUsers M restrictCrossFunction disableCrossFunction v = some users) :
    users.Nodup ∧ ∀ u ∈ users, u < M.values.length := by
  have hw := (Visit.visit_within
    (userEdges_closed M restrictCrossFunction disableCrossFunction) (List.mem_range.2 hv)
    ⟨List.nodup_nil, List.nil_subset _⟩ h).1
  exact ⟨hw.1, fun u hu => List.mem_range.1 (hw.2 hu)⟩

/-- Inside one function the search is always defined. -/
theorem exists_simpleFindUsers {v : ValueId} (hv : v < M.values.length) :
    ∃ users, simpleFindUsers M restrictCrossFunction true v = some users := by
  refine Visit.visit_isSome (userEdges_closed M restrictCrossFunction true) ?_
    (List.mem_range.2 hv) ⟨List.nodup_nil, List.nil_subset _⟩ (by simp)
  intro v _ e he seen hg
  rcases List.mem_append.1 he with he | he
  · split at he
    · rename_i i hi
      split at he
      · unfold callEdges at he
        cases hG : M.getCalledFunction i with
        | none => simp [hG] at he
        | some G =>
          simp only [hG] at he
          obtain ⟨k, -, he⟩ := List.mem_flatMap.1 he
          rcases List.mem_pair.1 he with rfl | rfl
          · simp at hg
          · exact Module.exists_getArgOperand_zero hG
      · rw [List.mem_singleton] at he
        exact ⟨_, by rw [he]⟩
      · simp at he
    · simp at he
  · obtain ⟨u, -, rfl⟩ := List.mem_map.1 he
    exact ⟨u, rfl⟩

end

end NearCore
