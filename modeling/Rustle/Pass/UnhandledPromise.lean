import Rustle.Library.FaultyLoop
import Rustle.Llvm.FindUsers

/-!
# `unhandled-promise`: promises that are neither returned nor handled

* `runOnFunction` — the pass: the lines written, each with its instruction, or the
  null function it comes to.
* `Kept`, `Unhandled` — what a line is meant to say of a call.
* `mem_lines_iff` — what it does say: the call that makes the promise counts among
  those that may handle it.
* `Fails` — the calls on which the pass breaks down.
* `unhandled_written_iff` — when the line for an unhandled promise is written.
-/

namespace UnhandledPromise

open Llvm NearCore FaultyLoop
open Text (lit)

/-- A line of the log: function, file and line. -/
abbrev Line := Str × Str × Nat

/-- The methods of `Promise`. -/
def regex_promise_method : Str :=
  lit "(.+near_sdk[0-9]+promise[0-9]+Promise[0-9]+([_a-z]+)[0-9]+[0-9a-z]+)" rfl

section

variable (M : TypedModule) (F : Function)

/-- The promise that the call makes, if it makes one: the location of its result,
by the name of its type. -/
def madePromise (i : Instruction) : Option ValueId :=
  if !inProject i then none
  else
    match M.getCalledFunction i, i.args with
    | some _, promise :: _ :: _ =>
      if Text.contains (M.printed promise) (lit "near_sdk::promise::Promise" rfl) then some promise
      else none
    | _, _ => none

/-- Is the value returned, or the first parameter of `F`? -/
def isReturn (v : ValueId) : Bool :=
  (match M.instruction? v with
    | some ⟨.ret _, _⟩ => true
    | _ => false) || F.getArg 0 == some v

/-- Does the user call a method of `Promise`?  The test takes the name of the
function called for granted. -/
def handles (v : ValueId) : Except Fault Bool :=
  match M.instruction? v with
  | none => .ok false
  | some i =>
    if i.isCall then
      match M.getCalledFunction i with
      | none => .error .nullFunction
      | some G => .ok (Regex.matchPattern regex_promise_method G.name)
    else .ok false

/-- `handlePromise` -/
def handlePromise (promise : ValueId) : Except Fault Bool :=
  if F.getArg 0 = some promise then .ok false
  else (M.users promise).anyM (handles M)

/-- `usedInReturn` -/
def usedInReturn (pmUsers : List ValueId) (promise : ValueId) : Bool :=
  pmUsers.any (isReturn M F) || F.getArg 0 == some promise

/-- The body of the loop over the instructions. -/
def promiseLines (p : ValueId × Instruction) : Except Fault (List (ValueId × Line)) :=
  match madePromise M p.2 with
  | none => .ok []
  | some promise =>
    match simpleFindUsers M.toModule true false promise with
    | none => .error .noParameter
    | some pmUsers =>
      match handlePromise M F promise with
      | .error e => .error e
      | .ok handlePromise =>
        if !handlePromise && !usedInReturn M F pmUsers promise then
          match p.2.debugLoc with
          | none => .error .nullLocation
          | some loc => .ok [(p.1, F.name, loc.filename, loc.line)]
        else .ok []

/-- `runOnFunction`: the lines written, each with its instruction. -/
def runOnFunction : Except Fault (List (ValueId × Line)) :=
  if skipFunc F then .ok []
  else ((F.instructions M.toModule).mapM (promiseLines M F)).map List.flatten

/-! ## What a line is meant to say -/

/-- The value is a call of a function whose name is that of a method. -/
def CallsMethod (v : ValueId) : Prop :=
  ∃ i, M.instruction? v = some i ∧ isInstCallFunc M.toModule i regex_promise_method = true

/-- The value is an indirect call. -/
def CallsIndirectly (v : ValueId) : Prop :=
  ∃ i, M.instruction? v = some i ∧ i.isCall = true ∧ M.getCalledFunction i = none

/-- The call `p` makes a promise that flows neither to a return nor to the first
parameter. -/
structure Kept (p : ValueId × Instruction) (promise : ValueId) : Prop where
  made : madePromise M p.2 = some promise
  defined : ∃ pmUsers, simpleFindUsers M.toModule true false promise = some pmUsers ∧
    ∀ v ∈ pmUsers, isReturn M F v = false
  not_first : F.getArg 0 ≠ some promise

/-- No call that uses the promise, **other** than the one that makes it, is a call of
a method. -/
structure Unhandled (p : ValueId × Instruction) (promise : ValueId) : Prop
    extends Kept M F p promise where
  not_handled : ∀ v ∈ M.users promise, v ≠ p.1 → ¬ CallsMethod M v

/-! ## Calls on which the pass breaks down -/

/-- A call makes a promise, and among its users an indirect call comes before any
call of a method. -/
def MeetsIndirect (p : ValueId × Instruction) : Prop :=
  ∃ promise, madePromise M p.2 = some promise ∧
    (∃ pmUsers, simpleFindUsers M.toModule true false promise = some pmUsers) ∧
    F.getArg 0 ≠ some promise ∧
    Reaches (fun v => ¬ CallsMethod M v) (CallsIndirectly M) (M.users promise)

/-- A call makes a promise, and the search of its users reads a parameter that
does not exist. -/
def MeetsNoParameter (p : ValueId × Instruction) : Prop :=
  ∃ promise, madePromise M p.2 = some promise ∧
    simpleFindUsers M.toModule true false promise = none

/-- The pass breaks down at the call. -/
def Fails (p : ValueId × Instruction) : Prop := MeetsIndirect M F p ∨ MeetsNoParameter M p

/-! ## One user -/

theorem handles_eq_true_iff {v : ValueId} : handles M v = .ok true ↔ CallsMethod M v := by
  unfold handles CallsMethod isInstCallFunc
  cases M.instruction? v with
  | none => simp
  | some i =>
    simp only [Option.some.injEq, exists_eq_left']
    cases hG : M.getCalledFunction i with
    | none => cases i.isCall <;> simp
    | some G =>
      have hcall : i.isCall = true := by
        unfold Module.getCalledFunction at hG
        split at hG
        · rename_i hop
          rw [Instruction.isCall, hop]
        · cases hG
      simp [hcall]

theorem handles_eq_error_iff {v : ValueId} {e : Fault} :
    handles M v = .error e ↔ e = .nullFunction ∧ CallsIndirectly M v := by
  unfold handles CallsIndirectly
  cases M.instruction? v with
  | none => simp
  | some i =>
    simp only [Option.some.injEq, exists_eq_left']
    cases i.isCall with
    | false => simp
    | true =>
      cases M.getCalledFunction i with
      | none => simp [eq_comm]
      | some G => simp

theorem handles_eq_false_iff {v : ValueId} :
    handles M v = .ok false ↔ ¬ CallsMethod M v ∧ ¬ CallsIndirectly M v := by
  rw [← handles_eq_true_iff]
  have herror := handles_eq_error_iff M (v := v) (e := .nullFunction)
  rw [and_iff_right rfl] at herror
  rw [← herror]
  rcases hh : handles M v with e | b
  · obtain ⟨rfl, -⟩ := (handles_eq_error_iff M).1 hh
    simp
  · cases b <;> simp

/-! ## One call -/

theorem handlePromise_eq_error_iff {promise : ValueId} {e : Fault} :
    handlePromise M F promise = .error e ↔ e = .nullFunction ∧ F.getArg 0 ≠ some promise ∧
      Reaches (fun v => ¬ CallsMethod M v) (CallsIndirectly M) (M.users promise) := by
  unfold handlePromise
  by_cases hfirst : F.getArg 0 = some promise
  · simp [hfirst]
  · rw [if_neg hfirst, anyM_eq_error_iff]
    have hcongr : Reaches (fun v => handles M v = .ok false) (fun v => handles M v = .error e)
          (M.users promise) ↔
        Reaches (fun v => ¬ CallsMethod M v ∧ ¬ CallsIndirectly M v)
          (fun v => e = .nullFunction ∧ CallsIndirectly M v) (M.users promise) :=
      Reaches.congr (fun _ _ => handles_eq_false_iff M) (fun _ _ => handles_eq_error_iff M)
    rw [hcongr]
    by_cases he : e = .nullFunction
    · simp only [he, true_and, reaches_first_iff, hfirst, ne_eq, not_false_eq_true]
    · refine iff_of_false ?_ (fun h => he h.1)
      intro hreach
      obtain ⟨v, -, hv, -⟩ := hreach.exists_mem
      exact he hv

/-- A location is there where a promise is made. -/
theorem debugLoc_of_madePromise {i : Instruction} {promise : ValueId}
    (h : madePromise M i = some promise) : ∃ loc, i.debugLoc = some loc := by
  unfold madePromise at h
  cases hloc : i.debugLoc with
  | none => simp [inProject, hloc] at h
  | some loc => exact ⟨loc, rfl⟩

/-- What the pass comes to at a call. -/
theorem promiseLines_cases (p : ValueId × Instruction) :
    (MeetsNoParameter M p ∧ promiseLines M F p = .error .noParameter) ∨
    (MeetsIndirect M F p ∧ promiseLines M F p = .error .nullFunction) ∨
    (¬ Fails M F p ∧ ∃ lines, promiseLines M F p = .ok lines) := by
  unfold promiseLines
  cases hp : madePromise M p.2 with
  | none =>
    refine Or.inr (Or.inr ⟨?_, [], rfl⟩)
    rintro (⟨promise, h, -⟩ | ⟨promise, h, -⟩)
    · rw [hp] at h
      cases h
    · rw [hp] at h
      cases h
  | some promise =>
    simp only
    cases hu : simpleFindUsers M.toModule true false promise with
    | none => exact Or.inl ⟨⟨promise, hp, hu⟩, rfl⟩
    | some pmUsers =>
      simp only
      cases hh : handlePromise M F promise with
      | error e =>
        obtain ⟨rfl, hfirst, hreach⟩ := (handlePromise_eq_error_iff M F).1 hh
        exact Or.inr (Or.inl ⟨⟨promise, hp, ⟨pmUsers, hu⟩, hfirst, hreach⟩, rfl⟩)
      | ok b =>
        refine Or.inr (Or.inr ⟨?_, ?_⟩)
        · rintro (⟨promise', h, -, hfirst, hreach⟩ | ⟨promise', h, hnone⟩)
          · rw [hp, Option.some.injEq] at h
            subst h
            have herror := (handlePromise_eq_error_iff M F).2 ⟨rfl, hfirst, hreach⟩
            rw [hh] at herror
            cases herror
          · rw [hp, Option.some.injEq] at h
            subst h
            rw [hu] at hnone
            cases hnone
        · obtain ⟨loc, hloc⟩ := debugLoc_of_madePromise M hp
          simp only [hloc]
          split
          · exact ⟨_, rfl⟩
          · exact ⟨_, rfl⟩

/-- The pass goes through a call exactly when it does not fail there. -/
theorem exists_promiseLines_iff {p : ValueId × Instruction} :
    (∃ lines, promiseLines M F p = .ok lines) ↔ ¬ Fails M F p := by
  rcases promiseLines_cases M F p with ⟨hp, h⟩ | ⟨hp, h⟩ | ⟨hp, h⟩
  · exact iff_of_false (by simp [h]) (not_not_intro (Or.inr hp))
  · exact iff_of_false (by simp [h]) (not_not_intro (Or.inl hp))
  · exact iff_of_true h hp

/-- A null function is met exactly where an indirect call is. -/
theorem promiseLines_eq_error_iff {p : ValueId × Instruction} :
    promiseLines M F p = .error .nullFunction ↔ MeetsIndirect M F p := by
  rcases promiseLines_cases M F p with ⟨⟨promise, hp, hnone⟩, h⟩ | ⟨hp, h⟩ | ⟨hp, lines, h⟩
  · refine iff_of_false (by simp [h]) ?_
    rintro ⟨promise', hp', ⟨pmUsers, hu⟩, -, -⟩
    rw [hp, Option.some.injEq] at hp'
    rw [← hp', hnone] at hu
    cases hu
  · exact iff_of_true h hp
  · exact iff_of_false (by simp [h]) (fun hmeets => hp (Or.inl hmeets))

/-- Where a promise is made there is a location. -/
theorem promiseLines_ne_nullLocation (p : ValueId × Instruction) :
    promiseLines M F p ≠ .error .nullLocation := by
  rcases promiseLines_cases M F p with ⟨-, h⟩ | ⟨-, h⟩ | ⟨-, lines, h⟩
  · simp [h]
  · simp [h]
  · simp [h]

theorem handlePromise_eq_false_iff {promise : ValueId} (hfirst : F.getArg 0 ≠ some promise) :
    handlePromise M F promise = .ok false ↔
      ∀ v ∈ M.users promise, ¬ CallsMethod M v ∧ ¬ CallsIndirectly M v := by
  rw [handlePromise, if_neg hfirst, anyM_eq_ok_false_iff]
  exact forall₂_congr fun v _ => handles_eq_false_iff M

/-- No call that uses the promise is a call of a method. -/
structure Reported (p : ValueId × Instruction) (promise : ValueId) : Prop
    extends Kept M F p promise where
  not_handled : ∀ v ∈ M.users promise, ¬ CallsMethod M v

theorem usedInReturn_eq_false_iff {pmUsers : List ValueId} {promise : ValueId} :
    usedInReturn M F pmUsers promise = false ↔
      (∀ v ∈ pmUsers, isReturn M F v = false) ∧ F.getArg 0 ≠ some promise := by
  simp [usedInReturn]

/-- The line written at a call, if one is. -/
theorem mem_promiseLines_iff {p : ValueId × Instruction} {lines : List (ValueId × Line)}
    (h : promiseLines M F p = .ok lines) {x : ValueId × Line} :
    x ∈ lines ↔ (∃ promise, Reported M F p promise) ∧
      ∃ loc, p.2.debugLoc = some loc ∧ x = (p.1, F.name, loc.filename, loc.line) := by
  have hfails := (exists_promiseLines_iff M F).1 ⟨lines, h⟩
  unfold promiseLines at h
  cases hp : madePromise M p.2 with
  | none =>
    rw [hp] at h
    cases h
    refine iff_of_false List.not_mem_nil ?_
    rintro ⟨⟨promise, hrep⟩, -⟩
    have hmade := hrep.made
    rw [hp] at hmade
    cases hmade
  | some promise =>
    have hone : (∃ promise, Reported M F p promise) ↔ Reported M F p promise := by
      refine ⟨?_, fun hrep => ⟨promise, hrep⟩⟩
      rintro ⟨promise', hrep⟩
      have hmade := hrep.made
      rw [hp, Option.some.injEq] at hmade
      exact hmade ▸ hrep
    rw [hone]
    simp only [hp] at h
    obtain ⟨loc, hloc⟩ := debugLoc_of_madePromise M hp
    cases hu : simpleFindUsers M.toModule true false promise with
    | none => simp [hu] at h
    | some pmUsers =>
      cases hh : handlePromise M F promise with
      | error e => simp [hu, hh] at h
      | ok b =>
        simp only [hu, hh, hloc] at h
        by_cases hwrite : b = false ∧ usedInReturn M F pmUsers promise = false
        · obtain ⟨rfl, hret⟩ := hwrite
          simp only [hret, Bool.not_false, Bool.and_self, if_true, Except.ok.injEq] at h
          subst h
          obtain ⟨husers, hfirst⟩ := (usedInReturn_eq_false_iff M F).1 hret
          have hnone := (handlePromise_eq_false_iff M F hfirst).1 hh
          have hrep : Reported M F p promise :=
            ⟨⟨hp, ⟨pmUsers, hu, husers⟩, hfirst⟩, fun v hv => (hnone v hv).1⟩
          simp [hloc, hrep]
        · have hnil : lines = [] := by
            rw [if_neg (by simpa using hwrite), Except.ok.injEq] at h
            exact h.symm
          subst hnil
          refine iff_of_false List.not_mem_nil ?_
          rintro ⟨hrep, -⟩
          obtain ⟨pmUsers', hu', hret⟩ := hrep.defined
          rw [hu, Option.some.injEq] at hu'
          subst hu'
          refine hwrite ⟨?_, (usedInReturn_eq_false_iff M F).2 ⟨hret, hrep.not_first⟩⟩
          cases b with
          | false => rfl
          | true =>
            -- a promise that is handled has a user that calls a method
            rw [handlePromise, if_neg hrep.not_first, anyM_eq_ok_true_iff] at hh
            obtain ⟨v, hv, hmethod⟩ := hh.exists_mem
            exact absurd ((handles_eq_true_iff M).1 hmethod) (hrep.not_handled v hv)

/-! ## The pass -/

/-- The pass goes through exactly when it fails at no call. -/
theorem exists_lines_iff :
    (∃ lines, runOnFunction M F = .ok lines) ↔
      ∀ q ∈ F.instructions M.toModule, ¬ Fails M F q := by
  rw [runOnFunction, if_neg (by simp), exists_map_eq_ok_iff, exists_mapM_iff]
  simp only [exists_promiseLines_iff]

/-- The lines of a pass that goes through. -/
theorem mem_lines_iff {lines : List (ValueId × Line)} (h : runOnFunction M F = .ok lines)
    {x : ValueId × Line} :
    x ∈ lines ↔ ∃ p ∈ F.instructions M.toModule, (∃ promise, Reported M F p promise) ∧
      ∃ loc, p.2.debugLoc = some loc ∧ x = (p.1, F.name, loc.filename, loc.line) := by
  rw [runOnFunction, if_neg (by simp)] at h
  cases hall : (F.instructions M.toModule).mapM (promiseLines M F) with
  | error e => simp [hall, Except.map] at h
  | ok parts =>
    rw [hall, Except.map, Except.ok.injEq] at h
    subst h
    simp only [List.mem_flatten, mem_of_mapM hall]
    constructor
    · rintro ⟨part, ⟨p, hp, hpart⟩, hx⟩
      exact ⟨p, hp, (mem_promiseLines_iff M F hpart).1 hx⟩
    · rintro ⟨p, hp, hx⟩
      obtain ⟨part, hpart⟩ := exists_mapM_iff.1 ⟨parts, hall⟩ p hp
      exact ⟨part, ⟨p, hp, hpart⟩, (mem_promiseLines_iff M F hpart).2 hx⟩

/-- The call that makes a promise uses it. -/
theorem mem_users_of_madePromise {p : ValueId × Instruction}
    (hp : p ∈ F.instructions M.toModule) {promise : ValueId}
    (h : madePromise M p.2 = some promise) : p.1 ∈ M.users promise := by
  have hinst := Function.instruction?_of_mem hp
  refine Module.mem_users_of_operand hinst (Instruction.mem_operands_of_mem_args ?_)
  unfold madePromise at h
  split at h
  · cases h
  · split at h
    · rename_i hargs
      split at h
      · rw [Option.some.injEq] at h
        rw [hargs, h]
        exact List.mem_cons_self
      · cases h
    · cases h

/-- The line for an unhandled promise is written exactly when the call that makes
it is not one of a method itself, and the pass goes through. -/
theorem unhandled_written_iff {p : ValueId × Instruction} {promise : ValueId}
    (hp : p ∈ F.instructions M.toModule) (h : Unhandled M F p promise) :
    (∃ lines, runOnFunction M F = .ok lines ∧ ∃ l, (p.1, l) ∈ lines) ↔
      isInstCallFunc M.toModule p.2 regex_promise_method = false ∧
        ∀ q ∈ F.instructions M.toModule, ¬ Fails M F q := by
  have hinst := Function.instruction?_of_mem hp
  obtain ⟨loc, hloc⟩ := debugLoc_of_madePromise M h.made
  constructor
  · rintro ⟨lines, hlines, l, hl⟩
    refine ⟨?_, (exists_lines_iff M F).1 ⟨lines, hlines⟩⟩
    obtain ⟨q, hq, ⟨promise', hrep⟩, loc', -, hx⟩ := (mem_lines_iff M F hlines).1 hl
    -- the line is that of the call itself
    have hqinst := Function.instruction?_of_mem hq
    rw [Prod.mk.injEq] at hx
    rw [← hx.1, hinst, Option.some.injEq] at hqinst
    have hmade := hrep.made
    rw [← hqinst, h.made, Option.some.injEq] at hmade
    subst hmade
    have hown := hrep.not_handled p.1 (mem_users_of_madePromise M F hp h.made)
    rw [← Bool.not_eq_true]
    exact fun hmethod => hown ⟨p.2, hinst, hmethod⟩
  · rintro ⟨hmethod, hall⟩
    obtain ⟨lines, hlines⟩ := (exists_lines_iff M F).2 hall
    refine ⟨lines, hlines, _, (mem_lines_iff M F hlines).2 ⟨p, hp, ⟨promise, ?_⟩, loc, hloc, rfl⟩⟩
    refine ⟨h.toKept, fun v hv => ?_⟩
    by_cases hvp : v = p.1
    · subst hvp
      rintro ⟨i, hi, hcall⟩
      rw [hinst, Option.some.injEq] at hi
      rw [← hi, hmethod] at hcall
      cases hcall
    · exact h.not_handled v hv hvp

/-- In a function without indirect calls, whose promises are used in it alone, the
pass comes to no null function. -/
theorem not_meetsIndirect {p : ValueId × Instruction}
    (hdirect : ∀ q ∈ F.instructions M.toModule, q.2.isCall = true →
      M.getCalledFunction q.2 ≠ none)
    (hlocal : ∀ promise, madePromise M p.2 = some promise → ∀ v ∈ M.users promise,
      ∀ i, M.instruction? v = some i → (v, i) ∈ F.instructions M.toModule) :
    ¬ MeetsIndirect M F p := by
  rintro ⟨promise, hmade, -, -, hreach⟩
  obtain ⟨v, hv, i, hi, hcall, hnone⟩ := hreach.exists_mem
  exact hdirect _ (hlocal promise hmade v hv i hi) hcall hnone

end

/-- A function that notifies a token and pays an account, and drops both promises. -/
def payOut : Function :=
  ⟨lit "_ZN3pay3Pay7pay_out17h1E" rfl, 0, [3], [⟨lit "start" rfl, [8, 9]⟩]⟩

/-- A call of another contract, and `Promise::transfer`. -/
def payModule : TypedModule where
  values :=
    [.function, .function, .function, .argument, .instruction ⟨.other [], none⟩,
     .instruction ⟨.other [], none⟩, .instruction ⟨.other [], none⟩,
     .instruction ⟨.other [], none⟩,
     .instruction ⟨.call [4, 6] [] 1 true, some ⟨lit "src/lib.rs" rfl, 20⟩⟩,
     .instruction ⟨.call [5, 6, 7] [] 2 true, some ⟨lit "src/lib.rs" rfl, 21⟩⟩,
     .argument, .argument, .argument, .argument, .argument]
  functions :=
    [payOut, ⟨lit "_ZN3pay9ext_token6notify17h2E" rfl, 1, [10, 11], []⟩,
     ⟨lit "_ZN8near_sdk7promise7Promise8transfer17h3E" rfl, 2, [12, 13, 14], []⟩]
  users := useList _
  users_perm := fun _ => .refl _
  operands_lt := by decide
  params_lt := by decide
  names_nodup := by decide +kernel
  functions_nodup := by decide
  otherClass _ := .unary
  typeName _ := []
  printed v :=
    if v = 4 ∨ v = 5 then lit "alloca %\"near_sdk::promise::Promise\", align 8" rfl else []
  isInt128 _ := false
  constantInt _ := none

/-- The call that notifies the token. -/
def notifyCall : ValueId × Instruction :=
  (8, ⟨.call [4, 6] [] 1 true, some ⟨lit "src/lib.rs" rfl, 20⟩⟩)

/-- The call that pays the account. -/
def transferCall : ValueId × Instruction :=
  (9, ⟨.call [5, 6, 7] [] 2 true, some ⟨lit "src/lib.rs" rfl, 21⟩⟩)

theorem notifyCall_unhandled : Unhandled payModule payOut notifyCall 4 where
  made := by decide +kernel
  defined := ⟨[10, 8, 4], by decide +kernel⟩
  not_first := by decide
  not_handled := by
    have husers : payModule.users 4 = [8] := by decide
    intro v hv hne
    rw [husers, List.mem_singleton] at hv
    exact absurd hv hne

theorem transferCall_unhandled : Unhandled payModule payOut transferCall 5 where
  made := by decide +kernel
  defined := ⟨[12, 9, 5], by decide +kernel⟩
  not_first := by decide
  not_handled := by
    have husers : payModule.users 5 = [9] := by decide
    intro v hv hne
    rw [husers, List.mem_singleton] at hv
    exact absurd hv hne

theorem unhandled_written_iff_notifyCall :
    (∃ lines, runOnFunction payModule payOut = .ok lines ∧ ∃ l, (notifyCall.1, l) ∈ lines) ↔
      isInstCallFunc payModule.toModule notifyCall.2 regex_promise_method = false ∧
        ∀ q ∈ payOut.instructions payModule.toModule, ¬ Fails payModule payOut q :=
  unhandled_written_iff payModule payOut (by decide +kernel) notifyCall_unhandled

/-- The line for the payment is missing: the call of `Promise::transfer` counts as
the one that handles its own promise. -/
theorem own_call_handles :
    Unhandled payModule payOut transferCall 5 ∧
      (∀ q ∈ payOut.instructions payModule.toModule, q.2.isCall = true →
        payModule.getCalledFunction q.2 ≠ none) ∧
      ∃ lines, runOnFunction payModule payOut = .ok lines ∧
        ∀ l, (transferCall.1, l) ∉ lines := by
  have hrun : runOnFunction payModule payOut =
      .ok [(8, payOut.name, lit "src/lib.rs" rfl, 20)] := by decide +kernel
  have hdirect : ∀ q ∈ payOut.instructions payModule.toModule,
      (payModule.getCalledFunction q.2).isSome = true := by decide +kernel
  refine ⟨transferCall_unhandled, ?_, _, hrun, ?_⟩
  · intro q hq _ hnone
    have hsome := hdirect q hq
    rw [hnone] at hsome
    cases hsome
  · intro l hl
    rw [List.mem_singleton, Prod.mk.injEq] at hl
    exact absurd hl.1 (by decide)

end UnhandledPromise
