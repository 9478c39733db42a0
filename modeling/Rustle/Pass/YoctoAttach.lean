import Rustle.Llvm.CallGraphSearch

/-!
# `yocto-attach`: privileged functions without `assert_one_yocto`

* `runOnModule` — the pass: the lines it writes, in order.
* `Unprotected` — what a line is meant to say about a function.
* `runOnFunctions_eq` — the loop over the functions **ends** at the first
  callback; up to there it treats each function on its own.
* `writes_iff_unprotected` — when the lines are those of the unprotected
  functions.
-/

namespace YoctoAttach

open Llvm NearCore
open CallGraphSearch (instCallsRec)
open Text (lit)

def regex_assert_yocto : Str := lit "near_sdk[0-9]+utils[0-9]+assert_one_yocto" rfl

/-- The callbacks read from the log: every word, up to the first `@`. -/
def loadCallbacks (log : Str) : List Str :=
  (Text.words log).map fun callbackLine => callbackLine.takeWhile (· != '@')

section

variable (M : Module) (CG : CallGraph)

/-- The variables of the loop over the instructions. -/
structure Scan where
  foundYoctoCheck : Bool
  funcFileName : Str
  deriving DecidableEq

/-- The loop over the instructions of one block, which a check leaves. -/
def scanBlock : List (ValueId × Instruction) → Scan → Scan
  | [], s => s
  | (_, i) :: is, s =>
    if !inProject i then scanBlock is s
    else
      let s := if s.funcFileName.isEmpty then
          { s with funcFileName := (i.debugLoc.map DebugLoc.filename).getD [] } else s
      if instCallsRec CG regex_assert_yocto M i then { s with foundYoctoCheck := true }
      else scanBlock is s

/-- The loop over the blocks, which a check does not leave. -/
def scanFunction (F : Function) : Scan :=
  F.blocks.foldl (fun s B => scanBlock M CG (M.instructions B) s) ⟨false, []⟩

/-- What the body of the loop over the functions writes for a function that is
not a callback. -/
def report (F : Function) : Option (Str × Str) :=
  if isFuncPrivileged M F then
    let s := scanFunction M CG F
    if !s.foundYoctoCheck then some (F.name, s.funcFileName) else none
  else none

variable (callbacks : List Str)

/-- The loop over the functions. -/
def runOnFunctions : List Function → List (Str × Str)
  | [] => []
  | F :: Fs =>
    if skipFunc F then runOnFunctions Fs
    else if callbacks.contains F.name then []  -- skip callback functions: `return false`
    else (report M CG F).toList ++ runOnFunctions Fs

/-- `runOnModule`: the lines written, as function name and file name. -/
def runOnModule : List (Str × Str) := runOnFunctions M CG callbacks M.functions

/-- A privileged function that is no callback and has no check. -/
structure Unprotected (F : Function) : Prop where
  not_callback : F.name ∉ callbacks
  privileged : isFuncPrivileged M F = true
  unchecked : ∀ p ∈ F.instructions M, inProject p.2 = true →
    instCallsRec CG regex_assert_yocto M p.2 = false

/-- Is a line written for the function? -/
def Written (F : Function) : Prop := ∃ file, (F.name, file) ∈ runOnModule M CG callbacks

/-! ## One function -/

theorem scanBlock_found (is : List (ValueId × Instruction)) (s : Scan) :
    (scanBlock M CG is s).foundYoctoCheck = true ↔ s.foundYoctoCheck = true ∨
      ∃ p ∈ is, inProject p.2 = true ∧ instCallsRec CG regex_assert_yocto M p.2 = true := by
  induction is generalizing s with
  | nil => simp [scanBlock]
  | cons p is ih =>
    obtain ⟨v, i⟩ := p
    rw [scanBlock]
    by_cases hi : inProject i = true
    · rw [if_neg (by simp [hi])]
      by_cases hc : instCallsRec CG regex_assert_yocto M i = true
      · simp [hc, hi]
      · simp only [hc]
        rw [if_neg (by simp), ih]
        have hs : (if s.funcFileName.isEmpty = true then
            { s with funcFileName := (i.debugLoc.map DebugLoc.filename).getD [] }
            else s).foundYoctoCheck = s.foundYoctoCheck := by split <;> rfl
        rw [hs]
        simp [hc]
    · rw [if_pos (by simp [hi]), ih]
      simp [hi]

theorem scanFunction_found (F : Function) :
    (scanFunction M CG F).foundYoctoCheck = true ↔
      ∃ p ∈ F.instructions M, inProject p.2 = true ∧
        instCallsRec CG regex_assert_yocto M p.2 = true := by
  have hrun : ∀ (Bs : List BasicBlock) (s : Scan),
      (Bs.foldl (fun s B => scanBlock M CG (M.instructions B) s) s).foundYoctoCheck = true ↔
        s.foundYoctoCheck = true ∨ ∃ p ∈ Bs.flatMap M.instructions, inProject p.2 = true ∧
          instCallsRec CG regex_assert_yocto M p.2 = true := by
    intro Bs
    induction Bs with
    | nil => simp
    | cons B Bs ih =>
      intro s
      rw [List.foldl_cons, ih, scanBlock_found, List.flatMap_cons]
      simp only [List.mem_append, or_and_right, exists_or, or_assoc]
  simpa [scanFunction, Function.instructions] using hrun F.blocks ⟨false, []⟩

/-- The body of the loop writes a line exactly for an unprotected function. -/
theorem report_isSome_iff {F : Function} (h : F.name ∉ callbacks) :
    (∃ file, report M CG F = some (F.name, file)) ↔ Unprotected M CG callbacks F := by
  have hscan := scanFunction_found M CG F
  unfold report
  constructor
  · rintro ⟨file, hfile⟩
    by_cases hp : isFuncPrivileged M F = true
    · rw [if_pos hp] at hfile
      refine ⟨h, hp, fun p hp hi => ?_⟩
      by_contra hc
      rw [Bool.not_eq_false] at hc
      simp [hscan.2 ⟨p, hp, hi, hc⟩] at hfile
    · simp [hp] at hfile
  · rintro ⟨-, hp, hun⟩
    have hfound : (scanFunction M CG F).foundYoctoCheck = false := by
      rw [← Bool.not_eq_true, hscan]
      rintro ⟨p, hmem, hi, hc⟩
      simp [hun p hmem hi] at hc
    refine ⟨(scanFunction M CG F).funcFileName, ?_⟩
    rw [if_pos hp]
    simp [hfound]

theorem report_name {F : Function} {l : Str × Str} (h : report M CG F = some l) :
    l.1 = F.name := by
  unfold report at h
  split at h
  · simp only at h
    split at h
    · rw [Option.some.injEq] at h
      rw [← h]
    · simp at h
  · simp at h

/-! ## All functions -/

/-- The loop treats each function on its own, up to the first callback. -/
theorem runOnFunctions_eq (Fs : List Function) :
    runOnFunctions M CG callbacks Fs =
      (Fs.takeWhile fun F => !callbacks.contains F.name).filterMap (report M CG) := by
  induction Fs with
  | nil => rfl
  | cons F Fs ih =>
    rw [runOnFunctions, if_neg (by simp), List.takeWhile_cons]
    by_cases hc : F.name ∈ callbacks
    · rw [if_pos (by simpa using hc), if_neg (by simp [hc])]
      rfl
    · rw [if_neg (by simpa using hc), if_pos (by simp [hc]), ih]
      cases h : report M CG F with
      | none => simp [h]
      | some l => simp [h]

/-- A line is written for a function of the module exactly when no callback
stands before it and it is unprotected. -/
theorem written_iff {F : Function} (hF : F ∈ M.functions) :
    Written M CG callbacks F ↔
      F ∈ M.functions.takeWhile (fun G => !callbacks.contains G.name) ∧
        Unprotected M CG callbacks F := by
  have hinj : ∀ G ∈ M.functions, G.name = F.name → G = F := fun G hG hname =>
    List.inj_on_of_nodup_map M.names_nodup hG hF hname
  unfold Written runOnModule
  rw [runOnFunctions_eq]
  constructor
  · rintro ⟨file, hfile⟩
    obtain ⟨G, hG, hrep⟩ := List.mem_filterMap.1 hfile
    have hGF : G = F :=
      hinj G ((List.takeWhile_sublist _).subset hG) (report_name M CG hrep).symm
    subst hGF
    have hcb : G.name ∉ callbacks := by simpa using List.mem_takeWhile_imp hG
    exact ⟨hG, (report_isSome_iff M CG callbacks hcb).1 ⟨file, hrep⟩⟩
  · rintro ⟨hmem, hun⟩
    obtain ⟨file, hrep⟩ := (report_isSome_iff M CG callbacks hun.not_callback).2 hun
    exact ⟨file, List.mem_filterMap.2 ⟨F, hmem, hrep⟩⟩

/-- What a loop that stops at the first `p`-less element reaches: every `q`
exactly when no such element stands before a `q`. -/
theorem forall_mem_takeWhile_iff {α : Type} (p : α → Bool) (q : α → Prop)
    (hpq : ∀ x, q x → p x = true) {l : List α} (hl : l.Nodup) :
    (∀ x ∈ l, q x → x ∈ l.takeWhile p) ↔ l.Pairwise fun x y => p x = false → ¬ q y := by
  induction l with
  | nil => simp
  | cons a l ih =>
    obtain ⟨ha, hl⟩ := List.nodup_cons.1 hl
    rw [List.pairwise_cons, ← ih hl, List.takeWhile_cons]
    by_cases hp : p a = true
    · have hne : ∀ x ∈ l, x ≠ a := fun x hx h => ha (h ▸ hx)
      rw [if_pos hp]
      simp only [hp]
      constructor
      · intro h
        refine ⟨by simp, fun x hx hq => ?_⟩
        exact (List.mem_cons.1 (h x (by simp [hx]) hq)).resolve_left (hne x hx)
      · rintro ⟨-, h⟩ x hx hq
        rcases List.mem_cons.1 hx with rfl | hx
        · simp
        · exact List.mem_cons_of_mem _ (h x hx hq)
    · rw [if_neg hp]
      constructor
      · intro h
        exact ⟨fun y hy _ hq => absurd (h y (by simp [hy]) hq) (by simp),
          fun x hx hq => absurd (h x (by simp [hx]) hq) (by simp)⟩
      · rintro ⟨h, -⟩ x hx hq
        rcases List.mem_cons.1 hx with rfl | hx
        · exact absurd (hpq x hq) hp
        · exact absurd hq (h x hx (by simpa using hp))

end

/-- For every module and every callback log: the lines are those of exactly the
unprotected functions if and only if no callback is listed before an
unprotected function. -/
theorem writes_iff_unprotected (M : Module) (CG : CallGraph) (log : Str) :
    (∀ F ∈ M.functions,
        Written M CG (loadCallbacks log) F ↔ Unprotected M CG (loadCallbacks log) F) ↔
      M.functions.Pairwise fun G F =>
        G.name ∈ loadCallbacks log → ¬ Unprotected M CG (loadCallbacks log) F := by
  have hnodup : M.functions.Nodup := List.Nodup.of_map _ M.names_nodup
  have hcond := forall_mem_takeWhile_iff (fun G => !(loadCallbacks log).contains G.name)
    (Unprotected M CG (loadCallbacks log)) (fun F hF => by simpa using hF.not_callback) hnodup
  have hpair : (M.functions.Pairwise fun G F =>
        G.name ∈ loadCallbacks log → ¬ Unprotected M CG (loadCallbacks log) F) ↔
      M.functions.Pairwise fun G F => (!(loadCallbacks log).contains G.name) = false →
        ¬ Unprotected M CG (loadCallbacks log) F := by
    simp
  rw [hpair, ← hcond]
  constructor
  · intro h F hF hun
    exact ((written_iff M CG (loadCallbacks log) hF).1 ((h F hF).2 hun)).1
  · intro h F hF
    rw [written_iff M CG (loadCallbacks log) hF]
    exact ⟨fun hw => hw.2, fun hun => ⟨h F hF hun, hun⟩⟩

def setOwner : Function :=
  ⟨lit "_ZN5token5Token9set_owner17h2E" rfl, 1, [], [⟨lit "start" rfl, [4, 5]⟩]⟩

/-- A contract with a callback `on_get` before an unprotected `set_owner`, which
compares the predecessor without a check of the deposit. -/
def ownerModule : Module where
  values :=
    [.function, .function, .function, .function,
     .instruction ⟨.call [] [] 2 true, some ⟨lit "src/lib.rs" rfl, 10⟩⟩,
     .instruction ⟨.call [] [] 3 true, some ⟨lit "src/lib.rs" rfl, 10⟩⟩]
  functions :=
    [⟨lit "_ZN5token5Token6on_get17h1E" rfl, 0, [], []⟩,
     setOwner,
     ⟨lit "_ZN8near_sdk11environment3env22predecessor_account_id17h3E" rfl, 2, [], []⟩,
     ⟨lit "_ZN61_$LT$near_sdk..types..account_id..AccountId$u20$as$u20$core..cmp..PartialEq$GT$2eq17h4E"
        rfl, 3, [], []⟩]
  users := useList _
  users_perm := fun _ => .refl _
  operands_lt := by decide
  params_lt := by decide
  names_nodup := by decide
  functions_nodup := by decide

/-- A call graph whose nodes call nothing: enough where no callee is searched
for a check. -/
def emptyCallGraph : CallGraph := ⟨fun _ => 0, fun _ => [], fun _ => none⟩

def onGetLog : Str := lit "_ZN5token5Token6on_get17h1E@src/lib.rs\n" rfl

/-- The callback silences the unprotected function listed after it. -/
theorem callback_hides_setOwner :
    ¬ ∀ F ∈ ownerModule.functions,
        Written ownerModule emptyCallGraph (loadCallbacks onGetLog) F ↔
          Unprotected ownerModule emptyCallGraph (loadCallbacks onGetLog) F := by
  intro h
  have hmem : setOwner ∈ ownerModule.functions := by simp [ownerModule]
  have hun : Unprotected ownerModule emptyCallGraph (loadCallbacks onGetLog) setOwner :=
    ⟨by decide +kernel, by decide +kernel, by decide +kernel⟩
  obtain ⟨file, hfile⟩ := (h setOwner hmem).2 hun
  have hrun : runOnModule ownerModule emptyCallGraph (loadCallbacks onGetLog) = [] := by
    decide +kernel
  rw [hrun] at hfile
  exact List.not_mem_nil hfile

end YoctoAttach
