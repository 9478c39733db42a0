import Rustle.Llvm.NearCore

/-!
# `ext-call-trait` and `ext-call`: calls of external contracts

Two passes joined by a log.  The first writes the name of a function that calls
`Promise::function_call`; the second reads the names back and uses each **as a
regular expression** on the callees of the module.

* `ExtCallTrait.runOnModule`, `ExtCall.runOnModule` — the two passes.
* `reported` — the lines of the second pass run on the log of the first.
* `IsStub`, `CallsAt` — what the lines are meant to say.
* `mem_reported_iff` — what the lines do say: the first pass ends at its first
  finding, so at most one name is ever used.
* `reported_iff_calls_stub` — when the two agree.
-/

open Llvm NearCore
open Text (lit)

/-- The call instructions of `F` that carry a location of the project, with the
function they call directly. -/
def directCalls (M : Module) (F : Function) : List (DebugLoc × Function) :=
  (F.instructions M).filterMap fun (_, i) =>
    if inProject i then
      match i.debugLoc, M.getCalledFunction i with
      | some loc, some G => some (loc, G)
      | _, _ => none
    else none

namespace ExtCallTrait

/-- The loop over the instructions of a function: is a line written? -/
def writesLine (M : Module) : List (ValueId × Instruction) → Bool
  | [] => false
  | (_, i) :: is =>
    if !inProject i then writesLine M is
    else
      match M.getCalledFunction i with
      | none => writesLine M is
      | some G => if Regex.matchPattern regexExtCall G.name then true else writesLine M is

/-- The loop over the functions; a line written ends it. -/
def runOnFunctions (M : Module) : List Function → List Str
  | [] => []
  | F :: Fs =>
    if skipFunc F then runOnFunctions M Fs
    else if writesLine M (F.instructions M) then [F.name]
    else runOnFunctions M Fs

/-- `runOnModule`: the names written. -/
def runOnModule (M : Module) : List Str := runOnFunctions M M.functions

/-- The text of the log. -/
def log (M : Module) : Str := Text.unlines (runOnModule M)

end ExtCallTrait

namespace ExtCall

/-- The names read from the log of `ext-call-trait`: every word. -/
def loadTraits (log : Str) : List Str := Text.words log

/-- What is written for one instruction: a line for each name that matches. -/
def reportInst (M : Module) (extCallTraits : List Str) (F : Function) (i : Instruction) :
    List (Str × Str × Nat) :=
  if !inProject i then []
  else
    match i.debugLoc, M.getCalledFunction i with
    | some loc, some _ =>
      (extCallTraits.filter fun extCallTrait => isInstCallFunc M i extCallTrait).map
        fun _ => (F.name, loc.filename, loc.line)
    | _, _ => []

/-- `runOnModule`: the lines written, as function, file and line. -/
def runOnModule (M : Module) (extCallTraits : List Str) : List (Str × Str × Nat) :=
  M.functions.flatMap fun F =>
    if skipFunc F then []
    else (F.instructions M).flatMap fun (_, i) => reportInst M extCallTraits F i

/-- The lines of `ext-call` after `ext-call-trait` has run on the module. -/
def reported (M : Module) : List (Str × Str × Nat) :=
  runOnModule M (loadTraits (ExtCallTrait.log M))

/-! ## What the lines are meant to say -/

/-- `F` calls `Promise::function_call` or `function_call_weight` directly, at a
location of the project. -/
def IsStub (M : Module) (F : Function) : Prop :=
  ∃ c ∈ directCalls M F, Regex.matchPattern regexExtCall c.2.name = true

instance (M : Module) (F : Function) : Decidable (IsStub M F) :=
  inferInstanceAs (Decidable (∃ c ∈ directCalls M F,
    Regex.matchPattern regexExtCall c.2.name = true))

/-- At the site `(function, file, line)` a function with the property `P` is
called directly. -/
def CallsAt (M : Module) (P : Function → Prop) (site : Str × Str × Nat) : Prop :=
  ∃ F ∈ M.functions, ∃ c ∈ directCalls M F,
    site = (F.name, c.1.filename, c.1.line) ∧ P c.2

/-- A symbol as the compiler mangles it. -/
def Mangled (name : Str) : Prop :=
  name ≠ [] ∧ ∀ c ∈ name, c.isAlphanum = true ∨ c ∈ ['_', '.', '$']

/-! ## The first pass -/

theorem writesLine_iff (M : Module) (is : List (ValueId × Instruction)) :
    ExtCallTrait.writesLine M is = true ↔ ∃ p ∈ is, inProject p.2 = true ∧
      ∃ G, M.getCalledFunction p.2 = some G ∧ Regex.matchPattern regexExtCall G.name = true := by
  induction is with
  | nil => simp [ExtCallTrait.writesLine]
  | cons p is ih =>
    obtain ⟨v, i⟩ := p
    rw [ExtCallTrait.writesLine]
    by_cases hi : inProject i = true
    · rw [if_neg (by simp [hi])]
      cases hG : M.getCalledFunction i with
      | none => simp [ih, hG]
      | some G =>
        by_cases hm : Regex.matchPattern regexExtCall G.name = true
        · simp [hi, hG, hm]
        · simp [ih, hG, hm]
    · rw [if_pos (by simp [hi]), ih]
      simp [hi]

theorem inProject_debugLoc {i : Instruction} (h : inProject i = true) :
    ∃ loc, i.debugLoc = some loc := by
  unfold inProject at h
  cases hloc : i.debugLoc with
  | none => simp [hloc] at h
  | some loc => exact ⟨loc, rfl⟩

theorem mem_directCalls {M : Module} {F : Function} {c : DebugLoc × Function} :
    c ∈ directCalls M F ↔ ∃ p ∈ F.instructions M, inProject p.2 = true ∧
      p.2.debugLoc = some c.1 ∧ M.getCalledFunction p.2 = some c.2 := by
  unfold directCalls
  rw [List.mem_filterMap]
  constructor
  · rintro ⟨p, hp, h⟩
    by_cases hi : inProject p.2 = true
    · simp only [hi, if_true] at h
      split at h
      · rename_i loc G hloc hG
        rw [Option.some.injEq] at h
        subst h
        exact ⟨p, hp, hi, hloc, hG⟩
      · simp at h
    · simp [hi] at h
  · rintro ⟨p, hp, hi, hloc, hG⟩
    exact ⟨p, hp, by simp [hi, hloc, hG]⟩

theorem writesLine_iff_isStub (M : Module) (F : Function) :
    ExtCallTrait.writesLine M (F.instructions M) = true ↔ IsStub M F := by
  rw [writesLine_iff]
  constructor
  · rintro ⟨p, hp, hi, G, hG, hm⟩
    obtain ⟨loc, hloc⟩ := inProject_debugLoc hi
    exact ⟨(loc, G), mem_directCalls.2 ⟨p, hp, hi, hloc, hG⟩, hm⟩
  · rintro ⟨c, hc, hm⟩
    obtain ⟨p, hp, hi, -, hG⟩ := mem_directCalls.1 hc
    exact ⟨p, hp, hi, c.2, hG, hm⟩

/-- The first pass writes the first stub of the module and no other. -/
theorem runOnFunctions_eq (M : Module) (Fs : List Function) :
    ExtCallTrait.runOnFunctions M Fs =
      ((Fs.find? fun F => decide (IsStub M F)).map Function.name).toList := by
  induction Fs with
  | nil => rfl
  | cons F Fs ih =>
    rw [ExtCallTrait.runOnFunctions, if_neg (by simp), List.find?_cons]
    by_cases hs : IsStub M F
    · rw [if_pos ((writesLine_iff_isStub M F).2 hs)]
      simp [hs]
    · rw [if_neg (fun h => hs ((writesLine_iff_isStub M F).1 h)), ih]
      simp [hs]

theorem isBlank_of_mangled {c : Char} (h : c.isAlphanum = true ∨ c ∈ ['_', '.', '$']) :
    Text.isBlank c = false := by
  rcases h with h | h
  · have hc : 48 ≤ c.toNat := by
      simp only [Char.isAlphanum, Char.isAlpha, Char.isUpper, Char.isLower, Char.isDigit,
        Bool.or_eq_true, Bool.and_eq_true, decide_eq_true_eq, ge_iff_le] at h
      rcases h with (h | h) | h
      all_goals
        have := h.1
        rw [UInt32.le_iff_toNat_le] at this
        have hv : c.val.toNat = c.toNat := rfl
        simp at this
        omega
    have hsp : c ≠ ' ' := by
      rintro rfl
      exact absurd hc (by decide)
    simp only [Text.isBlank, Bool.or_eq_false_iff, beq_eq_false_iff_ne, Bool.and_eq_false_iff,
      decide_eq_false_iff_not]
    exact ⟨hsp, Or.inr (by omega)⟩
  · simp only [List.mem_cons, List.not_mem_nil, or_false] at h
    rcases h with rfl | rfl | rfl <;> decide

/-- The second pass reads back what the first one wrote. -/
theorem loadTraits_log (M : Module) (hM : ∀ F ∈ M.functions, Mangled F.name) :
    loadTraits (ExtCallTrait.log M) = ExtCallTrait.runOnModule M := by
  apply Text.words_unlines
  intro l hl
  unfold ExtCallTrait.runOnModule at hl
  rw [runOnFunctions_eq] at hl
  obtain ⟨F, hF, rfl⟩ : ∃ F ∈ M.functions, F.name = l := by
    simp only [Option.mem_toList, Option.map_eq_some_iff] at hl
    obtain ⟨F, hF, hl⟩ := hl
    exact ⟨F, List.mem_of_find?_eq_some hF, hl⟩
  exact ⟨(hM F hF).1, fun c hc => isBlank_of_mangled ((hM F hF).2 c hc)⟩

/-! ## The second pass -/

theorem mem_reportInst {M : Module} {ts : List Str} {F : Function} {i : Instruction}
    {site : Str × Str × Nat} :
    site ∈ reportInst M ts F i ↔ inProject i = true ∧ ∃ loc G, i.debugLoc = some loc ∧
      M.getCalledFunction i = some G ∧ site = (F.name, loc.filename, loc.line) ∧
      ∃ t ∈ ts, Regex.matchPattern t G.name = true := by
  unfold reportInst
  by_cases hi : inProject i = true
  · rw [if_neg (by simp [hi])]
    cases hloc : i.debugLoc with
    | none => simp
    | some loc =>
      cases hG : M.getCalledFunction i with
      | none => simp
      | some G =>
        simp only [List.mem_map, List.mem_filter, isInstCallFunc, hG, hi, true_and,
          Option.some.injEq]
        constructor
        · rintro ⟨t, ⟨ht, hm⟩, rfl⟩
          exact ⟨loc, G, rfl, rfl, rfl, t, ht, hm⟩
        · rintro ⟨_, _, rfl, rfl, rfl, t, ht, hm⟩
          exact ⟨t, ⟨ht, hm⟩, rfl⟩
  · rw [if_pos (by simp [hi])]
    simp [hi]

theorem mem_runOnModule {M : Module} {ts : List Str} {site : Str × Str × Nat} :
    site ∈ runOnModule M ts ↔
      CallsAt M (fun G => ∃ t ∈ ts, Regex.matchPattern t G.name = true) site := by
  unfold runOnModule CallsAt
  rw [List.mem_flatMap]
  constructor
  · rintro ⟨F, hF, h⟩
    rw [if_neg (by simp)] at h
    obtain ⟨p, hp, h⟩ := List.mem_flatMap.1 h
    obtain ⟨hi, loc, G, hloc, hG, hsite, hm⟩ := mem_reportInst.1 h
    exact ⟨F, hF, (loc, G), mem_directCalls.2 ⟨p, hp, hi, hloc, hG⟩, hsite, hm⟩
  · rintro ⟨F, hF, c, hc, hsite, hm⟩
    obtain ⟨p, hp, hi, hloc, hG⟩ := mem_directCalls.1 hc
    refine ⟨F, hF, ?_⟩
    rw [if_neg (by simp)]
    exact List.mem_flatMap.2 ⟨p, hp, mem_reportInst.2 ⟨hi, c.1, c.2, hloc, hG, hsite, hm⟩⟩

/-- The function whose name becomes the pattern: the first stub of the module. -/
def firstStub (M : Module) : Option Function := M.functions.find? fun F => decide (IsStub M F)

/-- What is reported: the direct calls of functions whose name contains a match
of the name of the first stub, read as a pattern. -/
theorem mem_reported_iff (M : Module) (hM : ∀ F ∈ M.functions, Mangled F.name)
    (site : Str × Str × Nat) :
    site ∈ reported M ↔ ∃ T, firstStub M = some T ∧
      CallsAt M (fun G => Regex.matchPattern T.name G.name = true) site := by
  unfold reported
  rw [loadTraits_log M hM, mem_runOnModule, ExtCallTrait.runOnModule, runOnFunctions_eq]
  rw [show (M.functions.find? fun F => decide (IsStub M F)) = firstStub M from rfl]
  cases firstStub M with
  | none => simp [CallsAt]
  | some T => simp

/-! ## When the lines are right -/

theorem not_isStub_of_firstStub {M : Module} (h : firstStub M = none) {F : Function}
    (hF : F ∈ M.functions) : ¬ IsStub M F := by
  simpa using List.find?_eq_none.1 h F hF

theorem mem_functions_of_mem_directCalls {M : Module} {F : Function} {c : DebugLoc × Function}
    (h : c ∈ directCalls M F) : c.2 ∈ M.functions := by
  obtain ⟨p, -, -, -, hG⟩ := mem_directCalls.1 h
  exact M.mem_functions_of_getCalledFunction hG

/-- At the site of a call: is a function with the property `P` called there? -/
theorem callsAt_site {M : Module} {P : Function → Prop} {F : Function} (hF : F ∈ M.functions)
    (loc : DebugLoc) :
    CallsAt M P (F.name, loc.filename, loc.line) ↔
      ∃ c ∈ directCalls M F, c.1 = loc ∧ P c.2 := by
  constructor
  · rintro ⟨F', hF', c, hc, hsite, hP⟩
    simp only [Prod.mk.injEq] at hsite
    have hFF : F = F' := List.inj_on_of_nodup_map M.names_nodup hF hF' hsite.1
    subst hFF
    refine ⟨c, hc, ?_, hP⟩
    obtain ⟨f, l⟩ := loc
    rw [DebugLoc.mk.injEq]
    exact ⟨hsite.2.1.symm, hsite.2.2.symm⟩
  · rintro ⟨c, hc, rfl, hP⟩
    exact ⟨F, hF, c, hc, rfl, hP⟩

/-- For every module of mangled symbols: the lines are those of the direct calls
of stubs if and only if, with `T` the first stub of the module, every line that
calls a stub calls a function that the name of `T` matches, and the other way
round. -/
theorem reported_iff_calls_stub (M : Module) (hM : ∀ F ∈ M.functions, Mangled F.name) :
    (∀ site, site ∈ reported M ↔ CallsAt M (IsStub M) site) ↔
      ∀ T, firstStub M = some T → ∀ F ∈ M.functions, ∀ c ∈ directCalls M F,
        (IsStub M c.2 → ∃ c' ∈ directCalls M F, c'.1 = c.1 ∧
          Regex.matchPattern T.name c'.2.name = true) ∧
        (Regex.matchPattern T.name c.2.name = true → ∃ c' ∈ directCalls M F, c'.1 = c.1 ∧
          IsStub M c'.2) := by
  constructor
  · intro h T hT F hF c hc
    have hsite := h (F.name, c.1.filename, c.1.line)
    rw [mem_reported_iff M hM] at hsite
    constructor
    · intro hstub
      obtain ⟨T', hT', hcalls⟩ := hsite.2 ((callsAt_site hF c.1).2 ⟨c, hc, rfl, hstub⟩)
      rw [hT, Option.some.injEq] at hT'
      subst hT'
      exact (callsAt_site hF c.1).1 hcalls
    · intro hmatch
      have hcalls := hsite.1 ⟨T, hT, (callsAt_site hF c.1).2 ⟨c, hc, rfl, hmatch⟩⟩
      exact (callsAt_site hF c.1).1 hcalls
  · intro h site
    rw [mem_reported_iff M hM]
    constructor
    · rintro ⟨T, hT, F, hF, c, hc, rfl, hmatch⟩
      exact (callsAt_site hF c.1).2 ((h T hT F hF c hc).2 hmatch)
    · rintro ⟨F, hF, c, hc, rfl, hstub⟩
      cases hT : firstStub M with
      | none =>
        exact absurd hstub (not_isStub_of_firstStub hT (mem_functions_of_mem_directCalls hc))
      | some T => exact ⟨T, rfl, (callsAt_site hF c.1).2 ((h T hT F hF c hc).1 hstub)⟩

theorem token_of_isAlphanum {c : Char} (h : c.isAlphanum = true) : Regex.token c = .lit c := by
  unfold Regex.token
  split
  all_goals first | rfl | exact absurd h (by decide)

theorem plain_of_mangled {c : Char} (h : c.isAlphanum = true ∨ c ∈ ['_', '.', '$']) :
    Regex.Plain c := by
  rcases h with h | h
  · simp [Regex.Plain, token_of_isAlphanum h]
  · simp only [List.mem_cons, List.not_mem_nil, or_false] at h
    rcases h with rfl | rfl | rfl <;> exact trivial

/-- A first stub whose symbol has an escape in it, as every method of a trait
has, is looked for in vain: nothing is reported. -/
theorem reported_eq_nil_of_dollar (M : Module) (hM : ∀ F ∈ M.functions, Mangled F.name)
    {T : Function} (hT : firstStub M = some T) {a b : Str} {c : Char}
    (hc : c.isAlphanum = true) (hname : T.name = a ++ '$' :: c :: b) : reported M = [] := by
  have hTM : T ∈ M.functions := List.mem_of_find?_eq_some hT
  have hplain : ∀ d ∈ a ++ '$' :: c :: b, Regex.Plain d :=
    fun d hd => plain_of_mangled ((hM T hTM).2 d (hname ▸ hd))
  rw [List.eq_nil_iff_forall_not_mem]
  intro site hsite
  obtain ⟨T', hT', F, -, d, -, -, hmatch⟩ := (mem_reported_iff M hM site).1 hsite
  rw [hT, Option.some.injEq] at hT'
  subst hT'
  simp [hname, Regex.matchPattern_dollar (token_of_isAlphanum hc) hplain] at hmatch

/-- Two stubs and a caller of the second. -/
def twoStubs : Module where
  values :=
    [.function, .function, .function, .function,
     .instruction ⟨.call [] [] 3 true, some ⟨lit "src/lib.rs" rfl, 7⟩⟩,
     .instruction ⟨.call [] [] 3 true, some ⟨lit "src/lib.rs" rfl, 8⟩⟩,
     .instruction ⟨.call [] [] 1 true, some ⟨lit "src/lib.rs" rfl, 20⟩⟩]
  functions :=
    [⟨lit "_ZN5token6ext_ft11ft_transfer17h1E" rfl, 0, [], [⟨lit "start" rfl, [4]⟩]⟩,
     ⟨lit "_ZN5token6ext_ft16ft_balance_total17h2E" rfl, 1, [], [⟨lit "start" rfl, [5]⟩]⟩,
     ⟨lit "_ZN5token5Token4sync17h3E" rfl, 2, [], [⟨lit "start" rfl, [6]⟩]⟩,
     ⟨lit "_ZN8near_sdk7promise7Promise13function_call17h4E" rfl, 3, [], []⟩]
  users := useList _
  users_perm := fun _ => .refl _
  operands_lt := by decide
  params_lt := by decide
  names_nodup := by decide
  functions_nodup := by decide

instance (name : Str) : Decidable (Mangled name) :=
  @instDecidableAnd _ _ inferInstance (List.decidableBAll _ name)

theorem reported_iff_calls_stub_twoStubs :
    (∀ F ∈ twoStubs.functions, Mangled F.name) ∧
      ((∀ site, site ∈ reported twoStubs ↔ CallsAt twoStubs (IsStub twoStubs) site) ↔
        ∀ T, firstStub twoStubs = some T → ∀ F ∈ twoStubs.functions, ∀ c ∈ directCalls twoStubs F,
          (IsStub twoStubs c.2 → ∃ c' ∈ directCalls twoStubs F, c'.1 = c.1 ∧
            Regex.matchPattern T.name c'.2.name = true) ∧
          (Regex.matchPattern T.name c.2.name = true →
            ∃ c' ∈ directCalls twoStubs F, c'.1 = c.1 ∧ IsStub twoStubs c'.2)) :=
  ⟨by decide +kernel, reported_iff_calls_stub twoStubs (by decide +kernel)⟩

/-- The call of the second stub is not reported. -/
theorem second_stub_not_reported :
    ¬ ∀ site, site ∈ reported twoStubs ↔ CallsAt twoStubs (IsStub twoStubs) site := by
  intro h
  have hcall : CallsAt twoStubs (IsStub twoStubs)
      (lit "_ZN5token5Token4sync17h3E" rfl, lit "src/lib.rs" rfl, 20) := by
    unfold CallsAt
    decide +kernel
  have hrun : reported twoStubs = [] := by decide +kernel
  have hmem := (h _).2 hcall
  rw [hrun] at hmem
  exact List.not_mem_nil hmem

end ExtCall
