import Rustle.Audit.Pipeline

/-!
# Notes from passes that read the log of another pass

`ext-call` looks for the names that `ext-call-trait` has written, `yocto-attach`
leaves out the callbacks that `callback` has.  Both logs are made anew, from all
modules of the contract, when the detector is made.

* `funcFile`, `report_file` — the file in a line of `yocto-attach`.
* `build_yocto`, `mem_unlog_ext` — what the second pass leaves.
* `yocto_notes`, `ext_call_notes` — what the rows say of the modules.
-/

namespace YoctoAttach

open Llvm NearCore
open CallGraphSearch (instCallsRec)
open Text (lit)

/-! ## The file in a line -/

section

variable {M : Module} {CG : CallGraph}

/-- The files of the instructions of the project. -/
def files (is : List (ValueId × Instruction)) : List Str :=
  is.filterMap fun p =>
    if inProject p.2 then some ((p.2.debugLoc.map DebugLoc.filename).getD []) else none

/-- The first file that has a name. -/
def funcFile (M : Module) (F : Function) : Str :=
  ((files (F.instructions M)).find? fun file => !file.isEmpty).getD []

/-- The file of some instructions, behind the file found so far. -/
def fileFrom (is : List (ValueId × Instruction)) (file : Str) : Str :=
  is.foldl (fun file p =>
    if inProject p.2 && file.isEmpty then (p.2.debugLoc.map DebugLoc.filename).getD [] else file)
    file

theorem scanBlock_file {is : List (ValueId × Instruction)} {s : Scan}
    (h : ∀ p ∈ is, inProject p.2 = true →
      instCallsRec CG regex_assert_yocto M p.2 = false) :
    (scanBlock M CG is s).funcFileName = fileFrom is s.funcFileName := by
  induction is generalizing s with
  | nil => rfl
  | cons p is ih =>
    obtain ⟨v, i⟩ := p
    have hrest := fun {s} => ih (s := s) fun p hp => h p (List.mem_cons_of_mem _ hp)
    rw [scanBlock, fileFrom, List.foldl_cons]
    by_cases hi : inProject i = true
    · have hcheck := h (v, i) List.mem_cons_self hi
      rw [if_neg (by simp [hi])]
      simp only [hcheck, hi, Bool.true_and]
      rw [if_neg Bool.false_ne_true, hrest]
      split <;> rfl
    · rw [if_pos (by simp [hi]), hrest]
      simp [hi, fileFrom]

theorem scanFunction_file {F : Function}
    (h : ∀ p ∈ F.instructions M, inProject p.2 = true →
      instCallsRec CG regex_assert_yocto M p.2 = false) :
    (scanFunction M CG F).funcFileName = fileFrom (F.instructions M) [] := by
  have hrun : ∀ (Bs : List BasicBlock) (s : Scan), (∀ p ∈ Bs.flatMap M.instructions,
      inProject p.2 = true → instCallsRec CG regex_assert_yocto M p.2 = false) →
      (Bs.foldl (fun s B => scanBlock M CG (M.instructions B) s) s).funcFileName
        = fileFrom (Bs.flatMap M.instructions) s.funcFileName := by
    intro Bs
    induction Bs with
    | nil => exact fun s _ => rfl
    | cons B Bs ih =>
      intro s hall
      rw [List.flatMap_cons, List.forall_mem_append] at hall
      rw [List.foldl_cons, ih _ hall.2, scanBlock_file hall.1, List.flatMap_cons, fileFrom,
        fileFrom, fileFrom, List.foldl_append]
  exact hrun F.blocks ⟨false, []⟩ h

theorem files_cons (p : ValueId × Instruction) (is : List (ValueId × Instruction)) :
    files (p :: is) = (if inProject p.2 then [(p.2.debugLoc.map DebugLoc.filename).getD []]
      else []) ++ files is := by
  rw [files, List.filterMap_cons]
  by_cases hi : inProject p.2 = true
  · simp [hi, files]
  · simp [hi, files]

theorem fileFrom_eq (is : List (ValueId × Instruction)) (file : Str) :
    fileFrom is file
      = if file.isEmpty then ((files is).find? fun file => !file.isEmpty).getD [] else file := by
  induction is generalizing file with
  | nil => cases file <;> rfl
  | cons p is ih =>
    rw [fileFrom, List.foldl_cons]
    refine (ih _).trans ?_
    rw [files_cons]
    by_cases hi : inProject p.2 = true
    · cases file with
      | nil =>
        simp only [hi, if_true, List.isEmpty_nil, Bool.and_self, List.singleton_append,
          List.find?_cons]
        cases (p.2.debugLoc.map DebugLoc.filename).getD [] with
        | nil => rfl
        | cons c t => rfl
      | cons c t => simp
    · cases file with
      | nil => simp [hi]
      | cons c t => simp

/-- The file of a function with an instruction of the project is that of one of its
instructions. -/
theorem funcFile_mem {F : Function} (h : ∃ p ∈ F.instructions M, inProject p.2 = true) :
    ∃ p ∈ F.instructions M, ∃ loc, p.2.debugLoc = some loc ∧ funcFile M F = loc.filename := by
  have hloc : ∀ file ∈ files (F.instructions M), ∃ p ∈ F.instructions M,
      ∃ loc, p.2.debugLoc = some loc ∧ file = loc.filename := by
    intro file hfile
    obtain ⟨p, hp, hfile⟩ := List.mem_filterMap.1 hfile
    by_cases hi : inProject p.2 = true
    · rw [if_pos hi] at hfile
      unfold inProject at hi
      cases hl : p.2.debugLoc with
      | none => simp [hl] at hi
      | some loc =>
        rw [hl] at hfile
        exact ⟨p, hp, loc, hl, (Option.some.inj hfile).symm⟩
    · rw [if_neg hi] at hfile
      cases hfile
  unfold funcFile
  cases hfind : (files (F.instructions M)).find? fun file => !file.isEmpty with
  | some file => exact hloc file (List.mem_of_find?_eq_some hfind)
  | none =>
    obtain ⟨p, hp, hi⟩ := h
    have hmem : (p.2.debugLoc.map DebugLoc.filename).getD [] ∈ files (F.instructions M) :=
      List.mem_filterMap.2 ⟨p, hp, by rw [if_pos hi]⟩
    have hnil := List.find?_eq_none.1 hfind _ hmem
    rw [Bool.not_eq_true, Bool.not_eq_false', List.isEmpty_iff] at hnil
    obtain ⟨q, hq, loc, hl, hfile⟩ := hloc _ hmem
    exact ⟨q, hq, loc, hl, hnil ▸ hfile⟩

theorem privileged_inProject {F : Function} (h : isFuncPrivileged M F = true) :
    ∃ p ∈ F.instructions M, inProject p.2 = true := by
  obtain ⟨p, hp, h⟩ := List.any_eq_true.1 h
  exact ⟨p, hp, (Bool.and_eq_true_iff.1 h).1⟩

/-- The lines are those of the unprotected functions that the loop comes to, each with
its file. -/
theorem mem_runOnModule_iff {callbacks : List Str} {l : Str × Str} :
    l ∈ runOnModule M CG callbacks ↔
      ∃ F ∈ M.functions.takeWhile (fun G => !callbacks.contains G.name),
        Unprotected M CG callbacks F ∧ l = (F.name, funcFile M F) := by
  rw [runOnModule, runOnFunctions_eq, List.mem_filterMap]
  refine exists_congr fun F => and_congr_right fun hF => ?_
  have hcb : F.name ∉ callbacks := by simpa using List.mem_takeWhile_imp hF
  have hfile : ∀ file, Unprotected M CG callbacks F → report M CG F = some (F.name, file) →
      file = funcFile M F := by
    intro file hun hrep
    rw [report, if_pos hun.privileged] at hrep
    simp only at hrep
    split at hrep
    · rw [Option.some.injEq, Prod.mk.injEq, scanFunction_file hun.unchecked, fileFrom_eq] at hrep
      exact hrep.2.symm
    · cases hrep
  constructor
  · intro hrep
    have hl : l = (F.name, l.2) := Prod.ext (report_name M CG hrep) rfl
    rw [hl] at hrep
    have hun := (report_isSome_iff M CG callbacks hcb).1 ⟨_, hrep⟩
    exact ⟨hun, hl.trans (by rw [hfile _ hun hrep])⟩
  · rintro ⟨hun, rfl⟩
    obtain ⟨file, hrep⟩ := (report_isSome_iff M CG callbacks hcb).2 hun
    rw [hrep, hfile file hun hrep]

end

end YoctoAttach

namespace Audit.Makefile

open Llvm NearCore Directory
open Text

section

variable {C : Compiled} {T : Tools} {dem : Str → Str}

/-! ## `yocto-attach` -/

/-- The name of a function of the contract that reads the result of a promise. -/
def CallbackSymbol (T : Tools) (name : Str) : Prop :=
  ∃ b ∈ T.bitcodes, ∃ F ∈ b.M.functions, Callback.ReadsResult b.M F ∧ F.name = name

/-- The detector is given the callbacks as `callback` has written them. -/
theorem build_yocto (hok : T.getPackagesName.2 = true) :
    T.build (.finder .yoctoAttach) clean (.log (.finder .yoctoAttach))
      = T.passLog fun b => yoctoAttach b T.callbackLog := by
  have hbefore : before (.finder .yoctoAttach) = [.tgIr, .callback] := rfl
  have hstatus : ∀ t ∈ before (.finder .yoctoAttach), t.isDetector = false ∧ T.status t = true := by
    rw [hbefore]
    exact List.forall_mem_cons.2 ⟨⟨rfl, hok⟩, List.forall_mem_singleton.2 ⟨rfl, rfl⟩⟩
  obtain ⟨hmade, hbuild⟩ := build_log hstatus
  obtain ⟨k, hk, hzero⟩ := hmade.callback (by rw [hbefore]; simp)
  have hk0 : k = 0 := hzero fun D' hD' => by
    rw [hbefore] at hD'
    simp at hD'
  subst hk0
  rw [hbuild]
  generalize (run ((before (.finder .yoctoAttach)).flatMap T.recipe) clean).1 = d at hk
  show (run [clear (.finder .yoctoAttach), T.opt (.finder .yoctoAttach)] d).1 _ = _
  rw [run_cons_ok (by rfl), run_cons_ok (by rfl)]
  generalize hd₁ : (exec d (clear (.finder .yoctoAttach))).1 = d₁
  have hnone : d₁ (.log (.finder .yoctoAttach)) = none := by
    rw [← hd₁]
    simp only [clear, exec, List.mem_singleton, if_true]
  have hread : d₁ .callback = T.callbackLog := by
    rw [← hd₁, exec_other (fun h => TmpFile.noConfusion (List.mem_singleton.1 h)), hk]
    rfl
  show (List.foldl _ d₁ _ : Dir TmpFile Char) _ = _
  rw [Tools.passLog]
  by_cases hnil : T.bitcodes = []
  · rw [hnil, if_pos rfl]
    exact hnone
  · rw [if_neg hnil, Directory.append_eq (by decide) fun h => hnil (List.map_eq_nil_iff.1 h),
      put_self, hnone, List.map_map, List.map_singleton, hread]
    rfl

/-- The callbacks that the pass knows are those of all modules. -/
theorem mem_loadCallbacks (hwords : ∀ b ∈ T.bitcodes, Callback.Readable b.M)
    (hne : T.bitcodes ≠ []) {name : Str} :
    name ∈ YoctoAttach.loadCallbacks (T.callbackLog.getD []) ↔ CallbackSymbol T name := by
  have hlog : T.callbackLog.getD [] = ((T.bitcodes.map Bitcode.M).map Callback.log).flatten := by
    rw [Tools.callbackLog, Tools.passLog, if_neg hne, List.map_map]
    rfl
  rw [hlog, Callback.mem_loadCallbacks_logs (List.forall_mem_map.2 hwords)]
  constructor
  · rintro ⟨M, hM, h⟩
    obtain ⟨b, hb, rfl⟩ := List.mem_map.1 hM
    exact ⟨b, hb, h⟩
  · rintro ⟨b, hb, h⟩
    exact ⟨b.M, List.mem_map_of_mem hb, h⟩

/-- The functions that the loop comes to. -/
theorem mem_takeWhile_iff {α : Type} {p : α → Bool} {l : List α} {x : α} :
    x ∈ l.takeWhile p ↔ ∃ pre post, l = pre ++ x :: post ∧ (∀ y ∈ pre, p y = true) ∧ p x = true := by
  constructor
  · intro h
    obtain ⟨pre, post, hpre⟩ := List.append_of_mem h
    have hall : ∀ y ∈ l.takeWhile p, p y = true := fun y hy => List.mem_takeWhile_imp hy
    refine ⟨pre, post ++ l.dropWhile p, ?_, fun y hy => hall y (by rw [hpre]; simp [hy]), hall x h⟩
    rw [← List.cons_append, ← List.append_assoc, ← hpre, List.takeWhile_append_dropWhile]
  · rintro ⟨pre, post, rfl, hpre, hx⟩
    rw [List.takeWhile_append_of_pos hpre, List.takeWhile_cons, if_pos hx]
    simp

/-- An unprotected function, no callback of the contract is listed before it in its
module, and the report takes it for `func`. -/
def UnprotectedAt (T : Tools) (dem : Str → Str) (func : Func) (path : Str) : Prop :=
  ∃ b ∈ T.bitcodes, ∃ pre F post, b.M.functions = pre ++ F :: post ∧
    (∀ G ∈ pre, ¬ CallbackSymbol T G.name) ∧ ¬ CallbackSymbol T F.name ∧
    isFuncPrivileged b.M F = true ∧
    (∀ p ∈ F.instructions b.M, inProject p.2 = true →
      CallGraphSearch.instCallsRec b.CG YoctoAttach.regex_assert_yocto b.M p.2 = false) ∧
    structFuncNameMatch (dem F.name) func.struct func.struct_trait func.name path
      (some (YoctoAttach.funcFile b.M F)) false = true

/-- The records that arrive. -/
theorem mem_unlog_yocto (h : Readable T dem) (hok : T.getPackagesName.2 = true) (r : PairRecord) :
    r ∈ ((T.build (.finder .yoctoAttach) clean (.log (.finder .yoctoAttach))).map
        T.rustfilt).elim [] (unlog decodePair) ↔
      ∃ b ∈ T.bitcodes, ∃ x ∈ YoctoAttach.runOnModule b.M b.CG
        (YoctoAttach.loadCallbacks (T.callbackLog.getD [])), (dem x.1, x.2) = r := by
  rw [build_yocto hok]
  have hpair : ∀ b ∈ T.bitcodes, ∀ x ∈ YoctoAttach.runOnModule b.M b.CG
      (YoctoAttach.loadCallbacks (T.callbackLog.getD [])),
      ∃ F ∈ b.M.functions, ∃ loc, LocatedIn b.M F loc ∧ x = (F.name, loc.filename) := by
    intro b _ x hx
    obtain ⟨F, hF, hun, rfl⟩ := YoctoAttach.mem_runOnModule_iff.1 hx
    obtain ⟨p, hp, loc, hloc, hfile⟩ :=
      YoctoAttach.funcFile_mem (YoctoAttach.privileged_inProject hun.privileged)
    exact ⟨F, (List.takeWhile_sublist _).subset hF, loc, ⟨p, hp, hloc⟩, by rw [hfile]⟩
  refine @mem_unlog_pass T _ _ decodePair PairRecord.fields _ Callback.line
    (fun x : Str × Str => (dem x.1, x.2))
    (fun b hb x hx => ?_) (fun b hb x hx => ?_) (fun b hb x hx => ?_) (fun b hb x hx => ?_) r
  · obtain ⟨F, hF, loc, hloc, rfl⟩ := hpair b hb x hx
    exact h.newline_pair hb hF hloc
  · obtain ⟨F, hF, loc, hloc, rfl⟩ := hpair b hb x hx
    exact h.demangle_pair hb hF hloc
  · obtain ⟨F, hF, loc, hloc, rfl⟩ := hpair b hb x hx
    exact (h.clean_pair hb hF hloc).no_newline
  · obtain ⟨F, hF, loc, hloc, rfl⟩ := hpair b hb x hx
    exact PairRecord.decode_clean (h.clean_pair hb hF hloc)

/-- A function has the note when an unprotected function of its name stands before
all callbacks of its module. -/
theorem yocto_notes (T : Tools) (dem : Str → Str) (h : Readable T dem)
    (hwords : ∀ b ∈ T.bitcodes, Callback.Readable b.M) (hok : T.getPackagesName.2 = true)
    (S : List Detector) (hs : .finder .yoctoAttach ∈ S)
    (P : Project) (run : Run P (T.logs (session T.build S clean)))
    (file : SourceFile) (func : Func) (text : Str) :
    Attached (audit run) file func (.finder .yoctoAttach) text ↔
      text = lit "require assert_one_yocto check for privilege function; " rfl ∧
        Listed P file func ∧ contains func.macros (lit "test" rfl) = false ∧
          UnprotectedAt T dem func (P.path file) := by
  have hset : ∀ r : PairRecord, r ∈ run.set .yoctoAttach ↔
      ∃ b ∈ T.bitcodes, ∃ x ∈ YoctoAttach.runOnModule b.M b.CG
        (YoctoAttach.loadCallbacks (T.callbackLog.getD [])), (dem x.1, x.2) = r :=
    fun r => (mem_set_session hs run r).trans (mem_unlog_yocto h hok r)
  refine (attached_first (List.mem_of_getElem? (i := 13) rfl) (by decide) text).trans ?_
  refine and_congr_right fun _ => and_congr_right fun _ => and_congr_right fun _ => ?_
  have hcb : ∀ b ∈ T.bitcodes, ∀ G : Function,
      (!(YoctoAttach.loadCallbacks (T.callbackLog.getD [])).contains G.name) = true ↔
        ¬ CallbackSymbol T G.name := by
    intro b hb G
    rw [← mem_loadCallbacks hwords (List.ne_nil_of_mem hb)]
    simp
  constructor
  · rintro ⟨r, hr, hacc⟩
    obtain ⟨b, hb, x, hx, rfl⟩ := (hset r).1 hr
    obtain ⟨F, hF, hun, rfl⟩ := YoctoAttach.mem_runOnModule_iff.1 hx
    obtain ⟨pre, post, hfuncs, hpre, hself⟩ := mem_takeWhile_iff.1 hF
    exact ⟨b, hb, pre, F, post, hfuncs, fun G hG => (hcb b hb G).1 (hpre G hG),
      (hcb b hb F).1 hself, hun.privileged, hun.unchecked, hacc⟩
  · rintro ⟨b, hb, pre, F, post, hfuncs, hpre, hself, hpriv, hcheck, hacc⟩
    have hno : F.name ∉ YoctoAttach.loadCallbacks (T.callbackLog.getD []) := fun hmem =>
      hself ((mem_loadCallbacks hwords (List.ne_nil_of_mem hb)).1 hmem)
    exact ⟨(dem F.name, YoctoAttach.funcFile b.M F), (hset _).2 ⟨b, hb, _,
      YoctoAttach.mem_runOnModule_iff.2 ⟨F, mem_takeWhile_iff.2 ⟨pre, post, hfuncs,
        fun G hG => (hcb b hb G).2 (hpre G hG), (hcb b hb F).2 hself⟩, ⟨hno, hpriv, hcheck⟩, rfl⟩,
      rfl⟩, hacc⟩

/-! ## `ext-call` -/

/-- The symbol of the first stub of a module of the contract. -/
def StubSymbol (T : Tools) (name : Str) : Prop :=
  ∃ b ∈ T.bitcodes, ∃ F, ExtCall.firstStub b.M = some F ∧ F.name = name

/-- The names that `ext-call` looks for are those of the first stubs of all modules. -/
theorem mem_loadTraits (hM : ∀ b ∈ T.bitcodes, ∀ F ∈ b.M.functions, ExtCall.Mangled F.name)
    {name : Str} : name ∈ ExtCall.loadTraits T.traitText ↔ StubSymbol T name := by
  have hwhole : ∀ t ∈ T.bitcodes.map fun b => ExtCallTrait.log b.M, Whole t := by
    intro t ht
    obtain ⟨b, -, rfl⟩ := List.mem_map.1 ht
    exact whole_unlines _
  have hload : ExtCall.loadTraits T.traitText
      = T.bitcodes.flatMap fun b => ExtCallTrait.runOnModule b.M := by
    rw [ExtCall.loadTraits, Tools.traitText, words_flatten hwhole, List.flatMap_map]
    exact List.flatMap_congr fun b hb => ExtCall.loadTraits_log b.M (hM b hb)
  rw [hload, List.mem_flatMap]
  refine exists_congr fun b => and_congr_right fun _ => ?_
  rw [ExtCallTrait.runOnModule, ExtCall.runOnFunctions_eq]
  show name ∈ ((ExtCall.firstStub b.M).map Function.name).toList ↔ _
  rw [Option.mem_toList, Option.map_eq_some_iff]

/-- A direct call at the line, in a function that the report takes for `func`, of a
function whose symbol has a match of the symbol of a first stub. -/
def ExtCallAt (T : Tools) (dem : Str → Str) (func : Func) (path : Str) (n : Int) : Prop :=
  ∃ b ∈ T.bitcodes, ∃ F ∈ b.M.functions, ∃ c ∈ directCalls b.M F,
    (∃ stub, StubSymbol T stub ∧ Regex.matchPattern stub c.2.name = true) ∧
    structFuncNameMatch (dem F.name) func.struct func.struct_trait func.name path
      (some c.1.filename) false = true ∧ (c.1.line : Int) = n

/-- The records that arrive. -/
theorem mem_unlog_ext (h : Readable T dem) (hw : T.Works) (r : LineRecord) :
    r ∈ ((T.build (.finder .extCall) clean (.log (.finder .extCall))).map T.rustfilt).elim []
        (unlog decodeLine) ↔
      ∃ b ∈ T.bitcodes, ∃ site ∈ ExtCall.runOnModule b.M (ExtCall.loadTraits T.traitText),
        siteRecord dem site = r := by
  have hbuild : T.build (.finder .extCall) clean (.log (.finder .extCall))
      = T.passLog fun b => unlines ((ExtCall.runOnModule b.M
          (ExtCall.loadTraits T.traitText)).map siteLine) := by
    rw [(build_extCall hw clean).2, Tools.passLog, if_neg hw.2]
    rfl
  rw [hbuild]
  have hsite : ∀ b ∈ T.bitcodes, ∀ x ∈ ExtCall.runOnModule b.M (ExtCall.loadTraits T.traitText),
      ∃ F ∈ b.M.functions, ∃ loc, LocatedIn b.M F loc ∧ x = (F.name, loc.filename, loc.line) := by
    intro b _ x hx
    obtain ⟨F, hF, c, hc, rfl, -⟩ := ExtCall.mem_runOnModule.1 hx
    obtain ⟨p, hp, -, hloc, -⟩ := ExtCall.mem_directCalls.1 hc
    exact ⟨F, hF, c.1, ⟨p, hp, hloc⟩, rfl⟩
  refine @mem_unlog_pass T _ _ decodeLine LineRecord.fields _ siteLine (siteRecord dem)
    (fun b hb x hx => ?_) (fun b hb x hx => ?_) (fun b hb x hx => ?_) (fun b hb x hx => ?_) r
  · obtain ⟨F, hF, loc, hloc, rfl⟩ := hsite b hb x hx
    exact h.newline_site hb hF hloc
  · obtain ⟨F, hF, loc, hloc, rfl⟩ := hsite b hb x hx
    exact h.demangle_site hb hF hloc
  · obtain ⟨F, hF, loc, hloc, rfl⟩ := hsite b hb x hx
    exact (LineRecord.clean_fields (h.clean_site hb hF hloc)).no_newline
  · obtain ⟨F, hF, loc, hloc, rfl⟩ := hsite b hb x hx
    exact LineRecord.decode_clean (h.clean_site hb hF hloc)

/-- A function has the note when it calls what is taken for a stub, of its own module
or of another one, and the note lists the lines of these calls. -/
theorem ext_call_notes (T : Tools) (dem : Str → Str) (h : Readable T dem)
    (hM : ∀ b ∈ T.bitcodes, ∀ F ∈ b.M.functions, ExtCall.Mangled F.name) (hw : T.Works)
    (S : List Detector) (hs : .finder .extCall ∈ S)
    (P : Project) (run : Run P (T.logs (session T.build S clean)))
    (file : SourceFile) (func : Func) :
    ((∃ text, Attached (audit run) file func (.finder .extCall) text) ↔
      Listed P file func ∧ contains func.macros (lit "test" rfl) = false ∧
        ∃ n, ExtCallAt T dem func (P.path file) n) ∧
    ∀ text, Attached (audit run) file func (.finder .extCall) text →
      ∃ ls, text = linesText (lit "call external function at <" rfl) ls ∧
        ∀ n, n ∈ ls ↔ ExtCallAt T dem func (P.path file) n := by
  refine attached_lines (d := .extCall) (List.mem_of_getElem? (i := 11) rfl) fun n => ?_
  have hset : ∀ r : LineRecord, r ∈ run.set .extCall ↔ ∃ b ∈ T.bitcodes,
      ∃ site ∈ ExtCall.runOnModule b.M (ExtCall.loadTraits T.traitText), siteRecord dem site = r :=
    fun r => (mem_set_session hs run r).trans (mem_unlog_ext h hw r)
  refine (mem_accepted_lines hset).trans ?_
  constructor
  · rintro ⟨r, ⟨b, hb, site, hsite, rfl⟩, hacc, rfl⟩
    obtain ⟨F, hF, c, hc, rfl, stub, hstub, hmatch⟩ := ExtCall.mem_runOnModule.1 hsite
    exact ⟨b, hb, F, hF, c, hc, ⟨stub, (mem_loadTraits hM).1 hstub, hmatch⟩, hacc, rfl⟩
  · rintro ⟨b, hb, F, hF, c, hc, ⟨stub, hstub, hmatch⟩, hacc, rfl⟩
    exact ⟨_, ⟨b, hb, _, ExtCall.mem_runOnModule.2 ⟨F, hF, c, hc, rfl, stub,
      (mem_loadTraits hM).2 hstub, hmatch⟩, rfl⟩, hacc, rfl⟩

/-- The names that `rustfilt` makes, from a table. -/
def tableNames (table : List (Str × Str)) (symbol : Str) : Str :=
  (table.lookup symbol).getD symbol

def ownerNames : Str → Str := tableNames
  [(lit "_ZN5token5Token6on_get17h1E" rfl, lit "token::Token::on_get" rfl),
   (lit "_ZN5token5Token9set_owner17h2E" rfl, lit "token::Token::set_owner" rfl),
   (lit "_ZN8near_sdk11environment3env22predecessor_account_id17h3E" rfl,
    lit "near_sdk::environment::env::predecessor_account_id" rfl),
   (lit "_ZN61_$LT$near_sdk..types..account_id..AccountId$u20$as$u20$core..cmp..PartialEq$GT$2eq17h4E"
      rfl,
    lit "<near_sdk::types::account_id::AccountId as core::cmp::PartialEq>::eq" rfl)]

def ownerTools : Tools := namingTools YoctoAttach.ownerModule ownerNames

theorem readable_ownerTools : Readable ownerTools ownerNames :=
  readable_namingTools (by decide +kernel) (by decide +kernel) (by decide +kernel)

/-- `set_owner` of the contract `Token`. -/
def setOwner : Func where
  name := lit "set_owner" rfl
  struct := lit "Token" rfl
  struct_trait := []
  line_number := 9
  macros := []

def libFile : SourceFile := ⟨lit "src/lib.rs" rfl, by decide, [setOwner], fun _ => []⟩

def tokenProject : Project := ⟨lit "/home/u/token" rfl, [libFile], by decide⟩

theorem mangled_owner : ∀ F ∈ YoctoAttach.ownerModule.functions, ExtCall.Mangled F.name := by
  decide +kernel

theorem callbackReadable_owner : Callback.Readable YoctoAttach.ownerModule where
  name F hF := by
    have hat : ∀ F ∈ YoctoAttach.ownerModule.functions, '@' ∉ F.name := by decide +kernel
    exact ⟨(mangled_owner F hF).1, hat F hF,
      fun c hc => ExtCall.isBlank_of_mangled ((mangled_owner F hF).2 c hc)⟩
  path F hF p hp loc hloc := by
    have hall : ∀ F ∈ YoctoAttach.ownerModule.functions,
        ∀ p ∈ F.instructions YoctoAttach.ownerModule,
          p.2.debugLoc = some ⟨lit "src/lib.rs" rfl, 10⟩ := by decide +kernel
    rw [hall F hF p hp, Option.some.injEq] at hloc
    have hpath : ((lit "src/lib.rs" rfl).all fun c => !isBlank c) = true := by decide
    intro c hc
    rw [← hloc] at hc
    simpa using List.all_eq_true.1 hpath c hc

theorem no_callback_owner (name : Str) : ¬ CallbackSymbol ownerTools name := by
  rintro ⟨b, hb, F, hF, hread, -⟩
  obtain rfl := List.mem_singleton.1 hb
  have hnone : ∀ F ∈ YoctoAttach.ownerModule.functions,
      (Callback.runOnFunction YoctoAttach.ownerModule F).isSome = false := by decide +kernel
  have hsome := Callback.runOnFunction_isSome_iff.2 hread
  exact absurd (hsome.symm.trans (hnone F hF)) (by decide)

theorem unprotected_owner :
    UnprotectedAt ownerTools ownerNames setOwner (tokenProject.path libFile) := by
  obtain ⟨pre, post, hfuncs⟩ := List.append_of_mem
    (show YoctoAttach.setOwner ∈ YoctoAttach.ownerModule.functions by simp [YoctoAttach.ownerModule])
  exact ⟨_, List.mem_singleton_self _, pre, YoctoAttach.setOwner, post, hfuncs,
    fun G _ => no_callback_owner _, no_callback_owner _, by decide +kernel, by decide +kernel,
    by decide +kernel⟩

/-- The row of `set_owner` says that the check is missing: the function listed before
it reads no result. -/
theorem yocto_notes_owner :
    Attached (audit (Run.plain tokenProject (ownerTools.logs (session ownerTools.build
      [.finder .yoctoAttach] clean)))) libFile setOwner (.finder .yoctoAttach)
      (lit "require assert_one_yocto check for privilege function; " rfl) :=
  (yocto_notes ownerTools ownerNames readable_ownerTools
    (fun b hb => List.mem_singleton.1 hb ▸ callbackReadable_owner) rfl [.finder .yoctoAttach]
    (List.mem_singleton_self _) tokenProject (Run.plain _ _) libFile setOwner _).2
    ⟨rfl, ⟨List.mem_filter.2 ⟨List.mem_singleton_self _, by decide +kernel⟩, by decide +kernel,
      List.mem_singleton_self _⟩, by decide +kernel, unprotected_owner⟩

/-- `on_done` calls a stub, which calls a function of another contract. -/
def stubModule : Module where
  values :=
    [.function, .function, .function,
     .instruction ⟨.call [] [] 2 true, some ⟨lit "src/ext.rs" rfl, 4⟩⟩,
     .instruction ⟨.call [] [] 0 true, some ⟨lit "src/a.rs" rfl, 14⟩⟩]
  functions :=
    [⟨lit "_ZN5token6ext_ft11ft_transfer17h1E" rfl, 0, [], [⟨lit "start" rfl, [3]⟩]⟩,
     ⟨onDoneSymbol, 1, [], [⟨lit "start" rfl, [4]⟩]⟩,
     ⟨lit "_ZN8near_sdk7promise7Promise13function_call17h4E" rfl, 2, [], []⟩]
  users := useList _
  users_perm := fun _ => .refl _
  operands_lt := by decide
  params_lt := by decide
  names_nodup := by decide
  functions_nodup := by decide

def stubNames : Str → Str := tableNames
  [(lit "_ZN5token6ext_ft11ft_transfer17h1E" rfl, lit "token::ext_ft::ft_transfer" rfl),
   (onDoneSymbol, lit "token::Contract::on_done" rfl),
   (lit "_ZN8near_sdk7promise7Promise13function_call17h4E" rfl,
    lit "near_sdk::promise::Promise::function_call" rfl)]

def stubTools : Tools := namingTools stubModule stubNames

theorem readable_stubTools : Readable stubTools stubNames :=
  readable_namingTools (by decide +kernel) (by decide +kernel) (by decide +kernel)

/-- The row of `on_done` has the call of the stub. -/
theorem ext_call_notes_stub :
    ∃ text, Attached (audit (Run.plain twoContracts (stubTools.logs (session stubTools.build
      [.finder .extCall] clean)))) aFile onDone (.finder .extCall) text := by
  have hcall : (⟨lit "src/a.rs" rfl, 14⟩,
      ⟨lit "_ZN5token6ext_ft11ft_transfer17h1E" rfl, 0, [], [⟨lit "start" rfl, [3]⟩]⟩) ∈
      directCalls stubModule ⟨onDoneSymbol, 1, [], [⟨lit "start" rfl, [4]⟩]⟩ :=
    ExtCall.mem_directCalls.2 ⟨_, List.mem_singleton_self _, by decide +kernel, rfl, rfl⟩
  exact (ext_call_notes stubTools stubNames readable_stubTools
    (fun b hb => List.mem_singleton.1 hb ▸ by decide +kernel) ⟨rfl, List.cons_ne_nil _ _⟩
    [.finder .extCall] (List.mem_singleton_self _) twoContracts (Run.plain _ _) aFile onDone).1.2
    ⟨listed_aFile, by decide +kernel, 14, _, List.mem_singleton_self _, _,
      List.mem_cons_of_mem _ List.mem_cons_self, _, hcall,
      ⟨_, ⟨_, List.mem_singleton_self _, _, rfl, rfl⟩, by decide +kernel⟩, by decide +kernel, rfl⟩

end

end Audit.Makefile
