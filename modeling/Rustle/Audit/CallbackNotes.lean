import Rustle.Audit.Pipeline
import Rustle.Audit.SourceFindings
import Rustle.Detector.LockCallback

/-!
# From the callbacks of the modules to the rows of the report

Three scripts ask which functions of the source are callbacks.  The answer is in
the log that the pass `callback` makes of the modules; they demangle it, look for
each function of each file in it, and write what they find by name.

* `readCallbacks`, `flagged`, `callbackScript` — the scripts.
* `Tools.withCallbacks` — the tools with the scripts put in.
* `attached_callback_iff` — the rows that get a note.
* `callback_notes`, `privacy_notes` — what the rows say of modules and source.
-/

namespace Audit

open Text

/-! ## The scripts -/

inductive CallbackDetector where
  | lockCallback | nonCallbackPrivate | nonPrivateCallback
  deriving DecidableEq

def CallbackDetector.source : CallbackDetector → SourceDetector
  | lockCallback => .lockCallback
  | nonCallbackPrivate => .nonCallbackPrivate
  | nonPrivateCallback => .nonPrivateCallback

/-- What the report says of a function found. -/
def CallbackDetector.phrase : CallbackDetector → Str
  | lockCallback => lit "assert in callback function may lock contract when failed; " rfl
  | nonCallbackPrivate => lit "macro #[private] used in non-callback function; " rfl
  | nonPrivateCallback => lit "missing #[private] macro for callback function; " rfl

/-- `getFiles(PROJ_PATH)`, tests and mocks included. -/
def allFiles (files : List SourceFile) : List SourceFile :=
  files.filter fun file => file.directories.all fun dir =>
    dir != lit "node_modules" rfl && dir != lit "target" rfl

/-- `callback_func_set`; a line with too few or too many fields is an exception. -/
def readCallbacks (text : Str) : Option (List PairRecord) :=
  (lines text).mapM fun line => decodePair ((strip line).splitOn '@')

/-- The loop over `callback_func_set`.  Two of the scripts also take a callback whose
whole symbol is the name of the function. -/
def CallbackDetector.isCallback (D : CallbackDetector) (callbacks : List Str) (path : Str)
    (func : Func) : Bool :=
  match D with
  | lockCallback => LockCallback.isCallback callbacks path func
  | _ => callbacks.any fun cb => func.name == cb ||
      structFuncNameMatch cb func.struct func.struct_trait func.name path none false

/-- `"#[private]" in func["macro"]` -/
def Func.isPrivate (func : Func) : Bool := contains func.macros (lit "#[private]" rfl)

/-- `"migrate" in func_name` -/
def Func.migrates (func : Func) : Bool := contains func.name (lit "migrate" rfl)

/-- The functions of a file that a line is written for. -/
def CallbackDetector.flagged (D : CallbackDetector) (callbacks : List Str) (path text : Str)
    (results : List Func) : List Func :=
  match D with
  | lockCallback =>
    (LockCallback.flagged callbacks path text results).filterMap (results[·]?)
  | nonCallbackPrivate => results.filter fun func =>
    !isCallback .nonCallbackPrivate callbacks path func && func.isPrivate && !func.migrates
  | nonPrivateCallback => results.filter fun func =>
    isCallback .nonPrivateCallback callbacks path func && !func.isPrivate

/-- The texts of the source files, and the order in which the set of the files is
iterated. -/
structure Reading where
  text : SourceFile → Str
  order : List SourceFile → List SourceFile
  order_perm : ∀ l, (order l).Perm l

variable (X : Reading) (P : Project)

/-- The functions that lines are written for, with their files. -/
def CallbackDetector.findings (D : CallbackDetector) (callbacks : List Str) :
    List (Func × SourceFile) :=
  (X.order (allFiles P.files)).flatMap fun file =>
    (D.flagged callbacks (P.path file) (X.text file) file.results).map fun func => (func, file)

/-- `func["struct"] + "::" + func["struct_trait"] + "::" + func_name + "@" + path` -/
def findingLine (finding : Func × SourceFile) : Str :=
  logLine [finding.1.joined, P.path finding.2]

/-- A script, given the log of the callbacks after `rustfilt`: what it writes, and
whether it ends without an exception. -/
def CallbackDetector.script (D : CallbackDetector) (log : Option Str) : Option Str × Bool :=
  match log.bind readCallbacks with
  | none => (none, false)
  | some callbacks =>
    (some (unlines ((D.findings X P (callbacks.map Prod.fst)).map (findingLine P))), true)

/-! ## Reading the log of the callbacks -/

theorem readCallbacks_log {rs : List PairRecord} (h : ∀ r ∈ rs, r.Clean) :
    readCallbacks (log (rs.map PairRecord.fields)) = some rs := by
  rw [readCallbacks, lines_log fun r hr => (h r hr).no_newline]
  induction rs with
  | nil => rfl
  | cons r rs ih =>
    have hr := PairRecord.decode_clean (h r List.mem_cons_self)
    have hrs := ih fun x hx => h x (List.mem_cons_of_mem _ hx)
    simp only [List.map_cons, List.mapM_cons, hr, hrs]
    rfl

end Audit

namespace Audit.Makefile

open Llvm NearCore Directory
open Text

variable {T : Tools} {dem : Str → Str} {X : Reading} {P : Project}

/-- The function of the source is a callback, by the function of a module that reads
the result of a promise. -/
def IsCallback (T : Tools) (dem : Str → Str) (D : CallbackDetector) (path : Str) (func : Func) :
    Prop :=
  ∃ b ∈ T.bitcodes, ∃ F ∈ b.M.functions, Callback.ReadsResult b.M F ∧
    D.isCallback [dem F.name] path func = true

theorem isCallback_iff {D : CallbackDetector} {callbacks : List Str} {path : Str} {func : Func} :
    D.isCallback callbacks path func = true ↔
      ∃ cb ∈ callbacks, D.isCallback [cb] path func = true := by
  cases D <;> simp [CallbackDetector.isCallback, LockCallback.isCallback]

/-- The callbacks in the demangled log. -/
theorem readCallbacks_callbackLog (h : Readable T dem) (hne : T.bitcodes ≠ []) :
    ∃ rs, (T.callbackLog.map T.rustfilt).bind readCallbacks = some rs ∧
      ∀ name, name ∈ rs.map Prod.fst ↔
        ∃ b ∈ T.bitcodes, ∃ F ∈ b.M.functions, Callback.ReadsResult b.M F ∧ dem F.name = name := by
  let items := T.bitcodes.flatMap fun b => Callback.runOnModule b.M
  have hitem : ∀ x ∈ items, ∃ b ∈ T.bitcodes, ∃ F ∈ b.M.functions, Callback.ReadsResult b.M F ∧
      ∃ loc, LocatedIn b.M F loc ∧ x = (F.name, loc.filename) := by
    intro x hx
    obtain ⟨b, hb, hx⟩ := List.mem_flatMap.1 hx
    obtain ⟨F, hF, hname, hread, p, hp, loc, hloc, hfile⟩ := Callback.mem_runOnModule hx
    exact ⟨b, hb, F, hF, hread, loc, ⟨p, hp, hloc⟩, Prod.ext hname hfile⟩
  have hlog : T.callbackLog = some (unlines (items.map Callback.line)) := by
    rw [Tools.callbackLog, Tools.passLog, if_neg hne, List.map_flatMap, unlines_flatMap]
    rfl
  have hfilt : T.rustfilt (unlines (items.map Callback.line))
      = log ((items.map fun x => (dem x.1, x.2)).map PairRecord.fields) := by
    refine rustfilt_unlines (fun x hx => ?_) fun x hx => ?_
    · obtain ⟨b, hb, F, hF, -, loc, hloc, rfl⟩ := hitem x hx
      exact h.newline_pair hb hF hloc
    · obtain ⟨b, hb, F, hF, -, loc, hloc, rfl⟩ := hitem x hx
      exact h.demangle_pair hb hF hloc
  refine ⟨items.map fun x => (dem x.1, x.2), ?_, fun name => ?_⟩
  · rw [hlog, Option.map_some, hfilt]
    refine readCallbacks_log (List.forall_mem_map.2 fun x hx => ?_)
    obtain ⟨b, hb, F, hF, -, loc, hloc, rfl⟩ := hitem x hx
    exact h.clean_pair hb hF hloc
  · rw [List.map_map, List.mem_map]
    constructor
    · rintro ⟨x, hx, rfl⟩
      obtain ⟨b, hb, F, hF, hread, loc, -, rfl⟩ := hitem x hx
      exact ⟨b, hb, F, hF, hread, rfl⟩
    · rintro ⟨b, hb, F, hF, hread, rfl⟩
      obtain ⟨l, hl, hname⟩ := Callback.exists_mem_runOnModule hF hread
      exact ⟨l, List.mem_flatMap.2 ⟨b, hb, hl⟩, congrArg dem hname⟩

/-- What each of the detectors finds fault with. -/
def Flags (D : CallbackDetector) (X : Reading) (P : Project) (T : Tools)
    (dem : Str → Str) (file : SourceFile) (func : Func) : Prop :=
  match D with
  | .lockCallback => IsCallback T dem .lockCallback (P.path file) func ∧
      ∃ i : Nat, file.results[i]? = some func ∧
        (LockCallback.addModifiers (X.text file) file.results)[i]?.any LockCallback.asserts = true
  | .nonCallbackPrivate => func ∈ file.results ∧
      ¬ IsCallback T dem .nonCallbackPrivate (P.path file) func ∧ func.isPrivate = true ∧
        func.migrates = false
  | .nonPrivateCallback => func ∈ file.results ∧
      IsCallback T dem .nonPrivateCallback (P.path file) func ∧ func.isPrivate = false

section

variable {D : CallbackDetector} {callbacks : List Str}

theorem isCallback_names (hnames : ∀ name, name ∈ callbacks ↔
      ∃ b ∈ T.bitcodes, ∃ F ∈ b.M.functions, Callback.ReadsResult b.M F ∧ dem F.name = name)
    {path : Str} {func : Func} :
    D.isCallback callbacks path func = true ↔ IsCallback T dem D path func := by
  rw [isCallback_iff]
  constructor
  · rintro ⟨cb, hcb, hmatch⟩
    obtain ⟨b, hb, F, hF, hread, rfl⟩ := (hnames cb).1 hcb
    exact ⟨b, hb, F, hF, hread, hmatch⟩
  · rintro ⟨b, hb, F, hF, hread, hmatch⟩
    exact ⟨_, (hnames _).2 ⟨b, hb, F, hF, hread, rfl⟩, hmatch⟩

/-- The functions of a file that a line is written for. -/
theorem mem_flagged (hnames : ∀ name, name ∈ callbacks ↔
      ∃ b ∈ T.bitcodes, ∃ F ∈ b.M.functions, Callback.ReadsResult b.M F ∧ dem F.name = name)
    {file : SourceFile} {func : Func} :
    func ∈ D.flagged callbacks (P.path file) (X.text file) file.results ↔
      Flags D X P T dem file func := by
  have hcb : ∀ {D : CallbackDetector}, D.isCallback callbacks (P.path file) func = true ↔
      IsCallback T dem D (P.path file) func := isCallback_names hnames
  cases D with
  | lockCallback =>
    unfold CallbackDetector.flagged Flags LockCallback.flagged
    simp only
    rw [List.mem_filterMap, ← hcb]
    constructor
    · rintro ⟨i, hi, hfunc⟩
      obtain ⟨-, hi⟩ := List.mem_filter.1 hi
      rw [Bool.and_eq_true, hfunc] at hi
      exact ⟨hi.1, i, hfunc, hi.2⟩
    · rintro ⟨hcall, i, hfunc, hassert⟩
      refine ⟨i, List.mem_filter.2 ⟨List.mem_range.2 (List.getElem?_eq_some_iff.1 hfunc).1, ?_⟩,
        hfunc⟩
      rw [Bool.and_eq_true, hfunc]
      exact ⟨hcall, hassert⟩
  | nonCallbackPrivate =>
    unfold CallbackDetector.flagged Flags
    simp only
    rw [List.mem_filter, ← hcb]
    simp only [Bool.and_eq_true, Bool.not_eq_true', Bool.not_eq_true, and_assoc]
  | nonPrivateCallback =>
    unfold CallbackDetector.flagged Flags
    simp only
    rw [List.mem_filter, ← hcb]
    simp only [Bool.and_eq_true, Bool.not_eq_true']

end

/-! ## The notes -/

/-- A script whose log is not there leaves what it writes. -/
theorem run_script {D : Detector} {e : Dir TmpFile Char} (hnone : e (.log D) = none)
    (read : Option TmpFile) :
    (run [T.script D read] e).1 (.log D)
      = (T.python D ((read.toList.map e).headD none)).1 := by
  have hexec : (run [T.script D read] e).1 (.log D)
      = ((T.python D ((read.toList.map e).headD none)).1.elim e (put e (.log D))) (.log D) := by
    show (if _ then run [] _ else _ : Dir TmpFile Char × Bool).1 (.log D) = _
    split <;> rfl
  rw [hexec]
  cases (T.python D ((read.toList.map e).headD none)).1 with
  | none => exact hnone
  | some text => exact put_self e (.log D) text

/-- A script that demangles the callbacks gets their log demangled once. -/
theorem build_demangles {D : Detector} (h : Demangles D) (hok : T.getPackagesName.2 = true) :
    T.build D clean (.log D) = (T.python D (T.callbackLog.map T.rustfilt)).1 := by
  have hbefore : before D = [.tgIr, .callback] := by
    rcases h with rfl | rfl | rfl <;> rfl
  have hstatus : ∀ t ∈ before D, t.isDetector = false ∧ T.status t = true := by
    rw [hbefore]
    exact List.forall_mem_cons.2 ⟨⟨rfl, hok⟩, List.forall_mem_singleton.2 ⟨rfl, rfl⟩⟩
  obtain ⟨hmade, hbuild⟩ := build_log hstatus
  obtain ⟨k, hk, hzero⟩ := hmade.callback (by rw [hbefore]; simp)
  have hk0 : k = 0 := hzero fun D' hD' => by
    rw [hbefore] at hD'
    simp at hD'
  subst hk0
  rw [hbuild, run_demangles h]
  generalize (run ((before D).flatMap T.recipe) clean).1 = d at hk
  have hread : T.demangled D d .callback = T.callbackLog.map T.rustfilt := by
    rw [demangled_callback, hk]
    rfl
  have hnone := demangled_log (T := T) D d
  generalize T.demangled D d = e at hread hnone
  rw [run_script hnone, ← hread]
  rfl

/-- Names and paths of the source that keep lines and fields apart, and that
`rustfilt` leaves alone. -/
structure ReadableSource (T : Tools) (P : Project) : Prop where
  demangle : ∀ file ∈ allFiles P.files, ∀ func ∈ file.results,
    T.demangle (findingLine P (func, file)) = findingLine P (func, file)
  clean : ∀ file ∈ allFiles P.files, ∀ func ∈ file.results,
    PairRecord.Clean (func.joined, P.path file)

/-- The tools with the scripts put in. -/
def Tools.withCallbacks (T : Tools) (X : Reading) (P : Project) : Tools where
  bitcodes := T.bitcodes
  demangle := T.demangle
  jsonLoad := T.jsonLoad
  pass := T.pass
  allCall := T.allCall
  getPackagesName := T.getPackagesName
  findStruct := T.findStruct
  unsafeMathToml := T.unsafeMathToml
  python
    | .finder .lockCallback, log => CallbackDetector.lockCallback.script X P log
    | .finder .nonCallbackPrivate, log => CallbackDetector.nonCallbackPrivate.script X P log
    | .finder .nonPrivateCallback, log => CallbackDetector.nonPrivateCallback.script X P log
    | D, log => T.python D log

section

variable (X) {D : CallbackDetector} {callbacks : List Str}

theorem Flags.mem {file : SourceFile} {func : Func} (h : Flags D X P T dem file func) :
    func ∈ file.results := by
  cases D with
  | lockCallback =>
    obtain ⟨-, i, hi, -⟩ := h
    exact List.mem_of_getElem? hi
  | nonCallbackPrivate => exact h.1
  | nonPrivateCallback => exact h.1

/-- The log that a script leaves. -/
theorem build_callback (h : Readable T dem) (hok : T.getPackagesName.2 = true)
    (hne : T.bitcodes ≠ []) (D : CallbackDetector) :
    ∃ findings : List (Func × SourceFile),
      (T.withCallbacks X P).build (.finder D.source.finder) clean (.log (.finder D.source.finder))
        = some (unlines (findings.map (findingLine P))) ∧
      ∀ x, x ∈ findings ↔ x.2 ∈ allFiles P.files ∧ Flags D X P T dem x.2 x.1 := by
  obtain ⟨rs, hrs, hnames⟩ := readCallbacks_callbackLog h hne
  have hscript : (D.script X P (T.callbackLog.map T.rustfilt)).1
      = some (unlines ((D.findings X P (rs.map Prod.fst)).map (findingLine P))) := by
    rw [CallbackDetector.script, hrs]
  refine ⟨D.findings X P (rs.map Prod.fst), ?_, fun x => ?_⟩
  · cases D with
    | lockCallback =>
      exact (@build_demangles (T.withCallbacks X P) _ (Or.inl rfl) hok).trans hscript
    | nonCallbackPrivate =>
      exact (@build_demangles (T.withCallbacks X P) _ (Or.inr (Or.inl rfl)) hok).trans hscript
    | nonPrivateCallback =>
      exact (@build_demangles (T.withCallbacks X P) _ (Or.inr (Or.inr rfl)) hok).trans hscript
  · rw [CallbackDetector.findings, List.mem_flatMap]
    constructor
    · rintro ⟨file, hfile, hx⟩
      obtain ⟨func, hfunc, rfl⟩ := List.mem_map.1 hx
      exact ⟨(X.order_perm _).mem_iff.1 hfile, (mem_flagged hnames).1 hfunc⟩
    · rintro ⟨hfile, hflags⟩
      exact ⟨x.2, (X.order_perm _).mem_iff.2 hfile, List.mem_map.2
        ⟨x.1, (mem_flagged hnames).2 hflags, rfl⟩⟩

/-- The records that arrive are those of the functions found fault with. -/
theorem mem_unlog_callback (h : Readable T dem) (hsrc : ReadableSource T P)
    (hok : T.getPackagesName.2 = true) (hne : T.bitcodes ≠ []) (D : CallbackDetector)
    (r : PairRecord) :
    r ∈ (((T.withCallbacks X P).build (.finder D.source.finder) clean
        (.log (.finder D.source.finder))).map (T.withCallbacks X P).rustfilt).elim []
          (unlog decodePair) ↔
      ∃ file ∈ allFiles P.files, ∃ func, Flags D X P T dem file func ∧
        (func.joined, P.path file) = r := by
  obtain ⟨findings, hlog, hmem⟩ := build_callback (P := P) X h hok hne D
  have hclean : ∀ x ∈ findings, PairRecord.Clean (x.1.joined, P.path x.2) := fun x hx =>
    hsrc.clean x.2 ((hmem x).1 hx).1 x.1 ((hmem x).1 hx).2.mem
  rw [hlog]
  refine (@mem_unlog_rustfilt (T.withCallbacks X P) _ _ decodePair PairRecord.fields findings
    (findingLine P) (fun x => (x.1.joined, P.path x.2)) (fun x hx => ?_) (fun x hx => ?_)
    (fun x hx => (hclean x hx).no_newline) (fun x hx => PairRecord.decode_clean (hclean x hx))
    r).trans ?_
  · exact newline_not_mem_logLine (by decide) fun f hf => ((hclean x hx).no_newline f hf).1
  · exact hsrc.demangle x.2 ((hmem x).1 hx).1 x.1 ((hmem x).1 hx).2.mem
  · constructor
    · rintro ⟨x, hx, rfl⟩
      exact ⟨x.2, ((hmem x).1 hx).1, x.1, ((hmem x).1 hx).2, rfl⟩
    · rintro ⟨file, hfile, func, hflags, rfl⟩
      exact ⟨(func, file), (hmem (func, file)).2 ⟨hfile, hflags⟩, rfl⟩

/-- The rows that get the note. -/
theorem attached_callback_iff (h : Readable T dem) (hsrc : ReadableSource T P)
    (hok : T.getPackagesName.2 = true) (hne : T.bitcodes ≠ []) {S : List Detector}
    (D : CallbackDetector) (hD : .finder D.source.finder ∈ S)
    (run : Run P ((T.withCallbacks X P).logs (session (T.withCallbacks X P).build S clean)))
    (file : SourceFile) (func : Func) (text : Str) :
    Attached (audit run) file func (.finder D.source.finder) text ↔
      text = D.phrase ∧ Listed P file func ∧ contains func.macros (lit "test" rfl) = false ∧
        ∃ file' ∈ allFiles P.files, ∃ func', Flags D X P T dem file' func' ∧
          func'.joined = func.joined := by
  have hmem := mem_unlog_callback X h hsrc hok hne D
  have hacc : ∀ set : List PairRecord, (∀ r, r ∈ set ↔ ∃ file' ∈ allFiles P.files, ∃ func',
        Flags D X P T dem file' func' ∧ (func'.joined, P.path file') = r) →
      ((∃ r ∈ set, structFuncNameMatch r.1 func.struct func.struct_trait func.name (P.path file)
          (some r.2) true = true) ↔
        ∃ file' ∈ allFiles P.files, ∃ func', Flags D X P T dem file' func' ∧
          func'.joined = func.joined) := by
    intro set hset
    constructor
    · rintro ⟨r, hr, hmatch⟩
      obtain ⟨file', hfile', func', hflags, rfl⟩ := (hset r).1 hr
      exact ⟨file', hfile', func', hflags, (match_rustle_iff _ _).1 hmatch⟩
    · rintro ⟨file', hfile', func', hflags, hjoined⟩
      exact ⟨_, (hset _).2 ⟨file', hfile', func', hflags, rfl⟩, (match_rustle_iff _ _).2 hjoined⟩
  cases D with
  | lockCallback =>
    rw [← hacc _ fun r => (mem_set_session hD run r).trans (hmem r)]
    exact attached_first (SourceDetector.section_mem .lockCallback) (by decide) text
  | nonCallbackPrivate =>
    rw [← hacc _ fun r => (mem_set_session hD run r).trans (hmem r)]
    exact attached_first (SourceDetector.section_mem .nonCallbackPrivate) (by decide) text
  | nonPrivateCallback =>
    rw [← hacc _ fun r => (mem_set_session hD run r).trans (hmem r)]
    exact attached_first (SourceDetector.section_mem .nonPrivateCallback) (by decide) text

/-- From the callbacks of the modules to the rows: a function has the note of a
detector exactly when a function of its name, in whichever file that is no
dependency, is found fault with; and one that is called a callback without
`#[private]` and `#[private]` without being a callback shares its name with another. -/
theorem callback_notes (T : Tools) (dem : Str → Str) (X : Reading) (P : Project)
    (h : Readable T dem) (hsrc : ReadableSource T P) (hok : T.getPackagesName.2 = true)
    (hne : T.bitcodes ≠ []) (S : List Detector)
    (run : Run P ((T.withCallbacks X P).logs (session (T.withCallbacks X P).build S clean)))
    (file : SourceFile) (func : Func) :
    (∀ D : CallbackDetector, .finder D.source.finder ∈ S → ∀ text,
      Attached (audit run) file func (.finder D.source.finder) text ↔
        text = D.phrase ∧ Listed P file func ∧ contains func.macros (lit "test" rfl) = false ∧
          ∃ file' ∈ allFiles P.files, ∃ func', Flags D X P T dem file' func' ∧
            func'.joined = func.joined) ∧
    (.finder .nonPrivateCallback ∈ S → .finder .nonCallbackPrivate ∈ S → ∀ t t',
      Attached (audit run) file func (.finder .nonPrivateCallback) t →
      Attached (audit run) file func (.finder .nonCallbackPrivate) t' →
        ∃ file₁ ∈ allFiles P.files, ∃ func₁ ∈ file₁.results,
          ∃ file₂ ∈ allFiles P.files, ∃ func₂ ∈ file₂.results,
            func₁.joined = func.joined ∧ func₂.joined = func.joined ∧ func₁ ≠ func₂) := by
  have hiff := fun D hD => attached_callback_iff X h hsrc hok hne (S := S) D hD run file func
  refine ⟨hiff, fun hcb hpriv t t' hatt hatt' => ?_⟩
  obtain ⟨-, -, -, file₁, hfile₁, func₁, hflags₁, hjoined₁⟩ :=
    (hiff .nonPrivateCallback hcb t).1 hatt
  obtain ⟨-, -, -, file₂, hfile₂, func₂, hflags₂, hjoined₂⟩ :=
    (hiff .nonCallbackPrivate hpriv t').1 hatt'
  refine ⟨file₁, hfile₁, func₁, hflags₁.mem, file₂, hfile₂, func₂, hflags₂.mem, hjoined₁, hjoined₂,
    fun heq => ?_⟩
  have hpublic : func₁.isPrivate = false := hflags₁.2.2
  have hprivate : func₂.isPrivate = true := hflags₂.2.2.1
  rw [heq, hprivate] at hpublic
  exact absurd hpublic (by decide)

end

def promiseTools : Tools := namingTools promiseModule promiseNames

theorem readable_promiseTools : Readable promiseTools promiseNames :=
  readable_namingTools (by decide +kernel) (by decide +kernel) (by decide +kernel)

theorem readableSource_promiseTools : ReadableSource promiseTools twoContracts := by
  have hall : ∀ file ∈ allFiles twoContracts.files, (file = aFile ∨ file = bFile) ∧
      file.results = [onDone] := by
    intro file hfile
    rcases List.mem_pair.1 (List.mem_filter.1 hfile).1 with rfl | rfl
    · exact ⟨Or.inl rfl, rfl⟩
    · exact ⟨Or.inr rfl, rfl⟩
  refine ⟨fun file hfile func hfunc => ?_, fun file hfile func hfunc => ?_⟩
  · obtain ⟨-, hres⟩ := hall file hfile
    rw [hres] at hfunc
    obtain rfl := List.mem_singleton.1 hfunc
    have hline : findingLine twoContracts (onDone, file)
        = onDone.joined ++ '@' :: twoContracts.path file := by simp [findingLine, logLine]
    rw [hline, promiseTools, namingTools_demangle (by decide +kernel)]
    exact congrArg (· ++ _) (by decide +kernel)
  · obtain ⟨hfiles, hres⟩ := hall file hfile
    rw [hres] at hfunc
    obtain rfl := List.mem_singleton.1 hfunc
    rcases hfiles with rfl | rfl
    · exact ⟨by decide +kernel, by decide +kernel, by decide +kernel, by decide +kernel⟩
    · exact ⟨by decide +kernel, by decide +kernel, by decide +kernel, by decide +kernel⟩

/-- No texts, and the files as they stand. -/
def plainReading : Reading := ⟨fun _ => [], id, fun l => .refl l⟩

/-- `on_done` lacks `#[private]`, and its row says so. -/
theorem callback_notes_promise :
    Attached (audit (Run.plain twoContracts ((promiseTools.withCallbacks plainReading
      twoContracts).logs (session (promiseTools.withCallbacks plainReading twoContracts).build
        [.finder .nonPrivateCallback] clean)))) aFile onDone (.finder .nonPrivateCallback)
      (lit "missing #[private] macro for callback function; " rfl) :=
  ((callback_notes promiseTools promiseNames plainReading twoContracts readable_promiseTools
    readableSource_promiseTools rfl (List.cons_ne_nil _ _) [.finder .nonPrivateCallback]
    (Run.plain _ _) aFile onDone).1 .nonPrivateCallback (List.mem_singleton_self _) _).2
    ⟨rfl, listed_aFile, by decide +kernel, aFile,
      List.mem_filter.2 ⟨List.mem_cons_self, by decide +kernel⟩, onDone,
      ⟨List.mem_singleton_self _, ⟨_, List.mem_singleton_self _,
        ⟨onDoneSymbol, 1, [], [⟨lit "start" rfl, [2]⟩]⟩,
        List.mem_cons_of_mem _ (List.mem_singleton_self _), by
          show ∃ p ∈ _, _
          decide +kernel, by decide +kernel⟩, by decide +kernel⟩, rfl⟩

end Audit.Makefile
