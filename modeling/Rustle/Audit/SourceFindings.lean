import Rustle.Audit.Notes

/-!
# Findings of the source-level detectors

Five detectors work on the source text and write `struct::trait::func@path`.
The matcher compares only the first field, so a finding reaches every function
of the name, in whatever file it lies.

* `Finding`, `SourceDetector.log` — the findings, and how they are written.
* `loaded_log` — how much of such a log is loaded.
* `attached_exactly_iff` — when each row gets the notes of its own findings.
-/

namespace Audit

open Text

/-! ## Writers -/

inductive SourceDetector where
  | lockCallback | nonCallbackPrivate | nonPrivateCallback | incorrectJsonType | publicInterface
  deriving DecidableEq, Repr

def SourceDetector.finder : SourceDetector → Finder
  | lockCallback => .lockCallback
  | nonCallbackPrivate => .nonCallbackPrivate
  | nonPrivateCallback => .nonPrivateCallback
  | incorrectJsonType => .incorrectJsonType
  | publicInterface => .publicInterface

/-- A finding in a function of a file: `findFunc` matches names without white
space, and the note of a finding is not blank. -/
structure Finding where
  struct : Str
  trait : Str
  func : Str
  path : Str
  note_issue : Str
  name_solid : ∀ c ∈ struct ++ colons ++ trait ++ colons ++ func, isSpace c = false ∧ c ≠ '@'
  path_newline : '\n' ∉ path ∧ '\r' ∉ path
  note_clean : '@' ∉ note_issue ∧ '\n' ∉ note_issue ∧ '\r' ∉ note_issue
  note_shows : rstrip note_issue ≠ []

/-- `func["struct"] + "::" + func["struct_trait"] + "::" + func_name` -/
def Finding.joined (x : Finding) : Str := x.struct ++ colons ++ x.trait ++ colons ++ x.func

/-- The fields of the line that is written for a finding. -/
def SourceDetector.fields (D : SourceDetector) (x : Finding) : List Str :=
  match D with
  | incorrectJsonType => [x.joined, x.path, x.note_issue]
  | _ => [x.joined, x.path]

def SourceDetector.log (D : SourceDetector) (findings : List Finding) : Str :=
  Audit.log (findings.map D.fields)

/-- The note that the report has for a finding; a written note loses the white
space at its end with its line. -/
def SourceDetector.note (D : SourceDetector) (x : Finding) : Str :=
  match D with
  | lockCallback => lit "assert in callback function may lock contract when failed; " rfl
  | nonCallbackPrivate => lit "macro #[private] used in non-callback function; " rfl
  | nonPrivateCallback => lit "missing #[private] macro for callback function; " rfl
  | incorrectJsonType => rstrip x.note_issue
  | publicInterface => lit "public interface; " rfl

/-- Is the finding about this function of this file? -/
def Finding.IsOf (x : Finding) (func : Func) (path : Str) : Prop :=
  x.struct = func.struct ∧ x.trait = func.struct_trait ∧ x.func = func.name ∧ x.path = path

/-- The findings before the first one whose path has a separator. -/
def delivered (findings : List Finding) : List Finding :=
  findings.takeWhile fun x => '@' ∉ x.path

/-! ## What is loaded -/

/-- The record of a delivered finding. -/
def SourceDetector.record : (D : SourceDetector) → Finding → D.finder.format.Record
  | lockCallback, x => (x.joined, rstrip x.path)
  | nonCallbackPrivate, x => (x.joined, rstrip x.path)
  | nonPrivateCallback, x => (x.joined, rstrip x.path)
  | incorrectJsonType, x => (x.joined, x.path, rstrip x.note_issue)
  | publicInterface, x => (x.joined, rstrip x.path)

theorem Finding.at_not_mem_joined (x : Finding) : '@' ∉ x.joined :=
  fun h => (x.name_solid '@' h).2 rfl

theorem Finding.lstrip_joined (x : Finding) : lstrip x.joined = x.joined := by
  have hs : strip x.joined = x.joined := strip_of_all_solid fun c hc => (x.name_solid c hc).1
  have h := lstrip_strip x.joined
  rwa [hs] at h

theorem Finding.newline_not_mem_joined (x : Finding) : '\n' ∉ x.joined ∧ '\r' ∉ x.joined :=
  ⟨fun h => absurd (x.name_solid _ h).1 (by decide),
    fun h => absurd (x.name_solid _ h).1 (by decide)⟩

/-- A pair is read from its line, unless the second field has a separator. -/
theorem decodePair_line {a b : Str} (ha : '@' ∉ a) (hl : lstrip a = a) :
    decodePair ((strip (logLine [a, b])).splitOn '@')
      = if '@' ∈ b then none else some (a, rstrip b) := by
  rw [strip_pairLine, hl, show logLine [a, rstrip b] = a ++ '@' :: rstrip b by simp [logLine],
    List.splitOn_append_cons_self_of_not_mem ha]
  by_cases hb : '@' ∈ b
  · obtain ⟨u, v, w, h⟩ := splitOn_of_mem ((mem_rstrip at_solid).2 hb)
    rw [if_pos hb, h]
    rfl
  · rw [if_neg hb, List.splitOn_eq_singleton fun h => hb ((mem_rstrip at_solid).1 h)]
    rfl

/-- A note is read from its line, unless the path has a separator. -/
theorem decodeNote_line {a b c : Str} (ha : '@' ∉ a) (hl : lstrip a = a) (hc : '@' ∉ c) :
    decodeNote ((strip (logLine [a, b, c])).splitOn '@')
      = if '@' ∈ b then none else some (a, b, rstrip c) := by
  rw [strip_tripleLine, hl,
    show logLine [a, b, rstrip c] = a ++ '@' :: (b ++ '@' :: rstrip c) by simp [logLine],
    List.splitOn_append_cons_self_of_not_mem ha]
  by_cases hb : '@' ∈ b
  · obtain ⟨b₁, b₂, rfl, hb₁⟩ := List.eq_append_cons_of_mem hb
    obtain ⟨u, v, w, h⟩ := splitOn_of_mem (show '@' ∈ b₂ ++ '@' :: rstrip c by simp)
    rw [if_pos hb, List.append_assoc, List.cons_append,
      List.splitOn_append_cons_self_of_not_mem hb₁, h]
    rfl
  · rw [if_neg hb, List.splitOn_append_cons_self_of_not_mem hb,
      List.splitOn_eq_singleton fun h => hc ((mem_rstrip at_solid).1 h)]
    rfl

theorem SourceDetector.fields_newline (D : SourceDetector) (x : Finding) :
    ∀ f ∈ D.fields x, '\n' ∉ f ∧ '\r' ∉ f := by
  have hpair : ∀ f ∈ [x.joined, x.path], '\n' ∉ f ∧ '\r' ∉ f :=
    List.forall_mem_cons.2 ⟨x.newline_not_mem_joined, List.forall_mem_singleton.2 x.path_newline⟩
  cases D with
  | incorrectJsonType =>
    intro f hf
    rcases List.mem_append.1 (show f ∈ [x.joined, x.path] ++ [x.note_issue] from hf) with hf | hf
    · exact hpair f hf
    · rw [List.mem_singleton.1 hf]
      exact x.note_clean.2
  | _ => exact hpair

/-- The line of a finding is read as its record, unless its path has a
separator. -/
theorem SourceDetector.decode_fields (D : SourceDetector) (x : Finding) :
    D.finder.format.decode ((strip (logLine (D.fields x))).splitOn '@')
      = if '@' ∈ x.path then none else some (D.record x) := by
  cases D with
  | incorrectJsonType => exact decodeNote_line x.at_not_mem_joined x.lstrip_joined x.note_clean.1
  | _ => exact decodePair_line x.at_not_mem_joined x.lstrip_joined

/-- Of a log the delivered findings are loaded. -/
theorem unlog_sourceLog (D : SourceDetector) (findings : List Finding) :
    unlog D.finder.format.decode (D.log findings) = (delivered findings).map D.record := by
  rw [unlog, SourceDetector.log, lines_log fun x _ => D.fields_newline x]
  induction findings with
  | nil => rfl
  | cons x findings ih =>
    rw [List.map_cons, loadLoop, D.decode_fields x, delivered, List.takeWhile_cons]
    by_cases hx : '@' ∈ x.path
    · simp [hx]
    · simp only [decide_not, hx, decide_false, Bool.not_false, if_true, List.map_cons]
      rw [ih]
      simp [delivered]

/-! ## What is attached -/

def SourceDetector.column : SourceDetector → Severity
  | lockCallback => .medium
  | nonCallbackPrivate => .low
  | nonPrivateCallback => .high
  | incorrectJsonType => .high
  | publicInterface => .info

/-- What the section of the detector notes of a record. -/
def SourceDetector.text : (D : SourceDetector) → D.finder.format.Record → Str
  | lockCallback, _ => lit "assert in callback function may lock contract when failed; " rfl
  | nonCallbackPrivate, _ => lit "macro #[private] used in non-callback function; " rfl
  | nonPrivateCallback, _ => lit "missing #[private] macro for callback function; " rfl
  | incorrectJsonType, r => NoteRecord.note r
  | publicInterface, _ => lit "public interface; " rfl

theorem SourceDetector.section_mem (D : SourceDetector) :
    Section.first D.finder D.column D.text ∈ sections := by
  cases D with
  | lockCallback => exact List.mem_of_getElem? (i := 14) rfl
  | nonCallbackPrivate => exact List.mem_of_getElem? (i := 15) rfl
  | nonPrivateCallback => exact List.mem_of_getElem? (i := 16) rfl
  | incorrectJsonType => exact List.mem_of_getElem? (i := 17) rfl
  | publicInterface => exact List.mem_of_getElem? (i := 19) rfl

theorem SourceDetector.text_record (D : SourceDetector) (x : Finding) :
    D.text (D.record x) = D.note x := by
  cases D <;> rfl

theorem SourceDetector.note_ne_nil (D : SourceDetector) (x : Finding) : D.note x ≠ [] := by
  cases D with
  | incorrectJsonType => exact x.note_shows
  | _ => exact List.cons_ne_nil _ _

/-- The path of a finding plays no part in the matching. -/
theorem SourceDetector.accepts_record_iff (D : SourceDetector) (x : Finding) (func : Func)
    (path : Str) : D.finder.accepts func path (D.record x) = true ↔ x.joined = func.joined := by
  cases D with
  | incorrectJsonType => exact match_rustle_iff path (some x.path)
  | _ => exact match_rustle_iff path (some (rstrip x.path))

/-- The logs of a project, with this one for `D`. -/
def SourceDetector.tmp (D : SourceDetector) (tmp : Tmp) (findings : List Finding) : Tmp :=
  Function.update tmp (.finder D.finder) (some (D.log findings))

variable {P : Project} {tmp : Tmp} {findings : List Finding} {D : SourceDetector}

theorem mem_set_iff (run : Run P (D.tmp tmp findings)) (r : D.finder.format.Record) :
    r ∈ run.set D.finder ↔ ∃ x ∈ delivered findings, D.record x = r := by
  have hlog : D.tmp tmp findings (.finder D.finder) = some (D.log findings) :=
    Function.update_self ..
  rw [run.mem_set, loaded, hlog]
  show r ∈ unlog D.finder.format.decode (D.log findings) ↔ _
  rw [unlog_sourceLog, List.mem_map]

/-- The note in a row is that of the first delivered finding of the row's name. -/
theorem attached_source_iff {run : Run P (D.tmp tmp findings)} {file : SourceFile} {func : Func}
    {text : Str} :
    Attached (audit run) file func (.finder D.finder) text ↔
      Listed P file func ∧ contains func.macros (lit "test" rfl) = false ∧
        ((run.accepted file func D.finder).head?.map D.text) = some text := by
  rw [show Detector.finder D.finder = (Section.first D.finder D.column D.text).detector from rfl,
    attached_iff D.section_mem]
  refine and_congr_right fun _ => and_congr_right fun _ => ?_
  show (run.accepted file func D.finder).head?.elim [] D.text = text ∧ text ≠ [] ↔ _
  cases hacc : (run.accepted file func D.finder).head? with
  | none => exact ⟨fun h => absurd h.1.symm h.2, fun h => by cases h⟩
  | some r =>
    have hr : r ∈ run.set D.finder := (List.mem_filter.1 (List.mem_of_head? hacc)).1
    obtain ⟨x, -, rfl⟩ := (mem_set_iff run r).1 hr
    refine ⟨fun h => congrArg some h.1, fun h => ⟨Option.some.inj h, ?_⟩⟩
    rw [← Option.some.inj h, D.text_record]
    exact D.note_ne_nil x

/-- The record that the section meets first is that of a delivered finding of
the function's name. -/
theorem exists_of_head {run : Run P (D.tmp tmp findings)} {file : SourceFile} {func : Func}
    {r : D.finder.format.Record} (h : (run.accepted file func D.finder).head? = some r) :
    ∃ x ∈ delivered findings, x.joined = func.joined ∧ D.record x = r := by
  obtain ⟨hr, hacc⟩ := List.mem_filter.1 (List.mem_of_head? h)
  obtain ⟨x, hx, rfl⟩ := (mem_set_iff run r).1 hr
  exact ⟨x, hx, (D.accepts_record_iff x func _).1 hacc, rfl⟩

theorem exists_head (run : Run P (D.tmp tmp findings)) (file : SourceFile) {func : Func}
    {x : Finding} (hx : x ∈ delivered findings) (hj : x.joined = func.joined) :
    ∃ r, (run.accepted file func D.finder).head? = some r := by
  have hmem : D.record x ∈ run.accepted file func D.finder :=
    List.mem_filter.2 ⟨(mem_set_iff run _).2 ⟨x, hx, rfl⟩, (D.accepts_record_iff x func _).2 hj⟩
  exact Option.isSome_iff_exists.1 (List.isSome_head?.2 (List.ne_nil_of_mem hmem))

/-- Some order of iteration puts a given finding first. -/
theorem exists_run_first (P : Project) (tmp : Tmp) (file : SourceFile) {func : Func}
    {x : Finding} (hx : x ∈ delivered findings) (hj : x.joined = func.joined) :
    ∃ run : Run P (D.tmp tmp findings),
      (run.accepted file func D.finder).head? = some (D.record x) := by
  let plain : Run P (D.tmp tmp findings) := Run.plain P _
  have hmem : D.record x ∈ plain.set D.finder := (mem_set_iff plain _).2 ⟨x, hx, rfl⟩
  refine ⟨plain.promote D.finder (D.record x) hmem, ?_⟩
  have hset : (plain.promote D.finder (D.record x) hmem).set D.finder
      = D.record x :: (plain.set D.finder).erase (D.record x) := Function.update_self ..
  rw [Run.accepted, hset, List.filter_cons, if_pos ((D.accepts_record_iff x func _).2 hj)]
  rfl

/-- Every row gets exactly the notes of the findings that are about its function
and its file, if and only if for each function the log delivers a finding of its
name exactly when the function has a finding of its own, and all these findings
have one note. -/
theorem attached_exactly_iff (D : SourceDetector) (P : Project) (tmp : Tmp)
    (findings : List Finding) :
    (∀ (run : Run P (D.tmp tmp findings)) (file : SourceFile) (func : Func), Listed P file func →
      contains func.macros (lit "test" rfl) = false → ∀ text,
      (Attached (audit run) file func (.finder D.finder) text ↔
        ∃ x ∈ findings, x.IsOf func (P.path file) ∧ D.note x = text)) ↔
    ∀ (file : SourceFile) (func : Func), Listed P file func →
      contains func.macros (lit "test" rfl) = false →
      ((∃ x ∈ delivered findings, x.joined = func.joined) ↔
        ∃ y ∈ findings, y.IsOf func (P.path file)) ∧
      ∀ x ∈ delivered findings, x.joined = func.joined →
        ∀ y ∈ findings, y.IsOf func (P.path file) → D.note x = D.note y := by
  refine ⟨fun h file func hlist htest => ?_, fun h run file func hlist htest text => ?_⟩
  · -- the run that meets `x` first attaches the note of `x`
    have hattach : ∀ x ∈ delivered findings, x.joined = func.joined →
        ∃ run : Run P (D.tmp tmp findings), ∀ text,
          (Attached (audit run) file func (.finder D.finder) text ↔ D.note x = text) := by
      intro x hx hj
      obtain ⟨run, hrun⟩ := exists_run_first (D := D) P tmp file hx hj
      refine ⟨run, fun text => ?_⟩
      rw [attached_source_iff, hrun, Option.map_some, D.text_record, Option.some.injEq]
      exact ⟨fun h => h.2.2, fun h => ⟨hlist, htest, h⟩⟩
    refine ⟨⟨?_, ?_⟩, ?_⟩
    · rintro ⟨x, hx, hj⟩
      obtain ⟨run, hrun⟩ := hattach x hx hj
      obtain ⟨y, hy, hof, -⟩ := (h run file func hlist htest _).1 ((hrun _).2 rfl)
      exact ⟨y, hy, hof⟩
    · rintro ⟨y, hy, hof⟩
      have hatt := (h (Run.plain P _) file func hlist htest _).2 ⟨y, hy, hof, rfl⟩
      obtain ⟨r, hr, -⟩ := Option.map_eq_some_iff.1 (attached_source_iff.1 hatt).2.2
      obtain ⟨x, hx, hj, -⟩ := exists_of_head hr
      exact ⟨x, hx, hj⟩
    · intro x hx hj y hy hof
      obtain ⟨run, hrun⟩ := hattach x hx hj
      exact (hrun _).1 ((h run file func hlist htest _).2 ⟨y, hy, hof, rfl⟩)
  · obtain ⟨hiff, hnotes⟩ := h file func hlist htest
    rw [attached_source_iff]
    refine ⟨?_, ?_⟩
    · rintro ⟨_, _, htext⟩
      obtain ⟨r, hr, hrt⟩ := Option.map_eq_some_iff.1 htext
      obtain ⟨x, hx, hj, rfl⟩ := exists_of_head hr
      obtain ⟨y, hy, hof⟩ := hiff.1 ⟨x, hx, hj⟩
      exact ⟨y, hy, hof, by rw [← hnotes x hx hj y hy hof, ← D.text_record, hrt]⟩
    · rintro ⟨y, hy, hof, htext⟩
      obtain ⟨x₀, hx₀, hj₀⟩ := hiff.2 ⟨y, hy, hof⟩
      obtain ⟨r, hr⟩ := exists_head run file hx₀ hj₀
      obtain ⟨x, hx, hj, rfl⟩ := exists_of_head hr
      refine ⟨hlist, htest, ?_⟩
      rw [hr, Option.map_some, D.text_record, hnotes x hx hj y hy hof, htext]

/-! ## Two contracts of one name -/

/-- `on_done` of a contract named `Contract`. -/
def onDone : Func where
  name := lit "on_done" rfl
  struct := lit "Contract" rfl
  struct_trait := []
  line_number := 12
  macros := []

def aFile : SourceFile := ⟨lit "src/a.rs" rfl, by decide, [onDone], fun _ => []⟩

def bFile : SourceFile := ⟨lit "src/b.rs" rfl, by decide, [onDone], fun _ => []⟩

def twoContracts : Project := ⟨lit "/home/u/token" rfl, [aFile, bFile], by decide⟩

/-- The assertion is in the callback of the first file only. -/
def onDoneFinding : Finding where
  struct := onDone.struct
  trait := onDone.struct_trait
  func := onDone.name
  path := twoContracts.path aFile
  note_issue := lit "assertion" rfl
  name_solid := @of_decide_eq_true _ (List.decidableBAll _ _) rfl
  path_newline := by decide
  note_clean := by decide
  note_shows := by decide

theorem listed_bFile : Listed twoContracts bFile onDone :=
  ⟨List.mem_filter.2 ⟨by simp [twoContracts], by decide +kernel⟩, by decide +kernel,
    List.mem_singleton_self _⟩

/-- The callback of the second file gets the note as well. -/
theorem other_file_gets_note :
    ¬ ∀ (run : Run twoContracts (SourceDetector.lockCallback.tmp (fun _ => none) [onDoneFinding]))
        (file : SourceFile) (func : Func), Listed twoContracts file func →
      contains func.macros (lit "test" rfl) = false → ∀ text,
      (Attached (audit run) file func (.finder .lockCallback) text ↔
        ∃ x ∈ [onDoneFinding], x.IsOf func (twoContracts.path file) ∧
          SourceDetector.lockCallback.note x = text) := by
  intro h
  let run : Run twoContracts (SourceDetector.lockCallback.tmp (fun _ => none) [onDoneFinding]) :=
    Run.plain _ _
  have hdel : onDoneFinding ∈ delivered [onDoneFinding] := by
    rw [delivered, List.takeWhile_cons, if_pos (by decide +kernel)]
    exact List.mem_cons_self ..
  obtain ⟨r, hr⟩ := exists_head run bFile hdel (show onDoneFinding.joined = onDone.joined from rfl)
  have hatt := attached_source_iff.2 ⟨listed_bFile, rfl, congrArg (Option.map _) hr⟩
  obtain ⟨x, hx, hof, -⟩ := (h run bFile onDone listed_bFile rfl _).1 hatt
  rw [List.mem_singleton.1 hx] at hof
  exact absurd hof.2.2.2 (by decide +kernel)

end Audit
