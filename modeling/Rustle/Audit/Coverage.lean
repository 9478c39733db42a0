import Rustle.Audit.SourceFindings

/-!
# From the logs to the rows

A finding reaches its row through the loader of its log, the matcher, the filter
of the functions, and the section of its detector.

* `Arrives` — the records that a loader reaches.
* `Usable` — a detector's log has something to say of a function.
* `summary_complete_iff` — when every finding has its note.
-/

namespace Audit

open Text

/-! ## Arriving records -/

/-- The log of `d` has a line with the record `r`, and it and all lines before it
have the format of the log. -/
def Arrives (tmp : Tmp) (d : Finder) (r : d.format.Record) : Prop :=
  ∃ text, tmp (.finder d) = some text ∧ ∃ before line after,
    lines text = before ++ line :: after ∧
    (∀ l ∈ before, (d.format.decode ((strip l).splitOn '@')).isSome = true) ∧
    d.format.decode ((strip line).splitOn '@') = some r

theorem mem_loadLoop_iff {α : Type} {decode : List Str → Option α} {ls : List Str} {r : α} :
    r ∈ loadLoop decode ls ↔ ∃ before line after, ls = before ++ line :: after ∧
      (∀ l ∈ before, (decode ((strip l).splitOn '@')).isSome = true) ∧
      decode ((strip line).splitOn '@') = some r := by
  induction ls with
  | nil => simp [loadLoop]
  | cons l ls ih =>
    rw [loadLoop]
    cases hl : decode ((strip l).splitOn '@') with
    | none =>
      refine ⟨fun h => absurd h List.not_mem_nil, ?_⟩
      rintro ⟨before, line, after, hls, hbefore, hline⟩
      cases before with
      | nil =>
        obtain ⟨rfl, -⟩ := List.cons.inj hls
        rw [hl] at hline
        cases hline
      | cons b before =>
        obtain ⟨rfl, -⟩ := List.cons.inj hls
        have := hbefore l (List.mem_cons_self ..)
        rw [hl] at this
        cases this
    | some r' =>
      show r ∈ r' :: loadLoop decode ls ↔ _
      rw [List.mem_cons, ih]
      refine ⟨?_, ?_⟩
      · rintro (rfl | ⟨before, line, after, hls, hbefore, hline⟩)
        · exact ⟨[], l, ls, rfl, fun x hx => absurd hx List.not_mem_nil, hl⟩
        · refine ⟨l :: before, line, after, by rw [hls]; rfl, ?_, hline⟩
          exact List.forall_mem_cons.2 ⟨by rw [hl]; rfl, hbefore⟩
      · rintro ⟨before, line, after, hls, hbefore, hline⟩
        cases before with
        | nil =>
          obtain ⟨rfl, -⟩ := List.cons.inj hls
          rw [hl] at hline
          exact Or.inl (Option.some.inj hline).symm
        | cons b before =>
          obtain ⟨-, hls⟩ := List.cons.inj hls
          exact Or.inr ⟨before, line, after, hls, fun x hx => hbefore x (by simp [hx]), hline⟩

theorem mem_loaded_iff {tmp : Tmp} {d : Finder} {r : d.format.Record} :
    r ∈ loaded tmp d ↔ Arrives tmp d r := by
  unfold loaded Arrives
  cases tmp (.finder d) with
  | none => simp
  | some text =>
    show r ∈ loadLoop d.format.decode (lines text) ↔ _
    rw [mem_loadLoop_iff]
    refine ⟨fun h => ⟨text, rfl, h⟩, ?_⟩
    rintro ⟨t, ht, h⟩
    exact Option.some.inj ht ▸ h

/-- The log of `d` has something to say of a function: a record arrives that the
matcher accepts, and no accepted record has an empty note. -/
def Usable (P : Project) (tmp : Tmp) (file : SourceFile) (func : Func) (d : Finder) : Prop :=
  (∃ r, Arrives tmp d r ∧ d.accepts func (P.path file) r = true) ∧
  (d = .incorrectJsonType → ∀ r : NoteRecord, Arrives tmp .incorrectJsonType r →
    Finder.incorrectJsonType.accepts func (P.path file) r = true → r.note ≠ [])

/-! ## The section of a detector -/

/-- Every detector but `tautology` has a section. -/
theorem exists_section {d : Finder} (h : d ≠ .tautology) :
    ∃ s ∈ sections, s.detector = .finder d := by
  have hmem : Detector.finder d ∈ sections.map Section.detector := by
    cases d with
    | tautology => exact absurd rfl h
    | _ => decide
  obtain ⟨s, hs, hd⟩ := List.mem_map.1 hmem
  exact ⟨s, hs, hd⟩

variable {P : Project} {tmp : Tmp}

/-- No row has a note of `tautology`: its log is not read. -/
theorem not_attached_tautology (run : Run P tmp) (file : SourceFile) (func : Func) (text : Str) :
    ¬ Attached (audit run) file func (.finder .tautology) text := by
  rintro ⟨row, hrow, _, _, n, hn, hdet, _⟩
  obtain ⟨file', -, hrow⟩ := List.mem_flatMap.1 hrow
  have hnone : Detector.finder .tautology ∉ sections.map Section.detector := by decide
  unfold reportRows at hrow
  split at hrow
  · obtain ⟨func', -, hrow⟩ := List.mem_filterMap.1 hrow
    unfold reportRow at hrow
    split at hrow
    · cases hrow
    · split at hrow
      · cases hrow
      · obtain rfl := Option.some.inj hrow
        obtain ⟨s, hs, -, rfl⟩ := mem_funcNotes.1 hn
        exact hnone (List.mem_map.2 ⟨s, hs, hdet⟩)
  · exact absurd hrow List.not_mem_nil

/-- A section contributes a text exactly when it accepts a record, and its first
one is not an empty note. -/
theorem note_ne_nil_iff {run : Run P tmp} {file : SourceFile} {func : Func} {s : Section}
    {d : Finder} (hs : s ∈ sections) (hd : s.detector = .finder d) :
    s.note run file func ≠ [] ↔ run.accepted file func d ≠ [] ∧
      (d = .incorrectJsonType → ∀ r : NoteRecord,
        (run.accepted file func .incorrectJsonType).head? = some r → r.note ≠ []) := by
  by_cases hj : d = .incorrectJsonType
  · subst hj
    obtain rfl := section_unique hs jsonSection_mem hd
    show (run.accepted file func .incorrectJsonType).head?.elim [] NoteRecord.note ≠ [] ↔
      run.accepted file func .incorrectJsonType ≠ [] ∧ (_ → ∀ r : NoteRecord,
        (run.accepted file func .incorrectJsonType).head? = some r → r.note ≠ [])
    cases run.accepted file func .incorrectJsonType with
    | nil => exact iff_of_false (fun h => h rfl) fun h => h.1 rfl
    | cons r rest =>
      refine ⟨fun h => ⟨List.cons_ne_nil _ _, fun _ r' hr' => Option.some.inj hr' ▸ h⟩, fun h => ?_⟩
      exact h.2 rfl r rfl
  · have hwf : s.WellFormed := sections_wellFormed s hs
    rw [and_iff_left fun h => absurd h hj]
    cases s with
    | first d' column text =>
      obtain rfl : d' = d := Detector.finder.inj hd
      show (run.accepted file func d').head?.elim [] text ≠ [] ↔ _
      cases hacc : run.accepted file func d' with
      | nil => simp
      | cons r rest =>
        refine iff_of_true (fun hnil : text r = [] => ?_) (List.cons_ne_nil _ _)
        obtain ⟨phrase, hphrase, htext⟩ := hwf hj
        rw [← htext r, hnil] at hphrase
        cases hphrase
    | lines d' column label line =>
      obtain rfl : d' = d := Detector.finder.inj hd
      exact not_congr (linesText_eq_nil_iff.trans List.map_eq_nil_iff)
    | unusedRet =>
      obtain rfl : Finder.unusedRet = d := Detector.finder.inj hd
      exact not_congr (callsText_eq_nil_iff.trans List.map_eq_nil_iff)
    | inconsistency => cases hd

/-! ## Findings and their notes -/

/-- The names under which the compiled program knows the functions and files. -/
structure Naming where
  symbol : SourceFile → Func → Str
  debugFile : SourceFile → Str

/-- The lines that `d` writes for a finding in a function: a source-level
detector names it as `findFunc` does, a pass by its symbol. -/
def FindingLine (N : Naming) (P : Project) (d : Finder) (file : SourceFile) (func : Func)
    (line : Str) : Prop :=
  let name := if d.rustleFormat then func.joined else N.symbol file func
  let path := if d.rustleFormat then P.path file else N.debugFile file
  match d.format with
  | .pair => line = logLine [name, path]
  | .line => ∃ n : Int, line = logLine [name, path, intStr n]
  | .note => ∃ note, note ≠ [] ∧ line = logLine [name, path, note]
  | .check => ∃ mark, isTrue mark = false ∧ line = logLine [name, mark]
  | .call => ∃ no callee, line = logLine [name, no, callee]

/-- Has `d` written a finding for the function? -/
def HasFinding (N : Naming) (P : Project) (tmp : Tmp) (d : Finder) (file : SourceFile)
    (func : Func) : Prop :=
  ∃ text, tmp (.finder d) = some text ∧ ∃ line ∈ lines text, FindingLine N P d file func line

/-- Some order of iteration puts a given record first. -/
theorem exists_run_head {d : Finder} {r : d.format.Record} (hr : r ∈ loaded tmp d)
    {file : SourceFile} {func : Func} (hacc : d.accepts func (P.path file) r = true) :
    ∃ run : Run P tmp, (run.accepted file func d).head? = some r := by
  have hmem : r ∈ (Run.plain P tmp).set d := ((Run.plain P tmp).mem_set d r).2 hr
  refine ⟨(Run.plain P tmp).promote d r hmem, ?_⟩
  have hset : ((Run.plain P tmp).promote d r hmem).set d
      = r :: ((Run.plain P tmp).set d).erase r := Function.update_self ..
  rw [Run.accepted, hset, List.filter_cons, if_pos hacc]
  rfl

theorem accepted_ne_nil_iff {run : Run P tmp} {file : SourceFile} {func : Func} {d : Finder} :
    run.accepted file func d ≠ [] ↔
      ∃ r, Arrives tmp d r ∧ d.accepts func (P.path file) r = true := by
  rw [Run.accepted, ne_eq, List.filter_eq_nil_iff]
  push Not
  exact exists_congr fun r => and_congr_left fun _ => (run.mem_set d r).trans mem_loaded_iff

/-- A function has the note of `d` in every run exactly when `d` is read, the
function is not taken for a test, and the log has something to say of it. -/
theorem attached_always_iff {d : Finder} {file : SourceFile} {func : Func}
    (hlist : Listed P file func) :
    (∀ run : Run P tmp, ∃ text, Attached (audit run) file func (.finder d) text) ↔
      d ≠ .tautology ∧ contains func.macros (lit "test" rfl) = false ∧
        Usable P tmp file func d := by
  by_cases hd : d = .tautology
  · subst hd
    refine ⟨fun h => ?_, fun h => absurd rfl h.1⟩
    obtain ⟨text, htext⟩ := h (Run.plain P tmp)
    exact absurd htext (not_attached_tautology _ file func text)
  · obtain ⟨s, hs, hsd⟩ := exists_section hd
    have hnote : ∀ run : Run P tmp, (∃ text, Attached (audit run) file func (.finder d) text) ↔
        contains func.macros (lit "test" rfl) = false ∧ s.note run file func ≠ [] := by
      intro run
      rw [← hsd]
      refine ⟨?_, ?_⟩
      · rintro ⟨text, h⟩
        obtain ⟨-, htest, rfl, hne⟩ := (attached_iff hs).1 h
        exact ⟨htest, hne⟩
      · rintro ⟨htest, hne⟩
        exact ⟨_, (attached_iff hs).2 ⟨hlist, htest, rfl, hne⟩⟩
    refine ⟨fun h => ?_, ?_⟩
    · have h' := fun run => (hnote run).1 (h run)
      refine ⟨hd, (h' (Run.plain P tmp)).1,
        accepted_ne_nil_iff.1 ((note_ne_nil_iff hs hsd).1 (h' (Run.plain P tmp)).2).1, ?_⟩
      rintro rfl r hr hacc
      obtain ⟨run, hrun⟩ := exists_run_head (mem_loaded_iff.2 hr) hacc
      exact ((note_ne_nil_iff hs hsd).1 (h' run).2).2 rfl r hrun
    · rintro ⟨-, htest, hr, hnotes⟩ run
      refine (hnote run).2 ⟨htest, (note_ne_nil_iff hs hsd).2 ⟨accepted_ne_nil_iff.2 hr, ?_⟩⟩
      intro hj r hhead
      obtain ⟨hmem, hacc⟩ := List.mem_filter.1 (List.mem_of_head? hhead)
      exact hnotes hj r (mem_loaded_iff.1 ((run.mem_set .incorrectJsonType r).1 hmem)) hacc

/-- Every finding in a listed function has its note in every run, if and only if
for every such finding the log of the detector is read, the function is not
taken for a test, and the log has something to say of the function. -/
theorem summary_complete_iff (N : Naming) (P : Project) (tmp : Tmp) :
    (∀ (d : Finder) (file : SourceFile) (func : Func), Listed P file func →
      HasFinding N P tmp d file func →
      ∀ run : Run P tmp, ∃ text, Attached (audit run) file func (.finder d) text) ↔
    ∀ (d : Finder) (file : SourceFile) (func : Func), Listed P file func →
      HasFinding N P tmp d file func →
      d ≠ .tautology ∧ contains func.macros (lit "test" rfl) = false ∧
        Usable P tmp file func d := by
  refine forall_congr' fun d => forall_congr' fun file => forall_congr' fun func =>
    forall_congr' fun hlist => forall_congr' fun _ => ?_
  exact attached_always_iff hlist

/-- The log of `tautology` with a finding in the first file of `twoContracts`. -/
def tautologyTmp : Tmp :=
  Function.update (fun _ => none) (.finder .tautology)
    (some (log [[onDone.joined, twoContracts.path aFile, intStr 14]]))

/-- The symbols of the crate `token`. -/
def tokenNaming : Naming where
  symbol _ func := lit "token::" rfl ++ func.struct ++ colons ++ func.name
  debugFile file := file.rel

/-- The finding of `tautology` is in no row. -/
theorem tautology_not_reported :
    ¬ ∀ (d : Finder) (file : SourceFile) (func : Func), Listed twoContracts file func →
      HasFinding tokenNaming twoContracts tautologyTmp d file func →
      ∀ run : Run twoContracts tautologyTmp,
        ∃ text, Attached (audit run) file func (.finder d) text := by
  intro h
  have hlist : Listed twoContracts aFile onDone :=
    ⟨List.mem_filter.2 ⟨by simp [twoContracts], by decide +kernel⟩, by decide +kernel,
      List.mem_singleton_self _⟩
  have hfind : HasFinding tokenNaming twoContracts tautologyTmp .tautology aFile onDone :=
    ⟨_, Function.update_self .., logLine [onDone.joined, twoContracts.path aFile, intStr 14],
      by decide +kernel, ⟨14, rfl⟩⟩
  obtain ⟨text, htext⟩ := h .tautology aFile onDone hlist hfind (Run.plain _ _)
  exact not_attached_tautology _ _ _ _ htext

end Audit
