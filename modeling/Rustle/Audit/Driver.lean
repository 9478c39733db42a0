import Rustle.Audit.Coverage

/-!
# The driver, and reports on a selection of the detectors

The `rustle` script runs the selected detectors one by one, each of which
replaces its own log, and then writes the report.

* `rustle` — the detector loop; `rustle_eq` — the logs it ends with.
* `Report.statements` — all the notes of a report, with their places.
* `statements_restrict` — what the notes of a selection are.
* `subset_exact_iff` — when a selection contributes exactly its own notes.
-/

namespace Audit

open Text

/-! ## The detector loop -/

def Finder.all : List Finder :=
  [.promiseResult, .extCall, .reentrancy, .complexLoop, .transfer, .round, .divBeforeMul,
    .unsafeMath, .upgradeFunc, .selfTransfer, .timestamp, .prepaidGas, .unhandledPromise,
    .yoctoAttach, .unusedRet, .lockCallback, .nonCallbackPrivate, .nonPrivateCallback,
    .incorrectJsonType, .publicInterface, .storageGas, .unregisteredReceiver, .unsavedChanges,
    .unclaimedStorageFee, .nftApprovalCheck, .nftOwnerCheck, .tautology]

def Detector.all : List Detector :=
  Finder.all.map .finder ++ [.inconsistency, .dupCollectionId] ++ Nep.sorted.map .nepInterface

theorem Detector.mem_all (D : Detector) : D ∈ Detector.all := by
  cases D with
  | finder d => cases d <;> decide
  | inconsistency => decide
  | dupCollectionId => decide
  | nepInterface n => cases n <;> decide

/-- `make -C $TOP $i`: the log of the detector is removed and written anew.
`output` is what each detector leaves on the project. -/
def make (output : Tmp) (D : Detector) (tmp : Tmp) : Tmp := Function.update tmp D (output D)

/-- The loop over the selected detectors, with `HAS_RUNNED`. -/
def detectorLoop (output : Tmp) : List Detector → Tmp → Bool → Tmp × Bool
  | [], tmp, hasRun => (tmp, hasRun)
  | D :: rest, tmp, _ => detectorLoop output rest (make output D tmp) true

/-- The logs that the report is made from, if one is made. -/
def rustle (output : Tmp) (selected : List Detector) : Option Tmp :=
  match detectorLoop output selected (fun _ => none) false with
  | (tmp, true) => some tmp
  | (_, false) => none

/-- The logs of some of the detectors. -/
def Tmp.restrict (output : Tmp) (S : List Detector) : Tmp := fun D =>
  if D ∈ S then output D else none

theorem detectorLoop_eq (output : Tmp) (S : List Detector) (tmp : Tmp) (hasRun : Bool) :
    detectorLoop output S tmp hasRun
      = (fun D => if D ∈ S then output D else tmp D, hasRun || !S.isEmpty) := by
  induction S generalizing tmp hasRun with
  | nil => simp [detectorLoop]
  | cons D S ih =>
    rw [detectorLoop, ih]
    refine Prod.ext (funext fun D' => ?_) (by simp)
    by_cases hS : D' ∈ S
    · simp [hS]
    · by_cases hD : D' = D
      · subst hD
        simp [hS, make]
      · simp [hS, hD, make]

/-- After the loop exactly the selected detectors have a log of theirs. -/
theorem rustle_eq (output : Tmp) (S : List Detector) :
    rustle output S = if S = [] then none else some (output.restrict S) := by
  rw [rustle, detectorLoop_eq]
  cases S with
  | nil => rfl
  | cons D S => rfl

theorem restrict_all (output : Tmp) : output.restrict Detector.all = output :=
  funext fun D => if_pos D.mem_all

/-! ## Statements -/

/-- Where a note stands. -/
inductive Place where
  | row (file : SourceFile) (func : Func)
  | global

/-- The notes of a report, with their places. -/
def Report.statements (report : Report) : List (Place × Note) :=
  (report.rows.flatMap fun row => row.notes.map fun n => (.row row.file row.func, n))
    ++ (report.upgrade ++ report.dup ++ report.interfaces).map fun n => (.global, n)

variable {P : Project} {output : Tmp} {S : List Detector}

/-- A run on the logs of `S` that iterates in the order of a run on all logs. -/
structure SameOrder (S : List Detector) {all subset : Tmp} (run : Run P all)
    (sub : Run P subset) : Prop where
  files : sub.files = run.files
  set : ∀ d, .finder d ∈ S → sub.set d = run.set d

/-- What is not in `S` has no records. -/
theorem set_eq_nil {sub : Run P (output.restrict S)} {d : Finder} (h : .finder d ∉ S) :
    sub.set d = [] := by
  apply List.eq_nil_iff_forall_not_mem.2
  intro r hr
  have hnone : output.restrict S (.finder d) = none := if_neg h
  have hr' := (sub.mem_set d r).1 hr
  rw [loaded, hnone] at hr'
  exact absurd hr' List.not_mem_nil

/-- The run on the logs of `S` that a run on all logs gives. -/
def Run.restrict (run : Run P output) (S : List Detector) : Run P (output.restrict S) where
  files := run.files
  files_perm := run.files_perm
  set d := if .finder d ∈ S then run.set d else []
  nodup d := by
    split
    · exact run.nodup d
    · exact List.nodup_nil
  mem_set d r := by
    by_cases h : .finder d ∈ S
    · have hsome : output.restrict S (.finder d) = output (.finder d) := if_pos h
      rw [if_pos h, run.mem_set, loaded, loaded, hsome]
    · have hnone : output.restrict S (.finder d) = none := if_neg h
      rw [if_neg h, loaded, hnone]

theorem sameOrder_restrict (run : Run P output) (S : List Detector) :
    SameOrder S run (run.restrict S) := ⟨rfl, fun _ h => if_pos h⟩

/-- A section contributes what it contributes to the full report, or nothing. -/
theorem note_restrict {run : Run P output} {sub : Run P (output.restrict S)}
    (h : SameOrder S run sub) (file : SourceFile) (func : Func) (s : Section) :
    s.note sub file func = if s.detector ∈ S then s.note run file func else [] := by
  by_cases hs : s.detector ∈ S
  · rw [if_pos hs]
    refine Section.note_congr (fun d hd => ?_) fun hd => if_pos (hd ▸ hs)
    rw [Run.accepted, h.set d (hd ▸ hs), Run.accepted]
  · rw [if_neg hs]
    refine Section.note_eq_nil (fun d hd => ?_) fun hd => if_neg (hd ▸ hs)
    rw [Run.accepted, set_eq_nil (hd ▸ hs), List.filter_nil]

theorem funcNotes_restrict {run : Run P output} {sub : Run P (output.restrict S)}
    (h : SameOrder S run sub) (file : SourceFile) (func : Func) :
    funcNotes sub file func = (funcNotes run file func).filter fun n => n.detector ∈ S := by
  unfold funcNotes
  rw [List.filter_filterMap]
  apply List.filterMap_congr
  intro s _
  simp only [note_restrict h]
  by_cases hn : s.note run file func = []
  · simp [hn]
  · by_cases hs : s.detector ∈ S
    · simp [hs, hn, Option.filter]
    · simp [hs, hn, Option.filter]

theorem flatMap_filterMap {α β γ : Type} (f : α → Option β) (g : β → List γ) (l : List α) :
    (l.filterMap f).flatMap g = l.flatMap fun a => (f a).elim [] g := by
  induction l with
  | nil => rfl
  | cons a l ih =>
    rw [List.filterMap_cons, List.flatMap_cons, ← ih]
    cases f a with
    | none => rfl
    | some b => rfl

/-- The notes of the rows, function by function. -/
theorem rows_statements {tmp : Tmp} (run : Run P tmp) :
    ((audit run).rows.flatMap fun row => row.notes.map fun n => (Place.row row.file row.func, n))
      = run.files.flatMap fun file =>
        if contains (P.path file) (lit "/src/" rfl) then
          file.results.flatMap fun func =>
            if contains func.macros (lit "test" rfl) then []
            else (funcNotes run file func).map fun n => (Place.row file func, n)
        else [] := by
  show ((run.files.flatMap (reportRows run)).flatMap _) = _
  rw [List.flatMap_assoc]
  congr 1
  funext file
  rw [reportRows]
  split
  · rw [flatMap_filterMap]
    congr 1
    funext func
    rw [reportRow]
    split
    · rfl
    · by_cases hn : funcNotes run file func = []
      · simp [hn]
      · simp [hn]
  · rfl

theorem rows_statements_restrict {run : Run P output} {sub : Run P (output.restrict S)}
    (h : SameOrder S run sub) :
    ((audit sub).rows.flatMap fun row => row.notes.map fun n => (Place.row row.file row.func, n))
      = ((audit run).rows.flatMap fun row =>
          row.notes.map fun n => (Place.row row.file row.func, n)).filter
        fun e => e.2.detector ∈ S := by
  rw [rows_statements, rows_statements, h.files, List.filter_flatMap]
  congr 1
  funext file
  split
  · rw [List.filter_flatMap]
    congr 1
    funext func
    split
    · rfl
    · rw [funcNotes_restrict h, List.filter_map]
      rfl
  · rfl

/-- The notes on the collections and the interfaces are those of the detectors
that have run. -/
theorem dupNotes_restrict (output : Tmp) (S : List Detector) :
    dupNotes (output.restrict S) = (dupNotes output).filter fun n => n.detector ∈ S := by
  unfold dupNotes
  by_cases hS : Detector.dupCollectionId ∈ S
  · have hlog : uniqueCollectionIdLog (output.restrict S) = uniqueCollectionIdLog output := by
      rw [uniqueCollectionIdLog,
        show output.restrict S .dupCollectionId = output .dupCollectionId from if_pos hS]
      rfl
    rw [hlog]
    by_cases hnil : uniqueCollectionIdLog output = []
    · rw [if_pos hnil, List.filter_nil]
    · rw [if_neg hnil, List.filter_singleton, decide_eq_true hS]
      rfl
  · have hlog : uniqueCollectionIdLog (output.restrict S) = [] := by
      rw [uniqueCollectionIdLog, show output.restrict S .dupCollectionId = none from if_neg hS]
    rw [if_pos hlog]
    by_cases hnil : uniqueCollectionIdLog output = []
    · rw [if_pos hnil, List.filter_nil]
    · rw [if_neg hnil, List.filter_singleton, decide_eq_false hS]
      rfl

theorem interfaceNotes_restrict (output : Tmp) (S : List Detector) :
    interfaceNotes (output.restrict S)
      = (interfaceNotes output).filter fun n => n.detector ∈ S := by
  unfold interfaceNotes
  rw [List.filter_flatMap]
  congr 1
  funext n
  by_cases hS : Detector.nepInterface n ∈ S
  · rw [show output.restrict S (.nepInterface n) = output (.nepInterface n) from if_pos hS]
    cases output (.nepInterface n) with
    | none => rfl
    | some text =>
      refine (List.filter_eq_self.2 fun m hm => ?_).symm
      obtain ⟨name, -, rfl⟩ := List.mem_map.1 hm
      exact decide_eq_true hS
  · rw [show output.restrict S (.nepInterface n) = none from if_neg hS]
    cases output (.nepInterface n) with
    | none => rfl
    | some text =>
      refine (List.filter_eq_nil_iff.2 fun m hm => ?_).symm
      obtain ⟨name, -, rfl⟩ := List.mem_map.1 hm
      exact fun h => hS (of_decide_eq_true h)

theorem upgradeNotes_detector {tmp : Tmp} {run : Run P tmp} {n : Note} (h : n ∈ upgradeNotes run) :
    n.detector = .finder .upgradeFunc := by
  unfold upgradeNotes at h
  split at h
  · rw [List.mem_singleton.1 h]
  · exact absurd h List.not_mem_nil

/-- With `upgrade-func` among the selected, a selection has exactly its notes. -/
theorem statements_restrict {run : Run P output} {sub : Run P (output.restrict S)}
    (h : SameOrder S run sub) (hup : .finder .upgradeFunc ∈ S) :
    (audit sub).statements = (audit run).statements.filter fun e => e.2.detector ∈ S := by
  have hupgrade : upgradeNotes sub = (upgradeNotes run).filter fun n => n.detector ∈ S := by
    have hall : (upgradeNotes run).filter (fun n => n.detector ∈ S) = upgradeNotes run :=
      List.filter_eq_self.2 fun n hn => decide_eq_true (upgradeNotes_detector hn ▸ hup)
    rw [hall, upgradeNotes, h.set _ hup, upgradeNotes]
  have hglobal : (audit sub).upgrade ++ (audit sub).dup ++ (audit sub).interfaces
      = ((audit run).upgrade ++ (audit run).dup ++ (audit run).interfaces).filter
        fun n => n.detector ∈ S := by
    rw [List.filter_append, List.filter_append]
    show upgradeNotes sub ++ dupNotes _ ++ interfaceNotes _ = _
    rw [hupgrade, dupNotes_restrict, interfaceNotes_restrict]
    rfl
  unfold Report.statements
  rw [rows_statements_restrict h, hglobal]
  generalize (audit run).upgrade ++ (audit run).dup ++ (audit run).interfaces = notes
  rw [List.filter_append, List.filter_map]
  rfl

/-- Without it, the report says that there is no upgrade function. -/
theorem upgrade_statement (sub : Run P (output.restrict S)) (hup : .finder .upgradeFunc ∉ S) :
    (Place.global, (⟨.finder .upgradeFunc, .low, lit "No upgrade function found; " rfl⟩ : Note))
      ∈ (audit sub).statements := by
  refine List.mem_append_right _ (List.mem_map_of_mem (List.mem_append_left _
    (List.mem_append_left _ ?_)))
  show _ ∈ upgradeNotes sub
  rw [upgradeNotes, if_pos (set_eq_nil hup)]
  exact List.mem_singleton_self _

/-- The notes of a report on some detectors are exactly those that these
detectors contribute to the report on all of them, if and only if no detector is
selected, in which case there is no report, or `upgrade-func` is among them. -/
theorem subset_exact_iff (P : Project) (output : Tmp) (S : List Detector) :
    (∀ all subset, rustle output Detector.all = some all → rustle output S = some subset →
      ∀ (run : Run P all) (sub : Run P subset), SameOrder S run sub →
        (audit sub).statements = (audit run).statements.filter fun e => e.2.detector ∈ S) ↔
    S = [] ∨ .finder .upgradeFunc ∈ S := by
  have hall : rustle output Detector.all = some output := by
    rw [rustle_eq, if_neg (by decide), restrict_all]
  refine ⟨fun h => ?_, fun h all subset ha hs run sub horder => ?_⟩
  · by_contra hno
    push Not at hno
    obtain ⟨hne, hup⟩ := hno
    have hsub : rustle output S = some (output.restrict S) := by rw [rustle_eq, if_neg hne]
    have heq := h _ _ hall hsub (Run.plain P output) _ (sameOrder_restrict _ S)
    have hmem := upgrade_statement ((Run.plain P output).restrict S) hup
    rw [heq] at hmem
    exact hup (of_decide_eq_true (List.mem_filter.1 hmem).2)
  · rw [hall] at ha
    obtain rfl := Option.some.inj ha
    rw [rustle_eq] at hs
    split at hs
    · cases hs
    · rename_i hne
      obtain rfl := Option.some.inj hs
      exact statements_restrict horder (h.resolve_left hne)

/-- What the detectors leave on a project that has an upgrade function. -/
def upgradeOutput : Tmp :=
  Function.update (fun _ => none) (.finder .upgradeFunc)
    (some (log [[lit "token::Contract::upgrade" rfl, lit "src/a.rs" rfl]]))

/-- With `timestamp` alone selected the report denies the upgrade function. -/
theorem timestamp_alone_denies_upgrade :
    ¬ ∀ all subset, rustle upgradeOutput Detector.all = some all →
      rustle upgradeOutput [.finder .timestamp] = some subset →
      ∀ (run : Run twoContracts all) (sub : Run twoContracts subset),
        SameOrder [.finder .timestamp] run sub →
        (audit sub).statements = (audit run).statements.filter
          fun e => e.2.detector ∈ [Detector.finder .timestamp] := by
  intro h
  let run : Run twoContracts upgradeOutput := Run.plain _ _
  have hall : rustle upgradeOutput Detector.all = some upgradeOutput := by
    rw [rustle_eq, if_neg (by decide), restrict_all]
  have heq := h _ _ hall (rustle_eq _ _) run _ (sameOrder_restrict run _)
  have hmem := upgrade_statement (run.restrict [.finder .timestamp]) (by decide)
  rw [heq] at hmem
  exact absurd (of_decide_eq_true (List.mem_filter.1 hmem).2) (by decide)

end Audit
