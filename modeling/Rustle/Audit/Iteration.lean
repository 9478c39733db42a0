import Rustle.Library.Concat
import Rustle.Audit.Coverage

/-!
# The order of iteration

The sets of findings and the set of files are iterated in an order that changes
from run to run.  What the summary says in every order is the same exactly when
nothing that is concatenated, and no first match, depends on it.

* `OrderFree` — nothing depends on the order.
* `AgreeBut` — runs that differ in the order of one set.
* `matrices_order_free_iff` — when all runs write the same summary.
-/

namespace Audit

open Text

variable {P : Project} {tmp : Tmp}

/-! ## What must not depend on the order -/

/-- The function has a row, unless it has no notes. -/
structure Analysed (P : Project) (file : SourceFile) (func : Func) : Prop extends
    Listed P file func where
  not_test : contains func.macros (lit "test" rfl) = false

/-- The section of `d` accepts a loaded record for the function. -/
structure Accepts (P : Project) (tmp : Tmp) (file : SourceFile) (func : Func) (d : Finder)
    (r : d.format.Record) : Prop where
  mem : r ∈ loaded tmp d
  accepts : d.accepts func (P.path file) r = true

/-- The file has a function with a note. -/
def Noted (P : Project) (tmp : Tmp) (file : SourceFile) : Prop :=
  ∃ func, Analysed P file func ∧
    ((∃ d, d ≠ .tautology ∧ d ≠ .incorrectJsonType ∧ ∃ r, Accepts P tmp file func d r) ∨
      (∃ r : NoteRecord, Accepts P tmp file func .incorrectJsonType r ∧ r.note ≠ []) ∨
      inconsistencyTexts file func ((tmp .inconsistency).getD []) ≠ [])

/-- The detectors whose sections precede that of `incorrect-json-type` in the
high column. -/
def earlierHigh : List Finder :=
  [.reentrancy, .unsafeMath, .selfTransfer, .unhandledPromise, .nonPrivateCallback]

/-- The note of `incorrect-json-type` would be the first in its column. -/
def Leads (P : Project) (tmp : Tmp) (file : SourceFile) (func : Func) : Prop :=
  ∀ d ∈ earlierHigh, ∀ r, ¬ Accepts P tmp file func d r

/-- Nothing that the summary says depends on the order of iteration. -/
structure OrderFree (P : Project) (tmp : Tmp) : Prop where
  /-- Only one file has notes. -/
  files : ∀ f g, Noted P tmp f → Noted P tmp g → f = g
  /-- A listed line is the only one in its list. -/
  lines : ∀ file func, Analysed P file func → ∀ d column label line,
    Section.lines d column label line ∈ sections → ∀ r r', Accepts P tmp file func d r →
    Accepts P tmp file func d r' → line r = line r'
  /-- The calls of a function can be listed in any order. -/
  calls : ∀ file func, Analysed P file func → ∀ r r' : CallRecord,
    Accepts P tmp file func .unusedRet r → Accepts P tmp file func .unusedRet r' →
    callToken r.2 ++ callToken r'.2 = callToken r'.2 ++ callToken r.2
  /-- The notes on the types of a function are the same, up to white space that is
  stripped. -/
  notes : ∀ file func, Analysed P file func → ∀ r r' : NoteRecord,
    Accepts P tmp file func .incorrectJsonType r → Accepts P tmp file func .incorrectJsonType r' →
    lstrip r.note = lstrip r'.note ∧ (Leads P tmp file func ∨ r.note = r'.note)

/-! ## Rows one by one -/

/-- The functions that the loop over the files comes to. -/
def analysedFuncs (P : Project) (files : List SourceFile) : List (SourceFile × Func) :=
  files.flatMap fun file =>
    if contains (P.path file) (lit "/src/" rfl) then file.results.map fun func => (file, func)
    else []

theorem jsonMatrix_eq (run : Run P tmp) :
    jsonMatrix run = (analysedFuncs P run.files).filterMap fun p => funcRow run p.1 p.2 := by
  rw [jsonMatrix, analysedFuncs, List.filterMap_flatMap]
  congr 1
  funext file
  rw [fileRows]
  split
  · rw [List.filterMap_map]
    rfl
  · rfl

theorem mem_analysedFuncs_iff {run : Run P tmp} {file : SourceFile} {func : Func} :
    (file, func) ∈ analysedFuncs P run.files ↔ Listed P file func := by
  rw [analysedFuncs, List.mem_flatMap]
  refine ⟨?_, fun h => ⟨file, run.files_perm.mem_iff.2 h.file_mem, ?_⟩⟩
  · rintro ⟨file', hfile, hmem⟩
    split at hmem
    · rename_i hsrc
      obtain ⟨func', hfunc, heq⟩ := List.mem_map.1 hmem
      obtain ⟨rfl, rfl⟩ := Prod.mk.inj heq
      exact ⟨run.files_perm.mem_iff.1 hfile, hsrc, hfunc⟩
    · exact absurd hmem List.not_mem_nil
  · rw [if_pos h.under_src]
    exact List.mem_map_of_mem h.func_mem

theorem mem_accepted_iff {run : Run P tmp} {file : SourceFile} {func : Func} {d : Finder}
    {r : d.format.Record} : r ∈ run.accepted file func d ↔ Accepts P tmp file func d r := by
  rw [Run.accepted, List.mem_filter, run.mem_set]
  exact ⟨fun h => ⟨h.1, h.2⟩, fun h => ⟨h.mem, h.accepts⟩⟩

/-- A function has a row exactly when it is no test and has a note. -/
theorem isSome_funcRow_iff {run : Run P tmp} {file : SourceFile} {func : Func} :
    (funcRow run file func).isSome = true ↔ contains func.macros (lit "test" rfl) = false ∧
      ∃ s ∈ sections, s.note run file func ≠ [] := by
  rw [funcRow_eq, Option.isSome_map, reportRow]
  split
  · rename_i h
    simp [h]
  · rename_i h
    rw [Bool.not_eq_true] at h
    split
    · rename_i hnil
      refine iff_of_false Bool.false_ne_true ?_
      rintro ⟨_, s, hs, hne⟩
      exact List.ne_nil_of_mem (mem_funcNotes.2 ⟨s, hs, hne, rfl⟩) hnil
    · rename_i hne
      obtain ⟨n, rest, hn⟩ := List.exists_cons_of_ne_nil hne
      obtain ⟨s, hs, hsn, -⟩ := mem_funcNotes.1 (hn ▸ List.mem_cons_self ..)
      exact iff_of_true rfl ⟨h, s, hs, hsn⟩

theorem eq_of_funcRow_eq_some {run : Run P tmp} {file : SourceFile} {func : Func}
    {row : List Str} (h : funcRow run file func = some row) :
    row = [relPath P (P.path file), func.name, strip (noteColumns run file func .high),
      strip (noteColumns run file func .medium), strip (noteColumns run file func .low),
      strip (noteColumns run file func .info)] := by
  unfold funcRow at h
  split at h
  · cases h
  · simp only at h
    split at h
    · exact (Option.some.inj h).symm
    · cases h

/-- The columns of two runs with the same row are the same, once stripped. -/
theorem strip_eq_of_funcRow_eq {run run' : Run P tmp} {file : SourceFile} {func : Func}
    (h : funcRow run file func = funcRow run' file func)
    (hrow : (funcRow run file func).isSome = true) (c : Severity) :
    strip (noteColumns run file func c) = strip (noteColumns run' file func c) := by
  obtain ⟨row, hr⟩ := Option.isSome_iff_exists.1 hrow
  have heq := (eq_of_funcRow_eq_some hr).symm.trans (eq_of_funcRow_eq_some (h ▸ hr))
  simp only [List.cons.injEq, true_and, and_true] at heq
  cases c with
  | high => exact heq.1
  | medium => exact heq.2.1
  | low => exact heq.2.2.1
  | info => exact heq.2.2.2

/-- Runs with the same columns, once stripped, have the same row. -/
theorem funcRow_eq_of_strip_eq {run run' : Run P tmp} {file : SourceFile} {func : Func}
    (h : ∀ c, strip (noteColumns run file func c) = strip (noteColumns run' file func c)) :
    funcRow run file func = funcRow run' file func := by
  unfold funcRow
  simp only [h]

/-! ## Runs that differ in one set -/

/-- The runs differ at most in the order of the set of `d`. -/
structure AgreeBut (d : Finder) (run run' : Run P tmp) : Prop where
  files : run.files = run'.files
  set : ∀ d', d' ≠ d → run.set d' = run'.set d'

theorem agreeBut_reorder (run : Run P tmp) (d : Finder) {order order' : List d.format.Record}
    (h : order.Perm (run.set d)) (h' : order'.Perm (run.set d)) :
    AgreeBut d (run.reorder d order h) (run.reorder d order' h') where
  files := rfl
  set d' hd := by
    show Function.update run.set d order d' = Function.update run.set d order' d'
    rw [Function.update_of_ne hd, Function.update_of_ne hd]

theorem reorder_set (run : Run P tmp) (d : Finder) {order : List d.format.Record}
    (h : order.Perm (run.set d)) : (run.reorder d order h).set d = order :=
  Function.update_self ..

/-- The sections of other detectors contribute the same. -/
theorem AgreeBut.note_eq {d : Finder} {run run' : Run P tmp} (h : AgreeBut d run run')
    {file : SourceFile} {func : Func} {s : Section} (hs : s.detector ≠ .finder d) :
    s.note run file func = s.note run' file func := by
  refine Section.note_congr (fun d' hd' => ?_) fun _ => rfl
  rw [Run.accepted, h.set d' fun heq => hs (heq ▸ hd'), Run.accepted]

/-- Except for `incorrect-json-type`, whether a section contributes anything is
the same in every run. -/
theorem note_ne_nil_congr {run run' : Run P tmp} {file : SourceFile} {func : Func} {s : Section}
    (hs : s ∈ sections) (hj : s.detector ≠ .finder .incorrectJsonType) :
    s.note run file func ≠ [] ↔ s.note run' file func ≠ [] := by
  cases hd : s.detector with
  | finder d =>
    have hdj : d ≠ .incorrectJsonType := fun h => hj (h ▸ hd)
    rw [note_ne_nil_iff hs hd, note_ne_nil_iff hs hd, accepted_ne_nil_iff, accepted_ne_nil_iff]
    exact and_congr_right fun _ => ⟨fun _ h => absurd h hdj, fun _ h => absurd h hdj⟩
  | inconsistency =>
    have hsame : s.note run file func = s.note run' file func :=
      Section.note_congr (fun d h => absurd (hd.symm.trans h) (by simp)) fun _ => rfl
    rw [hsame]
  | dupCollectionId => cases s <;> cases hd
  | nepInterface n => cases s <;> cases hd

/-- A section in its column: what stands before and behind it is due to other
detectors. -/
theorem exists_column_split {s : Section} (hs : s ∈ sections) :
    ∃ before after, (sections.filter fun t => t.column = s.column) = before ++ s :: after ∧
      ∀ t ∈ before ++ after, t.detector ≠ s.detector := by
  have hmem : s ∈ sections.filter fun t => t.column = s.column :=
    List.mem_filter.2 ⟨hs, decide_eq_true rfl⟩
  obtain ⟨before, after, heq⟩ := List.append_of_mem hmem
  have hnodup : ((before ++ s :: after).map Section.detector).Nodup := by
    rw [← heq]
    exact (List.filter_sublist.map _).nodup sections_nodup
  refine ⟨before, after, heq, fun t ht htd => ?_⟩
  rw [List.map_append, List.map_cons, List.nodup_middle, List.nodup_cons, ← List.map_append,
    List.mem_map] at hnodup
  exact hnodup.1 ⟨t, ht, htd⟩

/-- In runs that differ in the order of one set, a column differs in the
contribution of one section. -/
theorem AgreeBut.column_eq {d : Finder} {run run' : Run P tmp} (h : AgreeBut d run run')
    (file : SourceFile) (func : Func) {s : Section} (hs : s ∈ sections)
    (hd : s.detector = .finder d) :
    ∃ before after : Str,
      noteColumns run file func s.column = before ++ s.note run file func ++ after ∧
      noteColumns run' file func s.column = before ++ s.note run' file func ++ after := by
  obtain ⟨before, after, heq, hother⟩ := exists_column_split hs
  have hcongr : ∀ ss : List Section, (∀ t ∈ ss, t ∈ before ++ after) →
      (ss.map (Section.note run' file func)).flatten =
        (ss.map (Section.note run file func)).flatten := by
    intro ss hss
    refine congrArg List.flatten (List.map_congr_left fun t ht => ?_)
    exact (h.note_eq (hd ▸ hother t (hss t ht))).symm
  refine ⟨(before.map (Section.note run file func)).flatten,
    (after.map (Section.note run file func)).flatten, ?_, ?_⟩
  · rw [noteColumns_sections, heq]
    simp
  · rw [noteColumns_sections, heq, ← hcongr before fun t ht => List.mem_append_left _ ht,
      ← hcongr after fun t ht => List.mem_append_right _ ht]
    simp

/-! ## Lists of tokens -/

/-- A token ends with one blank. -/
def IsToken (t : Str) : Prop := ∃ u c, isSpace c = false ∧ t = u ++ [c, ' ']

theorem isToken_lineToken (line : Int) : IsToken (lineToken line) := by
  obtain ⟨u, c, hc⟩ : ∃ u c, intStr line = u ++ [c] := by
    have hne : intStr line ≠ [] := by
      cases line with
      | ofNat n => exact decimal_ne_nil n
      | negSucc n => exact List.cons_ne_nil _ _
    exact ⟨_, _, (List.dropLast_concat_getLast hne).symm⟩
  refine ⟨'L' :: u, c, isSpace_of_mem_intStr (n := line) (by rw [hc]; simp), ?_⟩
  rw [lineToken, hc]
  simp

theorem isToken_callToken (call : Str × Str) : IsToken (callToken call) :=
  ⟨call.2 ++ lit "(L" rfl ++ call.1, ')', by decide, by simp [callToken, lit]⟩

theorem isToken_flatten {tokens : List Str} (hne : tokens ≠ []) (h : ∀ t ∈ tokens, IsToken t) :
    IsToken tokens.flatten := by
  obtain ⟨init, t, rfl⟩ := (List.eq_nil_or_concat tokens).resolve_left hne
  obtain ⟨u, c, hc, rfl⟩ := h t (by simp)
  exact ⟨init.flatten ++ u, c, hc, by simp⟩

/-- What stands between two solid characters can be read off a stripped text. -/
theorem strip_middle_cancel {p m m' w s : Str} {c d : Char} (hc : isSpace c = false)
    (hd : isSpace d = false)
    (h : strip (p ++ (c :: m ++ d :: w) ++ s) = strip (p ++ (c :: m' ++ d :: w) ++ s)) :
    m = m' := by
  have hform : ∀ x : Str, strip (p ++ (c :: x ++ d :: w) ++ s)
      = lstrip p ++ c :: (x ++ d :: rstrip (w ++ s)) := by
    intro x
    rw [show p ++ (c :: x ++ d :: w) ++ s = p ++ c :: (x ++ d :: (w ++ s)) by simp,
      strip_append_solid _ _ hc, rstrip_append_solid _ _ hd]
  rw [hform, hform] at h
  exact List.append_cancel_right (List.cons.inj (List.append_cancel_left h)).2

/-- The tokens of a list can be read off its column. -/
theorem listText_cancel {before after opening closing : Str} {tokens tokens' : List Str} {o : Char}
    {k : Str} (ho : isSpace o = false) (hne : tokens ≠ []) (hne' : tokens' ≠ [])
    (ht : ∀ t ∈ tokens, IsToken t) (ht' : ∀ t ∈ tokens', IsToken t)
    (hopen : opening.head? = some o) (hclose : closing = k ++ [';', ' '])
    (h : strip (before ++ listText opening tokens closing ++ after)
      = strip (before ++ listText opening tokens' closing ++ after)) :
    tokens.flatten = tokens'.flatten := by
  obtain ⟨os, rfl⟩ : ∃ os, opening = o :: os := List.head?_eq_some_iff.1 hopen
  have hform : ∀ ts : List Str, ts ≠ [] → (∀ t ∈ ts, IsToken t) →
      ∃ u, ts.flatten = u ++ [' '] ∧
        listText (o :: os) ts closing = o :: (os ++ u ++ k) ++ ';' :: [' '] := by
    intro ts hne ht
    obtain ⟨u, c, hc, hu⟩ := isToken_flatten hne ht
    refine ⟨u ++ [c], by rw [hu]; simp, ?_⟩
    rw [listText, if_neg hne, hu, hclose,
      show o :: os ++ (u ++ [c, ' ']) = (o :: os ++ u) ++ c :: [' '] by simp,
      rstrip_append_solid _ _ hc, show rstrip [' '] = [] from rfl]
    simp
  obtain ⟨u, hu, htext⟩ := hform tokens hne ht
  obtain ⟨u', hu', htext'⟩ := hform tokens' hne' ht'
  rw [htext, htext'] at h
  have hm := strip_middle_cancel ho (by decide) h
  rw [hu, hu', List.append_cancel_left (List.append_cancel_right hm)]

/-! ## What equal summaries say -/

/-- All runs write the same rows. -/
def SameRows (P : Project) (tmp : Tmp) : Prop :=
  ∀ run run' : Run P tmp, jsonMatrix run = jsonMatrix run'

/-- With the files in the same order equal summaries are equal row by row, if
one run has rows wherever the other one has. -/
theorem SameRows.funcRow_eq (hall : SameRows P tmp) {run run' : Run P tmp}
    (hfiles : run.files = run'.files)
    (hmono : ∀ file func, (funcRow run file func).isSome = true →
      (funcRow run' file func).isSome = true) {file : SourceFile} {func : Func}
    (hlist : Listed P file func) : funcRow run file func = funcRow run' file func := by
  have h := hall run run'
  rw [jsonMatrix_eq, jsonMatrix_eq, ← hfiles] at h
  exact Concat.filterMap_eq_pointwise (fun p _ => hmono p.1 p.2) h (file, func)
    (mem_analysedFuncs_iff.2 hlist)

/-- A row stays a row, if the note on types stays. -/
theorem isSome_funcRow_mono {run run' : Run P tmp} {file : SourceFile} {func : Func}
    (hj : jsonSection.note run file func ≠ [] → jsonSection.note run' file func ≠ [])
    (h : (funcRow run file func).isSome = true) : (funcRow run' file func).isSome = true := by
  obtain ⟨htest, s, hs, hne⟩ := isSome_funcRow_iff.1 h
  refine isSome_funcRow_iff.2 ⟨htest, ?_⟩
  by_cases hd : s.detector = .finder .incorrectJsonType
  · obtain rfl := section_unique hs jsonSection_mem hd
    exact ⟨_, hs, hj hne⟩
  · exact ⟨s, hs, (note_ne_nil_congr hs hd).1 hne⟩

/-- If all summaries are equal, the tokens that a section lists commute. -/
theorem SameRows.tokens_commute (hall : SameRows P tmp) {file : SourceFile} {func : Func}
    (hA : Analysed P file func) {s : Section} (hs : s ∈ sections) {d : Finder}
    (hd : s.detector = .finder d) (hj : d ≠ .incorrectJsonType) {opening closing k : Str} {o : Char}
    {token : d.format.Record → Str} (htoken : ∀ r, IsToken (token r)) (ho : isSpace o = false)
    (hopen : opening.head? = some o) (hclose : closing = k ++ [';', ' '])
    (hnote : ∀ run : Run P tmp, s.note run file func
      = listText opening ((run.accepted file func d).map token) closing)
    {r r' : d.format.Record} (hr : Accepts P tmp file func d r)
    (hr' : Accepts P tmp file func d r') : token r ++ token r' = token r' ++ token r := by
  by_cases hrr : r = r'
  · rw [hrr]
  · let plain := Run.plain P tmp
    obtain ⟨rest, hrest⟩ := Concat.perm_cons_cons_of_mem ((plain.mem_set d r).2 hr.mem)
      ((plain.mem_set d r').2 hr'.mem) hrr
    have hswap : (r' :: r :: rest).Perm (plain.set d) :=
      (List.Perm.swap r r' rest).trans hrest.symm
    let run := plain.reorder d (r :: r' :: rest) hrest.symm
    let run' := plain.reorder d (r' :: r :: rest) hswap
    have hagree : AgreeBut d run run' := agreeBut_reorder plain d _ _
    let others := rest.filter (d.accepts func (P.path file))
    have hacc : run.accepted file func d = r :: r' :: others := by
      rw [Run.accepted, reorder_set, List.filter_cons_of_pos hr.accepts,
        List.filter_cons_of_pos hr'.accepts]
    have hacc' : run'.accepted file func d = r' :: r :: others := by
      rw [Run.accepted, reorder_set, List.filter_cons_of_pos hr'.accepts,
        List.filter_cons_of_pos hr.accepts]
    have hjson : ∀ file func, jsonSection.note run file func = jsonSection.note run' file func :=
      fun file func => hagree.note_eq fun h : Detector.finder .incorrectJsonType = .finder d =>
        hj (Detector.finder.inj h).symm
    -- the section lists something, so the function has a row in both runs
    have hrow : (funcRow run file func).isSome = true := by
      refine isSome_funcRow_iff.2 ⟨hA.not_test, s, hs, ?_⟩
      rw [hnote, hacc, ne_eq, listText_eq_nil_iff (by rw [hclose]; simp)]
      exact List.cons_ne_nil _ _
    have heq := hall.funcRow_eq hagree.files
      (fun file func => isSome_funcRow_mono fun hn => hjson file func ▸ hn) hA.toListed
    have hstrip := strip_eq_of_funcRow_eq heq hrow s.column
    obtain ⟨before, after, hcol, hcol'⟩ := hagree.column_eq file func hs hd
    rw [hcol, hcol', hnote, hnote, hacc, hacc'] at hstrip
    have htok : ∀ ts : List d.format.Record, ∀ t ∈ ts.map token, IsToken t := by
      intro ts t ht
      obtain ⟨x, -, rfl⟩ := List.mem_map.1 ht
      exact htoken x
    have hflat := listText_cancel ho (List.cons_ne_nil _ _) (List.cons_ne_nil _ _)
      (htok (r :: r' :: others)) (htok (r' :: r :: others)) hopen hclose hstrip
    simp only [List.map_cons, List.flatten_cons, ← List.append_assoc] at hflat
    exact List.append_cancel_right hflat

theorem lineToken_comm {a b : Int} (h : lineToken a ++ lineToken b = lineToken b ++ lineToken a) :
    a = b := by
  have hsolid : ∀ n : Int, ' ' ∉ 'L' :: intStr n := by
    intro n hc
    rcases List.mem_cons.1 hc with hc | hc
    · exact absurd hc (by decide)
    · exact absurd (isSpace_of_mem_intStr hc) (by decide)
  have hsplit : ∀ n m : Int, (lineToken n ++ lineToken m).splitOn ' '
      = ('L' :: intStr n) :: (lineToken m).splitOn ' ' := by
    intro n m
    rw [show lineToken n ++ lineToken m = ('L' :: intStr n) ++ ' ' :: lineToken m by
      simp [lineToken], List.splitOn_append_cons_self_of_not_mem (hsolid n)]
  have hs := congrArg (List.splitOn ' ') h
  rw [hsplit, hsplit] at hs
  exact intStr_injective (List.cons.inj (List.cons.inj hs).1).2

/-- Equal summaries list one line for each function. -/
theorem SameRows.lines_eq (hall : SameRows P tmp) {file : SourceFile} {func : Func}
    (hA : Analysed P file func) {d : Finder} {column : Severity} {label : Str}
    {line : d.format.Record → Int} (hs : Section.lines d column label line ∈ sections)
    {r r' : d.format.Record} (hr : Accepts P tmp file func d r)
    (hr' : Accepts P tmp file func d r') : line r = line r' := by
  have hj : d ≠ .incorrectJsonType := by
    intro h
    cases section_unique hs jsonSection_mem (congrArg Detector.finder h)
  have hwf : beginsSolid label = true := sections_wellFormed _ hs
  obtain ⟨o, rest, rfl⟩ : ∃ o rest, label = o :: rest := by
    cases label with
    | nil => cases hwf
    | cons o rest => exact ⟨o, rest, rfl⟩
  have hnote : ∀ run : Run P tmp, (Section.lines d column (o :: rest) line).note run file func
      = listText (o :: rest) ((run.accepted file func d).map fun r => lineToken (line r))
        (lit ">; " rfl) := by
    intro run
    show listText _ (((run.accepted file func d).map line).map lineToken) _ = _
    rw [List.map_map]
    rfl
  exact lineToken_comm (hall.tokens_commute hA hs rfl hj (fun r => isToken_lineToken (line r))
    (by simpa [beginsSolid] using hwf) rfl (show lit ">; " rfl = ['>'] ++ [';', ' '] from rfl)
    hnote hr hr')

theorem unusedRet_mem : Section.unusedRet ∈ sections := List.mem_of_getElem? (i := 18) rfl

/-- Equal summaries list calls that commute. -/
theorem SameRows.calls_commute (hall : SameRows P tmp) {file : SourceFile} {func : Func}
    (hA : Analysed P file func) {r r' : CallRecord} (hr : Accepts P tmp file func .unusedRet r)
    (hr' : Accepts P tmp file func .unusedRet r') :
    callToken r.2 ++ callToken r'.2 = callToken r'.2 ++ callToken r.2 := by
  have hnote : ∀ run : Run P tmp, Section.unusedRet.note run file func
      = listText (lit "call to <" rfl)
        ((run.accepted file func .unusedRet).map fun r : CallRecord => callToken r.2)
        (lit "> with unused return value; " rfl) := by
    intro run
    show listText _ (((run.accepted file func .unusedRet).map fun r : CallRecord => r.2).map
      callToken) _ = _
    exact congrArg (fun ts => listText _ ts _) (List.map_map ..)
  exact hall.tokens_commute hA unusedRet_mem rfl (by decide)
    (fun r : CallRecord => isToken_callToken r.2) (show isSpace 'c' = false by decide) rfl
    (show lit "> with unused return value; " rfl
      = lit "> with unused return value" rfl ++ [';', ' '] from rfl) hnote hr hr'

/-! ## The notes on types -/

/-- A text that does not end with white space is stripped at its head only. -/
theorem strip_of_rstrip {n : Str} (hn : rstrip n = n) : strip n = lstrip n := by
  rcases lstrip_eq_nil_or_cons n with h | ⟨c, t, h, hc⟩
  · rw [strip, h]
    rfl
  · obtain ⟨w, hw⟩ : lstrip n <:+ n := List.dropWhile_suffix _
    rw [h] at hw
    rw [← hw, rstrip_append_solid _ _ hc] at hn
    rw [strip, h]
    exact (rstrip_append_solid [] t hc).trans (List.append_cancel_left hn)

/-- Behind a blank a note can be read off, up to the white space after it. -/
theorem note_cancel {n n' A : Str} (hn : rstrip n = n) (hn' : rstrip n' = n')
    (hA : A = [] ∨ isPhrase A = true)
    (h : rstrip (' ' :: (n ++ A)) = rstrip (' ' :: (n' ++ A))) : n = n' := by
  rcases hA with rfl | hA
  · have hform : ∀ x : Str, rstrip x = x → x ≠ [] → rstrip (' ' :: x) = ' ' :: x := by
      intro x hx hne
      obtain ⟨y, c, rfl⟩ := (List.eq_nil_or_concat x).resolve_left hne
      have hc : isSpace c = false := by
        rw [rstrip, List.rdropWhile_eq_self_iff] at hx
        simpa using hx (by simp)
      rw [List.concat_eq_append]
      exact rstrip_append_solid (' ' :: y) [] hc
    rw [List.append_nil, List.append_nil] at h
    rcases eq_or_ne n [] with rfl | hne
    · rcases eq_or_ne n' [] with rfl | hne'
      · rfl
      · rw [hform n' hn' hne'] at h
        cases h
    · rcases eq_or_ne n' [] with rfl | hne'
      · rw [hform n hn hne] at h
        cases h
      · rw [hform n hn hne, hform n' hn' hne'] at h
        exact (List.cons.inj h).2
  · obtain ⟨c, m, hc, rfl⟩ := isPhrase_iff.1 hA
    have hform : ∀ x : Str, rstrip (' ' :: (x ++ (c :: m ++ [';', ' '])))
        = ' ' :: x ++ c :: rstrip (m ++ [';', ' ']) := fun x =>
      rstrip_append_solid (' ' :: x) (m ++ [';', ' ']) hc
    rw [hform, hform] at h
    exact (List.cons.inj (List.append_cancel_right h)).2

/-- The note between two phrases can be read off the stripped column, up to white
space at the head of the column. -/
theorem column_note_cancel {n n' B A : Str} (hn : rstrip n = n) (hn' : rstrip n' = n')
    (hB : B = [] ∨ isPhrase B = true) (hA : A = [] ∨ isPhrase A = true)
    (h : strip (B ++ n ++ A) = strip (B ++ n' ++ A)) :
    lstrip n = lstrip n' ∧ (B = [] ∨ n = n') := by
  rcases hB with rfl | hB
  · refine ⟨?_, Or.inl rfl⟩
    rw [List.nil_append, List.nil_append] at h
    rcases hA with rfl | hA
    · rwa [List.append_nil, List.append_nil, strip_of_rstrip hn, strip_of_rstrip hn'] at h
    · obtain ⟨c, m, hc, rfl⟩ := isPhrase_iff.1 hA
      have hform : ∀ x : Str, strip (x ++ (c :: m ++ [';', ' ']))
          = lstrip x ++ c :: rstrip (m ++ [';', ' ']) := fun x => strip_append_solid x _ hc
      rw [hform, hform] at h
      exact List.append_cancel_right h
  · obtain ⟨c, m, -, rfl⟩ := isPhrase_iff.1 hB
    have hform : ∀ x : Str, strip (c :: m ++ [';', ' '] ++ x ++ A)
        = lstrip (c :: m) ++ ';' :: rstrip (' ' :: (x ++ A)) := by
      intro x
      rw [show c :: m ++ [';', ' '] ++ x ++ A = (c :: m) ++ ';' :: (' ' :: (x ++ A)) by simp]
      exact strip_append_solid _ _ (by decide)
    rw [hform, hform] at h
    have heq := note_cancel hn hn' hA (List.cons.inj (List.append_cancel_left h)).2
    exact ⟨by rw [heq], Or.inr heq⟩

/-- Conversely the white space at the head of the column does not matter. -/
theorem column_note_congr {n n' A : Str} (hn : rstrip n = n) (hn' : rstrip n' = n')
    (hA : A = [] ∨ isPhrase A = true) (h : lstrip n = lstrip n') :
    strip (n ++ A) = strip (n' ++ A) := by
  rcases hA with rfl | hA
  · rw [List.append_nil, List.append_nil, strip_of_rstrip hn, strip_of_rstrip hn', h]
  · obtain ⟨c, m, hc, rfl⟩ := isPhrase_iff.1 hA
    have hform : ∀ x : Str, strip (x ++ (c :: m ++ [';', ' ']))
        = lstrip x ++ c :: rstrip (m ++ [';', ' ']) := fun x => strip_append_solid x _ hc
    rw [hform, hform, h]

/-- The sections before and behind that of the notes on types, in its column. -/
def highBefore : List Section := (sections.filter fun s => s.column = .high).take 5

def highAfter : List Section := (sections.filter fun s => s.column = .high).drop 6

theorem high_sections : (sections.filter fun s => s.column = .high)
    = highBefore ++ jsonSection :: highAfter := rfl

theorem highBefore_detectors :
    highBefore.map Section.detector = earlierHigh.map Detector.finder := rfl

theorem high_phrases (run : Run P tmp) (file : SourceFile) (func : Func) {ss : List Section}
    (hss : ∀ s ∈ ss, s ∈ sections ∧ s.detector ≠ .finder .incorrectJsonType) :
    (ss.map (Section.note run file func)).flatten = [] ∨
      isPhrase (ss.map (Section.note run file func)).flatten = true := by
  apply isPhrase_flatten
  intro t ht
  obtain ⟨s, hs, rfl⟩ := List.mem_map.1 ht
  exact Section.note_phrase (hss s hs).1 (hss s hs).2

theorem highBefore_sections : ∀ s ∈ highBefore,
    s ∈ sections ∧ s.detector ≠ .finder .incorrectJsonType := by
  intro s hs
  refine ⟨(List.mem_filter.1 (List.mem_of_mem_take hs)).1, fun h => ?_⟩
  have hmem : s.detector ∈ highBefore.map Section.detector := List.mem_map_of_mem hs
  rw [h, highBefore_detectors] at hmem
  exact absurd hmem (by decide)

theorem highAfter_sections : ∀ s ∈ highAfter,
    s ∈ sections ∧ s.detector ≠ .finder .incorrectJsonType := by
  intro s hs
  refine ⟨(List.mem_filter.1 (List.mem_of_mem_drop hs)).1, fun h => ?_⟩
  have hmem : s.detector ∈ highAfter.map Section.detector := List.mem_map_of_mem hs
  rw [h] at hmem
  exact absurd hmem (by decide)

/-- The note on types is the first of its column exactly when it leads. -/
theorem highBefore_nil_iff (run : Run P tmp) (file : SourceFile) (func : Func) :
    (highBefore.map (Section.note run file func)).flatten = [] ↔ Leads P tmp file func := by
  rw [List.flatten_eq_nil_iff]
  have hsec : ∀ s ∈ highBefore, ∀ d, s.detector = .finder d →
      (s.note run file func = [] ↔ ∀ r, ¬ Accepts P tmp file func d r) := by
    intro s hs d hd
    have hdj : d ≠ .incorrectJsonType := fun h => (highBefore_sections s hs).2 (h ▸ hd)
    have hiff : s.note run file func ≠ [] ↔ _ := note_ne_nil_iff (highBefore_sections s hs).1 hd
    rw [and_iff_left fun h => absurd h hdj, ne_eq, ne_eq, not_iff_not] at hiff
    rw [hiff, List.eq_nil_iff_forall_not_mem]
    exact forall_congr' fun r => not_congr mem_accepted_iff
  refine ⟨fun h d hd => ?_, fun h t ht => ?_⟩
  · have hmem : Detector.finder d ∈ highBefore.map Section.detector := by
      rw [highBefore_detectors]
      exact List.mem_map_of_mem hd
    obtain ⟨s, hs, hsd⟩ := List.mem_map.1 hmem
    exact (hsec s hs d hsd).1 (h _ (List.mem_map_of_mem hs))
  · obtain ⟨s, hs, rfl⟩ := List.mem_map.1 ht
    have hmem : s.detector ∈ earlierHigh.map Detector.finder := by
      rw [← highBefore_detectors]
      exact List.mem_map_of_mem hs
    obtain ⟨d, hd, hsd⟩ := List.mem_map.1 hmem
    exact (hsec s hs d hsd.symm).2 (h d hd)

theorem accepts_json_iff {func : Func} {path : Str} {r : NoteRecord} :
    Finder.incorrectJsonType.accepts func path r = true ↔ r.1 = func.joined :=
  match_rustle_iff path (some r.2.1)

/-- The section of a set that begins with `r` meets `r` first, or nothing has
changed for it. -/
theorem accepted_promote (run : Run P tmp) (d : Finder) {r : d.format.Record} (hr : r ∈ run.set d)
    (file : SourceFile) (func : Func) :
    ((run.promote d r hr).accepted file func d).head?
      = if d.accepts func (P.path file) r then some r else (run.accepted file func d).head? := by
  have hset : (run.promote d r hr).set d = r :: (run.set d).erase r := Function.update_self ..
  rw [Run.accepted, hset]
  split
  · rename_i h
    rw [List.filter_cons_of_pos h]
    rfl
  · rename_i h
    rw [List.filter_cons_of_neg h, ← List.erase_filter,
      List.erase_of_not_mem fun hm => h (List.mem_filter.1 hm).2]
    rfl

/-- What the section of the notes on types contributes in a run that begins with
the record `r`. -/
theorem jsonNote_promote (run : Run P tmp) {r : NoteRecord}
    (hr : r ∈ run.set .incorrectJsonType) (file : SourceFile) (func : Func) :
    jsonSection.note (run.promote .incorrectJsonType r hr) file func
      = if r.1 = func.joined then r.note else jsonSection.note run file func := by
  have hhead := accepted_promote run .incorrectJsonType hr file func
  show ((run.promote .incorrectJsonType r hr).accepted file func .incorrectJsonType).head?.elim []
    NoteRecord.note = _
  rw [hhead]
  by_cases h : r.1 = func.joined
  · rw [if_pos h, if_pos (accepts_json_iff.2 h)]
    rfl
  · rw [if_neg h, if_neg fun h' => h (accepts_json_iff.1 h')]
    rfl

/-- The high column around the note on types. -/
theorem high_column_eq (run : Run P tmp) (file : SourceFile) (func : Func) :
    noteColumns run file func .high
      = (highBefore.map (Section.note run file func)).flatten ++ jsonSection.note run file func
        ++ (highAfter.map (Section.note run file func)).flatten := by
  rw [noteColumns_sections, high_sections]
  simp

/-- In runs that differ in the order of the notes on types, the rest of the high
column is the same. -/
theorem AgreeBut.high_eq {run run' : Run P tmp} (h : AgreeBut .incorrectJsonType run run')
    (file : SourceFile) (func : Func) {ss : List Section}
    (hss : ∀ s ∈ ss, s ∈ sections ∧ s.detector ≠ .finder .incorrectJsonType) :
    ss.map (Section.note run' file func) = ss.map (Section.note run file func) :=
  List.map_congr_left fun s hs => (h.note_eq (hss s hs).2).symm

/-- Equal summaries take the note on types from any of the records. -/
theorem SameRows.notes_eq (hall : SameRows P tmp) {file : SourceFile} {func : Func}
    (hA : Analysed P file func) {r r' : NoteRecord}
    (hr : Accepts P tmp file func .incorrectJsonType r)
    (hr' : Accepts P tmp file func .incorrectJsonType r') :
    lstrip r.note = lstrip r'.note ∧ (Leads P tmp file func ∨ r.note = r'.note) := by
  let plain := Run.plain P tmp
  have hmem : r ∈ plain.set .incorrectJsonType := (plain.mem_set .incorrectJsonType r).2 hr.mem
  have hmem' : r' ∈ plain.set .incorrectJsonType := (plain.mem_set .incorrectJsonType r').2 hr'.mem
  let run := plain.promote .incorrectJsonType r hmem
  let run' := plain.promote .incorrectJsonType r' hmem'
  have hagree : AgreeBut .incorrectJsonType run run' := agreeBut_reorder plain _ _ _
  have hj := accepts_json_iff.1 hr.accepts
  have hj' := accepts_json_iff.1 hr'.accepts
  have hnote : ∀ file g, jsonSection.note run file g
      = if r.1 = g.joined then r.note else jsonSection.note plain file g :=
    fun file g => jsonNote_promote plain hmem file g
  have hnote' : ∀ file g, jsonSection.note run' file g
      = if r.1 = g.joined then r'.note else jsonSection.note plain file g := by
    intro file g
    rw [show r.1 = r'.1 from hj.trans hj'.symm]
    exact jsonNote_promote plain hmem' file g
  -- one of the two runs has rows wherever the other one has
  have hrows : funcRow run file func = funcRow run' file func := by
    rcases eq_or_ne r.note [] with hnil | hne
    · refine hall.funcRow_eq hagree.files (fun f g => isSome_funcRow_mono fun hn => ?_) hA.toListed
      rw [hnote] at hn
      rw [hnote']
      split at hn
      · exact absurd hnil hn
      · rename_i hg
        rwa [if_neg hg]
    · refine (hall.funcRow_eq hagree.files.symm (fun f g => isSome_funcRow_mono fun hn => ?_)
        hA.toListed).symm
      rw [hnote'] at hn
      rw [hnote]
      split at hn
      · rename_i hg
        rwa [if_pos hg]
      · rename_i hg
        rwa [if_neg hg]
  by_cases hsome : (funcRow run file func).isSome = true
  · have hstrip := strip_eq_of_funcRow_eq hrows hsome .high
    rw [high_column_eq, high_column_eq, hagree.high_eq file func highBefore_sections,
      hagree.high_eq file func highAfter_sections, hnote, hnote', if_pos hj, if_pos hj] at hstrip
    have hcancel := column_note_cancel (loaded_note_rstrip hr.mem) (loaded_note_rstrip hr'.mem)
      (high_phrases run file func highBefore_sections)
      (high_phrases run file func highAfter_sections) hstrip
    exact ⟨hcancel.1, hcancel.2.imp_left (highBefore_nil_iff run file func).1⟩
  · -- no row at all: both notes are empty
    have hempty : ∀ run'' : Run P tmp, ¬ (funcRow run'' file func).isSome = true →
        jsonSection.note run'' file func = [] := by
      intro run'' hno
      by_contra hne
      exact hno (isSome_funcRow_iff.2 ⟨hA.not_test, _, jsonSection_mem, hne⟩)
    have hn := hempty run hsome
    have hn' := hempty run' (hrows ▸ hsome)
    rw [hnote, if_pos hj] at hn
    rw [hnote', if_pos hj] at hn'
    rw [hn, hn']
    exact ⟨rfl, Or.inr rfl⟩

/-! ## Files -/

theorem relPath_path (P : Project) (file : SourceFile) : relPath P (P.path file) = file.rel := by
  rw [relPath, Project.path, List.drop_left']
  · have hhead := file.rel_head
    cases hrel : file.rel with
    | nil => rfl
    | cons c rel =>
      rw [hrel] at hhead
      have hc : (c == '/') = false := by simpa using hhead
      simp [hc]
  · rfl

/-- Every row of a file begins with its path. -/
theorem head_of_mem_fileRows {run : Run P tmp} {file : SourceFile} {row : List Str}
    (h : row ∈ fileRows run file) : row.head? = some file.rel := by
  unfold fileRows at h
  split at h
  · obtain ⟨func, -, hrow⟩ := List.mem_filterMap.1 h
    rw [eq_of_funcRow_eq_some hrow, relPath_path]
    rfl
  · exact absurd h List.not_mem_nil

/-- A file with a note has rows in every run, if the notes on types agree. -/
theorem Noted.fileRows_ne_nil {file : SourceFile} (h : Noted P tmp file)
    (hnotes : ∀ func, Analysed P file func → ∀ r r' : NoteRecord,
      Accepts P tmp file func .incorrectJsonType r →
      Accepts P tmp file func .incorrectJsonType r' → lstrip r.note = lstrip r'.note)
    (run : Run P tmp) : fileRows run file ≠ [] := by
  obtain ⟨func, hA, hnote⟩ := h
  have hsome : ∃ s ∈ sections, s.note run file func ≠ [] := by
    rcases hnote with ⟨d, hd, hdj, r, hr⟩ | ⟨r, hr, hne⟩ | hne
    · obtain ⟨s, hs, hsd⟩ := exists_section hd
      exact ⟨s, hs, (note_ne_nil_iff hs hsd).2
        ⟨List.ne_nil_of_mem (mem_accepted_iff.2 hr), fun h => absurd h hdj⟩⟩
    · refine ⟨jsonSection, jsonSection_mem, (note_ne_nil_iff jsonSection_mem rfl).2
        ⟨List.ne_nil_of_mem (mem_accepted_iff.2 hr), fun _ r₀ hr₀ hnil => ?_⟩⟩
      have hl := hnotes func hA r₀ r (mem_accepted_iff.1 (List.mem_of_head? hr₀)) hr
      -- the first note would be empty, and the other one not even blank
      obtain ⟨c, hc, hsolid⟩ := loaded_note_visible hr.mem hne
      have hblank : strip r.note = [] := by rw [strip, ← hl, hnil]; rfl
      rw [strip_eq_nil_iff.1 hblank c hc] at hsolid
      exact Bool.noConfusion hsolid
    · exact ⟨.inconsistency, List.mem_of_getElem? (i := 26) rfl, hne⟩
  obtain ⟨row, hrow⟩ := Option.isSome_iff_exists.1 (isSome_funcRow_iff.2 ⟨hA.not_test, hsome⟩)
  rw [fileRows, if_pos hA.under_src]
  exact List.ne_nil_of_mem (List.mem_filterMap.2 ⟨func, hA.func_mem, hrow⟩)

theorem Noted.file_mem {file : SourceFile} (h : Noted P tmp file) : file ∈ getFiles P.files := by
  obtain ⟨func, hA, -⟩ := h
  exact hA.file_mem

/-- Files are told apart by their paths. -/
theorem file_eq_of_rel_eq {f g : SourceFile} (hf : f ∈ getFiles P.files)
    (hg : g ∈ getFiles P.files) (h : f.rel = g.rel) : f = g :=
  List.inj_on_of_nodup_map P.rel_nodup (List.mem_filter.1 hf).1 (List.mem_filter.1 hg).1 h

/-- Equal summaries have rows of one file. -/
theorem SameRows.files_eq (hall : SameRows P tmp) {f g : SourceFile} (hf : Noted P tmp f)
    (hg : Noted P tmp g) : f = g := by
  let run := Run.plain P tmp
  have hflat : ∀ files : List SourceFile, files.Perm (getFiles P.files) →
      files.flatMap (fileRows run) = (getFiles P.files).flatMap (fileRows run) :=
    fun files h => hall (run.withFiles files h) run
  have hcomm := Concat.forall_perm_flatMap_eq_iff.1 hflat f hf.file_mem g hg.file_mem
  obtain ⟨row, rows, hrow⟩ := List.exists_cons_of_ne_nil
    (hf.fileRows_ne_nil (fun func hA r r' hr hr' => (hall.notes_eq hA hr hr').1) run)
  obtain ⟨row', rows', hrow'⟩ := List.exists_cons_of_ne_nil
    (hg.fileRows_ne_nil (fun func hA r r' hr hr' => (hall.notes_eq hA hr hr').1) run)
  rw [hrow, hrow'] at hcomm
  have hhead : row = row' := (List.cons.inj hcomm).1
  refine file_eq_of_rel_eq hf.file_mem hg.file_mem (Option.some.inj ?_)
  rw [← head_of_mem_fileRows (hrow ▸ List.mem_cons_self ..), hhead,
    head_of_mem_fileRows (hrow' ▸ List.mem_cons_self ..)]

/-! ## What suffices for equal summaries -/

theorem accepted_perm (run run' : Run P tmp) (file : SourceFile) (func : Func) (d : Finder) :
    (run.accepted file func d).Perm (run'.accepted file func d) :=
  ((List.perm_ext_iff_of_nodup (run.nodup d) (run'.nodup d)).2 fun r =>
    (run.mem_set d r).trans (run'.mem_set d r).symm).filter _

/-- Lists of the same tokens in any order, if the tokens commute. -/
theorem listText_perm {α : Type} (opening closing : Str) (token : α → Str) {l l' : List α}
    (h : l.Perm l') (hc : ∀ a ∈ l, ∀ b ∈ l, token a ++ token b = token b ++ token a) :
    listText opening (l.map token) closing = listText opening (l'.map token) closing := by
  have hflat : (l.map token).flatten = (l'.map token).flatten := by
    rw [← List.flatMap_def, ← List.flatMap_def]
    exact Concat.flatMap_eq_of_perm h hc
  have hnil : l.map token = [] ↔ l'.map token = [] := by
    rw [List.map_eq_nil_iff, List.map_eq_nil_iff, ← List.length_eq_zero_iff, h.length_eq,
      List.length_eq_zero_iff]
  unfold listText
  rw [hflat]
  simp only [hnil]

/-- Every section but that of the notes on types contributes the same in every
run. -/
theorem OrderFree.note_eq (h : OrderFree P tmp) (run run' : Run P tmp) {file : SourceFile}
    {func : Func} (hA : Analysed P file func) {s : Section} (hs : s ∈ sections)
    (hj : s.detector ≠ .finder .incorrectJsonType) :
    s.note run file func = s.note run' file func := by
  have hwf := sections_wellFormed s hs
  cases s with
  | first d column text =>
    obtain ⟨phrase, -, htext⟩ := hwf fun h => hj (congrArg Detector.finder h)
    have hhead : ∀ l : List d.format.Record,
        l.head?.elim [] text = if l = [] then [] else phrase := by
      intro l
      cases l with
      | nil => rfl
      | cons r l => exact htext r
    show (run.accepted file func d).head?.elim [] text
      = (run'.accepted file func d).head?.elim [] text
    rw [hhead, hhead]
    simp only [← List.length_eq_zero_iff, (accepted_perm run run' file func d).length_eq]
  | lines d column label line =>
    have htoken := listText_perm label (lit ">; " rfl) (fun r => lineToken (line r))
      (accepted_perm run run' file func d) fun r hr r' hr' => by
        rw [h.lines file func hA d column label line hs r r' (mem_accepted_iff.1 hr)
          (mem_accepted_iff.1 hr')]
    show listText label (((run.accepted file func d).map line).map lineToken) _
      = listText label (((run'.accepted file func d).map line).map lineToken) _
    rw [List.map_map, List.map_map]
    exact htoken
  | unusedRet =>
    have htoken := listText_perm (lit "call to <" rfl) (lit "> with unused return value; " rfl)
      (fun r : CallRecord => callToken r.2) (accepted_perm run run' file func .unusedRet)
      fun r hr r' hr' => h.calls file func hA r r' (mem_accepted_iff.1 hr) (mem_accepted_iff.1 hr')
    have hform : ∀ l : List CallRecord, callsText (l.map fun r => r.2)
        = listText (lit "call to <" rfl) (l.map fun r : CallRecord => callToken r.2)
          (lit "> with unused return value; " rfl) := by
      intro l
      rw [callsText, List.map_map]
      rfl
    exact (hform _).trans (htoken.trans (hform _).symm)
  | inconsistency => rfl

/-- In two runs the note on types is the same, or that of two accepted records. -/
theorem jsonNote_cases (run run' : Run P tmp) (file : SourceFile) (func : Func) :
    jsonSection.note run file func = jsonSection.note run' file func ∨
      ∃ r r' : NoteRecord, Accepts P tmp file func .incorrectJsonType r ∧
        Accepts P tmp file func .incorrectJsonType r' ∧ jsonSection.note run file func = r.note ∧
        jsonSection.note run' file func = r'.note := by
  have hform : ∀ run : Run P tmp, jsonSection.note run file func
      = (run.accepted file func .incorrectJsonType).head?.elim [] NoteRecord.note := fun _ => rfl
  have hlen := (accepted_perm run run' file func .incorrectJsonType).length_eq
  rw [hform, hform]
  cases hacc : run.accepted file func .incorrectJsonType with
  | nil =>
    rw [hacc] at hlen
    rw [List.length_eq_zero_iff.1 hlen.symm]
    exact Or.inl rfl
  | cons r rest =>
    obtain ⟨r', rest', hacc'⟩ : ∃ r' rest', run'.accepted file func .incorrectJsonType
        = r' :: rest' := by
      rw [hacc] at hlen
      exact List.exists_cons_of_length_eq_add_one hlen.symm
    rw [hacc']
    exact Or.inr ⟨r, r', mem_accepted_iff.1 (hacc ▸ List.mem_cons_self ..),
      mem_accepted_iff.1 (hacc' ▸ List.mem_cons_self ..), rfl, rfl⟩

/-- Every column is the same in every run, once stripped. -/
theorem OrderFree.strip_eq (h : OrderFree P tmp) (run run' : Run P tmp) {file : SourceFile}
    {func : Func} (hA : Analysed P file func) (c : Severity) :
    strip (noteColumns run file func c) = strip (noteColumns run' file func c) := by
  by_cases hc : c = .high
  · subst hc
    have hother : ∀ ss : List Section,
        (∀ s ∈ ss, s ∈ sections ∧ s.detector ≠ .finder .incorrectJsonType) →
        ss.map (Section.note run file func) = ss.map (Section.note run' file func) :=
      fun ss hss => List.map_congr_left fun s hs => h.note_eq run run' hA (hss s hs).1 (hss s hs).2
    rw [high_column_eq, high_column_eq, hother _ highBefore_sections, hother _ highAfter_sections]
    rcases jsonNote_cases run run' file func with heq | ⟨r, r', hr, hr', hn, hn'⟩
    · rw [heq]
    · obtain ⟨hl, hlead⟩ := h.notes file func hA r r' hr hr'
      rw [hn, hn']
      rcases hlead with hlead | heq
      · rw [(highBefore_nil_iff run' file func).2 hlead, List.nil_append, List.nil_append]
        exact column_note_congr (loaded_note_rstrip hr.mem) (loaded_note_rstrip hr'.mem)
          (high_phrases run' file func highAfter_sections) hl
      · rw [heq]
  · rw [noteColumns_sections, noteColumns_sections]
    refine congrArg (fun ts => strip (List.flatten ts)) (List.map_congr_left fun s hs => ?_)
    obtain ⟨hs, hcol⟩ := List.mem_filter.1 hs
    refine h.note_eq run run' hA hs fun hd => hc ?_
    rw [← of_decide_eq_true hcol, section_unique hs jsonSection_mem hd]
    rfl

theorem OrderFree.funcRow_eq (h : OrderFree P tmp) (run run' : Run P tmp) {file : SourceFile}
    {func : Func} (hlist : Listed P file func) :
    funcRow run file func = funcRow run' file func := by
  by_cases htest : contains func.macros (lit "test" rfl) = true
  · rw [funcRow, funcRow, if_pos htest, if_pos htest]
  · exact funcRow_eq_of_strip_eq
      (h.strip_eq run run' ⟨hlist, Bool.eq_false_iff.2 htest⟩)

theorem OrderFree.fileRows_eq (h : OrderFree P tmp) (run run' : Run P tmp) {file : SourceFile}
    (hf : file ∈ getFiles P.files) : fileRows run file = fileRows run' file := by
  unfold fileRows
  split
  · rename_i hsrc
    exact List.filterMap_congr fun func hfunc => h.funcRow_eq run run' ⟨hf, hsrc, hfunc⟩
  · rfl

/-- A file with rows has a note. -/
theorem noted_of_fileRows_ne_nil {run : Run P tmp} {file : SourceFile}
    (hf : file ∈ getFiles P.files) (h : fileRows run file ≠ []) : Noted P tmp file := by
  obtain ⟨row, rest, hrow⟩ := List.exists_cons_of_ne_nil h
  have hmem : row ∈ fileRows run file := hrow ▸ List.mem_cons_self ..
  unfold fileRows at hmem
  split at hmem
  · rename_i hsrc
    obtain ⟨func, hfunc, hrow⟩ := List.mem_filterMap.1 hmem
    obtain ⟨htest, s, hs, hne⟩ := isSome_funcRow_iff.1 (Option.isSome_iff_exists.2 ⟨row, hrow⟩)
    refine ⟨func, ⟨⟨hf, hsrc, hfunc⟩, htest⟩, ?_⟩
    cases hd : s.detector with
    | finder d =>
      obtain ⟨hacc, hfirst⟩ := (note_ne_nil_iff hs hd).1 hne
      obtain ⟨r, rest, hr⟩ := List.exists_cons_of_ne_nil hacc
      have hr' : Accepts P tmp file func d r := mem_accepted_iff.1 (hr ▸ List.mem_cons_self ..)
      by_cases hj : d = .incorrectJsonType
      · subst hj
        exact Or.inr (Or.inl ⟨r, hr', hfirst rfl r (by rw [hr]; rfl)⟩)
      · refine Or.inl ⟨d, fun ht => ?_, hj, r, hr'⟩
        have hnone : Detector.finder .tautology ∉ sections.map Section.detector := by decide
        exact hnone (List.mem_map.2 ⟨s, hs, hd.trans (congrArg Detector.finder ht)⟩)
    | inconsistency =>
      have hinc : Section.inconsistency ∈ sections := List.mem_of_getElem? (i := 26) rfl
      obtain rfl := section_unique hs hinc hd
      exact Or.inr (Or.inr hne)
    | dupCollectionId => cases s <;> cases hd
    | nepInterface n => cases s <;> cases hd
  · exact absurd hmem List.not_mem_nil

theorem OrderFree.sameRows (h : OrderFree P tmp) : SameRows P tmp := by
  intro run run'
  have hcongr : jsonMatrix run' = run'.files.flatMap (fileRows run) :=
    List.flatMap_congr fun file hf =>
      (h.fileRows_eq run run' (run'.files_perm.mem_iff.1 hf)).symm
  rw [hcongr]
  refine Concat.flatMap_eq_of_perm (run.files_perm.trans run'.files_perm.symm) ?_
  intro f hf g hg
  have hf' := run.files_perm.mem_iff.1 hf
  have hg' := run.files_perm.mem_iff.1 hg
  rcases eq_or_ne (fileRows run f) [] with hnil | hne
  · rw [hnil, List.append_nil, List.nil_append]
  · rcases eq_or_ne (fileRows run g) [] with hnil | hne'
    · rw [hnil, List.append_nil, List.nil_append]
    · rw [h.files f g (noted_of_fileRows_ne_nil hf' hne) (noted_of_fileRows_ne_nil hg' hne')]

theorem SameRows.orderFree (h : SameRows P tmp) : OrderFree P tmp where
  files _ _ hf hg := h.files_eq hf hg
  lines _ _ hA _ _ _ _ hs _ _ hr hr' := h.lines_eq hA hs hr hr'
  calls _ _ hA _ _ hr hr' := h.calls_commute hA hr hr'
  notes _ _ hA _ _ hr hr' := h.notes_eq hA hr hr'

theorem globalRow_eq (run run' : Run P tmp) : globalRow run = globalRow run' := by
  have hlen : (run.set .upgradeFunc).length = (run'.set .upgradeFunc).length :=
    ((List.perm_ext_iff_of_nodup (run.nodup _) (run'.nodup _)).2 fun r =>
      (run.mem_set _ r).trans (run'.mem_set _ r).symm).length_eq
  rw [globalRow, globalRow, summaryLow, summaryLow, hlen]

/-- All runs write the same two matrices exactly when nothing that they hold
depends on the order of iteration. -/
theorem matrices_order_free_iff (P : Project) (tmp : Tmp) :
    (∀ run run' : Run P tmp,
      summaryMatrix run = summaryMatrix run' ∧ jsonMatrix run = jsonMatrix run') ↔
    OrderFree P tmp := by
  refine ⟨fun h => SameRows.orderFree fun run run' => (h run run').2, fun h run run' => ?_⟩
  have hjson := h.sameRows run run'
  rw [summaryMatrix, summaryMatrix, hjson, globalRow_eq run run']
  exact ⟨rfl, rfl⟩

/-- The lines of two transfers of one function. -/
def transferRecords : List LineRecord :=
  [(lit "token::Contract::on_done" rfl, lit "src/a.rs" rfl, 12),
   (lit "token::Contract::on_done" rfl, lit "src/a.rs" rfl, 30)]

def transferTmp : Tmp :=
  Function.update (fun _ => none) (.finder .transfer)
    (some (log (transferRecords.map LineRecord.fields)))

/-- `transfer at <L12 L30>` in one run, `transfer at <L30 L12>` in another. -/
theorem twoTransfers_order_dependent :
    ¬ ∀ run run' : Run twoContracts transferTmp,
      summaryMatrix run = summaryMatrix run' ∧ jsonMatrix run = jsonMatrix run' := by
  intro h
  have hall : SameRows twoContracts transferTmp := fun run run' => (h run run').2
  have hA : Analysed twoContracts aFile onDone :=
    ⟨⟨List.mem_filter.2 ⟨by simp [twoContracts], by decide +kernel⟩, by decide +kernel,
      List.mem_singleton_self _⟩, rfl⟩
  have hs : Section.lines .transfer .info (lit "transfer at <" rfl) LineRecord.line ∈ sections :=
    List.mem_of_getElem? (i := 2) rfl
  have hload : loadLines (log (transferRecords.map LineRecord.fields)) = transferRecords := by
    decide +kernel
  have hacc : ∀ r ∈ transferRecords, Accepts twoContracts transferTmp aFile onDone .transfer r := by
    intro r hr
    refine ⟨?_, ?_⟩
    · show r ∈ loadLines (log (transferRecords.map LineRecord.fields))
      rw [hload]
      exact hr
    · have hall : transferRecords.all (Finder.transfer.accepts onDone (twoContracts.path aFile))
          = true := by decide +kernel
      exact List.all_eq_true.1 hall r hr
  have hline : (12 : Int) = 30 := hall.lines_eq hA hs (hacc _ (List.mem_cons_self ..))
    (hacc _ (List.mem_cons_of_mem _ (List.mem_singleton_self _)))
  exact absurd hline (by decide)

end Audit
