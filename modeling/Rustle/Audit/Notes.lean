import Rustle.Audit.Report

/-!
# The summary as a report of notes

What the summary says, before it is printed: each row holds the notes of one
function, and each note belongs to a detector.

* `Section.note` — the text a section contributes; `append_eq` — a section
  appends it to its column, whatever the column holds.
* `funcNotes`, `Report`, `audit` — the report.
* `Report.print` — its printing; `summaryMatrix_eq` — it is the matrix that the
  source computes.
-/

namespace Audit

open Text

/-! ## What the loops append -/

/-- Behind a solid character `rstrip` leaves what precedes alone. -/
theorem rstrip_append_of_solid {a b : Str} {c : Char} (hc : isSpace c = false) (hb : c ∈ b) :
    rstrip (a ++ b) = a ++ rstrip b := by
  obtain ⟨s, t, rfl⟩ := List.append_of_mem hb
  rw [← List.append_assoc, rstrip_append_solid _ _ hc, rstrip_append_solid _ _ hc,
    List.append_assoc]

theorem firstLoop_eq {α : Type} (accept : α → Bool) (text : α → Str) (note : Str) (set : List α) :
    firstLoop accept text note set = note ++ (set.find? accept).elim [] text := by
  induction set with
  | nil => simp [firstLoop]
  | cons r rest ih =>
    rw [firstLoop, List.find?_cons]
    cases accept r with
    | true => rfl
    | false => exact ih

/-- A list of tokens between its opening and its closing, which takes the place
of the last blank; nothing, when there are no tokens. -/
def listText (opening : Str) (tokens : List Str) (closing : Str) : Str :=
  if tokens = [] then [] else rstrip (opening ++ tokens.flatten) ++ closing

/-- The list of some lines. -/
def linesText (label : Str) (ls : List Int) : Str :=
  listText label (ls.map lineToken) (lit ">; " rfl)

theorem linesLoop_true {α : Type} (accept : α → Bool) (label : Str) (line : α → Int) (note : Str)
    (set : List α) :
    linesLoop accept label line true note set
      = (true, note ++ (((set.filter accept).map line).map lineToken).flatten) := by
  induction set generalizing note with
  | nil => simp [linesLoop]
  | cons r rest ih =>
    rw [linesLoop, List.filter_cons]
    by_cases hr : accept r = true
    · rw [if_pos hr, if_pos hr, ih]
      simp
    · rw [if_neg hr, if_neg hr, ih]

theorem linesLoop_false {α : Type} (accept : α → Bool) (label : Str) (line : α → Int) (note : Str)
    (set : List α) :
    linesLoop accept label line false note set
      = if set.filter accept = [] then (false, note)
        else (true, note ++ (label ++ (((set.filter accept).map line).map lineToken).flatten)) := by
  induction set with
  | nil => simp [linesLoop]
  | cons r rest ih =>
    rw [linesLoop, List.filter_cons]
    by_cases hr : accept r = true
    · rw [if_pos hr, if_pos hr, linesLoop_true, if_neg (List.cons_ne_nil _ _)]
      simp
    · rw [if_neg hr, if_neg hr, ih]

theorem linesNote_eq {α : Type} (accept : α → Bool) (label : Str) (line : α → Int) (note : Str)
    (set : List α) :
    linesNote accept label line note set =
      note ++ linesText label ((set.filter accept).map line) := by
  rw [linesNote, linesLoop_false, linesText, listText]
  by_cases h : set.filter accept = []
  · simp [h]
  · obtain ⟨r, rs, hr⟩ := List.exists_cons_of_ne_nil h
    have hL : 'L' ∈ label ++ (((set.filter accept).map line).map lineToken).flatten := by
      simp [hr, lineToken]
    rw [if_neg h, if_neg (by simpa using h)]
    show rstrip (note ++ _) ++ _ = _
    rw [rstrip_append_of_solid (by decide) hL, List.append_assoc]

/-- The list of some calls. -/
def callsText (calls : List (Str × Str)) : Str :=
  listText (lit "call to <" rfl) (calls.map callToken) (lit "> with unused return value; " rfl)

theorem foldl_append {α : Type} (f : α → Str) (note : Str) (l : List α) :
    l.foldl (fun note a => note ++ f a) note = note ++ (l.map f).flatten := by
  induction l generalizing note with
  | nil => simp
  | cons a l ih => rw [List.foldl_cons, ih]; simp

/-- The name that a function has in the logs of the source-level detectors. -/
def Func.joined (func : Func) : Str :=
  func.struct ++ colons ++ func.struct_trait ++ colons ++ func.name

theorem match_rustle_iff {s : Str} {func : Func} (path : Str) (file : Option Str) :
    structFuncNameMatch s func.struct func.struct_trait func.name path file true = true
      ↔ s = func.joined := by
  rw [structFuncNameMatch, if_pos rfl, beq_iff_eq]
  exact eq_comm

theorem unusedRetLoop_eq (func : Func) (path note : Str) (dict : List (Str × List (Str × Str)))
    (hne : ∀ entry ∈ dict, entry.2 ≠ []) :
    unusedRetLoop func path note dict
      = note ++
        callsText (((dict.find? fun entry => entry.1 = func.joined).map (·.2)).getD []) := by
  induction dict with
  | nil => simp [unusedRetLoop, callsText, listText]
  | cons entry rest ih =>
    obtain ⟨caller, calls⟩ := entry
    rw [unusedRetLoop, List.find?_cons]
    by_cases hc : caller = func.joined
    · have hcalls : calls ≠ [] := hne (caller, calls) (List.mem_cons_self ..)
      rw [if_pos ((match_rustle_iff path none).2 hc), foldl_append, List.append_assoc,
        rstrip_append_of_solid (c := '<') (by decide) (by simp [lit])]
      simp [hc, callsText, listText, hcalls]
    · rw [if_neg fun h => hc ((match_rustle_iff path none).1 h)]
      simpa [hc] using ih fun e he => hne e (List.mem_cons_of_mem _ he)

/-- The texts of the occurrences of the inconsistent names in a function. -/
def inconsistencyTexts (file : SourceFile) (func : Func) (dict : List (Str × List Str)) : Str :=
  (dict.map fun entry => ((file.occurrences entry.1).map fun line =>
    if line2funcName line file.results ≠ func.name then []
    else inconsistencyText entry.1 line entry.2).flatten).flatten

theorem inconsistencyNote_eq (file : SourceFile) (func : Func) (dict : List (Str × List Str))
    (note : Str) :
    inconsistencyNote file func dict note = note ++ inconsistencyTexts file func dict := by
  have hinner : ∀ (entry : Str × List Str) (ls : List Int) (note : Str),
      ls.foldl (fun note line =>
        if line2funcName line file.results ≠ func.name then note
        else note ++ inconsistencyText entry.1 line entry.2) note
      = note ++ (ls.map fun line => if line2funcName line file.results ≠ func.name then []
        else inconsistencyText entry.1 line entry.2).flatten := by
    intro entry ls note
    rw [← foldl_append]
    congr 1
    funext note line
    by_cases h : line2funcName line file.results ≠ func.name
    · rw [if_pos h, if_pos h, List.append_nil]
    · rw [if_neg h, if_neg h]
  unfold inconsistencyNote inconsistencyTexts
  simp only [hinner, foldl_append]

/-! ## What a section contributes -/

variable {P : Project} {tmp : Tmp}

/-- The records that a section of `d` accepts for a function, in the order of
their iteration. -/
def Run.accepted (run : Run P tmp) (file : SourceFile) (func : Func)
    (d : Finder) : List d.format.Record :=
  (run.set d).filter (d.accepts func (P.path file))

/-- The text that a section contributes to its column. -/
def Section.note (run : Run P tmp) (file : SourceFile) (func : Func) :
    Section → Str
  | first d _ text => (run.accepted file func d).head?.elim [] text
  | lines d _ label line => linesText label ((run.accepted file func d).map line)
  | unusedRet => callsText ((run.accepted file func .unusedRet).map fun r : CallRecord => r.2)
  | inconsistency => inconsistencyTexts file func ((tmp .inconsistency).getD [])

/-- A section depends on the records it accepts, and on the inconsistency log if
it is that of the inconsistencies. -/
theorem Section.note_congr {P' : Project} {tmp' : Tmp} {run : Run P tmp} {run' : Run P' tmp'}
    {file : SourceFile} {func : Func} {s : Section}
    (hacc : ∀ d, s.detector = .finder d → run.accepted file func d = run'.accepted file func d)
    (hlog : s.detector = .inconsistency → tmp .inconsistency = tmp' .inconsistency) :
    s.note run file func = s.note run' file func := by
  cases s with
  | first d column text => exact congrArg (fun l => l.head?.elim [] text) (hacc d rfl)
  | lines d column label line =>
    exact congrArg (fun l => linesText label (l.map line)) (hacc d rfl)
  | unusedRet =>
    exact congrArg (fun l : List CallRecord => callsText (l.map fun r => r.2)) (hacc _ rfl)
  | inconsistency =>
    exact congrArg (fun log => inconsistencyTexts file func (log.getD [])) (hlog rfl)

/-- A section that accepts nothing contributes nothing. -/
theorem Section.note_eq_nil {run : Run P tmp} {file : SourceFile} {func : Func} {s : Section}
    (hacc : ∀ d, s.detector = .finder d → run.accepted file func d = [])
    (hlog : s.detector = .inconsistency → tmp .inconsistency = none) :
    s.note run file func = [] := by
  cases s with
  | first d column text => exact congrArg (fun l => l.head?.elim [] text) (hacc d rfl)
  | lines d column label line =>
    exact congrArg (fun l => linesText label (l.map line)) (hacc d rfl)
  | unusedRet =>
    exact congrArg (fun l : List CallRecord => callsText (l.map fun r => r.2)) (hacc _ rfl)
  | inconsistency =>
    exact congrArg (fun log => inconsistencyTexts file func (log.getD [])) (hlog rfl)

theorem find?_map_key {β : Type} {keys : List Str} (key : Str) (g : Str → β) :
    (keys.map fun k => (k, g k)).find? (fun entry => decide (entry.1 = key))
      = if key ∈ keys then some (key, g key) else none := by
  induction keys with
  | nil => rfl
  | cons k keys ih =>
    rw [List.map_cons, List.find?_cons]
    by_cases hk : k = key
    · simp [hk]
    · simp only [hk, decide_false, ih, List.mem_cons, Ne.symm hk, false_or]

/-- The calls under the key of a function are those of the records it accepts. -/
theorem unusedRetDict_find (run : Run P tmp) (file : SourceFile) (func : Func) :
    (((unusedRetDict run).find? fun entry => entry.1 = func.joined).map (·.2)).getD []
      = (run.accepted file func .unusedRet).map fun r : CallRecord => r.2 := by
  have hacc : run.accepted file func .unusedRet
      = (run.set .unusedRet).filter fun r : CallRecord => r.1 = func.joined := by
    apply List.filter_congr
    intro r hr
    rw [Bool.eq_iff_iff, decide_eq_true_iff]
    exact match_rustle_iff (P.path file) none
  rw [unusedRetDict, find?_map_key, hacc]
  split
  · rfl
  · rename_i hno
    refine (List.map_eq_nil_iff.2 (List.filter_eq_nil_iff.2 fun r hr => ?_)).symm
    rw [decide_eq_true_iff]
    intro hj
    refine hno (List.mem_eraseDups.2 (List.mem_map.2 ⟨r, (run.mem_set .unusedRet r).1 hr, hj⟩))

/-- No key of the dictionary is without calls. -/
theorem unusedRetDict_ne_nil (run : Run P tmp) : ∀ entry ∈ unusedRetDict run, entry.2 ≠ [] := by
  intro entry he
  obtain ⟨caller, hc, rfl⟩ := List.mem_map.1 he
  obtain ⟨r, hr, rfl⟩ := List.mem_map.1 (List.mem_eraseDups.1 hc)
  intro hnil
  have hfil := List.filter_eq_nil_iff.1 (List.map_eq_nil_iff.1 hnil)
  exact hfil r ((run.mem_set .unusedRet r).2 hr) (decide_eq_true rfl)

/-- A section appends its text to whatever its column holds. -/
theorem append_eq (run : Run P tmp) (file : SourceFile) (func : Func) (note : Str)
    (s : Section) : s.append run file func note = note ++ s.note run file func := by
  cases s with
  | first d column text =>
    show firstLoop _ _ _ _ = _
    rw [firstLoop_eq, Section.note, Run.accepted, List.head?_filter]
  | lines d column label line => exact linesNote_eq _ _ _ _ _
  | unusedRet =>
    show unusedRetLoop _ _ _ _ = _
    rw [unusedRetLoop_eq _ _ _ _ (unusedRetDict_ne_nil run), unusedRetDict_find run file]
    rfl
  | inconsistency => exact inconsistencyNote_eq _ _ _ _

/-! ## Notes -/

/-- A statement of a detector in a column of the summary. -/
structure Note where
  detector : Detector
  column : Severity
  text : Str
  deriving DecidableEq

/-- The notes of a function, in the order of the sections. -/
def funcNotes (run : Run P tmp) (file : SourceFile) (func : Func) : List Note :=
  sections.filterMap fun s =>
    let text := s.note run file func
    if text = [] then none else some ⟨s.detector, s.column, text⟩

/-- The texts of a column. -/
def columnText (notes : List Note) (c : Severity) : Str :=
  ((notes.filter fun n => n.column = c).map Note.text).flatten

theorem mem_funcNotes {run : Run P tmp} {file : SourceFile} {func : Func} {n : Note} :
    n ∈ funcNotes run file func ↔ ∃ s ∈ sections, s.note run file func ≠ [] ∧
      n = ⟨s.detector, s.column, s.note run file func⟩ := by
  unfold funcNotes
  rw [List.mem_filterMap]
  refine exists_congr fun s => and_congr_right fun _ => ?_
  by_cases h : s.note run file func = []
  · simp [h]
  · simp [h, eq_comm]

/-- The texts of the notes are the contributions of the sections. -/
theorem columnText_sections (run : Run P tmp) (file : SourceFile) (func : Func) (c : Severity)
    (ss : List Section) :
    columnText (ss.filterMap fun s =>
      let text := s.note run file func
      if text = [] then none else some ⟨s.detector, s.column, text⟩) c
      = ((ss.filter fun s => s.column = c).map (Section.note run file func)).flatten := by
  induction ss with
  | nil => rfl
  | cons s ss ih =>
    unfold columnText at ih ⊢
    rw [List.filterMap_cons, List.filter_cons]
    by_cases hs : s.note run file func = []
    · by_cases hc : s.column = c
      · simp [hs, hc, ih]
      · simp [hs, hc, ih]
    · by_cases hc : s.column = c
      · simp [hs, hc, ih]
      · simp [hs, hc, ih]

/-- A column holds the contributions of its sections, in their order. -/
theorem noteColumns_sections (run : Run P tmp) (file : SourceFile) (func : Func) (c : Severity) :
    noteColumns run file func c
      = ((sections.filter fun s => s.column = c).map (Section.note run file func)).flatten := by
  have h : ∀ (ss : List Section) (acc : Severity → Str),
      ss.foldl (fun notes s => Function.update notes s.column
        (s.append run file func (notes s.column))) acc c
      = acc c ++ ((ss.filter fun s => s.column = c).map (Section.note run file func)).flatten := by
    intro ss
    induction ss with
    | nil => intro acc; simp
    | cons s ss ih =>
      intro acc
      rw [List.foldl_cons, ih, append_eq, List.filter_cons]
      by_cases hc : s.column = c
      · subst hc; simp
      · simp [hc, Function.update_of_ne (Ne.symm hc)]
  exact (h sections _).trans (List.nil_append _)

theorem noteColumns_eq (run : Run P tmp) (file : SourceFile) (func : Func) (c : Severity) :
    noteColumns run file func c = columnText (funcNotes run file func) c := by
  rw [noteColumns_sections, funcNotes, columnText_sections]

/-! ## Phrases -/

theorem listText_eq_nil_iff {opening closing : Str} {tokens : List Str} (hc : closing ≠ []) :
    listText opening tokens closing = [] ↔ tokens = [] := by
  unfold listText
  split
  · rename_i h
    exact iff_of_true rfl h
  · rename_i h
    exact iff_of_false (fun hnil => hc (List.append_eq_nil_iff.1 hnil).2) h

theorem linesText_eq_nil_iff {label : Str} {ls : List Int} : linesText label ls = [] ↔ ls = [] :=
  (listText_eq_nil_iff (by decide)).trans List.map_eq_nil_iff

theorem callsText_eq_nil_iff {calls : List (Str × Str)} : callsText calls = [] ↔ calls = [] :=
  (listText_eq_nil_iff (by decide)).trans List.map_eq_nil_iff

/-- Does the text begin with a solid character? -/
def beginsSolid : Str → Bool
  | [] => false
  | c :: _ => !isSpace c

/-- A phrase begins with a solid character, and what follows ends with `; `. -/
def isPhrase (t : Str) : Bool := beginsSolid t && endswith t.tail (lit "; " rfl)

theorem isPhrase_append {a b : Str} (ha : beginsSolid a = true)
    (hb : endswith b (lit "; " rfl) = true) : isPhrase (a ++ b) = true := by
  cases a with
  | nil => cases ha
  | cons c a =>
    rw [isPhrase, Bool.and_eq_true, endswith_iff]
    exact ⟨ha, (endswith_iff.1 hb).trans (List.suffix_append a b)⟩

theorem isPhrase_iff {t : Str} :
    isPhrase t = true ↔ ∃ c m, isSpace c = false ∧ t = c :: m ++ [';', ' '] := by
  cases t with
  | nil => simp [isPhrase, beginsSolid]
  | cons c t =>
    rw [isPhrase, Bool.and_eq_true, endswith_iff]
    refine ⟨?_, ?_⟩
    · rintro ⟨hc, w, hw⟩
      exact ⟨c, w, by simpa [beginsSolid] using hc, congrArg (c :: ·) hw.symm⟩
    · rintro ⟨c', m, hc, heq⟩
      obtain ⟨rfl, rfl⟩ := List.cons.inj heq
      exact ⟨by simpa [beginsSolid] using hc, List.suffix_append _ _⟩

theorem endswith_of_isPhrase {t : Str} (h : isPhrase t = true) :
    endswith t (lit "; " rfl) = true := by
  obtain ⟨c, m, -, rfl⟩ := isPhrase_iff.1 h
  exact endswith_iff.2 (List.suffix_append _ _)

theorem beginsSolid_of_isPhrase {t : Str} (h : isPhrase t = true) : beginsSolid t = true :=
  (Bool.and_eq_true_iff.1 h).1

/-- Phrases in a row make a phrase. -/
theorem isPhrase_flatten {ts : List Str} (h : ∀ t ∈ ts, t = [] ∨ isPhrase t = true) :
    ts.flatten = [] ∨ isPhrase ts.flatten = true := by
  induction ts with
  | nil => exact Or.inl rfl
  | cons t ts ih =>
    have ih' := ih fun x hx => h x (List.mem_cons_of_mem _ hx)
    rw [List.flatten_cons]
    rcases h t (List.mem_cons_self ..) with rfl | ht
    · exact ih'
    · right
      rcases ih' with hnil | hts
      · rw [hnil, List.append_nil]
        exact ht
      · exact isPhrase_append (beginsSolid_of_isPhrase ht) (endswith_of_isPhrase hts)

/-- A list of tokens is a phrase. -/
theorem isPhrase_listText {opening closing : Str} {tokens : List Str} (hne : tokens ≠ [])
    (ho : beginsSolid opening = true) (hc : endswith closing (lit "; " rfl) = true) :
    isPhrase (listText opening tokens closing) = true := by
  rw [listText, if_neg hne]
  refine isPhrase_append ?_ hc
  cases opening with
  | nil => cases ho
  | cons c o =>
    have hs : isSpace c = false := by simpa [beginsSolid] using ho
    have h := rstrip_append_solid [] (o ++ tokens.flatten) hs
    rw [List.nil_append, List.nil_append] at h
    rw [List.cons_append, h]
    exact ho

theorem inconsistencyTexts_phrase (file : SourceFile) (func : Func)
    (dict : List (Str × List Str)) :
    inconsistencyTexts file func dict = [] ∨
      isPhrase (inconsistencyTexts file func dict) = true := by
  apply isPhrase_flatten
  intro piece hpiece
  obtain ⟨entry, -, rfl⟩ := List.mem_map.1 hpiece
  apply isPhrase_flatten
  intro text htext
  obtain ⟨line, -, rfl⟩ := List.mem_map.1 htext
  split
  · exact Or.inl rfl
  · right
    rw [inconsistencyText]
    exact isPhrase_append rfl (by decide)

/-! ## The texts of the sections -/

theorem sections_nodup : (sections.map Section.detector).Nodup := by decide

theorem section_unique {s s' : Section} (hs : s ∈ sections) (hs' : s' ∈ sections)
    (h : s.detector = s'.detector) : s = s' :=
  List.inj_on_of_nodup_map sections_nodup hs hs' h

/-- The one section whose text depends on the record. -/
def jsonSection : Section := .first .incorrectJsonType .high NoteRecord.note

theorem jsonSection_mem : jsonSection ∈ sections := List.mem_of_getElem? (i := 17) rfl

/-- The texts and labels of a section are as they should be: all records but the
notes on types have one text, a phrase. -/
def Section.WellFormed : Section → Prop
  | first d _ text =>
    d ≠ .incorrectJsonType → ∃ phrase, isPhrase phrase = true ∧ ∀ r, text r = phrase
  | lines _ _ label _ => beginsSolid label = true
  | _ => True

theorem wellFormed_const {d : Finder} {column : Severity} {text : Str}
    (h : isPhrase text = true) : (Section.first d column fun _ => text).WellFormed :=
  fun _ => ⟨text, h, fun _ => rfl⟩

theorem sections_wellFormed : ∀ s ∈ sections, s.WellFormed := by
  unfold sections
  simp only [List.forall_mem_cons]
  refine ⟨wellFormed_const (by decide), rfl, rfl, rfl, rfl, rfl, rfl,
    wellFormed_const (by decide), wellFormed_const (by decide), wellFormed_const (by decide), rfl,
    rfl, rfl, wellFormed_const (by decide), wellFormed_const (by decide),
    wellFormed_const (by decide), wellFormed_const (by decide), fun h => absurd rfl h, trivial,
    wellFormed_const (by decide), wellFormed_const (by decide), wellFormed_const (by decide), rfl,
    wellFormed_const (by decide), wellFormed_const (by decide), wellFormed_const (by decide),
    trivial, ?_⟩
  exact fun s hs => absurd hs List.not_mem_nil

/-- What a section other than that of the notes on types contributes. -/
theorem Section.note_phrase {run : Run P tmp} {file : SourceFile} {func : Func} {s : Section}
    (hs : s ∈ sections) (hj : s.detector ≠ .finder .incorrectJsonType) :
    s.note run file func = [] ∨ isPhrase (s.note run file func) = true := by
  have hwf := sections_wellFormed s hs
  cases s with
  | first d column text =>
    show (run.accepted file func d).head?.elim [] text = [] ∨
      isPhrase ((run.accepted file func d).head?.elim [] text) = true
    cases (run.accepted file func d).head? with
    | none => exact Or.inl rfl
    | some r =>
      obtain ⟨phrase, hphrase, htext⟩ := hwf fun h => hj (congrArg Detector.finder h)
      exact Or.inr ((congrArg isPhrase (htext r)).trans hphrase)
  | lines d column label line =>
    by_cases hnil : (run.accepted file func d).map line = []
    · exact Or.inl (linesText_eq_nil_iff.2 hnil)
    · exact Or.inr (isPhrase_listText (fun h => hnil (List.map_eq_nil_iff.1 h)) hwf (by decide))
  | unusedRet =>
    by_cases hnil : ((run.accepted file func .unusedRet).map fun r : CallRecord => r.2) = []
    · exact Or.inl (callsText_eq_nil_iff.2 hnil)
    · exact Or.inr (isPhrase_listText (fun h => hnil (List.map_eq_nil_iff.1 h)) rfl (by decide))
  | inconsistency => exact inconsistencyTexts_phrase _ _ _

theorem loaded_note_rstrip {r : NoteRecord} (h : r ∈ loaded tmp .incorrectJsonType) :
    rstrip r.note = r.note := by
  unfold loaded at h
  split at h
  · exact absurd h List.not_mem_nil
  · exact (NoteRecord.clean_of_mem h).rstrip_last

/-- A note that is loaded does not end with white space, so it is not blank. -/
theorem loaded_note_visible {r : NoteRecord} (h : r ∈ loaded tmp .incorrectJsonType)
    (hne : r.note ≠ []) : ∃ c ∈ r.note, isSpace c = false := by
  by_contra hno
  push Not at hno
  refine hne ?_
  rw [← loaded_note_rstrip h, rstrip, List.rdropWhile_eq_nil_iff]
  exact fun c hc => by simpa using hno c hc

/-- A contribution shows, unless it is empty. -/
theorem Section.note_visible {run : Run P tmp} {file : SourceFile} {func : Func}
    {s : Section} (hs : s ∈ sections) (hne : s.note run file func ≠ []) :
    ∃ c ∈ s.note run file func, isSpace c = false := by
  by_cases hj : s.detector = .finder .incorrectJsonType
  · obtain rfl := section_unique hs jsonSection_mem hj
    change (run.accepted file func .incorrectJsonType).head?.elim [] NoteRecord.note ≠ [] at hne
    show ∃ c ∈ (run.accepted file func .incorrectJsonType).head?.elim [] NoteRecord.note, _
    cases hacc : (run.accepted file func .incorrectJsonType).head? with
    | none => exact absurd (by rw [hacc]; rfl) hne
    | some r =>
      rw [hacc] at hne
      have hr : r ∈ run.set .incorrectJsonType :=
        (List.mem_filter.1 (List.mem_of_head? hacc)).1
      exact loaded_note_visible ((run.mem_set .incorrectJsonType r).1 hr) hne
  · obtain ⟨c, m, hc, heq⟩ := isPhrase_iff.1 ((Section.note_phrase hs hj).resolve_left hne)
    exact ⟨c, by rw [heq]; simp, hc⟩

/-! ## Rows -/

/-- A column is blank exactly when it has no notes. -/
theorem strip_columnText_eq_nil_iff {run : Run P tmp} {file : SourceFile}
    {func : Func} {c : Severity} :
    strip (columnText (funcNotes run file func) c) = []
      ↔ ∀ n ∈ funcNotes run file func, n.column ≠ c := by
  rw [strip_eq_nil_iff]
  refine ⟨fun h n hn hc => ?_, fun h x hx => ?_⟩
  · obtain ⟨s, hs, hne, rfl⟩ := mem_funcNotes.1 hn
    obtain ⟨x, hx, hsolid⟩ := Section.note_visible hs hne
    have hmem : x ∈ columnText (funcNotes run file func) c :=
      List.mem_flatten.2 ⟨_, List.mem_map_of_mem
        (List.mem_filter.2 ⟨hn, decide_eq_true hc⟩), hx⟩
    rw [h x hmem] at hsolid
    exact Bool.noConfusion hsolid
  · obtain ⟨t, ht, -⟩ := List.mem_flatten.1 hx
    obtain ⟨n, hn, -⟩ := List.mem_map.1 ht
    obtain ⟨hn, hc⟩ := List.mem_filter.1 hn
    exact absurd (of_decide_eq_true hc) (h n hn)

/-- A row of the report: a function, and its notes. -/
structure ReportRow where
  file : SourceFile
  func : Func
  notes : List Note

/-- The row of a function, unless it is a test or has no notes. -/
def reportRow (run : Run P tmp) (file : SourceFile) (func : Func) :
    Option ReportRow :=
  if contains func.macros (lit "test" rfl) then none
  else if funcNotes run file func = [] then none
  else some ⟨file, func, funcNotes run file func⟩

def reportRows (run : Run P tmp) (file : SourceFile) : List ReportRow :=
  if contains (P.path file) (lit "/src/" rfl) then
    file.results.filterMap (reportRow run file)
  else []

/-- A row as it is printed. -/
def ReportRow.cells (P : Project) (row : ReportRow) : List Str :=
  [relPath P (P.path row.file), row.func.name, strip (columnText row.notes .high),
    strip (columnText row.notes .medium), strip (columnText row.notes .low),
    strip (columnText row.notes .info)]

theorem funcRow_eq (run : Run P tmp) (file : SourceFile) (func : Func) :
    funcRow run file func = (reportRow run file func).map (ReportRow.cells P) := by
  unfold funcRow reportRow
  by_cases htest : contains func.macros (lit "test" rfl) = true
  · rw [if_pos htest, if_pos htest]
    rfl
  · rw [if_neg htest, if_neg htest]
    simp only [noteColumns_eq]
    by_cases hnil : funcNotes run file func = []
    · have hblank : ∀ c, strip (columnText (funcNotes run file func) c) = [] := by
        intro c
        rw [strip_columnText_eq_nil_iff, hnil]
        exact fun n hn => absurd hn List.not_mem_nil
      rw [if_pos hnil, if_neg (by simp [hblank])]
      rfl
    · obtain ⟨n, rest, hn⟩ := List.exists_cons_of_ne_nil hnil
      have hcol : strip (columnText (funcNotes run file func) n.column) ≠ [] := by
        rw [ne_eq, strip_columnText_eq_nil_iff]
        exact fun h => h n (by rw [hn]; simp) rfl
      rw [if_neg hnil, if_pos]
      · rfl
      · cases hc : n.column with
        | high => exact Or.inl (hc ▸ hcol)
        | medium => exact Or.inr (Or.inl (hc ▸ hcol))
        | low => exact Or.inr (Or.inr (Or.inl (hc ▸ hcol)))
        | info => exact Or.inr (Or.inr (Or.inr (hc ▸ hcol)))

theorem fileRows_eq (run : Run P tmp) (file : SourceFile) :
    fileRows run file = (reportRows run file).map (ReportRow.cells P) := by
  unfold fileRows reportRows
  split
  · rw [List.map_filterMap]
    exact List.filterMap_congr fun func _ => funcRow_eq run file func
  · rfl

/-! ## The global row -/

/-- An unimplemented interface is a note of the detector in whose log it stands. -/
def interfaceNotes (tmp : Tmp) : List Note :=
  Nep.sorted.flatMap fun n =>
    match tmp (.nepInterface n) with
    | none => []
    | some text =>
      ((lines text).map strip).mergeSort.map fun name => ⟨.nepInterface n, .medium, name⟩

def upgradeNotes (run : Run P tmp) : List Note :=
  if run.set .upgradeFunc = [] then
    [⟨.finder .upgradeFunc, .low, lit "No upgrade function found; " rfl⟩]
  else []

def dupNotes (tmp : Tmp) : List Note :=
  if uniqueCollectionIdLog tmp = [] then []
  else [⟨.dupCollectionId, .medium, uniqueCollectionIdLog tmp⟩]

/-- The list of the unimplemented interfaces. -/
def interfacesText (names : List Str) : Str :=
  if names = [] then []
  else lit "Unimplemented NEP interface" rfl
    ++ (if names.length = 1 then [] else lit "s" rfl) ++ lit ": " rfl
    ++ (lit ", " rfl).intercalate names ++ lit "; " rfl

/-- What the summary says, before it is printed. -/
structure Report where
  rows : List ReportRow
  upgrade : List Note
  dup : List Note
  interfaces : List Note

/-- The report of a run. -/
def audit (run : Run P tmp) : Report where
  rows := run.files.flatMap (reportRows run)
  upgrade := upgradeNotes run
  dup := dupNotes tmp
  interfaces := interfaceNotes tmp

/-- The printed summary. -/
def Report.print (P : Project) (report : Report) : List (List Str) :=
  report.rows.map (ReportRow.cells P) ++
    [[lit "global" rfl, lit "global" rfl, [],
      strip ((report.dup.map Note.text).flatten
        ++ interfacesText (report.interfaces.map Note.text)),
      strip (report.upgrade.map Note.text).flatten, []]]

theorem interfaceNotes_text (tmp : Tmp) :
    (interfaceNotes tmp).map Note.text = unimplementedInterfaces tmp := by
  unfold interfaceNotes unimplementedInterfaces
  rw [List.map_flatMap]
  congr 1
  funext n
  cases tmp (.nepInterface n) with
  | none => rfl
  | some text => simp [List.map_map, Function.comp_def]

theorem summaryLow_eq (run : Run P tmp) :
    summaryLow run = ((upgradeNotes run).map Note.text).flatten := by
  unfold summaryLow upgradeNotes
  by_cases h : run.set .upgradeFunc = []
  · rw [if_pos h, if_pos (List.length_eq_zero_iff.2 h)]
    simp
  · rw [if_neg h, if_neg fun hl => h (List.length_eq_zero_iff.1 hl)]
    rfl

/-- Joined by commas, with a comma behind the last one as well. -/
theorem flatten_comma {names : List Str} (h : names ≠ []) :
    (names.map (· ++ lit ", " rfl)).flatten = (lit ", " rfl).intercalate names ++ [',', ' '] := by
  induction names with
  | nil => exact absurd rfl h
  | cons x xs ih =>
    cases xs with
    | nil => simp [lit]
    | cons y ys =>
      rw [List.map_cons, List.flatten_cons, ih (List.cons_ne_nil _ _),
        List.intercalate_cons_cons]
      simp [lit]

theorem summaryMedium_eq (tmp : Tmp) :
    summaryMedium tmp = ((dupNotes tmp).map Note.text).flatten
      ++ interfacesText ((interfaceNotes tmp).map Note.text) := by
  have hdup : uniqueCollectionIdLog tmp = ((dupNotes tmp).map Note.text).flatten := by
    unfold dupNotes
    by_cases h : uniqueCollectionIdLog tmp = []
    · rw [if_pos h, h]
      rfl
    · rw [if_neg h]
      simp
  rw [interfaceNotes_text, summaryMedium, hdup]
  generalize ((dupNotes tmp).map Note.text).flatten = log
  simp only
  by_cases hnil : unimplementedInterfaces tmp = []
  · simp [hnil, interfacesText]
  · have hpos : (unimplementedInterfaces tmp).length > 0 := List.length_pos_iff.2 hnil
    rw [if_pos hpos, interfacesText, if_neg hnil]
    have hfold : ∀ acc : Str, (unimplementedInterfaces tmp).foldl
        (fun note func => note ++ func ++ lit ", " rfl) acc
        = acc ++ (lit ", " rfl).intercalate (unimplementedInterfaces tmp) ++ [',', ' '] := by
      intro acc
      simp only [List.append_assoc]
      rw [foldl_append, flatten_comma hnil]
    rw [hfold]
    simp [List.dropLast_append_of_ne_nil]

/-- The matrix that the source computes is the printed report. -/
theorem summaryMatrix_eq (run : Run P tmp) :
    summaryMatrix run = (audit run).print P := by
  have hrows : jsonMatrix run
      = (run.files.flatMap (reportRows run)).map (ReportRow.cells P) := by
    rw [List.map_flatMap, jsonMatrix]
    congr 1
    funext file
    exact fileRows_eq run file
  rw [summaryMatrix, hrows, globalRow, summaryMedium_eq, summaryLow_eq]
  rfl

/-! ## Attached notes -/

/-- `file` and `func` have a row, unless the row is left out as a test's or for
want of notes. -/
structure Listed (P : Project) (file : SourceFile) (func : Func) : Prop where
  file_mem : file ∈ getFiles P.files
  under_src : contains (P.path file) (lit "/src/" rfl) = true
  func_mem : func ∈ file.results

/-- Is `text` a note of `D` in the row of `func`? -/
def Attached (report : Report) (file : SourceFile) (func : Func) (D : Detector) (text : Str) :
    Prop :=
  ∃ row ∈ report.rows, row.file = file ∧ row.func = func ∧
    ∃ n ∈ row.notes, n.detector = D ∧ n.text = text

/-- A detector's note in a row is the contribution of its section. -/
theorem attached_iff {run : Run P tmp} {file : SourceFile} {func : Func} {s : Section} {text : Str}
    (hs : s ∈ sections) :
    Attached (audit run) file func s.detector text ↔
      Listed P file func ∧ contains func.macros (lit "test" rfl) = false ∧
        s.note run file func = text ∧ text ≠ [] := by
  refine ⟨?_, ?_⟩
  · rintro ⟨row, hrow, hfile, hfunc, n, hn, hdet, htext⟩
    obtain ⟨file', hfile', hrow⟩ := List.mem_flatMap.1 hrow
    unfold reportRows at hrow
    split at hrow
    · rename_i hsrc
      obtain ⟨func', hfunc', hrow⟩ := List.mem_filterMap.1 hrow
      unfold reportRow at hrow
      split at hrow
      · exact absurd hrow (by simp)
      · rename_i htest
        split at hrow
        · exact absurd hrow (by simp)
        · obtain rfl := Option.some.inj hrow
          obtain rfl : file' = file := hfile
          obtain rfl : func' = func := hfunc
          obtain ⟨s', hs', hne, rfl⟩ := mem_funcNotes.1 hn
          obtain rfl := section_unique hs' hs hdet
          exact ⟨⟨(run.files_perm.mem_iff).1 hfile', hsrc, hfunc'⟩,
            Bool.eq_false_iff.2 htest, htext, htext ▸ hne⟩
    · exact absurd hrow List.not_mem_nil
  · rintro ⟨hlist, htest, htext, hne⟩
    have hn : (⟨s.detector, s.column, s.note run file func⟩ : Note) ∈ funcNotes run file func :=
      mem_funcNotes.2 ⟨s, hs, by rw [htext]; exact hne, rfl⟩
    refine ⟨⟨file, func, funcNotes run file func⟩, List.mem_flatMap.2 ⟨file,
      (run.files_perm.mem_iff).2 hlist.file_mem, ?_⟩, rfl, rfl, _, hn, rfl, htext⟩
    rw [reportRows, if_pos hlist.under_src]
    refine List.mem_filterMap.2 ⟨func, hlist.func_mem, ?_⟩
    rw [reportRow, if_neg (by rw [htest]; exact Bool.false_ne_true),
      if_neg (List.ne_nil_of_mem hn)]

end Audit
