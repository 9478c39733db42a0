import Rustle.Audit.InconsistencyNotes
import Rustle.Audit.JsonTypeNotes
import Rustle.Detector.Inconsistency

/-!
# From similar names to the rows

`inconsistency.py` writes the names of the global variables that are similar to others; the
report searches the files for them and notes each use in the rows of a function.

* `globalKeys`, `inconsistencyScript` — the names of a project, and the script.
* `Tools.withNames` — the tools with the script put in.
* `Confusable`, `UsedOn` — a name with similar ones, and a line where it is used.
* `inconsistency_notes` — what the rows say of the names.
-/

namespace Audit

open Text
open InconsistencyNotes (occurrenceLines keptLines rounds occurrenceLines_eq mem_rounds_iff)
open Inconsistency (isSimilar conflicts similarNames globalVars mem_conflicts_iff
  mem_similarNames_iff mem_globalVars_iff)
open LockCallback (Closest line2funcName_spec)

/-! ## The script -/

section

/- The character class `\w`, the texts and the project. -/
variable (isWord : Char → Bool) (X : Reading) (P : Project)

/-- `global_vars.keys()` -/
def globalKeys : List Str := (globalVars isWord ((X.order (allFiles P.files)).map X.text)).keys

/-- `inconsistency.py`, given what `json.dump` makes of the log: what it writes, and that it
ends. -/
def inconsistencyScript (dump : List (Str × List Str) → Str) : Option Str × Bool :=
  (some (dump (conflicts (globalKeys isWord X P))), true)

/-- The tools with the script put in. -/
def Makefile.Tools.withNames (T : Makefile.Tools) (dump : List (Str × List Str) → Str) :
    Makefile.Tools where
  bitcodes := T.bitcodes
  demangle := T.demangle
  jsonLoad := T.jsonLoad
  pass := T.pass
  allCall := T.allCall
  getPackagesName := T.getPackagesName
  findStruct := T.findStruct
  unsafeMathToml := T.unsafeMathToml
  python
    | .inconsistency, _ => inconsistencyScript isWord X P dump
    | D, log => T.python D log

/-- A global variable of the project has the name. -/
def GlobalName (name : Str) : Prop :=
  ∃ file ∈ allFiles P.files, name ∈ GlobalVars.globalNames isWord (X.text file)

/-- A global name that is similar to another one. -/
def Confusable (name : Str) : Prop :=
  GlobalName isWord X P name ∧
    ∃ other, GlobalName isWord X P other ∧ name ≠ other ∧ isSimilar name other = true

/-- The name stands on the line as a whole word, outside of the comments. -/
def UsedOn (text name : Str) (l : Nat) : Prop :=
  ∃ kept c, (keptLines text)[l]? = some kept ∧ c < kept.length ∧
    WordReplace.wordAt isWord name (WordReplace.before none kept c) (kept.drop c) = true

/-- The closest function above the line has the name of `func`. -/
def BelowNamed (results : List Func) (l : Nat) (func : Func) : Prop :=
  ∃ k g, Closest results l k g ∧ g.name = func.name

/-- The log is read back as it was written; the report searches the texts of the files, and
its functions have names. -/
structure ReadableNames (T : Makefile.Tools) (dump : List (Str × List Str) → Str) : Prop where
  json : T.jsonLoad (T.rustfilt (dump (conflicts (globalKeys isWord X P))))
    = some (conflicts (globalKeys isWord X P))
  newline : isWord '\n' = false
  occurrences : ∀ file ∈ P.files, file.occurrences = occurrenceLines isWord (X.text file)
  names : ∀ file ∈ P.files, ∀ func ∈ file.results, func.name ≠ []

end

section

variable {isWord : Char → Bool} {X : Reading} {P : Project}

theorem mem_globalKeys_iff {name : Str} :
    name ∈ globalKeys isWord X P ↔ GlobalName isWord X P name := by
  rw [globalKeys, mem_globalVars_iff, GlobalName]
  constructor
  · rintro ⟨text, htext, hname⟩
    obtain ⟨file, hfile, rfl⟩ := List.mem_map.1 htext
    exact ⟨file, (X.order_perm _).mem_iff.1 hfile, hname⟩
  · rintro ⟨file, hfile, hname⟩
    exact ⟨X.text file, List.mem_map_of_mem ((X.order_perm _).mem_iff.2 hfile), hname⟩

/-- The names under which others are listed. -/
theorem exists_conflict_iff {name : Str} :
    (∃ entry ∈ conflicts (globalKeys isWord X P), entry.1 = name) ↔
      Confusable isWord X P name := by
  rw [Confusable, ← mem_globalKeys_iff]
  constructor
  · rintro ⟨entry, hentry, rfl⟩
    obtain ⟨hname, hsimilar, hne⟩ := mem_conflicts_iff.1 hentry
    obtain ⟨other, hother⟩ := List.exists_mem_of_ne_nil _ hne
    rw [hsimilar, mem_similarNames_iff, mem_globalKeys_iff] at hother
    exact ⟨hname, other, hother⟩
  · rintro ⟨hname, other, hother⟩
    rw [← mem_globalKeys_iff, ← mem_similarNames_iff] at hother
    exact ⟨(name, _), mem_conflicts_iff.2 ⟨hname, rfl, List.ne_nil_of_mem hother⟩, rfl⟩

/-- The lines that the report finds. -/
theorem mem_occurrenceLines_iff (hnl : isWord '\n' = false) {text name : Str} (hne : name ≠ [])
    (hword : ∀ c ∈ name, isWord c = true) {line : Int} :
    line ∈ occurrenceLines isWord text name ↔ ∃ l : Nat, (l : Int) = line ∧
      UsedOn isWord text name l := by
  rw [occurrenceLines_eq, List.mem_map]
  constructor
  · rintro ⟨o, ho, rfl⟩
    obtain ⟨kept, hkept, hc⟩ := (mem_rounds_iff hnl hne hword (c := o.2)).1 ho
    exact ⟨o.1, rfl, kept, o.2, hkept, (WordReplace.mem_find_iff hword hne).1 hc⟩
  · rintro ⟨l, rfl, kept, c, hkept, hc⟩
    exact ⟨(l, c), (mem_rounds_iff hnl hne hword).2
      ⟨kept, hkept, (WordReplace.mem_find_iff hword hne).2 hc⟩, rfl⟩

end

/-! ## The note -/

theorem line2funcName_eq_iff {line : Int} {results : List Func} {name : Str} (hne : name ≠ []) :
    line2funcName line results = name ↔ ∃ k g, Closest results line k g ∧ g.name = name := by
  rcases line2funcName_spec line results with ⟨k, g, hclosest, hline⟩ | ⟨hnone, hline⟩
  · rw [hline]
    constructor
    · exact fun hname => ⟨k, g, hclosest, hname⟩
    · rintro ⟨k', g', hclosest', hname⟩
      rw [hclosest.unique hclosest', hname]
  · rw [hline]
    constructor
    · exact fun hname => absurd hname.symm hne
    · rintro ⟨k, g, hclosest, -⟩
      exact absurd hclosest.above (not_lt.2 (hnone g (List.mem_of_getElem? hclosest.stands)))

section

variable {file : SourceFile} {func : Func} {dict : List (Str × List Str)}

/-- A use below a function of the name stands in the note. -/
theorem infix_inconsistencyTexts {entry : Str × List Str} (hentry : entry ∈ dict) {line : Int}
    (hline : line ∈ file.occurrences entry.1)
    (hname : line2funcName line file.results = func.name) :
    inconsistencyText entry.1 line entry.2 <:+: inconsistencyTexts file func dict := by
  rw [inconsistencyTexts]
  refine List.IsInfix.trans ?_ (List.infix_of_mem_flatten (List.mem_map_of_mem hentry))
  refine List.infix_of_mem_flatten (List.mem_map.2 ⟨line, hline, ?_⟩)
  rw [if_neg (not_not.2 hname)]

/-- There is a note exactly when a listed name is used below a function of the name. -/
theorem inconsistencyTexts_ne_nil_iff : inconsistencyTexts file func dict ≠ [] ↔
    ∃ entry ∈ dict, ∃ line ∈ file.occurrences entry.1,
      line2funcName line file.results = func.name := by
  constructor
  · intro hne
    by_contra hnone
    refine hne (List.flatten_eq_nil_iff.2 fun piece hpiece => ?_)
    obtain ⟨entry, hentry, rfl⟩ := List.mem_map.1 hpiece
    refine List.flatten_eq_nil_iff.2 fun text htext => ?_
    obtain ⟨line, hline, rfl⟩ := List.mem_map.1 htext
    rw [if_pos fun hname => hnone ⟨entry, hentry, line, hline, hname⟩]
  · rintro ⟨entry, hentry, line, hline, hname⟩ hnil
    have hpart := infix_inconsistencyTexts hentry hline hname
    rw [hnil] at hpart
    have hempty : inconsistencyText entry.1 line entry.2 = [] := List.infix_nil.1 hpart
    rw [inconsistencyText] at hempty
    cases hempty

end

end Audit

namespace Audit.Makefile

open Directory
open Text
open InconsistencyNotes (occurrenceLines)
open Inconsistency (isSimilar conflicts mem_conflicts_iff mem_similarNames_iff
  word_of_mem_globalNames)

section

variable {isWord : Char → Bool} {X : Reading} {P : Project} {T : Tools}
  {dump : List (Str × List Str) → Str}

/-- The dictionary of a session that makes the script. -/
theorem logs_names (h : ReadableNames isWord X P T dump) {S : List Detector}
    (hS : Detector.inconsistency ∈ S) :
    (T.withNames isWord X P dump).logs
        (session (T.withNames isWord X P dump).build S clean) .inconsistency
      = some (conflicts (globalKeys isWord X P)) := by
  rw [(sameFindings_session (T.withNames isWord X P dump) S).inconsistency, Tmp.restrict,
    if_pos hS]
  have hbuild := @build_alone (T.withNames isWord X P dump) .inconsistency rfl rfl
  have hout : (T.withNames isWord X P dump).output .inconsistency
      = ((T.withNames isWord X P dump).build .inconsistency clean (.log .inconsistency)).bind
          fun text => T.jsonLoad (T.rustfilt text) := rfl
  rw [hout, hbuild]
  exact h.json

/-- The uses of a listed name that the report finds below a function of the name. -/
theorem use_iff (h : ReadableNames isWord X P T dump) {file : SourceFile} {func : Func}
    (hlist : Listed P file func) {name : Str} (hname : GlobalName isWord X P name) {line : Int} :
    (line ∈ file.occurrences name ∧ line2funcName line file.results = func.name) ↔
      ∃ l : Nat, (l : Int) = line ∧ UsedOn isWord (X.text file) name l ∧
        BelowNamed file.results l func := by
  obtain ⟨source, -, hglobal⟩ := hname
  obtain ⟨hne, hword⟩ := word_of_mem_globalNames hglobal
  have hfile : file ∈ P.files := (List.mem_filter.1 hlist.file_mem).1
  rw [h.occurrences file hfile, mem_occurrenceLines_iff h.newline hne hword,
    line2funcName_eq_iff (h.names file hfile func hlist.func_mem)]
  constructor
  · rintro ⟨⟨l, rfl, huse⟩, hbelow⟩
    exact ⟨l, rfl, huse, hbelow⟩
  · rintro ⟨l, rfl, huse, hbelow⟩
    exact ⟨⟨l, rfl, huse⟩, hbelow⟩

/-- From the global names to the rows: a function has the note of `inconsistency` exactly
when a name of the project that is similar to another one stands on a line that the closest
function above takes for its name; and each such use stands in the note, with all the names
that its name is similar to. -/
theorem inconsistency_notes (isWord : Char → Bool) (X : Reading) (P : Project) (T : Tools)
    (dump : List (Str × List Str) → Str) (h : ReadableNames isWord X P T dump)
    (S : List Detector) (hS : Detector.inconsistency ∈ S)
    (run : Run P ((T.withNames isWord X P dump).logs
      (session (T.withNames isWord X P dump).build S clean)))
    (file : SourceFile) (func : Func) :
    ((∃ text, Attached (audit run) file func .inconsistency text) ↔
      Listed P file func ∧ contains func.macros (lit "test" rfl) = false ∧
        ∃ name l, Confusable isWord X P name ∧ UsedOn isWord (X.text file) name l ∧
          BelowNamed file.results l func) ∧
    ∀ text, Attached (audit run) file func .inconsistency text →
      ∀ name l, Confusable isWord X P name → UsedOn isWord (X.text file) name l →
        BelowNamed file.results l func →
          ∃ names : List Str, (∀ other, other ∈ names ↔
            GlobalName isWord X P other ∧ name ≠ other ∧ isSimilar name other = true) ∧
              inconsistencyText name l names <:+: text := by
  have hiff : ∀ text, Attached (audit run) file func .inconsistency text ↔
      Listed P file func ∧ contains func.macros (lit "test" rfl) = false ∧
        inconsistencyTexts file func (conflicts (globalKeys isWord X P)) = text ∧ text ≠ [] := by
    intro text
    have hsection : Section.inconsistency ∈ sections := List.mem_of_getElem? (i := 26) rfl
    have hnote : Section.inconsistency.note run file func
        = inconsistencyTexts file func (conflicts (globalKeys isWord X P)) := by
      rw [Section.note, logs_names h hS, Option.getD_some]
    rw [← hnote]
    exact attached_iff hsection
  constructor
  · constructor
    · rintro ⟨text, htext⟩
      obtain ⟨hlist, htest, rfl, hne⟩ := (hiff text).1 htext
      obtain ⟨entry, hentry, line, hline⟩ := inconsistencyTexts_ne_nil_iff.1 hne
      have hname := exists_conflict_iff.1 ⟨entry, hentry, rfl⟩
      obtain ⟨l, -, huse, hbelow⟩ := (use_iff h hlist hname.1).1 hline
      exact ⟨hlist, htest, entry.1, l, hname, huse, hbelow⟩
    · rintro ⟨hlist, htest, name, l, hname, huse, hbelow⟩
      obtain ⟨entry, hentry, rfl⟩ := exists_conflict_iff.2 hname
      have hline := (use_iff h hlist hname.1).2 ⟨l, rfl, huse, hbelow⟩
      exact ⟨_, (hiff _).2 ⟨hlist, htest, rfl,
        inconsistencyTexts_ne_nil_iff.2 ⟨entry, hentry, l, hline⟩⟩⟩
  · intro text htext name l hname huse hbelow
    obtain ⟨hlist, -, rfl, -⟩ := (hiff text).1 htext
    obtain ⟨entry, hentry, rfl⟩ := exists_conflict_iff.2 hname
    obtain ⟨hline, hfunc⟩ := (use_iff h hlist hname.1).2 ⟨l, rfl, huse, hbelow⟩
    refine ⟨entry.2, fun other => ?_, infix_inconsistencyTexts hentry hline hfunc⟩
    rw [(mem_conflicts_iff.1 hentry).2.1, mem_similarNames_iff, mem_globalKeys_iff]

end

/-! ## Two similar limits -/

/-- Two constants, one of which is used behind a comment. -/
def limitsSource : Str := lit "\nconst GAS_MAX: u64 = 1;\nconst GAS_MAXI: u64 = 2;\n
fn take() -> u64 \x7b\n    // the limit\n    GAS_MAX\n\x7d\n" rfl

def limitsFunc : Func := ⟨lit "take" rfl, [], [], 5, []⟩

theorem limitsFile_relative : (lit "src/lib.rs" rfl).head? ≠ some '/' := by decide

def limitsFile : SourceFile :=
  ⟨lit "src/lib.rs" rfl, limitsFile_relative, [limitsFunc],
    occurrenceLines Text.isAsciiWord limitsSource⟩

def limitsProject : Project := ⟨lit "/home/u/limits" rfl, [limitsFile], by decide⟩

def limitsReading : Reading where
  text _ := limitsSource
  order := id
  order_perm l := .refl l

def limitsConflicts : List (Str × List Str) :=
  [(lit "GAS_MAX" rfl, [lit "GAS_MAXI" rfl]), (lit "GAS_MAXI" rfl, [lit "GAS_MAX" rfl])]

/-- The log, as `json.dump` writes it. -/
def limitsLog : Str := lit "\x7b\n    \"GAS_MAX\": [\n        \"GAS_MAXI\"\n    ],
    \"GAS_MAXI\": [\n        \"GAS_MAX\"\n    ]\n\x7d" rfl

/-- `rustfilt` finds no symbol in a line, and `json.load` reads the log. -/
def limitsTools : Tools :=
  { plainTools with
    jsonLoad := fun text => if text = limitsLog then some limitsConflicts else none }

theorem conflicts_limits :
    conflicts (globalKeys Text.isAsciiWord limitsReading limitsProject) = limitsConflicts := by
  decide +kernel

theorem readableNames_limits :
    ReadableNames Text.isAsciiWord limitsReading limitsProject limitsTools fun _ => limitsLog where
  json := by
    rw [conflicts_limits]
    decide +kernel
  newline := by decide +kernel
  occurrences file hfile := by rw [List.mem_singleton.1 hfile]; rfl
  names file hfile func hfunc := by
    rw [List.mem_singleton.1 hfile] at hfunc
    rw [List.mem_singleton.1 hfunc]
    decide

theorem confusable_limits :
    Confusable Text.isAsciiWord limitsReading limitsProject (lit "GAS_MAX" rfl) := by
  refine exists_conflict_iff.1 ⟨(lit "GAS_MAX" rfl, [lit "GAS_MAXI" rfl]), ?_, rfl⟩
  rw [conflicts_limits]
  exact List.mem_cons_self

theorem belowNamed_limits : BelowNamed limitsFile.results 6 limitsFunc := by
  refine ⟨0, limitsFunc, ⟨rfl, by decide, fun j g hg _ => ?_⟩, rfl⟩
  rw [List.mem_singleton.1 (List.mem_of_getElem? hg)]
  exact ⟨le_refl _, fun _ => Nat.zero_le j⟩

/-- `take` has the note, for the constant that it returns. -/
theorem inconsistency_notes_limits :
    ∃ text, Attached (audit (Run.plain limitsProject
      ((limitsTools.withNames Text.isAsciiWord limitsReading limitsProject fun _ => limitsLog).logs
        (session (limitsTools.withNames Text.isAsciiWord limitsReading limitsProject
          fun _ => limitsLog).build [.inconsistency] clean)))) limitsFile limitsFunc
      .inconsistency text :=
  (inconsistency_notes Text.isAsciiWord limitsReading limitsProject limitsTools
    (fun _ => limitsLog) readableNames_limits [.inconsistency] (List.mem_singleton_self _)
    (Run.plain _ _) limitsFile limitsFunc).1.2
    ⟨⟨List.mem_filter.2 ⟨List.mem_singleton_self _, by decide +kernel⟩, by decide +kernel,
      List.mem_singleton_self _⟩, by decide +kernel, lit "GAS_MAX" rfl, 6, confusable_limits,
      ⟨lit "    GAS_MAX" rfl, 4, by decide +kernel, by decide, by decide +kernel⟩,
      belowNamed_limits⟩

end Audit.Makefile
