import Rustle.Audit.Loaders
import Rustle.Audit.Matching

/-!
# The summary that `audit.py` computes

The logs are loaded into sets; each function of each analysed file is then
compared with every set, section by section, and the texts of the sections are
appended to four columns.  A run is one order in which the sets are iterated.

* `Detector`, `Tmp` — the detectors and the logs they leave.
* `Run` — the sets, each in the order of its iteration.
* `Section`, `sections` — the sections of the source, in their order.
* `noteColumns`, `fileRows` — the columns of a function, the rows of a file.
* `jsonMatrix`, `summaryMatrix` — the two value matrices that are written.
-/

namespace Audit

open Text

/-! ## Detectors -/

/-- The detectors whose findings are about one function. -/
inductive Finder where
  | promiseResult | extCall | reentrancy | complexLoop | transfer | round | divBeforeMul
  | unsafeMath | upgradeFunc | selfTransfer | timestamp | prepaidGas | unhandledPromise
  | yoctoAttach | unusedRet | lockCallback | nonCallbackPrivate | nonPrivateCallback
  | incorrectJsonType | publicInterface | storageGas | unregisteredReceiver | unsavedChanges
  | unclaimedStorageFee | nftApprovalCheck | nftOwnerCheck | tautology
  deriving DecidableEq, Repr

/-- The NEPs whose interface is checked, by the names of their logs. -/
inductive Nep where
  | nep141 | nep145 | nep148 | nep171 | nep177 | nep178 | nep181 | nep199 | nep245 | nep297
  | nep330 | nep366
  deriving DecidableEq, Repr

/-- `sorted(glob.glob(TMP_PATH + "/.nep*-interface.tmp"))` -/
def Nep.sorted : List Nep :=
  [.nep141, .nep145, .nep148, .nep171, .nep177, .nep178, .nep181, .nep199, .nep245, .nep297,
    .nep330, .nep366]

inductive Detector where
  | finder (d : Finder)
  | inconsistency
  | dupCollectionId
  | nepInterface (n : Nep)
  deriving DecidableEq, Repr

/-! ## Logs -/

/-- The formats of the logs of findings. -/
inductive Format where
  | pair | line | note | check | call
  deriving DecidableEq, Repr

/-- caller, line, callee -/
abbrev CallRecord := Str × Str × Str

abbrev Format.Record : Format → Type
  | pair => PairRecord
  | line => LineRecord
  | note => NoteRecord
  | check => CheckRecord
  | call => CallRecord

instance (φ : Format) : DecidableEq φ.Record :=
  match φ with
  | .pair => inferInstanceAs (DecidableEq PairRecord)
  | .line => inferInstanceAs (DecidableEq LineRecord)
  | .note => inferInstanceAs (DecidableEq NoteRecord)
  | .check => inferInstanceAs (DecidableEq CheckRecord)
  | .call => inferInstanceAs (DecidableEq CallRecord)

/-- `caller, line, callee = line.strip().split("@")` -/
def decodeCall : List Str → Option CallRecord
  | [caller, line, callee] => some (caller, line, callee)
  | _ => none

def Format.decode : (φ : Format) → List Str → Option φ.Record
  | pair => decodePair
  | line => decodeLine
  | note => decodeNote
  | check => decodeCheck
  | call => decodeCall

def Finder.format : Finder → Format
  | upgradeFunc | yoctoAttach | lockCallback | nonCallbackPrivate | nonPrivateCallback
  | publicInterface => .pair
  | promiseResult | extCall | reentrancy | complexLoop | transfer | round | divBeforeMul
  | unsafeMath | timestamp | unhandledPromise | unsavedChanges | tautology => .line
  | incorrectJsonType => .note
  | selfTransfer | prepaidGas | storageGas | unregisteredReceiver | unclaimedStorageFee
  | nftApprovalCheck | nftOwnerCheck => .check
  | unusedRet => .call

/-- Does the detector write `struct::trait::func` rather than a symbol? -/
def Finder.rustleFormat : Finder → Bool
  | lockCallback | nonCallbackPrivate | nonPrivateCallback | incorrectJsonType | unusedRet
  | publicInterface | tautology => true
  | _ => false

/-- The content of a log; that of the inconsistency log is the dictionary that
`json.load` returns. -/
abbrev Detector.Log : Detector → Type
  | inconsistency => List (Str × List Str)
  | _ => Str

/-- The directory of the logs; a log that does not exist is `none`. -/
abbrev Tmp := (D : Detector) → Option D.Log

/-- What the loader of a log adds to its set: nothing, when there is no log. -/
def loaded (tmp : Tmp) (d : Finder) : List d.format.Record :=
  match tmp (.finder d) with
  | none => []
  | some text => unlog d.format.decode text

/-! ## Projects -/

/-- What the report reads of a function that `findFunc` returns. -/
structure Func where
  name : Str
  struct : Str
  struct_trait : Str
  line_number : Int
  macros : Str
  deriving DecidableEq

/-- A file that the glob returns: its path below the project, the functions that
`findFunc` returns, and for each name the lines of its occurrences outside
comments. -/
structure SourceFile where
  rel : Str
  rel_head : rel.head? ≠ some '/'
  results : List Func
  occurrences : Str → List Int

structure Project where
  PROJ_PATH : Str
  files : List SourceFile
  rel_nodup : (files.map SourceFile.rel).Nodup

def Project.path (P : Project) (file : SourceFile) : Str := P.PROJ_PATH ++ '/' :: file.rel

/-- The directories between the project and the file. -/
def SourceFile.directories (file : SourceFile) : List Str := (file.rel.splitOn '/').dropLast

/-- `getFiles(PROJ_PATH, ignoreTest=True, ignoreMock=True)` -/
def getFiles (files : List SourceFile) : List SourceFile :=
  files.filter fun file => file.directories.all fun dir =>
    dir != lit "node_modules" rfl && dir != lit "target" rfl
      && !contains dir (lit "test" rfl) && !contains dir (lit "mock" rfl)

/-- A run: the analysed files and the loaded sets, each in the order of its
iteration. -/
structure Run (P : Project) (tmp : Tmp) where
  files : List SourceFile
  files_perm : files.Perm (getFiles P.files)
  set : (d : Finder) → List d.format.Record
  nodup : ∀ d, (set d).Nodup
  mem_set : ∀ d r, r ∈ set d ↔ r ∈ loaded tmp d

/-- The run that iterates in the order of the logs. -/
def Run.plain (P : Project) (tmp : Tmp) : Run P tmp where
  files := getFiles P.files
  files_perm := List.Perm.refl _
  set d := (loaded tmp d).dedup
  nodup _ := List.nodup_dedup _
  mem_set _ _ := List.mem_dedup

/-- The run that comes to the files in another order. -/
def Run.withFiles {P : Project} {tmp : Tmp} (run : Run P tmp) (files : List SourceFile)
    (h : files.Perm (getFiles P.files)) : Run P tmp := { run with files := files, files_perm := h }

/-- The run that iterates one set in another order. -/
def Run.reorder {P : Project} {tmp : Tmp} (run : Run P tmp) (d : Finder)
    (order : List d.format.Record) (h : order.Perm (run.set d)) : Run P tmp where
  files := run.files
  files_perm := run.files_perm
  set := Function.update run.set d order
  nodup d' := by
    by_cases hd : d' = d
    · subst hd
      rw [Function.update_self]
      exact h.nodup_iff.2 (run.nodup d')
    · rw [Function.update_of_ne hd]
      exact run.nodup d'
  mem_set d' r := by
    by_cases hd : d' = d
    · subst hd
      rw [Function.update_self, h.mem_iff]
      exact run.mem_set d' r
    · rw [Function.update_of_ne hd]
      exact run.mem_set d' r

/-- The run that iterates one set beginning with `r`. -/
def Run.promote {P : Project} {tmp : Tmp} (run : Run P tmp) (d : Finder) (r : d.format.Record)
    (hr : r ∈ run.set d) : Run P tmp :=
  run.reorder d (r :: (run.set d).erase r) (List.perm_cons_erase hr).symm

/-! ## Matching a record -/

/-- The condition of the sections on a record: the marked ones among the checks
do not count, and the logs without a file match in every file. -/
def accepts (rustle : Bool) (func : Func) (path : Str) : (φ : Format) → φ.Record → Bool
  | .pair, r =>
    structFuncNameMatch r.1 func.struct func.struct_trait func.name path (some r.2) rustle
  | .line, r =>
    structFuncNameMatch r.1 func.struct func.struct_trait func.name path (some r.2.1) rustle
  | .note, r =>
    structFuncNameMatch r.1 func.struct func.struct_trait func.name path (some r.2.1) rustle
  | .check, r =>
    r.2 == false
      && structFuncNameMatch r.1 func.struct func.struct_trait func.name path none rustle
  | .call, r => structFuncNameMatch r.1 func.struct func.struct_trait func.name path none rustle

def Finder.accepts (d : Finder) (func : Func) (path : Str) (r : d.format.Record) : Bool :=
  Audit.accepts d.rustleFormat func path d.format r

/-! ## Sections -/

inductive Severity where
  | high | medium | low | info
  deriving DecidableEq, Repr

/-- A section of the loop over the functions: one that notes the first record it
accepts, one that lists the lines of all it accepts, and the two that have a
shape of their own. -/
inductive Section where
  | first (d : Finder) (column : Severity) (text : d.format.Record → Str)
  | lines (d : Finder) (column : Severity) (label : Str) (line : d.format.Record → Int)
  | unusedRet
  | inconsistency

def Section.detector : Section → Detector
  | first d .. => .finder d
  | lines d .. => .finder d
  | unusedRet => .finder .unusedRet
  | inconsistency => .inconsistency

def Section.column : Section → Severity
  | first _ column _ => column
  | lines _ column .. => column
  | unusedRet => .low
  | inconsistency => .info

def LineRecord.line (r : LineRecord) : Int := r.2.2

def NoteRecord.note (r : NoteRecord) : Str := r.2.2

/-- The sections, in the order of the source. -/
def sections : List Section :=
  [.first .reentrancy .high fun _ => lit "possible reentrancy; " rfl,
   .lines .complexLoop .info (lit "loop with complex logic at <" rfl) LineRecord.line,
   .lines .transfer .info (lit "transfer at <" rfl) LineRecord.line,
   .lines .round .medium (lit "rounding at <" rfl) LineRecord.line,
   .lines .divBeforeMul .medium (lit "div-before-mul at <" rfl) LineRecord.line,
   .lines .unsafeMath .high (lit "unsafe math at <" rfl) LineRecord.line,
   .lines .timestamp .info (lit "timestamp use at <" rfl) LineRecord.line,
   .first .upgradeFunc .info fun _ => lit "upgrade func; " rfl,
   .first .selfTransfer .high fun _ => lit "require self-transfer check; " rfl,
   .first .prepaidGas .low fun _ => lit "require prepaid_gas check; " rfl,
   .lines .unhandledPromise .high (lit "unhandled promise at <" rfl) LineRecord.line,
   .lines .extCall .info (lit "call external function at <" rfl) LineRecord.line,
   .lines .promiseResult .info (lit "promise_result at <" rfl) LineRecord.line,
   .first .yoctoAttach .medium fun _ =>
     lit "require assert_one_yocto check for privilege function; " rfl,
   .first .lockCallback .medium fun _ =>
     lit "assert in callback function may lock contract when failed; " rfl,
   .first .nonCallbackPrivate .low fun _ =>
     lit "macro #[private] used in non-callback function; " rfl,
   .first .nonPrivateCallback .high fun _ =>
     lit "missing #[private] macro for callback function; " rfl,
   .first .incorrectJsonType .high NoteRecord.note,
   .unusedRet,
   .first .publicInterface .info fun _ => lit "public interface; " rfl,
   .first .storageGas .low fun _ => lit "require gas check for storage expansion; " rfl,
   .first .unregisteredReceiver .medium fun _ =>
     lit "should panic when the receiver is not registered; " rfl,
   .lines .unsavedChanges .high (lit "unsaved changes to map(s) at <" rfl) LineRecord.line,
   .first .unclaimedStorageFee .low fun _ =>
     lit "require balance check for storage fee; " rfl,
   .first .nftApprovalCheck .high fun _ => lit "require approval_id check; " rfl,
   .first .nftOwnerCheck .high fun _ => lit "require owner check; " rfl,
   .inconsistency]

/-- `for r in set: if …: note += text; break` -/
def firstLoop {α : Type} (accept : α → Bool) (text : α → Str) (note : Str) : List α → Str
  | [] => note
  | r :: rest => if accept r then note ++ text r else firstLoop accept text note rest

/-- `"L" + str(line) + " "` -/
def lineToken (line : Int) : Str := 'L' :: intStr line ++ [' ']

/-- The loop with `hasPrint`. -/
def linesLoop {α : Type} (accept : α → Bool) (label : Str) (line : α → Int) :
    Bool → Str → List α → Bool × Str
  | hasPrint, note, [] => (hasPrint, note)
  | hasPrint, note, r :: rest =>
    if accept r then
      linesLoop accept label line true
        (note ++ (if hasPrint then [] else label) ++ lineToken (line r)) rest
    else linesLoop accept label line hasPrint note rest

/-- The loop, and the closing of the list. -/
def linesNote {α : Type} (accept : α → Bool) (label : Str) (line : α → Int) (note : Str)
    (set : List α) : Str :=
  match linesLoop accept label line false note set with
  | (true, note) => rstrip note ++ lit ">; " rfl
  | (false, note) => note

variable {P : Project} {tmp : Tmp}

/-- `unused_ret_dict`: its keys are in the order of the log, the set of each key
in the order of its iteration. -/
def unusedRetDict (run : Run P tmp) : List (Str × List (Str × Str)) :=
  ((loaded tmp .unusedRet).map fun r : CallRecord => r.1).eraseDups.map fun caller =>
    (caller, ((run.set .unusedRet).filter fun r : CallRecord => r.1 = caller).map
      fun r : CallRecord => r.2)

/-- `callee + "(L" + line + ") "` -/
def callToken (call : Str × Str) : Str := call.2 ++ lit "(L" rfl ++ call.1 ++ lit ") " rfl

def unusedRetLoop (func : Func) (path note : Str) : List (Str × List (Str × Str)) → Str
  | [] => note
  | (caller, calls) :: rest =>
    if structFuncNameMatch caller func.struct func.struct_trait func.name path none true then
      rstrip (calls.foldl (fun note call => note ++ callToken call)
        (note ++ lit "call to <" rfl)) ++ lit "> with unused return value; " rfl
    else unusedRetLoop func path note rest

/-- The name of the closest function above a line. -/
def line2funcName (line : Int) (results : List Func) : Str :=
  (results.foldl (fun (closest : Option Int × Str) func =>
    if line > func.line_number then
      let dist := line - func.line_number
      if closest.1.all fun d => dist < d then (some dist, func.name) else closest
    else closest) (none, [])).2

/-- `str(names).replace("'", "")` -/
def namesStr (names : List Str) : Str :=
  ['['] ++ (lit ", " rfl).intercalate names ++ [']']

/-- The text of one occurrence of an inconsistent name. -/
def inconsistencyText (key : Str) (line : Int) (names : List Str) : Str :=
  lit "used of " rfl ++ key ++ lit " at " rfl ++ intStr line
    ++ lit " may be conflict with " rfl ++ namesStr names ++ lit "; " rfl

def inconsistencyNote (file : SourceFile) (func : Func) (dict : List (Str × List Str))
    (note : Str) : Str :=
  dict.foldl (fun note entry => (file.occurrences entry.1).foldl (fun note line =>
    if line2funcName line file.results ≠ func.name then note
    else note ++ inconsistencyText entry.1 line entry.2) note) note

/-- What a section does to its column. -/
def Section.append (run : Run P tmp) (file : SourceFile) (func : Func)
    (note : Str) : Section → Str
  | first d _ text => firstLoop (d.accepts func (P.path file)) text note (run.set d)
  | lines d _ label line => linesNote (d.accepts func (P.path file)) label line note (run.set d)
  | unusedRet => unusedRetLoop func (P.path file) note (unusedRetDict run)
  | inconsistency => inconsistencyNote file func ((tmp .inconsistency).getD []) note

/-! ## Rows -/

/-- `note_high`, `note_medium`, `note_low` and `note_info` of a function. -/
def noteColumns (run : Run P tmp) (file : SourceFile) (func : Func) :
    Severity → Str :=
  sections.foldl (fun notes s => Function.update notes s.column
    (s.append run file func (notes s.column))) fun _ => []

/-- `path[len(PROJ_PATH):].lstrip("/")` -/
def relPath (P : Project) (path : Str) : Str :=
  (path.drop P.PROJ_PATH.length).dropWhile (· == '/')

/-- The row of a function, unless it is a test or has no notes. -/
def funcRow (run : Run P tmp) (file : SourceFile) (func : Func) :
    Option (List Str) :=
  if contains func.macros (lit "test" rfl) then none
  else
    let note := fun c => strip (noteColumns run file func c)
    if note .high ≠ [] ∨ note .medium ≠ [] ∨ note .low ≠ [] ∨ note .info ≠ [] then
      some [relPath P (P.path file), func.name, note .high, note .medium, note .low, note .info]
    else none

/-- The rows of a file, if it lies under `/src/`. -/
def fileRows (run : Run P tmp) (file : SourceFile) : List (List Str) :=
  if contains (P.path file) (lit "/src/" rfl) then
    file.results.filterMap (funcRow run file)
  else []

/-! ## The matrices -/

/-- `json_value_matrix` -/
def jsonMatrix (run : Run P tmp) : List (List Str) := run.files.flatMap (fileRows run)

/-- `unimplemented_interface_list` -/
def unimplementedInterfaces (tmp : Tmp) : List Str :=
  Nep.sorted.flatMap fun n =>
    match tmp (.nepInterface n) with
    | none => []
    | some text => ((lines text).map strip).mergeSort

/-- `summary_low` -/
def summaryLow (run : Run P tmp) : Str :=
  if (run.set .upgradeFunc).length = 0 then lit "No upgrade function found; " rfl else []

/-- `unique_collection_id_log` -/
def uniqueCollectionIdLog (tmp : Tmp) : Str :=
  match tmp .dupCollectionId with
  | none => []
  | some text => universalNewlines text

/-- `summary_medium` -/
def summaryMedium (tmp : Tmp) : Str :=
  let log := uniqueCollectionIdLog tmp
  let missing := unimplementedInterfaces tmp
  if missing.length > 0 then
    let head := lit "Unimplemented NEP interface" rfl
      ++ (if missing.length = 1 then [] else lit "s" rfl) ++ lit ": " rfl
    (missing.foldl (fun note func => note ++ func ++ lit ", " rfl) (log ++ head)).dropLast.dropLast
      ++ lit "; " rfl
  else log

/-- The last row of `summary_value_matrix`. -/
def globalRow (run : Run P tmp) : List Str :=
  [lit "global" rfl, lit "global" rfl, [], strip (summaryMedium tmp), strip (summaryLow run), []]

/-- `summary_value_matrix` -/
def summaryMatrix (run : Run P tmp) : List (List Str) :=
  jsonMatrix run ++ [globalRow run]

end Audit
