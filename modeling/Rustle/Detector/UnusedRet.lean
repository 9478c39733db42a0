import Rustle.Library.Dict
import Rustle.Source.EnclosingBlock

/-!
# `unused-ret`: calls whose value is not used

The detector searches the files for statements that are calls, and looks up the function
that is called in a list of the functions of all files.

* `voidCall`, `statements` — the pattern, and the statements of a file.
* `target_func`, `writtenLine`, `unusedRet` — the function that is called, what is written
  for a statement, and the log.
* `BareCall` — a call without receiver of the only free function of its name in its file.
* `written_own_iff` — when a line is written exactly if the value of **this** function counts.
-/

namespace UnusedRet

open Audit Backtrack Pattern
open FindFunc (Result Impl cells cutComments findFunc groupText lineToStruct matchesOf newlines)
open Text (lit isSpace intStr endswith contains)

/-! ## The detector -/

/-- A file that `getFiles` returns. -/
structure SourceFile where
  path : Str
  text : Str

/-- The groups of the pattern. -/
inductive Group where
  | struct_name | name
  deriving DecidableEq

/-- A statement that is a call: the line where it ends, the last part of its receiver, and
the name that is called. -/
structure Statement where
  line_no : Nat
  struct_name : Option Str
  name : Str
  deriving DecidableEq

/-- `(impl)\s+((?P<trait>[^\s]+)\s+for\s+)?(?P<struct>[^\s]+)\s*\{` -/
def implHeader : Pattern FindFunc.Group :=
  let solid := .char fun c => !isSpace c
  let space := .char isSpace
  seqs
    [literal (lit "impl" rfl), many1 space,
      opt (seqs [.group .trait (many1 solid), many1 space, literal (lit "for" rfl), many1 space]),
      .group .struct (many1 solid), .many space, .char (· == '{')]

/-- `findImpl(filename)`, where modules are left out. -/
def findImpl (text : Str) : List Impl :=
  let string := cutComments (cells text)
  (finditer Prod.fst implHeader string).map fun m =>
    ⟨groupText m .struct, groupText m .trait, newlines string m.start + 1⟩

/-- `Result<\(\)(,\s+(.+))?>` -/
def unitResult : Pattern Group :=
  seqs
    [literal (lit "Result<()" rfl),
      opt (seqs [.char (· == ','), many1 (.char isSpace), many1 (.char (· != '\n'))]),
      .char (· == '>')]

/-- `ret != "" and not re.match(r"Result<\(\)(,\s+(.+))?>", ret)` -/
def counts (ret : Str) : Bool := ret != [] && !(matchAt id unitResult ret).isSome

/-- `all_calls`: the callees of a place, `file@line_no`; `none` is an exception. -/
def readCalls : List Str → Dict Str (List Str) → Option (Dict Str (List Str))
  | [], all_calls => some all_calls
  | line :: lines, all_calls =>
    match (Text.strip line).splitOn '@' with
    | [callee_llvm, file, line_no] =>
      let loc := file ++ '@' :: line_no
      readCalls lines (all_calls.set loc ((all_calls.get? loc).getD [] ++ [callee_llvm]))
    | _ => none

/-- The function that a call with a receiver is taken for. -/
def receiverTarget (all_funcs : List Result) (all_calls : Dict Str (List Str)) (path : Str)
    (s : Statement) : Option Result :=
  all_calls.entries.findSome? fun e =>
    if endswith (path ++ '@' :: intStr s.line_no) e.1 then
      e.2.findSome? fun callee_llvm =>
        if contains callee_llvm s.name then
          all_funcs.find? fun func =>
            structFuncNameMatch callee_llvm func.struct func.struct_trait func.name path none false
        else none
    else none

/-- The function that a call is taken for. -/
def target_func (all_funcs : List Result) (all_calls : Dict Str (List Str)) (path : Str)
    (s : Statement) : Option Result :=
  if s.struct_name.isSome then receiverTarget all_funcs all_calls path s
  else all_funcs.find? fun i => i.name = s.name

section

/- The character class `\w`. -/
variable (isWord : Char → Bool)

/-- `(;|\{)\s+((?P<struct_name>\w+)\.)*(?P<name>\w+)\([^\)]+\)\??;` -/
def voidCall : Pattern Group :=
  seqs
    [.alt (.char (· == ';')) (.char (· == '{')), many1 (.char isSpace),
      .many (.seq (.group .struct_name (many1 (.char isWord))) (.char (· == '.'))),
      .group .name (many1 (.char isWord)), .char (· == '('), many1 (.char (· != ')')),
      .char (· == ')'), opt (.char (· == '?')), .char (· == ';')]

/-- The statements of a file. -/
def statements (text : Str) : List Statement :=
  let string := LockCallback.dropComments (Text.universalNewlines text)
  (finditer id (voidCall isWord) string).map fun m =>
    ⟨(string.take m.stop).count '\n' + 1, m.group? .struct_name,
      Text.strip ((m.group? .name).getD [])⟩

/-- The functions of all files, in the order in which these are gathered. -/
def allFuncs (files : List SourceFile) : List Result :=
  files.flatMap fun file => findFunc isWord false file.text

/-- What is written for a statement. -/
def writtenLine (all_funcs : List Result) (all_calls : Dict Str (List Str)) (file : SourceFile)
    (s : Statement) : Option Str :=
  (target_func all_funcs all_calls file.path s).bind fun target =>
    if counts target.ret then
      let curStruct := lineToStruct s.line_no (findImpl file.text)
      let curFunc :=
        line2funcName s.line_no ((findFunc isWord false file.text).map Result.func)
      some (curStruct.1 ++ colons ++ curStruct.2 ++ colons ++ curFunc ++ '@' :: intStr s.line_no ++
        '@' :: s.name ++ ['\n'])
    else none

/-- The log, for the orders in which the files are gathered and visited, and the lines of
the log of calls. -/
def unusedRet (gathered visited : List SourceFile) (calls : List Str) : Option Str :=
  (readCalls calls Dict.empty).map fun all_calls =>
    visited.flatMap fun file =>
      (statements isWord file.text).flatMap fun s =>
        (writtenLine isWord (allFuncs isWord gathered) all_calls file s).getD []

/-! ## The functions of the files -/

/-- The functions of a file with their return types. -/
def declared (text : Str) : List (Str × Str) :=
  (matchesOf isWord false text).map fun m => (groupText m .name, Text.strip (groupText m .ret))

/-- The first function of a name, in the order of the files, has a return type. -/
def First (files : List SourceFile) (name ret : Str) : Prop :=
  ∃ before file after, files = before ++ file :: after ∧
    (∀ f ∈ before, (declared isWord f.text).lookup name = none) ∧
    (declared isWord file.text).lookup name = some ret

/-- A call without receiver, and the function that its file has for it: the only free one
of its name. -/
structure BareCall (files : List SourceFile) where
  file : SourceFile
  file_mem : file ∈ files
  statement : Statement
  statement_mem : statement ∈ statements isWord file.text
  bare : statement.struct_name = none
  /-- Is the function at an index free? -/
  free : Nat → Prop
  own : Nat
  ret : Str
  own_declared : (declared isWord file.text)[own]? = some (statement.name, ret)
  own_free : free own
  own_only : ∀ i r, (declared isWord file.text)[i]? = some (statement.name, r) → free i → i = own

end

section

variable {isWord : Char → Bool}

/-- `findFunc` keeps the names and the return types. -/
theorem map_findFunc (text : Str) :
    (findFunc isWord false text).map (fun r => (r.name, r.ret)) = declared isWord text := by
  have hfirst : (FindFunc.firstPass isWord false text).map (fun r => (r.name, r.ret))
      = declared isWord text := by
    rw [FindFunc.firstPass, List.map_map]
    rfl
  rw [findFunc]
  split
  · rename_i hnil
    rw [← hfirst, hnil]
  · rw [FindFunc.thirdPass_map fun r modifier => rfl, FindFunc.secondPass,
      FindFunc.runLines_map fun b n r => rfl, hfirst]

theorem map_find? (name : Str) (rs : List Result) :
    (rs.find? fun r => r.name = name).map Result.ret
      = (rs.map fun r => (r.name, r.ret)).lookup name := by
  induction rs with
  | nil => rfl
  | cons r rs ih =>
    rw [List.map_cons, List.lookup_cons]
    by_cases h : r.name = name
    · rw [List.find?_cons_of_pos (by simpa using h), h, beq_self_eq_true]
      rfl
    · rw [List.find?_cons_of_neg (by simpa using h), ih, beq_false_of_ne (Ne.symm h)]

/-- The search in the list of all functions. -/
theorem map_find?_allFuncs (files : List SourceFile) (name : Str) :
    ((allFuncs isWord files).find? fun r => r.name = name).map Result.ret
      = files.findSome? fun file => (declared isWord file.text).lookup name := by
  induction files with
  | nil => rfl
  | cons file files ih =>
    rw [allFuncs, List.flatMap_cons, List.find?_append, Option.map_or, map_find?, map_findFunc,
      List.findSome?_cons, ← allFuncs, ih]
    cases (declared isWord file.text).lookup name with
    | none => rfl
    | some ret => rfl

theorem first_iff {files : List SourceFile} {name ret : Str} :
    First isWord files name ret ↔
      ((allFuncs isWord files).find? fun r => r.name = name).map Result.ret = some ret := by
  rw [map_find?_allFuncs, List.findSome?_eq_some_iff, First]
  constructor
  · rintro ⟨before, file, after, hfiles, hbefore, hfile⟩
    exact ⟨before, file, after, hfiles, hfile, hbefore⟩
  · rintro ⟨before, file, after, hfiles, hfile, hbefore⟩
    exact ⟨before, file, after, hfiles, hbefore, hfile⟩

theorem First.unique {files : List SourceFile} {name ret ret' : Str}
    (h : First isWord files name ret) (h' : First isWord files name ret') : ret = ret' := by
  rw [first_iff] at h h'
  rw [h] at h'
  exact Option.some.inj h'

/-- Some function of the name comes first. -/
theorem BareCall.exists_first {files : List SourceFile} (c : BareCall isWord files) :
    ∃ ret, First isWord files c.statement.name ret := by
  have hlookup : ((declared isWord c.file.text).lookup c.statement.name).isSome = true := by
    rw [List.lookup_isSome_iff]
    exact ⟨_, List.mem_of_getElem? c.own_declared, beq_self_eq_true _⟩
  have hsome : (files.findSome? fun file =>
      (declared isWord file.text).lookup c.statement.name).isSome = true := by
    rw [List.findSome?_isSome_iff]
    exact ⟨c.file, c.file_mem, hlookup⟩
  obtain ⟨ret, hret⟩ := Option.isSome_iff_exists.1 hsome
  exact ⟨ret, first_iff.2 (by rw [map_find?_allFuncs, hret])⟩

/-- A line is written if the value of the first function of the name counts. -/
theorem writtenLine_isSome_iff {files : List SourceFile} {all_calls : Dict Str (List Str)}
    {file : SourceFile} {s : Statement} (hbare : s.struct_name = none) :
    (writtenLine isWord (allFuncs isWord files) all_calls file s).isSome = true ↔
      ∃ ret, First isWord files s.name ret ∧ counts ret = true := by
  have htarget : target_func (allFuncs isWord files) all_calls file.path s
      = (allFuncs isWord files).find? fun i => i.name = s.name := by
    rw [target_func, hbare]
    rfl
  rw [writtenLine, htarget]
  constructor
  · intro h
    obtain ⟨line, hline⟩ := Option.isSome_iff_exists.1 h
    obtain ⟨target, hfind, hif⟩ := Option.bind_eq_some_iff.1 hline
    refine ⟨target.ret, first_iff.2 (by rw [hfind, Option.map_some]), ?_⟩
    by_contra hcounts
    rw [if_neg hcounts] at hif
    cases hif
  · rintro ⟨ret, hfirst, hcounts⟩
    obtain ⟨target, hfind, rfl⟩ := Option.map_eq_some_iff.1 (first_iff.1 hfirst)
    rw [hfind, Option.bind_some, if_pos hcounts]
    rfl

/-- A line is written for a call exactly if the value of the own function of its file
counts, whenever the first function of that name in the order of the files agrees with it
in this. -/
theorem written_own_iff (files : List SourceFile) (c : BareCall isWord files)
    (all_calls : Dict Str (List Str)) :
    ((writtenLine isWord (allFuncs isWord files) all_calls c.file c.statement).isSome = true ↔
        counts c.ret = true) ↔
      ∀ ret, First isWord files c.statement.name ret →
        (counts ret = true ↔ counts c.ret = true) := by
  obtain ⟨ret₀, hfirst⟩ := c.exists_first
  have hwritten : (writtenLine isWord (allFuncs isWord files) all_calls c.file
      c.statement).isSome = true ↔ counts ret₀ = true := by
    rw [writtenLine_isSome_iff c.bare]
    constructor
    · rintro ⟨ret, hret, hcounts⟩
      rwa [hfirst.unique hret]
    · intro hcounts
      exact ⟨ret₀, hfirst, hcounts⟩
  rw [hwritten]
  constructor
  · intro h ret hret
    rwa [← hfirst.unique hret]
  · intro h
    exact h ret₀ hfirst

end

/-- A method with a value, in a file that is gathered first. -/
def coinFile : SourceFile where
  path := lit "coin.rs" rfl
  text := lit "impl Coin \x7b\n    fn burn(x: u8) -> u8 \x7b\n        x\n    \x7d\n\x7d\n" rfl

/-- A function without value, and a call of it. -/
def libFile : SourceFile where
  path := lit "lib.rs" rfl
  text := lit "fn burn(x: u8) \x7b\n\x7d\nfn run() \x7b\n    burn(1);\n\x7d\n" rfl

theorem declared_libFile :
    declared Text.isAsciiWord libFile.text = [(lit "burn" rfl, []), (lit "run" rfl, [])] := by
  decide +kernel

theorem burn_declared :
    (declared Text.isAsciiWord libFile.text)[0]? = some (lit "burn" rfl, []) := by
  rw [declared_libFile]
  rfl

theorem burn_called :
    (⟨4, none, lit "burn" rfl⟩ : Statement) ∈ statements Text.isAsciiWord libFile.text := by
  have h : statements Text.isAsciiWord libFile.text = [⟨4, none, lit "burn" rfl⟩] := by
    decide +kernel
  rw [h]
  exact List.mem_cons_self

theorem burn_first {i : Nat} {r : Str}
    (h : (declared Text.isAsciiWord libFile.text)[i]? = some (lit "burn" rfl, r)) : i = 0 := by
  obtain ⟨hi, heq⟩ := List.getElem?_eq_some_iff.1 h
  by_contra hne
  have hlength : (declared Text.isAsciiWord libFile.text).length = 2 := by
    rw [declared_libFile]
    rfl
  obtain rfl : i = 1 := by omega
  rw [declared_libFile] at h
  cases h

/-- The call in the second file. -/
def burnCall : BareCall Text.isAsciiWord [coinFile, libFile] where
  file := libFile
  file_mem := List.mem_cons_of_mem _ List.mem_cons_self
  statement := ⟨4, none, lit "burn" rfl⟩
  statement_mem := burn_called
  bare := rfl
  free _ := True
  own := 0
  ret := []
  own_declared := burn_declared
  own_free := trivial
  own_only _ _ h _ := burn_first h

/-- The call is taken for one of the method. -/
theorem burn_taken_for_method :
    ¬ ∀ (isWord : Char → Bool) (files : List SourceFile) (c : BareCall isWord files)
      (all_calls : Dict Str (List Str)),
      (writtenLine isWord (allFuncs isWord files) all_calls c.file c.statement).isSome = true ↔
        counts c.ret = true := by
  intro h
  have hcall := h Text.isAsciiWord [coinFile, libFile] burnCall Dict.empty
  have hwritten : (writtenLine Text.isAsciiWord (allFuncs Text.isAsciiWord [coinFile, libFile])
      Dict.empty libFile ⟨4, none, lit "burn" rfl⟩).isSome = true := by
    decide +kernel
  have hcounts := hcall.1 hwritten
  exact absurd hcounts (by decide)

end UnusedRet
