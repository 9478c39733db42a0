import Rustle.Detector.LockCallback
import Rustle.Library.Backtrack

/-!
# `findFunc`: the functions of a source file

The functions are searched by a pattern in a text from which comments and test
modules have been removed; two more passes over the file correct their lines and
their visibility, and add their modifiers.

* `prepare` — the text that is searched, each character with its place in the file.
* `findImpl`, `lineToStruct` — the headers of blocks, and the closest one above.
* `firstPass`, `secondPass`, `findFunc` — the passes.
-/

namespace FindFunc

open Backtrack Pattern
open Text (lit isSpace)

/-- A character of the file with its offset. -/
abbrev Cell := Char × Nat

/-- `file.read()` -/
def cells (text : Str) : List Cell := (Text.universalNewlines text).zipIdx

/-- The characters of some cells. -/
def chars (s : List Cell) : Str := s.map Prod.fst

/-- `string[0:k].count("\n")` -/
def newlines (string : List Cell) (k : Nat) : Nat := (chars (string.take k)).count '\n'

/-! ## Patterns -/

/-- The groups of the patterns.  `keyword` is that of the word `fn` and not in the
source, where nothing asks for it. -/
inductive Group where
  | macros | indent | vis | hasCrate | keyword | name | trait | args | ret | struct
  deriving DecidableEq

/-- `\s` -/
def space : Pattern Group := .char isSpace

def one (c : Char) : Pattern Group := .char (· == c)

/-- A character that is none of some. -/
def noneOf (cs : Str) : Pattern Group := .char fun c => !cs.contains c

/-- ` +//[^\n]+\n` -/
def trailingComment : Pattern Group :=
  seqs [many1 (one ' '), literal ['/', '/'], many1 (noneOf ['\n']), one '\n']

/-- `\s*//.+` -/
def commentLine : Pattern Group :=
  seqs [.many space, literal ['/', '/'], many1 (noneOf ['\n'])]

/-- `(impl|mod)\s+((?P<trait>[^\s]+)\s+for\s+)?(?P<struct>[^\s]+)\s*\{` -/
def blockHeader : Pattern Group :=
  let solid := .char fun c => !isSpace c
  seqs
    [.alt (literal (lit "impl" rfl)) (literal (lit "mod" rfl)), many1 space,
      opt (seqs [.group .trait (many1 solid), many1 space, literal (lit "for" rfl), many1 space]),
      .group .struct (many1 solid), .many space, one '{']

section

/- The character class `\w`. -/
variable (isWord : Char → Bool)

def word : Pattern Group := .char isWord

/-- `#\[cfg\(test\)\]\n+mod\s+\w+\s*\{(.|\s)+\n\}`, with one class for `(.|\s)`. -/
def testModule : Pattern Group :=
  seqs
    [literal (lit "#[cfg(test)]" rfl), many1 (one '\n'), literal (lit "mod" rfl), many1 space,
      many1 (word isWord), .many space, one '{',
      many1 (.char fun c => c != '\n' || isSpace c), literal ['\n', '}']]

/-- `(#\[[^\]]+\]\s*)+\n` -/
def attributes : Pattern Group :=
  .seq (many1 (seqs [literal ['#', '['], many1 (noneOf [']']), one ']', .many space]))
    (one '\n')

/-- The pattern of a function: attributes, indentation, visibility, `fn`, the name, the
parameters, the result, and the brace that opens the body. -/
def funcPattern : Pattern Group :=
  seqs
    [opt (.group .macros attributes), .group .indent (.many (one ' ')),
      opt (.group .vis (.seq (literal (lit "pub" rfl)) (.many space))),
      opt (.group .hasCrate (.seq (literal (lit "(crate)" rfl)) (.many space))),
      opt (seqs [literal (lit "extern" rfl), many1 space, literal ['"', 'C', '"'], .many space]),
      opt (.seq (literal (lit "async" rfl)) (.many space)),
      .group .keyword (literal (lit "fn" rfl)), many1 space,
      .group .name (many1 (word isWord)), .many space,
      opt (.group .trait (seqs [one '<', many1 (noneOf ['>']), one '>'])), .many space,
      one '(', .group .args (.many (noneOf [')'])), one ')', .many space,
      opt (seqs [literal ['-', '>'], .many space, .group .ret (many1 (noneOf ['{', ';']))]),
      .many space, opt (.seq (literal (lit "where" rfl)) (.many (noneOf ['{']))), .many space,
      one '{']

/-- `.+fn\s+(?P<func_name>\w+).+`, on a line without its newline. -/
def funcLine : Pattern Group :=
  let dot := noneOf ['\n']
  seqs
    [many1 dot, literal (lit "fn" rfl), many1 space, .group .name (many1 (word isWord)), many1 dot]

/-- `impl\s*\w+\s*{\s*` -/
def implLine : Pattern Group :=
  seqs [literal (lit "impl" rfl), .many space, many1 (word isWord), .many space, one '{',
    .many space]

end

/-- `}\s*` -/
def closingLine : Pattern Group := .seq (one '}') (.many space)

/-! ## The text that is searched -/

/-- `re.sub(r" +//[^\n]+\n", "\n", _)`: the newline stays. -/
def cutComments (s : List Cell) : List Cell :=
  Backtrack.sub Prod.fst trailingComment (fun m => m.getLast?.toList) s

/-- `.replace("#[allow(unused)]", "")` -/
def cutAllows (s : List Cell) : List Cell :=
  Backtrack.sub Prod.fst (literal (lit "#[allow(unused)]" rfl) : Pattern Group) (fun _ => []) s

section

variable (isWord : Char → Bool)

def cutTests (s : List Cell) : List Cell :=
  Backtrack.sub Prod.fst (testModule isWord) (fun _ => []) s

/-- The text that is searched for functions. -/
def prepare (text : Str) : List Cell := cutTests isWord (cutAllows (cutComments (cells text)))

end

/-! ## Blocks -/

/-- A header of a block. -/
structure Impl where
  struct : Str
  trait : Str
  line_number : Int
  deriving DecidableEq

/-- The characters of a group, nothing when it takes no part in the match. -/
def groupText (m : Match Group Cell) (g : Group) : Str := ((m.group? g).map chars).getD []

/-- `findImpl(filename, includeMod=True)` -/
def findImpl (text : Str) : List Impl :=
  let string := cutComments (cells text)
  (finditer Prod.fst blockHeader string).map fun m =>
    ⟨groupText m .struct, groupText m .trait, newlines string m.start + 1⟩

/-- The state of the loop of `lineToStruct`: the distance and the closest header so far. -/
def closestImpl (line : Int) (impls : List Impl) : Option Int × Str × Str :=
  impls.foldl (fun closest impl =>
    if line ≥ impl.line_number then
      if closest.1.all fun d => line - impl.line_number < d then
        (some (line - impl.line_number), impl.struct, impl.trait)
      else closest
    else closest) (none, [], [])

/-- `lineToStruct`: the struct and the trait. -/
def lineToStruct (line : Int) (impls : List Impl) : Str × Str := (closestImpl line impls).2

/-! ## The first pass -/

/-- A function that is found. -/
structure Result where
  name : Str
  struct : Str
  struct_trait : Str
  line_number : Int
  modifier : Str
  macros : Str
  visibility : Str
  args : Str
  ret : Str
  deriving DecidableEq

/-- `s.replace(c, w)` -/
def replaceChar (c : Char) (w : Str) (s : Str) : Str := s.flatMap fun d => if d = c then w else [d]

/-- `macro.replace(" ", "").strip("\n").replace("\n", "; ")` -/
def macroText (s : Str) : Str :=
  let stripped := ((replaceChar ' ' [] s).dropWhile (· == '\n')).rdropWhile (· == '\n')
  replaceChar '\n' (lit "; " rfl) stripped

/-- `//.+\n` -/
def wholeComment : Pattern Group :=
  seqs [literal ['/', '/'], many1 (noneOf ['\n']), one '\n']

/-- The text of the parameters, without comments, blanks and newlines, and with a blank
behind each colon and each comma. -/
def argsText (s : Str) : Str :=
  replaceChar ',' (lit ", " rfl) (replaceChar ':' (lit ": " rfl)
    (replaceChar '\n' [] (replaceChar ' ' [] (Backtrack.sub id wholeComment (fun _ => []) s))))

def visibilityText (m : Match Group Cell) : Str :=
  if Text.contains (groupText m .macros) (lit "#[private]" rfl) ∨ groupText m .hasCrate ≠ [] then
    lit "internal" rfl
  else if lit "pub" rfl <+: groupText m .vis then lit "public" rfl
  else lit "private" rfl

/-- `string[0 : match.start()].count("\n") + 2`, which the source calls not accurate. -/
def estimate (string : List Cell) (m : Match Group Cell) : Int := newlines string m.start + 2

/-- What is recorded for a match. -/
def result (impls : List Impl) (string : List Cell) (m : Match Group Cell) : Result :=
  let block :=
    if ' ' ∈ groupText m .indent then lineToStruct (estimate string m) impls else ([], [])
  { name := groupText m .name
    struct := block.1
    struct_trait := block.2
    line_number := estimate string m
    modifier := []
    macros := macroText (groupText m .macros)
    visibility := visibilityText m
    args := argsText (groupText m .args)
    ret := Text.strip (groupText m .ret) }

section

variable (isWord : Char → Bool)

/-- The matches of the pattern, without the tests if these are to be ignored. -/
def matchesOf (ignoreTest : Bool) (text : Str) : List (Match Group Cell) :=
  (finditer Prod.fst (funcPattern isWord) (prepare isWord text)).filter fun m =>
    !(ignoreTest && Text.contains (groupText m .macros) (lit "#[test]" rfl))

def firstPass (ignoreTest : Bool) (text : Str) : List Result :=
  (matchesOf isWord ignoreTest text).map (result (findImpl text) (prepare isWord text))

/-! ## The second pass -/

/-- The name on a line that is taken for the start of a function. -/
def recognised (line : Str) : Option Str :=
  if (matchAt id commentLine line).isSome then none
  else
    (matchAt id (funcLine isWord) line).map fun o =>
      (((o.groups.find? fun e => e.1 = .name).map Prod.snd).getD [])

/-- The first function of a name that is at most four lines off. -/
def taken (results : List Result) (name : Str) (n : Nat) : Option Nat :=
  results.findIdx? fun r => r.name = name ∧ (r.line_number - (n : Int)).natAbs ≤ 4

/-- The state of the second pass. -/
structure State where
  line_number : Nat
  last_impl_bindgen : Bool
  prev_line : Str
  results : List Result

/-- What a line that names a function does to the function it takes. -/
def correct (bindgen : Bool) (n : Nat) (r : Result) : Result :=
  { r with
    line_number := n
    visibility := if bindgen then r.visibility ++ lit "(near_bindgen)" rfl else r.visibility }

/-- The functions after a line, the `n`-th of the file. -/
def correctResults (bindgen : Bool) (n : Nat) (line : Str) (results : List Result) : List Result :=
  match recognised isWord line with
  | none => results
  | some name =>
    match taken results name n with
    | none => results
    | some i => results.modify i (correct bindgen n)

/-- `last_impl_bindgen` after a line. -/
def nextBindgen (bindgen : Bool) (prev_line line : Str) : Bool :=
  if (matchAt id closingLine line).isSome then false
  else if (matchAt id (implLine isWord) line).isSome then
    Text.contains prev_line (lit "#[near_bindgen]" rfl)
  else bindgen

/-- One round of the loop over the lines. -/
def step (s : State) (line : Str) : State :=
  let n := s.line_number + 1
  if (matchAt id commentLine line).isSome then { s with line_number := n }
  else
    { line_number := n
      last_impl_bindgen := nextBindgen isWord s.last_impl_bindgen s.prev_line line
      prev_line := line
      results := correctResults isWord s.last_impl_bindgen n line s.results }

def start (results : List Result) : State := ⟨0, false, [], results⟩

/-- The state after some lines of the file. -/
def runLines (lines : List Str) (results : List Result) : State :=
  lines.foldl (step isWord) (start results)

def secondPass (text : Str) (results : List Result) : List Result :=
  (runLines isWord (Text.lines text) results).results

/-! ## All passes -/

/-- The function as the report reads it. -/
def Result.func (r : Result) : Audit.Func :=
  ⟨r.name, r.struct, r.struct_trait, r.line_number, r.macros⟩

/-- The pass over the assertions. -/
def thirdPass (text : Str) (results : List Result) : List Result :=
  (results.zip (LockCallback.addModifiers text (results.map Result.func))).map fun p =>
    { p.1 with modifier := p.2 }

/-- `findFunc(filename, ignoreTest)` -/
def findFunc (ignoreTest : Bool) (text : Str) : List Result :=
  let results := firstPass isWord ignoreTest text
  if results = [] then [] else thirdPass text (secondPass isWord text results)

end

end FindFunc
