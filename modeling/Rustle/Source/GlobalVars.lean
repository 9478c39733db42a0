import Rustle.Detector.LockCallback
import Rustle.Library.Backtrack
import Rustle.Library.Dict

/-!
# `findGlobalVar`: the global variables of a source file

A pattern that starts at a newline is searched in the text without comments, and a
comment is removed together with the newline behind it.

* `removeComments`, `declaration`, `findGlobalVar` — the text that is searched, the pattern,
  and the variables.
* `declaredName` — the name that a match declares; `mem_globalNames_iff` — these are the
  names that are found.
-/

namespace GlobalVars

open Backtrack Pattern
open LockCallback (cutComment)
open Text (lit isSpace)

/-! ## The search -/

/-- A line that ends with a newline: behind a comment the newline is gone as well. -/
def keep (l : Str) : Str := if cutComment l = l then l ++ ['\n'] else cutComment l

/-- The text of some lines, the last of which does not end with a newline. -/
def joined : List Str → Str
  | [] => []
  | [last] => last
  | l :: ls => keep l ++ joined ls

/-- `re.sub("//.+\n", "", text)` -/
def removeComments (text : Str) : Str := joined (text.splitOn '\n')

/-- The groups of the pattern. -/
inductive Group where
  | pub | const | static | mutable | name1 | type2 | value3
  deriving DecidableEq

/-- The groups for the words in front of the name, and these words. -/
def qualifiers : List (Group × Str) :=
  [(.pub, lit "pub" rfl), (.const, lit "const" rfl), (.static, lit "static" rfl),
    (.mutable, lit "mut" rfl)]

def space : Pattern Group := .char isSpace

/-- `(pub\s+)?`, and so on. -/
def qualifier (q : Group × Str) : Pattern Group :=
  opt (.group q.1 (.seq (literal q.2) (many1 space)))

/-- `(:\s*(?P<type2>[^=]+))?` -/
def typePart : Pattern Group :=
  opt (seqs [.char (· == ':'), .many space, .group .type2 (many1 (.char (· != '=')))])

/-- `(=\s*(?P<value3>[^;]+))?` -/
def valuePart : Pattern Group :=
  opt (seqs [.char (· == '='), .many space, .group .value3 (many1 (.char (· != ';')))])

/-- What stands behind the name. -/
def tailPart : Pattern Group :=
  seqs [.many space, typePart, .many space, valuePart, .char (· == ';')]

/-- The text of a group, empty when it takes no part in the match. -/
def groupText (groups : List (Group × Str)) (g : Group) : Str :=
  ((groups.find? fun e => e.1 = g).map Prod.snd).getD []

structure GlobalVar where
  value : Str
  type : Str
  visibility : Str
  deriving DecidableEq

/-- The body of the loop over the matches. -/
def addVar (results : Dict Str GlobalVar) (var : List (Group × Str)) : Dict Str GlobalVar :=
  if qualifiers.all fun q => groupText var q.1 = [] then results
  else
    results.set (groupText var .name1)
      { value := Text.strip (groupText var .value3)
        type := Text.strip (groupText var .type2)
        visibility := if Text.contains (groupText var .pub) (lit "pub" rfl)
          then lit "public" rfl else lit "private" rfl }

section

/- The character class `\w`. -/
variable (isWord : Char → Bool)

/-- A newline, the words in front of the name, the name, its type and its value. -/
def declaration : Pattern Group :=
  .seq (.char (· == '\n'))
    ((qualifiers.map qualifier).foldr .seq (.seq (.group .name1 (many1 (.char isWord))) tailPart))

/-- `findGlobalVar(filename)`, for the text of the file. -/
def findGlobalVar (text : Str) : Dict Str GlobalVar :=
  (finditer id (declaration isWord) (removeComments (Text.universalNewlines text))).foldl
    (fun results m => addVar results m.groups) Dict.empty

/-- The names that are found. -/
def globalNames (text : Str) : Set Str :=
  {name | ((findGlobalVar isWord text).get? name).isSome = true}

end

/-! ## The names -/

/-- Does a word stand in front of the name? -/
def qualified (groups : List (Group × Str)) : Bool :=
  !qualifiers.all fun q => groupText groups q.1 = []

/-- The name that a match declares; without a word in front of it there is none. -/
def declaredName (groups : List (Group × Str)) : Option Str :=
  if qualified groups = false then none else some (groupText groups .name1)

theorem groupText_cons_of_ne {g h : Group} (t : Str) (groups : List (Group × Str)) (hne : h ≠ g) :
    groupText ((h, t) :: groups) g = groupText groups g := by
  rw [groupText, List.find?_cons_of_neg (by simpa using hne), ← groupText]

theorem groupText_cons_self (g : Group) (t : Str) (groups : List (Group × Str)) :
    groupText ((g, t) :: groups) g = t := by
  rw [groupText, List.find?_cons_of_pos (by simp)]
  rfl

theorem qualified_cons_of_ne {g : Group} (t : Str) (groups : List (Group × Str))
    (hne : ∀ q ∈ qualifiers, g ≠ q.1) : qualified ((g, t) :: groups) = qualified groups := by
  rw [qualified, qualified, Bool.not_inj_iff, Bool.eq_iff_iff, List.all_eq_true, List.all_eq_true]
  apply forall₂_congr
  intro q hq
  rw [groupText_cons_of_ne t groups (hne q hq)]

theorem qualified_cons {q : Group × Str} (hq : q ∈ qualifiers) {t : Str} (ht : t ≠ [])
    (groups : List (Group × Str)) : qualified ((q.1, t) :: groups) = true := by
  rw [qualified, Bool.not_eq_true', List.all_eq_false]
  refine ⟨q, hq, ?_⟩
  rw [groupText_cons_self]
  simpa using ht

/-- The type and the value have nothing to do with the name. -/
theorem declaredName_cons {g : Group} (hg : g = .type2 ∨ g = .value3) (t : Str)
    (groups : List (Group × Str)) : declaredName ((g, t) :: groups) = declaredName groups := by
  have hne : ∀ q ∈ qualifiers, g ≠ q.1 := by
    rcases hg with rfl | rfl
    · decide
    · decide
  have hname : g ≠ .name1 := by
    rcases hg with rfl | rfl
    · decide
    · decide
  rw [declaredName, declaredName, groupText_cons_of_ne t groups hname,
    qualified_cons_of_ne t groups hne]

theorem declaredName_name (n : Str) (groups : List (Group × Str)) :
    declaredName ((.name1, n) :: groups) = if qualified groups = false then none else some n := by
  rw [declaredName, groupText_cons_self, qualified_cons_of_ne n groups (by decide)]

theorem get?_addVar (results : Dict Str GlobalVar) (var : List (Group × Str)) (name : Str) :
    ((addVar results var).get? name).isSome = true ↔
      (results.get? name).isSome = true ∨ declaredName var = some name := by
  rw [addVar, declaredName]
  by_cases hall : (qualifiers.all fun q => groupText var q.1 = []) = true
  · have hqual : qualified var = false := by rw [qualified, hall, Bool.not_true]
    rw [if_pos hall, if_pos hqual]
    simp
  · have hqual : ¬ qualified var = false := by
      rw [qualified, Bool.not_eq_false']
      exact hall
    rw [if_neg hall, if_neg hqual, Option.some.injEq]
    by_cases h : groupText var .name1 = name
    · simp [h]
    · rw [Dict.get?_set_of_ne _ _ (Ne.symm h)]
      simp [h]

variable {isWord : Char → Bool}

theorem mem_globalNames_iff {text name : Str} :
    name ∈ globalNames isWord text ↔
      ∃ m ∈ finditer id (declaration isWord) (removeComments (Text.universalNewlines text)),
        declaredName m.groups = some name := by
  have hfold : ∀ (ms : List (Match Group Char)) (results : Dict Str GlobalVar),
      ((ms.foldl (fun results m => addVar results m.groups) results).get? name).isSome = true ↔
        (results.get? name).isSome = true ∨ ∃ m ∈ ms, declaredName m.groups = some name := by
    intro ms
    induction ms with
    | nil => simp
    | cons m ms ih =>
      intro results
      rw [List.foldl_cons, ih, get?_addVar, List.exists_mem_cons_iff, or_assoc]
  rw [globalNames, Set.mem_ofPred_eq, findGlobalVar, hfold]
  apply or_iff_right
  simp [Dict.get?, Dict.empty]

end GlobalVars
