import Rustle.Audit.Report
import Rustle.Library.ClosestAbove
import Rustle.Library.Scan

/-!
# `lock-callback`: assertions in callback functions

The last pass of `findFunc` appends every assertion of a file to the modifier of a
function, and `lock-callback.py` looks at the modifiers of the callbacks.

* `dropComments`, `assertions` — the text that is searched, and the assertions in it.
* `addModifiers` — the pass, over the functions that the passes before it have found.
* `Placed`, `target_eq_iff` — the function that gets an assertion: by the name of the
  closest function **two lines** above, or the last function of the file.
* `assertions_attributed_iff` — when every assertion gets to the function around it, and
  `lock-callback` flags the callbacks with assertions.
-/

namespace LockCallback

open Audit
open Scan (Found finditer)
open Text (lit)

/-! ## The assertions of a text -/

/-- A line without its comment, `//` and one character at least. -/
def cutComment : Str → Str
  | '/' :: '/' :: _ :: _ => []
  | c :: s => c :: cutComment s
  | [] => []

theorem cutComment_cons {c : Char} {s : Str} (h : ∀ d r, c = '/' → s = '/' :: d :: r → False) :
    cutComment (c :: s) = c :: cutComment s := by
  rw [cutComment]
  exact h

theorem cutComment_isPrefix (s : Str) : cutComment s <+: s := by
  fun_induction cutComment s with
  | case1 d t => exact List.nil_prefix
  | case2 c s hs ih => exact (List.prefix_cons_inj c).2 ih
  | case3 => exact List.nil_prefix

/-- Behind a comment nothing matters. -/
theorem cutComment_append {s : Str} (h : cutComment s ≠ s) (t : Str) :
    cutComment (s ++ t) = cutComment s := by
  fun_induction cutComment s with
  | case1 d r => rfl
  | case2 c s hs ih =>
    have hs' : cutComment s ≠ s := fun heq => h (by rw [heq])
    have hnot : ∀ d r, c = '/' → s ++ t = '/' :: d :: r → False := by
      intro d r hc happ
      cases s with
      | nil => exact hs' rfl
      | cons a s =>
        rw [List.cons_append, List.cons.injEq] at happ
        cases s with
        | nil => exact hs' (cutComment_cons fun d r _ h => by cases h)
        | cons b s => exact hs b s hc (by rw [happ.1])
    rw [List.cons_append, cutComment_cons hnot, ih hs']
  | case3 => exact absurd rfl h

/-- `re.sub("//.+\n", "\n", text)`: behind the last newline, nothing is dropped. -/
def dropComments (text : Str) : Str :=
  let pieces := text.splitOn '\n'
  ['\n'].intercalate (pieces.dropLast.map cutComment ++ [pieces.getLastD []])

/-- What `(assert|require)!\(` matches. -/
def openings : List Str := [lit "assert!(" rfl, lit "require!(" rfl]

/-- `[^;]+\);` behind an opening. -/
def closing (s : Str) : Option Str :=
  let inner := s.takeWhile (· != ';')
  if 2 ≤ inner.length ∧ inner.getLast? = some ')' ∧ inner.length < s.length then
    some (inner ++ [';'])
  else none

/-- What `(assert|require)!\([^;]+\);` matches at the head of a text. -/
def assertionAt (s : Str) : Option Str :=
  openings.findSome? fun opening =>
    if opening.isPrefixOf s then (closing (s.drop opening.length)).map (opening ++ ·) else none

def assertions (string : Str) : List (Found Char) := finditer assertionAt string

/-- `string[0 : match.start()].count("\n")` -/
def startLine (string : Str) (a : Found Char) : Int := ((string.take a.start).count '\n' : Nat)

/-- `re.sub("\n +", " ", _)`; the flag says that blanks are being skipped. -/
def joinLines : Bool → Str → Str
  | _, [] => []
  | skipping, c :: s =>
    if skipping && c == ' ' then joinLines true s
    else if c == '\n' && s.head? == some ' ' then ' ' :: joinLines true s
    else c :: joinLines false s

/-- What is appended for an assertion. -/
def piece (a : Found Char) : Str :=
  ((joinLines false (Text.strip a.text)).filter (· != '"')).filter (· != '\'') ++ [' ']

/-! ## The pass -/

/-- `_name2index` -/
def name2index (name : Str) (results : List Func) : Int :=
  match results.findIdx? fun func => func.name == name with
  | some i => i
  | none => -1

/-- The place of an index in a list of length `n`; a negative one counts from the end. -/
def place (n : Nat) (i : Int) : Nat := (if i < 0 then n + i else i).toNat

/-- The function whose modifier an assertion is appended to. -/
def target (string : Str) (results : List Func) (a : Found Char) : Nat :=
  place results.length (name2index (line2funcName (startLine string a) results) results)

/-- One round of the loop over the assertions, on the modifiers of the functions. -/
def addModifier (string : Str) (results : List Func) (modifiers : List Str) (a : Found Char) :
    List Str :=
  modifiers.modify (target string results a) (· ++ piece a)

/-- The pass: the modifiers of the functions found in a file. -/
def addModifiers (text : Str) (results : List Func) : List Str :=
  let string := dropComments (Text.universalNewlines text)
  if results = [] then []
  else (assertions string).foldl (addModifier string results) (results.map fun _ => [])

/-! ## The detector -/

/-- `re.match("assert!|require!", modifier)` -/
def asserts (modifier : Str) : Bool :=
  (lit "assert!" rfl).isPrefixOf modifier || (lit "require!" rfl).isPrefixOf modifier

/-- Is the function one of the callbacks? -/
def isCallback (callbacks : List Str) (path : Str) (func : Func) : Bool :=
  callbacks.any fun cb =>
    structFuncNameMatch cb func.struct func.struct_trait func.name path none false

/-- The functions of a file that `lock-callback.py` writes a line for. -/
def flagged (callbacks : List Str) (path text : Str) (results : List Func) : List Nat :=
  (List.range results.length).filter fun i =>
    (results[i]?.any (isCallback callbacks path)) &&
      (addModifiers text results)[i]?.any asserts

/-! ## What counts as an assertion -/

/-- An `assert!` or a `require!` of something without a semicolon. -/
def IsAssertion (m : Str) : Prop :=
  ∃ opening ∈ openings, ∃ x, x ≠ [] ∧ ';' ∉ x ∧ m = opening ++ (x ++ [')', ';'])

theorem closing_iff {s t : Str} :
    closing s = some t ↔ (∃ x, x ≠ [] ∧ ';' ∉ x ∧ t = x ++ [')', ';']) ∧ t <+: s := by
  have hsplit : s = s.takeWhile (· != ';') ++ s.dropWhile (· != ';') :=
    List.takeWhile_append_dropWhile.symm
  unfold closing
  dsimp only
  constructor
  · intro h
    split at h
    · rename_i hcond
      obtain ⟨hlen, hlast, hlt⟩ := hcond
      rw [Option.some.injEq] at h
      subst h
      obtain ⟨x, hx⟩ := List.getLast?_eq_some_iff.1 hlast
      have hnone : ∀ c ∈ s.takeWhile (· != ';'), (c != ';') = true :=
        fun c hc => List.mem_takeWhile_imp (p := (· != ';')) hc
      obtain ⟨rest, hrest⟩ : ∃ rest, s.dropWhile (· != ';') = ';' :: rest := by
        cases hdrop : s.dropWhile (· != ';') with
        | nil =>
          rw [hdrop, List.append_nil] at hsplit
          rw [← hsplit] at hlt
          exact absurd hlt (lt_irrefl _)
        | cons c rest =>
          have hc := List.head_dropWhile_not (· != ';') (l := s) (by simp [hdrop])
          simp only [hdrop, List.head_cons, bne_eq_false_iff_eq] at hc
          exact ⟨rest, by rw [hc]⟩
      refine ⟨⟨x, ?_, ?_, by rw [hx]; simp⟩, rest, ?_⟩
      · rintro rfl
        rw [hx] at hlen
        simp at hlen
      · intro hmem
        have hsemi := hnone ';' (by rw [hx]; exact List.mem_append_left _ hmem)
        simp at hsemi
      · rw [List.append_assoc, List.singleton_append, ← hrest, ← hsplit]
    · cases h
  · rintro ⟨⟨x, hne, hsemi, rfl⟩, rest, rfl⟩
    have hinner : (x ++ [')', ';'] ++ rest).takeWhile (· != ';') = x ++ [')'] := by
      have hall : ∀ c ∈ x ++ [')'], (c != ';') = true := by
        intro c hc
        rcases List.mem_append.1 hc with hc | hc
        · simpa using fun h : c = ';' => hsemi (h ▸ hc)
        · rw [List.mem_singleton.1 hc]
          decide
      rw [show x ++ [')', ';'] ++ rest = (x ++ [')']) ++ (';' :: rest) by simp,
        List.takeWhile_append_of_pos hall, List.takeWhile_cons_of_neg (by decide),
        List.append_nil]
    have hlen : 0 < x.length := List.length_pos_of_ne_nil hne
    rw [hinner, if_pos]
    · simp
    · refine ⟨?_, by simp, ?_⟩
      · simp
        omega
      · simp

/-- What the pattern matches at the head of a text. -/
theorem assertionAt_iff {s m : Str} : assertionAt s = some m ↔ IsAssertion m ∧ m <+: s := by
  unfold assertionAt
  constructor
  · intro h
    obtain ⟨opening, hopening, hm⟩ := List.exists_of_findSome?_eq_some h
    split at hm
    · rename_i hpre
      obtain ⟨rest, rfl⟩ := List.isPrefixOf_iff_prefix.1 hpre
      rw [List.drop_left, Option.map_eq_some_iff] at hm
      obtain ⟨t, ht, rfl⟩ := hm
      obtain ⟨⟨x, hne, hsemi, rfl⟩, htail⟩ := closing_iff.1 ht
      exact ⟨⟨opening, hopening, x, hne, hsemi, rfl⟩,
        (List.prefix_append_right_inj opening).2 htail⟩
    · cases hm
  · rintro ⟨⟨opening, hopening, x, hne, hsemi, rfl⟩, rest, rfl⟩
    have hclosing : closing (x ++ [')', ';'] ++ rest) = some (x ++ [')', ';']) :=
      closing_iff.2 ⟨⟨x, hne, hsemi, rfl⟩, List.prefix_append _ _⟩
    have hmatch : (if opening.isPrefixOf (opening ++ (x ++ [')', ';']) ++ rest) then
          (closing ((opening ++ (x ++ [')', ';']) ++ rest).drop opening.length)).map (opening ++ ·)
        else none) = some (opening ++ (x ++ [')', ';'])) := by
      rw [List.append_assoc, if_pos (List.isPrefixOf_iff_prefix.2 (List.prefix_append _ _)),
        List.drop_left, hclosing, Option.map_some]
    rcases List.mem_pair.1 hopening with rfl | rfl
    · rw [openings, List.findSome?_cons, hmatch]
    · -- no text starts with both openings
      rw [openings, List.findSome?_cons, if_neg (by simp [lit]), List.findSome?_cons, hmatch]

/-- What is found is an assertion, and stands where it was found. -/
theorem of_mem_assertions {string : Str} {a : Found Char} (h : a ∈ assertions string) :
    IsAssertion a.text ∧ a.text <+: string.drop a.start :=
  assertionAt_iff.1 (Scan.mem_finditer h).2

/-- Every assertion is found, or starts inside of one that is. -/
theorem assertion_found {string m : Str} {k : Nat} (hm : IsAssertion m)
    (hk : m <+: string.drop k) : ⟨k, m⟩ ∈ assertions string ∨
      ∃ b ∈ assertions string, b.start < k ∧ k < b.stop := by
  refine Scan.finditer_covers (assertionAt_iff.2 ⟨hm, hk⟩) ?_
  by_contra hlt
  rw [List.drop_eq_nil_of_le (by omega), List.prefix_nil] at hk
  obtain ⟨opening, -, x, -, -, rfl⟩ := hm
  simp at hk

/-! ## The function that gets an assertion -/

/-- The function `func` at `k` is the closest one above a line: of those above, it starts
last, and of several that do it is the first. -/
structure Closest (results : List Func) (line : Int) (k : Nat) (func : Func) : Prop where
  stands : results[k]? = some func
  above : func.line_number < line
  closest : ∀ (j : Nat) (g : Func), results[j]? = some g → g.line_number < line →
    g.line_number ≤ func.line_number ∧ (g.line_number = func.line_number → k ≤ j)

theorem closest_iff {results : List Func} {line : Int} {k : Nat} {func : Func} :
    Closest results line k func ↔
      ClosestAbove.Closest Func.line_number results (line - 1) k func := by
  constructor
  · intro h
    refine ⟨h.stands, by have := h.above; omega, fun j g hg habove => ?_⟩
    exact h.closest j g hg (by omega)
  · intro h
    refine ⟨h.stands, by have := h.above; omega, fun j g hg habove => ?_⟩
    exact h.closest j g hg (by omega)

theorem Closest.unique {results : List Func} {line : Int} {k k' : Nat} {func func' : Func}
    (h : Closest results line k func) (h' : Closest results line k' func') : func = func' :=
  (closest_iff.1 h).unique (closest_iff.1 h')

/-- The state of the loop of `line2funcName`: the distance and the name of the closest
function so far. -/
def closestState (line : Int) (results : List Func) : Option Int × Str :=
  results.foldl (fun closest func =>
    if line > func.line_number then
      if closest.1.all fun d => line - func.line_number < d then
        (some (line - func.line_number), func.name)
      else closest
    else closest) (none, [])

theorem line2funcName_eq (line : Int) (results : List Func) :
    line2funcName line results = (closestState line results).2 := rfl

theorem closestState_eq (line : Int) (results : List Func) :
    closestState line results
      = ClosestAbove.search Func.line_number Func.name line (line - 1) [] results := by
  rw [closestState, ClosestAbove.search]
  congr 1
  funext closest func
  exact if_congr (by omega) rfl rfl

theorem closestState_spec (line : Int) (results : List Func) :
    (∃ k func, Closest results line k func ∧
      closestState line results = (some (line - func.line_number), func.name)) ∨
    ((∀ func ∈ results, line ≤ func.line_number) ∧ closestState line results = (none, [])) := by
  rw [closestState_eq]
  rcases ClosestAbove.search_spec line (line - 1) [] results with
    ⟨k, func, hclosest, hstate⟩ | ⟨hnone, hstate⟩
  · exact Or.inl ⟨k, func, closest_iff.2 hclosest, hstate⟩
  · refine Or.inr ⟨fun func hfunc => ?_, hstate⟩
    have := hnone func hfunc
    omega

/-- `line2funcName` gives the name of the closest function above, if there is one. -/
theorem line2funcName_spec (line : Int) (results : List Func) :
    (∃ k func, Closest results line k func ∧ line2funcName line results = func.name) ∨
    ((∀ func ∈ results, line ≤ func.line_number) ∧ line2funcName line results = []) := by
  rw [line2funcName_eq]
  rcases closestState_spec line results with ⟨k, func, hclosest, hstate⟩ | ⟨hnone, hstate⟩
  · exact Or.inl ⟨k, func, hclosest, by rw [hstate]⟩
  · exact Or.inr ⟨hnone, by rw [hstate]⟩

/-- The function at `i` is the first one of the name. -/
def FirstNamed (results : List Func) (name : Str) (i : Nat) : Prop :=
  (∃ func, results[i]? = some func ∧ func.name = name) ∧
    ∀ j < i, ∀ g, results[j]? = some g → g.name ≠ name

theorem firstNamed_iff {results : List Func} {name : Str} {i : Nat} :
    FirstNamed results name i ↔ results.findIdx? (fun func => func.name == name) = some i := by
  rw [List.findIdx?_eq_some_iff_getElem, FirstNamed]
  constructor
  · rintro ⟨⟨func, hfunc, hname⟩, hbefore⟩
    obtain ⟨hi, rfl⟩ := List.getElem?_eq_some_iff.1 hfunc
    refine ⟨hi, by simpa using hname, fun j hj => ?_⟩
    have hne := hbefore j hj _ (List.getElem?_eq_getElem (by omega))
    simpa using hne
  · rintro ⟨hi, hname, hbefore⟩
    refine ⟨⟨_, List.getElem?_eq_getElem hi, by simpa using hname⟩, fun j hj g hg => ?_⟩
    obtain ⟨hlt, rfl⟩ := List.getElem?_eq_some_iff.1 hg
    simpa using hbefore j hj

theorem FirstNamed.unique {results : List Func} {name : Str} {i i' : Nat}
    (h : FirstNamed results name i) (h' : FirstNamed results name i') : i = i' := by
  rw [firstNamed_iff] at h h'
  rw [h, Option.some.injEq] at h'
  exact h'

/-- Where an assertion on a line is placed: in the first function that has the name of
the closest one above; with none above, in the last function. -/
def Placed (results : List Func) (line : Int) (i : Nat) : Prop :=
  (∃ k func, Closest results line k func ∧ FirstNamed results func.name i) ∨
    (∀ func ∈ results, line ≤ func.line_number) ∧ i + 1 = results.length

theorem Placed.unique {results : List Func} {line : Int} {i i' : Nat}
    (h : Placed results line i) (h' : Placed results line i') : i = i' := by
  rcases h with ⟨k, func, hclosest, hfirst⟩ | ⟨hnone, hlast⟩
  · rcases h' with ⟨k', func', hclosest', hfirst'⟩ | ⟨hnone', -⟩
    · rw [hclosest.unique hclosest'] at hfirst
      exact hfirst.unique hfirst'
    · exact absurd hclosest.above (not_lt.2 (hnone' func (List.mem_of_getElem? hclosest.stands)))
  · rcases h' with ⟨k', func', hclosest', -⟩ | ⟨-, hlast'⟩
    · exact absurd hclosest'.above
        (not_lt.2 (hnone func' (List.mem_of_getElem? hclosest'.stands)))
    · omega

theorem Placed.lt {results : List Func} {line : Int} {i : Nat} (h : Placed results line i) :
    i < results.length := by
  rcases h with ⟨k, func, -, ⟨f, hf, -⟩, -⟩ | ⟨-, hlast⟩
  · exact (List.getElem?_eq_some_iff.1 hf).1
  · omega

/-- In a file with functions, each with a name, an assertion is placed so. -/
theorem placed_target {results : List Func} (hne : results ≠ [])
    (hnames : ∀ func ∈ results, func.name ≠ []) (string : Str) (a : Found Char) :
    Placed results (startLine string a) (target string results a) := by
  have hlen : 0 < results.length := List.length_pos_of_ne_nil hne
  unfold target
  rcases line2funcName_spec (startLine string a) results with
    ⟨k, func, hclosest, hname⟩ | ⟨hnone, hname⟩
  · obtain ⟨i, hi⟩ : ∃ i, results.findIdx? (fun f => f.name == func.name) = some i := by
      rw [← Option.isSome_iff_exists, List.findIdx?_isSome, List.any_eq_true]
      exact ⟨func, List.mem_of_getElem? hclosest.stands, beq_self_eq_true _⟩
    have hindex : name2index func.name results = i := by rw [name2index, hi]
    rw [hname, hindex, place, if_neg (by omega), Int.toNat_natCast]
    exact Or.inl ⟨k, func, hclosest, firstNamed_iff.2 hi⟩
  · have hindex : name2index [] results = -1 := by
      rw [name2index, List.findIdx?_eq_none_iff.2]
      simpa using hnames
    rw [hname, hindex, place, if_pos (by omega)]
    exact Or.inr ⟨hnone, by omega⟩

/-! ## What the pass appends -/

theorem joinLines_append {kw : Str} (hkw : '\n' ∉ kw) (s : Str) :
    joinLines false (kw ++ s) = kw ++ joinLines false s := by
  induction kw with
  | nil => rfl
  | cons c kw ih =>
    rw [List.mem_cons, not_or] at hkw
    rw [List.cons_append, joinLines, if_neg (by simp), if_neg (by simp [Ne.symm hkw.1]), ih hkw.2,
      List.cons_append]

/-- What stands up to the exclamation mark is appended as it is. -/
theorem prefix_piece {a : Found Char} {name t : Str} (htext : a.text = name ++ '!' :: t)
    (hstrip : Text.lstrip name = name)
    (hplain : ∀ c ∈ name ++ ['!'], c ≠ '\n' ∧ c ≠ '"' ∧ c ≠ '\'') : name ++ ['!'] <+: piece a := by
  have htrim : Text.strip a.text = (name ++ ['!']) ++ Text.rstrip t := by
    rw [htext, Text.strip_append_solid name t (by decide), hstrip, List.append_assoc,
      List.singleton_append]
  have hdouble : ∀ c ∈ name ++ ['!'], (c != '"') = true := by
    intro c hc
    simpa using (hplain c hc).2.1
  have hsingle : ∀ c ∈ name ++ ['!'], (c != '\'') = true := by
    intro c hc
    simpa using (hplain c hc).2.2
  rw [piece, htrim, joinLines_append fun h => (hplain _ h).1 rfl, List.filter_append,
    List.filter_eq_self.2 hdouble, List.filter_append, List.filter_eq_self.2 hsingle,
    List.append_assoc]
  exact List.prefix_append _ _

/-- What an assertion appends starts with its name. -/
theorem asserts_piece {a : Found Char} (h : IsAssertion a.text) (rest : Str) :
    asserts (piece a ++ rest) = true := by
  obtain ⟨opening, hopening, x, -, -, htext⟩ := h
  rw [asserts, Bool.or_eq_true, List.isPrefixOf_iff_prefix, List.isPrefixOf_iff_prefix]
  rcases List.mem_pair.1 hopening with rfl | rfl
  · have hname : lit "assert" rfl ++ ['!'] <+: piece a :=
      prefix_piece (t := '(' :: (x ++ [')', ';'])) htext (by decide) (by simp [lit])
    exact Or.inl (hname.trans (List.prefix_append _ _))
  · have hname : lit "require" rfl ++ ['!'] <+: piece a :=
      prefix_piece (t := '(' :: (x ++ [')', ';'])) htext (by decide) (by simp [lit])
    exact Or.inr (hname.trans (List.prefix_append _ _))

theorem foldl_addModifier (string : Str) (results : List Func) (as : List (Found Char))
    (modifiers : List Str) (i : Nat) :
    (as.foldl (addModifier string results) modifiers)[i]? =
      modifiers[i]?.map (· ++ (as.filter fun a => target string results a == i).flatMap piece) := by
  induction as generalizing modifiers with
  | nil => simp
  | cons a as ih =>
    rw [List.foldl_cons, ih, addModifier, List.getElem?_modify]
    by_cases ha : target string results a = i
    · rw [List.filter_cons_of_pos (by simpa using ha)]
      cases modifiers[i]? with
      | none => rfl
      | some m => simp [ha]
    · rw [List.filter_cons_of_neg (by simpa using ha)]
      cases modifiers[i]? with
      | none => rfl
      | some m => simp [ha]

/-- The modifier of a function: what is appended for each assertion that it gets. -/
theorem addModifiers_getElem? (text : Str) {results : List Func} {i : Nat}
    (hi : i < results.length) :
    (addModifiers text results)[i]? =
      some (((assertions (dropComments (Text.universalNewlines text))).filter fun a =>
        target (dropComments (Text.universalNewlines text)) results a == i).flatMap piece) := by
  have hne : results ≠ [] := List.ne_nil_of_length_pos (by omega)
  rw [addModifiers, if_neg hne, foldl_addModifier, List.getElem?_map, List.getElem?_eq_getElem hi]
  simp

/-! ## Whether the assertions get to the right functions -/

/-- A file, the functions that are found in it, and where their bodies are in the text
that is searched for assertions. -/
structure Source where
  text : Str
  results : List Func
  /-- Where the body of the function at an index starts and stops. -/
  body : Nat → Nat × Nat
  names_ne_nil : ∀ func ∈ results, func.name ≠ []
  bodies_disjoint : ∀ i j, i < j → j < results.length →
    (body i).2 ≤ (body j).1 ∨ (body j).2 ≤ (body i).1

namespace Source

variable (S : Source)

/-- The text that is searched. -/
def string : Str := dropComments (Text.universalNewlines S.text)

def assertions : List (Found Char) := LockCallback.assertions S.string

/-- The assertion stands in the body of the function at `i`. -/
def Inside (a : Found Char) (i : Nat) : Prop :=
  i < S.results.length ∧ (S.body i).1 ≤ a.start ∧ a.stop ≤ (S.body i).2

/-- The pass appends the assertion to the modifier of the function at `i`. -/
def AppendedTo (a : Found Char) (i : Nat) : Prop :=
  i < S.results.length ∧ target S.string S.results a = i

/-- Every assertion is appended to the function whose body contains it, and to no other. -/
def Attributed : Prop := ∀ a ∈ S.assertions, ∀ i, S.AppendedTo a i ↔ S.Inside a i

/-- The callbacks flagged are those whose own body contains an assertion. -/
def CallbacksRight : Prop :=
  ∀ (callbacks : List Str) (path : Str) (i : Nat) (func : Func), S.results[i]? = some func →
    isCallback callbacks path func = true →
      (i ∈ flagged callbacks path S.text S.results ↔ ∃ a ∈ S.assertions, S.Inside a i)

variable {S}

/-- No assertion stands in two bodies. -/
theorem Inside.unique {a : Found Char} {i j : Nat} (ha : a ∈ S.assertions) (hi : S.Inside a i)
    (hj : S.Inside a j) : i = j := by
  have hpos : a.start < a.stop := by
    obtain ⟨⟨opening, -, x, -, -, htext⟩, -⟩ := of_mem_assertions ha
    rw [Found.stop, htext]
    simp
  obtain ⟨hi, hstart, hstop⟩ := hi
  obtain ⟨hj, hstart', hstop'⟩ := hj
  rcases lt_trichotomy i j with hlt | heq | hlt
  · have hdisjoint := S.bodies_disjoint i j hlt hj
    omega
  · exact heq
  · have hdisjoint := S.bodies_disjoint j i hlt hi
    omega

/-- A modifier starts with an assertion exactly when something was appended to it. -/
theorem asserts_flatMap_iff {as : List (Found Char)} (h : ∀ a ∈ as, IsAssertion a.text) :
    asserts (as.flatMap piece) = true ↔ ∃ a, a ∈ as := by
  cases as with
  | nil => simp [asserts, lit]
  | cons a as =>
    rw [List.flatMap_cons]
    exact iff_of_true (asserts_piece (h a (List.mem_cons_self ..)) _) ⟨a, List.mem_cons_self ..⟩

/-- Where the assertions get to the right functions, so do the flags. -/
theorem Attributed.callbacksRight (h : S.Attributed) : S.CallbacksRight := by
  intro callbacks path i func hfunc hcallback
  obtain ⟨hi, -⟩ := List.getElem?_eq_some_iff.1 hfunc
  have hmodifier : (addModifiers S.text S.results)[i]? =
      some ((S.assertions.filter fun a => target S.string S.results a == i).flatMap piece) :=
    addModifiers_getElem? S.text hi
  have hassertions : ∀ a ∈ S.assertions.filter (fun a => target S.string S.results a == i),
      IsAssertion a.text := fun a ha => (of_mem_assertions (List.mem_filter.1 ha).1).1
  rw [flagged, List.mem_filter, List.mem_range, hfunc, Option.any_some, hcallback, Bool.true_and,
    hmodifier, Option.any_some, asserts_flatMap_iff hassertions, and_iff_right hi]
  refine exists_congr fun a => ?_
  rw [List.mem_filter, beq_iff_eq]
  refine and_congr_right fun ha => ?_
  rw [← h a ha i, AppendedTo, and_iff_right hi]

/-- The assertions get to the right functions, and the right callbacks are flagged, exactly
when every assertion stands in the body of the function it is placed in. -/
theorem assertions_attributed_iff (S : Source) : S.Attributed ∧ S.CallbacksRight ↔
    S.results = [] ∨ ∀ a ∈ S.assertions, ∃ i, Placed S.results (startLine S.string a) i ∧
      S.Inside a i := by
  constructor
  · rintro ⟨hattributed, -⟩
    refine or_iff_not_imp_left.2 fun hne a ha => ?_
    have hplaced := placed_target hne S.names_ne_nil S.string a
    exact ⟨_, hplaced, (hattributed a ha _).1 ⟨hplaced.lt, rfl⟩⟩
  · intro h
    have hattributed : S.Attributed := by
      intro a ha i
      rcases h with hnil | hplaced
      · simp [AppendedTo, Inside, hnil]
      · obtain ⟨k, hk, hinside⟩ := hplaced a ha
        have hne : S.results ≠ [] := List.ne_nil_of_length_pos (by have := hk.lt; omega)
        have htarget : target S.string S.results a = k :=
          (placed_target hne S.names_ne_nil S.string a).unique hk
        constructor
        · rintro ⟨-, rfl⟩
          rw [htarget]
          exact hinside
        · intro hi
          obtain rfl := hi.unique ha hinside
          exact ⟨hk.lt, htarget⟩
    exact ⟨hattributed, hattributed.callbacksRight⟩

end Source

def ordersResults : List Func :=
  [⟨lit "process_order" rfl, lit "Orders" rfl, [], 2, []⟩,
   ⟨lit "callback_transfer" rfl, lit "Orders" rfl, [], 6, lit "#[private]" rfl⟩]

def ordersBody (i : Nat) : Nat × Nat := if i = 0 then (46, 53) else (110, 145)

theorem ordersResults_name_ne_nil : ∀ func ∈ ordersResults, func.name ≠ [] := by decide

theorem ordersBody_disjoint : ∀ i j, i < j → j < ordersResults.length →
    (ordersBody i).2 ≤ (ordersBody j).1 ∨ (ordersBody j).2 ≤ (ordersBody i).1 := by
  intro i j hij hj
  have hlen : ordersResults.length = 2 := rfl
  obtain rfl : i = 0 := by omega
  rw [ordersBody, ordersBody, if_pos rfl, if_neg (by omega)]
  exact Or.inl (by decide)

/-- A contract whose callback starts with an assertion. -/
def orders : Source where
  text :=
    lit "impl Orders \x7b\n    fn process_order(&mut self) \x7b\n    \x7d\n\n" rfl ++
    lit "    #[private]\n    pub fn callback_transfer(&mut self) \x7b\n" rfl ++
    lit "        assert!(self.open);\n    \x7d\n\x7d\n" rfl
  results := ordersResults
  body := ordersBody
  names_ne_nil := ordersResults_name_ne_nil
  bodies_disjoint := ordersBody_disjoint

/-- The assertion of the callback is appended to the function before it. -/
theorem first_line_misplaced : ¬ ∀ S : Source, S.Attributed ∧ S.CallbacksRight := by
  intro h
  have hmem : ⟨120, lit "assert!(self.open);" rfl⟩ ∈ orders.assertions := by decide +kernel
  have htarget : target orders.string orders.results ⟨120, lit "assert!(self.open);" rfl⟩ = 0 := by
    decide +kernel
  obtain ⟨-, -, hstop⟩ := ((h orders).1 _ hmem 0).1 ⟨by decide, htarget⟩
  exact absurd hstop (by decide)

end LockCallback
