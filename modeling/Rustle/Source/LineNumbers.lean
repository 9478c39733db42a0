import Rustle.Library.Tracking
import Rustle.Source.Prepare

/-!
# The lines of the functions

The second pass of `findFunc` gives each function the line of its `fn`, where it can: a
line that names a function goes to the first one of this name that is not far off.

* `ownLine` — the line of a function's own `fn`.
* `secondPass_slots` — the lines of the functions are numbers that follow marks.
* `lines_own_iff` — when each function gets its own line.
-/

namespace FindFunc

open Backtrack Pattern
open Text (lit)

/-! ## The own line of a function -/

/-- The offset in the file of the word `fn` of a match. -/
def fnPlace (m : Match Group Cell) : Nat :=
  (((m.group? .keyword).bind List.head?).map Prod.snd).getD 0

/-- The one-based line of the word `fn` of a match. -/
def ownLine (text : Str) (m : Match Group Cell) : Nat :=
  ((Text.universalNewlines text).take (fnPlace m)).count '\n' + 1

section

variable {isWord : Char → Bool}

theorem keyword_required : (funcPattern isWord).requires .keyword = true := rfl

theorem keyword_solid : (funcPattern isWord).solid .keyword = true := rfl

/-- The word `fn` of a match stands in it. -/
theorem fnPlace_spec {s : List Cell} {m : Match Group Cell}
    (h : m ∈ finditer Prod.fst (funcPattern isWord) s) :
    ∃ k c, m.start ≤ k ∧ k < m.stop ∧ s[k]? = some (c, fnPlace m) := by
  obtain ⟨t, ht, hne, u, v, hinfix⟩ := group?_of_requires h keyword_required keyword_solid
  obtain ⟨x, t, rfl⟩ := List.exists_cons_of_ne_nil hne
  obtain ⟨o, -, hdrop, -⟩ := mem_finditer h
  have hplace : fnPlace m = x.2 := by
    rw [fnPlace, ht]
    rfl
  have hlen : u.length < m.text.length := by
    rw [← hinfix]
    simp
  refine ⟨m.start + u.length, x.1, Nat.le_add_right _ _, by rw [Match.stop]; omega, ?_⟩
  have hget : (s.drop m.start)[u.length]? = some x := by
    rw [hdrop, List.getElem?_append_left hlen, ← hinfix, List.append_assoc,
      List.getElem?_append_right (le_refl _)]
    simp
  rw [List.getElem?_drop] at hget
  rw [hget, hplace]

theorem cutTests_sublist (s : List Cell) : (cutTests isWord s).Sublist s :=
  sub_sublist testModule_least (fun m => List.nil_sublist m) s

theorem prepare_pairwise (text : Str) : (prepare isWord text).Pairwise fun x y => x.2 < y.2 := by
  rw [prepare_eq]
  exact (unallowed_pairwise text).sublist (cutTests_sublist _)

theorem matchesOf_pairwise (ignoreTest : Bool) (text : Str) :
    (matchesOf isWord ignoreTest text).Pairwise fun m m' => m.stop ≤ m'.start :=
  (finditer_pairwise _ _).filter _

theorem mem_of_mem_matchesOf {ignoreTest : Bool} {text : Str} {m : Match Group Cell}
    (h : m ∈ matchesOf isWord ignoreTest text) :
    m ∈ finditer Prod.fst (funcPattern isWord) (prepare isWord text) :=
  (List.mem_filter.1 h).1

theorem newlines_mono (s : List Cell) {j k : Nat} (h : j ≤ k) : newlines s j ≤ newlines s k := by
  rw [newlines, newlines]
  exact ((List.take_sublist_take_left h).map _).count_le _

/-- The functions are found in the order of their lines. -/
theorem ownLine_mono {ignoreTest : Bool} {text : Str} {i j : Nat} {m m' : Match Group Cell}
    (hi : (matchesOf isWord ignoreTest text)[i]? = some m)
    (hj : (matchesOf isWord ignoreTest text)[j]? = some m') (hij : i ≤ j) :
    ownLine text m ≤ ownLine text m' ∧
      estimate (prepare isWord text) m ≤ estimate (prepare isWord text) m' := by
  rcases lt_or_eq_of_le hij with hlt | rfl
  · obtain ⟨hi', rfl⟩ := List.getElem?_eq_some_iff.1 hi
    obtain ⟨hj', rfl⟩ := List.getElem?_eq_some_iff.1 hj
    have hstop := List.pairwise_iff_getElem.1 (matchesOf_pairwise ignoreTest text) i j hi' hj' hlt
    obtain ⟨k, c, hk, hkstop, hget⟩ :=
      fnPlace_spec (mem_of_mem_matchesOf (List.mem_of_getElem? hi))
    obtain ⟨k', c', hk', -, hget'⟩ :=
      fnPlace_spec (mem_of_mem_matchesOf (List.mem_of_getElem? hj))
    have hplace := (le_iff_of_getElem? (prepare_pairwise text) hget hget').1 (by omega)
    constructor
    · rw [ownLine, ownLine]
      exact Nat.succ_le_succ ((List.take_sublist_take_left hplace).count_le _)
    · have := newlines_mono (prepare isWord text) (show _ ≤ _ from le_trans hk (by omega :
        k ≤ (matchesOf isWord ignoreTest text)[j].start))
      rw [estimate, estimate]
      omega
  · rw [hi, Option.some.injEq] at hj
    subst hj
    exact ⟨le_refl _, le_refl _⟩

/-! ## The second pass -/

/-- What the second pass looks for: a name, and the line recorded for it. -/
def Result.slot (r : Result) : Tracking.Slot Str := ⟨r.name, r.line_number⟩

variable (isWord) in
/-- The name that the line at an index is taken to declare. -/
def marks (text : Str) (k : Nat) : Option Str :=
  (Text.lines text)[k]?.bind (recognised isWord)

theorem taken_eq (results : List Result) (name : Str) (n : Nat) :
    Tracking.taker 4 n (some name) (results.map Result.slot) = taken results name n := by
  rw [Tracking.taker, List.findIdx?_map, taken]
  congr 1
  funext r
  rw [Function.comp_apply]
  refine decide_eq_decide.2 (and_congr_left fun _ => ?_)
  rw [Option.some.injEq]
  exact eq_comm

theorem map_slot_modify (b : Bool) (n i : Nat) (results : List Result) :
    (results.modify i (correct b n)).map Result.slot
      = (results.map Result.slot).modify i (Tracking.Slot.moveTo n) := by
  apply List.ext_getElem?
  intro j
  rw [List.getElem?_map, List.getElem?_modify, List.getElem?_modify, List.getElem?_map]
  cases results[j]? with
  | none => rfl
  | some r =>
    by_cases h : i = j
    · simp [h, correct, Result.slot, Tracking.Slot.moveTo]
    · simp [h]

/-- A line changes the function that its mark moves. -/
theorem correctResults_eq (b : Bool) (n : Nat) (line : Str) (results : List Result) :
    correctResults isWord b n line results
      = (Tracking.taker 4 n (recognised isWord line) (results.map Result.slot)).elim results
          fun i => results.modify i (correct b n) := by
  rw [correctResults]
  cases recognised isWord line with
  | none =>
    have hnone : Tracking.taker 4 n none (results.map Result.slot) = none := by
      rw [Tracking.taker, List.findIdx?_eq_none_iff]
      simp
    rw [hnone]
    rfl
  | some name =>
    dsimp only
    rw [taken_eq]
    cases taken results name n with
    | none => rfl
    | some i => rfl

theorem step_results (s : State) (line : Str) :
    (step isWord s line).results
      = correctResults isWord s.last_impl_bindgen (s.line_number + 1) line s.results := by
  rw [step]
  split
  · rename_i hcomment
    rw [correctResults, recognised, if_pos hcomment]
  · rfl

/-- A line does to the slots what its mark does. -/
theorem step_slots (s : State) (line : Str) :
    (step isWord s line).results.map Result.slot = Tracking.step 4 (s.line_number + 1)
      (recognised isWord line) (s.results.map Result.slot) := by
  rw [step_results, correctResults_eq, Tracking.step]
  cases Tracking.taker 4 (s.line_number + 1) (recognised isWord line)
    (s.results.map Result.slot) with
  | none => rfl
  | some i => exact map_slot_modify _ _ _ _

theorem step_line_number (s : State) (line : Str) :
    (step isWord s line).line_number = s.line_number + 1 := by
  rw [step]
  split
  · rfl
  · rfl

theorem runLines_succ {text line : Str} {n : Nat} (h : (Text.lines text)[n]? = some line)
    (results : List Result) :
    runLines isWord ((Text.lines text).take (n + 1)) results
      = step isWord (runLines isWord ((Text.lines text).take n) results) line := by
  rw [runLines, List.take_add_one, h, List.foldl_append]
  rfl

/-- After some lines of the file the slots are those that the marks of these lines leave. -/
theorem runLines_slots (text : Str) (results : List Result) (n : Nat)
    (hn : n ≤ (Text.lines text).length) :
    (runLines isWord ((Text.lines text).take n) results).line_number = n ∧
      (runLines isWord ((Text.lines text).take n) results).results.map Result.slot
        = Tracking.run 4 (marks isWord text) (results.map Result.slot) n := by
  induction n with
  | zero => exact ⟨rfl, rfl⟩
  | succ n ih =>
    obtain ⟨hnumber, hslots⟩ := ih (by omega)
    have hline := List.getElem?_eq_getElem (show n < (Text.lines text).length by omega)
    rw [runLines_succ hline, step_line_number, step_slots, hnumber, hslots, Tracking.run, marks,
      hline]
    exact ⟨rfl, rfl⟩

theorem secondPass_slots (text : Str) (results : List Result) :
    (secondPass isWord text results).map Result.slot
      = Tracking.run 4 (marks isWord text) (results.map Result.slot)
          (Text.lines text).length := by
  have h := (@runLines_slots isWord text results _ (le_refl _)).2
  rwa [List.take_length] at h

end

theorem addModifiers_length (text : Str) {results : List Audit.Func} :
    (LockCallback.addModifiers text results).length = results.length := by
  rw [LockCallback.addModifiers]
  split
  · rename_i h
    rw [h]
    rfl
  · have hfold : ∀ (as : List (Scan.Found Char)) (modifiers : List Str),
        (as.foldl (LockCallback.addModifier (LockCallback.dropComments
          (Text.universalNewlines text)) results) modifiers).length = modifiers.length := by
      intro as
      induction as with
      | nil => exact fun modifiers => rfl
      | cons a as ih =>
        intro modifiers
        rw [List.foldl_cons, ih, LockCallback.addModifier, List.length_modify]
    rw [hfold, List.length_map]

/-- The third pass changes the modifiers only. -/
theorem thirdPass_map {β : Type} {f : Result → β}
    (hf : ∀ r modifier, f { r with modifier := modifier } = f r) (text : Str)
    (results : List Result) : (thirdPass text results).map f = results.map f := by
  have hlen : results.length
      ≤ (LockCallback.addModifiers text (results.map Result.func)).length := by
    rw [addModifiers_length, List.length_map]
  have hfst : (results.zip (LockCallback.addModifiers text (results.map Result.func))).map Prod.fst
      = results := List.map_fst_zip hlen
  rw [thirdPass, List.map_map]
  conv_rhs => rw [← hfst, List.map_map]
  exact List.map_congr_left fun p _ => hf p.1 p.2

/-! ## Whether the lines are right -/

section

variable (isWord : Char → Bool) (ignoreTest : Bool) (text : Str)

/-- Every function that is returned has the line of its own `fn`. -/
def LinesOwn : Prop :=
  (findFunc isWord ignoreTest text).map Result.line_number
    = (matchesOf isWord ignoreTest text).map fun m => (ownLine text m : Int)

/-- The names and the lines that the first pass records. -/
def slots : List (Tracking.Slot Str) := (firstPass isWord ignoreTest text).map Result.slot

/-- The own line of the function at an index. -/
def own (i : Nat) : Nat :=
  (((matchesOf isWord ignoreTest text)[i]?).map (ownLine text)).getD 0

variable {isWord ignoreTest text}

theorem slots_length :
    (slots isWord ignoreTest text).length = (matchesOf isWord ignoreTest text).length := by
  rw [slots, firstPass, List.length_map, List.length_map]

theorem own_eq {i : Nat} {m : Match Group Cell}
    (h : (matchesOf isWord ignoreTest text)[i]? = some m) :
    own isWord ignoreTest text i = ownLine text m := by
  rw [own, h]
  rfl

theorem number_zero_eq {i : Nat} {m : Match Group Cell}
    (h : (matchesOf isWord ignoreTest text)[i]? = some m) :
    Tracking.number 4 (marks isWord text) (slots isWord ignoreTest text) 0 i
      = estimate (prepare isWord text) m := by
  rw [Tracking.number, Tracking.run, slots, firstPass, List.getElem?_map, List.getElem?_map, h]
  rfl

theorem findFunc_slots : (findFunc isWord ignoreTest text).map Result.slot
    = Tracking.run 4 (marks isWord text) (slots isWord ignoreTest text)
        (Text.lines text).length := by
  rw [findFunc]
  split
  · rename_i h
    have hlen := @Tracking.run_length _ _ 4 (marks isWord text) (slots isWord ignoreTest text)
      (Text.lines text).length
    rw [slots, h, List.map_nil, List.length_nil, List.length_eq_zero_iff] at hlen
    rw [slots, h, List.map_nil, hlen]
  · rw [thirdPass_map fun r modifier => rfl, secondPass_slots, slots]

/-- Every match gives a function. -/
theorem exists_result {i : Nat} {m : Match Group Cell}
    (h : (matchesOf isWord ignoreTest text)[i]? = some m) :
    ∃ r, (findFunc isWord ignoreTest text)[i]? = some r := by
  have hi := (List.getElem?_eq_some_iff.1 h).1
  have hlen := congrArg List.length (@findFunc_slots isWord ignoreTest text)
  rw [List.length_map, Tracking.run_length, slots_length] at hlen
  exact ⟨_, List.getElem?_eq_getElem (by omega)⟩

/-- The lines are right exactly when each number ends at its place. -/
theorem linesOwn_iff_number : LinesOwn isWord ignoreTest text ↔
    ∀ i, i < (slots isWord ignoreTest text).length →
      Tracking.number 4 (marks isWord text) (slots isWord ignoreTest text)
        (Text.lines text).length i = own isWord ignoreTest text i := by
  have hlines : (findFunc isWord ignoreTest text).map Result.line_number
      = (Tracking.run 4 (marks isWord text) (slots isWord ignoreTest text)
          (Text.lines text).length).map Tracking.Slot.number := by
    rw [← findFunc_slots, List.map_map]
    rfl
  rw [LinesOwn, hlines]
  constructor
  · intro h i hi
    have hget := congrArg (·[i]?) h
    rw [List.getElem?_map, List.getElem?_map] at hget
    rw [Tracking.number, hget, own]
    cases (matchesOf isWord ignoreTest text)[i]? with
    | none => rfl
    | some m => rfl
  · intro h
    apply List.ext_getElem?
    intro i
    by_cases hi : i < (slots isWord ignoreTest text).length
    · obtain ⟨r, hr⟩ := @Tracking.exists_run _ _ 4 (marks isWord text) _ i hi
        (Text.lines text).length
      have hnumber := h i hi
      rw [slots_length] at hi
      have hm := List.getElem?_eq_getElem hi
      rw [Tracking.number, hr, own_eq hm] at hnumber
      rw [List.getElem?_map, List.getElem?_map, hr, hm]
      exact congrArg some hnumber
    · rw [List.getElem?_eq_none (by rw [List.length_map, Tracking.run_length]; omega),
        List.getElem?_eq_none (by rw [List.length_map, ← slots_length]; omega)]

end

/-- Every function gets its own line exactly when the lines that name it lead to it. -/
theorem lines_own_iff (isWord : Char → Bool) (ignoreTest : Bool) (text : Str) :
    LinesOwn isWord ignoreTest text ↔ ∀ i, i < (slots isWord ignoreTest text).length →
      Tracking.Fits 4 (marks isWord text) (slots isWord ignoreTest text)
        (own isWord ignoreTest text) i := by
  rw [linesOwn_iff_number]
  refine Tracking.run_own_iff (fun i j hij hj => ?_) (fun i n hn => ?_) (fun i j hij hj => ?_)
  · rw [slots_length] at hj
    have hi : i < (matchesOf isWord ignoreTest text).length := by omega
    rw [number_zero_eq (List.getElem?_eq_getElem hi), number_zero_eq (List.getElem?_eq_getElem hj)]
    exact (ownLine_mono (List.getElem?_eq_getElem hi) (List.getElem?_eq_getElem hj) hij).2
  · obtain ⟨k, r, rfl, -, hk⟩ := hn
    by_contra hlt
    rw [marks, List.getElem?_eq_none (by omega)] at hk
    cases hk
  · rw [slots_length] at hj
    have hi : i < (matchesOf isWord ignoreTest text).length := by omega
    rw [own_eq (List.getElem?_eq_getElem hi), own_eq (List.getElem?_eq_getElem hj)]
    exact (ownLine_mono (List.getElem?_eq_getElem hi) (List.getElem?_eq_getElem hj) hij).1

/-- A file with a function at the start of its first line. -/
def firstLine : Str := lit "fn main() \x7b\n\x7d\n" rfl

/-- The function in the first line is said to be in the second one. -/
theorem first_line_off :
    ¬ ∀ (isWord : Char → Bool) (ignoreTest : Bool) (text : Str),
      LinesOwn isWord ignoreTest text := by
  intro h
  have hown := h Text.isAsciiWord false firstLine
  have hfound : (findFunc Text.isAsciiWord false firstLine).map Result.line_number = [2] := by
    decide +kernel
  have hright : (matchesOf Text.isAsciiWord false firstLine).map
      (fun m => (ownLine firstLine m : Int)) = [1] := by
    decide +kernel
  rw [LinesOwn, hfound, hright] at hown
  exact absurd hown (by decide)

end FindFunc
