import Rustle.Audit.Notes
import Rustle.Source.FindFunc
import Rustle.Library.WordReplace

/-!
# The notes on inconsistent names

A file is searched for the whole words of the inconsistency log, without its comments;
each occurrence becomes a note of the functions whose name the closest function above has.

* `occurrenceLines` — what the report reads as the occurrences of a name.
* `rounds_eq` — the occurrences, line by line.
* `Source.notes` — the notes for one occurrence.
* `occurrence_noted_iff` — when each occurrence gives one note, with the right number and
  in the right row.
-/

namespace InconsistencyNotes

open Audit
open LockCallback (dropComments cutComment Closest line2funcName_spec)
open Text (lit)

section

variable (isWord : Char → Bool)

/-- The text that is searched; the pattern `//[^\n]+\n` takes out what `//.+\n` does. -/
def string (text : Str) : Str := dropComments (Text.universalNewlines text)

/-- `string[0 : match.start()].count("\n")` -/
def lineAt (s : Str) (q : Nat) : Nat := (s.take q).count '\n'

/-- The place on its line. -/
def columnAt (s : Str) (q : Nat) : Nat := ((s.take q).reverse.takeWhile (· != '\n')).length

/-- The lines of the occurrences of a name. -/
def occurrenceLines (text key : Str) : List Int :=
  (WordReplace.find isWord key (string text)).map fun q => (lineAt (string text) q : Int)

/-- The occurrences, each as a line and a column. -/
def rounds (text key : Str) : List (Nat × Nat) :=
  (WordReplace.find isWord key (string text)).map fun q =>
    (lineAt (string text) q, columnAt (string text) q)

theorem occurrenceLines_eq (text key : Str) :
    occurrenceLines isWord text key = (rounds isWord text key).map fun o => (o.1 : Int) := by
  rw [occurrenceLines, rounds, List.map_map]
  rfl

/-- The lines of a file, with what follows the last newline. -/
def fileLines (text : Str) : List Str := (Text.universalNewlines text).splitOn '\n'

/-- The lines that are searched. -/
def keptLines (text : Str) : List Str :=
  (fileLines text).dropLast.map cutComment ++ [(fileLines text).getLastD []]

theorem string_eq (text : Str) : string text = ['\n'].intercalate (keptLines text) := rfl

end

/-! ## Line by line -/

theorem lineAt_append {s t : Str} (hs : '\n' ∉ s) {q : Nat} :
    (q ≤ s.length → lineAt (s ++ '\n' :: t) q = 0) ∧
      lineAt (s ++ '\n' :: t) (q + (s.length + 1)) = lineAt t q + 1 := by
  constructor
  · intro hq
    rw [lineAt, List.take_append_of_le_length hq]
    exact List.count_eq_zero.2 fun h => hs (List.mem_of_mem_take h)
  · rw [lineAt, lineAt, show q + (s.length + 1) = s.length + (q + 1) by omega,
      List.take_length_add_append, List.take_succ_cons, List.count_append, List.count_cons_self,
      List.count_eq_zero.2 hs]
    omega

theorem columnAt_of_not_mem {s : Str} (hs : '\n' ∉ s) {q : Nat} (hq : q ≤ s.length) :
    columnAt s q = q := by
  rw [columnAt, List.takeWhile_eq_self_iff.2, List.length_reverse, List.length_take]
  · omega
  · intro c hc
    have hmem := List.mem_of_mem_take (List.mem_reverse.1 hc)
    simp only [bne_iff_ne, ne_eq]
    rintro rfl
    exact hs hmem

theorem columnAt_append {s t : Str} (hs : '\n' ∉ s) {q : Nat} :
    (q ≤ s.length → columnAt (s ++ '\n' :: t) q = q) ∧
      columnAt (s ++ '\n' :: t) (q + (s.length + 1)) = columnAt t q := by
  constructor
  · intro hq
    rw [columnAt, List.take_append_of_le_length hq]
    exact columnAt_of_not_mem hs hq
  · rw [columnAt, columnAt, show q + (s.length + 1) = s.length + (q + 1) by omega,
      List.take_length_add_append, List.take_succ_cons, List.reverse_append, List.reverse_cons,
      List.append_assoc, List.takeWhile_append]
    split
    · rename_i hall
      rw [List.singleton_append, List.takeWhile_cons_of_neg (by simp), List.append_nil, hall]
    · rfl

section

variable {isWord : Char → Bool} {key : Str}

theorem newline_not_mem (hnl : isWord '\n' = false) (hword : ∀ c ∈ key, isWord c = true) :
    '\n' ∉ key := by
  intro h
  rw [hword _ h] at hnl
  cases hnl

/-- The places found in a text of lines are those found in its lines. -/
theorem find_lines (hnl : isWord '\n' = false) (hne : key ≠ [])
    (hword : ∀ c ∈ key, isWord c = true) {ls : List Str} (hls : ∀ l ∈ ls, '\n' ∉ l) (n : Nat) :
    (WordReplace.find isWord key (['\n'].intercalate ls)).map (fun q =>
        (n + lineAt (['\n'].intercalate ls) q, columnAt (['\n'].intercalate ls) q))
      = (ls.zipIdx n).flatMap fun p => (WordReplace.find isWord key p.1).map fun c => (p.2, c) := by
  induction ls generalizing n with
  | nil => rfl
  | cons l ls ih =>
    have hl := hls l List.mem_cons_self
    cases ls with
    | nil =>
      rw [List.intercalate_singleton, List.zipIdx_cons, List.flatMap_cons, List.zipIdx_nil,
        List.flatMap_nil, List.append_nil]
      refine List.map_congr_left fun q hq => ?_
      have hlt := WordReplace.lt_of_mem_find hq
      rw [columnAt_of_not_mem hl hlt.le, lineAt, List.count_eq_zero.2, Nat.add_zero]
      exact fun h => hl (List.mem_of_mem_take h)
    | cons l' ls =>
      have hih := ih (fun m hm => hls m (List.mem_cons_of_mem l hm)) (n + 1)
      rw [List.intercalate_cons_cons, List.append_assoc, List.singleton_append,
        WordReplace.find_append_sep hne (newline_not_mem hnl hword) hnl, List.map_append,
        List.map_map, List.zipIdx_cons, List.flatMap_cons, ← hih]
      congr 1
      · refine List.map_congr_left fun q hq => ?_
        have hlt := WordReplace.lt_of_mem_find hq
        rw [(lineAt_append hl).1 hlt.le, (columnAt_append hl).1 hlt.le, Nat.add_zero]
      · refine List.map_congr_left fun q _ => ?_
        rw [Function.comp_apply, (lineAt_append hl).2, (columnAt_append hl).2]
        rw [Nat.add_assoc, Nat.add_comm 1]

theorem fileLines_newline {text l : Str} (h : l ∈ fileLines text) : '\n' ∉ l :=
  Text.not_mem_of_mem_splitOn h

theorem fileLines_ne_nil (text : Str) : fileLines text ≠ [] :=
  List.splitOn_ne_nil _ _

theorem keptLines_length (text : Str) : (keptLines text).length = (fileLines text).length := by
  have hpos := List.length_pos_of_ne_nil (fileLines_ne_nil text)
  rw [keptLines, List.length_append, List.length_map, List.length_dropLast, List.length_singleton]
  omega

/-- A line that is searched is the line of the file, or what is left of it. -/
theorem keptLines_getElem? {text line : Str} {l : Nat} (h : (fileLines text)[l]? = some line) :
    ∃ kept, (keptLines text)[l]? = some kept ∧ (kept = line ∨ kept = cutComment line) := by
  have hlt := (List.getElem?_eq_some_iff.1 h).1
  by_cases hlast : l < (fileLines text).length - 1
  · refine ⟨cutComment line, ?_, Or.inr rfl⟩
    rw [keptLines, List.getElem?_append_left (by simpa using hlast), List.getElem?_map,
      List.getElem?_dropLast, if_pos hlast, h]
    rfl
  · refine ⟨line, ?_, Or.inl rfl⟩
    obtain rfl : l = (fileLines text).length - 1 := by omega
    rw [keptLines, List.getElem?_append_right (by simp), List.length_map, List.length_dropLast,
      Nat.sub_self, List.getElem?_cons_zero, List.getLastD_eq_getLast?, List.getLast?_eq_getElem?,
      h]
    rfl

/-- What is taken out of a line starts with a slash. -/
theorem exists_rest {kept line : Str} (h : kept = line ∨ kept = cutComment line) :
    line = kept ∨ ∃ t, line = kept ++ '/' :: t := by
  rcases h with rfl | rfl
  · exact Or.inl rfl
  · fun_induction cutComment line with
    | case1 c t => exact Or.inr ⟨_, rfl⟩
    | case2 c s hs ih =>
      rcases ih with heq | ⟨t, ht⟩
      · exact Or.inl (congrArg _ heq)
      · exact Or.inr ⟨t, congrArg _ ht⟩
    | case3 => exact Or.inl rfl

theorem keptLines_newline {text l : Str} (h : l ∈ keptLines text) : '\n' ∉ l := by
  obtain ⟨i, hi⟩ := List.mem_iff_getElem?.1 h
  have hlt := (List.getElem?_eq_some_iff.1 hi).1
  rw [keptLines_length] at hlt
  have hline := List.getElem?_eq_getElem hlt
  obtain ⟨kept, hkept, hcut⟩ := keptLines_getElem? hline
  rw [hi, Option.some.injEq] at hkept
  subst hkept
  have hnl := fileLines_newline (List.mem_of_getElem? hline)
  rcases exists_rest hcut with heq | ⟨t, ht⟩
  · rwa [← heq]
  · rw [ht] at hnl
    exact fun hmem => hnl (List.mem_append_left _ hmem)

/-- The occurrences, line by line. -/
theorem rounds_eq (hnl : isWord '\n' = false) (hne : key ≠ [])
    (hword : ∀ c ∈ key, isWord c = true) (text : Str) :
    rounds isWord text key
      = (keptLines text).zipIdx.flatMap fun p =>
          (WordReplace.find isWord key p.1).map fun c => (p.2, c) := by
  have h := find_lines hnl hne hword (fun l hl => @keptLines_newline text l hl) 0
  simp only [Nat.zero_add] at h
  rw [rounds, string_eq, h]

theorem mem_rounds_iff (hnl : isWord '\n' = false) (hne : key ≠ [])
    (hword : ∀ c ∈ key, isWord c = true) {text : Str} {l c : Nat} :
    (l, c) ∈ rounds isWord text key ↔
      ∃ kept, (keptLines text)[l]? = some kept ∧ c ∈ WordReplace.find isWord key kept := by
  rw [rounds_eq hnl hne hword, List.mem_flatMap]
  constructor
  · rintro ⟨p, hp, hmem⟩
    obtain ⟨c', hc', heq⟩ := List.mem_map.1 hmem
    rw [Prod.mk.injEq] at heq
    obtain ⟨rfl, rfl⟩ := heq
    exact ⟨p.1, List.mem_zipIdx_iff_getElem?.1 hp, hc'⟩
  · rintro ⟨kept, hkept, hc⟩
    exact ⟨(kept, l), List.mem_zipIdx_iff_getElem?.2 hkept, List.mem_map.2 ⟨c, hc, rfl⟩⟩

/-- No occurrence comes up twice. -/
theorem rounds_nodup (hnl : isWord '\n' = false) (hne : key ≠ [])
    (hword : ∀ c ∈ key, isWord c = true) (text : Str) : (rounds isWord text key).Nodup := by
  rw [rounds_eq hnl hne hword, List.nodup_flatMap]
  constructor
  · intro p _
    refine (WordReplace.find_nodup p.1).map fun c c' h => ?_
    exact (Prod.mk.inj h).2
  · have hsnd : ((keptLines text).zipIdx.map Prod.snd).Nodup := by
      rw [List.zipIdx_map_snd]
      exact List.nodup_range'
    refine (List.pairwise_map.1 hsnd).imp fun {p p'} hne x hx hx' => ?_
    obtain ⟨c, -, rfl⟩ := List.mem_map.1 hx
    obtain ⟨c', -, heq⟩ := List.mem_map.1 hx'
    exact hne (Prod.mk.inj heq).1.symm

end

/-! ## Whether the notes are right -/

/-- A file, the functions that are found in it, its comments, and where it belongs to the
body of which function. -/
structure Source where
  text : Str
  results : List Func
  /-- The column where the comment of a line starts. -/
  comment : Nat → Option Nat
  /-- The function whose body a place lies in, by its line and its column. -/
  owner : Nat → Nat → Option Nat
  names_ne_nil : ∀ func ∈ results, func.name ≠ []
  comment_slashes : ∀ l k, comment l = some k →
    ∃ line, (fileLines text)[l]? = some line ∧ ['/', '/'] <+: line.drop k
  owner_lt : ∀ l c i, owner l c = some i → i < results.length

/-- The inconsistency log: its keys are words. -/
structure Conflicts (isWord : Char → Bool) where
  dict : List (Str × List Str)
  keys_word : ∀ entry ∈ dict, entry.1 ≠ [] ∧ ∀ c ∈ entry.1, isWord c = true

namespace Source

variable (S : Source)

def isTest (func : Func) : Bool := Text.contains func.macros (lit "test" rfl)

/-- The rows of the functions that have the name of the closest function above a line. -/
def rowsNamed (line : Int) : List Nat :=
  (List.range S.results.length).filter fun j =>
    S.results[j]?.any fun func => !isTest func && line2funcName line S.results == func.name

section

variable (isWord : Char → Bool)

/-- The notes for one occurrence: their rows, and the numbers in them. -/
def notes (key : Str) (l c : Nat) : List (Nat × Int) :=
  ((rounds isWord S.text key).filter fun o => o = (l, c)).flatMap fun o =>
    (S.rowsNamed o.1).map fun j => (j, (o.1 : Int))

/-- The name stands at the place as a whole word. -/
def Occurs (key : Str) (l c : Nat) : Prop :=
  ∃ line, (fileLines S.text)[l]? = some line ∧ c < line.length ∧
    WordReplace.wordAt isWord key (WordReplace.before none line c) (line.drop c) = true

/-- The name stands outside of the comments, in the body of the function at `i`. -/
def OccursIn (key : Str) (l c i : Nat) : Prop :=
  S.Occurs isWord key l c ∧ (∀ k, S.comment l = some k → c < k) ∧ S.owner l c = some i

variable {isWord} (K : Conflicts isWord)

/-- Each occurrence gives one note, in the row of its function, with its one-based line. -/
def NotedOnce : Prop :=
  ∀ entry ∈ K.dict, ∀ l c i, S.OccursIn isWord entry.1 l c i →
    S.notes isWord entry.1 l c = [(i, (l : Int) + 1)]

/-- Each occurrence gives one note, in the row of its function. -/
def RowsRight : Prop :=
  ∀ entry ∈ K.dict, ∀ l c i, S.OccursIn isWord entry.1 l c i →
    (S.notes isWord entry.1 l c).map Prod.fst = [i]

end

/-- The place is not behind two slashes on its line. -/
def Searched (l c : Nat) : Prop := ∃ kept, (keptLines S.text)[l]? = some kept ∧ c < kept.length

/-- The closest function above the line has the name of the function at `i`, which is the
only one of this name that is no test. -/
def RowOf (line : Int) (i : Nat) : Prop :=
  ∃ k func f, Closest S.results line k func ∧ S.results[i]? = some f ∧ f.name = func.name ∧
    isTest f = false ∧
    ∀ (j : Nat) (g : Func), S.results[j]? = some g → g.name = f.name → isTest g = false → j = i

variable {S}

theorem mem_rowsNamed_iff {line : Int} {j : Nat} :
    j ∈ S.rowsNamed line ↔ ∃ g, S.results[j]? = some g ∧ isTest g = false ∧
      line2funcName line S.results = g.name := by
  rw [rowsNamed, List.mem_filter, List.mem_range, Option.any_eq_true]
  constructor
  · rintro ⟨-, g, hg, h⟩
    rw [Bool.and_eq_true, Bool.not_eq_true', beq_iff_eq] at h
    exact ⟨g, hg, h⟩
  · rintro ⟨g, hg, h⟩
    refine ⟨(List.getElem?_eq_some_iff.1 hg).1, g, hg, ?_⟩
    rw [Bool.and_eq_true, Bool.not_eq_true', beq_iff_eq]
    exact h

theorem rowsNamed_nodup (line : Int) : (S.rowsNamed line).Nodup :=
  List.nodup_range.filter _

theorem nodup_eq_singleton_iff {l : List Nat} (hl : l.Nodup) {i : Nat} :
    l = [i] ↔ i ∈ l ∧ ∀ j ∈ l, j = i := by
  constructor
  · rintro rfl
    simp
  · rintro ⟨hi, hall⟩
    rw [List.eq_replicate_of_mem hall] at hi hl ⊢
    rw [List.nodup_replicate] at hl
    have hpos := List.length_pos_of_mem hi
    rw [List.length_replicate] at hpos
    rw [show l.length = 1 by omega]
    rfl

/-- The only row is that of the function at `i`. -/
theorem rowsNamed_eq_iff {line : Int} {i : Nat} :
    S.rowsNamed line = [i] ↔ S.RowOf line i := by
  rw [nodup_eq_singleton_iff (rowsNamed_nodup line), mem_rowsNamed_iff]
  constructor
  · rintro ⟨⟨f, hf, htest, hname⟩, honly⟩
    rcases line2funcName_spec line S.results with ⟨k, func, hclosest, hline⟩ | ⟨-, hline⟩
    · refine ⟨k, func, f, hclosest, hf, by rw [← hname, hline], htest, fun j g hg hgname hgtest => ?_⟩
      exact honly j (mem_rowsNamed_iff.2 ⟨g, hg, hgtest, by rw [hname, hgname]⟩)
    · rw [hline] at hname
      exact absurd hname.symm (S.names_ne_nil f (List.mem_of_getElem? hf))
  · rintro ⟨k, func, f, hclosest, hf, hname, htest, honly⟩
    have hline : line2funcName line S.results = func.name := by
      rcases line2funcName_spec line S.results with ⟨k', func', hclosest', hline⟩ | ⟨hnone, -⟩
      · rw [hline, hclosest.unique hclosest']
      · have habove := hnone func (List.mem_of_getElem? hclosest.stands)
        exact absurd hclosest.above (not_lt.2 habove)
    refine ⟨⟨f, hf, htest, by rw [hline, hname]⟩, fun j hj => ?_⟩
    obtain ⟨g, hg, hgtest, hgname⟩ := mem_rowsNamed_iff.1 hj
    exact honly j g hg (by rw [← hgname, hline, hname]) hgtest

section

variable {isWord : Char → Bool} {key : Str} (hnl : isWord '\n' = false)
  (hslash : isWord '/' = false) (hne : key ≠ []) (hword : ∀ c ∈ key, isWord c = true)

include hnl hslash hne hword

/-- An occurrence comes up unless it is taken out as a comment. -/
theorem mem_rounds_of_occurs {l c : Nat} (h : S.Occurs isWord key l c) :
    (l, c) ∈ rounds isWord S.text key ↔ S.Searched l c := by
  obtain ⟨line, hline, hat⟩ := h
  obtain ⟨kept, hkept, hcut⟩ := keptLines_getElem? hline
  have hfound := (WordReplace.mem_find_iff hword hne).2 hat
  have hslash' : '/' ∉ key := by
    intro h
    rw [hword _ h] at hslash
    cases hslash
  have hmem : c ∈ WordReplace.find isWord key kept ↔ c < kept.length := by
    refine ⟨WordReplace.lt_of_mem_find, fun hlt => ?_⟩
    rcases exists_rest hcut with heq | ⟨t, ht⟩
    · rwa [heq] at hfound
    · rw [ht, WordReplace.find_append_sep hne hslash' hslash] at hfound
      rcases List.mem_append.1 hfound with hin | hout
      · exact hin
      · obtain ⟨c', -, rfl⟩ := List.mem_map.1 hout
        omega
  rw [mem_rounds_iff hnl hne hword, Searched]
  constructor
  · rintro ⟨kept', hkept', hc⟩
    rw [hkept, Option.some.injEq] at hkept'
    subst hkept'
    exact ⟨kept, hkept, hmem.1 hc⟩
  · rintro ⟨kept', hkept', hc⟩
    rw [hkept, Option.some.injEq] at hkept'
    subst hkept'
    exact ⟨kept, hkept, hmem.2 hc⟩

omit hslash in
theorem notes_eq (l c : Nat) : (S.notes isWord key l c).map Prod.fst
    = if (l, c) ∈ rounds isWord S.text key then S.rowsNamed l else [] := by
  rw [notes]
  split
  · rename_i hmem
    have hfilter : (rounds isWord S.text key).filter (fun o => o = (l, c)) = [(l, c)] := by
      rw [List.filter_eq, List.count_eq_one_of_mem (rounds_nodup hnl hne hword _) hmem]
      rfl
    rw [hfilter, List.flatMap_singleton, List.map_map]
    exact List.map_id _
  · rename_i hmem
    have hfilter : (rounds isWord S.text key).filter (fun o => o = (l, c)) = [] := by
      rw [List.filter_eq_nil_iff]
      intro o ho
      rw [decide_eq_true_eq]
      rintro rfl
      exact hmem ho
    rw [hfilter]
    rfl

end

/-- The column of a row holds the texts of its notes, occurrence by occurrence. -/
theorem inconsistencyTexts_rounds {isWord : Char → Bool} {file : SourceFile}
    (hresults : file.results = S.results)
    (hoccurrences : file.occurrences = occurrenceLines isWord S.text) {i : Nat} {func : Func}
    (hfunc : S.results[i]? = some func) (htest : isTest func = false)
    (dict : List (Str × List Str)) :
    inconsistencyTexts file func dict
      = dict.flatMap fun entry => (rounds isWord S.text entry.1).flatMap fun o =>
          if i ∈ S.rowsNamed o.1 then inconsistencyText entry.1 o.1 entry.2 else [] := by
  rw [inconsistencyTexts, ← List.flatMap_def]
  congr 1
  funext entry
  rw [hoccurrences, occurrenceLines_eq, List.map_map, ← List.flatMap_def]
  congr 1
  funext o
  rw [Function.comp_apply, hresults]
  have hrow : i ∈ S.rowsNamed o.1 ↔ line2funcName o.1 S.results = func.name := by
    rw [mem_rowsNamed_iff]
    constructor
    · rintro ⟨g, hg, -, hname⟩
      rw [hfunc, Option.some.injEq] at hg
      rw [hname, hg]
    · exact fun hname => ⟨func, hfunc, htest, hname⟩
  by_cases hname : line2funcName o.1 S.results = func.name
  · rw [if_neg (not_not.2 hname), if_pos (hrow.2 hname)]
  · rw [if_pos hname, if_neg fun h => hname (hrow.1 h)]

/-- No occurrence in a body is noted with its own line; and it is noted in the right row
exactly when it is searched and the closest function above leads to its own one alone. -/
theorem occurrence_noted_iff {isWord : Char → Bool} (hnl : isWord '\n' = false)
    (hslash : isWord '/' = false) (S : Source) (K : Conflicts isWord) :
    (S.NotedOnce K ↔ ∀ entry ∈ K.dict, ∀ l c i, ¬ S.OccursIn isWord entry.1 l c i) ∧
      (S.RowsRight K ↔ ∀ entry ∈ K.dict, ∀ l c i, S.OccursIn isWord entry.1 l c i →
        S.Searched l c ∧ S.RowOf l i) := by
  constructor
  · constructor
    · intro h entry hentry l c i hoccurs
      have hmem : (i, (l : Int) + 1) ∈ S.notes isWord entry.1 l c := by
        rw [h entry hentry l c i hoccurs]
        exact List.mem_singleton_self _
      -- the number in a note is that of the lines above
      obtain ⟨o, ho, hnote⟩ := List.mem_flatMap.1 hmem
      obtain rfl : o = (l, c) := by simpa using (List.mem_filter.1 ho).2
      obtain ⟨j, -, heq⟩ := List.mem_map.1 hnote
      have := (Prod.mk.inj heq).2
      omega
    · exact fun h entry hentry l c i hoccurs => absurd hoccurs (h entry hentry l c i)
  · refine forall₂_congr fun entry hentry => forall₃_congr fun l c i => ?_
    obtain ⟨hne, hword⟩ := K.keys_word entry hentry
    refine forall_congr' fun hoccurs => ?_
    rw [notes_eq hnl hne hword, ← mem_rounds_of_occurs hnl hslash hne hword hoccurs.1,
      ← rowsNamed_eq_iff]
    split
    · rename_i h
      exact (and_iff_right h).symm
    · rename_i h
      simp [h]

end Source

def oneUseText : Str := lit "pub fn take() -> u8 \x7b\n    GAS_MAX\n\x7d\n" rfl

def takeFunc : Func := ⟨lit "take" rfl, [], [], 1, []⟩

example :
    (FindFunc.findFunc Text.isAsciiWord false oneUseText).map FindFunc.Result.func = [takeFunc] := by
  decide +kernel

/-- The body of the function is the second line. -/
def oneUseOwner (l _ : Nat) : Option Nat := if l = 1 then some 0 else none

theorem oneUseOwner_lt (l c i : Nat) (h : oneUseOwner l c = some i) : i < [takeFunc].length := by
  rw [oneUseOwner] at h
  split at h
  · rw [← Option.some.inj h]
    decide
  · cases h

theorem no_comment_slashes (l k : Nat) (h : (none : Option Nat) = some k) :
    ∃ line, (fileLines oneUseText)[l]? = some line ∧ ['/', '/'] <+: line.drop k := by
  cases h

/-- A function that uses a name on the first line of its body. -/
def oneUse : Source where
  text := oneUseText
  results := [takeFunc]
  comment := fun _ => none
  owner := oneUseOwner
  names_ne_nil := by decide
  comment_slashes := no_comment_slashes
  owner_lt := oneUseOwner_lt

def gasNames : List (Str × List Str) := [(lit "GAS_MAX" rfl, [lit "GAS_MAXI" rfl])]

theorem gasNames_word :
    ∀ entry ∈ gasNames, entry.1 ≠ [] ∧ ∀ c ∈ entry.1, Text.isAsciiWord c = true := by
  intro entry hentry
  rw [List.mem_singleton.1 hentry]
  exact ⟨by decide, List.all_eq_true.1 (by decide +kernel)⟩

/-- A log with two similar names. -/
def gasLimits : Conflicts Text.isAsciiWord := ⟨gasNames, gasNames_word⟩

theorem occurrence_noted_iff_oneUse :
    (oneUse.NotedOnce gasLimits ↔
        ∀ entry ∈ gasLimits.dict, ∀ l c i, ¬ oneUse.OccursIn Text.isAsciiWord entry.1 l c i) ∧
      (oneUse.RowsRight gasLimits ↔ ∀ entry ∈ gasLimits.dict, ∀ l c i,
        oneUse.OccursIn Text.isAsciiWord entry.1 l c i →
          oneUse.Searched l c ∧ oneUse.RowOf l i) :=
  Source.occurrence_noted_iff (by decide +kernel) (by decide +kernel) oneUse gasLimits

/-- The use on the first line of the body gets no note. -/
theorem first_line_not_noted :
    ¬ ∀ (isWord : Char → Bool) (S : Source) (K : Conflicts isWord), S.NotedOnce K := by
  intro h
  have hoccurs : oneUse.OccursIn Text.isAsciiWord (lit "GAS_MAX" rfl) 1 4 0 := by
    refine ⟨⟨lit "    GAS_MAX" rfl, ?_, ?_, ?_⟩, ?_, rfl⟩
    · decide +kernel
    · decide
    · decide +kernel
    · intro k hk
      cases hk
  have hnotes : oneUse.notes Text.isAsciiWord (lit "GAS_MAX" rfl) 1 4 = [] := by
    decide +kernel
  have hnoted := h Text.isAsciiWord oneUse gasLimits _ List.mem_cons_self 1 4 0 hoccurs
  rw [hnotes] at hnoted
  cases hnoted

end InconsistencyNotes
