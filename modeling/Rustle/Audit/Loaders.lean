import Rustle.Library.Text

/-!
# The logs, and how `audit.py` loads them

A detector writes its findings one a line, the fields joined by `@`.  A loader
strips each line, splits it at `@`, and adds what it finds to a set; an exception
ends the loop, since the handler encloses **all** of it.

* `unlog`, `loadPairs`, `loadLines`, `loadNotes`, `loadChecks` — the loaders.
* `Clean` — the fields that survive being written and read.
* `clean_of_mem_unlog` — whatever is loaded is clean; `unlog_log` — a log of clean
  records is loaded completely.
* `loaders_exact_iff` — when a log is loaded exactly.
-/

namespace Audit

open Text

/-! ## Writers -/

/-- The line of a record: its fields joined by `@`. -/
def logLine (fields : List Str) : Str := ['@'].intercalate fields

/-- The log of some records, given their fields. -/
def log (records : List (List Str)) : Str := unlines (records.map logLine)

/-- function, file -/
abbrev PairRecord := Str × Str

/-- function, file, line -/
abbrev LineRecord := Str × Str × Int

/-- function, file, note -/
abbrev NoteRecord := Str × Str × Str

/-- function, check -/
abbrev CheckRecord := Str × Bool

def PairRecord.fields (r : PairRecord) : List Str := [r.1, r.2]

def LineRecord.fields (r : LineRecord) : List Str := [r.1, r.2.1, intStr r.2.2]

def NoteRecord.fields (r : NoteRecord) : List Str := [r.1, r.2.1, r.2.2]

/-! ## Loaders -/

/-- The loop of a loader over the lines; `none` is an exception, which ends it. -/
def loadLoop {α : Type} (decode : List Str → Option α) : List Str → List α
  | [] => []
  | line :: rest =>
    match decode ((strip line).splitOn '@') with
    | none => []
    | some r => r :: loadLoop decode rest

/-- What a loader adds to its set, in order. -/
def unlog {α : Type} (decode : List Str → Option α) (text : Str) : List α :=
  loadLoop decode (lines text)

/-- `func, file = line.strip().split("@")` -/
def decodePair : List Str → Option PairRecord
  | [func, file] => some (func, file)
  | _ => none

/-- `func, file, line = line.strip().split("@")`, then `int(line)` -/
def decodeLine : List Str → Option LineRecord
  | [func, file, line] => (int line).map fun n => (func, file, n)
  | _ => none

/-- `func, file, note = line.strip().split("@")` -/
def decodeNote : List Str → Option NoteRecord
  | [func, file, note] => some (func, file, note)
  | _ => none

/-- `s.lower() == "true"` -/
def isTrue (s : Str) : Bool := s.map Char.toLower == lit "true" rfl

/-- `func, check = line.strip().split("@")`, then `check.lower() == "true"` -/
def decodeCheck : List Str → Option CheckRecord
  | [func, check] => some (func, isTrue check)
  | _ => none

def loadPairs (text : Str) : List PairRecord := unlog decodePair text

def loadLines (text : Str) : List LineRecord := unlog decodeLine text

def loadNotes (text : Str) : List NoteRecord := unlog decodeNote text

def loadChecks (text : Str) : List CheckRecord := unlog decodeCheck text

/-! ## Clean records -/

/-- Fields that come back as they were written: no separator and no newline of
either kind, no white space before the first field or behind the last one. -/
structure Clean (first last : Str) (fields : List Str) : Prop where
  no_separator : ∀ f ∈ fields, '@' ∉ f
  no_newline : ∀ f ∈ fields, '\n' ∉ f ∧ '\r' ∉ f
  lstrip_first : lstrip first = first
  rstrip_last : rstrip last = last

def PairRecord.Clean (r : PairRecord) : Prop := Audit.Clean r.1 r.2 (PairRecord.fields r)

/-- The numeral of the line is always clean. -/
def LineRecord.Clean (r : LineRecord) : Prop := Audit.Clean r.1 [] [r.1, r.2.1]

def NoteRecord.Clean (r : NoteRecord) : Prop := Audit.Clean r.1 r.2.2 (NoteRecord.fields r)

theorem at_solid : isSpace '@' = false := by decide

/-- Stripping the line of a record strips its first and its last field. -/
theorem strip_pairLine (a b : Str) : strip (logLine [a, b]) = logLine [lstrip a, rstrip b] := by
  simpa [logLine] using strip_append_solid a b at_solid

theorem strip_tripleLine (a b c : Str) :
    strip (logLine [a, b, c]) = logLine [lstrip a, b, rstrip c] := by
  have hr : rstrip (b ++ '@' :: c) = b ++ '@' :: rstrip c := rstrip_append_solid b c at_solid
  have h := strip_append_solid a (b ++ '@' :: c) at_solid
  rw [hr] at h
  simpa [logLine] using h

theorem splitOn_logLine {fields : List Str} (hne : fields ≠ []) (h : ∀ f ∈ fields, '@' ∉ f) :
    (logLine fields).splitOn '@' = fields :=
  List.splitOn_intercalate '@' h hne

theorem clean_split {line : Str} (h : '\n' ∉ line ∧ '\r' ∉ line) :
    ∀ f ∈ (strip line).splitOn '@', '@' ∉ f ∧ '\n' ∉ f ∧ '\r' ∉ f := by
  intro f hf
  have hmem : ∀ c ∈ f, c ∈ line := fun c hc => mem_of_mem_strip (mem_of_mem_splitOn hf hc)
  exact ⟨not_mem_of_mem_splitOn hf, fun hc => h.1 (hmem _ hc), fun hc => h.2 (hmem _ hc)⟩

/-- What stands before a separator of a stripped line begins with no white space. -/
theorem lstrip_of_strip {line a t : Str} (h : strip line = a ++ '@' :: t) : lstrip a = a := by
  have hs := lstrip_strip line
  rw [h, lstrip_append_solid a t at_solid] at hs
  exact List.append_cancel_right hs

/-- What stands behind a separator of a stripped line ends with no white space. -/
theorem rstrip_of_strip {line t b : Str} (h : strip line = t ++ '@' :: b) : rstrip b = b := by
  have hs := rstrip_strip line
  rw [h, rstrip_append_solid t b at_solid] at hs
  exact (List.cons.inj (List.append_cancel_left hs)).2

theorem clean_of_pair {line a b : Str} (hline : '\n' ∉ line ∧ '\r' ∉ line)
    (h : (strip line).splitOn '@' = [a, b]) : Clean a b [a, b] := by
  have hjoin : strip line = a ++ '@' :: b := by
    have hs : ['@'].intercalate ((strip line).splitOn '@') = strip line :=
      List.intercalate_splitOn '@'
    rw [← hs, h]
    simp
  have hsplit := clean_split hline
  rw [h] at hsplit
  exact ⟨fun f hf => (hsplit f hf).1, fun f hf => (hsplit f hf).2, lstrip_of_strip hjoin,
    rstrip_of_strip hjoin⟩

theorem clean_of_triple {line a b c : Str} (hline : '\n' ∉ line ∧ '\r' ∉ line)
    (h : (strip line).splitOn '@' = [a, b, c]) : Clean a c [a, b, c] := by
  have hjoin : strip line = a ++ '@' :: (b ++ '@' :: c) := by
    have hs : ['@'].intercalate ((strip line).splitOn '@') = strip line :=
      List.intercalate_splitOn '@'
    rw [← hs, h]
    simp
  have hjoin' : strip line = (a ++ '@' :: b) ++ '@' :: c := by rw [hjoin]; simp
  have hsplit := clean_split hline
  rw [h] at hsplit
  exact ⟨fun f hf => (hsplit f hf).1, fun f hf => (hsplit f hf).2, lstrip_of_strip hjoin,
    rstrip_of_strip hjoin'⟩

/-! ## Reading back -/

/-- A record that is loaded was decoded from a line. -/
theorem exists_line_of_mem_unlog {α : Type} {decode : List Str → Option α} {text : Str} {r : α}
    (h : r ∈ unlog decode text) :
    ∃ line ∈ lines text, decode ((strip line).splitOn '@') = some r := by
  unfold unlog at h
  generalize lines text = ls at h ⊢
  induction ls with
  | nil => simp [loadLoop] at h
  | cons line rest ih =>
    unfold loadLoop at h
    split at h
    · simp at h
    · rename_i r' hr'
      rcases List.mem_cons.1 h with rfl | h
      · exact ⟨line, by simp, hr'⟩
      · obtain ⟨l, hl, hd⟩ := ih h
        exact ⟨l, by simp [hl], hd⟩

/-- Lines that all decode are loaded completely. -/
theorem loadLoop_eq_self {α : Type} {decode : List Str → Option α} {f : α → Str} {rs : List α}
    (h : ∀ r ∈ rs, decode ((strip (f r)).splitOn '@') = some r) :
    loadLoop decode (rs.map f) = rs := by
  induction rs with
  | nil => rfl
  | cons r rs ih =>
    rw [List.map_cons, loadLoop, h r (by simp)]
    simp only [ih fun x hx => h x (by simp [hx])]

theorem newline_not_mem_logLine {fields : List Str} {c : Char} (hc : c ≠ '@')
    (h : ∀ f ∈ fields, c ∉ f) : c ∉ logLine fields := by
  induction fields with
  | nil => simp [logLine]
  | cons x xs ih =>
    have ih' := ih fun f hf => h f (by simp [hf])
    cases xs with
    | nil => simpa [logLine] using h x (by simp)
    | cons y ys =>
      have hx := h x (by simp)
      unfold logLine at ih' ⊢
      rw [List.intercalate_cons_cons]
      simp [hx, hc, ih']

/-- The lines of a log are those of its records. -/
theorem lines_log {α : Type} {fields : α → List Str} {rs : List α}
    (hnl : ∀ r ∈ rs, ∀ f ∈ fields r, '\n' ∉ f ∧ '\r' ∉ f) :
    lines (log (rs.map fields)) = rs.map fun r => logLine (fields r) := by
  rw [log, List.map_map]
  apply lines_unlines
  intro l hl
  obtain ⟨r, hr, rfl⟩ := List.mem_map.1 hl
  exact ⟨newline_not_mem_logLine (by decide) fun f hf => (hnl r hr f hf).1,
    newline_not_mem_logLine (by decide) fun f hf => (hnl r hr f hf).2⟩

/-- A log of records that decode to themselves is loaded completely. -/
theorem unlog_log {α : Type} {decode : List Str → Option α} {fields : α → List Str} {rs : List α}
    (hnl : ∀ r ∈ rs, ∀ f ∈ fields r, '\n' ∉ f ∧ '\r' ∉ f)
    (hdec : ∀ r ∈ rs, decode ((strip (logLine (fields r))).splitOn '@') = some r) :
    unlog decode (log (rs.map fields)) = rs := by
  rw [unlog, lines_log hnl]
  exact loadLoop_eq_self hdec

/-- For a format whose clean records decode to themselves, and which decodes
nothing else, the loader returns a log exactly when its records are clean. -/
theorem loads_exactly_iff {α : Type} {decode : List Str → Option α} {fields : α → List Str}
    {clean : α → Prop} (hnl : ∀ r, clean r → ∀ f ∈ fields r, '\n' ∉ f ∧ '\r' ∉ f)
    (hdec : ∀ r, clean r → decode ((strip (logLine (fields r))).splitOn '@') = some r)
    (hclean : ∀ text, ∀ r ∈ unlog decode text, clean r) (rs : List α) :
    (∀ r, r ∈ unlog decode (log (rs.map fields)) ↔ r ∈ rs) ↔ ∀ r ∈ rs, clean r := by
  refine ⟨fun h r hr => hclean _ r ((h r).2 hr), fun h r => ?_⟩
  rw [unlog_log (fun x hx => hnl x (h x hx)) fun x hx => hdec x (h x hx)]

/-! ## The three formats -/

theorem PairRecord.decode_clean {r : PairRecord} (h : r.Clean) :
    decodePair ((strip (logLine r.fields)).splitOn '@') = some r := by
  show decodePair ((strip (logLine [r.1, r.2])).splitOn '@') = some r
  rw [strip_pairLine, h.lstrip_first, h.rstrip_last,
    splitOn_logLine (List.cons_ne_nil _ _) h.no_separator]
  rfl

theorem PairRecord.clean_of_mem {text : Str} {r : PairRecord} (h : r ∈ loadPairs text) :
    r.Clean := by
  obtain ⟨line, hline, hr⟩ := exists_line_of_mem_unlog h
  unfold decodePair at hr
  split at hr
  · rename_i a b hab
    obtain rfl := Option.some.inj hr
    exact clean_of_pair (newline_not_mem_lines hline) hab
  · simp at hr

theorem NoteRecord.decode_clean {r : NoteRecord} (h : r.Clean) :
    decodeNote ((strip (logLine r.fields)).splitOn '@') = some r := by
  show decodeNote ((strip (logLine [r.1, r.2.1, r.2.2])).splitOn '@') = some r
  rw [strip_tripleLine, h.lstrip_first, h.rstrip_last,
    splitOn_logLine (List.cons_ne_nil _ _) h.no_separator]
  rfl

theorem NoteRecord.clean_of_mem {text : Str} {r : NoteRecord} (h : r ∈ loadNotes text) :
    r.Clean := by
  obtain ⟨line, hline, hr⟩ := exists_line_of_mem_unlog h
  unfold decodeNote at hr
  split at hr
  · rename_i a b c habc
    obtain rfl := Option.some.inj hr
    exact clean_of_triple (newline_not_mem_lines hline) habc
  · simp at hr

theorem LineRecord.clean_fields {r : LineRecord} (h : r.Clean) :
    Audit.Clean r.1 (intStr r.2.2) r.fields := by
  have hnum : ∀ c : Char, c ≠ '-' → c.isDigit = false → c ∉ intStr r.2.2 := by
    intro c hc hd hmem
    rcases mem_intStr hmem with rfl | hmem
    · exact hc rfl
    · simp [hd] at hmem
  refine ⟨?_, ?_, h.lstrip_first, rstrip_intStr _⟩
  · intro f hf
    rcases List.mem_append.1 (show f ∈ [r.1, r.2.1] ++ [intStr r.2.2] from hf) with hf | hf
    · exact h.no_separator f hf
    · obtain rfl := List.mem_singleton.1 hf
      exact hnum _ (by decide) (by decide)
  · intro f hf
    rcases List.mem_append.1 (show f ∈ [r.1, r.2.1] ++ [intStr r.2.2] from hf) with hf | hf
    · exact h.no_newline f hf
    · obtain rfl := List.mem_singleton.1 hf
      exact ⟨hnum _ (by decide) (by decide), hnum _ (by decide) (by decide)⟩

theorem LineRecord.decode_clean {r : LineRecord} (h : r.Clean) :
    decodeLine ((strip (logLine r.fields)).splitOn '@') = some r := by
  have hc := LineRecord.clean_fields h
  show decodeLine ((strip (logLine [r.1, r.2.1, intStr r.2.2])).splitOn '@') = some r
  rw [strip_tripleLine, hc.lstrip_first, hc.rstrip_last,
    splitOn_logLine (List.cons_ne_nil _ _) hc.no_separator]
  show (int (intStr r.2.2)).map (fun n => (r.1, r.2.1, n)) = some r
  rw [int_intStr]
  rfl

theorem LineRecord.clean_of_mem {text : Str} {r : LineRecord} (h : r ∈ loadLines text) :
    r.Clean := by
  obtain ⟨line, hline, hr⟩ := exists_line_of_mem_unlog h
  unfold decodeLine at hr
  split at hr
  · rename_i a b c habc
    obtain ⟨n, -, rfl⟩ := Option.map_eq_some_iff.1 hr
    have hc := clean_of_triple (newline_not_mem_lines hline) habc
    exact ⟨fun f hf => hc.no_separator f (List.mem_append_left [c] hf),
      fun f hf => hc.no_newline f (List.mem_append_left [c] hf), hc.lstrip_first, rfl⟩
  · simp at hr

/-- In each of the three formats a log is loaded exactly when all its records
are clean: one record that is not clean is changed or lost, and if its line has
too many fields the lines behind it are lost with it. -/
theorem loaders_exact_iff (pairs : List PairRecord) (locs : List LineRecord)
    (notes : List NoteRecord) :
    ((∀ r, r ∈ loadPairs (log (pairs.map PairRecord.fields)) ↔ r ∈ pairs) ↔
      ∀ r ∈ pairs, r.Clean) ∧
    ((∀ r, r ∈ loadLines (log (locs.map LineRecord.fields)) ↔ r ∈ locs) ↔
      ∀ r ∈ locs, r.Clean) ∧
    ((∀ r, r ∈ loadNotes (log (notes.map NoteRecord.fields)) ↔ r ∈ notes) ↔
      ∀ r ∈ notes, r.Clean) := by
  refine ⟨?_, ?_, ?_⟩
  · exact loads_exactly_iff (fun r h => h.no_newline) (fun r h => PairRecord.decode_clean h)
      (fun text r h => PairRecord.clean_of_mem h) pairs
  · exact loads_exactly_iff (fun r h => (LineRecord.clean_fields h).no_newline)
      (fun r h => LineRecord.decode_clean h) (fun text r h => LineRecord.clean_of_mem h) locs
  · exact loads_exactly_iff (fun r h => h.no_newline) (fun r h => NoteRecord.decode_clean h)
      (fun text r h => NoteRecord.clean_of_mem h) notes

/-- Two functions of a project that lies below a directory with `@` in its name
and one that does not. -/
def corpRecords : List PairRecord :=
  [(lit "token::init" rfl, lit "/home/u@corp/token/src/lib.rs" rfl),
   (lit "token::send" rfl, lit "/home/u/token/src/lib.rs" rfl)]

/-- The path with `@` ends the loop: the other record is dropped with it. -/
theorem at_in_path_drops_log :
    ¬ ∀ r, r ∈ loadPairs (log (corpRecords.map PairRecord.fields)) ↔ r ∈ corpRecords := by
  intro h
  have hload : loadPairs (log (corpRecords.map PairRecord.fields)) = [] := by decide +kernel
  rw [hload] at h
  exact absurd ((h _).2 (List.mem_cons_self ..)) (List.not_mem_nil)

end Audit
