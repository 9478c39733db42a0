import Rustle.Library.Dict
import Rustle.Library.Text

/-!
# The tables that `import.js` reads back

`audit.py` writes its tables as CSV, and `parseCSV` of `import.js` decodes them with a
scanner of its own.

* `decode`, `parseCSV` — the scanner for a line, and the reader.
* `Table`, `Table.write` — the tables, and what is assumed of their writer: every field in
  double quotes, and double quotes doubled.
* `Faithful` — the fields that survive the scanner.
* `parseCSV_write_iff` — a table is read back exactly when all its fields are faithful.
-/

namespace CsvImport

open Text (lit)

/-! ## The reader -/

/-- The variables of the loop over the characters of a line. -/
structure Scanner where
  s : Str
  flag : Bool
  /-- `str[j - 1]` -/
  prev : Option Char

/-- The body of the loop. -/
def scanStep (st : Scanner) (ch : Char) : Scanner :=
  let skip := ch == '"' && st.prev != some '\\'
  let flag := if skip then !st.flag else st.flag
  let s := if skip then st.s else st.s ++ [if ch == ',' && !st.flag then '@' else ch]
  ⟨s.erase '\\', flag, some ch⟩

def decode (str : Str) : Str := (str.foldl scanStep ⟨[], false, none⟩).s

/-- What `.` does not match -/
def isLineTerminator (c : Char) : Bool :=
  c == '\n' || c == '\r' || c.toNat == 0x2028 || c.toNat == 0x2029

/-- What `trim` takes away -/
def isJsSpace (c : Char) : Bool :=
  isLineTerminator c || c == '\t' || c.toNat == 0x0B || c.toNat == 0x0C || c == ' ' ||
    c.toNat == 0xA0 || c.toNat == 0x1680 || (0x2000 ≤ c.toNat && c.toNat ≤ 0x200A) ||
    c.toNat == 0x202F || c.toNat == 0x205F || c.toNat == 0x3000 || c.toNat == 0xFEFF

def trim (s : Str) : Str := (s.dropWhile isJsSpace).rdropWhile isJsSpace

/-- `['|"]` -/
def isMark (c : Char) : Bool := c == '\'' || c == '|' || c == '"'

/-- `s.replace(/^['|"](.*)['|"]$/, "$1")` -/
def unquote (s : Str) : Str :=
  if 2 ≤ s.length ∧ s.head?.any isMark ∧ s.getLast?.any isMark ∧
      s.tail.dropLast.all (fun c => !isLineTerminator c) then
    s.tail.dropLast
  else s

/-- The loop over the headers; `none` when there is no property for one. -/
def fillObject : List Str → List Str → Dict Str Str → Option (Dict Str Str)
  | [], _, obj => some obj
  | _ :: _, [], _ => none
  | header :: headers, property :: properties, obj =>
    fillObject headers properties (obj.set (trim (unquote header)) (trim (unquote property)))

def readLine (headers : List Str) (line : Str) : Option (Dict Str Str) :=
  fillObject headers ((decode line).splitOn '@') Dict.empty

/-- The loop over the lines. -/
def readLines (headers : List Str) : List Str → Option (List (Dict Str Str))
  | [] => some []
  | line :: lines =>
    match readLine headers line with
    | none => none
    | some obj => (readLines headers lines).map (obj :: ·)

/-- `content.split(/\r\n|\n/)` -/
def splitLines (content : Str) : List Str :=
  let pieces := content.splitOn '\n'
  pieces.dropLast.map (fun l => if l.getLast? = some '\r' then l.dropLast else l) ++
    [pieces.getLastD []]

/-- `s.replace(pattern, '')` -/
def dropFirst (pattern : Str) : Str → Str
  | [] => []
  | c :: s => if pattern.isPrefixOf (c :: s) then (c :: s).drop pattern.length
    else c :: dropFirst pattern s

/-- The name of the table: the base name of the file. -/
def tableName (filepath : Str) : Str :=
  dropFirst (lit ".csv" rfl) (((filepath.splitOn '/').getLastD []).splitOn '\\' |>.getLastD [])

/-- `parseCSV(filepath)` for a file with the given contents -/
def parseCSV (filepath content : Str) : Option (Str × List (Dict Str Str)) :=
  let allTextLines := splitLines content
  let headers := (allTextLines.headD []).splitOn ','
  (readLines headers (allTextLines.drop 1).dropLast).map fun entries =>
    (tableName filepath, entries)

/-! ## The tables -/

/-- A table with its headers. -/
structure Table where
  headers : List Str
  rows : List (List Str)
  headers_ne_nil : headers ≠ []
  headers_nodup : headers.Nodup
  headers_plain : ∀ h ∈ headers, ',' ∉ h ∧ '"' ∉ h ∧ trim h = h ∧
    ∀ c ∈ h, isLineTerminator c = false
  rows_length : ∀ row ∈ rows, row.length = headers.length
  rows_line : ∀ row ∈ rows, ∀ field ∈ row, '\n' ∉ field ∧ '\r' ∉ field

/-- A field in double quotes, with its double quotes doubled. -/
def quote (field : Str) : Str :=
  '"' :: (field.flatMap (fun c => if c = '"' then ['"', '"'] else [c]) ++ ['"'])

def writeLine (fields : List Str) : Str := [','].intercalate (fields.map quote)

/-- The file, with `\r\n` at the ends of the lines or with `\n`. -/
def Table.write (t : Table) (crlf : Bool) : Str :=
  Text.unlines ((t.headers :: t.rows).map fun fields =>
    writeLine fields ++ if crlf then ['\r'] else [])

/-- Each header has the field of its column, up to white space around it. -/
def IsRow (headers row : List Str) (obj : Dict Str Str) : Prop :=
  ∀ (j : Nat) (h field : Str), headers[j]? = some h → row[j]? = some field →
    ∃ v, obj.get? h = some v ∧ trim v = trim field

/-- Begins and ends, in different places, with `'` or `|`, and has no line terminator. -/
def Wrapped (field : Str) : Prop :=
  ∃ a m b, field = a :: (m ++ [b]) ∧ (a = '\'' ∨ a = '|') ∧ (b = '\'' ∨ b = '|') ∧
    ∀ c ∈ m, isLineTerminator c = false

/-- The fields that survive. -/
structure Faithful (field : Str) : Prop where
  at_sign : '@' ∉ field
  backslash : '\\' ∉ field
  quotes : '"' ∉ field
  wrapped : ¬ Wrapped field

/-! ## Trimming -/

theorem mem_of_mem_trim {s : Str} {c : Char} (h : c ∈ trim s) : c ∈ s :=
  (List.dropWhile_sublist _).subset ((List.rdropWhile_prefix _ _).subset h)

/-- A text between two characters that are no white space is not trimmed. -/
theorem trim_eq_self {a b : Char} (ha : isJsSpace a = false) (hb : isJsSpace b = false)
    (m : Str) : trim (a :: (m ++ [b])) = a :: (m ++ [b]) := by
  rw [trim, List.dropWhile_cons_of_neg (by rw [ha]; decide), ← List.cons_append,
    List.rdropWhile_concat_neg _ _ _ (by rw [hb]; decide)]

theorem mem_trim {c : Char} (hc : isJsSpace c = false) {s : Str} (h : c ∈ s) : c ∈ trim s := by
  have hleft : c ∈ s.dropWhile isJsSpace := by
    rw [← @List.takeWhile_append_dropWhile _ isJsSpace s] at h
    rcases List.mem_append.1 h with h | h
    · rw [List.mem_takeWhile_imp h] at hc
      cases hc
    · exact h
  obtain ⟨a, b, hab⟩ := List.append_of_mem hleft
  have hkeep : ∀ b : Str, c ∈ (a ++ c :: b).rdropWhile isJsSpace := by
    intro b
    induction b using List.reverseRecOn with
    | nil =>
      rw [List.rdropWhile_concat_neg _ _ _ (by rw [hc]; decide)]
      exact List.mem_append_right _ (List.mem_singleton_self c)
    | append_singleton b d ih =>
      rw [← List.cons_append, ← List.append_assoc]
      cases hd : isJsSpace d with
      | true => rwa [List.rdropWhile_concat_pos _ _ _ hd]
      | false =>
        rw [List.rdropWhile_concat_neg _ _ _ (by rw [hd]; decide)]
        simp
  rw [trim, hab]
  exact hkeep b

theorem trim_idem (s : Str) : trim (trim s) = trim s := by
  have hleft : (trim s).dropWhile isJsSpace = trim s := by
    cases htrim : trim s with
    | nil => rfl
    | cons c rest =>
      have hpre := List.rdropWhile_prefix isJsSpace (s.dropWhile isJsSpace)
      rw [← trim, htrim] at hpre
      obtain ⟨t, ht⟩ := hpre
      have hhead := List.head?_dropWhile_not isJsSpace s
      rw [← ht, List.cons_append, List.head?_cons] at hhead
      rw [List.dropWhile_cons_of_neg (by simpa using hhead)]
  rw [trim, hleft, trim, List.rdropWhile_idempotent]

theorem trim_length_le (s : Str) : (trim s).length ≤ s.length :=
  ((List.rdropWhile_prefix _ _).sublist.trans (List.dropWhile_sublist _)).length_le

/-! ## The scanner -/

theorem backslash_notMem_scanStep {st : Scanner} (h : '\\' ∉ st.s) (ch : Char) :
    '\\' ∉ (scanStep st ch).s := by
  rw [scanStep]
  dsimp only
  split
  · rwa [List.erase_of_not_mem h]
  · generalize (if (ch == ',' && !st.flag) = true then '@' else ch) = d
    by_cases hd : d = '\\'
    · rw [hd, List.erase_append_right _ h, List.erase_cons_head, List.append_nil]
      exact h
    · have hnot : '\\' ∉ st.s ++ [d] := by
        rw [List.mem_append, List.mem_singleton, not_or]
        exact ⟨h, Ne.symm hd⟩
      rwa [List.erase_of_not_mem hnot]

theorem backslash_notMem_decode (str : Str) : '\\' ∉ decode str := by
  have hrun : ∀ (str : Str) (st : Scanner), '\\' ∉ st.s → '\\' ∉ (str.foldl scanStep st).s := by
    intro str
    induction str with
    | nil => exact fun st h => h
    | cons ch str ih => exact fun st h => ih _ (backslash_notMem_scanStep h ch)
  exact hrun str _ List.not_mem_nil

/-- Without backslashes, no double quote is taken over. -/
theorem quote_notMem_decode {str : Str} (h : '\\' ∉ str) : '"' ∉ decode str := by
  have hrun : ∀ (str : Str) (st : Scanner), '\\' ∉ str → st.prev ≠ some '\\' → '"' ∉ st.s →
      '"' ∉ (str.foldl scanStep st).s := by
    intro str
    induction str with
    | nil => exact fun st _ _ hs => hs
    | cons ch str ih =>
      intro st hstr hprev hs
      rw [List.mem_cons, not_or] at hstr
      refine ih _ hstr.2 (fun heq => hstr.1 (Option.some.inj heq).symm) fun hmem => ?_
      have hmem := List.mem_of_mem_erase hmem
      split at hmem
      · exact hs hmem
      · rename_i hskip
        rcases List.mem_append.1 hmem with hmem | hmem
        · exact hs hmem
        · rw [List.mem_singleton] at hmem
          split at hmem
          · cases hmem
          · rw [← hmem, beq_self_eq_true, Bool.true_and, bne_iff_ne, not_not] at hskip
            exact hprev hskip
  exact hrun str _ h (fun heq => by cases heq) List.not_mem_nil

/-- Inside of quotes, other characters are taken over. -/
theorem scan_inside {f : Str} (hquote : '"' ∉ f) (hback : '\\' ∉ f) {st : Scanner}
    (hflag : st.flag = true) (hs : '\\' ∉ st.s) (hprev : st.prev ≠ some '\\') :
    ∃ prev, prev ≠ some '\\' ∧ f.foldl scanStep st = ⟨st.s ++ f, true, prev⟩ := by
  induction f generalizing st with
  | nil =>
    refine ⟨st.prev, hprev, ?_⟩
    rw [List.append_nil, ← hflag]
    rfl
  | cons c f ih =>
    rw [List.mem_cons, not_or] at hquote hback
    have hnot : '\\' ∉ st.s ++ [c] := by
      rw [List.mem_append, List.mem_singleton, not_or]
      exact ⟨hs, hback.1⟩
    have hstep : scanStep st c = ⟨st.s ++ [c], true, some c⟩ := by
      have hc : (c == '"') = false := beq_eq_false_iff_ne.2 (Ne.symm hquote.1)
      rw [scanStep]
      simp only [hc, hflag, Bool.false_and, Bool.false_eq_true, if_false, Bool.not_true,
        Bool.and_false, List.erase_of_not_mem hnot]
    obtain ⟨prev, hne, heq⟩ := @ih hquote.2 hback.2 ⟨st.s ++ [c], true, some c⟩ rfl hnot
      fun heq => hback.1 (Option.some.inj heq).symm
    refine ⟨prev, hne, ?_⟩
    rw [List.foldl_cons, hstep, heq, List.append_assoc, List.singleton_append]

theorem scan_mark {st : Scanner} (hs : '\\' ∉ st.s) (hprev : st.prev ≠ some '\\') :
    scanStep st '"' = ⟨st.s, !st.flag, some '"'⟩ := by
  have hskip : (('"' : Char) == '"' && st.prev != some '\\') = true := by
    rw [beq_self_eq_true, Bool.true_and, bne_iff_ne]
    exact hprev
  rw [scanStep]
  simp only [hskip, if_true, List.erase_of_not_mem hs]

theorem quote_eq {f : Str} (h : '"' ∉ f) : quote f = '"' :: (f ++ ['"']) := by
  have hflat : f.flatMap (fun c => if c = '"' then ['"', '"'] else [c]) = f := by
    induction f with
    | nil => rfl
    | cons c f ih =>
      rw [List.mem_cons, not_or] at h
      rw [List.flatMap_cons, if_neg (Ne.symm h.1), ih h.2, List.singleton_append]
  rw [quote, hflat]

/-- A quoted field without quotes and backslashes gives the field. -/
theorem scan_quote {f : Str} (hquote : '"' ∉ f) (hback : '\\' ∉ f) {s : Str}
    {prev : Option Char} (hs : '\\' ∉ s) (hprev : prev ≠ some '\\') :
    (quote f).foldl scanStep ⟨s, false, prev⟩ = ⟨s ++ f, false, some '"'⟩ := by
  obtain ⟨prev', hne, hinside⟩ := @scan_inside f hquote hback ⟨s, true, some '"'⟩ rfl hs
    (show some '"' ≠ some '\\' by decide)
  have hboth : '\\' ∉ s ++ f := by
    rw [List.mem_append, not_or]
    exact ⟨hs, hback⟩
  rw [quote_eq hquote, List.foldl_cons, scan_mark hs hprev, List.foldl_append]
  dsimp only
  rw [Bool.not_false, hinside, List.foldl_cons, List.foldl_nil, scan_mark hboth hne]
  rfl

theorem scan_comma {s : Str} {prev : Option Char} (hs : '\\' ∉ s) :
    scanStep ⟨s, false, prev⟩ ',' = ⟨s ++ ['@'], false, some ','⟩ := by
  have hnot : '\\' ∉ s ++ ['@'] := by
    rw [List.mem_append, not_or]
    exact ⟨hs, by decide⟩
  rw [scanStep]
  simp [List.erase_of_not_mem hnot]

/-- The step along a line: a field and then the others. -/
theorem scan_line {fields : List Str} (hne : fields ≠ [])
    (h : ∀ f ∈ fields, '"' ∉ f ∧ '\\' ∉ f) {s : Str} {prev : Option Char} (hs : '\\' ∉ s)
    (hprev : prev ≠ some '\\') :
    ((writeLine fields).foldl scanStep ⟨s, false, prev⟩).s = s ++ ['@'].intercalate fields := by
  induction fields generalizing s prev with
  | nil => exact absurd rfl hne
  | cons f fields ih =>
    obtain ⟨hquote, hback⟩ := h f List.mem_cons_self
    cases fields with
    | nil =>
      rw [writeLine, List.map_singleton, List.intercalate_singleton, List.intercalate_singleton,
        scan_quote hquote hback hs hprev]
    | cons g fields =>
      have hnot : '\\' ∉ s ++ f := by
        rw [List.mem_append, not_or]
        exact ⟨hs, hback⟩
      have hnot' : '\\' ∉ s ++ f ++ ['@'] := by
        rw [List.mem_append, not_or]
        exact ⟨hnot, by decide⟩
      have htail := @ih (List.cons_ne_nil g fields)
        (fun x hx => h x (List.mem_cons_of_mem f hx)) (s ++ f ++ ['@']) (some ',') hnot' (by decide)
      rw [writeLine, List.map_cons, List.map_cons, List.intercalate_cons_cons,
        List.intercalate_cons_cons, List.foldl_append, List.foldl_append,
        scan_quote hquote hback hs hprev, List.foldl_cons, List.foldl_nil, scan_comma hnot]
      rw [writeLine, List.map_cons] at htail
      rw [htail, List.append_assoc, List.append_assoc, List.append_assoc]

/-- A line of such fields is decoded into them, unless one has an `@`. -/
theorem splitOn_decode {fields : List Str} (hne : fields ≠ [])
    (h : ∀ f ∈ fields, '"' ∉ f ∧ '\\' ∉ f) (hat : ∀ f ∈ fields, '@' ∉ f) :
    (decode (writeLine fields)).splitOn '@' = fields := by
  have hdecode : decode (writeLine fields) = ['@'].intercalate fields := by
    rw [decode, scan_line hne h List.not_mem_nil (fun heq => by cases heq), List.nil_append]
  rw [hdecode]
  exact List.splitOn_intercalate '@' hat hne

/-! ## The quotes that are taken away -/

theorem unquote_eq {a b : Char} (ha : isMark a = true) (hb : isMark b = true) {m : Str}
    (hm : ∀ c ∈ m, isLineTerminator c = false) : unquote (a :: (m ++ [b])) = m := by
  have hall : m.all (fun c => !isLineTerminator c) = true := by
    rw [List.all_eq_true]
    intro c hc
    rw [hm c hc, Bool.not_false]
  have hlast : (a :: (m ++ [b])).getLast? = some b := by
    rw [← List.cons_append, List.getLast?_concat]
  rw [unquote, if_pos, List.tail_cons, List.dropLast_concat]
  refine ⟨by simp, by simpa using ha, by rw [hlast]; simpa using hb, ?_⟩
  rw [List.tail_cons, List.dropLast_concat]
  exact hall

theorem exists_of_unquote_ne {s : Str} (h : unquote s ≠ s) :
    ∃ a m b, s = a :: (m ++ [b]) ∧ isMark a = true ∧ isMark b = true ∧
      ∀ c ∈ m, isLineTerminator c = false := by
  by_cases hcond : 2 ≤ s.length ∧ s.head?.any isMark ∧ s.getLast?.any isMark ∧
      s.tail.dropLast.all (fun c => !isLineTerminator c)
  · obtain ⟨hlen, hhead, hlast, hall⟩ := hcond
    cases s with
    | nil => simp at hlen
    | cons a s =>
      cases s using List.reverseRecOn with
      | nil => simp at hlen
      | append_singleton m b =>
        rw [← List.cons_append, List.getLast?_concat, Option.any_some] at hlast
        rw [List.tail_cons, List.dropLast_concat, List.all_eq_true] at hall
        exact ⟨a, m, b, rfl, hhead, hlast, fun c hc => by simpa using hall c hc⟩
  · rw [unquote, if_neg hcond] at h
    exact absurd rfl h

theorem isJsSpace_of_isMark {c : Char} (h : isMark c = true) : isJsSpace c = false := by
  rw [isMark, Bool.or_eq_true, Bool.or_eq_true, beq_iff_eq, beq_iff_eq, beq_iff_eq] at h
  rcases h with (rfl | rfl) | rfl <;> decide

/-- What loses its marks is shorter, even when it is trimmed. -/
theorem unquote_eq_self_of_trim {s : Str} (h : trim (unquote s) = trim s) : unquote s = s := by
  by_contra hne
  obtain ⟨a, m, b, rfl, ha, hb, hm⟩ := exists_of_unquote_ne hne
  rw [unquote_eq ha hb hm, trim_eq_self (isJsSpace_of_isMark ha) (isJsSpace_of_isMark hb)] at h
  have hlen := trim_length_le m
  rw [h, List.length_cons, List.length_append, List.length_singleton] at hlen
  omega

theorem mem_of_mem_unquote {s : Str} {c : Char} (h : c ∈ unquote s) : c ∈ s := by
  rw [unquote] at h
  split at h
  · exact List.mem_of_mem_tail (List.mem_of_mem_dropLast h)
  · exact h

/-- What is solid in a field stands in the piece that gives it back. -/
theorem mem_of_trim_unquote {p f : Str} (h : trim (unquote p) = trim f) {c : Char}
    (hspace : isJsSpace c = false) (hc : c ∈ f) : c ∈ p := by
  have hmem := mem_trim hspace hc
  rw [← h] at hmem
  exact mem_of_mem_unquote (mem_of_mem_trim hmem)

theorem unquote_eq_self_iff {f : Str} (hquote : '"' ∉ f) : unquote f = f ↔ ¬ Wrapped f := by
  have hmark : ∀ c ∈ f, isMark c = true → c = '\'' ∨ c = '|' := by
    intro c hc hmark
    rw [isMark, Bool.or_eq_true, Bool.or_eq_true, beq_iff_eq, beq_iff_eq, beq_iff_eq] at hmark
    rcases hmark with h | rfl
    · exact h
    · exact absurd hc hquote
  constructor
  · rintro h ⟨a, m, b, rfl, ha, hb, hm⟩
    have hlen := congrArg List.length h
    rw [unquote_eq (by rcases ha with rfl | rfl <;> rfl) (by rcases hb with rfl | rfl <;> rfl) hm,
      List.length_cons, List.length_append, List.length_singleton] at hlen
    omega
  · intro h
    by_contra hne
    obtain ⟨a, m, b, rfl, ha, hb, hm⟩ := exists_of_unquote_ne hne
    exact h ⟨a, m, b, rfl, hmark a (by simp) ha, hmark b (by simp) hb, hm⟩

/-! ## The objects -/

/-- A header without quotes is read back. -/
theorem key_quote {h : Str} (hquote : '"' ∉ h) (htrim : trim h = h)
    (hline : ∀ c ∈ h, isLineTerminator c = false) : trim (unquote (quote h)) = h := by
  rw [quote_eq hquote, unquote_eq rfl rfl hline, htrim]

/-- The loop: with distinct keys, each key gets the property of its column, and the other
keys keep what they have. -/
theorem fillObject_spec {headers properties : List Str}
    (hkeys : (headers.map fun h => trim (unquote h)).Nodup)
    (hlen : headers.length ≤ properties.length) (obj : Dict Str Str) :
    ∃ obj', fillObject headers properties obj = some obj' ∧
      (∀ (j : Nat) h p, headers[j]? = some h → properties[j]? = some p →
        obj'.get? (trim (unquote h)) = some (trim (unquote p))) ∧
      ∀ k, k ∉ headers.map (fun h => trim (unquote h)) → obj'.get? k = obj.get? k := by
  induction headers generalizing properties obj with
  | nil =>
    refine ⟨obj, rfl, ?_, fun k _ => rfl⟩
    intro j h p hj
    cases hj
  | cons header headers ih =>
    rw [List.map_cons, List.nodup_cons] at hkeys
    cases properties with
    | nil => simp at hlen
    | cons property properties =>
      rw [List.length_cons, List.length_cons] at hlen
      obtain ⟨obj', hfill, hcolumns, hothers⟩ := @ih properties hkeys.2 (by omega)
        (obj.set (trim (unquote header)) (trim (unquote property)))
      refine ⟨obj', hfill, ?_, ?_⟩
      · intro j h p hh hp
        cases j with
        | zero =>
          obtain rfl : header = h := Option.some.inj hh
          obtain rfl : property = p := Option.some.inj hp
          rw [hothers _ hkeys.1, Dict.get?_set_self]
        | succ j => exact hcolumns j h p hh hp
      · intro k hk
        rw [List.map_cons, List.mem_cons, not_or] at hk
        rw [hothers k hk.2, Dict.get?_set_of_ne _ _ hk.1]

theorem length_of_fillObject {headers properties : List Str} {obj obj' : Dict Str Str}
    (h : fillObject headers properties obj = some obj') : headers.length ≤ properties.length := by
  induction headers generalizing properties obj with
  | nil => exact Nat.zero_le _
  | cons header headers ih =>
    cases properties with
    | nil => cases h
    | cons property properties =>
      rw [List.length_cons, List.length_cons]
      exact Nat.succ_le_succ (ih h)

section

variable {headers row : List Str} (hne : headers ≠ []) (hnodup : headers.Nodup)
  (hplain : ∀ h ∈ headers, ',' ∉ h ∧ '"' ∉ h ∧ trim h = h ∧ ∀ c ∈ h, isLineTerminator c = false)
  (hlength : row.length = headers.length)

include hplain in
theorem keys_quote : (headers.map quote).map (fun h => trim (unquote h)) = headers := by
  rw [List.map_map]
  refine (List.map_congr_left fun h hh => ?_).trans (List.map_id headers)
  obtain ⟨-, hquote, htrim, hline⟩ := hplain h hh
  exact key_quote hquote htrim hline

include hnodup hplain hlength in
/-- What a line gives for each header. -/
theorem readLine_isRow_iff {obj : Dict Str Str}
    (h : readLine (headers.map quote) (writeLine row) = some obj) :
    IsRow headers row obj ↔
      ∀ (j : Nat) p field, ((decode (writeLine row)).splitOn '@')[j]? = some p →
        row[j]? = some field → trim (unquote p) = trim field := by
  rw [readLine] at h
  have hlen := length_of_fillObject h
  rw [List.length_map] at hlen
  obtain ⟨obj', hfill, hcolumns, -⟩ := @fillObject_spec (headers.map quote)
    ((decode (writeLine row)).splitOn '@') (by rwa [keys_quote hplain])
    (by rwa [List.length_map]) Dict.empty
  rw [hfill, Option.some.injEq] at h
  subst h
  have hvalue : ∀ (j : Nat) h p, headers[j]? = some h →
      ((decode (writeLine row)).splitOn '@')[j]? = some p →
      obj'.get? h = some (trim (unquote p)) := by
    intro j h p hh hp
    obtain ⟨-, hquote, htrim, hline⟩ := hplain h (List.mem_of_getElem? hh)
    have hcol := hcolumns j (quote h) p (by rw [List.getElem?_map, hh, Option.map_some]) hp
    rwa [key_quote hquote htrim hline] at hcol
  constructor
  · intro hrow j p field hp hfield
    have hj : j < headers.length := by
      rw [← hlength]
      exact (List.getElem?_eq_some_iff.1 hfield).1
    obtain ⟨v, hv, htrim⟩ := hrow j headers[j] field (List.getElem?_eq_getElem hj) hfield
    rw [hvalue j _ p (List.getElem?_eq_getElem hj) hp, Option.some.injEq] at hv
    rw [← htrim, ← hv, trim_idem]
  · intro hcol j h field hh hfield
    have hj : j < ((decode (writeLine row)).splitOn '@').length :=
      lt_of_lt_of_le (List.getElem?_eq_some_iff.1 hh).1 hlen
    refine ⟨_, hvalue j h _ hh (List.getElem?_eq_getElem hj), ?_⟩
    rw [trim_idem]
    exact hcol j _ field (List.getElem?_eq_getElem hj) hfield

/-- A line has no other characters than its fields, apart from quotes and commas. -/
theorem notMem_writeLine {fields : List Str} {c : Char} (hquote : c ≠ '"') (hcomma : c ≠ ',')
    (h : ∀ f ∈ fields, c ∉ f) : c ∉ writeLine fields := by
  intro hmem
  rw [writeLine] at hmem
  rcases Text.mem_of_mem_intercalate hmem with hmem | ⟨l, hl, hmem⟩
  · exact hcomma (List.mem_singleton.1 hmem)
  · obtain ⟨f, hf, rfl⟩ := List.mem_map.1 hl
    rw [quote, List.mem_cons, List.mem_append, List.mem_flatMap, List.mem_singleton] at hmem
    rcases hmem with hmem | ⟨d, hd, hmem⟩ | hmem
    · exact hquote hmem
    · split at hmem
      · rcases List.mem_pair.1 hmem with hmem | hmem
        · exact hquote hmem
        · exact hquote hmem
      · rw [List.mem_singleton] at hmem
        exact h f hf (hmem ▸ hd)
    · exact hquote hmem

include hne hnodup hplain hlength in
/-- A line is read back exactly when all its fields are faithful. -/
theorem readLine_iff : (∃ obj, readLine (headers.map quote) (writeLine row) = some obj ∧
    IsRow headers row obj) ↔ ∀ f ∈ row, Faithful f := by
  have hrow : row ≠ [] := by
    apply List.ne_nil_of_length_pos
    rw [hlength]
    exact List.length_pos_of_ne_nil hne
  constructor
  · rintro ⟨obj, hobj, hisRow⟩
    rw [readLine_isRow_iff hnodup hplain hlength hobj] at hisRow
    rw [readLine] at hobj
    have hlen := length_of_fillObject hobj
    rw [List.length_map] at hlen
    -- each field is what one piece of the decoded line gives
    have hpiece : ∀ f ∈ row, ∃ p ∈ (decode (writeLine row)).splitOn '@',
        trim (unquote p) = trim f := by
      intro f hf
      obtain ⟨j, hj⟩ := List.getElem?_of_mem hf
      have hlt : j < ((decode (writeLine row)).splitOn '@').length := by
        have := (List.getElem?_eq_some_iff.1 hj).1
        omega
      exact ⟨_, List.getElem_mem hlt, hisRow j _ f (List.getElem?_eq_getElem hlt) hj⟩
    have hkeeps : ∀ f ∈ row, ∀ c ∈ f, isJsSpace c = false →
        c ≠ '@' ∧ c ∈ decode (writeLine row) := by
      intro f hf c hc hspace
      obtain ⟨p, hp, htrim⟩ := hpiece f hf
      have hcp : c ∈ p := mem_of_trim_unquote htrim hspace hc
      refine ⟨?_, Text.mem_of_mem_splitOn hp hcp⟩
      rintro rfl
      exact Text.not_mem_of_mem_splitOn hp hcp
    have hat : ∀ f ∈ row, '@' ∉ f := fun f hf hmem => (hkeeps f hf '@' hmem (by decide)).1 rfl
    have hback : ∀ f ∈ row, '\\' ∉ f := fun f hf hmem =>
      backslash_notMem_decode _ (hkeeps f hf '\\' hmem (by decide)).2
    have hquote : ∀ f ∈ row, '"' ∉ f := fun f hf hmem =>
      quote_notMem_decode (notMem_writeLine (by decide) (by decide) hback)
        (hkeeps f hf '"' hmem (by decide)).2
    have hsplit := splitOn_decode hrow (fun f hf => ⟨hquote f hf, hback f hf⟩) hat
    intro f hf
    refine ⟨hat f hf, hback f hf, hquote f hf, ?_⟩
    obtain ⟨j, hj⟩ := List.getElem?_of_mem hf
    rw [hsplit] at hisRow
    rw [← unquote_eq_self_iff (hquote f hf)]
    exact unquote_eq_self_of_trim (hisRow j f f hj hj)
  · intro hall
    have hsplit := splitOn_decode hrow
      (fun f hf => ⟨(hall f hf).quotes, (hall f hf).backslash⟩) (fun f hf => (hall f hf).at_sign)
    obtain ⟨obj, hobj, -, -⟩ := @fillObject_spec (headers.map quote)
      ((decode (writeLine row)).splitOn '@') (by rwa [keys_quote hplain])
      (by rw [hsplit, List.length_map, hlength]) Dict.empty
    refine ⟨obj, hobj, ?_⟩
    rw [readLine_isRow_iff hnodup hplain hlength hobj, hsplit]
    intro j p field hp hfield
    rw [hp, Option.some.injEq] at hfield
    subst hfield
    have hf := hall p (List.mem_of_getElem? hp)
    rw [(unquote_eq_self_iff hf.quotes).2 hf.wrapped]

end

/-! ## The file -/

/-- The lines of the file that is written, and what is behind the last one. -/
theorem splitLines_write (t : Table) (crlf : Bool) :
    splitLines (t.write crlf) = (t.headers :: t.rows).map writeLine ++ [[]] := by
  have hfields : ∀ fields ∈ t.headers :: t.rows, ∀ f ∈ fields, '\n' ∉ f ∧ '\r' ∉ f := by
    intro fields hfields f hf
    rcases List.mem_cons.1 hfields with rfl | hrow
    · obtain ⟨-, -, -, hline⟩ := t.headers_plain f hf
      exact ⟨fun hmem => absurd (hline _ hmem) (by decide),
        fun hmem => absurd (hline _ hmem) (by decide)⟩
    · exact t.rows_line fields hrow f hf
  have hnewline : ∀ fields ∈ t.headers :: t.rows, '\n' ∉ writeLine fields := fun fields hmem =>
    notMem_writeLine (by decide) (by decide) fun f hf => (hfields fields hmem f hf).1
  have hreturn : ∀ fields ∈ t.headers :: t.rows, '\r' ∉ writeLine fields := fun fields hmem =>
    notMem_writeLine (by decide) (by decide) fun f hf => (hfields fields hmem f hf).2
  have hpieces : (t.write crlf).splitOn '\n'
      = ((t.headers :: t.rows).map fun fields =>
          writeLine fields ++ if crlf then ['\r'] else []) ++ [[]] := by
    refine Text.splitOn_unlines fun l hl => ?_
    obtain ⟨fields, hmem, rfl⟩ := List.mem_map.1 hl
    rw [List.mem_append, not_or]
    exact ⟨hnewline fields hmem, by cases crlf <;> decide⟩
  rw [splitLines, hpieces, List.dropLast_concat, List.getLastD_concat, List.map_map]
  refine congrArg (· ++ [[]]) (List.map_congr_left fun fields hmem => ?_)
  rw [Function.comp_apply]
  cases crlf with
  | true => rw [if_pos rfl, List.getLast?_concat, if_pos rfl, List.dropLast_concat]
  | false =>
    rw [if_neg Bool.false_ne_true, List.append_nil, if_neg]
    intro hlast
    exact hreturn fields hmem (List.mem_of_getLast? hlast)

theorem splitOn_writeLine_headers (t : Table) :
    (writeLine t.headers).splitOn ',' = t.headers.map quote := by
  refine List.splitOn_intercalate ',' (fun l hl => ?_) (by simpa using t.headers_ne_nil)
  obtain ⟨h, hh, rfl⟩ := List.mem_map.1 hl
  obtain ⟨hcomma, hquote, -, -⟩ := t.headers_plain h hh
  rw [quote_eq hquote]
  simp [hcomma]

/-- The loop over the lines: each of them gives an object. -/
theorem readLines_iff {headers : List Str} {rows : List (List Str)}
    {P : List Str → Dict Str Str → Prop} :
    (∃ entries, readLines headers (rows.map writeLine) = some entries ∧
        List.Forall₂ P rows entries) ↔
      ∀ row ∈ rows, ∃ obj, readLine headers (writeLine row) = some obj ∧ P row obj := by
  induction rows with
  | nil =>
    refine ⟨fun _ row hrow => absurd hrow List.not_mem_nil, fun _ => ⟨[], rfl, .nil⟩⟩
  | cons row rows ih =>
    rw [List.forall_mem_cons, ← ih, List.map_cons, readLines]
    constructor
    · rintro ⟨entries, hread, hall⟩
      cases hline : readLine headers (writeLine row) with
      | none =>
        rw [hline] at hread
        cases hread
      | some obj =>
        rw [hline, Option.map_eq_some_iff] at hread
        obtain ⟨entries', hentries, rfl⟩ := hread
        rw [List.forall₂_cons] at hall
        exact ⟨⟨obj, rfl, hall.1⟩, entries', hentries, hall.2⟩
    · rintro ⟨⟨obj, hobj, hP⟩, entries, hentries, hall⟩
      rw [hobj]
      exact ⟨obj :: entries, by simp only [hentries, Option.map_some], .cons hP hall⟩

/-- A table is read back, an object for each row with the fields of the row up to white
space around them, exactly when all its fields are faithful. -/
theorem parseCSV_write_iff (t : Table) (crlf : Bool) (filepath : Str) :
    (∃ name entries, parseCSV filepath (t.write crlf) = some (name, entries) ∧
        List.Forall₂ (IsRow t.headers) t.rows entries) ↔
      ∀ row ∈ t.rows, ∀ field ∈ row, Faithful field := by
  have hparse : parseCSV filepath (t.write crlf)
      = (readLines (t.headers.map quote) (t.rows.map writeLine)).map fun entries =>
          (tableName filepath, entries) := by
    rw [parseCSV, splitLines_write, List.map_cons, List.cons_append, List.headD_cons,
      splitOn_writeLine_headers, List.drop_succ_cons, List.drop_zero, List.dropLast_concat]
  have hrows : (∀ row ∈ t.rows, ∀ field ∈ row, Faithful field) ↔
      ∀ row ∈ t.rows, ∃ obj, readLine (t.headers.map quote) (writeLine row) = some obj ∧
        IsRow t.headers row obj :=
    forall₂_congr fun row hrow => (readLine_iff t.headers_ne_nil t.headers_nodup
      t.headers_plain (t.rows_length row hrow)).symm
  rw [hparse, hrows, ← readLines_iff]
  constructor
  · rintro ⟨name, entries, hread, hall⟩
    rw [Option.map_eq_some_iff] at hread
    obtain ⟨entries', hentries, heq⟩ := hread
    rw [(Prod.mk.inj heq).2] at hentries
    exact ⟨entries, hentries, hall⟩
  · rintro ⟨entries, hentries, hall⟩
    exact ⟨tableName filepath, entries, by rw [hentries, Option.map_some], hall⟩

theorem summaryHeaders_plain :
    ∀ h ∈ [lit "name" rfl, lit "info" rfl], ',' ∉ h ∧ '"' ∉ h ∧ trim h = h ∧
      ∀ c ∈ h, isLineTerminator c = false := by
  intro h hh
  have hplain : h.all (fun c => !isLineTerminator c) = true := by
    revert h
    decide +kernel
  have hmarks : ',' ∉ h ∧ '"' ∉ h := by
    revert h
    decide +kernel
  have htrim : trim h = h := by
    rw [List.mem_pair] at hh
    rcases hh with rfl | rfl <;> rfl
  exact ⟨hmarks.1, hmarks.2, htrim, fun c hc => by simpa using List.all_eq_true.1 hplain c hc⟩

/-- A summary with a note that has an `@`. -/
def summaryTable : Table where
  headers := [lit "name" rfl, lit "info" rfl]
  rows := [[lit "init" rfl, lit "see @dev" rfl]]
  headers_ne_nil := by decide
  headers_nodup := by decide
  headers_plain := summaryHeaders_plain
  rows_length := by decide
  rows_line := by decide

/-- The note is cut at the `@`. -/
theorem at_sign_cuts_note :
    ¬ ∀ (t : Table) (crlf : Bool) (filepath : Str), ∃ name entries,
      parseCSV filepath (t.write crlf) = some (name, entries) ∧
        List.Forall₂ (IsRow t.headers) t.rows entries := by
  intro h
  obtain ⟨name, entries, hread, hall⟩ := h summaryTable false (lit "summary.csv" rfl)
  have hline : (parseCSV (lit "summary.csv" rfl) (summaryTable.write false)).map (fun r =>
      r.2.map fun obj => obj.get? (lit "info" rfl)) = some [some (lit "see" rfl)] := by
    decide +kernel
  rw [hread, Option.map_some, Option.some.injEq] at hline
  obtain ⟨obj, rfl, hobj⟩ := List.map_eq_singleton_iff.1 hline
  obtain ⟨v, hv, htrim⟩ := (List.forall₂_cons.1 hall).1 1 (lit "info" rfl) (lit "see @dev" rfl)
    rfl rfl
  rw [hobj, Option.some.injEq] at hv
  subst hv
  exact absurd htrim (by decide +kernel)

end CsvImport
