import Rustle.Library.Dict
import Rustle.Library.Text

/-!
# The log of the structs and their members

`findStruct.py` writes the structs of all the files to `.struct-members.tmp`, with
the number of structs first and the number of members in the line of each struct.
`incorrect-json-type.py` and `audit.py` read it back by these numbers.

* `Struct` — what `findStruct` returns.
* `write`, `load` — the writer and the reader; `none` is an exception.
* `load_write` — what is read is the dictionary of the structs in their order.
-/

namespace StructMembers

open Text

section

/- The character class `\w`. -/
variable (isWord : Char → Bool)

/-- A member of a struct, as its pattern takes it: a word, and a type on one line. -/
structure Member where
  name : Str
  type : Str
  name_ne_nil : name ≠ []
  name_word : ∀ c ∈ name, isWord c = true
  type_line : '\n' ∉ type ∧ '\r' ∉ type

/-- A struct with the file it is found in. -/
structure Struct where
  name : Str
  members : List (Member isWord)
  file : Str
  name_ne_nil : name ≠ []
  name_word : ∀ c ∈ name, isWord c = true
  file_line : '@' ∉ file ∧ '\n' ∉ file ∧ '\r' ∉ file

end

/-- A dictionary from names to types for each struct. -/
abbrev Table := Dict Str (Dict Str Str)

section

variable {isWord : Char → Bool}

/-! ## The writer -/

/-- `"{}@{}@{}"` with the name, the number of members and the file. -/
def Struct.header (s : Struct isWord) : Str :=
  s.name ++ '@' :: (decimal s.members.length ++ '@' :: s.file)

def Member.lines (m : Member isWord) : List Str := [m.name, m.type]

def Struct.lines (s : Struct isWord) : List Str :=
  s.header :: s.members.flatMap Member.lines

/-- What is written to `file_w_member`. -/
def write (results_list : List (List (Struct isWord))) : Str :=
  unlines (decimal (results_list.map List.length).sum ::
    results_list.flatMap fun results => results.flatMap Struct.lines)

/-! ## The reader -/

/-- `structMember_dict[structName][memName] = memType` -/
def setMember (structName memName memType : Str) (d : Table) : Option Table :=
  (d.get? structName).map fun members => d.set structName (members.set memName memType)

/-- The inner loop: the rest of the file and the dictionary. -/
def readMembers (structName : Str) : Nat → Str → Table → Option (Str × Table)
  | 0, f, d => some (f, d)
  | n + 1, f, d =>
    let memName := readline f
    let memType := readline memName.2
    (setMember structName (strip memName.1) (strip memType.1) d).bind
      (readMembers structName n memType.2)

/-- The outer loop. -/
def readStructs : Nat → Str → Table → Option Table
  | 0, _, d => some d
  | n + 1, f, d =>
    match (readline f).1.splitOn '@' with
    | [structName, structMemNum, _] =>
      (int structMemNum).bind fun num =>
        (readMembers structName num.toNat (readline f).2 (d.set structName Dict.empty)).bind
          fun r => readStructs n r.1 r.2
    | _ => none

/-- The loader, on the text of the file. -/
def load (text : Str) : Option Table :=
  let structNum := readline (universalNewlines text)
  (int structNum.1).bind fun n => readStructs n.toNat structNum.2 Dict.empty

/-! ## The round trip -/

/-- The members of a struct, later ones of the same name replacing earlier ones. -/
def Struct.types (s : Struct isWord) : Dict Str Str :=
  s.members.foldl (fun d m => d.set m.name (strip m.type)) Dict.empty

/-- The structs in order, later ones of the same name replacing earlier ones. -/
def table (structs : List (Struct isWord)) : Table :=
  structs.foldl (fun d s => d.set s.name s.types) Dict.empty

section

/- A character of a word is no white space and not the separator of the log. -/
variable (hword : ∀ c, isWord c = true → isSpace c = false ∧ c ≠ '@')

include hword

theorem no_newline_of_word {name : Str} (h : ∀ c ∈ name, isWord c = true) :
    '\n' ∉ name ∧ '\r' ∉ name := by
  refine ⟨fun hc => ?_, fun hc => ?_⟩
  · exact absurd (hword _ (h _ hc)).1 (by decide)
  · exact absurd (hword _ (h _ hc)).1 (by decide)

/-- A word comes back from its line. -/
theorem strip_word_line {name : Str} (h : ∀ c ∈ name, isWord c = true) :
    strip (name ++ ['\n']) = name := by
  rw [strip_append_space name (by decide)]
  exact strip_of_all_solid fun c hc => (hword c (h c hc)).1

/-- The members that are read go to the struct they are written for. -/
theorem readMembers_lines (structName : Str) (ms : List (Member isWord)) (rest : Str) (d : Table)
    (types : Dict Str Str) :
    readMembers structName ms.length (unlines (ms.flatMap Member.lines) ++ rest)
        (d.set structName types)
      = some (rest, d.set structName
          (ms.foldl (fun d m => d.set m.name (strip m.type)) types)) := by
  induction ms generalizing types with
  | nil => rfl
  | cons m ms ih =>
    have htext : unlines ((m :: ms).flatMap Member.lines) ++ rest
        = m.name ++ '\n' :: (m.type ++ '\n' :: (unlines (ms.flatMap Member.lines) ++ rest)) := by
      rw [List.flatMap_cons, Member.lines, unlines_append, unlines_cons, unlines_cons]
      simp [unlines]
    rw [htext, List.length_cons, readMembers,
      readline_line (no_newline_of_word hword m.name_word).1, readline_line m.type_line.1,
      strip_word_line hword m.name_word, strip_append_space m.type (by decide), setMember,
      Dict.get?_set_self, Option.map_some, Option.bind_some, Dict.set_set, ih, List.foldl_cons]

/-- The line of a struct splits into its three fields. -/
theorem splitOn_header (s : Struct isWord) :
    (s.header ++ ['\n']).splitOn '@'
      = [s.name, decimal s.members.length, s.file ++ ['\n']] := by
  have hname : '@' ∉ s.name := by
    intro hc
    exact (hword _ (s.name_word _ hc)).2 rfl
  have hnum : '@' ∉ decimal s.members.length := by
    intro hc
    exact absurd (isDigit_of_mem_decimal hc) (by decide)
  have hfile : '@' ∉ s.file ++ ['\n'] := by simp [s.file_line.1]
  rw [Struct.header, List.append_assoc, List.cons_append, List.append_assoc, List.cons_append,
    List.splitOn_append_cons_self_of_not_mem hname,
    List.splitOn_append_cons_self_of_not_mem hnum, List.splitOn_eq_singleton hfile]

theorem header_line (s : Struct isWord) : '\n' ∉ s.header ∧ '\r' ∉ s.header := by
  have hname := no_newline_of_word hword s.name_word
  have hnum : '\n' ∉ decimal s.members.length ∧ '\r' ∉ decimal s.members.length := by
    refine ⟨fun hc => ?_, fun hc => ?_⟩
    · exact absurd (isDigit_of_mem_decimal hc) (by decide)
    · exact absurd (isDigit_of_mem_decimal hc) (by decide)
  rw [Struct.header]
  simp [hname.1, hname.2, hnum.1, hnum.2, s.file_line.2.1, s.file_line.2.2]

/-- The structs that are read are those that are written. -/
theorem readStructs_lines (structs : List (Struct isWord)) (d : Table) :
    readStructs structs.length (unlines (structs.flatMap Struct.lines)) d
      = some (structs.foldl (fun d s => d.set s.name s.types) d) := by
  induction structs generalizing d with
  | nil => rfl
  | cons s structs ih =>
    rw [List.flatMap_cons, Struct.lines, List.cons_append, unlines_cons, List.length_cons,
      readStructs, readline_line (header_line hword s).1, splitOn_header hword s]
    simp only [int_decimal, Option.bind_some, Int.toNat_natCast]
    rw [unlines_append, readMembers_lines hword, Option.bind_some, ih, List.foldl_cons,
      Struct.types]

theorem lines_no_cr (s : Struct isWord) : ∀ l ∈ s.lines, '\r' ∉ l := by
  intro l hl
  rcases List.mem_cons.1 hl with rfl | hl
  · exact (header_line hword s).2
  · obtain ⟨m, -, hl⟩ := List.mem_flatMap.1 hl
    rcases List.mem_cons.1 hl with rfl | hl
    · exact (no_newline_of_word hword m.name_word).2
    · rw [List.mem_singleton.1 hl]
      exact m.type_line.2

/-- What is written is read back: the dictionary of the structs in their order. -/
theorem load_write (results_list : List (List (Struct isWord))) :
    load (write results_list) = some (table results_list.flatten) := by
  have hflat : (results_list.flatMap fun results => results.flatMap Struct.lines)
      = results_list.flatten.flatMap Struct.lines := by
    rw [List.flatMap_def, List.flatMap_def, List.map_flatten, List.flatten_flatten, List.map_map]
    congr 1
  have hnum : '\n' ∉ decimal (results_list.map List.length).sum ∧
      '\r' ∉ decimal (results_list.map List.length).sum := by
    refine ⟨fun hc => ?_, fun hc => ?_⟩
    · exact absurd (isDigit_of_mem_decimal hc) (by decide)
    · exact absurd (isDigit_of_mem_decimal hc) (by decide)
  have hcr : '\r' ∉ write results_list := by
    apply cr_not_mem_unlines
    intro l hl
    rcases List.mem_cons.1 hl with rfl | hl
    · exact hnum.2
    · obtain ⟨results, -, hl⟩ := List.mem_flatMap.1 hl
      obtain ⟨s, -, hl⟩ := List.mem_flatMap.1 hl
      exact lines_no_cr hword s l hl
  rw [load, universalNewlines_eq_self hcr, write, unlines_cons, readline_line hnum.1]
  have hint : int (decimal (results_list.map List.length).sum ++ ['\n'])
      = some ((results_list.map List.length).sum : Int) := by
    rw [← int_decimal, int, strip_append_space _ (by decide), ← int]
  rw [hint, hflat, ← List.length_flatten]
  simp only [Option.bind_some, Int.toNat_natCast]
  exact readStructs_lines hword results_list.flatten Dict.empty

end

end

/-! ## A struct with a member twice -/

theorem isAsciiWord_solid (c : Char) (h : isAsciiWord c = true) :
    isSpace c = false ∧ c ≠ '@' := by
  have hall : (lit "abcdefghijklmnopqrstuvwxyzABCDEFGHIJKLMNOPQRSTUVWXYZ0123456789_" rfl).all
      (fun c => !isSpace c && c != '@') = true := by
    decide +kernel
  have hc := List.all_eq_true.1 hall c (List.contains_iff_mem.1 h)
  simpa using hc

def balance (type : Str) (h : '\n' ∉ type ∧ '\r' ∉ type) : Member isAsciiWord :=
  ⟨lit "balance" rfl, type, by decide, List.all_eq_true.1 (by decide +kernel), h⟩

def account : Struct isAsciiWord :=
  ⟨lit "Account" rfl, [balance (lit "u64" rfl) (by decide), balance (lit " u128 " rfl) (by decide)],
    lit "src/lib.rs" rfl, by decide, List.all_eq_true.1 (by decide +kernel), by decide⟩

theorem load_write_account :
    load (write [[account], [account]]) = some (table [account, account]) :=
  load_write isAsciiWord_solid [[account], [account]]

end StructMembers
