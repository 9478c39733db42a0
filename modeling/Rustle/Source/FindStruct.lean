import Rustle.Detector.LockCallback
import Rustle.Detector.StructMembers
import Rustle.Library.Greedy

/-!
# `findStruct`: the structs of a source file

The structs are searched by a pattern in a text without comments, and their members by a
second one in what stands between the braces.  `findStruct.py` writes the structs of all
files to `.struct-members.tmp`.

* `cleaned`, `structPattern`, `memberPattern`, `findStruct` — the text, the patterns, and
  the structs that are found.
* `membersLog` — the text of `.struct-members.tmp`.
* `findStruct_eq` — what is found are words with types on one line.
* `load_membersLog` — the readers get what was found, whatever the files hold.
-/

namespace FindStruct

open Backtrack Pattern
open LockCallback (dropComments)
open Text (lit isSpace decimal unlines)

/-! ## The search -/

/-- The groups of the patterns. -/
inductive Group where
  | name | trait | members | type
  deriving DecidableEq

def space : Pattern Group := .char isSpace

def one (c : Char) : Pattern Group := .char (· == c)

/-- A character that is not this one. -/
def butNot (c : Char) : Pattern Group := .char (· != c)

/-- `/\*.+\*/`, on a line. -/
def blockComment : Pattern Group :=
  seqs [literal ['/', '*'], many1 (butNot '\n'), literal ['*', '/']]

/-- The text that is searched. -/
def cleaned (text : Str) : Str :=
  Backtrack.sub id blockComment (fun _ => []) (dropComments (Text.universalNewlines text))

/-- `#\[near_bindgen\]\s*` -/
def nearBindgen : Pattern Group :=
  .seq (literal (lit "#[near_bindgen]" rfl)) (.many space)

/-- `#\[[^\]]+\]\s*` -/
def attr : Pattern Group :=
  seqs [literal ['#', '['], many1 (butNot ']'), one ']', .many space]

/-- `<[^>]+>` -/
def trait : Pattern Group := seqs [one '<', many1 (butNot '>'), one '>']

section

/- The character class `\w`. -/
variable (isWord : Char → Bool)

def word : Pattern Group := many1 (.char isWord)

/-- From the attributes to the brace that closes the struct. -/
def publicStruct : Pattern Group :=
  seqs
    [.many attr, literal (lit "pub" rfl), many1 space, literal (lit "struct" rfl),
      many1 space, .group .name (word isWord), .many space, opt (.group .trait trait), .many space,
      one '\x7b', .group .members (many1 (butNot '\x7d')), one '\x7d']

/-- `struct_pat` -/
def structPattern (only_near_bindgen : Bool) : Pattern Group :=
  if only_near_bindgen then .seq nearBindgen (publicStruct isWord) else publicStruct isWord

/-- `member_pat`: a name, a colon, and a type that ends at a comma. -/
def memberPattern : Pattern Group :=
  seqs
    [.group .name (word isWord), .many space, one ':', .many space,
      .group .type (many1 (butNot '\n')), .many space, one ',']

end

/-- The text of a group. -/
def groupText (groups : List (Group × Str)) (g : Group) : Str :=
  ((groups.find? fun e => e.1 = g).map Prod.snd).getD []

/-- A struct that is found. -/
structure Result where
  name : Str
  members : List (Str × Str)
  file : Str
  deriving DecidableEq

section

variable (isWord : Char → Bool)

/-- `re.findall(member_pat, text)` -/
def memberList (text : Str) : List (Str × Str) :=
  (finditer id (memberPattern isWord) text).map fun m =>
    (groupText m.groups .name, groupText m.groups .type)

/-- What is recorded for a match. -/
def result (filename : Str) (groups : List (Group × Str)) : Result where
  name := groupText groups .name
  members := memberList isWord (groupText groups .members)
  file := filename

/-- `findStruct`, for a file and its text. -/
def findStruct (only_near_bindgen : Bool) (filename text : Str) : List Result :=
  (finditer id (structPattern isWord only_near_bindgen) (cleaned text)).map fun m =>
    result isWord filename m.groups

/-! ## The log -/

/-- `results_list`, for the files in the order in which they come. -/
def resultsList (files : List (Str × Str)) : List (List Result) :=
  (files.map fun e => findStruct isWord false e.1 e.2).filter fun results => !results.isEmpty

end

/-- The lines of a struct. -/
def Result.lines (s : Result) : List Str :=
  (s.name ++ '@' :: (decimal s.members.length ++ '@' :: s.file)) ::
    s.members.flatMap fun i => [i.1, i.2]

/-- `.struct-members.tmp` -/
def membersLog (results_list : List (List Result)) : Str :=
  unlines (decimal (results_list.map List.length).sum ::
    results_list.flatMap fun results => results.flatMap Result.lines)

/-- The members of a struct as the readers keep them, the last one of a name. -/
def Result.types (s : Result) : Dict Str Str :=
  s.members.foldl (fun d i => d.set i.1 (Text.strip i.2)) Dict.empty

/-- The structs as the readers keep them, the last one of a name. -/
def table (structs : List Result) : StructMembers.Table :=
  structs.foldl (fun d s => d.set s.name s.types) Dict.empty

/-! ## Words -/

/-- The characters that end a word. -/
def marks : List Char := ['@', ':', ',', '<', '>', '\x7b']

/-- A character of a word is no white space and no mark. -/
def WordClass (isWord : Char → Bool) : Prop :=
  ∀ c, isWord c = true → isSpace c = false ∧ c ∉ marks

theorem wordClass_ascii : WordClass Text.isAsciiWord := by
  have hall : (lit "abcdefghijklmnopqrstuvwxyzABCDEFGHIJKLMNOPQRSTUVWXYZ0123456789_" rfl).all
      (fun c => !isSpace c && !marks.contains c) = true := by
    decide +kernel
  intro c h
  have hc := List.all_eq_true.1 hall c (List.contains_iff_mem.1 h)
  simpa using hc

/-! ## What is found -/

section

variable {isWord : Char → Bool}

/-- What is recorded for a member. -/
def memberPair (m : StructMembers.Member isWord) : Str × Str := (m.name, m.type)

/-- What is recorded for a struct. -/
def structResult (s : StructMembers.Struct isWord) : Result where
  name := s.name
  members := s.members.map memberPair
  file := s.file

theorem groupText_eq {m : Match Group Char} {g : Group} {t : Str} (h : m.group? g = some t) :
    groupText m.groups g = t := by
  rw [groupText, ← Match.group?, h, Option.getD_some]

/-- A required group that is never empty holds a part of the match that its pattern takes. -/
theorem group_spec {a : Pattern Group} {s : Str} {m : Match Group Char} {g : Group}
    (h : m ∈ finditer id a s) (hrequires : a.requires g = true) (hsolid : a.solid g = true) :
    groupText m.groups g ≠ [] ∧ groupText m.groups g <:+: s ∧
      ∃ b ∈ a.bodies g, Lang id b (groupText m.groups g) := by
  obtain ⟨t, ht, hne, hpart⟩ := group?_of_requires h hrequires hsolid
  obtain ⟨o, -, hdrop, -, -, -⟩ := mem_finditer h
  rw [groupText_eq ht]
  refine ⟨hne, hpart.trans ?_, group?_lang h ht⟩
  exact List.IsPrefix.isInfix ⟨o.rest, hdrop.symm⟩ |>.trans (List.drop_suffix _ _).isInfix

theorem name_spec {groups : List (Group × Str)}
    (h : ∃ b ∈ [word isWord], Lang id b (groupText groups .name)) :
    ∀ c ∈ groupText groups .name, isWord c = true := by
  obtain ⟨b, hb, hlang⟩ := h
  rw [List.mem_singleton.1 hb, word, lang_many1_char] at hlang
  exact hlang.2

/-- A member that is found is a word, and its type stands on one line. -/
theorem mem_memberList {text : Str} (htext : '\r' ∉ text) {i : Str × Str}
    (h : i ∈ memberList isWord text) : ∃ m : StructMembers.Member isWord, memberPair m = i := by
  obtain ⟨m, hm, rfl⟩ := List.mem_map.1 h
  obtain ⟨hname, -, hbody⟩ := group_spec hm (g := .name) rfl rfl
  obtain ⟨-, hpart, b, hb, hlang⟩ := group_spec hm (g := .type) rfl rfl
  obtain rfl : b = many1 (butNot '\n') := List.mem_singleton.1 hb
  have htype : '\n' ∉ groupText m.groups .type ∧ '\r' ∉ groupText m.groups .type := by
    refine ⟨fun hc => ?_, fun hc => htext (hpart.subset hc)⟩
    exact absurd ((lang_many1_char.1 hlang).2 _ hc) (by decide)
  exact ⟨⟨_, _, hname, name_spec hbody, htype⟩, rfl⟩

theorem members_spec {only : Bool} {s : Str} {m : Match Group Char}
    (h : m ∈ finditer id (structPattern isWord only) s) :
    groupText m.groups .name ≠ [] ∧ (∀ c ∈ groupText m.groups .name, isWord c = true) ∧
      groupText m.groups .members <:+: s := by
  cases only with
  | false =>
    obtain ⟨hname, -, hbody⟩ := group_spec h (g := .name) rfl rfl
    exact ⟨hname, name_spec hbody, (group_spec h (g := .members) rfl rfl).2.1⟩
  | true =>
    obtain ⟨hname, -, hbody⟩ := group_spec h (g := .name) rfl rfl
    exact ⟨hname, name_spec hbody, (group_spec h (g := .members) rfl rfl).2.1⟩

theorem cr_not_mem_cleaned (text : Str) : '\r' ∉ cleaned text := by
  have hsub : (cleaned text).Sublist (dropComments (Text.universalNewlines text)) := by
    refine Scan.sub_sublist (fun s m hm => ?_) (fun m => List.nil_sublist m) _
    obtain ⟨o, -, hs, hlen, -⟩ := textAt_spec hm
    refine ⟨List.ne_nil_of_length_pos (lt_of_lt_of_le (by decide) hlen), ⟨o.rest, hs.symm⟩⟩
  intro hc
  have hcr := Text.cr_not_mem_universalNewlines text
  rcases Text.mem_of_mem_intercalate (hsub.subset hc) with hsep | ⟨l, hl, hcl⟩
  · exact absurd hsep (by decide)
  · rcases List.mem_append.1 hl with hl | hl
    · obtain ⟨p, hp, rfl⟩ := List.mem_map.1 hl
      have hpiece := (LockCallback.cutComment_isPrefix p).subset hcl
      exact hcr (Text.mem_of_mem_splitOn (List.dropLast_subset _ hp) hpiece)
    · rw [List.mem_singleton.1 hl] at hcl
      rw [List.getLastD_eq_getLast?] at hcl
      cases hlast : ((Text.universalNewlines text).splitOn '\n').getLast? with
      | none =>
        rw [hlast] at hcl
        exact absurd hcl List.not_mem_nil
      | some last =>
        rw [hlast] at hcl
        exact hcr (Text.mem_of_mem_splitOn (List.mem_of_getLast? hlast) hcl)

/-- What is found in a file are structs as the log takes them. -/
theorem findStruct_eq {only : Bool} {filename : Str}
    (hfile : '@' ∉ filename ∧ '\n' ∉ filename ∧ '\r' ∉ filename) (text : Str) :
    ∃ structs : List (StructMembers.Struct isWord),
      findStruct isWord only filename text = structs.map structResult := by
  have hrange : findStruct isWord only filename text ∈
      Set.range (List.map (@structResult isWord)) := by
    rw [Set.range_list_map]
    intro r hr
    obtain ⟨m, hm, rfl⟩ := List.mem_map.1 hr
    obtain ⟨hname, hword, hpart⟩ := members_spec hm
    have hcr : '\r' ∉ groupText m.groups .members := fun hc =>
      cr_not_mem_cleaned text (hpart.subset hc)
    have hmembers : memberList isWord (groupText m.groups .members) ∈
        Set.range (List.map (@memberPair isWord)) := by
      rw [Set.range_list_map]
      exact fun i hi => mem_memberList hcr hi
    obtain ⟨members, hmembers⟩ := hmembers
    exact ⟨⟨_, members, filename, hname, hword, hfile⟩, by rw [structResult, hmembers]; rfl⟩
  obtain ⟨structs, h⟩ := hrange
  exact ⟨structs, h.symm⟩

/-! ## The log, read back -/

theorem lines_structResult (s : StructMembers.Struct isWord) :
    (structResult s).lines = s.lines := by
  rw [Result.lines, StructMembers.Struct.lines, StructMembers.Struct.header, structResult,
    List.length_map, List.flatMap_map]
  rfl

theorem types_structResult (s : StructMembers.Struct isWord) :
    (structResult s).types = s.types := by
  rw [Result.types, StructMembers.Struct.types, structResult, List.foldl_map]
  rfl

theorem membersLog_eq (results_list : List (List (StructMembers.Struct isWord))) :
    membersLog (results_list.map (List.map structResult)) = StructMembers.write results_list := by
  have hlengths : (results_list.map (List.map structResult)).map List.length
      = results_list.map List.length := by
    rw [List.map_map]
    exact List.map_congr_left fun results _ => List.length_map _
  rw [membersLog, StructMembers.write, hlengths, List.flatMap_map]
  congr 2
  apply List.flatMap_congr
  intro results _
  rw [List.flatMap_map]
  exact List.flatMap_congr fun s _ => lines_structResult s

theorem table_eq (structs : List (StructMembers.Struct isWord)) :
    table (structs.map structResult) = StructMembers.table structs := by
  rw [table, StructMembers.table, List.foldl_map]
  congr 1
  funext d s
  rw [types_structResult]
  rfl

/-- What is found in a project are structs as the log takes them. -/
theorem resultsList_eq {files : List (Str × Str)}
    (hfiles : ∀ e ∈ files, '@' ∉ e.1 ∧ '\n' ∉ e.1 ∧ '\r' ∉ e.1) :
    ∃ results_list : List (List (StructMembers.Struct isWord)),
      resultsList isWord files = results_list.map (List.map structResult) := by
  have hrange : resultsList isWord files ∈
      Set.range (List.map (List.map (@structResult isWord))) := by
    rw [Set.range_list_map]
    intro results hresults
    obtain ⟨e, he, rfl⟩ := List.mem_map.1 (List.mem_filter.1 hresults).1
    obtain ⟨structs, h⟩ := @findStruct_eq isWord false e.1 (hfiles e he) e.2
    exact ⟨structs, h.symm⟩
  obtain ⟨results_list, h⟩ := hrange
  exact ⟨results_list, h.symm⟩

/-- The names of the table are those of the structs. -/
theorem word_of_mem_table {structs : List Result}
    (h : ∀ s ∈ structs, s.name ≠ [] ∧ ∀ c ∈ s.name, isWord c = true) :
    ∀ e ∈ (table structs).entries, e.1 ≠ [] ∧ ∀ c ∈ e.1, isWord c = true := by
  have hfold : ∀ (structs : List Result) (d : StructMembers.Table),
      (∀ s ∈ structs, s.name ≠ [] ∧ ∀ c ∈ s.name, isWord c = true) →
      (∀ e ∈ d.entries, e.1 ≠ [] ∧ ∀ c ∈ e.1, isWord c = true) →
      ∀ e ∈ (structs.foldl (fun d s => d.set s.name s.types) d).entries,
        e.1 ≠ [] ∧ ∀ c ∈ e.1, isWord c = true := by
    intro structs
    induction structs with
    | nil => exact fun d _ hd => hd
    | cons s structs ih =>
      intro d hs hd
      refine ih (d.set s.name s.types) (fun s' hs' => hs s' (List.mem_cons_of_mem s hs')) ?_
      intro e he
      have hkey : e.1 ∈ (d.set s.name s.types).entries.map Prod.fst := List.mem_map_of_mem he
      have hkeys : (d.set s.name s.types).entries.map Prod.fst = _ :=
        Dict.keys_setEntries s.name s.types d.entries
      rw [hkeys] at hkey
      have hold : e.1 ∈ d.entries.map Prod.fst → e.1 ≠ [] ∧ ∀ c ∈ e.1, isWord c = true := by
        intro hmem
        obtain ⟨e', he', heq⟩ := List.mem_map.1 hmem
        rw [← heq]
        exact hd e' he'
      split at hkey
      · exact hold hkey
      · rcases List.mem_append.1 hkey with hkey | hkey
        · exact hold hkey
        · rw [List.mem_singleton.1 hkey]
          exact hs s List.mem_cons_self
  exact hfold structs Dict.empty h fun e he => absurd he List.not_mem_nil

/-- The structs that are found have words for names. -/
theorem word_of_mem_findStruct {only : Bool} {filename text : Str} {s : Result}
    (h : s ∈ findStruct isWord only filename text) :
    s.name ≠ [] ∧ ∀ c ∈ s.name, isWord c = true := by
  obtain ⟨m, hm, rfl⟩ := List.mem_map.1 h
  obtain ⟨hname, hword, -⟩ := members_spec hm
  exact ⟨hname, hword⟩

/-- The readers get the structs that were found, the last one of a name, whatever the
files hold. -/
theorem load_membersLog (hword : WordClass isWord) {files : List (Str × Str)}
    (hfiles : ∀ e ∈ files, '@' ∉ e.1 ∧ '\n' ∉ e.1 ∧ '\r' ∉ e.1) :
    StructMembers.load (membersLog (resultsList isWord files))
      = some (table (resultsList isWord files).flatten) := by
  have hsolid : ∀ c, isWord c = true → isSpace c = false ∧ c ≠ '@' := by
    intro c hc
    refine ⟨(hword c hc).1, ?_⟩
    rintro rfl
    exact (hword _ hc).2 (by decide)
  obtain ⟨results_list, hlist⟩ := @resultsList_eq isWord files hfiles
  have hnum : '\n' ∉ decimal (results_list.map List.length).sum ∧
      '\r' ∉ decimal (results_list.map List.length).sum := by
    refine ⟨fun hc => ?_, fun hc => ?_⟩
    · exact absurd (Text.isDigit_of_mem_decimal hc) (by decide)
    · exact absurd (Text.isDigit_of_mem_decimal hc) (by decide)
  have hcr : '\r' ∉ StructMembers.write results_list := by
    apply Text.cr_not_mem_unlines
    intro l hl
    rcases List.mem_cons.1 hl with rfl | hl
    · exact hnum.2
    · obtain ⟨results, -, hl⟩ := List.mem_flatMap.1 hl
      obtain ⟨s, -, hl⟩ := List.mem_flatMap.1 hl
      exact StructMembers.lines_no_cr hsolid s l hl
  have hint : Text.int (decimal (results_list.map List.length).sum ++ ['\n'])
      = some ((results_list.map List.length).sum : Int) := by
    rw [← Text.int_decimal, Text.int, Text.strip_append_space _ (by decide), ← Text.int]
  have hflat : (results_list.flatMap fun results => results.flatMap StructMembers.Struct.lines)
      = results_list.flatten.flatMap StructMembers.Struct.lines := by
    rw [List.flatMap_def, List.flatMap_def, List.map_flatten, List.flatten_flatten, List.map_map]
    rfl
  rw [hlist, membersLog_eq, ← List.map_flatten, table_eq, StructMembers.load,
    Text.universalNewlines_eq_self hcr, StructMembers.write, Text.unlines_cons,
    Text.readline_line hnum.1, hint, hflat, ← List.length_flatten]
  simp only [Option.bind_some, Int.toNat_natCast]
  exact StructMembers.readStructs_lines hsolid results_list.flatten Dict.empty

end

end FindStruct
