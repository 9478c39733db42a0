import Rustle.Audit.CallbackNotes
import Rustle.Detector.IncorrectJsonType
import Rustle.Source.FindFunc
import Rustle.Source.FindStruct

/-!
# From the structs of the source to the notes on their integers

`findStruct.py` writes the structs of the source to a log; `incorrect-json-type.py` reads
them back, collects the types with a large integer inside, and looks for them in the
signatures of the public functions.  `public-interface.py` lists these functions.

* `argSearch` — where a type stands in the parameters.
* `noteIssue`, `jsonScript`, `publicScript` — the scripts.
* `Tools.withTypes` — the tools with the scripts put in.
* `notes_of_types`, `json_notes` — what the rows say of the source.
-/

namespace IncorrectJsonType

open Text (lit isSpace)

/-! ## The signature -/

/-- `(:|\s|<)` -/
def opens (c : Char) : Bool := c == ':' || isSpace c || c == '<'

/-- `(,|\s|>|$)` -/
def closes (c : Char) : Bool := c == ',' || isSpace c || c == '>'

section

/- The character class `\w`. -/
variable (isWord : Char → Bool)

/-- Does the type stand at the start of the text, behind the character `prev`? -/
def argAt (word : Str) (prev : Option Char) (text : Str) : Bool :=
  prev.any opens && wordAt isWord word prev text && (text.drop word.length).head?.all closes

/-- `re.search(r"(:|\s|<)\b" + word + r"\b(,|\s|>|$)", text)` from the character `prev` on. -/
def argSearchFrom (word : Str) : Option Char → Str → Bool
  | prev, [] => argAt isWord word prev []
  | prev, c :: text => argAt isWord word prev (c :: text) || argSearchFrom word (some c) text

def argSearch (word text : Str) : Bool := argSearchFrom isWord word none text

theorem argAt_iff {word text : Str} {prev : Option Char} :
    argAt isWord word prev text = true ↔ prev.any opens = true ∧ isBreak isWord prev = true ∧
      ∃ b, text = word ++ b ∧ isBreak isWord b.head? = true ∧ b.head?.all closes = true := by
  rw [argAt, Bool.and_eq_true, Bool.and_eq_true, wordAt_iff, and_assoc, and_assoc]
  refine and_congr_right fun _ => and_congr_right fun _ => ?_
  constructor
  · rintro ⟨⟨b, rfl, hb⟩, hclose⟩
    rw [List.drop_left] at hclose
    exact ⟨b, rfl, hb, hclose⟩
  · rintro ⟨b, rfl, hb, hclose⟩
    rw [List.drop_left]
    exact ⟨⟨b, rfl, hb⟩, hclose⟩

theorem argSearchFrom_iff {word text : Str} {prev : Option Char} :
    argSearchFrom isWord word prev text = true ↔ ∃ a b, text = a ++ (word ++ b) ∧
      (a.getLast?.or prev).any opens = true ∧ isBreak isWord (a.getLast?.or prev) = true ∧
        isBreak isWord b.head? = true ∧ b.head?.all closes = true := by
  induction text generalizing prev with
  | nil =>
    rw [argSearchFrom, argAt_iff]
    constructor
    · rintro ⟨hopen, hprev, b, hb, hbreak⟩
      exact ⟨[], b, hb, hopen, hprev, hbreak⟩
    · rintro ⟨a, b, hab, hopen, ha, hb⟩
      obtain rfl : a = [] := (List.append_eq_nil_iff.1 hab.symm).1
      exact ⟨hopen, ha, b, hab, hb⟩
  | cons c text ih =>
    have hlast : ∀ a : Str, (c :: a).getLast?.or prev = a.getLast?.or (some c) := by
      intro a
      cases a with
      | nil => rfl
      | cons d a => simp [List.getLast?_eq_some_getLast]
    rw [argSearchFrom, Bool.or_eq_true, argAt_iff, ih]
    constructor
    · rintro (⟨hopen, hprev, b, hb, hbreak⟩ | ⟨a, b, hab, hopen, ha, hb⟩)
      · exact ⟨[], b, hb, hopen, hprev, hbreak⟩
      · refine ⟨c :: a, b, by rw [hab, List.cons_append], ?_, ?_, hb⟩
        · rwa [hlast]
        · rwa [hlast]
    · rintro ⟨a, b, hab, hopen, ha, hb⟩
      cases a with
      | nil => exact Or.inl ⟨hopen, ha, b, hab, hb⟩
      | cons d a =>
        rw [List.cons_append, List.cons.injEq] at hab
        obtain ⟨rfl, hab⟩ := hab
        rw [hlast] at hopen ha
        exact Or.inr ⟨a, b, hab, hopen, ha, hb⟩

/-- The type stands behind a colon, a blank or an angle, and in front of a comma, a blank, an
angle or the end. -/
theorem argSearch_iff {word text : Str}
    (hword : ∀ c, isWord c = true → opens c = false ∧ closes c = false) :
    argSearch isWord word text = true ↔ ∃ a c b, text = a ++ c :: (word ++ b) ∧
      opens c = true ∧ b.head?.all closes = true := by
  have hbreak : ∀ c, opens c = true ∨ closes c = true → isWord c = false := by
    intro c hc
    by_contra hnot
    rw [Bool.not_eq_false] at hnot
    rcases hc with hc | hc
    · rw [(hword c hnot).1] at hc
      cases hc
    · rw [(hword c hnot).2] at hc
      cases hc
  rw [argSearch, argSearchFrom_iff]
  constructor
  · rintro ⟨a, b, rfl, hopen, -, -, hclose⟩
    rw [Option.or_none] at hopen
    cases hlast : a.getLast? with
    | none =>
      rw [hlast] at hopen
      cases hopen
    | some c =>
      rw [hlast, Option.any_some] at hopen
      obtain ⟨u, rfl⟩ := List.getLast?_eq_some_iff.1 hlast
      exact ⟨u, c, b, by simp, hopen, hclose⟩
  · rintro ⟨a, c, b, rfl, hopen, hclose⟩
    refine ⟨a ++ [c], b, by simp, ?_, ?_, ?_, hclose⟩
    · rw [List.getLast?_concat]
      exact hopen
    · rw [List.getLast?_concat]
      simp [isBreak, hbreak c (Or.inl hopen)]
    · cases hb : b.head? with
      | none => rfl
      | some d =>
        rw [hb, Option.all_some] at hclose
        simp [isBreak, hbreak d (Or.inr hclose)]

/-! ## The structs of the log -/

theorem name_of_all {d : StructMembers.Table}
    (h : (d.entries.all fun e => !e.1.isEmpty && e.1.all isWord) = true) :
    ∀ e ∈ d.entries, e.1 ≠ [] ∧ ∀ c ∈ e.1, isWord c = true := by
  intro e he
  have hname := List.all_eq_true.1 h e he
  rw [Bool.and_eq_true, Bool.not_eq_true', List.all_eq_true] at hname
  exact ⟨by simpa using hname.1, hname.2⟩

/-- A struct of the dictionary. -/
def detail (e : Str × Dict Str Str) (h : e.1 ≠ [] ∧ ∀ c ∈ e.1, isWord c = true) :
    StructDetail isWord :=
  ⟨e.1, e.2.entries.map Prod.snd, h.1, h.2⟩

/-- The structs of a dictionary whose names are words. -/
def tableOf (d : StructMembers.Table)
    (h : (d.entries.all fun e => !e.1.isEmpty && e.1.all isWord) = true) : StructTable isWord where
  structs := d.entries.pmap (detail isWord) (name_of_all isWord h)
  names_nodup := by
    have hnames : (d.entries.pmap (detail isWord) (name_of_all isWord h)).map
        StructDetail.structName = d.entries.map Prod.fst := by
      rw [List.map_pmap]
      exact List.pmap_eq_map _
    rw [hnames]
    exact d.keys_nodup

/-- `structMember_dict`; the patterns take the names as they stand, which words allow. -/
def structTable? (d : StructMembers.Table) : Option (StructTable isWord) :=
  if h : (d.entries.all fun e => !e.1.isEmpty && e.1.all isWord) = true then
    some (tableOf isWord d h)
  else none

/-! ## The notes -/

/-- What is noted of a type in the parameters. -/
def argPhrase : Str :=
  lit " with too large integer type in public function args, use near_sdk::json_types instead; " rfl

/-- What is noted of a type in the result. -/
def returnPhrase : Str :=
  lit " with too large integer type in public function return value, " rfl ++
    lit "use near_sdk::json_types instead; " rfl

/-- The note on the first type that is met. -/
def phraseOf (phrase : Str) (found : Option Str) : Str := found.elim [] (· ++ phrase)

/-- `func["visibility"] == "public(near_bindgen)"` -/
def isPublic (func : FindFunc.Result) : Bool := func.visibility == lit "public(near_bindgen)" rfl

/-- `note_issue` -/
def noteIssue (types : List Str) (func : FindFunc.Result) : Str :=
  if isPublic func then
    phraseOf argPhrase (types.find? fun i => argSearch isWord i func.args) ++
      phraseOf returnPhrase (types.find? fun i => search isWord i func.ret)
  else []

/-- A type with a large integer inside, as far as the loop finds it. -/
def Large {isWord : Char → Bool} (T : StructTable isWord) (t : Str) : Prop :=
  t ∈ baseTypes ∨ ∃ s ∈ T.structs, T.Early s ∧ s.structName = t

/-- The type stands among the parameters. -/
def InArgs (t args : Str) : Prop :=
  ∃ a c b, args = a ++ c :: (t ++ b) ∧ opens c = true ∧ b.head?.all closes = true

/-- The type is a word of the result. -/
def InReturn (t ret : Str) : Prop :=
  ∃ a b, ret = a ++ t ++ b ∧ isBreak isWord a.getLast? = true ∧ isBreak isWord b.head? = true

/-- A public function with a large integer in its signature. -/
def Mistyped {isWord : Char → Bool} (T : StructTable isWord) (func : FindFunc.Result) : Prop :=
  isPublic func = true ∧ ∃ t, Large T t ∧ (InArgs t func.args ∨ InReturn isWord t func.ret)

theorem phraseOf_eq_nil_iff {phrase : Str} (h : phrase ≠ []) {types : List Str}
    {p : Str → Bool} : phraseOf phrase (types.find? p) = [] ↔ ¬ ∃ t ∈ types, p t = true := by
  cases hfind : types.find? p with
  | none =>
    rw [List.find?_eq_none] at hfind
    simpa [phraseOf] using hfind
  | some t =>
    have hp := List.find?_some hfind
    have hmem := List.mem_of_find?_eq_some hfind
    simp only [phraseOf, Option.elim_some, List.append_eq_nil_iff]
    exact ⟨fun hnil => absurd hnil.2 h, fun hno => absurd ⟨t, hmem, hp⟩ hno⟩

/-- A note is written for a public function with a type of the list in its signature. -/
theorem noteIssue_ne_nil_iff {isWord : Char → Bool} (hword : FindStruct.WordClass isWord)
    {T : StructTable isWord} {fuel : Nat} {types : List Str}
    (h : typesWITHu128 fuel T = some types) (func : FindFunc.Result) :
    noteIssue isWord types func ≠ [] ↔ Mistyped T func := by
  have hclass : ∀ c, isWord c = true → opens c = false ∧ closes c = false := by
    intro c hc
    have hspace := (hword c hc).1
    have hmark := (hword c hc).2
    simp only [FindStruct.marks, List.mem_cons, not_or] at hmark
    simp [opens, closes, hspace, hmark]
  have hargs : phraseOf argPhrase (types.find? fun i => argSearch isWord i func.args) ≠ [] ↔
      ∃ t, Large T t ∧ InArgs t func.args := by
    rw [ne_eq, phraseOf_eq_nil_iff (by decide), not_not]
    refine exists_congr fun t => and_congr (mem_types_iff h t) ?_
    exact argSearch_iff isWord hclass
  have hret : phraseOf returnPhrase (types.find? fun i => search isWord i func.ret) ≠ [] ↔
      ∃ t, Large T t ∧ InReturn isWord t func.ret := by
    rw [ne_eq, phraseOf_eq_nil_iff (by decide), not_not]
    exact exists_congr fun t => and_congr (mem_types_iff h t) (search_iff isWord)
  rw [noteIssue]
  split
  · rename_i hpub
    rw [ne_eq, List.append_eq_nil_iff, not_and_or, ← ne_eq, ← ne_eq, hargs, hret, Mistyped]
    constructor
    · rintro (⟨t, ht, harg⟩ | ⟨t, ht, hin⟩)
      · exact ⟨hpub, t, ht, Or.inl harg⟩
      · exact ⟨hpub, t, ht, Or.inr hin⟩
    · rintro ⟨-, t, ht, harg | hin⟩
      · exact Or.inl ⟨t, ht, harg⟩
      · exact Or.inr ⟨t, ht, hin⟩
  · rename_i hpub
    exact ⟨fun hne => absurd rfl hne, fun hm => absurd hm.1 hpub⟩

/-- The characters of a note are those of a type or of a phrase. -/
theorem mem_noteIssue {isWord : Char → Bool} {types : List Str} {func : FindFunc.Result} {c : Char}
    (h : c ∈ noteIssue isWord types func) : (∃ t ∈ types, c ∈ t) ∨ c ∈ argPhrase ∨
      c ∈ returnPhrase := by
  have hphrase : ∀ {phrase : Str} {p : Str → Bool}, c ∈ phraseOf phrase (types.find? p) →
      (∃ t ∈ types, c ∈ t) ∨ c ∈ phrase := by
    intro phrase p hc
    cases hfind : types.find? p with
    | none =>
      rw [hfind] at hc
      exact absurd hc List.not_mem_nil
    | some t =>
      rw [hfind] at hc
      exact (List.mem_append.1 hc).imp (fun hc => ⟨t, List.mem_of_find?_eq_some hfind, hc⟩) id
  rw [noteIssue] at h
  split at h
  · rcases List.mem_append.1 h with h | h
    · exact (hphrase h).imp id Or.inl
    · exact (hphrase h).imp id Or.inr
  · exact absurd h List.not_mem_nil

/-- A note keeps lines and fields apart. -/
theorem noteIssue_clean {isWord : Char → Bool} (hword : FindStruct.WordClass isWord)
    {T : StructTable isWord} {fuel : Nat} {types : List Str}
    (h : typesWITHu128 fuel T = some types) (func : FindFunc.Result) {c : Char}
    (hc : c = '@' ∨ c = '\n' ∨ c = '\r') : c ∉ noteIssue isWord types func := by
  have hnotword : isWord c = false := by
    by_contra hnot
    rw [Bool.not_eq_false] at hnot
    have hclass := hword c hnot
    rcases hc with rfl | rfl | rfl
    · exact hclass.2 (by decide)
    · exact absurd hclass.1 (by decide)
    · exact absurd hclass.1 (by decide)
  intro hmem
  rcases mem_noteIssue hmem with ⟨t, ht, hct⟩ | harg | hret
  · rcases (mem_types_iff h t).1 ht with hbase | ⟨s, -, -, rfl⟩
    · have hall : ∀ t ∈ baseTypes, '@' ∉ t ∧ '\n' ∉ t ∧ '\r' ∉ t := by decide
      obtain ⟨hat, hnl, hcr⟩ := hall t hbase
      rcases hc with rfl | rfl | rfl
      · exact hat hct
      · exact hnl hct
      · exact hcr hct
    · rw [s.name_word c hct] at hnotword
      cases hnotword
  · rcases hc with rfl | rfl | rfl
    · exact absurd harg (by decide)
    · exact absurd harg (by decide)
    · exact absurd harg (by decide)
  · rcases hc with rfl | rfl | rfl
    · exact absurd hret (by decide)
    · exact absurd hret (by decide)
    · exact absurd hret (by decide)

end

end IncorrectJsonType

namespace Audit

open Text
open FindFunc (findFunc)
open FindStruct (WordClass membersLog resultsList)
open IncorrectJsonType

/-! ## The scripts -/

/-- The texts of the files, and the orders in which two scripts iterate their set. -/
structure SourceReading extends Reading where
  structOrder : List SourceFile → List SourceFile
  structOrder_perm : ∀ l, (structOrder l).Perm l

section

/- The character class `\w`, the texts and the project. -/
variable (isWord : Char → Bool) (X : SourceReading) (P : Project)

/-- The structs of the project, file by file. -/
def foundStructs : List (List FindStruct.Result) :=
  resultsList isWord ((X.structOrder (allFiles P.files)).map fun file => (P.path file, X.text file))

/-- `findStruct.py`: its logs, and that it ends. -/
def findStructScript : Str × Str × Bool :=
  (membersLog (foundStructs isWord X P),
    unlines ((foundStructs isWord X P).flatten.map FindStruct.Result.name), true)

/-- The functions of the source with their files. -/
def sourceFuncs : List (FindFunc.Result × SourceFile) :=
  (X.order (allFiles P.files)).flatMap fun file =>
    (findFunc isWord false (X.text file)).map fun func => (func, file)

/-- The functions that a note is written for. -/
def mistyped (types : List Str) : List (FindFunc.Result × SourceFile) :=
  (sourceFuncs isWord X P).filter fun x => !(noteIssue isWord types x.1).isEmpty

/-- `struct::trait::func@path@note_issue` -/
def noteLine (types : List Str) (x : FindFunc.Result × SourceFile) : Str :=
  logLine [x.1.func.joined, P.path x.2, noteIssue isWord types x.1]

/-- `incorrect-json-type.py`, given the log of the structs; a loop that does not end within
the fuel writes nothing. -/
def jsonScript (fuel : Nat) (log : Option Str) : Option Str × Bool :=
  match ((log.bind StructMembers.load).bind (structTable? isWord)).bind (typesWITHu128 fuel) with
  | none => (none, false)
  | some types => (some (unlines ((mistyped isWord X P types).map (noteLine isWord P types))), true)

/-- The public functions. -/
def publicFuncs : List (FindFunc.Result × SourceFile) :=
  (sourceFuncs isWord X P).filter fun x => isPublic x.1

/-- `struct::trait::func@path` -/
def publicLine (x : FindFunc.Result × SourceFile) : Str := findingLine P (x.1.func, x.2)

/-- `public-interface.py` -/
def publicScript : Option Str × Bool :=
  (some (unlines ((publicFuncs isWord X P).map (publicLine P))), true)

/-- The tools with the scripts put in. -/
def Makefile.Tools.withTypes (T : Makefile.Tools) (fuel : Nat) : Makefile.Tools where
  bitcodes := T.bitcodes
  demangle := T.demangle
  jsonLoad := T.jsonLoad
  pass := T.pass
  allCall := T.allCall
  getPackagesName := T.getPackagesName
  findStruct := findStructScript isWord X P
  unsafeMathToml := T.unsafeMathToml
  python
    | .finder .incorrectJsonType, log => jsonScript isWord X P fuel log
    | .finder .publicInterface, _ => publicScript isWord X P
    | D, log => T.python D log

/-! ## The structs that are read -/

theorem mem_foundStructs {s : FindStruct.Result} (h : s ∈ (foundStructs isWord X P).flatten) :
    s.name ≠ [] ∧ ∀ c ∈ s.name, isWord c = true := by
  obtain ⟨results, hresults, hs⟩ := List.mem_flatten.1 h
  obtain ⟨e, -, rfl⟩ := List.mem_map.1 (List.mem_filter.1 hresults).1
  exact FindStruct.word_of_mem_findStruct hs

theorem all_foundStructs :
    ((FindStruct.table (foundStructs isWord X P).flatten).entries.all
      fun e => !e.1.isEmpty && e.1.all isWord) = true := by
  rw [List.all_eq_true]
  intro e he
  obtain ⟨hne, hword⟩ := FindStruct.word_of_mem_table
    (fun s hs => mem_foundStructs isWord X P hs) e he
  rw [Bool.and_eq_true, Bool.not_eq_true', List.all_eq_true]
  exact ⟨by simpa using hne, hword⟩

/-- The structs of the project as `incorrect-json-type.py` has them, the last one of a
name. -/
def foundTable : StructTable isWord :=
  tableOf isWord (FindStruct.table (foundStructs isWord X P).flatten) (all_foundStructs isWord X P)

/-- Names and paths of the source that keep lines and fields apart, in lines that `rustfilt`
leaves alone. -/
structure ReadableTypes (T : Makefile.Tools) : Prop where
  path : ∀ file ∈ allFiles P.files,
    '@' ∉ P.path file ∧ ('\n' ∉ P.path file ∧ '\r' ∉ P.path file) ∧
      rstrip (P.path file) = P.path file
  name : ∀ x ∈ sourceFuncs isWord X P, '@' ∉ x.1.func.joined ∧
    ('\n' ∉ x.1.func.joined ∧ '\r' ∉ x.1.func.joined) ∧
      lstrip x.1.func.joined = x.1.func.joined
  demangle : ∀ x ∈ sourceFuncs isWord X P,
    (∀ types, T.demangle (noteLine isWord P types x) = noteLine isWord P types x) ∧
      T.demangle (publicLine P x) = publicLine P x

end

end Audit

namespace Audit.Makefile

open Directory
open Text
open FindFunc (findFunc)
open FindStruct (WordClass)
open IncorrectJsonType

/-! ## The logs -/

section

variable {T : Tools}

/-- The script of the types reads the log of the structs. -/
theorem build_json (hok : T.findStruct.2.2 = true) :
    T.build (.finder .incorrectJsonType) clean (.log (.finder .incorrectJsonType))
      = (T.python (.finder .incorrectJsonType) (some T.findStruct.1)).1 := by
  have hbefore : before (.finder .incorrectJsonType) = [.findStruct] := rfl
  have hstatus : ∀ t ∈ before (.finder .incorrectJsonType),
      t.isDetector = false ∧ T.status t = true := by
    rw [hbefore]
    exact List.forall_mem_singleton.2 ⟨rfl, hok⟩
  obtain ⟨hmade, hbuild⟩ := build_log hstatus
  have hmembers := hmade.members (by rw [hbefore]; simp)
  rw [hbuild]
  generalize (run ((before (.finder .incorrectJsonType)).flatMap T.recipe) clean).1 = d at hmembers
  show (run [clear (.finder .incorrectJsonType),
    T.script (.finder .incorrectJsonType) (some .structMembers)] d).1 _ = _
  rw [run_cons_ok (by rfl)]
  generalize hd₁ : (exec d (clear (.finder .incorrectJsonType))).1 = d₁
  have hnone : d₁ (.log (.finder .incorrectJsonType)) = none := by
    rw [← hd₁]
    simp only [clear, exec, List.mem_singleton, if_true]
  have hread : d₁ .structMembers = some T.findStruct.1 := by
    rw [← hd₁, clear, exec_other (by simp [Command.writes]), hmembers]
  rw [run_script hnone, ← hread]
  rfl

/-- A script that reads no log leaves what it writes. -/
theorem build_alone {D : Detector} (hbefore : before D = [])
    (hrecipe : T.recipe (.detector D) = [clear D, T.script D none]) :
    T.build D clean (.log D) = (T.python D none).1 := by
  rw [Tools.build, make_detector, hbefore, hrecipe, List.flatMap_nil, List.nil_append,
    run_cons_ok (by rfl)]
  generalize hd₁ : (exec clean (clear D)).1 = d₁
  have hnone : d₁ (.log D) = none := by
    rw [← hd₁]
    simp only [clear, exec, List.mem_singleton, if_true]
  rw [run_script hnone]
  rfl

theorem build_public :
    T.build (.finder .publicInterface) clean (.log (.finder .publicInterface))
      = (T.python (.finder .publicInterface) none).1 :=
  build_alone rfl rfl

/-- What is loaded from a log of lines that `rustfilt` leaves alone. -/
theorem unlog_lines {α β : Type} {decode : List Str → Option α} {items : List β} {line : β → Str}
    {record : β → α} (hnl : ∀ x ∈ items, '\n' ∉ line x ∧ '\r' ∉ line x)
    (hdem : ∀ x ∈ items, T.demangle (line x) = line x)
    (hdec : ∀ x ∈ items, decode ((strip (line x)).splitOn '@') = some (record x)) :
    unlog decode (T.rustfilt (unlines (items.map line))) = items.map record := by
  have hfilt : T.rustfilt (unlines (items.map line)) = unlines (items.map line) := by
    rw [Tools.rustfilt, mapLines_unlines _ (List.forall_mem_map.2 fun x hx => (hnl x hx).1),
      List.map_map]
    exact congrArg unlines (List.map_congr_left hdem)
  rw [hfilt, unlog, lines_unlines (List.forall_mem_map.2 hnl)]
  clear hnl hdem hfilt
  induction items with
  | nil => rfl
  | cons x items ih =>
    rw [List.map_cons, loadLoop, hdec x List.mem_cons_self]
    exact congrArg (record x :: ·) (ih fun y hy => hdec y (List.mem_cons_of_mem x hy))

end

section

variable {isWord : Char → Bool} {X : SourceReading} {P : Project} {T : Tools} {fuel : Nat}
  {types : List Str}

theorem mem_sourceFuncs {x : FindFunc.Result × SourceFile} :
    x ∈ sourceFuncs isWord X P ↔
      x.2 ∈ allFiles P.files ∧ x.1 ∈ findFunc isWord false (X.text x.2) := by
  rw [sourceFuncs, List.mem_flatMap]
  constructor
  · rintro ⟨file, hfile, hx⟩
    obtain ⟨func, hfunc, rfl⟩ := List.mem_map.1 hx
    exact ⟨(X.order_perm _).mem_iff.1 hfile, hfunc⟩
  · rintro ⟨hfile, hfunc⟩
    exact ⟨x.2, (X.order_perm _).mem_iff.2 hfile, List.mem_map.2 ⟨x.1, hfunc, rfl⟩⟩

/-- The script reads back the structs that were found. -/
theorem jsonScript_found (hword : WordClass isWord) (h : ReadableTypes isWord X P T)
    (htypes : typesWITHu128 fuel (foundTable isWord X P) = some types) :
    jsonScript isWord X P fuel (some (findStructScript isWord X P).1)
      = (some (unlines ((mistyped isWord X P types).map (noteLine isWord P types))), true) := by
  have hload : StructMembers.load (findStructScript isWord X P).1
      = some (FindStruct.table (foundStructs isWord X P).flatten) := by
    refine FindStruct.load_membersLog hword fun e he => ?_
    obtain ⟨file, hfile, rfl⟩ := List.mem_map.1 he
    obtain ⟨hat, ⟨hnl, hcr⟩, -⟩ := h.path file ((X.structOrder_perm _).mem_iff.1 hfile)
    exact ⟨hat, hnl, hcr⟩
  have htable : structTable? isWord (FindStruct.table (foundStructs isWord X P).flatten)
      = some (foundTable isWord X P) := dif_pos (all_foundStructs isWord X P)
  rw [jsonScript, Option.bind_some, hload, Option.bind_some, htable, Option.bind_some, htypes]

/-- The record of a function with a note. -/
def noteRecord (isWord : Char → Bool) (P : Project) (types : List Str)
    (x : FindFunc.Result × SourceFile) : NoteRecord :=
  (x.1.func.joined, P.path x.2, rstrip (noteIssue isWord types x.1))

/-- The records that arrive are those of the functions with a note. -/
theorem unlog_json (hword : WordClass isWord) (h : ReadableTypes isWord X P T)
    (htypes : typesWITHu128 fuel (foundTable isWord X P) = some types) :
    (((T.withTypes isWord X P fuel).build (.finder .incorrectJsonType) clean
        (.log (.finder .incorrectJsonType))).map (T.withTypes isWord X P fuel).rustfilt).elim []
          (unlog decodeNote)
      = (mistyped isWord X P types).map (noteRecord isWord P types) := by
  have hbuild := @build_json (T.withTypes isWord X P fuel) rfl
  have hpython : ((T.withTypes isWord X P fuel).python (.finder .incorrectJsonType)
      (some (T.withTypes isWord X P fuel).findStruct.1)).1
        = some (unlines ((mistyped isWord X P types).map (noteLine isWord P types))) :=
    congrArg Prod.fst (jsonScript_found hword h htypes)
  rw [hbuild, hpython, Option.map_some, Option.elim_some]
  have hmem : ∀ x ∈ mistyped isWord X P types, x ∈ sourceFuncs isWord X P := fun x hx =>
    (List.mem_filter.1 hx).1
  have hclean := fun (x : FindFunc.Result × SourceFile) {c : Char} hc =>
    noteIssue_clean hword htypes x.1 (c := c) hc
  refine @unlog_lines (T.withTypes isWord X P fuel) _ _ decodeNote _ _ (noteRecord isWord P types)
    (fun x hx => ?_) (fun x hx => (h.demangle x (hmem x hx)).1 types) fun x hx => ?_
  · obtain ⟨-, ⟨hnl, hcr⟩, -⟩ := h.name x (hmem x hx)
    obtain ⟨-, ⟨hnl', hcr'⟩, -⟩ := h.path x.2 (mem_sourceFuncs.1 (hmem x hx)).1
    refine ⟨newline_not_mem_logLine (by decide) ?_, newline_not_mem_logLine (by decide) ?_⟩
    · exact List.forall_mem_cons.2 ⟨hnl, List.forall_mem_cons.2 ⟨hnl',
        List.forall_mem_singleton.2 (hclean x (Or.inr (Or.inl rfl)))⟩⟩
    · exact List.forall_mem_cons.2 ⟨hcr, List.forall_mem_cons.2 ⟨hcr',
        List.forall_mem_singleton.2 (hclean x (Or.inr (Or.inr rfl)))⟩⟩
  · obtain ⟨hat, -, hstrip⟩ := h.name x (hmem x hx)
    obtain ⟨hat', -, -⟩ := h.path x.2 (mem_sourceFuncs.1 (hmem x hx)).1
    rw [noteLine, decodeNote_line hat hstrip (hclean x (Or.inl rfl)), if_neg hat']
    rfl

/-- The records of the public functions arrive. -/
theorem unlog_public (h : ReadableTypes isWord X P T) :
    (((T.withTypes isWord X P fuel).build (.finder .publicInterface) clean
        (.log (.finder .publicInterface))).map (T.withTypes isWord X P fuel).rustfilt).elim []
          (unlog decodePair)
      = (publicFuncs isWord X P).map fun x => (x.1.func.joined, P.path x.2) := by
  have hbuild := @build_public (T.withTypes isWord X P fuel)
  have hpython : ((T.withTypes isWord X P fuel).python (.finder .publicInterface) none).1
      = some (unlines ((publicFuncs isWord X P).map (publicLine P))) := rfl
  rw [hbuild, hpython, Option.map_some, Option.elim_some]
  have hmem : ∀ x ∈ publicFuncs isWord X P, x ∈ sourceFuncs isWord X P := fun x hx =>
    (List.mem_filter.1 hx).1
  refine @unlog_lines (T.withTypes isWord X P fuel) _ _ decodePair _ _ _
    (fun x hx => ?_) (fun x hx => (h.demangle x (hmem x hx)).2) fun x hx => ?_
  · obtain ⟨-, ⟨hnl, hcr⟩, -⟩ := h.name x (hmem x hx)
    obtain ⟨-, ⟨hnl', hcr'⟩, -⟩ := h.path x.2 (mem_sourceFuncs.1 (hmem x hx)).1
    exact ⟨newline_not_mem_logLine (by decide)
        (List.forall_mem_cons.2 ⟨hnl, List.forall_mem_singleton.2 hnl'⟩),
      newline_not_mem_logLine (by decide)
        (List.forall_mem_cons.2 ⟨hcr, List.forall_mem_singleton.2 hcr'⟩)⟩
  · obtain ⟨hat, -, hstrip⟩ := h.name x (hmem x hx)
    obtain ⟨hat', -, hstrip'⟩ := h.path x.2 (mem_sourceFuncs.1 (hmem x hx)).1
    rw [publicLine, findingLine, decodePair_line hat hstrip, if_neg hat', hstrip']

/-! ## The notes -/

/-- A function of the source with the name of `func`, for which `Q` holds. -/
def Shares (isWord : Char → Bool) (X : SourceReading) (P : Project) (Q : FindFunc.Result → Prop)
    (func : Func) : Prop :=
  ∃ file ∈ allFiles P.files, ∃ r ∈ findFunc isWord false (X.text file),
    Q r ∧ r.func.joined = func.joined

theorem shares_iff {Q : FindFunc.Result → Prop} {func : Func} :
    Shares isWord X P Q func ↔
      ∃ x ∈ sourceFuncs isWord X P, Q x.1 ∧ x.1.func.joined = func.joined := by
  constructor
  · rintro ⟨file, hfile, r, hr, hQ, hj⟩
    exact ⟨(r, file), mem_sourceFuncs.2 ⟨hfile, hr⟩, hQ, hj⟩
  · rintro ⟨x, hx, hQ, hj⟩
    obtain ⟨hfile, hr⟩ := mem_sourceFuncs.1 hx
    exact ⟨x.2, hfile, x.1, hr, hQ, hj⟩

/-- The last words of a note stand when its line is stripped. -/
theorem rstrip_noteIssue_ne_nil {func : FindFunc.Result}
    (h : noteIssue isWord types func ≠ []) : rstrip (noteIssue isWord types func) ≠ [] := by
  intro hnil
  have hblank : ∀ c ∈ noteIssue isWord types func, isSpace c = true := by
    rw [rstrip, List.rdropWhile_eq_nil_iff] at hnil
    exact hnil
  have hsolid : 'l' ∈ noteIssue isWord types func := by
    have hphrase : ∀ {phrase : Str} {found : Option Str}, 'l' ∈ phrase →
        phraseOf phrase found ≠ [] → 'l' ∈ phraseOf phrase found := by
      intro phrase found hmem hne
      cases found with
      | none => exact absurd rfl hne
      | some t => exact List.mem_append_right t hmem
    rw [noteIssue] at h ⊢
    split
    · rename_i hpub
      rw [if_pos hpub] at h
      by_cases hargs : phraseOf argPhrase (types.find? fun i => argSearch isWord i func.args) = []
      · rw [hargs, List.nil_append] at h
        exact List.mem_append_right _ (hphrase (by decide) h)
      · exact List.mem_append_left _ (hphrase (by decide) hargs)
    · rename_i hpub
      rw [if_neg hpub] at h
      exact absurd rfl h
  exact absurd (hblank _ hsolid) (by decide)

/-- The note that the section meets first, when each record of a name has a note. -/
theorem attached_note {tmp : Tmp} {run : Run P tmp} {file : SourceFile} {func : Func}
    {records : List (FindFunc.Result × SourceFile)}
    (hset : ∀ r : NoteRecord, r ∈ run.set .incorrectJsonType ↔
      ∃ x ∈ records, noteRecord isWord P types x = r)
    (hnote : ∀ x ∈ records, noteIssue isWord types x.1 ≠ []) :
    ((∃ text, Attached (audit run) file func (.finder .incorrectJsonType) text) ↔
      Listed P file func ∧ contains func.macros (lit "test" rfl) = false ∧
        ∃ x ∈ records, x.1.func.joined = func.joined) ∧
    ∀ text, Attached (audit run) file func (.finder .incorrectJsonType) text →
      ∃ x ∈ records, x.1.func.joined = func.joined ∧
        text = rstrip (noteIssue isWord types x.1) := by
  have hiff : ∀ text, Attached (audit run) file func (.finder .incorrectJsonType) text ↔
      Listed P file func ∧ contains func.macros (lit "test" rfl) = false ∧
        (run.accepted file func .incorrectJsonType).head?.elim [] NoteRecord.note = text ∧
          text ≠ [] := fun text => attached_iff jsonSection_mem
  have haccepted : ∀ r : NoteRecord, r ∈ run.accepted file func .incorrectJsonType ↔
      ∃ x ∈ records, x.1.func.joined = func.joined ∧ noteRecord isWord P types x = r := by
    intro r
    refine List.mem_filter.trans ((and_congr (hset r)
      (match_rustle_iff (P.path file) (some r.2.1))).trans ?_)
    constructor
    · rintro ⟨⟨x, hx, rfl⟩, hj⟩
      exact ⟨x, hx, hj, rfl⟩
    · rintro ⟨x, hx, hj, rfl⟩
      exact ⟨⟨x, hx, rfl⟩, hj⟩
  have hhead : ∀ r, (run.accepted file func .incorrectJsonType).head? = some r →
      ∃ x ∈ records, x.1.func.joined = func.joined ∧ noteRecord isWord P types x = r :=
    fun r hr => (haccepted r).1 (List.mem_of_head? hr)
  refine ⟨⟨?_, ?_⟩, fun text htext => ?_⟩
  · rintro ⟨text, htext⟩
    obtain ⟨hlist, htest, rfl, hne⟩ := (hiff text).1 htext
    cases hr : (run.accepted file func .incorrectJsonType).head? with
    | none =>
      rw [hr] at hne
      exact absurd rfl hne
    | some r =>
      obtain ⟨x, hx, hj, -⟩ := hhead r hr
      exact ⟨hlist, htest, x, hx, hj⟩
  · rintro ⟨hlist, htest, x, hx, hj⟩
    have hmem := (haccepted _).2 ⟨x, hx, hj, rfl⟩
    obtain ⟨r, hr⟩ := Option.isSome_iff_exists.1
      (List.isSome_head?.2 (List.ne_nil_of_mem hmem))
    obtain ⟨x', hx', -, rfl⟩ := hhead r hr
    have hne : ∀ o : Option NoteRecord, o = some (noteRecord isWord P types x') →
        o.elim [] NoteRecord.note ≠ [] := by
      rintro o rfl
      exact rstrip_noteIssue_ne_nil (hnote x' hx')
    exact ⟨_, (hiff _).2 ⟨hlist, htest, rfl, hne _ hr⟩⟩
  · obtain ⟨-, -, rfl, hne⟩ := (hiff text).1 htext
    cases hr : (run.accepted file func .incorrectJsonType).head? with
    | none =>
      rw [hr] at hne
      exact absurd rfl hne
    | some r =>
      obtain ⟨x, hx, hj, rfl⟩ := hhead r hr
      exact ⟨x, hx, hj, rfl⟩

/-- When the loop ends: a function has the note of `incorrect-json-type` exactly
when a public function of its name, in whichever file that is no dependency, has in its
signature a base type or a struct that the loop finds early among the structs of the
project; and the note of `public-interface` exactly when one is public. -/
theorem notes_of_types {isWord : Char → Bool} (hword : WordClass isWord) {X : SourceReading}
    {P : Project} {T : Tools} {fuel : Nat} {types : List Str}
    (htypes : typesWITHu128 fuel (foundTable isWord X P) = some types)
    (h : ReadableTypes isWord X P T) (S : List Detector)
    (run : Run P ((T.withTypes isWord X P fuel).logs
      (session (T.withTypes isWord X P fuel).build S clean)))
    (file : SourceFile) (func : Func) :
    (.finder .incorrectJsonType ∈ S →
      ((∃ text, Attached (audit run) file func (.finder .incorrectJsonType) text) ↔
        Listed P file func ∧ contains func.macros (lit "test" rfl) = false ∧
          Shares isWord X P (Mistyped (foundTable isWord X P)) func) ∧
      ∀ text, Attached (audit run) file func (.finder .incorrectJsonType) text →
        Shares isWord X P (fun r => Mistyped (foundTable isWord X P) r ∧
          text = rstrip (noteIssue isWord types r)) func) ∧
    (.finder .publicInterface ∈ S → ∀ text,
      Attached (audit run) file func (.finder .publicInterface) text ↔
        text = lit "public interface; " rfl ∧ Listed P file func ∧
          contains func.macros (lit "test" rfl) = false ∧
            Shares isWord X P (fun r => isPublic r = true) func) := by
  have hmistyped : ∀ x, x ∈ mistyped isWord X P types ↔
      x ∈ sourceFuncs isWord X P ∧ Mistyped (foundTable isWord X P) x.1 := by
    intro x
    rw [mistyped, List.mem_filter, Bool.not_eq_true', List.isEmpty_eq_false_iff,
      noteIssue_ne_nil_iff hword htypes]
  refine ⟨fun hjson => ?_, fun hpublic text => ?_⟩
  · have hset : ∀ r : NoteRecord, r ∈ run.set .incorrectJsonType ↔
        ∃ x ∈ mistyped isWord X P types, noteRecord isWord P types x = r := by
      intro r
      have hmem := mem_set_session hjson run r
      rw [← List.mem_map, ← unlog_json (T := T) hword h htypes]
      exact hmem
    obtain ⟨hatt, htext⟩ := @attached_note isWord P types _ run file func _ hset fun x hx =>
      (noteIssue_ne_nil_iff hword htypes x.1).2 ((hmistyped x).1 hx).2
    refine ⟨hatt.trans ?_, fun text hnote => ?_⟩
    · rw [shares_iff]
      refine and_congr_right fun _ => and_congr_right fun _ => exists_congr fun x => ?_
      rw [hmistyped, and_assoc]
    · obtain ⟨x, hx, hj, rfl⟩ := htext text hnote
      obtain ⟨hsrc, hmis⟩ := (hmistyped x).1 hx
      exact shares_iff.2 ⟨x, hsrc, ⟨hmis, rfl⟩, hj⟩
  · refine (attached_first (SourceDetector.section_mem .publicInterface) (by decide) text).trans ?_
    refine and_congr_right fun _ => and_congr_right fun _ => and_congr_right fun _ => ?_
    have hset : ∀ r : PairRecord, r ∈ run.set .publicInterface ↔
        ∃ x ∈ publicFuncs isWord X P, (x.1.func.joined, P.path x.2) = r := by
      intro r
      have hmem := mem_set_session hpublic run r
      rw [← List.mem_map, ← @unlog_public isWord X P T fuel h]
      exact hmem
    rw [shares_iff]
    constructor
    · rintro ⟨r, hr, hacc⟩
      obtain ⟨x, hx, rfl⟩ := (hset r).1 hr
      obtain ⟨hsrc, hpub⟩ := List.mem_filter.1 hx
      exact ⟨x, hsrc, hpub, (match_rustle_iff (P.path file) (some (P.path x.2))).1 hacc⟩
    · rintro ⟨x, hsrc, hpub, hj⟩
      exact ⟨_, (hset _).2 ⟨x, List.mem_filter.2 ⟨hsrc, hpub⟩, rfl⟩,
        (match_rustle_iff (P.path file) (some (P.path x.2))).2 hj⟩

/-- From the source to the rows, whenever no early struct mentions itself: the loop of the
script collects the large types, and the rows are as they say. -/
theorem json_notes (isWord : Char → Bool) (hword : WordClass isWord) (X : SourceReading)
    (P : Project) (T : Tools)
    (hends : ¬ ∃ s ∈ (foundTable isWord X P).structs,
      s.mentions s.structName = true ∧ (foundTable isWord X P).Early s)
    (h : ReadableTypes isWord X P T) :
    ∃ types fuel₀, (∀ t, t ∈ types ↔ Large (foundTable isWord X P) t) ∧ ∀ fuel, fuel₀ ≤ fuel →
      ∀ (S : List Detector) (run : Run P ((T.withTypes isWord X P fuel).logs
        (session (T.withTypes isWord X P fuel).build S clean))) (file : SourceFile) (func : Func),
      (.finder .incorrectJsonType ∈ S →
        ((∃ text, Attached (audit run) file func (.finder .incorrectJsonType) text) ↔
          Listed P file func ∧ contains func.macros (lit "test" rfl) = false ∧
            Shares isWord X P (Mistyped (foundTable isWord X P)) func) ∧
        ∀ text, Attached (audit run) file func (.finder .incorrectJsonType) text →
          Shares isWord X P (fun r => Mistyped (foundTable isWord X P) r ∧
            text = rstrip (noteIssue isWord types r)) func) ∧
      (.finder .publicInterface ∈ S → ∀ text,
        Attached (audit run) file func (.finder .publicInterface) text ↔
          text = lit "public interface; " rfl ∧ Listed P file func ∧
            contains func.macros (lit "test" rfl) = false ∧
              Shares isWord X P (fun r => isPublic r = true) func) := by
  obtain ⟨fuel₀, types, htypes⟩ := (types_end_iff _).2 hends
  refine ⟨types, fuel₀, mem_types_iff htypes, fun fuel hfuel S run file func => ?_⟩
  exact notes_of_types hword (typesWITHu128_mono hfuel htypes) h S run file func

end

/-! ## A struct with an integer inside -/

/-- A public function that returns a struct with a `u64`. -/
def poolSource : Str := lit "pub struct Pool \x7b\n    last: u64,\n\x7d\n\n#[near_bindgen]\nimpl Pool \x7b
    pub fn get(&self) -> Pool \x7b\n    \x7d\n\x7d\n" rfl

/-- `get`, as `findFunc` returns it. -/
def getPool : FindFunc.Result where
  name := lit "get" rfl
  struct := lit "Pool" rfl
  struct_trait := []
  line_number := 7
  modifier := []
  macros := []
  visibility := lit "public(near_bindgen)" rfl
  args := lit "&self" rfl
  ret := lit "Pool" rfl

theorem findFunc_poolSource : findFunc Text.isAsciiWord false poolSource = [getPool] := by
  decide +kernel

theorem poolFile_relative : (lit "src/lib.rs" rfl).head? ≠ some '/' := by decide

def poolFile : SourceFile :=
  ⟨lit "src/lib.rs" rfl, poolFile_relative, [getPool.func], fun _ => []⟩

def poolProject : Project := ⟨lit "/home/u/pool" rfl, [poolFile], by decide⟩

def poolReading : SourceReading where
  text _ := poolSource
  order := id
  order_perm l := .refl l
  structOrder := id
  structOrder_perm l := .refl l

/-- No modules; `rustfilt` finds no symbol in a line. -/
def plainTools : Tools where
  bitcodes := []
  demangle := id
  jsonLoad _ := none
  pass _ _ := []
  allCall _ := []
  getPackagesName := (lit "pool" rfl, true)
  findStruct := ([], [], true)
  unsafeMathToml := (none, true)
  python _ _ := (none, true)

/-- `Pool` does not mention itself. -/
theorem pool_ends : ¬ ∃ s ∈ (foundTable Text.isAsciiWord poolReading poolProject).structs,
    s.mentions s.structName = true ∧
      (foundTable Text.isAsciiWord poolReading poolProject).Early s := by
  rintro ⟨s, hs, hself, -⟩
  have hall : ((foundTable Text.isAsciiWord poolReading poolProject).structs.all
      fun s => !s.mentions s.structName) = true := by
    decide +kernel
  have hnot := List.all_eq_true.1 hall s hs
  rw [hself] at hnot
  cases hnot

/-- The loop collects it, as it has a large integer inside. -/
theorem large_pool : Large (foundTable Text.isAsciiWord poolReading poolProject)
    (lit "Pool" rfl) := by
  have htypes : typesWITHu128 9 (foundTable Text.isAsciiWord poolReading poolProject)
      = some (baseTypes ++ [lit "Pool" rfl]) := by
    decide +kernel
  exact (mem_types_iff htypes _).1 (by decide)

theorem readableTypes_pool :
    ReadableTypes Text.isAsciiWord poolReading poolProject plainTools := by
  have hall : ∀ x ∈ sourceFuncs Text.isAsciiWord poolReading poolProject,
      x.1 = getPool ∧ x.2 = poolFile := by
    intro x hx
    obtain ⟨hfile, hfunc⟩ := mem_sourceFuncs.1 hx
    rw [show poolReading.text x.2 = poolSource from rfl, findFunc_poolSource] at hfunc
    exact ⟨List.mem_singleton.1 hfunc, List.mem_singleton.1 (List.mem_filter.1 hfile).1⟩
  refine ⟨fun file hfile => ?_, fun x hx => ?_, fun x hx => ⟨fun _ => rfl, rfl⟩⟩
  · rw [List.mem_singleton.1 (List.mem_filter.1 hfile).1]
    decide +kernel
  · rw [(hall x hx).1]
    decide +kernel

theorem shares_getPool {Q : FindFunc.Result → Prop} (h : Q getPool) :
    Shares Text.isAsciiWord poolReading poolProject Q getPool.func := by
  refine ⟨poolFile, List.mem_filter.2 ⟨List.mem_singleton_self _, by decide +kernel⟩, getPool, ?_,
    h, rfl⟩
  rw [show poolReading.text poolFile = poolSource from rfl, findFunc_poolSource]
  exact List.mem_singleton_self _

theorem mistyped_getPool :
    Mistyped (foundTable Text.isAsciiWord poolReading poolProject) getPool :=
  ⟨by decide +kernel, _, large_pool, Or.inr ⟨[], [], rfl, rfl, rfl⟩⟩

/-- `get` has the note, for a struct that its signature names. -/
theorem json_notes_pool :
    ∃ fuel₀, ∀ fuel, fuel₀ ≤ fuel → ∃ text, Attached (audit (Run.plain poolProject
      ((plainTools.withTypes Text.isAsciiWord poolReading poolProject fuel).logs
        (session (plainTools.withTypes Text.isAsciiWord poolReading poolProject fuel).build
          [.finder .incorrectJsonType] clean)))) poolFile getPool.func
      (.finder .incorrectJsonType) text := by
  obtain ⟨types, fuel₀, -, hnotes⟩ := json_notes Text.isAsciiWord FindStruct.wordClass_ascii
    poolReading poolProject plainTools pool_ends readableTypes_pool
  refine ⟨fuel₀, fun fuel hfuel => ?_⟩
  have hnote := hnotes fuel hfuel [.finder .incorrectJsonType] (Run.plain _ _) poolFile getPool.func
  exact ((hnote.1 (List.mem_singleton_self _)).1).2
    ⟨⟨List.mem_filter.2 ⟨List.mem_singleton_self _, by decide +kernel⟩, by decide +kernel,
      List.mem_singleton_self _⟩, by decide +kernel, shares_getPool mistyped_getPool⟩

end Audit.Makefile
