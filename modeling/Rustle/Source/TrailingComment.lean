import Rustle.Source.LastLine

/-!
# Trailing comments and `findGlobalVar`

A comment is removed with the newline behind it, and this newline may be the one that a
declaration starts with.

* `Line`, `Comment` — a line of a text, and a comment that is put at its end.
* `Harmless` — when a comment does not matter; `Ordinary` — how lines and comments mostly are.
* `names_lastLine_iff`, `TakenOut.names_iff`, `LeftIn.names_iff` — the names behind the last
  line, behind a line whose newline is taken out, and behind a comment that is left in.
* `names_kept_iff` — a harmless comment does not change the names that are found; on the last
  line, behind another comment and where all is ordinary, one that does not is harmless.
-/

namespace GlobalVars

open Backtrack Pattern
open LockCallback (cutComment cutComment_append cutComment_cons cutComment_isPrefix)
open Text (lit isSpace)

/-! ## Lines and comments -/

/-- A trailing comment: white space, the slashes and its text. -/
structure Comment where
  blanks : Str
  note : Str
  blank : ∀ c ∈ blanks, isSpace c = true ∧ c ≠ '\n' ∧ c ≠ '\r'
  oneLine : '\n' ∉ note ∧ '\r' ∉ note

def Comment.text (c : Comment) : Str := c.blanks ++ '/' :: '/' :: c.note

/-- A line of a text. -/
structure Line (text : Str) where
  before : List Str
  line : Str
  behind : List Str
  eq : (Text.universalNewlines text).splitOn '\n' = before ++ line :: behind

namespace Line

variable {text : Str} (l : Line text)

/-- The text with a comment at the end of the line. -/
def append (c : Comment) : Str :=
  ['\n'].intercalate (l.before ++ (l.line ++ c.text) :: l.behind)

/-- What is searched in front of the line. -/
def front : Str := l.before.flatMap keep

/-- What is searched behind the line. -/
def rest : Str := joined l.behind

end Line

theorem joined_append (before : List Str) (line : Str) (behind : List Str) :
    joined (before ++ line :: behind) = before.flatMap keep ++ joined (line :: behind) := by
  induction before with
  | nil => rfl
  | cons l before ih =>
    have hjoined : joined (l :: (before ++ line :: behind))
        = keep l ++ joined (before ++ line :: behind) := by
      cases before with
      | nil => rfl
      | cons l' before => rfl
    rw [List.cons_append, hjoined, ih, List.flatMap_cons, List.append_assoc]

theorem joined_cons (line : Str) {behind : List Str} (h : behind ≠ []) :
    joined (line :: behind) = keep line ++ joined behind := by
  cases behind with
  | nil => exact absurd rfl h
  | cons l behind => rfl

theorem Line.searched {text : Str} (l : Line text) :
    removeComments (Text.universalNewlines text) = l.front ++ joined (l.line :: l.behind) := by
  rw [removeComments, l.eq, joined_append]
  rfl

/-- The text that is searched with the comment. -/
theorem Line.searched_append {text : Str} (l : Line text) (c : Comment) :
    removeComments (Text.universalNewlines (l.append c))
      = l.front ++ joined ((l.line ++ c.text) :: l.behind) := by
  have hpiece : ∀ p ∈ l.before ++ l.line :: l.behind, '\n' ∉ p ∧ '\r' ∉ p := by
    intro p hp
    rw [← l.eq] at hp
    exact ⟨Text.not_mem_of_mem_splitOn hp,
      fun hr => Text.cr_not_mem_universalNewlines text (Text.mem_of_mem_splitOn hp hr)⟩
  have htext : '\n' ∉ c.text ∧ '\r' ∉ c.text := by
    have hblanks : '\n' ∉ c.blanks ∧ '\r' ∉ c.blanks :=
      ⟨fun h => (c.blank _ h).2.1 rfl, fun h => (c.blank _ h).2.2 rfl⟩
    simp [Comment.text, hblanks, c.oneLine]
  have hpiece' : ∀ p ∈ l.before ++ (l.line ++ c.text) :: l.behind, '\n' ∉ p ∧ '\r' ∉ p := by
    intro p hp
    rw [List.mem_append, List.mem_cons] at hp
    rcases hp with hp | rfl | hp
    · exact hpiece p (List.mem_append_left _ hp)
    · have hline := hpiece l.line (List.mem_append_right _ List.mem_cons_self)
      rw [List.mem_append, List.mem_append, not_or, not_or]
      exact ⟨⟨hline.1, htext.1⟩, hline.2, htext.2⟩
    · exact hpiece p (List.mem_append_right _ (List.mem_cons_of_mem _ hp))
  have hread : Text.universalNewlines (l.append c) = l.append c := by
    apply Text.universalNewlines_eq_self
    intro hr
    rcases Text.mem_of_mem_intercalate hr with h | ⟨p, hp, h⟩
    · exact absurd h (by decide)
    · exact (hpiece' p hp).2 h
  rw [hread, removeComments, Line.append, List.splitOn_intercalate '\n'
    (fun p hp => (hpiece' p hp).1) (by simp), joined_append]
  rfl

/-- A line with a comment is searched as it is without. -/
theorem keep_append {s : Str} (h : cutComment s ≠ s) (t : Str) : keep (s ++ t) = keep s := by
  have hne : cutComment (s ++ t) ≠ s ++ t := by
    rw [cutComment_append h]
    intro heq
    have hlen := (cutComment_isPrefix s).length_le
    rw [heq, List.length_append] at hlen
    obtain rfl : t = [] := List.length_eq_zero_iff.1 (by omega)
    exact h (by rw [heq, List.append_nil])
  rw [keep, keep, if_neg hne, if_neg h, cutComment_append h]

/-! ## When the names are kept -/

/-- The text that the pattern is matched with. -/
def scanned (text : Str) : Str := removeComments (Text.universalNewlines text)

section

variable (W : WordClass) {text : Str} (l : Line text) (c : Comment)

/-- The matches that are found. -/
def declarations (text : Str) : List (Match Group Char) :=
  finditer id (declaration W.isWord) (scanned text)

/-- Without anything between them, two texts read differently than with a newline. -/
def Joins (U V : Str) : Prop :=
  (U.getLast?.any (fun c => W.isWord c || c == '\n') = true ∧ V.head?.any W.isWord = true) ∨
    (U.getLast? = some ':' ∧ (V.head? = some '=' ∨ V.head? = some ';')) ∨
    (U.getLast? = some '=' ∧ V.head? = some ';')

/-- The comment is taken out of a line that has none, with the newline of the line. -/
structure TakenOut : Prop where
  newline : l.behind ≠ []
  plain : cutComment l.line = l.line
  cut : cutComment (l.line ++ c.text) = l.line ++ c.blanks
  joins : c.blanks = [] → ¬ Joins W (l.front ++ l.line) l.rest

/-- No other declaration starts inside of a match. -/
def Solid (text : Str) (m : Match Group Char) : Prop :=
  ∀ p, m.start < p → p < m.stop →
    matchAt id (declaration W.isWord) ((scanned text).drop p) = none

/-- The name that a match declares is declared by another one as well. -/
def Repeated (text : Str) (m : Match Group Char) : Prop :=
  ∀ name, declaredName m.groups = some name →
    ∃ m' ∈ declarations W text, m'.start ≠ m.start ∧ declaredName m'.groups = some name

/-- The comment has no text and is left in at the end of a line that has none. -/
structure LeftIn : Prop where
  newline : l.behind ≠ []
  plain : cutComment l.line = l.line
  bare : c.note = []
  cut : cutComment (l.line ++ c.text) = l.line ++ c.text

/-- The line ends between the newline of a match and the `:`, `=` or `;` behind its words. -/
def OverEnd (m : Match Group Char) : Prop :=
  ∃ w Y, l.front ++ l.line = w ++ '\n' :: Y ∧ m.start = w.length ∧
    ∀ d ∈ Y, isHead W.isWord d = true

/-- A declaration that only the comment closes: nothing is declared at its newline without the
comment, and no other one in front of it goes on to the comment. -/
structure Closed (w Y : Str) (o : State Group Char) : Prop where
  eq : l.front ++ l.line = w ++ '\n' :: Y
  reached : Reached (declarations W text) w.length
  fails : matchAt id (declaration W.isWord) ('\n' :: Y) = none
  closes : matchAt id (declaration W.isWord) ('\n' :: (Y ++ c.text)) = some o
  first : ∀ w' Y' o', l.front ++ l.line = w' ++ '\n' :: Y' → w'.length < w.length →
    Reached (declarations W text) w'.length →
    matchAt id (declaration W.isWord) ('\n' :: (Y' ++ c.text)) = some o' → ¬ o'.rest <:+ c.text

/-- A comment that does not change the names. -/
inductive Harmless : Prop
  /-- There is a comment already. -/
  | commented (hnewline : l.behind ≠ []) (hcomment : cutComment l.line ≠ l.line)
  /-- No declaration is found right behind the line, or it is not needed. -/
  | takenOut (h : TakenOut W l c)
      (hspared : ∀ m ∈ declarations W text, m.start = (l.front ++ l.line).length →
        Solid W text m ∧ Repeated W text m)
  /-- Slashes at the end of the line go with the comment, or no white space is left: no
  declaration is found right behind the line, and the ones in front of it read the same. -/
  | runTogether (k r : Str) (hnewline : l.behind ≠ []) (hplain : cutComment l.line = l.line)
      (hline : l.line = k ++ r) (hcut : cutComment (l.line ++ c.text) = k)
      (halike : ∀ w Y, l.front ++ k = w ++ '\n' :: Y → Reached (declarations W text) w.length →
        AlikeAt id (declaration W.isWord) declaredName l.rest (r ++ ['\n']) [] '\n' Y)
      (hno : ∀ m ∈ declarations W text, m.start ≠ (l.front ++ l.line).length)
  /-- The comment starts an empty line, and the newline in front of it is searched. -/
  | emptyLine (hnewline : l.behind ≠ []) (hline : l.line = []) (hblanks : c.blanks = [])
      (hnote : c.note ≠ []) (hfront : l.front.getLast? = some '\n')
  /-- The comment is left in, and no declaration is found that it stands in front of the `:`, `=`
  or `;` of, or it is not needed. -/
  | leftIn (h : LeftIn l c)
      (hspared : ∀ m ∈ declarations W text, OverEnd W l m → Solid W text m ∧ Repeated W text m)
  /-- The line is the last one, without a newline: a declaration that only the comment closes
  has the name of another one. -/
  | lastLine (hlast : l.behind = [])
      (hclosed : ∀ w Y o, Closed W l c w Y o → ∀ name, declaredName o.groups = some name →
        ∃ m ∈ declarations W text, declaredName m.groups = some name)

/-- The line does not end with a slash and does not run together with the text behind it, and no
declaration starts inside of the one that the comment would break. -/
structure Ordinary : Prop where
  slash : l.line.getLast? ≠ some '/'
  joins : c.note ≠ [] → c.blanks = [] → ¬ Joins W (l.front ++ l.line) l.rest
  solid : ∀ m ∈ declarations W text, m.start = (l.front ++ l.line).length ∨ OverEnd W l m →
    Solid W text m

end

section

variable {W : WordClass} {text : Str} {l : Line text} {c : Comment}

theorem mem_globalNames {t name : Str} :
    name ∈ globalNames W.isWord t ↔
      some name ∈ (declarations W t).map (declaredName ∘ Match.groups) := by
  rw [mem_globalNames_iff, List.mem_map]
  rfl

theorem globalNames_congr {t t' : Str}
    (hmap : (declarations W t').map (declaredName ∘ Match.groups)
      = (declarations W t).map (declaredName ∘ Match.groups)) :
    globalNames W.isWord t' = globalNames W.isWord t := by
  ext name
  rw [mem_globalNames, mem_globalNames, hmap]

theorem Line.newline_notMem (l : Line text) : '\n' ∉ l.line := by
  have hmem : l.line ∈ (Text.universalNewlines text).splitOn '\n' := by
    rw [l.eq]
    exact List.mem_append_right _ List.mem_cons_self
  exact Text.not_mem_of_mem_splitOn hmem

/-- Where the comment is taken out, the text in front of it reads the same. -/
theorem TakenOut.stable (h : TakenOut W l c) :
    Stable id (declaration W.isWord) declaredName (l.front ++ l.line) l.rest ['\n'] c.blanks := by
  have hspace : ∀ x, x = ['\n'] ∨ x = c.blanks → ∀ d ∈ x, isSpace d = true := by
    rintro x (rfl | rfl) d hd
    · rw [List.mem_singleton.1 hd]
      rfl
    · exact (c.blank d hd).1
  have hnonempty : ∀ {P : Prop}, (c.blanks = [] → ¬ P) → P → ['\n'] ≠ [] ∧ c.blanks ≠ [] :=
    fun hP hp => ⟨List.cons_ne_nil _ _, fun hnil => hP hnil hp⟩
  refine stable_of_blank hspace (fun hU hV => ?_)
    ⟨fun x hx => dull_of_space (hspace x hx), fun hU hV => ?_, fun hU hV => ?_⟩
  · exact hnonempty (fun hnil hP => h.joins hnil (Or.inl hP)) ⟨hU, hV⟩
  · exact hnonempty (fun hnil hP => h.joins hnil (Or.inr (Or.inr hP))) ⟨hU, hV⟩
  · exact hnonempty (fun hnil hP => h.joins hnil (Or.inr (Or.inl hP))) ⟨hU, hV⟩

/-- No match starts in text without newline. -/
theorem quiet_of_newline {g V : Str} (h : '\n' ∉ g) : Quiet id (declaration W.isWord) g V := by
  intro d Y hY
  apply matchAt_cons_of_ne
  rintro rfl
  exact h (hY.subset List.mem_cons_self)

theorem least_pos : 0 < (declaration W.isWord).least :=
  Nat.lt_add_right _ Nat.one_pos

/-- The names are those of a text with another filling of a gap. -/
theorem globalNames_edit {t t' U V g g' : Str} (hsearched : scanned t = U ++ (g ++ V))
    (hsearched' : scanned t' = U ++ (g' ++ V))
    (halike : ∀ w Y, U = w ++ '\n' :: Y → Reached (declarations W t) w.length →
      AlikeAt id (declaration W.isWord) declaredName V g g' '\n' Y)
    (hg' : '\n' ∉ g')
    (hno : ∀ m ∈ declarations W t, ¬ (U.length ≤ m.start ∧ m.start < U.length + g.length)) :
    globalNames W.isWord t' = globalNames W.isWord t := by
  apply globalNames_congr
  rw [declarations, declarations, hsearched, hsearched']
  rw [declarations, hsearched] at halike hno
  refine finditer_edit least_pos (fun w d Y hY hreached => ?_) (quiet_of_newline hg') hno
  by_cases hd : d = '\n'
  · subst hd
    exact halike w Y hY hreached
  · exact alikeAt_of_ne hd

theorem Comment.newline_notMem_blanks (c : Comment) : '\n' ∉ c.blanks :=
  fun h => (c.blank _ h).2.1 rfl

theorem Comment.newline_notMem_text (c : Comment) : '\n' ∉ c.text := by
  simp [Comment.text, c.newline_notMem_blanks, c.oneLine]

theorem Line.searched_plain (hnewline : l.behind ≠ []) (hplain : cutComment l.line = l.line) :
    scanned text = (l.front ++ l.line) ++ (['\n'] ++ l.rest) := by
  rw [scanned, l.searched, joined_cons _ hnewline, keep, if_pos hplain, Line.rest]
  simp only [List.append_assoc]

/-- What is left when the comment is taken out, and maybe more. -/
theorem Line.searched_cut {k : Str} (hnewline : l.behind ≠ [])
    (hcut : cutComment (l.line ++ c.text) = k) (hlen : k.length ≤ l.line.length + c.blanks.length) :
    scanned (l.append c) = (l.front ++ k) ++ l.rest := by
  have hne : cutComment (l.line ++ c.text) ≠ l.line ++ c.text := by
    intro heq
    rw [hcut] at heq
    rw [heq, Comment.text, List.length_append, List.length_append, List.length_cons] at hlen
    omega
  rw [scanned, l.searched_append, joined_cons _ hnewline, keep, if_neg hne, hcut,
    Line.rest]
  simp only [List.append_assoc]

theorem TakenOut.searched (h : TakenOut W l c) :
    scanned (l.append c) = (l.front ++ l.line) ++ (c.blanks ++ l.rest) := by
  rw [Line.searched_cut h.newline h.cut (List.length_append ..).le]
  simp only [List.append_assoc]

/-- All matches but one at the newline of the line are found. -/
theorem TakenOut.declarations_eq (h : TakenOut W l c) {m : Match Group Char}
    (hm : m ∈ declarations W text) (hstart : m.start = (l.front ++ l.line).length)
    (hsolid : Solid W text m) :
    ∃ ms ms', declarations W text = ms ++ m :: ms' ∧
      (declarations W (l.append c)).map (declaredName ∘ Match.groups)
        = (ms ++ ms').map (declaredName ∘ Match.groups) := by
  rw [declarations, l.searched_plain h.newline h.plain] at hm ⊢
  rw [Solid, l.searched_plain h.newline h.plain] at hsolid
  rw [declarations, h.searched]
  exact finditer_taken least_pos h.stable (quiet_of_newline c.newline_notMem_blanks) hm hstart
    hsolid

/-- The matches before one and behind it start elsewhere. -/
theorem start_ne_of_split {m : Match Group Char} {ms ms' : List (Match Group Char)}
    (hfound : declarations W text = ms ++ m :: ms') :
    ∀ m' ∈ ms ++ ms', m' ∈ declarations W text ∧ m'.start ≠ m.start := by
  have hpair : (declarations W text).Pairwise fun m m' => m.stop ≤ m'.start :=
    finditer_pairwise _ _
  have hlen : ∀ m' ∈ declarations W text, m'.start < m'.stop := by
    intro m' hm'
    obtain ⟨o, -, -, hleast, -⟩ := mem_finditer hm'
    have := @least_pos W
    rw [Match.stop]
    omega
  rw [hfound] at hpair hlen ⊢
  rw [List.pairwise_append, List.pairwise_cons] at hpair
  intro m' hm'
  rcases List.mem_append.1 hm' with hm' | hm'
  · have hin : m' ∈ ms ++ m :: ms' := List.mem_append_left _ hm'
    have hle := hpair.2.2 m' hm' m List.mem_cons_self
    have := hlen m' hin
    exact ⟨hin, by omega⟩
  · have hin : m' ∈ ms ++ m :: ms' := List.mem_append_right _ (List.mem_cons_of_mem m hm')
    have hle := hpair.2.1.1 m' hm'
    have := hlen m (List.mem_append_right _ List.mem_cons_self)
    exact ⟨hin, by omega⟩

/-- When all matches but one are found, the names are kept exactly if its name is declared by
another one. -/
theorem names_iff_of_split {t : Str} {m : Match Group Char} {ms ms' : List (Match Group Char)}
    (hfound : declarations W text = ms ++ m :: ms')
    (hmap : (declarations W t).map (declaredName ∘ Match.groups)
      = (ms ++ ms').map (declaredName ∘ Match.groups)) :
    globalNames W.isWord t = globalNames W.isWord text ↔ Repeated W text m := by
  have hothers := start_ne_of_split hfound
  have hm : m ∈ declarations W text := by
    rw [hfound]
    exact List.mem_append_right ms List.mem_cons_self
  constructor
  · intro hkept name hname
    have hmem : name ∈ globalNames W.isWord text :=
      mem_globalNames.2 (List.mem_map.2 ⟨m, hm, hname⟩)
    rw [← hkept, mem_globalNames, hmap] at hmem
    obtain ⟨m', hm', hname'⟩ := List.mem_map.1 hmem
    exact ⟨m', (hothers m' hm').1, (hothers m' hm').2, hname'⟩
  · intro hrepeated
    ext name
    rw [mem_globalNames, mem_globalNames, hmap, hfound, List.map_append, List.map_append,
      List.map_cons, List.mem_append, List.mem_append, List.mem_cons]
    constructor
    · rintro (hmem | hmem)
      · exact Or.inl hmem
      · exact Or.inr (Or.inr hmem)
    · rintro (hmem | hname | hmem)
      · exact Or.inl hmem
      · obtain ⟨m', hm', hne, hname'⟩ := hrepeated name hname.symm
        rw [hfound, List.mem_append, List.mem_cons] at hm'
        rcases hm' with hm' | rfl | hm'
        · exact Or.inl (List.mem_map.2 ⟨m', hm', hname'⟩)
        · exact absurd rfl hne
        · exact Or.inr (List.mem_map.2 ⟨m', hm', hname'⟩)
      · exact Or.inr hmem

theorem TakenOut.names_iff (h : TakenOut W l c) {m : Match Group Char}
    (hm : m ∈ declarations W text) (hstart : m.start = (l.front ++ l.line).length)
    (hsolid : Solid W text m) :
    globalNames W.isWord (l.append c) = globalNames W.isWord text ↔ Repeated W text m := by
  obtain ⟨ms, ms', hfound, hmap⟩ := h.declarations_eq hm hstart hsolid
  exact names_iff_of_split hfound hmap

theorem names_of_takenOut (h : TakenOut W l c)
    (hspared : ∀ m ∈ declarations W text, m.start = (l.front ++ l.line).length →
      Solid W text m ∧ Repeated W text m) :
    globalNames W.isWord (l.append c) = globalNames W.isWord text := by
  by_cases hat : ∃ m ∈ declarations W text, m.start = (l.front ++ l.line).length
  · obtain ⟨m, hm, hstart⟩ := hat
    exact (h.names_iff hm hstart (hspared m hm hstart).1).2 (hspared m hm hstart).2
  · refine globalNames_edit (l.searched_plain h.newline h.plain) h.searched
      (fun w Y hY _ => h.stable '\n' Y ⟨w, hY.symm⟩) c.newline_notMem_blanks fun m hm hin => ?_
    refine hat ⟨m, hm, ?_⟩
    rw [List.length_singleton] at hin
    omega

/-- A match starts with a newline. -/
theorem newline_of_found {U V : Str} (hsearched : scanned text = U ++ V) {m : Match Group Char}
    (hm : m ∈ declarations W text) (hstart : m.start = U.length) : V.head? = some '\n' := by
  obtain ⟨o, ho, -⟩ := mem_finditer hm
  rw [hsearched, hstart, List.drop_left] at ho
  cases V with
  | nil =>
    obtain ⟨used, hused, hlen, -⟩ := (parses_of_matchAt ho).used
    obtain ⟨rfl, -⟩ := List.append_eq_nil_iff.1 hused.symm
    exact absurd hlen (Nat.not_le_of_lt least_pos)
  | cons d V =>
    by_contra hd
    rw [List.head?_cons, Option.some.injEq] at hd
    rw [matchAt_cons_of_ne hd] at ho
    cases ho

theorem names_of_runTogether {k r : Str} (hnewline : l.behind ≠ [])
    (hplain : cutComment l.line = l.line) (hline : l.line = k ++ r)
    (hcut : cutComment (l.line ++ c.text) = k)
    (halike : ∀ w Y, l.front ++ k = w ++ '\n' :: Y → Reached (declarations W text) w.length →
      AlikeAt id (declaration W.isWord) declaredName l.rest (r ++ ['\n']) [] '\n' Y)
    (hno : ∀ m ∈ declarations W text, m.start ≠ (l.front ++ l.line).length) :
    globalNames W.isWord (l.append c) = globalNames W.isWord text := by
  have hsearched : scanned text = (l.front ++ k) ++ ((r ++ ['\n']) ++ l.rest) := by
    rw [l.searched_plain hnewline hplain, hline]
    simp only [List.append_assoc]
  have hlen : k.length ≤ l.line.length + c.blanks.length := by
    rw [hline, List.length_append]
    omega
  refine globalNames_edit hsearched (Line.searched_cut hnewline hcut hlen) halike
    List.not_mem_nil fun m hm hin => ?_
  -- the match would start in the slashes, or at the newline
  obtain ⟨j, hj⟩ : ∃ j, m.start = (l.front ++ k).length + j :=
    ⟨m.start - (l.front ++ k).length, by omega⟩
  have hgap : (r ++ ['\n']).length = r.length + 1 := by
    rw [List.length_append, List.length_singleton]
  rcases Nat.lt_or_ge j r.length with hlt | hge
  · have hparts : scanned text
        = (l.front ++ k ++ r.take j) ++ (r.drop j ++ '\n' :: l.rest) := by
      rw [hsearched, List.append_assoc _ (r.take j), ← List.append_assoc (r.take j),
        List.take_append_drop]
      simp only [List.append_assoc, List.singleton_append]
    have hhead := newline_of_found hparts hm (by
      simp only [hj, List.length_append, List.length_take]
      omega)
    cases hdrop : r.drop j with
    | nil =>
      rw [List.drop_eq_nil_iff] at hdrop
      omega
    | cons d x =>
      rw [hdrop, List.cons_append, List.head?_cons, Option.some.injEq] at hhead
      apply l.newline_notMem
      rw [hline]
      apply List.mem_append_right
      apply List.mem_of_mem_drop (i := j)
      rw [hdrop, hhead]
      exact List.mem_cons_self
  · apply hno m hm
    rw [hline, ← List.append_assoc, List.length_append]
    omega

/-- In front of a newline the fillings do not matter. -/
theorem fits_newline {U V g g' : Str} (hdull : ∀ x, x = g ∨ x = g' → Dull ('\n' :: V) x) :
    Fits U ('\n' :: V) g g' :=
  ⟨hdull, fun _ h => absurd h (by simp), fun _ h => absurd h (by simp)⟩

/-- A comment in an empty line takes the newline of the line before instead. -/
theorem names_of_emptyLine (hnewline : l.behind ≠ []) (hline : l.line = [])
    (hblanks : c.blanks = []) (hnote : c.note ≠ []) (hfront : l.front.getLast? = some '\n') :
    globalNames W.isWord (l.append c) = globalNames W.isWord text := by
  obtain ⟨f, hf⟩ := List.getLast?_eq_some_iff.1 hfront
  have hplain : cutComment l.line = l.line := by
    rw [hline]
    rfl
  have hsearched : scanned text = f ++ (['\n'] ++ '\n' :: l.rest) := by
    rw [l.searched_plain hnewline hplain, hline, hf]
    simp
  have hsearched' : scanned (l.append c) = f ++ ([] ++ '\n' :: l.rest) := by
    have hcut : cutComment (l.line ++ c.text) = [] := by
      obtain ⟨d, n, hn⟩ := List.exists_cons_of_ne_nil hnote
      rw [hline, Comment.text, hblanks, hn]
      rfl
    rw [Line.searched_cut hnewline hcut (Nat.zero_le _), hf]
    simp
  have hword : ¬ ('\n' :: l.rest).head?.any W.isWord = true := by
    rw [List.head?_cons, Option.any_some, W.space '\n' rfl]
    exact Bool.false_ne_true
  have hspace : ∀ x, x = ['\n'] ∨ x = [] → ∀ d ∈ x, isSpace d = true := by
    rintro x (rfl | rfl) d hd
    · rw [List.mem_singleton.1 hd]
      rfl
    · cases hd
  have hstable := stable_of_blank hspace (fun _ hV => absurd hV hword)
    (@fits_newline f l.rest _ _ fun x hx => dull_of_space (hspace x hx))
  refine globalNames_edit hsearched hsearched' (fun w Y hY _ => hstable '\n' Y ⟨w, hY.symm⟩)
    List.not_mem_nil fun m hm hin => ?_
  -- behind the newline stands another one
  obtain ⟨o, ho, -⟩ := mem_finditer hm
  have hstart : m.start = f.length := by
    rw [List.length_singleton] at hin
    omega
  rw [hsearched, hstart, List.drop_left] at ho
  have hnone := @map_matchAt_newline W ('\n' :: l.rest)
  rw [declaredAt, headAt_none hword, Option.map_eq_none_iff] at hnone
  exact absurd (hnone.symm.trans ho) (by simp)

theorem LeftIn.searched (h : LeftIn l c) :
    scanned text = (l.front ++ l.line) ++ ([] ++ '\n' :: l.rest) ∧
      scanned (l.append c) = (l.front ++ l.line) ++ (c.text ++ '\n' :: l.rest) := by
  refine ⟨l.searched_plain h.newline h.plain, ?_⟩
  rw [scanned, l.searched_append, joined_cons _ h.newline, keep, if_pos h.cut, Line.rest]
  simp only [List.append_assoc, List.singleton_append]

/-- A comment without text is text that does not end a declaration: an attempt is alike, or the
comment stands in front of the `:`, `=` or `;` of what is found without it. -/
theorem LeftIn.alikeAt_or (h : LeftIn l c) {w Y : Str} {d : Char}
    (hY : l.front ++ l.line = w ++ d :: Y) :
    AlikeAt id (declaration W.isWord) declaredName ('\n' :: l.rest) [] c.text d Y ∨
      d = '\n' ∧ (∀ e ∈ Y, isHead W.isWord e = true) ∧
        ∃ o v, matchAt id (declaration W.isWord) ('\n' :: (Y ++ ([] ++ '\n' :: l.rest))) = some o ∧
          '\n' :: l.rest = v ++ o.rest ∧ v ≠ [] := by
  by_cases hd : d = '\n'
  · subst hd
    by_cases hall : ∀ e ∈ Y, isHead W.isWord e = true
    · cases hat : declaredAt W.isWord (Y ++ '\n' :: l.rest) with
      | none =>
        exact Or.inl (alikeAt_of_stays (stays_of_slash (fun e he => (c.blank e he).1) hall hat))
      | some r =>
        refine Or.inr ⟨rfl, hall, ?_⟩
        obtain ⟨n, r⟩ := r
        obtain ⟨o, ho, -, hrest⟩ := matchAt_of_declaredAt hat
        have hsuf := declaredAt_suffix hat
        have hnewline : isHead W.isWord '\n' = true := isHead_of_isSpace rfl
        rw [List.dropWhile_append_of_pos hall, List.dropWhile_cons_of_pos hnewline] at hsuf
        obtain ⟨v, hv⟩ := hsuf.trans (List.dropWhile_suffix _)
        refine ⟨o, '\n' :: v, ho, ?_, List.cons_ne_nil _ _⟩
        rw [hrest, List.cons_append, hv]
    · left
      have hdull : ∀ x, x = [] ∨ x = c.text → Dull ('\n' :: l.rest) x := by
        rintro x (rfl | rfl)
        · exact dull_of_space fun e he => absurd he List.not_mem_nil
        · have hslashes : Dull ('\n' :: l.rest) ['/', '/'] := ⟨by simp, Or.inl (by simp)⟩
          rw [Comment.text, h.bare]
          exact (dull_of_space fun e he => (c.blank e he).1).append hslashes
      exact alikeAt_of_stays (stays_of_solid (fits_newline hdull)
        ((List.suffix_cons '\n' Y).trans ⟨w, hY.symm⟩) (exists_solid hall))
  · exact Or.inl (alikeAt_of_ne hd)

/-- With a comment behind words, nothing is found. -/
theorem quiet_of_head {Y : Str} (hall : ∀ e ∈ Y, isHead W.isWord e = true) (V : Str) :
    Quiet id (declaration W.isWord) ('\n' :: Y ++ c.text) V := by
  rintro d X ⟨x, hx⟩
  by_cases hd : d = '\n'
  · subst hd
    rcases List.append_eq_append_iff.1 hx with ⟨a, hY, hX⟩ | ⟨a, -, htext⟩
    · cases a with
      | nil =>
        refine absurd ?_ c.newline_notMem_text
        rw [← List.nil_append c.text, ← hX]
        exact List.mem_cons_self
      | cons e a =>
        rw [List.cons_append, List.cons.injEq] at hX
        have ha : ∀ f ∈ a, isHead W.isWord f = true := by
          intro f hf
          have hmem : f ∈ '\n' :: Y := by
            rw [hY]
            exact List.mem_append_right x (List.mem_cons_of_mem e hf)
          rcases List.mem_cons.1 hmem with rfl | hmem
          · exact isHead_of_isSpace rfl
          · exact hall f hmem
        rw [hX.2, Comment.text, List.append_assoc, List.append_assoc, ← Option.map_eq_none_iff,
          map_matchAt_newline]
        exact declaredAt_slash (fun f hf => (c.blank f hf).1) ha
    · refine absurd ?_ c.newline_notMem_text
      rw [htext]
      exact List.mem_append_right a List.mem_cons_self
  · exact matchAt_cons_of_ne hd _

/-- All matches but the one that the comment stands in are found. -/
theorem LeftIn.declarations_eq (h : LeftIn l c) {m : Match Group Char}
    (hm : m ∈ declarations W text) (hover : OverEnd W l m) (hsolid : Solid W text m) :
    ∃ ms ms', declarations W text = ms ++ m :: ms' ∧
      (declarations W (l.append c)).map (declaredName ∘ Match.groups)
        = (ms ++ ms').map (declaredName ∘ Match.groups) := by
  obtain ⟨w, Y, hY, hstart, hall⟩ := hover
  rw [declarations, h.searched.1] at hm ⊢
  rw [Solid, h.searched.1] at hsolid
  rw [declarations, h.searched.2]
  refine finditer_lost least_pos hY (fun x d Z hZ => ?_) ?_ (quiet_of_head hall _) hm hstart hsolid
  · rcases h.alikeAt_or hZ with halike | ⟨rfl, -, hopen⟩
    · exact Or.inl halike
    · exact Or.inr hopen
  · intro halike
    obtain ⟨o, ho, -⟩ := mem_finditer hm
    rw [hstart, hY, List.append_assoc, List.drop_left, List.cons_append] at ho
    have hnone := quiet_of_head (c := c) hall ('\n' :: l.rest) '\n' (Y ++ c.text) List.suffix_rfl
    rw [List.append_assoc] at hnone
    rw [AlikeAt, ho, hnone] at halike
    cases halike

theorem LeftIn.names_iff (h : LeftIn l c) {m : Match Group Char}
    (hm : m ∈ declarations W text) (hover : OverEnd W l m) (hsolid : Solid W text m) :
    globalNames W.isWord (l.append c) = globalNames W.isWord text ↔ Repeated W text m := by
  obtain ⟨ms, ms', hfound, hmap⟩ := h.declarations_eq hm hover hsolid
  exact names_iff_of_split hfound hmap

theorem names_of_leftIn (h : LeftIn l c)
    (hspared : ∀ m ∈ declarations W text, OverEnd W l m → Solid W text m ∧ Repeated W text m) :
    globalNames W.isWord (l.append c) = globalNames W.isWord text := by
  by_cases hat : ∃ m ∈ declarations W text, OverEnd W l m
  · obtain ⟨m, hm, hover⟩ := hat
    exact (h.names_iff hm hover (hspared m hm hover).1).2 (hspared m hm hover).2
  · refine globalNames_edit h.searched.1 h.searched.2 (fun w Y hY hreached => ?_)
      c.newline_notMem_text fun m _ hin => ?_
    · refine (h.alikeAt_or hY).resolve_right fun hopen => ?_
      -- a declaration would be found here
      obtain ⟨-, hall, o, v, ho, -⟩ := hopen
      have hscan := @scans_finditer _ _ id (declaration W.isWord) least_pos (scanned text)
      obtain ⟨m, hm, hstart, -⟩ := hscan.found (w := w) (c := '\n') (by
        rw [h.searched.1, hY, List.append_assoc, List.cons_append])
        (by rwa [Nat.zero_add]) ho
      rw [Nat.zero_add] at hstart
      exact hat ⟨m, hm, w, Y, hY, hstart, hall⟩
    · rw [List.length_nil] at hin
      omega

/-! ## The last line -/

theorem Line.searched_last (hlast : l.behind = []) :
    scanned text = (l.front ++ l.line) ++ ([] ++ []) ∧
      scanned (l.append c) = (l.front ++ l.line) ++ (c.text ++ []) := by
  constructor
  · rw [scanned, l.searched, hlast]
    exact (List.append_nil _).symm
  · rw [scanned, l.searched_append, hlast, List.append_nil, List.append_assoc]
    rfl

/-- An attempt that is alike closes nothing. -/
theorem Closed.not_alike {w Y : Str} {o : State Group Char} (h : Closed W l c w Y o) :
    ¬ AlikeAt id (declaration W.isWord) declaredName [] [] c.text '\n' Y := by
  intro halike
  rw [AlikeAt, List.append_nil, List.append_nil, List.append_nil, h.fails, h.closes] at halike
  cases halike

/-- A declaration that is closed goes on to the comment. -/
theorem Closed.rest_suffix {w Y : Str} {o : State Group Char} (h : Closed W l c w Y o) :
    o.rest <:+ c.text := by
  obtain ⟨-, o', ho', hrest⟩ := (alikeAt_or_open (fun d hd => (c.blank d hd).1)
    c.newline_notMem_text Y).resolve_left h.not_alike
  rw [List.append_nil] at ho'
  obtain rfl : o' = o := Option.some.inj (ho'.symm.trans h.closes)
  exact hrest

/-- The comment closes one declaration at most. -/
theorem Closed.unique {w w' Y Y' : Str} {o o' : State Group Char} (h : Closed W l c w Y o)
    (h' : Closed W l c w' Y' o') (hle : w.length ≤ w'.length) : o' = o := by
  have hsame : w.length = w'.length := by
    by_contra hne
    exact h'.first w Y o h.eq (Nat.lt_of_le_of_ne hle hne) h.reached h.closes h.rest_suffix
  obtain ⟨-, hY⟩ := List.append_inj (h.eq.symm.trans h'.eq) hsame
  rw [List.cons.injEq] at hY
  have hcloses := h'.closes
  rw [← hY.2, h.closes, Option.some.injEq] at hcloses
  exact hcloses.symm

/-- The two scans of a last line. -/
theorem scans_lastLine (hlast : l.behind = []) :
    Scans id (declaration W.isWord) 0 ((l.front ++ l.line) ++ ([] ++ [])) (declarations W text) ∧
      Scans id (declaration W.isWord) 0 ((l.front ++ l.line) ++ (c.text ++ []))
        (declarations W (l.append c)) := by
  obtain ⟨hsearched, hsearched'⟩ := @Line.searched_last _ l c hlast
  rw [← hsearched, ← hsearched']
  exact ⟨scans_finditer least_pos _, scans_finditer least_pos _⟩

/-- The search comes to it with the comment. -/
theorem Closed.reached_append (hlast : l.behind = []) {w Y : Str} {o : State Group Char}
    (h : Closed W l c w Y o) : Reached (declarations W (l.append c)) (0 + w.length) := by
  obtain ⟨hscan, hscan'⟩ := @scans_lastLine W _ l c hlast
  have hstays : StaysTo id (declaration W.isWord) [] c.text 0 (l.front ++ l.line)
      (declarations W text) w.length := by
    intro w' d Z o' hY hlt hreached ho'
    rw [Nat.zero_add] at hreached
    by_cases hd : d = '\n'
    · subst hd
      rw [List.append_nil] at ho' ⊢
      exact h.first w' Z o' hY hlt hreached ho'
    · rw [matchAt_cons_of_ne hd] at ho'
      cases ho'
  have halike : AlikeTo id (declaration W.isWord) declaredName [] [] c.text 0
      (l.front ++ l.line) (declarations W text) w.length := by
    intro w' d Z hY hlt hreached
    by_cases hd : d = '\n'
    · subst hd
      refine (alikeAt_or_open (fun e he => (c.blank e he).1)
        c.newline_notMem_text Z).resolve_right ?_
      rintro ⟨-, o', ho', hrest⟩
      refine hstays w' '\n' Z o' hY hlt hreached ho' ?_
      rwa [List.append_nil]
    · exact alikeAt_of_ne hd
  refine hscan.reached (le_refl _) hscan' ?_ halike hstays ?_
  · rw [h.eq, List.length_append, List.length_cons]
    omega
  · rw [Nat.zero_add]
    exact h.reached

/-- Where the scans part at a newline, only the one with the comment finds something. -/
theorem closed_of_parts {w X : Str} {ms₀ ms₀' ms₁ ms₁' : List (Match Group Char)}
    (hlast : l.behind = []) (heq : l.front ++ l.line = w ++ '\n' :: X)
    (hms : declarations W text = ms₀ ++ ms₁) (hms' : declarations W (l.append c) = ms₀' ++ ms₁')
    (hfront : AlikeTo id (declaration W.isWord) declaredName [] [] c.text 0 (l.front ++ l.line)
      (declarations W (l.append c)) w.length)
    (hstop : ∀ m ∈ ms₀, m.start < 0 + w.length ∧ m.stop ≤ 0 + w.length)
    (hstop' : ∀ m ∈ ms₀', m.start < 0 + w.length ∧ m.stop ≤ 0 + w.length)
    (hdiffer : ¬ AlikeAt id (declaration W.isWord) declaredName [] [] c.text '\n' X)
    (hs : Scans id (declaration W.isWord) (0 + w.length) ('\n' :: X ++ ([] ++ [])) ms₁)
    (hs' : Scans id (declaration W.isWord) (0 + w.length) ('\n' :: X ++ (c.text ++ [])) ms₁') :
    Quiet id (declaration W.isWord) ('\n' :: X) [] ∧
      ∃ o t, Closed W l c w X o ∧ ms₁' = [⟨0 + w.length, t, o.groups⟩] := by
  obtain ⟨hquiet, o, ho, hrest⟩ := (alikeAt_or_open (fun d hd => (c.blank d hd).1)
    c.newline_notMem_text X).resolve_left hdiffer
  have hreached := Reached.parts hstop hs
  rw [← hms] at hreached
  have hreached' := Reached.parts hstop' hs'
  rw [← hms'] at hreached'
  have hfails := hquiet '\n' X List.suffix_rfl
  rw [List.append_nil] at hfails
  have hrest' : Quiet id (declaration W.isWord) o.rest [] :=
    quiet_of_newline fun hmem => c.newline_notMem_text (hrest.subset hmem)
  rw [List.cons_append] at hs'
  obtain ⟨t, -, hms₁⟩ := hs'.of_hit ho hrest'
  obtain ⟨hscan, hscan'⟩ := @scans_lastLine W _ l c hlast
  have hlt : w.length < (l.front ++ l.line).length := by
    rw [heq, List.length_append, List.length_cons]
    omega
  have hstays := hscan.staysTo hscan' hlt hfront hreached'
  rw [List.append_nil] at ho
  rw [Nat.zero_add] at hreached
  refine ⟨hquiet, o, t, ⟨heq, hreached, hfails, ho, fun w' Y' o' hY hlt hr ho' hsuf => ?_⟩, hms₁⟩
  refine hstays w' '\n' Y' o' hY hlt (by rwa [Nat.zero_add]) ?_ ?_
  · rwa [List.append_nil]
  · rwa [List.append_nil]

/-- Behind the last line, the comment closes no declaration, or one. -/
theorem declarations_lastLine (hlast : l.behind = []) :
    ((∀ w Y o, ¬ Closed W l c w Y o) ∧
        (declarations W (l.append c)).map (declaredName ∘ Match.groups)
          = (declarations W text).map (declaredName ∘ Match.groups)) ∨
      ∃ w Y o, Closed W l c w Y o ∧ (∀ w' Y' o', Closed W l c w' Y' o' → o' = o) ∧
        (declarations W (l.append c)).map (declaredName ∘ Match.groups)
          = (declarations W text).map (declaredName ∘ Match.groups) ++ [declaredName o.groups] := by
  obtain ⟨hscan, hscan'⟩ := @scans_lastLine W _ l c hlast
  obtain ⟨ms', hms', hcourse⟩ := @Scans.course _ _ _ id (declaration W.isWord) declaredName [] []
    c.text (l.front ++ l.line) least_pos _ 0 _ (le_refl _) hscan 0
  obtain rfl := hms'.unique hscan'
  cases hcourse with
  | across hfront _ hview _ =>
    refine Or.inl ⟨fun w Y o hclosed => hclosed.not_alike ?_, hview⟩
    refine hfront w '\n' Y hclosed.eq ?_ (hclosed.reached_append hlast)
    rw [hclosed.eq, List.length_append, List.length_cons]
    omega
  | @parts w Z ms₀ ms₁ ms₀' ms₁' hY hms hms'' hfront hview hstop hstop' hdiffer hs hs' =>
    have hbehind : ∀ {w' Y o}, Closed W l c w' Y o → w.length ≤ w'.length := by
      intro w' Y o hclosed
      by_contra hlt
      exact hclosed.not_alike (hfront w' '\n' Y hclosed.eq (Nat.lt_of_not_le hlt)
        (hclosed.reached_append hlast))
    cases Z with
    | nil =>
      rw [List.append_nil] at hY
      refine Or.inl ⟨fun w' Y o hclosed => ?_, ?_⟩
      · have hle := hbehind hclosed
        rw [← hY, hclosed.eq, List.length_append, List.length_cons] at hle
        omega
      · rw [hms, hms'', hs.of_quiet (quiet_of_newline List.not_mem_nil),
          hs'.of_quiet (quiet_of_newline (by simpa using c.newline_notMem_text)),
          List.append_nil, List.append_nil, hview]
    | cons d X =>
      obtain rfl : d = '\n' := by
        by_contra hd
        exact hdiffer d X rfl (alikeAt_of_ne hd)
      obtain ⟨hquiet, o, t, hclosed, hms₁'⟩ :=
        closed_of_parts hlast hY hms hms'' hfront hstop hstop' (hdiffer '\n' X rfl) hs hs'
      rw [List.append_nil, List.append_nil] at hs
      refine Or.inr ⟨w, X, o, hclosed, fun w' Y' o' hclosed' =>
        hclosed.unique hclosed' (hbehind hclosed'), ?_⟩
      rw [hms, hms'', hs.of_quiet hquiet, hms₁', List.append_nil, List.map_append, hview]
      rfl

/-- The names of the last line. -/
theorem names_lastLine_iff (hlast : l.behind = []) :
    globalNames W.isWord (l.append c) = globalNames W.isWord text ↔
      ∀ w Y o, Closed W l c w Y o → ∀ name, declaredName o.groups = some name →
        ∃ m ∈ declarations W text, declaredName m.groups = some name := by
  rcases declarations_lastLine (W := W) (l := l) (c := c) hlast with ⟨hnone, hmap⟩ |
    ⟨w, Y, o, hclosed, hunique, hmap⟩
  · exact iff_of_true (globalNames_congr hmap) fun w Y o h => absurd h (hnone w Y o)
  · constructor
    · intro hkept w' Y' o' hclosed' name hname
      rw [hunique w' Y' o' hclosed'] at hname
      have hmem : name ∈ globalNames W.isWord (l.append c) := by
        rw [mem_globalNames, hmap, List.mem_append, List.mem_singleton]
        exact Or.inr hname.symm
      rw [hkept, mem_globalNames] at hmem
      exact List.mem_map.1 hmem
    · intro hrepeated
      ext name
      rw [mem_globalNames, mem_globalNames, hmap, List.mem_append, List.mem_singleton]
      constructor
      · rintro (hmem | hname)
        · exact hmem
        · exact List.mem_map.2 (hrepeated w Y o hclosed name hname.symm)
      · exact Or.inl

/-! ## All lines -/

/-- Without slash at its end, a line ends where it did. -/
theorem cutComment_append_of_ne {s : Str} (h : cutComment s = s) (hslash : s.getLast? ≠ some '/')
    (t : Str) : cutComment (s ++ t) = s ++ cutComment t := by
  fun_induction cutComment s with
  | case1 d r => cases h
  | case2 c s hs ih =>
    rw [List.cons.injEq] at h
    have hnot : ∀ d r, c = '/' → s ++ t = '/' :: d :: r → False := by
      rintro d r rfl happ
      cases s with
      | nil => exact hslash rfl
      | cons a s =>
        rw [List.cons_append, List.cons.injEq] at happ
        cases s with
        | nil => exact hslash (congrArg some happ.1)
        | cons b s => exact hs b s rfl (by rw [happ.1])
    rw [List.cons_append, cutComment_cons hnot, List.cons_append]
    cases s with
    | nil => rfl
    | cons a s => rw [ih h.2 hslash]
  | case3 => rfl

theorem cutComment_of_notMem {s : Str} (h : '/' ∉ s) : cutComment s = s := by
  induction s with
  | nil => rfl
  | cons c s ih =>
    have hnot : ∀ d r, c = '/' → s = '/' :: d :: r → False := by
      rintro d r rfl -
      exact h List.mem_cons_self
    rw [cutComment_cons hnot, ih fun hmem => h (List.mem_cons_of_mem c hmem)]

/-- Behind a line without slash at its end, the comment is cut off by itself. -/
theorem Ordinary.cut_eq (h : Ordinary W l c) (hplain : cutComment l.line = l.line) :
    cutComment (l.line ++ c.text) = l.line ++ (c.blanks ++ cutComment ('/' :: '/' :: c.note)) := by
  have hblanks : '/' ∉ c.blanks := by
    intro hmem
    exact absurd (c.blank '/' hmem).1 (by decide)
  have hlast : c.blanks.getLast? ≠ some '/' :=
    fun hlast => hblanks (List.mem_of_getLast? hlast)
  rw [cutComment_append_of_ne hplain h.slash, Comment.text,
    cutComment_append_of_ne (cutComment_of_notMem hblanks) hlast]

theorem Ordinary.takenOut (h : Ordinary W l c) (hnewline : l.behind ≠ [])
    (hplain : cutComment l.line = l.line) (hnote : c.note ≠ []) : TakenOut W l c := by
  refine ⟨hnewline, hplain, ?_, h.joins hnote⟩
  obtain ⟨d, n, hn⟩ := List.exists_cons_of_ne_nil hnote
  rw [h.cut_eq hplain, hn]
  exact congrArg (l.line ++ ·) (List.append_nil _)

theorem Ordinary.leftIn (h : Ordinary W l c) (hnewline : l.behind ≠ [])
    (hplain : cutComment l.line = l.line) (hnote : c.note = []) : LeftIn l c := by
  refine ⟨hnewline, hplain, hnote, ?_⟩
  rw [h.cut_eq hplain, Comment.text, hnote]
  rfl

/-- A harmless comment does not change the names; and one that does not change them is harmless,
on the last line, behind another comment, and where line and comment are ordinary. -/
theorem names_kept_iff (W : WordClass) {text : Str} (l : Line text) (c : Comment) :
    (Harmless W l c → globalNames W.isWord (l.append c) = globalNames W.isWord text) ∧
      ((l.behind ≠ [] → cutComment l.line = l.line → Ordinary W l c) →
        globalNames W.isWord (l.append c) = globalNames W.isWord text → Harmless W l c) := by
  constructor
  · intro h
    cases h with
    | commented hnewline hcomment =>
      apply globalNames_congr
      rw [declarations, declarations, scanned, scanned, l.searched_append, l.searched,
        joined_cons _ hnewline, joined_cons _ hnewline, keep_append hcomment]
    | takenOut h hspared => exact names_of_takenOut h hspared
    | runTogether k r hnewline hplain hline hcut halike hno =>
      exact names_of_runTogether hnewline hplain hline hcut halike hno
    | emptyLine hnewline hline hblanks hnote hfront =>
      exact names_of_emptyLine hnewline hline hblanks hnote hfront
    | leftIn h hspared => exact names_of_leftIn h hspared
    | lastLine hlast hclosed => exact (names_lastLine_iff hlast).2 hclosed
  · intro hordinary hkept
    by_cases hlast : l.behind = []
    · exact .lastLine hlast ((names_lastLine_iff hlast).1 hkept)
    · by_cases hplain : cutComment l.line = l.line
      · have h := hordinary hlast hplain
        by_cases hnote : c.note = []
        · have hleft := h.leftIn hlast hplain hnote
          refine .leftIn hleft fun m hm hover => ?_
          have hsolid := h.solid m hm (Or.inr hover)
          exact ⟨hsolid, (hleft.names_iff hm hover hsolid).1 hkept⟩
        · have htaken := h.takenOut hlast hplain hnote
          refine .takenOut htaken fun m hm hstart => ?_
          have hsolid := h.solid m hm (Or.inl hstart)
          exact ⟨hsolid, (htaken.names_iff hm hstart hsolid).1 hkept⟩
      · exact .commented hlast hplain

end

/-! ## Two constants -/

theorem isAsciiWord_of_isSpace (c : Char) (h : isSpace c = true) : Text.isAsciiWord c = false := by
  have hall : (lit "abcdefghijklmnopqrstuvwxyzABCDEFGHIJKLMNOPQRSTUVWXYZ0123456789_" rfl).all
      (fun c => !isSpace c) = true := by
    decide +kernel
  by_contra hword
  rw [Bool.not_eq_false, Text.isAsciiWord, List.contains_iff_mem] at hword
  have hnot := List.all_eq_true.1 hall c hword
  rw [h] at hnot
  cases hnot

theorem isAsciiWord_mark : ∀ c ∈ [':', '=', ';', '/'], Text.isAsciiWord c = false := by
  have hall : [':', '=', ';', '/'].all (fun c => !Text.isAsciiWord c) = true := by decide +kernel
  intro c hc
  simpa using List.all_eq_true.1 hall c hc

theorem isAsciiWord_qualifier : ∀ q ∈ qualifiers, ∀ c ∈ q.2, Text.isAsciiWord c = true := by
  have hall : (qualifiers.all fun q => q.2.all Text.isAsciiWord) = true := by decide +kernel
  intro q hq c hc
  exact List.all_eq_true.1 (List.all_eq_true.1 hall q hq) c hc

theorem isSpace_blank : ∀ c ∈ [' '], isSpace c = true ∧ c ≠ '\n' ∧ c ≠ '\r' := by
  intro c hc
  rw [List.mem_singleton.1 hc]
  exact ⟨rfl, by decide, by decide⟩

/-- The word characters of ASCII. -/
def asciiWords : WordClass where
  isWord := Text.isAsciiWord
  space := isAsciiWord_of_isSpace
  marks := isAsciiWord_mark
  qualifiers := isAsciiWord_qualifier

/-- A constant, and another one in the next line. -/
def twoConstants : Str := lit "\nconst A: u8 = 1;\nconst B: u8 = 2;\n" rfl

/-- The line of the first one. -/
def firstConstant : Line twoConstants where
  before := [[]]
  line := lit "const A: u8 = 1;" rfl
  behind := [lit "const B: u8 = 2;" rfl, []]
  eq := by decide +kernel

/-- ` // one` -/
def shortComment : Comment where
  blanks := [' ']
  note := lit " one" rfl
  blank := isSpace_blank
  oneLine := by decide +kernel

/-- Two constants with an empty line between them. -/
def spacedConstants : Str := lit "\nconst A: u8 = 1;\n\nconst B: u8 = 2;\n" rfl

/-- The line of the first one. -/
def spacedConstant : Line spacedConstants where
  before := [[]]
  line := lit "const A: u8 = 1;" rfl
  behind := [[], lit "const B: u8 = 2;" rfl, []]
  eq := by decide +kernel

theorem spacedConstant_takenOut : TakenOut asciiWords spacedConstant shortComment where
  newline := List.cons_ne_nil _ _
  plain := by decide +kernel
  cut := by decide +kernel
  joins h := absurd h (List.cons_ne_nil _ _)

theorem spacedConstant_harmless : Harmless asciiWords spacedConstant shortComment := by
  refine .takenOut spacedConstant_takenOut fun m hm hstart => ?_
  have hall : ((declarations asciiWords spacedConstants).all fun m => m.start ≠ 17) = true := by
    decide +kernel
  have hlength : (spacedConstant.front ++ spacedConstant.line).length = 17 := by decide +kernel
  rw [hlength] at hstart
  exact absurd hstart (by simpa using List.all_eq_true.1 hall m hm)

theorem spacedConstant_ordinary : Ordinary asciiWords spacedConstant shortComment where
  slash := by decide +kernel
  joins _ h := absurd h (List.cons_ne_nil _ _)
  solid m hm _ p hlt hstop := by
    have hall : ((declarations asciiWords spacedConstants).all fun m =>
        (List.range m.stop).all fun p => p ≤ m.start ∨
          (matchAt id (declaration Text.isAsciiWord) ((scanned spacedConstants).drop p)).isNone)
        = true := by
      decide +kernel
    have hp := List.all_eq_true.1 (List.all_eq_true.1 hall m hm) p (List.mem_range.2 hstop)
    rw [decide_eq_true_eq] at hp
    exact Option.isNone_iff_eq_none.1 (hp.resolve_left (Nat.not_le_of_lt hlt))

/-- A constant in the last line. -/
def oneConstant : Str := lit "\nconst A: u8 = 1;" rfl

def lastConstant : Line oneConstant where
  before := [[]]
  line := lit "const A: u8 = 1;" rfl
  behind := []
  eq := by decide +kernel

/-- ` // a; b` -/
def closingComment : Comment where
  blanks := [' ']
  note := lit " a; b" rfl
  blank := isSpace_blank
  oneLine := by decide +kernel

theorem lastConstant_harmless : Harmless asciiWords lastConstant closingComment := by
  refine .lastLine rfl fun w Y o hclosed => ?_
  have hfront : lastConstant.front ++ lastConstant.line
      = '\n' :: lit "const A: u8 = 1;" rfl := by
    decide +kernel
  have heq := hclosed.eq
  rw [hfront] at heq
  cases w with
  | nil =>
    rw [List.nil_append, List.cons.injEq] at heq
    have hfails := hclosed.fails
    rw [← heq.2] at hfails
    have hsome : (matchAt id (declaration Text.isAsciiWord)
        ('\n' :: lit "const A: u8 = 1;" rfl)).isSome = true := by
      decide +kernel
    rw [show asciiWords.isWord = Text.isAsciiWord from rfl] at hfails
    rw [hfails] at hsome
    cases hsome
  | cons d w =>
    rw [List.cons_append, List.cons.injEq] at heq
    have hmem : '\n' ∈ lit "const A: u8 = 1;" rfl := by
      rw [heq.2]
      exact List.mem_append_right w List.mem_cons_self
    exact absurd hmem (by decide +kernel)

theorem names_kept_iff_constants :
    globalNames asciiWords.isWord (spacedConstant.append shortComment)
        = globalNames asciiWords.isWord spacedConstants ∧
      globalNames asciiWords.isWord (lastConstant.append closingComment)
        = globalNames asciiWords.isWord oneConstant ∧
      Harmless asciiWords spacedConstant shortComment :=
  ⟨(names_kept_iff asciiWords spacedConstant shortComment).1 spacedConstant_harmless,
    (names_kept_iff asciiWords lastConstant closingComment).1 lastConstant_harmless,
    (names_kept_iff asciiWords spacedConstant shortComment).2 (fun _ _ => spacedConstant_ordinary)
      ((names_kept_iff asciiWords spacedConstant shortComment).1 spacedConstant_harmless)⟩

/-- The second constant is lost. -/
theorem constant_lost :
    ¬ ∀ (W : WordClass) (text : Str) (l : Line text) (c : Comment),
      globalNames W.isWord (l.append c) = globalNames W.isWord text := by
  intro h
  have hnames := h asciiWords twoConstants firstConstant shortComment
  have hfound : lit "B" rfl ∈ globalNames asciiWords.isWord twoConstants := by
    have hsome : ((findGlobalVar Text.isAsciiWord twoConstants).get? (lit "B" rfl)).isSome
        = true := by
      decide +kernel
    exact hsome
  rw [← hnames] at hfound
  have hnone : ((findGlobalVar Text.isAsciiWord (firstConstant.append shortComment)).get?
      (lit "B" rfl)).isSome = false := by
    decide +kernel
  exact absurd (hnone.symm.trans hfound) Bool.false_ne_true

end GlobalVars
