import Rustle.Source.GlobalVars

/-!
# Where a global variable is declared

What the pattern of `findGlobalVar` matches behind a newline, read off the text without
backtracking.

* `typeStop`, `tailStop` — where a declaration ends, behind its name.
* `headAt`, `declaredAt` — the words in front, of which the last one is the name.
* `map_matchAt_newline` — this is what the matcher finds.
-/

namespace GlobalVars

open Backtrack Pattern
open Text (lit isSpace)

/-! ## Where a declaration ends -/

/-- Where a value ends, behind its `=`. -/
def valueStop (s : Str) : Option Str :=
  if s.head? = some ';' then none else (s.dropWhile (· != ';')).tail?

/-- Where a declaration ends, at its `=` or its `;`. -/
def endStop : Str → Option Str
  | [] => none
  | c :: s => if c = '=' then valueStop s else if c = ';' then some s else none

/-- Where a declaration ends, behind the `:` of its type: with the value, or else with the
last `;` in front of the first `=`. -/
def typeStop : Str → Option Str
  | [] => none
  | c :: s => if c = '=' then none else (typeStop s).or (endStop (s.dropWhile isSpace))

/-- Where a declaration ends, behind its name. -/
def tailStop : Str → Option Str
  | [] => none
  | c :: s => if c = ':' then typeStop s else endStop (c :: s)

/-- What is looked at: the name, and where the match ends. -/
def shown (o : State Group Char) : Option (Option Str × Str) := some (declaredName o.groups, o.rest)

theorem run_semicolon (s : Str) (groups : List (Group × Str)) :
    run id (.char (· == ';')) shown ⟨s, groups⟩
      = if s.head? = some ';' then s.tail?.map (declaredName groups, ·) else none := by
  rw [run]
  cases s with
  | nil => rfl
  | cons c s => simp [shown]

theorem isSpace_mark {c : Char} (h : isSpace c = true) : c ≠ ':' ∧ c ≠ '=' ∧ c ≠ ';' := by
  refine ⟨?_, ?_, ?_⟩
  all_goals
    rintro rfl
    exact absurd h (by decide)

/-- White space in front of what `k` reads: the reading goes on behind it, or starts in it. -/
theorem run_many_space {β : Type} {k : State Group Char → Option β} {f g : Str → Option β}
    {groups : List (Group × Str)} (hk : ∀ s, k ⟨s, groups⟩ = g s) (hnil : g [] = f [])
    (hspace : ∀ c s, isSpace c = true → (f s).or (g (c :: s)) = f (c :: s))
    (hsolid : ∀ c s, ¬ isSpace c = true → g (c :: s) = f (c :: s)) (s : Str) :
    run id (.many space) k ⟨s, groups⟩ = f s := by
  induction s with
  | nil =>
    rw [space, run_many_nil, hk, hnil]
  | cons c s ih =>
    rw [space, run_many_cons, ← space, ih, hk, id_eq]
    split
    · rename_i hc
      rw [Option.orElse_eq_or, hspace c s hc]
    · rename_i hc
      exact hsolid c s hc

/-- A value may as well start behind white space. -/
theorem valueStop_cons {c : Char} {s r : Str} (hc : c ≠ ';') (h : valueStop s = some r) :
    valueStop (c :: s) = some r := by
  rw [valueStop] at h
  split at h
  · cases h
  · rw [valueStop, if_neg (by simpa using hc), List.dropWhile_cons_of_pos (by simpa using hc)]
    exact h

theorem run_value (s : Str) (groups : List (Group × Str)) :
    run id (.seq (.many space) (.group .value3 (many1 (.char (· != ';')))))
      (run id (.char (· == ';')) shown) ⟨s, groups⟩
        = (valueStop s).map (declaredName groups, ·) := by
  have hgroup : ∀ (s : Str), run id (.group .value3 (many1 (.char (· != ';'))))
      (run id (.char (· == ';')) shown) ⟨s, groups⟩
        = (valueStop s).map (declaredName groups, ·) := by
    intro s
    rw [run, run_many1_char]
    · cases s with
      | nil => rfl
      | cons c s =>
        rw [run_semicolon, declaredName_cons (Or.inr rfl), valueStop]
        by_cases hc : c = ';'
        · simp [hc]
        · have htail : ∀ t : Str, (if (t.dropWhile (· != ';')).head? = some ';' then
              (t.dropWhile (· != ';')).tail?.map (declaredName groups, ·) else none)
                = (t.dropWhile (· != ';')).tail?.map (declaredName groups, ·) := by
            intro t
            cases h : t.dropWhile (· != ';') with
            | nil => rfl
            | cons d t' =>
              have hd := List.head?_dropWhile_not (· != ';') t
              rw [h] at hd
              simpa using hd
          have hhead : (c :: s).head? ≠ some ';' := by simpa using hc
          rw [if_neg hhead, ← htail]
          simp [hc]
    · intro c s groups hc
      rw [run_semicolon, if_neg]
      simpa using hc
  rw [run]
  apply run_many_space hgroup rfl
  · intro c s hc
    have hsemi : c ≠ ';' := (isSpace_mark hc).2.2
    cases h : valueStop s with
    | none => rfl
    | some r =>
      rw [valueStop_cons hsemi h]
      rfl
  · intro c s _
    rfl

/-- The rest of the pattern behind the type. -/
theorem run_end (s : Str) (groups : List (Group × Str)) :
    run id (.seq valuePart (.char (· == ';'))) shown ⟨s, groups⟩
      = (endStop s).map (declaredName groups, ·) := by
  have hopt : run id (.seq valuePart (.char (· == ';'))) shown ⟨s, groups⟩
      = (run id (.char (· == '=')) (run id (.seq (.many space)
          (.group .value3 (many1 (.char (· != ';'))))) (run id (.char (· == ';')) shown))
          ⟨s, groups⟩).orElse fun _ => run id (.char (· == ';')) shown ⟨s, groups⟩ := rfl
  rw [hopt, run, run_semicolon]
  cases s with
  | nil => rfl
  | cons c s =>
    dsimp only
    rw [run_value, endStop]
    by_cases hc : c = '='
    · subst hc
      simp
    · by_cases hs : c = ';'
      · subst hs
        simp
      · simp [hc, hs]

theorem endStop_space {c : Char} (hc : isSpace c = true) (s : Str) : endStop (c :: s) = none := by
  obtain ⟨-, hne, hne'⟩ := isSpace_mark hc
  rw [endStop, if_neg hne, if_neg hne']

theorem run_space_end (s : Str) (groups : List (Group × Str)) :
    run id (.seq (.many space) (.seq valuePart (.char (· == ';')))) shown ⟨s, groups⟩
      = (endStop (s.dropWhile isSpace)).map (declaredName groups, ·) := by
  rw [run, space, run_many_char, run_end]
  · rfl
  · intro c s groups hc
    have hnone : endStop (c :: s) = none := endStop_space hc s
    rw [run_end, hnone]
    rfl

/-- The type, with the white space in front of it. -/
theorem run_type (s : Str) (groups : List (Group × Str)) :
    run id (.seq (.many space) (.group .type2 (many1 (.char (· != '=')))))
      (run id (.seq (.many space) (.seq valuePart (.char (· == ';')))) shown) ⟨s, groups⟩
        = (typeStop s).map (declaredName groups, ·) := by
  have hgroup : ∀ (s : Str), run id (.group .type2 (many1 (.char (· != '='))))
      (run id (.seq (.many space) (.seq valuePart (.char (· == ';')))) shown) ⟨s, groups⟩
        = (typeStop s).map (declaredName groups, ·) := by
    intro s
    rw [run, many1, run]
    -- the type may end at each place in front of the first `=`, the last one first
    have hmany : ∀ t : Str, run id (.many (.char (· != '='))) (fun o' =>
        run id (.seq (.many space) (.seq valuePart (.char (· == ';')))) shown
          ⟨o'.rest, (.type2, s.take (s.length - o'.rest.length)) :: o'.groups⟩) ⟨t, groups⟩
        = ((typeStop t).or (endStop (t.dropWhile isSpace))).map (declaredName groups, ·) := by
      intro t
      induction t with
      | nil =>
        rw [run_many_nil, run_space_end]
        rfl
      | cons c t ih =>
        rw [run_many_cons, ih, run_space_end, declaredName_cons (Or.inl rfl), typeStop]
        by_cases hc : c = '='
        · simp [hc]
        · rw [if_pos (by simpa using hc), if_neg hc]
          cases (typeStop t).or (endStop (t.dropWhile isSpace)) with
          | none => rfl
          | some r => rfl
    rw [run]
    cases s with
    | nil => rfl
    | cons c s =>
      dsimp only
      rw [hmany, typeStop]
      by_cases hc : c = '='
      · simp [hc]
      · rw [if_pos (by simpa using hc), if_neg hc]
  rw [run]
  apply run_many_space hgroup rfl
  · intro c s hc
    have hne : c ≠ '=' := (isSpace_mark hc).2.1
    rw [typeStop, if_neg hne]
    cases typeStop s with
    | none => rfl
    | some r => rfl
  · intro c s _
    rfl

/-- The rest of the pattern behind the name. -/
theorem run_tail (s : Str) (groups : List (Group × Str)) :
    run id tailPart shown ⟨s, groups⟩
      = (tailStop (s.dropWhile isSpace)).map (declaredName groups, ·) := by
  have hrest : ∀ s : Str, run id (.seq typePart
      (.seq (.many space) (.seq valuePart (.char (· == ';'))))) shown ⟨s, groups⟩
        = ((if s.head? = some ':' then typeStop s.tail else none).or
          (endStop (s.dropWhile isSpace))).map (declaredName groups, ·) := by
    intro s
    have hopt : run id (.seq typePart
        (.seq (.many space) (.seq valuePart (.char (· == ';'))))) shown ⟨s, groups⟩
          = (run id (.char (· == ':')) (run id (.seq (.many space)
              (.group .type2 (many1 (.char (· != '=')))))
              (run id (.seq (.many space) (.seq valuePart (.char (· == ';')))) shown))
              ⟨s, groups⟩).orElse fun _ =>
            run id (.seq (.many space) (.seq valuePart (.char (· == ';')))) shown ⟨s, groups⟩ := rfl
    rw [hopt, run, run_space_end]
    cases s with
    | nil => rfl
    | cons c s =>
      dsimp only
      rw [run_type, List.head?_cons, List.tail_cons]
      by_cases hc : c = ':'
      · subst hc
        cases typeStop s with
        | none => rfl
        | some r => rfl
      · simp [hc]
  have hsplit : run id tailPart shown ⟨s, groups⟩ = run id (.many space) (run id (.seq typePart
      (.seq (.many space) (.seq valuePart (.char (· == ';'))))) shown) ⟨s, groups⟩ := rfl
  rw [hsplit]
  apply run_many_space hrest rfl (f := fun s =>
    (tailStop (s.dropWhile isSpace)).map (declaredName groups, ·))
  · intro c s hc
    have hne : c ≠ ':' := (isSpace_mark hc).1
    rw [List.dropWhile_cons_of_pos hc, List.head?_cons, if_neg (by simpa using hne), Option.none_or]
    cases hs : s.dropWhile isSpace with
    | nil => rfl
    | cons d t =>
      rw [tailStop]
      by_cases hd : d = ':'
      · subst hd
        cases typeStop t with
        | none => rfl
        | some r => rfl
      · rw [if_neg hd]
        cases endStop (d :: t) with
        | none => rfl
        | some r => rfl
  · intro c s hc
    rw [List.dropWhile_cons_of_neg hc, tailStop, List.head?_cons, List.tail_cons]
    by_cases hc' : c = ':'
    · subst hc'
      simp [endStop]
    · simp [hc']

/-! ## The words in front -/

/-- The class `\w`, with what the pattern needs of it. -/
structure WordClass where
  isWord : Char → Bool
  space : ∀ c, isSpace c = true → isWord c = false
  marks : ∀ c ∈ [':', '=', ';', '/'], isWord c = false
  qualifiers : ∀ q ∈ qualifiers, ∀ c ∈ q.2, isWord c = true

/-- The words of a text. -/
def words (s : Str) : List Str := (s.splitOnP isSpace).filter fun w => !w.isEmpty

/-- A character of a word or white space. -/
def isHead (isWord : Char → Bool) (c : Char) : Bool := isWord c || isSpace c

/-- What is declared, and where the declaration ends: the last word is the name, and the
ones in front of it come in the order of `quals`. -/
def headAt (isWord : Char → Bool) (quals : List Str) (qualified : Bool) (s : Str) :
    Option (Option Str × Str) :=
  let ws := words (s.takeWhile (isHead isWord))
  if s.head?.any isWord = true ∧ ws.dropLast.Sublist quals then
    (tailStop (s.dropWhile (isHead isWord))).map fun r =>
      (if qualified = false ∧ ws.dropLast = [] then none else ws.getLast?, r)
  else none

theorem words_append_space (a : Str) {g : Str} (b : Str) (hne : g ≠ [])
    (hg : ∀ c ∈ g, isSpace c = true) : words (a ++ (g ++ b)) = words a ++ words b := by
  induction g generalizing a with
  | nil => exact absurd rfl hne
  | cons c g ih =>
    have hsplit : ∀ b : Str, words (a ++ c :: b) = words a ++ words b := by
      intro b
      rw [words, List.splitOnP_append_cons _ _ (hg c List.mem_cons_self), List.filter_append]
      rfl
    rw [List.cons_append, hsplit]
    cases g with
    | nil => rfl
    | cons d g =>
      have htail := ih [] (List.cons_ne_nil d g) (fun x hx => hg x (List.mem_cons_of_mem c hx))
      rw [List.nil_append] at htail
      rw [htail]
      rfl

theorem words_word {w : Str} (hne : w ≠ []) (hw : ∀ c ∈ w, isSpace c = false) :
    words w = [w] := by
  rw [words, List.splitOnP_eq_singleton hw]
  exact List.filter_cons_of_pos (by simpa using hne)

variable {W : WordClass}

theorem isHead_of_isSpace {c : Char} (h : isSpace c = true) : isHead W.isWord c = true := by
  rw [isHead, h, Bool.or_true]

theorem isHead_of_isWord {c : Char} (h : W.isWord c = true) : isHead W.isWord c = true := by
  rw [isHead, h, Bool.true_or]

theorem not_isSpace_of_isWord {c : Char} (h : W.isWord c = true) : isSpace c = false := by
  cases hs : isSpace c with
  | false => rfl
  | true =>
    rw [W.space c hs] at h
    cases h

/-- A text that starts with a word. -/
inductive FirstWord (W : WordClass) (s : Str) : Prop
  /-- Only white space stands between this word and the next one. -/
  | more (w sp s' : Str) (hs : s = w ++ (sp ++ s')) (hne : w ≠ []) (hw : ∀ c ∈ w, W.isWord c = true)
      (hsp : sp ≠ []) (hspace : ∀ c ∈ sp, isSpace c = true)
      (hword : s'.head?.any W.isWord = true)
  | last (w sp s' : Str) (hs : s = w ++ (sp ++ s')) (hne : w ≠ []) (hw : ∀ c ∈ w, W.isWord c = true)
      (hspace : ∀ c ∈ sp, isSpace c = true) (hend : s'.head?.any (isHead W.isWord) = false)

theorem head?_dropWhile_any (p : Char → Bool) (s : Str) : (s.dropWhile p).head?.any p = false := by
  induction s with
  | nil => rfl
  | cons c s ih =>
    rw [List.dropWhile_cons]
    split
    · exact ih
    · rename_i hc
      simpa using hc

theorem firstWord {s : Str} (h : s.head?.any W.isWord = true) : FirstWord W s := by
  have hs : s = s.takeWhile W.isWord ++ ((s.dropWhile W.isWord).takeWhile isSpace ++
      (s.dropWhile W.isWord).dropWhile isSpace) := by
    rw [List.takeWhile_append_dropWhile, List.takeWhile_append_dropWhile]
  have hne : s.takeWhile W.isWord ≠ [] := by
    cases s with
    | nil => cases h
    | cons c s =>
      rw [List.head?_cons, Option.any_some] at h
      rw [List.takeWhile_cons_of_pos h]
      exact List.cons_ne_nil _ _
  have hw : ∀ c ∈ s.takeWhile W.isWord, W.isWord c = true := fun c hc => List.mem_takeWhile_imp hc
  have hspace : ∀ c ∈ (s.dropWhile W.isWord).takeWhile isSpace, isSpace c = true :=
    fun c hc => List.mem_takeWhile_imp hc
  cases hword : ((s.dropWhile W.isWord).dropWhile isSpace).head?.any W.isWord with
  | true =>
    refine .more _ _ _ hs hne hw ?_ hspace hword
    intro hnil
    -- without white space the word would go on
    have hdrop := @List.takeWhile_append_dropWhile _ isSpace (s.dropWhile W.isWord)
    rw [hnil, List.nil_append] at hdrop
    rw [hdrop, head?_dropWhile_any] at hword
    cases hword
  | false =>
    refine .last _ _ _ hs hne hw hspace ?_
    have hnot := head?_dropWhile_any isSpace (s.dropWhile W.isWord)
    cases hhead : ((s.dropWhile W.isWord).dropWhile isSpace).head? with
    | none => rfl
    | some c =>
      rw [hhead, Option.any_some] at hnot hword
      rw [Option.any_some, isHead, hnot, hword, Bool.or_false]

theorem takeWhile_of_forall {p : Char → Bool} {a s : Str} (ha : ∀ c ∈ a, p c = true)
    (hs : s.head?.any p = false) : (a ++ s).takeWhile p = a ∧ (a ++ s).dropWhile p = s := by
  rw [List.takeWhile_append_of_pos ha, List.dropWhile_append_of_pos ha]
  cases s with
  | nil => exact ⟨List.append_nil a, rfl⟩
  | cons c s =>
    rw [List.head?_cons, Option.any_some] at hs
    have hc : ¬ p c = true := by simp [hs]
    rw [List.takeWhile_cons_of_neg hc, List.dropWhile_cons_of_neg hc, List.append_nil]
    exact ⟨rfl, rfl⟩

theorem forall_isHead {w sp : Str} (hw : ∀ c ∈ w, W.isWord c = true)
    (hspace : ∀ c ∈ sp, isSpace c = true) : ∀ c ∈ w ++ sp, isHead W.isWord c = true := by
  intro c hc
  rcases List.mem_append.1 hc with hc | hc
  · exact isHead_of_isWord (hw c hc)
  · exact isHead_of_isSpace (hspace c hc)

/-- The words of a head with another word behind the first one. -/
theorem head_more {w sp s' : Str} (hne : w ≠ []) (hw : ∀ c ∈ w, W.isWord c = true)
    (hsp : sp ≠ []) (hspace : ∀ c ∈ sp, isSpace c = true) :
    words ((w ++ (sp ++ s')).takeWhile (isHead W.isWord))
        = w :: words (s'.takeWhile (isHead W.isWord)) ∧
      (w ++ (sp ++ s')).dropWhile (isHead W.isWord) = s'.dropWhile (isHead W.isWord) := by
  have hhead := forall_isHead hw hspace
  rw [← List.append_assoc, List.takeWhile_append_of_pos hhead, List.dropWhile_append_of_pos hhead,
    List.append_assoc, words_append_space w _ hsp hspace,
    words_word hne fun c hc => not_isSpace_of_isWord (hw c hc)]
  exact ⟨rfl, rfl⟩

/-- The words of a head with no word behind the first one. -/
theorem head_last {w sp s' : Str} (hne : w ≠ []) (hw : ∀ c ∈ w, W.isWord c = true)
    (hspace : ∀ c ∈ sp, isSpace c = true) (hend : s'.head?.any (isHead W.isWord) = false) :
    words ((w ++ (sp ++ s')).takeWhile (isHead W.isWord)) = [w] ∧
      (w ++ (sp ++ s')).dropWhile (isHead W.isWord) = s' := by
  have hword := words_word hne fun c hc => not_isSpace_of_isWord (hw c hc)
  obtain ⟨htake, hdrop⟩ := takeWhile_of_forall (forall_isHead hw hspace) hend
  rw [← List.append_assoc, htake, hdrop]
  refine ⟨?_, rfl⟩
  by_cases hsp : sp = []
  · rw [hsp, List.append_nil, hword]
  · rw [← List.append_nil sp, words_append_space w [] hsp hspace, hword]
    rfl

theorem head?_any_isHead {s : Str} (h : s.head?.any (isHead W.isWord) = false) :
    s.head?.any W.isWord = false ∧ s.head?.any isSpace = false := by
  cases hs : s.head? with
  | none => exact ⟨rfl, rfl⟩
  | some c =>
    rw [hs, Option.any_some, isHead, Bool.or_eq_false_iff] at h
    exact h

theorem words_ne_nil {s : Str} (h : s.head?.any W.isWord = true) :
    words (s.takeWhile (isHead W.isWord)) ≠ [] := by
  cases firstWord h with
  | more w sp s' hs hne hw hsp hspace hword =>
    rw [hs, (head_more hne hw hsp hspace).1]
    exact List.cons_ne_nil _ _
  | last w sp s' hs hne hw hspace hend =>
    rw [hs, (head_last hne hw hspace hend).1]
    exact List.cons_ne_nil _ _

theorem headAt_none {s : Str} (h : ¬ s.head?.any W.isWord = true) (quals : List Str) (b : Bool) :
    headAt W.isWord quals b s = none := by
  rw [headAt, if_neg fun hand => h hand.1]

theorem headAt_more {w sp s' : Str} (hne : w ≠ []) (hw : ∀ c ∈ w, W.isWord c = true)
    (hsp : sp ≠ []) (hspace : ∀ c ∈ sp, isSpace c = true) (hword : s'.head?.any W.isWord = true)
    (quals : List Str) (b : Bool) :
    headAt W.isWord quals b (w ++ (sp ++ s')) =
      if (w :: (words (s'.takeWhile (isHead W.isWord))).dropLast).Sublist quals then
        (tailStop (s'.dropWhile (isHead W.isWord))).map
          fun r => ((words (s'.takeWhile (isHead W.isWord))).getLast?, r)
      else none := by
  obtain ⟨hwords, hrest⟩ := @head_more W w sp s' hne hw hsp hspace
  have hnil := words_ne_nil hword
  have hhead : (w ++ (sp ++ s')).head?.any W.isWord = true := by
    cases w with
    | nil => exact absurd rfl hne
    | cons c w => exact hw c List.mem_cons_self
  rw [headAt, hwords, hrest, List.dropLast_cons_of_ne_nil hnil]
  refine if_congr (and_iff_right hhead) (congrArg (Option.map · _) ?_) rfl
  funext r
  rw [if_neg fun hand => List.cons_ne_nil _ _ hand.2, List.getLast?_cons_of_ne_nil hnil]

theorem headAt_last {w sp s' : Str} (hne : w ≠ []) (hw : ∀ c ∈ w, W.isWord c = true)
    (hspace : ∀ c ∈ sp, isSpace c = true) (hend : s'.head?.any (isHead W.isWord) = false)
    (quals : List Str) (b : Bool) :
    headAt W.isWord quals b (w ++ (sp ++ s'))
      = (tailStop s').map fun r => (if b = false then none else some w, r) := by
  obtain ⟨hwords, hrest⟩ := head_last hne hw hspace hend
  have hhead : (w ++ (sp ++ s')).head?.any W.isWord = true := by
    cases w with
    | nil => exact absurd rfl hne
    | cons c w => exact hw c List.mem_cons_self
  have hcond : (w ++ (sp ++ s')).head?.any W.isWord = true ∧ [w].dropLast.Sublist quals :=
    ⟨hhead, List.nil_sublist quals⟩
  rw [headAt, hwords, hrest, if_pos hcond]
  simp

/-- The name, and the rest of the pattern. -/
def namePart (isWord : Char → Bool) : Pattern Group :=
  .seq (.group .name1 (many1 (.char isWord))) tailPart

/-- Nothing ends in front of a word. -/
theorem tailStop_word {s : Str} (h : s.head?.any W.isWord = true) : tailStop s = none := by
  cases s with
  | nil => cases h
  | cons c s =>
    rw [List.head?_cons, Option.any_some] at h
    have hmark : ∀ d ∈ [':', '=', ';', '/'], c ≠ d := by
      rintro d hd rfl
      rw [W.marks c hd] at h
      cases h
    rw [tailStop, if_neg (hmark ':' (by simp)), endStop, if_neg (hmark '=' (by simp)),
      if_neg (hmark ';' (by simp))]

theorem dropWhile_space_word {s : Str} (h : s.head?.any W.isWord = true) :
    s.dropWhile isSpace = s := by
  cases s with
  | nil => rfl
  | cons c s =>
    rw [List.head?_cons, Option.any_some] at h
    exact List.dropWhile_cons_of_neg (by simp [not_isSpace_of_isWord h])

/-- Behind a word, where white space or no word comes. -/
theorem head_behind {sp s' : Str} (hspace : ∀ c ∈ sp, isSpace c = true)
    (h : sp ≠ [] ∨ s'.head?.any W.isWord = false) : (sp ++ s').head?.any W.isWord = false := by
  cases sp with
  | nil => exact h.resolve_left fun hne => hne rfl
  | cons c sp => exact W.space c (hspace c List.mem_cons_self)

theorem run_name (s : Str) (groups : List (Group × Str)) :
    run id (namePart W.isWord) shown ⟨s, groups⟩
      = headAt W.isWord [] (qualified groups) s := by
  have hname : run id (namePart W.isWord) shown ⟨s, groups⟩
      = if s.head?.any W.isWord then
          (tailStop ((s.dropWhile W.isWord).dropWhile isSpace)).map fun r =>
            (declaredName ((.name1, s.takeWhile W.isWord) :: groups), r)
        else none := by
    rw [namePart, run, run, run_many1_char]
    · dsimp only [id]
      rw [run_tail]
      have htake : s.take (s.length - (s.dropWhile W.isWord).length) = s.takeWhile W.isWord := by
        have hlen := congrArg List.length (@List.takeWhile_append_dropWhile _ W.isWord s)
        rw [List.length_append] at hlen
        rw [show s.length - (s.dropWhile W.isWord).length = (s.takeWhile W.isWord).length by omega]
        exact (List.prefix_iff_eq_take.1 (List.takeWhile_prefix _)).symm
      rw [htake]
    · intro c s groups hc
      have hword : (c :: s).head?.any W.isWord = true := hc
      rw [run_tail, dropWhile_space_word hword, tailStop_word hword]
      rfl
  rw [hname]
  by_cases h : s.head?.any W.isWord = true
  · rw [if_pos h]
    cases firstWord h with
    | more w sp s' hs hne hw hsp hspace hword =>
      -- a second word stands where the rest of the pattern should start
      have hdrop := (takeWhile_of_forall hw (@head_behind W sp s' hspace (Or.inl hsp))).2
      rw [hs, hdrop, List.dropWhile_append_of_pos hspace, dropWhile_space_word hword,
        tailStop_word hword, headAt_more hne hw hsp hspace hword,
        if_neg fun hsub => List.cons_ne_nil _ _ (List.sublist_nil.1 hsub)]
      rfl
    | last w sp s' hs hne hw hspace hend =>
      have hend' := head?_any_isHead hend
      obtain ⟨htake, hdrop⟩ := takeWhile_of_forall hw (head_behind hspace (Or.inr hend'.1))
      rw [hs, htake, hdrop, (takeWhile_of_forall hspace hend'.2).2, declaredName_name,
        headAt_last hne hw hspace hend]
  · rw [if_neg h, headAt_none h]

/-- The word in front of a text, with white space behind it. -/
theorem prefix_iff {w₀ w sp s' : Str} (hw₀ : ∀ c ∈ w₀, W.isWord c = true)
    (hw : ∀ c ∈ w, W.isWord c = true) (hend : (sp ++ s').head?.any W.isWord = false) :
    (w₀ <+: w ++ (sp ++ s') ∧ ((w ++ (sp ++ s')).drop w₀.length).head?.any isSpace = true) ↔
      w₀ = w ∧ (sp ++ s').head?.any isSpace = true := by
  constructor
  · rintro ⟨⟨t, ht⟩, hhead⟩
    rw [← ht, List.drop_left] at hhead
    have hword : t.head?.any W.isWord = false := by
      cases t with
      | nil => rfl
      | cons c t => exact W.space c hhead
    have htake := takeWhile_of_forall hw₀ hword
    rw [ht, (takeWhile_of_forall hw hend).1, (takeWhile_of_forall hw hend).2] at htake
    rw [htake.1, htake.2]
    exact ⟨rfl, hhead⟩
  · rintro ⟨rfl, hhead⟩
    rw [List.drop_left]
    exact ⟨List.prefix_append _ _, hhead⟩

/-- A text that starts with a word, behind other words. -/
theorem headAt_word {s : Str} (h : s.head?.any W.isWord = true) (quals : List Str) :
    headAt W.isWord quals true s
      = if (words (s.takeWhile (isHead W.isWord))).dropLast.Sublist quals then
          (tailStop (s.dropWhile (isHead W.isWord))).map
            fun r => ((words (s.takeWhile (isHead W.isWord))).getLast?, r)
        else none := by
  rw [headAt]
  refine if_congr (and_iff_right h) (congrArg (Option.map · _) ?_) rfl
  funext r
  rw [if_neg fun hand => Bool.true_eq_false ▸ hand.1]

/-- One more word may stand in front of the name. -/
theorem headAt_cons {w₀ : Str} (hne₀ : w₀ ≠ []) (hw₀ : ∀ c ∈ w₀, W.isWord c = true)
    (quals : List Str) (b : Bool) (s : Str) :
    (if w₀ <+: s ∧ (s.drop w₀.length).head?.any isSpace = true then
        headAt W.isWord quals true ((s.drop w₀.length).dropWhile isSpace)
      else none).or (headAt W.isWord quals b s) = headAt W.isWord (w₀ :: quals) b s := by
  by_cases h : s.head?.any W.isWord = true
  · cases firstWord h with
    | more w sp s' hs hne hw hsp hspace hword =>
      subst hs
      have hiff := @prefix_iff W w₀ w sp s' hw₀ hw (head_behind hspace (Or.inl hsp))
      rw [headAt_more hne hw hsp hspace hword, headAt_more hne hw hsp hspace hword]
      by_cases hw₀w : w₀ = w
      · subst hw₀w
        have hhead : (sp ++ s').head?.any isSpace = true := by
          cases sp with
          | nil => exact absurd rfl hsp
          | cons c sp => exact hspace c List.mem_cons_self
        rw [if_pos (hiff.2 ⟨rfl, hhead⟩), List.drop_left, List.dropWhile_append_of_pos hspace,
          dropWhile_space_word hword]
        rw [headAt_word hword]
        by_cases hsub : (words (s'.takeWhile (isHead W.isWord))).dropLast.Sublist quals
        · rw [if_pos hsub, if_pos (hsub.cons_cons w₀)]
          split
          · exact Option.or_self
          · exact Option.or_none
        · rw [if_neg hsub, if_neg fun hcons => hsub ((List.sublist_cons_self _ _).trans hcons),
            if_neg fun hcons => hsub (List.cons_sublist_cons.1 hcons)]
          rfl
      · rw [if_neg fun hand => hw₀w (hiff.1 hand).1, Option.none_or]
        refine if_congr ?_ rfl rfl
        constructor
        · exact fun hsub => hsub.trans (List.sublist_cons_self w₀ quals)
        · intro hsub
          cases hsub with
          | cons _ hsub => exact hsub
          | cons_cons _ _ => exact absurd rfl hw₀w
    | last w sp s' hs hne hw hspace hend =>
      subst hs
      rw [headAt_last hne hw hspace hend, headAt_last hne hw hspace hend]
      split
      · rename_i hand
        have hend' := head?_any_isHead hend
        have hiff := @prefix_iff W w₀ w sp s' hw₀ hw (head_behind hspace (Or.inr hend'.1))
        obtain ⟨rfl, -⟩ := hiff.1 hand
        have hnone : ¬ s'.head?.any W.isWord = true := by simp [hend'.1]
        rw [List.drop_left, (takeWhile_of_forall hspace hend'.2).2, headAt_none hnone]
        rfl
      · rfl
  · have hnot : ¬ (w₀ <+: s ∧ (s.drop w₀.length).head?.any isSpace = true) := by
      rintro ⟨⟨t, rfl⟩, -⟩
      cases w₀ with
      | nil => exact hne₀ rfl
      | cons c w₀ => exact h (hw₀ c List.mem_cons_self)
    rw [if_neg hnot, Option.none_or, headAt_none h, headAt_none h]

/-- A word in front of the name, with white space behind it, and what follows. -/
theorem run_qualifier {q : Group × Str} (hq : q ∈ qualifiers) {rest : Pattern Group}
    {quals : List Str}
    (hrest : ∀ s groups, run id rest shown ⟨s, groups⟩
      = headAt W.isWord quals (qualified groups) s) (s : Str) (groups : List (Group × Str)) :
    run id (.seq (qualifier q) rest) shown ⟨s, groups⟩
      = headAt W.isWord (q.2 :: quals) (qualified groups) s := by
  have hne : q.2 ≠ [] := (by decide : ∀ q ∈ qualifiers, q.2 ≠ []) q hq
  have hspace : ∀ (c : Char) (s : Str) (groups : List (Group × Str)), isSpace c = true →
      headAt W.isWord quals (qualified groups) (c :: s) = none := by
    intro c s groups hc
    rw [headAt, if_neg]
    rintro ⟨hhead, -⟩
    rw [List.head?_cons, Option.any_some, W.space c hc] at hhead
    cases hhead
  have hopt : run id (.seq (qualifier q) rest) shown ⟨s, groups⟩
      = (run id (literal q.2) (run id (many1 space) fun o => run id rest shown
          ⟨o.rest, (q.1, s.take (s.length - o.rest.length)) :: o.groups⟩) ⟨s, groups⟩).orElse
        fun _ => run id rest shown ⟨s, groups⟩ := rfl
  have hfirst : run id (literal q.2) (run id (many1 space) fun o => run id rest shown
      ⟨o.rest, (q.1, s.take (s.length - o.rest.length)) :: o.groups⟩) ⟨s, groups⟩
        = if q.2 <+: s ∧ (s.drop q.2.length).head?.any isSpace = true then
            headAt W.isWord quals true ((s.drop q.2.length).dropWhile isSpace)
          else none := by
    rw [run_literal, List.map_id, space, run_many1_char]
    · dsimp only [id]
      rw [hrest]
      by_cases hpre : q.2 <+: s
      · rw [if_pos hpre]
        by_cases hhead : (s.drop q.2.length).head?.any isSpace = true
        · have hlen := (List.dropWhile_sublist isSpace (l := s.drop q.2.length)).length_le
          have hpos := List.length_pos_of_ne_nil hne
          have hle := hpre.length_le
          rw [List.length_drop] at hlen
          have htext : s.take (s.length - ((s.drop q.2.length).dropWhile isSpace).length) ≠ [] := by
            rw [ne_eq, List.take_eq_nil_iff]
            rintro (hzero | rfl)
            · omega
            · rw [List.length_nil] at hle
              omega
          have hboth : q.2 <+: s ∧ (s.drop q.2.length).head?.any isSpace = true := ⟨hpre, hhead⟩
          rw [if_pos hhead, if_pos hboth, qualified_cons hq htext]
        · have hnot : ¬ (q.2 <+: s ∧ (s.drop q.2.length).head?.any isSpace = true) :=
            fun hand => hhead hand.2
          rw [if_neg hhead, if_neg hnot]
      · have hnot : ¬ (q.2 <+: s ∧ (s.drop q.2.length).head?.any isSpace = true) :=
          fun hand => hpre hand.1
        rw [if_neg hpre, if_neg hnot]
    · intro c s groups hc
      rw [hrest, hspace c s _ hc]
  rw [hopt, hfirst, hrest, ← headAt_cons hne (W.qualifiers q hq), Option.orElse_eq_or]

/-- What is declared behind a newline, and where the declaration ends. -/
def declaredAt (isWord : Char → Bool) (s : Str) : Option (Option Str × Str) :=
  headAt isWord (qualifiers.map Prod.snd) false s

theorem run_qualifiers (quals : List (Group × Str)) (hquals : ∀ q ∈ quals, q ∈ qualifiers) (s : Str)
    (groups : List (Group × Str)) :
    run id ((quals.map qualifier).foldr .seq (namePart W.isWord)) shown ⟨s, groups⟩
      = headAt W.isWord (quals.map Prod.snd) (qualified groups) s := by
  induction quals generalizing s groups with
  | nil => exact run_name s groups
  | cons q quals ih =>
    rw [List.map_cons, List.foldr_cons, List.map_cons]
    exact run_qualifier (hquals q List.mem_cons_self)
      (fun s groups => ih (fun q hq => hquals q (List.mem_cons_of_mem _ hq)) s groups) s groups

/-- Behind a newline, the matcher finds what is declared there. -/
theorem map_matchAt_newline (s : Str) :
    (matchAt id (declaration W.isWord) ('\n' :: s)).map (fun o => (declaredName o.groups, o.rest))
      = declaredAt W.isWord s := by
  have hrun := run_qualifiers (W := W) qualifiers (fun q hq => hq) s []
  rw [matchAt, ← run_map]
  exact hrun

theorem matchAt_cons_of_ne {c : Char} (hc : c ≠ '\n') (s : Str) :
    matchAt id (declaration W.isWord) (c :: s) = none := by
  rw [matchAt, declaration, run, run]
  exact if_neg (by simpa using hc)

end GlobalVars
