import Rustle.Source.GapReading

/-!
# Text behind the last line

What is declared behind a newline, where text without newline is put at the end of a file.

* `typeStop_append`, `tailStop_append` — a declaration that has ended goes on as it did, or its
  type takes all that is added.
* `typeStop_open`, `tailStop_open` — one that is open ends in what is added, or not at all.
* `alikeAt_or_open` — for a match of the pattern: it is alike, or it was open.
-/

namespace GlobalVars

open Backtrack Pattern
open Text (lit isSpace)

section

variable {Y Z r t : Str}

/-! ## Behind the name -/

theorem semicolon_of_valueStop (h : valueStop Y = some r) : ';' ∈ Y := by
  by_contra hnot
  rw [valueStop_none fun c hc heq => hnot (heq ▸ hc)] at h
  cases h

theorem semicolon_of_endStop (h : endStop Y = some r) : ';' ∈ Y := by
  cases Y with
  | nil => cases h
  | cons c Y =>
    rw [endStop] at h
    split at h
    · exact List.mem_cons_of_mem c (semicolon_of_valueStop h)
    · split at h
      · rename_i hc
        exact hc ▸ List.mem_cons_self
      · cases h

theorem semicolon_of_typeStop (h : typeStop Y = some r) : ';' ∈ Y := by
  induction Y with
  | nil => cases h
  | cons c Y ih =>
    apply List.mem_cons_of_mem
    rw [typeStop] at h
    split at h
    · cases h
    · rcases Option.or_eq_some_iff.1 h with h | ⟨-, h⟩
      · exact ih h
      · exact (List.dropWhile_suffix _).subset (semicolon_of_endStop h)

theorem semicolon_of_tailStop (h : tailStop Y = some r) : ';' ∈ Y := by
  cases Y with
  | nil => cases h
  | cons c Y =>
    rw [tailStop] at h
    split at h
    · exact List.mem_cons_of_mem c (semicolon_of_typeStop h)
    · exact semicolon_of_endStop h

/-- A value that has ended goes on as it did. -/
theorem valueStop_append (h : valueStop Y = some Z) (t : Str) :
    valueStop (Y ++ t) = some (Z ++ t) := by
  cases Y with
  | nil => cases h
  | cons c Y =>
    rw [valueStop] at h ⊢
    rw [List.cons_append, List.head?_cons] at *
    split at h
    · cases h
    · rename_i hc
      rw [if_neg hc]
      cases hdrop : (c :: Y).dropWhile (· != ';') with
      | nil =>
        rw [hdrop] at h
        cases h
      | cons d X =>
        rw [hdrop, List.tail?_cons, Option.some.injEq] at h
        rw [← List.cons_append, List.dropWhile_append, hdrop, List.isEmpty_cons,
          if_neg Bool.false_ne_true, List.cons_append, List.tail?_cons, h]

theorem endStop_append (h : endStop Y = some Z) (t : Str) :
    endStop (Y ++ t) = some (Z ++ t) := by
  cases Y with
  | nil => cases h
  | cons c Y =>
    rw [List.cons_append]
    rw [endStop] at h ⊢
    split at h
    · rename_i hc
      rw [if_pos hc]
      exact valueStop_append h t
    · rename_i hc
      rw [if_neg hc]
      split at h
      · rename_i hsemi
        rw [Option.some.injEq] at h
        rw [if_pos hsemi, h]
      · cases h

theorem spaceStop_append (h : spaceStop Y = some Z) (t : Str) :
    spaceStop (Y ++ t) = some (Z ++ t) := by
  rw [spaceStop] at h ⊢
  cases hdrop : Y.dropWhile isSpace with
  | nil =>
    rw [hdrop] at h
    cases h
  | cons c X =>
    rw [List.dropWhile_append, hdrop, List.isEmpty_cons, if_neg Bool.false_ne_true]
    rw [hdrop] at h
    exact endStop_append h t

/-- A value that is open has no `;`, and ends in what is added. -/
theorem valueStop_open (hopen : valueStop Y = none) (h : valueStop (Y ++ t) = some r) :
    ';' ∉ Y ∧ r <:+ t := by
  have hnot : ∀ c ∈ Y, c ≠ ';' := by
    rintro c hc rfl
    cases Y with
    | nil => cases hc
    | cons d Y =>
      by_cases hd : d = ';'
      · subst hd
        cases h
      · obtain ⟨a, X, hX, hnotin⟩ := List.eq_append_cons_of_mem hc
        have hpos : ∀ e ∈ a, (e != ';') = true := by
          intro e he
          rw [bne_iff_ne]
          rintro rfl
          exact hnotin he
        rw [valueStop, if_neg (by simpa using hd), hX, List.dropWhile_append_of_pos hpos,
          List.dropWhile_cons_of_neg (by simp)] at hopen
        cases hopen
  refine ⟨fun hmem => hnot ';' hmem rfl, ?_⟩
  rw [valueStop] at h
  split at h
  · cases h
  · rw [List.dropWhile_append_of_pos fun c hc => by simpa using hnot c hc] at h
    exact (tail?_suffix h).trans (List.dropWhile_suffix _)

theorem endStop_open (hne : Y ≠ []) (hopen : endStop Y = none) (h : endStop (Y ++ t) = some r) :
    ';' ∉ Y ∧ r <:+ t := by
  cases Y with
  | nil => exact absurd rfl hne
  | cons c Y =>
    rw [List.cons_append] at h
    rw [endStop] at h hopen
    split at h
    · rename_i hc
      rw [if_pos hc] at hopen
      obtain ⟨hnot, hr⟩ := valueStop_open hopen h
      refine ⟨fun hmem => ?_, hr⟩
      rcases List.mem_cons.1 hmem with heq | hmem
      · rw [← heq] at hc
        exact absurd hc (by decide)
      · exact hnot hmem
    · rename_i hc
      rw [if_neg hc] at hopen
      split at h
      · rename_i hsemi
        rw [if_pos hsemi] at hopen
        cases hopen
      · cases h

theorem spaceStop_open (hopen : spaceStop Y = none) (h : spaceStop (Y ++ t) = some r) :
    ';' ∉ Y ∧ r <:+ t := by
  rw [spaceStop] at hopen h
  have hblank : ∀ {c : Char}, isSpace c = true → c ≠ ';' := fun hc => (isSpace_mark hc).2.2
  rw [List.dropWhile_append] at h
  cases hdrop : Y.dropWhile isSpace with
  | nil =>
    rw [hdrop, List.isEmpty_nil, if_pos rfl] at h
    rw [List.dropWhile_eq_nil_iff] at hdrop
    exact ⟨fun hmem => hblank (hdrop _ hmem) rfl,
      ((endStop_suffix h).trans (List.tail_suffix _)).trans (List.dropWhile_suffix _)⟩
  | cons c X =>
    rw [hdrop] at hopen
    rw [hdrop, List.isEmpty_cons, if_neg Bool.false_ne_true] at h
    obtain ⟨hnot, hr⟩ := endStop_open (List.cons_ne_nil c X) hopen h
    refine ⟨fun hmem => ?_, hr⟩
    rw [← List.takeWhile_append_dropWhile (p := isSpace) (l := Y), hdrop, List.mem_append] at hmem
    rcases hmem with hmem | hmem
    · exact hblank (List.mem_takeWhile_imp hmem) rfl
    · exact hnot hmem

/-- A type that is open has no `;` but at its head, and ends in what is added. -/
theorem typeStop_open (hopen : typeStop Y = none) (h : typeStop (Y ++ t) = some r) :
    ';' ∉ Y.tail ∧ r <:+ t := by
  induction Y with
  | nil => exact ⟨List.not_mem_nil, (typeStop_suffix h).trans (List.tail_suffix t)⟩
  | cons c Y ih =>
    rw [List.cons_append] at h
    rw [typeStop] at h hopen
    split at h
    · cases h
    · rename_i hc
      rw [if_neg hc, Option.or_eq_none_iff] at hopen
      rw [List.tail_cons]
      rcases Option.or_eq_some_iff.1 h with h | ⟨-, h⟩
      · obtain ⟨hnot, hr⟩ := ih hopen.1 h
        refine ⟨fun hmem => ?_, hr⟩
        cases Y with
        | nil => cases hmem
        | cons d Y =>
          rcases List.mem_cons.1 hmem with heq | hmem
          · subst heq
            cases hopen.2
          · exact hnot hmem
      · exact spaceStop_open hopen.2 h

/-- A type that has ended goes on as it did, or ends in what is added instead. -/
theorem typeStop_append (h : typeStop Y = some Z) (t : Str) :
    ∃ r, typeStop (Y ++ t) = some r ∧ (r = Z ++ t ∨ r <:+ t ∧ ';' ∉ Z) := by
  induction Y with
  | nil => cases h
  | cons c Y ih =>
    rw [List.cons_append]
    rw [typeStop] at h ⊢
    split at h
    · cases h
    · rename_i hc
      rw [if_neg hc]
      rcases Option.or_eq_some_iff.1 h with h | ⟨hnone, h⟩
      · obtain ⟨r, hr, hend⟩ := ih h
        exact ⟨r, by rw [hr, Option.some_or], hend⟩
      · have hspace := spaceStop_append h t
        cases htype : typeStop (Y ++ t) with
        | none => exact ⟨Z ++ t, hspace, Or.inl rfl⟩
        | some r =>
          obtain ⟨hnot, hr⟩ := typeStop_open hnone htype
          exact ⟨r, rfl, Or.inr ⟨hr, fun hmem => hnot ((spaceStop_suffix h).subset hmem)⟩⟩

theorem tailStop_append (h : tailStop Y = some Z) (t : Str) :
    ∃ r, tailStop (Y ++ t) = some r ∧ (r = Z ++ t ∨ r <:+ t ∧ ';' ∉ Z) := by
  cases Y with
  | nil => cases h
  | cons c Y =>
    rw [List.cons_append]
    rw [tailStop] at h ⊢
    split at h
    · rename_i hc
      rw [if_pos hc]
      exact typeStop_append h t
    · rename_i hc
      rw [if_neg hc]
      exact ⟨Z ++ t, endStop_append h t, Or.inl rfl⟩

theorem tailStop_open (hne : Y ≠ []) (hopen : tailStop Y = none) (h : tailStop (Y ++ t) = some r) :
    ';' ∉ Y.tail.tail ∧ r <:+ t := by
  cases Y with
  | nil => exact absurd rfl hne
  | cons c Y =>
    rw [List.cons_append] at h
    rw [tailStop] at h hopen
    split at h
    · rename_i hc
      rw [if_pos hc] at hopen
      exact typeStop_open hopen h
    · rename_i hc
      rw [if_neg hc] at hopen
      obtain ⟨hnot, hr⟩ := endStop_open (List.cons_ne_nil c Y) hopen h
      exact ⟨fun hmem => hnot (List.mem_cons_of_mem c (List.mem_of_mem_tail hmem)), hr⟩

/-! ## Behind a newline -/

variable {W : WordClass}

/-- Without `;`, nothing is declared. -/
theorem quiet_of_semicolon (h : ';' ∉ Y) : Quiet id (declaration W.isWord) Y [] := by
  intro c X hX
  rw [List.append_nil]
  by_cases hc : c = '\n'
  · subst hc
    rw [← Option.map_eq_none_iff, map_matchAt_newline, declaredAt, headAt]
    split
    · rw [Option.map_eq_none_iff]
      by_contra hsome
      obtain ⟨r, hr⟩ := Option.ne_none_iff_exists'.1 hsome
      have hmem := (List.dropWhile_suffix _).subset (semicolon_of_tailStop hr)
      exact h (hX.subset (List.mem_cons_of_mem '\n' hmem))
    · rfl
  · exact matchAt_cons_of_ne hc X

theorem declaredAt_none (h : tailStop (Y.dropWhile (isHead W.isWord)) = none) :
    declaredAt W.isWord Y = none := by
  rw [declaredAt, headAt, h]
  exact ite_self none

/-- Where a declaration is open, none is found behind its newline. -/
theorem quiet_of_open (hopen : tailStop (Y.dropWhile (isHead W.isWord)) = none)
    (hnot : ';' ∉ (Y.dropWhile (isHead W.isWord)).tail.tail) :
    Quiet id (declaration W.isWord) ('\n' :: Y) [] := by
  intro c X hX
  rw [List.append_nil]
  by_cases hc : c = '\n'
  · subst hc
    rw [← Option.map_eq_none_iff, map_matchAt_newline]
    apply declaredAt_none
    have hparts := @List.takeWhile_append_dropWhile _ (isHead W.isWord) Y
    have hhead := head?_dropWhile_any (isHead W.isWord) Y
    generalize Y.dropWhile (isHead W.isWord) = R at *
    have hXY : X <:+ Y := by
      rcases List.suffix_cons_iff.1 hX with heq | hsuf
      · rw [List.cons.injEq] at heq
        exact heq.2 ▸ List.suffix_rfl
      · exact (List.suffix_cons '\n' X).trans hsuf
    have hRY : R <:+ Y := ⟨_, hparts⟩
    rcases Nat.lt_or_ge X.length R.length with hlt | hge
    · -- the newline stands behind the words
      have hsuf : ('\n' :: X) <:+ R := by
        rcases List.suffix_cons_iff.1 hX with heq | hsuf
        · rw [List.cons.injEq] at heq
          have := hRY.length_le
          rw [heq.2] at hlt
          omega
        · exact List.suffix_of_suffix_length_le hsuf hRY hlt
      cases R with
      | nil => cases hsuf.length_le
      | cons d R =>
        have hsuf' : ('\n' :: X) <:+ R := by
          rcases List.suffix_cons_iff.1 hsuf with heq | hsuf
          · rw [List.cons.injEq] at heq
            have hnewline : isHead W.isWord '\n' = true := isHead_of_isSpace rfl
            rw [heq.1] at hnewline
            rw [List.head?_cons, Option.any_some, hnewline] at hhead
            cases hhead
          · exact hsuf
        have hsub : X <:+ R.tail := by
          obtain ⟨x, hx⟩ := hsuf'
          cases x with
          | nil => rw [← hx]; exact List.suffix_rfl
          | cons e x =>
            rw [← hx, List.cons_append, List.tail_cons]
            exact (List.suffix_cons '\n' X).trans (List.suffix_append x _)
        by_contra hsome
        obtain ⟨r, hr⟩ := Option.ne_none_iff_exists'.1 hsome
        exact hnot (hsub.subset ((List.dropWhile_suffix _).subset (semicolon_of_tailStop hr)))
    · obtain ⟨a, rfl⟩ := List.suffix_of_suffix_length_le hRY hXY hge
      have ha : ∀ d ∈ a, isHead W.isWord d = true := by
        intro d hd
        obtain ⟨x, hx⟩ := hXY
        rw [← List.append_assoc, ← hparts] at hx
        have hmem : d ∈ Y.takeWhile (isHead W.isWord) := by
          rw [← List.append_cancel_right hx]
          exact List.mem_append_right x hd
        exact List.mem_takeWhile_imp hmem
      rw [(takeWhile_of_forall ha hhead).2]
      exact hopen
  · exact matchAt_cons_of_ne hc X

theorem matchAt_of_declaredAt {n : Option Str} (h : declaredAt W.isWord Y = some (n, r)) :
    ∃ o, matchAt id (declaration W.isWord) ('\n' :: Y) = some o ∧ declaredName o.groups = n ∧
      o.rest = r := by
  rw [← map_matchAt_newline] at h
  obtain ⟨o, ho, heq⟩ := Option.map_eq_some_iff.1 h
  rw [Prod.mk.injEq] at heq
  exact ⟨o, ho, heq.1, heq.2⟩

/-- Behind the last line a declaration is as it was, or it was open. -/
theorem alikeAt_or_open {b n : Str} (hb : ∀ c ∈ b, isSpace c = true)
    (hline : '\n' ∉ b ++ '/' :: n) (Y : Str) :
    AlikeAt id (declaration W.isWord) declaredName [] [] (b ++ '/' :: n) '\n' Y ∨
      (Quiet id (declaration W.isWord) ('\n' :: Y) [] ∧
        ∃ o, matchAt id (declaration W.isWord) ('\n' :: (Y ++ ((b ++ '/' :: n) ++ []))) = some o ∧
          o.rest <:+ b ++ '/' :: n) := by
  by_cases hhead : ∀ d ∈ Y, isHead W.isWord d = true
  · left
    refine alikeAt_of_stays (stays_of_slash hb hhead (declaredAt_none ?_))
    rw [List.append_nil, List.dropWhile_eq_nil_iff.2 hhead]
    rfl
  · generalize ht : b ++ '/' :: n = t at *
    have hquiet : ∀ {r : Str}, r <:+ t → Quiet id (declaration W.isWord) r [] := by
      intro r hr c X hX
      apply matchAt_cons_of_ne
      rintro rfl
      exact hline (hr.subset (hX.subset List.mem_cons_self))
    have hsuf : Y.dropWhile (isHead W.isWord) <:+ Y := List.dropWhile_suffix _
    obtain ⟨hne, hnone | ⟨m, hat⟩⟩ := declaredAt_solid (exists_solid hhead)
    · exact Or.inl (alikeAt_of_stays (.none fun x _ => hnone _))
    generalize hR : Y.dropWhile (isHead W.isWord) = R at *
    have hat₀ : declaredAt W.isWord (Y ++ ([] ++ [])) = (tailStop R).map fun r => (m, r) := by
      rw [hat, List.append_nil, List.append_nil]
    have hat' : declaredAt W.isWord (Y ++ (t ++ [])) = (tailStop (R ++ t)).map fun r => (m, r) := by
      rw [hat, List.append_nil]
    cases hstop : tailStop R with
    | some Z =>
      left
      obtain ⟨r, hr, hend⟩ := tailStop_append hstop t
      rw [hstop, Option.map_some] at hat₀
      rw [hr, Option.map_some] at hat'
      rcases hend with rfl | ⟨hsuf', hnot⟩
      · refine alikeAt_of_stays ⟨some (m, Sum.inl Z), fun n e he => ?_, fun x hx => ?_⟩
        · rw [Option.some.injEq, Prod.mk.injEq] at he
          rw [← he.2]
          exact ((tailStop_suffix hstop).trans (List.tail_suffix R)).trans hsuf
        · rcases hx with rfl | rfl
          · rw [hat₀]
            exact congrArg (fun z => some (m, z)) (List.append_nil Z).symm
          · rw [hat', Option.map_some]
            exact congrArg (fun z => some (m, Z ++ z)) (List.append_nil x).symm
      · -- nothing is found behind either end
        obtain ⟨o, ho, hname, hrest⟩ := matchAt_of_declaredAt hat₀
        obtain ⟨o', ho', hname', hrest'⟩ := matchAt_of_declaredAt hat'
        rw [AlikeAt, ho, ho']
        refine .last (hname'.trans hname.symm) ?_ ?_ ?_
        · rw [hrest]
          exact quiet_of_semicolon hnot
        · rw [hrest']
          exact hquiet hsuf'
        · rw [hrest', List.append_nil]
          exact hsuf'
    | none =>
      rw [hstop, Option.map_none] at hat₀
      cases hstop' : tailStop (R ++ t) with
      | none =>
        left
        rw [hstop', Option.map_none] at hat'
        refine alikeAt_of_stays (.none fun x hx => ?_)
        rcases hx with rfl | rfl
        · exact hat₀
        · exact hat'
      | some r =>
        right
        obtain ⟨hnot, hr⟩ := tailStop_open hne hstop hstop'
        rw [hstop', Option.map_some] at hat'
        obtain ⟨o, ho, -, hrest⟩ := matchAt_of_declaredAt hat'
        rw [← hR] at hstop hnot
        exact ⟨quiet_of_open hstop hnot, o, ho, hrest ▸ hr⟩

end

end GlobalVars
