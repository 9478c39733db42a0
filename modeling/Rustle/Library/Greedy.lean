import Rustle.Library.Backtrack

/-!
# Greedy matches

How the matcher takes a text piece by piece, where each repetition goes as far as it can.

* `run_many_last` — a repetition ends at the last place where the match can go on;
  `run_many_exact` — the one where nothing is left to repeat.
* `run_many_pieces` — a repetition of a pattern, piece by piece.
* `Pattern.bodies` — what a group may hold; `group?_lang`.
* `found` — the groups of the matches; `found_quiet`, `found_append` — how they are found
  from left to right.
-/

namespace Backtrack

section

variable {κ α β : Type} {ch : α → Char}

/-! ## Repetitions -/

/-- A repetition fails when the match can go on nowhere. -/
theorem run_many_none {p : Char → Bool} {k : State κ α → Option β} {s : List α}
    {groups : List (κ × List α)}
    (h : ∀ u t, s = u ++ t → (∀ c ∈ u, p (ch c) = true) → k ⟨t, groups⟩ = none) :
    run ch (.many (.char p)) k ⟨s, groups⟩ = none := by
  induction s with
  | nil => exact h [] [] rfl (by simp)
  | cons c s ih =>
    rw [run_many_cons]
    split
    · rename_i hp
      rw [ih, h [] (c :: s) rfl (by simp)]
      · rfl
      · intro u t hut hu
        refine h (c :: u) t (by rw [hut, List.cons_append]) fun d hd => ?_
        rcases List.mem_cons.1 hd with rfl | hd
        · exact hp
        · exact hu d hd
    · exact h [] (c :: s) rfl (by simp)

/-- A repetition ends at the last place where the match can go on. -/
theorem run_many_last {p : Char → Bool} {k : State κ α → Option β} {u t : List α}
    {groups : List (κ × List α)} {b : β} (hu : ∀ c ∈ u, p (ch c) = true)
    (hk : k ⟨t, groups⟩ = some b)
    (hlast : ∀ v w, t = v ++ w → v ≠ [] → (∀ c ∈ v, p (ch c) = true) → k ⟨w, groups⟩ = none) :
    run ch (.many (.char p)) k ⟨u ++ t, groups⟩ = some b := by
  induction u with
  | nil =>
    cases t with
    | nil => exact hk
    | cons c t =>
      rw [List.nil_append, run_many_cons]
      split
      · rename_i hp
        rw [run_many_none, hk]
        · rfl
        · intro v w hvw hv
          refine hlast (c :: v) w (by rw [hvw, List.cons_append]) (List.cons_ne_nil c v) ?_
          intro d hd
          rcases List.mem_cons.1 hd with rfl | hd
          · exact hp
          · exact hv d hd
      · exact hk
  | cons c u ih =>
    rw [List.cons_append, run_many_cons, if_pos (hu c List.mem_cons_self),
      ih fun d hd => hu d (List.mem_cons_of_mem c hd)]
    rfl

/-- The text does not start with a character of the class. -/
def Ends (ch : α → Char) (p : Char → Bool) (t : List α) : Prop :=
  ∀ c s, t = c :: s → p (ch c) = false

theorem ends_cons {p : Char → Bool} {c : α} {s : List α} (h : p (ch c) = false) :
    Ends ch p (c :: s) := by
  intro d s' heq
  rw [List.cons.injEq] at heq
  rw [← heq.1]
  exact h

/-- A repetition takes all there is to repeat when the match goes on behind it. -/
theorem run_many_exact {p : Char → Bool} {k : State κ α → Option β} {u t : List α}
    {groups : List (κ × List α)} {b : β} (hu : ∀ c ∈ u, p (ch c) = true) (ht : Ends ch p t)
    (hk : k ⟨t, groups⟩ = some b) :
    run ch (.many (.char p)) k ⟨u ++ t, groups⟩ = some b := by
  refine run_many_last hu hk fun v w hvw hv hall => ?_
  obtain ⟨c, v, rfl⟩ := List.exists_cons_of_ne_nil hv
  have hc := hall c List.mem_cons_self
  rw [ht c (v ++ w) (by rw [hvw, List.cons_append])] at hc
  cases hc

/-- A repetition at least once, likewise. -/
theorem run_many1_last {p : Char → Bool} {k : State κ α → Option β} {u t : List α}
    {groups : List (κ × List α)} {b : β} (hne : u ≠ []) (hu : ∀ c ∈ u, p (ch c) = true)
    (hk : k ⟨t, groups⟩ = some b)
    (hlast : ∀ v w, t = v ++ w → v ≠ [] → (∀ c ∈ v, p (ch c) = true) → k ⟨w, groups⟩ = none) :
    run ch (Pattern.many1 (.char p)) k ⟨u ++ t, groups⟩ = some b := by
  obtain ⟨c, u, rfl⟩ := List.exists_cons_of_ne_nil hne
  rw [Pattern.many1, run, List.cons_append, run]
  dsimp only
  rw [if_pos (hu c List.mem_cons_self)]
  exact run_many_last (fun d hd => hu d (List.mem_cons_of_mem c hd)) hk hlast

theorem run_many1_exact {p : Char → Bool} {k : State κ α → Option β} {u t : List α}
    {groups : List (κ × List α)} {b : β} (hne : u ≠ []) (hu : ∀ c ∈ u, p (ch c) = true)
    (ht : Ends ch p t) (hk : k ⟨t, groups⟩ = some b) :
    run ch (Pattern.many1 (.char p)) k ⟨u ++ t, groups⟩ = some b := by
  obtain ⟨c, u, rfl⟩ := List.exists_cons_of_ne_nil hne
  rw [Pattern.many1, run, List.cons_append, run]
  dsimp only
  rw [if_pos (hu c List.mem_cons_self)]
  exact run_many_exact (fun d hd => hu d (List.mem_cons_of_mem c hd)) ht hk

/-- A group around a repetition holds what is repeated. -/
theorem run_group_last {p : Char → Bool} {g : κ} {k : State κ α → Option β} {u t : List α}
    {groups : List (κ × List α)} {b : β} (hne : u ≠ []) (hu : ∀ c ∈ u, p (ch c) = true)
    (hk : k ⟨t, (g, u) :: groups⟩ = some b)
    (hlast : ∀ v w, t = v ++ w → v ≠ [] → (∀ c ∈ v, p (ch c) = true) →
      k ⟨w, (g, u ++ v) :: groups⟩ = none) :
    run ch (.group g (Pattern.many1 (.char p))) k ⟨u ++ t, groups⟩ = some b := by
  rw [run]
  refine run_many1_last hne hu ?_ fun v w hvw hv hall => ?_
  · dsimp only
    rw [List.length_append, Nat.add_sub_cancel, List.take_left]
    exact hk
  · dsimp only
    rw [hvw, ← List.append_assoc, List.length_append, Nat.add_sub_cancel, List.take_left]
    exact hlast v w hvw hv hall

theorem run_group_exact {p : Char → Bool} {g : κ} {k : State κ α → Option β} {u t : List α}
    {groups : List (κ × List α)} {b : β} (hne : u ≠ []) (hu : ∀ c ∈ u, p (ch c) = true)
    (ht : Ends ch p t) (hk : k ⟨t, (g, u) :: groups⟩ = some b) :
    run ch (.group g (Pattern.many1 (.char p))) k ⟨u ++ t, groups⟩ = some b := by
  rw [run]
  refine run_many1_exact hne hu ht ?_
  dsimp only
  rw [List.length_append, Nat.add_sub_cancel, List.take_left]
  exact hk

theorem run_seq (a b : Pattern κ) (k : State κ α → Option β) (o : State κ α) :
    run ch (.seq a b) k o = run ch a (run ch b k) o := rfl

/-- A character of the class stands at the head. -/
theorem run_char {p : Char → Bool} {k : State κ α → Option β} {c : α} {t : List α}
    {groups : List (κ × List α)} (hc : p (ch c) = true) :
    run ch (.char p) k ⟨c :: t, groups⟩ = k ⟨t, groups⟩ := by
  rw [run]
  exact if_pos hc

/-- A word stands at the head. -/
theorem run_literal_append {w : Str} {k : State κ α → Option β} {u t : List α}
    {groups : List (κ × List α)} (hu : u.map ch = w) :
    run ch (Pattern.literal w) k ⟨u ++ t, groups⟩ = k ⟨t, groups⟩ := by
  rw [run_literal, List.map_append, hu, if_pos (List.prefix_append _ _), ← hu, List.length_map,
    List.drop_left]

/-- A repetition of a pattern takes one piece after the other: in front of a text with a
property each piece is taken, it has the property itself, and the pattern does not go on
behind the last one. -/
theorem run_many_pieces {a : Pattern κ} {P : List α → Prop} {k : State κ α → Option β}
    {t : List α} {groups : List (κ × List α)} {b : β} (hk : k ⟨t, groups⟩ = some b) (ht : P t)
    (hend : ∀ k', run ch a k' ⟨t, groups⟩ = (none : Option β)) (pieces : List (List α))
    (hpieces : ∀ p ∈ pieces, p ≠ [] ∧ ∀ s, P s → P (p ++ s) ∧
      ∀ k' : State κ α → Option β, k' ⟨s, groups⟩ = some b →
        run ch a k' ⟨p ++ s, groups⟩ = some b) :
    run ch (.many a) k ⟨pieces.flatten ++ t, groups⟩ = some b := by
  have hP : ∀ ps : List (List α), (∀ p ∈ ps, p ∈ pieces) → P (ps.flatten ++ t) := by
    intro ps
    induction ps with
    | nil => exact fun _ => ht
    | cons p ps ih =>
      intro hps
      rw [List.flatten_cons, List.append_assoc]
      exact ((hpieces p (hps p List.mem_cons_self)).2 _
        (ih fun q hq => hps q (List.mem_cons_of_mem p hq))).1
  -- the bound of the repetition is long enough for the pieces
  have hmany : ∀ (ps : List (List α)), (∀ p ∈ ps, p ∈ pieces) → ∀ n, ps.length ≤ n →
      runMany (run ch a) n k ⟨ps.flatten ++ t, groups⟩ = some b := by
    intro ps
    induction ps with
    | nil =>
      intro _ n _
      cases n with
      | zero => exact hk
      | succ n =>
        rw [runMany, List.flatten_nil, List.nil_append, hend]
        exact hk
    | cons p ps ih =>
      intro hps n hn
      obtain ⟨n, rfl⟩ : ∃ m, n = m + 1 := ⟨n - 1, by
        rw [List.length_cons] at hn
        omega⟩
      have hrest := fun q hq => hps q (List.mem_cons_of_mem p hq)
      have hstep := ((hpieces p (hps p List.mem_cons_self)).2 _ (hP ps hrest)).2
        (runMany (run ch a) n k) (ih hrest n (by simpa using hn))
      rw [runMany, List.flatten_cons, List.append_assoc, hstep]
      rfl
  have hlength : pieces.length ≤ (pieces.flatten ++ t).length := by
    rw [List.length_append, List.length_flatten]
    refine le_trans ?_ (Nat.le_add_right _ _)
    rw [← List.length_map List.length]
    refine List.length_le_sum_of_one_le _ fun n hn => ?_
    obtain ⟨p, hp, rfl⟩ := List.mem_map.1 hn
    exact List.length_pos_of_ne_nil (hpieces p hp).1
  exact hmany pieces (fun p hp => hp) _ hlength

/-! ## What a group holds -/

namespace Pattern

/-- The patterns that the groups of a name stand around. -/
def bodies {κ : Type} [DecidableEq κ] (g : κ) : Pattern κ → List (Pattern κ)
  | seq a b => bodies g a ++ bodies g b
  | alt a b => bodies g a ++ bodies g b
  | many a => bodies g a
  | group h a => if h = g then a :: bodies g a else bodies g a
  | empty | char _ => []

end Pattern

section

variable [DecidableEq κ] {g : κ}

/-- What is new in a group is a text of a pattern that it stands around. -/
theorem Parses.bodies {a : Pattern κ} {o o' : State κ α} (h : Parses ch a o o') :
    ∀ t, (g, t) ∈ o'.groups → (g, t) ∈ o.groups ∨ ∃ b ∈ a.bodies g, Lang ch b t := by
  induction h with
  | empty o => exact fun t ht => Or.inl ht
  | char s groups hp => exact fun t ht => Or.inl ht
  | seq ha hb iha ihb =>
    intro t ht
    rcases ihb t ht with ht | ⟨b, hb, hlang⟩
    · refine (iha t ht).imp id ?_
      rintro ⟨b, hb, hlang⟩
      exact ⟨b, List.mem_append_left _ hb, hlang⟩
    · exact Or.inr ⟨b, List.mem_append_right _ hb, hlang⟩
  | altLeft h ih =>
    intro t ht
    refine (ih t ht).imp id ?_
    rintro ⟨b, hb, hlang⟩
    exact ⟨b, List.mem_append_left _ hb, hlang⟩
  | altRight h ih =>
    intro t ht
    refine (ih t ht).imp id ?_
    rintro ⟨b, hb, hlang⟩
    exact ⟨b, List.mem_append_right _ hb, hlang⟩
  | manyNil a o => exact fun t ht => Or.inl ht
  | manyCons ha hs iha ihs => exact fun t ht => (ihs t ht).elim (iha t) Or.inr
  | group h ih =>
    rename_i h' a o o'
    intro t ht
    rcases List.mem_cons.1 ht with heq | ht
    · obtain ⟨used, hused, hlang⟩ := lang_of_parses h
      rw [Prod.mk.injEq] at heq
      rw [Pattern.bodies, if_pos heq.1.symm]
      refine Or.inr ⟨a, List.mem_cons_self, ?_⟩
      rw [heq.2, hused, List.length_append, Nat.add_sub_cancel, List.take_left]
      exact hlang
    · refine (ih t ht).imp id ?_
      rintro ⟨b, hb, hlang⟩
      refine ⟨b, ?_, hlang⟩
      rw [Pattern.bodies]
      split
      · exact List.mem_cons_of_mem a hb
      · exact hb

/-- A group of a match holds a text of a pattern that it stands around. -/
theorem group?_lang {a : Pattern κ} {s t : List α} {m : Match κ α} (h : m ∈ finditer ch a s)
    (ht : m.group? g = some t) : ∃ b ∈ a.bodies g, Lang ch b t := by
  obtain ⟨o, ho, -, -, hgroups, -⟩ := mem_finditer h
  rw [Match.group?, hgroups, Option.map_eq_some_iff] at ht
  obtain ⟨e, he, rfl⟩ := ht
  have hkey : e.1 = g := by simpa using List.find?_some he
  have hmem : (g, e.2) ∈ o.groups := by
    rw [← hkey]
    exact List.mem_of_find?_eq_some he
  exact ((parses_of_matchAt ho).bodies e.2 hmem).resolve_left List.not_mem_nil

end

/-! ## The matches of a text, from left to right -/

variable (ch) in
/-- The groups of the matches, in order. -/
def found (a : Pattern κ) (s : List α) : List (List (κ × List α)) :=
  (finditer ch a s).map Match.groups

variable (ch) in
/-- The groups of the matches that a scan from a position finds. -/
def foundFrom (a : Pattern κ) (s : List α) (skip pos : Nat) (rest : List α) :
    List (List (κ × List α)) :=
  (Scan.scanFrom (textAt ch a) skip pos rest).filterMap fun f =>
    (matchAt ch a (s.drop f.start)).map State.groups

theorem found_eq (a : Pattern κ) (s : List α) : found ch a s = foundFrom ch a s 0 0 s := by
  rw [found, finditer, foundFrom, Scan.finditer, List.map_filterMap]
  apply List.filterMap_congr
  intro f _
  rw [Option.map_map]
  rfl

/-- The places do not matter. -/
theorem foundFrom_shift (a : Pattern κ) {s s' : List α} (skip : Nat) {pos pos' : Nat}
    {rest : List α} (h : s.drop pos = rest) (h' : s'.drop pos' = rest) :
    foundFrom ch a s skip pos rest = foundFrom ch a s' skip pos' rest := by
  induction rest generalizing skip pos pos' with
  | nil => rfl
  | cons c rest ih =>
    have hnext : ∀ {t : List α} {p : Nat}, t.drop p = c :: rest → t.drop (p + 1) = rest := by
      intro t p ht
      rw [← List.drop_drop, ht]
      rfl
    cases skip with
    | succ skip => exact ih skip (hnext h) (hnext h')
    | zero =>
      rw [foundFrom, foundFrom, Scan.scanFrom, Scan.scanFrom]
      cases textAt ch a (c :: rest) with
      | none => exact ih 0 (hnext h) (hnext h')
      | some m =>
        dsimp only
        rw [List.filterMap_cons, List.filterMap_cons, h, h']
        have htail := ih (m.length - 1) (hnext h) (hnext h')
        rw [foundFrom, foundFrom] at htail
        rw [htail]

theorem foundFrom_skip (a : Pattern κ) (s : List α) (skip pos : Nat) (rest : List α)
    (h : s.drop pos = rest) :
    foundFrom ch a s skip pos rest = found ch a (rest.drop skip) := by
  rw [found_eq, foundFrom, Scan.scanFrom_skip]
  refine foundFrom_shift a 0 ?_ (List.drop_zero (l := rest.drop skip))
  rw [← List.drop_drop, h]

@[simp] theorem found_nil (a : Pattern κ) : found ch a ([] : List α) = [] := rfl

/-- A character where nothing matches is passed over. -/
theorem found_cons {a : Pattern κ} {c : α} {s : List α} (h : matchAt ch a (c :: s) = none) :
    found ch a (c :: s) = found ch a s := by
  have htext : textAt ch a (c :: s) = none := by rw [textAt, h, Option.map_none]
  rw [found_eq, foundFrom, Scan.scanFrom, htext]
  exact foundFrom_skip a (c :: s) 0 1 s rfl

/-- A text where nothing matches, likewise. -/
theorem found_quiet {a : Pattern κ} {gap s : List α}
    (h : ∀ u v, gap = u ++ v → v ≠ [] → matchAt ch a (v ++ s) = none) :
    found ch a (gap ++ s) = found ch a s := by
  induction gap with
  | nil => rfl
  | cons c gap ih =>
    have hhead : matchAt ch a (c :: (gap ++ s)) = none :=
      h [] (c :: gap) rfl (List.cons_ne_nil c gap)
    rw [List.cons_append, found_cons hhead]
    refine ih fun u v huv hv => ?_
    exact h (c :: u) v (by rw [huv, List.cons_append]) hv

/-- A match at the head comes first, and the search goes on behind it. -/
theorem found_append {a : Pattern κ} {m s : List α} {groups : List (κ × List α)} (hm : m ≠ [])
    (h : matchAt ch a (m ++ s) = some ⟨s, groups⟩) :
    found ch a (m ++ s) = groups :: found ch a s := by
  obtain ⟨c, m, rfl⟩ := List.exists_cons_of_ne_nil hm
  rw [List.cons_append] at h ⊢
  have htext : textAt ch a (c :: (m ++ s)) = some (c :: m) := by
    rw [textAt, h, Option.map_some]
    dsimp only
    rw [List.length_cons, List.length_append, Nat.add_right_comm, Nat.add_sub_cancel,
      List.take_succ_cons, List.take_left]
  rw [found_eq, foundFrom, Scan.scanFrom, htext]
  dsimp only
  rw [List.filterMap_cons, List.drop_zero, h, Option.map_some]
  dsimp only
  have htail : foundFrom ch a (c :: (m ++ s)) m.length 1 (m ++ s)
      = found ch a ((m ++ s).drop m.length) := foundFrom_skip a _ m.length 1 (m ++ s) rfl
  rw [foundFrom, List.drop_left] at htail
  rw [← htail]
  rfl

end

end Backtrack
