import Rustle.Library.Scan
import Rustle.Library.Text

/-!
# Patterns with groups, matched by backtracking

The patterns of a backtracking matcher: every choice has an order, and the first
way through the pattern counts.  A text may consist of anything that carries a
character, so that what is matched can be followed back to where it came from.

* `Pattern`, `run` — the patterns and the matcher, with a continuation.
* `Parses` — the ways through a pattern; `parses_of_run` says that the matcher takes
  one of them.
* `Lang` — the texts of a pattern; `textAt_isSome_iff` — the matcher misses none.
* `run_many_char` — a repetition that ends where its continuation can start.
* `matchAt`, `finditer`, `sub` — a match at the head of a text, all the matches, and
  their replacement.
-/

namespace Backtrack

/-- A pattern with groups of names `κ`. -/
inductive Pattern (κ : Type) where
  | empty
  /-- One character of a class. -/
  | char (p : Char → Bool)
  | seq (a b : Pattern κ)
  /-- The first one if it leads to a match, otherwise the second one. -/
  | alt (a b : Pattern κ)
  /-- As often as possible; what is repeated must not match the empty text. -/
  | many (a : Pattern κ)
  | group (g : κ) (a : Pattern κ)

/-- What is left of the text, and the groups, the latest one first. -/
structure State (κ α : Type) where
  rest : List α
  groups : List (κ × List α)

namespace Pattern

variable {κ : Type}

/-- The characters of a text, one after the other. -/
def literal (s : Str) : Pattern κ := s.foldr (fun c a => seq (char (· == c)) a) empty

/-- `a?` -/
def opt (a : Pattern κ) : Pattern κ := alt a empty

/-- `a+` -/
def many1 (a : Pattern κ) : Pattern κ := seq a (many a)

/-- One pattern after the other. -/
def seqs (l : List (Pattern κ)) : Pattern κ := l.foldr seq empty

/-- The least number of characters that are matched. -/
def least : Pattern κ → Nat
  | empty => 0
  | char _ => 1
  | seq a b => a.least + b.least
  | alt a b => min a.least b.least
  | many _ => 0
  | group _ a => a.least

/-- Is nothing repeated that may match the empty text? -/
def proper : Pattern κ → Bool
  | seq a b => proper a && proper b
  | alt a b => proper a && proper b
  | many a => 0 < a.least && proper a
  | group _ a => proper a
  | empty | char _ => true

variable [DecidableEq κ]

/-- Does every way through the pattern go through the group? -/
def requires (g : κ) : Pattern κ → Bool
  | seq a b => requires g a || requires g b
  | alt a b => requires g a && requires g b
  | group h a => h == g || requires g a
  | empty | char _ | many _ => false

/-- Is what stands in the group never empty? -/
def solid (g : κ) : Pattern κ → Bool
  | seq a b => solid g a && solid g b
  | alt a b => solid g a && solid g b
  | many a => solid g a
  | group h a => (h != g || 0 < a.least) && solid g a
  | empty | char _ => true

end Pattern

section

variable {κ α β : Type} (ch : α → Char)

/-- A repetition, with the number of characters left as its bound. -/
def runMany (step : (State κ α → Option β) → State κ α → Option β) :
    Nat → (State κ α → Option β) → State κ α → Option β
  | 0, k, o => k o
  | n + 1, k, o => (step (runMany step n k) o).orElse fun _ => k o

/-- The matcher: the first way through the pattern that the continuation accepts. -/
def run : Pattern κ → (State κ α → Option β) → State κ α → Option β
  | .empty, k, o => k o
  | .char p, k, o =>
    match o.rest with
    | [] => none
    | c :: s => if p (ch c) then k ⟨s, o.groups⟩ else none
  | .seq a b, k, o => run a (run b k) o
  | .alt a b, k, o => (run a k o).orElse fun _ => run b k o
  | .many a, k, o => runMany (run a) o.rest.length k o
  | .group g a, k, o =>
    run a (fun o' =>
      k ⟨o'.rest, (g, o.rest.take (o.rest.length - o'.rest.length)) :: o'.groups⟩) o

/-- The ways through a pattern. -/
inductive Parses : Pattern κ → State κ α → State κ α → Prop where
  | empty (o : State κ α) : Parses .empty o o
  | char {p : Char → Bool} {c : α} (s : List α) (groups : List (κ × List α))
      (h : p (ch c) = true) : Parses (.char p) ⟨c :: s, groups⟩ ⟨s, groups⟩
  | seq {a b : Pattern κ} {o o' o'' : State κ α} (ha : Parses a o o') (hb : Parses b o' o'') :
      Parses (.seq a b) o o''
  | altLeft {a b : Pattern κ} {o o' : State κ α} (h : Parses a o o') : Parses (.alt a b) o o'
  | altRight {a b : Pattern κ} {o o' : State κ α} (h : Parses b o o') : Parses (.alt a b) o o'
  | manyNil (a : Pattern κ) (o : State κ α) : Parses (.many a) o o
  | manyCons {a : Pattern κ} {o o' o'' : State κ α} (ha : Parses a o o')
      (hs : Parses (.many a) o' o'') : Parses (.many a) o o''
  | group {g : κ} {a : Pattern κ} {o o' : State κ α} (h : Parses a o o') :
      Parses (.group g a) o
        ⟨o'.rest, (g, o.rest.take (o.rest.length - o'.rest.length)) :: o'.groups⟩

variable {ch}

theorem parses_of_runMany {a : Pattern κ}
    (ih : ∀ (k : State κ α → Option β) (o : State κ α) (b : β), run ch a k o = some b →
      ∃ o', Parses ch a o o' ∧ k o' = some b)
    (n : Nat) {k : State κ α → Option β} {o : State κ α} {b : β}
    (h : runMany (run ch a) n k o = some b) :
    ∃ o', Parses ch (.many a) o o' ∧ k o' = some b := by
  induction n generalizing o with
  | zero => exact ⟨o, .manyNil a o, h⟩
  | succ n ihn =>
    rw [runMany] at h
    cases hstep : run ch a (runMany (run ch a) n k) o with
    | none =>
      rw [hstep] at h
      exact ⟨o, .manyNil a o, h⟩
    | some b' =>
      rw [hstep] at h
      obtain rfl : b' = b := by simpa using h
      obtain ⟨o₁, ha, hk⟩ := ih _ o b' hstep
      obtain ⟨o₂, hs, hk⟩ := ihn hk
      exact ⟨o₂, .manyCons ha hs, hk⟩

/-- The matcher finds a way through the pattern to a state that the continuation
accepts. -/
theorem parses_of_run (a : Pattern κ) :
    ∀ (k : State κ α → Option β) (o : State κ α) (b : β), run ch a k o = some b →
      ∃ o', Parses ch a o o' ∧ k o' = some b := by
  induction a with
  | empty =>
    intro k o b h
    exact ⟨o, .empty o, h⟩
  | char p =>
    intro k o b h
    cases o with
    | mk rest groups =>
      cases rest with
      | nil => simp [run] at h
      | cons c s =>
        simp only [run] at h
        split at h
        · rename_i hp
          exact ⟨_, .char s groups hp, h⟩
        · cases h
  | seq a b iha ihb =>
    intro k o b' h
    obtain ⟨o₁, ha, h₁⟩ := iha _ o b' h
    obtain ⟨o₂, hb, h₂⟩ := ihb _ o₁ b' h₁
    exact ⟨o₂, .seq ha hb, h₂⟩
  | alt a b iha ihb =>
    intro k o b' h
    rw [run] at h
    cases hrun : run ch a k o with
    | none =>
      rw [hrun] at h
      obtain ⟨o', hb, hk⟩ := ihb k o b' h
      exact ⟨o', .altRight hb, hk⟩
    | some b'' =>
      rw [hrun] at h
      obtain rfl : b'' = b' := by simpa using h
      obtain ⟨o', ha, hk⟩ := iha k o b'' hrun
      exact ⟨o', .altLeft ha, hk⟩
  | many a ih =>
    intro k o b h
    exact parses_of_runMany ih _ h
  | group g a ih =>
    intro k o b h
    obtain ⟨o', ha, hk⟩ := ih _ o b h
    exact ⟨_, .group ha, hk⟩

/-- The first one of two patterns in a row. -/
theorem parses_of_run_seq {a b : Pattern κ} {k : State κ α → Option β} {o : State κ α} {x : β}
    (h : run ch (.seq a b) k o = some x) :
    ∃ o', Parses ch a o o' ∧ run ch b k o' = some x :=
  parses_of_run a _ o x h

/-- What a way through a pattern does: it takes a piece of the text, and every new
group is a part of this piece. -/
theorem Parses.used {a : Pattern κ} {o o' : State κ α} (h : Parses ch a o o') :
    ∃ used, o.rest = used ++ o'.rest ∧ a.least ≤ used.length ∧
      ∀ e ∈ o'.groups, e ∈ o.groups ∨ e.2 <:+: used := by
  induction h with
  | empty o => exact ⟨[], rfl, le_refl 0, fun e he => Or.inl he⟩
  | char s groups hp =>
    rename_i c
    exact ⟨[c], rfl, le_refl 1, fun e he => Or.inl he⟩
  | seq ha hb iha ihb =>
    obtain ⟨u, hu, hlen, hgroups⟩ := iha
    obtain ⟨v, hv, hlen', hgroups'⟩ := ihb
    refine ⟨u ++ v, by rw [hu, hv, List.append_assoc], ?_, fun e he => ?_⟩
    · rw [List.length_append]
      exact Nat.add_le_add hlen hlen'
    · rcases hgroups' e he with he | he
      · exact (hgroups e he).imp id fun hinfix => hinfix.trans List.infix_append_left
      · exact Or.inr (he.trans List.infix_append_right)
  | altLeft h ih =>
    obtain ⟨u, hu, hlen, hgroups⟩ := ih
    exact ⟨u, hu, le_trans (min_le_left _ _) hlen, hgroups⟩
  | altRight h ih =>
    obtain ⟨u, hu, hlen, hgroups⟩ := ih
    exact ⟨u, hu, le_trans (min_le_right _ _) hlen, hgroups⟩
  | manyNil a o => exact ⟨[], rfl, le_refl 0, fun e he => Or.inl he⟩
  | manyCons ha hs iha ihs =>
    obtain ⟨u, hu, -, hgroups⟩ := iha
    obtain ⟨v, hv, -, hgroups'⟩ := ihs
    refine ⟨u ++ v, by rw [hu, hv, List.append_assoc], Nat.zero_le _, fun e he => ?_⟩
    rcases hgroups' e he with he | he
    · exact (hgroups e he).imp id fun hinfix => hinfix.trans List.infix_append_left
    · exact Or.inr (he.trans List.infix_append_right)
  | group h ih =>
    rename_i g a o o'
    obtain ⟨u, hu, hlen, hgroups⟩ := ih
    refine ⟨u, hu, hlen, fun e he => ?_⟩
    rcases List.mem_cons.1 he with rfl | he
    · right
      rw [hu, List.length_append, Nat.add_sub_cancel, List.take_left]
    · exact hgroups e he

variable (ch) in
/-- A step that has a way to go on succeeds with every continuation that accepts one. -/
def Complete (a : Pattern κ) (step : (State κ α → Option β) → State κ α → Option β) : Prop :=
  ∀ o o', Parses ch a o o' → ∀ k, (k o').isSome → (step k o).isSome

theorem run_mono {a : Pattern κ} (ha : Complete ch a (run ch a (β := β)))
    {k k' : State κ α → Option β} (h : ∀ o, (k o).isSome → (k' o).isSome) {o : State κ α}
    (hrun : (run ch a k o).isSome) : (run ch a k' o).isSome := by
  obtain ⟨b, hb⟩ := Option.isSome_iff_exists.1 hrun
  obtain ⟨o', hparses, hk⟩ := parses_of_run a k o b hb
  exact ha o o' hparses k' (h o' (by rw [hk]; rfl))

theorem runMany_isSome {step : (State κ α → Option β) → State κ α → Option β} {n : Nat}
    {k : State κ α → Option β} {o : State κ α} (h : (k o).isSome) :
    (runMany step n k o).isSome := by
  cases n with
  | zero => exact h
  | succ n =>
    rw [runMany]
    cases step (runMany step n k) o with
    | none => exact h
    | some b => rfl

/-- A larger bound does no harm. -/
theorem runMany_mono {a : Pattern κ} (ha : Complete ch a (run ch a (β := β)))
    {k : State κ α → Option β} {m n : Nat} (hmn : m ≤ n) {o : State κ α}
    (h : (runMany (run ch a) m k o).isSome) : (runMany (run ch a) n k o).isSome := by
  induction m generalizing n o with
  | zero => exact runMany_isSome h
  | succ m ih =>
    obtain ⟨n, rfl⟩ : ∃ n', n = n' + 1 := ⟨n - 1, by omega⟩
    rw [runMany] at h ⊢
    cases hstep : run ch a (runMany (run ch a) m k) o with
    | none =>
      rw [hstep] at h
      cases run ch a (runMany (run ch a) n k) o with
      | none => exact h
      | some b => rfl
    | some b =>
      have hn : (run ch a (runMany (run ch a) n k) o).isSome :=
        run_mono ha (fun o' ho' => ih (by omega) ho') (by rw [hstep]; rfl)
      obtain ⟨b', hb'⟩ := Option.isSome_iff_exists.1 hn
      rw [hb']
      rfl

theorem complete_many {a : Pattern κ} (ha : Complete ch a (run ch a (β := β)))
    (hleast : 0 < a.least) : Complete ch (.many a) (run ch (.many a) (β := β)) := by
  intro o o' h k hk
  generalize hm : Pattern.many a = m at h
  induction h with
  | manyNil a' o => exact runMany_isSome hk
  | manyCons hfirst hrest ihfirst ih =>
    rename_i a' o o₁ o₂
    cases hm
    have hih := ih hk rfl
    obtain ⟨used, hused, hlen, -⟩ := hfirst.used
    have hlength : o.rest.length = used.length + o₁.rest.length := by
      rw [hused, List.length_append]
    obtain ⟨n, hn⟩ : ∃ n, o.rest.length = n + 1 := ⟨o.rest.length - 1, by omega⟩
    rw [run, hn, runMany]
    have hstep : (run ch a (runMany (run ch a) n k) o).isSome :=
      ha o o₁ hfirst _ (runMany_mono ha (by omega) hih)
    obtain ⟨b, hb⟩ := Option.isSome_iff_exists.1 hstep
    rw [hb]
    rfl
  | _ => cases hm

/-- The matcher misses no way through a pattern. -/
theorem complete_run (a : Pattern κ) (hproper : a.proper = true) :
    Complete ch a (run ch a (β := β)) := by
  induction a with
  | empty =>
    intro o o' h k hk
    cases h
    exact hk
  | char p =>
    intro o o' h k hk
    cases h with
    | char s groups hp =>
      rw [run]
      simpa [hp] using hk
  | seq a b iha ihb =>
    rw [Pattern.proper, Bool.and_eq_true] at hproper
    intro o o' h k hk
    cases h with
    | seq ha hb => exact iha hproper.1 _ _ ha _ (ihb hproper.2 _ _ hb k hk)
  | alt a b iha ihb =>
    rw [Pattern.proper, Bool.and_eq_true] at hproper
    intro o o' h k hk
    rw [run]
    cases h with
    | altLeft h =>
      obtain ⟨b', hb'⟩ := Option.isSome_iff_exists.1 (iha hproper.1 _ _ h k hk)
      rw [hb']
      rfl
    | altRight h =>
      have hb := ihb hproper.2 _ _ h k hk
      cases run ch a k o with
      | none => exact hb
      | some b' => rfl
  | many a ih =>
    rw [Pattern.proper, Bool.and_eq_true, decide_eq_true_eq] at hproper
    exact complete_many (ih hproper.2) hproper.1
  | group g a ih =>
    intro o o' h k hk
    cases h with
    | group h => exact ih hproper _ _ h _ hk

variable [DecidableEq κ] {g : κ}

/-- What is new in a group that is never empty is not empty. -/
theorem Parses.solid {a : Pattern κ} {o o' : State κ α} (h : Parses ch a o o')
    (hs : a.solid g = true) : ∀ t, (g, t) ∈ o'.groups → (g, t) ∈ o.groups ∨ t ≠ [] := by
  induction h with
  | empty o => exact fun t ht => Or.inl ht
  | char s groups hp => exact fun t ht => Or.inl ht
  | seq ha hb iha ihb =>
    rw [Pattern.solid, Bool.and_eq_true] at hs
    intro t ht
    exact (ihb hs.2 t ht).elim (iha hs.1 t) Or.inr
  | altLeft h ih =>
    rw [Pattern.solid, Bool.and_eq_true] at hs
    exact ih hs.1
  | altRight h ih =>
    rw [Pattern.solid, Bool.and_eq_true] at hs
    exact ih hs.2
  | manyNil a o => exact fun t ht => Or.inl ht
  | manyCons ha hs' iha ihs =>
    intro t ht
    exact (ihs hs t ht).elim (iha hs t) Or.inr
  | group h ih =>
    rename_i g' a o o'
    rw [Pattern.solid, Bool.and_eq_true, Bool.or_eq_true, bne_iff_ne, decide_eq_true_eq] at hs
    intro t ht
    rcases List.mem_cons.1 ht with heq | ht
    · right
      rw [Prod.mk.injEq] at heq
      obtain ⟨u, hu, hlen, -⟩ := h.used
      have hpos : 0 < a.least := hs.1.resolve_left fun hne => hne heq.1.symm
      rw [heq.2, hu, List.length_append, Nat.add_sub_cancel, List.take_left]
      apply List.ne_nil_of_length_pos
      omega
    · exact ih hs.2 t ht

/-- A way through a pattern that requires a group leaves it behind. -/
theorem Parses.requires {a : Pattern κ} {o o' : State κ α} (h : Parses ch a o o') :
    ((∃ t, (g, t) ∈ o.groups) ∨ a.requires g = true) → ∃ t, (g, t) ∈ o'.groups := by
  induction h with
  | empty o => exact fun h => h.elim id fun h => absurd h (by simp [Pattern.requires])
  | char s groups hp => exact fun h => h.elim id fun h => absurd h (by simp [Pattern.requires])
  | seq ha hb iha ihb =>
    rintro (h | h)
    · exact ihb (Or.inl (iha (Or.inl h)))
    · rw [Pattern.requires, Bool.or_eq_true] at h
      rcases h with h | h
      · exact ihb (Or.inl (iha (Or.inr h)))
      · exact ihb (Or.inr h)
  | altLeft h ih =>
    rintro (h | h)
    · exact ih (Or.inl h)
    · rw [Pattern.requires, Bool.and_eq_true] at h
      exact ih (Or.inr h.1)
  | altRight h ih =>
    rintro (h | h)
    · exact ih (Or.inl h)
    · rw [Pattern.requires, Bool.and_eq_true] at h
      exact ih (Or.inr h.2)
  | manyNil a o => exact fun h => h.elim id fun h => absurd h (by simp [Pattern.requires])
  | manyCons ha hs iha ihs =>
    rintro (h | h)
    · exact ihs (Or.inl (iha (Or.inl h)))
    · simp [Pattern.requires] at h
  | group h ih =>
    rename_i g' a o o'
    rintro (h | h)
    · obtain ⟨t, ht⟩ := ih (Or.inl h)
      exact ⟨t, List.mem_cons_of_mem _ ht⟩
    · rw [Pattern.requires, Bool.or_eq_true, beq_iff_eq] at h
      rcases h with rfl | h
      · exact ⟨_, List.mem_cons_self⟩
      · obtain ⟨t, ht⟩ := ih (Or.inr h)
        exact ⟨t, List.mem_cons_of_mem _ ht⟩

end

/-! ## Pieces of patterns -/

section

variable {κ α β : Type} {ch : α → Char}

theorem run_many_nil (p : Char → Bool) (k : State κ α → Option β) (groups : List (κ × List α)) :
    run ch (.many (.char p)) k ⟨[], groups⟩ = k ⟨[], groups⟩ := rfl

theorem run_many_cons (p : Char → Bool) (k : State κ α → Option β) (c : α) (s : List α)
    (groups : List (κ × List α)) :
    run ch (.many (.char p)) k ⟨c :: s, groups⟩ =
      if p (ch c) then
        (run ch (.many (.char p)) k ⟨s, groups⟩).orElse fun _ => k ⟨c :: s, groups⟩
      else k ⟨c :: s, groups⟩ := by
  rw [run, List.length_cons, runMany, run]
  dsimp only
  split
  · rfl
  · rfl

/-- A repetition whose continuation fails as long as it could go on takes all it can. -/
theorem run_many_char {p : Char → Bool} {k : State κ α → Option β}
    (hstop : ∀ c s groups, p (ch c) = true → k ⟨c :: s, groups⟩ = none) (s : List α)
    (groups : List (κ × List α)) :
    run ch (.many (.char p)) k ⟨s, groups⟩ = k ⟨s.dropWhile fun c => p (ch c), groups⟩ := by
  induction s with
  | nil => rfl
  | cons c s ih =>
    rw [run_many_cons, List.dropWhile_cons]
    split
    · rename_i hp
      rw [ih, hstop c s groups hp]
      cases k ⟨s.dropWhile fun c => p (ch c), groups⟩ with
      | none => rfl
      | some b => rfl
    · rfl

/-- A repetition at least once, likewise. -/
theorem run_many1_char {p : Char → Bool} {k : State κ α → Option β}
    (hstop : ∀ c s groups, p (ch c) = true → k ⟨c :: s, groups⟩ = none) (s : List α)
    (groups : List (κ × List α)) :
    run ch (Pattern.many1 (.char p)) k ⟨s, groups⟩ =
      if s.head?.any fun c => p (ch c) then
        k ⟨s.dropWhile fun c => p (ch c), groups⟩
      else none := by
  rw [Pattern.many1, run]
  cases s with
  | nil => rfl
  | cons c s =>
    rw [run]
    dsimp only
    rw [run_many_char hstop, List.head?_cons, Option.any_some, List.dropWhile_cons]
    split
    · rfl
    · rfl

theorem run_literal (w : Str) (k : State κ α → Option β) (s : List α)
    (groups : List (κ × List α)) :
    run ch (Pattern.literal w) k ⟨s, groups⟩ =
      if w <+: s.map ch then k ⟨s.drop w.length, groups⟩ else none := by
  induction w generalizing s with
  | nil => simp [Pattern.literal, run]
  | cons c w ih =>
    have hlit : (Pattern.literal (c :: w) : Pattern κ)
        = .seq (.char (· == c)) (Pattern.literal w) := rfl
    rw [hlit, run, run]
    cases s with
    | nil => simp
    | cons d s =>
      dsimp only
      rw [ih, List.map_cons, List.length_cons, List.drop_succ_cons]
      by_cases hd : ch d = c
      · simp [hd]
      · simp [hd, Ne.symm hd]

/-- What is done with the result may as well be done by the continuation. -/
theorem run_map {γ : Type} (f : β → γ) (a : Pattern κ) (k : State κ α → Option β)
    (o : State κ α) : run ch a (fun o => (k o).map f) o = (run ch a k o).map f := by
  have horElse : ∀ (x : Option β) (y : Unit → Option β),
      (x.map f).orElse (fun u => (y u).map f) = (x.orElse y).map f := by
    intro x y
    cases x with
    | none => rfl
    | some b => rfl
  induction a generalizing k o with
  | empty => rfl
  | char p =>
    rw [run, run]
    cases o.rest with
    | nil => rfl
    | cons c s =>
      dsimp only
      split
      · rfl
      · rfl
  | seq a b iha ihb =>
    rw [run, run, ← iha]
    congr 1
    funext o'
    exact ihb k o'
  | alt a b iha ihb => rw [run, run, iha, ihb, horElse]
  | many a ih =>
    rw [run, run]
    generalize o.rest.length = n
    induction n generalizing o with
    | zero => rfl
    | succ n ihn =>
      rw [runMany, runMany, ← horElse, ← ih]
      congr 2
      funext o'
      exact ihn o'
  | group g a ih =>
    rw [run, run, ← ih]

/-! ## The texts of a pattern -/

variable (ch) in
/-- The texts that a pattern can take. -/
def Lang : Pattern κ → List α → Prop
  | .empty, s => s = []
  | .char p, s => ∃ c, s = [c] ∧ p (ch c) = true
  | .seq a b, s => ∃ u v, s = u ++ v ∧ Lang a u ∧ Lang b v
  | .alt a b, s => Lang a s ∨ Lang b s
  | .many a, s => ∃ pieces : List (List α), s = pieces.flatten ∧ ∀ p ∈ pieces, Lang a p
  | .group _ a, s => Lang a s

theorem lang_of_parses {a : Pattern κ} {o o' : State κ α} (h : Parses ch a o o') :
    ∃ used, o.rest = used ++ o'.rest ∧ Lang ch a used := by
  induction h with
  | empty o => exact ⟨[], rfl, rfl⟩
  | char s groups hp => exact ⟨[_], rfl, _, rfl, hp⟩
  | seq ha hb iha ihb =>
    obtain ⟨u, hu, hlang⟩ := iha
    obtain ⟨v, hv, hlang'⟩ := ihb
    exact ⟨u ++ v, by rw [hu, hv, List.append_assoc], u, v, rfl, hlang, hlang'⟩
  | altLeft h ih =>
    obtain ⟨u, hu, hlang⟩ := ih
    exact ⟨u, hu, Or.inl hlang⟩
  | altRight h ih =>
    obtain ⟨u, hu, hlang⟩ := ih
    exact ⟨u, hu, Or.inr hlang⟩
  | manyNil a o => exact ⟨[], rfl, [], rfl, by simp⟩
  | manyCons ha hs iha ihs =>
    obtain ⟨u, hu, hlang⟩ := iha
    obtain ⟨v, hv, pieces, rfl, hpieces⟩ := ihs
    refine ⟨u ++ pieces.flatten, by rw [hu, hv, List.append_assoc], u :: pieces, rfl, ?_⟩
    intro p hp
    rcases List.mem_cons.1 hp with rfl | hp
    · exact hlang
    · exact hpieces p hp
  | group h ih => exact ih

theorem parses_of_lang {a : Pattern κ} {used : List α} (h : Lang ch a used) (t : List α)
    (groups : List (κ × List α)) :
    ∃ groups', Parses ch a ⟨used ++ t, groups⟩ ⟨t, groups'⟩ := by
  induction a generalizing used t groups with
  | empty =>
    obtain rfl : used = [] := h
    exact ⟨groups, .empty _⟩
  | char p =>
    obtain ⟨c, rfl, hp⟩ := h
    exact ⟨groups, .char t groups hp⟩
  | seq a b iha ihb =>
    obtain ⟨u, v, rfl, hu, hv⟩ := h
    obtain ⟨g₁, h₁⟩ := iha hu (v ++ t) groups
    obtain ⟨g₂, h₂⟩ := ihb hv t g₁
    refine ⟨g₂, ?_⟩
    rw [List.append_assoc]
    exact .seq h₁ h₂
  | alt a b iha ihb =>
    rcases h with h | h
    · obtain ⟨g, hg⟩ := iha h t groups
      exact ⟨g, .altLeft hg⟩
    · obtain ⟨g, hg⟩ := ihb h t groups
      exact ⟨g, .altRight hg⟩
  | many a ih =>
    obtain ⟨pieces, rfl, hpieces⟩ := h
    induction pieces generalizing groups with
    | nil => exact ⟨groups, .manyNil a _⟩
    | cons u pieces ihp =>
      obtain ⟨g₁, h₁⟩ := ih (hpieces u List.mem_cons_self) (pieces.flatten ++ t) groups
      obtain ⟨g₂, h₂⟩ := ihp g₁ fun p hp => hpieces p (List.mem_cons_of_mem u hp)
      refine ⟨g₂, ?_⟩
      rw [List.flatten_cons, List.append_assoc]
      exact .manyCons h₁ h₂
  | group g a ih =>
    obtain ⟨g₁, h₁⟩ := ih h t groups
    exact ⟨_, .group h₁⟩

@[simp] theorem lang_empty {s : List α} : Lang ch (.empty : Pattern κ) s ↔ s = [] := Iff.rfl

@[simp] theorem lang_char {p : Char → Bool} {s : List α} :
    Lang ch (.char p : Pattern κ) s ↔ ∃ c, s = [c] ∧ p (ch c) = true := Iff.rfl

@[simp] theorem lang_seq {a b : Pattern κ} {s : List α} :
    Lang ch (.seq a b) s ↔ ∃ u v, s = u ++ v ∧ Lang ch a u ∧ Lang ch b v := Iff.rfl

theorem lang_many_char {p : Char → Bool} {s : List α} :
    Lang ch (.many (.char p) : Pattern κ) s ↔ ∀ c ∈ s, p (ch c) = true := by
  constructor
  · rintro ⟨pieces, rfl, hpieces⟩ c hc
    obtain ⟨l, hl, hcl⟩ := List.mem_flatten.1 hc
    obtain ⟨d, rfl, hd⟩ := hpieces l hl
    rw [List.mem_singleton.1 hcl]
    exact hd
  · intro h
    refine ⟨s.map fun c => [c], by rw [← List.flatMap_def, List.flatMap_singleton'],
      fun l hl => ?_⟩
    obtain ⟨c, hc, rfl⟩ := List.mem_map.1 hl
    exact ⟨c, rfl, h c hc⟩

theorem lang_many1_char {p : Char → Bool} {s : List α} :
    Lang ch (Pattern.many1 (.char p) : Pattern κ) s ↔ s ≠ [] ∧ ∀ c ∈ s, p (ch c) = true := by
  rw [Pattern.many1, lang_seq]
  simp only [lang_char, lang_many_char]
  constructor
  · rintro ⟨u, v, rfl, ⟨c, rfl, hc⟩, hv⟩
    refine ⟨by simp, fun d hd => ?_⟩
    rcases List.mem_append.1 hd with hd | hd
    · rw [List.mem_singleton.1 hd]
      exact hc
    · exact hv d hd
  · rintro ⟨hne, hs⟩
    obtain ⟨c, v, rfl⟩ := List.exists_cons_of_ne_nil hne
    exact ⟨[c], v, rfl, ⟨c, rfl, hs c List.mem_cons_self⟩,
      fun d hd => hs d (List.mem_cons_of_mem c hd)⟩

theorem lang_literal {w : Str} {s : List α} :
    Lang ch (Pattern.literal w : Pattern κ) s ↔ s.map ch = w := by
  induction w generalizing s with
  | nil => simp [Pattern.literal]
  | cons d w ih =>
    have hlit : (Pattern.literal (d :: w) : Pattern κ)
        = .seq (.char (· == d)) (Pattern.literal w) := rfl
    rw [hlit, lang_seq]
    simp only [lang_char, ih]
    constructor
    · rintro ⟨u, v, rfl, ⟨c, rfl, hc⟩, rfl⟩
      rw [List.map_append, List.map_singleton, beq_iff_eq.1 hc, List.singleton_append]
    · intro h
      cases s with
      | nil => cases h
      | cons c s =>
        rw [List.map_cons, List.cons.injEq] at h
        exact ⟨[c], s, rfl, ⟨c, rfl, by rw [h.1, beq_self_eq_true]⟩, h.2⟩

/-- Only the characters matter. -/
theorem lang_map {a : Pattern κ} {s : List α} : Lang ch a s ↔ Lang id a (s.map ch) := by
  induction a generalizing s with
  | empty => simp
  | char p =>
    constructor
    · rintro ⟨c, rfl, hc⟩
      exact ⟨ch c, rfl, hc⟩
    · rintro ⟨c, hs, hc⟩
      obtain ⟨d, rfl, rfl⟩ : ∃ d, s = [d] ∧ ch d = c := by
        rw [List.map_eq_singleton_iff] at hs
        exact hs
      exact ⟨d, rfl, hc⟩
  | seq a b iha ihb =>
    constructor
    · rintro ⟨u, v, rfl, hu, hv⟩
      exact ⟨u.map ch, v.map ch, List.map_append, iha.1 hu, ihb.1 hv⟩
    · rintro ⟨u, v, hs, hu, hv⟩
      obtain ⟨u', v', rfl, rfl, rfl⟩ := List.map_eq_append_iff.1 hs
      exact ⟨u', v', rfl, iha.2 hu, ihb.2 hv⟩
  | alt a b iha ihb => exact or_congr iha ihb
  | many a ih =>
    constructor
    · rintro ⟨pieces, rfl, hpieces⟩
      refine ⟨pieces.map (List.map ch), List.map_flatten, fun l hl => ?_⟩
      obtain ⟨l', hl', rfl⟩ := List.mem_map.1 hl
      exact ih.1 (hpieces l' hl')
    · rintro ⟨pieces, hs, hpieces⟩
      induction pieces generalizing s with
      | nil => exact ⟨[], by simpa using hs, by simp⟩
      | cons u pieces ihp =>
        rw [List.flatten_cons] at hs
        obtain ⟨u', v', rfl, rfl, hv⟩ := List.map_eq_append_iff.1 hs
        obtain ⟨pieces', rfl, hpieces'⟩ := ihp hv fun l hl => hpieces l (List.mem_cons_of_mem _ hl)
        refine ⟨u' :: pieces', rfl, fun l hl => ?_⟩
        rcases List.mem_cons.1 hl with rfl | hl
        · exact ih.2 (hpieces _ List.mem_cons_self)
        · exact hpieces' l hl
  | group g a ih => exact ih

theorem run_many_any_isSome {p : Char → Bool} (hp : ∀ c, p c = true)
    {k : State κ α → Option β} {u t : List α} {groups : List (κ × List α)}
    (h : (k ⟨t, groups⟩).isSome) : (run ch (.many (.char p)) k ⟨u ++ t, groups⟩).isSome := by
  induction u with
  | nil =>
    rw [List.nil_append]
    exact runMany_isSome h
  | cons c u ih =>
    rw [List.cons_append, run_many_cons, if_pos (hp _)]
    obtain ⟨b, hb⟩ := Option.isSome_iff_exists.1 ih
    rw [hb]
    rfl

/-- A repetition of a class of all characters ends at the last place where the
continuation succeeds. -/
theorem run_many_any {p : Char → Bool} (hp : ∀ c, p c = true) {k : State κ α → Option β}
    {s : List α} {groups : List (κ × List α)} {b : β}
    (h : run ch (.many (.char p)) k ⟨s, groups⟩ = some b) :
    ∃ u t, s = u ++ t ∧ k ⟨t, groups⟩ = some b ∧
      ∀ t', t' <:+ t → t' ≠ t → k ⟨t', groups⟩ = none := by
  induction s with
  | nil =>
    refine ⟨[], [], rfl, h, fun t' ht' hne => ?_⟩
    exact absurd (List.suffix_nil.1 ht') hne
  | cons c s ih =>
    rw [run_many_cons, if_pos (hp _)] at h
    cases hrun : run ch (.many (.char p)) k ⟨s, groups⟩ with
    | some b' =>
      rw [hrun] at h
      obtain ⟨u, t, rfl, hk, hlast⟩ := ih (by rw [hrun]; exact h)
      exact ⟨c :: u, t, rfl, hk, hlast⟩
    | none =>
      rw [hrun] at h
      refine ⟨[], c :: s, rfl, h, fun t' ht' hne => ?_⟩
      rcases List.suffix_cons_iff.1 ht' with rfl | ht'
      · exact absurd rfl hne
      · -- a success further on would have been taken
        obtain ⟨u, rfl⟩ := ht'
        cases hk : k ⟨t', groups⟩ with
        | none => rfl
        | some b' =>
          have hsome : (run ch (.many (.char p)) k ⟨u ++ t', groups⟩).isSome :=
            run_many_any_isSome hp (by rw [hk]; rfl)
          rw [hrun] at hsome
          cases hsome

/-! ## Matches of a text -/

/-- A match: where it starts, its text, and the groups, the latest one first. -/
structure Match (κ α : Type) where
  start : Nat
  text : List α
  groups : List (κ × List α)

def Match.stop (m : Match κ α) : Nat := m.start + m.text.length

variable (ch) in
/-- A match at the head of a text. -/
def matchAt (a : Pattern κ) (s : List α) : Option (State κ α) := run ch a some ⟨s, []⟩

variable (ch) in
/-- The text of a match at the head. -/
def textAt (a : Pattern κ) (s : List α) : Option (List α) :=
  (matchAt ch a s).map fun o => s.take (s.length - o.rest.length)

variable (ch) in
/-- `finditer` -/
def finditer (a : Pattern κ) (s : List α) : List (Match κ α) :=
  (Scan.finditer (textAt ch a) s).filterMap fun f =>
    (matchAt ch a (s.drop f.start)).map fun o => ⟨f.start, f.text, o.groups⟩

variable (ch) in
/-- `re.sub`, where `f` says what stands for a match. -/
def sub (a : Pattern κ) (f : List α → List α) (s : List α) : List α :=
  Scan.sub (textAt ch a) f s

theorem parses_of_matchAt {a : Pattern κ} {s : List α} {o : State κ α}
    (h : matchAt ch a s = some o) : Parses ch a ⟨s, []⟩ o := by
  obtain ⟨o', hparses, heq⟩ := parses_of_run a _ _ o h
  rw [Option.some.injEq] at heq
  rw [← heq]
  exact hparses

/-- There is a match at the head exactly if the text starts with one of the pattern. -/
theorem textAt_isSome_iff {a : Pattern κ} (hproper : a.proper = true) {s : List α} :
    (textAt ch a s).isSome ↔ ∃ used t, s = used ++ t ∧ Lang ch a used := by
  rw [textAt, Option.isSome_map]
  constructor
  · intro h
    obtain ⟨o, ho⟩ := Option.isSome_iff_exists.1 h
    obtain ⟨used, hused, hlang⟩ := lang_of_parses (parses_of_matchAt ho)
    exact ⟨used, o.rest, hused, hlang⟩
  · rintro ⟨used, t, rfl, hlang⟩
    obtain ⟨groups, hparses⟩ := parses_of_lang hlang t []
    exact complete_run a hproper _ _ hparses some rfl

theorem lang_of_textAt {a : Pattern κ} {s t : List α} (h : textAt ch a s = some t) :
    Lang ch a t ∧ t <+: s := by
  obtain ⟨o, ho, rfl⟩ := Option.map_eq_some_iff.1 h
  obtain ⟨used, hused, hlang⟩ := lang_of_parses (parses_of_matchAt ho)
  dsimp only at hused
  rw [hused, List.length_append, Nat.add_sub_cancel, List.take_left]
  exact ⟨hlang, List.prefix_append _ _⟩

/-- What a match at the head takes. -/
theorem textAt_spec {a : Pattern κ} {s t : List α} (h : textAt ch a s = some t) :
    ∃ o, matchAt ch a s = some o ∧ s = t ++ o.rest ∧ a.least ≤ t.length ∧
      ∀ e ∈ o.groups, e.2 <:+: t := by
  obtain ⟨o, ho, rfl⟩ := Option.map_eq_some_iff.1 h
  obtain ⟨used, hused, hlen, hgroups⟩ := (parses_of_matchAt ho).used
  dsimp only at hused
  have ht : s.take (s.length - o.rest.length) = used := by
    rw [hused, List.length_append, Nat.add_sub_cancel, List.take_left]
  rw [ht]
  exact ⟨o, ho, hused, hlen, fun e he => (hgroups e he).resolve_left List.not_mem_nil⟩

/-- A match stands where it was found, with its groups inside. -/
theorem mem_finditer {a : Pattern κ} {s : List α} {m : Match κ α} (h : m ∈ finditer ch a s) :
    ∃ o, matchAt ch a (s.drop m.start) = some o ∧ s.drop m.start = m.text ++ o.rest ∧
      a.least ≤ m.text.length ∧ m.groups = o.groups ∧ ∀ e ∈ m.groups, e.2 <:+: m.text := by
  obtain ⟨f, hf, hm⟩ := List.mem_filterMap.1 h
  obtain ⟨o, ho, rfl⟩ := Option.map_eq_some_iff.1 hm
  obtain ⟨o', ho', hdrop, hlen, hgroups⟩ := textAt_spec (Scan.mem_finditer hf).2
  rw [ho, Option.some.injEq] at ho'
  subst ho'
  exact ⟨o, ho, hdrop, hlen, rfl, hgroups⟩

/-- The matches do not overlap, and come in their order. -/
theorem finditer_pairwise (a : Pattern κ) (s : List α) :
    (finditer ch a s).Pairwise fun m m' => m.stop ≤ m'.start := by
  rw [finditer, List.pairwise_filterMap]
  refine (Scan.finditer_pairwise s).imp fun {f f'} hle m hm m' hm' => ?_
  obtain ⟨o, -, rfl⟩ := Option.map_eq_some_iff.1 hm
  obtain ⟨o', -, rfl⟩ := Option.map_eq_some_iff.1 hm'
  exact hle

/-- A position in a text lies in a piece that has a property. -/
def Within (L : Str → Prop) (s : Str) (j : Nat) : Prop :=
  ∃ p w, w <+: s.drop p ∧ L w ∧ p ≤ j ∧ j < p + w.length

theorem Within.getElem? {L : Str → Prop} {s : Str} {j : Nat} (h : Within L s j) :
    ∃ w c, L w ∧ c ∈ w ∧ s[j]? = some c := by
  obtain ⟨p, w, ⟨t, ht⟩, hL, hp, hj⟩ := h
  have hlt : j - p < w.length := by omega
  refine ⟨w, w[j - p], hL, List.getElem_mem hlt, ?_⟩
  have hget : (s.drop p)[j - p]? = some w[j - p] := by
    rw [← ht, List.getElem?_append_left hlt, List.getElem?_eq_getElem hlt]
  rwa [List.getElem?_drop, show p + (j - p) = j by omega] at hget

theorem found_text {a : Pattern κ} {s : List α} {b : Scan.Found α}
    (h : b ∈ Scan.finditer (textAt ch a) s) :
    Lang id a (b.text.map ch) ∧ b.text.map ch <+: (s.map ch).drop b.start := by
  obtain ⟨hlang, hpre⟩ := lang_of_textAt (Scan.mem_finditer h).2
  refine ⟨lang_map.1 hlang, ?_⟩
  rw [← List.map_drop]
  exact hpre.map ch

/-- Where a text of the pattern that starts inside of a match ends there too, the
matches cover all these texts. -/
theorem holds_iff_within {a : Pattern κ} (hproper : a.proper = true) (hleast : 0 < a.least)
    {s : List α}
    (hnest : ∀ b ∈ Scan.finditer (textAt ch a) s, ∀ p w, w <+: (s.map ch).drop p → Lang id a w →
      b.start ≤ p → p < b.stop → p + w.length ≤ b.stop) (j : Nat) :
    (∃ b ∈ Scan.finditer (textAt ch a) s, b.Holds j) ↔ Within (Lang id a) (s.map ch) j := by
  constructor
  · rintro ⟨b, hb, hstart, hstop⟩
    obtain ⟨hlang, hpre⟩ := found_text hb
    rw [Scan.Found.stop] at hstop
    exact ⟨b.start, b.text.map ch, hpre, hlang, hstart, by rwa [List.length_map]⟩
  · rintro ⟨p, w, hpre, hlang, hp, hj⟩
    have hwne : w ≠ [] := by
      rintro rfl
      rw [List.length_nil] at hj
      omega
    have hlt : p < s.length := by
      by_contra hge
      rw [List.drop_eq_nil_of_le (by rw [List.length_map]; omega), List.prefix_nil] at hpre
      exact hwne hpre
    rw [← List.map_drop] at hpre
    obtain ⟨v, hv⟩ := hpre
    obtain ⟨used, t, hdrop, hused, -⟩ := List.map_eq_append_iff.1 hv.symm
    have hsome : (textAt ch a (s.drop p)).isSome :=
      (textAt_isSome_iff hproper).2 ⟨used, t, hdrop, lang_map.2 (by rw [hused]; exact hlang)⟩
    obtain ⟨m, hm⟩ := Option.isSome_iff_exists.1 hsome
    have hpre : w <+: (s.map ch).drop p := by
      rw [← List.map_drop]
      exact ⟨v, hv⟩
    have hin : ∃ b ∈ Scan.finditer (textAt ch a) s, b.start ≤ p ∧ p < b.stop := by
      rcases Scan.finditer_covers hm hlt with hb | ⟨b, hb, hstart, hstop⟩
      · obtain ⟨o, -, -, hlen, -⟩ := textAt_spec hm
        refine ⟨_, hb, le_refl p, ?_⟩
        rw [Scan.Found.stop]
        dsimp only
        omega
      · exact ⟨b, hb, hstart.le, hstop⟩
    obtain ⟨b, hb, hstart, hstop⟩ := hin
    have hend := hnest b hb p w hpre hlang hstart hstop
    exact ⟨b, hb, by omega, by omega⟩

variable [DecidableEq κ]

/-- The text of a group. -/
def Match.group? (m : Match κ α) (g : κ) : Option (List α) :=
  (m.groups.find? fun e => e.1 = g).map Prod.snd

/-- A required group that is never empty holds a part of the match. -/
theorem group?_of_requires {a : Pattern κ} {s : List α} {m : Match κ α} {g : κ}
    (h : m ∈ finditer ch a s) (hrequires : a.requires g = true) (hsolid : a.solid g = true) :
    ∃ t, m.group? g = some t ∧ t ≠ [] ∧ t <:+: m.text := by
  obtain ⟨o, ho, -, -, hgroups, hinfix⟩ := mem_finditer h
  have hparses := parses_of_matchAt ho
  obtain ⟨t, ht⟩ := hparses.requires (Or.inr hrequires)
  obtain ⟨e, he⟩ : ∃ e, m.groups.find? (fun e => e.1 = g) = some e := by
    rw [← Option.isSome_iff_exists, List.find?_isSome]
    exact ⟨(g, t), by rwa [hgroups], by simp⟩
  have hmem := List.mem_of_find?_eq_some he
  have hkey : e.1 = g := by simpa using List.find?_some he
  refine ⟨e.2, by rw [Match.group?, he, Option.map_some], ?_, hinfix e hmem⟩
  have hmem' : (g, e.2) ∈ o.groups := by
    rw [← hkey, ← hgroups]
    exact hmem
  exact (hparses.solid hsolid e.2 hmem').resolve_left List.not_mem_nil

end

end Backtrack
