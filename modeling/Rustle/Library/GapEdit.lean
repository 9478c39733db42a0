import Rustle.Library.Backtrack

/-!
# Scanning two texts that differ in one place

* `Scans` — the scan as a relation, a match or a character at a time; `scans_finditer`,
  `Scans.unique` — it is what `finditer` does.
* `fill`, `Alike` — what is left of a text with a gap, and one attempt in front of the gap
  with each of two fillings.
* `Scans.course` — both scans go along up to the gap, or to the first attempt that is not
  alike, or over the gap.
* `Scans.reached`, `Scans.staysTo` — the places in front of the gap that both scans come to.
* `finditer_edit` — where no attempt is, and no match starts in the gap, the matches show
  the same.
* `finditer_taken`, `finditer_lost` — what is found when the head of a match is taken out of
  the text, and when a match in front of the gap fails with the other filling.
-/

namespace Backtrack

variable {κ α β : Type}

section

variable {ch : α → Char} {a : Pattern κ}

variable (ch a) in
/-- The matches that are found in a text whose first character has a position. -/
inductive Scans : Nat → List α → List (Match κ α) → Prop
  | nil (pos : Nat) : Scans pos [] []
  | miss {pos : Nat} {c : α} {s : List α} {ms : List (Match κ α)}
      (h : matchAt ch a (c :: s) = none) (hs : Scans (pos + 1) s ms) : Scans pos (c :: s) ms
  | hit {pos : Nat} {c : α} {s t : List α} {o : State κ α} {ms : List (Match κ α)}
      (h : matchAt ch a (c :: s) = some o) (ht : c :: s = t ++ o.rest) (hne : t ≠ [])
      (hs : Scans (pos + t.length) o.rest ms) : Scans pos (c :: s) (⟨pos, t, o.groups⟩ :: ms)

theorem used_of_matchAt (hleast : 0 < a.least) {s : List α} {o : State κ α}
    (h : matchAt ch a s = some o) : ∃ t, s = t ++ o.rest ∧ t ≠ [] := by
  obtain ⟨used, hused, hlen, -⟩ := (parses_of_matchAt h).used
  refine ⟨used, hused, ?_⟩
  apply List.ne_nil_of_length_pos
  omega

theorem scans_scanFrom (hleast : 0 < a.least) {s₀ : List α} {n pos : Nat} {s : List α}
    (hn : s.length ≤ n) (hs : s₀.drop pos = s) :
    Scans ch a pos s ((Scan.scanFrom (textAt ch a) 0 pos s).filterMap fun f =>
      (matchAt ch a (s₀.drop f.start)).map fun o => ⟨f.start, f.text, o.groups⟩) := by
  induction n generalizing pos s with
  | zero =>
    obtain rfl : s = [] := List.length_eq_zero_iff.1 (by omega)
    exact .nil pos
  | succ n ih =>
    cases s with
    | nil => exact .nil pos
    | cons c s =>
      rw [List.length_cons] at hn
      rw [Scan.scanFrom]
      have hdrop : ∀ k, s₀.drop (pos + 1 + k) = s.drop k := by
        intro k
        rw [show pos + 1 + k = pos + (k + 1) by omega, ← List.drop_drop, hs, List.drop_succ_cons]
      cases hm : textAt ch a (c :: s) with
      | none =>
        refine .miss ?_ (ih (by omega) (hdrop 0))
        rw [textAt, Option.map_eq_none_iff] at hm
        exact hm
      | some m =>
        obtain ⟨o, ho, htext, hlen, -⟩ := textAt_spec hm
        obtain ⟨k, hk⟩ : ∃ k, m.length = k + 1 := ⟨m.length - 1, by omega⟩
        have hrest : s.drop k = o.rest := by
          rw [← @List.drop_succ_cons _ c s k, ← hk, htext, List.drop_left]
        have htail := ih (by rw [List.length_drop]; omega) (hdrop k)
        dsimp only
        rw [hk, Nat.add_sub_cancel, Scan.scanFrom_skip, List.filterMap_cons, hs, ho]
        refine .hit ho htext (by rintro rfl; cases hk) ?_
        rw [← hrest, hk, show pos + (k + 1) = pos + 1 + k by omega]
        exact htail

/-- The scan is what `finditer` does. -/
theorem scans_finditer (hleast : 0 < a.least) (s : List α) :
    Scans ch a 0 s (finditer ch a s) :=
  scans_scanFrom hleast (le_refl _) rfl

theorem Scans.unique {pos : Nat} {s : List α} {ms ms' : List (Match κ α)}
    (h : Scans ch a pos s ms) (h' : Scans ch a pos s ms') : ms = ms' := by
  induction h generalizing ms' with
  | nil pos =>
    cases h'
    rfl
  | miss h hs ih =>
    cases h' with
    | miss _ hs' => exact ih hs'
    | hit ho ht hne hs' =>
      rw [h] at ho
      cases ho
  | hit h ht hne hs ih =>
    cases h' with
    | miss hnone hs' =>
      rw [h] at hnone
      cases hnone
    | hit ho ht' hne' hs' =>
      rw [h, Option.some.injEq] at ho
      subst ho
      rw [ht] at ht'
      obtain rfl := List.append_cancel_right ht'
      rw [ih hs']

/-- The matches do not depend on where the text stands. -/
theorem Scans.rebase {pos : Nat} {s : List α} {ms : List (Match κ α)} (h : Scans ch a pos s ms)
    (pos' : Nat) : ∃ ms', Scans ch a pos' s ms' ∧ ms'.map Match.groups = ms.map Match.groups := by
  induction h generalizing pos' with
  | nil pos => exact ⟨[], .nil pos', rfl⟩
  | miss h hs ih =>
    obtain ⟨ms', hms', hgroups⟩ := ih (pos' + 1)
    exact ⟨ms', .miss h hms', hgroups⟩
  | hit h ht hne hs ih =>
    obtain ⟨ms', hms', hgroups⟩ := ih (pos' + _)
    refine ⟨_, .hit h ht hne hms', ?_⟩
    rw [List.map_cons, List.map_cons, hgroups]

/-- A piece in which no match starts is passed over. -/
theorem Scans.behind {pos : Nat} {g V : List α} {ms : List (Match κ α)}
    (h : Scans ch a pos (g ++ V) ms)
    (hno : ∀ m ∈ ms, ¬ (pos ≤ m.start ∧ m.start < pos + g.length)) :
    Scans ch a (pos + g.length) V ms := by
  induction g generalizing pos with
  | nil => exact h
  | cons c g ih =>
    rw [List.length_cons] at hno ⊢
    rw [show pos + (g.length + 1) = pos + 1 + g.length by omega]
    cases h with
    | miss _ hs =>
      apply ih hs
      intro m hm hin
      exact hno m hm ⟨by omega, by omega⟩
    | hit h ht hne hs =>
      exact absurd ⟨le_refl pos, Nat.lt_add_of_pos_right (Nat.succ_pos g.length)⟩
        (hno _ List.mem_cons_self)

/-! ## Gaps -/

variable (ch a) in
/-- No match starts inside of a piece in front of a text. -/
def Quiet (g V : List α) : Prop :=
  ∀ c Y, (c :: Y) <:+ g → matchAt ch a (c :: (Y ++ V)) = none

theorem Scans.quiet {pos : Nat} {g V : List α} {ms : List (Match κ α)} (hg : Quiet ch a g V)
    (h : Scans ch a (pos + g.length) V ms) : Scans ch a pos (g ++ V) ms := by
  induction g generalizing pos with
  | nil => exact h
  | cons c g ih =>
    rw [List.length_cons, show pos + (g.length + 1) = pos + 1 + g.length by omega] at h
    refine .miss (hg c g List.suffix_rfl) (ih ?_ h)
    intro d Y hY
    exact hg d Y (hY.trans (List.suffix_cons c g))

theorem Quiet.scans {s : List α} (h : Quiet ch a s []) (pos : Nat) : Scans ch a pos s [] := by
  have hnil := @Scans.quiet _ _ ch a pos s [] [] h (.nil (pos + s.length))
  rwa [List.append_nil] at hnil

theorem Scans.of_quiet {pos : Nat} {s : List α} {ms : List (Match κ α)} (h : Scans ch a pos s ms)
    (hs : Quiet ch a s []) : ms = [] :=
  h.unique (hs.scans pos)

/-- One match, behind which none is found. -/
theorem Scans.of_hit {pos : Nat} {c : α} {s : List α} {o : State κ α} {ms : List (Match κ α)}
    (h : Scans ch a pos (c :: s) ms) (ho : matchAt ch a (c :: s) = some o)
    (hrest : Quiet ch a o.rest []) : ∃ t, c :: s = t ++ o.rest ∧ ms = [⟨pos, t, o.groups⟩] := by
  cases h with
  | miss hnone _ =>
    rw [hnone] at ho
    cases ho
  | @hit _ _ _ t o' ms ho' ht _ hs =>
    rw [ho', Option.some.injEq] at ho
    subst ho
    rw [hs.of_quiet hrest]
    exact ⟨t, ht, rfl⟩

/-- What is left of a text: in front of the gap, or behind it. -/
def fill (g V : List α) : List α ⊕ List α → List α := Sum.elim (· ++ (g ++ V)) id

/-- What is left stands in the text in front of the gap, or behind it. -/
def Left (Y V : List α) : List α ⊕ List α → Prop := Sum.elim (· <:+ Y) (· <:+ V)

variable (ch a) in
/-- What one attempt gives with each of two fillings: the same is shown, and the matches end
at the same place, or where nothing more is found. -/
inductive Alike (view : List (κ × List α) → β) (V g g' Y : List α) :
    Option (State κ α) → Option (State κ α) → Prop
  | fail : Alike view V g g' Y none none
  | same {o o' : State κ α} (e : List α ⊕ List α) (hview : view o'.groups = view o.groups)
      (hrest : o.rest = fill g V e) (hrest' : o'.rest = fill g' V e) (hleft : Left Y V e) :
      Alike view V g g' Y (some o) (some o')
  | last {o o' : State κ α} (hview : view o'.groups = view o.groups)
      (hrest : Quiet ch a o.rest []) (hrest' : Quiet ch a o'.rest [])
      (hleft : o'.rest <:+ g' ++ V) : Alike view V g g' Y (some o) (some o')

variable (ch a) in
/-- The attempt at a character in front of the gap. -/
def AlikeAt (view : List (κ × List α) → β) (V g g' : List α) (c : α) (Y : List α) : Prop :=
  Alike ch a view V g g' Y (matchAt ch a (c :: (Y ++ (g ++ V))))
    (matchAt ch a (c :: (Y ++ (g' ++ V))))

variable (ch a) in
/-- All matches that start in front of the gap are alike. -/
def Stable (view : List (κ × List α) → β) (U V g g' : List α) : Prop :=
  ∀ c Y, (c :: Y) <:+ U → AlikeAt ch a view V g g' c Y

/-- A scan comes to a place: none of its matches lies over it. -/
def Reached (ms : List (Match κ α)) (p : Nat) : Prop :=
  ∀ m ∈ ms, ¬ (m.start < p ∧ p < m.stop)

/-! ## Two scans -/

theorem Scans.start_le {pos : Nat} {s : List α} {ms : List (Match κ α)}
    (h : Scans ch a pos s ms) : ∀ m ∈ ms, pos ≤ m.start := by
  induction h with
  | nil pos => simp
  | miss h hs ih =>
    intro m hm
    have := ih m hm
    omega
  | hit h ht hne hs ih =>
    intro m hm
    rcases List.mem_cons.1 hm with rfl | hm
    · exact le_refl _
    · have := ih m hm
      omega

theorem exists_scans (hleast : 0 < a.least) (pos : Nat) (s : List α) :
    ∃ ms, Scans ch a pos s ms := by
  obtain ⟨ms, hms, -⟩ := (scans_finditer hleast s).rebase pos
  exact ⟨ms, hms⟩

variable {view : List (κ × List α) → β} {U V g g' Y Z : List α}

/-- Behind the gap both texts are the same. -/
theorem Scans.rebase_view {p : Nat} {s : List α} {ms : List (Match κ α)} (h : Scans ch a p s ms)
    (p' : Nat) : ∃ ms', Scans ch a p' s ms' ∧
      ms'.map (view ∘ Match.groups) = ms.map (view ∘ Match.groups) := by
  obtain ⟨ms', hms', hgroups⟩ := h.rebase p'
  refine ⟨ms', hms', ?_⟩
  rw [← List.map_map, hgroups, List.map_map]

variable (ch a) in
/-- In front of a place, each attempt that a scan comes to is alike. -/
def AlikeTo (view : List (κ × List α) → β) (V g g' : List α) (pos : Nat) (Y : List α)
    (ms : List (Match κ α)) (n : Nat) : Prop :=
  ∀ w c Z, Y = w ++ c :: Z → w.length < n → Reached ms (pos + w.length) →
    AlikeAt ch a view V g g' c Z

variable (ch a) in
/-- In front of a place, no attempt that a scan comes to takes all up to the gap with the second
filling. -/
def StaysTo (V g' : List α) (pos : Nat) (Y : List α) (ms : List (Match κ α)) (n : Nat) : Prop :=
  ∀ w c Z o', Y = w ++ c :: Z → w.length < n → Reached ms (pos + w.length) →
    matchAt ch a (c :: (Z ++ (g' ++ V))) = some o' → ¬ o'.rest <:+ g' ++ V

variable (ch a) in
/-- How the scans of two texts go that differ in a gap. -/
inductive Course (view : List (κ × List α) → β) (V g g' : List α) (pos pos' : Nat) (Y : List α)
    (ms ms' : List (Match κ α)) : Prop
  /-- They go over the gap together. -/
  | across (hfront : AlikeTo ch a view V g g' pos' Y ms' Y.length)
      (hfound : ∀ w c Z, Y = w ++ c :: Z → (∃ m ∈ ms, m.start = pos + w.length) →
        AlikeAt ch a view V g g' c Z)
      (hview : ms'.map (view ∘ Match.groups) = ms.map (view ∘ Match.groups))
      (hno : ∀ m ∈ ms, ¬ (pos + Y.length ≤ m.start ∧ m.start < pos + Y.length + g.length))
  /-- They come to the gap, or to an attempt that is not alike. -/
  | parts {w Z : List α} {ms₀ ms₁ ms₀' ms₁' : List (Match κ α)} (hY : Y = w ++ Z)
      (hms : ms = ms₀ ++ ms₁) (hms' : ms' = ms₀' ++ ms₁')
      (hfront : AlikeTo ch a view V g g' pos' Y ms' w.length)
      (hview : ms₀'.map (view ∘ Match.groups) = ms₀.map (view ∘ Match.groups))
      (hstop : ∀ m ∈ ms₀, m.start < pos + w.length ∧ m.stop ≤ pos + w.length)
      (hstop' : ∀ m ∈ ms₀', m.start < pos' + w.length ∧ m.stop ≤ pos' + w.length)
      (hdiffer : ∀ c X, Z = c :: X → ¬ AlikeAt ch a view V g g' c X)
      (hscan : Scans ch a (pos + w.length) (Z ++ (g ++ V)) ms₁)
      (hscan' : Scans ch a (pos' + w.length) (Z ++ (g' ++ V)) ms₁')

/-- Behind a piece that both scans leave at the same place. -/
theorem AlikeTo.lift {v : List α} {pos' : Nat} {pre' ms' : List (Match κ α)} {n : Nat}
    (hfirst : ∀ w c X, v ++ Z = w ++ c :: X → w.length < v.length →
      Reached pre' (pos' + w.length) → AlikeAt ch a view V g g' c X)
    (h : AlikeTo ch a view V g g' (pos' + v.length) Z ms' n) :
    AlikeTo ch a view V g g' pos' (v ++ Z) (pre' ++ ms') (v.length + n) := by
  intro w c X heq hlt hreached
  rcases Nat.lt_or_ge w.length v.length with hw | hw
  · exact hfirst w c X heq hw fun m hm => hreached m (List.mem_append_left ms' hm)
  · obtain ⟨w', rfl⟩ := List.prefix_of_prefix_length_le (List.prefix_append v Z)
      (heq ▸ List.prefix_append w (c :: X)) hw
    rw [List.append_assoc, List.append_cancel_left_eq] at heq
    rw [List.length_append] at hlt hreached
    refine h w' c X heq (by omega) fun m hm hin => ?_
    exact hreached m (List.mem_append_right pre' hm) ⟨by omega, by omega⟩

theorem Course.lift {v : List α} {pos pos' : Nat} {pre pre' ms ms' : List (Match κ α)}
    (hpre : ∀ m ∈ pre, m.start < pos + v.length ∧ m.stop ≤ pos + v.length)
    (hpre₀ : ∀ w c X, v ++ Z = w ++ c :: X → (∃ m ∈ pre, m.start = pos + w.length) →
      AlikeAt ch a view V g g' c X)
    (hms : ∀ m ∈ ms, pos + v.length ≤ m.start)
    (hpre' : ∀ m ∈ pre', m.start < pos' + v.length ∧ m.stop ≤ pos' + v.length)
    (hview : pre'.map (view ∘ Match.groups) = pre.map (view ∘ Match.groups))
    (hfirst : ∀ w c X, v ++ Z = w ++ c :: X → w.length < v.length →
      Reached pre' (pos' + w.length) → AlikeAt ch a view V g g' c X)
    (h : Course ch a view V g g' (pos + v.length) (pos' + v.length) Z ms ms') :
    Course ch a view V g g' pos pos' (v ++ Z) (pre ++ ms) (pre' ++ ms') := by
  have hlen : ∀ (p : Nat) (w : List α), p + (v ++ w).length = p + v.length + w.length := by
    intro p w
    rw [List.length_append, Nat.add_assoc]
  have hparts : ∀ {p : Nat} {w : List α} {l l₀ : List (Match κ α)},
      (∀ m ∈ l, m.start < p + v.length ∧ m.stop ≤ p + v.length) →
      (∀ m ∈ l₀, m.start < p + v.length + w.length ∧ m.stop ≤ p + v.length + w.length) →
      ∀ m ∈ l ++ l₀, m.start < p + v.length + w.length ∧ m.stop ≤ p + v.length + w.length := by
    intro p w l l₀ hl hl₀ m hm
    rcases List.mem_append.1 hm with hm | hm
    · have := hl m hm
      omega
    · exact hl₀ m hm
  cases h with
  | across hfront hfound hmap hno =>
    refine .across ?_ (fun w c X heq => ?_) (by rw [List.map_append, List.map_append, hview, hmap])
      fun m hm hin => ?_
    · rw [List.length_append]
      exact hfront.lift hfirst
    · rintro ⟨m, hm, hstart⟩
      rcases List.mem_append.1 hm with hm | hm
      · exact hpre₀ w c X heq ⟨m, hm, hstart⟩
      · have hle := hms m hm
        obtain ⟨w', rfl⟩ := List.prefix_of_prefix_length_le (List.prefix_append v Z)
          (heq ▸ List.prefix_append w (c :: X)) (by omega)
        rw [List.append_assoc, List.append_cancel_left_eq] at heq
        rw [hlen] at hstart
        exact hfound w' c X heq ⟨m, hm, hstart⟩
    · rw [hlen] at hin
      rcases List.mem_append.1 hm with hm | hm
      · have := (hpre m hm).1
        omega
      · exact hno m hm hin
  | @parts w X ms₀ ms₁ ms₀' ms₁' hY hms hms' hfront hmap hstop hstop' hdiffer hscan hscan' =>
    refine @Course.parts _ _ _ ch a view V g g' pos pos' _ _ _ (v ++ w) X (pre ++ ms₀) ms₁
      (pre' ++ ms₀') ms₁' (by rw [hY, List.append_assoc]) (by rw [hms, List.append_assoc])
      (by rw [hms', List.append_assoc]) ?_ (by rw [List.map_append, List.map_append, hview, hmap])
      (by rw [hlen]; exact hparts hpre hstop) (by rw [hlen]; exact hparts hpre' hstop') hdiffer
      (by rw [hlen]; exact hscan) (by rw [hlen]; exact hscan')
    rw [List.length_append]
    exact hfront.lift hfirst

/-- Both scans stand at the gap, or at an attempt that is not alike. -/
theorem Course.here (hleast : 0 < a.least) {pos : Nat} (pos' : Nat) {ms : List (Match κ α)}
    (h : Scans ch a pos (Y ++ (g ++ V)) ms)
    (hdiffer : ∀ c X, Y = c :: X → ¬ AlikeAt ch a view V g g' c X) :
    ∃ ms', Scans ch a pos' (Y ++ (g' ++ V)) ms' ∧ Course ch a view V g g' pos pos' Y ms ms' := by
  obtain ⟨ms', hms'⟩ := @exists_scans _ _ ch a hleast pos' (Y ++ (g' ++ V))
  refine ⟨ms', hms', @Course.parts _ _ _ ch a view V g g' pos pos' _ _ _ [] Y [] ms [] ms'
    rfl rfl rfl (fun w c X _ hlt => ?_) rfl (fun m hm => ?_) (fun m hm => ?_) hdiffer h hms'⟩
  · exact absurd hlt (Nat.not_lt_zero _)
  · exact absurd hm List.not_mem_nil
  · exact absurd hm List.not_mem_nil

/-- A match that lies over all that is in front of the gap. -/
theorem AlikeTo.of_covered {pos' : Nat} {m : Match κ α} {ms' : List (Match κ α)} {c : α}
    (hstart : m.start = pos') (hstop : pos' + (c :: Y).length ≤ m.stop)
    (h : AlikeAt ch a view V g g' c Y) :
    AlikeTo ch a view V g g' pos' (c :: Y) (m :: ms') (c :: Y).length := by
  intro w d X heq hlt hreached
  cases w with
  | nil =>
    rw [List.nil_append, List.cons.injEq] at heq
    rw [← heq.1, ← heq.2]
    exact h
  | cons e w =>
    refine absurd ⟨?_, ?_⟩ (hreached m List.mem_cons_self)
    · rw [hstart, List.length_cons]
      omega
    · omega

/-- What a match takes that leaves a part of the text. -/
theorem length_of_suffix {s t r x : List α} (h : s ++ x = t ++ r) (hr : r <:+ x) :
    s.length ≤ t.length := by
  have hlen := congrArg List.length h
  rw [List.length_append, List.length_append] at hlen
  have := hr.length_le
  omega

/-- Both scans pass over a character. -/
theorem Course.miss {c : α} {pos pos' : Nat} {ms ms' : List (Match κ α)}
    (halike : AlikeAt ch a view V g g' c Y) (hms : ∀ m ∈ ms, pos + 1 ≤ m.start)
    (h : Course ch a view V g g' (pos + 1) (pos' + 1) Y ms ms') :
    Course ch a view V g g' pos pos' (c :: Y) ms ms' := by
  refine @Course.lift _ _ _ ch a view V g g' Y [c] pos pos' [] [] ms ms'
    (by simp) (by simp) hms (by simp) rfl (fun w d X heq hlt _ => ?_) h
  obtain rfl : w = [] := List.length_eq_zero_iff.1 (by simpa using hlt)
  rw [List.singleton_append, List.nil_append, List.cons.injEq] at heq
  rw [← heq.1, ← heq.2]
  exact halike

/-- Both scans take the same piece in front of the gap. -/
theorem Course.hit {c : α} {v : List α} {pos pos' : Nat} {k k' : List (κ × List α)}
    {ms ms' : List (Match κ α)} (halike : AlikeAt ch a view V g g' c (v ++ Z))
    (hview : view k' = view k) (hms : ∀ m ∈ ms, pos + (c :: v).length ≤ m.start)
    (h : Course ch a view V g g' (pos + (c :: v).length) (pos' + (c :: v).length) Z ms ms') :
    Course ch a view V g g' pos pos' (c :: (v ++ Z)) (⟨pos, c :: v, k⟩ :: ms)
      (⟨pos', c :: v, k'⟩ :: ms') := by
  have hpre : ∀ p (groups : List (κ × List α)), ∀ m ∈ [(⟨p, c :: v, groups⟩ : Match κ α)],
      m.start < p + (c :: v).length ∧ m.stop ≤ p + (c :: v).length := by
    intro p groups m hm
    rw [List.mem_singleton.1 hm]
    exact ⟨Nat.lt_add_of_pos_right (Nat.succ_pos v.length), le_refl _⟩
  have hhead : ∀ w d X, c :: v ++ Z = w ++ d :: X → w = [] → AlikeAt ch a view V g g' d X := by
    rintro w d X heq rfl
    rw [List.cons_append, List.nil_append, List.cons.injEq] at heq
    rw [← heq.1, ← heq.2]
    exact halike
  refine @Course.lift _ _ _ ch a view V g g' Z (c :: v) pos pos' [⟨pos, c :: v, k⟩]
    [⟨pos', c :: v, k'⟩] ms ms' (hpre pos _) (fun w d X heq hat => hhead w d X heq ?_) hms
    (hpre pos' _) ?_ (fun w d X heq hlt hreached => hhead w d X heq ?_) h
  · obtain ⟨m, hm, hstart⟩ := hat
    rw [List.mem_singleton.1 hm] at hstart
    dsimp only at hstart
    exact List.length_eq_zero_iff.1 (by omega)
  · rw [List.map_singleton, List.map_singleton, Function.comp_apply, Function.comp_apply, hview]
  · cases w with
    | nil => rfl
    | cons b w =>
      -- the piece lies over every other place in it
      refine absurd ⟨?_, ?_⟩ (hreached _ List.mem_cons_self)
      · exact Nat.lt_add_of_pos_right (Nat.succ_pos w.length)
      · exact Nat.add_lt_add_left hlt pos'

/-- Both scans go over the gap with a match. -/
theorem Course.over {c : α} {t t' : List α} {pos pos' : Nat} {k k' : List (κ × List α)}
    {ms ms' : List (Match κ α)} (halike : AlikeAt ch a view V g g' c Y)
    (hview : view k' = view k) (hlen' : (c :: Y).length ≤ t'.length)
    (hmap : ms'.map (view ∘ Match.groups) = ms.map (view ∘ Match.groups))
    (hstart : ∀ m ∈ ms, pos + (c :: Y).length + g.length ≤ m.start) :
    Course ch a view V g g' pos pos' (c :: Y) (⟨pos, t, k⟩ :: ms) (⟨pos', t', k'⟩ :: ms') := by
  refine .across ?_ (fun w d X heq => ?_) ?_ fun m hm hin => ?_
  · exact .of_covered rfl (Nat.add_le_add_left hlen' pos') halike
  · rintro ⟨m, hm, hm'⟩
    have hlt : w.length < (c :: Y).length := by
      rw [heq, List.length_append, List.length_cons]
      omega
    rcases List.mem_cons.1 hm with rfl | hm
    · dsimp only at hm'
      obtain rfl : w = [] := List.length_eq_zero_iff.1 (by omega)
      rw [List.nil_append, List.cons.injEq] at heq
      rw [← heq.1, ← heq.2]
      exact halike
    · have := hstart m hm
      omega
  · rw [List.map_cons, List.map_cons, hmap]
    dsimp only [Function.comp_apply]
    rw [hview]
  · rcases List.mem_cons.1 hm with rfl | hm
    · have hpos : pos + (c :: Y).length ≤ pos := hin.1
      rw [List.length_cons] at hpos
      omega
    · have := hstart m hm
      omega

/-- Two scans go along as long as the attempts are alike. -/
theorem Scans.course (hleast : 0 < a.least) {n pos : Nat} {ms : List (Match κ α)}
    (hn : Y.length ≤ n) (h : Scans ch a pos (Y ++ (g ++ V)) ms) (pos' : Nat) :
    ∃ ms', Scans ch a pos' (Y ++ (g' ++ V)) ms' ∧
      Course ch a view V g g' pos pos' Y ms ms' := by
  induction n generalizing Y pos pos' ms with
  | zero =>
    obtain rfl : Y = [] := List.length_eq_zero_iff.1 (by omega)
    exact Course.here hleast pos' h fun c X hX => absurd hX (List.cons_ne_nil c X).symm
  | succ n ih =>
    cases Y with
    | nil => exact Course.here hleast pos' h fun c X hX => absurd hX (List.cons_ne_nil c X).symm
    | cons c Y =>
      rw [List.length_cons] at hn
      by_cases halike : AlikeAt ch a view V g g' c Y
      · have hat := halike
        rw [AlikeAt] at hat
        rw [List.cons_append] at h
        cases h with
        | miss hnone hs =>
          rw [hnone] at hat
          obtain ⟨ms', hms', hcourse⟩ := ih (by omega) hs (pos' + 1)
          refine ⟨ms', .miss ?_ hms', .miss halike hs.start_le hcourse⟩
          cases hnone' : matchAt ch a (c :: (Y ++ (g' ++ V))) with
          | none => rfl
          | some o' =>
            rw [hnone'] at hat
            cases hat
        | hit ho ht hne hs =>
          rename_i t o ms
          rw [ho] at hat
          cases ho' : matchAt ch a (c :: (Y ++ (g' ++ V))) with
          | none =>
            rw [ho'] at hat
            cases hat
          | some o' =>
            rw [ho'] at hat
            obtain ⟨t', ht', hne'⟩ := used_of_matchAt hleast ho'
            cases hat with
            | same e hview hrest hrest' hleft =>
              cases e with
              | inl Z =>
                obtain ⟨v, rfl⟩ : Z <:+ Y := hleft
                rw [fill, Sum.elim_inl] at hrest hrest'
                obtain rfl : c :: v = t := by
                  rw [hrest, List.append_assoc, ← List.cons_append] at ht
                  exact List.append_cancel_right ht
                obtain rfl : c :: v = t' := by
                  rw [hrest', List.append_assoc, ← List.cons_append] at ht'
                  exact List.append_cancel_right ht'
                rw [hrest] at hs
                obtain ⟨ms', hms', hcourse⟩ := ih (by
                  rw [List.length_append] at hn
                  omega) hs (pos' + (c :: v).length)
                exact ⟨_, .hit ho' ht' hne' (hrest' ▸ hms'), .hit halike hview hs.start_le hcourse⟩
              | inr R =>
                have hR : R <:+ V := hleft
                rw [fill, Sum.elim_inr, id] at hrest hrest'
                have hlen : (c :: Y ++ g).length ≤ t.length := by
                  apply length_of_suffix _ hR
                  rw [← hrest, ← ht, List.append_assoc, List.cons_append]
                have hlen' : (c :: Y).length ≤ t'.length := by
                  rw [hrest'] at ht'
                  exact length_of_suffix ht' (hR.trans (List.suffix_append g' V))
                rw [hrest] at hs
                obtain ⟨ms', hms', hmap⟩ := @Scans.rebase_view _ _ _ ch a view _ _ _ hs
                  (pos' + t'.length)
                refine ⟨_, .hit ho' ht' hne' (hrest' ▸ hms'), .over halike hview hlen' hmap ?_⟩
                intro m hm
                have := hs.start_le m hm
                rw [List.length_append] at hlen
                omega
            | last hview hrest hrest' hleft =>
              refine ⟨_, .hit ho' ht' hne' (hrest'.scans _),
                .over halike hview (length_of_suffix ht' hleft) ?_ ?_⟩
              · rw [hs.of_quiet hrest]
              · rw [hs.of_quiet hrest]
                exact fun m hm => absurd hm List.not_mem_nil
      · refine Course.here hleast pos' h fun d X hX => ?_
        rw [List.cons.injEq] at hX
        rw [← hX.1, ← hX.2]
        exact halike

theorem Reached.parts {w : List α} {p : Nat} {ms₀ ms₁ : List (Match κ α)} {s : List α}
    (hstop : ∀ m ∈ ms₀, m.start < p + w.length ∧ m.stop ≤ p + w.length)
    (hscan : Scans ch a (p + w.length) s ms₁) : Reached (ms₀ ++ ms₁) (p + w.length) := by
  intro m hm hin
  rcases List.mem_append.1 hm with hm | hm
  · have := (hstop m hm).2
    omega
  · have := hscan.start_le m hm
    omega

/-- Where a scan comes to a match, it finds it. -/
theorem Scans.found {pos : Nat} {s w : List α} {c : α} {o : State κ α} {ms : List (Match κ α)}
    (h : Scans ch a pos s ms) (hs : s = w ++ c :: Z) (hreached : Reached ms (pos + w.length))
    (ho : matchAt ch a (c :: Z) = some o) :
    ∃ m ∈ ms, m.start = pos + w.length ∧ c :: Z = m.text ++ o.rest := by
  induction h generalizing w with
  | nil pos =>
    cases w with
    | nil => cases hs
    | cons d w => cases hs
  | miss hnone _ ih =>
    cases w with
    | nil =>
      rw [hs, List.nil_append, ho] at hnone
      cases hnone
    | cons d w =>
      rw [List.cons_append, List.cons.injEq] at hs
      rw [List.length_cons, Nat.add_comm w.length, ← Nat.add_assoc] at hreached ⊢
      exact ih hs.2 hreached
  | @hit pos d s t o' ms ho' ht hne _ ih =>
    cases hw : w with
    | nil =>
      subst hw
      rw [hs, List.nil_append, ho, Option.some.injEq] at ho'
      rw [hs, List.nil_append, ← ho'] at ht
      exact ⟨_, List.mem_cons_self, rfl, ht⟩
    | cons e w' =>
      have hle : t.length ≤ w.length := by
        by_contra hlt
        refine hreached _ List.mem_cons_self ⟨?_, Nat.add_lt_add_left (Nat.lt_of_not_le hlt) pos⟩
        rw [hw]
        exact Nat.lt_add_of_pos_right (Nat.succ_pos w'.length)
      obtain ⟨v, rfl⟩ := List.prefix_of_prefix_length_le (ht ▸ List.prefix_append t o'.rest)
        (hs ▸ List.prefix_append w (c :: Z)) hle
      rw [ht, List.append_assoc, List.append_cancel_left_eq] at hs
      rw [List.length_append, ← Nat.add_assoc] at hreached
      obtain ⟨m, hm, hstart, htext⟩ := ih hs fun m hm => hreached m (List.mem_cons_of_mem _ hm)
      refine ⟨m, List.mem_cons_of_mem _ hm, ?_, htext⟩
      rw [hstart, ← hw, List.length_append, Nat.add_assoc]

/-- Behind matches that stop in front of it, a scan comes to the same places. -/
theorem Reached.lift {v w : List α} {pos : Nat} {pre ms : List (Match κ α)}
    (hpre : ∀ m ∈ pre, m.stop ≤ pos + v.length)
    (h : Reached ms (pos + v.length + w.length)) :
    Reached (pre ++ ms) (pos + (v ++ w).length) := by
  rw [List.length_append, ← Nat.add_assoc]
  intro m hm hin
  rcases List.mem_append.1 hm with hm | hm
  · have := hpre m hm
    omega
  · exact h m hm hin

theorem AlikeTo.behind {v : List α} {pos n : Nat} {pre ms : List (Match κ α)}
    (hpre : ∀ m ∈ pre, m.stop ≤ pos + v.length)
    (h : AlikeTo ch a view V g g' pos (v ++ Z) (pre ++ ms) (v.length + n)) :
    AlikeTo ch a view V g g' (pos + v.length) Z ms n := by
  rintro w c X rfl hw hreached
  refine h (v ++ w) c X (List.append_assoc v w _).symm ?_ (hreached.lift hpre)
  rw [List.length_append]
  exact Nat.add_lt_add_left hw v.length

theorem StaysTo.behind {v : List α} {pos n : Nat} {pre ms : List (Match κ α)}
    (hpre : ∀ m ∈ pre, m.stop ≤ pos + v.length)
    (h : StaysTo ch a V g' pos (v ++ Z) (pre ++ ms) (v.length + n)) :
    StaysTo ch a V g' (pos + v.length) Z ms n := by
  rintro w c X o' rfl hw hreached
  refine h (v ++ w) c X o' (List.append_assoc v w _).symm ?_ (hreached.lift hpre)
  rw [List.length_append]
  exact Nat.add_lt_add_left hw v.length

theorem Scans.reached_start {pos : Nat} {s : List α} {ms : List (Match κ α)}
    (h : Scans ch a pos s ms) : Reached ms pos := by
  intro m hm hin
  have := h.start_le m hm
  omega

/-- The second scan comes to the places that the first one comes to, up to the first match that
goes over the gap. -/
theorem Scans.reached {k n pos pos' : Nat} {ms ms' : List (Match κ α)}
    (hk : Y.length ≤ k) (h : Scans ch a pos (Y ++ (g ++ V)) ms)
    (h' : Scans ch a pos' (Y ++ (g' ++ V)) ms') (hn : n < Y.length)
    (halike : AlikeTo ch a view V g g' pos Y ms n) (hstays : StaysTo ch a V g' pos Y ms n)
    (hreached : Reached ms (pos + n)) : Reached ms' (pos' + n) := by
  induction k generalizing Y n pos pos' ms ms' with
  | zero => omega
  | succ k ih =>
    cases Y with
    | nil => exact absurd hn (Nat.not_lt_zero n)
    | cons c Y =>
      cases n with
      | zero => exact h'.reached_start
      | succ n =>
        have hat := halike [] c Y rfl (Nat.succ_pos n) h.reached_start
        have hstay := fun o' => hstays [] c Y o' rfl (Nat.succ_pos n) h.reached_start
        -- both go on behind a piece of the text
        have hgo : ∀ {v Z : List α} {pre pre' ms₁ ms₁' : List (Match κ α)},
            c :: Y = v ++ Z → v ≠ [] → v.length ≤ n + 1 → ms = pre ++ ms₁ → ms' = pre' ++ ms₁' →
            (∀ m ∈ pre, m.stop ≤ pos + v.length) → (∀ m ∈ pre', m.stop ≤ pos' + v.length) →
            Scans ch a (pos + v.length) (Z ++ (g ++ V)) ms₁ →
            Scans ch a (pos' + v.length) (Z ++ (g' ++ V)) ms₁' → Reached ms' (pos' + (n + 1)) := by
          intro v Z pre pre' ms₁ ms₁' hY hne hv hms hms' hpre hpre' hs hs'
          obtain ⟨j, hj⟩ := Nat.exists_eq_add_of_le hv
          have hpos := List.length_pos_of_ne_nil hne
          have hlen := congrArg List.length hY
          rw [List.length_append] at hlen
          rw [hY, hms, hj] at halike hstays
          rw [hms, hj] at hreached
          have hr : Reached ms₁' (pos' + v.length + j) := by
            refine ih (by omega) hs hs' (by omega) (halike.behind hpre) (hstays.behind hpre) ?_
            intro m hm
            rw [Nat.add_assoc]
            exact hreached m (List.mem_append_right pre hm)
          rw [hj, hms']
          intro m hm hin
          rcases List.mem_append.1 hm with hm | hm
          · have := hpre' m hm
            omega
          · exact hr m hm (by rwa [Nat.add_assoc])
        rw [AlikeAt] at hat
        rw [List.cons_append] at h h'
        cases h with
        | miss hnone hs =>
          rw [hnone] at hat
          cases h' with
          | hit hsome' =>
            rw [hsome'] at hat
            cases hat
          | miss hnone' hs' =>
            exact @hgo [c] Y [] [] _ _ rfl (List.cons_ne_nil c []) (Nat.le_add_left 1 n) rfl rfl
              (by simp) (by simp) hs hs'
        | hit ho ht hne hs =>
          rename_i t o ms
          have hcover : ¬ n + 1 < t.length := by
            intro hlt
            exact hreached _ List.mem_cons_self ⟨by simp, by simpa [Match.stop] using hlt⟩
          rw [ho] at hat
          cases h' with
          | miss hnone' =>
            rw [hnone'] at hat
            cases hat
          | hit ho' ht' hne' hs' =>
            rename_i t' o' ms'
            rw [ho'] at hat
            cases hat with
            | last hview hrest hrest' hleft => exact absurd hleft (hstay o' ho')
            | same e hview hrest hrest' hleft =>
              cases e with
              | inr R =>
                have hR : R <:+ V := hleft
                rw [fill, Sum.elim_inr, id] at hrest
                refine absurd (Nat.lt_of_lt_of_le hn ?_) hcover
                rw [← List.cons_append, hrest] at ht
                exact length_of_suffix ht (hR.trans (List.suffix_append g V))
              | inl Z =>
                obtain ⟨v, rfl⟩ : Z <:+ Y := hleft
                rw [fill, Sum.elim_inl] at hrest hrest'
                obtain rfl : c :: v = t := by
                  rw [hrest, List.append_assoc, ← List.cons_append] at ht
                  exact List.append_cancel_right ht
                obtain rfl : c :: v = t' := by
                  rw [hrest', List.append_assoc, ← List.cons_append] at ht'
                  exact List.append_cancel_right ht'
                rw [hrest] at hs
                rw [hrest'] at hs'
                exact @hgo (c :: v) Z [_] [_] _ _ rfl hne (Nat.le_of_not_lt hcover) rfl rfl
                  (by simp [Match.stop]) (by simp [Match.stop]) hs hs'

/-- Where each attempt is alike that the second scan comes to, and one comes to a place, no attempt
that the first scan comes to takes all up to the gap. -/
theorem Scans.staysTo {n pos pos' : Nat} {ms ms' : List (Match κ α)}
    (h : Scans ch a pos (Y ++ (g ++ V)) ms) (h' : Scans ch a pos' (Y ++ (g' ++ V)) ms')
    (hn : n < Y.length) (halike : AlikeTo ch a view V g g' pos' Y ms' n)
    (hreached : Reached ms' (pos' + n)) : StaysTo ch a V g' pos Y ms n := by
  have hstays : ∀ j ≤ n, (∀ i < j, Reached ms (pos + i) → Reached ms' (pos' + i)) →
      StaysTo ch a V g' pos Y ms j := by
    intro j hj hcomes w c Z o' hY hw hr ho' hrest
    -- the match would lie over the place
    obtain ⟨m, hm, hstart, htext⟩ := h'.found (by rw [hY, List.append_assoc, List.cons_append])
      (hcomes w.length hw hr) ho'
    have hlen : (c :: Z).length ≤ m.text.length := by
      rw [← List.cons_append] at htext
      exact length_of_suffix htext hrest
    rw [hY, List.length_append] at hn
    exact hreached m hm ⟨by omega, by rw [Match.stop]; omega⟩
  have hcomes : ∀ j < n, Reached ms (pos + j) → Reached ms' (pos' + j) := by
    intro j
    induction j using Nat.strong_induction_on with
    | _ j ih =>
      intro hj hr
      have hbefore : ∀ i < j, Reached ms (pos + i) → Reached ms' (pos' + i) :=
        fun i hi => ih i hi (hi.trans hj)
      have hsame : AlikeTo ch a view V g g' pos Y ms j :=
        fun w c Z hY hw hr => halike w c Z hY (hw.trans hj) (hbefore _ hw hr)
      exact h.reached (le_refl _) h' (hj.trans hn) hsame (hstays j hj.le hbefore) hr
  exact hstays n (le_refl n) hcomes

/-- With another filling of the gap, `finditer` finds matches that show the same. -/
theorem finditer_edit (hleast : 0 < a.least)
    (halike : ∀ w c Z, U = w ++ c :: Z → Reached (finditer ch a (U ++ (g ++ V))) w.length →
      AlikeAt ch a view V g g' c Z)
    (hquiet : Quiet ch a g' V)
    (hno : ∀ m ∈ finditer ch a (U ++ (g ++ V)),
      ¬ (U.length ≤ m.start ∧ m.start < U.length + g.length)) :
    (finditer ch a (U ++ (g' ++ V))).map (view ∘ Match.groups)
      = (finditer ch a (U ++ (g ++ V))).map (view ∘ Match.groups) := by
  obtain ⟨ms', hms', hcourse⟩ := @Scans.course _ _ _ ch a view V g g' U hleast _ 0 _ (le_refl _)
    (scans_finditer hleast (U ++ (g ++ V))) 0
  rw [← hms'.unique (scans_finditer hleast _)]
  cases hcourse with
  | across _ _ hview _ => exact hview
  | @parts w Z ms₀ ms₁ ms₀' ms₁' hY hms hms'' _ hview hstop _ hdiffer hscan hscan' =>
    cases Z with
    | cons c Z =>
      have hreached := Reached.parts hstop hscan
      rw [← hms, Nat.zero_add] at hreached
      exact absurd (halike w c Z hY hreached) (hdiffer c Z rfl)
    | nil =>
      rw [List.append_nil] at hY
      subst hY
      rw [hms] at hno
      rw [List.nil_append] at hscan hscan'
      have hgap := hscan.behind fun m hm hin => by
        rw [Nat.zero_add] at hin
        exact hno m (List.mem_append_right ms₀ hm) hin
      obtain ⟨ms, hms₁, hmap⟩ := @Scans.rebase_view _ _ _ ch a view _ _ _ hgap
        (0 + U.length + g'.length)
      rw [hms'', hms, List.map_append, List.map_append, hview,
        hscan'.unique (hms₁.quiet hquiet), hmap]

/-- The match that starts where a scan stands is its first one. -/
theorem Scans.head {pos : Nat} {c : α} {s : List α} {m : Match κ α} {ms : List (Match κ α)}
    (h : Scans ch a pos (c :: s) ms) (hm : m ∈ ms) (hstart : m.start = pos) :
    ∃ v rest l, m.text = c :: v ∧ s = v ++ rest ∧ ms = m :: l ∧
      Scans ch a (pos + m.text.length) rest l := by
  cases h with
  | miss _ hs =>
    have := hs.start_le m hm
    omega
  | hit ho ht hne hs =>
    rename_i t o l
    have hlen := List.length_pos_of_ne_nil hne
    obtain rfl : m = ⟨pos, t, o.groups⟩ := by
      rcases List.mem_cons.1 hm with h | h
      · exact h
      · have := hs.start_le m h
        omega
    obtain ⟨d, v, rfl⟩ := List.exists_cons_of_ne_nil hne
    rw [List.cons_append, List.cons.injEq] at ht
    exact ⟨v, o.rest, l, by rw [ht.1], ht.2, rfl, hs⟩

/-- Where no match starts inside of a piece of a text, the piece is quiet. -/
theorem quiet_of_inside {s v rest : List α} {n : Nat} (hs : s.drop n = v ++ rest)
    (h : ∀ p, n ≤ p → p < n + v.length → matchAt ch a (s.drop p) = none) : Quiet ch a v rest := by
  rintro c Y ⟨x, rfl⟩
  rw [List.length_append, List.length_cons] at h
  have hnone := h (n + x.length) (by omega) (by omega)
  rw [← List.drop_drop, hs, List.append_assoc, List.drop_left] at hnone
  exact hnone

/-- Behind a match and a piece in which none starts, the scan goes on as before. -/
theorem Scans.resume {p : Nat} {v rest x : List α} {ms : List (Match κ α)}
    (h : Scans ch a p rest ms) (hpiece : Quiet ch a v rest) (hx : Quiet ch a x (v ++ rest))
    (p' : Nat) : ∃ ms', Scans ch a p' (x ++ (v ++ rest)) ms' ∧
      ms'.map (view ∘ Match.groups) = ms.map (view ∘ Match.groups) := by
  obtain ⟨l, hl, hmap⟩ := @Scans.rebase_view _ _ _ ch a view _ _ _ h (p' + x.length + v.length)
  exact ⟨l, (hl.quiet hpiece).quiet hx, hmap⟩

/-- Where the scan stands at a match over a place, no other match starts in front of the place. -/
theorem Scans.start_eq {pos n : Nat} {c : α} {s : List α} {o : State κ α} {m : Match κ α}
    {ms : List (Match κ α)} (h : Scans ch a pos (c :: s) ms)
    (ho : matchAt ch a (c :: s) = some o) (hn : ∀ t, c :: s = t ++ o.rest → n ≤ pos + t.length)
    (hm : m ∈ ms) (hlt : m.start < n) : m.start = pos := by
  cases h with
  | miss hnone _ =>
    rw [ho] at hnone
    cases hnone
  | hit ho' ht hne hs =>
    rw [ho, Option.some.injEq] at ho'
    subst ho'
    have hle := hn _ ht
    rcases List.mem_cons.1 hm with rfl | hm
    · rfl
    · have := hs.start_le m hm
      omega

/-- When a match starts at the one character that the gap is filled with, and no other one
inside of it, then with another filling all but this one are found. -/
theorem finditer_taken {b : α} (hleast : 0 < a.least) (hstable : Stable ch a view U V [b] g')
    (hquiet : Quiet ch a g' V) {m : Match κ α} (hm : m ∈ finditer ch a (U ++ ([b] ++ V)))
    (hstart : m.start = U.length)
    (hinside : ∀ p, m.start < p → p < m.stop →
      matchAt ch a ((U ++ ([b] ++ V)).drop p) = none) :
    ∃ l l', finditer ch a (U ++ ([b] ++ V)) = l ++ m :: l' ∧
      (finditer ch a (U ++ (g' ++ V))).map (view ∘ Match.groups)
        = (l ++ l').map (view ∘ Match.groups) := by
  obtain ⟨ms', hms', hcourse⟩ := @Scans.course _ _ _ ch a view V [b] g' U hleast _ 0 _ (le_refl _)
    (scans_finditer hleast (U ++ ([b] ++ V))) 0
  rw [← hms'.unique (scans_finditer hleast _)]
  cases hcourse with
  | across _ _ _ hno =>
    refine absurd ⟨?_, ?_⟩ (hno m hm)
    · omega
    · rw [List.length_singleton]
      omega
  | @parts w Z ms₀ ms₁ ms₀' ms₁' hY hms hms'' _ hview hstop _ hdiffer hscan hscan' =>
    cases Z with
    | cons c Z => exact absurd (hstable c Z ⟨w, hY.symm⟩) (hdiffer c Z rfl)
    | nil =>
      rw [List.append_nil] at hY
      subst hY
      have hm₁ : m ∈ ms₁ := by
        rcases List.mem_append.1 (hms ▸ hm) with hm | hm
        · have := (hstop m hm).1
          omega
        · exact hm
      rw [List.nil_append] at hscan hscan'
      obtain ⟨v, rest, l', htext, rfl, rfl, hs⟩ := hscan.head hm₁ (by omega)
      refine ⟨ms₀, l', hms, ?_⟩
      -- the match takes the character and a piece behind it, in which none starts
      have hpiece : Quiet ch a v rest := by
        refine @quiet_of_inside _ _ ch a (U ++ ([b] ++ (v ++ rest))) v rest (U.length + 1) ?_ ?_
        · rw [← List.drop_drop, List.drop_left]
          rfl
        · intro p hp hp'
          exact hinside p (by omega) (by rw [Match.stop, htext, List.length_cons]; omega)
      obtain ⟨l, hl, hmap⟩ := @Scans.resume _ _ _ ch a view _ _ _ _ _ hs hpiece hquiet
        (0 + U.length)
      rw [hms'', List.map_append, List.map_append, hview, hscan'.unique hl, hmap]

/-- When a match goes over the gap and is not alike with another filling, while the others in
front of the gap are or would go over it too, then all but this one are found. -/
theorem finditer_lost {b : α} {w : List α} (hleast : 0 < a.least) (hU : U = w ++ b :: Y)
    (hover : ∀ x c Z, U = x ++ c :: Z → AlikeAt ch a view V g g' c Z ∨
      ∃ o v, matchAt ch a (c :: (Z ++ (g ++ V))) = some o ∧ V = v ++ o.rest ∧ v ≠ [])
    (hnot : ¬ AlikeAt ch a view V g g' b Y) (hquiet : Quiet ch a (b :: Y ++ g') V)
    {m : Match κ α} (hm : m ∈ finditer ch a (U ++ (g ++ V))) (hstart : m.start = w.length)
    (hinside : ∀ p, m.start < p → p < m.stop →
      matchAt ch a ((U ++ (g ++ V)).drop p) = none) :
    ∃ l l', finditer ch a (U ++ (g ++ V)) = l ++ m :: l' ∧
      (finditer ch a (U ++ (g' ++ V))).map (view ∘ Match.groups)
        = (l ++ l').map (view ∘ Match.groups) := by
  obtain ⟨o, v, ho, rfl, hv⟩ := (hover w b Y hU).resolve_left hnot
  have hpos := List.length_pos_of_ne_nil hv
  have hlenU : U.length = w.length + (Y.length + 1) := by
    rw [hU, List.length_append, List.length_cons]
  have htext : m.text = b :: (Y ++ (g ++ v)) := by
    obtain ⟨o₁, ho₁, heq, -⟩ := mem_finditer hm
    rw [hstart, hU, List.append_assoc, List.drop_left, List.cons_append] at ho₁ heq
    rw [ho, Option.some.injEq] at ho₁
    subst ho₁
    refine List.append_cancel_right (heq.symm.trans ?_)
    rw [List.cons_append, List.append_assoc, List.append_assoc]
  have hstop : m.stop = U.length + g.length + v.length := by
    rw [Match.stop, hstart, htext, hlenU, List.length_cons, List.length_append, List.length_append]
    omega
  obtain ⟨ms', hms', hcourse⟩ := @Scans.course _ _ _ ch a view (v ++ o.rest) g g' U hleast _ 0 _
    (le_refl _) (scans_finditer hleast (U ++ (g ++ (v ++ o.rest)))) 0
  rw [← hms'.unique (scans_finditer hleast _)]
  cases hcourse with
  | across _ hfound _ _ => exact absurd (hfound w b Y hU ⟨m, hm, by omega⟩) hnot
  | @parts x Z ms₀ ms₁ ms₀' ms₁' hY hms hms'' _ hview hstop₀ _ hdiffer hscan hscan' =>
    have hlen : U.length = x.length + Z.length := by rw [hY, List.length_append]
    have hm₁ : m ∈ ms₁ := by
      rcases List.mem_append.1 (hms ▸ hm) with hm | hm
      · have := (hstop₀ m hm).2
        omega
      · exact hm
    cases Z with
    | nil =>
      have hle := hscan.start_le m hm₁
      rw [List.length_nil] at hlen
      omega
    | cons c X =>
      rw [List.cons_append] at hscan
      -- the attempt that is not alike is the match
      have hsame : m.start = 0 + x.length := by
        obtain ⟨o₁, v₁, ho₁, hV₁, -⟩ := (hover x c X hY).resolve_left (hdiffer c X rfl)
        refine hscan.start_eq ho₁ (fun t ht => ?_) hm₁ (show m.start < U.length by omega)
        have hle : (c :: X).length ≤ t.length := by
          rw [← List.cons_append, hV₁] at ht
          exact length_of_suffix ht
            ((List.suffix_append v₁ o₁.rest).trans (List.suffix_append g _))
        omega
      rw [hU] at hY
      obtain ⟨rfl, hX⟩ := List.append_inj hY (by omega)
      obtain ⟨rfl, rfl⟩ := List.cons.inj hX
      obtain ⟨v₂, rest, l', htext₂, heq, rfl, hs⟩ := hscan.head hm₁ hsame
      obtain rfl : Y ++ (g ++ v) = v₂ := (List.cons.inj (htext.symm.trans htext₂)).2
      obtain rfl : o.rest = rest := by
        simpa only [List.append_assoc, List.append_cancel_left_eq] using heq
      have hpiece : Quiet ch a v o.rest := by
        refine @quiet_of_inside _ _ ch a (U ++ (g ++ (v ++ o.rest))) v o.rest
          (U.length + g.length) ?_ fun p hp hp' => hinside p (by omega) (by omega)
        rw [← List.drop_drop, List.drop_left, List.drop_left]
      refine ⟨ms₀, l', hms, ?_⟩
      obtain ⟨l, hl, hmap⟩ := @Scans.resume _ _ _ ch a view _ _ _ _ _ hs hpiece hquiet
        (0 + w.length)
      rw [← List.append_assoc] at hscan'
      rw [hms'', List.map_append, List.map_append, hview, hscan'.unique hl, hmap]

end

end Backtrack
