import Mathlib

/-!
# Loops whose steps may fail

The loops are those of the standard library, `List.anyM` and `List.mapM`, in the
monad `Except`.

* `Reaches` — a loop comes to an element: it passes over everything before.
* `anyM_eq_ok_true_iff`, `anyM_eq_ok_false_iff`, `anyM_eq_error_iff` — a search that
  ends with the first hit.
* `mapM_eq_error_iff`, `exists_mapM_iff`, `mem_of_mapM` — a loop that goes through
  to the end.
* `written` — what a loop writes until it ends or fails.
-/

namespace FaultyLoop

variable {α β ε : Type}

/-- A loop that goes on past the elements with `passes` comes to one with `stops`. -/
def Reaches (passes stops : α → Prop) (as : List α) : Prop :=
  ∃ pre a post, as = pre ++ a :: post ∧ (∀ x ∈ pre, passes x) ∧ stops a

@[simp] theorem reaches_nil {passes stops : α → Prop} : ¬ Reaches passes stops [] := by
  rintro ⟨pre, a, post, h, -⟩
  simp at h

/-- The loop stops at the first element, or goes on. -/
theorem reaches_cons {passes stops : α → Prop} {a : α} {as : List α} :
    Reaches passes stops (a :: as) ↔ stops a ∨ (passes a ∧ Reaches passes stops as) := by
  constructor
  · rintro ⟨pre, b, post, h, hpre, hb⟩
    cases pre with
    | nil =>
      rw [List.nil_append, List.cons.injEq] at h
      exact Or.inl (h.1 ▸ hb)
    | cons c pre =>
      rw [List.cons_append, List.cons.injEq] at h
      obtain ⟨rfl, rfl⟩ := h
      rw [List.forall_mem_cons] at hpre
      exact Or.inr ⟨hpre.1, pre, b, post, rfl, hpre.2, hb⟩
  · rintro (ha | ⟨ha, pre, b, post, rfl, hpre, hb⟩)
    · exact ⟨[], a, as, rfl, by simp, ha⟩
    · exact ⟨a :: pre, b, post, rfl, List.forall_mem_cons.2 ⟨ha, hpre⟩, hb⟩

/-- What is reached is in the list. -/
theorem Reaches.exists_mem {passes stops : α → Prop} {as : List α} (h : Reaches passes stops as) :
    ∃ a ∈ as, stops a := by
  obtain ⟨pre, a, post, rfl, -, ha⟩ := h
  exact ⟨a, by simp, ha⟩

theorem Reaches.congr {passes passes' stops stops' : α → Prop} {as : List α}
    (hp : ∀ a ∈ as, passes a ↔ passes' a) (hs : ∀ a ∈ as, stops a ↔ stops' a) :
    Reaches passes stops as ↔ Reaches passes' stops' as := by
  induction as with
  | nil => simp
  | cons a as ih =>
    rw [List.forall_mem_cons] at hp hs
    rw [reaches_cons, reaches_cons, hp.1, hs.1, ih hp.2 hs.2]

/-- The first element that stops the loop has none before it. -/
theorem reaches_first_iff {passes stops : α → Prop} {as : List α} :
    Reaches (fun a => passes a ∧ ¬ stops a) stops as ↔ Reaches passes stops as := by
  induction as with
  | nil => simp
  | cons a as ih =>
    rw [reaches_cons, reaches_cons, ih]
    by_cases ha : stops a
    · simp [ha]
    · simp [ha]

/-! ## Searches -/

theorem anyM_cons_eq {f : α → Except ε Bool} {a : α} {as : List α} :
    (a :: as).anyM f =
      match f a with
      | .ok true => .ok true
      | .ok false => as.anyM f
      | .error e => .error e := by
  rw [List.anyM_cons]
  rcases f a with e | b
  · rfl
  · cases b <;> rfl

theorem anyM_eq_ok_true_iff {f : α → Except ε Bool} {as : List α} :
    as.anyM f = .ok true ↔ Reaches (fun a => f a = .ok false) (fun a => f a = .ok true) as := by
  induction as with
  | nil => simp [pure, Except.pure]
  | cons a as ih =>
    rw [anyM_cons_eq, reaches_cons]
    rcases f a with e | b
    · simp
    · cases b <;> simp [ih]

theorem anyM_eq_ok_false_iff {f : α → Except ε Bool} {as : List α} :
    as.anyM f = .ok false ↔ ∀ a ∈ as, f a = .ok false := by
  induction as with
  | nil => simp [pure, Except.pure]
  | cons a as ih =>
    rw [anyM_cons_eq, List.forall_mem_cons]
    rcases f a with e | b
    · simp
    · cases b <;> simp [ih]

theorem anyM_eq_error_iff {f : α → Except ε Bool} {as : List α} {e : ε} :
    as.anyM f = .error e ↔
      Reaches (fun a => f a = .ok false) (fun a => f a = .error e) as := by
  induction as with
  | nil => simp [pure, Except.pure]
  | cons a as ih =>
    rw [anyM_cons_eq, reaches_cons]
    rcases f a with e' | b
    · simp
    · cases b <;> simp [ih]

/-! ## Loops to the end -/

theorem mapM_cons_eq {f : α → Except ε β} {a : α} {as : List α} :
    (a :: as).mapM f =
      match f a with
      | .ok b => (as.mapM f).map fun bs => b :: bs
      | .error e => .error e := by
  rw [List.mapM_cons]
  rcases f a with e | b
  · rfl
  · rcases as.mapM f with e | bs <;> rfl

theorem mapM_eq_error_iff {f : α → Except ε β} {as : List α} {e : ε} :
    as.mapM f = .error e ↔ Reaches (fun a => ∃ b, f a = .ok b) (fun a => f a = .error e) as := by
  induction as with
  | nil => simp [pure, Except.pure]
  | cons a as ih =>
    rw [mapM_cons_eq, reaches_cons, ← ih]
    rcases f a with e' | b
    · simp
    · rcases as.mapM f with e' | bs <;> simp [Except.map]

/-- The loop goes through exactly when every step does. -/
theorem exists_mapM_iff {f : α → Except ε β} {as : List α} :
    (∃ bs, as.mapM f = .ok bs) ↔ ∀ a ∈ as, ∃ b, f a = .ok b := by
  induction as with
  | nil => simp [pure, Except.pure]
  | cons a as ih =>
    rw [mapM_cons_eq, List.forall_mem_cons, ← ih]
    rcases f a with e | b
    · simp
    · rcases as.mapM f with e | bs <;> simp [Except.map]

@[simp] theorem map_eq_error_iff {γ : Type} {g : β → γ} {r : Except ε β} {e : ε} :
    r.map g = .error e ↔ r = .error e := by
  rcases r with e' | b
  · simp [Except.map]
  · simp [Except.map]

@[simp] theorem exists_map_eq_ok_iff {γ : Type} {g : β → γ} {r : Except ε β} :
    (∃ c, r.map g = .ok c) ↔ ∃ b, r = .ok b := by
  rcases r with e | b
  · simp [Except.map]
  · simp [Except.map]

/-- What a loop has collected is what its steps gave. -/
theorem mem_of_mapM {f : α → Except ε β} {as : List α} {bs : List β} (h : as.mapM f = .ok bs)
    {b : β} : b ∈ bs ↔ ∃ a ∈ as, f a = .ok b := by
  induction as generalizing bs with
  | nil =>
    rw [List.mapM_nil] at h
    cases h
    simp
  | cons a as ih =>
    rw [mapM_cons_eq] at h
    cases ha : f a with
    | error e => simp [ha] at h
    | ok c =>
      cases has : as.mapM f with
      | error e => simp [ha, has, Except.map] at h
      | ok cs =>
        simp only [ha, has, Except.map, Except.ok.injEq] at h
        subst h
        simp [ih has, ha, eq_comm]

/-! ## Loops that write -/

/-- What a loop writes, one line a step at most, until it ends or fails. -/
def written (f : α → Except ε (Option β)) : List α → List β
  | [] => []
  | a :: as =>
    match f a with
    | .error _ => []
    | .ok b => b.toList ++ written f as

/-- What is written, one of the steps gave. -/
theorem exists_of_mem_written {f : α → Except ε (Option β)} {as : List α} {b : β}
    (h : b ∈ written f as) : ∃ a ∈ as, f a = .ok (some b) := by
  induction as with
  | nil => exact absurd h List.not_mem_nil
  | cons a as ih =>
    rw [written] at h
    cases ha : f a with
    | error e => simp [ha] at h
    | ok c =>
      simp only [ha, List.mem_append, Option.mem_toList] at h
      rcases h with h | h
      · exact ⟨a, List.mem_cons_self .., by rw [ha, h]⟩
      · obtain ⟨a', ha', hb⟩ := ih h
        exact ⟨a', List.mem_cons_of_mem a ha', hb⟩

/-- The lines stand in the order of the steps, at most one for each. -/
theorem map_written_sublist {γ : Type} {f : α → Except ε (Option β)} {g : β → γ} {k : α → γ}
    (hg : ∀ a b, f a = .ok (some b) → g b = k a) (as : List α) :
    ((written f as).map g).Sublist (as.map k) := by
  induction as with
  | nil => exact List.Sublist.slnil
  | cons a as ih =>
    rw [written]
    cases ha : f a with
    | error e => exact List.nil_sublist _
    | ok c =>
      cases c with
      | none => exact ih.cons (k a)
      | some b =>
        simp only [Option.toList_some, List.singleton_append, List.map_cons, hg a b ha]
        exact ih.cons_cons (k a)

end FaultyLoop
