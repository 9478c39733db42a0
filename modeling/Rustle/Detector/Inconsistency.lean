import Rustle.Library.Greedy
import Rustle.Library.SequenceMatcher
import Rustle.Source.GlobalVars

/-!
# Names that are easily mistaken for each other

`inconsistency.py` compares the names of all global variables of a project with each other
and lists the similar ones under each name.

* `isSimilar` — when two names are similar; `isSimilar_bounds`.
* `globalVars` — the variables of all files.
* `fuzzSet`, `conflicts` — the names with others similar to them, as they are written.
* `word_of_mem_globalNames`, `mem_conflicts_iff` — the names are words, and what is listed
  under which of them.
-/

namespace Inconsistency

open Backtrack
open GlobalVars
open SequenceMatcher (matching)

/-! ## Similar names -/

/-- `SequenceMatcher(None, a, b).ratio() > 0.85`: the ratio is `2.0 * matches / length`, and
1 for two empty texts. -/
def isSimilar (a b : Str) : Bool :=
  a.length + b.length = 0 || 17 * (a.length + b.length) < 40 * matching a b

/-- A share of the two names is more than the ratio asks for. -/
def Exceeds (a b : Str) (share : Nat) : Prop := 17 * (a.length + b.length) < 40 * share

theorem isSimilar_iff {a b : Str} :
    isSimilar a b = true ↔ a = [] ∧ b = [] ∨ Exceeds a b (matching a b) := by
  rw [isSimilar, Bool.or_eq_true, decide_eq_true_eq, decide_eq_true_eq, Nat.add_eq_zero_iff,
    List.length_eq_zero_iff, List.length_eq_zero_iff]
  exact Iff.rfl

/-- Names with a long enough common part are similar, and similar names have a long enough
common subsequence: what is found lies between the two. -/
theorem isSimilar_bounds (a b : Str) :
    (b.length < 200 → ∀ w, w <:+: a → w <:+: b → Exceeds a b w.length → isSimilar a b = true) ∧
      (isSimilar a b = true → a = [] ∧ b = [] ∨
        ∃ c : Str, c.Sublist a ∧ c.Sublist b ∧ Exceeds a b c.length) := by
  constructor
  · intro hshort w ha hb hexceeds
    have hle := SequenceMatcher.length_le_matching a b hshort ha hb
    rw [Exceeds] at hexceeds
    refine isSimilar_iff.2 (Or.inr ?_)
    rw [Exceeds]
    omega
  · intro h
    refine (isSimilar_iff.1 h).imp_right fun hexceeds => ?_
    obtain ⟨c, hca, hcb, hlen⟩ := SequenceMatcher.matching_sublist a b
    exact ⟨c, hca, hcb, hlen ▸ hexceeds⟩

/-- A name and its plural, as it were. -/
theorem isSimilar_bounds_limits :
    isSimilar (Text.lit "GAS_MAX" rfl) (Text.lit "GAS_MAXI" rfl) = true :=
  (isSimilar_bounds (Text.lit "GAS_MAX" rfl) (Text.lit "GAS_MAXI" rfl)).1 (by decide)
    (Text.lit "GAS_MAX" rfl) (List.infix_refl _) ⟨[], ['I'], rfl⟩ (by unfold Exceeds; decide)

/-- A name may be listed under another one that is not listed under it: the first of the
longest common parts need not leave the best rest. -/
theorem isSimilar_not_comm : ¬ ∀ a b, isSimilar a b = isSimilar b a := by
  intro h
  exact absurd (h (Text.lit "aaacbdc" rfl) (Text.lit "aaaccbc" rfl)) (by decide +kernel)

/-! ## The log -/

section

variable (isWord : Char → Bool)

/-- `global_vars`, for the texts of the files. -/
def globalVars (texts : List Str) : Dict Str GlobalVar :=
  texts.foldl (fun vars text => vars.merge (findGlobalVar isWord text)) Dict.empty

theorem mem_globalVars_iff {texts : List Str} {name : Str} :
    name ∈ (globalVars isWord texts).keys ↔ ∃ text ∈ texts, name ∈ globalNames isWord text := by
  have hfold : ∀ d : Dict Str GlobalVar,
      name ∈ (texts.foldl (fun vars text => vars.merge (findGlobalVar isWord text)) d).keys ↔
        name ∈ d.keys ∨ ∃ text ∈ texts, name ∈ globalNames isWord text := by
    induction texts with
    | nil => simp
    | cons text texts ih =>
      intro d
      rw [List.foldl_cons, ih, Dict.mem_keys_merge, Dict.mem_keys_iff (d := findGlobalVar _ _),
        List.exists_mem_cons_iff, or_assoc]
      exact Iff.rfl
  rw [globalVars, hfold]
  exact or_iff_right List.not_mem_nil

variable {isWord} in
/-- The name of a variable is a word. -/
theorem word_of_mem_globalNames {text name : Str} (h : name ∈ globalNames isWord text) :
    name ≠ [] ∧ ∀ c ∈ name, isWord c = true := by
  obtain ⟨m, hm, hname⟩ := mem_globalNames_iff.1 h
  have hgroup : groupText m.groups .name1 = name := by
    rw [declaredName] at hname
    split at hname
    · cases hname
    · exact Option.some.inj hname
  obtain ⟨t, ht, hne, -⟩ := group?_of_requires hm (g := .name1) rfl rfl
  obtain ⟨b, hb, hlang⟩ := group?_lang hm ht
  have hbody : b = Pattern.many1 (.char isWord) := List.mem_singleton.1 hb
  obtain rfl : t = name := by rw [← hgroup, groupText, ← Match.group?, ht, Option.getD_some]
  rw [hbody, lang_many1_char] at hlang
  exact ⟨hne, hlang.2⟩

end

/-- The other names that are similar to `i`. -/
def similarNames (names : List Str) (i : Str) : List Str :=
  names.filter fun j => !decide (i = j) && isSimilar i j

/-- `fuzz_set`: a name without others is taken out again. -/
def fuzzSet (names : List Str) : List (Str × List Str) :=
  (names.map fun i => (i, similarNames names i)).filter fun e => !e.2.isEmpty

/-- The entries as they are written, in the order of their keys. -/
def conflicts (names : List Str) : List (Str × List Str) :=
  (fuzzSet names).insertionSort fun e f => e.1 ≤ f.1

/-- Under a name of the project stand the other names similar to it, if there are any. -/
theorem mem_conflicts_iff {names : List Str} {e : Str × List Str} :
    e ∈ conflicts names ↔ e.1 ∈ names ∧ e.2 = similarNames names e.1 ∧ e.2 ≠ [] := by
  rw [conflicts, List.mem_insertionSort, fuzzSet, List.mem_filter, List.mem_map, Bool.not_eq_true',
    List.isEmpty_eq_false_iff, ← and_assoc]
  refine and_congr_left fun _ => ?_
  constructor
  · rintro ⟨i, hi, rfl⟩
    exact ⟨hi, rfl⟩
  · rintro ⟨hi, he⟩
    exact ⟨e.1, hi, Prod.ext rfl he.symm⟩

theorem mem_similarNames_iff {names : List Str} {i j : Str} :
    j ∈ similarNames names i ↔ j ∈ names ∧ i ≠ j ∧ isSimilar i j = true := by
  rw [similarNames, List.mem_filter, Bool.and_eq_true, Bool.not_eq_true', decide_eq_false_iff_not]

end Inconsistency
