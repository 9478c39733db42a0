import Rustle.Source.LineNumbers
import Rustle.Library.ClosestAbove

/-!
# The block that encloses a function

The struct and the trait of an indented function are those of the closest header of an
`impl` block or a module at or above the estimate of its line.

* `lineToStruct_spec` — the header that is taken.
* `Layout` — a file with its blocks, and the one that encloses a place.
* `blocks_right_iff` — when it is the header of the enclosing block.
-/

namespace FindFunc

open Backtrack Pattern
open Text (lit)

/-! ## The closest header -/

theorem closestImpl_eq (line : Int) (impls : List Impl) :
    closestImpl line impls = ClosestAbove.search Impl.line_number
      (fun impl => (impl.struct, impl.trait)) line line ([], []) impls := rfl

/-- The header that is closest to a line. -/
def Closest (impls : List Impl) (line : Int) (h : Impl) : Prop :=
  ∃ k, ClosestAbove.Closest Impl.line_number impls line k h

/-- `lineToStruct` gives the names of the closest header, if there is one. -/
theorem lineToStruct_spec (line : Int) (impls : List Impl) :
    (∃ h, Closest impls line h ∧ lineToStruct line impls = (h.struct, h.trait)) ∨
    ((∀ h ∈ impls, line < h.line_number) ∧ lineToStruct line impls = ([], [])) := by
  rw [lineToStruct, closestImpl_eq]
  rcases ClosestAbove.search_spec line line ([], []) impls with
    ⟨k, h, hclosest, hstate⟩ | ⟨hnone, hstate⟩
  · refine Or.inl ⟨h, ⟨k, hclosest⟩, ?_⟩
    rw [hstate]
  · refine Or.inr ⟨hnone, ?_⟩
    rw [hstate]

theorem Closest.unique {impls : List Impl} {line : Int} {h h' : Impl}
    (hc : Closest impls line h) (hc' : Closest impls line h') : h = h' := by
  obtain ⟨k, hk⟩ := hc
  obtain ⟨k', hk'⟩ := hc'
  exact hk.unique hk'

theorem Closest.mem {impls : List Impl} {line : Int} {h : Impl} (hc : Closest impls line h) :
    h ∈ impls ∧ h.line_number ≤ line := by
  obtain ⟨k, hk⟩ := hc
  exact ⟨List.mem_of_getElem? hk.stands, hk.above⟩

/-- Every header names a struct or a module. -/
theorem struct_ne_nil {text : Str} {h : Impl} (hmem : h ∈ findImpl text) : h.struct ≠ [] := by
  obtain ⟨m, hm, rfl⟩ := List.mem_map.1 hmem
  obtain ⟨t, ht, hne, -⟩ := @group?_of_requires Group Cell Prod.fst _ _ _ m .struct hm rfl rfl
  dsimp only
  rw [groupText, ht]
  simpa [chars] using hne

/-! ## What is recorded -/

section

variable {isWord : Char → Bool}

theorem map_correctResults {β : Type} {f : Result → β}
    (hf : ∀ b n r, f (correct b n r) = f r) (b : Bool) (n : Nat) (line : Str)
    (results : List Result) :
    (correctResults isWord b n line results).map f = results.map f := by
  rw [correctResults_eq]
  cases Tracking.taker 4 n (recognised isWord line) (results.map Result.slot) with
  | none => rfl
  | some i =>
    rw [Option.elim_some]
    apply List.ext_getElem?
    intro j
    rw [List.getElem?_map, List.getElem?_map, List.getElem?_modify]
    cases results[j]? with
    | none => rfl
    | some r =>
      by_cases h : i = j
      · simp [h, hf]
      · simp [h]

/-- The second pass changes the lines and the visibility only. -/
theorem runLines_map {β : Type} {f : Result → β} (hf : ∀ b n r, f (correct b n r) = f r)
    (lines : List Str) (results : List Result) :
    (runLines isWord lines results).results.map f = results.map f := by
  induction lines using List.reverseRecOn with
  | nil => rfl
  | append_singleton lines line ih =>
    rw [runLines, List.foldl_append, ← runLines, List.foldl_cons, List.foldl_nil, step_results,
      map_correctResults hf, ih]

/-- The names that `findFunc` records are those of the first pass. -/
theorem struct_findFunc {ignoreTest : Bool} {text : Str} {i : Nat} {m : Match Group Cell}
    {r : Result} (hm : (matchesOf isWord ignoreTest text)[i]? = some m)
    (hr : (findFunc isWord ignoreTest text)[i]? = some r) :
    (r.struct, r.struct_trait) =
      if ' ' ∈ groupText m .indent then
        lineToStruct (estimate (prepare isWord text) m) (findImpl text)
      else ([], []) := by
  have hmap : (findFunc isWord ignoreTest text).map (fun r => (r.struct, r.struct_trait))
      = (firstPass isWord ignoreTest text).map fun r => (r.struct, r.struct_trait) := by
    rw [findFunc]
    split
    · rename_i hnil
      rw [hnil]
    · rw [thirdPass_map fun r modifier => rfl, secondPass, runLines_map fun b n r => rfl]
  have hget := congrArg (·[i]?) hmap
  rw [List.getElem?_map, List.getElem?_map, hr, firstPass, List.getElem?_map, hm,
    Option.map_some, Option.map_some, Option.map_some, Option.some.injEq] at hget
  exact hget

end

/-! ## Whether it is the enclosing block -/

/-- The line of the word `fn` starts with white space. -/
def Indented (text : Str) (m : Match Group Cell) : Prop :=
  ∃ line c, (Text.lines text)[ownLine text m - 1]? = some line ∧ line.head? = some c ∧
    Text.isSpace c = true

/-- An `impl` block or a module: where its first word and its braces are, and its names. -/
structure Scope where
  start : Nat
  brace : Nat
  stop : Nat
  struct : Str
  trait : Str

/-- A file and its blocks, in their order. -/
structure Layout where
  text : Str
  scopes : List Scope
  opened : ∀ s ∈ scopes, lit "impl" rfl <+: (Text.universalNewlines text).drop s.start ∨
    lit "mod" rfl <+: (Text.universalNewlines text).drop s.start
  braced : ∀ s ∈ scopes, (Text.universalNewlines text)[s.brace]? = some '{' ∧
    (Text.universalNewlines text)[s.stop]? = some '}'
  /-- The names stand in front of the brace. -/
  named : ∀ s ∈ scopes, s.struct ≠ [] ∧
    s.struct <:+: ((Text.universalNewlines text).take s.brace).drop s.start ∧
    s.trait <:+: ((Text.universalNewlines text).take s.brace).drop s.start
  nested : scopes.Pairwise fun s s' =>
    s.stop < s'.start ∨ s.brace < s'.start ∧ s'.stop < s.stop

namespace Layout

/-- The innermost block around a place of the file. -/
def enclosing (L : Layout) (k : Nat) : Option Scope :=
  (L.scopes.filter fun s => s.brace < k ∧ k < s.stop).getLast?

/-- Every indented function gets the names of the block around it, or none. -/
def BlocksRight (isWord : Char → Bool) (ignoreTest : Bool) (L : Layout) : Prop :=
  ∀ (i : Nat) (m : Match Group Cell) (r : Result),
    (matchesOf isWord ignoreTest L.text)[i]? = some m →
    (findFunc isWord ignoreTest L.text)[i]? = some r → Indented L.text m →
      (r.struct, r.struct_trait)
        = (L.enclosing (fnPlace m)).elim ([], []) fun s => (s.struct, s.trait)

/-- An indented function in a block has a blank in front, and the closest header above it
is one with the names of the block; one in no block has no blank in front or no header
above. -/
def HeadersRight (isWord : Char → Bool) (ignoreTest : Bool) (L : Layout) : Prop :=
  ∀ m ∈ matchesOf isWord ignoreTest L.text, Indented L.text m →
    (∀ s, L.enclosing (fnPlace m) = some s → ' ' ∈ groupText m .indent ∧
      ∃ h, Closest (findImpl L.text) (estimate (prepare isWord L.text) m) h ∧
        h.struct = s.struct ∧ h.trait = s.trait) ∧
    (L.enclosing (fnPlace m) = none → ' ' ∈ groupText m .indent →
      ∀ h ∈ findImpl L.text, estimate (prepare isWord L.text) m < h.line_number)

theorem struct_ne_nil_of_enclosing {L : Layout} {k : Nat} {s : Scope}
    (h : L.enclosing k = some s) : s.struct ≠ [] := by
  have hmem := List.mem_of_getLast? h
  exact (L.named s (List.mem_filter.1 hmem).1).1

/-- The names are those of the enclosing blocks exactly when the closest headers are. -/
theorem blocks_right_iff (isWord : Char → Bool) (ignoreTest : Bool) (L : Layout) :
    L.BlocksRight isWord ignoreTest ↔ L.HeadersRight isWord ignoreTest := by
  constructor
  · intro h m hm hindented
    obtain ⟨i, hi⟩ := List.mem_iff_getElem?.1 hm
    obtain ⟨r, hr⟩ := exists_result hi
    have hright := h i m r hi hr hindented
    rw [struct_findFunc hi hr] at hright
    by_cases hindent : ' ' ∈ groupText m .indent
    · rw [if_pos hindent] at hright
      rcases lineToStruct_spec (estimate (prepare isWord L.text) m) (findImpl L.text) with
        ⟨g, hclosest, hnames⟩ | ⟨hnone, hnames⟩
      · rw [hnames] at hright
        constructor
        · intro s hs
          rw [hs, Option.elim_some, Prod.mk.injEq] at hright
          exact ⟨hindent, g, hclosest, hright⟩
        · intro hs
          rw [hs, Option.elim_none, Prod.mk.injEq] at hright
          exact absurd hright.1 (struct_ne_nil hclosest.mem.1)
      · rw [hnames] at hright
        refine ⟨fun s hs => ?_, fun _ _ => hnone⟩
        rw [hs, Option.elim_some, Prod.mk.injEq] at hright
        exact absurd hright.1.symm (struct_ne_nil_of_enclosing hs)
    · rw [if_neg hindent] at hright
      refine ⟨fun s hs => ?_, fun _ hblank => absurd hblank hindent⟩
      rw [hs, Option.elim_some, Prod.mk.injEq] at hright
      exact absurd hright.1.symm (struct_ne_nil_of_enclosing hs)
  · intro h i m r hi hr hindented
    obtain ⟨hin, hout⟩ := h m (List.mem_of_getElem? hi) hindented
    rw [struct_findFunc hi hr]
    cases hs : L.enclosing (fnPlace m) with
    | none =>
      rw [Option.elim_none]
      split
      · rename_i hindent
        rcases lineToStruct_spec (estimate (prepare isWord L.text) m) (findImpl L.text) with
          ⟨g, hclosest, -⟩ | ⟨-, hnames⟩
        · have habove := hclosest.mem
          have hbelow := hout hs hindent g habove.1
          omega
        · exact hnames
      · rfl
    | some s =>
      obtain ⟨hindent, g, hclosest, hstruct, htrait⟩ := hin s hs
      rw [if_pos hindent, Option.elim_some]
      rcases lineToStruct_spec (estimate (prepare isWord L.text) m) (findImpl L.text) with
        ⟨g', hclosest', hnames⟩ | ⟨hnone, -⟩
      · obtain rfl := hclosest.unique hclosest'
        rw [hnames, hstruct, htrait]
      · have habove := hclosest.mem
        have hbelow := hnone g habove.1
        omega

end Layout

/-- A trait with a default method, behind an `impl` block that ends before it. -/
def defaultMethod : Layout where
  text :=
    lit "impl Coin \x7b\n\x7d\ntrait Named \x7b\n" rfl ++
    lit "    fn label(&self) -> u8 \x7b\n        0\n    \x7d\n\x7d\n" rfl
  scopes := [⟨0, 10, 12, lit "Coin" rfl, []⟩]
  opened := by decide +kernel
  braced := by decide +kernel
  named := by decide +kernel
  nested := List.pairwise_singleton _ _

/-- The default method is said to be one of the block before. -/
theorem default_method_misplaced :
    ¬ ∀ (isWord : Char → Bool) (ignoreTest : Bool) (L : Layout),
      L.BlocksRight isWord ignoreTest := by
  intro h
  have hplace : (matchesOf Text.isAsciiWord false defaultMethod.text).map
      (fun m => (fnPlace m, ownLine defaultMethod.text m)) = [(32, 4)] := by
    decide +kernel
  have hstruct : (findFunc Text.isAsciiWord false defaultMethod.text).map Result.struct
      = [lit "Coin" rfl] := by
    decide +kernel
  obtain ⟨m, hm, hmplace⟩ := List.map_eq_singleton_iff.1 hplace
  obtain ⟨r, hr, hrstruct⟩ := List.map_eq_singleton_iff.1 hstruct
  rw [Prod.mk.injEq] at hmplace
  have hindented : Indented defaultMethod.text m := by
    refine ⟨lit "    fn label(&self) -> u8 \x7b" rfl, ' ', ?_, rfl, by decide⟩
    rw [hmplace.2]
    decide +kernel
  have hnone : defaultMethod.enclosing (fnPlace m) = none := by
    rw [hmplace.1]
    decide +kernel
  have hright := h Text.isAsciiWord false defaultMethod 0 m r (by rw [hm]; rfl) (by rw [hr]; rfl)
    hindented
  rw [hnone, Option.elim_none, Prod.mk.injEq, hrstruct] at hright
  exact absurd hright.1 (by decide)

end FindFunc
