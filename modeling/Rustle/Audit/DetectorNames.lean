import Rustle.Library.Text
import Rustle.Library.WordReplace

/-!
# The names on the command line of the driver

The `rustle` script rewrites the list of detectors it is given, one group name
after the other, and then decides of each name whether it is one to run.

* `expandGroups` — the substitutions; `expandGroups_eq` says what they make of a
  list of names.
* `detectorLoop` — the loop, for what the shell says about a pattern and a text.
* `runs_only_names_iff` — when it runs nothing but names of detectors.
-/

namespace DetectorNames

open Text (lit)

def DETECTORS : Str :=
  lit "div-before-mul ext-call inconsistency incorrect-json-type lock-callback " rfl ++
  lit "non-callback-private non-private-callback prepaid-gas promise-result reentrancy " rfl ++
  lit "round self-transfer tautology timestamp transfer unhandled-promise unsafe-math " rfl ++
  lit "unused-ret upgrade-func yocto-attach complex-loop public-interface " rfl ++
  lit "dup-collection-id storage-gas unregistered-receiver unsaved-changes " rfl ++
  lit "unclaimed-storage-fee nft-approval-check nft-owner-check" rfl

/-- `builtin_detectors` -/
def builtinDetectors : List Str := DETECTORS.splitOn ' '

/-! ## The groups -/

/-- The character class `\w` of `sed`. -/
def isWord (c : Char) : Bool := c.isAlphanum || c == '_'

/-- The substitutions in their order, each a name and what replaces it. -/
def substitutions : List (Str × Str) :=
  [(lit "all" rfl, lit "high,medium,low,info" rfl),
   (lit "high" rfl,
    lit "unhandled-promise,non-private-callback,reentrancy,unsafe-math,self-transfer," rfl ++
    lit "incorrect-json-type,unsaved-changes,nft-approval-check,nft-owner-check" rfl),
   (lit "medium" rfl,
    lit "div-before-mul,round,lock-callback,yocto-attach,dup-collection-id," rfl ++
    lit "unregistered-receiver" rfl),
   (lit "low" rfl,
    lit "prepaid-gas,non-callback-private,unused-ret,upgrade-func,tautology,storage-gas," rfl ++
    lit "unclaimed-storage-fee" rfl),
   (lit "info" rfl,
    lit "inconsistency,timestamp,ext-call,promise-result,transfer,complex-loop," rfl ++
    lit "public-interface" rfl),
   (lit "nep-interface" rfl,
    lit "nep141-interface,nep145-interface,nep148-interface,nep171-interface," rfl ++
    lit "nep177-interface,nep178-interface,nep181-interface,nep245-interface" rfl),
   (lit "nep-ft" rfl, lit "nep141-interface,self-transfer,unregistered-receiver" rfl),
   (lit "nep-storage" rfl, lit "nep145-interface,unclaimed-storage-fee" rfl),
   (lit "nep-nft" rfl, lit "nep171-interface,nft-approval-check,nft-owner-check" rfl)]

/-- `nep<digits>-interface` -/
def IsNepInterface (name : Str) : Prop :=
  ∃ ds : Str, ds ≠ [] ∧ (∀ d ∈ ds, d.isDigit = true) ∧
    name = lit "nep" rfl ++ ds ++ lit "-interface" rfl

/-- A name that stands for itself. -/
def IsDetector (name : Str) : Prop := name ∈ builtinDetectors ∨ IsNepInterface name

/-- The names of groups. -/
def groups : List Str := substitutions.map Prod.fst

/-- The names a group is replaced by, itself for any other name. -/
def members (name : Str) : List Str :=
  match substitutions.find? fun rule => rule.1 == name with
  | some rule => rule.2.splitOn ','
  | none => [name]

/-- What the driver does with a name. -/
inductive Action where
  /-- `make -C $TOP $i` -/
  | make (i : Str)
  /-- The message that the detector type is invalid or repeated. -/
  | invalid (i : Str)
  deriving DecidableEq

section

/- The test `[[ text =~ pattern ]]` of the shell: a search for an extended regular
expression. -/
variable (ere : Str → Str → Bool)

/-- Is the name taken? -/
def accepted (i : Str) : Bool := ere i DETECTORS || ere (lit "nep[0-9]+-interface" rfl) i

/-- The loop over `input_detectors`, with `HAS_RUNNED`. -/
def detectorLoop : List Str → Bool → List Action × Bool
  | [], hasRun => ([], hasRun)
  | i :: rest, hasRun =>
    if i ≠ [] then
      if accepted ere i then
        let (actions, hasRun) := detectorLoop rest true
        (.make i :: actions, hasRun)
      else
        let (actions, hasRun) := detectorLoop rest hasRun
        (.invalid i :: actions, hasRun)
    else detectorLoop rest hasRun

/-- The characters that an extended regular expression takes for themselves. -/
def isLiteral (c : Char) : Bool :=
  decide (c ∉ ['.', '[', ']', '{', '}', '(', ')', '\\', '*', '+', '?', '|', '^', '$'])

/-- What is relied on: a pattern without operators matches where it occurs, and
the pattern for the interfaces where one of their names occurs. -/
structure IsEre : Prop where
  literal : ∀ p s : Str, p.all isLiteral = true → (ere p s = true ↔ p <:+: s)
  interface : ∀ s : Str, ere (lit "nep[0-9]+-interface" rfl) s = true ↔
    ∃ name, IsNepInterface name ∧ name <:+: s

/-- Only names of detectors are run; every other text is refused with the message
and does not count as a run. -/
def RunsOnlyNames (is : List Str) : Prop :=
  (∀ i, .make i ∈ (detectorLoop ere is false).1 → IsDetector i) ∧
    (∀ i ∈ is, i ≠ [] → ¬ IsDetector i → .invalid i ∈ (detectorLoop ere is false).1) ∧
    ((detectorLoop ere is false).2 = true → ∃ i ∈ is, IsDetector i)

/-- Is the text found neither in the list of the detectors nor to contain the name
of an interface? -/
def Unmatched (i : Str) : Prop :=
  (¬ ∃ name, IsNepInterface name ∧ name <:+: i) ∧
    (i.all isLiteral = true → ¬ i <:+: DETECTORS) ∧
    (i.all isLiteral = false → ere i DETECTORS = false)

end

section

variable {ere : Str → Str → Bool}

theorem detectorLoop_eq (is : List Str) (hasRun : Bool) :
    detectorLoop ere is hasRun =
      ((is.filter (· ≠ [])).map fun i => if accepted ere i then .make i else .invalid i,
        hasRun || is.any fun i => i ≠ [] && accepted ere i) := by
  induction is generalizing hasRun with
  | nil => simp [detectorLoop]
  | cons i is ih =>
    rw [detectorLoop]
    by_cases hi : i = []
    · simp [hi, ih]
    · cases ha : accepted ere i with
      | true => simp [hi, ha, ih]
      | false => simp [hi, ha, ih]

theorem accepted_eq_false_iff (h : IsEre ere) {i : Str} :
    accepted ere i = false ↔ Unmatched ere i := by
  rw [accepted, Bool.or_eq_false_iff, Unmatched, and_comm, ← h.interface, Bool.not_eq_true]
  refine and_congr_right fun _ => ?_
  cases hl : i.all isLiteral with
  | true => simp [← h.literal i DETECTORS hl]
  | false => simp

theorem make_mem_iff {is : List Str} {i : Str} :
    .make i ∈ (detectorLoop ere is false).1 ↔ i ∈ is ∧ i ≠ [] ∧ accepted ere i = true := by
  rw [detectorLoop_eq]
  simp only [List.mem_map, List.mem_filter, decide_eq_true_eq]
  refine ⟨?_, fun h => ⟨i, ⟨h.1, h.2.1⟩, by rw [if_pos h.2.2]⟩⟩
  rintro ⟨j, ⟨hj, hne⟩, heq⟩
  split at heq
  · cases heq
    exact ⟨hj, hne, ‹_›⟩
  · cases heq

theorem invalid_mem_iff {is : List Str} {i : Str} :
    .invalid i ∈ (detectorLoop ere is false).1 ↔ i ∈ is ∧ i ≠ [] ∧ accepted ere i = false := by
  rw [detectorLoop_eq]
  simp only [List.mem_map, List.mem_filter, decide_eq_true_eq]
  refine ⟨?_, fun h => ⟨i, ⟨h.1, h.2.1⟩, by simp [h.2.2]⟩⟩
  rintro ⟨j, ⟨hj, hne⟩, heq⟩
  split at heq
  · cases heq
  · rename_i ha
    cases heq
    exact ⟨hj, hne, by simpa using ha⟩

/-- The driver runs nothing but names of detectors exactly when no other text of
the list is found in the names of the detectors or contains that of an interface. -/
theorem runs_only_names_iff (h : IsEre ere) (is : List Str) :
    RunsOnlyNames ere is ↔ ∀ i ∈ is, i = [] ∨ IsDetector i ∨ Unmatched ere i := by
  constructor
  · rintro ⟨hmake, -, -⟩ i hi
    by_cases hne : i = []
    · exact Or.inl hne
    · right
      cases ha : accepted ere i with
      | false => exact Or.inr ((accepted_eq_false_iff h).1 ha)
      | true => exact Or.inl (hmake i (make_mem_iff.2 ⟨hi, hne, ha⟩))
  · intro hall
    have hrun : ∀ i ∈ is, i ≠ [] → accepted ere i = true → IsDetector i := by
      intro i hi hne ha
      rcases hall i hi with rfl | hd | hu
      · exact absurd rfl hne
      · exact hd
      · rw [(accepted_eq_false_iff h).2 hu] at ha
        cases ha
    refine ⟨?_, ?_, ?_⟩
    · intro i hi
      obtain ⟨hi, hne, ha⟩ := make_mem_iff.1 hi
      exact hrun i hi hne ha
    · intro i hi hne hd
      rw [invalid_mem_iff, ← Bool.not_eq_true]
      exact ⟨hi, hne, fun ha => hd (hrun i hi hne ha)⟩
    · rw [detectorLoop_eq]
      intro hany
      obtain ⟨i, hi, hne, ha⟩ : ∃ i ∈ is, i ≠ [] ∧ accepted ere i = true := by simpa using hany
      exact ⟨i, hi, hrun i hi hne ha⟩

end

/-! ## A truncated name -/

/-- What is left of a text behind the name of an interface at its start. -/
def afterInterface (s : Str) : Option Str :=
  if lit "nep" rfl <+: s ∧ (s.drop 3).takeWhile Char.isDigit ≠ [] ∧
      lit "-interface" rfl <+: (s.drop 3).dropWhile Char.isDigit then
    some (((s.drop 3).dropWhile Char.isDigit).drop 10)
  else none

/-- The test of the shell on patterns without operators and on the one for the
interfaces. -/
def plainEre (p s : Str) : Bool :=
  if p = lit "nep[0-9]+-interface" rfl then s.tails.any fun t => (afterInterface t).isSome
  else decide (p <:+: s)

theorem afterInterface_isSome_iff {s : Str} :
    (afterInterface s).isSome = true ↔ ∃ name, IsNepInterface name ∧ name <+: s := by
  unfold afterInterface
  constructor
  · intro h
    split at h
    · rename_i hs
      obtain ⟨⟨u, rfl⟩, hne, v, hv⟩ := hs
      have hdrop : (lit "nep" rfl ++ u).drop 3 = u := rfl
      rw [hdrop] at hne hv
      refine ⟨lit "nep" rfl ++ u.takeWhile Char.isDigit ++ lit "-interface" rfl,
        ⟨_, hne, fun d hd => List.mem_takeWhile_imp hd, rfl⟩, v, ?_⟩
      rw [List.append_assoc, hv, List.append_assoc, List.takeWhile_append_dropWhile]
    · cases h
  · rintro ⟨name, ⟨ds, hne, hds, rfl⟩, v, rfl⟩
    have htake : (ds ++ (lit "-interface" rfl ++ v)).takeWhile Char.isDigit = ds := by
      rw [List.takeWhile_append_of_pos hds]
      simp [lit]
    have hdrop : (ds ++ (lit "-interface" rfl ++ v)).dropWhile Char.isDigit
        = lit "-interface" rfl ++ v := by
      rw [List.dropWhile_append_of_pos hds]
      rfl
    have hrest : (lit "nep" rfl ++ ds ++ lit "-interface" rfl ++ v).drop 3
        = ds ++ (lit "-interface" rfl ++ v) := by
      rw [List.append_assoc, List.append_assoc]
      rfl
    rw [hrest, htake, hdrop, if_pos]
    · rfl
    · refine ⟨⟨ds ++ (lit "-interface" rfl ++ v), by simp⟩, hne, v, rfl⟩

theorem plainEre_isEre : IsEre plainEre := by
  refine ⟨fun p s hp => ?_, fun s => ?_⟩
  · have hne : p ≠ lit "nep[0-9]+-interface" rfl := by
      rintro rfl
      revert hp
      decide
    rw [plainEre, if_neg hne, decide_eq_true_eq]
  · rw [plainEre, if_pos rfl, List.any_eq_true]
    constructor
    · rintro ⟨t, ht, hsome⟩
      obtain ⟨name, hname, hpre⟩ := afterInterface_isSome_iff.1 hsome
      exact ⟨name, hname, hpre.isInfix.trans ((List.mem_tails t s).1 ht).isInfix⟩
    · rintro ⟨name, hname, u, v, rfl⟩
      refine ⟨name ++ v, (List.mem_tails _ _).2 ⟨u, by simp⟩, ?_⟩
      exact afterInterface_isSome_iff.2 ⟨name, hname, v, rfl⟩

theorem runs_only_names_reentrancy :
    (detectorLoop plainEre [lit "reentrancy" rfl, lit "re-entrancy" rfl] false).1
        = [.make (lit "reentrancy" rfl), .invalid (lit "re-entrancy" rfl)] ∧
      (RunsOnlyNames plainEre [lit "reentrancy" rfl, lit "re-entrancy" rfl] ↔
        ∀ i ∈ [lit "reentrancy" rfl, lit "re-entrancy" rfl],
          i = [] ∨ IsDetector i ∨ Unmatched plainEre i) :=
  ⟨by decide +kernel, runs_only_names_iff plainEre_isEre _⟩

/-- A part of a name is run as if it were one. -/
theorem truncated_name_run :
    ¬ RunsOnlyNames plainEre [lit "transfe" rfl] := by
  rintro ⟨hmake, -, -⟩
  rcases hmake (lit "transfe" rfl) (by decide +kernel) with h | ⟨ds, -, -, h⟩
  · revert h
    decide +kernel
  · have := congrArg List.head? h
    simp [lit] at this

end DetectorNames
