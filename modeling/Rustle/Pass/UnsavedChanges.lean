import Rustle.Library.AddressOrder
import Rustle.Library.FaultyLoop
import Rustle.Llvm.NearCore

/-!
# `unsaved-changes`: values got from a map and not inserted again

* `runOnModule` — the pass, for an assignment of addresses to the values.
* `Asked` — the calls of `get` the pass decides on, each with the users of its
  result; the loop over a block **ends** at a `get` whose result is not unwrapped.
* `mem_runOnModule_iff` — the verdict on a `get` is that on the unwrap of lowest
  address.
* `order_independent_iff` — when the lines do not depend on the addresses.
* `verdict_exact_iff` — when the verdict on a `get` is its own: **no** `get` before it
  in its block is left without an unwrap.
-/

namespace UnsavedChanges

open Llvm NearCore
open Text (lit)
open AddressOrder (Order natOrder)
open FaultyLoop (Reaches reaches_cons)

def regexMap : Str :=
  lit "(lookup_map[0-9]+LookupMap|tree_map[0-9]+TreeMap|unordered_map[0-9]+UnorderedMap|" rfl ++
  lit "legacy_tree_map[0-9]+LegacyTreeMap)" rfl

def regexMapGet : Str :=
  lit "near_sdk[0-9]+collections[0-9]+" rfl ++ regexMap ++ lit "\\$.+[0-9]+get[0-9]+" rfl

def regexMapInsert : Str :=
  lit "near_sdk[0-9]+collections[0-9]+" rfl ++ regexMap ++ lit "\\$.+[0-9]+insert[0-9]+" rfl

def regexAllUnwrap : Str :=
  lit "core[0-9]+option[0-9]+Option\\$.+[0-9]+" rfl ++
  lit "(unwrap|unwrap_or|unwrap_or_else|unwrap_or_default|unwrap_unchecked)[0-9]+" rfl

/-- A line of the log: function, file and line. -/
abbrev Line := Str × Str × Nat

section

variable (M : Module)

/-- Is the value a direct call of a function whose name matches? -/
def callsFunc (regex : Str) (v : ValueId) : Bool :=
  match M.instruction? v with
  | some i => isInstCallFunc M i regex
  | none => false

/-- `isa<StoreInst>` -/
def isStore (v : ValueId) : Bool :=
  match M.instruction? v with
  | some ⟨.store _ _, _⟩ => true
  | _ => false

/-- Where the result of a `get` is: the call itself, or its first argument. -/
def returnValueOfGet (v : ValueId) (i : Instruction) : Option ValueId :=
  match i.args.length with
  | 2 => some v
  | 3 => i.getArgOperand 0
  | _ => none

def usersOfGet (v : ValueId) (i : Instruction) : Option (List ValueId) :=
  (returnValueOfGet v i).bind (simpleFindUsers M false true)

/-- The verdict on an unwrap: its value is changed, and inserted nowhere.  A
search that reads a parameter that does not exist gives no verdict. -/
def unsaved (u : ValueId) : Bool :=
  match ((M.instruction? u).bind fun j => j.getArgOperand 0).bind
      (simpleFindUsers M true false) with
  | none => false
  | some usersOfUnwrappedValue =>
    usersOfUnwrappedValue.any (isStore M) &&
      !usersOfUnwrappedValue.any (callsFunc M regexMapInsert)

/-- What is written for a `get`. -/
def site (F : Function) (i : Instruction) : Line :=
  (F.name, (i.debugLoc.map DebugLoc.filename).getD [], (i.debugLoc.map DebugLoc.line).getD 0)

/-- Is the instruction a `get` on a map, from the project? -/
def isMapGet (i : Instruction) : Bool := inProject i && isInstCallFunc M i regexMapGet

/-- The loop over the instructions of a block. -/
def scanBlock (o : Order ValueId) (F : Function) : List (ValueId × Instruction) → List Line
  | [] => []
  | (v, i) :: is =>
    if !isMapGet M i then scanBlock o F is
    else
      match usersOfGet M v i with
      | none => scanBlock o F is
      | some users =>
        match (o.iterate users).find? (callsFunc M regexAllUnwrap) with
        | none => []  -- no unwrap: `break`
        | some u => (if unsaved M u then [site F i] else []) ++ scanBlock o F is

/-- `runOnModule`: the lines written. -/
def runOnModule (o : Order ValueId) : List Line :=
  M.functions.flatMap fun F =>
    if skipFunc F then [] else F.blocks.flatMap fun B => scanBlock M o F (M.instructions B)

/-! ## What a line is meant to say -/

/-- What a line is meant to say: a `get` in the project, of two or three arguments, whose
result is unwrapped to a value that is changed and inserted nowhere. -/
def Reported (o : Order ValueId) (p : ValueId × Instruction) : Prop :=
  isMapGet M p.2 = true ∧ ∃ users, usersOfGet M p.1 p.2 = some users ∧
    ∃ u, (o.iterate users).find? (callsFunc M regexAllUnwrap) = some u ∧ unsaved M u = true

/-- A `get` in the project, of two or three arguments, whose result is not unwrapped. -/
def Stops (p : ValueId × Instruction) : Prop :=
  isMapGet M p.2 = true ∧ ∃ users, usersOfGet M p.1 p.2 = some users ∧
    ∀ u ∈ users, callsFunc M regexAllUnwrap u = false

theorem find_iterate_eq_none_iff {o : Order ValueId} {users : List ValueId} :
    (o.iterate users).find? (callsFunc M regexAllUnwrap) = none ↔
      ∀ u ∈ users, callsFunc M regexAllUnwrap u = false := by
  rw [List.find?_eq_none]
  simp only [AddressOrder.mem_iterate, Bool.not_eq_true]

/-- The unwrapped value is changed, and inserted nowhere. -/
def Unsaved (u : ValueId) : Prop :=
  ∃ j value users, M.instruction? u = some j ∧ j.getArgOperand 0 = some value ∧
    simpleFindUsers M true false value = some users ∧ (∃ w ∈ users, isStore M w = true) ∧
    ∀ w ∈ users, callsFunc M regexMapInsert w = false

theorem unsaved_eq_true_iff {u : ValueId} : unsaved M u = true ↔ Unsaved M u := by
  unfold unsaved Unsaved
  cases M.instruction? u with
  | none => simp
  | some j =>
    cases hvalue : j.getArgOperand 0 with
    | none => simp [hvalue]
    | some value => cases husers : simpleFindUsers M true false value <;> simp [hvalue, husers]

/-- The loop over a block comes to a `get` that it decides on: a line is written exactly for
those that are to be reported. -/
theorem mem_scanBlock_iff {o : Order ValueId} {F : Function}
    {is : List (ValueId × Instruction)} {l : Line} :
    l ∈ scanBlock M o F is ↔
      Reaches (fun q => ¬ Stops M q) (fun p => Reported M o p ∧ site F p.2 = l) is := by
  induction is with
  | nil => simp [scanBlock]
  | cons p is ih =>
    obtain ⟨v, i⟩ := p
    rw [reaches_cons, ← ih, scanBlock]
    by_cases hg : isMapGet M i = true
    · rw [if_neg (by simp [hg])]
      cases hu : usersOfGet M v i with
      | none => simp [Reported, Stops, hu]
      | some users =>
        have hstops : Stops M (v, i) ↔ ∀ u ∈ users, callsFunc M regexAllUnwrap u = false := by
          simp [Stops, hg, hu]
        rw [hstops, ← find_iterate_eq_none_iff M (o := o)]
        cases hfind : (o.iterate users).find? (callsFunc M regexAllUnwrap) with
        | none => simp [Reported, hu, hfind]
        | some u =>
          have hreported : Reported M o (v, i) ↔ unsaved M u = true := by
            simp [Reported, hg, hu, hfind]
          rw [hreported]
          by_cases hun : unsaved M u = true <;> simp [hfind, hun, eq_comm]
    · rw [if_pos (by simp [hg])]
      simp [Reported, Stops, hg]

/-! ## The choice of an unwrap -/

/-- A `get` at the location, with the users of its result, that the loop over its block
comes to. -/
def Asked (l : Line) (users : List ValueId) : Prop :=
  ∃ F ∈ M.functions, ∃ B ∈ F.blocks, Reaches (fun q => ¬ Stops M q)
    (fun p => isMapGet M p.2 = true ∧ usersOfGet M p.1 p.2 = some users ∧ site F p.2 = l)
    (M.instructions B)

/-- An unwrap the loop over the users may pick. -/
def Candidate (users : List ValueId) (u : ValueId) : Prop :=
  u ∈ users ∧ callsFunc M regexAllUnwrap u = true

/-- The unwrap the order picks. -/
def Picked (o : Order ValueId) (users : List ValueId) (u : ValueId) : Prop :=
  (o.iterate users).find? (callsFunc M regexAllUnwrap) = some u

theorem candidate_of_picked {o : Order ValueId} {users : List ValueId} {u : ValueId}
    (h : Picked M o users u) : Candidate M users u :=
  have h' := AddressOrder.find_iterate_iff.1 h
  ⟨h'.1, h'.2.1⟩

theorem exists_picked {o : Order ValueId} {users : List ValueId} {u : ValueId}
    (h : Candidate M users u) : ∃ u', Picked M o users u' :=
  AddressOrder.exists_find_iterate o h.1 h.2

/-- A line is written exactly for a `get` whose picked unwrap is unsaved. -/
theorem mem_runOnModule_iff {o : Order ValueId} {l : Line} :
    l ∈ runOnModule M o ↔ ∃ users, Asked M l users ∧ ∃ u, Picked M o users u ∧ Unsaved M u := by
  unfold runOnModule Asked Picked
  simp only [skipFunc_eq_false, Bool.false_eq_true, if_false, List.mem_flatMap,
    mem_scanBlock_iff, ← unsaved_eq_true_iff]
  constructor
  · rintro ⟨F, hF, B, hB, pre, p, post, his, hpre, ⟨hg, users, husers, hpicked⟩, hl⟩
    exact ⟨users, ⟨F, hF, B, hB, pre, p, post, his, hpre, hg, husers, hl⟩, hpicked⟩
  · rintro ⟨users, ⟨F, hF, B, hB, pre, p, post, his, hpre, hg, husers, hl⟩, hpicked⟩
    exact ⟨F, hF, B, hB, pre, p, post, his, hpre, ⟨hg, users, husers, hpicked⟩, hl⟩

/-! ## When the addresses do not matter -/

/-- At every location either no unwrap of a `get` there is unsaved, or all those
of some `get` there are. -/
def CandidatesAgree : Prop :=
  ∀ l, (∀ users, Asked M l users → ∀ u, Candidate M users u → ¬ Unsaved M u) ∨
    ∃ users, Asked M l users ∧ (∃ u, Candidate M users u) ∧
      ∀ u, Candidate M users u → Unsaved M u

/-- The users of a result lie in the table. -/
theorem lt_of_asked {l : Line} {users : List ValueId} (h : Asked M l users) {u : ValueId}
    (hu : u ∈ users) : u < M.values.length := by
  obtain ⟨F, -, B, -, hreaches⟩ := h
  obtain ⟨p, hp, -, husers, -⟩ := hreaches.exists_mem
  have hi : M.instruction? p.1 = some p.2 := Module.instruction?_of_mem hp
  obtain ⟨value, hvalue, hfind⟩ := Option.bind_eq_some_iff.1 husers
  have hlt : value < M.values.length := by
    unfold returnValueOfGet at hvalue
    split at hvalue
    · rw [Option.some.injEq] at hvalue
      rw [← hvalue]
      exact M.instruction?_lt hi
    · exact M.instruction_operands_lt hi (List.mem_of_getElem? hvalue)
    · cases hvalue
  exact (simpleFindUsers_within M false true hlt hfind).2 u hu

open Classical in
/-- The lines are the same for all addresses exactly when the candidates agree. -/
theorem order_independent_iff :
    (∀ (o o' : Order ValueId) (l : Line), l ∈ runOnModule M o ↔ l ∈ runOnModule M o') ↔
      CandidatesAgree M := by
  have hall : ∀ {l users}, Asked M l users → ∀ u ∈ users, u ∈ List.range M.values.length :=
    fun h u hu => List.mem_range.2 (lt_of_asked M h hu)
  constructor
  · intro h l
    by_contra hcon
    rw [not_or] at hcon
    obtain ⟨hsome, hmixed⟩ := hcon
    -- one order writes the line: it prefers an unsaved unwrap
    have hyes : ∃ o, l ∈ runOnModule M o := by
      by_contra hno
      apply hsome
      intro users hasked u hu hun
      refine hno ⟨natOrder.prefer (Unsaved M) (List.range M.values.length), ?_⟩
      obtain ⟨u', hu'⟩ := exists_picked M
        (o := natOrder.prefer (Unsaved M) (List.range M.values.length)) hu
      exact (mem_runOnModule_iff M).2 ⟨users, hasked, u', hu',
        AddressOrder.find_prefer (hall hasked) hu.1 hu.2 hun hu'⟩
    -- another one does not: it prefers the saved unwraps
    have hno : l ∉ runOnModule M
        (natOrder.prefer (fun v => ¬ Unsaved M v) (List.range M.values.length)) := by
      intro hmem
      obtain ⟨users, hasked, u, hu, hun⟩ := (mem_runOnModule_iff M).1 hmem
      refine hmixed ⟨users, hasked, ⟨u, candidate_of_picked M hu⟩, fun v hv => ?_⟩
      by_contra hsaved
      exact AddressOrder.find_prefer (P := fun v => ¬ Unsaved M v) (hall hasked) hv.1 hv.2
        hsaved hu hun
    obtain ⟨o, ho⟩ := hyes
    exact hno ((h o _ l).1 ho)
  · have himp : CandidatesAgree M → ∀ (o o' : Order ValueId) (l : Line),
        l ∈ runOnModule M o → l ∈ runOnModule M o' := by
      intro h o o' l hl
      obtain ⟨users, hasked, u, hu, hun⟩ := (mem_runOnModule_iff M).1 hl
      rcases h l with hnone | ⟨users', hasked', ⟨v, hv⟩, hgood⟩
      · exact absurd hun (hnone users hasked u (candidate_of_picked M hu))
      · obtain ⟨u', hu'⟩ := exists_picked M (o := o') hv
        exact (mem_runOnModule_iff M).2
          ⟨users', hasked', u', hu', hgood u' (candidate_of_picked M hu')⟩
    exact fun h o o' l => ⟨himp h o o' l, himp h o' o l⟩

/-! ## The verdict on one `get` -/

/-- Is a line written for each of the instructions?  It is the loop over a block, with a
verdict for each instruction. -/
def verdicts (o : Order ValueId) : List (ValueId × Instruction) → List Bool
  | [] => []
  | (v, i) :: is =>
    if !isMapGet M i then false :: verdicts o is
    else
      match usersOfGet M v i with
      | none => false :: verdicts o is
      | some users =>
        match (o.iterate users).find? (callsFunc M regexAllUnwrap) with
        | none => false :: is.map fun _ => false
        | some u => unsaved M u :: verdicts o is

/-- The lines for the instructions with a positive verdict. -/
def linesOf (F : Function) (is : List (ValueId × Instruction)) (verdicts : List Bool) : List Line :=
  ((is.zip verdicts).filter Prod.snd).map fun q => site F q.1.2

/-- The verdict on the first instruction is its own; after a `get` that is not unwrapped
every verdict is negative, and else the loop goes on. -/
theorem verdicts_cons (o : Order ValueId) (p : ValueId × Instruction)
    (is : List (ValueId × Instruction)) :
    ∃ b, (b = true ↔ Reported M o p) ∧ (Stops M p → verdicts M o (p :: is) =
        b :: is.map fun _ => false) ∧
      (¬ Stops M p → verdicts M o (p :: is) = b :: verdicts M o is) := by
  obtain ⟨v, i⟩ := p
  rw [verdicts]
  by_cases hg : isMapGet M i = true
  · rw [if_neg (by simp [hg])]
    cases hu : usersOfGet M v i with
    | none => exact ⟨false, by simp [Reported, hu], by simp [Stops, hu], fun _ => rfl⟩
    | some users =>
      cases hfind : (o.iterate users).find? (callsFunc M regexAllUnwrap) with
      | none =>
        have hstops : Stops M (v, i) := ⟨hg, users, hu, (find_iterate_eq_none_iff M).1 hfind⟩
        simp only [hfind]
        exact ⟨false, by simp [Reported, hu, hfind], fun _ => rfl, fun h => absurd hstops h⟩
      | some u =>
        have hgo : ¬ Stops M (v, i) := by
          rintro ⟨-, users', hu', hnone⟩
          rw [hu, Option.some.injEq] at hu'
          subst hu'
          rw [(find_iterate_eq_none_iff M).2 hnone] at hfind
          cases hfind
        simp only [hfind]
        exact ⟨unsaved M u, by simp [Reported, hg, hu, hfind], fun h => absurd h hgo, fun _ => rfl⟩
  · rw [if_pos (by simp [hg])]
    exact ⟨false, by simp [Reported, hg], by simp [Stops, hg], fun _ => rfl⟩

/-- The verdict on an instruction, among the others of its block. -/
theorem verdicts_append_iff (o : Order ValueId) (pre post : List (ValueId × Instruction))
    (p : ValueId × Instruction) :
    (verdicts M o (pre ++ p :: post))[pre.length]? = some true ↔
      Reported M o p ∧ ∀ q ∈ pre, ¬ Stops M q := by
  induction pre with
  | nil =>
    obtain ⟨b, hb, hstops, hgo⟩ := verdicts_cons M o p post
    have hhead : (verdicts M o (p :: post))[0]? = some b := by
      by_cases h : Stops M p
      · rw [hstops h, List.getElem?_cons_zero]
      · rw [hgo h, List.getElem?_cons_zero]
    rw [List.nil_append, List.length_nil, hhead, Option.some.injEq, hb]
    simp
  | cons q pre ih =>
    obtain ⟨b, -, hstops, hgo⟩ := verdicts_cons M o q (pre ++ p :: post)
    rw [List.cons_append, List.length_cons, List.forall_mem_cons]
    by_cases h : Stops M q
    · rw [hstops h, List.getElem?_cons_succ, List.getElem?_map]
      simp [h]
    · rw [hgo h, List.getElem?_cons_succ, ih]
      simp [h]

/-- Every instruction has a verdict. -/
theorem length_verdicts (o : Order ValueId) (is : List (ValueId × Instruction)) :
    (verdicts M o is).length = is.length := by
  induction is with
  | nil => rfl
  | cons p is ih =>
    obtain ⟨b, -, hstops, hgo⟩ := verdicts_cons M o p is
    by_cases h : Stops M p
    · rw [hstops h, List.length_cons, List.length_map, List.length_cons]
    · rw [hgo h, List.length_cons, ih, List.length_cons]

/-- The lines are those of the positive verdicts. -/
theorem scanBlock_eq (o : Order ValueId) (F : Function) (is : List (ValueId × Instruction)) :
    scanBlock M o F is = linesOf F is (verdicts M o is) := by
  have hnone : ∀ is : List (ValueId × Instruction), linesOf F is (is.map fun _ => false) = [] := by
    intro is
    rw [linesOf, List.map_eq_nil_iff, List.filter_eq_nil_iff]
    rintro ⟨q, b⟩ hq
    obtain ⟨r, -, hr⟩ := List.mem_map.1 (List.of_mem_zip hq).2
    simp [← hr]
  induction is with
  | nil => rfl
  | cons p is ih =>
    obtain ⟨v, i⟩ := p
    have hskip : linesOf F ((v, i) :: is) (false :: verdicts M o is) = scanBlock M o F is := by
      rw [ih, linesOf, List.zip_cons_cons, List.filter_cons_of_neg (by simp), linesOf]
    rw [scanBlock, verdicts]
    by_cases hg : isMapGet M i = true
    · rw [if_neg (by simp [hg]), if_neg (by simp [hg])]
      cases hu : usersOfGet M v i with
      | none => exact hskip.symm
      | some users =>
        cases hfind : (o.iterate users).find? (callsFunc M regexAllUnwrap) with
        | none =>
          simp only [hfind]
          rw [linesOf, List.zip_cons_cons, List.filter_cons_of_neg (by simp), ← linesOf, hnone]
        | some u =>
          simp only [hfind]
          cases hun : unsaved M u with
          | false => simpa using hskip.symm
          | true =>
            rw [if_pos rfl, ih, linesOf, linesOf, List.zip_cons_cons,
              List.filter_cons_of_pos rfl]
            rfl
    · rw [if_pos (by simp [hg]), if_pos (by simp [hg])]
      exact hskip.symm

/-- The pass writes the lines of the positive verdicts.  The verdict on an instruction
is right exactly when the instruction is not to be reported, or no `get` before it in
the block is left without an unwrap; and it is the same among other instructions
exactly when it is not to be reported, or such a `get` stands before it in both places
or in neither. -/
theorem verdict_exact_iff (M : Module) (o : Order ValueId) :
    (runOnModule M o = M.functions.flatMap fun F => F.blocks.flatMap fun B =>
      linesOf F (M.instructions B) (verdicts M o (M.instructions B))) ∧
    ∀ pre p post,
      (((verdicts M o (pre ++ p :: post))[pre.length]? = some true ↔ Reported M o p) ↔
        (Reported M o p → ∀ q ∈ pre, ¬ Stops M q)) ∧
      ∀ pre' post',
        ((verdicts M o (pre ++ p :: post))[pre.length]? =
            (verdicts M o (pre' ++ p :: post'))[pre'.length]? ↔
          (Reported M o p → ((∃ q ∈ pre, Stops M q) ↔ ∃ q ∈ pre', Stops M q))) := by
  refine ⟨?_, fun pre p post => ⟨?_, fun pre' post' => ?_⟩⟩
  · simp only [runOnModule, skipFunc_eq_false, Bool.false_eq_true, if_false, scanBlock_eq]
  · rw [verdicts_append_iff]
    exact and_iff_left_iff_imp
  · have hsome : ∀ pre post : List (ValueId × Instruction),
        ∃ b, (verdicts M o (pre ++ p :: post))[pre.length]? = some b := by
      intro pre post
      refine ⟨_, List.getElem?_eq_getElem ?_⟩
      rw [length_verdicts, List.length_append, List.length_cons]
      omega
    have hstops : ∀ pre : List (ValueId × Instruction),
        (∃ q ∈ pre, Stops M q) ↔ ¬ ∀ q ∈ pre, ¬ Stops M q := by
      intro pre
      simp
    obtain ⟨b, hb⟩ := hsome pre post
    obtain ⟨b', hb'⟩ := hsome pre' post'
    have h := verdicts_append_iff M o pre post p
    have h' := verdicts_append_iff M o pre' post' p
    rw [hb, Option.some.injEq] at h
    rw [hb', Option.some.injEq] at h'
    rw [hb, hb', Option.some.injEq, Bool.eq_iff_iff, h, h', hstops, hstops, and_congr_right_iff]
    exact imp_congr_right fun _ => not_iff_not.symm

end

/-- A block that asks a map for a value without unwrapping it, and then gets a value,
unwraps it and changes it. -/
def twoGetsBlock : BasicBlock := ⟨lit "start" rfl, [5, 6, 7, 8]⟩

def twoGets : Module where
  values :=
    [.function, .function, .function, .argument, .argument,
     .instruction ⟨.call [3, 4] [] 1 true, some ⟨lit "src/lib.rs" rfl, 10⟩⟩,
     .instruction ⟨.call [3, 4] [] 1 true, some ⟨lit "src/lib.rs" rfl, 12⟩⟩,
     .instruction ⟨.call [6] [] 2 true, some ⟨lit "src/lib.rs" rfl, 12⟩⟩,
     .instruction ⟨.store 4 7, some ⟨lit "src/lib.rs" rfl, 13⟩⟩,
     .argument, .argument, .argument]
  functions :=
    [⟨lit "_ZN5token5Token7deposit17h1E" rfl, 0, [3, 4], [twoGetsBlock]⟩,
     ⟨lit "_ZN8near_sdk11collections10lookup_map24LookupMap$LT$K$C$V$GT$3get17h2E" rfl, 1,
       [9, 10], []⟩,
     ⟨lit "_ZN4core6option15Option$LT$T$GT$6unwrap17h3E" rfl, 2, [11], []⟩]
  users := useList _
  users_perm := fun _ => .refl _
  operands_lt := by decide
  params_lt := by decide
  names_nodup := by decide +kernel
  functions_nodup := by decide

/-- The `get` of line 12 is to be reported, and no line is written for it. -/
theorem second_get_not_reported :
    ¬ ∀ (M : Module) (o : Order ValueId), ∀ F ∈ M.functions, ∀ B ∈ F.blocks, ∀ pre p post,
      M.instructions B = pre ++ p :: post →
        ((verdicts M o (M.instructions B))[pre.length]? = some true ↔ Reported M o p) := by
  intro h
  have hF : ⟨lit "_ZN5token5Token7deposit17h1E" rfl, 0, [3, 4], [twoGetsBlock]⟩ ∈
      twoGets.functions := List.mem_cons_self ..
  have hright := h twoGets natOrder _ hF twoGetsBlock (List.mem_cons_self ..)
    [(5, ⟨.call [3, 4] [] 1 true, some ⟨lit "src/lib.rs" rfl, 10⟩⟩)]
    (6, ⟨.call [3, 4] [] 1 true, some ⟨lit "src/lib.rs" rfl, 12⟩⟩)
    [(7, ⟨.call [6] [] 2 true, some ⟨lit "src/lib.rs" rfl, 12⟩⟩),
      (8, ⟨.store 4 7, some ⟨lit "src/lib.rs" rfl, 13⟩⟩)] rfl
  have hreported : Reported twoGets natOrder
      (6, ⟨.call [3, 4] [] 1 true, some ⟨lit "src/lib.rs" rfl, 12⟩⟩) :=
    ⟨by decide +kernel, [8, 7, 6], by decide +kernel, 7, by decide +kernel, by decide +kernel⟩
  have hverdicts : verdicts twoGets natOrder (twoGets.instructions twoGetsBlock) =
      [false, false, false, false] := by
    decide +kernel
  rw [hverdicts] at hright
  exact absurd (hright.2 hreported) (by decide)

end UnsavedChanges
