import Rustle.Library.CheckedSum
import Rustle.Llvm.NearCore

/-!
# `complex-loop`: loops of many instructions

* `functionInstNum`, `loopInstSize` — the counts, in 32-bit integers that wrap.
* `runOnLoop` — the pass: the line written, or the null location it comes to.
* `runOnLoop_eq_error_iff` — the loops on which it breaks down.
* `weight` — the count without a bound, and `loopInstSize_eq`, what is left of it.
* `reports_exactly_iff` — when the pass reports the loops of weight above 100.
-/

namespace ComplexLoop

open Llvm NearCore
open Text (lit)

/-- A line of the log: function, file and line. -/
abbrev Line := Str × Str × Nat

/-- A loop, as the analysis offers it. -/
structure Loop where
  /-- `getHeader()->getParent()` -/
  parent : Function
  /-- `getBlocks` -/
  blocks : List BasicBlock
  /-- `getStartLoc`, `none` when it holds no location. -/
  startLoc : Option DebugLoc

def MIN_INST_NUM_FOR_LOOP : BitVec 32 := 100

section

variable (M : Module)

/-- `functionInstNum(F, depth)`; the function may be null. -/
def functionInstNum : Nat → Option Function → BitVec 32
  | 0, _ => 0
  | _ + 1, none => 0
  | depth + 1, some F =>
    if Regex.matchPattern regexForLibFunc F.name then 0
    else
      (F.instructions M).foldl
        (fun count p =>
          if p.2.isCall then count + functionInstNum depth (M.getCalledFunction p.2)
          else count + 1) 0

/-- `loopInstSize` -/
def loopInstSize (L : Loop) : BitVec 32 :=
  (L.blocks.flatMap M.instructions).foldl
    (fun size p =>
      if p.2.isCall then size + functionInstNum M 2 (M.getCalledFunction p.2) else size + 1) 0

/-- `runOnLoop` -/
def runOnLoop (L : Loop) : Except Fault (List Line) :=
  if Regex.matchPattern regexForLibFunc L.parent.name then .ok []
  else
    match L.startLoc with
    | none => .error .nullLocation
    | some startLoc =>
      if Regex.matchPattern regexForLibLoc startLoc.filename then .ok []
      else if MIN_INST_NUM_FOR_LOOP.slt (loopInstSize M L) then
        .ok [(L.parent.name, startLoc.filename, startLoc.line)]
      else .ok []

/-- The pass breaks down on a loop of the project that has no location. -/
theorem runOnLoop_eq_error_iff {L : Loop} {e : Fault} :
    runOnLoop M L = .error e ↔
      e = .nullLocation ∧ Regex.matchPattern regexForLibFunc L.parent.name = false ∧
        L.startLoc = none := by
  unfold runOnLoop
  cases Regex.matchPattern regexForLibFunc L.parent.name with
  | true => simp
  | false =>
    cases L.startLoc with
    | none => simp [eq_comm]
    | some startLoc =>
      simp only [Bool.false_eq_true, if_false]
      split
      · simp
      · split
        · simp
        · simp

/-! ## The exact weight -/

/-- The instructions that are no calls. -/
def nonCalls (insts : List (ValueId × Instruction)) : Nat := insts.countP fun p => !p.2.isCall

/-- The functions called directly that are not of a library, once for each call. -/
def callees (insts : List (ValueId × Instruction)) : List Function :=
  insts.filterMap fun p =>
    (M.getCalledFunction p.2).filter fun F => !Regex.matchPattern regexForLibFunc F.name

/-- The instructions of a function, those of its callees included. -/
def calleeWeight (F : Function) : Nat :=
  nonCalls (F.instructions M)
    + ((callees M (F.instructions M)).map fun G => nonCalls (G.instructions M)).sum

/-- The weight of a loop, without a bound. -/
def weight (L : Loop) : Nat :=
  nonCalls (L.blocks.flatMap M.instructions)
    + ((callees M (L.blocks.flatMap M.instructions)).map (calleeWeight M)).sum

/-- What is counted for a function that a call may name. -/
def counted (v : Function → Nat) (oF : Option Function) : Nat :=
  (((oF.filter fun F => !Regex.matchPattern regexForLibFunc F.name)).map v).getD 0

/-- The total over the instructions is that of the calls and of the rest. -/
theorem sum_counted (v : Function → Nat) (insts : List (ValueId × Instruction)) :
    (insts.map fun p =>
        if p.2.isCall then counted v (M.getCalledFunction p.2) else 1).sum
      = nonCalls insts + ((callees M insts).map v).sum := by
  induction insts with
  | nil => rfl
  | cons p insts ih =>
    rw [List.map_cons, List.sum_cons, ih, nonCalls, nonCalls, callees, callees, List.countP_cons,
      List.filterMap_cons]
    cases hp : p.2.isCall with
    | false =>
      have hnone : M.getCalledFunction p.2 = none := by
        unfold Instruction.isCall at hp
        unfold Module.getCalledFunction
        split at hp
        · cases hp
        · rename_i h
          split
          · exact absurd ‹_› (h _ _ _ _)
          · rfl
      simp [hnone]
      omega
    | true =>
      cases hF : (M.getCalledFunction p.2).filter fun F =>
          !Regex.matchPattern regexForLibFunc F.name with
      | none => simp [counted, hF]
      | some F =>
        simp [counted, hF]
        omega

theorem functionInstNum_succ (depth : Nat) (oF : Option Function) {v : Function → Nat}
    (h : ∀ oG, functionInstNum M depth oG = BitVec.ofNat 32 (counted v oG)) :
    functionInstNum M (depth + 1) oF
      = BitVec.ofNat 32 (counted (fun F =>
          nonCalls (F.instructions M) + ((callees M (F.instructions M)).map v).sum) oF) := by
  cases oF with
  | none => rfl
  | some F =>
    rw [functionInstNum, counted, Option.filter_some]
    cases Regex.matchPattern regexForLibFunc F.name with
    | true => rfl
    | false =>
      have hfold := CheckedSum.foldl_add_eq (l := F.instructions M) (w := 32)
        (g := fun p =>
          if p.2.isCall then functionInstNum M depth (M.getCalledFunction p.2) else 1)
        (v := fun p => if p.2.isCall then counted v (M.getCalledFunction p.2) else 1)
        (fun p _ => by
          split
          · exact h _
          · rfl) 0
      rw [sum_counted, zero_add] at hfold
      simp only [Bool.false_eq_true, if_false, Bool.not_false, if_true, Option.map_some,
        Option.getD_some]
      rw [← hfold]
      congr 1
      funext count p
      split
      · rfl
      · rfl

@[simp] theorem counted_zero (oF : Option Function) : counted (fun _ => 0) oF = 0 := by
  unfold counted
  cases oF.filter _ with
  | none => rfl
  | some F => rfl

/-- The count of a function, in integers that wrap. -/
theorem functionInstNum_two (oF : Option Function) :
    functionInstNum M 2 oF = BitVec.ofNat 32 (counted (calleeWeight M) oF) := by
  have hone : ∀ oG, functionInstNum M 1 oG
      = BitVec.ofNat 32 (counted (fun G => nonCalls (G.instructions M)) oG) := by
    intro oG
    have h := functionInstNum_succ M 0 oG (v := fun _ => 0) fun oG => by
      rw [counted_zero]
      rfl
    simpa using h
  exact functionInstNum_succ M 1 oF hone

/-- The pass computes the weight, reduced to 32 bits. -/
theorem loopInstSize_eq (L : Loop) : loopInstSize M L = BitVec.ofNat 32 (weight M L) := by
  have hfold := CheckedSum.foldl_add_eq (l := L.blocks.flatMap M.instructions) (w := 32)
    (g := fun p => if p.2.isCall then functionInstNum M 2 (M.getCalledFunction p.2) else 1)
    (v := fun p => if p.2.isCall then counted (calleeWeight M) (M.getCalledFunction p.2) else 1)
    (fun p _ => by
      split
      · exact functionInstNum_two M _
      · rfl) 0
  rw [sum_counted, zero_add] at hfold
  rw [weight, ← hfold, loopInstSize]
  congr 1
  funext size p
  split
  · rfl
  · rfl

/-! ## The counts with checked additions -/

/-- `functionInstNum` in integers that must not wrap. -/
def functionInstNum? : Nat → Option Function → Option (BitVec 32)
  | 0, _ => some 0
  | _ + 1, none => some 0
  | depth + 1, some F =>
    if Regex.matchPattern regexForLibFunc F.name then some 0
    else
      (F.instructions M).foldlM
        (fun count p =>
          (if p.2.isCall then functionInstNum? depth (M.getCalledFunction p.2)
            else some 1).bind (CheckedSum.checkedAdd count)) 0

/-- `loopInstSize` in integers that must not wrap. -/
def loopInstSize? (L : Loop) : Option (BitVec 32) :=
  (L.blocks.flatMap M.instructions).foldlM
    (fun size p =>
      (if p.2.isCall then functionInstNum? M 2 (M.getCalledFunction p.2)
        else some 1).bind (CheckedSum.checkedAdd size)) 0

theorem functionInstNum?_succ (depth : Nat) (oF : Option Function) {v : Function → Nat}
    (h : ∀ oG, functionInstNum? M depth oG = CheckedSum.ofNat? 31 (counted v oG)) :
    functionInstNum? M (depth + 1) oF
      = CheckedSum.ofNat? 31 (counted (fun F =>
          nonCalls (F.instructions M) + ((callees M (F.instructions M)).map v).sum) oF) := by
  cases oF with
  | none => rfl
  | some F =>
    rw [functionInstNum?, counted, Option.filter_some]
    cases Regex.matchPattern regexForLibFunc F.name with
    | true => rfl
    | false =>
      have hfold := CheckedSum.foldlM_checkedAdd_eq (l := F.instructions M) (w := 31)
        (g := fun p =>
          if p.2.isCall then functionInstNum? M depth (M.getCalledFunction p.2) else some 1)
        (v := fun p => if p.2.isCall then counted v (M.getCalledFunction p.2) else 1)
        (fun p _ => by
          split
          · exact h _
          · rfl) (a := 0) (by norm_num)
      rw [sum_counted, zero_add] at hfold
      simpa using hfold

theorem functionInstNum?_two (oF : Option Function) :
    functionInstNum? M 2 oF = CheckedSum.ofNat? 31 (counted (calleeWeight M) oF) := by
  have hone : ∀ oG, functionInstNum? M 1 oG
      = CheckedSum.ofNat? 31 (counted (fun G => nonCalls (G.instructions M)) oG) := by
    intro oG
    have h := functionInstNum?_succ M 0 oG (v := fun _ => 0) fun oG => by
      rw [counted_zero]
      rfl
    simpa using h
  exact functionInstNum?_succ M 1 oF hone

/-- The checked count fails exactly if the weight does not fit. -/
theorem loopInstSize?_eq (L : Loop) :
    loopInstSize? M L = CheckedSum.ofNat? 31 (weight M L) := by
  have hfold := CheckedSum.foldlM_checkedAdd_eq (l := L.blocks.flatMap M.instructions) (w := 31)
    (g := fun p =>
      if p.2.isCall then functionInstNum? M 2 (M.getCalledFunction p.2) else some 1)
    (v := fun p => if p.2.isCall then counted (calleeWeight M) (M.getCalledFunction p.2) else 1)
    (fun p _ => by
      split
      · exact functionInstNum?_two M _
      · rfl) (a := 0) (by norm_num)
  rw [sum_counted, zero_add] at hfold
  exact hfold

/-! ## What is reported -/

/-- Does the loop lie outside the library functions and files? -/
def Outside (L : Loop) (startLoc : DebugLoc) : Prop :=
  Regex.matchPattern regexForLibFunc L.parent.name = false ∧
    Regex.matchPattern regexForLibLoc startLoc.filename = false

def Reports (L : Loop) : Prop := ∃ line, runOnLoop M L = .ok [line]

/-- No addition of the counts leaves the range of an `int`. -/
def NeverWraps (L : Loop) : Prop := (loopInstSize? M L).isSome

/-- The report depends on the weight reduced to 32 bits, with the sign bit clear. -/
theorem reports_iff {L : Loop} {startLoc : DebugLoc} (h : L.startLoc = some startLoc) :
    Reports M L ↔ Outside L startLoc ∧
      100 < weight M L % 2 ^ 32 ∧ weight M L % 2 ^ 32 < 2 ^ 31 := by
  have hslt := CheckedSum.slt_ofNat_iff (w := 31) (k := 100) (n := weight M L) (by norm_num)
  rw [Reports, Outside, runOnLoop, h]
  dsimp only
  cases Regex.matchPattern regexForLibFunc L.parent.name with
  | true => simp
  | false =>
    cases Regex.matchPattern regexForLibLoc startLoc.filename with
    | true => simp
    | false =>
      rw [loopInstSize_eq]
      simp only [Bool.false_eq_true, if_false]
      rw [← hslt, MIN_INST_NUM_FOR_LOOP]
      split
      · simp_all
      · simp_all

/-- The loops of weight above 100 are reported, without an addition that wraps,
exactly where the weight is below the sign bit. -/
theorem reports_exactly_iff {L : Loop} {startLoc : DebugLoc} (h : L.startLoc = some startLoc) :
    ((Reports M L ↔ Outside L startLoc ∧ 100 < weight M L) ∧
        (Outside L startLoc → NeverWraps M L)) ↔
      (Outside L startLoc → weight M L < 2 ^ 31) := by
  rw [reports_iff M h, NeverWraps, loopInstSize?_eq, CheckedSum.ofNat?_isSome]
  refine ⟨fun hall => hall.2, fun hlt => ⟨?_, hlt⟩⟩
  refine and_congr_right fun hout => ?_
  have := hlt hout
  omega

end

/-! ## Calls within calls -/

/-- A line of the example, with its operation. -/
def at12 (op : Op) : Instruction := ⟨op, some ⟨lit "src/lib.rs" rfl, 12⟩⟩

/-- `n` instructions from `start` on and one that ends the block. -/
def repeated (start n last : Nat) : BasicBlock :=
  ⟨lit "bb1" rfl, List.range' start n ++ [last]⟩

def inner (n : Nat) : Function :=
  ⟨lit "_ZN7project5inner17h3E" rfl, 2, [], [repeated (7 + 2 * n) n 6]⟩

def outer (n : Nat) : Function :=
  ⟨lit "_ZN7project5outer17h2E" rfl, 1, [], [repeated (7 + n) n 5]⟩

def entry : BasicBlock := ⟨lit "start" rfl, [3]⟩

def run (n : Nat) : Function :=
  ⟨lit "_ZN7project3run17h1E" rfl, 0, [], [entry, repeated 7 n 4]⟩

def nestedValues (n : Nat) : List Value :=
  [.function, .function, .function,
    .instruction (at12 (.br none [1])), .instruction (at12 (.br none [1])),
    .instruction (at12 (.ret none)), .instruction (at12 (.ret none))]
  ++ (List.replicate n (.instruction (at12 (.call [] [] 1 true)))
    ++ (List.replicate n (.instruction (at12 (.call [] [] 2 true)))
      ++ List.replicate n (.instruction (at12 (.other [])))))

theorem nestedValues_operands_lt (n : Nat) :
    ∀ x ∈ nestedValues n, ∀ v ∈ x.operands, v < (nestedValues n).length := by
  intro x hx v hv
  have hlen : 7 ≤ (nestedValues n).length := by
    simp [nestedValues]
  have hv : v < 7 := by
    simp only [nestedValues, List.mem_append, List.mem_cons, List.mem_replicate,
      List.not_mem_nil, or_false] at hx
    rcases hx with (rfl | rfl | rfl | rfl | rfl | rfl | rfl) | ⟨-, rfl⟩ | ⟨-, rfl⟩ | ⟨-, rfl⟩ <;>
      simp_all [Value.operands, at12, Op.operands]
  exact lt_of_lt_of_le hv hlen

theorem nested_names_nodup :
    (List.map Function.name [run 0, outer 0, inner 0]).Nodup := by
  decide

theorem nested_functions_nodup :
    (List.map Function.value [run 0, outer 0, inner 0]).Nodup := by
  decide

/-- `run` calls `outer` in a loop, which calls `inner`: `n` times each. -/
def nestedModule (n : Nat) : Module where
  values := nestedValues n
  functions := [run n, outer n, inner n]
  users := useList _
  users_perm := fun _ => .refl _
  operands_lt := nestedValues_operands_lt n
  params_lt := by simp [run, outer, inner]
  names_nodup := nested_names_nodup
  functions_nodup := nested_functions_nodup

/-- The loop of `run`. -/
def nestedLoop (n : Nat) : Loop := ⟨run n, [repeated 7 n 4], some ⟨lit "src/lib.rs" rfl, 11⟩⟩

/-- The instructions of a block of one instruction over and over. -/
theorem instructions_repeated {M : Module} {start n last : Nat} {i j : Instruction}
    (hi : ∀ v, start ≤ v → v < start + n → M.instruction? v = some i)
    (hj : M.instruction? last = some j) :
    M.instructions (repeated start n last)
      = (List.range' start n).map (fun v => (v, i)) ++ [(last, j)] := by
  have hmap : ∀ l : List ValueId, (∀ v ∈ l, M.instruction? v = some i) →
      (l.filterMap fun v => (M.instruction? v).map fun i => (v, i)) = l.map fun v => (v, i) := by
    intro l hl
    induction l with
    | nil => rfl
    | cons v l ih =>
      rw [List.filterMap_cons, hl v List.mem_cons_self, List.map_cons,
        ← ih fun w hw => hl w (List.mem_cons_of_mem _ hw)]
      rfl
  rw [Module.instructions, repeated, List.filterMap_append, hmap]
  · simp [hj]
  · intro v hv
    rw [List.mem_range'_1] at hv
    exact hi v hv.1 hv.2

theorem nested_call (n v : Nat) (h : 7 ≤ v) (hv : v < 7 + n) :
    (nestedModule n).instruction? v = some (at12 (.call [] [] 1 true)) := by
  have : (nestedValues n)[v]? = some (.instruction (at12 (.call [] [] 1 true))) := by
    rw [nestedValues, List.getElem?_append_right h, List.getElem?_append_left
      (by simp; omega), List.getElem?_replicate, if_pos (by simp; omega)]
  rw [Module.instruction?, nestedModule, this]

theorem nested_call_call (n v : Nat) (h : 7 + n ≤ v) (hv : v < 7 + n + n) :
    (nestedModule n).instruction? v = some (at12 (.call [] [] 2 true)) := by
  have : (nestedValues n)[v]? = some (.instruction (at12 (.call [] [] 2 true))) := by
    rw [nestedValues, List.getElem?_append_right (by simp; omega), List.getElem?_append_right
      (by simp; omega), List.getElem?_append_left (by simp; omega), List.getElem?_replicate,
      if_pos (by simp; omega)]
  rw [Module.instruction?, nestedModule, this]

theorem nested_other (n v : Nat) (h : 7 + 2 * n ≤ v) (hv : v < 7 + 2 * n + n) :
    (nestedModule n).instruction? v = some (at12 (.other [])) := by
  have : (nestedValues n)[v]? = some (.instruction (at12 (.other []))) := by
    rw [nestedValues, List.getElem?_append_right (by simp; omega), List.getElem?_append_right
      (by simp; omega), List.getElem?_append_right (by simp; omega), List.getElem?_replicate,
      if_pos (by simp; omega)]
  rw [Module.instruction?, nestedModule, this]

theorem nested_last (n v : Nat) (i : Instruction)
    (h : (nestedValues 0)[v]? = some (.instruction i)) :
    (nestedModule n).instruction? v = some i := by
  have hv : v < 7 := by
    have := (List.getElem?_eq_some_iff.1 h).1
    simpa [nestedValues] using this
  have hn : (nestedValues n)[v]? = (nestedValues 0)[v]? := by
    rw [nestedValues, nestedValues, List.getElem?_append_left (by simpa), List.getElem?_append_left
      (by simpa)]
  rw [Module.instruction?, nestedModule, hn, h]

theorem nonCalls_repeated (l : List ValueId) (last : Nat) (i j : Instruction) :
    nonCalls (l.map (fun v => (v, i)) ++ [(last, j)])
      = (if i.isCall then 0 else l.length) + if j.isCall then 0 else 1 := by
  rw [nonCalls, List.countP_append, List.countP_map]
  cases hi : i.isCall with
  | true => cases hj : j.isCall <;> simp [Function.comp_def, hi, hj]
  | false => cases hj : j.isCall <;> simp [Function.comp_def, hi, hj]

theorem callees_repeated {M : Module} (l : List ValueId) (last : Nat) {i j : Instruction}
    {F : Function} (hi : M.getCalledFunction i = some F) (hj : M.getCalledFunction j = none)
    (hF : Regex.matchPattern regexForLibFunc F.name = false) :
    callees M (l.map (fun v => (v, i)) ++ [(last, j)]) = List.replicate l.length F := by
  rw [callees, List.filterMap_append, List.filterMap_map]
  have hmap : ∀ l : List ValueId,
      List.filterMap ((fun p : ValueId × Instruction => (M.getCalledFunction p.2).filter
        fun F => !Regex.matchPattern regexForLibFunc F.name) ∘ fun v => (v, i)) l
        = List.replicate l.length F := by
    intro l
    induction l with
    | nil => rfl
    | cons v l ih =>
      rw [List.filterMap_cons, ih, Function.comp_apply, hi, Option.filter_some, hF]
      rfl
  rw [hmap]
  simp [hj]

theorem inner_project (n : Nat) :
    Regex.matchPattern regexForLibFunc (inner n).name = false := by
  have : Regex.matchPattern regexForLibFunc (inner 0).name = false := by decide +kernel
  exact this

theorem outer_project (n : Nat) :
    Regex.matchPattern regexForLibFunc (outer n).name = false := by
  have : Regex.matchPattern regexForLibFunc (outer 0).name = false := by decide +kernel
  exact this

theorem outside_nestedLoop (n : Nat) :
    Outside (nestedLoop n) ⟨lit "src/lib.rs" rfl, 11⟩ := by
  have : Regex.matchPattern regexForLibFunc (run 0).name = false ∧
      Regex.matchPattern regexForLibLoc (lit "src/lib.rs" rfl) = false := by
    decide +kernel
  exact this

theorem nonCalls_inner (n : Nat) :
    nonCalls ((inner n).instructions (nestedModule n)) = n + 1 := by
  rw [Function.instructions, inner, List.flatMap_singleton,
    instructions_repeated (nested_other n) (nested_last n 6 _ rfl), nonCalls_repeated]
  simp [at12, Instruction.isCall]

theorem calleeWeight_outer (n : Nat) :
    calleeWeight (nestedModule n) (outer n) = 1 + n * (n + 1) := by
  rw [calleeWeight, Function.instructions, outer, List.flatMap_singleton,
    instructions_repeated (by
      intro v h hv
      exact nested_call_call n v h hv) (nested_last n 5 _ rfl), nonCalls_repeated,
    callees_repeated (F := inner n) _ _ rfl rfl (inner_project n), List.map_replicate,
    nonCalls_inner]
  simp [at12, Instruction.isCall]

/-- The weight grows with the third power of the number of calls. -/
theorem weight_nestedLoop (n : Nat) :
    weight (nestedModule n) (nestedLoop n) = 1 + n * (1 + n * (n + 1)) := by
  rw [weight, nestedLoop, List.flatMap_singleton,
    instructions_repeated (nested_call n) (nested_last n 4 _ rfl), nonCalls_repeated,
    callees_repeated (F := outer n) _ _ rfl rfl (outer_project n), List.map_replicate,
    calleeWeight_outer]
  simp [at12, Instruction.isCall]

theorem reports_exactly_iff_nestedLoop :
    weight (nestedModule 4) (nestedLoop 4) = 85 ∧
      (((Reports (nestedModule 4) (nestedLoop 4) ↔
            Outside (nestedLoop 4) ⟨lit "src/lib.rs" rfl, 11⟩ ∧
              100 < weight (nestedModule 4) (nestedLoop 4)) ∧
          (Outside (nestedLoop 4) ⟨lit "src/lib.rs" rfl, 11⟩ →
            NeverWraps (nestedModule 4) (nestedLoop 4))) ↔
        (Outside (nestedLoop 4) ⟨lit "src/lib.rs" rfl, 11⟩ →
          weight (nestedModule 4) (nestedLoop 4) < 2 ^ 31)) :=
  ⟨weight_nestedLoop 4, reports_exactly_iff (nestedModule 4) rfl⟩

/-- A loop of more than two thousand million instructions goes unreported. -/
theorem nestedLoop_unreported :
    (Outside (nestedLoop 1290) ⟨lit "src/lib.rs" rfl, 11⟩ ∧
        100 < weight (nestedModule 1290) (nestedLoop 1290)) ∧
      ¬ Reports (nestedModule 1290) (nestedLoop 1290) ∧
      ¬ NeverWraps (nestedModule 1290) (nestedLoop 1290) := by
  rw [reports_iff (nestedModule 1290) rfl, NeverWraps, loopInstSize?_eq,
    CheckedSum.ofNat?_isSome, weight_nestedLoop]
  exact ⟨⟨outside_nestedLoop 1290, by norm_num⟩, by norm_num, by norm_num⟩

end ComplexLoop
