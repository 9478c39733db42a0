import Rustle.Library.VisitClosure
import Rustle.Llvm.NearCore

/-!
# What the search for users collects

* `FlowStep`, `Flows` — where a value flows: to its users, through a store to the
  pointer, into a function called, through an `into` to the target.
* `mem_flows` — the search collects **only** values that flow from its start.
* `TestedTooEarly` — the search asks for an argument before that has come in.
* `paired_agree` — with `restrictCrossFunction`, searches without such a test
  pair the arguments, whatever the order of the uses.
-/

namespace UserFlow

open Llvm NearCore
open Text (lit)
open Relation (ReflTransGen)

/-- The same values and functions, with the uses in another order. -/
structure SameProgram (M M' : Module) : Prop where
  values : M'.values = M.values
  functions : M'.functions = M.functions

/-- A module in which parameters are arguments and functions are functions. -/
structure SortedModule extends Module where
  params_argument : ∀ F ∈ functions, ∀ p ∈ F.params, values[p]? = some .argument
  functions_function : ∀ F ∈ functions, values[F.value]? = some .function

/-- The same values, each function behind the same value. -/
structure SameCode (M M' : Module) : Prop where
  values : M'.values = M.values
  function? : M'.function? = M.function?

section SameCode

variable {M M' : Module}

theorem SameCode.instruction? (h : SameCode M M') : M'.instruction? = M.instruction? := by
  funext v
  rw [Module.instruction?, Module.instruction?, h.values]

theorem SameCode.isLabelTy (h : SameCode M M') : M'.isLabelTy = M.isLabelTy := by
  funext v
  rw [Module.isLabelTy, Module.isLabelTy, h.values]

theorem SameCode.getCalledFunction (h : SameCode M M') :
    M'.getCalledFunction = M.getCalledFunction := by
  funext i
  rw [Module.getCalledFunction, Module.getCalledFunction, h.function?]

theorem SameCode.instructions (h : SameCode M M') (F : Function) :
    F.instructions M' = F.instructions M := by
  have hblock : M'.instructions = M.instructions := by
    funext B
    rw [Module.instructions, Module.instructions, h.instruction?]
  rw [Function.instructions, Function.instructions, hblock]

theorem SameCode.isInstCallFunc (h : SameCode M M') :
    NearCore.isInstCallFunc M' = NearCore.isInstCallFunc M := by
  funext i regex
  rw [NearCore.isInstCallFunc, NearCore.isInstCallFunc, h.getCalledFunction]

end SameCode

section SameProgram

variable {M M' : Module}

theorem SameProgram.refl (M : Module) : SameProgram M M := ⟨rfl, rfl⟩

theorem SameProgram.sameCode (h : SameProgram M M') : SameCode M M' where
  values := h.values
  function? := by
    funext v
    rw [Module.function?, Module.function?, h.functions]

theorem SameProgram.instruction? (h : SameProgram M M') : M'.instruction? = M.instruction? :=
  h.sameCode.instruction?

theorem SameProgram.isLabelTy (h : SameProgram M M') : M'.isLabelTy = M.isLabelTy :=
  h.sameCode.isLabelTy

theorem SameProgram.getCalledFunction (h : SameProgram M M') :
    M'.getCalledFunction = M.getCalledFunction := h.sameCode.getCalledFunction

theorem SameProgram.mem_users (h : SameProgram M M') {u v : ValueId} :
    u ∈ M'.users v ↔ u ∈ M.users v := by
  rw [(M'.users_perm v).mem_iff, (M.users_perm v).mem_iff, h.values]

theorem SameProgram.instructions (h : SameProgram M M') (F : Function) :
    F.instructions M' = F.instructions M := h.sameCode.instructions F

theorem SameProgram.isInstCallFunc (h : SameProgram M M') :
    NearCore.isInstCallFunc M' = NearCore.isInstCallFunc M := h.sameCode.isInstCallFunc

theorem SameProgram.symm (h : SameProgram M M') : SameProgram M' M :=
  ⟨h.values.symm, h.functions.symm⟩

end SameProgram

/-! ## Calls and their operands -/

/-- Does the instruction call an `into` of two or more arguments directly? -/
def IsInto (M : Module) (i : Instruction) : Prop :=
  ∃ G, M.getCalledFunction i = some G ∧
    Text.contains G.name (lit "core..convert..Into" rfl) = true ∧ 2 ≤ i.args.length

instance (M : Module) (i : Instruction) : Decidable (IsInto M i) :=
  decidable_of_iff ((M.getCalledFunction i).any (fun G =>
      Text.contains G.name (lit "core..convert..Into" rfl) && decide (2 ≤ i.args.length)) = true)
    (by simp [IsInto, Option.any_eq_true])

/-- What holds of every instruction in the table holds of every instruction. -/
theorem forall_instruction {M : Module} {P : ValueId → Instruction → Prop}
    [∀ c i, Decidable (P c i)]
    (h : ∀ c < M.values.length, (M.instruction? c).all (fun i => decide (P c i)) = true)
    {c : ValueId} {i : Instruction} (hc : M.instruction? c = some i) : P c i := by
  have hall := h c (M.instruction?_lt hc)
  rw [hc] at hall
  simpa using hall

/-- Behind the arguments come the other operands and the function called. -/
theorem operands_of_getCalledFunction {M : Module} {i : Instruction} {G : Function}
    (h : M.getCalledFunction i = some G) :
    ∃ args extra called, i.op = .call args extra called true ∧ i.args = args ∧
      i.op.operands = args ++ extra ++ [called] ∧ M.function? called = some G := by
  unfold Module.getCalledFunction at h
  split at h
  · rename_i args extra called hop
    exact ⟨args, extra, called, hop, by rw [Instruction.args, hop], by rw [hop, Op.operands], h⟩
  · cases h

/-- Up to the number of arguments, the argument operands are the arguments. -/
theorem getArgOperand_of_lt {M : Module} {i : Instruction} {G : Function}
    (h : M.getCalledFunction i = some G) {k : Nat} (hk : k < i.args.length) :
    i.getArgOperand k = i.args[k]? := by
  obtain ⟨args, extra, called, -, hargs, hops, -⟩ := operands_of_getCalledFunction h
  rw [hargs] at hk ⊢
  rw [Instruction.getArgOperand, hops, List.append_assoc, List.getElem?_append_left hk]

/-- A call is a user of its arguments. -/
theorem call_mem_users {M : Module} {c a : ValueId} {i : Instruction} {k : Nat}
    (hc : M.instruction? c = some i) (ha : i.args[k]? = some a) : c ∈ M.users a :=
  Module.mem_users_of_operand hc
    (Instruction.mem_operands_of_mem_args (List.mem_of_getElem? ha))

/-- A user of a value has it among its operands. -/
theorem exists_of_mem_users {M : Module} {u v : ValueId} (h : u ∈ M.users v) :
    ∃ x, M.values[u]? = some x ∧ v ∈ x.operands := by
  obtain ⟨w, -, hw⟩ := List.mem_flatMap.1 ((M.users_perm v).mem_iff.1 h)
  split at hw
  · rename_i x hx
    obtain ⟨z, hz, rfl⟩ := List.mem_map.1 hw
    rw [List.mem_filter, beq_iff_eq] at hz
    exact ⟨x, hx, hz.2 ▸ hz.1⟩
  · exact absurd hw List.not_mem_nil

theorem values_of_instruction? {M : Module} {c : ValueId} {i : Instruction}
    (hc : M.instruction? c = some i) : M.values[c]? = some (.instruction i) := by
  unfold Module.instruction? at hc
  split at hc
  · rename_i j hj
    rw [Option.some.injEq] at hc
    rw [hj, hc]
  · cases hc

/-- An instruction is no label. -/
theorem isLabelTy_instruction {M : Module} {c : ValueId} {i : Instruction}
    (hc : M.instruction? c = some i) : M.isLabelTy c = false := by
  rw [Module.isLabelTy, values_of_instruction? hc]
  rfl

/-! ## The steps of the search -/

/-- The edge of a call into the function called, for the argument `k`. -/
def parameterEdge (restrictCrossFunction disableCrossFunction : Bool) (i : Instruction)
    (G : Function) (k : Nat) : Visit.Edge ValueId :=
  ⟨fun set => !disableCrossFunction &&
    (!restrictCrossFunction || (i.getArgOperand k).any set.contains), G.getArg k⟩

/-- The edge of an `into` from its second argument to its first. -/
def intoEdge (i : Instruction) (G : Function) : Visit.Edge ValueId :=
  ⟨fun set => Text.contains G.name (lit "core..convert..Into" rfl) &&
    decide (2 ≤ i.args.length) && (i.getArgOperand 1).any set.contains, i.getArgOperand 0⟩

/-- The edge to a value that is always visited. -/
def openEdge (v : ValueId) : Visit.Edge ValueId := ⟨fun _ => true, some v⟩

section

variable {M : Module} {restrict disable : Bool}

theorem mem_userEdges {v : ValueId} {e : Visit.Edge ValueId} :
    e ∈ userEdges M restrict disable v ↔
      (∃ i G k, M.instruction? v = some i ∧ M.getCalledFunction i = some G ∧
        k < i.args.length ∧ (e = parameterEdge restrict disable i G k ∨ e = intoEdge i G)) ∨
      (∃ i value pointer, M.instruction? v = some i ∧ i.op = .store value pointer ∧
        e = openEdge pointer) ∨
      ∃ u ∈ M.users v, e = openEdge u := by
  have husers : e ∈ (M.users v).map (fun u => (⟨fun _ => true, some u⟩ : Visit.Edge ValueId)) ↔
      ∃ u ∈ M.users v, e = openEdge u := by
    rw [List.mem_map]
    exact exists_congr fun u => and_congr_right fun _ => eq_comm
  rw [userEdges, List.mem_append, husers, ← or_assoc]
  refine or_congr_left ?_
  cases hi : M.instruction? v with
  | none => simp
  | some i =>
    have hcall : ∀ G, M.getCalledFunction i = some G → i.isCall = true := by
      intro G hG
      obtain ⟨args, extra, called, hop, -⟩ := operands_of_getCalledFunction hG
      rw [Instruction.isCall, hop]
    cases hop : i.op with
    | call args extra called typed =>
      simp only [callEdges]
      cases hG : M.getCalledFunction i with
      | none => simp [hG, hop]
      | some G => simp [hG, hop, parameterEdge, intoEdge]
    | store value pointer =>
      have hnone : ∀ G, M.getCalledFunction i ≠ some G := by
        intro G hG
        simpa [Instruction.isCall, hop] using hcall G hG
      simp [hop, hnone, openEdge]
    | br | switch | ret | getElementPtr | other =>
      have hnone : ∀ G, M.getCalledFunction i ≠ some G := by
        intro G hG
        simpa [Instruction.isCall, hop] using hcall G hG
      simp [hop, hnone]

/-- The tests of the search ask for members, so they stay open. -/
theorem userEdges_monotone : Visit.MonotoneGuards (userEdges M restrict disable) := by
  have hany : ∀ (o : Option ValueId) (s t : List ValueId), s ⊆ t →
      o.any s.contains = true → o.any t.contains = true := by
    intro o s t hst h
    cases o with
    | none => exact h
    | some a => simpa using hst (by simpa using h)
  intro v e he s t hst hg
  rcases mem_userEdges.1 he with ⟨i, G, k, -, -, -, rfl | rfl⟩ | ⟨i, _, pointer, -, -, rfl⟩ |
    ⟨u, -, rfl⟩
  · simp only [parameterEdge, Bool.and_eq_true, Bool.or_eq_true] at hg ⊢
    exact ⟨hg.1, hg.2.imp_right (hany _ s t hst)⟩
  · simp only [intoEdge, Bool.and_eq_true] at hg ⊢
    exact ⟨hg.1, hany _ s t hst hg.2⟩
  · rfl
  · rfl

end

/-! ## Where a value flows -/

/-- One step of the flow of a value. -/
inductive FlowStep (M : Module) : ValueId → ValueId → Prop
  | user {v u : ValueId} : u ∈ M.users v → FlowStep M v u
  | pointer {s value pointer : ValueId} {i : Instruction} :
      M.instruction? s = some i → i.op = .store value pointer → FlowStep M s pointer
  | parameter {c a p : ValueId} {i : Instruction} {G : Function} {k : Nat} :
      M.instruction? c = some i → M.getCalledFunction i = some G → i.args[k]? = some a →
      G.getArg k = some p → FlowStep M a p
  | into {c a b : ValueId} {i : Instruction} :
      M.instruction? c = some i → IsInto M i → i.args[1]? = some b → i.args[0]? = some a →
      FlowStep M b a

/-- The value `w` comes from `v` by steps of the flow, none of them to a label. -/
def Flows (M : Module) (v w : ValueId) : Prop :=
  ReflTransGen (fun a b => FlowStep M a b ∧ M.isLabelTy b = false) v w

section

variable {M : Module} {disable : Bool} {v : ValueId} {set : List ValueId}

/-- The edges that are open among the values that flow from `v` lead to such values. -/
theorem saturated_flows :
    Visit.Saturated M.isLabelTy (userEdges M true disable) {w | Flows M v w} := by
  intro u hu e he s hs hg w hw hlabel
  rcases mem_userEdges.1 he with ⟨i, G, k, hi, hG, hk, rfl | rfl⟩ |
    ⟨i, value, pointer, hi, hop, rfl⟩ | ⟨u', hu', rfl⟩
  · simp only [parameterEdge, Bool.and_eq_true, Bool.or_eq_true, Bool.not_true, Bool.false_eq_true,
      false_or, getArgOperand_of_lt hG hk] at hg
    obtain ⟨a, ha, has⟩ := (Option.any_eq_true _ _).1 hg.2
    exact ReflTransGen.tail (hs a (List.contains_iff_mem.1 has))
      ⟨.parameter hi hG ha hw, hlabel⟩
  · simp only [intoEdge, Bool.and_eq_true, decide_eq_true_eq] at hg hw
    rw [getArgOperand_of_lt hG (by omega)] at hg hw
    obtain ⟨b, hb, hbs⟩ := (Option.any_eq_true _ _).1 hg.2
    exact ReflTransGen.tail (hs b (List.contains_iff_mem.1 hbs))
      ⟨.into hi ⟨G, hG, hg.1.1, hg.1.2⟩ hb hw, hlabel⟩
  · rw [openEdge, Option.some.injEq] at hw
    subst hw
    exact ReflTransGen.tail hu ⟨.pointer hi hop, hlabel⟩
  · rw [openEdge, Option.some.injEq] at hw
    subst hw
    exact ReflTransGen.tail hu ⟨.user hu', hlabel⟩

/-- The search collects only values that flow from its start. -/
theorem mem_flows (h : simpleFindUsers M true disable v = some set) : ∀ w ∈ set, Flows M v w :=
  Visit.visit_le saturated_flows h (fun _ => .refl) (by simp)

/-- A set in which the edges stay holds whatever flows from its members. -/
theorem flows_subset {X : Set ValueId}
    (hX : Visit.Saturated M.isLabelTy (userEdges M true false) X) (hv : v ∈ X) {w : ValueId}
    (h : Flows M v w) : w ∈ X := by
  have huser : ∀ a ∈ X, ∀ u ∈ M.users a, M.isLabelTy u = false → u ∈ X := fun a ha u hu hlabel =>
    hX a ha (openEdge u) (mem_userEdges.2 (.inr (.inr ⟨u, hu, rfl⟩))) [] (by simp) rfl u rfl hlabel
  induction h with
  | refl => exact hv
  | @tail a b _ hstep ih =>
    obtain ⟨hstep, hlabel⟩ := hstep
    cases hstep with
    | user hu => exact huser a ih b hu hlabel
    | @pointer _ value _ i hi hop =>
      exact hX a ih (openEdge b) (mem_userEdges.2 (.inr (.inl ⟨i, value, b, hi, hop, rfl⟩))) []
        (by simp) rfl b rfl hlabel
    | @parameter c _ _ i G k hc hG ha hp =>
      have hcX : c ∈ X := huser a ih c (call_mem_users hc ha) (isLabelTy_instruction hc)
      have hk : k < i.args.length := (List.getElem?_eq_some_iff.1 ha).1
      refine hX c hcX (parameterEdge true false i G k)
        (mem_userEdges.2 (.inl ⟨i, G, k, hc, hG, hk, .inl rfl⟩)) [a] (by simpa using ih) ?_ b hp
        hlabel
      simp [parameterEdge, getArgOperand_of_lt hG hk, ha]
    | @into c _ _ i hc hinto ha hb =>
      have hcX : c ∈ X := huser a ih c (call_mem_users hc ha) (isLabelTy_instruction hc)
      obtain ⟨G, hG, hname, hlen⟩ := hinto
      have hk : 0 < i.args.length := by omega
      refine hX c hcX (intoEdge i G) (mem_userEdges.2 (.inl ⟨i, G, 0, hc, hG, hk, .inr rfl⟩)) [a]
        (by simpa using ih) ?_ b (by rw [intoEdge, getArgOperand_of_lt hG hk, hb]) hlabel
      simp [intoEdge, hname, hlen, getArgOperand_of_lt hG hlen, ha]

end

/-! ## Arguments that come in too late -/

/-- The search for the users of `v` asks whether an argument is in the set while
it is not, although it flows from `v`; what the test decides on is not in the set
either, or does not exist. -/
def TestedTooEarly (M : Module) (v : ValueId) : Prop :=
  ∃ c e s, Visit.ComesTo M.isLabelTy (userEdges M true false) (M.values.length + 1) v [] c e s ∧
    e.guard s = false ∧ (∃ t : List ValueId, (∀ x ∈ t, Flows M v x) ∧ e.guard t = true) ∧
    ∀ w, e.target = some w → M.isLabelTy w = false ∧ w ∉ s

/-- The rule of the search: if a call and one of its arguments are in the set, the
parameter in the same position is as well. -/
def PairingClosed (M : Module) (set : List ValueId) : Prop :=
  ∀ c ∈ set, ∀ i, M.instruction? c = some i → ∀ G, M.getCalledFunction i = some G →
    ∀ k a p, i.args[k]? = some a → a ∈ set → G.getArg k = some p → p ∈ set

section

variable {M : Module} {v : ValueId} {set : List ValueId}

/-- Without a test that comes too early, what is collected is closed. -/
theorem saturated_of_not_testedTooEarly (h : simpleFindUsers M true false v = some set)
    (hearly : ¬ TestedTooEarly M v) :
    Visit.Saturated M.isLabelTy (userEdges M true false) {u | u ∈ set} := by
  refine Visit.visit_saturated userEdges_monotone h ?_
  intro c e s hcomes hs hset w hw hlabel
  by_contra hout
  have hws : w ∉ s := fun hin => hout (hcomes.subset_result h hin)
  refine hearly ⟨c, e, s, hcomes, hs, ⟨set, mem_flows h, hset⟩, fun w' hw' => ?_⟩
  rw [hw, Option.some.injEq] at hw'
  subst hw'
  exact ⟨hlabel, hws⟩

/-- Without such a test, exactly the values that flow from the start are collected. -/
theorem mem_iff_flows (h : simpleFindUsers M true false v = some set)
    (hearly : ¬ TestedTooEarly M v) (hv : M.isLabelTy v = false) {w : ValueId} :
    w ∈ set ↔ Flows M v w :=
  ⟨mem_flows h w,
    flows_subset (saturated_of_not_testedTooEarly h hearly) (Visit.mem_visit h hv)⟩

/-- A search that comes upon no label starts at none. -/
theorem simpleFindUsers_label {disable : Bool} (hv : M.isLabelTy v = true) :
    simpleFindUsers M true disable v = some [] := by
  rw [simpleFindUsers, Visit.visit, if_pos hv]

/-- What flows does not depend on the order of the uses. -/
theorem SameProgram.flows {M' : Module} (h : SameProgram M M') {w : ValueId} (hf : Flows M v w) :
    Flows M' v w := by
  refine ReflTransGen.mono ?_ v w hf
  rintro a b ⟨hstep, hlabel⟩
  refine ⟨?_, by rwa [h.isLabelTy]⟩
  cases hstep with
  | user hu => exact .user (h.mem_users.2 hu)
  | pointer hi hop => exact .pointer (by rwa [h.instruction?]) hop
  | parameter hc hG ha hp =>
    exact .parameter (by rwa [h.instruction?]) (by rwa [h.getCalledFunction]) ha hp
  | into hc hinto ha hb =>
    obtain ⟨G, hG, hname, hlen⟩ := hinto
    exact .into (by rwa [h.instruction?]) ⟨G, by rwa [h.getCalledFunction], hname, hlen⟩ ha hb

/-- A search that is defined and has no test that comes too early is defined in any
other order of the uses. -/
theorem exists_of_sameProgram {M' : Module} (hsame : SameProgram M M')
    (hv : v < M.values.length) (hearly : ¬ TestedTooEarly M v)
    (h : simpleFindUsers M true false v = some set) :
    ∃ set', simpleFindUsers M' true false v = some set' := by
  by_cases hlabel : M.isLabelTy v = true
  · exact ⟨[], simpleFindUsers_label (by rwa [hsame.isLabelTy])⟩
  rw [Bool.not_eq_true] at hlabel
  by_contra hnone
  rw [← Option.ne_none_iff_exists', not_not] at hnone
  have hv' : v < M'.values.length := by rwa [hsame.values]
  obtain ⟨u, f, s, hcomes, hg, hmissing⟩ := Visit.exists_missing
    (userEdges_closed M' true false) (List.mem_range.2 hv') ⟨List.nodup_nil, List.nil_subset _⟩
    (by simp) hnone
  have hflows : ∀ x ∈ s, Flows M v x := fun x hx =>
    hsame.symm.flows (hcomes.le saturated_flows (fun _ => .refl) (by simp) x hx)
  have hu : u ∈ set := (mem_iff_flows h hearly hlabel).2 (hflows u hcomes.subset.2)
  have hf : f ∈ userEdges M true false u := by
    rcases mem_userEdges.1 hcomes.entered.1 with ⟨i, G, k, hi, hG, hk, hf⟩ |
      ⟨i, value, pointer, hi, hop, rfl⟩ | ⟨u', hu', rfl⟩
    · rw [hsame.instruction?] at hi
      rw [hsame.getCalledFunction] at hG
      exact mem_userEdges.2 (.inl ⟨i, G, k, hi, hG, hk, hf⟩)
    · cases hmissing
    · cases hmissing
  obtain ⟨s', hcomes', htarget⟩ := Visit.visit_comesTo h hu List.not_mem_nil hf
  cases hg' : f.guard s' with
  | true =>
    obtain ⟨w, hw, -⟩ := htarget hg'
    simp [hmissing] at hw
  | false => exact hearly ⟨u, f, s', hcomes', hg', ⟨s, hflows, hg⟩, by simp [hmissing]⟩

end

/-- The searches for the users of `v` in the two modules are both defined or both
not; what they find is closed under the pairing of arguments, and the same. -/
def PairedAlike (M M' : Module) (v : ValueId) : Prop :=
  (simpleFindUsers M true false v = none ∧ simpleFindUsers M' true false v = none) ∨
  ∃ set set', simpleFindUsers M true false v = some set ∧
    simpleFindUsers M' true false v = some set' ∧
    PairingClosed M set ∧ PairingClosed M' set' ∧ ∀ w, w ∈ set ↔ w ∈ set'

/-- A closed set pairs the arguments. -/
theorem pairingClosed_of_saturated {M : Module} {set : List ValueId}
    (hparams : ∀ F ∈ M.functions, ∀ p ∈ F.params, M.values[p]? = some .argument)
    (h : Visit.Saturated M.isLabelTy (userEdges M true false) {u | u ∈ set}) :
    PairingClosed M set := by
  intro c hc i hi G hG k a p ha haset hp
  have hk : k < i.args.length := (List.getElem?_eq_some_iff.1 ha).1
  have hlabel : M.isLabelTy p = false := by
    rw [Module.isLabelTy, hparams G (M.mem_functions_of_getCalledFunction hG) p
      (List.mem_of_getElem? hp)]
    rfl
  refine h c hc (parameterEdge true false i G k)
    (mem_userEdges.2 (.inl ⟨i, G, k, hi, hG, hk, .inl rfl⟩)) [a] (by simpa using haset) ?_ p hp
    hlabel
  simp [parameterEdge, getArgOperand_of_lt hG hk, ha]

/-- Whatever the order of the uses: searches in which no test comes too early pair
the arguments and find the same values. -/
theorem paired_agree (M : SortedModule) (M' : Module) (hsame : SameProgram M.toModule M')
    (v : ValueId) (hv : v < M.values.length) (hearly : ¬ TestedTooEarly M.toModule v)
    (hearly' : ¬ TestedTooEarly M' v) : PairedAlike M.toModule M' v := by
  have hparams' : ∀ F ∈ M'.functions, ∀ p ∈ F.params, M'.values[p]? = some .argument := by
    rw [hsame.functions, hsame.values]
    exact M.params_argument
  cases h : simpleFindUsers M.toModule true false v with
  | none =>
    refine Or.inl ⟨h, ?_⟩
    by_contra hsome
    obtain ⟨set', h'⟩ := Option.ne_none_iff_exists'.1 hsome
    have hv' : v < M'.values.length := by rwa [hsame.values]
    obtain ⟨set, hset⟩ := exists_of_sameProgram hsame.symm hv' hearly' h'
    simp [h] at hset
  | some set =>
    obtain ⟨set', h'⟩ := exists_of_sameProgram hsame hv hearly h
    refine Or.inr ⟨set, set', h, h', ?_, ?_, fun w => ?_⟩
    · exact pairingClosed_of_saturated M.params_argument
        (saturated_of_not_testedTooEarly h hearly)
    · exact pairingClosed_of_saturated hparams' (saturated_of_not_testedTooEarly h' hearly')
    · by_cases hlabel : M.isLabelTy v = true
      · have hlabel' : M'.isLabelTy v = true := by rwa [hsame.isLabelTy]
        rw [simpleFindUsers_label hlabel, Option.some.injEq] at h
        rw [simpleFindUsers_label hlabel', Option.some.injEq] at h'
        rw [← h, ← h']
      · rw [Bool.not_eq_true] at hlabel
        have hlabel' : M'.isLabelTy v = false := by rwa [hsame.isLabelTy]
        rw [mem_iff_flows h hearly hlabel, mem_iff_flows h' hearly' hlabel']
        exact ⟨hsame.flows, hsame.symm.flows⟩

/-- Where every argument of a call is the start of the search, or never comes in, no test comes
too early. -/
theorem not_testedTooEarly {M : Module} {v : ValueId}
    (h : ∀ c i G, M.instruction? c = some i → M.getCalledFunction i = some G →
      ∀ a ∈ i.args, a = v ∨ ¬ Flows M v a) : ¬ TestedTooEarly M v := by
  rintro ⟨c, e, s, hcomes, hs, ⟨t, hflows, ht⟩, -⟩
  have harg : ∀ {i G k}, M.instruction? c = some i → M.getCalledFunction i = some G →
      k < i.args.length → (i.getArgOperand k).any t.contains = true →
      (i.getArgOperand k).any s.contains = true := by
    intro i G k hi hG hk hin
    rw [getArgOperand_of_lt hG hk] at hin ⊢
    obtain ⟨a, ha, hat⟩ := (Option.any_eq_true _ _).1 hin
    rcases h c i G hi hG a (List.mem_of_getElem? ha) with rfl | hno
    · rw [ha, Option.any_some]
      exact List.contains_iff_mem.2 hcomes.start_mem
    · exact absurd (hflows a (List.contains_iff_mem.1 hat)) hno
  rcases mem_userEdges.1 hcomes.entered.1 with ⟨i, G, k, hi, hG, hk, rfl | rfl⟩ |
    ⟨i, value, pointer, hi, hop, rfl⟩ | ⟨u, hu, rfl⟩
  · simp only [parameterEdge, Bool.not_false, Bool.not_true, Bool.true_and, Bool.false_or] at hs ht
    rw [harg hi hG hk ht] at hs
    cases hs
  · simp only [intoEdge, Bool.and_eq_true, decide_eq_true_eq] at ht
    have hin := harg hi hG ht.1.2 ht.2
    simp only [intoEdge, ht.1.1, ht.1.2, hin, decide_true, Bool.and_self] at hs
    cases hs
  · cases hs
  · cases hs

/-- `swap(x)` computes `y` from `x` and calls `min(x, y)`; the call stands before
`y` in the use list of `x`. -/
def swapModule : SortedModule where
  values :=
    [.function, .function, .argument, .argument, .argument,
     .instruction ⟨.call [2, 6] [] 1 true, some ⟨lit "src/lib.rs" rfl, 21⟩⟩,
     .instruction ⟨.other [2], some ⟨lit "src/lib.rs" rfl, 20⟩⟩]
  functions :=
    [⟨lit "_ZN4pool4Pool4swap17h1E" rfl, 0, [2], [⟨lit "start" rfl, [6, 5]⟩]⟩,
     ⟨lit "_ZN4pool4Pool3min17h2E" rfl, 1, [3, 4], []⟩]
  users := useList _
  users_perm := fun _ => .refl _
  operands_lt := by decide
  params_lt := by decide
  names_nodup := by decide +kernel
  functions_nodup := by decide
  params_argument := by decide
  functions_function := by decide

/-- The same program, with `y` before the call. -/
def swapModule' : Module :=
  { swapModule.toModule with
    users := fun v => (useList swapModule.values v).reverse
    users_perm := fun _ => List.reverse_perm _ }

/-- The second argument of `min` comes in after the call: the search misses the
second parameter, which it finds in the other order. -/
theorem swap_not_paired :
    ¬ ∀ (M : SortedModule) (M' : Module), SameProgram M.toModule M' → ∀ v, v < M.values.length →
      PairedAlike M.toModule M' v := by
  intro h
  rcases h swapModule swapModule' ⟨rfl, rfl⟩ 2 (by decide) with ⟨hnone, -⟩ |
    ⟨set, set', hset, -, hclosed, -⟩
  · exact absurd hnone (by decide +kernel)
  · have hrun : simpleFindUsers swapModule.toModule true false 2 = some [6, 3, 5, 2] := by
      decide +kernel
    rw [hrun, Option.some.injEq] at hset
    subst hset
    have hmem := hclosed 5 (by decide) _ rfl _ rfl 1 6 4 (by decide) (by decide) (by decide)
    exact absurd hmem (by decide)

/-- `pay(x, memo)` calls `check(x, memo, x)` and computes a value from `x`. -/
def payModule : SortedModule where
  values :=
    [.function, .function, .argument, .argument, .argument, .argument, .argument,
     .instruction ⟨.call [2, 3, 2] [] 1 true, some ⟨lit "src/lib.rs" rfl, 31⟩⟩,
     .instruction ⟨.other [2], some ⟨lit "src/lib.rs" rfl, 32⟩⟩]
  functions :=
    [⟨lit "_ZN4pool4Pool3pay17h1E" rfl, 0, [2, 3], [⟨lit "start" rfl, [7, 8]⟩]⟩,
     ⟨lit "_ZN4pool4Pool5check17h2E" rfl, 1, [4, 5, 6], []⟩]
  users := useList _
  users_perm := fun _ => .refl _
  operands_lt := by decide
  params_lt := by decide
  names_nodup := by decide +kernel
  functions_nodup := by decide
  params_argument := by decide
  functions_function := by decide

/-- The same program, with the uses in reverse. -/
def payModule' : Module :=
  { payModule.toModule with
    users := fun v => (useList payModule.values v).reverse
    users_perm := fun _ => List.reverse_perm _ }

/-- Nothing flows to `memo`. -/
theorem not_flows_memo : ¬ Flows payModule.toModule 2 3 := by
  intro hflows
  rcases ReflTransGen.cases_tail hflows with heq | ⟨a, -, hstep, -⟩
  · cases heq
  · cases hstep with
    | user hu =>
      obtain ⟨x, hx, hmem⟩ := exists_of_mem_users hu
      obtain rfl : Value.argument = x := Option.some.inj hx
      cases hmem
    | pointer hi hop =>
      have hops := @forall_instruction payModule.toModule
        (fun _ i => i.op = .call [2, 3, 2] [] 1 true ∨ i.op = .other [2]) _ (by decide) _ _ hi
      rw [hop] at hops
      rcases hops with hops | hops <;> cases hops
    | parameter hi hG _ hp =>
      have hparams := @forall_instruction payModule.toModule
        (fun _ i => ∀ G ∈ payModule.getCalledFunction i, 3 ∉ G.params) _ (by decide +kernel) _ _ hi
      exact hparams _ hG (List.mem_of_getElem? hp)
    | into hi _ _ ha =>
      exact @forall_instruction payModule.toModule (fun _ i => i.args[0]? ≠ some 3) _ (by decide)
        _ _ hi ha

theorem paired_agree_pay : PairedAlike payModule.toModule payModule' 2 := by
  have hsame : SameProgram payModule.toModule payModule' := ⟨rfl, rfl⟩
  have hargs : ∀ c i G, payModule.instruction? c = some i →
      payModule.getCalledFunction i = some G → ∀ a ∈ i.args, a = 2 ∨ a = 3 := fun c i G hi hG =>
    forall_instruction (P := fun _ i => ∀ G ∈ payModule.getCalledFunction i,
      ∀ a ∈ i.args, a = 2 ∨ a = 3) (by decide +kernel) hi G hG
  have hmemo : ¬ Flows payModule' 2 3 := fun hflows => not_flows_memo (hsame.symm.flows hflows)
  refine paired_agree payModule payModule' hsame 2 (by decide)
    (not_testedTooEarly fun c i G hi hG a ha => ?_)
    (not_testedTooEarly fun c i G hi hG a ha => ?_)
  · rcases hargs c i G hi hG a ha with rfl | rfl
    · exact Or.inl rfl
    · exact Or.inr not_flows_memo
  · rw [hsame.instruction?] at hi
    rw [hsame.getCalledFunction] at hG
    rcases hargs c i G hi hG a ha with rfl | rfl
    · exact Or.inl rfl
    · exact Or.inr hmemo

end UserFlow
