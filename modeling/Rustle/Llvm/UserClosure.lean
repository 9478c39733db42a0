import Rustle.Llvm.UserFlow

/-!
# The search for users as a least closed set

Without `restrictCrossFunction` a call leads to every parameter, and the only test
of the search is the one of an `into`.

* `FlowClosed` — the sets closed under the rules of the search.
* `Disciplined`, `PlainInto` — how a module may use calls of `into`.
* `TestsMiss`, `Reached` — the calls of `into` whose tests come too early, and what the
  rules lead to without them: exactly what is found.
* `least_closed_iff` — when what is found is the **least** closed set.
* `least_closed` — it is where calls of `into` carry no operand bundles.
* `token_not_closed` — an operand bundle on a call of `into` is enough to break it.
-/

namespace UserClosure

open Llvm NearCore UserFlow
open Text (lit)

/-- A set closed under users, pointers of stores, parameters of functions called and
targets of an `into`, labels left out. -/
structure FlowClosed (M : Module) (disableCrossFunction : Bool) (X : Set ValueId) : Prop where
  users : ∀ v ∈ X, ∀ u ∈ M.users v, M.isLabelTy u = false → u ∈ X
  pointer : ∀ s ∈ X, ∀ i value pointer, M.instruction? s = some i → i.op = .store value pointer →
    M.isLabelTy pointer = false → pointer ∈ X
  parameter : disableCrossFunction = false → ∀ c ∈ X, ∀ i G, M.instruction? c = some i →
    M.getCalledFunction i = some G → ∀ p ∈ G.params, M.isLabelTy p = false → p ∈ X
  into : ∀ c ∈ X, ∀ i a b, M.instruction? c = some i → IsInto M i → i.args[0]? = some a →
    i.args[1]? = some b → b ∈ X → M.isLabelTy a = false → a ∈ X

/-- The least closed set with the value `v`. -/
def IsLeastClosed (M : Module) (disableCrossFunction : Bool) (v : ValueId)
    (X : Set ValueId) : Prop :=
  IsLeast {Y | (M.isLabelTy v = false → v ∈ Y) ∧ FlowClosed M disableCrossFunction Y} X

/-- Direct calls pass one argument for each parameter, and a call of `into` two, for
no result; no function is a place that something is stored or converted into. -/
structure Disciplined (M : Module) : Prop where
  args_length : ∀ c i G, M.instruction? c = some i → M.getCalledFunction i = some G →
    i.args.length = G.params.length
  into_length : ∀ c i, M.instruction? c = some i → IsInto M i → i.args.length = 2
  into_void : ∀ c i, M.instruction? c = some i → IsInto M i → M.users c = []
  store_pointer : ∀ s i value pointer, M.instruction? s = some i → i.op = .store value pointer →
    M.values[pointer]? ≠ some .function
  into_target : ∀ c i a, M.instruction? c = some i → IsInto M i → i.args[0]? = some a →
    M.values[a]? ≠ some .function

/-- A value that is neither a function nor a call of `into`. -/
structure PlainStart (M : Module) (v : ValueId) : Prop where
  lt : v < M.values.length
  not_function : M.values[v]? ≠ some .function
  not_into : ∀ i, M.instruction? v = some i → ¬ IsInto M i

/-- Calls of `into` carry no operand bundles: between the arguments and the function
there are only labels. -/
def PlainInto (M : Module) : Prop :=
  ∀ c i args extra called typed, M.instruction? c = some i → IsInto M i →
    i.op = .call args extra called typed → ∀ x ∈ extra, M.isLabelTy x = true

/-! ## The edges and the rules -/

section

variable {M : Module} {disable : Bool} {v : ValueId} {set : List ValueId}

/-- The edges stay in a set that the rules keep. -/
theorem saturated_of_flowClosed {X : Set ValueId} (h : FlowClosed M disable X) :
    Visit.Saturated M.isLabelTy (userEdges M false disable) X := by
  intro u hu e he s hs hg w hw hlabel
  rcases mem_userEdges.1 he with ⟨i, G, k, hi, hG, hk, rfl | rfl⟩ |
    ⟨i, value, pointer, hi, hop, rfl⟩ | ⟨u', hu', rfl⟩
  · have hdisable : disable = false := by simpa [parameterEdge] using hg
    exact h.parameter hdisable u hu i G hi hG w (List.mem_of_getElem? hw) hlabel
  · simp only [intoEdge, Bool.and_eq_true, decide_eq_true_eq] at hg hw
    rw [getArgOperand_of_lt hG (by omega)] at hg hw
    obtain ⟨b, hb, hbs⟩ := (Option.any_eq_true _ _).1 hg.2
    exact h.into u hu i w b hi ⟨G, hG, hg.1.1, hg.1.2⟩ hw hb
      (hs b (List.contains_iff_mem.1 hbs)) hlabel
  · rw [openEdge, Option.some.injEq] at hw
    subst hw
    exact h.pointer u hu i value pointer hi hop hlabel
  · rw [openEdge, Option.some.injEq] at hw
    subst hw
    exact h.users u hu u' hu' hlabel

/-- The edges stay among the values that are not labels. -/
theorem saturated_not_label {restrict : Bool} :
    Visit.Saturated M.isLabelTy (userEdges M restrict disable) {w | M.isLabelTy w = false} :=
  fun _ _ _ _ _ _ _ _ _ hlabel => hlabel

/-- The edges of a search without restriction have a target when they are open. -/
theorem exists_target (hM : Disciplined M) {u : ValueId} {e : Visit.Edge ValueId}
    (he : e ∈ userEdges M false disable u) : ∃ w, e.target = some w := by
  rcases mem_userEdges.1 he with ⟨i, G, k, hi, hG, hk, rfl | rfl⟩ |
    ⟨i, value, pointer, hi, hop, rfl⟩ | ⟨u', hu', rfl⟩
  · rw [hM.args_length u i G hi hG] at hk
    exact ⟨_, List.getElem?_eq_getElem hk⟩
  · exact Module.exists_getArgOperand_zero hG
  · exact ⟨pointer, rfl⟩
  · exact ⟨u', rfl⟩

/-- The search is defined. -/
theorem exists_simpleFindUsers_of_disciplined (hM : Disciplined M) (hv : v < M.values.length) :
    ∃ set, simpleFindUsers M false disable v = some set :=
  Visit.visit_isSome (userEdges_closed M false disable) (fun _ _ _ he _ _ => exists_target hM he)
    (List.mem_range.2 hv) ⟨List.nodup_nil, List.nil_subset _⟩ (by simp)

end

/-! ## The calls whose tests come too early -/

/-- At no test for the call `c` of `into` does the search have the second argument. -/
def TestsMiss (M : Module) (disable : Bool) (v c : ValueId) : Prop :=
  ∀ i G b s, M.instruction? c = some i → M.getCalledFunction i = some G → i.args[1]? = some b →
    Visit.ComesTo M.isLabelTy (userEdges M false disable) (M.values.length + 1) v [] c
      (intoEdge i G) s → b ∉ s

/-- What the rules lead to from `v`, with the calls of `into` that are not `missed`. -/
inductive Reached (M : Module) (disable : Bool) (missed : ValueId → Prop) (v : ValueId) :
    ValueId → Prop
  | start : M.isLabelTy v = false → Reached M disable missed v v
  | user {a u : ValueId} : Reached M disable missed v a → u ∈ M.users a →
      M.isLabelTy u = false → Reached M disable missed v u
  | pointer {s value pointer : ValueId} {i : Instruction} : Reached M disable missed v s →
      M.instruction? s = some i → i.op = .store value pointer → M.isLabelTy pointer = false →
      Reached M disable missed v pointer
  | parameter {c p : ValueId} {i : Instruction} {G : Function} : disable = false →
      Reached M disable missed v c → M.instruction? c = some i → M.getCalledFunction i = some G →
      p ∈ G.params → M.isLabelTy p = false → Reached M disable missed v p
  | into {c a b : ValueId} {i : Instruction} : Reached M disable missed v c →
      M.instruction? c = some i → IsInto M i → i.args[0]? = some a → i.args[1]? = some b →
      Reached M disable missed v b → ¬ missed c → M.isLabelTy a = false →
      Reached M disable missed v a

/-- A call of `into` whose tests miss its second argument, although the rules lead to it,
has a target that they lead to without such calls. -/
def TargetsReached (M : Module) (disable : Bool) (v : ValueId) : Prop :=
  ∀ c i a b, TestsMiss M disable v c → M.instruction? c = some i → IsInto M i →
    i.args[0]? = some a → i.args[1]? = some b → M.isLabelTy a = false →
    Reached M disable (TestsMiss M disable v) v c →
    Reached M disable (TestsMiss M disable v) v b → Reached M disable (TestsMiss M disable v) v a

section

variable {M : Module} {disable : Bool} {v : ValueId} {set : List ValueId}

/-- An edge of a value found that is always open leads to a value found. -/
theorem mem_of_open (h : simpleFindUsers M false disable v = some set) {u w : ValueId}
    (hu : u ∈ set) {e : Visit.Edge ValueId} (he : e ∈ userEdges M false disable u)
    (hg : ∀ s, e.guard s = true) (hw : e.target = some w) (hlabel : M.isLabelTy w = false) :
    w ∈ set := by
  obtain ⟨s, -, htarget⟩ := Visit.visit_comesTo h hu List.not_mem_nil he
  obtain ⟨w', hw', hmem⟩ := htarget (hg s)
  rw [hw, Option.some.injEq] at hw'
  subst hw'
  exact hmem hlabel

theorem intoEdge_guard_iff {i : Instruction} {G : Function} (hG : M.getCalledFunction i = some G)
    {s : List ValueId} : (intoEdge i G).guard s = true ↔
      IsInto M i ∧ ∃ b, i.args[1]? = some b ∧ b ∈ s := by
  simp only [intoEdge, Bool.and_eq_true, decide_eq_true_eq, Option.any_eq_true]
  constructor
  · rintro ⟨⟨hname, hlen⟩, b, hb, hbs⟩
    rw [getArgOperand_of_lt hG hlen] at hb
    exact ⟨⟨G, hG, hname, hlen⟩, b, hb, List.contains_iff_mem.1 hbs⟩
  · rintro ⟨⟨G', hG', hname, hlen⟩, b, hb, hbs⟩
    rw [hG, Option.some.injEq] at hG'
    subst hG'
    refine ⟨⟨hname, hlen⟩, b, ?_, List.contains_iff_mem.2 hbs⟩
    rw [getArgOperand_of_lt hG hlen, hb]

theorem intoEdge_target {i : Instruction} {G : Function} (hG : M.getCalledFunction i = some G)
    (hinto : IsInto M i) : (intoEdge i G).target = i.args[0]? := by
  obtain ⟨-, -, -, hlen⟩ := hinto
  exact getArgOperand_of_lt hG (by omega)

/-- The search finds exactly what the rules lead to without the calls its tests miss. -/
theorem mem_iff_reached (hM : Disciplined M)
    (h : simpleFindUsers M false disable v = some set) {u : ValueId} :
    u ∈ set ↔ Reached M disable (TestsMiss M disable v) v u := by
  constructor
  · intro hu
    refine Visit.visit_le_of_comesTo (X := {w | Reached M disable (TestsMiss M disable v) v w})
      ?_ h .start (by simp) u hu
    intro c e s hcomes hc hs hg w hw hlabel
    rcases mem_userEdges.1 hcomes.entered.1 with ⟨i, G, k, hi, hG, hk, rfl | rfl⟩ |
      ⟨i, value, pointer, hi, hop, rfl⟩ | ⟨u', hu', rfl⟩
    · have hdisable : disable = false := by simpa [parameterEdge] using hg
      exact .parameter hdisable hc hi hG (List.mem_of_getElem? hw) hlabel
    · obtain ⟨hinto, b, hb, hbs⟩ := (intoEdge_guard_iff hG).1 hg
      rw [intoEdge_target hG hinto] at hw
      exact .into hc hi hinto hw hb (hs b hbs) (fun hmiss => hmiss i G b s hi hG hb hcomes hbs)
        hlabel
    · rw [openEdge, Option.some.injEq] at hw
      subst hw
      exact .pointer hc hi hop hlabel
    · rw [openEdge, Option.some.injEq] at hw
      subst hw
      exact .user hc hu' hlabel
  · intro hreached
    induction hreached with
    | start hlabel => exact Visit.mem_visit h hlabel
    | @user a u _ hu hlabel ih =>
      exact mem_of_open h ih (mem_userEdges.2 (.inr (.inr ⟨u, hu, rfl⟩))) (fun _ => rfl) rfl hlabel
    | @pointer s value pointer i _ hi hop hlabel ih =>
      exact mem_of_open h ih (mem_userEdges.2 (.inr (.inl ⟨i, value, pointer, hi, hop, rfl⟩)))
        (fun _ => rfl) rfl hlabel
    | @parameter c p i G hdisable _ hi hG hp hlabel ih =>
      obtain ⟨k, hk, hpk⟩ := List.mem_iff_getElem.1 hp
      have hargs : k < i.args.length := by rwa [hM.args_length c i G hi hG]
      refine mem_of_open h ih (mem_userEdges.2 (.inl ⟨i, G, k, hi, hG, hargs, .inl rfl⟩))
        (fun _ => by simp [parameterEdge, hdisable]) ?_ hlabel
      rw [parameterEdge, Function.getArg, List.getElem?_eq_getElem hk, hpk]
    | @into c a b i _ hi hinto ha hb _ hmiss hlabel ihc ihb =>
      -- some test has found the second argument
      unfold TestsMiss at hmiss
      push Not at hmiss
      obtain ⟨j, G, b', s, hj, hG, hb', hcomes, hbs⟩ := hmiss
      rw [hi, Option.some.injEq] at hj
      subst hj
      obtain ⟨w, hw, hmem⟩ := hcomes.target_mem h ((intoEdge_guard_iff hG).2 ⟨hinto, b', hb', hbs⟩)
      rw [intoEdge_target hG hinto, ha, Option.some.injEq] at hw
      subst hw
      exact hmem hlabel

/-- What is found is the least closed set exactly when the targets are reached. -/
theorem isLeastClosed_iff (hM : Disciplined M)
    (h : simpleFindUsers M false disable v = some set) :
    IsLeastClosed M disable v {u | u ∈ set} ↔ TargetsReached M disable v := by
  have hmem := fun u => mem_iff_reached hM h (u := u)
  constructor
  · intro hleast c i a b _ hi hinto ha hb hlabel hc hbr
    exact (hmem a).1 (hleast.1.2.into c ((hmem c).2 hc) i a b hi hinto ha hb ((hmem b).2 hbr) hlabel)
  · intro htargets
    refine ⟨⟨fun hlabel => Visit.mem_visit h hlabel, ?_⟩, ?_⟩
    · refine ⟨fun a ha u hu hlabel => ?_, fun s hs i value pointer hi hop hlabel => ?_,
        fun hdisable c hc i G hi hG p hp hlabel => ?_,
        fun c hc i a b hi hinto ha hb hbs hlabel => ?_⟩
      · exact (hmem u).2 (.user ((hmem a).1 ha) hu hlabel)
      · exact (hmem pointer).2 (.pointer ((hmem s).1 hs) hi hop hlabel)
      · exact (hmem p).2 (.parameter hdisable ((hmem c).1 hc) hi hG hp hlabel)
      · by_cases hmiss : TestsMiss M disable v c
        · exact (hmem a).2
            (htargets c i a b hmiss hi hinto ha hb hlabel ((hmem c).1 hc) ((hmem b).1 hbs))
        · exact (hmem a).2
            (.into ((hmem c).1 hc) hi hinto ha hb ((hmem b).1 hbs) hmiss hlabel)
    · rintro Y ⟨hvY, hY⟩
      exact Visit.visit_le (saturated_of_flowClosed hY) h hvY (by simp)

end

/-! ## No target of an `into` is missed -/

section

variable {M : SortedModule} {disable : Bool} {v : ValueId} {set : List ValueId}

/-- The search comes upon no function. -/
theorem saturated_not_function (hM : Disciplined M.toModule) :
    Visit.Saturated M.isLabelTy (userEdges M.toModule false disable)
      {w | M.values[w]? ≠ some .function} := by
  intro u hu e he s hs hg w hw hlabel
  rcases mem_userEdges.1 he with ⟨i, G, k, hi, hG, hk, rfl | rfl⟩ |
    ⟨i, value, pointer, hi, hop, rfl⟩ | ⟨u', hu', rfl⟩
  · have hp := M.params_argument G (M.mem_functions_of_getCalledFunction hG) w
      (List.mem_of_getElem? hw)
    simp [hp]
  · simp only [intoEdge, Bool.and_eq_true, decide_eq_true_eq] at hg hw
    rw [getArgOperand_of_lt hG (by omega)] at hw
    exact hM.into_target u i w hi ⟨G, hG, hg.1.1, hg.1.2⟩ hw
  · rw [openEdge, Option.some.injEq] at hw
    subst hw
    exact hM.store_pointer u i value pointer hi hop
  · rw [openEdge, Option.some.injEq] at hw
    subst hw
    intro hfunction
    -- a function uses nothing
    obtain ⟨x, hx, hoperand⟩ := exists_of_mem_users hu'
    rw [hfunction, Option.some.injEq] at hx
    subst hx
    exact absurd hoperand List.not_mem_nil

/-- A call of `into` that the search comes to after its start was found from an
argument. -/
theorem argument_mem_of_comesTo (hM : Disciplined M.toModule) (hplain : PlainInto M.toModule)
    (hv : PlainStart M.toModule v) {n : Nat} {c : ValueId} {e : Visit.Edge ValueId}
    {s : List ValueId} {i : Instruction} (hi : M.instruction? c = some i)
    (hinto : IsInto M.toModule i)
    (h : Visit.ComesTo M.isLabelTy (userEdges M.toModule false disable) n v [] c e s) :
    ∃ p ∈ s, p ∈ i.args := by
  have hvoid := hM.into_void c i hi hinto
  rcases h.entered.2 with rfl | ⟨p, hps, e', he', hc⟩
  · exact absurd hinto (hv.not_into i hi)
  -- no other edge than the one from an operand leads to a call without a result
  rcases mem_userEdges.1 he' with ⟨j, G, k, hj, hG, hk, rfl | rfl⟩ |
    ⟨j, value, pointer, hj, hop, rfl⟩ | ⟨u, hu, rfl⟩
  · have hargument := M.params_argument G (M.mem_functions_of_getCalledFunction hG) c
      (List.mem_of_getElem? hc)
    simp [values_of_instruction? hi] at hargument
  · have h0 : j.getArgOperand 0 = j.args[0]? := getArgOperand_of_lt hG (by omega)
    have huser := call_mem_users hj (h0.symm.trans hc)
    simp [hvoid] at huser
  · rw [openEdge, Option.some.injEq] at hc
    subst hc
    have huser := Module.mem_users_of_operand hj (v := pointer) (by simp [hop, Op.operands])
    simp [hvoid] at huser
  · rw [openEdge, Option.some.injEq] at hc
    subst hc
    obtain ⟨x, hx, hoperand⟩ := exists_of_mem_users hu
    rw [values_of_instruction? hi, Option.some.injEq] at hx
    subst hx
    obtain ⟨G, hG, -⟩ := id hinto
    obtain ⟨args, extra, called, hop, hargs, hops, hcalled⟩ := operands_of_getCalledFunction hG
    rw [Value.operands, hops, List.mem_append, List.mem_append, List.mem_singleton] at hoperand
    rcases hoperand with (hp | hp) | rfl
    · exact ⟨p, hps, hargs ▸ hp⟩
    · have hlabel := hplain u i args extra called true hi hinto hop p hp
      have hno := h.le saturated_not_label (fun h => h) (by simp) p hps
      exact absurd (hlabel.symm.trans hno) (by decide)
    · have hno := h.le (saturated_not_function hM) (fun _ => hv.not_function) (by simp) p hps
      have hmem := M.mem_functions_of_function? hcalled
      have heq : G.value = p := by simpa using List.find?_some hcalled
      exact absurd (heq ▸ M.functions_function G hmem) hno

/-- Without operand bundles no target of an `into` is missed: if the second argument is not
there when the call is found, the first one is. -/
theorem targetsReached_of_plainInto (hM : Disciplined M.toModule) (hplain : PlainInto M.toModule)
    (hv : PlainStart M.toModule v) (h : simpleFindUsers M.toModule false disable v = some set) :
    TargetsReached M.toModule disable v := by
  intro c i a b hmiss hi hinto ha hb _ hc _
  obtain ⟨G, hG, -, hlen⟩ := id hinto
  have hedge : intoEdge i G ∈ userEdges M.toModule false disable c :=
    mem_userEdges.2 (.inl ⟨i, G, 0, hi, hG, by omega, .inr rfl⟩)
  obtain ⟨s, hcomes, -⟩ :=
    Visit.visit_comesTo h ((mem_iff_reached hM h).2 hc) List.not_mem_nil hedge
  obtain ⟨p, hps, hp⟩ := argument_mem_of_comesTo hM hplain hv hi hinto hcomes
  have hargs : i.args = [a, b] := by
    obtain ⟨x, y, hxy⟩ := List.length_eq_two.1 (hM.into_length c i hi hinto)
    rw [hxy] at ha hb
    simp only [List.getElem?_cons_zero, List.getElem?_cons_succ, Option.some.injEq] at ha hb
    rw [hxy, ha, hb]
  rw [hargs, List.mem_pair] at hp
  rcases hp with rfl | rfl
  · exact (mem_iff_reached hM h).1 (hcomes.subset_result h hps)
  · exact absurd hps (hmiss i G p s hi hG hb hcomes)

end

/-! ## The order of the uses -/

section

variable {M : SortedModule} {M' : Module}

/-- The program with the other use lists, with its parameters and functions. -/
def reordered (M : SortedModule) (M' : Module) (h : SameProgram M.toModule M') : SortedModule where
  toModule := M'
  params_argument := by rw [h.functions, h.values]; exact M.params_argument
  functions_function := by rw [h.functions, h.values]; exact M.functions_function

theorem isInto_of_sameProgram {M : Module} (h : SameProgram M M') {i : Instruction}
    (hi : IsInto M' i) : IsInto M i := by
  obtain ⟨G, hG, hname, hlen⟩ := hi
  exact ⟨G, by rwa [← h.getCalledFunction], hname, hlen⟩

theorem disciplined_of_sameProgram {M : Module} (h : SameProgram M M') (hM : Disciplined M) :
    Disciplined M' where
  args_length := by
    rw [h.instruction?, h.getCalledFunction]
    exact hM.args_length
  into_length c i hi hinto :=
    hM.into_length c i (by rwa [← h.instruction?]) (isInto_of_sameProgram h hinto)
  into_void c i hi hinto := by
    have hvoid := hM.into_void c i (by rwa [← h.instruction?]) (isInto_of_sameProgram h hinto)
    refine List.eq_nil_iff_forall_not_mem.2 fun u hu => ?_
    rw [h.mem_users, hvoid] at hu
    exact absurd hu List.not_mem_nil
  store_pointer := by
    rw [h.instruction?, h.values]
    exact hM.store_pointer
  into_target c i a hi hinto ha := by
    rw [h.values]
    exact hM.into_target c i a (by rwa [← h.instruction?]) (isInto_of_sameProgram h hinto) ha

theorem plainInto_of_sameProgram {M : Module} (h : SameProgram M M') (hM : PlainInto M) :
    PlainInto M' := by
  intro c i args extra called typed hi hinto hop
  rw [h.isLabelTy]
  exact hM c i args extra called typed (by rwa [← h.instruction?])
    (isInto_of_sameProgram h hinto) hop

theorem plainStart_of_sameProgram {M : Module} (h : SameProgram M M') {v : ValueId}
    (hv : PlainStart M v) : PlainStart M' v where
  lt := by rw [h.values]; exact hv.lt
  not_function := by rw [h.values]; exact hv.not_function
  not_into i hi hinto :=
    hv.not_into i (by rwa [← h.instruction?]) (isInto_of_sameProgram h hinto)

theorem flowClosed_of_sameProgram {M : Module} (h : SameProgram M M') {disable : Bool}
    {X : Set ValueId} (hX : FlowClosed M disable X) : FlowClosed M' disable X where
  users v hv u hu := by
    rw [h.isLabelTy]
    exact hX.users v hv u (h.mem_users.1 hu)
  pointer := by
    rw [h.instruction?, h.isLabelTy]
    exact hX.pointer
  parameter := by
    rw [h.instruction?, h.getCalledFunction, h.isLabelTy]
    exact hX.parameter
  into c hc i a b hi hinto := by
    rw [h.isLabelTy]
    exact hX.into c hc i a b (by rwa [← h.instruction?]) (isInto_of_sameProgram h hinto)

theorem isLeastClosed_of_sameProgram {M : Module} (h : SameProgram M M') {disable : Bool}
    {v : ValueId} {X : Set ValueId} (hX : IsLeastClosed M disable v X) :
    IsLeastClosed M' disable v X := by
  refine ⟨⟨?_, flowClosed_of_sameProgram h hX.1.2⟩, ?_⟩
  · rw [h.isLabelTy]
    exact hX.1.1
  · rintro Y ⟨hvY, hY⟩
    rw [h.isLabelTy] at hvY
    exact hX.2 ⟨hvY, flowClosed_of_sameProgram h.symm hY⟩

end

/-- The search ends, and finds the least closed set with its start, whatever the
order of the uses. -/
theorem least_closed (M : SortedModule) (disable : Bool) (v : ValueId)
    (hM : Disciplined M.toModule) (hplain : PlainInto M.toModule) (hv : PlainStart M.toModule v) :
    ∃ set, simpleFindUsers M.toModule false disable v = some set ∧
      IsLeastClosed M.toModule disable v {u | u ∈ set} ∧
      ∀ M', SameProgram M.toModule M' →
        ∃ set', simpleFindUsers M' false disable v = some set' ∧ ∀ u, u ∈ set' ↔ u ∈ set := by
  obtain ⟨set, h⟩ : ∃ set, simpleFindUsers M.toModule false disable v = some set :=
    exists_simpleFindUsers_of_disciplined hM hv.lt
  have hleast := (isLeastClosed_iff hM h).2 (targetsReached_of_plainInto hM hplain hv h)
  refine ⟨set, h, hleast, fun M' hsame => ?_⟩
  have hM' := disciplined_of_sameProgram hsame hM
  have hv' := plainStart_of_sameProgram hsame hv
  obtain ⟨set', h'⟩ : ∃ set', simpleFindUsers M' false disable v = some set' :=
    exists_simpleFindUsers_of_disciplined hM' hv'.lt
  have htargets' : TargetsReached M' disable v := targetsReached_of_plainInto
    (M := reordered M M' hsame) hM' (plainInto_of_sameProgram hsame hplain) hv' h'
  have hleast' := (isLeastClosed_iff hM' h').2 htargets'
  have heq := (isLeastClosed_of_sameProgram hsame hleast).unique hleast'
  exact ⟨set', h', fun u => (Set.ext_iff.1 heq u).symm⟩

/-- The search ends with the least closed set exactly when, for each call of `into` whose
tests miss its second argument although the rules lead to it, they lead to the target in
another way; two orders of the uses for which this holds find the same. -/
theorem least_closed_iff (M : Module) (disable : Bool) (v : ValueId) (hM : Disciplined M)
    (hv : v < M.values.length) :
    ((∃ set, simpleFindUsers M false disable v = some set ∧
        IsLeastClosed M disable v {u | u ∈ set}) ↔ TargetsReached M disable v) ∧
    ∀ M', SameProgram M M' → TargetsReached M disable v → TargetsReached M' disable v →
      ∃ set set', simpleFindUsers M false disable v = some set ∧
        simpleFindUsers M' false disable v = some set' ∧ ∀ u, u ∈ set' ↔ u ∈ set := by
  obtain ⟨set, h⟩ : ∃ set, simpleFindUsers M false disable v = some set :=
    exists_simpleFindUsers_of_disciplined hM hv
  refine ⟨⟨?_, fun htargets => ⟨set, h, (isLeastClosed_iff hM h).2 htargets⟩⟩, ?_⟩
  · rintro ⟨set', h', hleast⟩
    exact (isLeastClosed_iff hM h').1 hleast
  · intro M' hsame htargets htargets'
    have hM' := disciplined_of_sameProgram hsame hM
    obtain ⟨set', h'⟩ : ∃ set', simpleFindUsers M' false disable v = some set' :=
      exists_simpleFindUsers_of_disciplined hM' (by rwa [hsame.values])
    have hleast := isLeastClosed_of_sameProgram hsame ((isLeastClosed_iff hM h).2 htargets)
    have heq := hleast.unique ((isLeastClosed_iff hM' h').2 htargets')
    exact ⟨set, set', h, h', fun u => (Set.ext_iff.1 heq u).symm⟩

/-- A cleanup block that converts the result of `owner()`; both calls may carry the
token of the block, and the conversion stands first in its use list. -/
def cleanupModule (tokens : Bool) : SortedModule where
  values :=
    [.function, .function, .function,
     .instruction ⟨.other [], none⟩,
     .instruction ⟨.other [], none⟩,
     .instruction ⟨.call [4, 6] (if tokens then [3] else []) 1 true, none⟩,
     .instruction ⟨.call [] (if tokens then [3] else []) 2 true, none⟩,
     .argument, .argument]
  functions :=
    [⟨lit "_ZN4pool4Pool3pay17h1E" rfl, 0, [],
      [⟨lit "start" rfl, [4]⟩, ⟨lit "cleanup" rfl, [3, 6, 5]⟩]⟩,
     ⟨lit "_ZN50_$LT$T$u20$as$u20$core..convert..Into$LT$U$GT$$GT$4into17h2E" rfl, 1, [7, 8], []⟩,
     ⟨lit "_ZN4pool4Pool5owner17h3E" rfl, 2, [], []⟩]
  users := useList _
  users_perm := fun _ => .refl _
  operands_lt := by cases tokens <;> decide
  params_lt := by cases tokens <;> decide
  names_nodup := by decide +kernel
  functions_nodup := by decide
  params_argument := by cases tokens <;> decide
  functions_function := by cases tokens <;> decide

theorem cleanupModule_disciplined (tokens : Bool) :
    Disciplined (cleanupModule tokens).toModule where
  args_length c i G hi hG :=
    forall_instruction (P := fun _ i => ∀ G ∈ (cleanupModule tokens).getCalledFunction i,
      i.args.length = G.params.length) (by cases tokens <;> decide +kernel) hi G hG
  into_length c i hi hinto :=
    forall_instruction (P := fun _ i =>
      IsInto (cleanupModule tokens).toModule i → i.args.length = 2)
      (by cases tokens <;> decide +kernel) hi hinto
  into_void c i hi hinto :=
    forall_instruction (P := fun c i =>
      IsInto (cleanupModule tokens).toModule i → (cleanupModule tokens).users c = [])
      (by cases tokens <;> decide +kernel) hi hinto
  store_pointer s i value pointer hi hop := by
    have h := forall_instruction (P := fun _ i => i.isCall = true ∨ i.op.operands = [])
      (by cases tokens <;> decide +kernel) hi
    simp [Instruction.isCall, hop, Op.operands] at h
  into_target c i a hi hinto ha :=
    forall_instruction (P := fun _ i => ∀ a ∈ i.args[0]?,
      (cleanupModule tokens).values[a]? ≠ some .function)
      (by cases tokens <;> decide +kernel) hi a ha

/-- Neither the token nor the value converted is a function or a conversion. -/
theorem cleanupModule_plainStart (tokens : Bool) {v : ValueId} (hv : v = 3 ∨ v = 6) :
    PlainStart (cleanupModule tokens).toModule v where
  lt := by rcases hv with rfl | rfl <;> cases tokens <;> decide
  not_function := by rcases hv with rfl | rfl <;> cases tokens <;> decide
  not_into i hi :=
    forall_instruction (P := fun c i =>
      c = 3 ∨ c = 6 → ¬ IsInto (cleanupModule tokens).toModule i)
      (by cases tokens <;> decide +kernel) hi hv

theorem cleanupModule_plainInto : PlainInto (cleanupModule false).toModule := by
  intro c i args extra called typed hi _ hop
  have h := forall_instruction (P := fun _ i => i.op.operands.length ≤ i.args.length + 1)
    (by decide +kernel) hi
  have hextra : extra.length = 0 := by
    simp only [Instruction.args, hop, Op.operands, List.length_append, List.length_singleton] at h
    omega
  simp [List.length_eq_zero_iff.1 hextra]

theorem least_closed_iff_cleanup :
    ((∃ set, simpleFindUsers (cleanupModule true).toModule false true 3 = some set ∧
        IsLeastClosed (cleanupModule true).toModule true 3 {u | u ∈ set}) ↔
      TargetsReached (cleanupModule true).toModule true 3) ∧
    ∀ M', SameProgram (cleanupModule true).toModule M' →
      TargetsReached (cleanupModule true).toModule true 3 → TargetsReached M' true 3 →
      ∃ set set', simpleFindUsers (cleanupModule true).toModule false true 3 = some set ∧
        simpleFindUsers M' false true 3 = some set' ∧ ∀ u, u ∈ set' ↔ u ∈ set :=
  least_closed_iff (cleanupModule true).toModule true 3 (cleanupModule_disciplined true)
    (cleanupModule_plainStart true (.inl rfl)).lt

example :
    ∃ set, simpleFindUsers (cleanupModule false).toModule false false 6 = some set ∧
      IsLeastClosed (cleanupModule false).toModule false 6 {u | u ∈ set} ∧
      ∀ M', SameProgram (cleanupModule false).toModule M' →
        ∃ set', simpleFindUsers M' false false 6 = some set' ∧ ∀ u, u ∈ set' ↔ u ∈ set :=
  least_closed (cleanupModule false) false 6 (cleanupModule_disciplined false)
    cleanupModule_plainInto (cleanupModule_plainStart false (.inr rfl))

/-- The token leads to the conversion before it leads to the call that makes the
value converted: the target of the conversion is missed. -/
theorem token_not_closed :
    ¬ ∀ (M : SortedModule) (disable : Bool) (v : ValueId), Disciplined M.toModule →
      PlainStart M.toModule v → ∃ set, simpleFindUsers M.toModule false disable v = some set ∧
        IsLeastClosed M.toModule disable v {u | u ∈ set} := by
  intro h
  obtain ⟨set, hset, hleast⟩ := h (cleanupModule true) true 3 (cleanupModule_disciplined true)
    (cleanupModule_plainStart true (.inl rfl))
  have hrun : simpleFindUsers (cleanupModule true).toModule false true 3 = some [6, 5, 3] := by
    decide +kernel
  rw [hrun, Option.some.injEq] at hset
  subst hset
  have hmem := hleast.1.2.into 5 (by decide) _ 4 6 rfl (by decide +kernel) rfl rfl (by decide)
    (by decide)
  exact absurd hmem (by decide)

end UserClosure
