import Rustle.Library.AddressOrder
import Rustle.Library.FaultyLoop
import Rustle.Llvm.UserFlow

/-!
# `nep-interface`: interfaces of a NEP that are not implemented

* `runOnModule` — the pass: the lines written for a NEP, or what stops it.
* `attaches` — does a function attach a resolver to the promise of `xx_on_transfer`?
* `resolverLines_eq` — the loop shares **one** flag: it writes a line for each
  `xx_transfer_call` before the first one that attaches a resolver.
* `resolver_lines_right_iff` — when the lines are right, in every order of the functions.
-/

namespace NepInterface

open Llvm NearCore
open UserFlow (SameCode)
open FaultyLoop (Reaches)
open AddressOrder (Order natOrder)
open Text (lit)

/-- What stops a run. -/
inductive Stop where
  /-- The id is unknown; the process exits. -/
  | invalidNepId
  /-- A parameter behind the last one of a function is read. -/
  | noParameter
  /-- The last argument of a call without arguments is read. -/
  | noArgument
  deriving DecidableEq, Repr

/-- The standards with a resolver. -/
inductive Standard where
  | ft | nft | mt
  deriving DecidableEq, Repr

namespace Standard

def nepId : Standard → Nat
  | ft => 141
  | nft => 171
  | mt => 245

/-- How the names of its functions start. -/
def short : Standard → Str
  | ft => lit "ft" rfl
  | nft => lit "nft" rfl
  | mt => lit "mt" rfl

def transfer_call (s : Standard) : Str := s.short ++ lit "_transfer_call" rfl

def regexOnTransfer (s : Standard) : Str :=
  lit "[0-9]+" rfl ++ s.short ++ lit "_on_transfer[0-9]+" rfl

/-- The line for a missing resolver. -/
def line (s : Standard) : Str := lit "resolver of " rfl ++ s.transfer_call

end Standard

/-- `nepWithResolver` -/
def nepWithResolver (nepId : Nat) : Option Standard :=
  [Standard.ft, Standard.nft, Standard.mt].find? fun s => s.nepId == nepId

/-- `positionalFuncsMap`, each set in its order. -/
def positionalFuncs : Nat → Option (List Str)
  | 141 => some [lit "ft_balance_of" rfl, lit "ft_total_supply" rfl, lit "ft_transfer" rfl,
      lit "ft_transfer_call" rfl]
  | 145 => some [lit "storage_balance_bounds" rfl, lit "storage_balance_of" rfl,
      lit "storage_deposit" rfl, lit "storage_unregister" rfl, lit "storage_withdraw" rfl]
  | 148 => some [lit "ft_metadata" rfl]
  | 171 => some [lit "nft_token" rfl, lit "nft_transfer" rfl, lit "nft_transfer_call" rfl]
  | 177 => some [lit "nft_metadata" rfl]
  | 178 => some [lit "nft_approve" rfl, lit "nft_is_approved" rfl, lit "nft_revoke" rfl,
      lit "nft_revoke_all" rfl]
  | 181 => some [lit "nft_supply_for_owner" rfl, lit "nft_tokens" rfl,
      lit "nft_tokens_for_owner" rfl, lit "nft_total_supply" rfl]
  | 245 => some [lit "mt_balance_of" rfl, lit "mt_batch_balance_of" rfl, lit "mt_batch_supply" rfl,
      lit "mt_batch_transfer" rfl, lit "mt_batch_transfer_call" rfl, lit "mt_supply" rfl,
      lit "mt_token" rfl, lit "mt_transfer" rfl, lit "mt_transfer_call" rfl]
  | 199 | 297 | 330 | 366 => some []
  | _ => none

def regex_then : Str := lit "near_sdk[0-9]+promise[0-9]+Promise[0-9]+then" rfl

/-- Is it the name of the function, or the mangled one? -/
def named (func name : Str) : Bool :=
  name == func || Regex.matchPattern (lit "[0-9]+" rfl ++ func ++ lit "[0-9]+" rfl) name

section

variable (M : Module) (o : Order ValueId) (s : Standard)

/-- The positional functions that no function of the module implements. -/
def unimplemented (funcs : List Str) : List Str :=
  funcs.filter fun func =>
    !(M.functions.filter fun F => !skipFunc F).any fun F => named func F.name

/-- Does the user chain another promise, with `then`, that comes from another call? -/
def thenAttaches (userOfOnTransfer : ValueId) : Except Stop Bool :=
  match M.instruction? userOfOnTransfer with
  | none => .ok false
  | some j =>
    if !isInstCallFunc M j regex_then then .ok false
    else
      match j.args.getLast? with
      | none => .error .noArgument
      | some nextPromiseResult =>
        .ok ((M.users nextPromiseResult).any fun w =>
          ((M.instruction? w).any Instruction.isCall) && w != userOfOnTransfer)

/-- Does the call make the promise of `xx_on_transfer`, with a resolver attached? -/
def onTransferAttaches (i : Instruction) : Except Stop Bool :=
  if !isInstCallFunc M i s.regexOnTransfer then .ok false
  else
    match i.args with
    | [] => .ok false
    | promise :: _ =>
      match simpleFindUsers M false false promise with
      | none => .error .noParameter
      | some usersPromiseOfOnTransfer =>
        (o.iterate usersPromiseOfOnTransfer).anyM (thenAttaches M)

/-- Does the function attach a resolver? -/
def attaches (F : Function) : Except Stop Bool :=
  (F.instructions M).anyM fun p => onTransferAttaches M o s p.2

def isTransferCall (F : Function) : Bool := named s.transfer_call F.name

/-- The loop over the functions, with the flag `foundResolver`. -/
def resolverLines : Bool → List Function → Except Stop (List Str)
  | _, [] => .ok []
  | foundResolver, F :: Fs =>
    if !isTransferCall s F then resolverLines foundResolver Fs
    else
      match attaches M o s F with
      | .error e => .error e
      | .ok found =>
        (resolverLines (foundResolver || found) Fs).map fun lines =>
          (if foundResolver || found then [] else [s.line]) ++ lines

/-- `runOnModule` for a NEP: the lines written. -/
def runOnModule (nepId : Nat) : Except Stop (List Str) :=
  match positionalFuncs nepId with
  | none => .error .invalidNepId
  | some funcs =>
    match nepWithResolver nepId with
    | none => .ok (unimplemented M funcs)
    | some s => (resolverLines M o s false M.functions).map (unimplemented M funcs ++ ·)

/-! ## What the loop writes -/

/-- The check of each `xx_transfer_call` among the functions is defined. -/
def Checked (Fs : List Function) : Prop :=
  ∀ F ∈ Fs, isTransferCall s F = true → ∃ b, attaches M o s F = .ok b

/-- The check says that a resolver is attached. -/
def attached (F : Function) : Bool :=
  match attaches M o s F with
  | .ok b => b
  | .error _ => false

/-- The functions named `xx_transfer_call`. -/
def transferCalls (Fs : List Function) : List Function := Fs.filter (isTransferCall s)

/-- How many of them stand before the first one with a resolver. -/
def before (Fs : List Function) : Nat :=
  ((transferCalls s Fs).takeWhile fun F => !attached M o s F).length

end

section

variable {M : Module} {o : Order ValueId} {s : Standard}

theorem attached_of_ok {F : Function} {b : Bool} (h : attaches M o s F = .ok b) :
    attached M o s F = b := by
  rw [attached, h]

/-- The loop writes its line for each `xx_transfer_call` before the first one with a
resolver. -/
theorem resolverLines_eq {Fs : List Function} (h : Checked M o s Fs) (found : Bool) :
    resolverLines M o s found Fs =
      .ok (if found then [] else List.replicate (before M o s Fs) s.line) := by
  induction Fs generalizing found with
  | nil => cases found <;> rfl
  | cons F Fs ih =>
    rw [Checked, List.forall_mem_cons] at h
    have ih' := ih h.2
    rw [resolverLines]
    cases hF : isTransferCall s F with
    | false =>
      have hskip : before M o s (F :: Fs) = before M o s Fs := by
        rw [before, transferCalls, List.filter_cons_of_neg (by simp [hF])]
        rfl
      rw [hskip]
      exact ih' found
    | true =>
      obtain ⟨b, hb⟩ := h.1 hF
      have hbefore : before M o s (F :: Fs) = if b then 0 else before M o s Fs + 1 := by
        rw [before, transferCalls, List.filter_cons_of_pos hF, List.takeWhile_cons,
          attached_of_ok hb]
        cases b <;> rfl
      rw [hbefore, hb]
      simp only [Bool.not_true, Bool.false_eq_true, if_false, ih']
      cases found <;> cases b <;> simp [Except.map, List.replicate_succ]

/-- The loop goes through exactly when every check is defined. -/
theorem exists_resolverLines_iff {Fs : List Function} {found : Bool} :
    (∃ lines, resolverLines M o s found Fs = .ok lines) ↔ Checked M o s Fs := by
  refine ⟨?_, fun h => ⟨_, resolverLines_eq h found⟩⟩
  induction Fs generalizing found with
  | nil => simp [Checked]
  | cons F Fs ih =>
    rw [resolverLines, Checked, List.forall_mem_cons]
    cases hF : isTransferCall s F with
    | false =>
      rintro h
      exact ⟨by simp, ih h⟩
    | true =>
      simp only [Bool.not_true, Bool.false_eq_true, if_false, true_implies]
      cases hb : attaches M o s F with
      | error e => simp
      | ok b =>
        rintro ⟨lines, h⟩
        have hrest : ∃ lines, resolverLines M o s (found || b) Fs = .ok lines :=
          FaultyLoop.exists_map_eq_ok_iff.1 ⟨lines, h⟩
        exact ⟨⟨b, rfl⟩, ih hrest⟩

theorem positionalFuncs_nepId (s : Standard) :
    ∃ funcs, positionalFuncs s.nepId = some funcs ∧ nepWithResolver s.nepId = some s ∧
      s.line ∉ funcs := by
  cases s with
  | ft => exact ⟨_, rfl, rfl, by decide +kernel⟩
  | nft => exact ⟨_, rfl, rfl, by decide +kernel⟩
  | mt => exact ⟨_, rfl, rfl, by decide +kernel⟩

end

/-! ## The functions in another order -/

/-- The same module with its functions in another order. -/
structure Permuted (M M' : Module) : Prop where
  values : M'.values = M.values
  users : M'.users = M.users
  functions : M.functions.Perm M'.functions

section

variable {M M' : Module} {o : Order ValueId} {s : Standard}

/-- A module whose functions are put in the order of the list. -/
def reorder (M : Module) (Fs : List Function) (h : M.functions.Perm Fs) : Module where
  values := M.values
  functions := Fs
  users := M.users
  users_perm := M.users_perm
  operands_lt := M.operands_lt
  params_lt := fun F hF => M.params_lt F (h.mem_iff.2 hF)
  names_nodup := ((h.map Function.name).nodup_iff).1 M.names_nodup
  functions_nodup := ((h.map Function.value).nodup_iff).1 M.functions_nodup

theorem permuted_reorder {Fs : List Function} (h : M.functions.Perm Fs) :
    Permuted M (reorder M Fs h) := ⟨rfl, rfl, h⟩

theorem Permuted.refl (M : Module) : Permuted M M := ⟨rfl, rfl, .refl _⟩

/-- A value is the function whose value it is, wherever that stands. -/
theorem function?_eq_some_iff {v : ValueId} {F : Function} :
    M.function? v = some F ↔ F ∈ M.functions ∧ F.value = v := by
  unfold Module.function?
  constructor
  · intro h
    exact ⟨List.mem_of_find?_eq_some h, by simpa using List.find?_some h⟩
  · rintro ⟨hF, rfl⟩
    obtain ⟨G, hG⟩ : ∃ G, M.functions.find? (fun G => G.value == F.value) = some G := by
      rw [← Option.isSome_iff_exists, List.find?_isSome]
      exact ⟨F, hF, beq_self_eq_true _⟩
    have hvalue : G.value = F.value := by simpa using List.find?_some hG
    rw [hG, List.inj_on_of_nodup_map M.functions_nodup (List.mem_of_find?_eq_some hG) hF hvalue]

theorem Permuted.sameCode (h : Permuted M M') : SameCode M M' where
  values := h.values
  function? := by
    funext v
    ext F
    rw [function?_eq_some_iff, function?_eq_some_iff, h.functions.mem_iff]

theorem Permuted.simpleFindUsers (h : Permuted M M') (restrict disable : Bool) :
    NearCore.simpleFindUsers M' restrict disable = NearCore.simpleFindUsers M restrict disable := by
  have hedges : userEdges M' restrict disable = userEdges M restrict disable := by
    funext v
    have hcall : callEdges M' restrict disable = callEdges M restrict disable := by
      funext i
      rw [callEdges, callEdges, h.sameCode.getCalledFunction]
    rw [userEdges, userEdges, h.sameCode.instruction?, h.users, hcall]
  funext v
  rw [NearCore.simpleFindUsers, NearCore.simpleFindUsers, h.sameCode.isLabelTy, hedges, h.values]

/-- The check of a function does not depend on the order of the functions. -/
theorem Permuted.attaches (h : Permuted M M') (F : Function) :
    attaches M' o s F = attaches M o s F := by
  have hthen : thenAttaches M' = thenAttaches M := by
    funext v
    rw [thenAttaches, thenAttaches, h.sameCode.instruction?, h.sameCode.isInstCallFunc, h.users]
  have honTransfer : onTransferAttaches M' o s = onTransferAttaches M o s := by
    funext i
    rw [onTransferAttaches, onTransferAttaches, h.sameCode.isInstCallFunc, h.simpleFindUsers, hthen]
  rw [NepInterface.attaches, NepInterface.attaches, h.sameCode.instructions, honTransfer]

/-- Nor does what is unimplemented. -/
theorem Permuted.unimplemented (h : Permuted M M') (funcs : List Str) :
    unimplemented M' funcs = unimplemented M funcs := by
  refine List.filter_congr fun func _ => ?_
  rw [((h.functions.filter fun F => !skipFunc F).any_eq)]

theorem Permuted.checked (h : Permuted M M') :
    Checked M' o s M'.functions ↔ Checked M o s M.functions := by
  simp only [Checked, h.attaches, h.functions.mem_iff]

theorem Permuted.before (h : Permuted M M') (Fs : List Function) :
    before M' o s Fs = before M o s Fs := by
  have hattached : attached M' o s = attached M o s := by
    funext F
    rw [attached, attached, h.attaches]
  rw [NepInterface.before, NepInterface.before, hattached]

/-! ## When the lines are right -/

/-- The resolver is missing: there is an `xx_transfer_call`, and none attaches one. -/
def ResolverMissing (M : Module) (o : Order ValueId) (s : Standard) : Prop :=
  (∃ F ∈ M.functions, isTransferCall s F = true) ∧
    ∀ F ∈ M.functions, isTransferCall s F = true → attaches M o s F = .ok false

/-- The lines are the same ones in every order of the functions, and the line of the
resolver is among them, once, exactly when the resolver is missing. -/
def LinesRight (M : Module) (o : Order ValueId) (s : Standard) : Prop :=
  ∀ M', Permuted M M' → ∃ lines lines',
    runOnModule M o s.nepId = .ok lines ∧ runOnModule M' o s.nepId = .ok lines' ∧
      lines.Perm lines' ∧ lines.count s.line ≤ 1 ∧ (s.line ∈ lines ↔ ResolverMissing M o s)

/-- Every `xx_transfer_call` attaches a resolver. -/
def AllAttach (M : Module) (o : Order ValueId) (s : Standard) : Prop :=
  ∀ F ∈ M.functions, isTransferCall s F = true → attaches M o s F = .ok true

theorem mem_transferCalls {Fs : List Function} {F : Function} :
    F ∈ transferCalls s Fs ↔ F ∈ Fs ∧ isTransferCall s F = true := List.mem_filter

/-- Of functions that all attach a resolver, none stands before the first. -/
theorem AllAttach.before_eq (h : AllAttach M o s) {Fs : List Function}
    (hFs : M.functions.Perm Fs) : before M o s Fs = 0 := by
  have hnone : (transferCalls s Fs).takeWhile (fun F => !attached M o s F) = [] := by
    rw [List.takeWhile_eq_nil_iff]
    intro hlen
    have hmem := mem_transferCalls.1 (List.getElem_mem hlen)
    have hattaches := h _ (hFs.mem_iff.2 hmem.1) hmem.2
    simp only [List.get_eq_getElem, attached_of_ok hattaches]
    decide
  rw [before, hnone, List.length_nil]

/-- If no resolver is attached, all of them stand before the first that does. -/
theorem before_eq_length {Fs : List Function}
    (h : ∀ F ∈ Fs, isTransferCall s F = true → attaches M o s F = .ok false) :
    before M o s Fs = (transferCalls s Fs).length := by
  have hall : (transferCalls s Fs).takeWhile (fun F => !attached M o s F) =
      transferCalls s Fs := by
    rw [List.takeWhile_eq_self_iff]
    intro F hF
    obtain ⟨hF, hcall⟩ := mem_transferCalls.1 hF
    rw [attached_of_ok (h F hF hcall)]
    rfl
  rw [before, hall]

/-- What the pass writes when every check is defined. -/
theorem runOnModule_eq (h : Checked M o s M.functions) :
    ∃ funcs, s.line ∉ funcs ∧ ∀ M', Permuted M M' → runOnModule M' o s.nepId =
      .ok (unimplemented M funcs ++ List.replicate (before M o s M'.functions) s.line) := by
  obtain ⟨funcs, hfuncs, hresolver, hline⟩ := positionalFuncs_nepId s
  refine ⟨funcs, hline, fun M' hM' => ?_⟩
  rw [runOnModule, hfuncs]
  simp only [hresolver]
  rw [resolverLines_eq (hM'.checked.2 h), hM'.unimplemented, hM'.before]
  rfl

theorem checked_of_runOnModule {lines : List Str} (h : runOnModule M o s.nepId = .ok lines) :
    Checked M o s M.functions := by
  obtain ⟨funcs, hfuncs, hresolver, -⟩ := positionalFuncs_nepId s
  rw [runOnModule, hfuncs] at h
  simp only [hresolver] at h
  exact exists_resolverLines_iff.1 (FaultyLoop.exists_map_eq_ok_iff.1 ⟨lines, h⟩)

/-- How often the line of the resolver is among the lines. -/
theorem count_line {funcs : List Str} (h : s.line ∉ funcs) (n : Nat) :
    (unimplemented M funcs ++ List.replicate n s.line).count s.line = n := by
  have hnot : s.line ∉ unimplemented M funcs := fun hmem => h (List.mem_filter.1 hmem).1
  rw [List.count_append, List.count_eq_zero_of_not_mem hnot, List.count_replicate_self,
    Nat.zero_add]

/-- A function can be put first. -/
theorem exists_first {F : Function} (hF : F ∈ M.functions) :
    ∃ M', Permuted M M' ∧ M'.functions.head? = some F := by
  obtain ⟨pre, post, hsplit⟩ := List.append_of_mem hF
  have hperm : M.functions.Perm (F :: (pre ++ post)) := by
    rw [hsplit]
    exact List.perm_middle
  exact ⟨reorder M _ hperm, permuted_reorder hperm, rfl⟩

/-- A function without a resolver that stands first is written. -/
theorem before_pos {Fs : List Function} {F : Function} (hfirst : Fs.head? = some F)
    (hcall : isTransferCall s F = true) (hF : attached M o s F = false) :
    0 < before M o s Fs := by
  obtain ⟨Gs, rfl⟩ := List.head?_eq_some_iff.1 hfirst
  rw [before, transferCalls, List.filter_cons_of_pos hcall,
    List.takeWhile_cons_of_pos (by rw [hF]; rfl), List.length_cons]
  omega

/-- If a single one stands before the first with a resolver, the resolver is missing. -/
theorem missing_of_before_pos (hchecked : Checked M o s M.functions)
    (hone : (transferCalls s M.functions).length ≤ 1) (hpos : 0 < before M o s M.functions) :
    ResolverMissing M o s := by
  cases hcalls : transferCalls s M.functions with
  | nil => simp [before, hcalls] at hpos
  | cons F Gs =>
    rw [hcalls, List.length_cons] at hone
    obtain rfl : Gs = [] := List.length_eq_zero_iff.1 (by omega)
    have hnot : attached M o s F = false := by
      by_contra hF
      rw [before, hcalls, List.takeWhile_cons_of_neg (by simpa using hF)] at hpos
      exact absurd hpos (lt_irrefl _)
    have hmem : ∀ G, G ∈ M.functions ∧ isTransferCall s G = true ↔ G = F := by
      intro G
      rw [← mem_transferCalls, hcalls, List.mem_singleton]
    have hF := (hmem F).2 rfl
    refine ⟨⟨F, hF⟩, fun G hG hcall => ?_⟩
    obtain rfl := (hmem G).1 ⟨hG, hcall⟩
    obtain ⟨b, hb⟩ := hchecked G hG hcall
    rw [← attached_of_ok hb, hnot] at hb
    exact hb

/-- With one `xx_transfer_call` at most, and with a resolver attached by all of them, the
order does not matter. -/
theorem before_perm (h : (transferCalls s M.functions).length ≤ 1 ∨ AllAttach M o s)
    {Fs : List Function} (hFs : M.functions.Perm Fs) :
    before M o s Fs = before M o s M.functions := by
  rcases h with hone | hall
  · have hsame : transferCalls s Fs = transferCalls s M.functions := by
      have hperm : (transferCalls s M.functions).Perm (transferCalls s Fs) := hFs.filter _
      rcases Nat.le_one_iff_eq_zero_or_eq_one.1 hone with hzero | hsingle
      · rw [List.length_eq_zero_iff] at hzero
        rw [hzero] at hperm ⊢
        exact List.nil_perm.1 hperm
      · obtain ⟨F, hF⟩ := List.length_eq_one_iff.1 hsingle
        rw [hF] at hperm ⊢
        exact (List.singleton_perm.1 hperm).symm
    rw [before, before, hsame]
  · rw [hall.before_eq hFs, hall.before_eq (.refl _)]

/-- The lines are right, in every order of the functions, exactly when every check is
defined and there is one `xx_transfer_call` at most or all of them attach a resolver. -/
theorem resolver_lines_right_iff (M : Module) (o : Order ValueId) (s : Standard) :
    LinesRight M o s ↔ Checked M o s M.functions ∧
      ((transferCalls s M.functions).length ≤ 1 ∨ AllAttach M o s) := by
  constructor
  · intro hright
    have hchecked : Checked M o s M.functions := by
      obtain ⟨lines, -, hrun, -⟩ := hright M (.refl M)
      exact checked_of_runOnModule hrun
    refine ⟨hchecked, or_iff_not_imp_right.2 fun hnot => ?_⟩
    -- a function without a resolver, put first
    unfold AllAttach at hnot
    push Not at hnot
    obtain ⟨F, hF, hcall, hnotTrue⟩ := hnot
    have hattached : attached M o s F = false := by
      obtain ⟨b, hb⟩ := hchecked F hF hcall
      cases b with
      | false => exact attached_of_ok hb
      | true => exact absurd hb hnotTrue
    obtain ⟨M', hM', hfirst⟩ := exists_first hF
    obtain ⟨funcs, hline, hrun⟩ := runOnModule_eq hchecked
    obtain ⟨lines, lines', hlines, hlines', hperm, hcount, hmissing⟩ := hright M' hM'
    rw [hrun M (.refl M), Except.ok.injEq] at hlines
    rw [hrun M' hM', Except.ok.injEq] at hlines'
    subst hlines hlines'
    have hsame := hperm.count_eq s.line
    rw [count_line hline] at hcount hsame
    rw [count_line hline] at hsame
    have hpos := before_pos hfirst hcall hattached
    have hin : s.line ∈ unimplemented M funcs ++
        List.replicate (before M o s M.functions) s.line := by
      rw [← List.count_pos_iff, count_line hline]
      omega
    rw [← before_eq_length (hmissing.1 hin).2]
    exact hcount
  · rintro ⟨hchecked, hcond⟩ M' hM'
    obtain ⟨funcs, hline, hrun⟩ := runOnModule_eq hchecked
    refine ⟨_, _, hrun M (.refl M), hrun M' hM', ?_, ?_, ?_⟩
    · rw [before_perm hcond hM'.functions]
    · rw [count_line hline]
      rcases hcond with hone | hall
      · exact le_trans (List.takeWhile_sublist _).length_le hone
      · rw [hall.before_eq (.refl _)]
        omega
    · rw [← List.count_pos_iff, count_line hline]
      constructor
      · intro hpos
        rcases hcond with hone | hall
        · exact missing_of_before_pos hchecked hone hpos
        · rw [hall.before_eq (.refl _)] at hpos
          omega
      · rintro ⟨⟨F, hF, hcall⟩, hnone⟩
        rw [before_eq_length hnone]
        exact List.length_pos_of_mem (mem_transferCalls.2 ⟨hF, hcall⟩)

end

/-- The exported wrapper, which leaves the resolver to the implementation. -/
def ftTransferCall : Function :=
  ⟨lit "ft_transfer_call" rfl, 0, [], [⟨lit "start" rfl, [11]⟩]⟩

/-- The implementation, which attaches the resolver. -/
def tokenTransferCall : Function :=
  ⟨lit "_ZN5token5Token16ft_transfer_call17h2E" rfl, 1, [], [⟨lit "start" rfl, [8, 9, 10]⟩]⟩

/-- What the implementation calls. -/
def promiseFunctions : List Function :=
  [⟨lit "_ZN5token8receiver14ft_on_transfer17h3E" rfl, 2, [12], []⟩,
   ⟨lit "_ZN8near_sdk7promise7Promise4then17h4E" rfl, 3, [13, 14, 15], []⟩,
   ⟨lit "_ZN5token8resolver19ft_resolve_transfer17h5E" rfl, 4, [16], []⟩]

def token : Module where
  values :=
    [.function, .function, .function, .function, .function,
     .instruction ⟨.other [], none⟩, .instruction ⟨.other [], none⟩,
     .instruction ⟨.other [], none⟩,
     .instruction ⟨.call [5] [] 2 true, some ⟨lit "src/lib.rs" rfl, 31⟩⟩,
     .instruction ⟨.call [6] [] 4 true, some ⟨lit "src/lib.rs" rfl, 32⟩⟩,
     .instruction ⟨.call [7, 5, 6] [] 3 true, some ⟨lit "src/lib.rs" rfl, 32⟩⟩,
     .instruction ⟨.call [] [] 1 true, some ⟨lit "src/lib.rs" rfl, 20⟩⟩,
     .argument, .argument, .argument, .argument, .argument]
  functions := ftTransferCall :: tokenTransferCall :: promiseFunctions
  users := useList _
  users_perm := fun _ => .refl _
  operands_lt := by decide
  params_lt := by decide
  names_nodup := by decide +kernel
  functions_nodup := by decide

theorem token_swap :
    token.functions.Perm (tokenTransferCall :: ftTransferCall :: promiseFunctions) :=
  List.Perm.swap _ _ _

/-- The resolver is attached; the wrapper is written for it when it stands first. -/
theorem wrapper_written : ¬ ∀ (M : Module) (o : Order ValueId) (s : Standard),
    LinesRight M o s := by
  intro hright
  obtain ⟨lines, lines', hlines, hlines', hperm, -⟩ :=
    hright token natOrder .ft _ (permuted_reorder token_swap)
  have hfirst : runOnModule token natOrder Standard.ft.nepId =
      .ok [lit "ft_balance_of" rfl, lit "ft_total_supply" rfl, lit "ft_transfer" rfl,
        lit "resolver of ft_transfer_call" rfl] := by
    decide +kernel
  have hsecond : runOnModule (reorder token _ token_swap) natOrder Standard.ft.nepId =
      .ok [lit "ft_balance_of" rfl, lit "ft_total_supply" rfl, lit "ft_transfer" rfl] := by
    decide +kernel
  rw [hfirst, Except.ok.injEq] at hlines
  rw [hsecond, Except.ok.injEq] at hlines'
  subst hlines hlines'
  exact absurd hperm.length_eq (by decide)

end NepInterface
