import Rustle.Library.JoinSearch
import Rustle.Llvm.FindUsers

/-!
# How a struct is used

`getMode` and `usingStruct` of `near_core.cpp`: what happens to the pointer to a member of
a struct, over all its users and, through calls, the parameters it is passed for.

* `modeStep`, `getMode` — what is known at a use, and the recursion over the uses.
* `usingStruct` — the struct that an instruction takes a member of, and the mode.
* `readKind` — the uses that read, by the part the pointer has in them.
* `reads_reported_iff` — when uses that only read are reported as such: a **store** of the
  pointer and a method of a collection are reported as writes.
* `getMode_terminates_iff` — when the recursion ends.
-/

namespace NearCore

open Llvm
open JoinSearch (Step collect events Finishes)
open DeepSearch (Reach Explores)
open Relation (ReflTransGen TransGen)
open Text (lit)

/-! ## Modes -/

/-- `Mode` -/
inductive Mode where
  | Unknown
  | Write
  | Read
  | RW
  deriving DecidableEq, Repr

/-- `|` -/
def Mode.or : Mode → Mode → Mode
  | .Unknown, m => m
  | m, .Unknown => m
  | .Write, .Write => .Write
  | .Read, .Read => .Read
  | _, _ => .RW

instance : Max Mode := ⟨Mode.or⟩

instance : SemilatticeSup Mode :=
  SemilatticeSup.mk'
    (fun a b => by cases a <;> cases b <;> rfl)
    (fun a b c => by cases a <;> cases b <;> cases c <;> rfl)
    (fun a => by cases a <;> rfl)

instance : OrderBot Mode where
  bot := .Unknown
  bot_le _ := rfl

theorem Mode.le_iff {a b : Mode} : a ≤ b ↔ a.or b = b := sup_eq_right.symm

theorem Mode.eq_Read_iff {m : Mode} : m = .Read ↔ m ≤ .Read ∧ .Read ≤ m := by
  rw [Mode.le_iff, Mode.le_iff]
  cases m <;> decide

/-! ## The recursion -/

/-- A module in which the loads are known among the instructions that are `Op.other`. -/
structure AccessModule extends TypedModule where
  /-- `isa<LoadInst>` -/
  isLoad : ValueId → Bool

/-- The arguments of `getMode`. -/
structure Use where
  user : ValueId
  prevUser : ValueId
  deriving DecidableEq

/-- The pattern of some methods of the collections. -/
def collectionMethods (methods : Str) : Str :=
  lit "near_sdk[0-9]+collections([0-9a-zA-Z]|_+)+(\\$|[0-9a-zA-Z])+(" rfl ++ methods ++
    lit ")" rfl

def regex_modifying : Str :=
  collectionMethods (lit "insert_raw|remove_raw|remove|insert|clear|iter|extend|as_vector" rfl ++
    lit "|keys|values|range|push|pop|replace|swap_remove" rfl)

def regex_observing : Str :=
  collectionMethods (lit "len|is_empty|new|contains|to_vec|get|floor_key|ceil_key" rfl)

def regex_drop : Str := lit "core[0-9]+ptr[0-9]+drop_in_place" rfl

/-- `isa<MemCpyInst>` of a call, by the intrinsic that is called. -/
def isMemCpy (G : Function) : Bool :=
  (lit "llvm.memcpy." rfl).isPrefixOf G.name &&
    !(lit "llvm.memcpy.element.unordered.atomic." rfl).isPrefixOf G.name

/-- The last argument that is the value. -/
def userNo (args : List ValueId) (v : ValueId) : Option Nat :=
  (List.range args.length).foldl (fun no k => if args[k]? = some v then some k else no) none

section

variable (M : AccessModule)

/-- The users of the value, with the value as the one before; a user that is no instruction
is a null pointer. -/
def usersStep (user : ValueId) : Step Use Mode :=
  .go ((M.users user).map fun i => (M.instruction? i).map fun _ => ⟨i, user⟩)

/-- `MemCpyInst` -/
def memcpyStep (x : Use) (i : Instruction) : Step Use Mode :=
  .done (if i.getArgOperand 0 = some x.prevUser then .Write
    else if i.getArgOperand 1 = some x.prevUser then .Read
    else .Unknown)

/-- `CallBase` -/
def callStep (x : Use) (i : Instruction) : Step Use Mode :=
  match M.getCalledFunction i with
  | none => .done .Unknown
  | some G =>
    if isMemCpy G then memcpyStep x i
    else if Regex.matchPattern regex_modifying G.name then .done .Write
    else if Regex.matchPattern regex_observing G.name then .done .Write
    else if Regex.matchPattern regex_drop G.name then .done .Read
    else if Text.contains G.name (lit "clone" rfl) then .done .Read
    else
      match userNo i.args x.prevUser with
      | none => .done .Unknown
      | some no => .go [(G.getArg no).map fun p => ⟨p, x.user⟩]

/-- What `getMode(user, prevUser)` does before it calls itself. -/
def modeStep (x : Use) : Step Use Mode :=
  match M.instruction? x.user with
  | none => usersStep M x.user
  | some i =>
    match i.op with
    | .store .. => .done .Write
    | .call .. => callStep M x i
    | .other _ => if M.isLoad x.user then .done .Read else usersStep M x.user
    | .br .. | .switch .. | .ret .. | .getElementPtr .. => usersStep M x.user

/-- `getMode(user, prevUser)`: the outer `none` when the fuel runs out, the inner one when
a parameter or an instruction is used that is not there. -/
def getMode (n : Nat) (user prevUser : ValueId) : Option (Option Mode) :=
  collect (modeStep M) n ⟨user, prevUser⟩

/-! ## The struct -/

/-- The name in the printed type of a struct, `%NAME = type ...`. -/
def definedStruct (srcMeta : Str) : Option Str :=
  match srcMeta.findIdx? (· == '=') with
  | none => none
  | some k =>
    if 2 ≤ srcMeta.length then
      -- `find('=') - 2` wraps around below two
      let name := if k < 2 then srcMeta.drop 1 else (srcMeta.drop 1).take (k - 2)
      some (name.filter (· != '"'))
    else none

/-- The name in the printed type of a pointer to a struct, `%NAME*`. -/
def pointedStruct (srcMeta : Str) : Option Str :=
  if srcMeta.head? = some '%' ∧ srcMeta.getLast? = some '*' then
    let structName := (srcMeta.drop 1).dropLast
    if structName.getLast? = some '*' then none else some structName
  else none

/-- The struct of the list that an instruction takes a member of. -/
def derefStruct (structs : List Str) (v : ValueId) : Option Str :=
  (match M.instruction? v with
    | some ⟨.getElementPtr sourceElementType _ _, _⟩ => definedStruct sourceElementType
    | some ⟨.other (source :: _), _⟩ =>
      if M.otherClass v = OtherClass.cast then pointedStruct (M.typeName source) else none
    | _ => none).filter structs.contains

/-- The user of a value that has only one, however many uses this one makes of it. -/
def singleUser (v : ValueId) : Option ValueId :=
  match M.users v with
  | [] => none
  | u :: us => if us.all (· == u) then some u else none

/-- What `usingStruct` returns for a mode. -/
def reported : Mode → Mode
  | .RW => .Write
  | m => m

/-- `usingStruct(I, structs)` -/
def usingStruct (structs : List Str) (n : Nat) (v : ValueId) : Option (Option (Str × Mode)) :=
  match derefStruct M structs v with
  | none => some (some ([], .Unknown))
  | some target =>
    match singleUser M v with
    | none => some (some (target, .Unknown))
    | some user => (getMode M n user v).map (Option.map fun mode => (target, reported mode))

/-! ## Uses that read -/

/-- The ways to read through a pointer, or to leave what it points to as it is. -/
inductive ReadKind where
  | load
  | memcpySource
  | collectionMethod
  | drop
  | clone
  /-- The pointer is what is stored. -/
  | storedValue
  deriving DecidableEq

/-- The methods of both patterns that change a collection or make one; the first pattern
has `iter`, `keys` and others as well that do neither. -/
def regex_changing : Str :=
  collectionMethods (lit "insert_raw|remove_raw|remove|insert|clear|extend|push|pop|replace" rfl ++
    lit "|swap_remove|iter_mut|values_mut|get_mut|new" rfl)

/-- How a call reads, if it does. -/
def callKind (x : Use) (i : Instruction) : Option ReadKind :=
  match M.getCalledFunction i with
  | none => none
  | some G =>
    if isMemCpy G then
      if i.getArgOperand 1 = some x.prevUser ∧ i.getArgOperand 0 ≠ some x.prevUser then
        some .memcpySource
      else none
    else if Regex.matchPattern regex_modifying G.name ||
        Regex.matchPattern regex_observing G.name then
      if Regex.matchPattern regex_changing G.name then none else some .collectionMethod
    else if Regex.matchPattern regex_drop G.name then some .drop
    else if Text.contains G.name (lit "clone" rfl) then some .clone
    else none

/-- How a use reads, if it does. -/
def readKind (x : Use) : Option ReadKind :=
  match M.instruction? x.user with
  | none => none
  | some i =>
    match i.op with
    | .store value pointer =>
      if value = x.prevUser ∧ pointer ≠ x.prevUser then some .storedValue else none
    | .call .. => callKind M x i
    | .other _ => if M.isLoad x.user then some .load else none
    | .br .. | .switch .. | .ret .. | .getElementPtr .. => none

/-- Does a use read? -/
def Reads (x : Use) : Prop := (readKind M x).isSome

/-- The mode that `getMode` gives to a way of reading. -/
def ReadKind.mode : ReadKind → Mode
  | .collectionMethod | .storedValue => .Write
  | .load | .memcpySource | .drop | .clone => .Read

/-- All uses that the pointer comes to read it, or make a value that is not used. -/
def OnlyReads (x : Use) : Prop := Finishes (modeStep M) (Reads M) x

/-- The pointer comes to a use. -/
def ComesTo (x y : Use) : Prop := Reach (events (modeStep M)) x y

end

variable {M : AccessModule}

theorem callStep_of_callKind {x : Use} {i : Instruction} {kind : ReadKind}
    (h : callKind M x i = some kind) : callStep M x i = .done kind.mode := by
  rw [callKind] at h
  rw [callStep]
  cases hG : M.getCalledFunction i with
  | none =>
    rw [hG] at h
    cases h
  | some G =>
    simp only [hG] at h ⊢
    by_cases hmemcpy : isMemCpy G = true
    · rw [if_pos hmemcpy] at h ⊢
      split at h
      · rename_i hsource
        rw [← Option.some.inj h, memcpyStep, if_neg hsource.2, if_pos hsource.1]
        rfl
      · cases h
    rw [if_neg hmemcpy] at h ⊢
    by_cases hmethod : (Regex.matchPattern regex_modifying G.name ||
        Regex.matchPattern regex_observing G.name) = true
    · rw [if_pos hmethod] at h
      have hwrite : kind.mode = .Write := by
        split at h
        · cases h
        · rw [← Option.some.inj h]
          rfl
      rw [hwrite]
      rcases (Bool.or_eq_true _ _).mp hmethod with hmodifying | hobserving
      · rw [if_pos hmodifying]
      · rw [if_pos hobserving, ite_self]
    rw [if_neg hmethod] at h
    rw [Bool.or_eq_true, not_or] at hmethod
    rw [if_neg hmethod.1, if_neg hmethod.2]
    by_cases hdrop : Regex.matchPattern regex_drop G.name = true
    · rw [if_pos hdrop] at h ⊢
      rw [← Option.some.inj h]
      rfl
    rw [if_neg hdrop] at h ⊢
    split at h
    · rename_i hclone
      rw [if_pos hclone, ← Option.some.inj h]
      rfl
    · cases h

theorem modeStep_of_readKind {x : Use} {kind : ReadKind} (h : readKind M x = some kind) :
    modeStep M x = .done kind.mode := by
  rw [readKind] at h
  rw [modeStep]
  cases hi : M.instruction? x.user with
  | none =>
    rw [hi] at h
    cases h
  | some i =>
    rw [hi] at h
    cases hop : i.op with
    | store value pointer =>
      simp only [hop] at h ⊢
      split at h
      · rw [← Option.some.inj h]
        rfl
      · cases h
    | call args extra called typed =>
      simp only [hop] at h ⊢
      exact callStep_of_callKind h
    | other operands =>
      simp only [hop] at h ⊢
      split at h
      · rename_i hload
        rw [if_pos hload, ← Option.some.inj h]
        rfl
      · cases h
    | br | switch | ret | getElementPtr =>
      simp only [hop] at h
      cases h

/-- Where all uses read, the mode is `Read` exactly when none of them is taken for a
write. -/
theorem mode_eq_Read_iff {x : Use} (honly : OnlyReads M x)
    (hread : ∃ y, ComesTo M x y ∧ Reads M y) {n : Nat} {m : Mode}
    (hm : collect (modeStep M) n x = some (some m)) :
    m = .Read ↔ ∀ y, ComesTo M x y →
      readKind M y ≠ some .collectionMethod ∧ readKind M y ≠ some .storedValue := by
  have hleaf : ∀ y, ComesTo M x y → ∀ b, modeStep M y = .done b →
      ∃ kind, readKind M y = some kind ∧ b = kind.mode := by
    intro y hy b hb
    obtain ⟨kind, hkind⟩ := Option.isSome_iff_exists.1 ((honly.reach hy).of_done hb)
    rw [modeStep_of_readKind hkind, Step.done.injEq] at hb
    exact ⟨kind, hkind, hb.symm⟩
  have hupper : m ≤ .Read ↔ ∀ y, ComesTo M x y →
      readKind M y ≠ some .collectionMethod ∧ readKind M y ≠ some .storedValue := by
    rw [JoinSearch.collect_le_iff hm]
    constructor
    · intro hall y hy
      constructor
      · intro hkind
        exact absurd (hall y _ hy (modeStep_of_readKind hkind)) (by rw [Mode.le_iff]; decide)
      · intro hkind
        exact absurd (hall y _ hy (modeStep_of_readKind hkind)) (by rw [Mode.le_iff]; decide)
    · intro hall y b hy hb
      obtain ⟨kind, hkind, rfl⟩ := hleaf y hy b hb
      obtain ⟨hmethod, hstored⟩ := hall y hy
      rw [Mode.le_iff]
      cases kind with
      | collectionMethod => exact absurd hkind hmethod
      | storedValue => exact absurd hkind hstored
      | load | memcpySource | drop | clone => rfl
  rw [Mode.eq_Read_iff, hupper, and_iff_left_iff_imp]
  intro hall
  obtain ⟨y, hy, hreads⟩ := hread
  obtain ⟨kind, hkind⟩ := Option.isSome_iff_exists.1 hreads
  have hmode : kind.mode = .Read := by
    obtain ⟨hmethod, hstored⟩ := hall y hy
    cases kind with
    | collectionMethod => exact absurd hkind hmethod
    | storedValue => exact absurd hkind hstored
    | load | memcpySource | drop | clone => rfl
  rw [← hmode]
  exact (JoinSearch.collect_le_iff hm m).1 le_rfl y _ hy (modeStep_of_readKind hkind)

theorem usingStruct_eq {structs : List Str} {v user : ValueId} {target : Str}
    (htarget : derefStruct M structs v = some target) (huser : singleUser M v = some user)
    (n : Nat) : usingStruct M structs n v
      = (getMode M n user v).map (Option.map fun mode => (target, reported mode)) := by
  rw [usingStruct, htarget]
  dsimp only
  rw [huser]

theorem reported_eq_Read_iff {m : Mode} : reported m = .Read ↔ m = .Read := by
  cases m <;> decide

/-- A struct whose member is only read is reported as read, and not as written, exactly
when no use calls a method of a collection and none stores the pointer. -/
theorem reads_reported_iff (M : AccessModule) (structs : List Str) {v user : ValueId}
    {target : Str} (htarget : derefStruct M structs v = some target)
    (huser : singleUser M v = some user) (honly : OnlyReads M ⟨user, v⟩)
    (hread : ∃ y, ComesTo M ⟨user, v⟩ y ∧ Reads M y) :
    ((∃ n, usingStruct M structs n v = some (some (target, .Read))) ∧
        ∀ n, usingStruct M structs n v ≠ some (some (target, .Write))) ↔
      ∀ y, ComesTo M ⟨user, v⟩ y →
        readKind M y ≠ some .collectionMethod ∧ readKind M y ≠ some .storedValue := by
  obtain ⟨n, m, hm⟩ := honly.collects
  have hresult : ∀ k r, usingStruct M structs k v = some (some r) → r = (target, reported m) := by
    intro k r hr
    rw [usingStruct_eq htarget huser, Option.map_eq_some_iff] at hr
    obtain ⟨o, ho, heq⟩ := hr
    rw [Option.map_eq_some_iff] at heq
    obtain ⟨m', rfl, rfl⟩ := heq
    rw [JoinSearch.collect_unique ho hm]
  have hn : usingStruct M structs n v = some (some (target, reported m)) := by
    rw [usingStruct_eq htarget huser, getMode, hm]
    rfl
  rw [← mode_eq_Read_iff honly hread hm, ← reported_eq_Read_iff]
  constructor
  · rintro ⟨⟨k, hk⟩, -⟩
    exact (Prod.mk.inj (hresult k _ hk)).2.symm
  · intro hmode
    rw [hmode] at hn hresult
    refine ⟨⟨n, hn⟩, fun k hk => ?_⟩
    cases hresult k _ hk

/-- A contract whose balance is loaded, dropped, and loaded by a function it is handed to. -/
def peekModule : AccessModule where
  values :=
    [.function, .function, .argument, .argument,
     .instruction ⟨.getElementPtr (lit "%Token = type \x7b i128 \x7d" rfl) 2 [], none⟩,
     .instruction ⟨.other [4], none⟩,
     .instruction ⟨.other [5], none⟩,
     .instruction ⟨.call [5] [] 1 true, none⟩,
     .instruction ⟨.call [5] [] 0 true, none⟩,
     .instruction ⟨.other [3], none⟩]
  functions :=
    [⟨lit "_ZN5token5Token4peek17h1E" rfl, 0, [3], [⟨lit "start" rfl, [9]⟩]⟩,
     ⟨lit "_ZN4core3ptr13drop_in_place17h2E" rfl, 1, [], []⟩]
  users := useList _
  users_perm := fun _ => .refl _
  operands_lt := by decide
  params_lt := by decide
  names_nodup := by decide
  functions_nodup := by decide
  otherClass _ := .rest
  typeName _ := []
  printed _ := []
  isInt128 _ := false
  constantInt _ := none
  isLoad v := v == 6 || v == 9

/-- The uses of the cast that are read. -/
theorem peekModule_read :
    ∀ x ∈ [(⟨6, 5⟩ : Use), ⟨7, 5⟩, ⟨9, 3⟩], ∃ kind, readKind peekModule x = some kind ∧
      (kind = .load ∨ kind = .drop) := by
  have hload : readKind peekModule ⟨6, 5⟩ = some .load := by decide +kernel
  have hdrop : readKind peekModule ⟨7, 5⟩ = some .drop := by decide +kernel
  have hload' : readKind peekModule ⟨9, 3⟩ = some .load := by decide +kernel
  intro x hx
  simp only [List.mem_cons, List.not_mem_nil, or_false] at hx
  rcases hx with rfl | rfl | rfl
  · exact ⟨_, hload, Or.inl rfl⟩
  · exact ⟨_, hdrop, Or.inr rfl⟩
  · exact ⟨_, hload', Or.inl rfl⟩

theorem peekModule_finishes : OnlyReads peekModule ⟨5, 4⟩ := by
  have hleaf : ∀ x ∈ [(⟨6, 5⟩ : Use), ⟨7, 5⟩, ⟨9, 3⟩], OnlyReads peekModule x := by
    intro x hx
    obtain ⟨kind, hkind, -⟩ := peekModule_read x hx
    exact .leaf (modeStep_of_readKind hkind) (Option.isSome_iff_exists.2 ⟨kind, hkind⟩)
  have hparam : OnlyReads peekModule ⟨3, 8⟩ := by
    have hstep : modeStep peekModule ⟨3, 8⟩ = .go [some ⟨9, 3⟩] := by decide +kernel
    refine .go hstep (by simp) fun l hl => ?_
    obtain rfl : l = ⟨9, 3⟩ := by simpa using hl
    exact hleaf _ (by simp)
  have hcall : OnlyReads peekModule ⟨8, 5⟩ := by
    have hstep : modeStep peekModule ⟨8, 5⟩ = .go [some ⟨3, 8⟩] := by decide +kernel
    refine .go hstep (by simp) fun l hl => ?_
    obtain rfl : l = ⟨3, 8⟩ := by simpa using hl
    exact hparam
  have hstep : modeStep peekModule ⟨5, 4⟩ = .go [some ⟨6, 5⟩, some ⟨7, 5⟩, some ⟨8, 5⟩] := by
    decide +kernel
  refine .go hstep (by simp) fun l hl => ?_
  simp only [List.mem_cons, Option.some.injEq, List.not_mem_nil, or_false] at hl
  rcases hl with rfl | rfl | rfl
  · exact hleaf _ (by simp)
  · exact hleaf _ (by simp)
  · exact hcall

theorem reads_reported_iff_peekModule :
    ((∃ n, usingStruct peekModule [lit "Token" rfl] n 4
          = some (some (lit "Token" rfl, .Read))) ∧
        ∀ n, usingStruct peekModule [lit "Token" rfl] n 4
          ≠ some (some (lit "Token" rfl, .Write))) ↔
      ∀ y, ComesTo peekModule ⟨5, 4⟩ y → readKind peekModule y ≠ some .collectionMethod ∧
        readKind peekModule y ≠ some .storedValue := by
  have hread : readKind peekModule ⟨6, 5⟩ = some .load := by decide +kernel
  have hstep : some ⟨6, 5⟩ ∈ (modeStep peekModule ⟨5, 4⟩).next := by decide +kernel
  exact reads_reported_iff peekModule [lit "Token" rfl] (by decide +kernel) (by decide +kernel)
    peekModule_finishes ⟨⟨6, 5⟩, .single (JoinSearch.follows_iff.2 hstep),
      Option.isSome_iff_exists.2 ⟨_, hread⟩⟩

/-- `len` of a set of accounts. -/
def lenOfSet : Function :=
  ⟨lit "_ZN8near_sdk11collections13unordered_set21UnorderedSet$LT$T$GT$3len17h1E" rfl, 0, [],
    []⟩

/-- A contract that asks for the number of its accounts. -/
def lenModule : AccessModule where
  values :=
    [.function, .argument,
     .instruction ⟨.getElementPtr (lit "%Token = type \x7b i128 \x7d" rfl) 1 [], none⟩,
     .instruction ⟨.call [2] [] 0 true, none⟩]
  functions := [lenOfSet]
  users := useList _
  users_perm := fun _ => .refl _
  operands_lt := by decide
  params_lt := by decide
  names_nodup := by decide
  functions_nodup := by decide
  otherClass _ := .rest
  typeName _ := []
  printed _ := []
  isInt128 _ := false
  constantInt _ := none
  isLoad _ := false

/-- The call only reads, and is reported as a write. -/
theorem len_reported_as_write :
    ¬ ∀ (M : AccessModule) (structs : List Str) (v user : ValueId) (target : Str),
      derefStruct M structs v = some target → singleUser M v = some user →
      OnlyReads M ⟨user, v⟩ → (∃ y, ComesTo M ⟨user, v⟩ y ∧ Reads M y) →
      (∃ n, usingStruct M structs n v = some (some (target, .Read))) ∧
        ∀ n, usingStruct M structs n v ≠ some (some (target, .Write)) := by
  intro h
  have hkind : readKind lenModule ⟨3, 2⟩ = some .collectionMethod := by decide +kernel
  have hreads : Reads lenModule ⟨3, 2⟩ := Option.isSome_iff_exists.2 ⟨_, hkind⟩
  have hwrite : usingStruct lenModule [lit "Token" rfl] 1 2
      = some (some (lit "Token" rfl, .Write)) := by decide +kernel
  obtain ⟨-, hnever⟩ := h lenModule [lit "Token" rfl] 2 3 (lit "Token" rfl) (by decide +kernel)
    (by decide +kernel) (.leaf (modeStep_of_readKind hkind) hreads) ⟨⟨3, 2⟩, .refl, hreads⟩
  exact hnever 1 hwrite

/-! ## When the recursion ends -/

/-- The recursion goes on from a use to another. -/
def GoesOn (M : AccessModule) (x y : Use) : Prop := Explores (events (modeStep M)) x y

theorem usersStep_lt {y : Use} {v : ValueId} (h : some y ∈ (usersStep M v).next) :
    y.user < M.values.length ∧ y.prevUser = v := by
  obtain ⟨u, hu, hmap⟩ := List.mem_map.1 h
  obtain ⟨-, -, rfl⟩ := Option.map_eq_some_iff.1 hmap
  exact ⟨M.users_lt hu, rfl⟩

/-- Only the other branch goes on. -/
theorem mem_next_of_ite {c : Prop} [Decidable c] {r : Mode} {s : Step Use Mode} {y : Option Use}
    (h : y ∈ (if c then .done r else s).next) : y ∈ s.next := by
  split at h
  · exact absurd h List.not_mem_nil
  · exact h

theorem callStep_lt {x y : Use} {i : Instruction} (h : some y ∈ (callStep M x i).next) :
    y.user < M.values.length ∧ y.prevUser = x.user := by
  rw [callStep] at h
  cases hG : M.getCalledFunction i with
  | none =>
    rw [hG] at h
    exact absurd h List.not_mem_nil
  | some G =>
    simp only [hG] at h
    have hlast := mem_next_of_ite (mem_next_of_ite (mem_next_of_ite (mem_next_of_ite
      (mem_next_of_ite h))))
    cases hno : userNo i.args x.prevUser with
    | none =>
      rw [hno] at hlast
      exact absurd hlast List.not_mem_nil
    | some no =>
      rw [hno] at hlast
      obtain ⟨p, hp, rfl⟩ := Option.map_eq_some_iff.1 (List.mem_singleton.1 hlast).symm
      exact ⟨M.params_lt G (M.mem_functions_of_getCalledFunction hG) p
        (List.mem_of_getElem? hp), rfl⟩

theorem next_lt {x y : Use} (h : some y ∈ (modeStep M x).next) :
    y.user < M.values.length ∧ y.prevUser = x.user := by
  rw [modeStep] at h
  cases hi : M.instruction? x.user with
  | none =>
    rw [hi] at h
    exact usersStep_lt h
  | some i =>
    rw [hi] at h
    cases hop : i.op with
    | store =>
      simp only [hop] at h
      exact absurd h List.not_mem_nil
    | call =>
      simp only [hop] at h
      exact callStep_lt h
    | other =>
      simp only [hop] at h
      split at h
      · exact absurd h List.not_mem_nil
      · exact usersStep_lt h
    | br | switch | ret | getElementPtr =>
      simp only [hop] at h
      exact usersStep_lt h
/-- What has a user lies in the table. -/
theorem used_lt {u v : ValueId} (h : u ∈ M.users v) : v < M.values.length := by
  have hmem := (M.users_perm v).subset h
  rw [useList] at hmem
  obtain ⟨w, -, hu⟩ := List.mem_flatMap.1 hmem
  split at hu
  · rename_i value hvalue
    obtain ⟨v', hv', -⟩ := List.mem_map.1 hu
    rw [List.mem_filter, beq_iff_eq] at hv'
    rw [← hv'.2]
    exact M.operands_lt value (List.mem_of_getElem? hvalue) v' hv'.1
  · exact absurd hu List.not_mem_nil

theorem user_lt_of_next {x y : Use} (h : some y ∈ (modeStep M x).next) :
    x.user < M.values.length := by
  cases hi : M.instruction? x.user with
  | some i => exact M.instruction?_lt hi
  | none =>
    rw [modeStep, hi] at h
    obtain ⟨u, hu, -⟩ := List.mem_map.1 h
    exact used_lt hu

theorem uses_finite (n : Nat) : {x : Use | x.user < n ∧ x.prevUser < n}.Finite := by
  refine Set.Finite.subset
    (((List.range n).product (List.range n)).map fun p => Use.mk p.1 p.2).finite_toSet ?_
  intro x hx
  exact List.mem_map.2 ⟨(x.user, x.prevUser),
    List.mem_product.2 ⟨List.mem_range.2 hx.1, List.mem_range.2 hx.2⟩, rfl⟩

/-- From one use, the recursion ends exactly when the uses it goes on to do not come
around. -/
theorem getMode_ends_iff (M : AccessModule) (user prevUser : ValueId) :
    (∃ n r, getMode M n user prevUser = some r) ↔
      ¬ ∃ y, ReflTransGen (GoesOn M) ⟨user, prevUser⟩ y ∧ TransGen (GoesOn M) y y :=
  JoinSearch.terminates_iff_no_cycle (uses_finite M.values.length)
    (fun _ _ hy => ⟨(next_lt hy).1, (next_lt hy).2 ▸ user_lt_of_next hy⟩) ⟨user, prevUser⟩

/-- On the uses of the pointers to members, the recursion ends exactly when none of them
leads to a use that leads to itself. -/
theorem getMode_terminates_iff (M : AccessModule) (structs : List Str) :
    (∀ v target user, derefStruct M structs v = some target → user ∈ M.users v →
        ∃ n r, getMode M n user v = some r) ↔
      ∀ v target user, derefStruct M structs v = some target → user ∈ M.users v →
        ¬ ∃ y, ReflTransGen (GoesOn M) ⟨user, v⟩ y ∧ TransGen (GoesOn M) y y := by
  refine forall_congr' fun v => forall_congr' fun target => forall_congr' fun user => ?_
  refine forall_congr' fun _ => forall_congr' fun _ => ?_
  exact getMode_ends_iff M user v

/-- A pointer to a member that moves on in a loop. -/
def loopModule : AccessModule where
  values :=
    [.argument,
     .instruction ⟨.getElementPtr (lit "%Token = type \x7b i128 \x7d" rfl) 0 [], none⟩,
     -- `phi` of the pointer and of the one behind it
     .instruction ⟨.other [1, 3], none⟩,
     .instruction ⟨.getElementPtr (lit "i128" rfl) 2 [], none⟩]
  functions := []
  users := useList _
  users_perm := fun _ => .refl _
  operands_lt := by decide
  params_lt := by decide
  names_nodup := by decide
  functions_nodup := by decide
  otherClass _ := .rest
  typeName _ := []
  printed _ := []
  isInt128 _ := false
  constantInt _ := none
  isLoad _ := false

/-- The recursion goes around the loop for ever. -/
theorem loop_never_ends :
    ¬ ∀ (M : AccessModule) (structs : List Str) (v : ValueId) (target : Str) (user : ValueId),
      derefStruct M structs v = some target → user ∈ M.users v →
      ∃ n r, getMode M n user v = some r := by
  intro h
  have hend := h loopModule [lit "Token" rfl] 1 (lit "Token" rfl) 2 (by decide +kernel)
    (by decide +kernel)
  rw [getMode_ends_iff] at hend
  -- a use with one next use goes on to it
  have hgo : ∀ {x y : Use}, (modeStep loopModule x).next = [some y] → GoesOn loopModule x y := by
    intro x y hxy
    refine ⟨[], [], ?_, fun e he => absurd he List.not_mem_nil⟩
    rw [events, hxy]
    rfl
  have hin : GoesOn loopModule ⟨2, 1⟩ ⟨3, 2⟩ := hgo rfl
  have hback : GoesOn loopModule ⟨3, 2⟩ ⟨2, 3⟩ := hgo rfl
  have hround : GoesOn loopModule ⟨2, 3⟩ ⟨3, 2⟩ := hgo rfl
  exact hend ⟨⟨3, 2⟩, .single hin, .tail (.single hback) hround⟩

end NearCore
