import Rustle.Pass.ComplexLoop
import Rustle.Pass.UnclaimedStorageFee
import Rustle.Pass.UnhandledPromise

/-!
# Functions and locations that are not there

* `UsesNull` — a pass uses a function or a location that is null.
* `never_null_iff` — when `unhandled-promise`, `unclaimed-storage-fee` and
  `complex-loop` do **not**.
-/

namespace NullSafety

open Llvm NearCore FaultyLoop
open Text (lit)

/-- The pass uses a null function or a null location. -/
def UsesNull {α : Type} (run : Except Fault α) : Prop :=
  run = .error .nullFunction ∨ run = .error .nullLocation

/-- `unhandled-promise` breaks down on the first call with a promise that some
indirect call uses before any call of a method does. -/
theorem unhandledPromise_usesNull_iff (M : TypedModule) (F : Function) :
    UsesNull (UnhandledPromise.runOnFunction M F) ↔
      Reaches (fun p => ¬ UnhandledPromise.Fails M F p) (UnhandledPromise.MeetsIndirect M F)
        (F.instructions M.toModule) := by
  unfold UsesNull UnhandledPromise.runOnFunction
  rw [if_neg (by simp), map_eq_error_iff, map_eq_error_iff]
  have hlocation : (F.instructions M.toModule).mapM (UnhandledPromise.promiseLines M F) ≠
      .error .nullLocation := by
    intro h
    obtain ⟨p, -, hp⟩ := (mapM_eq_error_iff.1 h).exists_mem
    exact UnhandledPromise.promiseLines_ne_nullLocation M F p hp
  rw [or_iff_left hlocation, mapM_eq_error_iff]
  simp only [UnhandledPromise.exists_promiseLines_iff, UnhandledPromise.promiseLines_eq_error_iff]

/-- `unclaimed-storage-fee` breaks down on a `storage_unregister` where an indirect
call comes before any comparison with zero. -/
theorem unclaimedStorageFee_usesNull_iff (M : TypedModule) :
    UsesNull (UnclaimedStorageFee.runOnModule M) ↔
      ∃ F ∈ M.functions, UnclaimedStorageFee.isStorageUnregister F = true ∧
        UnclaimedStorageFee.MeetsNull M 3 (some F) := by
  simp [UsesNull, UnclaimedStorageFee.runOnModule_eq_error_iff]

/-- `complex-loop` breaks down on a loop of the project without a location. -/
theorem complexLoop_usesNull_iff (M : Module) (L : ComplexLoop.Loop) :
    UsesNull (ComplexLoop.runOnLoop M L) ↔
      Regex.matchPattern regexForLibFunc L.parent.name = false ∧ L.startLoc = none := by
  simp [UsesNull, ComplexLoop.runOnLoop_eq_error_iff]

/-- The three passes never use what is null exactly when they do not come to an
indirect call that they do not ask about, or to a loop without location. -/
theorem never_null_iff (M : TypedModule) :
    (∀ F, ¬ UsesNull (UnhandledPromise.runOnFunction M F) ↔
      ¬ Reaches (fun p => ¬ UnhandledPromise.Fails M F p) (UnhandledPromise.MeetsIndirect M F)
        (F.instructions M.toModule)) ∧
    (¬ UsesNull (UnclaimedStorageFee.runOnModule M) ↔
      ∀ F ∈ M.functions, UnclaimedStorageFee.isStorageUnregister F = true →
        ¬ UnclaimedStorageFee.MeetsNull M 3 (some F)) ∧
    (∀ L, ¬ UsesNull (ComplexLoop.runOnLoop M.toModule L) ↔
      (Regex.matchPattern regexForLibFunc L.parent.name = true ∨ L.startLoc ≠ none)) := by
  refine ⟨fun F => ?_, ?_, fun L => ?_⟩
  · rw [unhandledPromise_usesNull_iff]
  · rw [unclaimedStorageFee_usesNull_iff]
    simp
  · rw [complexLoop_usesNull_iff, not_and_or, Bool.not_eq_false]

/-- `storage_unregister` of a contract that hands a promise to a callback: the last
call is indirect. -/
def storageUnregister : Function :=
  ⟨lit "_ZN4bank4Bank18storage_unregister17h1E" rfl, 0, [2], [⟨lit "start" rfl, [6, 7]⟩]⟩

def callbackModule : TypedModule where
  values :=
    [.function, .function, .argument, .instruction ⟨.other [], none⟩,
     .instruction ⟨.other [], none⟩, .instruction ⟨.other [], none⟩,
     .instruction ⟨.call [3, 4] [] 1 true, some ⟨lit "src/lib.rs" rfl, 20⟩⟩,
     .instruction ⟨.call [3] [] 5 true, some ⟨lit "src/lib.rs" rfl, 21⟩⟩,
     .argument, .argument]
  functions :=
    [storageUnregister, ⟨lit "_ZN4bank9ext_token6notify17h2E" rfl, 1, [8, 9], []⟩]
  users := useList _
  users_perm := fun _ => .refl _
  operands_lt := by decide
  params_lt := by decide
  names_nodup := by decide +kernel
  functions_nodup := by decide
  otherClass _ := .unary
  typeName _ := []
  printed v := if v = 3 then lit "alloca %\"near_sdk::promise::Promise\", align 8" rfl else []
  isInt128 _ := false
  constantInt _ := none

/-- A loop of the function, without location. -/
def strippedLoop : ComplexLoop.Loop := ⟨storageUnregister, [], none⟩

/-- All three passes break down on the function. -/
theorem indirect_call_used :
    UsesNull (UnhandledPromise.runOnFunction callbackModule storageUnregister) ∧
      UsesNull (UnclaimedStorageFee.runOnModule callbackModule) ∧
      UsesNull (ComplexLoop.runOnLoop callbackModule.toModule strippedLoop) := by
  refine ⟨Or.inl ?_, Or.inl ?_, Or.inr ?_⟩
  · decide +kernel
  · decide +kernel
  · decide +kernel

end NullSafety
