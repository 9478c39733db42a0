import Rustle.Audit.Driver
import Rustle.Library.Directory
import Rustle.Library.Prerequisites
import Rustle.Pass.Callback
import Rustle.Pass.ExtCall

/-!
# The rules of the Makefile

Each detector is a target.  Its recipe removes its log and writes it anew, but
for two: nothing removes the log of `round`, and that of `ext-call` is removed by
the target `ext-call-trait`, whose own log is never removed.

* `TmpFile`, `Target`, `rules`, `recipe` — the files, the targets, what they need
  and what they do.
* `make` — one invocation; `make_writes` — the files it may change.
* `remakes` — what a detector leaves in its log depends on nothing that was there.
-/

namespace Audit.Makefile

open Llvm NearCore Directory
open Text (lit unlines mapLines)

/-! ## Files and targets -/

/-- The files of the log directory that recipes write. -/
inductive TmpFile where
  | log (D : Detector)
  | callback | extCallTrait | allCall | structs | structMembers | unsafeMathToml
  | packagesName
  deriving DecidableEq, Repr

inductive Target where
  | detector (D : Detector)
  | tgIr | callback | extCallTrait | allCall | findStruct
  deriving DecidableEq, Repr

/-- What stands behind the colon of a target. -/
def prerequisites : Target → List Target
  | .tgIr | .findStruct => []
  | .callback | .extCallTrait | .allCall => [.tgIr]
  | .detector (.finder d) =>
    match d with
    | .extCall => [.tgIr, .extCallTrait]
    | .yoctoAttach => [.tgIr, .callback]
    | .unusedRet => [.allCall]
    | .lockCallback | .nonCallbackPrivate | .nonPrivateCallback => [.callback]
    | .incorrectJsonType => [.findStruct]
    | .tautology | .publicInterface => []
    | _ => [.tgIr]
  | .detector .inconsistency | .detector .dupCollectionId => []
  | .detector (.nepInterface _) => [.tgIr]

def rank : Target → Nat
  | .tgIr | .findStruct => 0
  | .callback | .extCallTrait | .allCall => 1
  | .detector _ => 2

def rules : Prerequisites.Rules Target where
  prerequisites := prerequisites
  rank := rank
  rank_lt := by
    intro t
    cases t with
    | detector D =>
      cases D with
      | finder d => cases d <;> decide
      | inconsistency => decide
      | dupCollectionId => decide
      | nepInterface n => cases n <;> decide
    | tgIr => decide
    | callback => decide
    | extCallTrait => decide
    | allCall => decide
    | findStruct => decide

/-! ## Tools -/

/-- A module of the contract, with its call graph. -/
structure Bitcode where
  M : Module
  CG : CallGraph

/-- The tools that the recipes run, on one contract. -/
structure Tools where
  /-- The modules listed in `.bitcodes.tmp`. -/
  bitcodes : List Bitcode
  /-- `rustfilt` on one line. -/
  demangle : Str → Str
  /-- `json.load` on the log of `inconsistency`. -/
  jsonLoad : Str → Option (List (Str × List Str))
  /-- The lines that a pass writes which reads no log. -/
  pass : Detector → Bitcode → List Str
  allCall : Bitcode → List Str
  /-- `getPackagesName.py` -/
  getPackagesName : Str × Bool
  /-- `findStruct.py`: its two logs, and whether it ends without an exception. -/
  findStruct : Str × Str × Bool
  /-- `unsafe-math-toml.py` -/
  unsafeMathToml : Option Str × Bool
  /-- The detectors in Python, given the log they read. -/
  python : Detector → Option Str → Option Str × Bool

variable (T : Tools)

/-- `rustfilt` on a file. -/
def Tools.rustfilt : Str → Str := mapLines T.demangle

/-- What `yocto-attach` adds to its log for a module. -/
def yoctoAttach (b : Bitcode) (callbacks : Option Str) : Str :=
  unlines ((YoctoAttach.runOnModule b.M b.CG
    (YoctoAttach.loadCallbacks (callbacks.getD []))).map Callback.line)

/-- `F.getName() << "@" << getFilename() << "@" << getLine()` -/
def siteLine (site : Str × Str × Nat) : Str :=
  logLine [site.1, site.2.1, Text.decimal site.2.2]

/-- What `ext-call` adds to its log for a module. -/
def extCall (b : Bitcode) (traits : Option Str) : Str :=
  unlines ((ExtCall.runOnModule b.M (ExtCall.loadTraits (traits.getD []))).map siteLine)

/-- `cat .bitcodes.tmp | xargs -I {} opt -load detectors/x.so -x {} -o /dev/null` -/
def Tools.opt : Detector → Command TmpFile Char
  | .finder .yoctoAttach => .append (.log (.finder .yoctoAttach)) [.callback]
      (T.bitcodes.map fun b contents => yoctoAttach b (contents.headD none))
  | .finder .extCall => .append (.log (.finder .extCall)) [.extCallTrait]
      (T.bitcodes.map fun b contents => extCall b (contents.headD none))
  | D => .append (.log D) [] (T.bitcodes.map fun b _ => unlines (T.pass D b))

/-- `python3 ./detectors/x.py`, with the log that it reads -/
def Tools.script (D : Detector) (read : Option TmpFile) : Command TmpFile Char :=
  .script (.log D) read.toList fun contents => T.python D (contents.headD none)

/-- The log of a detector. -/
def clear (D : Detector) : Command TmpFile Char := .remove [.log D]

/-- The recipe of a detector. -/
def Tools.detectorRecipe : Detector → List (Command TmpFile Char)
  | .finder .round => [T.opt (.finder .round)]
  | .finder .extCall => [T.opt (.finder .extCall)]
  | .finder .unsafeMath =>
    [.remove [.log (.finder .unsafeMath), .unsafeMathToml],
      .script .unsafeMathToml [] fun _ => T.unsafeMathToml,
      T.opt (.finder .unsafeMath)]
  | .finder .lockCallback =>
    [clear (.finder .lockCallback), .rewrite .callback T.rustfilt,
      T.script (.finder .lockCallback) (some .callback)]
  | .finder .nonCallbackPrivate =>
    [clear (.finder .nonCallbackPrivate), .rewrite .callback T.rustfilt,
      T.script (.finder .nonCallbackPrivate) (some .callback)]
  | .finder .nonPrivateCallback =>
    [clear (.finder .nonPrivateCallback), .rewrite .callback T.rustfilt,
      T.script (.finder .nonPrivateCallback) (some .callback)]
  | .finder .unusedRet =>
    [clear (.finder .unusedRet), .rewrite .allCall T.rustfilt,
      T.script (.finder .unusedRet) (some .allCall)]
  | .finder .incorrectJsonType =>
    [clear (.finder .incorrectJsonType), T.script (.finder .incorrectJsonType) (some .structMembers)]
  | .finder .tautology => [clear (.finder .tautology), T.script (.finder .tautology) none]
  | .finder .publicInterface =>
    [clear (.finder .publicInterface), T.script (.finder .publicInterface) none]
  | .inconsistency => [clear .inconsistency, T.script .inconsistency none]
  | .dupCollectionId => [clear .dupCollectionId, T.script .dupCollectionId none]
  | D => [clear D, T.opt D]

def Tools.recipe : Target → List (Command TmpFile Char)
  | .tgIr =>
    [.create .packagesName,
      .script .packagesName [] fun _ => (some T.getPackagesName.1, T.getPackagesName.2)]
  | .callback =>
    [.remove [.callback],
      .append .callback [] (T.bitcodes.map fun b _ => Callback.log b.M)]
  | .extCallTrait =>
    [.remove [.log (.finder .extCall)],
      .append .extCallTrait [] (T.bitcodes.map fun b _ => ExtCallTrait.log b.M)]
  | .allCall =>
    [.remove [.allCall], .append .allCall [] (T.bitcodes.map fun b _ => unlines (T.allCall b))]
  | .findStruct =>
    [.create .structMembers, .create .structs,
      .script .structs [] fun _ => (some T.findStruct.2.1, true),
      .script .structMembers [] fun _ => (some T.findStruct.1, T.findStruct.2.2)]
  | .detector D => T.detectorRecipe D

/-- `make`: the recipes of the plan for some goals; the first that fails ends it. -/
def Tools.make (goals : List Target) (d : Dir TmpFile Char) : Dir TmpFile Char × Bool :=
  run ((Prerequisites.plan rules goals).flatMap T.recipe) d

/-! ## The files of a detector -/

/-- The targets made before a detector. -/
def before (D : Detector) : List Target :=
  (Prerequisites.plan rules [.detector D]).dropLast

theorem plan_detector (D : Detector) :
    Prerequisites.plan rules [.detector D] = before D ++ [.detector D] := by
  cases D with
  | finder d => cases d <;> rfl
  | inconsistency => rfl
  | dupCollectionId => rfl
  | nepInterface n => rfl

theorem make_detector (D : Detector) (d : Dir TmpFile Char) :
    T.make [.detector D] d = run ((before D).flatMap T.recipe ++ T.recipe (.detector D)) d := by
  rw [Tools.make, plan_detector, List.flatMap_append, List.flatMap_singleton]

/-- Do the recipes write logs of findings other than that of `D`? -/
def onlyLog (D : Detector) (cs : List (Command TmpFile Char)) : Bool :=
  cs.all fun c => c.writes.all fun
    | .log D' => D' = D
    | _ => true

theorem onlyLog_detector (D : Detector) :
    onlyLog D ((before D).flatMap T.recipe ++ T.recipe (.detector D)) = true := by
  cases D with
  | finder d => cases d <;> rfl
  | inconsistency => rfl
  | dupCollectionId => rfl
  | nepInterface n => cases n <;> rfl

/-- A detector leaves the logs of the others alone. -/
theorem make_other {D D' : Detector} (h : D' ≠ D) (d : Dir TmpFile Char) :
    (T.make [.detector D] d).1 (.log D') = d (.log D') := by
  rw [make_detector]
  refine run_other (fun c hc hf => h ?_) d
  have hall := List.all_eq_true.1 (onlyLog_detector T D) c hc
  exact of_decide_eq_true (List.all_eq_true.1 hall _ hf)

/-- The test that the recipes `pre` and `own` make the log of a detector anew. -/
theorem remakes_of {pre own : List (Command TmpFile Char)} {f : TmpFile} {A B : List TmpFile}
    (hpre : (pre.all fun c => decide (f ∉ c.writes)) = true) (hA : check [] pre [] = some A)
    (hB : check [f] own A = some B) (hf : decide (f ∈ B) = true) : Remakes pre own f A B :=
  ⟨fun c hc => of_decide_eq_true (List.all_eq_true.1 hpre c hc), hA, hB, of_decide_eq_true hf⟩

/-- Its own log a detector makes anew, but for `round` and `ext-call`. -/
theorem remakes {D : Detector} (hround : D ≠ .finder .round) (hext : D ≠ .finder .extCall) :
    ∃ A B, Remakes ((before D).flatMap T.recipe) (T.recipe (.detector D)) (.log D) A B := by
  cases D with
  | finder d =>
    cases d <;> first
      | exact absurd rfl hround
      | exact absurd rfl hext
      | exact ⟨_, _, remakes_of rfl rfl rfl rfl⟩
  | inconsistency => exact ⟨_, _, remakes_of rfl rfl rfl rfl⟩
  | dupCollectionId => exact ⟨_, _, remakes_of rfl rfl rfl rfl⟩
  | nepInterface n => cases n <;> exact ⟨_, _, remakes_of rfl rfl rfl rfl⟩

end Audit.Makefile
