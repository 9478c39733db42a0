import Rustle.Audit.Session

/-!
# Several detectors in one invocation

`make audit` makes all its detectors in **one** invocation, so that the log of
the callbacks is written once and the detectors that demangle it in place leave
it demangled for those that come later.

* `Demangles`, `CallbacksFirst` — `yocto-attach`, which reads the names as the
  compiler gives them, before the detectors that demangle them.
* `Made` — what holds of the directory throughout an invocation; `made_step`,
  `made_run` — the step and the run.
* `logs_invocation` — then each detector leaves what it leaves on its own.
-/

namespace Audit.Makefile

open Llvm NearCore Directory Prerequisites
open Text

variable (T : Tools)

/-! ## The other targets -/

/-- Does the detector run `rustfilt` on the log of the callbacks? -/
def Demangles (D : Detector) : Prop :=
  D = .finder .lockCallback ∨ D = .finder .nonCallbackPrivate ∨ D = .finder .nonPrivateCallback

instance (D : Detector) : Decidable (Demangles D) :=
  inferInstanceAs (Decidable (_ ∨ _ ∨ _))

/-- The log of a pass that runs on all modules, if there is one. -/
def Tools.passLog (text : Bitcode → Str) : Option Str :=
  if T.bitcodes = [] then none else some (T.bitcodes.map text).flatten

def Tools.callbackLog : Option Str := T.passLog fun b => Callback.log b.M

def Tools.traitLog : Option Str := T.passLog fun b => ExtCallTrait.log b.M

def Tools.allCallLog : Option Str := T.passLog fun b => unlines (T.allCall b)

/-- The exit status of the recipe of a target that is no detector. -/
def Tools.status : Target → Bool
  | .tgIr => T.getPackagesName.2
  | .findStruct => T.findStruct.2.2
  | _ => true

/-- Is it a detector? -/
def Target.isDetector : Target → Bool
  | .detector _ => true
  | _ => false

/-- A recipe that removes a file and then runs a pass on all modules. -/
theorem run_pass {removed file : TmpFile} {d : Dir TmpFile Char}
    (h : removed = file ∨ d file = none) (text : Bitcode → Str) :
    run [.remove [removed], .append file [] (T.bitcodes.map fun b _ => text b)] d
      = (fun f => if f = file then T.passLog text else if f = removed then none else d f, true) := by
  rw [run_cons_ok (by rfl), run_cons_ok (by rfl)]
  generalize hd₁ : (exec d (.remove [removed])).1 = d₁
  have hother : ∀ f, d₁ f = if f = removed then none else d f := by
    intro f
    rw [← hd₁]
    show (if f ∈ [removed] then none else d f) = _
    simp only [List.mem_singleton]
  have hnone : d₁ file = none := by
    rw [hother]
    rcases h with rfl | h
    · exact if_pos rfl
    · rw [h, ite_self]
  refine Prod.ext (funext fun f => ?_) rfl
  show (List.foldl _ d₁ _ : Dir TmpFile Char) f
    = if f = file then T.passLog text else if f = removed then none else d f
  rw [← hother f, Tools.passLog]
  by_cases hnil : T.bitcodes = []
  · rw [hnil, if_pos rfl]
    by_cases hf : f = file
    · rw [if_pos hf, hf]
      exact hnone
    · rw [if_neg hf]
      rfl
  · rw [Directory.append_eq List.not_mem_nil fun h => hnil (List.map_eq_nil_iff.1 h), if_neg hnil,
      hnone, List.map_map]
    by_cases hf : f = file
    · rw [if_pos hf, hf, put_self]
      rfl
    · rw [if_neg hf, put_other hf]

theorem recipe_status {t : Target} (ht : t.isDetector = false) (d : Dir TmpFile Char) :
    (run (T.recipe t) d).2 = T.status t := by
  cases t with
  | detector D => exact absurd ht.symm Bool.false_ne_true
  | tgIr => exact tgIr_status T d
  | callback => rfl
  | extCallTrait => rfl
  | allCall => rfl
  | findStruct =>
    cases h : T.findStruct.2.2 with
    | true => simp [Tools.recipe, Tools.status, run, exec, h]
    | false => simp [Tools.recipe, Tools.status, run, exec, h]

theorem run_findStruct (d : Dir TmpFile Char) :
    (run (T.recipe .findStruct) d).1 .structMembers = some T.findStruct.1 := by
  cases h : T.findStruct.2.2 with
  | true => simp [Tools.recipe, run, exec, h, put]
  | false => simp [Tools.recipe, run, exec, h, put]

/-! ## The directory throughout an invocation -/

/-- What stands in the directory when the targets of `done` have been made. -/
structure Made (done : List Target) (d : Dir TmpFile Char) : Prop where
  status : ∀ t ∈ done, t.isDetector = false → T.status t = true
  callback : .callback ∈ done → ∃ k, d .callback = (Option.map T.rustfilt)^[k] T.callbackLog ∧
    ((∀ D, .detector D ∈ done → ¬ Demangles D) → k = 0)
  trait : d .extCallTrait = if .extCallTrait ∈ done then T.traitLog else none
  allCall : .allCall ∈ done → .detector (.finder .unusedRet) ∉ done → d .allCall = T.allCallLog
  members : .findStruct ∈ done → d .structMembers = some T.findStruct.1
  unmade : ∀ D, .detector D ∉ done → d (.log D) = none

theorem made_clean : Made T [] clean where
  status _ ht := absurd ht List.not_mem_nil
  callback h := absurd h List.not_mem_nil
  trait := rfl
  allCall h := absurd h List.not_mem_nil
  members h := absurd h List.not_mem_nil
  unmade _ _ := rfl

variable {T}

theorem mem_snoc {done : List Target} {t u : Target} (h : u ∈ done ++ [t]) (hne : u ≠ t) :
    u ∈ done := (List.mem_append.1 h).resolve_right fun h => hne (List.mem_singleton.1 h)

/-- What a recipe leaves alone stays as it was made. -/
theorem Made.snoc {done : List Target} {t : Target} {d e : Dir TmpFile Char} (h : Made T done d)
    (hstatus : t.isDetector = false → T.status t = true)
    (hcallback : t = .callback ∧ e .callback = T.callbackLog ∨
      (∃ D, t = .detector D ∧ Demangles D ∧ e .callback = (d .callback).map T.rustfilt) ∨
      t ≠ .callback ∧ e .callback = d .callback)
    (htrait : e .extCallTrait = if t = .extCallTrait then T.traitLog else d .extCallTrait)
    (hallCall : t = .allCall ∧ e .allCall = T.allCallLog ∨ t = .detector (.finder .unusedRet) ∨
      t ≠ .allCall ∧ e .allCall = d .allCall)
    (hmembers : t = .findStruct ∧ e .structMembers = some T.findStruct.1 ∨
      t ≠ .findStruct ∧ e .structMembers = d .structMembers)
    (hlog : ∀ D, .detector D ≠ t → d (.log D) = none → e (.log D) = none) :
    Made T (done ++ [t]) e where
  status u hu hd := by
    by_cases hut : u = t
    · rw [hut] at hd ⊢
      exact hstatus hd
    · exact h.status u (mem_snoc hu hut) hd
  callback hmem := by
    rcases hcallback with ⟨-, he⟩ | ⟨D, ht, hD, he⟩ | ⟨hne, he⟩
    · exact ⟨0, he, fun _ => rfl⟩
    · obtain ⟨k, hk, -⟩ := h.callback (mem_snoc hmem (by rw [ht]; exact Target.noConfusion))
      refine ⟨k + 1, ?_, fun hno => absurd hD (hno D ?_)⟩
      · rw [Function.iterate_succ_apply', ← hk, he]
      · exact List.mem_append_right _ (List.mem_singleton.2 ht.symm)
    · obtain ⟨k, hk, hzero⟩ := h.callback (mem_snoc hmem (Ne.symm hne))
      exact ⟨k, he.trans hk, fun hno => hzero fun D hD => hno D (List.mem_append_left _ hD)⟩
  trait := by
    rw [htrait]
    by_cases ht : t = .extCallTrait
    · rw [if_pos ht, if_pos (ht ▸ List.mem_append_right _ (List.mem_singleton_self t))]
    · have hiff : Target.extCallTrait ∈ done ++ [t] ↔ Target.extCallTrait ∈ done :=
        ⟨fun hm => mem_snoc hm (Ne.symm ht), fun hm => List.mem_append_left _ hm⟩
      rw [if_neg ht, h.trait]
      simp only [hiff]
  allCall hmem hno := by
    rcases hallCall with ⟨-, he⟩ | ht | ⟨hne, he⟩
    · exact he
    · exact absurd (List.mem_append_right _ (List.mem_singleton.2 ht.symm)) hno
    · rw [he]
      exact h.allCall (mem_snoc hmem (Ne.symm hne)) fun hm => hno (List.mem_append_left _ hm)
  members hmem := by
    rcases hmembers with ⟨-, he⟩ | ⟨hne, he⟩
    · exact he
    · rw [he]
      exact h.members (mem_snoc hmem (Ne.symm hne))
  unmade D hD := by
    have hD' : Target.detector D ∉ done := fun hm => hD (List.mem_append_left _ hm)
    exact hlog D (fun heq => hD (heq ▸ List.mem_append_right _ (List.mem_singleton_self _)))
      (h.unmade D hD')

/-- The step for a target that is no detector. -/
theorem made_other {done : List Target} {t : Target} {d : Dir TmpFile Char} (h : Made T done d)
    (hnew : t ∉ done) (ht : t.isDetector = false) (hok : T.status t = true) :
    Made T (done ++ [t]) (run (T.recipe t) d).1 := by
  cases t with
  | detector D => exact absurd ht.symm Bool.false_ne_true
  | tgIr =>
    have hother : ∀ f, f ≠ .packagesName → (run (T.recipe .tgIr) d).1 f = d f :=
      fun f hf => tgIr_other T hf d
    exact h.snoc (fun _ => hok) (Or.inr (Or.inr ⟨by decide, hother _ (by decide)⟩))
      (hother _ (by decide)) (Or.inr (Or.inr ⟨by decide, hother _ (by decide)⟩))
      (Or.inr ⟨by decide, hother _ (by decide)⟩)
      fun D _ hD => (hother _ TmpFile.noConfusion).trans hD
  | callback =>
    have hrun : (run (T.recipe .callback) d).1 = _ := congrArg Prod.fst
      (@run_pass T .callback .callback d (Or.inl rfl) fun b => Callback.log b.M)
    rw [hrun]
    exact h.snoc (fun _ => hok) (Or.inl ⟨rfl, rfl⟩) rfl (Or.inr (Or.inr ⟨by decide, rfl⟩))
      (Or.inr ⟨by decide, rfl⟩) fun D _ hD => hD
  | extCallTrait =>
    have htrait : d .extCallTrait = none := by rw [h.trait, if_neg hnew]
    have hrun : (run (T.recipe .extCallTrait) d).1 = _ := congrArg Prod.fst
      (@run_pass T (.log (.finder .extCall)) .extCallTrait d (Or.inr htrait)
        fun b => ExtCallTrait.log b.M)
    rw [hrun]
    refine h.snoc (fun _ => hok) (Or.inr (Or.inr ⟨by decide, rfl⟩)) rfl
      (Or.inr (Or.inr ⟨by decide, rfl⟩)) (Or.inr ⟨by decide, rfl⟩) fun D _ hD => ?_
    show (if TmpFile.log D = .log (.finder .extCall) then none else d (.log D)) = none
    rw [hD, ite_self]
  | allCall =>
    have hrun : (run (T.recipe .allCall) d).1 = _ := congrArg Prod.fst
      (@run_pass T .allCall .allCall d (Or.inl rfl) fun b => unlines (T.allCall b))
    rw [hrun]
    exact h.snoc (fun _ => hok) (Or.inr (Or.inr ⟨by decide, rfl⟩)) rfl (Or.inl ⟨rfl, rfl⟩)
      (Or.inr ⟨by decide, rfl⟩) fun D _ hD => hD
  | findStruct =>
    have hother : ∀ f, f ≠ .structMembers → f ≠ .structs →
        (run (T.recipe .findStruct) d).1 f = d f := by
      intro f hm hs
      refine run_other (fun c hc hf => ?_) d
      fin_cases hc
      · exact hm (List.mem_singleton.1 hf)
      · exact hs (List.mem_singleton.1 hf)
      · exact hs (List.mem_singleton.1 hf)
      · exact hm (List.mem_singleton.1 hf)
    exact h.snoc (fun _ => hok)
      (Or.inr (Or.inr ⟨by decide, hother _ (by decide) (by decide)⟩))
      (hother _ (by decide) (by decide))
      (Or.inr (Or.inr ⟨by decide, hother _ (by decide) (by decide)⟩))
      (Or.inl ⟨rfl, run_findStruct T d⟩)
      fun D _ hD => (hother _ TmpFile.noConfusion TmpFile.noConfusion).trans hD

/-- The run over targets that are no detectors, when they all go well. -/
theorem made_before {l : List Target} (h : Ordered rules l)
    (hl : ∀ t ∈ l, t.isDetector = false ∧ T.status t = true) :
    (run (l.flatMap T.recipe) clean).2 = true ∧
      Made T l (run (l.flatMap T.recipe) clean).1 := by
  induction h with
  | nil => exact ⟨rfl, made_clean T⟩
  | @snoc done t hdone hnew hpre ih =>
    obtain ⟨hok, hmade⟩ := ih fun u hu => hl u (List.mem_append_left _ hu)
    obtain ⟨ht, hstatus⟩ := hl t (List.mem_append_right _ (List.mem_singleton_self t))
    rw [List.flatMap_append, List.flatMap_singleton, run_append_ok hok]
    exact ⟨(recipe_status T ht _).trans hstatus, made_other hmade hnew ht hstatus⟩

/-! ## Detectors -/

/-- The files that the recipe of a detector may change. -/
def MayWrite (D : Detector) (f : TmpFile) : Prop :=
  f = .log D ∨ f = .unsafeMathToml ∨ f = .callback ∧ Demangles D ∨
    f = .allCall ∧ D = .finder .unusedRet

instance (D : Detector) (f : TmpFile) : Decidable (MayWrite D f) :=
  inferInstanceAs (Decidable (_ ∨ _ ∨ _ ∧ _ ∨ _ ∧ _))

/-- The log that a detector reads as it finds it. -/
def reads : Detector → List TmpFile
  | .finder .yoctoAttach => [.callback]
  | .finder .extCall => [.extCallTrait]
  | .finder .unusedRet => [.allCall]
  | .finder .incorrectJsonType => [.structMembers]
  | _ => []

theorem detector_other {D : Detector} {f : TmpFile} (h : ¬ MayWrite D f)
    (d : Dir TmpFile Char) : (run (T.recipe (.detector D)) d).1 f = d f := by
  have hall : ((T.recipe (.detector D)).all fun c =>
      c.writes.all fun f => decide (MayWrite D f)) = true := by
    cases D with
    | finder d => cases d <;> rfl
    | inconsistency => rfl
    | dupCollectionId => rfl
    | nepInterface n => cases n <;> rfl
  refine run_other (fun c hc hf => h ?_) d
  exact of_decide_eq_true (List.all_eq_true.1 (List.all_eq_true.1 hall c hc) f hf)

/-- The directory in which a detector that demangles the callbacks runs its script. -/
def Tools.demangled (T : Tools) (D : Detector) (d : Dir TmpFile Char) : Dir TmpFile Char :=
  (exec (exec d (clear D)).1 (.rewrite .callback T.rustfilt)).1

theorem demangled_callback (D : Detector) (d : Dir TmpFile Char) :
    T.demangled D d .callback = (d .callback).map T.rustfilt := by
  have hclear : (exec d (clear D)).1 .callback = d .callback :=
    exec_other (fun h => TmpFile.noConfusion (List.mem_singleton.1 h)) d
  show Function.update (exec d (clear D)).1 .callback
    (((exec d (clear D)).1 .callback).map T.rustfilt) .callback = _
  rw [Function.update_self, hclear]

theorem demangled_log (D : Detector) (d : Dir TmpFile Char) : T.demangled D d (.log D) = none := by
  show Function.update (exec d (clear D)).1 .callback
    (((exec d (clear D)).1 .callback).map T.rustfilt) (.log D) = none
  rw [Function.update_of_ne fun h => TmpFile.noConfusion h]
  exact if_pos (List.mem_singleton_self _)

theorem run_demangles {D : Detector} (h : Demangles D) (d : Dir TmpFile Char) :
    run (T.recipe (.detector D)) d = run [T.script D (some .callback)] (T.demangled D d) := by
  have hrecipe : T.recipe (.detector D)
      = [clear D, .rewrite .callback T.rustfilt, T.script D (some .callback)] := by
    rcases h with rfl | rfl | rfl
    · rfl
    · rfl
    · rfl
  rw [hrecipe, run_cons_ok (by rfl), run_cons_ok (by rfl)]
  rfl

theorem demangles_callback {D : Detector} (h : Demangles D) (d : Dir TmpFile Char) :
    (run (T.recipe (.detector D)) d).1 .callback = (d .callback).map T.rustfilt := by
  have hscript : ∀ c ∈ [T.script D (some .callback)], TmpFile.callback ∉ c.writes := by
    intro c hc hf
    rw [List.mem_singleton.1 hc] at hf
    exact TmpFile.noConfusion (List.mem_singleton.1 hf)
  rw [run_demangles h, run_other hscript, demangled_callback]

/-- The step for a detector. -/
theorem made_detector {done : List Target} {D : Detector} {d : Dir TmpFile Char}
    (h : Made T done d) : Made T (done ++ [.detector D]) (run (T.recipe (.detector D)) d).1 := by
  refine h.snoc (fun ht => absurd ht.symm Bool.false_ne_true) ?_ ?_ ?_ ?_ fun D' hD' hnone => ?_
  · by_cases hD : Demangles D
    · exact Or.inr (Or.inl ⟨D, rfl, hD, demangles_callback hD d⟩)
    · exact Or.inr (Or.inr ⟨Target.noConfusion, detector_other (by simp [MayWrite, hD]) d⟩)
  · rw [if_neg Target.noConfusion]
    exact detector_other (by simp [MayWrite]) d
  · by_cases hD : D = .finder .unusedRet
    · exact Or.inr (Or.inl (congrArg _ hD))
    · exact Or.inr (Or.inr ⟨Target.noConfusion, detector_other (by simp [MayWrite, hD]) d⟩)
  · exact Or.inr ⟨Target.noConfusion, detector_other (by simp [MayWrite]) d⟩
  · have hne : D' ≠ D := fun heq => hD' (congrArg _ heq)
    exact (detector_other (by simp [MayWrite, hne]) d).trans hnone

/-- Names that `rustfilt` has demangled it leaves alone. -/
def Tools.Idempotent (T : Tools) : Prop :=
  ∀ text, T.callbackLog = some text → T.rustfilt (T.rustfilt text) = T.rustfilt text

theorem iterate_rustfilt (h : T.Idempotent) (k : Nat) :
    ((Option.map T.rustfilt)^[k] T.callbackLog).map T.rustfilt
      = T.callbackLog.map T.rustfilt := by
  induction k with
  | zero => rfl
  | succ k ih =>
    rw [Function.iterate_succ_apply', ih]
    cases hlog : T.callbackLog with
    | none => rfl
    | some text => exact congrArg some (h text hlog)

/-- From two directories in which the same has been made, as far as the detector
reads it, the detector leaves the same log. -/
theorem own_log {done done' : List Target} {D : Detector} {d d' : Dir TmpFile Char}
    (h : Made T done d) (h' : Made T done' d')
    (hnew : .detector D ∉ done) (hnew' : .detector D ∉ done')
    (hpre : ∀ p ∈ prerequisites (.detector D), p ∈ done)
    (hpre' : ∀ p ∈ prerequisites (.detector D), p ∈ done')
    (hraw : D = .finder .yoctoAttach → ∀ D', .detector D' ∈ done → ¬ Demangles D')
    (hraw' : D = .finder .yoctoAttach → ∀ D', .detector D' ∈ done' → ¬ Demangles D')
    (hidem : T.Idempotent) :
    (run (T.recipe (.detector D)) d).1 (.log D) = (run (T.recipe (.detector D)) d').1 (.log D) := by
  have hlog : d (.log D) = d' (.log D) := (h.unmade D hnew).trans (h'.unmade D hnew').symm
  by_cases hD : Demangles D
  · -- both have the callbacks demangled once, whatever was done to them before
    have hcb : (d .callback).map T.rustfilt = (d' .callback).map T.rustfilt := by
      have hmem : Target.callback ∈ prerequisites (.detector D) := by
        rcases hD with rfl | rfl | rfl
        · exact List.mem_singleton_self _
        · exact List.mem_singleton_self _
        · exact List.mem_singleton_self _
      obtain ⟨k, hk, -⟩ := h.callback (hpre _ hmem)
      obtain ⟨k', hk', -⟩ := h'.callback (hpre' _ hmem)
      rw [hk, hk', iterate_rustfilt hidem, iterate_rustfilt hidem]
    have hcheck : check [.log D] [T.script D (some .callback)] [.callback, .log D]
        = some [.callback, .log D] := by
      simp [check, Command.check, Tools.script]
    have hagree : AgreeOn [.callback, .log D] (T.demangled D d) (T.demangled D d') := by
      intro f hf
      rcases List.mem_cons.1 hf with rfl | hf
      · rw [demangled_callback, demangled_callback, hcb]
      · rw [List.mem_singleton.1 hf, demangled_log, demangled_log]
    obtain ⟨-, hok, hfail⟩ := check_sound hcheck hagree
    rw [run_demangles hD, run_demangles hD]
    cases hs : (run [T.script D (some .callback)] (T.demangled D d)).2 with
    | true => exact hok hs _ (List.mem_cons_of_mem _ (List.mem_singleton_self _))
    | false => exact hfail hs _ (List.mem_singleton_self _)
  · have hagree : AgreeOn (.log D :: reads D) d d' := by
      intro f hf
      rcases List.mem_cons.1 hf with rfl | hf
      · exact hlog
      · unfold reads at hf
        split at hf
        · rw [List.mem_singleton.1 hf]
          obtain ⟨k, hk, hzero⟩ := h.callback (hpre _ (by decide))
          obtain ⟨k', hk', hzero'⟩ := h'.callback (hpre' _ (by decide))
          rw [hk, hk', hzero (hraw rfl), hzero' (hraw' rfl)]
        · rw [List.mem_singleton.1 hf, h.trait, h'.trait, if_pos (hpre _ (by decide)),
            if_pos (hpre' _ (by decide))]
        · rw [List.mem_singleton.1 hf, h.allCall (hpre _ (by decide)) hnew,
            h'.allCall (hpre' _ (by decide)) hnew']
        · rw [List.mem_singleton.1 hf, h.members (hpre _ (by decide)),
            h'.members (hpre' _ (by decide))]
        · exact absurd hf List.not_mem_nil
    have hcheck : ∃ B, check [.log D] (T.recipe (.detector D)) (.log D :: reads D) = some B ∧
        decide (.log D ∈ B) = true := by
      cases D with
      | finder d => cases d <;> first | exact absurd (by decide) hD | exact ⟨_, rfl, rfl⟩
      | inconsistency => exact ⟨_, rfl, rfl⟩
      | dupCollectionId => exact ⟨_, rfl, rfl⟩
      | nepInterface n => cases n <;> exact ⟨_, rfl, rfl⟩
    obtain ⟨B, hB, hmem⟩ := hcheck
    obtain ⟨-, hok, hfail⟩ := check_sound hB hagree
    cases hs : (run (T.recipe (.detector D)) d).2 with
    | true => exact hok hs _ (of_decide_eq_true hmem)
    | false => exact hfail hs _ (List.mem_singleton_self _)

/-! ## One invocation -/

/-- The log of a detector that is made alone. -/
theorem build_log {D : Detector} (h : ∀ t ∈ before D, t.isDetector = false ∧ T.status t = true) :
    Made T (before D) (run ((before D).flatMap T.recipe) clean).1 ∧
      T.build D clean (.log D)
        = (run (T.recipe (.detector D)) (run ((before D).flatMap T.recipe) clean).1).1 (.log D) := by
  have hplan : Ordered rules (before D ++ [.detector D]) :=
    plan_detector D ▸ ordered_plan (R := rules) [Target.detector D]
  obtain ⟨hok, hmade⟩ := made_before hplan.last.1 h
  refine ⟨hmade, ?_⟩
  rw [Tools.build, make_detector, run_append_ok hok]

theorem before_isDetector {D : Detector} {t : Target} (h : t ∈ before D) :
    t.isDetector = false := by
  have hall : ((before D).all fun t => !t.isDetector) = true := by
    cases D with
    | finder d => cases d <;> rfl
    | inconsistency => rfl
    | dupCollectionId => rfl
    | nepInterface n => rfl
  exact Bool.not_eq_true' _ ▸ List.all_eq_true.1 hall t h

/-- What a detector needs has been made before it. -/
theorem before_subset {done : List Target} {D : Detector}
    (h : Ordered rules (done ++ [.detector D])) : before D ⊆ done := by
  intro t ht
  have hplan : t ∈ plan rules [Target.detector D] :=
    plan_detector D ▸ List.mem_append_left _ ht
  obtain ⟨u, hu, hneed⟩ := needed_of_mem_plan hplan
  rw [List.mem_singleton.1 hu] at hneed
  have hmem := h.needed_mem (List.mem_append_right _ (List.mem_singleton_self _)) hneed
  refine mem_snoc hmem fun heq => ?_
  rw [heq] at ht
  exact absurd (before_isDetector ht).symm Bool.false_ne_true

/-- The other targets leave the logs of the detectors alone, unless it is the log
that `ext-call-trait` removes. -/
theorem log_other {t : Target} (ht : t.isDetector = false) {D : Detector}
    (h : t = .extCallTrait → D ≠ .finder .extCall) (d : Dir TmpFile Char) :
    (run (T.recipe t) d).1 (.log D) = d (.log D) := by
  have hwrites : ∀ c ∈ T.recipe t, ∀ f ∈ c.writes, f = .log D →
      t = .extCallTrait ∧ D = .finder .extCall := by
    cases t with
    | detector D => exact absurd ht.symm Bool.false_ne_true
    | tgIr => simp [Tools.recipe, Command.writes]
    | callback => simp [Tools.recipe, Command.writes]
    | extCallTrait => simp [Tools.recipe, Command.writes, eq_comm]
    | allCall => simp [Tools.recipe, Command.writes]
    | findStruct => simp [Tools.recipe, Command.writes]
  refine run_other (fun c hc hf => ?_) d
  obtain ⟨ht, hD⟩ := hwrites c hc _ hf rfl
  exact h ht hD

/-- Not the detector itself. -/
def others (done : List Target) : List Target :=
  done.takeWhile fun t => t ≠ .detector (.finder .yoctoAttach)

theorem others_snoc (done : List Target) (t : Target) : others done ⊆ others (done ++ [t]) := by
  unfold others
  rw [List.takeWhile_append]
  split
  · exact fun u hu => List.mem_append_left _ ((List.takeWhile_sublist _).subset hu)
  · exact fun u hu => hu

theorem others_last {done : List Target} (h : .detector (.finder .yoctoAttach) ∉ done) :
    others (done ++ [.detector (.finder .yoctoAttach)]) = done := by
  have hall : ∀ t ∈ done, decide (t ≠ .detector (.finder .yoctoAttach)) = true :=
    fun t ht => decide_eq_true fun heq => h (heq ▸ ht)
  rw [others, List.takeWhile_append_of_pos hall, List.takeWhile_cons]
  simp

/-- The run: each detector made leaves what it leaves on its own; `yocto-attach`
if nothing before it has demangled the callbacks. -/
theorem made_run (hidem : T.Idempotent) {l : List Target} (h : Ordered rules l)
    (hok : (run (l.flatMap T.recipe) clean).2 = true) :
    Made T l (run (l.flatMap T.recipe) clean).1 ∧
      ∀ D, .detector D ∈ l →
        (D = .finder .yoctoAttach → ∀ D', .detector D' ∈ others l → ¬ Demangles D') →
        (run (l.flatMap T.recipe) clean).1 (.log D) = T.build D clean (.log D) := by
  induction h with
  | nil => exact ⟨made_clean T, fun D hD => absurd hD List.not_mem_nil⟩
  | @snoc done t hdone hnew hpre ih =>
    have hokd : (run (done.flatMap T.recipe) clean).2 = true := by
      by_contra hfail
      rw [List.flatMap_append, run_append_fail (Bool.not_eq_true _ ▸ hfail)] at hok
      exact hfail hok
    rw [List.flatMap_append, List.flatMap_singleton, run_append_ok hokd] at hok ⊢
    obtain ⟨hmade, hown⟩ := ih hokd
    generalize (run (done.flatMap T.recipe) clean).1 = d at hok hmade hown ⊢
    cases ht : t.isDetector with
    | false =>
      refine ⟨made_other hmade hnew ht ((recipe_status T ht d).symm.trans hok),
        fun D hD hraw => ?_⟩
      have hDdone : .detector D ∈ done := mem_snoc hD fun heq => by
        rw [← heq] at ht
        exact absurd ht.symm Bool.false_ne_true
      rw [log_other ht (fun htrait hext => ?_) d]
      · exact hown D hDdone fun hy D' hD' => hraw hy D' (others_snoc _ _ hD')
      · -- `ext-call` is made behind `ext-call-trait`
        refine hnew (hdone.needed_mem hDdone (Relation.ReflTransGen.single ?_))
        rw [htrait, hext]
        decide
    | true =>
      cases t with
      | detector D₀ =>
        refine ⟨made_detector hmade, fun D hD hraw => ?_⟩
        by_cases hD₀ : D = D₀
        · subst hD₀
          have hordered : Ordered rules (done ++ [.detector D]) := hdone.snoc hnew hpre
          have hbefore : ∀ t ∈ before D, t.isDetector = false ∧ T.status t = true := fun t ht =>
            ⟨before_isDetector ht,
              hmade.status t (before_subset hordered ht) (before_isDetector ht)⟩
          obtain ⟨hmade', hbuild⟩ := build_log hbefore
          have hplan : Ordered rules (before D ++ [.detector D]) :=
            plan_detector D ▸ ordered_plan (R := rules) [Target.detector D]
          rw [hbuild]
          refine own_log hmade hmade' hnew hplan.last.2.1 hpre hplan.last.2.2 (fun hy D' hD' => ?_)
            (fun _ D' hD' => absurd (before_isDetector hD').symm Bool.false_ne_true) hidem
          subst hy
          exact hraw rfl D' (by rwa [others_last hnew])
        · rw [detector_other (by simp [MayWrite, hD₀]) d]
          refine hown D (mem_snoc hD fun heq => hD₀ ?_) fun hy D' hD' =>
            hraw hy D' (others_snoc _ _ hD')
          exact Target.detector.inj heq
      | tgIr => exact absurd ht Bool.false_ne_true
      | callback => exact absurd ht Bool.false_ne_true
      | extCallTrait => exact absurd ht Bool.false_ne_true
      | allCall => exact absurd ht Bool.false_ne_true
      | findStruct => exact absurd ht Bool.false_ne_true

/-- `yocto-attach`, if it is a goal, before the detectors that demangle the
callbacks. -/
def CallbacksFirst (goals : List Detector) : Prop :=
  .finder .yoctoAttach ∈ goals →
    ∀ D ∈ goals.takeWhile (fun D => D ≠ .finder .yoctoAttach), ¬ Demangles D

instance (goals : List Detector) : Decidable (CallbacksFirst goals) :=
  inferInstanceAs (Decidable (_ → ∀ D ∈ _, _))

/-- No detector is a prerequisite. -/
theorem needed_detector {t : Target} {D : Detector} (h : Needed rules t (.detector D)) :
    t = .detector D := by
  rcases Relation.ReflTransGen.cases_tail h with heq | ⟨u, -, hu⟩
  · exact heq.symm
  · have hall : ((prerequisites u).all fun t => !t.isDetector) = true := by
      cases u with
      | detector D =>
        cases D with
        | finder d => cases d <;> rfl
        | inconsistency => rfl
        | dupCollectionId => rfl
        | nepInterface n => rfl
      | tgIr => rfl
      | callback => rfl
      | extCallTrait => rfl
      | allCall => rfl
      | findStruct => rfl
    exact absurd (List.all_eq_true.1 hall _ hu) Bool.false_ne_true

theorem detector_mem_plan {goals : List Detector} {D : Detector} :
    .detector D ∈ plan rules (goals.map Target.detector) ↔ D ∈ goals := by
  refine ⟨fun h => ?_, fun h => mem_plan (List.mem_map_of_mem h)⟩
  obtain ⟨t, ht, hneed⟩ := needed_of_mem_plan h
  obtain ⟨D', hD', rfl⟩ := List.mem_map.1 ht
  rwa [Target.detector.inj (needed_detector hneed)] at hD'

/-- The detectors made before `yocto-attach` are goals before it. -/
theorem mem_others_plan {goals : List Detector} (hy : .finder .yoctoAttach ∈ goals)
    {D : Detector} (h : .detector D ∈ others (plan rules (goals.map Target.detector))) :
    D ∈ goals.takeWhile (fun D => D ≠ .finder .yoctoAttach) := by
  obtain ⟨first, rest, rfl, hfirst⟩ := List.eq_append_cons_of_mem hy
  have hall : ∀ D ∈ first, decide (D ≠ Detector.finder .yoctoAttach) = true :=
    fun D hD => decide_eq_true fun heq => hfirst (heq ▸ hD)
  rw [List.takeWhile_append_of_pos hall, List.takeWhile_cons, if_neg (by simp), List.append_nil]
  obtain ⟨more, hmore⟩ := plan_append (R := rules)
    ((first ++ [Detector.finder .yoctoAttach]).map Target.detector) (rest.map Target.detector)
  rw [← List.map_append, List.append_assoc, List.singleton_append] at hmore
  have hyplan : Target.detector (.finder .yoctoAttach)
      ∈ plan rules ((first ++ [Detector.finder .yoctoAttach]).map Target.detector) :=
    detector_mem_plan.2 (List.mem_append_right _ (List.mem_singleton_self _))
  have hne : D ≠ .finder .yoctoAttach := fun heq => by
    have := List.mem_takeWhile_imp h
    rw [heq] at this
    exact absurd rfl (of_decide_eq_true this)
  have hmem : Target.detector D
      ∈ plan rules ((first ++ [Detector.finder .yoctoAttach]).map Target.detector) := by
    unfold others at h
    rw [← hmore, List.takeWhile_append] at h
    split at h
    · rename_i hlen
      have hfull := (List.takeWhile_prefix (fun t => decide (t ≠ .detector (.finder .yoctoAttach)))
        (l := plan rules ((first ++ [Detector.finder .yoctoAttach]).map
          Target.detector))).eq_of_length hlen
      have := List.mem_takeWhile_imp (hfull ▸ hyplan)
      exact absurd rfl (of_decide_eq_true this)
    · exact (List.takeWhile_sublist _).subset h
  rcases List.mem_append.1 (detector_mem_plan.1 hmem) with hD | hD
  · exact hD
  · exact absurd (List.mem_singleton.1 hD) hne

/-- An invocation that goes well leaves for each of its goals what the goal leaves
on its own, and for other detectors nothing. -/
theorem logs_invocation (hidem : T.Idempotent) {goals : List Detector}
    (hfirst : CallbacksFirst goals)
    (hok : (T.make (goals.map Target.detector) clean).2 = true) :
    T.logs (T.make (goals.map Target.detector) clean).1 = T.output.restrict goals := by
  obtain ⟨hmade, hown⟩ := made_run hidem (ordered_plan _) hok
  have hlog : ∀ D, (T.make (goals.map Target.detector) clean).1 (.log D)
      = if D ∈ goals then T.build D clean (.log D) else none := by
    intro D
    by_cases hD : D ∈ goals
    · rw [if_pos hD]
      refine hown D (detector_mem_plan.2 hD) fun hy D' hD' => ?_
      subst hy
      exact hfirst hD D' (mem_others_plan hD hD')
    · rw [if_neg hD]
      exact hmade.unmade D fun h => hD (detector_mem_plan.1 h)
  funext D
  rw [Tmp.restrict]
  cases D with
  | finder d =>
    show (_ : Option Str).map _ = _
    rw [hlog]
    split
    · rfl
    · rfl
  | inconsistency =>
    show (_ : Option Str).bind _ = _
    rw [hlog]
    split
    · rfl
    · rfl
  | dupCollectionId =>
    show (_ : Option Str).map _ = _
    rw [hlog]
    split
    · rfl
    · rfl
  | nepInterface n =>
    show (_ : Option Str).map _ = _
    rw [hlog]
    split
    · rfl
    · rfl

/-- `make` with several detectors, and the driver, which makes them one by one,
lead to the same reports. -/
theorem invocation_reports (T : Tools) (hidem : T.Idempotent) (P : Project)
    (goals : List Detector) (hfirst : CallbacksFirst goals)
    (hok : (T.make (goals.map Target.detector) clean).2 = true) :
    reports P (T.logs (T.make (goals.map Target.detector) clean).1)
      = reports P (T.logs (session T.build goals clean)) := by
  rw [logs_invocation hidem hfirst hok]
  exact (sameFindings_session T goals).reports.symm

/-- The detectors of `make audit`, in its order. -/
def auditDetectors : List Detector :=
  [.finder .promiseResult, .finder .reentrancy, .finder .transfer, .finder .timestamp,
    .finder .divBeforeMul, .finder .unsafeMath, .finder .round, .finder .upgradeFunc,
    .finder .selfTransfer, .finder .prepaidGas, .finder .unhandledPromise, .finder .yoctoAttach,
    .finder .complexLoop, .finder .tautology, .finder .unusedRet, .inconsistency,
    .finder .lockCallback, .finder .nonCallbackPrivate, .finder .nonPrivateCallback,
    .finder .incorrectJsonType]

/-- The symbol of `on_done`. -/
def onDoneSymbol : Str := lit "_ZN5token8Contract7on_done17h1E" rfl

/-- A module in which `on_done` calls a function. -/
def onDoneModule (called : Str) (h : called ≠ onDoneSymbol) : Module where
  values :=
    [.function, .function,
     .instruction ⟨.call [] [] 0 true, some ⟨lit "src/a.rs" rfl, 13⟩⟩]
  functions := [⟨called, 0, [], []⟩, ⟨onDoneSymbol, 1, [], [⟨lit "start" rfl, [2]⟩]⟩]
  users := useList _
  users_perm := fun _ => .refl _
  operands_lt := by decide
  params_lt := by simp
  names_nodup := by simpa using h
  functions_nodup := by simp

/-- The names that `rustfilt` makes of the two symbols. -/
def onDoneNames (called name symbol : Str) : Str :=
  if symbol = onDoneSymbol then lit "token::Contract::on_done" rfl
  else if symbol = called then name
  else symbol

def promiseResult : Str := lit "_ZN8near_sdk11environment3env14promise_result17h3E" rfl

/-- `on_done` reads the result of a promise. -/
def promiseModule : Module := onDoneModule promiseResult (by decide)

def promiseNames : Str → Str :=
  onDoneNames promiseResult (lit "near_sdk::environment::env::promise_result" rfl)

/-- Tools for a contract with a callback, whose line `rustfilt` changes; the scripts
leave what they read. -/
def callbackTools : Tools where
  bitcodes := [⟨promiseModule, YoctoAttach.emptyCallGraph⟩]
  demangle line := promiseNames (line.takeWhile (· ≠ '@')) ++ line.dropWhile (· ≠ '@')
  jsonLoad _ := some []
  pass _ _ := []
  allCall _ := []
  getPackagesName := (lit "token" rfl, true)
  findStruct := (lit "0" rfl, [], true)
  unsafeMathToml := (some [], true)
  python _ log := (some (log.getD []), true)

example : callbackTools.callbackLog.map callbackTools.rustfilt
    = some (lit "token::Contract::on_done@src/a.rs\n" rfl) := by decide +kernel

theorem idempotent_callbackTools : callbackTools.Idempotent := by
  intro text h
  have hlog : callbackTools.callbackLog
      = some (lit "_ZN5token8Contract7on_done17h1E@src/a.rs\n" rfl) := by decide +kernel
  rw [hlog] at h
  obtain rfl := Option.some.inj h
  decide +kernel

theorem invocation_reports_audit :
    reports twoContracts
        (callbackTools.logs (callbackTools.make (auditDetectors.map Target.detector) clean).1)
      = reports twoContracts
          (callbackTools.logs (session callbackTools.build auditDetectors clean)) :=
  invocation_reports callbackTools idempotent_callbackTools twoContracts auditDetectors (by decide)
    (by rfl)

end Audit.Makefile
