import Rustle.Audit.Makefile

/-!
# Sessions of the driver

The driver makes one target after the other in one directory, some of them
several times.  What it leaves is what each detector leaves on its own, but that
the logs of `round` and `ext-call` may hold **copies** of their lines, which the
sets of the report do not show.

* `Copied` — a log with each of its pieces some times over.
* `Consistent` — what holds of the directory throughout a session;
  `consistent_build`, `right_build` — the step.
* `session_reports` — the reports of a session are those of the abstract driver.
-/

namespace Audit.Makefile

open Llvm NearCore Directory
open Text

/-! ## Copies of lines -/

section

variable {α : Type} {decode : List Str → Option α}

/-- All lines have the format. -/
def Decodes (decode : List Str → Option α) (ls : List Str) : Prop :=
  ∀ l ∈ ls, (decode ((strip l).splitOn '@')).isSome = true

/-- A loader goes on behind lines that all have the format. -/
theorem mem_loadLoop_append {ls ls' : List Str} {r : α} :
    r ∈ loadLoop decode (ls ++ ls') ↔
      r ∈ loadLoop decode ls ∨ Decodes decode ls ∧ r ∈ loadLoop decode ls' := by
  induction ls with
  | nil => simp [loadLoop, Decodes]
  | cons l ls ih =>
    rw [List.cons_append, loadLoop, loadLoop]
    cases hl : decode ((strip l).splitOn '@') with
    | none => simp [Decodes, hl]
    | some r' => simp [ih, Decodes, hl, or_assoc]

theorem decodes_append {ls ls' : List Str} :
    Decodes decode (ls ++ ls') ↔ Decodes decode ls ∧ Decodes decode ls' := List.forall_mem_append

theorem decodes_replicate {ls : List Str} (k : Nat) :
    Decodes decode (List.replicate (k + 1) ls).flatten ↔ Decodes decode ls := by
  induction k with
  | zero => simp
  | succ k ih =>
    rw [List.replicate_succ, List.flatten_cons, decodes_append, ih, and_self]

theorem mem_loadLoop_replicate {ls : List Str} {r : α} (k : Nat) :
    r ∈ loadLoop decode (List.replicate (k + 1) ls).flatten ↔ r ∈ loadLoop decode ls := by
  induction k with
  | zero => simp
  | succ k ih =>
    rw [List.replicate_succ, List.flatten_cons, mem_loadLoop_append, ih]
    exact ⟨fun h => h.elim id fun h => h.2, Or.inl⟩

/-- Copies of the pieces of a log load nothing new, and lose nothing: an
exception ends the loop in the first copy. -/
theorem mem_loadLoop_copies {pieces : List (List Str)} {r : α} (k : Nat) :
    r ∈ loadLoop decode (copies (k + 1) pieces).flatten ↔ r ∈ loadLoop decode pieces.flatten := by
  induction pieces with
  | nil => exact Iff.rfl
  | cons p pieces ih =>
    rw [copies, List.flatMap_cons, List.flatten_append, List.flatten_cons, mem_loadLoop_append,
      mem_loadLoop_append, decodes_replicate, mem_loadLoop_replicate, ← ih]
    rfl

end

/-- The log `x` is the log `y` with each piece some times over. -/
def Copied (x y : Option Str) : Prop :=
  x = y ∨ ∃ k texts, (∀ t ∈ texts, Whole t) ∧ x = some (copies (k + 1) texts).flatten ∧
    y = some texts.flatten

theorem Copied.loads {α : Type} {decode : List Str → Option α} {x y : Option Str}
    (h : Copied x y) (f : Str → Str) (r : α) :
    r ∈ (x.map (mapLines f)).elim [] (unlog decode) ↔
      r ∈ (y.map (mapLines f)).elim [] (unlog decode) := by
  rcases h with rfl | ⟨k, texts, hwhole, rfl, rfl⟩
  · exact Iff.rfl
  · have hlines : ∀ ts : List Str, (∀ t ∈ ts, Whole t) →
        lines (mapLines f ts.flatten) = (ts.map fun t => lines (mapLines f t)).flatten := by
      intro ts hts
      rw [mapLines_flatten f hts, lines_flatten, List.flatMap_map, List.flatMap]
      intro t ht
      obtain ⟨t', ht', rfl⟩ := List.mem_map.1 ht
      exact whole_mapLines f (hts t' ht')
    show r ∈ loadLoop decode (lines _) ↔ r ∈ loadLoop decode (lines _)
    rw [hlines _ hwhole, hlines _ fun t ht => hwhole t (mem_copies ht), map_copies]
    exact mem_loadLoop_copies k

/-! ## Sessions -/

variable (T : Tools)

/-- An empty directory. -/
def clean : Dir TmpFile Char := fun _ => none

/-- `make -C $TOP $i` -/
def Tools.build (D : Detector) (d : Dir TmpFile Char) : Dir TmpFile Char :=
  (T.make [.detector D] d).1

/-- The loop over the selected detectors, with `HAS_RUNNED`. -/
def Tools.detectorLoop : List Detector → Dir TmpFile Char → Bool → Dir TmpFile Char × Bool
  | [], d, hasRun => (d, hasRun)
  | D :: rest, d, _ => detectorLoop rest (T.build D d) true

/-- The logs as `audit.py` reads them, after it has run `rustfilt` on each. -/
def Tools.logs (d : Dir TmpFile Char) : Tmp
  | .inconsistency => (d (.log .inconsistency)).bind fun text => T.jsonLoad (T.rustfilt text)
  | .finder f => (d (.log (.finder f))).map T.rustfilt
  | .dupCollectionId => (d (.log .dupCollectionId)).map T.rustfilt
  | .nepInterface n => (d (.log (.nepInterface n))).map T.rustfilt

/-- The logs that the report is made from, if one is made. -/
def Tools.rustle (selected : List Detector) : Option Tmp :=
  match T.detectorLoop selected clean false with
  | (d, true) => some (T.logs d)
  | (_, false) => none

/-- What a detector leaves when it is the only one. -/
def Tools.output : Tmp := fun D => T.logs (T.build D clean) D

theorem detectorLoop_session (S : List Detector) (d : Dir TmpFile Char) (hasRun : Bool) :
    T.detectorLoop S d hasRun = (session T.build S d, hasRun || !S.isEmpty) := by
  induction S generalizing d hasRun with
  | nil => simp [Tools.detectorLoop, session]
  | cons D S ih =>
    rw [Tools.detectorLoop, ih]
    simp [session]

theorem rustle_session (S : List Detector) :
    T.rustle S = if S = [] then none else some (T.logs (session T.build S clean)) := by
  rw [Tools.rustle, detectorLoop_session]
  cases S with
  | nil => rfl
  | cons D S => rfl

/-! ## The logs that grow -/

/-- The passes run. -/
def Tools.Works : Prop := T.getPackagesName.2 = true ∧ T.bitcodes ≠ []

/-- What one run of `round` adds to its log. -/
def Tools.roundText : Str :=
  (T.bitcodes.map fun b => unlines (T.pass (.finder .round) b)).flatten

/-- What one run of `ext-call-trait` adds to its log. -/
def Tools.traitText : Str := (T.bitcodes.map fun b => ExtCallTrait.log b.M).flatten

/-- The lines of `ext-call` for each instruction of a module. -/
def extCallPieces (M : Module) (traits : List Str) : List Str :=
  M.functions.flatMap fun F => (F.instructions M).map fun p =>
    unlines ((ExtCall.reportInst M traits F p.2).map siteLine)

theorem unlines_flatMap {α : Type} (f : α → List Str) (l : List α) :
    unlines (l.flatMap f) = (l.map fun a => unlines (f a)).flatten := by
  induction l with
  | nil => rfl
  | cons a l ih => rw [List.flatMap_cons, unlines_append, ih, List.map_cons, List.flatten_cons]

theorem extCall_eq (M : Module) (traits : List Str) :
    unlines ((ExtCall.runOnModule M traits).map siteLine) = (extCallPieces M traits).flatten := by
  rw [ExtCall.runOnModule, extCallPieces, List.map_flatMap, unlines_flatMap, List.flatMap,
    List.flatten_flatten, List.map_map]
  congr 1
  refine List.map_congr_left fun F _ => ?_
  show unlines (List.map siteLine (if skipFunc F = true then [] else _)) = _
  rw [if_neg (by simp), List.map_flatMap, unlines_flatMap]
  rfl

theorem reportInst_replicate (M : Module) (n : Nat) (traits : List Str) (F : Function)
    (i : Instruction) :
    ExtCall.reportInst M (List.replicate n traits).flatten F i
      = (List.replicate n (ExtCall.reportInst M traits F i)).flatten := by
  unfold ExtCall.reportInst
  split
  · simp
  · split
    · induction n with
      | zero => rfl
      | succ n ih =>
        rw [List.replicate_succ, List.flatten_cons, List.filter_append, List.map_append, ih,
          List.replicate_succ, List.flatten_cons]
    · simp

/-- With each name `n` times in the log of `ext-call-trait`, each line of
`ext-call` is there `n` times. -/
theorem extCallPieces_replicate (M : Module) (n : Nat) (traits : List Str) :
    (extCallPieces M (List.replicate n traits).flatten).flatten
      = (copies n (extCallPieces M traits)).flatten := by
  have hpiece : ∀ F i, unlines ((ExtCall.reportInst M (List.replicate n traits).flatten F i).map
      siteLine) = (List.replicate n (unlines ((ExtCall.reportInst M traits F i).map
        siteLine))).flatten := by
    intro F i
    rw [reportInst_replicate, List.map_flatten, List.map_replicate]
    induction n with
    | zero => rfl
    | succ n ih =>
      rw [List.replicate_succ, List.flatten_cons, unlines_append, ih, List.replicate_succ,
        List.flatten_cons]
  rw [flatten_copies]
  congr 1
  unfold extCallPieces
  simp only [hpiece, List.map_flatMap, List.map_map]
  rfl

/-! ## One target -/

theorem tgIr_status (d : Dir TmpFile Char) :
    (run (T.recipe .tgIr) d).2 = T.getPackagesName.2 := by
  cases h : T.getPackagesName.2 with
  | true => simp [Tools.recipe, run, exec, h]
  | false => simp [Tools.recipe, run, exec, h]

theorem tgIr_other {f : TmpFile} (h : f ≠ .packagesName) (d : Dir TmpFile Char) :
    (run (T.recipe .tgIr) d).1 f = d f := by
  refine run_other (fun c hc hf => h ?_) d
  rcases List.mem_cons.1 hc with rfl | hc
  · exact List.mem_singleton.1 hf
  · rw [List.mem_singleton.1 hc] at hf
    exact List.mem_singleton.1 hf

variable {T}

theorem map_bitcodes_ne_nil {β : Type} (h : T.Works) (f : Bitcode → β) :
    T.bitcodes.map f ≠ [] := fun hnil => h.2 (List.map_eq_nil_iff.1 hnil)

/-- Each run of `round` goes on behind what is in its log. -/
theorem build_round (h : T.Works) (d : Dir TmpFile Char) :
    T.build (.finder .round) d (.log (.finder .round))
      = some ((d (.log (.finder .round))).getD [] ++ T.roundText) := by
  have hpre : (run (T.recipe .tgIr) d).2 = true := (tgIr_status T d).trans h.1
  rw [Tools.build, make_detector, show before (.finder .round) = [.tgIr] from rfl,
    List.flatMap_singleton, run_append_ok hpre]
  show (run [T.opt (.finder .round)] _).1 _ = _
  rw [run_cons_ok (by rfl)]
  show (List.foldl _ _ _ : Dir TmpFile Char) _ = _
  rw [Directory.append_eq List.not_mem_nil (map_bitcodes_ne_nil h _), put_self,
    tgIr_other T (by decide), List.map_map]
  rfl

/-- `ext-call` makes its log anew, from the names in a log that grows. -/
theorem build_extCall (h : T.Works) (d : Dir TmpFile Char) :
    T.build (.finder .extCall) d .extCallTrait = some ((d .extCallTrait).getD [] ++ T.traitText) ∧
    T.build (.finder .extCall) d (.log (.finder .extCall))
      = some (T.bitcodes.map fun b =>
          extCall b (some ((d .extCallTrait).getD [] ++ T.traitText))).flatten := by
  have hpre : (run (T.recipe .tgIr) d).2 = true := (tgIr_status T d).trans h.1
  have hbuild : T.build (.finder .extCall) d
      = (run (T.recipe .extCallTrait ++ T.recipe (.detector (.finder .extCall)))
          (run (T.recipe .tgIr) d).1).1 := by
    rw [Tools.build, make_detector, show before (.finder .extCall) = [.tgIr, .extCallTrait] from rfl,
      List.flatMap_cons, List.flatMap_singleton, List.append_assoc, run_append_ok hpre]
  rw [hbuild, ← tgIr_other T (f := .extCallTrait) (by decide) d]
  generalize (run (T.recipe .tgIr) d).1 = d₁
  have htrait : (run (T.recipe .extCallTrait ++ T.recipe (.detector (.finder .extCall))) d₁).1
      = put (put (exec d₁ (.remove [.log (.finder .extCall)])).1 .extCallTrait
          ((d₁ .extCallTrait).getD [] ++ T.traitText)) (.log (.finder .extCall))
          (T.bitcodes.map fun b =>
            extCall b (some ((d₁ .extCallTrait).getD [] ++ T.traitText))).flatten := by
    show (run [.remove [.log (.finder .extCall)], .append .extCallTrait [] _,
      T.opt (.finder .extCall)] d₁).1 = _
    rw [run_cons_ok (by rfl), run_cons_ok (by rfl), run_cons_ok (by rfl)]
    show (List.foldl _ (List.foldl _ _ _ : Dir TmpFile Char) _ : Dir TmpFile Char) = _
    rw [Directory.append_eq List.not_mem_nil (map_bitcodes_ne_nil h _),
      Directory.append_eq (by decide) (map_bitcodes_ne_nil h _), List.map_map, List.map_map]
    rfl
  rw [htrait, put_self, put_other (by decide), put_self]
  exact ⟨rfl, rfl⟩

/-- Where no pass is run, the logs that grow stay as they are. -/
theorem build_idle (h : ¬ T.Works) (d : Dir TmpFile Char) :
    T.build (.finder .round) d (.log (.finder .round)) = d (.log (.finder .round)) ∧
    T.build (.finder .extCall) d .extCallTrait = d .extCallTrait := by
  cases hpre : (run (T.recipe .tgIr) d).2 with
  | false =>
    have hround : T.make [.detector (.finder .round)] d = run (T.recipe .tgIr) d := by
      rw [make_detector, show before (.finder .round) = [.tgIr] from rfl, List.flatMap_singleton,
        run_append_fail hpre]
    have hext : T.make [.detector (.finder .extCall)] d = run (T.recipe .tgIr) d := by
      rw [make_detector, show before (.finder .extCall) = [.tgIr, .extCallTrait] from rfl,
        List.flatMap_cons, List.append_assoc, run_append_fail hpre]
    rw [Tools.build, hround, Tools.build, hext]
    exact ⟨tgIr_other T (by decide) d, tgIr_other T (by decide) d⟩
  | true =>
    have hnil : T.bitcodes = [] := by
      by_contra hne
      exact h ⟨(tgIr_status T d).symm.trans hpre, hne⟩
    rw [Tools.build, Tools.build, make_detector, make_detector,
      show before (.finder .round) = [.tgIr] from rfl,
      show before (.finder .extCall) = [.tgIr, .extCallTrait] from rfl,
      List.flatMap_cons, List.flatMap_cons, List.append_assoc, List.append_assoc,
      run_append_ok hpre, run_append_ok hpre,
      ← tgIr_other T (f := .log (.finder .round)) (by decide) d,
      ← tgIr_other T (f := .extCallTrait) (by decide) d]
    generalize (run (T.recipe .tgIr) d).1 = d₁
    simp [Tools.recipe, Tools.detectorRecipe, Tools.opt, run, exec, hnil]

/-- The log of `ext-call` is removed before anything is written. -/
theorem build_extCall_idle (h : ¬ T.Works) {d : Dir TmpFile Char}
    (hd : d (.log (.finder .extCall)) = none) :
    T.build (.finder .extCall) d (.log (.finder .extCall)) = none := by
  cases hpre : (run (T.recipe .tgIr) d).2 with
  | false =>
    rw [Tools.build, make_detector, show before (.finder .extCall) = [.tgIr, .extCallTrait] from rfl,
      List.flatMap_cons, List.append_assoc, run_append_fail hpre, tgIr_other T (by decide), hd]
  | true =>
    have hnil : T.bitcodes = [] := by
      by_contra hne
      exact h ⟨(tgIr_status T d).symm.trans hpre, hne⟩
    rw [Tools.build, make_detector, show before (.finder .extCall) = [.tgIr, .extCallTrait] from rfl,
      List.flatMap_cons, List.append_assoc, run_append_ok hpre]
    simp [Tools.recipe, Tools.detectorRecipe, Tools.opt, run, exec, hnil]

/-! ## The invariant of a session -/

/-- A log is what its detector leaves on its own, or has copies of it. -/
def Right (T : Tools) (D : Detector) (x : Option Str) : Prop :=
  Copied x (T.build D clean (.log D)) ∧
    (D ≠ .finder .round → D ≠ .finder .extCall → x = T.build D clean (.log D))

/-- The directory throughout a session. -/
structure Consistent (T : Tools) (d : Dir TmpFile Char) : Prop where
  own : ∀ D, D ≠ .finder .round → D ≠ .finder .extCall →
    d (.log D) = none ∨ d (.log D) = T.build D clean (.log D)
  round : d (.log (.finder .round)) = none ∨
    T.Works ∧ ∃ k, d (.log (.finder .round)) = some (List.replicate (k + 1) T.roundText).flatten
  extCall : d (.log (.finder .extCall)) = none ∨ T.Works
  traits : d .extCallTrait = none ∨
    ∃ k, d .extCallTrait = some (List.replicate (k + 1) T.traitText).flatten

theorem consistent_clean : Consistent T clean :=
  ⟨fun _ _ _ => Or.inl rfl, Or.inl rfl, Or.inl rfl, Or.inl rfl⟩

/-- One more copy at the end. -/
theorem grow {x : Option Str} {t : Str}
    (h : x = none ∨ ∃ k, x = some (List.replicate (k + 1) t).flatten) :
    ∃ k, x.getD [] ++ t = (List.replicate (k + 1) t).flatten := by
  rcases h with rfl | ⟨k, rfl⟩
  · exact ⟨0, by simp⟩
  · refine ⟨k + 1, ?_⟩
    rw [List.replicate_succ' (n := k + 1), List.flatten_append]
    simp

theorem whole_roundText : Whole T.roundText := by
  refine whole_flatten fun t ht => ?_
  obtain ⟨b, -, rfl⟩ := List.mem_map.1 ht
  exact whole_unlines _

theorem whole_traitText : Whole T.traitText := by
  refine whole_flatten fun t ht => ?_
  obtain ⟨b, -, rfl⟩ := List.mem_map.1 ht
  exact whole_unlines _

/-- What `ext-call` writes with the names `k + 1` times in the log is what it
writes with the names once, each piece `k + 1` times over. -/
theorem extCall_copies (k : Nat) :
    ∃ texts : List Str, (∀ t ∈ texts, Whole t) ∧
      (T.bitcodes.map fun b => Makefile.extCall b (some T.traitText)).flatten = texts.flatten ∧
      (T.bitcodes.map fun b => Makefile.extCall b
        (some (List.replicate (k + 1) T.traitText).flatten)).flatten
        = (copies (k + 1) texts).flatten := by
  have hwords : ExtCall.loadTraits (List.replicate (k + 1) T.traitText).flatten
      = (List.replicate (k + 1) (ExtCall.loadTraits T.traitText)).flatten := by
    rw [ExtCall.loadTraits, words_flatten fun t ht => List.eq_of_mem_replicate ht ▸ whole_traitText]
    simp [List.flatMap, ExtCall.loadTraits]
  refine ⟨T.bitcodes.flatMap fun b => extCallPieces b.M (ExtCall.loadTraits T.traitText), ?_, ?_, ?_⟩
  · intro t ht
    obtain ⟨b, -, ht⟩ := List.mem_flatMap.1 ht
    obtain ⟨F, -, ht⟩ := List.mem_flatMap.1 ht
    obtain ⟨p, -, rfl⟩ := List.mem_map.1 ht
    exact whole_unlines _
  · rw [List.flatMap, List.flatten_flatten, List.map_map]
    exact congrArg List.flatten (List.map_congr_left fun b _ => extCall_eq b.M _)
  · rw [copies, List.flatMap_assoc, List.flatMap, List.flatten_flatten, List.map_map]
    refine congrArg List.flatten (List.map_congr_left fun b _ => ?_)
    show unlines ((ExtCall.runOnModule b.M (ExtCall.loadTraits _)).map siteLine) = _
    rw [Option.getD_some, hwords, extCall_eq, extCallPieces_replicate]
    rfl

/-- A build leaves the log of its detector right. -/
theorem right_build (D : Detector) {d : Dir TmpFile Char} (h : Consistent T d) :
    Right T D (T.build D d (.log D)) := by
  by_cases hround : D = .finder .round
  · subst hround
    refine ⟨?_, fun hne => absurd rfl hne⟩
    by_cases hw : T.Works
    · obtain ⟨k, hk⟩ := grow (h.round.imp id fun h => h.2)
      refine Or.inr ⟨k, [T.roundText], fun t ht => List.mem_singleton.1 ht ▸ whole_roundText, ?_, ?_⟩
      · rw [build_round hw, hk]
        simp [copies]
      · rw [build_round hw]
        simp [clean]
    · refine Or.inl ?_
      rw [(build_idle hw d).1, (build_idle hw clean).1]
      exact h.round.resolve_right fun h => hw h.1
  · by_cases hext : D = .finder .extCall
    · subst hext
      refine ⟨?_, fun _ hne => absurd rfl hne⟩
      by_cases hw : T.Works
      · obtain ⟨k, hk⟩ := grow h.traits
        obtain ⟨texts, hwhole, hone, hmany⟩ := extCall_copies (T := T) k
        refine Or.inr ⟨k, texts, hwhole, ?_, ?_⟩
        · rw [(build_extCall hw d).2, hk, hmany]
        · rw [(build_extCall hw clean).2]
          exact congrArg some hone
      · refine Or.inl ?_
        rw [build_extCall_idle hw (h.extCall.resolve_right hw), build_extCall_idle hw rfl]
    · obtain ⟨A, B, hremakes⟩ := remakes T hround hext
      have hown : T.build D d (.log D) = T.build D clean (.log D) := by
        have hd := h.own D hround hext
        simp only [Tools.build, make_detector] at hd ⊢
        exact (rebuild hremakes rfl hd).1
      exact ⟨Or.inl hown, fun _ _ => hown⟩

theorem build_other {D D' : Detector} (h : D' ≠ D) (d : Dir TmpFile Char) :
    T.build D d (.log D') = d (.log D') := make_other T h d

/-- Only `ext-call` writes the log of `ext-call-trait`. -/
theorem build_extCallTrait {D : Detector} (h : D ≠ .finder .extCall) (d : Dir TmpFile Char) :
    T.build D d .extCallTrait = d .extCallTrait := by
  have hall : (((before D).flatMap T.recipe ++ T.recipe (.detector D)).all
      fun c => decide (.extCallTrait ∉ c.writes)) = true := by
    cases D with
    | finder d => cases d <;> first | exact absurd rfl h | rfl
    | inconsistency => rfl
    | dupCollectionId => rfl
    | nepInterface n => rfl
  rw [Tools.build, make_detector]
  exact run_other (fun c hc => of_decide_eq_true (List.all_eq_true.1 hall c hc)) d

/-- The step of a session. -/
theorem consistent_build (D : Detector) {d : Dir TmpFile Char} (h : Consistent T d) :
    Consistent T (T.build D d) where
  own D' hround hext := by
    by_cases hD : D' = D
    · subst hD
      exact Or.inr ((right_build D' h).2 hround hext)
    · rw [build_other hD]
      exact h.own D' hround hext
  round := by
    by_cases hD : Detector.finder .round = D
    · subst hD
      by_cases hw : T.Works
      · obtain ⟨k, hk⟩ := grow (h.round.imp id fun h => h.2)
        exact Or.inr ⟨hw, k, by rw [build_round hw, hk]⟩
      · rw [(build_idle hw d).1]
        exact h.round
    · rw [build_other hD]
      exact h.round
  extCall := by
    by_cases hw : T.Works
    · exact Or.inr hw
    · left
      by_cases hD : Detector.finder .extCall = D
      · subst hD
        exact build_extCall_idle hw (h.extCall.resolve_right hw)
      · rw [build_other hD]
        exact h.extCall.resolve_right hw
  traits := by
    by_cases hD : D = .finder .extCall
    · subst hD
      by_cases hw : T.Works
      · obtain ⟨k, hk⟩ := grow h.traits
        exact Or.inr ⟨k, by rw [(build_extCall hw d).1, hk]⟩
      · rw [(build_idle hw d).2]
        exact h.traits
    · rw [build_extCallTrait hD]
      exact h.traits

/-! ## Reports -/

section

variable {P : Project} {tmp tmp' : Tmp}

/-- The reports that can be made from some logs, one for each order in which the
files and the sets are iterated. -/
def reports (P : Project) (tmp : Tmp) : Set Report := Set.range fun run : Run P tmp => audit run

/-- Logs with the same records and the same other findings. -/
structure SameFindings (tmp tmp' : Tmp) : Prop where
  loaded : ∀ d r, r ∈ loaded tmp' d ↔ r ∈ loaded tmp d
  inconsistency : tmp' .inconsistency = tmp .inconsistency
  dup : tmp' .dupCollectionId = tmp .dupCollectionId
  nep : ∀ n, tmp' (.nepInterface n) = tmp (.nepInterface n)

theorem SameFindings.symm (h : SameFindings tmp tmp') : SameFindings tmp' tmp :=
  ⟨fun d r => (h.loaded d r).symm, h.inconsistency.symm, h.dup.symm, fun n => (h.nep n).symm⟩

/-- The run on the other logs, in the same order. -/
def SameFindings.run (h : SameFindings tmp tmp') (run : Run P tmp) : Run P tmp' where
  files := run.files
  files_perm := run.files_perm
  set := run.set
  nodup := run.nodup
  mem_set d r := (run.mem_set d r).trans (h.loaded d r).symm

theorem SameFindings.funcNotes (h : SameFindings tmp tmp') (run : Run P tmp) (file : SourceFile)
    (func : Func) : funcNotes (h.run run) file func = funcNotes run file func := by
  unfold Audit.funcNotes
  refine List.filterMap_congr fun s _ => ?_
  have hnote : s.note (h.run run) file func = s.note run file func :=
    Section.note_congr (fun _ _ => rfl) fun _ => h.inconsistency
  rw [hnote]

theorem SameFindings.audit (h : SameFindings tmp tmp') (run : Run P tmp) :
    audit (h.run run) = audit run := by
  have hrow : reportRow (h.run run) = reportRow run := by
    funext file func
    unfold reportRow
    rw [h.funcNotes]
  have hrows : reportRows (h.run run) = reportRows run := by
    funext file
    unfold reportRows
    rw [hrow]
  have hdup : dupNotes tmp' = dupNotes tmp := by
    unfold dupNotes uniqueCollectionIdLog
    rw [h.dup]
  have hnep : interfaceNotes tmp' = interfaceNotes tmp := by
    unfold interfaceNotes
    simp only [h.nep]
  unfold Audit.audit
  rw [hrows, hdup, hnep]
  rfl

theorem SameFindings.reports (h : SameFindings tmp tmp') : reports P tmp' = reports P tmp := by
  apply Set.Subset.antisymm
  · rintro _ ⟨run, rfl⟩
    exact ⟨h.symm.run run, h.symm.audit run⟩
  · rintro _ ⟨run, rfl⟩
    exact ⟨h.run run, h.audit run⟩

end

theorem loaded_eq_elim (tmp : Tmp) (d : Finder) :
    loaded tmp d = (tmp (.finder d)).elim [] (unlog d.format.decode) := by
  unfold loaded
  cases tmp (.finder d) with
  | none => rfl
  | some text => rfl

/-- The logs of a session hold what the selected detectors leave on their own. -/
theorem sameFindings_session (T : Tools) (S : List Detector) :
    SameFindings (T.output.restrict S) (T.logs (session T.build S clean)) := by
  obtain ⟨-, hdone, hrest⟩ := session_spec (fun D d h => consistent_build D h)
    (fun D d h => right_build D h) (fun D D' d h => build_other h d)
    (consistent_clean (T := T)) S
  have hother : ∀ D, D ≠ .finder .round → D ≠ .finder .extCall →
      session T.build S clean (.log D) = if D ∈ S then T.build D clean (.log D) else none := by
    intro D hround hext
    by_cases hD : D ∈ S
    · rw [if_pos hD]
      exact (hdone D hD).2 hround hext
    · rw [if_neg hD]
      exact hrest D hD
  refine ⟨fun d r => ?_, ?_, ?_, fun n => ?_⟩
  · rw [loaded_eq_elim, loaded_eq_elim]
    by_cases hd : .finder d ∈ S
    · rw [show T.output.restrict S (.finder d) = T.output (.finder d) from if_pos hd]
      exact ((hdone _ hd).1).loads T.demangle r
    · rw [show T.output.restrict S (.finder d) = none from if_neg hd]
      show r ∈ ((session T.build S clean (.log (.finder d))).map T.rustfilt).elim [] _ ↔ _
      rw [hrest _ hd]
      exact Iff.rfl
  · show (session T.build S clean (.log .inconsistency)).bind _ = _
    rw [hother .inconsistency (by decide) (by decide), Tmp.restrict]
    split
    · rfl
    · rfl
  · show (session T.build S clean (.log .dupCollectionId)).map _ = _
    rw [hother .dupCollectionId (by decide) (by decide), Tmp.restrict]
    split
    · rfl
    · rfl
  · show (session T.build S clean (.log (.nepInterface n))).map _ = _
    rw [hother (.nepInterface n) (by simp) (by simp), Tmp.restrict]
    split
    · rfl
    · rfl

/-- A session of the Makefile refines the abstract driver: whichever detectors
are selected, in whichever order and how often, the reports that can be made from
the directory are those that can be made from what each selected detector leaves
on its own. -/
theorem session_reports (T : Tools) (P : Project) (S : List Detector) :
    (T.rustle S).map (reports P) = (rustle T.output S).map (reports P) := by
  rw [rustle_session, rustle_eq]
  split
  · rfl
  · exact congrArg some (sameFindings_session T S).reports

end Audit.Makefile
