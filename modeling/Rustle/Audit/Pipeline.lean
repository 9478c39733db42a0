import Rustle.Audit.Invocation
import Rustle.Pass.SiteLines
import Rustle.Pass.StorageGas
import Rustle.Pass.UpgradeFunc

/-!
# From the modules to the rows of the report

A finding goes a long way: the pass writes a symbol, `rustfilt` demangles it, a
loader takes the line apart, a matcher looks for the function, and a section
writes a note.

* `Tools.modelled` — the tools with the passes put in.
* `Readable` — symbols and paths that survive the way.
* `mem_loaded_pass` — what arrives from the log of a pass.
* `site_notes`, `upgrade_notes`, `storage_notes` — what the rows say of the modules.
-/

namespace Audit.Makefile

open Llvm NearCore Directory
open Text

/-! ## The passes put in -/

/-- The verdict as it is written. -/
def mark (check : Bool) : Str := if check then lit "True" rfl else lit "False" rfl

theorem isTrue_mark (check : Bool) : isTrue (mark check) = check := by
  cases check <;> decide

theorem mark_clean (check : Bool) :
    '@' ∉ mark check ∧ ('\n' ∉ mark check ∧ '\r' ∉ mark check) ∧
      rstrip (mark check) = mark check := by
  cases check <;> decide

/-- `F.getName() << "@True\n"` or `"@False\n"` -/
def checkLine (l : Str × Bool) : Str := l.1 ++ '@' :: mark l.2

/-- The passes that write the lines of selected instructions. -/
inductive SiteFinder where
  | timestamp | round | promiseResult | transfer | unsafeMath
  deriving DecidableEq

def SiteFinder.finder : SiteFinder → Finder
  | timestamp => .timestamp
  | round => .round
  | promiseResult => .promiseResult
  | transfer => .transfer
  | unsafeMath => .unsafeMath

def SiteFinder.label : SiteFinder → Str
  | timestamp => lit "timestamp use at <" rfl
  | round => lit "rounding at <" rfl
  | promiseResult => lit "promise_result at <" rfl
  | transfer => lit "transfer at <" rfl
  | unsafeMath => lit "unsafe math at <" rfl

/-- What the modules have besides their values: their names, and the addresses that
decide in which order a set of functions is iterated. -/
structure Compiled where
  names : Bitcode → UnsafeMath.Names
  order : List ValueId → List ValueId
  order_perm : ∀ l, (order l).Perm l

variable (C : Compiled)

def SiteFinder.selects (b : Bitcode) : SiteFinder → ValueId → Instruction → Bool
  | timestamp => Timestamp.selects b.M
  | round => Round.selects b.M
  | promiseResult => PromiseResult.selects b.M
  | transfer => Transfer.selects b.M b.CG
  | unsafeMath => UnsafeMath.selects (C.names b)

def SiteFinder.lines (s : SiteFinder) (b : Bitcode) : List Str :=
  (SiteLines.sites b.M (s.selects C b)).map siteLine

/-- The tools with the passes put in. -/
def Tools.modelled (T : Tools) : Tools where
  bitcodes := T.bitcodes
  demangle := T.demangle
  jsonLoad := T.jsonLoad
  pass
    | .finder .timestamp, b => SiteFinder.timestamp.lines C b
    | .finder .round, b => SiteFinder.round.lines C b
    | .finder .promiseResult, b => SiteFinder.promiseResult.lines C b
    | .finder .transfer, b => SiteFinder.transfer.lines C b
    | .finder .unsafeMath, b => SiteFinder.unsafeMath.lines C b
    | .finder .upgradeFunc, b => (UpgradeFunc.runOnModule b.M).map Callback.line
    | .finder .storageGas, b => (StorageGas.runOnModule b.M b.CG C.order).map checkLine
    | D, b => T.pass D b
  allCall := T.allCall
  getPackagesName := T.getPackagesName
  findStruct := T.findStruct
  unsafeMathToml := T.unsafeMathToml
  python := T.python

/-! ## What a detector leaves -/

section

variable {T : Tools} {D : Detector}

/-- A detector that needs `tg_ir` and runs its pass on an empty log. -/
theorem build_pass (hbefore : before D = [.tgIr])
    (hrecipe : T.recipe (.detector D) =
      [clear D, .append (.log D) [] (T.bitcodes.map fun b _ => unlines (T.pass D b))])
    (hok : T.getPackagesName.2 = true) :
    T.build D clean (.log D) = T.passLog fun b => unlines (T.pass D b) := by
  have hpre : (run (T.recipe .tgIr) clean).2 = true := (tgIr_status T clean).trans hok
  rw [Tools.build, make_detector, hbefore, List.flatMap_singleton, run_append_ok hpre, hrecipe,
    clear, run_pass T (Or.inl rfl)]
  exact if_pos rfl

theorem build_round_clean (hok : T.getPackagesName.2 = true) :
    T.build (.finder .round) clean (.log (.finder .round))
      = T.passLog fun b => unlines (T.pass (.finder .round) b) := by
  rw [Tools.passLog]
  by_cases hnil : T.bitcodes = []
  · rw [if_pos hnil, (build_idle (fun h => h.2 hnil) clean).1]
    rfl
  · rw [if_neg hnil, build_round ⟨hok, hnil⟩]
    rfl

/-- A log with a line for each item is demangled to the log of records. -/
theorem rustfilt_unlines {α β : Type} {fields : α → List Str} {items : List β} {line : β → Str}
    {record : β → α} (hline : ∀ x ∈ items, '\n' ∉ line x)
    (hdem : ∀ x ∈ items, T.demangle (line x) = logLine (fields (record x))) :
    T.rustfilt (unlines (items.map line)) = log ((items.map record).map fields) := by
  rw [Tools.rustfilt, mapLines_unlines _ (List.forall_mem_map.2 hline), log, List.map_map,
    List.map_map, List.map_map]
  exact congrArg unlines (List.map_congr_left hdem)

/-- What arrives from such a log are the records, when they are clean. -/
theorem mem_unlog_rustfilt {α β : Type} {decode : List Str → Option α} {fields : α → List Str}
    {items : List β} {line : β → Str} {record : β → α}
    (hline : ∀ x ∈ items, '\n' ∉ line x)
    (hdem : ∀ x ∈ items, T.demangle (line x) = logLine (fields (record x)))
    (hnl : ∀ x ∈ items, ∀ f ∈ fields (record x), '\n' ∉ f ∧ '\r' ∉ f)
    (hdec : ∀ x ∈ items, decode ((strip (logLine (fields (record x)))).splitOn '@')
      = some (record x)) (r : α) :
    r ∈ unlog decode (T.rustfilt (unlines (items.map line))) ↔ ∃ x ∈ items, record x = r := by
  rw [rustfilt_unlines hline hdem,
    unlog_log (List.forall_mem_map.2 hnl) (List.forall_mem_map.2 hdec), List.mem_map]

/-- What arrives from the log of a pass. -/
theorem mem_unlog_pass {α β : Type} {decode : List Str → Option α} {fields : α → List Str}
    {items : Bitcode → List β} {line : β → Str} {record : β → α}
    (hline : ∀ b ∈ T.bitcodes, ∀ x ∈ items b, '\n' ∉ line x)
    (hdem : ∀ b ∈ T.bitcodes, ∀ x ∈ items b, T.demangle (line x) = logLine (fields (record x)))
    (hnl : ∀ b ∈ T.bitcodes, ∀ x ∈ items b, ∀ f ∈ fields (record x), '\n' ∉ f ∧ '\r' ∉ f)
    (hdec : ∀ b ∈ T.bitcodes, ∀ x ∈ items b,
      decode ((strip (logLine (fields (record x)))).splitOn '@') = some (record x)) (r : α) :
    r ∈ ((T.passLog fun b => unlines ((items b).map line)).map T.rustfilt).elim []
        (unlog decode) ↔
      ∃ b ∈ T.bitcodes, ∃ x ∈ items b, record x = r := by
  rw [Tools.passLog]
  by_cases hnil : T.bitcodes = []
  · rw [if_pos hnil, hnil]
    simp
  · have htext : (T.bitcodes.map fun b => unlines ((items b).map line)).flatten
        = unlines ((T.bitcodes.flatMap items).map line) := by
      rw [List.map_flatMap, unlines_flatMap]
    rw [if_neg hnil, htext]
    refine (mem_unlog_rustfilt (List.forall_mem_flatMap.2 hline)
      (List.forall_mem_flatMap.2 hdem) (List.forall_mem_flatMap.2 hnl)
      (List.forall_mem_flatMap.2 hdec) r).trans ?_
    constructor
    · rintro ⟨x, hx, rfl⟩
      obtain ⟨b, hb, hx⟩ := List.mem_flatMap.1 hx
      exact ⟨b, hb, x, hx, rfl⟩
    · rintro ⟨b, hb, x, hx, rfl⟩
      exact ⟨x, List.mem_flatMap.2 ⟨b, hb, hx⟩, rfl⟩

/-- In a session the set of a detector has the records of its own log. -/
theorem mem_set_session {P : Project} {S : List Detector} {d : Finder} (hd : .finder d ∈ S)
    (run : Run P (T.logs (session T.build S clean))) (r : d.format.Record) :
    r ∈ run.set d ↔
      r ∈ ((T.build (.finder d) clean (.log (.finder d))).map T.rustfilt).elim []
        (unlog d.format.decode) := by
  rw [run.mem_set, (sameFindings_session T S).loaded, loaded_eq_elim,
    show T.output.restrict S (.finder d) = T.output (.finder d) from if_pos hd]
  rfl

end

/-! ## Readable names -/

/-- The function has an instruction at the location. -/
def LocatedIn (M : Module) (F : Function) (loc : DebugLoc) : Prop :=
  ∃ p ∈ F.instructions M, p.2.debugLoc = some loc

/-- What stands behind the symbol of a function in a line of a log. -/
inductive Rest (M : Module) (F : Function) : Str → Prop where
  | file (loc : DebugLoc) (h : LocatedIn M F loc) : Rest M F loc.filename
  | site (loc : DebugLoc) (h : LocatedIn M F loc) :
      Rest M F (logLine [loc.filename, Text.decimal loc.line])
  | check (b : Bool) : Rest M F (mark b)

/-- `rustfilt` turns the symbol of a line into the name `dem` of the function; names
and paths keep lines and fields apart. -/
structure Readable (T : Tools) (dem : Str → Str) : Prop where
  demangle : ∀ b ∈ T.bitcodes, ∀ F ∈ b.M.functions, ∀ rest, Rest b.M F rest →
    T.demangle (F.name ++ '@' :: rest) = dem F.name ++ '@' :: rest
  symbol : ∀ b ∈ T.bitcodes, ∀ F ∈ b.M.functions, '\n' ∉ F.name
  name : ∀ b ∈ T.bitcodes, ∀ F ∈ b.M.functions, '@' ∉ dem F.name ∧
    ('\n' ∉ dem F.name ∧ '\r' ∉ dem F.name) ∧ lstrip (dem F.name) = dem F.name
  path : ∀ b ∈ T.bitcodes, ∀ F ∈ b.M.functions, ∀ loc, LocatedIn b.M F loc →
    '@' ∉ loc.filename ∧ ('\n' ∉ loc.filename ∧ '\r' ∉ loc.filename) ∧
      rstrip loc.filename = loc.filename

section

variable {T : Tools} {dem : Str → Str} (h : Readable T dem) {b : Bitcode} (hb : b ∈ T.bitcodes)
  {F : Function} (hF : F ∈ b.M.functions) {loc : DebugLoc} (hloc : LocatedIn b.M F loc)

include h hb hF

/-- The record of a line, under the name of the function. -/
def siteRecord (dem : Str → Str) (site : Str × Str × Nat) : LineRecord :=
  (dem site.1, site.2.1, (site.2.2 : Int))

include hloc in
theorem Readable.clean_site : (siteRecord dem (F.name, loc.filename, loc.line)).Clean := by
  obtain ⟨hat, hnl, hstrip⟩ := h.name b hb F hF
  obtain ⟨hat', hnl', -⟩ := h.path b hb F hF loc hloc
  exact ⟨List.forall_mem_cons.2 ⟨hat, List.forall_mem_singleton.2 hat'⟩,
    List.forall_mem_cons.2 ⟨hnl, List.forall_mem_singleton.2 hnl'⟩, hstrip, rfl⟩

include hloc in
theorem Readable.clean_pair : PairRecord.Clean (dem F.name, loc.filename) := by
  obtain ⟨hat, hnl, hstrip⟩ := h.name b hb F hF
  obtain ⟨hat', hnl', hstrip'⟩ := h.path b hb F hF loc hloc
  exact ⟨List.forall_mem_cons.2 ⟨hat, List.forall_mem_singleton.2 hat'⟩,
    List.forall_mem_cons.2 ⟨hnl, List.forall_mem_singleton.2 hnl'⟩, hstrip, hstrip'⟩

include hloc in
theorem Readable.newline_pair : '\n' ∉ Callback.line (F.name, loc.filename) := by
  have hname := h.symbol b hb F hF
  have hpath := (h.path b hb F hF loc hloc).2.1.1
  simp [Callback.line, hname, hpath]

include hloc in
theorem Readable.newline_site : '\n' ∉ siteLine (F.name, loc.filename, loc.line) := by
  refine newline_not_mem_logLine (by decide) (List.forall_mem_cons.2 ⟨h.symbol b hb F hF,
    List.forall_mem_cons.2 ⟨(h.path b hb F hF loc hloc).2.1.1,
      List.forall_mem_singleton.2 fun hc => ?_⟩⟩)
  exact absurd (isDigit_of_mem_decimal hc) (by decide)

include hloc in
theorem Readable.demangle_site : T.demangle (siteLine (F.name, loc.filename, loc.line))
    = logLine (LineRecord.fields (siteRecord dem (F.name, loc.filename, loc.line))) :=
  h.demangle b hb F hF _ (.site loc hloc)

include hloc in
theorem Readable.demangle_pair : T.demangle (Callback.line (F.name, loc.filename))
    = logLine (PairRecord.fields (dem F.name, loc.filename)) :=
  (h.demangle b hb F hF _ (.file loc hloc)).trans (by simp [logLine, PairRecord.fields])

theorem Readable.demangle_check (check : Bool) : T.demangle (checkLine (F.name, check))
    = logLine [dem F.name, mark check] :=
  (h.demangle b hb F hF _ (.check check)).trans (by simp [logLine])

end

/-! ## Notes on instructions -/

section

variable {C} {T : Tools} {dem : Str → Str}

/-- A pass that goes on in a log that is not there. -/
theorem append_pass {file : TmpFile} {d : Dir TmpFile Char} (hnone : d file = none)
    (text : Bitcode → Str) :
    (exec d (.append file [] (T.bitcodes.map fun b _ => text b))).1 file = T.passLog text := by
  show (List.foldl _ d _ : Dir TmpFile Char) file = _
  rw [Tools.passLog]
  by_cases hnil : T.bitcodes = []
  · rw [hnil, if_pos rfl]
    exact hnone
  · rw [if_neg hnil, Directory.append_eq List.not_mem_nil fun h => hnil (List.map_eq_nil_iff.1 h),
      hnone, List.map_map, put_self]
    rfl

theorem build_unsafeMath (hok : T.getPackagesName.2 = true) (htoml : T.unsafeMathToml.2 = true) :
    T.build (.finder .unsafeMath) clean (.log (.finder .unsafeMath))
      = T.passLog fun b => unlines (T.pass (.finder .unsafeMath) b) := by
  have hpre : (run (T.recipe .tgIr) clean).2 = true := (tgIr_status T clean).trans hok
  rw [Tools.build, make_detector, show before (.finder .unsafeMath) = [.tgIr] from rfl,
    List.flatMap_singleton, run_append_ok hpre]
  generalize (run (T.recipe .tgIr) clean).1 = d
  show (run [.remove [.log (.finder .unsafeMath), .unsafeMathToml],
    .script .unsafeMathToml [] fun _ => T.unsafeMathToml, T.opt (.finder .unsafeMath)] d).1 _ = _
  rw [run_cons_ok (by rfl)]
  generalize hd₁ : (exec d (.remove [.log (.finder .unsafeMath), .unsafeMathToml])).1 = d₁
  have hnone : d₁ (.log (.finder .unsafeMath)) = none := by
    rw [← hd₁]
    simp only [exec, List.mem_cons_self, if_true]
  have hscript : (exec d₁ (.script .unsafeMathToml [] fun _ => T.unsafeMathToml)).2 = true := htoml
  rw [run_cons_ok hscript, run_cons_ok (by rfl)]
  refine append_pass ?_ fun b => unlines (T.pass (.finder .unsafeMath) b)
  rw [exec_other (by simp [Command.writes]), hnone]

/-- What a pass of this kind leaves are the lines of its sites. -/
theorem build_site (hok : T.getPackagesName.2 = true) (s : SiteFinder)
    (htoml : s = .unsafeMath → T.unsafeMathToml.2 = true) :
    (T.modelled C).build (.finder s.finder) clean (.log (.finder s.finder))
      = (T.modelled C).passLog fun b => unlines (s.lines C b) := by
  cases s with
  | timestamp => exact build_pass rfl rfl hok
  | round => exact build_round_clean hok
  | promiseResult => exact build_pass rfl rfl hok
  | transfer => exact build_pass rfl rfl hok
  | unsafeMath => exact build_unsafeMath hok (htoml rfl)

/-- The records that arrive are those of the sites. -/
theorem mem_unlog_site (h : Readable T dem) (hok : T.getPackagesName.2 = true) (s : SiteFinder)
    (htoml : s = .unsafeMath → T.unsafeMathToml.2 = true) (r : LineRecord) :
    r ∈ (((T.modelled C).build (.finder s.finder) clean (.log (.finder s.finder))).map
        (T.modelled C).rustfilt).elim [] (unlog decodeLine) ↔
      ∃ b ∈ T.bitcodes, ∃ site ∈ SiteLines.sites b.M (s.selects C b), siteRecord dem site = r := by
  rw [build_site hok s htoml]
  have hsite : ∀ b ∈ T.bitcodes, ∀ x ∈ SiteLines.sites b.M (s.selects C b),
      ∃ F ∈ b.M.functions, ∃ loc, LocatedIn b.M F loc ∧ x = (F.name, loc.filename, loc.line) := by
    intro b _ x hx
    obtain ⟨F, loc, hsel, rfl⟩ := SiteLines.mem_sites.1 hx
    obtain ⟨p, hp, -, -, hloc⟩ := hsel.instruction
    exact ⟨F, hsel.function, loc, ⟨p, hp, hloc⟩, rfl⟩
  refine @mem_unlog_pass (T.modelled C) _ _ decodeLine LineRecord.fields _ _ (siteRecord dem)
    (fun b hb x hx => ?_) (fun b hb x hx => ?_) (fun b hb x hx => ?_) (fun b hb x hx => ?_) r
  · obtain ⟨F, hF, loc, hloc, rfl⟩ := hsite b hb x hx
    exact h.newline_site hb hF hloc
  · obtain ⟨F, hF, loc, hloc, rfl⟩ := hsite b hb x hx
    exact h.demangle_site hb hF hloc
  · obtain ⟨F, hF, loc, hloc, rfl⟩ := hsite b hb x hx
    exact (LineRecord.clean_fields (h.clean_site hb hF hloc)).no_newline
  · obtain ⟨F, hF, loc, hloc, rfl⟩ := hsite b hb x hx
    exact LineRecord.decode_clean (h.clean_site hb hF hloc)

/-- An instruction that `s` selects, at the line, in a function that the report
takes for `func`. -/
def SiteAt (C : Compiled) (T : Tools) (dem : Str → Str) (s : SiteFinder) (func : Func) (path : Str)
    (n : Int) : Prop :=
  ∃ b ∈ T.bitcodes, ∃ F loc, SiteLines.Selected b.M (s.selects C b) F loc ∧
    structFuncNameMatch (dem F.name) func.struct func.struct_trait func.name path
      (some loc.filename) false = true ∧ (loc.line : Int) = n

/-- The lines of the accepted records. -/
theorem mem_accepted_lines {set : List LineRecord} {Q : LineRecord → Prop}
    (hset : ∀ r, r ∈ set ↔ Q r) {func : Func} {path : Str} {n : Int} :
    n ∈ (set.filter (accepts false func path .line)).map LineRecord.line ↔
      ∃ r, Q r ∧ structFuncNameMatch r.1 func.struct func.struct_trait func.name path
        (some r.2.1) false = true ∧ r.2.2 = n := by
  rw [List.mem_map]
  constructor
  · rintro ⟨r, hr, rfl⟩
    obtain ⟨hr, hacc⟩ := List.mem_filter.1 hr
    exact ⟨r, (hset r).1 hr, hacc, rfl⟩
  · rintro ⟨r, hr, hacc, rfl⟩
    exact ⟨r, List.mem_filter.2 ⟨(hset r).2 hr, hacc⟩, rfl⟩

theorem mem_lines_site {s : SiteFinder} {set : List LineRecord}
    (hset : ∀ r, r ∈ set ↔
      ∃ b ∈ T.bitcodes, ∃ site ∈ SiteLines.sites b.M (s.selects C b), siteRecord dem site = r)
    {func : Func} {path : Str} {n : Int} :
    n ∈ (set.filter (accepts false func path .line)).map LineRecord.line ↔
      SiteAt C T dem s func path n := by
  rw [mem_accepted_lines hset]
  constructor
  · rintro ⟨r, ⟨b, hb, site, hsite, rfl⟩, hacc, rfl⟩
    obtain ⟨F, loc, hsel, rfl⟩ := SiteLines.mem_sites.1 hsite
    exact ⟨b, hb, F, loc, hsel, hacc, rfl⟩
  · rintro ⟨b, hb, F, loc, hsel, hacc, rfl⟩
    exact ⟨_, ⟨b, hb, _, SiteLines.mem_sites.2 ⟨F, loc, hsel, rfl⟩, rfl⟩, hacc, rfl⟩

/-- When a log arrives that holds the sites of a pass, the section of the pass says
where they are. -/
theorem attached_lines {P : Project} {tmp : Tmp} {run : Run P tmp} {file : SourceFile}
    {func : Func} {d : Finder} {column : Severity} {label : Str}
    {line : d.format.Record → Int} (hs : Section.lines d column label line ∈ sections)
    {At : Int → Prop} (hlines : ∀ n, n ∈ (run.accepted file func d).map line ↔ At n) :
    ((∃ text, Attached (audit run) file func (.finder d) text) ↔
      Listed P file func ∧ contains func.macros (lit "test" rfl) = false ∧ ∃ n, At n) ∧
    ∀ text, Attached (audit run) file func (.finder d) text →
      ∃ ls, text = linesText label ls ∧ ∀ n, n ∈ ls ↔ At n := by
  have hiff : ∀ text, Attached (audit run) file func (.finder d) text ↔
      Listed P file func ∧ contains func.macros (lit "test" rfl) = false ∧
        linesText label ((run.accepted file func d).map line) = text ∧ text ≠ [] :=
    fun text => attached_iff hs
  refine ⟨?_, fun text h => ?_⟩
  · have hnil : linesText label ((run.accepted file func d).map line) ≠ [] ↔ ∃ n, At n := by
      rw [ne_eq, linesText_eq_nil_iff, List.eq_nil_iff_forall_not_mem, not_forall_not]
      exact exists_congr hlines
    rw [← hnil]
    constructor
    · rintro ⟨text, h⟩
      obtain ⟨hlist, htest, rfl, hne⟩ := (hiff text).1 h
      exact ⟨hlist, htest, hne⟩
    · rintro ⟨hlist, htest, hne⟩
      exact ⟨_, (hiff _).2 ⟨hlist, htest, rfl, hne⟩⟩
  · obtain ⟨-, -, rfl, -⟩ := (hiff text).1 h
    exact ⟨_, rfl, hlines⟩

/-- From the modules to the rows: a function that is in the report has a note of
one of these detectors exactly when one of its instructions is selected, and the
note lists the lines of those that are. -/
theorem site_notes (C : Compiled) (T : Tools) (dem : Str → Str) (h : Readable T dem)
    (hok : T.getPackagesName.2 = true) (S : List Detector) (s : SiteFinder)
    (hs : .finder s.finder ∈ S) (htoml : s = .unsafeMath → T.unsafeMathToml.2 = true)
    (P : Project) (run : Run P ((T.modelled C).logs (session (T.modelled C).build S clean)))
    (file : SourceFile) (func : Func) :
    ((∃ text, Attached (audit run) file func (.finder s.finder) text) ↔
      Listed P file func ∧ contains func.macros (lit "test" rfl) = false ∧
        ∃ n, SiteAt C T dem s func (P.path file) n) ∧
    ∀ text, Attached (audit run) file func (.finder s.finder) text →
      ∃ ls, text = linesText s.label ls ∧ ∀ n, n ∈ ls ↔ SiteAt C T dem s func (P.path file) n := by
  have hset := mem_unlog_site (C := C) h hok s htoml
  cases s with
  | timestamp =>
    exact attached_lines (d := .timestamp) (List.mem_of_getElem? (i := 6) rfl) fun n =>
      mem_lines_site fun r => (mem_set_session hs run r).trans (hset r)
  | round =>
    exact attached_lines (d := .round) (List.mem_of_getElem? (i := 3) rfl) fun n =>
      mem_lines_site fun r => (mem_set_session hs run r).trans (hset r)
  | promiseResult =>
    exact attached_lines (d := .promiseResult) (List.mem_of_getElem? (i := 12) rfl) fun n =>
      mem_lines_site fun r => (mem_set_session hs run r).trans (hset r)
  | transfer =>
    exact attached_lines (d := .transfer) (List.mem_of_getElem? (i := 2) rfl) fun n =>
      mem_lines_site fun r => (mem_set_session hs run r).trans (hset r)
  | unsafeMath =>
    exact attached_lines (d := .unsafeMath) (List.mem_of_getElem? (i := 5) rfl) fun n =>
      mem_lines_site fun r => (mem_set_session hs run r).trans (hset r)

/-- Tools that demangle what stands before the first `@` of a line. -/
def namingTools (M : Module) (names : Str → Str) : Tools where
  bitcodes := [⟨M, YoctoAttach.emptyCallGraph⟩]
  demangle line := names (line.takeWhile (· ≠ '@')) ++ line.dropWhile (· ≠ '@')
  jsonLoad _ := none
  pass _ _ := []
  allCall _ := []
  getPackagesName := (lit "token" rfl, true)
  findStruct := ([], [], true)
  unsafeMathToml := (none, true)
  python _ _ := (none, true)

theorem namingTools_demangle {M : Module} {names : Str → Str} {symbol : Str} (h : '@' ∉ symbol)
    (rest : Str) : (namingTools M names).demangle (symbol ++ '@' :: rest)
      = names symbol ++ '@' :: rest := by
  have hsolid : ∀ c ∈ symbol, decide (c ≠ '@') = true :=
    fun c hc => decide_eq_true fun heq => h (heq ▸ hc)
  show names ((symbol ++ '@' :: rest).takeWhile (· ≠ '@'))
    ++ (symbol ++ '@' :: rest).dropWhile (· ≠ '@') = _
  rw [List.takeWhile_append_of_pos hsolid, List.dropWhile_append_of_pos hsolid]
  simp

theorem readable_namingTools {M : Module} {names : Str → Str}
    (hsymbol : ∀ F ∈ M.functions, '@' ∉ F.name ∧ '\n' ∉ F.name)
    (hname : ∀ F ∈ M.functions, '@' ∉ names F.name ∧
      ('\n' ∉ names F.name ∧ '\r' ∉ names F.name) ∧ lstrip (names F.name) = names F.name)
    (hpath : ∀ F ∈ M.functions, ∀ p ∈ F.instructions M, ∀ loc ∈ p.2.debugLoc,
      '@' ∉ loc.filename ∧ ('\n' ∉ loc.filename ∧ '\r' ∉ loc.filename) ∧
        rstrip loc.filename = loc.filename) : Readable (namingTools M names) names where
  demangle b hb F hF rest _ := by
    obtain rfl := List.mem_singleton.1 hb
    exact namingTools_demangle (hsymbol F hF).1 rest
  symbol b hb F hF := by
    obtain rfl := List.mem_singleton.1 hb
    exact (hsymbol F hF).2
  name b hb F hF := by
    obtain rfl := List.mem_singleton.1 hb
    exact hname F hF
  path b hb F hF loc hloc := by
    obtain rfl := List.mem_singleton.1 hb
    obtain ⟨p, hp, hloc⟩ := hloc
    exact hpath F hF p hp loc hloc

def blockTimestamp : Str := lit "_ZN8near_sdk11environment3env15block_timestamp17h2E" rfl

/-- `on_done` asks for the time of the block. -/
def clockModule : Module := onDoneModule blockTimestamp (by decide)

def clockNames : Str → Str :=
  onDoneNames blockTimestamp (lit "near_sdk::environment::env::block_timestamp" rfl)

def clockTools : Tools := namingTools clockModule clockNames

theorem readable_clockTools : Readable clockTools clockNames :=
  readable_namingTools (by decide +kernel) (by decide +kernel) (by decide +kernel)

/-- Nothing has a name, and sets are iterated as they stand. -/
def unnamed : Compiled := ⟨fun _ => ⟨fun _ => [], fun _ => []⟩, id, fun l => .refl l⟩

theorem siteAt_clock :
    SiteAt unnamed clockTools clockNames .timestamp onDone (twoContracts.path aFile) 13 := by
  refine ⟨_, List.mem_singleton_self _, ⟨onDoneSymbol, 1, [], [⟨lit "start" rfl, [2]⟩]⟩,
    ⟨lit "src/a.rs" rfl, 13⟩, ⟨?_, ?_⟩, ?_, rfl⟩
  · exact List.mem_cons_of_mem _ (List.mem_singleton_self _)
  · decide +kernel
  · decide +kernel

theorem listed_aFile : Listed twoContracts aFile onDone :=
  ⟨List.mem_filter.2 ⟨by simp [twoContracts], by decide +kernel⟩, by decide +kernel,
    List.mem_singleton_self _⟩

/-- The row of `on_done` in `src/a.rs` says that it asks for the time. -/
theorem site_notes_clock :
    ∃ text, Attached (audit (Run.plain twoContracts ((clockTools.modelled unnamed).logs
      (session (clockTools.modelled unnamed).build [.finder .timestamp] clean))))
      aFile onDone (.finder .timestamp) text :=
  (site_notes unnamed clockTools clockNames readable_clockTools rfl [.finder .timestamp] .timestamp
    (List.mem_singleton_self _) (fun h => absurd h (by decide)) twoContracts (Run.plain _ _) aFile
    onDone).1.2 ⟨listed_aFile, by decide +kernel, 13, siteAt_clock⟩

/-! ## Notes on functions -/

/-- The section of a detector that has one phrase for all its records. -/
theorem attached_first {P : Project} {tmp : Tmp} {run : Run P tmp} {file : SourceFile}
    {func : Func} {d : Finder} {column : Severity} {phrase : Str}
    (hs : (Section.first d column fun _ => phrase) ∈ sections) (hne : phrase ≠ []) (text : Str) :
    Attached (audit run) file func (.finder d) text ↔
      text = phrase ∧ Listed P file func ∧ contains func.macros (lit "test" rfl) = false ∧
        ∃ r ∈ run.set d, d.accepts func (P.path file) r = true := by
  refine (attached_iff hs).trans ?_
  have hnote : (Section.first d column fun _ => phrase).note run file func
      = if run.accepted file func d = [] then [] else phrase := by
    show (run.accepted file func d).head?.elim [] (fun _ => phrase) = _
    cases run.accepted file func d with
    | nil => rfl
    | cons r rs => rfl
  have hnil : run.accepted file func d = [] ↔
      ¬ ∃ r ∈ run.set d, d.accepts func (P.path file) r = true := by
    rw [Run.accepted, List.filter_eq_nil_iff]
    simp only [not_exists, not_and]
  rw [hnote]
  constructor
  · rintro ⟨hlist, htest, rfl, htext⟩
    by_cases hacc : run.accepted file func d = []
    · rw [if_pos hacc] at htext
      exact absurd rfl htext
    · exact ⟨if_neg hacc, hlist, htest, not_not.1 fun hno => hacc (hnil.2 hno)⟩
  · rintro ⟨rfl, hlist, htest, hex⟩
    exact ⟨hlist, htest, if_neg fun hacc => hnil.1 hacc hex, hne⟩

/-- A function that upgrades the contract, and that the report takes for `func`. -/
def UpgradesAt (T : Tools) (dem : Str → Str) (func : Func) (path : Str) : Prop :=
  ∃ b ∈ T.bitcodes, ∃ F loc, UpgradeFunc.Upgrades b.M F ∧ UpgradeFunc.LastDeploy b.M F loc ∧
    structFuncNameMatch (dem F.name) func.struct func.struct_trait func.name path
      (some loc.filename) false = true

/-- The records that arrive are those of the functions that upgrade. -/
theorem mem_unlog_upgrade (h : Readable T dem) (hok : T.getPackagesName.2 = true)
    (r : PairRecord) :
    r ∈ (((T.modelled C).build (.finder .upgradeFunc) clean (.log (.finder .upgradeFunc))).map
        (T.modelled C).rustfilt).elim [] (unlog decodePair) ↔
      ∃ b ∈ T.bitcodes, ∃ x ∈ UpgradeFunc.runOnModule b.M, (dem x.1, x.2) = r := by
  rw [@build_pass (T.modelled C) (.finder .upgradeFunc) rfl rfl hok]
  have hpair : ∀ b ∈ T.bitcodes, ∀ x ∈ UpgradeFunc.runOnModule b.M,
      ∃ F ∈ b.M.functions, ∃ loc, LocatedIn b.M F loc ∧ x = (F.name, loc.filename) := by
    intro b _ x hx
    obtain ⟨F, loc, hup, ⟨pre, p, post, his, -, hloc, -⟩, rfl⟩ := UpgradeFunc.mem_runOnModule.1 hx
    exact ⟨F, hup.function, loc, ⟨p, by rw [his]; simp, hloc⟩, rfl⟩
  refine @mem_unlog_pass (T.modelled C) _ _ decodePair PairRecord.fields _ _
    (fun x : Str × Str => (dem x.1, x.2))
    (fun b hb x hx => ?_) (fun b hb x hx => ?_) (fun b hb x hx => ?_) (fun b hb x hx => ?_) r
  · obtain ⟨F, hF, loc, hloc, rfl⟩ := hpair b hb x hx
    exact h.newline_pair hb hF hloc
  · obtain ⟨F, hF, loc, hloc, rfl⟩ := hpair b hb x hx
    exact h.demangle_pair hb hF hloc
  · obtain ⟨F, hF, loc, hloc, rfl⟩ := hpair b hb x hx
    exact (h.clean_pair hb hF hloc).no_newline
  · obtain ⟨F, hF, loc, hloc, rfl⟩ := hpair b hb x hx
    exact PairRecord.decode_clean (h.clean_pair hb hF hloc)

/-- A function has the note when it upgrades the contract; the summary misses an
upgrade function when no function of any module does. -/
theorem upgrade_notes (C : Compiled) (T : Tools) (dem : Str → Str) (h : Readable T dem)
    (hok : T.getPackagesName.2 = true) (S : List Detector) (hs : .finder .upgradeFunc ∈ S)
    (P : Project) (run : Run P ((T.modelled C).logs (session (T.modelled C).build S clean)))
    (file : SourceFile) (func : Func) :
    (∀ text, Attached (audit run) file func (.finder .upgradeFunc) text ↔
      text = lit "upgrade func; " rfl ∧ Listed P file func ∧
        contains func.macros (lit "test" rfl) = false ∧ UpgradesAt T dem func (P.path file)) ∧
    ((audit run).upgrade ≠ [] ↔ ∀ b ∈ T.bitcodes, ∀ F, ¬ UpgradeFunc.Upgrades b.M F) := by
  have hset : ∀ r : PairRecord, r ∈ run.set .upgradeFunc ↔
      ∃ b ∈ T.bitcodes, ∃ x ∈ UpgradeFunc.runOnModule b.M, (dem x.1, x.2) = r :=
    fun r => (mem_set_session hs run r).trans (mem_unlog_upgrade h hok r)
  refine ⟨fun text => ?_, ?_⟩
  · refine (attached_first (List.mem_of_getElem? (i := 7) rfl) (by decide) text).trans ?_
    refine and_congr_right fun _ => and_congr_right fun _ => and_congr_right fun _ => ?_
    constructor
    · rintro ⟨r, hr, hacc⟩
      obtain ⟨b, hb, x, hx, rfl⟩ := (hset r).1 hr
      obtain ⟨F, loc, hup, hlast, rfl⟩ := UpgradeFunc.mem_runOnModule.1 hx
      exact ⟨b, hb, F, loc, hup, hlast, hacc⟩
    · rintro ⟨b, hb, F, loc, hup, hlast, hacc⟩
      exact ⟨(dem F.name, loc.filename), (hset _).2
        ⟨b, hb, _, UpgradeFunc.mem_runOnModule.2 ⟨F, loc, hup, hlast, rfl⟩, rfl⟩, hacc⟩
  · have hnil : (audit run).upgrade ≠ [] ↔ run.set .upgradeFunc = [] := by
      show upgradeNotes run ≠ [] ↔ _
      unfold upgradeNotes
      split
      · rename_i heq
        exact iff_of_true (List.cons_ne_nil _ _) heq
      · rename_i hne
        exact iff_of_false (fun h => h rfl) hne
    rw [hnil, List.eq_nil_iff_forall_not_mem]
    constructor
    · intro hno b hb F hup
      obtain ⟨loc, hlast⟩ := hup.exists_lastDeploy
      exact hno (dem F.name, loc.filename) ((hset _).2
        ⟨b, hb, _, UpgradeFunc.mem_runOnModule.2 ⟨F, loc, hup, hlast, rfl⟩, rfl⟩)
    · intro hno r hr
      obtain ⟨b, hb, x, hx, -⟩ := (hset r).1 hr
      obtain ⟨F, loc, hup, -⟩ := UpgradeFunc.mem_runOnModule.1 hx
      exact hno b hb F hup

/-- `on_done` deploys a contract, and calls a function of it. -/
def upgradeModule : Module where
  values :=
    [.function, .function, .function,
     .instruction ⟨.call [] [] 0 true, some ⟨lit "src/a.rs" rfl, 13⟩⟩,
     .instruction ⟨.call [] [] 1 true, some ⟨lit "src/a.rs" rfl, 14⟩⟩]
  functions :=
    [⟨lit "_ZN8near_sdk11environment3env36promise_batch_action_deploy_contract17h2E" rfl,
       0, [], []⟩,
     ⟨lit "_ZN8near_sdk11environment3env34promise_batch_action_function_call17h3E" rfl, 1, [], []⟩,
     ⟨onDoneSymbol, 2, [], [⟨lit "start" rfl, [3, 4]⟩]⟩]
  users := useList _
  users_perm := fun _ => .refl _
  operands_lt := by decide
  params_lt := by simp
  names_nodup := by decide +kernel
  functions_nodup := by decide

/-- `on_done` is the only symbol that is demangled. -/
def upgradeNames : Str → Str := onDoneNames onDoneSymbol []

def upgradeTools : Tools := namingTools upgradeModule upgradeNames

theorem readable_upgradeTools : Readable upgradeTools upgradeNames :=
  readable_namingTools (by decide +kernel) (by decide +kernel) (by decide +kernel)

theorem upgradesAt_onDone :
    UpgradesAt upgradeTools upgradeNames onDone (twoContracts.path aFile) := by
  have hmem : (onDoneSymbol, lit "src/a.rs" rfl) ∈ UpgradeFunc.runOnModule upgradeModule := by
    decide +kernel
  obtain ⟨F, loc, hup, hlast, heq⟩ := UpgradeFunc.mem_runOnModule.1 hmem
  rw [Prod.mk.injEq] at heq
  refine ⟨_, List.mem_singleton_self _, F, loc, hup, hlast, ?_⟩
  rw [← heq.1, ← heq.2]
  decide +kernel

/-- The row of `on_done` says that it upgrades the contract, and the summary says nothing; of
`clockModule` the summary says that nothing does. -/
theorem upgrade_notes_onDone :
    Attached (audit (Run.plain twoContracts ((upgradeTools.modelled unnamed).logs
      (session (upgradeTools.modelled unnamed).build [.finder .upgradeFunc] clean))))
      aFile onDone (.finder .upgradeFunc) (lit "upgrade func; " rfl) ∧
    (audit (Run.plain twoContracts ((upgradeTools.modelled unnamed).logs
      (session (upgradeTools.modelled unnamed).build [.finder .upgradeFunc] clean)))).upgrade = [] ∧
    (audit (Run.plain twoContracts ((clockTools.modelled unnamed).logs
      (session (clockTools.modelled unnamed).build [.finder .upgradeFunc] clean)))).upgrade ≠
        [] := by
  have hnotes := upgrade_notes unnamed upgradeTools upgradeNames readable_upgradeTools rfl
    [.finder .upgradeFunc] (List.mem_singleton_self _) twoContracts (Run.plain _ _) aFile onDone
  refine ⟨(hnotes.1 _).2 ⟨rfl, listed_aFile, by decide +kernel, upgradesAt_onDone⟩, ?_, ?_⟩
  · by_contra hne
    obtain ⟨b, hb, F, loc, hup, -⟩ := upgradesAt_onDone
    exact hnotes.2.1 hne b hb F hup
  · refine (upgrade_notes unnamed clockTools clockNames readable_clockTools rfl
      [.finder .upgradeFunc] (List.mem_singleton_self _) twoContracts (Run.plain _ _) aFile
      onDone).2.2 fun b hb F hup => ?_
    obtain rfl := List.mem_singleton.1 hb
    obtain ⟨loc, hlast⟩ := hup.exists_lastDeploy
    have hmem := UpgradeFunc.mem_runOnModule.2 ⟨F, loc, hup, hlast, rfl⟩
    have hnil : UpgradeFunc.runOnModule clockModule = [] := by decide +kernel
    rw [hnil] at hmem
    exact List.not_mem_nil hmem

/-- A function that expands the storage and has no check of it within reach, and
that the report takes for `func`. -/
def UncheckedAt (C : Compiled) (T : Tools) (dem : Str → Str) (func : Func) (path : Str) : Prop :=
  ∃ b ∈ T.bitcodes, ∃ F ∈ b.M.functions, StorageGas.Expands b.M F ∧
    StorageGas.hasGasCheck b.M b.CG C.order F = false ∧
    structFuncNameMatch (dem F.name) func.struct func.struct_trait func.name path none false = true

theorem decodeCheck_line {a : Str} (ha : '@' ∉ a) (hl : lstrip a = a) (check : Bool) :
    decodeCheck ((strip (logLine [a, mark check])).splitOn '@') = some (a, check) := by
  obtain ⟨hat, -, hstrip⟩ := mark_clean check
  rw [strip_pairLine, hl, hstrip, splitOn_logLine (List.cons_ne_nil _ _)
    (List.forall_mem_cons.2 ⟨ha, List.forall_mem_singleton.2 hat⟩)]
  exact congrArg (fun b => some (a, b)) (isTrue_mark check)

/-- The records that arrive are the verdicts. -/
theorem mem_unlog_storage (h : Readable T dem) (hok : T.getPackagesName.2 = true)
    (r : CheckRecord) :
    r ∈ (((T.modelled C).build (.finder .storageGas) clean (.log (.finder .storageGas))).map
        (T.modelled C).rustfilt).elim [] (unlog decodeCheck) ↔
      ∃ b ∈ T.bitcodes, ∃ x ∈ StorageGas.runOnModule b.M b.CG C.order, (dem x.1, x.2) = r := by
  rw [@build_pass (T.modelled C) (.finder .storageGas) rfl rfl hok]
  have hcheck : ∀ b ∈ T.bitcodes, ∀ x ∈ StorageGas.runOnModule b.M b.CG C.order,
      ∃ F ∈ b.M.functions, x = (F.name, StorageGas.hasGasCheck b.M b.CG C.order F) := by
    intro b _ x hx
    obtain ⟨F, hF, -, rfl⟩ := StorageGas.mem_runOnModule_iff.1 hx
    exact ⟨F, hF, rfl⟩
  refine @mem_unlog_pass (T.modelled C) _ _ decodeCheck
    (fun r : CheckRecord => [r.1, mark r.2]) _ _ (fun x : Str × Bool => (dem x.1, x.2))
    (fun b hb x hx => ?_) (fun b hb x hx => ?_) (fun b hb x hx => ?_) (fun b hb x hx => ?_) r
  · obtain ⟨F, hF, rfl⟩ := hcheck b hb x hx
    show '\n' ∉ F.name ++ '@' :: mark (StorageGas.hasGasCheck b.M b.CG C.order F)
    have hname := h.symbol b hb F hF
    have hmark := (mark_clean (StorageGas.hasGasCheck b.M b.CG C.order F)).2.1.1
    simp [hname, hmark]
  · obtain ⟨F, hF, rfl⟩ := hcheck b hb x hx
    exact h.demangle_check hb hF _
  · obtain ⟨F, hF, rfl⟩ := hcheck b hb x hx
    exact List.forall_mem_cons.2 ⟨(h.name b hb F hF).2.1,
      List.forall_mem_singleton.2 (mark_clean _).2.1⟩
  · obtain ⟨F, hF, rfl⟩ := hcheck b hb x hx
    exact decodeCheck_line (h.name b hb F hF).1 (h.name b hb F hF).2.2 _

/-- A function has the note when a function of its name expands the storage and its
verdict is that no check was found. -/
theorem storage_notes (C : Compiled) (T : Tools) (dem : Str → Str) (h : Readable T dem)
    (hok : T.getPackagesName.2 = true) (S : List Detector) (hs : .finder .storageGas ∈ S)
    (P : Project) (run : Run P ((T.modelled C).logs (session (T.modelled C).build S clean)))
    (file : SourceFile) (func : Func) (text : Str) :
    Attached (audit run) file func (.finder .storageGas) text ↔
      text = lit "require gas check for storage expansion; " rfl ∧ Listed P file func ∧
        contains func.macros (lit "test" rfl) = false ∧
          UncheckedAt C T dem func (P.path file) := by
  have hset : ∀ r : CheckRecord, r ∈ run.set .storageGas ↔
      ∃ b ∈ T.bitcodes, ∃ x ∈ StorageGas.runOnModule b.M b.CG C.order, (dem x.1, x.2) = r :=
    fun r => (mem_set_session hs run r).trans (mem_unlog_storage h hok r)
  refine (attached_first (List.mem_of_getElem? (i := 20) rfl) (by decide) text).trans ?_
  refine and_congr_right fun _ => and_congr_right fun _ => and_congr_right fun _ => ?_
  constructor
  · rintro ⟨r, hr, hacc⟩
    obtain ⟨b, hb, x, hx, rfl⟩ := (hset r).1 hr
    obtain ⟨F, hF, hexp, rfl⟩ := StorageGas.mem_runOnModule_iff.1 hx
    obtain ⟨hcheck, hmatch⟩ := Bool.and_eq_true_iff.1 hacc
    exact ⟨b, hb, F, hF, hexp, beq_iff_eq.1 hcheck, hmatch⟩
  · rintro ⟨b, hb, F, hF, hexp, hcheck, hmatch⟩
    exact ⟨(dem F.name, StorageGas.hasGasCheck b.M b.CG C.order F), (hset _).2
      ⟨b, hb, _, StorageGas.mem_runOnModule_iff.2 ⟨F, hF, hexp, rfl⟩, rfl⟩,
      Bool.and_eq_true_iff.2 ⟨beq_iff_eq.2 hcheck, hmatch⟩⟩

def insertSymbol : Str :=
  lit "_ZN8near_sdk11collections10lookup_map18LookupMap6insert17h2E" rfl

/-- `on_done` inserts into a map. -/
def insertModule : Module := onDoneModule insertSymbol (by decide)

def insertNames : Str → Str :=
  onDoneNames insertSymbol (lit "near_sdk::collections::lookup_map::LookupMap::insert" rfl)

def insertTools : Tools := namingTools insertModule insertNames

theorem readable_insertTools : Readable insertTools insertNames :=
  readable_namingTools (by decide +kernel) (by decide +kernel) (by decide +kernel)

theorem uncheckedAt_onDone :
    UncheckedAt unnamed insertTools insertNames onDone (twoContracts.path aFile) := by
  refine ⟨_, List.mem_singleton_self _, ⟨onDoneSymbol, 1, [], [⟨lit "start" rfl, [2]⟩]⟩,
    ?_, ?_, ?_, ?_⟩
  · exact List.mem_cons_of_mem _ (List.mem_singleton_self _)
  · exact StorageGas.hasStorageExpansion_iff.1 (by decide +kernel)
  · decide +kernel
  · decide +kernel

/-- The row of `on_done` says that the insertion has no check; no function of `clockModule`
inserts. -/
theorem storage_notes_onDone :
    Attached (audit (Run.plain twoContracts ((insertTools.modelled unnamed).logs
      (session (insertTools.modelled unnamed).build [.finder .storageGas] clean)))) aFile onDone
      (.finder .storageGas) (lit "require gas check for storage expansion; " rfl) ∧
    ¬ Attached (audit (Run.plain twoContracts ((clockTools.modelled unnamed).logs
      (session (clockTools.modelled unnamed).build [.finder .storageGas] clean)))) aFile onDone
      (.finder .storageGas) (lit "require gas check for storage expansion; " rfl) := by
  refine ⟨?_, fun hatt => ?_⟩
  · exact (storage_notes unnamed insertTools insertNames readable_insertTools rfl
      [.finder .storageGas] (List.mem_singleton_self _) twoContracts (Run.plain _ _) aFile onDone
      _).2 ⟨rfl, listed_aFile, by decide +kernel, uncheckedAt_onDone⟩
  · obtain ⟨-, -, -, b, hb, F, hF, hexp, -⟩ :=
      (storage_notes unnamed clockTools clockNames readable_clockTools rfl [.finder .storageGas]
        (List.mem_singleton_self _) twoContracts (Run.plain _ _) aFile onDone _).1 hatt
    obtain rfl := List.mem_singleton.1 hb
    have hno : ∀ F ∈ clockModule.functions,
        StorageGas.hasStorageExpansion clockModule F = false := by
      decide +kernel
    have hyes := StorageGas.hasStorageExpansion_iff.2 hexp
    exact absurd (hyes.symm.trans (hno F hF)) (by decide)

end

end Audit.Makefile
