import Rustle.Library.Text

/-!
# Matching a finding to a function

`structFuncNameMatch` decides whether a symbol that a detector has written is
the symbol of a function that `findFunc` has found.  This file states what it
decides on the symbols that Rust gives to the functions of a project.

* `structFuncNameMatch` — the matcher.
* `RustFn`, `RustFn.symbol` — functions and their demangled symbols.
* `SameOwner` — the comparison of owners that the matcher makes.
* `match_iff` — the matcher on symbols.
* `match_exact_iff` — when the matcher is equality on a project.
-/

namespace Audit

open Text

/-! ## The matcher -/

def colons : Str := [':', ':']

/-- `path.split("/")[-1].split(".")[0]` -/
def baseName (path : Str) : Str :=
  (((path.splitOn '/').getLast?.getD []).splitOn '.').headD []

/-- `None` and the empty text are one value of `struct` and `trait` here: the
source treats them alike in every test. -/
def structFuncNameMatch (func_string struct trait func path : Str)
    (detector_path : Option Str) (rustle_format : Bool) : Bool :=
  if rustle_format then struct ++ colons ++ trait ++ colons ++ func == func_string
  else if detector_path.any fun file => !endswith path file then false
  else if struct = [] then endswith func_string (baseName path ++ colons ++ func)
  else if trait = [] then
    endswith func_string (struct ++ colons ++ func)
      || endswith func_string (struct ++ lit ">::" rfl ++ func)
  else
    endswith func_string (colons ++ func)
      && (contains func_string (colons ++ struct ++ lit " as" rfl)
          && contains func_string (colons ++ trait ++ ['>'])
        || contains func_string (colons ++ trait ++ lit " for" rfl)
          && contains func_string (colons ++ struct ++ ['>']))

/-! ## Functions and symbols -/

/-- No identifier contains a character of the punctuation of symbols. -/
def isIdent (s : Str) : Bool := !s.isEmpty && s.all fun c => c ∉ [':', ' ', '<', '>']

abbrev Ident := { s : Str // isIdent s = true }

/-- The path of a module: the crate, and the modules below it. -/
structure ModPath where
  crate : Ident
  mods : List Ident
  deriving DecidableEq

/-- The last module. -/
def ModPath.last (m : ModPath) : Ident := m.mods.getLastD m.crate

/-- `crate::mods` -/
def ModPath.text (m : ModPath) : Str :=
  m.mods.foldl (fun acc i => acc ++ colons ++ i.1) m.crate.1

/-- Where a function is defined: in a module, in an `impl S`, or in an
`impl T for S`. -/
inductive Owner where
  | free (m : ModPath)
  | inherent (m : ModPath) (S : Ident)
  | ofTrait (sm : ModPath) (S : Ident) (tm : ModPath) (T : Ident)
  deriving DecidableEq

/-- The symbol before the name of the function. -/
def Owner.text : Owner → Str
  | free m => m.text
  | inherent m S => m.text ++ colons ++ S.1
  | ofTrait sm S tm T =>
    ['<'] ++ sm.text ++ colons ++ S.1 ++ lit " as " rfl ++ tm.text ++ colons ++ T.1 ++ ['>']

/-- What follows the last `::` of it. -/
def Owner.last : Owner → Str
  | free m => m.last.1
  | inherent _ S => S.1
  | ofTrait _ _ _ T => T.1 ++ ['>']

/-- A function of a project: `path` is its file as `getFiles` returns it, `file`
the same file as the detectors write it. -/
structure RustFn where
  owner : Owner
  name : Ident
  path : Str
  file : Str
  file_suffix : file <:+ path
  base_ident : isIdent (baseName path) = true
  deriving DecidableEq

/-- The demangled symbol. -/
def RustFn.symbol (h : RustFn) : Str := h.owner.text ++ colons ++ h.name.1

/-- The struct that `findFunc` gives. -/
def RustFn.struct (g : RustFn) : Str :=
  match g.owner with
  | .free _ => []
  | .inherent _ S | .ofTrait _ S _ _ => S.1

/-- The trait that `findFunc` gives. -/
def RustFn.trait (g : RustFn) : Str :=
  match g.owner with
  | .free _ | .inherent _ _ => []
  | .ofTrait _ _ _ T => T.1

/-- `structFuncNameMatch` on the symbol of `h` and the row of `g`. -/
def RustFn.matches (h g : RustFn) : Bool :=
  structFuncNameMatch h.symbol g.struct g.trait g.name.1 g.path (some h.file) false

/-! ## Identifiers and paths -/

theorem Ident.ne_nil (i : Ident) : i.1 ≠ [] := by
  intro h
  have := i.2
  simp [isIdent, h] at this

theorem isIdent_not_mem {s : Str} (h : isIdent s = true) :
    ':' ∉ s ∧ ' ' ∉ s ∧ '<' ∉ s ∧ '>' ∉ s := by
  simp only [isIdent, Bool.and_eq_true, List.all_eq_true, decide_eq_true_eq] at h
  exact ⟨fun hc => h.2 _ hc (by simp), fun hc => h.2 _ hc (by simp),
    fun hc => h.2 _ hc (by simp), fun hc => h.2 _ hc (by simp)⟩

theorem Ident.colon_not_mem (i : Ident) : ':' ∉ i.1 := (isIdent_not_mem i.2).1

theorem Ident.space_not_mem (i : Ident) : ' ' ∉ i.1 := (isIdent_not_mem i.2).2.1

theorem Ident.close_not_mem (i : Ident) : '>' ∉ i.1 := (isIdent_not_mem i.2).2.2.2

/-- The punctuation of a module path is its colons. -/
theorem ModPath.not_mem_text (m : ModPath) {c : Char} (hc : c ≠ ':')
    (hi : ∀ i : Ident, c ∉ i.1) : c ∉ m.text := by
  obtain ⟨crate, mods⟩ := m
  show c ∉ mods.foldl (fun acc i => acc ++ colons ++ i.1) crate.1
  suffices h : ∀ acc : Str, c ∉ acc → c ∉ mods.foldl (fun acc i => acc ++ colons ++ i.1) acc from
    h _ (hi crate)
  induction mods with
  | nil => exact fun acc h => h
  | cons i mods ih =>
    intro acc h
    exact ih _ (by simp [colons, h, hc, hi i])

theorem ModPath.text_eq (m : ModPath) :
    m.text = m.last.1 ∨ ∃ p, m.text = p ++ ':' :: m.last.1 := by
  obtain ⟨crate, mods⟩ := m
  unfold text last
  rcases List.eq_nil_or_concat mods with h | ⟨init, i, h⟩
  · subst h
    exact Or.inl rfl
  · subst h
    right
    refine ⟨init.foldl (fun acc i => acc ++ colons ++ i.1) crate.1 ++ [':'], ?_⟩
    simp [List.foldl_append, colons]

/-- A text without a colon is a suffix of the owner exactly when it is a suffix
of its last part. -/
theorem Owner.suffix_text_iff (o : Owner) {a : Str} (ha : ':' ∉ a) :
    a <:+ o.text ↔ a <:+ o.last := by
  cases o with
  | free m =>
    rcases m.text_eq with h | ⟨p, h⟩
    · show a <:+ m.text ↔ a <:+ m.last.1
      rw [h]
    · show a <:+ m.text ↔ a <:+ m.last.1
      rw [h]
      exact suffix_after_sep_iff ha
  | inherent m S =>
    show a <:+ m.text ++ colons ++ S.1 ↔ a <:+ S.1
    rw [show m.text ++ colons ++ S.1 = (m.text ++ [':']) ++ ':' :: S.1 by simp [colons]]
    exact suffix_after_sep_iff ha
  | ofTrait sm S tm T =>
    show a <:+ _ ++ colons ++ T.1 ++ ['>'] ↔ a <:+ T.1 ++ ['>']
    generalize ['<'] ++ sm.text ++ colons ++ S.1 ++ lit " as " rfl ++ tm.text = p
    rw [show p ++ colons ++ T.1 ++ ['>'] = (p ++ [':']) ++ ':' :: (T.1 ++ ['>']) by simp [colons]]
    exact suffix_after_sep_iff ha

/-! ## The tests of the matcher on a symbol -/

/-- A suffix test on a symbol compares the names, and the owner's last part. -/
theorem RustFn.endswith_symbol_iff (h : RustFn) {a : Str} (ha : ':' ∉ a) (f : Ident) :
    endswith h.symbol (a ++ colons ++ f.1) = true ↔ a <:+ h.owner.last ∧ f = h.name := by
  have hpat : a ++ colons ++ f.1 = (a ++ [':']) ++ ':' :: f.1 := by simp [colons]
  have hsym : h.symbol = (h.owner.text ++ [':']) ++ ':' :: h.name.1 := by
    simp [symbol, colons]
  rw [endswith_iff, hpat, hsym, suffix_sep_iff h.name.colon_not_mem f.colon_not_mem,
    ← h.owner.suffix_text_iff ha, Subtype.ext_iff]
  refine and_congr_left fun _ => ⟨?_, ?_⟩
  · rintro ⟨w, hw⟩
    rw [← List.append_assoc] at hw
    exact ⟨w, List.append_cancel_right hw⟩
  · rintro ⟨w, hw⟩
    exact ⟨w, by rw [← hw]; simp⟩

/-- The symbol of a function outside trait implementations has no blank. -/
theorem RustFn.space_not_mem_symbol {h : RustFn} (ho : ∀ sm S tm T, h.owner ≠ .ofTrait sm S tm T) :
    ' ' ∉ h.symbol := by
  have hm : ∀ m : ModPath, ' ' ∉ m.text := fun m =>
    m.not_mem_text (by decide) Ident.space_not_mem
  have hn := h.name.space_not_mem
  unfold symbol
  cases hown : h.owner with
  | free m => simp [Owner.text, colons, hm, hn]
  | inherent m S => simp [Owner.text, colons, hm, hn, S.space_not_mem]
  | ofTrait sm S tm T => exact absurd hown (ho sm S tm T)

section TraitMethod

variable {sm tm : ModPath} {S T name : Ident}

/-- What precedes the first blank of a trait method's symbol. -/
def traitHead (sm : ModPath) (S : Ident) : Str := ['<'] ++ sm.text ++ colons ++ S.1

/-- What follows its last blank. -/
def traitTail (tm : ModPath) (T name : Ident) : Str :=
  tm.text ++ colons ++ T.1 ++ ['>'] ++ colons ++ name.1

theorem traitSymbol_eq :
    (Owner.ofTrait sm S tm T).text ++ colons ++ name.1
      = traitHead sm S ++ ' ' :: (['a', 's'] ++ ' ' :: traitTail tm T name) := by
  simp [Owner.text, traitHead, traitTail, lit]

theorem space_not_mem_traitHead : ' ' ∉ traitHead sm S := by
  simp [traitHead, colons, sm.not_mem_text (c := ' ') (by decide) Ident.space_not_mem,
    S.space_not_mem]

theorem space_not_mem_traitTail : ' ' ∉ traitTail tm T name := by
  simp [traitTail, colons, tm.not_mem_text (c := ' ') (by decide) Ident.space_not_mem,
    T.space_not_mem, name.space_not_mem]

/-- A name after `::` is a suffix of the head exactly when it is the struct. -/
theorem colons_suffix_traitHead_iff {i : Ident} : colons ++ i.1 <:+ traitHead sm S ↔ i = S := by
  have hpat : colons ++ i.1 = [':'] ++ ':' :: i.1 := rfl
  have hhead : traitHead sm S = (['<'] ++ sm.text ++ [':']) ++ ':' :: S.1 := by
    simp [traitHead, colons]
  rw [hpat, hhead, suffix_sep_iff S.colon_not_mem i.colon_not_mem, Subtype.ext_iff]
  exact and_iff_right ⟨['<'] ++ sm.text, by simp⟩

/-- A pattern of a name after `::` and a blank is found at the first blank. -/
theorem contains_blank_iff {i : Ident} {b : Str} :
    contains ((Owner.ofTrait sm S tm T).text ++ colons ++ name.1) (colons ++ i.1 ++ ' ' :: b) = true
      ↔ i = S ∧ b <+: ['a', 's'] ++ ' ' :: traitTail tm T name := by
  have ha : ' ' ∉ colons ++ i.1 := by simp [colons, i.space_not_mem]
  have hlater : ¬ colons ++ i.1 <:+ ['a', 's'] := by
    intro h
    exact absurd (h.subset (show ':' ∈ colons ++ i.1 by simp [colons])) (by decide)
  rw [contains_iff, traitSymbol_eq, infix_first_sep_iff ha space_not_mem_traitHead,
    infix_sep_iff (by decide) space_not_mem_traitTail, colons_suffix_traitHead_iff,
    or_iff_left fun h => hlater h.1]

theorem contains_struct_as_iff {i : Ident} :
    contains ((Owner.ofTrait sm S tm T).text ++ colons ++ name.1) (colons ++ i.1 ++ lit " as" rfl)
      = true ↔ i = S := by
  show contains _ (colons ++ i.1 ++ ' ' :: ['a', 's']) = true ↔ i = S
  rw [contains_blank_iff]
  exact and_iff_left (List.prefix_append _ _)

theorem not_contains_trait_for {i : Ident} :
    contains ((Owner.ofTrait sm S tm T).text ++ colons ++ name.1) (colons ++ i.1 ++ lit " for" rfl)
      = false := by
  show contains _ (colons ++ i.1 ++ ' ' :: ['f', 'o', 'r']) = false
  rw [Bool.eq_false_iff, ne_eq, contains_blank_iff]
  rintro ⟨-, t, ht⟩
  simp at ht

/-- A name between `::` and `>` is the trait's. -/
theorem contains_trait_close_iff {i : Ident} :
    contains ((Owner.ofTrait sm S tm T).text ++ colons ++ name.1) (colons ++ i.1 ++ ['>']) = true
      ↔ i = T := by
  have hm : ∀ m : ModPath, '>' ∉ m.text := fun m =>
    m.not_mem_text (by decide) Ident.close_not_mem
  have hsym : (Owner.ofTrait sm S tm T).text ++ colons ++ name.1
      = ((['<'] ++ sm.text ++ colons ++ S.1 ++ lit " as " rfl ++ tm.text ++ [':']) ++ ':' :: T.1)
        ++ '>' :: (colons ++ name.1) := by
    simp [Owner.text, colons]
  have hu : '>' ∉ (['<'] ++ sm.text ++ colons ++ S.1 ++ lit " as " rfl ++ tm.text ++ [':'])
      ++ ':' :: T.1 := by
    simp [colons, lit, hm, S.close_not_mem, T.close_not_mem]
  have hv : '>' ∉ colons ++ name.1 := by simp [colons, name.close_not_mem]
  have hpat : colons ++ i.1 ++ ['>'] = ([':'] ++ ':' :: i.1) ++ '>' :: [] := by simp [colons]
  rw [contains_iff, hsym, hpat, infix_sep_iff hu hv,
    suffix_sep_iff T.colon_not_mem i.colon_not_mem, Subtype.ext_iff]
  exact ⟨fun h => h.1.2, fun h => ⟨⟨List.suffix_append _ _, h⟩, List.nil_prefix⟩⟩

end TraitMethod

/-! ## The matcher on symbols -/

/-- What the matcher compares of the owner of `g` with the owner of `h`: a free
function is looked up by the base name of its file, a method by its struct, and
both by suffix only. -/
def SameOwner (g h : RustFn) : Prop :=
  match g.owner, h.owner with
  | .free _, .free m => baseName g.path <:+ m.last.1
  | .free _, .inherent _ S => baseName g.path <:+ S.1
  | .free _, .ofTrait .. => False
  | .inherent _ S, .free m => S.1 <:+ m.last.1
  | .inherent _ S, .inherent _ S' => S.1 <:+ S'.1
  | .inherent _ S, .ofTrait _ _ _ T => S.1 <:+ T.1
  | .ofTrait _ S _ T, .ofTrait _ S' _ T' => S = S' ∧ T = T'
  | .ofTrait .., _ => False

theorem RustFn.matches_eq (h g : RustFn) :
    h.matches g = (endswith g.path h.file &&
      structFuncNameMatch h.symbol g.struct g.trait g.name.1 g.path none false) := by
  show (if (!endswith g.path h.file) = true then false
    else structFuncNameMatch h.symbol g.struct g.trait g.name.1 g.path none false) = _
  cases endswith g.path h.file with
  | false => rfl
  | true => rfl

/-- Only the empty text is a suffix of `b>` without a `>`. -/
theorem not_suffix_close {a b : Str} (hne : a ≠ []) (ha : '>' ∉ a) : ¬ a <:+ b ++ ['>'] := by
  intro h
  rcases List.suffix_concat_iff.1 h with h | ⟨t, h, -⟩
  · exact hne h
  · exact ha (by rw [h]; simp)

theorem matches_free_iff {h g : RustFn} {m : ModPath} (hg : g.owner = .free m) :
    structFuncNameMatch h.symbol g.struct g.trait g.name.1 g.path none false = true
      ↔ g.name = h.name ∧ SameOwner g h := by
  have hs : g.struct = [] := by rw [RustFn.struct, hg]
  have hb := isIdent_not_mem g.base_ident
  have hne : baseName g.path ≠ [] := Ident.ne_nil ⟨_, g.base_ident⟩
  simp only [structFuncNameMatch, hs, if_true, Option.any_none, Bool.false_eq_true, if_false]
  rw [h.endswith_symbol_iff hb.1, and_comm, SameOwner, hg]
  cases h.owner with
  | free m' => exact Iff.rfl
  | inherent m' S => exact Iff.rfl
  | ofTrait sm S tm T =>
    exact and_congr_right fun _ => iff_false_intro (not_suffix_close hne hb.2.2.2)

theorem matches_inherent_iff {h g : RustFn} {m : ModPath} {S : Ident}
    (hg : g.owner = .inherent m S) :
    structFuncNameMatch h.symbol g.struct g.trait g.name.1 g.path none false = true
      ↔ g.name = h.name ∧ SameOwner g h := by
  have hs : g.struct = S.1 := by rw [RustFn.struct, hg]
  have ht : g.trait = [] := by rw [RustFn.trait, hg]
  have hclose : ':' ∉ S.1 ++ ['>'] := by simp [S.colon_not_mem]
  have hpat : S.1 ++ lit ">::" rfl ++ g.name.1 = (S.1 ++ ['>']) ++ colons ++ g.name.1 := by
    simp [lit, colons]
  simp only [structFuncNameMatch, hs, ht, S.ne_nil, if_true, Option.any_none, Bool.false_eq_true,
    if_false, Bool.or_eq_true]
  rw [hpat, h.endswith_symbol_iff S.colon_not_mem, h.endswith_symbol_iff hclose, ← or_and_right,
    and_comm, SameOwner, hg]
  have hno : ∀ i : Ident, ¬ S.1 ++ ['>'] <:+ i.1 := fun i hi =>
    i.close_not_mem (hi.subset (by simp))
  apply and_congr_right
  intro _
  cases h.owner with
  | free m' => exact or_iff_left (hno _)
  | inherent m' S' => exact or_iff_left (hno _)
  | ofTrait sm S' tm T =>
    show S.1 <:+ T.1 ++ ['>'] ∨ S.1 ++ ['>'] <:+ T.1 ++ ['>'] ↔ S.1 <:+ T.1
    rw [or_iff_right (not_suffix_close S.ne_nil S.close_not_mem)]
    refine ⟨?_, ?_⟩
    · rintro ⟨w, hw⟩
      rw [← List.append_assoc] at hw
      exact ⟨w, List.append_cancel_right hw⟩
    · rintro ⟨w, hw⟩
      exact ⟨w, by rw [← hw]; simp⟩

theorem matches_trait_iff {h g : RustFn} {sm tm : ModPath} {S T : Ident}
    (hg : g.owner = .ofTrait sm S tm T) :
    structFuncNameMatch h.symbol g.struct g.trait g.name.1 g.path none false = true
      ↔ g.name = h.name ∧ SameOwner g h := by
  have hs : g.struct = S.1 := by rw [RustFn.struct, hg]
  have ht : g.trait = T.1 := by rw [RustFn.trait, hg]
  have hname : endswith h.symbol (colons ++ g.name.1) = true ↔ g.name = h.name := by
    have := h.endswith_symbol_iff (a := []) (by simp) g.name
    rw [List.nil_append] at this
    rw [this]
    exact and_iff_right List.nil_suffix
  simp only [structFuncNameMatch, hs, ht, S.ne_nil, T.ne_nil, Option.any_none, Bool.false_eq_true,
    if_false, Bool.and_eq_true]
  rw [hname, SameOwner, hg]
  apply and_congr_right
  intro _
  by_cases hh : ∃ sm' S' tm' T', h.owner = .ofTrait sm' S' tm' T'
  · obtain ⟨sm', S', tm', T', hh⟩ := hh
    rw [RustFn.symbol, hh, not_contains_trait_for, Bool.false_and, Bool.or_false,
      Bool.and_eq_true, contains_struct_as_iff, contains_trait_close_iff]
  · -- without a blank in the symbol neither pattern occurs
    have hsp : ' ' ∉ h.symbol := RustFn.space_not_mem_symbol fun sm' S' tm' T' he =>
      hh ⟨sm', S', tm', T', he⟩
    have has : contains h.symbol (colons ++ S.1 ++ lit " as" rfl) = false := by
      rw [Bool.eq_false_iff, ne_eq, contains_iff]
      exact fun hi => hsp (hi.subset (by simp [lit]))
    have hfor : contains h.symbol (colons ++ T.1 ++ lit " for" rfl) = false := by
      rw [Bool.eq_false_iff, ne_eq, contains_iff]
      exact fun hi => hsp (hi.subset (by simp [lit]))
    rw [has, hfor, Bool.false_and, Bool.false_and, Bool.or_false]
    cases hown : h.owner with
    | free m' => simp
    | inherent m' S' => simp
    | ofTrait sm' S' tm' T' => exact absurd ⟨sm', S', tm', T', hown⟩ hh

/-- On symbols the matcher compares the file by suffix, the name exactly, and
the owner as `SameOwner` says. -/
theorem match_iff (h g : RustFn) :
    h.matches g = true ↔ h.file <:+ g.path ∧ g.name = h.name ∧ SameOwner g h := by
  rw [RustFn.matches_eq, Bool.and_eq_true, endswith_iff]
  apply and_congr_right
  intro _
  cases hg : g.owner with
  | free m => exact matches_free_iff hg
  | inherent m S => exact matches_inherent_iff hg
  | ofTrait sm S tm T => exact matches_trait_iff hg

/-- A function has its own owner, unless it is free and its module is not named
as its file. -/
theorem sameOwner_self_iff (g : RustFn) :
    SameOwner g g ↔ ∀ m, g.owner = .free m → baseName g.path <:+ m.last.1 := by
  rw [SameOwner]
  cases hg : g.owner with
  | free m => exact ⟨fun h m' hm' => Owner.free.inj hm' ▸ h, fun h => h m rfl⟩
  | inherent m S => exact iff_of_true List.suffix_rfl fun m' hm' => by cases hm'
  | ofTrait sm S tm T => exact iff_of_true ⟨rfl, rfl⟩ fun m' hm' => by cases hm'

/-- The matcher is equality on a project exactly when every free function lies
in a module whose name ends with the base name of its file, and no two functions
of one name, the file of the second a suffix of the path of the first, have the
same owner for the matcher. -/
theorem match_exact_iff (P : List RustFn) :
    (∀ g ∈ P, ∀ h ∈ P, h.matches g = true ↔ g = h) ↔
      (∀ g ∈ P, ∀ m, g.owner = .free m → baseName g.path <:+ m.last.1) ∧
      ∀ g ∈ P, ∀ h ∈ P, g ≠ h → g.name = h.name → h.file <:+ g.path → ¬ SameOwner g h := by
  refine ⟨fun hex => ⟨fun g hg => ?_, fun g hg h hh hne hname hfile hso => ?_⟩, ?_⟩
  · rw [← sameOwner_self_iff]
    exact ((match_iff g g).1 ((hex g hg g hg).2 rfl)).2.2
  · exact hne ((hex g hg h hh).1 ((match_iff h g).2 ⟨hfile, hname, hso⟩))
  · rintro ⟨hself, hcross⟩ g hg h hh
    refine ⟨fun hm => ?_, fun heq => ?_⟩
    · obtain ⟨hfile, hname, hso⟩ := (match_iff h g).1 hm
      by_contra hne
      exact hcross g hg h hh hne hname hfile hso
    · subst heq
      exact (match_iff g g).2 ⟨g.file_suffix, rfl, (sameOwner_self_iff g).2 (hself g hg)⟩

/-- `init` of the crate root of a crate `token`. -/
def tokenInit : RustFn where
  owner := .free ⟨⟨lit "token" rfl, by decide⟩, []⟩
  name := ⟨lit "init" rfl, by decide⟩
  path := lit "/home/u/token/src/lib.rs" rfl
  file := lit "src/lib.rs" rfl
  file_suffix := by decide
  base_ident := by decide +kernel

/-- A free function of the crate root is not matched by its own symbol
`token::init`, since it is looked up as `lib::init`. -/
theorem crate_root_not_matched :
    ¬ ∀ g ∈ [tokenInit], ∀ h ∈ [tokenInit], h.matches g = true ↔ g = h := by
  intro h
  have hm : tokenInit.matches tokenInit = true :=
    (h _ (List.mem_singleton_self _) _ (List.mem_singleton_self _)).2 rfl
  exact absurd hm (by decide +kernel)

end Audit
