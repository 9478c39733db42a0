import Mathlib

/-!
# Dictionaries that keep the order of their keys

* `Dict` — the entries, no key twice.
* `set` — a key that is there keeps its place, a new one comes last.
* `get?_set_self`, `get?_set_of_ne`, `set_set` — what a key holds, and that the last value
  counts.
* `merge` — the entries of another one put in; `mem_keys_merge`.
-/

/-- A dictionary with its entries in the order in which their keys came. -/
@[ext] structure Dict (κ ν : Type) where
  entries : List (κ × ν)
  keys_nodup : (entries.map Prod.fst).Nodup

namespace Dict

variable {κ ν : Type} [DecidableEq κ]

/-- The empty dictionary. -/
def empty : Dict κ ν := ⟨[], List.nodup_nil⟩

def setEntries (k : κ) (v : ν) : List (κ × ν) → List (κ × ν)
  | [] => [(k, v)]
  | e :: es => if e.1 = k then (k, v) :: es else e :: setEntries k v es

theorem keys_setEntries (k : κ) (v : ν) (es : List (κ × ν)) :
    (setEntries k v es).map Prod.fst
      = if k ∈ es.map Prod.fst then es.map Prod.fst else es.map Prod.fst ++ [k] := by
  induction es with
  | nil => rfl
  | cons e es ih =>
    rw [setEntries]
    by_cases h : e.1 = k
    · simp [h]
    · rw [if_neg h, List.map_cons, ih, List.map_cons]
      by_cases hk : k ∈ es.map Prod.fst
      · rw [if_pos hk, if_pos (List.mem_cons_of_mem _ hk)]
      · have hk' : k ∉ e.1 :: es.map Prod.fst := by
          rw [List.mem_cons, not_or]
          exact ⟨Ne.symm h, hk⟩
        rw [if_neg hk, if_neg hk', List.cons_append]

/-- `d[k] = v` -/
def set (d : Dict κ ν) (k : κ) (v : ν) : Dict κ ν where
  entries := setEntries k v d.entries
  keys_nodup := by
    rw [keys_setEntries]
    split
    · exact d.keys_nodup
    · rename_i hk
      exact List.Nodup.append d.keys_nodup (List.nodup_singleton k)
        (List.disjoint_singleton.2 hk)

/-- `d[k]`, `none` when the key is not there. -/
def get? (d : Dict κ ν) (k : κ) : Option ν := (d.entries.find? fun e => e.1 = k).map Prod.snd

@[simp] theorem get?_set_self (d : Dict κ ν) (k : κ) (v : ν) : (d.set k v).get? k = some v := by
  have hfind : ∀ es : List (κ × ν), (setEntries k v es).find? (fun e => e.1 = k) = some (k, v) := by
    intro es
    induction es with
    | nil => simp [setEntries]
    | cons e es ih =>
      rw [setEntries]
      by_cases h : e.1 = k
      · simp [h]
      · simp [h, ih]
  rw [get?, set, hfind, Option.map_some]

theorem get?_set_of_ne (d : Dict κ ν) {k k' : κ} (v : ν) (h : k' ≠ k) :
    (d.set k v).get? k' = d.get? k' := by
  have hfind : ∀ es : List (κ × ν),
      (setEntries k v es).find? (fun e => e.1 = k') = es.find? (fun e => e.1 = k') := by
    intro es
    induction es with
    | nil => simp [setEntries, Ne.symm h]
    | cons e es ih =>
      rw [setEntries]
      by_cases he : e.1 = k
      · rw [if_pos he, List.find?_cons_of_neg (by simpa using Ne.symm h),
          List.find?_cons_of_neg (by simpa [he] using Ne.symm h)]
      · rw [if_neg he, List.find?_cons, List.find?_cons, ih]
  rw [get?, get?, set, hfind]

/-- An entry is what its key holds. -/
theorem mem_entries_iff {d : Dict κ ν} {e : κ × ν} : e ∈ d.entries ↔ d.get? e.1 = some e.2 := by
  rw [get?, Option.map_eq_some_iff]
  constructor
  · intro he
    obtain ⟨e', he'⟩ : ∃ e', d.entries.find? (fun x => x.1 = e.1) = some e' := by
      rw [← Option.isSome_iff_exists, List.find?_isSome]
      exact ⟨e, he, by simp⟩
    have hkey : e'.1 = e.1 := by simpa using List.find?_some he'
    have heq := List.inj_on_of_nodup_map d.keys_nodup (List.mem_of_find?_eq_some he') he hkey
    exact ⟨e', he', by rw [heq]⟩
  · rintro ⟨e', he', hvalue⟩
    have hkey : e'.1 = e.1 := by simpa using List.find?_some he'
    rw [← Prod.ext hkey hvalue]
    exact List.mem_of_find?_eq_some he'

/-- Of two values for a key the last one counts. -/
@[simp] theorem set_set (d : Dict κ ν) (k : κ) (v w : ν) : (d.set k v).set k w = d.set k w := by
  have hset : ∀ es : List (κ × ν), setEntries k w (setEntries k v es) = setEntries k w es := by
    intro es
    induction es with
    | nil => simp [setEntries]
    | cons e es ih =>
      by_cases h : e.1 = k
      · simp [setEntries, h]
      · simp [setEntries, h, ih]
  apply Dict.ext
  exact hset d.entries

/-- The keys, in their order. -/
def keys (d : Dict κ ν) : List κ := d.entries.map Prod.fst

theorem mem_keys_iff {d : Dict κ ν} {k : κ} : k ∈ d.keys ↔ (d.get? k).isSome = true := by
  rw [keys, List.mem_map, Option.isSome_iff_exists]
  constructor
  · rintro ⟨e, he, rfl⟩
    exact ⟨e.2, mem_entries_iff.1 he⟩
  · rintro ⟨v, hv⟩
    exact ⟨(k, v), mem_entries_iff.2 hv, rfl⟩

/-- `{**d, **e}` -/
def merge (d e : Dict κ ν) : Dict κ ν := e.entries.foldl (fun d x => d.set x.1 x.2) d

theorem mem_keys_set {d : Dict κ ν} {k k' : κ} {v : ν} :
    k' ∈ (d.set k v).keys ↔ k' ∈ d.keys ∨ k' = k := by
  rw [mem_keys_iff, mem_keys_iff]
  by_cases h : k' = k
  · subst h
    simp
  · rw [get?_set_of_ne d v h]
    simp [h]

theorem mem_keys_merge {d e : Dict κ ν} {k : κ} :
    k ∈ (d.merge e).keys ↔ k ∈ d.keys ∨ k ∈ e.keys := by
  have hfold : ∀ (es : List (κ × ν)) (d : Dict κ ν),
      k ∈ (es.foldl (fun d x => d.set x.1 x.2) d).keys ↔ k ∈ d.keys ∨ k ∈ es.map Prod.fst := by
    intro es
    induction es with
    | nil => simp
    | cons x es ih =>
      intro d
      rw [List.foldl_cons, ih, mem_keys_set, List.map_cons, List.mem_cons, or_assoc]
  exact hfold e.entries d

end Dict
