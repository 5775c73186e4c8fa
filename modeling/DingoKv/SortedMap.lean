import DingoKv.Basic

/-!
# The ordered map behind `kv_index_map_`

`kv_index_map_` is a thread-safe `std::map` keyed by the key bytes; its class is not in the
sources. `kv_control_kv.cc` uses `Get`, `Put`, `Erase`, `GetRangeValues` and `GetAllKeys`.
The map is a list of `(key, value)` entries kept strictly sorted by key, the sortedness carried by
the structure, so every map that can be built is ordered and has one entry per key.

* `get`, `put`, `erase`: `Get` / `Put` / `Erase`; `put` inserts in key order or replaces.
* `getRangeValues m lower upper filter`: the ascending scan of `[lower, upper)` keeping the values
  the predicate accepts (`GetRangeValues` with no key filter, as `RangeRawKvIndex` calls it).

Results: read-after-write (`get_put`, `get_erase`), `ext` (two maps with the same reads are
equal), and the shape of the entry list after a write: a `put` on a present key replaces its
entry in place (`entries_put_of_get`), `erase` is a filter (`entries_erase`), and off the written
key the entries are those of the old map (`filter_entries_put`, `filter_entries_erase`).
-/

namespace DingoKv

variable {K V : Type} [LinearOrder K]

/-! ## Sorted association lists -/

/-- The value of the first entry for `k`. -/
def lookup : List (K × V) → K → Option V
  | [], _ => none
  | (k', v) :: rest, k => if k' = k then some v else lookup rest k

/-- Insert `(k, v)` in key order, replacing the entry for `k`. -/
def insertSorted : List (K × V) → K → V → List (K × V)
  | [], k, v => [(k, v)]
  | (k', v') :: rest, k, v =>
    if k < k' then (k, v) :: (k', v') :: rest
    else if k' = k then (k, v) :: rest
    else (k', v') :: insertSorted rest k v

/-- Drop the entry for `k`. -/
def removeKey : List (K × V) → K → List (K × V)
  | [], _ => []
  | (k', v') :: rest, k => if k' = k then rest else (k', v') :: removeKey rest k

/-- Entries strictly sorted by key. -/
def KeySorted (l : List (K × V)) : Prop := l.Pairwise fun a b => a.1 < b.1

theorem keySorted_cons {e : K × V} {l : List (K × V)} :
    KeySorted (e :: l) ↔ (∀ e' ∈ l, e.1 < e'.1) ∧ KeySorted l :=
  List.pairwise_cons

theorem lookup_eq_none {l : List (K × V)} {k : K} (h : ∀ e ∈ l, e.1 ≠ k) : lookup l k = none := by
  induction l with
  | nil => rfl
  | cons e rest ih =>
    simp only [lookup, if_neg (h e (List.mem_cons_self _ _))]
    exact ih fun e' he' => h e' (List.mem_cons_of_mem _ he')

theorem lookup_insertSorted (l : List (K × V)) (k : K) (v : V) (q : K) :
    lookup (insertSorted l k v) q = if q = k then some v else lookup l q := by
  induction l with
  | nil => simp only [insertSorted, lookup, eq_comm]
  | cons e rest ih =>
    obtain ⟨k', v'⟩ := e
    simp only [insertSorted]
    split_ifs <;> simp_all [lookup, eq_comm]

theorem mem_insertSorted {l : List (K × V)} {k : K} {v : V} {e : K × V}
    (h : e ∈ insertSorted l k v) : e = (k, v) ∨ e ∈ l := by
  induction l with
  | nil => simpa [insertSorted] using h
  | cons x rest ih =>
    obtain ⟨k', v'⟩ := x
    simp only [insertSorted] at h
    split_ifs at h <;> simp only [List.mem_cons] at h ⊢
    · exact h
    · exact h.imp_right .inr
    · exact h.elim (.inr ∘ .inl) fun h => (ih h).imp_right .inr

theorem keySorted_insertSorted {l : List (K × V)} (hl : KeySorted l) (k : K) (v : V) :
    KeySorted (insertSorted l k v) := by
  induction l with
  | nil => simp [insertSorted, KeySorted]
  | cons e rest ih =>
    obtain ⟨k', v'⟩ := e
    obtain ⟨hlt, hrest⟩ := keySorted_cons.mp hl
    simp only [insertSorted]
    split_ifs with h1 h2
    · exact keySorted_cons.mpr ⟨fun e he => (List.mem_cons.mp he).elim (· ▸ h1)
        fun he => h1.trans (hlt e he), hl⟩
    · exact keySorted_cons.mpr ⟨fun e he => h2 ▸ hlt e he, hrest⟩
    · refine keySorted_cons.mpr ⟨fun e he => ?_, ih hrest⟩
      rcases mem_insertSorted he with rfl | he
      · exact lt_of_le_of_ne (not_lt.mp h1) h2
      · exact hlt e he

theorem removeKey_sublist (l : List (K × V)) (k : K) : List.Sublist (removeKey l k) l := by
  induction l with
  | nil => exact List.Sublist.slnil
  | cons e rest ih =>
    simp only [removeKey]
    split_ifs
    · exact List.sublist_cons_self _ _
    · exact ih.cons_cons _

theorem removeKey_eq_filter [DecidableEq K] {l : List (K × V)} (hl : KeySorted l) (k : K) :
    removeKey l k = l.filter fun e => e.1 ≠ k := by
  induction l with
  | nil => rfl
  | cons e rest ih =>
    obtain ⟨hlt, hrest⟩ := keySorted_cons.mp hl
    by_cases h : e.1 = k
    · subst h
      have : rest.filter (fun e' => !decide (e'.1 = e.1)) = rest :=
        List.filter_eq_self.mpr fun e' he' => by simpa using (hlt e' he').ne'
      simp [removeKey, this]
    · simp [removeKey, h, ih hrest]

/-- Dropping the entries of `key` hides it and nothing else. -/
theorem lookup_filter_ne [DecidableEq K] (l : List (K × V)) (key k : K) :
    lookup (l.filter fun e => e.1 ≠ key) k = if k = key then none else lookup l k := by
  induction l with
  | nil => simp [lookup]
  | cons e rest ih =>
    by_cases h1 : e.1 = key <;> by_cases h2 : e.1 = k <;> simp_all [lookup, List.filter_cons]

theorem mem_iff_lookup {l : List (K × V)} (hl : KeySorted l) {k : K} {v : V} :
    (k, v) ∈ l ↔ lookup l k = some v := by
  induction l with
  | nil => simp [lookup]
  | cons e rest ih =>
    obtain ⟨k', v'⟩ := e
    obtain ⟨hlt, hrest⟩ := keySorted_cons.mp hl
    by_cases h : k' = k
    · subst h
      have : (k', v) ∉ rest := fun hm => lt_irrefl k' (hlt (k', v) hm)
      simp [lookup, this, eq_comm]
    · simp [lookup, h, Ne.symm h, ih hrest]

theorem lookup_removeKey {l : List (K × V)} (hl : KeySorted l) (k q : K) :
    lookup (removeKey l k) q = if q = k then none else lookup l q := by
  induction l with
  | nil => simp [removeKey, lookup]
  | cons e rest ih =>
    obtain ⟨k', v'⟩ := e
    obtain ⟨hlt, hrest⟩ := keySorted_cons.mp hl
    by_cases h : k' = k
    · subst h
      have : lookup rest k' = none := lookup_eq_none fun e he => (hlt e he).ne'
      rw [removeKey, if_pos rfl, lookup]
      by_cases hq : q = k'
      · rw [if_pos hq, hq, this]
      · rw [if_neg hq, if_neg (Ne.symm hq)]
    · rw [removeKey, if_neg h, lookup, lookup, ih hrest]
      by_cases hq : q = k
      · rw [if_pos hq, if_pos hq, if_neg (hq ▸ h)]
      · rw [if_neg hq, if_neg hq]

theorem keySorted_nodup {l : List (K × V)} (hl : KeySorted l) : l.Nodup :=
  hl.imp fun h => ne_of_apply_ne Prod.fst (ne_of_lt h)

/-- Two sorted lists with the same lookups are equal. -/
theorem eq_of_lookup {l l' : List (K × V)} (hl : KeySorted l) (hl' : KeySorted l')
    (h : ∀ k, lookup l k = lookup l' k) : l = l' := by
  have hmem : ∀ e, e ∈ l ↔ e ∈ l' := fun ⟨k, v⟩ => by
    rw [mem_iff_lookup hl, mem_iff_lookup hl', h]
  haveI : IsAntisymm (K × V) fun a b => a.1 < b.1 :=
    ⟨fun _ _ h1 h2 => absurd (h1.trans h2) (lt_irrefl _)⟩
  exact List.eq_of_perm_of_sorted
    ((List.perm_ext_iff_of_nodup (keySorted_nodup hl) (keySorted_nodup hl')).mpr hmem) hl hl'

/-- On a present key, `insertSorted` replaces the entry in place. -/
theorem insertSorted_of_lookup {l : List (K × V)} (hl : KeySorted l) {k : K} {v old : V}
    (h : lookup l k = some old) : insertSorted l k v = l.map fun e => if e.1 = k then (k, v) else e := by
  induction l with
  | nil => simp [lookup] at h
  | cons e rest ih =>
    obtain ⟨k', v'⟩ := e
    obtain ⟨hlt, hrest⟩ := keySorted_cons.mp hl
    by_cases hk : k' = k
    · subst hk
      have : rest.map (fun e => if e.1 = k' then (k', v) else e) = rest :=
        (List.map_congr_left fun e he => if_neg (hlt e he).ne').trans (List.map_id _)
      simp [insertSorted, this]
    · rw [lookup, if_neg hk] at h
      have hkk : k' < k := by
        obtain ⟨e, he, rfl⟩ : ∃ e ∈ rest, e.1 = k := by
          by_contra hn
          push_neg at hn
          simp [lookup_eq_none hn] at h
        exact hlt e he
      simp [insertSorted, not_lt.mpr hkk.le, hk, ih hrest h]

theorem filter_insertSorted [DecidableEq K] (l : List (K × V)) (k : K) (v : V) :
    (insertSorted l k v).filter (fun e => e.1 ≠ k) = l.filter fun e => e.1 ≠ k := by
  induction l with
  | nil => simp [insertSorted]
  | cons e rest ih =>
    obtain ⟨k', v'⟩ := e
    simp only [insertSorted]
    split_ifs with h1 h2
    · simp
    · simp [h2]
    · simpa [h2] using ih

/-- The entries of one key: its entry, if any. -/
theorem filter_key_eq [DecidableEq K] {l : List (K × V)} (hl : KeySorted l) (k : K) :
    l.filter (fun e => e.1 = k) = (lookup l k).toList.map (k, ·) := by
  induction l with
  | nil => rfl
  | cons e rest ih =>
    obtain ⟨k', v'⟩ := e
    obtain ⟨hlt, hrest⟩ := keySorted_cons.mp hl
    by_cases h : k' = k
    · subst h
      have : rest.filter (fun e => e.1 = k') = [] :=
        List.filter_eq_nil_iff.mpr fun e he => by simpa using (hlt e he).ne'
      simp [lookup, this]
    · simp [lookup, h, ih hrest]

/-! ## The map -/

/-- Modelled from the spec: the ordered map behind `kv_index_map_` ("`KeyIndexMap`: key →
KeyIndex. Supports point `get`, `put`, `erase`, and ordered range with a caller-supplied
predicate"), a `std::map` whose class is not in the sources. -/
structure SortedMap (K V : Type) [LinearOrder K] where
  entries : List (K × V)
  sorted : KeySorted entries

namespace SortedMap

/-- The empty map. -/
def empty : SortedMap K V := ⟨[], List.Pairwise.nil⟩

/-- `Get`: the value under `k`. -/
def get (m : SortedMap K V) (k : K) : Option V := lookup m.entries k

/-- `Put`: insert or replace. -/
def put (m : SortedMap K V) (k : K) (v : V) : SortedMap K V :=
  ⟨insertSorted m.entries k v, keySorted_insertSorted m.sorted k v⟩

/-- `Erase`. -/
def erase (m : SortedMap K V) (k : K) : SortedMap K V :=
  ⟨removeKey m.entries k, m.sorted.sublist (removeKey_sublist _ _)⟩

/-- Modelled from the spec: `GetRangeValues(values, lower, upper, nullptr, filter)`, the ascending
scan of the keys in `[lower, upper)` keeping the values `filter` accepts. -/
def getRangeValues (m : SortedMap K V) (lower upper : K) (filter : V → Bool) : List V :=
  (m.entries.filter fun e => decide (lower ≤ e.1) && decide (e.1 < upper) && filter e.2).map
    Prod.snd

/-- `GetAllKeys`, in ascending order. -/
def getAllKeys (m : SortedMap K V) : List K := m.entries.map Prod.fst

@[simp] theorem get_empty (k : K) : (empty : SortedMap K V).get k = none := rfl

@[simp] theorem get_put (m : SortedMap K V) (k : K) (v : V) (q : K) :
    (m.put k v).get q = if q = k then some v else m.get q :=
  lookup_insertSorted _ _ _ _

@[simp] theorem get_erase (m : SortedMap K V) (k q : K) :
    (m.erase k).get q = if q = k then none else m.get q :=
  lookup_removeKey m.sorted _ _

theorem mem_entries {m : SortedMap K V} {k : K} {v : V} : (k, v) ∈ m.entries ↔ m.get k = some v :=
  mem_iff_lookup m.sorted

@[ext] theorem ext {m m' : SortedMap K V} (h : ∀ k, m.get k = m'.get k) : m = m' := by
  obtain ⟨l, hl⟩ := m
  obtain ⟨l', hl'⟩ := m'
  obtain rfl := eq_of_lookup hl hl' h
  rfl

@[simp] theorem put_put (m : SortedMap K V) (k : K) (v v' : V) :
    (m.put k v).put k v' = m.put k v' :=
  ext fun q => by simp only [get_put]; split_ifs <;> rfl

@[simp] theorem erase_put (m : SortedMap K V) (k : K) (v : V) : (m.put k v).erase k = m.erase k :=
  ext fun q => by simp only [get_erase, get_put]; split_ifs <;> rfl

theorem entries_put_of_get {m : SortedMap K V} {k : K} {v old : V} (h : m.get k = some old) :
    (m.put k v).entries = m.entries.map fun e => if e.1 = k then (k, v) else e :=
  insertSorted_of_lookup m.sorted h

theorem entries_erase [DecidableEq K] (m : SortedMap K V) (k : K) :
    (m.erase k).entries = m.entries.filter fun e => e.1 ≠ k :=
  removeKey_eq_filter m.sorted k

theorem filter_entries_key [DecidableEq K] (m : SortedMap K V) (k : K) :
    m.entries.filter (fun e => e.1 = k) = (m.get k).toList.map (k, ·) :=
  filter_key_eq m.sorted k

theorem filter_entries_put [DecidableEq K] (m : SortedMap K V) (k : K) (v : V) :
    (m.put k v).entries.filter (fun e => e.1 ≠ k) = m.entries.filter fun e => e.1 ≠ k :=
  filter_insertSorted _ _ _

theorem filter_entries_erase [DecidableEq K] (m : SortedMap K V) (k : K) :
    (m.erase k).entries.filter (fun e => e.1 ≠ k) = m.entries.filter fun e => e.1 ≠ k := by
  rw [entries_erase, List.filter_filter]
  exact List.filter_congr fun e _ => by simp

end SortedMap

end DingoKv
