import Mathlib.Data.List.AList
import Mathlib.Algebra.Order.BigOperators.Group.List
import Mathlib.Algebra.Order.Ring.Nat
import Mathlib.Algebra.BigOperators.Group.Finset.Piecewise

/-!
# Maps in the order of insertion

A map that is enumerated in the order in which its keys came in: writing to a
key that is there keeps its place, a new key goes to the end. Mathlib's `AList`
supplies lookup and erasure; this module adds the write, the operations that
keep the order (dropping the oldest entries, filtering, changing values in
place), and the total of a weight over the values.
-/

/-- A map in the order of insertion whose values all have one type. -/
abbrev OrderedMap (K V : Type) := AList fun _ : K => V

namespace OrderedMap

variable {K V : Type}

/-- Number of entries. -/
def size (m : OrderedMap K V) : Nat := m.entries.length

/-- The values, oldest first. -/
def values (m : OrderedMap K V) : List V := m.entries.map (·.2)

/-- Change the values in place. -/
def mapWithKey (f : K → V → V) (m : OrderedMap K V) : OrderedMap K V :=
  ⟨m.entries.map (.map id f), m.nodupKeys.map₂ f⟩

/-- Keep the entries that satisfy a predicate. -/
def filter (p : K → V → Bool) (m : OrderedMap K V) : OrderedMap K V :=
  ⟨m.entries.filter fun e => p e.1 e.2, m.nodupKeys.sublist List.filter_sublist⟩

/-- Drop the oldest entries. -/
def dropOldest (n : Nat) (m : OrderedMap K V) : OrderedMap K V :=
  ⟨m.entries.drop n, m.nodupKeys.sublist (List.drop_sublist ..)⟩

/-- The total of a weight over the values. -/
def total (f : V → Nat) (m : OrderedMap K V) : Nat := (m.entries.map fun e => f e.2).sum

@[simp] theorem size_empty : size (∅ : OrderedMap K V) = 0 := rfl

@[simp] theorem total_empty (f : V → Nat) : total f (∅ : OrderedMap K V) = 0 := rfl

@[simp] theorem size_dropOldest (n : Nat) (m : OrderedMap K V) :
    (m.dropOldest n).size = m.size - n := List.length_drop

@[simp] theorem mem_mapWithKey {f : K → V → V} {m : OrderedMap K V} {k : K} :
    k ∈ m.mapWithKey f ↔ k ∈ m := by
  rw [AList.mem_keys, AList.mem_keys, AList.keys, mapWithKey, List.map₂_keys]
  rfl

theorem total_mapWithKey (g : V → Nat) (f : K → V → V) (m : OrderedMap K V) :
    (m.mapWithKey f).total g = (m.entries.map fun e => g (f e.1 e.2)).sum := by
  rw [total, mapWithKey, List.map_map]
  rfl

/-- Values that get no heavier do not raise the total. -/
theorem total_mapWithKey_le {g : V → Nat} {f : K → V → V} (h : ∀ k v, g (f k v) ≤ g v)
    (m : OrderedMap K V) : (m.mapWithKey f).total g ≤ m.total g := by
  rw [total_mapWithKey]
  exact List.sum_le_sum fun e _ => h e.1 e.2

/-- The total falls exactly when some value gets lighter. -/
theorem total_mapWithKey_lt_iff {g : V → Nat} {f : K → V → V} (h : ∀ k v, g (f k v) ≤ g v)
    (m : OrderedMap K V) :
    (m.mapWithKey f).total g < m.total g ↔ ∃ e ∈ m.entries, g (f e.1 e.2) < g e.2 := by
  rw [total_mapWithKey]
  constructor
  · exact List.exists_lt_of_sum_lt _ _
  · exact List.sum_lt_sum _ _ fun e _ => h e.1 e.2

/-- The entries that satisfy a predicate and the others make up the map. -/
theorem total_filter_add (f : V → Nat) (p : K → V → Bool) (m : OrderedMap K V) :
    (m.filter p).total f + (m.filter fun k v => !p k v).total f = m.total f := by
  simp only [total, filter]
  generalize m.entries = l
  induction l with
  | nil => rfl
  | cons e rest ih =>
      cases h : p e.1 e.2 <;> simp only [List.filter_cons, h, Bool.not_true, Bool.not_false,
        if_true, List.map_cons, List.sum_cons, Bool.false_eq_true, if_false] <;> omega

@[simp] theorem filter_true (m : OrderedMap K V) : m.filter (fun _ _ => true) = m :=
  AList.ext (List.filter_true m.entries)

/-- A value weighs no more than all together. -/
theorem le_total (f : V → Nat) {m : OrderedMap K V} {e : Sigma fun _ : K => V}
    (h : e ∈ m.entries) : f e.2 ≤ m.total f :=
  List.single_le_sum (fun _ _ => Nat.zero_le _) _ (List.mem_map_of_mem h)

/-- Changing no value changes nothing. -/
theorem mapWithKey_eq_self {f : K → V → V} {m : OrderedMap K V}
    (h : ∀ e ∈ m.entries, f e.1 e.2 = e.2) : m.mapWithKey f = m := by
  apply AList.ext
  calc m.entries.map (.map id f) = m.entries.map id := List.map_congr_left fun e he =>
        Sigma.ext rfl (heq_of_eq (h e he))
    _ = m.entries := List.map_id _

theorem dropOldest_zero (m : OrderedMap K V) : m.dropOldest 0 = m := rfl

theorem eq_empty_of_size {m : OrderedMap K V} (h : m.size = 0) : m = ∅ :=
  AList.ext (List.length_eq_zero_iff.mp h)

section Lookup

variable [DecidableEq K]

/-- Write a value: in its place if the key is there, at the end otherwise. -/
def set (m : OrderedMap K V) (k : K) (v : V) : OrderedMap K V :=
  if h : k ∈ m then m.mapWithKey fun j w => if j = k then v else w
  else ⟨m.entries ++ [⟨k, v⟩], by
    rw [List.NodupKeys, List.keys_append, List.nodup_append]
    refine ⟨m.nodupKeys, List.nodup_singleton k, ?_⟩
    intro a ha b hb heq
    have hb : b = k := List.mem_singleton.mp hb
    rw [heq, hb] at ha
    exact h (AList.mem_keys.mpr ha)⟩

/-- The first entry that satisfies a predicate. -/
def findEntry (p : K → V → Bool) (m : OrderedMap K V) : Option (K × V) :=
  (m.entries.find? fun e => p e.1 e.2).map fun e => (e.1, e.2)

@[simp] theorem lookup_mapWithKey (f : K → V → V) (m : OrderedMap K V) (k : K) :
    (m.mapWithKey f).lookup k = (m.lookup k).map (f k) :=
  List.dlookup_map₂ k

/-- Lookup after a write, at any key. -/
theorem lookup_set (m : OrderedMap K V) (k j : K) (v : V) :
    (m.set k v).lookup j = if j = k then some v else m.lookup j := by
  rw [set]
  split
  next hk =>
    rw [lookup_mapWithKey]
    by_cases hj : j = k
    · subst hj
      obtain ⟨w, hw⟩ := Option.isSome_iff_exists.mp (AList.lookup_isSome.mpr hk)
      simp [hw]
    · simp [hj]
  next hk =>
    rw [AList.lookup, List.dlookup_append]
    by_cases hj : j = k
    · subst hj
      rw [if_pos rfl, ← AList.lookup, AList.lookup_eq_none.mpr hk, List.dlookup_cons_eq]
      rfl
    · rw [if_neg hj, List.dlookup_cons_ne _ _ hj, List.dlookup_nil, Option.or_none, AList.lookup]

theorem mem_set {m : OrderedMap K V} {k j : K} {v : V} : j ∈ m.set k v ↔ j = k ∨ j ∈ m := by
  rw [← AList.lookup_isSome, ← AList.lookup_isSome, lookup_set]
  by_cases hj : j = k <;> simp [hj]

theorem exists_lookup_of_mem {m : OrderedMap K V} {k : K} (h : k ∈ m) :
    ∃ v, m.lookup k = some v :=
  Option.isSome_iff_exists.mp (AList.lookup_isSome.mpr h)

theorem mem_of_lookup {m : OrderedMap K V} {k : K} {v : V} (h : m.lookup k = some v) : k ∈ m :=
  AList.lookup_isSome.mp (h ▸ rfl)

theorem mem_entries_iff {m : OrderedMap K V} {k : K} {v : V} :
    (⟨k, v⟩ : Sigma fun _ : K => V) ∈ m.entries ↔ m.lookup k = some v :=
  AList.mem_lookup_iff.symm

theorem mem_values_iff {m : OrderedMap K V} {v : V} :
    v ∈ m.values ↔ ∃ k, m.lookup k = some v := by
  rw [values, List.mem_map]
  constructor
  · rintro ⟨e, he, rfl⟩
    exact ⟨e.1, mem_entries_iff.mp he⟩
  · rintro ⟨k, hk⟩
    exact ⟨⟨k, v⟩, mem_entries_iff.mpr hk, rfl⟩

/-- Values that tell the keys they are kept under. -/
theorem map_values_eq_keys {m : OrderedMap K V} {f : V → K}
    (h : ∀ k v, m.lookup k = some v → f v = k) : m.values.map f = m.keys := by
  rw [values, List.map_map]
  exact List.map_congr_left fun e he => h e.1 e.2 (mem_entries_iff.mp he)

/-- Whatever a filter or a drop leaves was there, with the same value. -/
theorem lookup_of_sublist {m m' : OrderedMap K V} (h : m'.entries.Sublist m.entries) {k : K}
    {v : V} (hv : m'.lookup k = some v) : m.lookup k = some v :=
  mem_entries_iff.mp (h.subset (mem_entries_iff.mpr hv))

theorem findEntry_eq_some {p : K → V → Bool} {m : OrderedMap K V} {k : K} {v : V}
    (h : m.findEntry p = some (k, v)) : m.lookup k = some v ∧ p k v := by
  obtain ⟨e, he, heq⟩ := Option.map_eq_some_iff.mp h
  obtain ⟨rfl, rfl⟩ := Prod.mk.inj heq
  have hp : p e.1 e.2 = true :=
    List.find?_some (p := fun e : Sigma fun _ : K => V => p e.1 e.2) he
  exact ⟨mem_entries_iff.mp (List.mem_of_find?_eq_some he), hp⟩

theorem isSome_findEntry_iff {p : K → V → Bool} {m : OrderedMap K V} :
    (m.findEntry p).isSome ↔ ∃ k v, m.lookup k = some v ∧ p k v := by
  rw [findEntry, Option.isSome_map, List.find?_isSome]
  constructor
  · rintro ⟨e, he, hp⟩
    exact ⟨e.1, e.2, mem_entries_iff.mp he, hp⟩
  · rintro ⟨k, v, hv, hp⟩
    exact ⟨⟨k, v⟩, mem_entries_iff.mpr hv, hp⟩

theorem size_erase_le (m : OrderedMap K V) (k : K) : size (m.erase k) ≤ m.size :=
  (List.kerase_sublist k m.entries).length_le

/-- A new key makes the map one entry larger. -/
theorem size_set_of_notMem {m : OrderedMap K V} {k : K} {v : V} (h : k ∉ m) :
    (m.set k v).size = m.size + 1 := by
  rw [set, dif_neg h, size, List.length_append]
  rfl

theorem total_set_of_notMem {m : OrderedMap K V} {k : K} {v : V} (f : V → Nat) (h : k ∉ m) :
    (m.set k v).total f = m.total f + f v := by
  rw [set, dif_neg h, total, List.map_append, List.sum_append]
  simp [total]

/-- Writing to a key that is there exchanges its weight. -/
theorem total_set_of_lookup {m : OrderedMap K V} {k : K} {v w : V} (f : V → Nat)
    (h : m.lookup k = some w) : (m.set k v).total f + f w = m.total f + f v := by
  rw [set, dif_pos (mem_of_lookup h), total_mapWithKey, total]
  have hmem := mem_entries_iff.mpr h
  have hnodup := m.nodupKeys
  revert hmem hnodup
  generalize m.entries = l
  intro hmem hnodup
  induction l with
  | nil => cases hmem
  | cons e rest ih =>
      obtain ⟨hnotMem, hrest⟩ := List.nodupKeys_cons.mp hnodup
      rw [List.map_cons, List.map_cons, List.sum_cons, List.sum_cons]
      rcases List.mem_cons.mp hmem with rfl | hmem
      · -- the other keys differ from the one written to
        have hothers : (rest.map fun e => f (if e.1 = k then v else e.2)) =
            rest.map fun e => f e.2 := by
          apply List.map_congr_left
          intro e he
          have hne : e.1 ≠ k := by
            intro heq
            have hkey : e.1 ∈ List.keys rest := List.mem_keys_of_mem he
            exact hnotMem (heq ▸ hkey)
          rw [if_neg hne]
        rw [hothers, if_pos rfl, Nat.add_right_comm, Nat.add_comm (f v), Nat.add_right_comm,
          Nat.add_comm (f w)]
      · have hne : e.1 ≠ k := fun heq => hnotMem (heq ▸ List.mem_keys_of_mem hmem)
        have hrec := ih hmem hrest
        rw [if_neg hne]
        omega

/-- Adding up the weights of the values under some keys is adding up the weights of
the entries with such a key. -/
theorem sum_lookup (f : V → Nat) (keys : Finset K) (m : OrderedMap K V) :
    ∑ k ∈ keys, (m.lookup k).elim 0 f = (m.filter fun k _ => decide (k ∈ keys)).total f := by
  obtain ⟨l, hnodup⟩ := m
  simp only [AList.lookup, total, filter]
  induction l with
  | nil => simp
  | cons e rest ih =>
      obtain ⟨hnotMem, hrest⟩ := List.nodupKeys_cons.mp hnodup
      have hsplit : ∀ k, (List.dlookup k (e :: rest)).elim 0 f =
          (if k = e.1 then f e.2 else 0) + (List.dlookup k rest).elim 0 f := by
        intro k
        by_cases hk : k = e.1
        · subst hk
          rw [List.dlookup_cons_eq, List.dlookup_eq_none.mpr hnotMem]
          simp
        · rw [List.dlookup_cons_ne _ _ hk, if_neg hk, Nat.zero_add]
      rw [Finset.sum_congr rfl fun k _ => hsplit k, Finset.sum_add_distrib, ih hrest,
        Finset.sum_ite_eq', List.filter_cons]
      by_cases hmem : e.1 ∈ keys <;> simp [hmem]

end Lookup

end OrderedMap
