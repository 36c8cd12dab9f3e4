import Mathlib.Data.Finmap
import Mathlib.Algebra.BigOperators.Group.Finset.Basic
import Mathlib.Tactic.Abel

/-!
# Finite maps

Finite maps with one value type for all keys, compared extensionally. Mathlib's
`Finmap` supplies lookup, insertion and erasure; this module adds the pointwise
constructions (a map tabulated from a function, two maps combined key by key)
and the total of a weight over the entries of a map.
-/

/-- A finite map whose values all have one type. -/
abbrev FinMap (K V : Type) := Finmap fun _ : K => V

namespace FinMap

variable {K V W X : Type} [DecidableEq K]

/-- Lookup after an insertion, at any key. -/
theorem lookup_insert_ite (m : FinMap K V) (k j : K) (v : V) :
    Finmap.lookup j (m.insert k v) = if j = k then some v else m.lookup j := by
  by_cases h : j = k
  · subst h
    simp
  · simp [h, Finmap.lookup_insert_of_ne m h]

/-- Lookup after an erasure, at any key. -/
theorem lookup_erase_ite (m : FinMap K V) (k j : K) :
    Finmap.lookup j (m.erase k) = if j = k then none else m.lookup j := by
  by_cases h : j = k
  · subst h
    simp
  · simp [h, Finmap.lookup_erase_ne h]

/-- A key is in the key set exactly when it has a value. -/
theorem mem_keys_iff {m : FinMap K V} {k : K} :
    k ∈ m.keys ↔ ∃ v, m.lookup k = some v := by
  rw [Finmap.mem_keys, Finmap.mem_iff]

theorem notMem_keys_iff {m : FinMap K V} {k : K} : k ∉ m.keys ↔ m.lookup k = none := by
  rw [Finmap.mem_keys, Finmap.lookup_eq_none]

theorem mem_keys_of_lookup {m : FinMap K V} {k : K} {v : V} (h : m.lookup k = some v) :
    k ∈ m.keys :=
  mem_keys_iff.mpr ⟨v, h⟩

theorem keys_insert (m : FinMap K V) (k : K) (v : V) :
    Finmap.keys (m.insert k v) = Insert.insert k m.keys := by
  ext j
  rw [Finmap.mem_keys, Finmap.mem_insert, Finset.mem_insert, Finmap.mem_keys]

/-- The map with the given candidate keys whose values are computed by a function. -/
def tabulate (s : Finset K) (f : K → Option V) : FinMap K V :=
  Finmap.keysLookupEquiv.symm
    ⟨(s.filter fun k => (f k).isSome, fun k => if k ∈ s then f k else none), by
      intro k
      by_cases hk : k ∈ s <;> simp [hk]⟩

@[simp] theorem lookup_tabulate (s : Finset K) (f : K → Option V) (k : K) :
    (tabulate s f).lookup k = if k ∈ s then f k else none := by
  simp [tabulate]

@[simp] theorem keys_tabulate (s : Finset K) (f : K → Option V) :
    (tabulate s f).keys = s.filter fun k => (f k).isSome := by
  simp [tabulate]

/-- A map restricted to some of its keys. -/
theorem keys_tabulate_lookup {m : FinMap K V} {s : Finset K} (h : s ⊆ m.keys) :
    (tabulate s fun k => m.lookup k).keys = s := by
  rw [keys_tabulate]
  apply Finset.filter_true_of_mem
  intro k hk
  obtain ⟨v, hv⟩ := mem_keys_iff.mp (h hk)
  rw [hv]
  rfl

/-- Combine two maps key by key. The function sees the values of both maps and
is consulted only where at least one of them has the key. -/
def zipWith (f : K → Option V → Option W → Option X) (a : FinMap K V) (b : FinMap K W) :
    FinMap K X :=
  tabulate (a.keys ∪ b.keys) fun k => f k (a.lookup k) (b.lookup k)

theorem lookup_zipWith (f : K → Option V → Option W → Option X) (a : FinMap K V)
    (b : FinMap K W) (hf : ∀ k, f k none none = none) (k : K) :
    (zipWith f a b).lookup k = f k (a.lookup k) (b.lookup k) := by
  rw [zipWith, lookup_tabulate]
  split
  next => rfl
  next h =>
    rw [Finset.mem_union, not_or, notMem_keys_iff, notMem_keys_iff] at h
    rw [h.1, h.2, hf]

/-- Where both maps have a key the first one counts. -/
theorem lookup_union (a b : FinMap K V) (k : K) :
    Finmap.lookup k (a ∪ b) = (a.lookup k).or (b.lookup k) := by
  by_cases h : k ∈ a
  · obtain ⟨v, hv⟩ := Finmap.mem_iff.mp h
    rw [Finmap.lookup_union_left h, hv]
    rfl
  · rw [Finmap.lookup_union_right h, Finmap.lookup_eq_none.mpr h]
    rfl

/-! ### Totals -/

section Total

variable {M : Type} [AddCommGroup M]

/-- Total of a weight over the entries of a map. -/
def total (w : K → V → M) (m : FinMap K V) : M :=
  ∑ k ∈ m.keys, (m.lookup k).elim 0 (w k)

@[simp] theorem total_empty (w : K → V → M) : total w (∅ : FinMap K V) = 0 := by
  simp [total]

/-- Inserting at a key replaces the old weight of that key, if it had one. -/
theorem total_insert (w : K → V → M) (m : FinMap K V) (k : K) (v : V) :
    total w (m.insert k v) = total w m + w k v - (m.lookup k).elim 0 (w k) := by
  have hrest : ∑ j ∈ m.keys.erase k, (Finmap.lookup j (m.insert k v)).elim 0 (w j) =
      ∑ j ∈ m.keys.erase k, (m.lookup j).elim 0 (w j) := by
    refine Finset.sum_congr rfl fun j hj => ?_
    rw [lookup_insert_ite, if_neg (Finset.ne_of_mem_erase hj)]
  have hnew : total w (m.insert k v) =
      w k v + ∑ j ∈ m.keys.erase k, (m.lookup j).elim 0 (w j) := by
    rw [total, keys_insert, ← Finset.insert_erase (Finset.mem_insert_self k m.keys),
      Finset.sum_insert (Finset.notMem_erase k _), Finset.erase_insert_eq_erase, hrest]
    simp
  rw [hnew]
  by_cases hk : k ∈ m.keys
  · have hold : total w m =
        (m.lookup k).elim 0 (w k) + ∑ j ∈ m.keys.erase k, (m.lookup j).elim 0 (w j) := by
      rw [total, Finset.add_sum_erase _ (fun j => (m.lookup j).elim 0 (w j)) hk]
    rw [hold]
    abel
  · rw [Finset.erase_eq_of_notMem hk, notMem_keys_iff.mp hk, total]
    simp [add_comm]

/-- Inserting at a fresh key adds the weight of the new entry. -/
theorem total_insert_of_notMem (w : K → V → M) (m : FinMap K V) {k : K} (v : V)
    (hk : m.lookup k = none) : total w (m.insert k v) = total w m + w k v := by
  rw [total_insert, hk]
  simp

end Total

end FinMap
