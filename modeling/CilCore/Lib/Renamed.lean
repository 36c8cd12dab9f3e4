import CilCore.Lib.FinMap

/-!
# Renamed maps

A map whose keys are replaced by names has the same entries as long as no two of its keys
have one name. A key is fresh for a map if no other key of the map has its name; reading,
writing and erasing fresh keys is the same in the map and in the renamed one.
-/

namespace FinMap

variable {K L V : Type} [DecidableEq K] [DecidableEq L] {f : K → L} {a : FinMap K V}
  {b : FinMap L V} {k : K}

/-- The second map has the entries of the first under the names of their keys. -/
structure Renamed (f : K → L) (a : FinMap K V) (b : FinMap L V) : Prop where
  found : ∀ k v, a.lookup k = some v → b.lookup (f k) = some v
  named : ∀ l v, b.lookup l = some v → ∃ k, f k = l ∧ a.lookup k = some v

/-- No other key of the map has the name of this key. -/
def Fresh (f : K → L) (a : FinMap K V) (k : K) : Prop :=
  ∀ j v, a.lookup j = some v → f j = f k → j = k

theorem Renamed.empty (f : K → L) : Renamed f (∅ : FinMap K V) (∅ : FinMap L V) where
  found := by simp
  named := by simp

theorem Renamed.lookup (h : Renamed f a b) (hfresh : Fresh f a k) :
    Finmap.lookup (f k) b = Finmap.lookup k a := by
  cases hb : Finmap.lookup (f k) b with
  | some v =>
      obtain ⟨j, hname, hj⟩ := h.named (f k) v hb
      rw [← hfresh j v hj hname, hj]
  | none =>
      cases ha : Finmap.lookup k a with
      | none => rfl
      | some v =>
          rw [h.found k v ha] at hb
          cases hb

theorem Renamed.insert (h : Renamed f a b) (hfresh : Fresh f a k) (v : V) :
    Renamed f (Finmap.insert k v a) (Finmap.insert (f k) v b) where
  found := by
    intro j w hj
    rw [lookup_insert_ite] at hj ⊢
    by_cases hjk : j = k
    · rw [if_pos hjk] at hj
      rw [if_pos (congrArg f hjk), hj]
    · rw [if_neg hjk] at hj
      rw [if_neg fun hname => hjk (hfresh j w hj hname)]
      exact h.found j w hj
  named := by
    intro l w hl
    rw [lookup_insert_ite] at hl
    by_cases hlk : l = f k
    · rw [if_pos hlk] at hl
      exact ⟨k, hlk.symm, by rw [lookup_insert_ite, if_pos rfl, hl]⟩
    · rw [if_neg hlk] at hl
      obtain ⟨j, hname, hj⟩ := h.named l w hl
      refine ⟨j, hname, ?_⟩
      rw [lookup_insert_ite, if_neg fun hjk => hlk (by rw [← hname, hjk]), hj]

theorem Renamed.erase (h : Renamed f a b) (hfresh : Fresh f a k) :
    Renamed f (Finmap.erase k a) (Finmap.erase (f k) b) where
  found := by
    intro j w hj
    rw [lookup_erase_ite] at hj ⊢
    by_cases hjk : j = k
    · rw [if_pos hjk] at hj
      cases hj
    · rw [if_neg hjk] at hj
      rw [if_neg fun hname => hjk (hfresh j w hj hname)]
      exact h.found j w hj
  named := by
    intro l w hl
    rw [lookup_erase_ite] at hl
    by_cases hlk : l = f k
    · rw [if_pos hlk] at hl
      cases hl
    · rw [if_neg hlk] at hl
      obtain ⟨j, hname, hj⟩ := h.named l w hl
      refine ⟨j, hname, ?_⟩
      rw [lookup_erase_ite, if_neg fun hjk => hlk (by rw [← hname, hjk]), hj]

end FinMap
