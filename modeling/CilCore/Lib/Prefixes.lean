import Mathlib.Data.List.Nodup
import Mathlib.Data.List.TakeDrop

/-!
# Gathering until enough

Items are taken from a list one by one until what was taken satisfies a
predicate. The predicate is asked after each item only, so the items may come in
several batches as long as what was taken before is carried along.
-/

namespace Prefixes

variable {α : Type} (enough : List α → Prop) [DecidablePred enough]

/-- Take items until there are enough of them, and tell whether there were. -/
def gather : List α → List α → List α × Bool
  | taken, [] => (taken, false)
  | taken, x :: rest =>
      if enough (taken ++ [x]) then (taken ++ [x], true) else gather (taken ++ [x]) rest

variable {enough}

/-- Without enough, everything was taken. -/
theorem gather_eq_append {taken items : List α} (h : (gather enough taken items).2 = false) :
    gather enough taken items = (taken ++ items, false) := by
  induction items generalizing taken with
  | nil => rw [gather, List.append_nil]
  | cons x rest ih =>
    rw [gather] at h ⊢
    split
    next henough =>
      rw [if_pos henough] at h
      cases h
    next henough =>
      rw [if_neg henough] at h
      rw [ih h, List.append_assoc]
      rfl

/-- Items in two batches. -/
theorem gather_append (taken first second : List α) :
    gather enough taken (first ++ second) =
      if (gather enough taken first).2 then gather enough taken first
      else gather enough (gather enough taken first).1 second := by
  induction first generalizing taken with
  | nil => rfl
  | cons x rest ih =>
    rw [List.cons_append, gather, gather]
    by_cases henough : enough (taken ++ [x])
    · simp only [if_pos henough, if_true]
    · simp only [if_neg henough]
      exact ih (taken ++ [x])

/-- Where enough was taken, it is enough. -/
theorem enough_of_gather {taken items : List α} (h : (gather enough taken items).2 = true) :
    enough (gather enough taken items).1 := by
  induction items generalizing taken with
  | nil => cases h
  | cons x rest ih =>
    rw [gather] at h ⊢
    split
    next henough => exact henough
    next henough =>
      rw [if_neg henough] at h
      exact ih h

/-- There is enough exactly if some non-empty part of the list suffices. -/
theorem gather_true_iff (enough : List α → Prop) [DecidablePred enough] (taken items : List α) :
    (gather enough taken items).2 = true ↔
      ∃ k, 0 < k ∧ k ≤ items.length ∧ enough (taken ++ items.take k) := by
  induction items generalizing taken with
  | nil =>
    simp only [gather, Bool.false_eq_true, false_iff, List.length_nil]
    rintro ⟨k, hpos, hle, -⟩
    omega
  | cons x rest ih =>
    rw [gather]
    by_cases henough : enough (taken ++ [x])
    · rw [if_pos henough]
      exact ⟨fun _ => ⟨1, Nat.one_pos, by simp, by simpa using henough⟩, fun _ => rfl⟩
    · rw [if_neg henough, ih]
      constructor
      · rintro ⟨k, -, hle, hk⟩
        exact ⟨k + 1, k.succ_pos, by simpa using hle, by simpa using hk⟩
      · rintro ⟨k, hpos, hle, hk⟩
        obtain ⟨k, rfl⟩ := Nat.exists_eq_succ_of_ne_zero (Nat.ne_of_gt hpos)
        rw [List.take_succ_cons] at hk
        have hmore : 0 < k := by
          by_contra hzero
          have hk0 : k = 0 := by omega
          subst hk0
          exact henough (by simpa using hk)
        exact ⟨k, hmore, by simpa using hle, by simpa using hk⟩

/-- What is gathered from nothing is a part of the list. -/
theorem gather_nil_isPrefix (items : List α) : (gather enough [] items).1 <+: items := by
  suffices h : ∀ taken, (gather enough taken items).1 <+: taken ++ items from h []
  induction items with
  | nil =>
    intro taken
    exact ⟨[], rfl⟩
  | cons x rest ih =>
    intro taken
    rw [gather]
    split
    next => exact ⟨rest, by simp⟩
    next => simpa using ih (taken ++ [x])

/-- A prefix is found again by its labels, if labels differ. -/
theorem filter_mem_map_of_isPrefix {β : Type} [DecidableEq β] (f : α → β) {items taken : List α}
    (hpre : taken <+: items) (hnodup : (items.map f).Nodup) :
    (items.filter fun x => f x ∈ taken.map f) = taken := by
  obtain ⟨rest, rfl⟩ := hpre
  rw [List.map_append, List.nodup_append] at hnodup
  have htaken : (taken.filter fun x => f x ∈ taken.map f) = taken := by
    apply List.filter_eq_self.mpr
    intro x hx
    exact decide_eq_true (List.mem_map_of_mem hx)
  have hrest : (rest.filter fun x => f x ∈ taken.map f) = [] := by
    apply List.filter_eq_nil_iff.mpr
    intro x hx hmem
    exact hnodup.2.2 _ (of_decide_eq_true hmem) _ (List.mem_map_of_mem hx) rfl
  rw [List.filter_append, htaken, hrest, List.append_nil]

end Prefixes
