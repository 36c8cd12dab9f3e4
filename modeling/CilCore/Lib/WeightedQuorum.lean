import Mathlib.Algebra.BigOperators.Group.List.Basic
import Mathlib.Algebra.Order.Group.Defs
import Mathlib.Algebra.Order.Monoid.Unbundled.Basic
import Mathlib.Tactic.Abel

/-!
# Weighted quorums

A weighted electorate is a list of voters, a voter standing in it as often as it
counts. Two groups that together outweigh the electorate share a voter, and if
they outweigh it by more than the faulty voters weigh, they share a correct one.
-/

namespace WeightedQuorum

variable {α R : Type} [AddCommGroup R] [LinearOrder R] [IsOrderedAddMonoid R]

/-- The weight of the voters that satisfy a predicate. -/
def weightOf (w : α → R) (p : α → Prop) [DecidablePred p] (voters : List α) : R :=
  (voters.map fun a => if p a then w a else 0).sum

section

variable (w : α → R) (p q : α → Prop) [DecidablePred p] [DecidablePred q]

omit [LinearOrder R] [IsOrderedAddMonoid R] in
@[simp] theorem weightOf_nil : weightOf w p [] = 0 := rfl

omit [LinearOrder R] [IsOrderedAddMonoid R] in
@[simp] theorem weightOf_cons (a : α) (voters : List α) :
    weightOf w p (a :: voters) = (if p a then w a else 0) + weightOf w p voters := rfl

omit [LinearOrder R] [IsOrderedAddMonoid R] in
theorem weightOf_append (xs ys : List α) :
    weightOf w p (xs ++ ys) = weightOf w p xs + weightOf w p ys := by
  simp [weightOf]

omit [LinearOrder R] [IsOrderedAddMonoid R] in
/-- Relabelling voters relabels their weights. -/
theorem weightOf_map {β : Type} (f : β → α) (voters : List β) :
    weightOf w p (voters.map f) = weightOf (fun b => w (f b)) (fun b => p (f b)) voters := by
  simp [weightOf, Function.comp_def]

omit [LinearOrder R] [IsOrderedAddMonoid R] in
/-- The order of the voters does not matter. -/
theorem weightOf_perm {xs ys : List α} (h : xs.Perm ys) : weightOf w p xs = weightOf w p ys :=
  (h.map _).sum_eq

omit [LinearOrder R] [IsOrderedAddMonoid R] in
/-- A predicate that no voter satisfies weighs nothing. -/
theorem weightOf_eq_zero {voters : List α} (h : ∀ a ∈ voters, ¬ p a) :
    weightOf w p voters = 0 := by
  induction voters with
  | nil => rfl
  | cons a rest ih =>
    rw [weightOf_cons, if_neg (h a List.mem_cons_self), zero_add]
    exact ih fun b hb => h b (List.mem_cons_of_mem a hb)

end

section

variable {w : α → R} {p q byz : α → Prop} [DecidablePred p] [DecidablePred q]
  [DecidablePred byz]

/-- A weaker predicate weighs at least as much. -/
theorem weightOf_mono {voters : List α} (hw : ∀ a ∈ voters, 0 ≤ w a)
    (h : ∀ a ∈ voters, p a → q a) : weightOf w p voters ≤ weightOf w q voters := by
  induction voters with
  | nil => exact le_rfl
  | cons a rest ih =>
    rw [weightOf_cons, weightOf_cons]
    refine add_le_add ?_ (ih (fun b hb => hw b (List.mem_cons_of_mem a hb))
      fun b hb => h b (List.mem_cons_of_mem a hb))
    by_cases hp : p a
    · rw [if_pos hp, if_pos (h a List.mem_cons_self hp)]
    · rw [if_neg hp]
      split
      next => exact hw a List.mem_cons_self
      next => exact le_rfl

omit [LinearOrder R] [IsOrderedAddMonoid R] in
/-- Inclusion and exclusion for two groups of voters. -/
theorem weightOf_or_add_weightOf_and (w : α → R) (p q : α → Prop) [DecidablePred p]
    [DecidablePred q] (voters : List α) :
    weightOf w (fun a => p a ∨ q a) voters + weightOf w (fun a => p a ∧ q a) voters =
      weightOf w p voters + weightOf w q voters := by
  induction voters with
  | nil => simp
  | cons a rest ih =>
    simp only [weightOf_cons]
    have hhead : ((if p a ∨ q a then w a else 0) + if p a ∧ q a then w a else 0) =
        (if p a then w a else 0) + if q a then w a else 0 := by
      by_cases hp : p a <;> by_cases hq : q a <;> simp [hp, hq]
    calc _ = ((if p a ∨ q a then w a else 0) + if p a ∧ q a then w a else 0) +
          (weightOf w (fun a => p a ∨ q a) rest + weightOf w (fun a => p a ∧ q a) rest) := by
          abel
      _ = _ := by
          rw [hhead, ih]
          abel

/-- Two groups that outweigh the electorate by more than the faulty voters share
a correct voter. -/
theorem exists_common_correct {voters : List α} (hw : ∀ a ∈ voters, 0 ≤ w a)
    (h : weightOf w (fun _ => True) voters + weightOf w byz voters <
      weightOf w p voters + weightOf w q voters) :
    ∃ a ∈ voters, p a ∧ q a ∧ ¬ byz a := by
  by_contra hno
  have hand : weightOf w (fun a => p a ∧ q a) voters ≤ weightOf w byz voters := by
    refine weightOf_mono hw fun a ha hpq => ?_
    by_contra hbyz
    exact hno ⟨a, ha, hpq.1, hpq.2, hbyz⟩
  have hor : weightOf w (fun a => p a ∨ q a) voters ≤ weightOf w (fun _ => True) voters :=
    weightOf_mono hw fun _ _ _ => trivial
  rw [← weightOf_or_add_weightOf_and w p q] at h
  exact absurd (add_le_add hor hand) (not_le.mpr h)

/-- Two groups that outweigh the electorate share a voter. -/
theorem exists_common {voters : List α} (hw : ∀ a ∈ voters, 0 ≤ w a)
    (h : weightOf w (fun _ => True) voters < weightOf w p voters + weightOf w q voters) :
    ∃ a ∈ voters, p a ∧ q a := by
  have hnobody : weightOf w (fun _ => False) voters = 0 :=
    weightOf_eq_zero w _ fun _ _ => id
  have hsum : weightOf w (fun _ => True) voters + weightOf w (fun _ => False) voters <
      weightOf w p voters + weightOf w q voters := by
    rwa [hnobody, add_zero]
  obtain ⟨a, ha, hp, hq, -⟩ := exists_common_correct hw hsum
  exact ⟨a, ha, hp, hq⟩

omit [IsOrderedAddMonoid R] in
/-- A group with positive weight is not empty. -/
theorem exists_of_weightOf_pos {voters : List α} (h : 0 < weightOf w p voters) :
    ∃ a ∈ voters, p a := by
  by_contra hno
  rw [weightOf_eq_zero w p fun a ha hp => hno ⟨a, ha, hp⟩] at h
  exact lt_irrefl _ h

end

end WeightedQuorum
