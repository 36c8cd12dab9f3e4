import Mathlib.Logic.Relation
import Mathlib.Order.Bounds.Basic

/-!
# Longest paths

Edges that lead down to a root. If the level of every vertex is greater by one than the
greatest level that one of its edges leads to, levels measure the longest paths to the root,
and fall along every path.
-/

namespace LongestPath

variable {V : Type*}

/-- The vertex has a path of this length to the root. -/
inductive PathTo (edge : V → V → Prop) (root : V) : V → ℕ → Prop
  | root : PathTo edge root root 0
  | step {v w : V} {n : ℕ} (hedge : edge v w) (hpath : PathTo edge root w n) :
      PathTo edge root v (n + 1)

/-- The vertex and all that is below it are either the root, which has nothing below it, or
one level above the highest of what they have an edge to. -/
inductive Levelled (edge : V → V → Prop) (level : V → ℕ) (root : V) : V → Prop
  | root (hbottom : ∀ w, ¬ edge root w) : Levelled edge level root root
  | step {v top : V} (hedge : edge v top) (hlevel : level v = level top + 1)
      (hgreatest : ∀ w, edge v w → level w ≤ level top)
      (hbelow : ∀ w, edge v w → Levelled edge level root w) : Levelled edge level root v

variable {edge : V → V → Prop} {level : V → ℕ} {root v w : V}

theorem Levelled.of_edge (h : Levelled edge level root v) (hedge : edge v w) :
    Levelled edge level root w ∧ level w < level v := by
  cases h with
  | root hbottom => exact absurd hedge (hbottom w)
  | step _ hlevel hgreatest hbelow =>
      refine ⟨hbelow w hedge, ?_⟩
      rw [hlevel]
      exact Nat.lt_succ_of_le (hgreatest w hedge)

/-- From a vertex without edges there is no path to another one. -/
theorem not_pathTo {n : ℕ} (hne : v ≠ root) (hnone : ∀ w, ¬ edge v w) :
    ¬ PathTo edge root v n := by
  intro hpath
  cases hpath with
  | root => exact hne rfl
  | step hedge _ => exact hnone _ hedge

/-- The level measures the longest path. -/
theorem Levelled.isGreatest (h : Levelled edge level root v) :
    ∃ n, level v = level root + n ∧ IsGreatest {n | PathTo edge root v n} n := by
  induction h with
  | root hbottom =>
      refine ⟨0, rfl, PathTo.root, ?_⟩
      rintro m (_ | ⟨hedge, -⟩)
      · exact le_rfl
      · exact absurd hedge (hbottom _)
  | @step v top hedge hlevel hgreatest _ ih =>
      obtain ⟨n, hn, hpath, -⟩ := ih top hedge
      refine ⟨n + 1, by omega, PathTo.step hedge hpath, ?_⟩
      rintro m (_ | ⟨hfirst, hrest⟩)
      · exact Nat.zero_le _
      · -- the rest of the path is no longer than the level it starts at
        obtain ⟨k, hk, -, hlongest⟩ := ih _ hfirst
        have hrest := hlongest hrest
        have hle := hgreatest _ hfirst
        omega

/-- Whatever can be reached is on a lower level. -/
theorem Levelled.lt_of_transGen (h : Levelled edge level root v)
    (hreach : Relation.TransGen edge v w) : level w < level v := by
  induction hreach using Relation.TransGen.head_induction_on with
  | single hedge => exact (h.of_edge hedge).2
  | head hedge _ ih => exact (ih (h.of_edge hedge).1).trans (h.of_edge hedge).2

end LongestPath
