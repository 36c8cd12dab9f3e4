import Mathlib.Logic.Function.Basic

/-!
# Bitcoin-style Merkle trees

The tree is built level by level; the last node of an odd level is paired with
itself. For an injective node function the root identifies the leaves among all
lists of the same length. Across lengths it does not, because a list may spell
out its own padding.
-/

namespace Merkle

variable {α : Type}

/-- The next level of a tree: neighbours are paired, an odd last node is paired
with itself. -/
def level (f : α → α → α) : List α → List α
  | [] => []
  | [a] => [f a a]
  | a :: b :: rest => f a b :: level f rest

/-- Build levels until a single node is left. -/
def build (f : α → α → α) : Nat → List α → List α
  | 0, nodes => nodes
  | _ + 1, [] => []
  | _ + 1, [a] => [a]
  | fuel + 1, nodes => build f fuel (level f nodes)

/-- The root of the tree over a list of leaves. -/
def root (f : α → α → α) (leaves : List α) : Option α :=
  (build f leaves.length leaves).head?

theorem length_level (f : α → α → α) (nodes : List α) :
    (level f nodes).length = (nodes.length + 1) / 2 := by
  induction nodes using level.induct with
  | case1 => simp [level]
  | case2 a => simp [level]
  | case3 a b rest ih =>
    simp only [level, List.length_cons, ih]
    omega

/-- One level of an injective node function identifies the nodes below it. -/
theorem level_injective {f : α → α → α} (hf : Function.Injective2 f) {xs ys : List α}
    (hlen : xs.length = ys.length) (h : level f xs = level f ys) : xs = ys := by
  induction xs using level.induct generalizing ys with
  | case1 =>
    rw [List.length_nil] at hlen
    exact (List.length_eq_zero_iff.mp hlen.symm).symm
  | case2 a =>
    obtain ⟨b, rfl⟩ := List.length_eq_one_iff.mp hlen.symm
    simp only [level, List.cons.injEq, and_true] at h
    rw [(hf h).1]
  | case3 a b rest ih =>
    match ys, hlen with
    | c :: d :: rest', hlen =>
      simp only [level, List.cons.injEq] at h
      obtain ⟨rfl, rfl⟩ := hf h.1
      rw [ih (by simpa using hlen) h.2]

/-- With enough fuel a nonempty level is reduced to one node. -/
theorem length_build (f : α → α → α) (fuel : Nat) (nodes : List α) (hne : nodes ≠ [])
    (hfuel : nodes.length ≤ fuel) : (build f fuel nodes).length = 1 := by
  induction fuel generalizing nodes with
  | zero => exact absurd (List.length_eq_zero_iff.mp (Nat.le_zero.mp hfuel)) hne
  | succ fuel ih =>
    match nodes, hne, hfuel with
    | [a], _, _ => rfl
    | a :: b :: rest, _, hfuel =>
      have hstep : build f (fuel + 1) (a :: b :: rest) = build f fuel (level f (a :: b :: rest)) :=
        rfl
      rw [hstep]
      refine ih _ (by simp [level]) ?_
      rw [length_level]
      simp only [List.length_cons] at hfuel ⊢
      omega

theorem build_injective {f : α → α → α} (hf : Function.Injective2 f) (fuel : Nat)
    {xs ys : List α} (hlen : xs.length = ys.length)
    (h : build f fuel xs = build f fuel ys) : xs = ys := by
  induction fuel generalizing xs ys with
  | zero => exact h
  | succ fuel ih =>
    match xs, ys, hlen with
    | [], [], _ => rfl
    | [a], [b], _ => exact h
    | a :: b :: rest, c :: d :: rest', hlen =>
      have hlevel : (level f (a :: b :: rest)).length = (level f (c :: d :: rest')).length := by
        rw [length_level, length_level, hlen]
      exact level_injective hf hlen (ih hlevel (by simpa [build] using h))

/-- Every nonempty list of leaves has a root. -/
theorem root_isSome (f : α → α → α) {leaves : List α} (hne : leaves ≠ []) :
    (root f leaves).isSome := by
  have hlen := length_build f leaves.length leaves hne (Nat.le_refl _)
  obtain ⟨a, ha⟩ := List.length_eq_one_iff.mp hlen
  simp [root, ha]

/-- Among lists of one length the root identifies the leaves. -/
theorem root_injective {f : α → α → α} (hf : Function.Injective2 f) {xs ys : List α}
    (hlen : xs.length = ys.length) (h : root f xs = root f ys) : xs = ys := by
  by_cases hx : xs = []
  · subst hx
    exact (List.length_eq_zero_iff.mp hlen.symm).symm
  · have hy : ys ≠ [] := by
      rintro rfl
      exact hx (List.length_eq_zero_iff.mp hlen)
    obtain ⟨a, ha⟩ := List.length_eq_one_iff.mp (length_build f xs.length xs hx (Nat.le_refl _))
    obtain ⟨b, hb⟩ := List.length_eq_one_iff.mp (length_build f ys.length ys hy (Nat.le_refl _))
    have hab : a = b := by simpa [root, ha, hb] using h
    refine build_injective hf xs.length hlen ?_
    rw [ha, hlen, hb, hab]

end Merkle
