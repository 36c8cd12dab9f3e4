import Mathlib.Algebra.Order.Group.Nat
import Mathlib.Data.Nat.Count
import Mathlib.Data.Nat.Periodic
import Mathlib.Data.Nat.GCD.Basic
import Mathlib.Tactic.Ring

/-!
# Residues of an affine map

How often `a * y + b` meets a set of residues modulo `T` while `y` runs through
`T` consecutive numbers. A factor coprime to the modulus meets every residue
once. A divisor that the factor and the modulus share makes the residues repeat,
and every count becomes a multiple of it.
-/

namespace AffineResidues

variable {a b T d : ℕ}

/-- Where `a` and `T` have a common divisor, residues repeat early. -/
theorem periodic_of_dvd (p : ℕ → Prop) (had : d ∣ a) (hdT : d ∣ T) :
    Function.Periodic (fun y => p ((a * y + b) % T)) (T / d) := by
  obtain ⟨a', rfl⟩ := had
  obtain ⟨T', rfl⟩ := hdT
  rcases Nat.eq_zero_or_pos d with rfl | hd
  · simp
  intro y
  have hstep : d * a' * (y + d * T' / d) + b = d * a' * y + b + d * T' * a' := by
    rw [Nat.mul_div_cancel_left T' hd]
    ring
  change p _ = p _
  rw [hstep, Nat.add_mul_mod_self_left]

theorem injOn_of_coprime (hcop : a.Coprime T) :
    Set.InjOn (fun y => (a * y + b) % T) (Finset.range T) := by
  intro y hy z hz heq
  have hcong : a * y + b ≡ a * z + b [MOD T] := heq
  have hyz : y ≡ z [MOD T] :=
    Nat.ModEq.cancel_left_of_coprime (Nat.gcd_comm a T ▸ hcop) (Nat.ModEq.add_right_cancel' b hcong)
  exact Nat.ModEq.eq_of_lt_of_lt hyz (Finset.mem_range.mp hy) (Finset.mem_range.mp hz)

/-- A coprime factor permutes the residues. -/
theorem image_of_coprime (hcop : a.Coprime T) :
    (Finset.range T).image (fun y => (a * y + b) % T) = Finset.range T := by
  apply Finset.eq_of_subset_of_card_le
  · intro r hr
    obtain ⟨y, hy, rfl⟩ := Finset.mem_image.mp hr
    have hT : 0 < T := by
      have := Finset.mem_range.mp hy
      omega
    exact Finset.mem_range.mpr (Nat.mod_lt _ hT)
  · rw [Finset.card_image_of_injOn (injOn_of_coprime hcop)]

/-- What repeats is counted once for each repetition. -/
theorem count_mul_of_periodic (q : ℕ → Prop) [DecidablePred q] {m : ℕ}
    (hq : Function.Periodic q m) (k : ℕ) : Nat.count q (k * m) = k * Nat.count q m := by
  induction k with
  | zero => simp
  | succ k ih =>
    have hshift : (fun y => q (k * m + y)) = q := by
      funext y
      rw [add_comm]
      exact hq.nat_mul k y
    simp only [Nat.succ_mul, Nat.count_add, ih, hshift]

section

variable (p : ℕ → Prop) [DecidablePred p]

/-- The numbers of a window of `T` whose residues satisfy a predicate. -/
def hits (a b T : ℕ) (x : ℕ) : Finset ℕ :=
  (Finset.Ico x (x + T)).filter fun y => p ((a * y + b) % T)

/-- A window meets a set of residues as often as the first one does. -/
theorem card_hits (a b T x : ℕ) :
    (hits p a b T x).card = Nat.count (fun y => p ((a * y + b) % T)) T := by
  have hperiod := periodic_of_dvd (b := b) p (one_dvd a) (one_dvd T)
  rw [Nat.div_one] at hperiod
  exact Nat.filter_Ico_card_eq_of_periodic x T _ hperiod

/-- Every residue is met exactly once. -/
theorem card_hits_of_coprime (hcop : a.Coprime T) (x : ℕ) :
    (hits p a b T x).card = Nat.count p T := by
  have himage : (Finset.range T).filter p =
      ((Finset.range T).filter fun y => p ((a * y + b) % T)).image
        fun y => (a * y + b) % T := by
    conv_lhs => rw [← image_of_coprime (b := b) hcop]
    rw [Finset.filter_image]
  rw [card_hits, Nat.count_eq_card_filter_range, Nat.count_eq_card_filter_range, himage,
    Finset.card_image_of_injOn]
  exact (injOn_of_coprime hcop).mono (Finset.coe_subset.mpr (Finset.filter_subset _ _))

/-- A common divisor of factor and modulus divides every count. -/
theorem dvd_card_hits (had : d ∣ a) (hdT : d ∣ T) (x : ℕ) : d ∣ (hits p a b T x).card := by
  have hT : T = d * (T / d) := (Nat.mul_div_cancel' hdT).symm
  have hcount := count_mul_of_periodic _ (periodic_of_dvd (b := b) p had hdT) d
  rw [← hT] at hcount
  rw [card_hits, hcount]
  exact dvd_mul_right d _

end

end AffineResidues
