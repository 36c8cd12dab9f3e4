import CilCore.Conciliums.FairSelection

/-!
# The greatest common divisor of the deposits

`GCD` of `utils.js`, turn by turn: the inner loop reduces two numbers by each other until one
of them is zero, and the outer loop goes on with their sum, which is the other one. It
terminates for all integers, with a divisor that does not depend on their order.
-/

namespace CilCore

/-- Where `GCD` stands: before the outer loop's next turn, before the inner loop's next turn,
or at its end. -/
inductive GcdState where
  | outer (x : Nat) (rest : List ℤ)
  | inner (x y : Nat) (rest : List ℤ)
  | returned (x : Nat)
deriving DecidableEq

namespace GcdState

/-- One turn. Nothing is done after the end. -/
def step : GcdState → GcdState
  | outer x [] => returned x
  | outer x (y :: rest) => inner x y.natAbs rest
  | inner x y rest =>
      if x = 0 ∨ y = 0 then outer (x + y) rest
      else if x > y then inner (x % y) y rest
      else inner x (y % x) rest
  | returned x => returned x

/-- `GCD` before its first turn. -/
def start (x : ℤ) (rest : List ℤ) : GcdState := outer x.natAbs rest

/-- Some number of turns leads from one state to the other. -/
def Reaches (s s' : GcdState) : Prop := ∃ turns, step^[turns] s = s'

theorem Reaches.refl (s : GcdState) : Reaches s s := ⟨0, rfl⟩

theorem Reaches.head {s s' : GcdState} (h : Reaches s.step s') : Reaches s s' := by
  obtain ⟨turns, rfl⟩ := h
  exact ⟨turns + 1, rfl⟩

theorem Reaches.trans {s s' s'' : GcdState} (h : Reaches s s') (h' : Reaches s' s'') :
    Reaches s s'' := by
  obtain ⟨turns, rfl⟩ := h
  obtain ⟨turns', rfl⟩ := h'
  exact ⟨turns' + turns, Function.iterate_add_apply _ _ _ _⟩

/-- The inner loop ends. Each of its turns makes the sum of both numbers smaller and keeps
their greatest common divisor. -/
theorem reaches_outer (x y : Nat) (rest : List ℤ) :
    Reaches (inner x y rest) (outer (Nat.gcd x y) rest) := by
  induction hsum : x + y using Nat.strong_induction_on generalizing x y with
  | _ sum ih =>
      apply Reaches.head
      rw [step]
      split
      next hzero =>
          have hgcd : x + y = Nat.gcd x y := by
            rcases hzero with rfl | rfl
            · simp
            · simp
          rw [hgcd]
          exact Reaches.refl _
      next hne =>
          rw [not_or] at hne
          split
          next hlt =>
              have hmod : x % y < y := Nat.mod_lt _ (Nat.pos_of_ne_zero hne.2)
              rw [Nat.gcd_comm, Nat.gcd_rec]
              exact ih _ (by omega) _ _ rfl
          next hle =>
              have hmod : y % x < x := Nat.mod_lt _ (Nat.pos_of_ne_zero hne.1)
              rw [Nat.gcd_rec, Nat.gcd_comm]
              exact ih _ (by omega) _ _ rfl

/-- The outer loop ends after the last number. -/
theorem reaches_returned (rest : List ℤ) (x : Nat) :
    Reaches (outer x rest) (returned (GCD (x :: rest.map Int.natAbs))) := by
  induction rest generalizing x with
  | nil => exact Reaches.head (Reaches.refl _)
  | cons y rest ih =>
      apply Reaches.head
      apply (reaches_outer x y.natAbs rest).trans
      rw [List.map_cons, GCD, List.foldl_cons, gcdStep_eq_gcd]
      exact ih _

theorem reaches_GCD (x : ℤ) (rest : List ℤ) :
    Reaches (start x rest) (returned (GCD ((x :: rest).map Int.natAbs))) :=
  reaches_returned rest x.natAbs

end GcdState

/-- A common divisor that every common divisor divides. -/
structure IsGreatestDivisor (arrNumbers : List ℤ) (g : ℕ) : Prop where
  dvd : ∀ x ∈ arrNumbers, (g : ℤ) ∣ x
  greatest : ∀ d : ℕ, (∀ x ∈ arrNumbers, (d : ℤ) ∣ x) → d ∣ g

section Divisor

variable {arrNumbers arrNumbers' : List ℤ} {g g' : ℕ}

theorem isGreatestDivisor_GCD (hne : arrNumbers ≠ []) :
    IsGreatestDivisor arrNumbers (GCD (arrNumbers.map Int.natAbs)) := by
  have hdvd : ∀ d : ℕ, d ∣ GCD (arrNumbers.map Int.natAbs) ↔ ∀ x ∈ arrNumbers, (d : ℤ) ∣ x := by
    intro d
    rw [dvd_GCD_iff (by simpa using hne), List.forall_mem_map]
    simp only [Int.natCast_dvd]
  exact ⟨(hdvd _).mp dvd_rfl, fun d => (hdvd d).mpr⟩

namespace IsGreatestDivisor

/-- There is one such divisor, in whatever order the numbers come. -/
theorem unique (h : IsGreatestDivisor arrNumbers g) (h' : IsGreatestDivisor arrNumbers' g')
    (hperm : arrNumbers'.Perm arrNumbers) : g' = g := by
  apply Nat.dvd_antisymm
  · exact h.greatest g' fun x hx => h'.dvd x (hperm.mem_iff.mpr hx)
  · exact h'.greatest g fun x hx => h.dvd x (hperm.mem_iff.mp hx)

/-- Zeros are divided by everything, and so is their divisor. -/
theorem eq_zero (h : IsGreatestDivisor arrNumbers g) (hzero : ∀ x ∈ arrNumbers, x = 0) :
    g = 0 := by
  apply Nat.zero_dvd.mp
  apply h.greatest
  intro x hx
  rw [hzero x hx]
  exact dvd_zero _

theorem pos (h : IsGreatestDivisor arrNumbers g) (hne : ∃ x ∈ arrNumbers, x ≠ 0) : 0 < g := by
  obtain ⟨x, hx, hx0⟩ := hne
  apply Nat.pos_of_ne_zero
  rintro rfl
  exact hx0 (Int.zero_dvd.mp (h.dvd x hx))

/-- The quotients have no common divisor. -/
theorem eq_one_of_dvd_quotients (h : IsGreatestDivisor arrNumbers g)
    (hne : ∃ x ∈ arrNumbers, x ≠ 0) {d : ℕ} (hd : ∀ x ∈ arrNumbers, (d : ℤ) ∣ x / g) : d = 1 := by
  have hmul : d * g ∣ 1 * g := by
    rw [one_mul]
    apply h.greatest
    intro x hx
    rw [Nat.cast_mul, ← Int.ediv_mul_cancel (h.dvd x hx)]
    exact mul_dvd_mul_right (hd x hx) _
  exact Nat.dvd_one.mp (Nat.dvd_of_mul_dvd_mul_right (h.pos hne) hmul)

end IsGreatestDivisor

end Divisor

open GcdState in
/-- `GCD` terminates for every list of integers with the greatest common divisor, which is
zero for zeros and does not depend on the order. If there is another number than zero, all
numbers are multiples of it, with factors that have no common divisor. -/
theorem gcd_terminates (x : ℤ) (rest : List ℤ) :
    ∃ g : ℕ, Reaches (start x rest) (returned g) ∧ IsGreatestDivisor (x :: rest) g ∧
      ((∀ y ∈ x :: rest, y = 0) → g = 0) ∧
      (∀ x' rest', (x' :: rest').Perm (x :: rest) → Reaches (start x' rest') (returned g)) ∧
      ((∃ y ∈ x :: rest, y ≠ 0) → (∀ y ∈ x :: rest, y / g * g = y) ∧
        ∀ d : ℕ, (∀ y ∈ x :: rest, (d : ℤ) ∣ y / g) → d = 1) := by
  have hgreatest := isGreatestDivisor_GCD (List.cons_ne_nil x rest)
  refine ⟨_, reaches_GCD x rest, hgreatest, hgreatest.eq_zero, ?_, fun hne => ⟨?_, ?_⟩⟩
  · intro x' rest' hperm
    rw [← hgreatest.unique (isGreatestDivisor_GCD (List.cons_ne_nil x' rest')) hperm]
    exact reaches_GCD x' rest'
  · exact fun y hy => Int.ediv_mul_cancel (hgreatest.dvd y hy)
  · exact fun d => hgreatest.eq_one_of_dvd_quotients hne

namespace ConciliumPoS

/-- Where the divisor is not a forced one, the shares are whole and have no common divisor. -/
theorem exists_wholeShares {c : ConciliumPoS} (hne : c.arrMembers ≠ [])
    (hgcd : c.nGcd = GCD (c.arrMembers.map (·.amount))) :
    ∃ shares : List Nat, c.arrShares = shares.map (↑) ∧ ∀ d, (∀ s ∈ shares, d ∣ s) → d = 1 := by
  have hshares : c.arrShares = (c.arrMembers.map fun m => m.amount / c.nGcd).map (↑) := by
    rw [arrShares, List.map_map]
    apply List.map_congr_left
    intro m hm
    have hdvd : c.nGcd ∣ m.amount := hgcd ▸ GCD_dvd (List.mem_map_of_mem hm)
    have hpos : (c.nGcd : ℚ) ≠ 0 := Nat.cast_ne_zero.mpr (nGcd_pos hne).ne'
    exact (Nat.cast_div hdvd hpos).symm
  exact ⟨_, hshares, fun d => eq_one_of_dvd_shares hne hshares⟩

/-- Whole shares are what the greatest common divisor makes, and nothing else. -/
theorem wholeShares_iff {c : ConciliumPoS} (hne : c.arrMembers ≠ []) :
    (∃ shares : List Nat, c.arrShares = shares.map (↑)) ↔
      c.nGcd = GCD (c.arrMembers.map (·.amount)) := by
  constructor
  · rintro ⟨shares, hshares⟩
    exact nGcd_eq_of_whole hne hshares
  · intro hgcd
    obtain ⟨shares, hshares, -⟩ := exists_wholeShares hne hgcd
    exact ⟨shares, hshares⟩

end ConciliumPoS

end CilCore
