import CilCore.Conciliums.Definition
import CilCore.Lib.WeightedQuorum

/-!
# The quorum of a proof-of-stake concilium

Weights are shares of the sum of all deposits, so they sum to one, and the
quorum is one half and one reduced share. The divisor never makes the whole
concilium a single share unless it has a single member, which keeps the quorum
within reach.
-/

namespace CilCore

open WeightedQuorum

namespace ConciliumPoS

variable {c : ConciliumPoS}

/-- Where addresses are distinct, a member is the first one with its address. -/
theorem find?_address (hnodup : (c.arrMembers.map (·.address)).Nodup) {m : PosMember}
    (hm : m ∈ c.arrMembers) : c.arrMembers.find? (·.address == m.address) = some m := by
  obtain ⟨pre, post, hsplit⟩ := List.append_of_mem hm
  rw [List.find?_eq_some_iff_append]
  refine ⟨by simp, pre, post, hsplit, ?_⟩
  intro m' hm'
  rw [hsplit, List.map_append, List.nodup_append] at hnodup
  have hne : m'.address ≠ m.address :=
    hnodup.2.2 _ (List.mem_map_of_mem hm') _ (List.mem_map_of_mem List.mem_cons_self)
  simpa using hne

/-- The divisor cancels out of a member's weight. -/
theorem weight_member (hnodup : (c.arrMembers.map (·.address)).Nodup) {m : PosMember}
    (hm : m ∈ c.arrMembers) :
    (ConciliumDefinition.pos c).weight m.address = m.amount / c.totalAmount := by
  have hgcd : (c.nGcd : ℚ) ≠ 0 := Nat.cast_ne_zero.mpr (nGcd_pos (List.ne_nil_of_mem hm)).ne'
  simp only [ConciliumDefinition.weight, ConciliumDefinition.getWitnessWeight, getWitnessWeight,
    find?_address hnodup hm, totalSharesAmount]
  exact div_div_div_cancel_right₀ hgcd _ _

theorem sum_weight (hne : c.arrMembers ≠ []) (hnodup : (c.arrMembers.map (·.address)).Nodup) :
    ((ConciliumDefinition.pos c).getAddresses.map (ConciliumDefinition.pos c).weight).sum = 1 := by
  have htotal : (c.totalAmount : ℚ) ≠ 0 := Nat.cast_ne_zero.mpr (totalAmount_pos hne).ne'
  have hweights : (ConciliumDefinition.pos c).getAddresses.map (ConciliumDefinition.pos c).weight =
      c.arrMembers.map fun m => (m.amount : ℚ) / c.totalAmount := by
    simp only [ConciliumDefinition.getAddresses, List.map_map]
    apply List.map_congr_left
    intro m hm
    exact weight_member hnodup hm
  have hsum : (c.arrMembers.map fun m => (m.amount : ℚ) / c.totalAmount).sum =
      (c.totalAmount : ℚ) / c.totalAmount := by
    simp only [div_eq_mul_inv]
    rw [List.sum_map_mul_right, totalAmount, Nat.cast_list_sum, List.map_map]
    rfl
  rw [hweights, hsum, div_self htotal]

/-- Every member that is not forced below it holds a whole share, so the number
of members bounds the number of shares. -/
theorem length_mul_GCD_le (c : ConciliumPoS) :
    c.arrMembers.length * GCD (c.arrMembers.map (·.amount)) ≤ c.totalAmount := by
  have hle : (c.arrMembers.map fun _ => GCD (c.arrMembers.map (·.amount))).sum ≤ c.totalAmount := by
    apply List.sum_le_sum
    intro m hm
    exact Nat.le_of_dvd m.amount_pos (GCD_dvd (List.mem_map_of_mem hm))
  simpa using hle

/-- The divisor splits the deposits of several members into at least two shares. -/
theorem two_mul_nGcd_le (h : 2 ≤ c.arrMembers.length) : 2 * c.nGcd ≤ c.totalAmount := by
  have hgcd := length_mul_GCD_le c
  have htwo : 2 * GCD (c.arrMembers.map (·.amount)) ≤
      c.arrMembers.length * GCD (c.arrMembers.map (·.amount)) := Nat.mul_le_mul_right _ h
  unfold nGcd
  dsimp only
  split
  next hlarge => omega
  next =>
    split
    next hlarge => omega
    next => omega

theorem two_le_totalSharesAmount (h : 2 ≤ c.arrMembers.length) : 2 ≤ c.totalSharesAmount := by
  have hgcd : (0 : ℚ) < c.nGcd :=
    Nat.cast_pos.mpr (nGcd_pos (List.ne_nil_of_length_pos (by omega)))
  rw [totalSharesAmount, le_div_iff₀ hgcd]
  exact_mod_cast two_mul_nGcd_le h

/-- The quorum of several members: one half and one share. -/
theorem getQuorum_eq (h : 2 ≤ c.arrMembers.length) :
    c.getQuorum = 1 / 2 + 1 / c.totalSharesAmount := by
  have hshares := two_le_totalSharesAmount h
  have hlength : c.arrShares.length ≠ 1 := by
    rw [arrShares, List.length_map]
    omega
  rw [getQuorum, if_neg hlength]
  field_simp

theorem half_lt_getQuorum (hne : c.arrMembers ≠ []) : 1 / 2 < c.getQuorum := by
  by_cases hone : c.arrMembers.length = 1
  · simp [getQuorum, arrShares, hone]
    norm_num
  · have hlength := List.length_pos_of_ne_nil hne
    rw [getQuorum_eq (by omega)]
    have hshares := totalSharesAmount_pos hne
    have hshare : 0 < 1 / c.totalSharesAmount := by positivity
    linarith

theorem getQuorum_le_one (hne : c.arrMembers ≠ []) : c.getQuorum ≤ 1 := by
  by_cases hone : c.arrMembers.length = 1
  · simp [getQuorum, arrShares, hone]
  · have hlength := List.length_pos_of_ne_nil hne
    rw [getQuorum_eq (by omega)]
    have hshare : 1 / c.totalSharesAmount ≤ 1 / 2 :=
      one_div_le_one_div_of_le two_pos (two_le_totalSharesAmount (by omega))
    linarith

end ConciliumPoS

/-- A quorum that all members reach together and that no two disjoint sets of
members both reach. -/
structure IsMajority (c : ConciliumDefinition) : Prop where
  weighs : ∀ a ∈ c.getAddresses, c.getWitnessWeight a = .ok (c.weight a)
  sum_weight : (c.getAddresses.map c.weight).sum = 1
  half_lt : 1 / 2 < c.getQuorum
  le_one : c.getQuorum ≤ 1
  all_reach : c.getQuorum ≤ (c.getAddresses.map c.weight).sum
  intersect : ∀ A B : Finset Address, A ⊆ c.getAddresses.toFinset → B ⊆ c.getAddresses.toFinset →
    c.getQuorum ≤ ∑ a ∈ A, c.weight a → c.getQuorum ≤ ∑ a ∈ B, c.weight a → (A ∩ B).Nonempty

/-- The weight of a set of members, counted along the list of members. -/
theorem sum_weight_eq_weightOf (c : ConciliumDefinition) (hnodup : c.getAddresses.Nodup)
    {A : Finset Address} (hA : A ⊆ c.getAddresses.toFinset) :
    ∑ a ∈ A, c.weight a = weightOf c.weight (· ∈ A) c.getAddresses := by
  rw [weightOf, ← List.sum_toFinset _ hnodup, ← Finset.sum_filter]
  congr 1
  ext a
  rw [Finset.mem_filter]
  exact ⟨fun ha => ⟨hA ha, ha⟩, fun ha => ha.2⟩

/-- The quorum of a proof-of-stake concilium is a majority, whichever divisor its
deposits got. -/
theorem posQuorum_isMajority (c : ConciliumPoS) (hne : c.arrMembers ≠ [])
    (hnodup : (c.arrMembers.map (·.address)).Nodup) : IsMajority (.pos c) := by
  have hsum := ConciliumPoS.sum_weight hne hnodup
  have hhalf := ConciliumPoS.half_lt_getQuorum hne
  have haddresses : (ConciliumDefinition.pos c).getAddresses.Nodup := hnodup
  refine ⟨fun a => (ConciliumDefinition.pos c).getWitnessWeight_eq_weight, hsum, hhalf,
    ConciliumPoS.getQuorum_le_one hne, ?_, ?_⟩
  · rw [hsum]
    exact ConciliumPoS.getQuorum_le_one hne
  · intro A B hA hB hqA hqB
    have hall : weightOf (ConciliumDefinition.pos c).weight (fun _ => True)
        (ConciliumDefinition.pos c).getAddresses = 1 := by
      simpa [weightOf] using hsum
    rw [sum_weight_eq_weightOf _ haddresses hA] at hqA
    rw [sum_weight_eq_weightOf _ haddresses hB] at hqB
    have houtweigh : weightOf (ConciliumDefinition.pos c).weight (fun _ => True)
        (ConciliumDefinition.pos c).getAddresses <
        weightOf (ConciliumDefinition.pos c).weight (· ∈ A)
          (ConciliumDefinition.pos c).getAddresses +
        weightOf (ConciliumDefinition.pos c).weight (· ∈ B)
          (ConciliumDefinition.pos c).getAddresses := by
      rw [hall]
      have hquorum : 1 / 2 < (ConciliumDefinition.pos c).getQuorum := hhalf
      linarith
    obtain ⟨a, -, haA, haB⟩ := exists_common
      (fun a _ => (ConciliumDefinition.pos c).weight_nonneg a) houtweigh
    exact ⟨a, Finset.mem_inter.mpr ⟨haA, haB⟩⟩

/-- Two members with coprime deposits: 2 and 3 shares of 5. -/
def twoMembers : ConciliumPoS where
  conciliumId := 1
  arrMembers := [{ address := 11, amount := 2 }, { address := 12, amount := 3 }]

theorem posQuorum_isMajority_twoMembers : IsMajority (.pos twoMembers) :=
  posQuorum_isMajority twoMembers (by simp [twoMembers]) (by decide)

end CilCore
