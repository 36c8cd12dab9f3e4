import CilCore.Conciliums.PosQuorum
import CilCore.Conciliums.Rounds
import CilCore.Lib.AffineResidues

/-!
# Fair selection of proposers

Reduced rounds fall into half-open intervals as long as the members' shares, so
a member is selected as often as the slots of a window meet its interval. Slots
are an affine map of the round. They permute the reduced rounds unless the total
of the shares is a multiple of the factor 1289; then they meet only one residue
of 1289, each member is selected a multiple of 1289 times, and the shares, which
have no common divisor, cannot all be met.
-/

namespace CilCore

open AffineResidues

namespace ConciliumPoS

variable {c : ConciliumPoS}

@[simp] theorem modulo_natCast (x m : Nat) : modulo x m = (x % m : Nat) := by
  have hdiv : (x : ℚ) = m * (x / m : Nat) + (x % m : Nat) := by
    exact_mod_cast (Nat.div_add_mod x m).symm
  rw [modulo, Rat.floor_natCast_div_natCast, ← Int.natCast_div, Int.cast_natCast]
  linarith

/-- The share of whole shares in which a reduced round falls. -/
theorem findShare_natCast (round start : Nat) (shares : List Nat) (i : Nat) :
    findShare round start (shares.map (↑)) = some i ↔
      i < shares.length ∧ start + (shares.take i).sum ≤ round ∧
        round < start + (shares.take (i + 1)).sum := by
  induction shares generalizing start i with
  | nil => simp [findShare]
  | cons share rest ih =>
    have hrest := ih (start + share)
    push_cast at hrest
    rw [List.map_cons, findShare]
    norm_cast
    split
    next hin =>
      cases i with
      | zero => simp [hin.1]; omega
      | succ i =>
        have hlater : ¬ start + (share + (rest.take i).sum) ≤ round := by omega
        simp [hlater]
    next hout =>
      cases i with
      | zero =>
        simp
        omega
      | succ i =>
        push_cast
        simp [hrest]
        omega

/-- The interval of a member among the reduced rounds. -/
def InInterval (shares : List Nat) (i round : Nat) : Prop :=
  i < shares.length ∧ (shares.take i).sum ≤ round ∧ round < (shares.take (i + 1)).sum

instance (shares : List Nat) (i : Nat) : DecidablePred (InInterval shares i) := fun _ =>
  inferInstanceAs (Decidable (_ ∧ _))

/-- An interval is as long as the member's share. -/
theorem count_inInterval (shares : List Nat) {i : Nat} (hi : i < shares.length) :
    Nat.count (InInterval shares i) shares.sum = shares[i] := by
  have hnext : (shares.take (i + 1)).sum = (shares.take i).sum + shares[i] :=
    List.sum_take_succ shares i hi
  have hwhole : (shares.take (i + 1)).sum ≤ shares.sum :=
    (List.take_sublist _ _).sum_le_sum (by simp)
  have hfilter : (Finset.range shares.sum).filter (InInterval shares i) =
      Finset.Ico (shares.take i).sum (shares.take (i + 1)).sum := by
    ext round
    simp only [Finset.mem_filter, Finset.mem_range, Finset.mem_Ico, InInterval]
    omega
  rw [Nat.count_eq_card_filter_range, hfilter, Nat.card_Ico]
  omega

/-- Where reduced shares are whole, so is their total. -/
theorem totalSharesAmount_eq {shares : List Nat} (hshares : c.arrShares = shares.map (↑)) :
    c.totalSharesAmount = (shares.sum : Nat) := by
  rw [← sum_arrShares, hshares, Nat.cast_list_sum]

/-- The member selected for a slot. -/
theorem findIdxByRound_iff {shares : List Nat} (hshares : c.arrShares = shares.map (↑))
    (round i : Nat) :
    c.findIdxByRound round = some i ↔ InInterval shares i (round % shares.sum) := by
  rw [findIdxByRound, totalSharesAmount_eq hshares, modulo_natCast, hshares, InInterval]
  have hfind := findShare_natCast (round % shares.sum) 0 shares i
  simpa using hfind

/-- The rounds of a window that select a member. -/
def selections (c : ConciliumPoS) (T x i : Nat) : Finset Nat :=
  (Finset.Ico x (x + T)).filter fun y => c.findIdxByRound (getSlot y) = some i

theorem selections_eq_hits {shares : List Nat} (hshares : c.arrShares = shares.map (↑))
    (x i : Nat) :
    c.selections shares.sum x i = hits (InInterval shares i) 1289 3559 shares.sum x := by
  apply Finset.filter_congr
  intro y _
  exact findIdxByRound_iff hshares (getSlot y) i

/-- A member with a whole share paid that many times the divisor. -/
theorem exists_share {shares : List Nat} (hshares : c.arrShares = shares.map (↑)) {m : PosMember}
    (hm : m ∈ c.arrMembers) : ∃ s ∈ shares, m.amount = s * c.nGcd := by
  have hgcd : (c.nGcd : ℚ) ≠ 0 := Nat.cast_ne_zero.mpr (nGcd_pos (List.ne_nil_of_mem hm)).ne'
  have hshare : (m.amount : ℚ) / c.nGcd ∈ shares.map (fun s : Nat => (s : ℚ)) := by
    rw [← hshares]
    exact List.mem_map_of_mem hm
  obtain ⟨s, hs, heq⟩ := List.mem_map.mp hshare
  have hmul : (m.amount : ℚ) = s * c.nGcd := by
    rw [heq]
    field_simp
  exact ⟨s, hs, by exact_mod_cast hmul⟩

/-- What divides every whole share divides, times the divisor, every deposit. -/
theorem mul_nGcd_dvd_GCD {shares : List Nat} (hne : c.arrMembers ≠ [])
    (hshares : c.arrShares = shares.map (↑)) {d : Nat} (hd : ∀ s ∈ shares, d ∣ s) :
    d * c.nGcd ∣ GCD (c.arrMembers.map (·.amount)) := by
  rw [dvd_GCD_iff (by simpa using hne)]
  intro amount hamount
  obtain ⟨m, hm, rfl⟩ := List.mem_map.mp hamount
  obtain ⟨s, hs, hmul⟩ := exists_share hshares hm
  rw [hmul]
  exact Nat.mul_dvd_mul_right (hd s hs) _

/-- A forced divisor leaves some share broken, so whole shares come from the
greatest common divisor. -/
theorem nGcd_eq_of_whole {shares : List Nat} (hne : c.arrMembers ≠ [])
    (hshares : c.arrShares = shares.map (↑)) :
    c.nGcd = GCD (c.arrMembers.map (·.amount)) := by
  have hpos : 0 < GCD (c.arrMembers.map (·.amount)) := by
    refine GCD_pos (by simpa using hne) ?_
    intro amount hamount
    obtain ⟨m, -, rfl⟩ := List.mem_map.mp hamount
    exact m.amount_pos
  have hdvd := mul_nGcd_dvd_GCD hne hshares fun s _ => one_dvd s
  rw [one_mul] at hdvd
  have hle := Nat.le_of_dvd hpos hdvd
  unfold nGcd at hle ⊢
  dsimp only at hle ⊢
  split at hle
  next hlarge => omega
  next hsmall =>
    split at hle
    next hlarge => omega
    next hsmaller => rw [if_neg hsmall, if_neg hsmaller]

/-- Whole shares have no common divisor. -/
theorem eq_one_of_dvd_shares {shares : List Nat} (hne : c.arrMembers ≠ [])
    (hshares : c.arrShares = shares.map (↑)) {d : Nat} (hd : ∀ s ∈ shares, d ∣ s) : d = 1 := by
  have hdvd := mul_nGcd_dvd_GCD hne hshares hd
  rw [← nGcd_eq_of_whole hne hshares] at hdvd
  have hone : d * c.nGcd ∣ 1 * c.nGcd := by rwa [one_mul]
  exact Nat.dvd_one.mp (Nat.dvd_of_mul_dvd_mul_right (nGcd_pos hne) hone)

end ConciliumPoS

/-- Among as many consecutive rounds as there are shares, each member is selected
as often as its share says. -/
def SelectsFairly (c : ConciliumPoS) (shares : List Nat) : Prop :=
  ∀ (x i : Nat) (hi : i < shares.length), (c.selections shares.sum x i).card = shares[i]

/-- The slots select fairly exactly where their factor 1289 does not divide the
total of the shares. -/
theorem selectsFairly_iff (c : ConciliumPoS) (shares : List Nat) (hne : c.arrMembers ≠ [])
    (hshares : c.arrShares = shares.map (↑)) :
    SelectsFairly c shares ↔ ¬ 1289 ∣ shares.sum := by
  constructor
  · intro hfair hdvd
    have hall : ∀ s ∈ shares, 1289 ∣ s := by
      intro s hs
      obtain ⟨i, hi, rfl⟩ := List.mem_iff_getElem.mp hs
      rw [← hfair 0 i hi, ConciliumPoS.selections_eq_hits hshares]
      exact dvd_card_hits _ dvd_rfl hdvd 0
    have hone : 1289 = 1 := ConciliumPoS.eq_one_of_dvd_shares hne hshares hall
    omega
  · intro hndvd x i hi
    have hprime : Nat.Prime 1289 := by norm_num
    rw [ConciliumPoS.selections_eq_hits hshares,
      card_hits_of_coprime _ ((Nat.Prime.coprime_iff_not_dvd hprime).mpr hndvd),
      ConciliumPoS.count_inInterval shares hi]

theorem selectsFairly_iff_twoMembers : SelectsFairly twoMembers [2, 3] ↔ ¬ 1289 ∣ 5 :=
  selectsFairly_iff twoMembers [2, 3] (by simp [twoMembers]) (by decide +kernel)

/-- One coin against 1288 others: the total of the shares is the factor. -/
def coinAgainst1288 : ConciliumPoS where
  conciliumId := 1
  arrMembers := [{ address := 11, amount := 1 }, { address := 12, amount := 1288 }]

/-- Nobody selects the first of these members, whose share is one round in 1289. -/
theorem not_selectsFairly_coinAgainst1288 : ¬ SelectsFairly coinAgainst1288 [1, 1288] := by
  intro hfair
  have hshares : coinAgainst1288.arrShares = [1, 1288].map (fun s : Nat => (s : ℚ)) := by
    decide +kernel
  have hone : (coinAgainst1288.selections 1289 0 0).card = 1 := hfair 0 0 (by decide)
  have hdvd : 1289 ∣ (coinAgainst1288.selections 1289 0 0).card := by
    rw [show 1289 = [1, 1288].sum from rfl, ConciliumPoS.selections_eq_hits hshares]
    exact dvd_card_hits _ dvd_rfl dvd_rfl 0
  rw [hone] at hdvd
  omega

end CilCore
