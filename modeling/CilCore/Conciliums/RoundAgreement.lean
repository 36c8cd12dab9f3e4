import CilCore.Conciliums.Rounds

/-!
# Agreeing on a round

The round a witness reports is its frozen base and its local round, and the
proposer is a function of that round alone. `adjustRound` sets the local round to
the distance between the agreed round and the base, on whichever side of the base
it lies and only if it is shorter than the sequence of proposers. So a witness
reports the agreed round if and only if it lies in the window that starts at the
witness's base.
-/

namespace CilCore

namespace ConciliumPoS

variable {c : ConciliumPoS}

/-- Whatever lies below the sum of the shares hits one of them. -/
theorem exists_findShare (shares : List ℚ) {round start : ℚ} (hstart : start ≤ round)
    (hround : round < start + shares.sum) :
    ∃ i, i < shares.length ∧ findShare round start shares = some i := by
  induction shares generalizing start with
  | nil =>
    rw [List.sum_nil, add_zero] at hround
    exact absurd hround (not_lt.mpr hstart)
  | cons share rest ih =>
    rw [findShare]
    by_cases hin : round < share + start
    · exact ⟨0, Nat.succ_pos _, if_pos ⟨hstart, hin⟩⟩
    · rw [List.sum_cons] at hround
      have hrest : start + share ≤ round := by linarith
      obtain ⟨i, hi, hfind⟩ := ih hrest (by linarith)
      refine ⟨i + 1, Nat.succ_lt_succ hi, ?_⟩
      rw [if_neg fun h => hin h.2, hfind]
      rfl

theorem modulo_nonneg {x m : ℚ} (hm : 0 < m) : 0 ≤ modulo x m := by
  have hfloor : (⌊x / m⌋ : ℚ) ≤ x / m := Int.floor_le _
  rw [le_div_iff₀ hm] at hfloor
  rw [modulo]
  linarith

theorem modulo_lt {x m : ℚ} (hm : 0 < m) : modulo x m < m := by
  have hfloor : x / m < (⌊x / m⌋ : ℚ) + 1 := Int.lt_floor_add_one _
  rw [div_lt_iff₀ hm] at hfloor
  rw [modulo]
  linarith

/-- Every round selects a member. -/
theorem exists_findIdxByRound (hne : c.arrMembers ≠ []) (round : Nat) :
    ∃ i, i < c.arrMembers.length ∧ c.findIdxByRound round = some i := by
  have htotal := totalSharesAmount_pos hne
  have hlt : modulo round c.totalSharesAmount < 0 + c.arrShares.sum := by
    rw [zero_add, sum_arrShares]
    exact modulo_lt htotal
  obtain ⟨i, hi, hfind⟩ := exists_findShare c.arrShares (modulo_nonneg htotal) hlt
  exact ⟨i, by simpa [arrShares] using hi, hfind⟩

/-- The sequence holds the proposer of every round it covers. -/
theorem getElem?_formProposerAddressesSequence (hne : c.arrMembers ≠ []) (seed : Nat) {i : Nat}
    (hi : i < c.nSeqLength) :
    (c.formProposerAddressesSequence seed)[i]? = c.findIdxByRound (getSlot (seed + i)) := by
  choose g _ hg using exists_findIdxByRound hne
  have hmap : c.formProposerAddressesSequence seed =
      (List.range c.nSeqLength).map fun i => g (getSlot (seed + i)) := by
    simp [formProposerAddressesSequence, hg]
  rw [hmap, hg]
  simp [hi]

end ConciliumPoS

/-- What is done to the round counter of a witness. -/
inductive RoundAction where
  | initRounds
  | nextRound
  | changeSeed (nSeed : Nat)
  | adjustRound (nRoundNo : Option Nat)

namespace ConciliumDefinition

variable (c : ConciliumDefinition)

/-- The counter after an action. -/
def act (r : Rounds) : RoundAction → Rounds
  | .initRounds => c.initRounds r
  | .nextRound => c.nextRound r
  | .changeSeed nSeed => changeSeed nSeed r
  | .adjustRound nRoundNo => c.adjustRound nRoundNo r

/-- Counters of witnesses: rounds are initialised with some seed, and anything
may follow. -/
inductive Counted : Rounds → Prop
  | init (nSeed : Nat) : Counted (c.initRounds { nSeed })
  | act {r : Rounds} (a : RoundAction) : Counted r → Counted (c.act r a)

/-- The sequence of proposers belongs to the base, and the local round to the
sequence. -/
structure InSequence (r : Rounds) : Prop where
  local_lt : r.nLocalRound < c.nSeqLength
  proposers : ∀ p, c = .pos p → r.arrProposers = p.formProposerAddressesSequence r.nRoundBase

/-- A base that was left at zero is set before a round is adjusted. -/
def settled (r : Rounds) : Rounds :=
  if r.nRoundBase = 0 ∧ r.nSeed ≠ 0 then c.initRounds r else r

variable {c}

theorem InSequence.initRounds (hlen : 0 < c.nSeqLength) (r : Rounds) :
    c.InSequence (c.initRounds r) where
  local_lt := hlen
  proposers p hp := by
    subst hp
    rfl

theorem InSequence.withLocal {r : Rounds} (h : c.InSequence r) {nLocalRound : Nat}
    (hlt : nLocalRound < c.nSeqLength) : c.InSequence { r with nLocalRound } :=
  ⟨hlt, h.proposers⟩

theorem InSequence.settled (hlen : 0 < c.nSeqLength) {r : Rounds} (h : c.InSequence r) :
    c.InSequence (c.settled r) := by
  unfold ConciliumDefinition.settled
  split
  next => exact .initRounds hlen r
  next => exact h

/-- The local round after an adjustment. -/
theorem adjustRound_some (nRoundNo : Nat) (r : Rounds) :
    c.adjustRound (some nRoundNo) r =
      if ((nRoundNo : ℤ) - (c.settled r).nRoundBase).natAbs < c.nSeqLength then
        { c.settled r with
          nLocalRound := ((nRoundNo : ℤ) - (c.settled r).nRoundBase).natAbs }
      else c.settled r := rfl

theorem InSequence.act (hlen : 0 < c.nSeqLength) {r : Rounds} (h : c.InSequence r)
    (a : RoundAction) : c.InSequence (c.act r a) := by
  cases a with
  | initRounds => exact .initRounds hlen r
  | nextRound =>
    change c.InSequence (c.nextRound r)
    unfold ConciliumDefinition.nextRound
    split
    next => exact .initRounds hlen _
    next hlt => exact h.withLocal (by omega)
  | changeSeed nSeed => exact ⟨h.local_lt, h.proposers⟩
  | adjustRound nRoundNo =>
    change c.InSequence (c.adjustRound nRoundNo r)
    cases nRoundNo with
    | none => exact h.settled hlen
    | some nRoundNo =>
      rw [adjustRound_some]
      split
      next hlt => exact (h.settled hlen).withLocal hlt
      next => exact h.settled hlen

theorem Counted.inSequence (hlen : 0 < c.nSeqLength) {r : Rounds} (h : c.Counted r) :
    c.InSequence r := by
  induction h with
  | init nSeed => exact .initRounds hlen _
  | act a _ ih => exact ih.act hlen a

/-- The proposer of a round. -/
def proposerOf (c : ConciliumDefinition) (round : Nat) : Option Address :=
  match c with
  | rr c => c.addresses[round % c.addresses.length]?
  | pos c => (c.findIdxByRound (ConciliumPoS.getSlot round)).bind fun nAddrIdx =>
      (c.arrMembers[nAddrIdx]?).map (·.address)

/-- Who proposes depends on the reported round alone. -/
theorem getProposerAddress_eq (hne : c.getAddresses ≠ []) {r : Rounds} (h : c.InSequence r) :
    c.getProposerAddress r = c.proposerOf (getRound r) := by
  cases c with
  | rr c => rfl
  | pos c =>
    have hmembers : c.arrMembers ≠ [] := by simpa [getAddresses] using hne
    have hlt : r.nLocalRound < c.nSeqLength := h.local_lt
    simp only [getProposerAddress, proposerOf, getRound, if_pos hlt, h.proposers c rfl]
    rw [ConciliumPoS.getElem?_formProposerAddressesSequence hmembers _ hlt]

/-- Every round has a member as its proposer. -/
theorem exists_proposerOf (hne : c.getAddresses ≠ []) (round : Nat) :
    ∃ strAddress ∈ c.getAddresses, c.proposerOf round = some strAddress := by
  cases c with
  | rr c =>
    have hlt : round % c.addresses.length < c.addresses.length :=
      Nat.mod_lt _ (List.length_pos_of_ne_nil hne)
    exact ⟨_, List.getElem_mem hlt, List.getElem?_eq_getElem hlt⟩
  | pos c =>
    have hmembers : c.arrMembers ≠ [] := by simpa [getAddresses] using hne
    obtain ⟨i, hi, hfind⟩ := ConciliumPoS.exists_findIdxByRound hmembers (ConciliumPoS.getSlot round)
    refine ⟨c.arrMembers[i].address, List.mem_map_of_mem (List.getElem_mem hi), ?_⟩
    simp [proposerOf, hfind, hi]

/-- The agreed round lies in the window that starts at the base. -/
def InWindow (c : ConciliumDefinition) (nRoundNo : Nat) (r : Rounds) : Prop :=
  r.nRoundBase ≤ nRoundNo ∧ nRoundNo < r.nRoundBase + c.nSeqLength

instance (nRoundNo : Nat) (r : Rounds) : Decidable (c.InWindow nRoundNo r) :=
  inferInstanceAs (Decidable (_ ∧ _))

/-- Where a witness ends up whose window the agreed round misses: as far ahead of
its base as the round lies behind it, or where it was. -/
def strayRound (c : ConciliumDefinition) (nRoundNo : Nat) (r : Rounds) : Nat :=
  if nRoundNo < r.nRoundBase ∧ r.nRoundBase < nRoundNo + c.nSeqLength then
    r.nRoundBase + (r.nRoundBase - nRoundNo)
  else getRound r

theorem getRound_adjustRound (nRoundNo : Nat) (r : Rounds) :
    getRound (c.adjustRound (some nRoundNo) r) =
      if c.InWindow nRoundNo (c.settled r) then nRoundNo
      else c.strayRound nRoundNo (c.settled r) := by
  rw [adjustRound_some]
  by_cases hin : c.InWindow nRoundNo (c.settled r)
  · rw [if_pos hin]
    obtain ⟨hle, hlt⟩ := hin
    rw [if_pos (by omega)]
    simp only [getRound]
    omega
  · rw [if_neg hin, strayRound]
    unfold InWindow at hin
    split
    next hnear =>
      rw [if_pos (by omega)]
      simp only [getRound]
      omega
    next hfar => rw [if_neg (by omega)]

/-- Who strays does not reach the agreed round. -/
theorem strayRound_ne {nRoundNo : Nat} {r : Rounds} (h : c.InSequence r)
    (hout : ¬ c.InWindow nRoundNo r) : c.strayRound nRoundNo r ≠ nRoundNo := by
  have hlt := h.local_lt
  unfold InWindow at hout
  unfold strayRound getRound
  split
  next => omega
  next => omega

/-- Two witnesses report one round and expect one member to propose in it. -/
def Converge (c : ConciliumDefinition) (r₁ r₂ : Rounds) : Prop :=
  getRound r₁ = getRound r₂ ∧ ∃ strAddress ∈ c.getAddresses,
    c.getProposerAddress r₁ = some strAddress ∧ c.getProposerAddress r₂ = some strAddress

theorem converge_iff_getRound (hne : c.getAddresses ≠ []) {r₁ r₂ : Rounds}
    (h₁ : c.InSequence r₁) (h₂ : c.InSequence r₂) :
    c.Converge r₁ r₂ ↔ getRound r₁ = getRound r₂ := by
  refine ⟨fun h => h.1, fun heq => ⟨heq, ?_⟩⟩
  obtain ⟨strAddress, hmem, hproposer⟩ := exists_proposerOf hne (getRound r₁)
  refine ⟨strAddress, hmem, ?_, ?_⟩
  · rw [getProposerAddress_eq hne h₁, hproposer]
  · rw [getProposerAddress_eq hne h₂, ← heq, hproposer]

end ConciliumDefinition

open ConciliumDefinition

/-- Two witnesses that adjust to one round converge exactly where it lies in the
windows of both, or in neither and both stray to one round. Their seeds do not
matter. -/
theorem adjustRound_converge_iff (c : ConciliumDefinition) (hne : c.getAddresses ≠ [])
    (hlen : 0 < c.nSeqLength) (r₁ r₂ : Rounds) (h₁ : c.Counted r₁) (h₂ : c.Counted r₂)
    (nRoundNo : Nat) :
    c.Converge (c.adjustRound (some nRoundNo) r₁) (c.adjustRound (some nRoundNo) r₂) ↔
      (c.InWindow nRoundNo (c.settled r₁) ∧ c.InWindow nRoundNo (c.settled r₂)) ∨
      (¬ c.InWindow nRoundNo (c.settled r₁) ∧ ¬ c.InWindow nRoundNo (c.settled r₂) ∧
        c.strayRound nRoundNo (c.settled r₁) = c.strayRound nRoundNo (c.settled r₂)) := by
  have hs₁ : c.InSequence (c.settled r₁) := (h₁.inSequence hlen).settled hlen
  have hs₂ : c.InSequence (c.settled r₂) := (h₂.inSequence hlen).settled hlen
  have ha₁ : c.InSequence (c.adjustRound (some nRoundNo) r₁) :=
    (h₁.inSequence hlen).act hlen (.adjustRound (some nRoundNo))
  have ha₂ : c.InSequence (c.adjustRound (some nRoundNo) r₂) :=
    (h₂.inSequence hlen).act hlen (.adjustRound (some nRoundNo))
  rw [converge_iff_getRound hne ha₁ ha₂, getRound_adjustRound, getRound_adjustRound]
  by_cases hin₁ : c.InWindow nRoundNo (c.settled r₁) <;>
    by_cases hin₂ : c.InWindow nRoundNo (c.settled r₂)
  · simp [hin₁, hin₂]
  · simp [hin₁, hin₂, (strayRound_ne hs₂ hin₂).symm]
  · simp [hin₁, hin₂, strayRound_ne hs₁ hin₁]
  · simp [hin₁, hin₂]

/-- A round-robin concilium of three. -/
def threeInTurn : ConciliumDefinition :=
  .rr { conciliumId := 1, addresses := [11, 12, 13] }

/-- A witness of three that counted from `nSeed` and has heard of the seed 200
since. -/
def countedFrom (nSeed : Nat) : Rounds :=
  threeInTurn.act (threeInTurn.initRounds { nSeed }) (.changeSeed 200)

theorem counted_countedFrom (nSeed : Nat) : threeInTurn.Counted (countedFrom nSeed) :=
  .act _ (.init nSeed)

theorem adjustRound_converge_iff_threeInTurn :
    threeInTurn.Converge (threeInTurn.adjustRound (some 101) (countedFrom 100))
        (threeInTurn.adjustRound (some 101) (countedFrom 101)) ↔
      (threeInTurn.InWindow 101 (threeInTurn.settled (countedFrom 100)) ∧
        threeInTurn.InWindow 101 (threeInTurn.settled (countedFrom 101))) ∨
      (¬ threeInTurn.InWindow 101 (threeInTurn.settled (countedFrom 100)) ∧
        ¬ threeInTurn.InWindow 101 (threeInTurn.settled (countedFrom 101)) ∧
        threeInTurn.strayRound 101 (threeInTurn.settled (countedFrom 100)) =
          threeInTurn.strayRound 101 (threeInTurn.settled (countedFrom 101))) :=
  adjustRound_converge_iff threeInTurn (by decide) (by decide) _ _ (counted_countedFrom 100)
    (counted_countedFrom 101) 101

/-- The round 100 is one behind the base of the second witness, which takes it
for one ahead and reports 102. -/
theorem not_converge_countedFrom :
    ∃ r₁ r₂ : Rounds, threeInTurn.Counted r₁ ∧ threeInTurn.Counted r₂ ∧ r₁.nSeed = r₂.nSeed ∧
      ¬ threeInTurn.Converge (threeInTurn.adjustRound (some 100) r₁)
        (threeInTurn.adjustRound (some 100) r₂) := by
  refine ⟨countedFrom 100, countedFrom 101, counted_countedFrom 100, counted_countedFrom 101, rfl,
    ?_⟩
  rintro ⟨hround, -⟩
  have hne : getRound (threeInTurn.adjustRound (some 100) (countedFrom 100)) ≠
      getRound (threeInTurn.adjustRound (some 100) (countedFrom 101)) := by decide
  exact hne hround

end CilCore
