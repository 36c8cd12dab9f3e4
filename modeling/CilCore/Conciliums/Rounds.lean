import CilCore.Conciliums.Definition

/-!
# Rounds

The round counter of `conciliums/baseConciliumDefinition.js` with the choice of
the proposer in `conciliumRr.js` and `conciliumPoS.js`.
-/

namespace CilCore

/-- The round counter of a concilium definition. -/
structure Rounds where
  nSeed : Nat := 0
  nRoundBase : Nat := 0
  nLocalRound : Nat := 0
  arrProposers : List Nat := []
deriving DecidableEq, Repr

namespace ConciliumPoS

/-- `%` on non-negative numbers. -/
def modulo (x m : ℚ) : ℚ := x - m * ⌊x / m⌋

/-- The loop of `_findIdxByRound`: the share in which a reduced round falls. It
throws when no share is hit. -/
def findShare (round start : ℚ) : List ℚ → Option Nat
  | [] => none
  | share :: rest =>
      if start ≤ round ∧ round < share + start then some 0
      else (findShare round (start + share) rest).map (· + 1)

/-- `_findIdxByRound`. -/
def findIdxByRound (c : ConciliumPoS) (round : Nat) : Option Nat :=
  findShare (modulo round c.totalSharesAmount) 0 c.arrShares

/-- `_getSlot`. -/
def getSlot (x : Nat) : Nat := 1289 * x + 3559

/-- `_formProposerAddressesSequence`. -/
def formProposerAddressesSequence (c : ConciliumPoS) (seed : Nat) : List Nat :=
  (List.range c.nSeqLength).filterMap fun i => c.findIdxByRound (getSlot (seed + i))

end ConciliumPoS

namespace ConciliumDefinition

/-- `initRounds`: start counting from the current seed. -/
def initRounds (c : ConciliumDefinition) (r : Rounds) : Rounds :=
  { r with
    nRoundBase := r.nSeed
    nLocalRound := 0
    arrProposers := match c with
      | rr _ => r.arrProposers
      | pos c => c.formProposerAddressesSequence r.nSeed }

/-- `getRound`. -/
def getRound (r : Rounds) : Nat := r.nRoundBase + r.nLocalRound

/-- `nextRound`. -/
def nextRound (c : ConciliumDefinition) (r : Rounds) : Rounds :=
  if r.nLocalRound + 1 ≥ c.nSeqLength then
    c.initRounds { r with nLocalRound := r.nLocalRound + 1 }
  else { r with nLocalRound := r.nLocalRound + 1 }

/-- `changeSeed`. -/
def changeSeed (nSeed : Nat) (r : Rounds) : Rounds := { r with nSeed }

/-- `adjustRound`. A message without a round number leaves the local round. -/
def adjustRound (c : ConciliumDefinition) (nRoundNo : Option Nat) (r : Rounds) : Rounds :=
  let r := if r.nRoundBase = 0 ∧ r.nSeed ≠ 0 then c.initRounds r else r
  match nRoundNo with
  | none => r
  | some nRoundNo =>
      let nRoundDiff := ((nRoundNo : ℤ) - r.nRoundBase).natAbs
      if nRoundDiff < c.nSeqLength then { r with nLocalRound := nRoundDiff } else r

/-- `getProposerAddress`. -/
def getProposerAddress (c : ConciliumDefinition) (r : Rounds) : Option Address :=
  match c with
  | rr c => c.addresses[getRound r % c.addresses.length]?
  | pos c =>
      if r.nLocalRound < c.nSeqLength then
        (r.arrProposers[r.nLocalRound]?).bind fun nAddrIdx =>
          (c.arrMembers[nAddrIdx]?).map (·.address)
      else none

end ConciliumDefinition

end CilCore
