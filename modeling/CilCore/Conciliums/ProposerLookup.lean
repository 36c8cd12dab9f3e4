import CilCore.Conciliums.RoundAgreement
import CilCore.Lib.Runs
import Mathlib.Algebra.Order.BigOperators.Group.List

/-!
# Looking up proposers

The lookup of `conciliumPoS.js` over any table of shares, with its exceptions: a round that
falls in no interval of the table, and a local round past the sequence of proposers. No run
of the round counter throws them.
-/

namespace CilCore

open ConciliumPoS

/-- The shares of the members, and the length of the sequence of proposers. -/
structure ShareTable where
  arrShares : List ℚ
  ne : arrShares ≠ []
  pos : ∀ share ∈ arrShares, 0 < share
  nSeqLength : Nat := 20
  nSeqLength_pos : 0 < nSeqLength := by decide

namespace ShareTable

variable (T : ShareTable)

/-- `_totalSharesAmount`. -/
def totalSharesAmount : ℚ := T.arrShares.sum

/-- `_findIdxByRound`. -/
def findIdxByRound (round : Nat) : Except String Nat :=
  match findShare (modulo round T.totalSharesAmount) 0 T.arrShares with
  | some i => .ok i
  | none => .error "You aren't supposed to be here"

/-- `_formProposerAddressesSequence`. -/
def formProposerAddressesSequence (seed : Nat) : Except String (List Nat) :=
  (List.range T.nSeqLength).mapM fun i => T.findIdxByRound (getSlot (seed + i))

/-- `initRounds`. -/
def initRounds (r : Rounds) : Except String Rounds := do
  let arrProposers ← T.formProposerAddressesSequence r.nSeed
  return { r with nRoundBase := r.nSeed, nLocalRound := 0, arrProposers }

/-- `nextRound`. -/
def nextRound (r : Rounds) : Except String Rounds :=
  let r := { r with nLocalRound := r.nLocalRound + 1 }
  if r.nLocalRound ≥ T.nSeqLength then T.initRounds r else .ok r

/-- A base that was left at zero is set before a round is adjusted. -/
def settle (r : Rounds) : Except String Rounds :=
  if r.nRoundBase = 0 ∧ r.nSeed ≠ 0 then T.initRounds r else .ok r

/-- `adjustRound`. A message without a round number leaves the local round. -/
def adjustRound (nRoundNo : Option Nat) (r : Rounds) : Except String Rounds := do
  let r ← T.settle r
  match nRoundNo with
  | none => return r
  | some nRoundNo =>
      let nRoundDiff := ((nRoundNo : ℤ) - r.nRoundBase).natAbs
      return if nRoundDiff < T.nSeqLength then { r with nLocalRound := nRoundDiff } else r

/-- The counter after an action. -/
def act (r : Rounds) : RoundAction → Except String Rounds
  | .initRounds => T.initRounds r
  | .nextRound => T.nextRound r
  | .changeSeed nSeed => .ok (ConciliumDefinition.changeSeed nSeed r)
  | .adjustRound nRoundNo => T.adjustRound nRoundNo r

/-- A first `initRounds` with some seed, and actions after it. -/
def run (nSeed : Nat) (actions : List RoundAction) : Except String Rounds := do
  let r ← T.initRounds { nSeed }
  actions.foldlM T.act r

/-- The index of the member that `getProposerAddress` looks up. -/
def getProposerIdx (r : Rounds) : Except String Nat :=
  if r.nLocalRound < T.nSeqLength then
    match r.arrProposers[r.nLocalRound]? with
    | some nAddrIdx => .ok nAddrIdx
    | none => .error "Cannot read properties of undefined"
  else .error "this._nLocalRound exceeded this._nSeqLength"

/-- The slot falls in the interval of a member. -/
def InShare (i round : Nat) : Prop :=
  i < T.arrShares.length ∧
    (T.arrShares.take i).sum ≤ modulo round T.totalSharesAmount ∧
    modulo round T.totalSharesAmount < (T.arrShares.take (i + 1)).sum

variable {T}

/-! ### The interval of a slot -/

/-- The share that is found is the one in whose interval the round falls. -/
theorem findShare_eq_some_iff {shares : List ℚ} (hpos : ∀ share ∈ shares, 0 < share)
    (round start : ℚ) (i : Nat) :
    findShare round start shares = some i ↔
      i < shares.length ∧ start + (shares.take i).sum ≤ round ∧
        round < start + (shares.take (i + 1)).sum := by
  induction shares generalizing start i with
  | nil => simp [findShare]
  | cons share rest ih =>
      have hrest : ∀ share ∈ rest, 0 < share := fun s hs => hpos s (List.mem_cons_of_mem _ hs)
      have hpre (k : Nat) : 0 ≤ (rest.take k).sum :=
        List.sum_nonneg fun s hs => (hrest s (List.mem_of_mem_take hs)).le
      rw [findShare]
      split
      next hin =>
        cases i with
        | zero =>
            simp only [List.take_zero, List.sum_nil, List.take_succ_cons, List.sum_cons,
              List.length_cons, Nat.zero_lt_succ, true_and, add_zero, true_iff]
            exact ⟨hin.1, by linarith [hin.2]⟩
        | succ i =>
            simp only [List.take_succ_cons, List.sum_cons]
            constructor
            · intro h
              cases h
            · intro h
              linarith [hin.2, h.2.1, hpre i]
      next hout =>
        rw [Option.map_eq_some_iff]
        cases i with
        | zero =>
            simp only [List.take_zero, List.sum_nil, List.take_succ_cons, List.sum_cons, add_zero]
            constructor
            · rintro ⟨k, -, hk⟩
              cases hk
            · rintro ⟨-, hstart, hround⟩
              exact absurd ⟨hstart, by linarith⟩ hout
        | succ i =>
            simp only [Nat.add_right_cancel_iff, exists_eq_right, ih hrest, List.length_cons,
              List.take_succ_cons, List.sum_cons, Nat.succ_lt_succ_iff]
            rw [add_assoc, add_assoc]

theorem totalSharesAmount_pos (T : ShareTable) : 0 < T.totalSharesAmount :=
  List.sum_pos _ T.pos T.ne

theorem findIdxByRound_eq_ok_iff (round i : Nat) :
    T.findIdxByRound round = .ok i ↔ T.InShare i round := by
  have hfind := findShare_eq_some_iff T.pos (modulo round T.totalSharesAmount) 0 i
  rw [zero_add, zero_add] at hfind
  rw [InShare, ← hfind, findIdxByRound]
  cases findShare (modulo round T.totalSharesAmount) 0 T.arrShares with
  | none => simp
  | some k => simp

/-- Exactly one member's interval contains the slot, and this member is found. -/
theorem existsUnique_inShare (T : ShareTable) (round : Nat) :
    ∃! i, T.InShare i round ∧ T.findIdxByRound round = .ok i := by
  have htotal := T.totalSharesAmount_pos
  have hlt : modulo round T.totalSharesAmount < 0 + T.arrShares.sum := by
    rw [zero_add]
    exact modulo_lt htotal
  obtain ⟨i, -, hfind⟩ := exists_findShare T.arrShares (modulo_nonneg htotal) hlt
  have hok : T.findIdxByRound round = .ok i := by rw [findIdxByRound, hfind]
  refine ⟨i, ⟨(findIdxByRound_eq_ok_iff round i).mp hok, hok⟩, ?_⟩
  intro j hj
  rw [hok] at hj
  exact (Except.ok.inj hj.2).symm

/-! ### Runs -/

/-- The proposers of some slots are found. -/
theorem exists_mapM_findIdxByRound (T : ShareTable) (slot : Nat → Nat) (xs : List Nat) :
    ∃ found : List Nat, (xs.mapM fun x => T.findIdxByRound (slot x)) = .ok found ∧
      ∀ (k x : Nat), xs[k]? = some x → ∃ i, found[k]? = some i ∧ T.InShare i (slot x) := by
  induction xs with
  | nil => exact ⟨[], rfl, fun k x hk => by simp at hk⟩
  | cons x rest ih =>
      obtain ⟨i, ⟨hin, hok⟩, -⟩ := T.existsUnique_inShare (slot x)
      obtain ⟨found, hfound, hall⟩ := ih
      refine ⟨i :: found, ?_, ?_⟩
      · rw [List.mapM_cons, hok, hfound]
        rfl
      · intro k y hk
        cases k with
        | zero =>
            obtain rfl : x = y := by simpa using hk
            exact ⟨i, rfl, hin⟩
        | succ k => exact hall k y hk

/-- The local round is within the sequence, which holds the member whose interval contains
the slot, for each round from the base. -/
structure Covers (T : ShareTable) (r : Rounds) : Prop where
  local_lt : r.nLocalRound < T.nSeqLength
  proposers : ∀ k < T.nSeqLength, ∃ i, r.arrProposers[k]? = some i ∧
    T.InShare i (getSlot (r.nRoundBase + k))

theorem exists_initRounds (T : ShareTable) (r : Rounds) :
    ∃ r', T.initRounds r = .ok r' ∧ T.Covers r' := by
  obtain ⟨found, hfound, hall⟩ := T.exists_mapM_findIdxByRound
    (fun i => getSlot (r.nSeed + i)) (List.range T.nSeqLength)
  refine ⟨{ r with nRoundBase := r.nSeed, nLocalRound := 0, arrProposers := found }, ?_, ?_⟩
  · rw [initRounds, formProposerAddressesSequence, hfound]
    rfl
  · exact ⟨T.nSeqLength_pos, fun k hk => hall k k (List.getElem?_range hk)⟩

theorem Covers.exists_act {r : Rounds} (h : T.Covers r) (action : RoundAction) :
    ∃ r', T.act r action = .ok r' ∧ T.Covers r' := by
  cases action with
  | initRounds => exact T.exists_initRounds r
  | nextRound =>
      rw [act, nextRound]
      split
      next => exact T.exists_initRounds _
      next hlt => exact ⟨_, rfl, not_le.mp hlt, h.proposers⟩
  | changeSeed nSeed => exact ⟨_, rfl, h.local_lt, h.proposers⟩
  | adjustRound nRoundNo =>
      have hsettled : ∃ settled, T.settle r = .ok settled ∧ T.Covers settled := by
        unfold settle
        split
        next => exact T.exists_initRounds r
        next => exact ⟨r, rfl, h⟩
      obtain ⟨settled, hok, hcovers⟩ := hsettled
      rw [act, adjustRound, hok]
      cases nRoundNo with
      | none => exact ⟨settled, rfl, hcovers⟩
      | some nRoundNo =>
          by_cases hnear : ((nRoundNo : ℤ) - settled.nRoundBase).natAbs < T.nSeqLength
          · refine ⟨_, rfl, ?_⟩
            rw [if_pos hnear]
            exact ⟨hnear, hcovers.proposers⟩
          · refine ⟨_, rfl, ?_⟩
            rw [if_neg hnear]
            exact hcovers

theorem exists_foldlM_act {r : Rounds} (h : T.Covers r) (actions : List RoundAction) :
    ∃ r', actions.foldlM T.act r = .ok r' ∧ T.Covers r' := by
  induction actions generalizing r with
  | nil => exact ⟨r, rfl, h⟩
  | cons action rest ih =>
      obtain ⟨after, hact, hcovers⟩ := h.exists_act action
      obtain ⟨r', hrest, hr'⟩ := ih hcovers
      refine ⟨r', ?_, hr'⟩
      rw [List.foldlM_cons, hact]
      exact hrest

end ShareTable

/-! ### The concilium -/

/-- The shares of a concilium with members. -/
def ConciliumPoS.shareTable (c : ConciliumPoS) (hne : c.arrMembers ≠ [])
    (hlen : 0 < c.nSeqLength) : ShareTable where
  arrShares := c.arrShares
  ne := by simpa [arrShares] using hne
  pos := by
    intro share hshare
    obtain ⟨m, -, rfl⟩ := List.mem_map.mp hshare
    exact div_pos (Nat.cast_pos.mpr m.amount_pos) (Nat.cast_pos.mpr (nGcd_pos hne))
  nSeqLength := c.nSeqLength
  nSeqLength_pos := hlen

section Concilium

variable {c : ConciliumPoS} (hne : c.arrMembers ≠ []) (hlen : 0 < c.nSeqLength)

theorem findIdxByRound_shareTable {round i : Nat} (h : c.findIdxByRound round = some i) :
    (c.shareTable hne hlen).findIdxByRound round = .ok i := by
  have htotal : (c.shareTable hne hlen).totalSharesAmount = c.totalSharesAmount :=
    sum_arrShares c
  rw [ConciliumPoS.findIdxByRound] at h
  have hshares : (c.shareTable hne hlen).arrShares = c.arrShares := rfl
  rw [ShareTable.findIdxByRound, htotal, hshares, h]

theorem initRounds_shareTable (r : Rounds) :
    (c.shareTable hne hlen).initRounds r = .ok ((ConciliumDefinition.pos c).initRounds r) := by
  have hmapM (xs : List Nat) :
      (xs.mapM fun i => (c.shareTable hne hlen).findIdxByRound (getSlot (r.nSeed + i))) =
        .ok (xs.filterMap fun i => c.findIdxByRound (getSlot (r.nSeed + i))) := by
    induction xs with
    | nil => rfl
    | cons x rest ih =>
        obtain ⟨i, -, hfind⟩ := exists_findIdxByRound hne (getSlot (r.nSeed + x))
        rw [List.mapM_cons, findIdxByRound_shareTable hne hlen hfind, ih, List.filterMap_cons,
          hfind]
        rfl
  rw [ShareTable.initRounds, ShareTable.formProposerAddressesSequence]
  have hsequence := hmapM (List.range c.nSeqLength)
  rw [show (c.shareTable hne hlen).nSeqLength = c.nSeqLength from rfl, hsequence]
  rfl

theorem act_shareTable (r : Rounds) (action : RoundAction) :
    (c.shareTable hne hlen).act r action = .ok ((ConciliumDefinition.pos c).act r action) := by
  cases action with
  | initRounds => exact initRounds_shareTable hne hlen r
  | nextRound =>
      rw [ShareTable.act, ShareTable.nextRound, ConciliumDefinition.act,
        ConciliumDefinition.nextRound]
      by_cases hpast : r.nLocalRound + 1 ≥ c.nSeqLength
      · exact (if_pos hpast).trans
          ((initRounds_shareTable hne hlen _).trans (congrArg Except.ok (if_pos hpast).symm))
      · exact (if_neg hpast).trans (congrArg Except.ok (if_neg hpast).symm)
  | changeSeed nSeed => rfl
  | adjustRound nRoundNo =>
      have hsettle : (c.shareTable hne hlen).settle r =
          .ok ((ConciliumDefinition.pos c).settled r) := by
        unfold ShareTable.settle ConciliumDefinition.settled
        split
        next => exact initRounds_shareTable hne hlen r
        next => rfl
      rw [ShareTable.act, ShareTable.adjustRound, hsettle]
      cases nRoundNo with
      | none => rfl
      | some nRoundNo => rfl

/-- With its exceptions, the counter of a concilium runs as without them. -/
theorem run_shareTable (nSeed : Nat) (actions : List RoundAction) :
    (c.shareTable hne hlen).run nSeed actions =
      .ok (Runs.after (ConciliumDefinition.pos c).act
        ((ConciliumDefinition.pos c).initRounds { nSeed }) actions) := by
  have hactions (r : Rounds) : actions.foldlM (c.shareTable hne hlen).act r =
      .ok (Runs.after (ConciliumDefinition.pos c).act r actions) := by
    induction actions generalizing r with
    | nil => rfl
    | cons action rest ih =>
        rw [List.foldlM_cons, act_shareTable]
        exact ih _
  rw [ShareTable.run, initRounds_shareTable]
  exact hactions _

end Concilium

/-- No run of the round counter throws. After it the local round is within the sequence,
exactly one member's interval contains the slot of the round, and the lookup of the proposer
returns this member. -/
theorem ShareTable.run_ok (T : ShareTable) (nSeed : Nat) (actions : List RoundAction) :
    ∃ r, T.run nSeed actions = .ok r ∧ r.nLocalRound < T.nSeqLength ∧
      (∀ x, ∃! i, T.InShare i (getSlot x) ∧ T.findIdxByRound (getSlot x) = .ok i) ∧
      ∃ i, T.getProposerIdx r = .ok i ∧
        T.InShare i (getSlot (ConciliumDefinition.getRound r)) := by
  obtain ⟨first, hfirst, hcovers⟩ := T.exists_initRounds { nSeed }
  obtain ⟨r, hrun, hr⟩ := exists_foldlM_act hcovers actions
  obtain ⟨i, hi, hin⟩ := hr.proposers r.nLocalRound hr.local_lt
  refine ⟨r, ?_, hr.local_lt, fun x => T.existsUnique_inShare (getSlot x), i, ?_, hin⟩
  · rw [run, hfirst]
    exact hrun
  · rw [getProposerIdx, if_pos hr.local_lt, hi]

end CilCore
