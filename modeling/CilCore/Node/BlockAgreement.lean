import CilCore.Node.ProposerAgrees

/-!
# A created block is executed by others

Every node that has the stable store and the pending blocks of a witness executes the
block that the witness creates, and comes to its patch and its fees, unless the witness
joins outputs of its own that do not pay for the join: then the amount it pays to itself
is negative, and is another one once it is encoded.
-/

namespace CilCore

open PendingBlocksManager ChainState

variable {F : Factory} {J : Dagjs} {s s' : ChainState} {w : Witness} {conciliumId : Nat}
  {vm vm' : Transaction → Behaviour} {node : NodeView} {patchStart : PatchDB}

/-! ### What agreement means -/

/-- A node that has the stable store and the pending blocks of another one, knows the
parents of the block, and has not executed it. -/
structure Validator (F : Factory) (s : ChainState) (block : Block) (s' : ChainState) : Prop where
  storage : s'.storage = s.storage
  dag : s'.pendingBlocks.dag = s.pendingBlocks.dag
  heights : ∀ hash ∈ block.parentHashes,
    (s'.mainDag.getBlockInfo hash).map (·.header.height) =
      (s.mainDag.getBlockInfo hash).map (·.header.height)
  notExecuted : s'.isBlockExecuted (block.hash F) = false

/-- Every validator executes the block to the patch of its proposer, and its coinbase pays
the fees that the validator has counted. -/
def Agreed (F : Factory) (s : ChainState) (block : Block) (patch : PatchDB) : Prop :=
  ∀ s' vm', Validator F s block s' →
    ∃ patchMerged patchStart patchTxns blockFees,
      s'.pendingBlocks.mergePatches F block.parentHashes = .ok patchMerged ∧
      patchMerged.setConciliumId block.conciliumId = .ok patchStart ∧
      execTxns F ⟨s'.storage, some block.getHeight⟩ false block.conciliumId vm' block.txns.tail
        patchStart 0 = .ok (patchTxns, blockFees) ∧
      (block.coinbase.amountOut : Amount) = blockFees ∧
      s'.execBlock F (some block.getHeight) vm' block = .ok (some patch)

namespace Witness

/-- The node and the patch that the first transaction of a new block is processed in. -/
structure StartsFrom (F : Factory) (J : Dagjs) (s : ChainState) (conciliumId : Nat)
    (node : NodeView) (patchStart : PatchDB) : Prop where
  node : ∃ height,
    s.calcHeight (s.pendingBlocks.getBestParents F J (some conciliumId)).1 = .ok height ∧
      node = ⟨s.storage, some height⟩
  patch : (s.pendingBlocks.getBestParents F J (some conciliumId)).2.setConciliumId conciliumId =
    .ok patchStart

/-- A join transaction that gets into the block pays an amount that has a place in its
field. -/
def JoinFits (F : Factory) (J : Dagjs) (w : Witness) (s : ChainState)
    (vm : Transaction → Behaviour) (conciliumId : Nat) : Prop :=
  ∀ node patchStart, StartsFrom F J s conciliumId node patchStart →
    ∀ join r, w.joinTx F conciliumId = some join →
      join.tx.inputs.length ≤ w.constants.MAX_UTXO_PER_TX →
      processBuiltTx F node patchStart join (vm join.tx) = .ok r →
      0 ≤ w.joinAmount F ∧ w.joinAmount F < 2 ^ 64

/-- The fee of a join and the coins that are joined are far from the bounds of a field. -/
structure JoinBounded (F : Factory) (J : Dagjs) (w : Witness) (s : ChainState)
    (conciliumId : Nat) : Prop where
  fee : -2 ^ 63 ≤ w.joinAmount F
  coins : ∀ node patchStart, StartsFrom F J s conciliumId node patchStart →
    ∀ join patch totalHas nFeeSize, w.joinTx F conciliumId = some join →
      processInputs F node (some patchStart) false join.tx = .ok (patch, totalHas, nFeeSize) →
      totalHas < 2 ^ 63

/-! ### The creation of a block -/

/-- What a block consists of, and what its proposer has executed. -/
theorem createBlock_ok {block : Block} {patch : PatchDB}
    (h : w.createBlock F J s vm conciliumId = .ok (block, patch)) :
    ∃ patchStart, StartsFrom F J s conciliumId ⟨s.storage, some block.getHeight⟩ patchStart ∧
      s.calcHeight block.parentHashes = .ok block.getHeight ∧
      block.parentHashes = (s.pendingBlocks.getBestParents F J (some conciliumId)).1 ∧
      block.conciliumId = conciliumId ∧
      ∃ building, building = w.addTxns F ⟨s.storage, some block.getHeight⟩ vm
          (w.arrTxToProcess F conciliumId) ⟨[], 0, patchStart⟩ ∧
        block.txns.tail = building.txns ∧
        (block.coinbase.amountOut : Amount) = building.totalFee ∧
        processBlockCoinbaseTX F block building.totalFee building.patchMerged = .ok patch := by
  unfold createBlock at h
  dsimp only at h
  split at h
  next => cases h
  next patchStart hstart =>
    split at h
    next => cases h
    next height hheight =>
      split at h
      next => cases h
      next minUsefulAmount hmin =>
        split at h
        next => cases h
        next finished hfinish =>
          unfold Except.map at h
          split at h
          next => cases h
          next executed hcoinbase =>
            cases h
            obtain ⟨htxns, hamount, hparents, hconcilium, hheight'⟩ := finish_ok hfinish
            dsimp only at hparents hconcilium hheight'
            rw [hparents, hheight']
            exact ⟨patchStart, ⟨⟨height, hheight, rfl⟩, hstart⟩, hheight, rfl, hconcilium, _, rfl,
              htxns, hamount, hcoinbase⟩

theorem eq_of_joinTx {join : BuiltTx} (h : w.joinTx F conciliumId = some join) :
    join = w.createJoinTx F conciliumId := by
  unfold joinTx at h
  split at h
  next => exact (Option.some.inj h).symm
  next => cases h

/-- All transactions that are tried are those of the concilium. -/
theorem conciliumId_arrTxToProcess {built : BuiltTx}
    (h : built ∈ w.arrTxToProcess F conciliumId) : built.tx.conciliumId = conciliumId := by
  rcases List.mem_append.mp h with hjoin | hmempool
  · rw [Option.mem_toList] at hjoin
    rw [eq_of_joinTx hjoin]
    unfold createJoinTx joinPayload
    dsimp only
    split <;> rfl
  · obtain ⟨tx, htx, rfl⟩ := List.mem_map.mp hmempool
    rcases List.mem_append.mp htx with hfiled | hlocal
    · exact w.mempool.filed conciliumId tx hfiled
    · exact of_decide_eq_true (List.mem_filter.mp hlocal).2

theorem outputs_createJoinTx (F : Factory) (w : Witness) (conciliumId : Nat) :
    (w.createJoinTx F conciliumId).tx.getOutCoins =
      [⟨(fixed64 (w.joinAmount F) : Amount), w.address⟩] := by
  unfold createJoinTx Transaction.getOutCoins
  dsimp only
  split <;> rfl

/-- A join whose amount has a place in its field is what its encoding says. -/
theorem outCoins_of_fits (h : 0 ≤ w.joinAmount F) (hlt : w.joinAmount F < 2 ^ 64) :
    (w.createJoinTx F conciliumId).outCoins = (w.createJoinTx F conciliumId).tx.getOutCoins := by
  have hfixed : ((fixed64 (w.joinAmount F) : Nat) : ℤ) = w.joinAmount F := by
    unfold fixed64
    rw [Int.emod_eq_of_lt h hlt, Int.toNat_of_nonneg h]
  rw [outputs_createJoinTx, ← Int.cast_natCast (fixed64 _), hfixed]
  rfl

theorem addTxns_of_not {building : Building} {built : BuiltTx} {rest : List BuiltTx}
    (h : ¬ (built.tx.inputs.length ≤ w.constants.MAX_UTXO_PER_TX ∧
      ∃ r, processBuiltTx F node building.patchMerged built (vm built.tx) = .ok r)) :
    w.addTxns F node vm (built :: rest) building = w.addTxns F node vm rest building := by
  rw [addTxns]
  split
  next => rfl
  next hlength =>
    split
    next => rfl
    next fee patchThisTx hprocess => exact absurd ⟨not_lt.mp hlength, _, hprocess⟩ h

/-- Unless a join gets into the block that does not fit, the validator replays all that
the witness has added. -/
theorem execTxns_arrTxToProcess (hF : F.HashesPayloads) (hproper : Proper patchStart)
    (hpays : ∀ built ∈ w.arrTxToProcess F conciliumId, Pays F node patchStart built.tx)
    (hfits : ∀ join r, w.joinTx F conciliumId = some join →
      join.tx.inputs.length ≤ w.constants.MAX_UTXO_PER_TX →
      processBuiltTx F node patchStart join (vm join.tx) = .ok r →
      0 ≤ w.joinAmount F ∧ w.joinAmount F < 2 ^ 64) {building : Building}
    (hbuilding : building =
      w.addTxns F node vm (w.arrTxToProcess F conciliumId) ⟨[], 0, patchStart⟩) :
    execTxns F node false conciliumId vm' building.txns patchStart 0 =
      .ok (building.patchMerged, building.totalFee) := by
  have hlist : ∀ built ∈ w.arrTxToProcess F conciliumId, built.tx.conciliumId = conciliumId :=
    fun built hb => conciliumId_arrTxToProcess hb
  subst hbuilding
  -- the loop over decoded transactions, with or without a join that fits
  have hloop {list : List BuiltTx} (hsub : list ⊆ w.arrTxToProcess F conciliumId)
      (hcoins : ∀ built ∈ list, built.outCoins = built.tx.getOutCoins) :
      execTxns F node false conciliumId vm' (w.addTxns F node vm list ⟨[], 0, patchStart⟩).txns
          patchStart 0 =
        .ok ((w.addTxns F node vm list ⟨[], 0, patchStart⟩).patchMerged,
          (w.addTxns F node vm list ⟨[], 0, patchStart⟩).totalFee) := by
    have hpaysList : ∀ built ∈ list,
        Pays F node (⟨[], 0, patchStart⟩ : Building).patchMerged built.tx :=
      fun built hb => hpays built (hsub hb)
    obtain ⟨added, htxns, hexec⟩ := execTxns_addTxns hF list
      (fun built hb => ⟨hlist built (hsub hb), hcoins built hb⟩) hproper hpaysList
    rw [htxns]
    exact hexec
  have hdecoded : ∀ built ∈ (w.mempool.getFinalTxns conciliumId).map BuiltTx.decoded,
      built.outCoins = built.tx.getOutCoins := by
    intro built hb
    obtain ⟨tx, -, rfl⟩ := List.mem_map.mp hb
    rfl
  have hmempool := hloop (List.subset_append_right _ _) hdecoded
  unfold arrTxToProcess at hloop ⊢
  cases hjoin : w.joinTx F conciliumId with
  | none => exact hmempool
  | some join =>
      rw [hjoin] at hloop
      rw [Option.toList_some, List.singleton_append] at hloop ⊢
      by_cases hadded : join.tx.inputs.length ≤ w.constants.MAX_UTXO_PER_TX ∧
          ∃ r, processBuiltTx F node patchStart join (vm join.tx) = .ok r
      · obtain ⟨hlength, r, hprocess⟩ := hadded
        obtain ⟨hnonneg, hlt⟩ := hfits join r hjoin hlength hprocess
        refine hloop (List.Subset.refl _) (List.forall_mem_cons.mpr ⟨?_, hdecoded⟩)
        rw [eq_of_joinTx hjoin]
        exact outCoins_of_fits hnonneg hlt
      · rw [addTxns_of_not hadded]
        exact hmempool

end Witness

/-! ### Agreement -/

theorem maxHeight_congr {hashes : List Hash}
    (h : ∀ hash ∈ hashes, (s'.mainDag.getBlockInfo hash).map (·.header.height) =
      (s.mainDag.getBlockInfo hash).map (·.header.height)) (nMaxHeight : Nat) :
    s'.maxHeight hashes nMaxHeight = s.maxHeight hashes nMaxHeight := by
  induction hashes generalizing nMaxHeight with
  | nil => rfl
  | cons hash rest ih =>
      obtain ⟨hheight, hrest⟩ := List.forall_mem_cons.mp h
      rw [maxHeight, maxHeight]
      cases hmine : s.mainDag.getBlockInfo hash with
      | none =>
          rw [hmine, Option.map_none, Option.map_eq_none_iff] at hheight
          rw [hheight]
      | some info =>
          rw [hmine, Option.map_some, Option.map_eq_some_iff] at hheight
          obtain ⟨info', hinfo', hsame⟩ := hheight
          rw [hinfo']
          dsimp only
          rw [hsame, ih hrest]

theorem Validator.checkHeight {block : Block} (h : Validator F s block s')
    (hheight : s.calcHeight block.parentHashes = .ok block.getHeight) :
    s'.checkHeight block = .ok () := by
  unfold ChainState.checkHeight
  unfold calcHeight at hheight ⊢
  rw [maxHeight_congr h.heights, hheight]
  exact if_pos rfl

theorem execBlock_eq_ok {processedHeight : Option Nat} {block : Block}
    {patchMerged patchTxns patch : PatchDB} {blockFees : Amount}
    (hexecuted : s.isBlockExecuted (block.hash F) = false)
    (hgenesis : isGenesisBlock F block = false) (hheight : s.checkHeight block = .ok ())
    (hmerged : s.pendingBlocks.mergePatches F block.parentHashes = .ok patchMerged)
    (hstart : patchMerged.setConciliumId block.conciliumId = .ok patchStart)
    (htxns : execTxns F ⟨s.storage, processedHeight⟩ false block.conciliumId vm block.txns.tail
      patchStart 0 = .ok (patchTxns, blockFees))
    (hcoinbase : processBlockCoinbaseTX F block blockFees patchTxns = .ok patch) :
    s.execBlock F processedHeight vm block = .ok (some patch) := by
  unfold execBlock
  rw [hexecuted, hgenesis, if_neg Bool.false_ne_true, if_neg Bool.false_ne_true, hheight, hmerged]
  dsimp only
  rw [hstart]
  dsimp only
  rw [htxns]
  dsimp only
  rw [if_neg Bool.false_ne_true, hcoinbase]
  rfl

/-- The pending blocks have patches that were built by the operations of patches, and all
contracts in these have a concilium. -/
def Filed (F : Factory) (s : ChainState) : Prop :=
  ∀ v b, s.pendingBlocks.dag.readObj v = some b → PatchDB.Built F b.patch ∧ b.patch.Sound

theorem Filed.proper (h : Filed F s) :
    ∀ v b, s.pendingBlocks.dag.readObj v = some b → Proper b.patch :=
  fun v b hb => ⟨(h v b hb).1.recorded, (h v b hb).2⟩

theorem Witness.StartsFrom.proper (hfiled : Filed F s)
    (h : Witness.StartsFrom F J s conciliumId node patchStart) : Proper patchStart := by
  obtain ⟨hbest, hnone⟩ := proper_getBestParents (F := F) (J := J)
    (fun v b hb => (hfiled.proper v b hb).recorded) (some conciliumId)
  obtain ⟨patch, hpatch, hproper⟩ := hbest.setConciliumId hnone conciliumId
  have heq : patch = patchStart := Except.ok.inj (hpatch.symm.trans h.patch)
  exact heq ▸ hproper

section Agreement

variable {block : Block} {patch : PatchDB}

theorem agreed_of_joinFits (hF : F.HashesPayloads) (hfiled : Filed F s)
    (hpays : ∀ node patchStart, Witness.StartsFrom F J s conciliumId node patchStart →
      ∀ built ∈ w.arrTxToProcess F conciliumId, Pays F node patchStart built.tx)
    (hblock : w.createBlock F J s vm conciliumId = .ok (block, patch))
    (hgenesis : isGenesisBlock F block = false) (hfits : w.JoinFits F J s vm conciliumId) :
    Agreed F s block patch := by
  intro s' vm' hvalidator
  obtain ⟨patchStart, hstarts, hheight, hparents, hconcilium, building, hbuilding, htxns, hamount,
    hcoinbase⟩ := Witness.createBlock_ok hblock
  have hmerged : s'.pendingBlocks.mergePatches F block.parentHashes =
      .ok (s.pendingBlocks.getBestParents F J (some conciliumId)).2 := by
    rw [hparents, ← mergePatches_getBestParents hfiled.proper]
    unfold mergePatches
    rw [hvalidator.dag]
  have hstart : (s.pendingBlocks.getBestParents F J (some conciliumId)).2.setConciliumId
      block.conciliumId = .ok patchStart := by
    rw [hconcilium]
    exact hstarts.patch
  have hexec : execTxns F ⟨s'.storage, some block.getHeight⟩ false block.conciliumId vm'
      block.txns.tail patchStart 0 = .ok (building.patchMerged, building.totalFee) := by
    rw [hvalidator.storage, hconcilium, htxns]
    exact Witness.execTxns_arrTxToProcess hF (hstarts.proper hfiled)
      (hpays _ _ hstarts) (hfits _ _ hstarts) hbuilding
  exact ⟨_, patchStart, _, _, hmerged, hstart, hexec, hamount,
    execBlock_eq_ok hvalidator.notExecuted hgenesis (hvalidator.checkHeight hheight) hmerged hstart
      hexec hcoinbase⟩

/-! ### Joins that do not pay for themselves -/

/-- What was added to a block stays there. -/
theorem Witness.exists_txns_addTxns (list : List BuiltTx) (building : Building) :
    ∃ added, (w.addTxns F node vm list building).txns = building.txns ++ added := by
  induction list generalizing building with
  | nil => exact ⟨[], (List.append_nil _).symm⟩
  | cons built rest ih =>
      rw [addTxns]
      split
      next => exact ih building
      next =>
        split
        next => exact ih building
        next fee patchThisTx hprocess =>
          split
          next => exact ih _
          next patchMerged hmerge =>
            dsimp only
            split
            next => exact ⟨[built.tx], rfl⟩
            next =>
              obtain ⟨added, hadded⟩ := ih
                ⟨building.txns ++ [built.tx], building.totalFee + fee, patchMerged⟩
              exact ⟨built.tx :: added, by rw [hadded, List.append_assoc]; rfl⟩

theorem Witness.StartsFrom.unique {node' : NodeView} {patchStart' : PatchDB}
    (h : Witness.StartsFrom F J s conciliumId node patchStart)
    (h' : Witness.StartsFrom F J s conciliumId node' patchStart') :
    node' = node ∧ patchStart' = patchStart := by
  obtain ⟨⟨height, hheight, rfl⟩, hpatch⟩ := h
  obtain ⟨⟨height', hheight', rfl⟩, hpatch'⟩ := h'
  obtain rfl : height' = height := Except.ok.inj (hheight'.symm.trans hheight)
  exact ⟨rfl, Except.ok.inj (hpatch'.symm.trans hpatch)⟩

/-- A join that was processed is the first transaction of the block. -/
theorem Witness.exists_txns_join (hF : F.HashesPayloads) (hproper : Proper patchStart)
    {join : BuiltTx} {rest : List BuiltTx} {r : Amount × PatchDB}
    (hpays : Pays F node patchStart join.tx)
    (hlength : join.tx.inputs.length ≤ w.constants.MAX_UTXO_PER_TX)
    (hprocess : processBuiltTx F node patchStart join (vm join.tx) = .ok r) :
    ∃ added, (w.addTxns F node vm (join :: rest) ⟨[], 0, patchStart⟩).txns = join.tx :: added := by
  obtain ⟨fee, patchThisTx⟩ := r
  have hmerge := (processBuiltTx_ok hF hpays hprocess).1.merge hproper
  rw [addTxns, if_neg (not_lt.mpr hlength), hprocess]
  dsimp only
  rw [hmerge]
  dsimp only
  split
  next => exact ⟨[], rfl⟩
  next => exact exists_txns_addTxns rest _

theorem fixed64_of_neg {amount : ℤ} (hneg : amount < 0) (hle : -2 ^ 63 ≤ amount) :
    2 ^ 63 ≤ fixed64 amount := by
  unfold fixed64
  omega

/-- An amount that is negative is more than there is once it is encoded. -/
theorem processTx_of_negative (hF : F.HashesPayloads) {r : Amount × PatchDB}
    (hbounded : w.JoinBounded F J s conciliumId)
    (hstarts : Witness.StartsFrom F J s conciliumId node patchStart)
    (hjoin : w.joinTx F conciliumId = some (w.createJoinTx F conciliumId))
    (hpays : Pays F node patchStart (w.createJoinTx F conciliumId).tx)
    (hprocess : processBuiltTx F node patchStart (w.createJoinTx F conciliumId)
      (vm (w.createJoinTx F conciliumId).tx) = .ok r)
    (hfits : ¬ (0 ≤ w.joinAmount F ∧ w.joinAmount F < 2 ^ 64)) (behaviour : Behaviour) :
    ∃ error, processTx F node (some patchStart) false (w.createJoinTx F conciliumId).tx behaviour =
      .error error := by
  obtain ⟨fee, T⟩ := r
  obtain ⟨-, hnone, patchInputs, totalHas, totalSent, nFeeSize, hinputs, hpayments, rfl, hfee⟩ :=
    processBuiltTx_ok hF hpays hprocess
  have hhas : totalHas < 2 ^ 63 := hbounded.coins _ _ hstarts _ _ _ _ hjoin hinputs
  have hsent : totalSent = (w.joinAmount F : Amount) := by
    have hsum := totalSent_processPaymentsFrom hpayments
    rw [zero_add] at hsum
    exact hsum.trans (List.sum_singleton)
  have hsize : (0 : Amount) ≤ nFeeSize := Nat.cast_nonneg _
  -- the amount is less than the coins that are joined, so it can only be negative
  have hneg : w.joinAmount F < 0 := by
    by_contra hnonneg
    have hlarge : (2 ^ 64 : ℤ) ≤ w.joinAmount F :=
      not_lt.mp fun hlt => hfits ⟨not_lt.mp hnonneg, hlt⟩
    have hcast : (2 ^ 64 : Amount) ≤ w.joinAmount F := by exact_mod_cast hlarge
    rw [hsent] at hfee
    linarith
  have hfixed : (2 ^ 63 : Amount) ≤ (fixed64 (w.joinAmount F) : Nat) := by
    exact_mod_cast fixed64_of_neg hneg hbounded.fee
  rw [processTx_of_payment hnone hinputs, Witness.outputs_createJoinTx]
  cases hdecoded : App.processPaymentsFrom ((w.createJoinTx F conciliumId).tx.hash F) 0
      [⟨(fixed64 (w.joinAmount F) : Amount), w.address⟩] patchInputs 0 with
  | error error => exact ⟨error, rfl⟩
  | ok result =>
      obtain ⟨patch, totalSent'⟩ := result
      have hsum := totalSent_processPaymentsFrom hdecoded
      rw [zero_add, List.map_singleton, List.sum_singleton] at hsum
      refine ⟨_, if_neg ?_⟩
      rw [hsum]
      linarith

theorem joinFits_of_agreed (hF : F.HashesPayloads) (hfiled : Filed F s)
    (hpays : ∀ node patchStart, Witness.StartsFrom F J s conciliumId node patchStart →
      ∀ built ∈ w.arrTxToProcess F conciliumId, Pays F node patchStart built.tx)
    (hblock : w.createBlock F J s vm conciliumId = .ok (block, patch))
    (hnew : s.isBlockExecuted (block.hash F) = false)
    (hbounded : w.JoinBounded F J s conciliumId) (hagreed : Agreed F s block patch) :
    w.JoinFits F J s vm conciliumId := by
  intro node' patchStart' hstarts' join r hjoin hlength hprocess
  by_contra hfits
  obtain ⟨patchStart, hstarts, hheight, hparents, hconcilium, building, hbuilding, htxns, -⟩ :=
    Witness.createBlock_ok hblock
  obtain ⟨rfl, rfl⟩ := hstarts.unique hstarts'
  have hmem : join ∈ w.arrTxToProcess F conciliumId :=
    List.mem_append_left _ (Option.mem_toList.mpr hjoin)
  have hpay := hpays _ _ hstarts join hmem
  -- the proposer itself is a validator
  obtain ⟨patchMerged, patchStart, patchTxns, blockFees, hmerged, hstart, hexec, -⟩ :=
    hagreed s vm ⟨rfl, rfl, fun _ _ => rfl, hnew⟩
  rw [hparents, mergePatches_getBestParents hfiled.proper] at hmerged
  cases hmerged
  rw [hconcilium, hstarts.patch] at hstart
  cases hstart
  -- the join is the first transaction that the validator processes
  obtain ⟨added, hadded⟩ : ∃ added, building.txns = join.tx :: added := by
    rw [hbuilding]
    unfold Witness.arrTxToProcess
    rw [hjoin, Option.toList_some, List.singleton_append]
    exact Witness.exists_txns_join hF (hstarts.proper hfiled) hpay hlength hprocess
  obtain rfl := Witness.eq_of_joinTx hjoin
  obtain ⟨error, herror⟩ := processTx_of_negative hF hbounded hstarts hjoin hpay hprocess hfits
    (vm (w.createJoinTx F conciliumId).tx)
  rw [htxns, hadded, execTxns, hconcilium,
    if_neg (not_not.mpr (Witness.conciliumId_arrTxToProcess hmem)), herror] at hexec
  cases hexec

/-- **Proposer and validator agree.** If the join transaction of the witness fits, a block
of payments is executed by every validator to the same patch and the same fees; and only
then, as long as amounts are far from the bounds of their fields. -/
theorem createBlock_agrees_iff (F : Factory) (J : Dagjs) (hF : F.HashesPayloads) (s : ChainState)
    (hfiled : Filed F s) (w : Witness) (vm : Transaction → Behaviour) (conciliumId : Nat)
    (hpays : ∀ node patchStart, Witness.StartsFrom F J s conciliumId node patchStart →
      ∀ built ∈ w.arrTxToProcess F conciliumId, Pays F node patchStart built.tx)
    (block : Block) (patch : PatchDB)
    (hblock : w.createBlock F J s vm conciliumId = .ok (block, patch))
    (hgenesis : isGenesisBlock F block = false)
    (hnew : s.isBlockExecuted (block.hash F) = false) :
    (w.JoinFits F J s vm conciliumId → Agreed F s block patch) ∧
      (w.JoinBounded F J s conciliumId →
        Agreed F s block patch → w.JoinFits F J s vm conciliumId) :=
  ⟨agreed_of_joinFits hF hfiled hpays hblock hgenesis,
    joinFits_of_agreed hF hfiled hpays hblock hnew⟩

end Agreement

section Sample

/-- Outputs of a witness, and the constants of the chain. -/
def joiningWitness (amount : Nat) : Witness where
  constants := { WITNESS_UTXOS_JOIN := 2, DEV_FOUNDATION_ADDRESS := 9 }
  address := 3
  sign hash := hash * 1000 + 3
  bCreateJoinTx := true
  nLowestConciliumId := some 1
  arrUtxos := [⟨4, [(0, amount)]⟩, ⟨5, [(0, amount)]⟩, ⟨6, [(0, amount)]⟩]
  mempool := ⟨fun _ => [], [], fun _ _ h => (nomatch h)⟩
  timeIsOver _ := false
  timestamp := 0
  randomAddress := 8

/-- A node without pending blocks that stores these outputs. -/
def joiningState (amount : Nat) : ChainState where
  storage := {
    utxos := [4, 5, 6].foldl (fun utxos hash => utxos.insert hash ((∅ : UTXO).insert 0 ⟨amount, 3⟩))
      (∅ : FinMap Hash UTXO)
    contracts := ∅ }
  pendingBlocks := ⟨Dag.empty, [1]⟩
  mainDag := {
    infos := (∅ : FinMap Hash BlockInfo).insert 1 ⟨⟨[], 0, 0, 0, 1, 0⟩, .FINAL_BLOCK⟩
    edges := [] }

theorem collectPatchesFrom_of_notMem {dag : PendingDag} {arrHashes arrMerged : List Hash}
    (h : ∀ hash ∈ arrHashes, hash ∉ dag) (patchMerged : PatchDB) :
    collectPatchesFrom F dag arrHashes arrMerged patchMerged = (arrMerged, patchMerged) := by
  induction arrHashes with
  | nil => rfl
  | cons hash rest ih =>
      rw [collectPatchesFrom, Dag.readObj_eq_none.mpr (h hash List.mem_cons_self)]
      exact ih fun v hv => h v (List.mem_cons_of_mem _ hv)

theorem getBestParents_empty (topStable : List Hash) (nConciliumId : Option Nat) :
    getBestParents F J ⟨Dag.empty, topStable⟩ nConciliumId =
      (lastResort F ⟨Dag.empty, topStable⟩, PatchDB.empty) := by
  unfold getBestParents
  dsimp only
  rw [collectPatchesFrom_of_notMem fun hash _ => Dag.notMem_empty hash]
  rfl

/-- A virtual machine that is not used. -/
def idle : Transaction → Behaviour := fun _ => ⟨.error "", .throws ""⟩

/-- The block on top of the stable one is new, and is executed if the outputs are worth
more than the fee of joining them. -/
theorem createBlock_joining (J : Dagjs) {amount : Nat} (h : amount = 1 ∨ amount = 10000) :
    ((joiningWitness amount).createBlock Factory.sample J (joiningState amount) idle
      1).toOption.any (fun r =>
        !(joiningState amount).isBlockExecuted (r.1.hash Factory.sample) &&
          !isGenesisBlock Factory.sample r.1 &&
          (((joiningState amount).execBlock Factory.sample (some r.1.getHeight) idle
            r.1).toOption.isSome == decide (amount = 10000))) = true := by
  have hpending : (joiningState amount).pendingBlocks = ⟨Dag.empty, [1]⟩ := rfl
  unfold Witness.createBlock
  rw [hpending, getBestParents_empty]
  rcases h with rfl | rfl
  · decide +kernel
  · decide +kernel

theorem lt_payloadHash_sample {payload : TransactionPayload} {input : Input}
    (hinput : input ∈ payload.ins) :
    input.txHash < (Factory.sample.payloadHash payload : Nat) := by
  have hmem : input.txHash ∈ ([payload.version, payload.conciliumId] : List Nat) ++
      payload.ins.flatMap fun input => [input.txHash, input.nTxOutput] :=
    List.mem_append_right _ (List.mem_flatMap.mpr ⟨input, hinput, List.mem_cons_self⟩)
  exact Factory.lt_code (List.mem_append_left _ hmem)

theorem hashesPayloads_sample : Factory.sample.HashesPayloads :=
  fun _ _ hinput heq => (lt_payloadHash_sample hinput).ne heq

/-- Without pending blocks the first transaction is processed in an empty patch. -/
theorem pays_joining (J : Dagjs) {amount : Nat} (h : amount = 1 ∨ amount = 10000) :
    ∀ node patchStart, Witness.StartsFrom Factory.sample J (joiningState amount) 1 node patchStart →
      ∀ built ∈ (joiningWitness amount).arrTxToProcess Factory.sample 1,
        Pays Factory.sample node patchStart built.tx := by
  rintro node patchStart ⟨⟨height, hheight, rfl⟩, hpatch⟩ built hbuilt contract hcontract
  have hpending : (joiningState amount).pendingBlocks = ⟨Dag.empty, [1]⟩ := rfl
  rw [hpending, getBestParents_empty] at hheight hpatch
  obtain rfl : { PatchDB.empty with
      conciliumId := some 1
      mapConciliumLevel := (∅ : FinMap Nat Nat).insert 1 1 } = patchStart := Except.ok.inj hpatch
  obtain rfl : height = 1 := by
    rcases h with rfl | rfl
    · exact (Except.ok.inj hheight).symm
    · exact (Except.ok.inj hheight).symm
  have hnone : ((joiningWitness amount).arrTxToProcess Factory.sample 1).all (fun built =>
      (findContract Factory.sample ⟨(joiningState amount).storage, some 1⟩
        (some { PatchDB.empty with
          conciliumId := some 1
          mapConciliumLevel := (∅ : FinMap Nat Nat).insert 1 1 }) built.tx).toOption.any
            Option.isNone) = true := by
    rcases h with rfl | rfl
    · decide +kernel
    · decide +kernel
  have hfound := List.all_eq_true.mp hnone built hbuilt
  rw [hcontract] at hfound
  simp [Except.toOption] at hfound

/-- A join of outputs of 10000 coins each. -/
theorem createBlock_agrees_iff_joining : ∃ block patch,
    (joiningWitness 10000).createBlock Factory.sample Dagjs.sample (joiningState 10000) idle 1 =
        .ok (block, patch) ∧
      (((joiningWitness 10000).JoinFits Factory.sample Dagjs.sample (joiningState 10000) idle 1 →
          Agreed Factory.sample (joiningState 10000) block patch) ∧
        ((joiningWitness 10000).JoinBounded Factory.sample Dagjs.sample (joiningState 10000) 1 →
          Agreed Factory.sample (joiningState 10000) block patch →
          (joiningWitness 10000).JoinFits Factory.sample Dagjs.sample (joiningState 10000)
            idle 1)) := by
  obtain ⟨⟨block, patch⟩, hblock, hchecked⟩ :=
    exists_ok_of_any (createBlock_joining Dagjs.sample (.inr rfl))
  simp only [Bool.and_eq_true, Bool.not_eq_true'] at hchecked
  exact ⟨block, patch, hblock, createBlock_agrees_iff Factory.sample Dagjs.sample
    hashesPayloads_sample (joiningState 10000) (fun _ _ h => (nomatch h)) (joiningWitness 10000)
    idle 1 (pays_joining Dagjs.sample (.inr rfl)) block patch hblock hchecked.1.2 hchecked.1.1⟩

/-- A join of outputs of one coin each: what the witness pays to itself is negative, so
nobody executes its block, not even itself. -/
theorem createBlock_not_agreed : ∃ block patch,
    (joiningWitness 1).createBlock Factory.sample Dagjs.sample (joiningState 1) idle 1 =
        .ok (block, patch) ∧
      isGenesisBlock Factory.sample block = false ∧
      Validator Factory.sample (joiningState 1) block (joiningState 1) ∧
      ¬ Agreed Factory.sample (joiningState 1) block patch := by
  obtain ⟨⟨block, patch⟩, hblock, hchecked⟩ :=
    exists_ok_of_any (createBlock_joining Dagjs.sample (.inl rfl))
  simp only [Bool.and_eq_true, Bool.not_eq_true', beq_iff_eq] at hchecked
  have hvalidator : Validator Factory.sample (joiningState 1) block (joiningState 1) :=
    ⟨rfl, rfl, fun _ _ => rfl, hchecked.1.1⟩
  refine ⟨block, patch, hblock, hchecked.1.2, hvalidator, fun hagreed => ?_⟩
  obtain ⟨-, -, -, -, -, -, -, -, hexec⟩ := hagreed (joiningState 1) idle hvalidator
  have hfails := hchecked.2
  rw [hexec] at hfails
  simp [Except.toOption] at hfails

end Sample

end CilCore
