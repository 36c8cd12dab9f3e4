import CilCore.Node.ConciliumForks
import CilCore.Node.CreateBlock
import CilCore.Node.TxCoins
import CilCore.Storage.Clash

/-!
# Proposer and validator agree

A witness skips the payments that fail while it creates a block; a validator replays
those that are left. A payment whose inputs were found unspent never conflicts with the
patch so far, so both come to the same patch and to the same fees.
-/

namespace CilCore

open PatchDB PendingBlocksManager

variable {F : Factory} {J : Dagjs} {node : NodeView} {tx : Transaction} {A B T P P' : PatchDB}

/-- A payload does not contain its own hash. -/
def Factory.HashesPayloads (F : Factory) : Prop :=
  ∀ payload : TransactionPayload, ∀ input ∈ payload.ins, input.txHash ≠ F.payloadHash payload

/-! ### Patches of payments -/

/-- A patch of the spends of unspent outputs of a view. -/
structure SpendsFrom (view : PatchDB) (hashes : List Hash) (patch : PatchDB) : Prop where
  recorded : patch.Recorded
  only : patch.OnlyCoins hashes
  unspent : ∀ hash idx, idx ∈ (patch.getSpentOutputs hash).keys →
    hash ∈ hashes ∧ ∃ utxo, view.getUtxo hash = some utxo ∧ idx ∈ utxo.getIndexes

theorem spendsFrom_empty (view : PatchDB) (hashes : List Hash) :
    SpendsFrom view hashes PatchDB.empty where
  recorded := .new rfl rfl
  only := ⟨fun _ _ => rfl, rfl, rfl, rfl⟩
  unspent hash idx hidx := by
    rw [FinMap.mem_keys_iff] at hidx
    obtain ⟨txHash, htx⟩ := hidx
    cases htx

theorem SpendsFrom.processTxInput {view : PatchDB} {hashes : List Hash} {patch patch' : PatchDB}
    {i : Nat} {input : Input} {totalHas totalHas' : Amount} (h : SpendsFrom view hashes patch)
    (hmem : input.txHash ∈ hashes)
    (hinput : App.processTxInput F tx view i input patch totalHas = .ok (patch', totalHas')) :
    SpendsFrom view hashes patch' := by
  have hcoins := (processTxInput_coins hmem h.only hinput).1
  obtain ⟨utxo, coins, hutxo, hlookup, -, hkey, rfl, -⟩ := App.processTxInput_ok hinput
  have hspend : patch.spendCoins input.txHash utxo input.nTxOutput (tx.hash F) =
      .ok ((patch.setUtxo input.txHash (((patch.getUtxo input.txHash).getD utxo).erase
        input.nTxOutput)).setSpentOutput input.txHash input.nTxOutput (tx.hash F)) := by
    rw [PatchDB.spendCoins, UTXO.spendCoins, if_pos hkey]
  refine ⟨h.recorded.spendCoins hspend, hcoins, fun hash idx hidx => ?_⟩
  rw [getSpentOutputs_setSpentOutput] at hidx
  split at hidx
  next heq =>
    rw [FinMap.keys_insert, Finset.mem_insert] at hidx
    rcases hidx with rfl | hidx
    · exact heq ▸ ⟨hmem, utxo, hutxo, FinMap.mem_keys_of_lookup hlookup⟩
    · exact heq ▸ h.unspent input.txHash idx hidx
  next => exact h.unspent hash idx hidx

theorem SpendsFrom.processTxInputsFrom {view : PatchDB} {hashes : List Hash} {inputs : List Input}
    {i : Nat} {patch patch' : PatchDB} {totalHas totalHas' : Amount}
    (h : SpendsFrom view hashes patch) (hmem : inputs.map (·.txHash) ⊆ hashes)
    (hinputs : App.processTxInputsFrom F tx view i inputs patch totalHas =
      .ok (patch', totalHas')) : SpendsFrom view hashes patch' := by
  induction inputs generalizing i patch totalHas with
  | nil =>
      cases hinputs
      exact h
  | cons input rest ih =>
      rw [List.map_cons, List.cons_subset] at hmem
      unfold App.processTxInputsFrom at hinputs
      split at hinputs
      next => cases hinputs
      next patchNext totalNext hinput => exact ih (h.processTxInput hmem.1 hinput) hmem.2 hinputs

/-- Payments are created under a hash of which nothing was spent. -/
theorem recorded_processPaymentsFrom {txHash : Hash} {outs : List Coins} {i : Nat}
    {patch patch' : PatchDB} {totalSent totalSent' : Amount} (h : patch.Recorded)
    (hnone : (patch.getSpentOutputs txHash).keys = ∅)
    (hpayments : App.processPaymentsFrom txHash i outs patch totalSent = .ok (patch', totalSent')) :
    patch'.Recorded := by
  induction outs generalizing i patch totalSent with
  | nil =>
      cases hpayments
      exact h
  | cons coins rest ih =>
      unfold App.processPaymentsFrom at hpayments
      split at hpayments
      next => exact ih h hnone hpayments
      next =>
        split at hpayments
        next => cases hpayments
        next patchNext hcreate =>
          refine ih (h.createCoins (by rw [hnone]; simp) hcreate) ?_ hpayments
          unfold PatchDB.createCoins at hcreate
          split at hcreate
          next => cases hcreate
          next =>
            cases hcreate
            exact hnone

/-- What the patch of a payment is like: it spends what the view has unspent, and has no
contracts or receipts. -/
structure PaymentPatch (F : Factory) (node : NodeView) (P : PatchDB) (tx : Transaction)
    (patch : PatchDB) : Prop where
  recorded : patch.Recorded
  contracts : patch.mapContractStates = ∅
  receipts : patch.mapTxReceipts = ∅
  unspent : ∃ view, inputsView F node (some P) tx = .ok view ∧ ∀ hash idx,
    idx ∈ (patch.getSpentOutputs hash).keys →
      hash ∈ tx.utxos ∧ ∃ utxo, view.getUtxo hash = some utxo ∧ idx ∈ utxo.getIndexes

theorem paymentPatch (hF : F.HashesPayloads) {totalHas totalSent : Amount} {nFeeSize : Nat}
    {outs : List Coins}
    (hinputs : processInputs F node (some P) false tx = .ok (B, totalHas, nFeeSize))
    (hpayments : App.processPaymentsFrom (tx.hash F) 0 outs B 0 = .ok (T, totalSent)) :
    PaymentPatch F node P tx T := by
  unfold processInputs at hinputs
  rw [if_neg Bool.false_ne_true] at hinputs
  split at hinputs
  next => cases hinputs
  next view hview =>
    split at hinputs
    next => cases hinputs
    next patch total hspend =>
      split at hinputs
      next => cases hinputs
      next =>
        cases hinputs
        have hspends : SpendsFrom view tx.utxos B :=
          (spendsFrom_empty view tx.utxos).processTxInputsFrom (List.Subset.refl _) hspend
        have hnone : (B.getSpentOutputs (tx.hash F)).keys = ∅ := by
          rw [Finset.eq_empty_iff_forall_notMem]
          intro idx hidx
          obtain ⟨hmem, -⟩ := hspends.unspent _ idx hidx
          obtain ⟨input, hinput, heq⟩ := List.mem_map.mp hmem
          exact hF tx.payload input hinput heq
        have hframe := App.processPaymentsFrom_frame hpayments
        have hrecorded := recorded_processPaymentsFrom hspends.recorded hnone hpayments
        rw [hframe] at hrecorded ⊢
        exact ⟨hrecorded, hspends.only.contracts, hspends.only.receipts, view, hview,
          hspends.unspent⟩

/-! ### Merging the patch of a payment -/

/-- The patches that a block is executed in: records are in order, and every contract has
a concilium. -/
structure Proper (patch : PatchDB) : Prop where
  recorded : patch.Recorded
  sound : patch.Sound

/-- What a payment spends is not recorded as spent. -/
theorem PaymentPatch.not_doubleSpend (h : PaymentPatch F node P tx T) (hP : P.Recorded) :
    ¬ DoubleSpend P T := by
  rintro ⟨hash, idx, txHash, txHash', hmine, hhis, -⟩
  obtain ⟨view, hview, hunspent⟩ := h.unspent
  obtain ⟨hmem, utxo, hutxo, hidx⟩ := hunspent hash idx (FinMap.mem_keys_of_lookup hhis)
  obtain ⟨own, hown⟩ := FinMap.mem_keys_iff.mp (mem_coins_of_spent hP hmine)
  unfold inputsView at hview
  dsimp only at hview
  split at hview
  next =>
    obtain ⟨-, -, -, -, -, rfl⟩ := PatchDB.merge_eq_ok.mp hview
    rw [getUtxo_merged] at hutxo
    have hunspentOwn := (mem_getIndexes_mergeUtxo hutxo hidx).1 own hown
    exact hP.disjoint hash own hown idx hunspentOwn (FinMap.mem_keys_of_lookup hmine)
  next hnone =>
    refine hnone ?_
    rw [hasUtxos, List.any_eq_true]
    exact ⟨hash, hmem, by rw [getUtxo, hown]; rfl⟩

theorem PaymentPatch.merge (h : PaymentPatch F node P tx T) (hP : Proper P) :
    P.merge F T true = .ok (merged F true P T) := by
  have hsound : T.Sound := fun addr contract hcontract => by
    rw [getContract, h.contracts] at hcontract
    cases hcontract
  refine PatchDB.merge_eq_ok.mpr ⟨by simp, ?_, ?_, not_contractWithoutConcilium hP.sound hsound,
    ?_, rfl⟩
  · rw [conflict_iff_doubleSpend hP.recorded h.recorded]
    exact h.not_doubleSpend hP.recorded
  · rintro ⟨addr, hmem, -⟩
    rw [h.contracts] at hmem
    simp at hmem
  · rintro ⟨strHash, hmem, -⟩
    rw [h.receipts] at hmem
    simp at hmem

/-- A payment keeps the contracts, as copies. -/
theorem PaymentPatch.getContract_merged (h : PaymentPatch F node P tx T) (addr : Address) :
    (merged F true P T).getContract addr =
      (P.getContract addr).bind fun contract => (contract.clone F).toOption := by
  have hnone : T.getContract addr = none := by
    rw [getContract, h.contracts]
    rfl
  rw [lookup_getContract_merged, hnone]
  cases P.getContract addr <;> rfl

theorem PaymentPatch.proper (h : PaymentPatch F node P tx T) (hP : Proper P) :
    Proper (merged F true P T) where
  recorded := hP.recorded.merged h.recorded true
  sound addr contract hcontract := by
    rw [h.getContract_merged, Option.bind_eq_some_iff] at hcontract
    obtain ⟨own, hown, hclone⟩ := hcontract
    obtain ⟨copy, hcopy, hsame⟩ := exists_clone (F := F) (hP.sound addr own hown)
    rw [hcopy] at hclone
    cases hclone
    rw [hsame]
    exact hP.sound addr own hown

/-! ### Payments in a block -/

/-- The transaction neither creates a contract nor pays to one. -/
def Pays (F : Factory) (node : NodeView) (P : PatchDB) (tx : Transaction) : Prop :=
  ∀ contract, findContract F node (some P) tx ≠ .ok (some contract)

theorem PaymentPatch.pays (h : PaymentPatch F node P tx T) (hP : Proper P) {tx' : Transaction}
    (hpays : Pays F node P tx') : Pays F node (merged F true P T) tx' := by
  intro contract hfound
  unfold findContract at hfound
  split at hfound
  next => cases hfound
  next hcreation =>
    refine hpays none ?_
    unfold findContract
    rw [hcreation]
  next hcreation =>
    split at hfound
    next => cases hfound
    next addr haddr =>
      have hfind : findContract F node (some P) tx' =
          (getContractByAddr F node.storage (some P) addr).map (·.map some) := by
        unfold findContract
        rw [hcreation, haddr]
      unfold getContractByAddr at hfound hfind
      rw [Option.bind_some] at hfound hfind
      rw [h.getContract_merged] at hfound
      cases hown : P.getContract addr with
      | none =>
          rw [hown] at hfound hfind
          exact hpays contract (hfind.trans hfound)
      | some own =>
          obtain ⟨copy, hcopy, -⟩ := exists_clone (F := F) (hP.sound addr own hown)
          rw [hown] at hfind
          dsimp only at hfind
          rw [hcopy] at hfind
          exact hpays (some copy) hfind

/-- A payment in memory that was processed: its patch, and what is left for the fee. -/
theorem processBuiltTx_ok (hF : F.HashesPayloads) {built : BuiltTx} {behaviour : Behaviour}
    {fee : Amount} (hpays : Pays F node P built.tx)
    (h : processBuiltTx F node P built behaviour = .ok (fee, T)) :
    PaymentPatch F node P built.tx T ∧
      findContract F node (some P) built.tx = .ok none ∧
      ∃ patchInputs totalHas totalSent nFeeSize,
        processInputs F node (some P) false built.tx = .ok (patchInputs, totalHas, nFeeSize) ∧
        App.processPaymentsFrom (built.tx.hash F) 0 built.outCoins patchInputs 0 =
          .ok (T, totalSent) ∧ fee = totalHas - totalSent ∧ fee > nFeeSize := by
  unfold processBuiltTx at h
  split at h
  next => cases h
  next contract hcontract => exact absurd hcontract (hpays contract)
  next hnone =>
    split at h
    next => cases h
    next patchInputs totalHas nFeeSize hinputs =>
      split at h
      next => cases h
      next patch totalSent hpayments =>
        dsimp only at h
        split at h
        next hfee =>
          cases h
          exact ⟨paymentPatch hF hinputs hpayments, hnone, patchInputs, totalHas, totalSent,
            nFeeSize, hinputs, hpayments, rfl, hfee⟩
        next => cases h

/-- What a node that decoded the payment makes of it. -/
theorem processTx_of_payment (hnone : findContract F node (some P) tx = .ok none)
    {patchInputs : PatchDB} {totalHas : Amount} {nFeeSize : Nat}
    (hinputs : processInputs F node (some P) false tx = .ok (patchInputs, totalHas, nFeeSize))
    (behaviour : Behaviour) :
    processTx F node (some P) false tx behaviour =
      match App.processPaymentsFrom (tx.hash F) 0 tx.getOutCoins patchInputs 0 with
      | .error error => .error error
      | .ok (patchThisTx, totalSent) =>
          if totalHas - totalSent > nFeeSize then .ok (totalHas - totalSent, patchThisTx)
          else .error "Require fee at least but you sent less than fee!" := by
  unfold processTx prepareTx App.processPayments
  rw [hnone]
  dsimp only
  rw [hinputs]
  simp only [Option.isSome_none, Bool.false_eq_true, if_false, List.drop_zero, sub_zero]
  cases hpayments : App.processPaymentsFrom (tx.hash F) 0 tx.getOutCoins patchInputs 0 with
  | error error => rfl
  | ok r =>
      obtain ⟨patch, totalSent⟩ := r
      by_cases hfee : totalHas - totalSent > nFeeSize
      · simp [hfee]
      · simp [hfee]

/-- A payment whose amounts are those of its encoding is processed alike by the witness
that built it and by a node that decoded it. -/
theorem processTx_of_processBuiltTx (hF : F.HashesPayloads) {built : BuiltTx}
    {behaviour : Behaviour} {fee : Amount} (hpays : Pays F node P built.tx)
    (hcoins : built.outCoins = built.tx.getOutCoins)
    (h : processBuiltTx F node P built behaviour = .ok (fee, T)) (behaviour' : Behaviour) :
    processTx F node (some P) false built.tx behaviour' = .ok (fee, T) := by
  obtain ⟨-, hnone, patchInputs, totalHas, totalSent, nFeeSize, hinputs, hpayments, rfl, hfee⟩ :=
    processBuiltTx_ok hF hpays h
  rw [hcoins] at hpayments
  rw [processTx_of_payment hnone hinputs, hpayments]
  dsimp only
  rw [if_pos hfee]

section Loop

variable {w : Witness} {vm vm' : Transaction → Behaviour} {conciliumId : Nat}

open Witness ChainState

/-- **The loop of the witness and that of the validator.** What the first adds the second
replays, with the same patch and the same fees. -/
theorem execTxns_addTxns (hF : F.HashesPayloads) (list : List BuiltTx)
    (hlist : ∀ built ∈ list, built.tx.conciliumId = conciliumId ∧
      built.outCoins = built.tx.getOutCoins) {building : Building}
    (hproper : Proper building.patchMerged)
    (hpays : ∀ built ∈ list, Pays F node building.patchMerged built.tx) :
    ∃ added, (w.addTxns F node vm list building).txns = building.txns ++ added ∧
      execTxns F node false conciliumId vm' added building.patchMerged building.totalFee =
        .ok ((w.addTxns F node vm list building).patchMerged,
          (w.addTxns F node vm list building).totalFee) := by
  induction list generalizing building with
  | nil => exact ⟨[], by rw [List.append_nil]; rfl, rfl⟩
  | cons built rest ih =>
      have hrest := fun b hb => hlist b (List.mem_cons_of_mem _ hb)
      have hskip := ih hrest hproper fun b hb => hpays b (List.mem_cons_of_mem _ hb)
      obtain ⟨hconcilium, hcoins⟩ := hlist built List.mem_cons_self
      have hpay := hpays built List.mem_cons_self
      unfold addTxns
      split
      next => exact hskip
      next =>
        split
        next => exact hskip
        next fee patchThisTx hprocess =>
          obtain ⟨hpatch, -⟩ := processBuiltTx_ok hF hpay hprocess
          have htx := processTx_of_processBuiltTx hF hpay hcoins hprocess (vm' built.tx)
          have hmerge := hpatch.merge hproper
          -- the validator takes the same step
          have hstep (added : List Transaction) :
              execTxns F node false conciliumId vm' (built.tx :: added) building.patchMerged
                  building.totalFee =
                execTxns F node false conciliumId vm' added
                  (merged F true building.patchMerged patchThisTx) (building.totalFee + fee) := by
            rw [execTxns, if_neg (not_not.mpr hconcilium), htx]
            dsimp only
            rw [hmerge]
          rw [hmerge]
          dsimp only
          split
          next => exact ⟨[built.tx], rfl, by rw [hstep]; rfl⟩
          next =>
            have hnext : ∀ b ∈ rest, Pays F node
                (⟨building.txns ++ [built.tx], building.totalFee + fee,
                  merged F true building.patchMerged patchThisTx⟩ : Building).patchMerged b.tx :=
              fun b hb => hpatch.pays hproper (hpays b (List.mem_cons_of_mem _ hb))
            obtain ⟨added, htxns, hexec⟩ := ih hrest (hpatch.proper hproper) hnext
            refine ⟨built.tx :: added, ?_, ?_⟩
            · rw [htxns, List.append_assoc]
              rfl
            · rw [hstep]
              exact hexec

end Loop

/-! ### Merged parents -/

theorem mergePatchesFrom_of_notMem {dag : PendingDag} {arrHashes : List Hash}
    (h : ∀ hash ∈ arrHashes, hash ∉ dag) (patchMerged : PatchDB) :
    mergePatchesFrom F dag arrHashes patchMerged = .ok patchMerged := by
  induction arrHashes with
  | nil => rfl
  | cons hash rest ih =>
      rw [mergePatchesFrom, Dag.readObj_eq_none.mpr (h hash List.mem_cons_self)]
      exact ih fun v hv => h v (List.mem_cons_of_mem _ hv)

/-- The first pending block is always merged. -/
theorem notMem_of_collectPatchesFrom_nil {dag : PendingDag}
    (hdag : ∀ v b, dag.readObj v = some b → Proper b.patch) {arrHashes : List Hash}
    (h : (collectPatchesFrom F dag arrHashes [] PatchDB.empty).1 = []) :
    ∀ hash ∈ arrHashes, hash ∉ dag := by
  induction arrHashes with
  | nil => exact fun hash hmem => absurd hmem List.not_mem_nil
  | cons vertex rest ih =>
      rw [collectPatchesFrom] at h
      split at h
      next hnone => exact List.forall_mem_cons.mpr ⟨Dag.readObj_eq_none.mp hnone, ih h⟩
      next block hblock =>
        obtain ⟨hrecorded, hsound⟩ := hdag vertex block hblock
        have hmerge := (gathered_empty.merge_eq_ok (F := F) hrecorded).mpr
          ⟨⟨hsound, fun p hp => absurd hp List.not_mem_nil⟩, rfl⟩
        rw [hmerge] at h
        exact absurd h (collectPatchesFrom_ne_nil (by simp))

/-- The best parents merge again to the patch that they were chosen with. -/
theorem mergePatches_getBestParents {pbm : PendingBlocksManager}
    (hdag : ∀ v b, pbm.dag.readObj v = some b → Proper b.patch) (nConciliumId : Option Nat) :
    pbm.mergePatches F (pbm.getBestParents F J nConciliumId).1 =
      .ok (pbm.getBestParents F J nConciliumId).2 := by
  have hcollected (arrHashes : List Hash) :
      mergePatchesFrom F pbm.dag (collectPatchesFrom F pbm.dag arrHashes [] PatchDB.empty).1
        PatchDB.empty = .ok (collectPatchesFrom F pbm.dag arrHashes [] PatchDB.empty).2 :=
    collectPatchesFrom_merges rfl
  unfold getBestParents mergePatches
  dsimp only
  generalize hsorted : pbm.sortTips J
    (if J.tips pbm.dag = [] then pbm.lastResort F else J.tips pbm.dag) nConciliumId = sorted
  have h := hcollected sorted
  split
  next hnil =>
    have hnone := notMem_of_collectPatchesFrom_nil hdag hnil
    -- no tip is pending, so there is none
    have htips : J.tips pbm.dag = [] := by
      rw [List.eq_nil_iff_forall_not_mem]
      intro tip htip
      refine hnone tip ?_ ((J.mem_tips _ tip).mp htip).1
      rw [← hsorted, mem_sortTips, if_neg (List.ne_nil_of_mem htip)]
      exact htip
    rw [if_pos htips] at hsorted
    have hstable : ∀ hash ∈ pbm.lastResort F, hash ∉ pbm.dag := fun hash hmem =>
      hnone hash (hsorted ▸ (mem_sortTips J).mpr hmem)
    rw [hnil] at h
    rw [mergePatchesFrom_of_notMem hstable, ← Except.ok.inj h]
  next => exact h

theorem Proper.merge {patch acc R : PatchDB} (hpatch : patch.Recorded) (hacc : Proper acc)
    (h : patch.merge F acc = .ok R) : Proper R ∧ R.conciliumId = none := by
  obtain ⟨-, -, hcontracts, hwithout, -, rfl⟩ := PatchDB.merge_eq_ok.mp h
  have hsound := sound_of_merge hacc.sound hcontracts hwithout
  refine ⟨⟨hpatch.merged hacc.recorded false, fun addr contract hcontract => ?_⟩, rfl⟩
  obtain ⟨winner, hwinner, heq⟩ := PatchDB.getContract_merged hcontract
  rw [← heq]
  rcases hwinner with hmine | hhis
  · exact hsound addr winner hmine
  · exact hacc.sound addr winner hhis

theorem proper_collectPatchesFrom {dag : PendingDag}
    (hdag : ∀ v b, dag.readObj v = some b → b.patch.Recorded) (arrHashes : List Hash)
    {arrMerged : List Hash} {acc : PatchDB} (hacc : Proper acc ∧ acc.conciliumId = none) :
    Proper (collectPatchesFrom F dag arrHashes arrMerged acc).2 ∧
      (collectPatchesFrom F dag arrHashes arrMerged acc).2.conciliumId = none := by
  induction arrHashes generalizing arrMerged acc with
  | nil => exact hacc
  | cons vertex rest ih =>
      rw [collectPatchesFrom]
      split
      next => exact ih hacc
      next block hblock =>
        split
        next => exact ih hacc
        next merged hmerge => exact ih (hacc.1.merge (hdag vertex block hblock) hmerge)

theorem proper_getBestParents {pbm : PendingBlocksManager}
    (hdag : ∀ v b, pbm.dag.readObj v = some b → b.patch.Recorded) (nConciliumId : Option Nat) :
    Proper (pbm.getBestParents F J nConciliumId).2 ∧
      (pbm.getBestParents F J nConciliumId).2.conciliumId = none := by
  refine proper_collectPatchesFrom hdag _ ⟨⟨.new rfl rfl, fun addr contract hcontract => ?_⟩, rfl⟩
  cases hcontract

theorem Proper.setConciliumId {patch : PatchDB} (h : Proper patch)
    (hnone : patch.conciliumId = none) (nId : Nat) :
    ∃ patchStart, patch.setConciliumId nId = .ok patchStart ∧ Proper patchStart := by
  refine ⟨_, if_neg (not_not.mpr hnone), h.recorded.other rfl rfl, h.sound⟩

/-! ### The coinbase -/

theorem amountOut_coinbaseOutputs (w : Witness) (total minUsefulAmount : Nat) :
    ((w.coinbaseOutputs total minUsefulAmount).map (·.amount)).sum = total := by
  unfold Witness.coinbaseOutputs
  split
  next hzero => exact hzero.symm
  next =>
    -- the foundation gets no more than there is
    have hle : ⌊w.constants.DEV_FOUNDATION_SHARE * total⌋₊ ≤ total := by
      refine Nat.floor_le_of_le ?_
      exact (mul_le_mul_of_nonneg_right w.constants.share_le (Nat.cast_nonneg total)).trans_eq
        (one_mul _)
    dsimp only
    split
    · simp only [List.cons_append, List.nil_append, List.map_cons, List.map_nil, List.sum_cons,
        List.sum_nil]
      omega
    · simp

/-- What is finished: the coinbase has all the fees, and comes first. -/
theorem finish_ok {w : Witness} {header : BlockHeader} {txns : List Transaction}
    {totalTxnsFees : Amount} {minUsefulAmount : Nat} {block : Block}
    (h : w.finish F header txns totalTxnsFees minUsefulAmount = .ok block) :
    block.txns.tail = txns ∧ (block.coinbase.amountOut : Amount) = totalTxnsFees ∧
      block.parentHashes = header.parentHashes ∧ block.conciliumId = header.conciliumId ∧
      block.getHeight = header.height := by
  unfold Witness.finish at h
  obtain ⟨hnonneg, h⟩ := check_eq_ok.mp h
  obtain ⟨hint, h⟩ := check_eq_ok.mp h
  cases h
  refine ⟨rfl, ?_, rfl, rfl, rfl⟩
  have hnum : 0 ≤ totalTxnsFees.num := Rat.num_nonneg.mpr (not_lt.mp hnonneg)
  have hsum := amountOut_coinbaseOutputs w totalTxnsFees.num.toNat minUsefulAmount
  calc ((((w.coinbaseOutputs totalTxnsFees.num.toNat minUsefulAmount).map (·.amount)).sum : Nat) :
        Amount)
      = (totalTxnsFees.num.toNat : Amount) := by rw [hsum]
    _ = ((totalTxnsFees.num.toNat : ℤ) : Amount) := (Int.cast_natCast _).symm
    _ = (totalTxnsFees.num : Amount) := by rw [Int.toNat_of_nonneg hnum]
    _ = totalTxnsFees := Rat.coe_int_num_of_den_eq_one (not_not.mp hint)

end CilCore
