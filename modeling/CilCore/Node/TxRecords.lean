import CilCore.Node.ProposerAgrees
import CilCore.Node.TxReads

/-!
# The records in the patch of a transaction

The patch of a transaction records the outputs that its inputs spend. What its contract sends
goes to new hashes, of which nothing was spent.
-/

namespace CilCore

open PatchDB

variable {F : Factory} {node : NodeView} {patchForBlock : Option PatchDB} {tx : Transaction}
  {behaviour : Behaviour} {patch : PatchDB} {strTxHash : Hash} {hashes : List Hash}

/-- The records are in order, and all belong to the given hashes. -/
structure PatchDB.RecordsOf (hashes : List Hash) (patch : PatchDB) : Prop where
  recorded : patch.Recorded
  only : ∀ hash ∉ hashes, (patch.getSpentOutputs hash).keys = ∅

namespace PatchDB.RecordsOf

theorem other {patch' : PatchDB} (h : patch.RecordsOf hashes) (hcoins : patch'.coins = patch.coins)
    (hspent : patch'.mapSpentUtxos = patch.mapSpentUtxos) : patch'.RecordsOf hashes where
  recorded := h.recorded.other hcoins hspent
  only hash hnot := by
    rw [getSpentOutputs, hspent]
    exact h.only hash hnot

/-- A new UTXO is put under another hash. -/
theorem insert {patch' : PatchDB} (h : patch.RecordsOf hashes) {hash : Hash} (hnot : hash ∉ hashes)
    {utxo : UTXO} (hcoins : patch'.coins = patch.coins.insert hash utxo)
    (hspent : patch'.mapSpentUtxos = patch.mapSpentUtxos) : patch'.RecordsOf hashes := by
  have hput : (patch.setUtxo hash utxo).RecordsOf hashes := by
    refine ⟨h.recorded.setUtxo fun idx _ => ?_, h.only⟩
    rw [h.only hash hnot]
    exact Finset.notMem_empty idx
  exact hput.other hcoins hspent

theorem replay (h : patch.RecordsOf hashes) (hfresh : ∀ n, F.internalHash strTxHash n ∉ hashes)
    (effects : List Effect) : (Effect.replay F strTxHash effects patch).RecordsOf hashes := by
  induction effects generalizing patch with
  | nil => exact h
  | cons effect rest ih =>
      cases effect with
      | sent strAddress amount => exact ih (h.insert (hfresh patch.nonce) rfl rfl)
      | stored contract => exact ih (h.other rfl rfl)

end PatchDB.RecordsOf

/-- What the inputs and the payments record. -/
theorem recordsOf_prepareTx {prepared : PreparedTx} (hfresh : tx.hash F ∉ tx.utxos)
    (h : prepareTx F node patchForBlock false tx = .ok prepared) :
    prepared.patchThisTx.RecordsOf tx.utxos := by
  unfold prepareTx at h
  split at h
  next => cases h
  next contract _ =>
    split at h
    next => cases h
    next patchInputs totalHas nFeeSize hinputs =>
      split at h
      next => cases h
      next patchThisTx totalSent hpayments =>
        obtain ⟨-, rfl⟩ := guard_eq_ok.mp h
        unfold processInputs at hinputs
        rw [if_neg Bool.false_ne_true] at hinputs
        split at hinputs
        next => cases hinputs
        next view _ =>
          split at hinputs
          next => cases hinputs
          next patch total hspend =>
            split at hinputs
            next => cases hinputs
            next =>
              cases hinputs
              have hspends : SpendsFrom view tx.utxos patchInputs :=
                (spendsFrom_empty view tx.utxos).processTxInputsFrom (List.Subset.refl _) hspend
              have honly (hash : Hash) (hnot : hash ∉ tx.utxos) :
                  (patchInputs.getSpentOutputs hash).keys = ∅ := by
                rw [Finset.eq_empty_iff_forall_notMem]
                exact fun idx hidx => hnot (hspends.unspent hash idx hidx).1
              refine ⟨recorded_processPaymentsFrom hspends.recorded (honly _ hfresh) hpayments,
                fun hash hnot => ?_⟩
              have hframe : patchThisTx.getSpentOutputs hash = patchInputs.getSpentOutputs hash := by
                rw [App.processPaymentsFrom_frame hpayments]
                rfl
              rw [hframe]
              exact honly hash hnot

/-- A contract that is stored and a receipt leave the records alone. -/
theorem PatchDB.RecordsOf.settledPatch (h : patch.RecordsOf hashes) (o : ContractOutcome)
    (ho : o.state.patchTx = patch) (stored : TxReceipt) :
    (settledPatch F node tx o stored).RecordsOf hashes := by
  subst ho
  unfold CilCore.settledPatch storeOutcome
  split
  next => exact h.other rfl rfl
  next => exact h.other rfl rfl

/-- The records in the patch of a transaction are in order. -/
theorem recorded_processTx {fee : Amount} (hfresh : FreshHashes F tx)
    (h : processTx F node patchForBlock false tx behaviour = .ok (fee, patch)) : patch.Recorded := by
  have hinternal (n : Nat) : F.internalHash (tx.hash F) n ∉ tx.utxos := fun hmem =>
    hfresh.internal_fresh n (List.mem_cons_of_mem _ hmem)
  cases hprepared : prepareTx F node patchForBlock false tx with
  | error error =>
      rw [processTx, hprepared] at h
      cases h
  | ok prepared =>
      have hrecords := recordsOf_prepareTx hfresh.hash_fresh hprepared
      cases hcontract : prepared.contract with
      | none =>
          rw [processTx, hprepared] at h
          dsimp only at h
          rw [hcontract] at h
          cases h
          exact hrecords.recorded
      | some contract =>
          cases hstart : startContract F node false contract tx prepared.patchThisTx
              (patchForBlock.getD PatchDB.empty) prepared.nRemainingCoins prepared.nFeeSize with
          | error error =>
              rw [processTx, hprepared] at h
              simp only [hcontract, processContract, hstart] at h
              cases h
          | ok run =>
              have hof := startContract_ok hstart
              rw [processTx, hprepared] at h
              simp only [hcontract, processContract, hstart] at h
              have hready : run.patchThisTx.Ready F run.env.strTxHash := by
                rw [hof.patchThisTx, hof.strTxHash]
                exact (prepareTx_coins hprepared).1.ready hfresh
              have hstopped := outcome_patchTx tx behaviour
                (hof.strTxHash ▸ hfresh.internal_injective) hready
              have hrun : (run.outcome F tx behaviour).state.patchTx.RecordsOf tx.utxos := by
                rw [hstopped, hof.patchThisTx, hof.strTxHash]
                exact hrecords.replay hinternal _
              obtain ⟨stored, -, ⟨-, -, rfl⟩ | ⟨-, -, -, rfl⟩ | ⟨-, -, hchange⟩⟩ :=
                settleContract_ok h
              · exact (hrun.settledPatch _ rfl stored).recorded
              · exact (hrun.settledPatch _ rfl stored).recorded
              · have hsettled : (settledPatch F node tx (run.outcome F tx behaviour)
                    stored).RecordsOf tx.utxos := hrun.settledPatch _ rfl stored
                obtain ⟨-, -, rfl⟩ | ⟨receiver, -, -, ⟨-, rfl⟩ | ⟨-, rfl⟩⟩ :=
                  createContractChange_ok hchange
                · exact hsettled.recorded
                · exact hsettled.recorded
                · exact (hsettled.insert (hinternal _) (by rfl) (by rfl)).recorded

end CilCore
