import CilCore.Node.BlockAgreement
import CilCore.Node.BlockLedger

/-!
# Light validation

`_validateTxLight` of `node/node.js` checks a transaction before it enters the mempool. It
sees the same coins as `_processTx`, but the two compare them with the fee in different ways.
-/

namespace CilCore

/-- `_validateTxLight`, given the merged patches of the best parents. -/
def validateTxLight (F : Factory) (node : NodeView) (patchMerged : PatchDB) (tx : Transaction) :
    Except String Unit :=
  match tx.verify with
  | .error error => .error error
  | .ok () =>
      match patchMerged.merge F (node.storage.getUtxosPatch tx.utxos) with
      | .error error => .error error
      | .ok view =>
          match App.processTxInputs F tx view with
          | .error error => .error error
          | .ok (_, totalHas) =>
              match node.calculateSizeFee F tx false with
              | .error error => .error error
              | .ok sizeFee =>
                  if totalHas < tx.amountOut + sizeFee then .error "Require fee at least"
                  else .ok ()

/-- The transaction neither creates a contract nor pays to one with its first output, if it
has one. -/
structure PlainPayment (F : Factory) (storage : Storage) (patch : PatchDB) (tx : Transaction) :
    Prop where
  creation : tx.isContractCreation F ≠ .ok true
  notPending : ∀ addr, tx.getContractAddr = some addr → patch.getContract addr = none
  notStored : ∀ addr, tx.getContractAddr = some addr → storage.getContract addr = none

/-- The coins of a transaction's inputs. -/
def inputCoins (storage : Storage) (patch : PatchDB) (tx : Transaction) : Amount :=
  (tx.inputs.map fun input => (unspentAt storage patch input).elim 0 (·.amount)).sum

section

variable {F : Factory} {node : NodeView} {tx : Transaction} {behaviour : Behaviour}
  {patch patchInputs view view' : PatchDB} {totalHas : Amount} {sizeFee : Nat}

/-- What passes the light check. -/
theorem validateTxLight_ok (hsize : node.calculateSizeFee F tx false = .ok sizeFee)
    (h : validateTxLight F node patch tx = .ok ()) :
    ∃ view patchInputs totalHas,
      patch.merge F (node.storage.getUtxosPatch tx.utxos) = .ok view ∧
      App.processTxInputs F tx view = .ok (patchInputs, totalHas) ∧
      tx.amountOut + sizeFee ≤ totalHas := by
  unfold validateTxLight at h
  split at h
  next => cases h
  next =>
    split at h
    next => cases h
    next view hview =>
      split at h
      next => cases h
      next patchInputs totalHas hinputs =>
        rw [hsize] at h
        exact ⟨view, patchInputs, totalHas, hview, hinputs, not_lt.mp (guard_eq_ok.mp h).1⟩

theorem PlainPayment.isPayment (h : PlainPayment F node.storage patch tx) (hne : tx.outputs ≠ []) :
    IsPayment F node.storage patch tx where
  creation := by
    have hnot := h.creation
    unfold Transaction.isContractCreation at hnot ⊢
    split
    next hnil => exact absurd hnil hne
    next out rest hout =>
      rw [hout] at hnot
      exact congrArg Except.ok (Bool.eq_false_iff.mpr fun htrue => hnot (congrArg Except.ok htrue))
  notPending := h.notPending
  notStored := h.notStored

/-! ### The two views -/

/-- The merge of all that storage has of the inputs shows the outputs that can be spent. -/
theorem coinsAt_of_merge {hash : Hash}
    (hview : patch.merge F (node.storage.getUtxosPatch tx.utxos) = .ok view)
    (hmem : hash ∈ tx.utxos) (idx : Nat) :
    view.coinsAt hash idx = unspentAt node.storage patch ⟨hash, idx⟩ := by
  have hstored := getUtxo_getUtxosPatch node.storage tx.utxos hash
  rw [if_pos hmem] at hstored
  obtain ⟨-, -, -, -, -, rfl⟩ := PatchDB.merge_eq_ok.mp hview
  rw [PatchDB.coinsAt, PatchDB.getUtxo_merged, hstored]
  rfl

/-- The inputs are accepted in each view that shows the same of them. -/
theorem exists_processTxInputs_congr
    (hsame : ∀ hash ∈ tx.utxos, ∀ idx, view'.coinsAt hash idx = view.coinsAt hash idx)
    (h : ∃ r, App.processTxInputs F tx view = .ok r) :
    ∃ r, App.processTxInputs F tx view' = .ok r := by
  rw [App.exists_processTxInputs_iff] at h ⊢
  refine ⟨h.1, fun i input hinput => ?_⟩
  obtain ⟨coins, signature, hcoins, hproof, hrecover⟩ := h.2 i input hinput
  have hmem := mem_utxos (List.mem_of_getElem? hinput)
  exact ⟨coins, signature, (hsame _ hmem _).trans hcoins, hproof, hrecover⟩

/-- The total of inputs that were accepted. -/
theorem totalHas_eq_inputCoins
    (hsame : ∀ hash ∈ tx.utxos, ∀ idx,
      view.coinsAt hash idx = unspentAt node.storage patch ⟨hash, idx⟩)
    (h : App.processTxInputs F tx view = .ok (patchInputs, totalHas)) :
    totalHas = inputCoins node.storage patch tx := by
  have hempty : PatchDB.empty.OnlyCoins tx.utxos := ⟨fun _ _ => rfl, rfl, rfl, rfl⟩
  have htotal := (processTxInputsFrom_coins (List.Subset.refl tx.utxos) hempty h).2
  rw [htotal, zero_add, inputCoins]
  refine congrArg List.sum (List.map_congr_left fun input hinput => ?_)
  rw [← hsame _ (mem_utxos hinput)]
  rfl

/-- `_processTx` finds a view wherever the light check does. -/
theorem exists_inputsView (hview : patch.merge F (node.storage.getUtxosPatch tx.utxos) = .ok view) :
    ∃ view', inputsView F node (some patch) tx = .ok view' := by
  unfold inputsView
  dsimp only
  split
  next => exact ⟨view, hview⟩
  next => exact ⟨_, rfl⟩

/-! ### Payments -/

/-- Outputs are created as long as their indexes are free. -/
theorem exists_processPaymentsFrom {txHash : Hash} {outs : List Coins} {i : Nat} {patch : PatchDB}
    (hfree : ∀ idx ∈ ((patch.getUtxo txHash).getD ∅).keys, idx < i) (totalSent : Amount) :
    ∃ r, App.processPaymentsFrom txHash i outs patch totalSent = .ok r := by
  induction outs generalizing i patch totalSent with
  | nil => exact ⟨_, rfl⟩
  | cons coins rest ih =>
      unfold App.processPaymentsFrom
      split
      next => exact ih (fun idx hidx => Nat.lt_succ_of_lt (hfree idx hidx)) totalSent
      next =>
        have hnew : i ∉ ((patch.getUtxo txHash).getD ∅).keys := fun hi => (hfree i hi).ne rfl
        rw [PatchDB.createCoins, UTXO.addCoins, if_neg hnew]
        dsimp only
        refine ih (fun idx hidx => ?_) _
        rw [PatchDB.getUtxo_setUtxo, if_pos rfl, Option.getD_some, FinMap.keys_insert,
          Finset.mem_insert] at hidx
        rcases hidx with rfl | hidx
        · exact Nat.lt_succ_self _
        · exact Nat.lt_succ_of_lt (hfree idx hidx)

/-- Nothing is made under a transaction's own hash before its payments. -/
theorem getUtxo_hash_of_processTxInputs (hF : F.HashesPayloads)
    (h : App.processTxInputs F tx view = .ok (patchInputs, totalHas)) :
    patchInputs.getUtxo (tx.hash F) = none := by
  have hempty : PatchDB.empty.OnlyCoins tx.utxos := ⟨fun _ _ => rfl, rfl, rfl, rfl⟩
  refine (processTxInputsFrom_coins (List.Subset.refl tx.utxos) hempty h).1.coins _ fun hmem => ?_
  obtain ⟨input, hinput, heq⟩ := List.mem_map.mp hmem
  exact hF tx.payload input hinput heq

/-- When a payment whose inputs were accepted is processed. -/
theorem exists_processTx_iff (hF : F.HashesPayloads) (hpayment : IsPayment F node.storage patch tx)
    (hsize : node.calculateSizeFee F tx false = .ok sizeFee)
    (hview : inputsView F node (some patch) tx = .ok view)
    (hinputs : App.processTxInputs F tx view = .ok (patchInputs, totalHas)) :
    (∃ r, processTx F node (some patch) false tx behaviour = .ok r) ↔
      tx.amountOut + sizeFee < totalHas := by
  have hprocess : processInputs F node (some patch) false tx =
      .ok (patchInputs, totalHas, sizeFee) := by
    simp [processInputs, hview, hinputs, hsize]
  have hfree : ∀ idx ∈ ((patchInputs.getUtxo (tx.hash F)).getD ∅).keys, idx < 0 := by
    simp [getUtxo_hash_of_processTxInputs hF hinputs]
  obtain ⟨⟨patchThisTx, totalSent⟩, hpayments⟩ :
      ∃ r, App.processPaymentsFrom (tx.hash F) 0 tx.getOutCoins patchInputs 0 = .ok r :=
    exists_processPaymentsFrom hfree 0
  have hsent : totalSent = tx.amountOut := by
    rw [totalSent_processPaymentsFrom hpayments, zero_add, sum_getOutCoins]
  rw [processTx_of_payment hpayment.findContract hprocess, hpayments]
  dsimp only
  rw [hsent]
  split
  next hfee => exact iff_of_true ⟨_, rfl⟩ (by linarith)
  next hfee =>
    refine iff_of_false ?_ fun hlt => hfee (by linarith)
    rintro ⟨r, hr⟩
    cases hr

/-- **When a payment that passes the light check is processed**: if it has an output, and
pays more than the least fee. -/
theorem exists_processTx_of_validateTxLight_iff (F : Factory) (hF : F.HashesPayloads)
    (node : NodeView) (patch : PatchDB) (tx : Transaction) (behaviour : Behaviour)
    (hpayment : PlainPayment F node.storage patch tx) (sizeFee : Nat)
    (hsize : node.calculateSizeFee F tx false = .ok sizeFee)
    (hlight : validateTxLight F node patch tx = .ok ()) :
    (∃ r, processTx F node (some patch) false tx behaviour = .ok r) ↔
      tx.outputs ≠ [] ∧ inputCoins node.storage patch tx ≠ tx.amountOut + sizeFee := by
  obtain ⟨view, patchInputs, totalHas, hmerge, hinputs, hle⟩ := validateTxLight_ok hsize hlight
  by_cases hne : tx.outputs = []
  · -- reading the receiver of the first output throws
    refine iff_of_false ?_ fun hcondition => hcondition.1 hne
    rintro ⟨r, hr⟩
    simp [processTx, prepareTx, findContract, Transaction.isContractCreation, hne] at hr
  · have hsame : ∀ hash ∈ tx.utxos, ∀ idx,
        view.coinsAt hash idx = unspentAt node.storage patch ⟨hash, idx⟩ :=
      fun _ hmem idx => coinsAt_of_merge hmerge hmem idx
    obtain ⟨view', hview'⟩ := exists_inputsView hmerge
    have hsame' : ∀ hash ∈ tx.utxos, ∀ idx,
        view'.coinsAt hash idx = unspentAt node.storage patch ⟨hash, idx⟩ :=
      fun _ hmem idx => inputsView_unspentAt hview' hmem idx
    obtain ⟨⟨patchInputs', totalHas'⟩, hinputs'⟩ := exists_processTxInputs_congr
      (fun hash hmem idx => (hsame' hash hmem idx).trans (hsame hash hmem idx).symm)
      ⟨_, hinputs⟩
    rw [exists_processTx_iff hF (hpayment.isPayment hne) hsize hview' hinputs',
      totalHas_eq_inputCoins hsame' hinputs']
    rw [totalHas_eq_inputCoins hsame hinputs] at hle
    exact ⟨fun hlt => ⟨hne, hlt.ne'⟩, fun hcondition => lt_of_le_of_ne hle hcondition.2.symm⟩

end

/-! ### A payment that leaves exactly the least fee -/

section Sample

/-- A node with one output. -/
def payingNode : NodeView where
  storage := { Storage.empty with
    utxos := (∅ : FinMap Hash UTXO).insert 5 ((∅ : UTXO).insert 0 ⟨3000, 3⟩) }
  processedHeight := none

/-- The output is spent, and part of it is paid. -/
def payingTx (amount : Nat) : Transaction :=
  let payload : TransactionPayload := {
    conciliumId := 0
    ins := [⟨5, 0⟩]
    outs := [{ amount, receiverAddr := 4 }] }
  { payload, claimProofs := [Factory.sample.payloadHash payload * 1000 + 3] }

theorem plainPayment_payingTx (amount : Nat) :
    PlainPayment Factory.sample payingNode.storage PatchDB.empty (payingTx amount) where
  creation := by simp [Transaction.isContractCreation, payingTx, Transaction.outputs, Factory.sample]
  notPending _ _ := rfl
  notStored _ _ := rfl

theorem exists_processTx_of_validateTxLight_payingTx :
    (∃ r, processTx Factory.sample payingNode (some PatchDB.empty) false (payingTx 1500)
        ⟨.error "", .throws ""⟩ = .ok r) ↔
      (payingTx 1500).outputs ≠ [] ∧
        inputCoins payingNode.storage PatchDB.empty (payingTx 1500) ≠
          ((payingTx 1500).amountOut : Amount) + (1000 : Nat) :=
  exists_processTx_of_validateTxLight_iff Factory.sample hashesPayloads_sample payingNode
    PatchDB.empty (payingTx 1500) ⟨.error "", .throws ""⟩ (plainPayment_payingTx 1500) 1000
    (by decide +kernel) (by decide +kernel)

/-- The fee is what the light check asks for, and `_processTx` wants more. -/
theorem not_processTx_of_validateTxLight :
    ¬ ∀ (F : Factory) (node : NodeView) (patch : PatchDB) (tx : Transaction)
      (behaviour : Behaviour), F.HashesPayloads → PlainPayment F node.storage patch tx →
        validateTxLight F node patch tx = .ok () →
          ∃ r, processTx F node (some patch) false tx behaviour = .ok r := by
  intro hclaim
  obtain ⟨r, hr⟩ := hclaim Factory.sample payingNode PatchDB.empty (payingTx 2000)
    ⟨.error "", .throws ""⟩ hashesPayloads_sample (plainPayment_payingTx 2000)
    (by decide +kernel)
  have hfails : (processTx Factory.sample payingNode (some PatchDB.empty) false (payingTx 2000)
      ⟨.error "", .throws ""⟩).toOption.isSome = false := by decide +kernel
  rw [hr] at hfails
  cases hfails

end Sample

end CilCore
