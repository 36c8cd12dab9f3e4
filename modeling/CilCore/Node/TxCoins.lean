import CilCore.Node.ProcessTx

/-!
# The coins of a transaction

What the inputs and the payments of a transaction do to its patch, before a
contract is run.
-/

namespace CilCore

/-- The coins of all UTXOs of the patch that belong to none of the spent hashes. -/
def createdCoins (spentHashes : List Hash) (patch : PatchDB) : Amount :=
  FinMap.total (fun hash utxo => if hash ∈ spentHashes then 0 else UTXO.amountOut utxo) patch.coins

/-- The coins of the inputs of a transaction, in the view it is processed in. -/
def spentCoins (F : Factory) (node : NodeView) (patchForBlock : Option PatchDB)
    (tx : Transaction) : Amount :=
  match inputsView F node patchForBlock tx with
  | .error _ => 0
  | .ok view => (tx.inputs.map fun input =>
      ((view.getUtxo input.txHash).bind (·.lookup input.nTxOutput)).elim 0 (·.amount)).sum

/-- A patch that has only coins, and these only under the given hashes. -/
structure PatchDB.OnlyCoins (hashes : List Hash) (patch : PatchDB) : Prop where
  coins : ∀ hash ∉ hashes, patch.getUtxo hash = none
  contracts : patch.mapContractStates = ∅
  receipts : patch.mapTxReceipts = ∅
  nonce : patch.nonce = 0

section Coins

variable {hashes spentHashes : List Hash} {patch patch' : PatchDB}

theorem PatchDB.OnlyCoins.setUtxo (h : patch.OnlyCoins hashes) {txHash : Hash}
    (hmem : txHash ∈ hashes) (utxo : UTXO) : (patch.setUtxo txHash utxo).OnlyCoins hashes := by
  refine ⟨fun hash hhash => ?_, h.contracts, h.receipts, h.nonce⟩
  rw [PatchDB.getUtxo, PatchDB.setUtxo, FinMap.lookup_insert_ite,
    if_neg (ne_of_mem_of_not_mem hmem hhash).symm]
  exact h.coins hash hhash

theorem PatchDB.OnlyCoins.mono {hashes' : List Hash} (h : patch.OnlyCoins hashes)
    (hsub : hashes ⊆ hashes') : patch.OnlyCoins hashes' :=
  ⟨fun hash hhash => h.coins hash fun hmem => hhash (hsub hmem), h.contracts, h.receipts, h.nonce⟩

theorem amountOut_single (idx : Nat) (coins : Coins) :
    UTXO.amountOut ((∅ : UTXO).insert idx coins) = coins.amount := by
  rw [UTXO.amountOut, FinMap.total_insert_of_notMem _ _ _ (Finmap.lookup_empty _),
    FinMap.total_empty, zero_add]

/-- A new UTXO with one coin under an unused hash. -/
theorem createdCoins_setUtxo (patch : PatchDB) {txHash : Hash} (coins : Coins) (hspent : txHash ∉ spentHashes)
    (hunused : patch.getUtxo txHash = none) :
    createdCoins spentHashes (patch.setUtxo txHash ((∅ : UTXO).insert 0 coins)) =
      createdCoins spentHashes patch + coins.amount := by
  rw [createdCoins, PatchDB.setUtxo, FinMap.total_insert_of_notMem _ _ _ hunused, if_neg hspent,
    amountOut_single, createdCoins]

theorem createdCoins_of_onlyCoins (h : patch.OnlyCoins spentHashes) :
    createdCoins spentHashes patch = 0 := by
  refine Finset.sum_eq_zero fun hash hhash => ?_
  obtain ⟨utxo, hutxo⟩ := FinMap.mem_keys_iff.mp hhash
  have hspent : hash ∈ spentHashes := by
    by_contra hnot
    rw [← PatchDB.getUtxo, h.coins hash hnot] at hutxo
    cases hutxo
  simp [hutxo, hspent]

/-- An output that is added to the UTXO of a hash. -/
theorem createdCoins_createCoins {txHash : Hash} {idx : Nat} {coins : Coins}
    (hspent : txHash ∉ spentHashes) (h : patch.createCoins txHash idx coins = .ok patch') :
    createdCoins spentHashes patch' = createdCoins spentHashes patch + coins.amount := by
  unfold PatchDB.createCoins UTXO.addCoins at h
  split at h
  next => cases h
  next utxo hadd =>
    cases h
    split at hadd
    next => cases hadd
    next hidx =>
      cases hadd
      rw [createdCoins, PatchDB.setUtxo, FinMap.total_insert, if_neg hspent, UTXO.amountOut,
        FinMap.total_insert_of_notMem _ _ _ (FinMap.notMem_keys_iff.mp hidx), createdCoins]
      cases hold : patch.getUtxo txHash with
      | none =>
          rw [PatchDB.getUtxo] at hold
          simp [hold]
      | some old =>
          rw [PatchDB.getUtxo] at hold
          simp [hold, hspent, UTXO.amountOut]
          ring

end Coins

section Prepare

variable {F : Factory} {tx : Transaction} {hashes : List Hash} {view : PatchDB}

/-- One input: its coins are added, and only its hash is touched. -/
theorem processTxInput_coins {patch patch' : PatchDB} {i : Nat} {input : Input}
    {totalHas totalHas' : Amount} (hmem : input.txHash ∈ hashes) (hpatch : patch.OnlyCoins hashes)
    (h : App.processTxInput F tx view i input patch totalHas = .ok (patch', totalHas')) :
    patch'.OnlyCoins hashes ∧ totalHas' = totalHas +
      ((view.getUtxo input.txHash).bind (·.lookup input.nTxOutput)).elim 0 (·.amount) := by
  obtain ⟨utxo, coins, hutxo, hcoins, -, -, rfl, rfl⟩ := App.processTxInput_ok h
  refine ⟨?_, by simp [hutxo, hcoins]⟩
  have hset := hpatch.setUtxo hmem (((patch.getUtxo input.txHash).getD utxo).erase input.nTxOutput)
  exact ⟨hset.coins, hset.contracts, hset.receipts, hset.nonce⟩

theorem processTxInputsFrom_coins {inputs : List Input} {i : Nat} {patch patch' : PatchDB}
    {totalHas totalHas' : Amount} (hmem : inputs.map (·.txHash) ⊆ hashes)
    (hpatch : patch.OnlyCoins hashes)
    (h : App.processTxInputsFrom F tx view i inputs patch totalHas = .ok (patch', totalHas')) :
    patch'.OnlyCoins hashes ∧ totalHas' = totalHas + (inputs.map fun input =>
      ((view.getUtxo input.txHash).bind (·.lookup input.nTxOutput)).elim 0 (·.amount)).sum := by
  induction inputs generalizing i patch totalHas with
  | nil =>
      cases h
      simpa using hpatch
  | cons input rest ih =>
      rw [List.map_cons, List.cons_subset] at hmem
      unfold App.processTxInputsFrom at h
      split at h
      next => cases h
      next patchNext totalNext hinput =>
        obtain ⟨hnext, htotal⟩ := processTxInput_coins hmem.1 hpatch hinput
        obtain ⟨hlast, hsum⟩ := ih hmem.2 hnext h
        refine ⟨hlast, ?_⟩
        rw [hsum, htotal, List.map_cons, List.sum_cons, add_assoc]

/-- The payments are the coins created. -/
theorem processPaymentsFrom_coins (spentHashes : List Hash) {txHash : Hash} {outs : List Coins}
    {i : Nat} {patch patch' : PatchDB} {totalSent totalSent' : Amount} (hmem : txHash ∈ hashes)
    (hpatch : patch.OnlyCoins hashes)
    (h : App.processPaymentsFrom txHash i outs patch totalSent = .ok (patch', totalSent')) :
    patch'.OnlyCoins hashes ∧ (txHash ∉ spentHashes →
      createdCoins spentHashes patch' + totalSent =
        createdCoins spentHashes patch + totalSent') := by
  induction outs generalizing i patch totalSent with
  | nil =>
      cases h
      exact ⟨hpatch, fun _ => rfl⟩
  | cons coins rest ih =>
      unfold App.processPaymentsFrom at h
      split at h
      next => exact ih hpatch h
      next =>
        split at h
        next => cases h
        next patchNext hcreate =>
          have hnext : patchNext.OnlyCoins hashes := by
            unfold PatchDB.createCoins at hcreate
            split at hcreate
            next => cases hcreate
            next utxo _ =>
              cases hcreate
              exact hpatch.setUtxo hmem utxo
          obtain ⟨hlast, hsum⟩ := ih hnext h
          refine ⟨hlast, fun hspent => ?_⟩
          have hcoins := createdCoins_createCoins hspent hcreate
          linarith [hsum hspent]

theorem totalSent_processPaymentsFrom {txHash : Hash} {outs : List Coins} {i : Nat}
    {patch patch' : PatchDB} {totalSent totalSent' : Amount}
    (h : App.processPaymentsFrom txHash i outs patch totalSent = .ok (patch', totalSent')) :
    totalSent' = totalSent + (outs.map (·.amount)).sum := by
  induction outs generalizing i patch totalSent with
  | nil =>
      cases h
      rw [List.map_nil, List.sum_nil, add_zero]
  | cons coins rest ih =>
      rw [List.map_cons, List.sum_cons, ← add_assoc]
      unfold App.processPaymentsFrom at h
      split at h
      next hzero =>
        rw [hzero, add_zero]
        exact ih h
      next =>
        split at h
        next => cases h
        next => exact ih h

/-- The inputs of a transaction that is not genesis. -/
theorem processInputs_coins {node : NodeView} {patchForBlock : Option PatchDB} {isGenesis : Bool}
    {patchThisTx : PatchDB} {totalHas : Amount} {nFeeSize : Nat}
    (h : processInputs F node patchForBlock isGenesis tx = .ok (patchThisTx, totalHas, nFeeSize)) :
    patchThisTx.OnlyCoins tx.utxos ∧
      (isGenesis = false → totalHas = spentCoins F node patchForBlock tx) := by
  unfold processInputs at h
  split at h
  next hgenesis =>
    cases h
    exact ⟨⟨fun _ _ => rfl, rfl, rfl, rfl⟩, fun hnot => absurd hgenesis (by simp [hnot])⟩
  next =>
    split at h
    next => cases h
    next view hview =>
      split at h
      next => cases h
      next patch total hinputs =>
        split at h
        next => cases h
        next =>
          cases h
          have hempty : PatchDB.empty.OnlyCoins tx.utxos := ⟨fun _ _ => rfl, rfl, rfl, rfl⟩
          obtain ⟨hpatch, htotal⟩ :=
            processTxInputsFrom_coins (List.Subset.refl tx.utxos) hempty hinputs
          refine ⟨hpatch, fun _ => ?_⟩
          rw [htotal, zero_add, spentCoins, hview]

/-- **The coins of a prepared transaction.** What the inputs have goes to the payments,
to the contract, and to the coins that remain. -/
theorem prepareTx_coins {node : NodeView} {patchForBlock : Option PatchDB} {isGenesis : Bool}
    {prepared : PreparedTx} (h : prepareTx F node patchForBlock isGenesis tx = .ok prepared) :
    prepared.patchThisTx.OnlyCoins (tx.hash F :: tx.utxos) ∧
      (isGenesis = false → tx.hash F ∉ tx.utxos →
        spentCoins F node patchForBlock tx =
          createdCoins tx.utxos prepared.patchThisTx + prepared.nRemainingCoins +
            if prepared.contract.isSome then (tx.getContractSentAmount : Amount) else 0) := by
  unfold prepareTx at h
  split at h
  next => cases h
  next contract _ =>
    split at h
    next => cases h
    next patchInputs totalHas nFeeSize hinputs =>
      split at h
      next => cases h
      next patch totalSent hpayments =>
        obtain ⟨-, rfl⟩ := guard_eq_ok.mp h
        obtain ⟨hpatch, htotal⟩ := processInputs_coins hinputs
        obtain ⟨hlast, hsum⟩ := processPaymentsFrom_coins tx.utxos
          List.mem_cons_self (hpatch.mono (List.subset_cons_self _ _)) hpayments
        refine ⟨hlast, fun hgenesis hspent => ?_⟩
        have hcreated := hsum hspent
        rw [createdCoins_of_onlyCoins hpatch] at hcreated
        simp only [hgenesis, Bool.false_eq_true, if_false, ← htotal hgenesis]
        linarith

end Prepare

/-- The hashes of a transaction and of its internal transactions are not those of its
inputs or of each other: what collision-free hashing provides. -/
structure FreshHashes (F : Factory) (tx : Transaction) : Prop where
  internal_injective : Function.Injective (F.internalHash (tx.hash F))
  internal_fresh : ∀ n, F.internalHash (tx.hash F) n ∉ tx.hash F :: tx.utxos
  hash_fresh : tx.hash F ∉ tx.utxos

end CilCore
