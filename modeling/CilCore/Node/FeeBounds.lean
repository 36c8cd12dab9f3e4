import CilCore.Node.ContractAccounting

/-!
# The fee of a transaction

A transaction pays for its size first. What its contract costs can be negative, when it
frees storage, and without a change receiver the fee is what the contract has not used.
-/

namespace CilCore

variable {F : Factory} {node : NodeView} {patchForBlock : Option PatchDB} {tx : Transaction}
  {behaviour : Behaviour} {run : ContractRun} {fee : Amount} {nFeeSize : Nat}
  {patchThisTx : PatchDB}

/-- The payments of a transaction: its outputs, without that of its contract. -/
def paidCoins (F : Factory) (node : NodeView) (patchForBlock : Option PatchDB)
    (tx : Transaction) : Amount :=
  match findContract F node patchForBlock tx with
  | .error _ => 0
  | .ok contract => ((tx.getOutCoins.drop (if contract.isSome then 1 else 0)).map (·.amount)).sum

/-- The inputs less the payments. -/
def remainingCoins (F : Factory) (node : NodeView) (patchForBlock : Option PatchDB)
    (tx : Transaction) : Amount :=
  spentCoins F node patchForBlock tx - paidCoins F node patchForBlock tx

/-- A new internal transaction with these coins. -/
def IsChange (F : Factory) (tx : Transaction) (before after : PatchDB) (change : Coins) : Prop :=
  after.nonce = before.nonce + 1 ∧
    after.getUtxo (F.internalHash (tx.hash F) before.nonce) = some ((∅ : UTXO).insert 0 change)

/-- The fee is at least that for the size and at most what remains of the inputs, and
the change that is created after the contract has stopped leaves the size fee. -/
structure FeeBounds (F : Factory) (node : NodeView) (patchForBlock : Option PatchDB)
    (tx : Transaction) (behaviour : Behaviour) (nFeeSize : Nat) (fee : Amount)
    (patchThisTx : PatchDB) : Prop where
  size : nFeeSize ≤ fee
  available : fee ≤ remainingCoins F node patchForBlock tx
  change : ∀ run change, txRun F node patchForBlock false tx = .ok run →
    IsChange F tx (run.outcome F tx behaviour).state.patchTx patchThisTx change →
      change.amount ≤ remainingCoins F node patchForBlock tx - nFeeSize

namespace ContractRun

/-- What a contract costs beside the size of its transaction: the fees that it was
charged, and the storage that it takes or frees. -/
def cost (F : Factory) (tx : Transaction) (behaviour : Behaviour) (run : ContractRun) : Amount :=
  (run.start.nCoinsLimit - (run.execContract F tx behaviour).state.nCoinsLimit) +
    (run.execContract F tx behaviour).state.nDataDelta * run.nFeeStorage

/-- With a change receiver the contract does not free more storage than it pays for. Without
one it uses more than there is, or it leaves at least the size fee and takes no more than
what was sent to it. -/
def CostFits (F : Factory) (node : NodeView) (tx : Transaction) (behaviour : Behaviour)
    (run : ContractRun) : Prop :=
  let nMaxCoins := maxFee F node tx run.nMaxCoins (run.outcome F tx behaviour)
  (tx.getContractChangeReceiver ≠ none → 0 ≤ run.cost F tx behaviour) ∧
  (tx.getContractChangeReceiver = none →
    nMaxCoins < run.nFeeSize + run.cost F tx behaviour ∨
      nMaxCoins - (run.nMaxCoins + tx.getContractSentAmount) ≤
          run.nFeeSize + run.cost F tx behaviour ∧
        run.nFeeSize + run.cost F tx behaviour ≤ nMaxCoins - run.nFeeSize)

theorem used_eq (F : Factory) (tx : Transaction) (behaviour : Behaviour) (run : ContractRun) :
    run.used F tx behaviour = run.nFeeSize + run.cost F tx behaviour := by
  rw [used, coinsUsed, cost]
  ring

end ContractRun

/-- What is known of a transaction before its contract is processed. -/
theorem prepareTx_remaining {prepared : PreparedTx}
    (h : prepareTx F node patchForBlock false tx = .ok prepared) :
    node.calculateSizeFee F tx false = .ok prepared.nFeeSize ∧
      prepared.nFeeSize < prepared.nRemainingCoins ∧
      remainingCoins F node patchForBlock tx = prepared.nRemainingCoins +
        if prepared.contract.isSome then (tx.getContractSentAmount : Amount) else 0 := by
  unfold prepareTx at h
  split at h
  next => cases h
  next contract hcontract =>
    split at h
    next => cases h
    next patchInputs totalHas nFeeSize hinputs =>
      split at h
      next => cases h
      next patch totalSent hpayments =>
        obtain ⟨hfee, rfl⟩ := guard_eq_ok.mp h
        have hhas := (processInputs_coins hinputs).2 rfl
        have hsent := totalSent_processPaymentsFrom hpayments
        have hfee := not_not.mp fun hnot => hfee ⟨rfl, hnot⟩
        refine ⟨?_, by simpa only [Bool.false_eq_true, if_false] using hfee, ?_⟩
        · unfold processInputs at hinputs
          rw [if_neg Bool.false_ne_true] at hinputs
          split at hinputs
          next => cases hinputs
          next =>
            split at hinputs
            next => cases hinputs
            next =>
              split at hinputs
              next => cases hinputs
              next hsize =>
                cases hinputs
                exact hsize
        · rw [remainingCoins, paidCoins, hcontract, ← hhas]
          simp only [Bool.false_eq_true, if_false, hsent, zero_add]
          ring

/-- The change, when there is any: what the contract has not used. -/
theorem createContractChange_isChange {maxFee : Amount} {patch : PatchDB} {receipt : TxReceipt}
    {bInPatch : Bool} {change : Coins}
    (h : createContractChange F tx maxFee patch receipt bInPatch = .ok (fee, patchThisTx))
    (hchange : IsChange F tx patch patchThisTx change) :
    fee = receipt.coinsUsed ∧ change.amount = maxFee - receipt.coinsUsed := by
  obtain ⟨-, -, rfl⟩ | ⟨receiver, -, hfee, ⟨-, rfl⟩ | ⟨-, rfl⟩⟩ := createContractChange_ok h
  · exact absurd hchange.1 (Nat.ne_of_lt (Nat.lt_succ_self _))
  · exact absurd hchange.1 (Nat.ne_of_lt (Nat.lt_succ_self _))
  · have hcoins := hchange.2
    rw [PatchDB.getUtxo] at hcoins
    dsimp only at hcoins
    rw [Finmap.lookup_insert, Option.some.injEq] at hcoins
    have hat := congrArg (Finmap.lookup 0) hcoins
    rw [Finmap.lookup_insert, Finmap.lookup_insert, Option.some.injEq] at hat
    exact ⟨hfee, by rw [← hat]⟩

theorem settledPatch_nonce (o : ContractOutcome) (stored : TxReceipt) :
    (settledPatch F node tx o stored).nonce = o.state.patchTx.nonce :=
  (storeOutcome_coins ..).2

/-- The bounds of a transaction with a contract. -/
theorem feeBounds_contract (hrun : txRun F node patchForBlock false tx = .ok run)
    (hsize : node.calculateSizeFee F tx false = .ok nFeeSize)
    (hok : processTx F node patchForBlock false tx behaviour = .ok (fee, patchThisTx)) :
    FeeBounds F node patchForBlock tx behaviour nFeeSize fee patchThisTx ↔
      run.CostFits F node tx behaviour := by
  obtain ⟨prepared, contract, hprepared, hcontract, hof, hprocess⟩ := txRun_ok hrun
  obtain ⟨hprepSize, henough, hremaining⟩ := prepareTx_remaining hprepared
  obtain rfl : prepared.nFeeSize = nFeeSize := Except.ok.inj (hprepSize.symm.trans hsize)
  rw [hcontract, Option.isSome_some, if_pos rfl, ← hof.nMaxCoins] at hremaining
  rw [hprocess] at hok
  rw [← hof.nFeeSize, ← hof.nMaxCoins] at henough
  have hused := run.used_eq F tx behaviour
  have hsent : (0 : Amount) ≤ tx.getContractSentAmount := Nat.cast_nonneg _
  -- the coins that may be used: those that remain, and what a failed contract returns
  obtain ⟨hle, hge⟩ : run.nMaxCoins ≤ maxFee F node tx run.nMaxCoins (run.outcome F tx behaviour) ∧
      maxFee F node tx run.nMaxCoins (run.outcome F tx behaviour) ≤
        remainingCoins F node patchForBlock tx := by
    rw [maxFee_eq, hremaining]
    split <;> constructor <;> linarith
  rw [← hof.nFeeSize]
  -- no change is created, as nothing happens to the nonce
  have hnone {stored : TxReceipt} (hpatch : patchThisTx =
      settledPatch F node tx (run.outcome F tx behaviour) stored) (change : Coins) :
      ¬ IsChange F tx (run.outcome F tx behaviour).state.patchTx patchThisTx change := by
    intro hnew
    rw [IsChange, hpatch, settledPatch_nonce] at hnew
    exact Nat.succ_ne_self _ hnew.1.symm
  have hsame {run' : ContractRun} (hrun' : txRun F node patchForBlock false tx = .ok run') :
      run' = run := Except.ok.inj (hrun'.symm.trans hrun)
  obtain ⟨stored, -, ⟨hgenesis, -⟩ | ⟨-, hover, rfl, hpatch⟩ | ⟨-, hunder, hchange⟩⟩ :=
    settleContract_ok hok
  · cases hgenesis
  · -- the contract has used more than there is, and everything is the fee
    constructor
    · intro _
      exact ⟨fun _ => by linarith, fun _ => .inl (hused ▸ hover)⟩
    · intro _
      refine ⟨by linarith, hge, fun run' change hrun' hnew => ?_⟩
      obtain rfl := hsame hrun'
      exact absurd hnew (hnone hpatch change)
  · obtain ⟨hreceiver, rfl, hpatch⟩ | ⟨receiver, hreceiver, rfl, -⟩ :=
      createContractChange_ok hchange
    · -- without a change receiver the fee is what was not used
      rw [coinsUsed_receiptOf]
      constructor
      · intro hbounds
        refine ⟨fun hnot => absurd hreceiver hnot, fun _ => .inr ?_⟩
        obtain ⟨hsizeBound, havailable, -⟩ := hbounds
        constructor <;> linarith
      · intro ⟨_, hfits⟩
        obtain hover | ⟨hleast, hmost⟩ := hfits hreceiver
        · exact absurd hunder (not_le.mpr (hused ▸ hover))
        · refine ⟨by linarith, by linarith, fun run' change hrun' hnew => ?_⟩
          obtain rfl := hsame hrun'
          exact absurd hnew (hnone hpatch change)
    · -- with one it is what was used
      rw [coinsUsed_receiptOf]
      have hreceiverSome : tx.getContractChangeReceiver ≠ none := by simp [hreceiver]
      constructor
      · intro hbounds
        have hsizeBound := hbounds.size
        exact ⟨fun _ => by linarith, fun hnot => absurd hnot hreceiverSome⟩
      · intro ⟨hfits, _⟩
        have hcost := hfits hreceiverSome
        refine ⟨by linarith, by linarith, fun run' change hrun' hnew => ?_⟩
        obtain rfl := hsame hrun'
        rw [IsChange, ← settledPatch_nonce (F := F) (run'.outcome F tx behaviour) stored] at hnew
        have hamount := (createContractChange_isChange hchange hnew).2
        rw [coinsUsed_receiptOf] at hamount
        linarith

/-- A transaction that succeeds is a payment, which leaves all that remains as the fee, or it
has run its contract. -/
theorem processTx_cases
    (hok : processTx F node patchForBlock false tx behaviour = .ok (fee, patchThisTx)) :
    (∃ run, txRun F node patchForBlock false tx = .ok run) ∨
      (∃ error, txRun F node patchForBlock false tx = .error error) ∧
        ∃ prepared, prepareTx F node patchForBlock false tx = .ok prepared ∧
          prepared.contract = none ∧ fee = prepared.nRemainingCoins := by
  unfold processTx at hok
  cases hprepared : prepareTx F node patchForBlock false tx with
  | error error => simp [hprepared] at hok
  | ok prepared =>
      simp only [hprepared] at hok
      cases hcontract : prepared.contract with
      | none =>
          simp only [hcontract, Bool.false_eq_true, if_false, Except.ok.injEq, Prod.mk.injEq] at hok
          refine .inr ⟨⟨"Not a contract transaction", ?_⟩, prepared, rfl, hcontract, hok.1.symm⟩
          rw [txRun, hprepared]
          simp only [hcontract]
      | some contract =>
          simp only [hcontract, processContract] at hok
          split at hok
          next => cases hok
          next run hrun =>
            refine .inl ⟨run, ?_⟩
            rw [txRun, hprepared]
            simp only [hcontract]
            exact hrun

section Sample

/-- The sample node with another amount in its coin. -/
def nodeWith (amount : Amount) : NodeView where
  storage := { sampleNode.storage with
    utxos := (∅ : FinMap Hash UTXO).insert 5 ((∅ : UTXO).insert 0 ⟨amount, 3⟩) }
  processedHeight := none

/-- A method that frees storage: its transaction pays less than the fee for its size. -/
example : (processTx Factory.sample
    { nodeWith 100000 with storage := { (nodeWith 100000).storage with
        contracts := (∅ : FinMap Address Contract).insert 77
          { sampleContract with contractData := some (List.replicate 1102 0) } } }
    none false (sampleTx (some 3)) ⟨.error "", .done Contract.emptyData⟩).toOption.map (·.1) =
      some 0 := by decide +kernel

end Sample

end CilCore
