import CilCore.Node.ContractTrace

/-!
# Where the coins of a contract transaction go

Coins reach the patch of a transaction as payments, as sends of contracts, as
change, and as balances of stored contracts. A contract pays for what it sends
from the balance of an object in memory, and not every such object is stored, so
coins can come from nothing; and some coins are handed to nobody.
-/

namespace CilCore

/-- The net change of the balances of all contracts of the patch, relative to their
previous versions. -/
def contractsDelta (storage : Storage) (patchForBlock patch : PatchDB) : Amount :=
  FinMap.total (fun contractAddr contract =>
    contract.balance - previousBalance storage patchForBlock contractAddr) patch.mapContractStates

/-- The coins that a patch gives away: those of its new UTXOs and those its contracts
have gained. -/
def worth (E : RunEnv) (spentHashes : List Hash) (patch : PatchDB) : Amount :=
  createdCoins spentHashes patch + contractsDelta E.storage E.patchBlock patch

/-- Coins that a nested call sent although nothing was taken from any stored balance:
the method threw after it had sent them, or its contract was in the patch of the
transaction already, where it only gets new data. A delegated call pays from its
caller's balance. -/
def CallRecord.strayed (call : CallRecord) : Amount :=
  match call.called with
  | none => 0
  | some (loaded, left) =>
      if call.delegate then 0
      else if call.reply.2.2.isSome ∨ (call.stopped.patchTx.getContract loaded.strAddress).isSome then
        loaded.balance - left.balance
      else 0

section Worth

variable {F : Factory} {E : RunEnv} {spentHashes : List Hash} {patch : PatchDB}

theorem contractsDelta_setContract (storage : Storage) (patchForBlock : PatchDB)
    (contract : Contract) (patch : PatchDB) :
    contractsDelta storage patchForBlock (patch.setContract F contract) =
      contractsDelta storage patchForBlock patch +
        if (patch.getContract contract.strAddress).isSome then 0
        else contract.balance - previousBalance storage patchForBlock contract.strAddress := by
  rw [contractsDelta, PatchDB.setContract, FinMap.total_insert]
  cases hfound : patch.getContract contract.strAddress with
  | none =>
      have hlookup : patch.mapContractStates.lookup contract.strAddress = none := hfound
      simp [PatchDB.recordedContract, hfound, hlookup, contractsDelta]
  | some found =>
      have hlookup : patch.mapContractStates.lookup contract.strAddress = some found := hfound
      simp [PatchDB.recordedContract, hfound, hlookup, contractsDelta]

theorem worth_setContract (contract : Contract) :
    worth E spentHashes (patch.setContract F contract) = worth E spentHashes patch +
      if (patch.getContract contract.strAddress).isSome then 0
      else contract.balance - previousBalance E.storage E.patchBlock contract.strAddress := by
  rw [worth, contractsDelta_setContract, worth, ← add_assoc]
  rfl

theorem worth_afterSend (hready : patch.Ready F E.strTxHash)
    (hspent : ∀ n, F.internalHash E.strTxHash n ∉ spentHashes) (receiver : Address)
    (amount : Amount) :
    worth E spentHashes (patch.afterSend F E.strTxHash receiver amount) =
      worth E spentHashes patch + amount := by
  have hcreated := createdCoins_setUtxo patch ⟨amount, receiver⟩ (hspent patch.nonce)
    (hready.unused patch.nonce le_rfl)
  rw [worth, worth, add_right_comm, ← hcreated]
  rfl

end Worth

section Run

variable {F : Factory} {E : RunEnv} {spentHashes : List Hash}

/-- The end of a call: the patch is charged with what the method took from the balance
of the called contract, unless the call was delegated or the contract is not stored. -/
theorem worth_endCall (spentHashes : List Hash) {delegate : Bool} (caller : Contract)
    {nested : Contract} {r : RunState × Contract × Except String Data}
    (hleft : delegate = false → r.2.1.strAddress = nested.strAddress)
    (hbalance : nested.balance = previousBalance E.storage E.patchBlock nested.strAddress) :
    worth E spentHashes (endCall F E delegate caller nested r).1.patchTx =
      worth E spentHashes r.1.patchTx +
        if delegate ∨ (endCall F E delegate caller nested r).2.2.isSome ∨
            (r.1.patchTx.getContract nested.strAddress).isSome then 0
        else r.2.1.balance - nested.balance := by
  obtain ⟨s, left, result⟩ := r
  cases result with
  | error error => simp [endCall]
  | ok data =>
      simp only [endCall, finishCall, worth_setContract]
      cases delegate with
      | true => simp [hbalance]
      | false =>
          have hstr : left.strAddress = nested.strAddress := hleft rfl
          simp [hstr, hbalance]

/-- What a call adds to the accounts of its caller. -/
theorem worth_startedCall (spentHashes : List Hash) (delegate : Bool) (callee : Code)
    (caller : Contract) {nested : Contract} (before : RunState) (nCoinsLimit : Amount)
    (hbalance : nested.balance = previousBalance E.storage E.patchBlock nested.strAddress) :
    let call := startedCall F E delegate callee caller nested before nCoinsLimit
    let called := if delegate then caller else nested
    let left := (runCode F E callee called { before with nCoinsLimit }).2.1
    worth E spentHashes call.reply.1.patchTx + call.reply.2.1.balance + called.balance =
      worth E spentHashes call.stopped.patchTx + left.balance + caller.balance + call.strayed := by
  have hleft : delegate = false → (runCode F E callee (if delegate then caller else nested)
      { before with nCoinsLimit }).2.1.strAddress = nested.strAddress := by
    rintro rfl
    exact runCode_strAddress callee nested _
  have hworth := worth_endCall (F := F) (E := E) spentHashes caller hleft hbalance
  have hcaller := endCall_caller (F := F) (E := E) delegate caller nested
    (runCode F E callee (if delegate then caller else nested) { before with nCoinsLimit })
  cases delegate with
  | true =>
      simp only [true_or, if_true, add_zero] at hworth hcaller
      simp [startedCall, CallRecord.strayed, hworth, hcaller]
  | false =>
      simp only [Bool.false_eq_true, false_or, if_false] at hworth hcaller
      simp only [startedCall, CallRecord.strayed, Bool.false_eq_true, if_false, hworth, hcaller]
      split <;> ring

/-- **Accounting of a run.** What the patch of the transaction gains is what the
holder's balance loses, up to the coins that stray in nested calls. -/
theorem runCode_worth (hinj : Function.Injective (F.internalHash E.strTxHash))
    (hspent : ∀ n, F.internalHash E.strTxHash n ∉ spentHashes) (code : Code) (holder : Contract)
    (s : RunState) (h : s.patchTx.Ready F E.strTxHash) :
    worth E spentHashes (runCode F E code holder s).1.patchTx +
        (runCode F E code holder s).2.1.balance =
      worth E spentHashes s.patchTx + holder.balance +
        ((calls F E code holder s).map (·.strayed)).sum := by
  induction code generalizing holder s with
  | done data => simp [runCode, calls]
  | throws message => simp [runCode, calls]
  | send strAddress amount k ih =>
      rw [runCode, calls]
      rcases send_cases strAddress amount holder h with
        ⟨hpatch, hholder, -⟩ | ⟨receiver, -, -, hpatch, hholder, -⟩
      · rw [ih _ _ _ (hpatch ▸ h), hpatch, hholder]
      · rw [ih _ _ _ (hpatch ▸ h.afterSend hinj receiver amount), hpatch, hholder,
          worth_afterSend h hspent, Contract.deposit]
        ring
  | call delegate strAddress coinsToPass callee k ihcallee ihk =>
      cases hstart : startCall F E strAddress coinsToPass s with
      | error error =>
          simp only [runCode, calls, hstart, List.map_cons, List.sum_cons]
          rw [ihk _ _ _ h]
          simp [CallRecord.strayed, refusedCall]
      | ok started =>
          obtain ⟨nested, nCoinsLimit⟩ := started
          obtain ⟨haddress, hbalance⟩ := startCall_found hstart
          have hcall := worth_startedCall (F := F) (E := E) spentHashes delegate callee holder s
            nCoinsLimit (haddress ▸ hbalance)
          have hcallee := ihcallee (if delegate then holder else nested) { s with nCoinsLimit } h
          obtain ⟨-, hready⟩ := startedCall_patchTx hinj delegate callee holder nested nCoinsLimit h
          have hrest := ihk (startedCall F E delegate callee holder nested s nCoinsLimit).reply.2.2
            (startedCall F E delegate callee holder nested s nCoinsLimit).reply.2.1 _ hready
          simp only [runCode, calls, hstart, List.map_append, List.map_cons, List.sum_append,
            List.sum_cons]
          simp only [startedCall] at hcall hrest ⊢
          linarith

end Run

/-! ### The accounts of a transaction -/

namespace ContractRun

/-- The contract of the transaction is stored with its balance: nothing failed, and no
nested call has stored the contract before. -/
def kept (F : Factory) (tx : Transaction) (behaviour : Behaviour) (run : ContractRun) : Bool :=
  let o := run.outcome F tx behaviour
  o.message.isNone && o.contract.all fun contract =>
    (o.state.patchTx.getContract contract.strAddress).isNone

/-- The coins sent to the contract are returned: it failed, and it was there. -/
def returned (F : Factory) (node : NodeView) (tx : Transaction) (behaviour : Behaviour)
    (run : ContractRun) : Bool :=
  let o := run.outcome F tx behaviour
  o.message.isSome && o.contract.isSome && node.isTimeToForkSerializer1 F

/-- The coins that the invoked method sent from its own contract's balance. -/
def ownSent (F : Factory) (tx : Transaction) (behaviour : Behaviour) (run : ContractRun) :
    Amount :=
  match run.invocation F tx with
  | none => 0
  | some (contract, s) =>
      contract.balance - (runCode F run.env behaviour.method contract s).2.1.balance

/-- The coins that come from nothing: sends that no stored balance pays for. -/
def strayed (F : Factory) (tx : Transaction) (behaviour : Behaviour) (run : ContractRun) :
    Amount :=
  ((run.calls F tx behaviour).map (·.strayed)).sum +
    if run.kept F tx behaviour then 0 else run.ownSent F tx behaviour

/-- The coins that nobody gets: what was sent to a contract that neither keeps nor
returns it, and what was used where there is no change receiver. -/
def lost (F : Factory) (node : NodeView) (tx : Transaction) (behaviour : Behaviour)
    (run : ContractRun) : Amount :=
  (if run.kept F tx behaviour || run.returned F node tx behaviour then 0
    else (tx.getContractSentAmount : Amount)) +
  if tx.getContractChangeReceiver = none ∧
      run.used F tx behaviour ≤ maxFee F node tx run.nMaxCoins (run.outcome F tx behaviour) then
    run.used F tx behaviour
  else 0

end ContractRun

section Accounts

variable {F : Factory} {node : NodeView} {patchForBlock : Option PatchDB} {tx : Transaction}
  {behaviour : Behaviour} {run : ContractRun}

/-- The patch of the transaction after its contract has run. -/
theorem execContract_worth (tx : Transaction) (behaviour : Behaviour)
    (hinj : Function.Injective (F.internalHash run.env.strTxHash))
    {spentHashes : List Hash} (hspent : ∀ n, F.internalHash run.env.strTxHash n ∉ spentHashes)
    (hready : run.patchThisTx.Ready F run.env.strTxHash) :
    worth run.env spentHashes (run.execContract F tx behaviour).state.patchTx =
      worth run.env spentHashes run.patchThisTx +
        ((run.calls F tx behaviour).map (·.strayed)).sum + run.ownSent F tx behaviour := by
  have hnone (h : run.invocation F tx = none)
      (hpatch : (run.execContract F tx behaviour).state.patchTx = run.patchThisTx) :
      worth run.env spentHashes (run.execContract F tx behaviour).state.patchTx =
        worth run.env spentHashes run.patchThisTx +
          ((run.calls F tx behaviour).map (·.strayed)).sum + run.ownSent F tx behaviour := by
    simp [hpatch, ContractRun.calls, ContractRun.ownSent, h]
  cases execContract_cases F tx behaviour run with
  | notCreated hcontract _ hpatch _ => exact hnone (by simp [ContractRun.invocation, hcontract]) hpatch
  | created hcontract _ _ _ hpatch _ _ =>
      exact hnone (by simp [ContractRun.invocation, hcontract]) hpatch
  | refused _ _ hinvocation _ hexec => exact hnone hinvocation (by rw [hexec]; rfl)
  | invoked contract started s hcontract hinvocation haddress hbalance hpatch hexec =>
      have hrun := runCode_worth hinj hspent behaviour.method started s (hpatch ▸ hready)
      obtain ⟨hstate, -⟩ := endInvocation_spec (F := F) (started.getDataSize F)
        (runCode F run.env behaviour.method started s)
      rw [hexec, hstate]
      simp only [ContractRun.calls, ContractRun.ownSent, hinvocation]
      rw [hpatch] at hrun
      linarith

/-- The contract of a run that did not fail: its balance is what it was before, less
what it sent. -/
theorem outcome_balance (hrun : txRun F node patchForBlock false tx = .ok run)
    (hnew : (patchForBlock.getD PatchDB.empty).getContract (F.contractAddress (tx.hash F)) = none) {contract : Contract}
    (hmessage : (run.outcome F tx behaviour).message = none)
    (hcontract : (run.outcome F tx behaviour).contract = some contract) :
    contract.balance = previousBalance run.env.storage run.env.patchBlock contract.strAddress -
      run.ownSent F tx behaviour := by
  obtain ⟨_, _, -, -, hof, -⟩ := txRun_ok hrun
  rw [ContractRun.outcome, contract_checkCoinsUsed] at hcontract
  obtain ⟨hmessage, -⟩ := message_checkCoinsUsed hmessage
  cases execContract_cases F tx behaviour run with
  | notCreated _ _ _ hfailed => exact absurd hmessage hfailed
  | created hnone created hcreated haddress _ hnewStored hbalance =>
      obtain rfl : created = contract := Option.some.inj (hcreated.symm.trans hcontract)
      have hprevious : previousBalance run.env.storage run.env.patchBlock
          (F.contractAddress run.env.strTxHash) = 0 := by
        rw [previousBalance, hnewStored, hof.patchBlock, hof.strTxHash, hnew]
        rfl
      rw [haddress, hprevious, hbalance]
      simp [ContractRun.ownSent, ContractRun.invocation, hnone]
  | refused _ _ _ message hexec =>
      rw [hexec] at hmessage
      cases hmessage
  | invoked found started s hfound hinvocation haddress hstarted hpatch hexec =>
      obtain ⟨-, left, hleft, hleftAddress, hleftBalance⟩ := endInvocation_spec (F := F)
        (started.getDataSize F) (runCode F run.env behaviour.method started s)
      obtain rfl : left = contract :=
        Option.some.inj (hleft.symm.trans (hexec ▸ hcontract))
      rw [hleftAddress, runCode_strAddress, haddress, ← txRun_contract hrun hfound, ← hstarted,
        hleftBalance]
      simp [ContractRun.ownSent, hinvocation]

/-- A run that did not fail has a contract. -/
theorem outcome_contract (hmessage : (run.outcome F tx behaviour).message = none) :
    ∃ contract, (run.outcome F tx behaviour).contract = some contract := by
  obtain ⟨hmessage, -⟩ := message_checkCoinsUsed hmessage
  rw [ContractRun.outcome, contract_checkCoinsUsed]
  cases execContract_cases F tx behaviour run with
  | notCreated _ _ _ hfailed => exact absurd hmessage hfailed
  | created _ contract hcreated _ _ _ _ => exact ⟨contract, hcreated⟩
  | refused _ _ _ _ hexec => exact ⟨_, by rw [hexec]⟩
  | invoked _ started s _ _ _ _ _ hexec =>
      obtain ⟨-, left, hleft, -⟩ := endInvocation_spec (F := F) (started.getDataSize F)
        (runCode F run.env behaviour.method started s)
      exact ⟨left, hexec ▸ hleft⟩

theorem contractToStore_some {o : ContractOutcome} {contract : Contract}
    (h : contractToStore F node o = some contract) :
    o.message = none ∧ ∃ found, o.contract = some found ∧
      contract.strAddress = found.strAddress ∧ contract.balance = found.balance := by
  unfold contractToStore at h
  split at h
  next hmessage =>
    obtain ⟨found, hfound, rfl⟩ := Option.map_eq_some_iff.mp h
    refine ⟨hmessage, found, hfound, ?_⟩
    cases node.isTimeToForkSerializer3 F <;> simp
  next => cases h

theorem storeContract_eq (tx : Transaction) (contract : Contract) (patch : PatchDB) :
    ∃ stored, storeContract F tx contract patch = patch.setContract F stored ∧
      stored.strAddress = contract.strAddress ∧
      stored.balance = contract.balance + tx.getContractSentAmount := by
  refine ⟨_, rfl, ?_, ?_⟩ <;>
  · unfold Contract.deposit
    split <;> rfl

theorem storeOutcome_coins (F : Factory) (node : NodeView) (tx : Transaction) (o : ContractOutcome)
    (patch : PatchDB) :
    (storeOutcome F node tx o patch).coins = patch.coins ∧
      (storeOutcome F node tx o patch).nonce = patch.nonce := by
  unfold storeOutcome
  split <;> exact ⟨rfl, rfl⟩

/-- A contract that is kept is stored with what it had, less what it sent, and with
what was sent to it. -/
theorem storeContract_worth (h : txRun F node patchForBlock false tx = .ok run)
    (hnew : (patchForBlock.getD PatchDB.empty).getContract (F.contractAddress (tx.hash F)) = none) (spentHashes : List Hash) (behaviour : Behaviour)
    (patch : PatchDB) (hcontracts : patch.mapContractStates =
      (run.outcome F tx behaviour).state.patchTx.mapContractStates) :
    worth run.env spentHashes (storeOutcome F node tx (run.outcome F tx behaviour) patch) =
      worth run.env spentHashes patch +
        if run.kept F tx behaviour then
          (tx.getContractSentAmount : Amount) - run.ownSent F tx behaviour
        else 0 := by
  unfold storeOutcome
  cases hstore : contractToStore F node (run.outcome F tx behaviour) with
  | none =>
      have hkept : run.kept F tx behaviour = false := by
        cases hmessage : (run.outcome F tx behaviour).message with
        | some message => simp [ContractRun.kept, hmessage]
        | none =>
            obtain ⟨contract, hcontract⟩ := outcome_contract hmessage
            simp [contractToStore, hmessage, hcontract] at hstore
      simp [hkept]
  | some contract =>
      obtain ⟨hmessage, found, hfound, haddress, hbalance⟩ := contractToStore_some hstore
      have hprevious := outcome_balance h hnew hmessage hfound
      have hget : patch.getContract found.strAddress =
          (run.outcome F tx behaviour).state.patchTx.getContract found.strAddress := by
        rw [PatchDB.getContract, hcontracts]
        rfl
      have hkept : run.kept F tx behaviour = (patch.getContract found.strAddress).isNone := by
        simp [ContractRun.kept, hmessage, hfound, hget]
      obtain ⟨stored, hset, hstoredAddress, hstoredBalance⟩ :=
        storeContract_eq (F := F) tx contract patch
      simp only [hset, worth_setContract, hkept, hstoredAddress, hstoredBalance, haddress, hbalance]
      cases hrecorded : patch.getContract found.strAddress with
      | none =>
          simp [hprevious]
          ring
      | some recorded => simp

/-- The change: what is not used is given to the change receiver. Without one, it is
the fee, and what is used is lost. -/
theorem createContractChange_worth {E : RunEnv} {spentHashes : List Hash} {coins fee : Amount}
    {patch patch' : PatchDB} {receipt : TxReceipt} {bInPatch : Bool}
    (hspent : F.internalHash (tx.hash F) patch.nonce ∉ spentHashes)
    (hunused : patch.getUtxo (F.internalHash (tx.hash F) patch.nonce) = none)
    (h : createContractChange F tx coins patch receipt bInPatch = .ok (fee, patch')) :
    worth E spentHashes patch' + fee = worth E spentHashes patch + coins -
      if tx.getContractChangeReceiver = none then receipt.coinsUsed else 0 := by
  obtain ⟨hnone, rfl, rfl⟩ | ⟨receiver, hreceiver, rfl, hchange⟩ := createContractChange_ok h
  · rw [if_pos hnone]
    ring
  · rw [hreceiver, if_neg (by simp), sub_zero]
    obtain ⟨hzero, rfl⟩ | ⟨-, rfl⟩ := hchange
    · linarith
    · have hcreated := createdCoins_setUtxo patch ⟨coins - receipt.coinsUsed, receiver⟩ hspent
        hunused
      rw [worth, worth, contractsDelta]
      rw [createdCoins, PatchDB.setUtxo] at hcreated
      rw [createdCoins, hcreated, contractsDelta]
      ring

theorem maxFee_eq (F : Factory) (node : NodeView) (tx : Transaction) (behaviour : Behaviour)
    (run : ContractRun) :
    maxFee F node tx run.nMaxCoins (run.outcome F tx behaviour) =
      run.nMaxCoins + if run.returned F node tx behaviour then (tx.getContractSentAmount : Amount)
        else 0 := by
  by_cases hsent : tx.getContractSentAmount > 0
  · have hiff : ((run.outcome F tx behaviour).contract.isSome ∧
        (run.outcome F tx behaviour).message ≠ none ∧ tx.getContractSentAmount > 0 ∧
          node.isTimeToForkSerializer1 F) ↔ run.returned F node tx behaviour = true := by
      simp only [ContractRun.returned, hsent, true_and, Bool.and_eq_true, ne_eq,
        Option.isSome_iff_ne_none]
      tauto
    simp only [maxFee, hiff]
    split <;> simp
  · simp [maxFee, Nat.eq_zero_of_not_pos hsent]

theorem returned_of_kept (hkept : run.kept F tx behaviour = true) :
    run.returned F node tx behaviour = false := by
  simp only [ContractRun.kept, Bool.and_eq_true, Option.isNone_iff_eq_none] at hkept
  simp [ContractRun.returned, hkept.1]

/-- The part of `_processContract` after the contract has stopped. -/
theorem settleContract_worth (hrun : txRun F node patchForBlock false tx = .ok run)
    (hnew : (patchForBlock.getD PatchDB.empty).getContract (F.contractAddress (tx.hash F)) = none) {fee used : Amount} {patch' : PatchDB}
    (hspent : ∀ n, F.internalHash (tx.hash F) n ∉ tx.utxos)
    (hready : (run.outcome F tx behaviour).state.patchTx.Ready F (tx.hash F))
    (h : settleContract F node false tx run.nMaxCoins used (run.outcome F tx behaviour) =
      .ok (fee, patch')) :
    worth run.env tx.utxos patch' + fee =
      worth run.env tx.utxos (run.outcome F tx behaviour).state.patchTx +
        (if run.kept F tx behaviour then
          (tx.getContractSentAmount : Amount) - run.ownSent F tx behaviour
        else 0) +
        maxFee F node tx run.nMaxCoins (run.outcome F tx behaviour) -
        if tx.getContractChangeReceiver = none ∧
            used ≤ maxFee F node tx run.nMaxCoins (run.outcome F tx behaviour) then
          used
        else 0 := by
  obtain ⟨stored, -, hcases⟩ := settleContract_ok h
  have hstore : worth run.env tx.utxos
      (settledPatch F node tx (run.outcome F tx behaviour) stored) =
        worth run.env tx.utxos (run.outcome F tx behaviour).state.patchTx + _ :=
    storeContract_worth hrun hnew tx.utxos behaviour _ rfl
  obtain ⟨hcoins, hnonce⟩ := storeOutcome_coins F node tx (run.outcome F tx behaviour)
    { (run.outcome F tx behaviour).state.patchTx with
      mapTxReceipts := (run.outcome F tx behaviour).state.patchTx.mapTxReceipts.insert (tx.hash F)
        stored }
  obtain ⟨hgenesis, -⟩ | ⟨-, hused, rfl, rfl⟩ | ⟨-, hused, hchange⟩ := hcases
  · cases hgenesis
  · have hnot : ¬ (tx.getContractChangeReceiver = none ∧
        used ≤ maxFee F node tx run.nMaxCoins (run.outcome F tx behaviour)) :=
      fun hle => absurd hused (not_lt.mpr hle.2)
    rw [if_neg hnot, sub_zero, hstore]
  · have hunused : (settledPatch F node tx (run.outcome F tx behaviour) stored).getUtxo
        (F.internalHash (tx.hash F)
          (settledPatch F node tx (run.outcome F tx behaviour) stored).nonce) = none := by
      rw [PatchDB.getUtxo, settledPatch, hcoins, hnonce]
      exact hready.unused _ le_rfl
    rw [createContractChange_worth (hspent _) hunused hchange, hstore]
    simp only [coinsUsed_receiptOf, hused, and_true]

/-- **The accounts of a contract transaction.** Nothing else unbalances them than the
coins that stray and the coins that are lost. -/
theorem processTx_accounts {fee : Amount} {patchThisTx : PatchDB}
    (hrun : txRun F node patchForBlock false tx = .ok run)
    (hok : processTx F node patchForBlock false tx behaviour = .ok (fee, patchThisTx))
    (hfresh : FreshHashes F tx)
    (hnew : (patchForBlock.getD PatchDB.empty).getContract (F.contractAddress (tx.hash F)) = none) :
    createdCoins tx.utxos patchThisTx +
        contractsDelta node.storage (patchForBlock.getD PatchDB.empty) patchThisTx + fee =
      spentCoins F node patchForBlock tx + run.strayed F tx behaviour -
        run.lost F node tx behaviour := by
  obtain ⟨prepared, contract, hprepared, hcontract, hof, hprocess⟩ := txRun_ok hrun
  obtain ⟨hcoins, hspentCoins⟩ := prepareTx_coins hprepared
  have hspent (n : Nat) : F.internalHash (tx.hash F) n ∉ tx.utxos := fun hmem =>
    hfresh.internal_fresh n (List.mem_cons_of_mem _ hmem)
  have hinj : Function.Injective (F.internalHash run.env.strTxHash) :=
    hof.strTxHash ▸ hfresh.internal_injective
  have hready : run.patchThisTx.Ready F run.env.strTxHash := by
    rw [hof.patchThisTx, hof.strTxHash]
    exact hcoins.ready hfresh
  have hexec := execContract_worth tx behaviour hinj (hof.strTxHash ▸ hspent) hready
  rw [hprocess] at hok
  have hstopped : (run.outcome F tx behaviour).state.patchTx.Ready F (tx.hash F) := by
    rw [outcome_patchTx tx behaviour hinj hready, ← hof.strTxHash]
    exact Effect.ready_replay hinj _ hready
  have hsettled := settleContract_worth hrun hnew hspent hstopped hok
  have hstart : worth run.env tx.utxos run.patchThisTx = createdCoins tx.utxos run.patchThisTx := by
    rw [worth, contractsDelta, hof.patchThisTx, hcoins.contracts, FinMap.total_empty, add_zero]
  have hspentHere := hspentCoins rfl hfresh.hash_fresh
  rw [hcontract, Option.isSome_some, if_pos rfl, ← hof.nMaxCoins, ← hof.patchThisTx] at hspentHere
  rw [maxFee_eq, ContractRun.outcome, state_checkCoinsUsed, hexec, hstart, worth, hof.storage,
    hof.patchBlock] at hsettled
  rw [hspentHere, ContractRun.strayed, ContractRun.lost, maxFee_eq]
  cases hkept : run.kept F tx behaviour with
  | true =>
      simp only [hkept, returned_of_kept hkept, Bool.true_or, if_true, Bool.false_eq_true,
        if_false] at hsettled ⊢
      linarith
  | false =>
      cases hreturned : run.returned F node tx behaviour <;>
        simp only [hkept, hreturned, Bool.false_or, if_true, Bool.false_eq_true,
          if_false] at hsettled ⊢ <;>
        linarith

/-- The coins of the inputs are the coins of the new UTXOs, what the contracts have
gained, and the fee. -/
def Conserves (F : Factory) (node : NodeView) (patchForBlock : Option PatchDB) (tx : Transaction)
    (fee : Amount) (patchThisTx : PatchDB) : Prop :=
  spentCoins F node patchForBlock tx = createdCoins tx.utxos patchThisTx +
    contractsDelta node.storage (patchForBlock.getD PatchDB.empty) patchThisTx + fee

instance (F : Factory) (node : NodeView) (patchForBlock : Option PatchDB) (tx : Transaction)
    (fee : Amount) (patchThisTx : PatchDB) :
    Decidable (Conserves F node patchForBlock tx fee patchThisTx) :=
  inferInstanceAs (Decidable (_ = _))

/-- No coins come from nothing and none are lost if every nested call that took
something from its contract's balance returned and was the first to be stored, the
contract of the transaction is kept, or what was sent to it returned and it sent
nothing, and there is a change receiver. -/
theorem processTx_conserves {fee : Amount} {patchThisTx : PatchDB}
    (hrun : txRun F node patchForBlock false tx = .ok run)
    (hok : processTx F node patchForBlock false tx behaviour = .ok (fee, patchThisTx))
    (hfresh : FreshHashes F tx)
    (hnew : (patchForBlock.getD PatchDB.empty).getContract (F.contractAddress (tx.hash F)) = none)
    (hcalls : ∀ call ∈ run.calls F tx behaviour, call.strayed = 0)
    (hkept : run.kept F tx behaviour = true ∨
      run.returned F node tx behaviour = true ∧ run.ownSent F tx behaviour = 0)
    (hreceiver : tx.getContractChangeReceiver ≠ none) :
    Conserves F node patchForBlock tx fee patchThisTx := by
  have haccounts := processTx_accounts hrun hok hfresh hnew
  have hcallsSum : ((run.calls F tx behaviour).map (·.strayed)).sum = 0 :=
    List.sum_eq_zero fun amount hamount => by
      obtain ⟨call, hcall, rfl⟩ := List.mem_map.mp hamount
      exact hcalls call hcall
  have hstrayed : run.strayed F tx behaviour = 0 := by
    rw [ContractRun.strayed, hcallsSum, zero_add]
    obtain hkept | ⟨-, hown⟩ := hkept
    · rw [if_pos hkept]
    · rw [hown, ite_self]
  have hlost : run.lost F node tx behaviour = 0 := by
    have hany : (run.kept F tx behaviour || run.returned F node tx behaviour) = true := by
      obtain hkept | ⟨hreturned, -⟩ := hkept
      · rw [hkept, Bool.true_or]
      · rw [hreturned, Bool.or_true]
    rw [ContractRun.lost, if_pos hany, if_neg (fun h => hreceiver h.1), add_zero]
  rw [Conserves]
  linarith

end Accounts

section Sample

/-- A contract without data. -/
def sampleContract : Contract where
  strAddress := 77
  conciliumId := some 0
  balance := 500
  version := .CONTRACT_V_JSON
  contractData := some Contract.emptyData

/-- A node that has one coin and the contract. -/
def sampleNode : NodeView where
  storage := {
    utxos := (∅ : FinMap Hash UTXO).insert 5 ((∅ : UTXO).insert 0 ⟨100000, 3⟩)
    contracts := (∅ : FinMap Address Contract).insert 77 sampleContract }
  processedHeight := none

/-- A transaction that invokes the contract with that coin. -/
def sampleTx (addrChangeReceiver : Option Address) : Transaction :=
  let payload : TransactionPayload := {
    conciliumId := 0
    ins := [⟨5, 0⟩]
    outs := [{ amount := 1000, receiverAddr := 77, addrChangeReceiver }] }
  { payload, claimProofs := [Factory.sample.payloadHash payload * 1000 + 3] }

theorem freshHashes_sampleTx (addrChangeReceiver : Option Address) :
    FreshHashes Factory.sample (sampleTx addrChangeReceiver) where
  internal_injective := Factory.internalHash_sample_injective _
  internal_fresh n hmem := by
    obtain ⟨hhash, hseven⟩ := Factory.lt_internalHash_sample
      ((sampleTx addrChangeReceiver).hash Factory.sample) n
    rcases List.mem_cons.mp hmem with hself | hinput
    · exact absurd hself hhash.ne'
    · rw [List.mem_singleton.mp hinput] at hseven
      exact absurd hseven (by decide)
  hash_fresh hmem := by
    have hseven : 7 ≤ (sampleTx addrChangeReceiver).hash Factory.sample := Factory.le_code _
    rw [List.mem_singleton.mp hmem] at hseven
    exact absurd hseven (by decide)

/-- A method that sends and then throws: the coins sent are not taken from any balance. -/
example : (processTx Factory.sample sampleNode none false (sampleTx (some 3))
    ⟨.error "", .send (some 9) 200 fun _ => .throws "Boom"⟩).toOption.any
      (fun r => decide (Conserves Factory.sample sampleNode none (sampleTx (some 3)) r.1 r.2)) =
    false := by decide +kernel

end Sample

end CilCore
