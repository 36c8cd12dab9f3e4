import CilCore.Node.ContractAccounting

/-!
# What a failed contract leaves behind

Requests of a contract write into the patch of its transaction at once, and a
failure undoes none of it. This module says for which runs nothing had been
written, so that a failure is clean.
-/

namespace CilCore

/-- The next internal transaction makes one more entry among the coins. -/
theorem PatchDB.Ready.card_insert {F : Factory} {strTxHash : Hash} {patch : PatchDB}
    (h : patch.Ready F strTxHash) (utxo : UTXO) :
    (Finmap.keys (patch.coins.insert (F.internalHash strTxHash patch.nonce) utxo)).card =
      patch.coins.keys.card + 1 := by
  rw [FinMap.keys_insert,
    Finset.card_insert_of_notMem (FinMap.notMem_keys_iff.mpr (h.unused _ le_rfl))]

namespace Effect

/-- The contract that a list of effects stores last under an address. -/
def lastStored (contractAddr : Address) (effects : List Effect) : Option Contract :=
  effects.foldl (fun found effect =>
    match effect with
    | .sent _ _ => found
    | .stored contract => if contract.strAddress = contractAddr then some contract else found) none

/-- The number of sends. -/
def countSent (effects : List Effect) : Nat :=
  effects.countP fun effect =>
    match effect with
    | .sent _ _ => true
    | .stored _ => false

variable {F : Factory} {strTxHash : Hash}

/-- Every send makes one more entry among the coins of the patch. -/
theorem card_coins_replay (hinj : Function.Injective (F.internalHash strTxHash))
    (effects : List Effect) {patch : PatchDB} (h : patch.Ready F strTxHash) :
    (replay F strTxHash effects patch).coins.keys.card =
      patch.coins.keys.card + countSent effects := by
  induction effects generalizing patch with
  | nil => rfl
  | cons effect effects ih =>
      cases effect with
      | sent strAddress amount =>
          have hcard : (patch.afterSend F strTxHash strAddress amount).coins.keys.card =
              patch.coins.keys.card + 1 := h.card_insert _
          have hrest := ih (h.afterSend hinj strAddress amount)
          rw [hcard] at hrest
          refine hrest.trans ?_
          simp [countSent]
          omega
      | stored contract =>
          refine (ih (h.setContract contract)).trans ?_
          simp [countSent, PatchDB.setContract]

theorem lastStored_append (contractAddr : Address) (effects : List Effect) (contract : Contract) :
    lastStored contractAddr (effects ++ [.stored contract]) =
      if contract.strAddress = contractAddr then some contract
      else lastStored contractAddr effects := by
  simp [lastStored]

theorem lastStored_append_sent (contractAddr : Address) (effects : List Effect)
    (strAddress : Address) (amount : Amount) :
    lastStored contractAddr (effects ++ [.sent strAddress amount]) =
      lastStored contractAddr effects := by
  simp [lastStored]

/-- The contract that is left under an address: untouched if no effect stores it there,
and otherwise with the data stored last and the balance it was stored with first. -/
theorem getContract_replay (F : Factory) (strTxHash : Hash) (effects : List Effect) (patch : PatchDB) (contractAddr : Address) :
    (lastStored contractAddr effects = none →
      (replay F strTxHash effects patch).getContract contractAddr =
        patch.getContract contractAddr) ∧
    ∀ contract, lastStored contractAddr effects = some contract →
      ∃ left, (replay F strTxHash effects patch).getContract contractAddr = some left ∧
        left.data F = contract.data F ∧
        ∀ old, patch.getContract contractAddr = some old →
          left.balance = old.balance ∧ left.conciliumId = old.conciliumId := by
  induction effects using List.reverseRecOn with
  | nil => exact ⟨fun _ => rfl, fun contract h => by cases h⟩
  | append_singleton effects effect ih =>
      rw [replay_append]
      cases effect with
      | sent strAddress amount =>
          rw [lastStored_append_sent]
          exact ih
      | stored stored =>
          rw [lastStored_append]
          by_cases haddress : stored.strAddress = contractAddr
          · rw [if_pos haddress]
            refine ⟨(fun h => by cases h), fun contract h => ?_⟩
            obtain rfl := Option.some.inj h
            subst haddress
            have hafter : (replay F strTxHash [.stored stored]
                (replay F strTxHash effects patch)).getContract stored.strAddress =
                some ((replay F strTxHash effects patch).recordedContract F stored) := by
              simp [replay, apply, PatchDB.setContract, PatchDB.getContract]
            refine ⟨_, hafter, ?_, fun old hold => ?_⟩
            · unfold PatchDB.recordedContract
              split <;> rfl
            · cases hlast : lastStored stored.strAddress effects with
              | none =>
                  have hfound := (ih.1 hlast).trans hold
                  rw [PatchDB.recordedContract, hfound]
                  exact ⟨rfl, rfl⟩
              | some previous =>
                  obtain ⟨left, hfound, -, hleft⟩ := ih.2 previous hlast
                  rw [PatchDB.recordedContract, hfound]
                  exact hleft old hold
          · rw [if_neg haddress]
            have hsame : (replay F strTxHash [.stored stored]
                (replay F strTxHash effects patch)).getContract contractAddr =
                (replay F strTxHash effects patch).getContract contractAddr := by
              simp [replay, apply, PatchDB.setContract, PatchDB.getContract,
                Ne.symm haddress]
            rw [hsame]
            exact ih

theorem lastStored_stored {contract : Contract} {effects : List Effect}
    (hmem : .stored contract ∈ effects) : lastStored contract.strAddress effects ≠ none := by
  induction effects using List.reverseRecOn with
  | nil => simp at hmem
  | append_singleton effects effect ih =>
      rw [List.mem_append, List.mem_singleton] at hmem
      obtain hmem | rfl := hmem
      · cases effect with
        | sent strAddress amount =>
            rw [lastStored_append_sent]
            exact ih hmem
        | stored stored =>
            rw [lastStored_append]
            split
            next => simp
            next => exact ih hmem
      · simp [lastStored_append]

/-- A patch that has no contracts after some effects has been told to store none. -/
theorem stored_notMem_of_replay {effects : List Effect} {patch : PatchDB}
    (h : (replay F strTxHash effects patch).mapContractStates = ∅) (contract : Contract) :
    .stored contract ∉ effects := by
  intro hmem
  obtain ⟨last, hlast⟩ := Option.ne_none_iff_exists'.mp (lastStored_stored hmem)
  obtain ⟨left, hleft, -⟩ :=
    (getContract_replay F strTxHash effects patch _).2 last hlast
  rw [PatchDB.getContract, h, Finmap.lookup_empty] at hleft
  cases hleft

/-- Effects without sends change nothing but the contracts. -/
theorem replay_of_no_send (strTxHash : Hash) {effects : List Effect} (patch : PatchDB)
    (h : ∀ strAddress amount, .sent strAddress amount ∉ effects) :
    (replay F strTxHash effects patch).coins = patch.coins ∧
      (replay F strTxHash effects patch).mapSpentUtxos = patch.mapSpentUtxos ∧
      (replay F strTxHash effects patch).mapTxReceipts = patch.mapTxReceipts := by
  induction effects generalizing patch with
  | nil => exact ⟨rfl, rfl, rfl⟩
  | cons effect effects ih =>
      have hrest (strAddress : Address) (amount : Amount) : .sent strAddress amount ∉ effects :=
        fun hmem => h strAddress amount (List.mem_cons_of_mem _ hmem)
      cases effect with
      | sent strAddress amount => exact absurd List.mem_cons_self (h strAddress amount)
      | stored contract => exact ih (patch.setContract F contract) hrest

theorem countSent_eq_zero {effects : List Effect} :
    countSent effects = 0 ↔ ∀ strAddress amount, .sent strAddress amount ∉ effects := by
  rw [countSent, List.countP_eq_zero]
  constructor
  · intro h strAddress amount hmem
    simpa using h _ hmem
  · intro h effect hmem
    cases effect with
    | sent strAddress amount => exact absurd hmem (h strAddress amount)
    | stored contract => simp

end Effect

/-! ### The contract of a transaction fails -/

/-- The change that a transaction gets back, given its fee. -/
def changeOf (isGenesis : Bool) (tx : Transaction) (maxFee fee : Amount) : Option Coins :=
  if isGenesis ∨ maxFee - fee = 0 then none
  else tx.getContractChangeReceiver.map fun receiver => ⟨maxFee - fee, receiver⟩

/-- A patch differs from an earlier one only by the receipt of the transaction and by
the change. -/
structure OnlyReceiptAndChange (F : Factory) (strTxHash : Hash) (change : Option Coins)
    (before after : PatchDB) : Prop where
  coins : after.coins = change.elim before.coins fun coins =>
    before.coins.insert (F.internalHash strTxHash before.nonce) ((∅ : UTXO).insert 0 coins)
  mapSpentUtxos : after.mapSpentUtxos = before.mapSpentUtxos
  mapConciliumLevel : after.mapConciliumLevel = before.mapConciliumLevel
  conciliumId : after.conciliumId = before.conciliumId
  mapContractStates : after.mapContractStates = before.mapContractStates
  receipts : ∃ receipt, after.mapTxReceipts = before.mapTxReceipts.insert strTxHash receipt

section Failure

variable {F : Factory} {node : NodeView} {isGenesis : Bool} {tx : Transaction}

/-- Settling a contract that failed adds the receipt and the change. -/
theorem settleContract_failed {nMaxCoins used fee : Amount} {o : ContractOutcome}
    {patch : PatchDB} (hfailed : o.message ≠ none)
    (h : settleContract F node isGenesis tx nMaxCoins used o = .ok (fee, patch)) :
    OnlyReceiptAndChange F (tx.hash F) (changeOf isGenesis tx (maxFee F node tx nMaxCoins o) fee)
      o.state.patchTx patch := by
  have hsettled (stored : TxReceipt) : settledPatch F node tx o stored = { o.state.patchTx with
      mapTxReceipts := o.state.patchTx.mapTxReceipts.insert (tx.hash F) stored } := by
    rw [settledPatch, storeOutcome, contractToStore, if_neg hfailed]
  obtain ⟨stored, -, ⟨rfl, rfl, rfl⟩ | ⟨rfl, -, rfl, rfl⟩ | ⟨rfl, -, hchange⟩⟩ :=
    settleContract_ok h
  · exact hsettled stored ▸ ⟨by simp [changeOf], rfl, rfl, rfl, rfl, stored, rfl⟩
  · exact hsettled stored ▸ ⟨by simp [changeOf], rfl, rfl, rfl, rfl, stored, rfl⟩
  · rw [hsettled] at hchange
    obtain ⟨hnone, rfl, rfl⟩ | ⟨receiver, hreceiver, rfl, ⟨hzero, rfl⟩ | ⟨hpos, rfl⟩⟩ :=
      createContractChange_ok hchange
    · exact ⟨by simp [changeOf, hnone], rfl, rfl, rfl, rfl, stored, rfl⟩
    · rw [coinsUsed_receiptOf] at hzero
      exact ⟨by simp [changeOf, hzero], rfl, rfl, rfl, rfl, stored, rfl⟩
    · rw [coinsUsed_receiptOf] at hpos
      refine ⟨by simp [changeOf, ne_of_gt hpos, hreceiver], rfl, rfl, rfl, rfl, ?_⟩
      cases (o.state.patchTx.getReceipt (tx.hash F)).isNone with
      | true => exact ⟨_, Finmap.insert_insert _⟩
      | false => exact ⟨stored, rfl⟩

theorem getReceipt_settledPatch (F : Factory) (node : NodeView) (tx : Transaction)
    (o : ContractOutcome) (stored : TxReceipt) :
    (settledPatch F node tx o stored).getReceipt (tx.hash F) = some stored := by
  unfold settledPatch storeOutcome
  split <;> exact Finmap.lookup_insert _

/-- The receipt that a transaction ends with tells whether its contract failed. -/
theorem settleContract_status {nMaxCoins used fee : Amount} {o : ContractOutcome}
    {patch : PatchDB} (hready : o.state.patchTx.Ready F (tx.hash F))
    (h : settleContract F node isGenesis tx nMaxCoins used o = .ok (fee, patch)) :
    ∃ receipt, patch.getReceipt (tx.hash F) = some receipt ∧
      (receipt.status = .TX_STATUS_FAILED ↔ o.message ≠ none) := by
  obtain ⟨stored, hreceipt, hcases⟩ := settleContract_ok h
  have hstored : stored.status = .TX_STATUS_FAILED ↔ o.message ≠ none := by
    have hstatus : stored.status = (receiptOf o used).status := by
      obtain ⟨-, rfl⟩ | ⟨old, hold, hmerge⟩ := hreceipt
      · rfl
      · exact TxReceipt.status_merge hmerge (hready.receipt old hold).1
    rw [hstatus, status_receiptOf]
    split <;> simp [*]
  have hsettled := getReceipt_settledPatch F node tx o stored
  obtain ⟨-, -, rfl⟩ | ⟨-, -, -, rfl⟩ | ⟨-, -, hchange⟩ := hcases
  · exact ⟨stored, hsettled, hstored⟩
  · exact ⟨stored, hsettled, hstored⟩
  · obtain ⟨-, -, rfl⟩ | ⟨receiver, -, -, ⟨-, rfl⟩ | ⟨-, rfl⟩⟩ := createContractChange_ok hchange
    · exact ⟨stored, hsettled, hstored⟩
    · exact ⟨stored, hsettled, hstored⟩
    · cases (o.state.patchTx.getReceipt (tx.hash F)).isNone with
      | true =>
          refine ⟨_, Finmap.lookup_insert _, ?_⟩
          simp [TxReceipt.addInternalUtxo]
      | false => exact ⟨stored, hsettled, hstored⟩

/-- A failed receipt means that nothing but that receipt and the change is left. -/
def FailsCleanly (F : Factory) (node : NodeView) (isGenesis : Bool) (tx : Transaction)
    (behaviour : Behaviour) (run : ContractRun) (fee : Amount) (patchThisTx : PatchDB) : Prop :=
  (∃ receipt, patchThisTx.getReceipt (tx.hash F) = some receipt ∧
      receipt.status = .TX_STATUS_FAILED) →
    OnlyReceiptAndChange F (tx.hash F)
      (changeOf isGenesis tx (maxFee F node tx run.nMaxCoins (run.outcome F tx behaviour)) fee)
      run.patchThisTx patchThisTx

variable {patchForBlock : Option PatchDB} {behaviour : Behaviour} {run : ContractRun}
  {fee : Amount} {patchThisTx : PatchDB}

/-- What only a receipt and the change are added to is as it was exactly if no effects
came before. -/
theorem onlyReceiptAndChange_replay_iff {change : Option Coins} {before after : PatchDB}
    {strTxHash : Hash} (hinj : Function.Injective (F.internalHash strTxHash))
    (hready : before.Ready F strTxHash) (hcontracts : before.mapContractStates = ∅)
    {effects : List Effect}
    (h : OnlyReceiptAndChange F strTxHash change (Effect.replay F strTxHash effects before) after) :
    OnlyReceiptAndChange F strTxHash change before after ↔ effects = [] := by
  constructor
  · intro hclean
    have hstored (contract : Contract) : .stored contract ∉ effects :=
      Effect.stored_notMem_of_replay
        (h.mapContractStates.symm.trans (hclean.mapContractStates.trans hcontracts)) contract
    have hcard : (Effect.replay F strTxHash effects before).coins.keys.card =
        before.coins.keys.card := by
      have hcoins := h.coins.symm.trans hclean.coins
      cases change with
      | none => exact congrArg (fun coins : FinMap Hash UTXO => coins.keys.card) hcoins
      | some coins =>
          have hstopped := (Effect.ready_replay hinj effects hready).card_insert
            ((∅ : UTXO).insert 0 coins)
          have hbefore := hready.card_insert ((∅ : UTXO).insert 0 coins)
          rw [Option.elim_some, Option.elim_some] at hcoins
          rw [hcoins] at hstopped
          omega
    rw [Effect.card_coins_replay hinj effects hready] at hcard
    have hsent := Effect.countSent_eq_zero.mp (Nat.left_eq_add.mp hcard.symm)
    refine List.eq_nil_iff_forall_not_mem.mpr fun effect hmem => ?_
    cases effect with
    | sent strAddress amount => exact hsent strAddress amount hmem
    | stored contract => exact hstored contract hmem
  · rintro rfl
    exact h

/-- **When a failed contract leaves nothing behind.** -/
theorem failsCleanly_iff (hrun : txRun F node patchForBlock isGenesis tx = .ok run)
    (hok : processTx F node patchForBlock isGenesis tx behaviour = .ok (fee, patchThisTx))
    (hfresh : FreshHashes F tx) :
    FailsCleanly F node isGenesis tx behaviour run fee patchThisTx ↔
      ((run.outcome F tx behaviour).message ≠ none → run.journal F tx behaviour = []) := by
  obtain ⟨prepared, contract, hprepared, -, hof, hprocess⟩ := txRun_ok hrun
  obtain ⟨hcoins, -⟩ := prepareTx_coins hprepared
  rw [← hof.patchThisTx] at hcoins
  have hinj : Function.Injective (F.internalHash run.env.strTxHash) :=
    hof.strTxHash ▸ hfresh.internal_injective
  have hready : run.patchThisTx.Ready F run.env.strTxHash := hof.strTxHash ▸ hcoins.ready hfresh
  have hpatch := outcome_patchTx tx behaviour hinj hready
  rw [hprocess] at hok
  have hstopped : (run.outcome F tx behaviour).state.patchTx.Ready F (tx.hash F) := by
    rw [hpatch, ← hof.strTxHash]
    exact Effect.ready_replay hinj _ hready
  obtain ⟨receipt, hreceipt, hstatus⟩ := settleContract_status hstopped hok
  have hfailed : (∃ receipt, patchThisTx.getReceipt (tx.hash F) = some receipt ∧
      receipt.status = .TX_STATUS_FAILED) ↔ (run.outcome F tx behaviour).message ≠ none := by
    simp only [hreceipt, Option.some.injEq, exists_eq_left']
    exact hstatus
  rw [FailsCleanly, hfailed]
  refine forall_congr' fun hmessage => ?_
  have hsettled := settleContract_failed hmessage hok
  rw [hpatch] at hsettled
  rw [← hof.strTxHash] at hsettled ⊢
  exact onlyReceiptAndChange_replay_iff hinj hready hcoins.contracts hsettled

end Failure

/-! ### A nested call throws -/

/-- What a contract is to others: its data, its balance and its concilium. -/
def Contract.state (F : Factory) (contract : Contract) : Data × Amount × Option Nat :=
  (contract.data F, contract.balance, contract.conciliumId)

namespace CallRecord

/-- The call threw. -/
def Failed (call : CallRecord) : Prop := call.reply.2.2.isSome

/-- The patch of the transaction, the states of its contracts and the balance of the
caller are what they were before the call. -/
structure Undone (F : Factory) (call : CallRecord) : Prop where
  coins : call.reply.1.patchTx.coins = call.before.patchTx.coins
  mapSpentUtxos : call.reply.1.patchTx.mapSpentUtxos = call.before.patchTx.mapSpentUtxos
  mapTxReceipts : call.reply.1.patchTx.mapTxReceipts = call.before.patchTx.mapTxReceipts
  contracts : ∀ contractAddr,
    (call.reply.1.patchTx.getContract contractAddr).map (Contract.state F) =
      (call.before.patchTx.getContract contractAddr).map (Contract.state F)
  balance : call.reply.2.1.balance = call.caller.balance

/-- No coins were sent before the method of the call stopped, and every contract that
was stored was there before, with the data that was stored last. -/
structure Harmless (F : Factory) (call : CallRecord) : Prop where
  no_send : ∀ strAddress amount, .sent strAddress amount ∉ call.effects
  same_data : ∀ contractAddr contract, Effect.lastStored contractAddr call.effects = some contract →
    ∃ old, call.before.patchTx.getContract contractAddr = some old ∧ old.data F = contract.data F

/-- What is true of every call that is made. -/
structure Sound (F : Factory) (E : RunEnv) (call : CallRecord) : Prop where
  ready : call.before.patchTx.Ready F E.strTxHash
  failed : call.Failed → call.reply.1.patchTx =
    Effect.replay F E.strTxHash call.effects call.before.patchTx
  balance : (∀ strAddress amount, .sent strAddress amount ∉ call.effects) →
    call.reply.2.1.balance = call.caller.balance

end CallRecord

section NestedFailure

variable {F : Factory} {E : RunEnv}

/-- A method that sends nothing leaves the balance it could spend alone. -/
theorem runCode_balance (hinj : Function.Injective (F.internalHash E.strTxHash)) (code : Code)
    (holder : Contract) (s : RunState) (h : s.patchTx.Ready F E.strTxHash)
    (hsend : ∀ strAddress amount, .sent strAddress amount ∉ journal F E code holder s) :
    (runCode F E code holder s).2.1.balance = holder.balance := by
  induction code generalizing holder s with
  | done data => rfl
  | throws message => rfl
  | send strAddress amount k ih =>
      rw [journal] at hsend
      rw [runCode]
      rcases send_cases strAddress amount holder h with
        ⟨hpatch, hholder, -⟩ | ⟨receiver, -, -, -, -, heffects⟩
      · rw [ih _ _ _ (hpatch ▸ h) fun strAddress amount hmem =>
          hsend strAddress amount (List.mem_append_right _ hmem), hholder]
      · rw [heffects] at hsend
        exact absurd (List.mem_append_left _ (List.mem_singleton_self _)) (hsend receiver amount)
  | call delegate strAddress coinsToPass callee k ihcallee ihk =>
      cases hstart : startCall F E strAddress coinsToPass s with
      | error error =>
          simp only [runCode, journal, hstart] at hsend ⊢
          exact ihk _ _ _ h hsend
      | ok started =>
          obtain ⟨nested, nCoinsLimit⟩ := started
          simp only [runCode, journal, hstart] at hsend ⊢
          obtain ⟨-, hready⟩ := startedCall_patchTx hinj delegate callee holder nested nCoinsLimit h
          refine (ihk _ _ _ hready fun strAddress amount hmem => hsend strAddress amount
            (List.mem_append_right _ (List.mem_append_right _ hmem))).trans ?_
          rw [endCall_caller]
          have hcallee (strAddress : Address) (amount : Amount) := fun hmem =>
            hsend strAddress amount (List.mem_append_left _ hmem)
          cases delegate with
          | true => exact ihcallee _ _ h hcallee
          | false => rfl

/-- Every call that is made is sound. -/
theorem calls_sound (hinj : Function.Injective (F.internalHash E.strTxHash)) (code : Code)
    (holder : Contract) (s : RunState) (h : s.patchTx.Ready F E.strTxHash) :
    ∀ call ∈ calls F E code holder s, call.Sound F E := by
  induction code generalizing holder s with
  | done data => simp [calls]
  | throws message => simp [calls]
  | send strAddress amount k ih =>
      rw [calls]
      rcases send_cases strAddress amount holder h with
        ⟨hpatch, -, -⟩ | ⟨receiver, -, -, hpatch, -, -⟩
      · exact ih _ _ _ (hpatch ▸ h)
      · exact ih _ _ _ (hpatch ▸ h.afterSend hinj receiver amount)
  | call delegate strAddress coinsToPass callee k ihcallee ihk =>
      cases hstart : startCall F E strAddress coinsToPass s with
      | error error =>
          simp only [calls, hstart, List.forall_mem_cons]
          exact ⟨⟨h, fun _ => rfl, fun _ => rfl⟩, ihk _ _ _ h⟩
      | ok started =>
          obtain ⟨nested, nCoinsLimit⟩ := started
          obtain ⟨hstopped, hready⟩ :=
            startedCall_patchTx hinj delegate callee holder nested nCoinsLimit h
          simp only [calls, hstart, List.forall_mem_append, List.forall_mem_cons]
          refine ⟨ihcallee _ _ h, ⟨h, fun hfailed => ?_, fun hsend => ?_⟩, ihk _ _ _ hready⟩
          · exact (endCall_failed hfailed).trans hstopped
          · have hbalance := runCode_balance hinj callee (if delegate then holder else nested)
              { s with nCoinsLimit } h hsend
            simp only [startedCall, endCall_caller]
            cases delegate with
            | true => exact hbalance
            | false => rfl

/-- **When a nested call that throws is undone.** -/
theorem CallRecord.Sound.undone_iff {call : CallRecord}
    (hinj : Function.Injective (F.internalHash E.strTxHash)) (h : call.Sound F E)
    (hfailed : call.Failed) : call.Undone F ↔ call.Harmless F := by
  have hpatch := h.failed hfailed
  constructor
  · intro hundone
    refine ⟨?_, fun contractAddr contract hlast => ?_⟩
    · have hcard := Effect.card_coins_replay hinj call.effects h.ready
      rw [← hpatch, hundone.coins] at hcard
      exact Effect.countSent_eq_zero.mp (Nat.left_eq_add.mp hcard)
    · obtain ⟨left, hleft, hdata, -⟩ :=
        (Effect.getContract_replay F E.strTxHash call.effects call.before.patchTx contractAddr).2 contract hlast
      have hcontracts := hundone.contracts contractAddr
      rw [hpatch, hleft, Option.map_some] at hcontracts
      obtain ⟨old, hold, hstate⟩ := Option.map_eq_some_iff.mp hcontracts.symm
      exact ⟨old, hold, (congrArg Prod.fst hstate).trans hdata⟩
  · intro hharmless
    obtain ⟨hcoins, hspent, hreceipts⟩ :=
      Effect.replay_of_no_send (F := F) E.strTxHash call.before.patchTx hharmless.no_send
    refine ⟨hpatch ▸ hcoins, hpatch ▸ hspent, hpatch ▸ hreceipts, fun contractAddr => ?_,
      h.balance hharmless.no_send⟩
    have hreplay := Effect.getContract_replay F E.strTxHash call.effects
      call.before.patchTx contractAddr
    rw [hpatch]
    cases hlast : Effect.lastStored contractAddr call.effects with
    | none => rw [hreplay.1 hlast]
    | some contract =>
        obtain ⟨left, hleft, hdata, hsame⟩ := hreplay.2 contract hlast
        obtain ⟨old, hold, holdData⟩ := hharmless.same_data contractAddr contract hlast
        obtain ⟨hbalance, hconcilium⟩ := hsame old hold
        rw [hleft, hold, Option.map_some, Option.map_some, Contract.state, Contract.state, hdata,
          holdData, hbalance, hconcilium]

end NestedFailure

section Atomicity

variable {F : Factory} {node : NodeView} {patchForBlock : Option PatchDB} {isGenesis : Bool}
  {tx : Transaction} {behaviour : Behaviour} {run : ContractRun}

theorem ContractRun.calls_sound (hinj : Function.Injective (F.internalHash run.env.strTxHash))
    (hready : run.patchThisTx.Ready F run.env.strTxHash) :
    ∀ call ∈ run.calls F tx behaviour, call.Sound F run.env := by
  cases execContract_cases F tx behaviour run with
  | notCreated hcontract _ _ _ => simp [ContractRun.calls, ContractRun.invocation, hcontract]
  | created hcontract _ _ _ _ _ _ => simp [ContractRun.calls, ContractRun.invocation, hcontract]
  | refused _ _ hinvocation _ _ => simp [ContractRun.calls, hinvocation]
  | invoked _ started s _ hinvocation _ _ hpatch _ =>
      simp only [ContractRun.calls, hinvocation]
      exact CilCore.calls_sound hinj behaviour.method started s (hpatch ▸ hready)

/-- A failed receipt means that nothing but that receipt and the change is left in the
patch of the transaction, and every nested call that throws is undone. -/
def FailureAtomic (F : Factory) (node : NodeView) (patchForBlock : Option PatchDB)
    (isGenesis : Bool) (tx : Transaction) (behaviour : Behaviour) (run : ContractRun) : Prop :=
  (∀ fee patchThisTx, processTx F node patchForBlock isGenesis tx behaviour =
      .ok (fee, patchThisTx) →
    FailsCleanly F node isGenesis tx behaviour run fee patchThisTx) ∧
  ∀ call ∈ run.calls F tx behaviour, call.Failed → call.Undone F

end Atomicity

section Sample

/-- A method that sends coins and then throws. -/
def sendThenThrow : Behaviour := ⟨.error "", .send (some 9) 200 fun _ => .throws "Boom"⟩

end Sample

end CilCore
