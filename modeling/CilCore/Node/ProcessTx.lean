import CilCore.Node.ContractRun

/-!
# Processing a transaction

`_processTx` and `_processContract` of `node/node.js`: inputs are spent, payments
are created, and what is left pays for the size of the transaction and for the
contract it creates or invokes.
-/

namespace CilCore

/-- What the virtual machine does for a transaction: what the constructor leaves, for
a creation, and the behaviour of the invoked method, for an invocation. -/
structure Behaviour where
  constructor : Except String Constructed
  method : Code

/-- The node's state that a transaction is processed in: stable storage and the
height of the block being processed, if there is one. -/
structure NodeView where
  storage : Storage
  processedHeight : Option Nat

namespace NodeView

/-- `_isTimeToForkSerializer1`. -/
def isTimeToForkSerializer1 (F : Factory) (node : NodeView) : Bool :=
  node.processedHeight.all fun height => F.constants.forks.HEIGHT_FORK_SERIALIZER ≤ height

/-- `_isTimeToForkSerializer2`. -/
def isTimeToForkSerializer2 (F : Factory) (node : NodeView) : Bool :=
  node.processedHeight.all fun height => F.constants.forks.HEIGHT_FORK_SERIALIZER_FIX2 ≤ height

/-- `_isTimeToForkSerializer3`. -/
def isTimeToForkSerializer3 (F : Factory) (node : NodeView) : Bool :=
  node.processedHeight.all fun height => height < F.constants.forks.HEIGHT_FORK_SERIALIZER_FIX3

/-- A fee of the transaction's concilium, or the constant where it has none.
Genesis pays no fees. -/
def feeOf (F : Factory) (node : NodeView) (fee : ConciliumFees → Nat) (default : Fees → Nat)
    (tx : Transaction) (isGenesis : Bool) : Except String Nat :=
  if isGenesis then .ok 0
  else
    match node.storage.getConciliumById F tx.conciliumId with
    | .error error => .error error
    | .ok none => .ok (default F.constants.fees)
    | .ok (some witnessConcilium) =>
        .ok (if fee witnessConcilium.fees ≠ 0 then fee witnessConcilium.fees
          else default F.constants.fees)

/-- `_calculateSizeFee`. -/
def calculateSizeFee (F : Factory) (node : NodeView) (tx : Transaction) (isGenesis : Bool) :
    Except String Nat :=
  (node.feeOf F (·.feeTxSize) (·.TX_FEE) tx isGenesis).map fun nFeePerKb =>
    nFeePerKb * tx.getSize F / 1024

/-- `_getFeeContractCreation`. -/
def getFeeContractCreation (F : Factory) (node : NodeView) :=
  node.feeOf F (·.feeContractCreation) (·.CONTRACT_CREATION_FEE)

/-- `_getFeeContractInvocatoin`. -/
def getFeeContractInvocation (F : Factory) (node : NodeView) :=
  node.feeOf F (·.feeContractInvocation) (·.CONTRACT_INVOCATION_FEE)

/-- `_getFeeInternalTx`. -/
def getFeeInternalTx (F : Factory) (node : NodeView) :=
  node.feeOf F (·.feeInternalTx) (·.INTERNAL_TX_FEE)

/-- `_getFeeStorage`. -/
def getFeeStorage (F : Factory) (node : NodeView) :=
  node.feeOf F (·.feeStorage) (·.STORAGE_PER_BYTE_FEE)

end NodeView

/-- How the guarded part of `_processContract` ends: the contract variable, the
run state, and the message of the exception that was caught. -/
structure ContractOutcome where
  contract : Option Contract
  bNewContract : Bool
  state : RunState
  message : Option String

/-- The creation of a contract, with `createContract` of `node/app.js`. -/
def createContract (F : Factory) (E : RunEnv) (constructor : Except String Constructed)
    (s : RunState) : ContractOutcome :=
  let failed (message : String) : ContractOutcome := ⟨none, false, s, some message⟩
  if s.nCoinsLimit < E.nFeeContractCreation then failed "Tx fee for contract creation too small!"
  else if (E.storage.getContract (F.contractAddress E.strTxHash)).isSome then
    failed "Contract already exists"
  else
    let s := { s with nCoinsLimit := s.nCoinsLimit - E.nFeeContractCreation }
    match constructor with
    | .error error => ⟨none, false, s, some error⟩
    | .ok created =>
        let contract := Contract.new (F.contractAddress E.strTxHash) created.data created.objCode
          .CONTRACT_V_V8
        ⟨some (contract.ensureData F), true,
          { s with nDataDelta := s.nDataDelta + contract.getDataSize F }, none⟩

/-- The checks before the invocation of a contract: the contract and the state
that its method starts with. -/
def startInvocation (F : Factory) (E : RunEnv) (tx : Transaction) (contract : Contract)
    (s : RunState) : Except String (Contract × RunState) :=
  if s.nCoinsLimit < E.nFeeContractInvocation then
    .error "Tx fee for contract invocation too small!"
  else if contract.conciliumId ≠ some tx.conciliumId then .error "TX wrong conciliumId"
  else
    match (if tx.getContractCode = "" then none else F.jsonParseError tx.getContractCode) with
    | some error => .error error
    | none => .ok (contract.ensureData F,
        { s with nCoinsLimit := s.nCoinsLimit - E.nFeeContractInvocation })

/-- The end of an invocation: a method that returned leaves new data. -/
def endInvocation (F : Factory) (nPrevDataSize : Nat)
    (r : RunState × Contract × Except String Data) : ContractOutcome :=
  match r.2.2 with
  | .error error => ⟨some r.2.1, false, r.1, some error⟩
  | .ok data =>
      let contract := r.2.1.updateData data
      ⟨some (contract.ensureData F), false,
        { r.1 with
          nDataDelta := r.1.nDataDelta + ((contract.getDataSize F : Int) - nPrevDataSize) },
        none⟩

/-- The invocation of a contract, with `runContract` of `node/app.js`. -/
def invokeContract (F : Factory) (E : RunEnv) (tx : Transaction) (contract : Contract)
    (method : Code) (s : RunState) : ContractOutcome :=
  match startInvocation F E tx contract s with
  | .error error => ⟨some contract, false, s, some error⟩
  | .ok (contract, s) =>
      endInvocation F (contract.getDataSize F) (runCode F E method contract s)

/-- `_createContractChange`: what is left goes to the change receiver. The
receipt is the one that was made last, which is in the patch only if the
transaction had none before. -/
def createContractChange (F : Factory) (tx : Transaction) (maxFee : Amount) (patch : PatchDB)
    (receipt : TxReceipt) (bInPatch : Bool) : Except String (Amount × PatchDB) :=
  let fee := receipt.coinsUsed
  match tx.getContractChangeReceiver with
  | none => .ok (maxFee - fee, patch)
  | some addrChangeReceiver =>
      if maxFee - fee = 0 then .ok (fee, patch)
      else
        match createInternalTx F addrChangeReceiver (maxFee - fee) (tx.hash F) patch with
        | .error error => .error error
        | .ok (txHash, coins, patch) => .ok (fee,
            if bInPatch then
              { patch with
                mapTxReceipts := patch.mapTxReceipts.insert (tx.hash F)
                  (receipt.addInternalUtxo txHash coins) }
            else patch)

/-- The cases of `createContractChange`. -/
theorem createContractChange_ok {F : Factory} {tx : Transaction} {maxFee fee : Amount}
    {patch patch' : PatchDB} {receipt : TxReceipt} {bInPatch : Bool}
    (h : createContractChange F tx maxFee patch receipt bInPatch = .ok (fee, patch')) :
    (tx.getContractChangeReceiver = none ∧ fee = maxFee - receipt.coinsUsed ∧ patch' = patch) ∨
    ∃ receiver, tx.getContractChangeReceiver = some receiver ∧ fee = receipt.coinsUsed ∧
      (maxFee - receipt.coinsUsed = 0 ∧ patch' = patch ∨
        0 < maxFee - receipt.coinsUsed ∧
          patch' = { patch with
            coins := patch.coins.insert (F.internalHash (tx.hash F) patch.nonce)
              ((∅ : UTXO).insert 0 ⟨maxFee - receipt.coinsUsed, receiver⟩)
            nonce := patch.nonce + 1
            mapTxReceipts :=
              if bInPatch then
                patch.mapTxReceipts.insert (tx.hash F)
                  (receipt.addInternalUtxo (F.internalHash (tx.hash F) patch.nonce)
                    ⟨maxFee - receipt.coinsUsed, receiver⟩)
              else patch.mapTxReceipts }) := by
  cases hreceiver : tx.getContractChangeReceiver with
  | none =>
      simp only [createContractChange, hreceiver, Except.ok.injEq, Prod.mk.injEq] at h
      exact .inl ⟨rfl, h.1.symm, h.2.symm⟩
  | some receiver =>
      refine .inr ⟨receiver, rfl, ?_⟩
      by_cases hzero : maxFee - receipt.coinsUsed = 0
      · simp only [createContractChange, hreceiver, if_pos hzero, Except.ok.injEq,
          Prod.mk.injEq] at h
        exact ⟨h.1.symm, .inl ⟨hzero, h.2.symm⟩⟩
      by_cases hpos : maxFee - receipt.coinsUsed > 0
      · simp only [createContractChange, hreceiver, if_neg hzero, createInternalTx, if_pos hpos,
          Except.ok.injEq, Prod.mk.injEq] at h
        refine ⟨h.1.symm, .inr ⟨hpos, ?_⟩⟩
        rw [← h.2]
        cases bInPatch <;> rfl
      · simp only [createContractChange, hreceiver, if_neg hzero, createInternalTx, if_neg hpos,
          reduceCtorEq] at h

/-- The receipt of an outcome. -/
def receiptOf (o : ContractOutcome) (coinsUsed : Amount) : TxReceipt where
  contractAddress := if o.bNewContract then o.contract.map (·.strAddress) else none
  coinsUsed := coinsUsed
  status := if o.message = none then .TX_STATUS_OK else .TX_STATUS_FAILED
  message := o.message

@[simp] theorem coinsUsed_receiptOf (o : ContractOutcome) (coinsUsed : Amount) :
    (receiptOf o coinsUsed).coinsUsed = coinsUsed := rfl

@[simp] theorem status_receiptOf (o : ContractOutcome) (coinsUsed : Amount) :
    (receiptOf o coinsUsed).status =
      if o.message = none then .TX_STATUS_OK else .TX_STATUS_FAILED := rfl

/-- A successful contract is stored. The deposit is made on the contract object,
which the patch shares only if it did not have the contract yet. -/
def storeContract (F : Factory) (tx : Transaction) (contract : Contract) (patch : PatchDB) :
    PatchDB :=
  let contract := match contract.conciliumId with
    | none => contract.setConciliumId tx.conciliumId
    | some _ => contract
  patch.setContract F (contract.deposit tx.getContractSentAmount)

/-- The coins that may be spent on fees after the contract has stopped: if it failed,
the coins sent to it are returned. -/
def maxFee (F : Factory) (node : NodeView) (tx : Transaction) (nMaxCoins : Amount)
    (o : ContractOutcome) : Amount :=
  if o.contract.isSome ∧ o.message ≠ none ∧ tx.getContractSentAmount > 0 ∧
      node.isTimeToForkSerializer1 F then
    nMaxCoins + tx.getContractSentAmount
  else nMaxCoins

/-- The contract that `_processContract` stores, if it stores one. -/
def contractToStore (F : Factory) (node : NodeView) (o : ContractOutcome) : Option Contract :=
  if o.message = none then
    o.contract.map fun contract =>
      if node.isTimeToForkSerializer3 F then contract.dirtyWorkaround F else contract
  else none

/-- Store the contract, unless it failed. -/
def storeOutcome (F : Factory) (node : NodeView) (tx : Transaction) (o : ContractOutcome)
    (patch : PatchDB) : PatchDB :=
  match contractToStore F node o with
  | some contract => storeContract F tx contract patch
  | none => patch

/-- The part of `_processContract` after the contract has stopped. -/
def settleContract (F : Factory) (node : NodeView) (isGenesis : Bool) (tx : Transaction)
    (nMaxCoins : Amount) (coinsUsed : Amount) (o : ContractOutcome) :
    Except String (Amount × PatchDB) :=
  let receipt := receiptOf o coinsUsed
  let bInPatch := (o.state.patchTx.getReceipt (tx.hash F)).isNone
  match o.state.patchTx.setReceipt (tx.hash F) receipt with
  | .error error => .error error
  | .ok patchTx =>
      let patchTx := storeOutcome F node tx o patchTx
      let nMaxCoins := maxFee F node tx nMaxCoins o
      -- send change (not for Genesis)
      if isGenesis then .ok (0, patchTx)
      else if receipt.coinsUsed > nMaxCoins then .ok (nMaxCoins, patchTx)
      else createContractChange F tx nMaxCoins patchTx receipt bInPatch

/-- The patch of a transaction when its receipt and its contract are stored. -/
def settledPatch (F : Factory) (node : NodeView) (tx : Transaction) (o : ContractOutcome)
    (stored : TxReceipt) : PatchDB :=
  storeOutcome F node tx o { o.state.patchTx with
    mapTxReceipts := o.state.patchTx.mapTxReceipts.insert (tx.hash F) stored }

/-- The cases of `settleContract`: genesis, a contract that used more than there is, and
a contract whose change is created. -/
theorem settleContract_ok {F : Factory} {node : NodeView} {isGenesis : Bool} {tx : Transaction}
    {nMaxCoins coinsUsed fee : Amount} {o : ContractOutcome} {patch : PatchDB}
    (h : settleContract F node isGenesis tx nMaxCoins coinsUsed o = .ok (fee, patch)) :
    ∃ stored,
      (o.state.patchTx.getReceipt (tx.hash F) = none ∧ stored = receiptOf o coinsUsed ∨
        ∃ old, o.state.patchTx.getReceipt (tx.hash F) = some old ∧
          old.merge (receiptOf o coinsUsed) = .ok stored) ∧
      (isGenesis = true ∧ fee = 0 ∧ patch = settledPatch F node tx o stored ∨
        isGenesis = false ∧ maxFee F node tx nMaxCoins o < coinsUsed ∧
          fee = maxFee F node tx nMaxCoins o ∧ patch = settledPatch F node tx o stored ∨
        isGenesis = false ∧ coinsUsed ≤ maxFee F node tx nMaxCoins o ∧
          createContractChange F tx (maxFee F node tx nMaxCoins o)
            (settledPatch F node tx o stored) (receiptOf o coinsUsed)
            (o.state.patchTx.getReceipt (tx.hash F)).isNone = .ok (fee, patch)) := by
  cases hreceipt : o.state.patchTx.setReceipt (tx.hash F) (receiptOf o coinsUsed) with
  | error error => simp [settleContract, hreceipt] at h
  | ok patchReceipt =>
      obtain ⟨stored, rfl, hstored⟩ := PatchDB.setReceipt_ok hreceipt
      refine ⟨stored, hstored, ?_⟩
      simp only [settleContract, hreceipt] at h
      simp only [coinsUsed_receiptOf, gt_iff_lt] at h
      cases isGenesis with
      | true =>
          simp only [if_true, Except.ok.injEq, Prod.mk.injEq] at h
          exact .inl ⟨rfl, h.1.symm, h.2.symm⟩
      | false =>
          by_cases hused : maxFee F node tx nMaxCoins o < coinsUsed
          · simp only [Bool.false_eq_true, if_false, if_pos hused, Except.ok.injEq,
              Prod.mk.injEq] at h
            exact .inr (.inl ⟨rfl, hused, h.1.symm, h.2.symm⟩)
          · simp only [Bool.false_eq_true, if_false, if_neg hused] at h
            exact .inr (.inr ⟨rfl, not_lt.mp hused, h⟩)

/-- The coins that a transaction has used: the fee for its size, the coins spent
by the contract, and the storage it takes. -/
def coinsUsed (nFeeSize nFeeStorage : Nat) (coinsLimit : Amount) (s : RunState) : Amount :=
  nFeeSize + (coinsLimit - s.nCoinsLimit) + s.nDataDelta * nFeeStorage

/-- The check that ends the guarded part of `_processContract`. -/
def checkCoinsUsed (nMaxCoins coinsUsed : Amount) (o : ContractOutcome) : ContractOutcome :=
  if o.message = none ∧ coinsUsed > nMaxCoins then
    { o with message := some "Not enough coins to run contract" }
  else o

@[simp] theorem contract_checkCoinsUsed (nMaxCoins coinsUsed : Amount) (o : ContractOutcome) :
    (checkCoinsUsed nMaxCoins coinsUsed o).contract = o.contract := by
  unfold checkCoinsUsed
  split <;> rfl

@[simp] theorem state_checkCoinsUsed (nMaxCoins coinsUsed : Amount) (o : ContractOutcome) :
    (checkCoinsUsed nMaxCoins coinsUsed o).state = o.state := by
  unfold checkCoinsUsed
  split <;> rfl

theorem message_checkCoinsUsed {nMaxCoins coinsUsed : Amount} {o : ContractOutcome}
    (h : (checkCoinsUsed nMaxCoins coinsUsed o).message = none) :
    o.message = none ∧ coinsUsed ≤ nMaxCoins := by
  unfold checkCoinsUsed at h
  split at h
  next => cases h
  next hnot => exact ⟨h, not_lt.mp fun hlt => hnot ⟨h, hlt⟩⟩

/-- What the guarded part of `_processContract` starts with. -/
structure ContractRun where
  env : RunEnv
  nFeeStorage : Nat
  contract : Option Contract
  nMaxCoins : Amount
  nFeeSize : Nat
  patchThisTx : PatchDB

/-- The beginning of `_processContract`: the contract's serializer is switched and
the fees are looked up. -/
def startContract (F : Factory) (node : NodeView) (isGenesis : Bool) (contract : Option Contract)
    (tx : Transaction) (patchThisTx patchForBlock : PatchDB) (nMaxCoins : Amount)
    (nFeeSize : Nat) : Except String ContractRun := do
  let nFeeStorage ← node.getFeeStorage F tx isGenesis
  let nFeeContractCreation ← node.getFeeContractCreation F tx isGenesis
  let nFeeContractInvocation ← node.getFeeContractInvocation F tx isGenesis
  let nFeeInternalTx ← node.getFeeInternalTx F tx isGenesis
  return {
    env := {
      storage := node.storage
      patchBlock := patchForBlock
      strTxHash := tx.hash F
      nFeeContractCreation
      nFeeContractInvocation
      nFeeInternalTx
      isTimeToForkSerializer2 := node.isTimeToForkSerializer2 F
      isTimeToForkSerializer3 := node.isTimeToForkSerializer3 F }
    nFeeStorage
    contract := contract.map fun contract =>
      if node.isTimeToForkSerializer1 F then contract.switchSerializerToJson F else contract
    nMaxCoins
    nFeeSize
    patchThisTx }

namespace ContractRun

/-- The coins that the contract may use, and the state it starts with. -/
def start (run : ContractRun) : RunState := ⟨run.nMaxCoins - run.nFeeSize, 0, run.patchThisTx⟩

/-- The contract is created or invoked. -/
def execContract (F : Factory) (tx : Transaction) (behaviour : Behaviour) (run : ContractRun) :
    ContractOutcome :=
  match run.contract with
  | none => createContract F run.env behaviour.constructor run.start
  | some contract => invokeContract F run.env tx contract behaviour.method run.start

/-- The coins that the transaction uses. -/
def used (F : Factory) (tx : Transaction) (behaviour : Behaviour) (run : ContractRun) : Amount :=
  coinsUsed run.nFeeSize run.nFeeStorage run.start.nCoinsLimit
    (run.execContract F tx behaviour).state

/-- How the guarded part ends. -/
def outcome (F : Factory) (tx : Transaction) (behaviour : Behaviour) (run : ContractRun) :
    ContractOutcome :=
  checkCoinsUsed run.nMaxCoins (run.used F tx behaviour) (run.execContract F tx behaviour)

end ContractRun

/-- `_processContract`: the fee, and the patch of the transaction. -/
def processContract (F : Factory) (node : NodeView) (isGenesis : Bool)
    (contract : Option Contract) (tx : Transaction) (patchThisTx patchForBlock : PatchDB)
    (nMaxCoins : Amount) (nFeeSize : Nat) (behaviour : Behaviour) :
    Except String (Amount × PatchDB) :=
  match startContract F node isGenesis contract tx patchThisTx patchForBlock nMaxCoins nFeeSize with
  | .error error => .error error
  | .ok run =>
      settleContract F node isGenesis tx nMaxCoins (run.used F tx behaviour)
        (run.outcome F tx behaviour)

/-- `Number.MAX_SAFE_INTEGER`. -/
def maxSafeInteger : Amount := 9007199254740991

/-- The coins that are visible to a transaction: those of storage, merged with the
block's patch if that has coins of any of its inputs. -/
def inputsView (F : Factory) (node : NodeView) (patchForBlock : Option PatchDB)
    (tx : Transaction) : Except String PatchDB :=
  let patchUtxos := node.storage.getUtxosPatch tx.utxos
  match patchForBlock with
  | none => .ok patchUtxos
  | some patchForBlock =>
      if patchForBlock.hasUtxos tx.utxos then patchForBlock.merge F patchUtxos
      else .ok patchUtxos

/-- The contract that a transaction invokes; `none` for a payment, and
`some none` for the creation of a contract. -/
def findContract (F : Factory) (node : NodeView) (patchForBlock : Option PatchDB)
    (tx : Transaction) : Except String (Option (Option Contract)) :=
  match tx.isContractCreation F with
  | .error error => .error error
  | .ok true => .ok (some none)
  | .ok false =>
      match tx.getContractAddr with
      | none => .ok none
      | some contractAddr =>
          (getContractByAddr F node.storage patchForBlock contractAddr).map (·.map some)

/-- The inputs of a transaction: the sum and the patch that spends them, and the
fee for its size. Genesis has no inputs. -/
def processInputs (F : Factory) (node : NodeView) (patchForBlock : Option PatchDB)
    (isGenesis : Bool) (tx : Transaction) : Except String (PatchDB × Amount × Nat) :=
  if isGenesis then .ok (PatchDB.new tx.conciliumId, 0, 0)
  else
    match inputsView F node patchForBlock tx with
    | .error error => .error error
    | .ok patchMerged =>
        match App.processTxInputs F tx patchMerged with
        | .error error => .error error
        | .ok (patchThisTx, totalHas) =>
            match node.calculateSizeFee F tx isGenesis with
            | .error error => .error error
            | .ok nFeeSize => .ok (patchThisTx, totalHas, nFeeSize)

/-- What `_processTx` knows before it processes a contract: the contract, if the
transaction has one, the patch that spends the inputs and creates the payments,
the coins left, and the fee for the size. -/
structure PreparedTx where
  contract : Option (Option Contract)
  patchThisTx : PatchDB
  nRemainingCoins : Amount
  nFeeSize : Nat

/-- `_processTx` up to the contract. -/
def prepareTx (F : Factory) (node : NodeView) (patchForBlock : Option PatchDB)
    (isGenesis : Bool) (tx : Transaction) : Except String PreparedTx :=
  match findContract F node patchForBlock tx with
  | .error error => .error error
  | .ok contract =>
      match processInputs F node patchForBlock isGenesis tx with
      | .error error => .error error
      | .ok (patchThisTx, totalHas, nFeeSize) =>
          match App.processPayments F tx patchThisTx (if contract.isSome then 1 else 0) with
          | .error error => .error error
          | .ok (patchThisTx, totalSent) =>
              let nMaxFee := if isGenesis then maxSafeInteger else totalHas - totalSent
              let nRemainingCoins :=
                nMaxFee - if contract.isSome then (tx.getContractSentAmount : Amount) else 0
              if !isGenesis ∧ ¬ nRemainingCoins > nFeeSize then
                .error "Require fee at least but you sent less than fee!"
              else .ok ⟨contract, patchThisTx, nRemainingCoins, nFeeSize⟩

/-- `_processTx`: the fee of a transaction, and its patch. -/
def processTx (F : Factory) (node : NodeView) (patchForBlock : Option PatchDB)
    (isGenesis : Bool) (tx : Transaction) (behaviour : Behaviour) :
    Except String (Amount × PatchDB) :=
  match prepareTx F node patchForBlock isGenesis tx with
  | .error error => .error error
  | .ok prepared =>
      match prepared.contract with
      | some contract =>
          processContract F node isGenesis contract tx prepared.patchThisTx
            (patchForBlock.getD PatchDB.empty) prepared.nRemainingCoins prepared.nFeeSize behaviour
      | none => .ok (if isGenesis then 0 else prepared.nRemainingCoins, prepared.patchThisTx)

end CilCore
