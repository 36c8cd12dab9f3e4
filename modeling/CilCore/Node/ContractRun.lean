import CilCore.Node.App

/-!
# Running contract code

The virtual machine is left open: what a method does is an arbitrary finite tree
of requests to the node. This module is the node's side of the conversation,
`_send`, `_callWithContext` and `runContract` of `node/app.js` with `_sendCoins`
and `_invokeNestedContract` of `node/node.js`. None of it undoes anything when a
request or a method fails.
-/

namespace CilCore

/-- The behaviour of a contract method. A request is answered with the message of
the exception it threw, if it threw one; the code may catch it and go on. -/
inductive Code where
  /-- The method returns, and its contract's data is now this. -/
  | done (data : Data)
  /-- The method throws. -/
  | throws (message : String)
  /-- `send(address, amount)`, with `none` for something that is no address. -/
  | send (strAddress : Option Address) (amount : Amount) (k : Option String → Code)
  /-- `call` or `delegatecall` of a method that behaves like `callee`. -/
  | call (delegate : Bool) (strAddress : Address) (coinsLimit : Option Amount) (callee : Code)
      (k : Option String → Code)

/-- What stays the same while a transaction runs: the fees, the fork that is in
force, and where contracts are looked up. -/
structure RunEnv where
  storage : Storage
  patchBlock : PatchDB
  strTxHash : Hash
  nFeeContractCreation : Nat
  nFeeContractInvocation : Nat
  nFeeInternalTx : Nat
  isTimeToForkSerializer2 : Bool
  isTimeToForkSerializer3 : Bool

/-- What a running transaction changes: the coins left, the growth of the data
of all contracts, and the patch of the transaction. -/
structure RunState where
  nCoinsLimit : Amount
  nDataDelta : Int
  patchTx : PatchDB

/-- `_getContractByAddr`: a contract of the block's patch is cloned. -/
def getContractByAddr (F : Factory) (storage : Storage) (patchForBlock : Option PatchDB)
    (contractAddr : Address) : Except String (Option Contract) :=
  match patchForBlock.bind fun patch => patch.getContract contractAddr with
  | some contract =>
      match contract.clone F with
      | .error error => .error error
      | .ok copy => .ok (some copy)
  | none => .ok (storage.getContract contractAddr)

/-- `_spendCoins` of `node/app.js`. -/
def spendCoins (nCurrent nAmount : Amount) : Except String Amount :=
  if nCurrent - nAmount < 0 then .error "Contract run out of coins" else .ok (nCurrent - nAmount)

/-- `_createInternalTx`: one coin under a fresh hash. -/
def createInternalTx (F : Factory) (receiver : Address) (amount : Amount) (strHash : Hash)
    (patch : PatchDB) : Except String (Hash × Coins × PatchDB) :=
  if amount > 0 then
    let txHash := F.internalHash strHash patch.getNonce.1
    let coins : Coins := ⟨amount, receiver⟩
    .ok (txHash, coins, patch.getNonce.2.setUtxo txHash ((∅ : UTXO).insert 0 coins))
  else .error "Internal TX with non positive amount!"

/-- `_sendCoins`. The holder is the contract whose balance pays. -/
def sendCoins (F : Factory) (E : RunEnv) (strAddress : Option Address) (amount : Amount)
    (holder : Contract) (patchTx : PatchDB) : PatchDB × Contract × Option String :=
  match strAddress with
  | none => (patchTx, holder, some "Expected an address")
  | some strAddress =>
      if holder.balance < amount then (patchTx, holder, some "Not enough funds for \"send\"")
      else if amount = 0 then (patchTx, holder, none)
      else
        match createInternalTx F strAddress amount E.strTxHash patchTx with
        | .error error => (patchTx, holder, some error)
        | .ok (txHash, coins, patchTx) =>
            -- a fake receipt, merged with the original one later
            let receipt := TxReceipt.addInternalUtxo txHash coins { status := .TX_STATUS_OK }
            match patchTx.setReceipt E.strTxHash receipt with
            | .error error => (patchTx, holder, some error)
            | .ok patchTx =>
                match holder.withdraw amount with
                | .error error => (patchTx, holder, some error)
                | .ok holder => (patchTx, holder, none)

/-- `_send`: the fee of an internal transaction is spent first, whatever becomes
of the request. -/
def send (F : Factory) (E : RunEnv) (strAddress : Option Address) (amount : Amount)
    (holder : Contract) (s : RunState) : RunState × Contract × Option String :=
  match spendCoins s.nCoinsLimit E.nFeeInternalTx with
  | .error error => (s, holder, some error)
  | .ok nCoinsLimit =>
      let (patchTx, holder, error) := sendCoins F E strAddress amount holder s.patchTx
      ({ s with nCoinsLimit, patchTx }, holder, error)

/-- The checks of `_callWithContext`. The number of coins is not used otherwise. -/
def checkCoinsToPass (coinsToPass : Option Amount) (s : RunState) : Except String Unit :=
  match coinsToPass with
  | none => .ok ()
  | some coinsToPass =>
      if coinsToPass < 0 then .error "coinsLimit should be positive"
      else if coinsToPass > s.nCoinsLimit then .error "Trying to pass more coins than have"
      else .ok ()

/-- The beginning of a nested call: the contract as it is loaded for the call,
and the coins left after the invocation fee. Nested contracts are looked up in
the patch of the block and in storage, never in the patch of the transaction. -/
def startCall (F : Factory) (E : RunEnv) (strAddress : Address) (coinsToPass : Option Amount)
    (s : RunState) : Except String (Contract × Amount) :=
  match checkCoinsToPass coinsToPass s with
  | .error error => .error error
  | .ok () =>
      match getContractByAddr F E.storage (some E.patchBlock) strAddress with
      | .error error => .error error
      | .ok none => .error "Contract not found!"
      | .ok (some nested) =>
          let nested := if E.isTimeToForkSerializer2 then nested.switchSerializerToJson F else nested
          match spendCoins s.nCoinsLimit E.nFeeContractInvocation with
          | .error error => .error error
          | .ok nCoinsLimit => .ok (nested.ensureData F, nCoinsLimit)

/-- The data of a contract after a call that returned: a delegated call leaves
it alone. -/
def updateAfterCall (delegate : Bool) (data : Data) (contract : Contract) : Contract :=
  if delegate then contract else contract.updateData data

/-- The contract that is stored after a call that returned. -/
def finishedContract (F : Factory) (E : RunEnv) (delegate : Bool) (data : Data)
    (nested : Contract) : Contract :=
  let nested := (updateAfterCall delegate data nested).ensureData F
  if E.isTimeToForkSerializer3 then nested.dirtyWorkaround F else nested

@[simp] theorem balance_finishedContract (F : Factory) (E : RunEnv) (delegate : Bool) (data : Data)
    (nested : Contract) : (finishedContract F E delegate data nested).balance = nested.balance := by
  unfold finishedContract updateAfterCall
  cases delegate <;> cases E.isTimeToForkSerializer3 <;> simp

@[simp] theorem strAddress_finishedContract (F : Factory) (E : RunEnv) (delegate : Bool)
    (data : Data) (nested : Contract) :
    (finishedContract F E delegate data nested).strAddress = nested.strAddress := by
  unfold finishedContract updateAfterCall
  cases delegate <;> cases E.isTimeToForkSerializer3 <;> simp

/-- The end of a call that returned: the growth of the contract's data is added
up and the contract is stored in the patch of the transaction. -/
def finishCall (F : Factory) (E : RunEnv) (delegate : Bool) (nPrevDataSize : Nat) (data : Data)
    (nested : Contract) (s : RunState) : RunState :=
  { s with
    nDataDelta := s.nDataDelta +
      (((updateAfterCall delegate data nested).getDataSize F : Int) - nPrevDataSize)
    patchTx := s.patchTx.setContract F (finishedContract F E delegate data nested) }

/-- What the caller goes on with after a nested call has stopped. A delegated call
spends from the caller's own balance. -/
def endCall (F : Factory) (E : RunEnv) (delegate : Bool) (caller nested : Contract)
    (r : RunState × Contract × Except String Data) : RunState × Contract × Option String :=
  let caller := if delegate then r.2.1 else caller
  match r.2.2 with
  | .error error => (r.1, caller, some error)
  | .ok data =>
      (finishCall F E delegate (nested.getDataSize F) data (if delegate then nested else r.2.1) r.1,
        caller, none)

/-- Run the code of a method. The holder is the contract whose balance the code
can send from: for a delegated call that is the caller's. -/
def runCode (F : Factory) (E : RunEnv) : Code → Contract → RunState →
    RunState × Contract × Except String Data
  | .done data, holder, s => (s, holder, .ok data)
  | .throws message, holder, s => (s, holder, .error message)
  | .send strAddress amount k, holder, s =>
      let r := send F E strAddress amount holder s
      runCode F E (k r.2.2) r.2.1 r.1
  | .call delegate strAddress coinsToPass callee k, holder, s =>
      match startCall F E strAddress coinsToPass s with
      | .error error => runCode F E (k (some error)) holder s
      | .ok (nested, nCoinsLimit) =>
          let r := endCall F E delegate holder nested
            (runCode F E callee (if delegate then holder else nested) { s with nCoinsLimit })
          runCode F E (k r.2.2) r.2.1 r.1

end CilCore
