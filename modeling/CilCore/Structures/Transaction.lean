import CilCore.Factory

/-!
# Transactions

`structures/transaction.js`: hashing, the semantic check of a transaction, and
the reading of its contract output.
-/

namespace CilCore

/-- The hash of all zeroes that a coinbase spends (`Buffer.alloc(32)`). -/
def zeroHash : Hash := 0

namespace Transaction

/-- `get conciliumId`. -/
def conciliumId (tx : Transaction) : Nat := tx.payload.conciliumId

/-- `get inputs`. -/
def inputs (tx : Transaction) : List Input := tx.payload.ins

/-- `get outputs`. -/
def outputs (tx : Transaction) : List Output := tx.payload.outs

/-- `get utxos`: the hashes that the transaction tries to spend. -/
def utxos (tx : Transaction) : List Hash := tx.inputs.map (·.txHash)

/-- `hash`, `getHash`: only the payload is hashed. -/
def hash (F : Factory) (tx : Transaction) : Hash := F.payloadHash tx.payload

/-- `getOutCoins`. -/
def getOutCoins (tx : Transaction) : List Coins :=
  tx.outputs.map fun out => ⟨out.amount, out.receiverAddr⟩

/-- `amountOut`. -/
def amountOut (tx : Transaction) : Nat := (tx.outputs.map (·.amount)).sum

/-- `isCoinbase`: only one input and all of zeroes. -/
def isCoinbase (tx : Transaction) : Bool :=
  match tx.inputs with
  | [input] => input.txHash == zeroHash && input.nTxOutput == 0
  | _ => false

/-- `verifyCoinbase`. -/
def verifyCoinbase (tx : Transaction) (blockFees : Amount) : Except String Unit :=
  if !tx.isCoinbase then .error "Not a coinbase TX!"
  else if (tx.amountOut : Amount) ≠ blockFees then .error "Bad amount in coinbase!"
  else .ok ()

/-- `verify`. -/
def verify (tx : Transaction) : Except String Unit :=
  if tx.inputs.isEmpty || tx.inputs.any (fun input => input.txHash == zeroHash) then
    .error "Errors in input"
  else if tx.outputs.any (fun out => out.contractCode == "" && out.amount == 0) then
    .error "Errors in outputs"
  else if tx.claimProofs.length ≠ tx.inputs.length ∧ tx.txSignature = none then
    .error "Errors in clamProofs"
  else .ok ()

/-- `isContractCreation`. Reading the receiver of an absent output throws. -/
def isContractCreation (F : Factory) (tx : Transaction) : Except String Bool :=
  match tx.outputs with
  | [] => .error "Cannot read properties of undefined (reading 'getReceiverAddr')"
  | out :: _ => .ok (out.receiverAddr == F.addrContractCreation)

/-- `_getContractOutput`. -/
def contractOutput (tx : Transaction) : Option Output := tx.outputs.head?

/-- `getContractCode`. -/
def getContractCode (tx : Transaction) : String :=
  (tx.contractOutput.map (·.contractCode)).getD ""

/-- `getContractAddr`. -/
def getContractAddr (tx : Transaction) : Option Address :=
  tx.contractOutput.map (·.receiverAddr)

/-- `getContractChangeReceiver`. -/
def getContractChangeReceiver (tx : Transaction) : Option Address :=
  tx.contractOutput.bind (·.addrChangeReceiver)

/-- `getContractSentAmount`. -/
def getContractSentAmount (tx : Transaction) : Nat :=
  (tx.contractOutput.map (·.amount)).getD 0

/-- `getSize`. -/
def getSize (F : Factory) (tx : Transaction) : Nat := F.txSize tx

end Transaction

end CilCore
