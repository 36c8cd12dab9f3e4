import CilCore.Factory

/-!
# Receipts of contract transactions

`structures/txReceipt.js`: what a contract transaction cost, whether it
succeeded, and the internal transactions it made.
-/

namespace CilCore

/-- `TxStatuses`. -/
inductive TxStatus where
  | TX_STATUS_FAILED
  | TX_STATUS_OK
deriving DecidableEq, Repr

/-- `TxReceipt`. -/
structure TxReceipt where
  contractAddress : Option Address := none
  coinsUsed : Amount := 0
  status : TxStatus
  message : Option String := none
  internalTxns : List Hash := []
  coins : List Coins := []
deriving DecidableEq

namespace TxReceipt

/-- `isSuccessful`. -/
def isSuccessful (receipt : TxReceipt) : Bool := receipt.status == .TX_STATUS_OK

/-- `addInternalUtxo`, for a UTXO with only one coin. -/
def addInternalUtxo (hash : Hash) (coins : Coins) (receipt : TxReceipt) : TxReceipt :=
  { receipt with
    internalTxns := receipt.internalTxns ++ [hash]
    coins := receipt.coins ++ [coins] }

/-- `merge`: the other receipt is expected to have cumulative costs. -/
def merge (receipt receiptToMerge : TxReceipt) : Except String TxReceipt :=
  if receiptToMerge.coinsUsed < receipt.coinsUsed then
    .error "receiptToMerge have more coinsUsed"
  else .ok
    { receipt with
      internalTxns := receipt.internalTxns ++ receiptToMerge.internalTxns
      coins := receipt.coins ++ receiptToMerge.coins
      coinsUsed := receiptToMerge.coinsUsed
      status :=
        if receiptToMerge.isSuccessful && receipt.isSuccessful then .TX_STATUS_OK
        else .TX_STATUS_FAILED }

/-- `getCoinsForTx`. -/
def getCoinsForTx (hash : Hash) (receipt : TxReceipt) : Except String Coins :=
  if hash ∈ receipt.internalTxns then
    match receipt.coins[receipt.internalTxns.idxOf hash]? with
    | some coins => .ok coins
    | none => .error "Cannot set properties of undefined (setting '__proto__')"
  else .error "not found in receipt"

/-- Merging into a successful receipt keeps the status of the other one. -/
theorem status_merge {receipt receiptToMerge merged : TxReceipt}
    (h : receipt.merge receiptToMerge = .ok merged) (hok : receipt.status = .TX_STATUS_OK) :
    merged.status = receiptToMerge.status := by
  obtain ⟨-, rfl⟩ := guard_eq_ok.mp h
  cases hstatus : receiptToMerge.status <;> simp [isSuccessful, hok, hstatus]

end TxReceipt

end CilCore
