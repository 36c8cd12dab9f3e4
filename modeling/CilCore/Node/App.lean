import CilCore.Storage.PersistentStorage
import CilCore.Structures.Transaction

/-!
# Inputs and payments

`processTxInputs` and `processPayments` of `node/app.js`.
-/

namespace CilCore.App

/-- `_verifyPayToAddr`. -/
def verifyPayToAddr (F : Factory) (address : Address) (signature : Option Signature)
    (buffSignedData : Hash) : Except String Unit :=
  match signature with
  | none => .error "Expected a signature"
  | some signature =>
      match F.recoverAddress buffSignedData signature with
      | .error error => .error error
      | .ok signer => if address = signer then .ok () else .error "Claim failed!"

/-- The proof that an input has to present. -/
def claimProof (tx : Transaction) (i : Nat) : Option Signature :=
  if tx.claimProofs.isEmpty then tx.txSignature else tx.claimProofs[i]?

/-- One turn of the loop of `processTxInputs`. -/
def processTxInput (F : Factory) (tx : Transaction) (patchForBlock : PatchDB) (i : Nat)
    (input : Input) (patch : PatchDB) (totalHas : Amount) : Except String (PatchDB × Amount) :=
  match patchForBlock.getUtxo input.txHash with
  | none => .error "UTXO not found in patch"
  | some utxo =>
      match utxo.coinsAtIndex input.nTxOutput with
      | .error error => .error error
      | .ok coins =>
          match verifyPayToAddr F coins.receiverAddr (claimProof tx i) (tx.hash F) with
          | .error error => .error error
          | .ok () =>
              match patch.spendCoins input.txHash utxo input.nTxOutput (tx.hash F) with
              | .error error => .error error
              | .ok patch => .ok (patch, totalHas + coins.amount)

/-- What processing an input needs and does. -/
theorem processTxInput_ok {F : Factory} {tx : Transaction} {view patch patch' : PatchDB} {i : Nat}
    {input : Input} {totalHas totalHas' : Amount}
    (h : processTxInput F tx view i input patch totalHas = .ok (patch', totalHas')) :
    ∃ utxo coins, view.getUtxo input.txHash = some utxo ∧
      utxo.lookup input.nTxOutput = some coins ∧
      verifyPayToAddr F coins.receiverAddr (claimProof tx i) (tx.hash F) = .ok () ∧
      input.nTxOutput ∈ ((patch.getUtxo input.txHash).getD utxo).keys ∧
      patch' = (patch.setUtxo input.txHash (((patch.getUtxo input.txHash).getD utxo).erase
        input.nTxOutput)).setSpentOutput input.txHash input.nTxOutput (tx.hash F) ∧
      totalHas' = totalHas + coins.amount := by
  unfold processTxInput at h
  cases hutxo : view.getUtxo input.txHash with
  | none => simp [hutxo] at h
  | some utxo =>
      cases hcoins : utxo.lookup input.nTxOutput with
      | none => simp [hutxo, hcoins, UTXO.coinsAtIndex] at h
      | some coins =>
          cases hverify : verifyPayToAddr F coins.receiverAddr (claimProof tx i) (tx.hash F) with
          | error error => simp [hutxo, hcoins, UTXO.coinsAtIndex, hverify] at h
          | ok verified =>
              by_cases hkey : input.nTxOutput ∈ ((patch.getUtxo input.txHash).getD utxo).keys
              · simp only [hutxo, hcoins, UTXO.coinsAtIndex, hverify, PatchDB.spendCoins,
                  UTXO.spendCoins, if_pos hkey, Except.ok.injEq, Prod.mk.injEq] at h
                exact ⟨utxo, coins, rfl, hcoins, hverify, hkey, h.1.symm, h.2.symm⟩
              · simp [hutxo, hcoins, UTXO.coinsAtIndex, hverify, PatchDB.spendCoins,
                  UTXO.spendCoins, if_neg hkey] at h

/-- The loop of `processTxInputs`, from input `i` on. -/
def processTxInputsFrom (F : Factory) (tx : Transaction) (patchForBlock : PatchDB) :
    Nat → List Input → PatchDB → Amount → Except String (PatchDB × Amount)
  | _, [], patch, totalHas => .ok (patch, totalHas)
  | i, input :: rest, patch, totalHas =>
      match processTxInput F tx patchForBlock i input patch totalHas with
      | .error error => .error error
      | .ok (patch, totalHas) => processTxInputsFrom F tx patchForBlock (i + 1) rest patch totalHas

/-- `processTxInputs`: a patch that spends the inputs, and their sum. -/
def processTxInputs (F : Factory) (tx : Transaction) (patchForBlock : PatchDB) :
    Except String (PatchDB × Amount) :=
  processTxInputsFrom F tx patchForBlock 0 tx.inputs PatchDB.empty 0

/-- The loop of `processPayments`, from output `i` on. -/
def processPaymentsFrom (txHash : Hash) : Nat → List Coins → PatchDB → Amount →
    Except String (PatchDB × Amount)
  | _, [], patch, totalSent => .ok (patch, totalSent)
  | i, coins :: rest, patch, totalSent =>
      if coins.amount = 0 then processPaymentsFrom txHash (i + 1) rest patch totalSent
      else
        match patch.createCoins txHash i coins with
        | .error error => .error error
        | .ok patch => processPaymentsFrom txHash (i + 1) rest patch (totalSent + coins.amount)

/-- Payments change nothing but coins. -/
theorem processPaymentsFrom_frame {txHash : Hash} {coinsList : List Coins} :
    ∀ {i : Nat} {patch patch' : PatchDB} {totalSent totalSent' : Amount},
      processPaymentsFrom txHash i coinsList patch totalSent = .ok (patch', totalSent') →
        patch' = { patch with coins := patch'.coins } := by
  induction coinsList with
  | nil =>
      intro i patch patch' totalSent totalSent' h
      cases h
      rfl
  | cons coins rest ih =>
      intro i patch patch' totalSent totalSent' h
      rw [processPaymentsFrom] at h
      split at h
      next => exact ih h
      next =>
        split at h
        next => cases h
        next created hcreated =>
          obtain ⟨createdCoins, rfl⟩ : ∃ coins, created = { patch with coins } := by
            unfold PatchDB.createCoins at hcreated
            split at hcreated
            next => cases hcreated
            next =>
              cases hcreated
              exact ⟨_, rfl⟩
          have hrest := ih h
          exact hrest

/-- `processPayments`: create the outputs, skipping the first ones. -/
def processPayments (F : Factory) (tx : Transaction) (patch : PatchDB) (nStartFromIdx : Nat) :
    Except String (PatchDB × Amount) :=
  processPaymentsFrom (tx.hash F) nStartFromIdx (tx.getOutCoins.drop nStartFromIdx) patch 0

end CilCore.App
