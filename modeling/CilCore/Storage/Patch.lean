import CilCore.Structures.Contract
import CilCore.Structures.TxReceipt
import CilCore.Structures.Utxo

/-!
# Patches

`storage/patch.js`: the changes that transactions and blocks make to the set of
unspent outputs and to contracts. A patch knows which transaction spent which
output, so that two patches can be merged unless they spend one output twice.
-/

namespace CilCore

/-- `PatchDB`. A contract is kept under its own address. -/
structure PatchDB where
  coins : FinMap Hash UTXO
  mapSpentUtxos : FinMap Hash (FinMap Nat Hash)
  mapConciliumLevel : FinMap Nat Nat
  conciliumId : Option Nat
  mapContractStates : FinMap Address Contract
  mapTxReceipts : FinMap Hash TxReceipt
  nonce : Nat
  keyed : ∀ addr contract, mapContractStates.lookup addr = some contract →
    contract.strAddress = addr
deriving DecidableEq

namespace PatchDB

/-- The constructor without a concilium. -/
def empty : PatchDB where
  coins := ∅
  mapSpentUtxos := ∅
  mapConciliumLevel := ∅
  conciliumId := none
  mapContractStates := ∅
  mapTxReceipts := ∅
  nonce := 0
  keyed := by simp

/-! ### Coins -/

/-- `getUtxo`. -/
def getUtxo (patch : PatchDB) (txHash : Hash) : Option UTXO := patch.coins.lookup txHash

/-- `_getSpentOutputs`: the transaction that spent an output, by output index. -/
def getSpentOutputs (patch : PatchDB) (strUtxoHash : Hash) : FinMap Nat Hash :=
  (patch.mapSpentUtxos.lookup strUtxoHash).getD ∅

/-- `_setSpentOutput`. -/
def setSpentOutput (strUtxoHash : Hash) (nTxOutput : Nat) (txHashSpent : Hash)
    (patch : PatchDB) : PatchDB :=
  { patch with
    mapSpentUtxos := patch.mapSpentUtxos.insert strUtxoHash
      ((patch.getSpentOutputs strUtxoHash).insert nTxOutput txHashSpent) }

/-- `setUtxo`. -/
def setUtxo (txHash : Hash) (utxo : UTXO) (patch : PatchDB) : PatchDB :=
  { patch with coins := patch.coins.insert txHash utxo }

/-- `spendCoins`. -/
def spendCoins (strHash : Hash) (utxo : UTXO) (nTxOutput : Nat) (txHashSpent : Hash)
    (patch : PatchDB) : Except String PatchDB :=
  match ((patch.getUtxo strHash).getD utxo).spendCoins nTxOutput with
  | .error error => .error error
  | .ok utxoCopy => .ok
      ((patch.setUtxo strHash utxoCopy).setSpentOutput strHash nTxOutput txHashSpent)

/-- `createCoins`. -/
def createCoins (txHash : Hash) (idx : Nat) (coins : Coins) (patch : PatchDB) :
    Except String PatchDB :=
  match ((patch.getUtxo txHash).getD ∅).addCoins idx coins with
  | .error error => .error error
  | .ok utxo => .ok (patch.setUtxo txHash utxo)

/-- `hasUtxos`: whether any of the hashes has coins here. -/
def hasUtxos (patch : PatchDB) (arrUtxos : List Hash) : Bool :=
  arrUtxos.any fun hash => (patch.getUtxo hash).isSome

/-- `getNonce`: the current value, and the patch with the next one. -/
def getNonce (patch : PatchDB) : Nat × PatchDB :=
  (patch.nonce, { patch with nonce := patch.nonce + 1 })

/-! ### Levels, contracts and receipts -/

/-- `setConciliumId`. -/
def setConciliumId (nId : Nat) (patch : PatchDB) : Except String PatchDB :=
  if patch.conciliumId ≠ none then .error "\"conciliumId\" already specified!"
  else .ok { patch with
    conciliumId := some nId
    mapConciliumLevel := patch.mapConciliumLevel.insert nId
      ((patch.mapConciliumLevel.lookup nId).getD 0 + 1) }

/-- The constructor. -/
def new (nConciliumId : Nat) : PatchDB :=
  { empty with
    conciliumId := some nConciliumId
    mapConciliumLevel := (∅ : FinMap Nat Nat).insert nConciliumId 1 }

/-- `getLevel`. -/
def getLevel (patch : PatchDB) (nConciliumId : Option Nat) : Option Nat :=
  (nConciliumId.or patch.conciliumId).bind fun nId => patch.mapConciliumLevel.lookup nId

/-- `getContract`. -/
def getContract (patch : PatchDB) (contractAddr : Address) : Option Contract :=
  patch.mapContractStates.lookup contractAddr

/-- What `setContract` leaves under the address of a contract: one that is already
there only gets new data. -/
def recordedContract (F : Factory) (contract : Contract) (patch : PatchDB) : Contract :=
  match patch.getContract contract.strAddress with
  | some foundContract => foundContract.updateData (contract.data F)
  | none => contract

theorem strAddress_recordedContract (F : Factory) (contract : Contract) (patch : PatchDB) :
    (patch.recordedContract F contract).strAddress = contract.strAddress := by
  unfold recordedContract
  split
  next foundContract hfound => exact patch.keyed _ foundContract hfound
  next => rfl

/-- `setContract`. -/
def setContract (F : Factory) (contract : Contract) (patch : PatchDB) : PatchDB :=
  { patch with
    mapContractStates := patch.mapContractStates.insert contract.strAddress
      (patch.recordedContract F contract)
    keyed := by
      intro addr found hfound
      rw [FinMap.lookup_insert_ite] at hfound
      split at hfound
      next haddr =>
        injection hfound with hfound
        rw [← hfound, strAddress_recordedContract, haddr]
      next => exact patch.keyed addr found hfound }

/-- `getReceipt`. -/
def getReceipt (patch : PatchDB) (strTxHash : Hash) : Option TxReceipt :=
  patch.mapTxReceipts.lookup strTxHash

/-- `setReceipt`. -/
def setReceipt (strTxHash : Hash) (receipt : TxReceipt) (patch : PatchDB) :
    Except String PatchDB :=
  match patch.getReceipt strTxHash with
  | none => .ok { patch with mapTxReceipts := patch.mapTxReceipts.insert strTxHash receipt }
  | some sameTxReceipt =>
      if !sameTxReceipt.isSuccessful then
        .error "You shouldn't continue exec of already failed TX"
      else
        match sameTxReceipt.merge receipt with
        | .error error => .error error
        | .ok merged => .ok
            { patch with mapTxReceipts := patch.mapTxReceipts.insert strTxHash merged }

/-- A receipt changes nothing but the receipts. It is stored as it is, or merged into
the successful one that is there. -/
theorem setReceipt_ok {strTxHash : Hash} {receipt : TxReceipt} {patch patch' : PatchDB}
    (h : patch.setReceipt strTxHash receipt = .ok patch') :
    ∃ stored, patch' = { patch with
        mapTxReceipts := patch.mapTxReceipts.insert strTxHash stored } ∧
      (patch.getReceipt strTxHash = none ∧ stored = receipt ∨
        ∃ old, patch.getReceipt strTxHash = some old ∧ old.merge receipt = .ok stored) := by
  unfold setReceipt at h
  split at h
  next hnone =>
    cases h
    exact ⟨receipt, rfl, .inl ⟨hnone, rfl⟩⟩
  next old hold =>
    split at h
    next => cases h
    next =>
      split at h
      next => cases h
      next merged hmerge =>
        cases h
        exact ⟨merged, rfl, .inr ⟨old, hold, hmerge⟩⟩

/-! ### Merging -/

/-- Unspent outputs of a merge: outputs that only one patch still has are spent
in the other. -/
def mergeUtxo : Option UTXO → Option UTXO → Option UTXO
  | some utxoMy, some utxoHis =>
      some (FinMap.tabulate (utxoMy.keys ∩ utxoHis.keys) fun idx => utxoMy.lookup idx)
  | some utxo, none => some utxo
  | none, some utxo => some utxo
  | none, none => none

/-- Spent outputs of a merge, for a hash that either patch has coins of. -/
def mergeSpent (patch other : PatchDB) (coinHash : Hash) : FinMap Nat Hash :=
  if coinHash ∈ patch.coins.keys ∧ coinHash ∈ other.coins.keys then
    other.getSpentOutputs coinHash ∪ patch.getSpentOutputs coinHash
  else if patch.getSpentOutputs coinHash ≠ ∅ then patch.getSpentOutputs coinHash
  else other.getSpentOutputs coinHash

/-- Both patches spend an output of this hash, in different transactions. -/
def ConflictAt (patch other : PatchDB) (coinHash : Hash) : Prop :=
  ∃ idx ∈ (patch.getSpentOutputs coinHash).keys ∩ (other.getSpentOutputs coinHash).keys,
    (patch.getSpentOutputs coinHash).lookup idx ≠ (other.getSpentOutputs coinHash).lookup idx

instance (patch other : PatchDB) (coinHash : Hash) : Decidable (ConflictAt patch other coinHash) :=
  inferInstanceAs (Decidable (∃ _ ∈ _, _))

/-- The patches spend an output of a hash that both have coins of in different
transactions. -/
def Conflict (patch other : PatchDB) : Prop :=
  ∃ coinHash ∈ patch.coins.keys ∩ other.coins.keys, ConflictAt patch other coinHash

instance (patch other : PatchDB) : Decidable (Conflict patch other) :=
  inferInstanceAs (Decidable (∃ _ ∈ _, _))

/-- One concilium made both patches at the same level. -/
def Fork (patch other : PatchDB) : Prop :=
  patch.conciliumId ≠ none ∧ patch.conciliumId = other.conciliumId ∧
    patch.getLevel patch.conciliumId = other.getLevel other.conciliumId

instance (patch other : PatchDB) : Decidable (Fork patch other) :=
  inferInstanceAs (Decidable (_ ∧ _))

/-- `a >= b` on levels that may be undefined. -/
def levelGe : Option Nat → Option Nat → Bool
  | some a, some b => b ≤ a
  | _, _ => false

/-- The contract that survives a merge. -/
def winnerContract (bPreferPatchData : Bool) (patch other : PatchDB) :
    Option Contract → Option Contract → Option Contract
  | some contractThis, some contractPatch =>
      if bPreferPatchData ||
          levelGe (other.getLevel contractPatch.conciliumId)
            (patch.getLevel contractThis.conciliumId) then
        some contractPatch
      else some contractThis
  | some contract, none => some contract
  | none, contract => contract

theorem strAddress_winnerContract {bPreferPatchData : Bool} {patch other : PatchDB}
    {addr : Address} {winner : Contract}
    (h : winnerContract bPreferPatchData patch other (patch.mapContractStates.lookup addr)
      (other.mapContractStates.lookup addr) = some winner) :
    winner.strAddress = addr := by
  unfold winnerContract at h
  split at h
  next contractThis contractPatch hthis hother =>
    split at h
    · exact other.keyed addr winner (hother.trans h)
    · exact patch.keyed addr winner (hthis.trans h)
  next hthis _ => exact patch.keyed addr winner (hthis.trans h)
  next => exact other.keyed addr winner h

/-- Some contract belongs to different conciliums in the two patches. -/
def ContractConflict (patch other : PatchDB) : Prop :=
  ∃ strAddr ∈ patch.mapContractStates.keys ∩ other.mapContractStates.keys,
    (patch.getContract strAddr).map (·.conciliumId) ≠
      (other.getContract strAddr).map (·.conciliumId)

instance (patch other : PatchDB) : Decidable (ContractConflict patch other) :=
  inferInstanceAs (Decidable (∃ _ ∈ _, _))

/-- Some contract that would survive the merge has no concilium, so that it
cannot be encoded. -/
def ContractWithoutConcilium (bPreferPatchData : Bool) (patch other : PatchDB) : Prop :=
  ∃ strAddr ∈ patch.mapContractStates.keys ∪ other.mapContractStates.keys,
    (winnerContract bPreferPatchData patch other (patch.getContract strAddr)
      (other.getContract strAddr)).bind (·.conciliumId) = none

instance (bPreferPatchData : Bool) (patch other : PatchDB) :
    Decidable (ContractWithoutConcilium bPreferPatchData patch other) :=
  inferInstanceAs (Decidable (∃ _ ∈ _, _))

/-- The patches hold different receipts of one transaction. -/
def ReceiptConflict (patch other : PatchDB) : Prop :=
  ∃ strHash ∈ patch.mapTxReceipts.keys ∩ other.mapTxReceipts.keys,
    patch.getReceipt strHash ≠ other.getReceipt strHash

instance (patch other : PatchDB) : Decidable (ReceiptConflict patch other) :=
  inferInstanceAs (Decidable (∃ _ ∈ _, _))

/-- The patch that a merge without conflicts returns. It has no concilium. -/
def merged (F : Factory) (bPreferPatchData : Bool) (patch other : PatchDB) : PatchDB where
  coins := FinMap.zipWith (fun _ => mergeUtxo) patch.coins other.coins
  mapSpentUtxos := FinMap.tabulate (patch.coins.keys ∪ other.coins.keys) fun coinHash =>
    if mergeSpent patch other coinHash = ∅ then none else some (mergeSpent patch other coinHash)
  mapConciliumLevel := FinMap.zipWith
    (fun _ level level' =>
      if level.isSome || level'.isSome then some (max (level.getD 0) (level'.getD 0)) else none)
    patch.mapConciliumLevel other.mapConciliumLevel
  conciliumId := none
  mapContractStates := FinMap.zipWith
    (fun _ contractThis contractPatch =>
      (winnerContract bPreferPatchData patch other contractThis contractPatch).bind fun winner =>
        (winner.clone F).toOption)
    patch.mapContractStates other.mapContractStates
  mapTxReceipts := FinMap.zipWith (fun _ receipt receipt' => receipt.or receipt')
    patch.mapTxReceipts other.mapTxReceipts
  nonce := 0
  keyed := by
    intro addr contract hcontract
    rw [FinMap.lookup_zipWith _ _ _ (fun _ => rfl), Option.bind_eq_some_iff] at hcontract
    obtain ⟨winner, hwinner, hclone⟩ := hcontract
    cases hcopy : winner.clone F with
    | error error => simp [hcopy, Except.toOption] at hclone
    | ok copy =>
        have heq : copy = contract := by simpa [hcopy, Except.toOption] using hclone
        rw [← heq, Contract.strAddress_clone hcopy, strAddress_winnerContract hwinner]

/-- `merge`. -/
def merge (F : Factory) (patch other : PatchDB) (bPreferPatchData : Bool := false) :
    Except String PatchDB :=
  if !bPreferPatchData ∧ Fork patch other then .error "It seems we have unexpected fork!"
  else if Conflict patch other then .error "Patch merge: conflict"
  else if ContractConflict patch other then .error "Contract belongs to different conciliums"
  else if ContractWithoutConcilium bPreferPatchData patch other then
    .error "Contract \"conciliumId\" not specified!"
  else if ReceiptConflict patch other then .error "patch.merge: Tx Collision detected"
  else .ok (merged F bPreferPatchData patch other)

/-- When a merge succeeds, and what it returns. -/
theorem merge_eq_ok {F : Factory} {patch other result : PatchDB} {bPreferPatchData : Bool} :
    patch.merge F other bPreferPatchData = .ok result ↔
      ¬ (!bPreferPatchData ∧ Fork patch other) ∧ ¬ Conflict patch other ∧
        ¬ ContractConflict patch other ∧ ¬ ContractWithoutConcilium bPreferPatchData patch other ∧
        ¬ ReceiptConflict patch other ∧ merged F bPreferPatchData patch other = result := by
  simp only [merge, check_eq_ok, Except.ok.injEq]

/-! ### Purging -/

/-- The UTXO is unchanged since the other patch, and so are its spendings. -/
def SameUtxo (patch other : PatchDB) (hash : Hash) : Prop :=
  patch.getUtxo hash = other.getUtxo hash ∧
    patch.getSpentOutputs hash = other.getSpentOutputs hash

instance (patch other : PatchDB) (hash : Hash) : Decidable (SameUtxo patch other hash) :=
  inferInstanceAs (Decidable (_ ∧ _))

/-- Both patches have coins of the hash. -/
def BothHave (patch other : PatchDB) (hash : Hash) : Prop :=
  hash ∈ patch.coins.keys ∧ hash ∈ other.coins.keys

instance (patch other : PatchDB) (hash : Hash) : Decidable (BothHave patch other hash) :=
  inferInstanceAs (Decidable (_ ∧ _))

/-- Both patches have the contract, with the same encoded data. The data buffer
of a merged patch's contract is always there, so reading it does not throw. -/
def SameContract (F : Factory) (patch other : PatchDB) (contractAddr : Address) : Prop :=
  ∃ thisContract ∈ patch.getContract contractAddr,
    ∃ patchContract ∈ other.getContract contractAddr,
      thisContract.getDataBuffer F = patchContract.getDataBuffer F

instance (F : Factory) (patch other : PatchDB) (contractAddr : Address) :
    Decidable (SameContract F patch other contractAddr) :=
  match h : patch.getContract contractAddr, h' : other.getContract contractAddr with
  | none, _ => isFalse (by simp [SameContract, h])
  | some _, none => isFalse (by simp [SameContract, h'])
  | some c, some c' =>
      if heq : c.getDataBuffer F = c'.getDataBuffer F then
        isTrue ⟨c, h, c', h', heq⟩
      else isFalse (by simp [SameContract, h, h', heq])

/-- `purge`: forget what a stable patch already says, and take over its spendings. -/
def purge (F : Factory) (patch other : PatchDB) : PatchDB :=
  { patch with
    coins := FinMap.tabulate patch.coins.keys fun hash =>
      if BothHave patch other hash then
        if SameUtxo patch other hash then none
        else (patch.getUtxo hash).map fun utxo =>
          FinMap.tabulate (utxo.keys \ (other.getSpentOutputs hash).keys) fun idx =>
            utxo.lookup idx
      else patch.getUtxo hash
    mapSpentUtxos :=
      FinMap.tabulate (patch.mapSpentUtxos.keys ∪ patch.coins.keys) fun hash =>
        if BothHave patch other hash then
          if SameUtxo patch other hash then none
          else
            let taken : FinMap Nat Hash := FinMap.tabulate
              (((patch.getUtxo hash).getD ∅).keys ∩ (other.getSpentOutputs hash).keys)
              fun idx => (other.getSpentOutputs hash).lookup idx
            if taken = ∅ then patch.mapSpentUtxos.lookup hash
            else some (taken ∪ patch.getSpentOutputs hash)
        else patch.mapSpentUtxos.lookup hash
    mapContractStates := FinMap.tabulate patch.mapContractStates.keys fun contractAddr =>
      if SameContract F patch other contractAddr then none
      else patch.getContract contractAddr
    mapTxReceipts := FinMap.tabulate patch.mapTxReceipts.keys fun strHash =>
      if strHash ∈ other.mapTxReceipts.keys then none else patch.getReceipt strHash
    keyed := by
      intro addr contract hcontract
      rw [FinMap.lookup_tabulate] at hcontract
      split at hcontract
      next =>
        split at hcontract
        next => cases hcontract
        next => exact patch.keyed addr contract hcontract
      next => cases hcontract }

end PatchDB

end CilCore
