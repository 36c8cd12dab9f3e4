import CilCore.Wallet.ListedUtxo
import CilCore.Wallet.TxDraft

/-!
# Stored wallets

`node/storedWallets.js` with the part of `storage/persistentStorage.js` under
it: an account is a list of addresses with a keystore each, its coins are listed
per address, and a payment gathers them address by address until they cover the
amount and a fee for every input.
-/

namespace CilCore

/-- The wallet part of the storage. UTXOs are stored under the hashes of their
transactions, and the addresses of an account are the names of its key files. -/
structure WalletStorage where
  /-- `_arrStrWalletAddresses`: the addresses that are watched. -/
  arrStrWalletAddresses : List Address
  /-- `_walletReadAddressRecords`: hashes that were recorded for an address. -/
  addressRecords : Address → List Hash
  /-- `getUtxo`, which throws for a hash without a UTXO. -/
  getUtxo : Hash → Option ListedUtxo
  getUtxo_hash : ∀ hash utxo, getUtxo hash = some utxo → utxo.txHash = hash
  /-- `getAccountAddresses`. An unknown account is created without addresses. -/
  getAccountAddresses : String → List Address
  nodup_addresses : ∀ strAccountName, (getAccountAddresses strAccountName).Nodup
  /-- `getKeystoresForAccount`: it throws if a key file cannot be read. -/
  getKeystoresForAccount : String → Except String (Address → Option Keystore)

namespace WalletStorage

/-- The loop of `walletListUnspent`. Repeated hashes, UTXOs that are gone and
those without coins of the address are marked for cleanup and left out. -/
def listUnspent (S : WalletStorage) (strAddress : Address) :
    List Hash → List Hash → List ListedUtxo
  | _, [] => []
  | setHashes, hash :: rest =>
      if hash ∈ setHashes then S.listUnspent strAddress setHashes rest
      else match S.getUtxo hash with
        | none => S.listUnspent strAddress (hash :: setHashes) rest
        | some utxo =>
            let utxoFiltered := utxo.filterOutputsForAddress strAddress
            if utxoFiltered.isEmpty then S.listUnspent strAddress (hash :: setHashes) rest
            else utxoFiltered :: S.listUnspent strAddress (hash :: setHashes) rest

/-- `walletListUnspent`. -/
def walletListUnspent (S : WalletStorage) (strAddress : Address) :
    Except String (List ListedUtxo) :=
  if strAddress ∉ S.arrStrWalletAddresses then .error "not in wallet!"
  else .ok (S.listUnspent strAddress [] (S.addressRecords strAddress))

end WalletStorage

/-- What `_gatherInputsForAmount` returns. -/
structure GatheredInputs where
  arrCoins : List UnspentCoins
  gathered : Amount
  bDone : Bool

/-- `StoredWallet`. Fees are rates of `Constants.fees.TX_FEE`: 0.12 of it for an
input and 0.04 of it for a receiver. -/
structure StoredWallet where
  storage : WalletStorage
  /-- `_mapAccountPasswords`: passwords of the unlocked accounts. -/
  mapAccountPasswords : String → Option String
  nFeePerInput : Amount
  nFeePerReceiver : Amount
  /-- `Constants.fees.TX_FEE`. -/
  TX_FEE : Nat

/-- The parameters of `sendToAddress`. -/
structure SendParameters where
  strAccountName : String
  strAddressTo : Address
  nAmount : Amount
  strChangeAddress : Address
  nConciliumId : Nat := 1

/-- The parameters of `callContract`. The invocation stands for the method and its
arguments: its text, or the exception of parsing them. -/
structure CallParameters where
  strAccountName : String
  strAddressContract : Address
  objCodeInvoke : Except String String
  nAmount : Amount
  strChangeAddress : Address
  nConciliumId : Nat := 1
  nCoinLimit : Amount := 50000
  strSignerAddress : Option Address := none

namespace StoredWallet

variable (W : StoredWallet)

/-- The loop of `_gatherInputsForAmount`. -/
def gatherLoop (amount : Amount) : List UnspentCoins → List UnspentCoins → Amount → GatheredInputs
  | [], arrCoins, gathered => ⟨arrCoins, gathered, false⟩
  | coins :: rest, arrCoins, gathered =>
      if coins.amount = 0 then gatherLoop amount rest arrCoins gathered
      else if gathered + coins.amount > amount + W.nFeePerInput * (arrCoins.length + 1) then
        ⟨arrCoins ++ [coins], gathered + coins.amount, true⟩
      else gatherLoop amount rest (arrCoins ++ [coins]) (gathered + coins.amount)

/-- `_gatherInputsForAmount`. -/
def gatherInputsForAmount (arrObjUnspent : List UnspentCoins) (amount : Amount) :
    GatheredInputs :=
  W.gatherLoop amount arrObjUnspent [] 0

/-- The loop of `_formTxInputs` over the addresses of the account. -/
def formTxInputsLoop : List Address → TxDraft → Amount → Amount → List Address →
    Except String (TxDraft × Amount × List Address)
  | [], tx, nTotalGathered, _, arrAddressesOwners => .ok (tx, nTotalGathered, arrAddressesOwners)
  | strAddress :: rest, tx, nTotalGathered, restOfAmount, arrAddressesOwners => do
      let arrUtxos ← W.storage.walletListUnspent strAddress
      let r := W.gatherInputsForAmount (finePrintUtxos arrUtxos)
        (restOfAmount + W.nFeePerInput * arrAddressesOwners.length)
      let tx ← r.arrCoins.foldlM (fun tx objCoin => tx.addInput objCoin.hash objCoin.nOut) tx
      let arrAddressesOwners := arrAddressesOwners ++ r.arrCoins.map fun _ => strAddress
      if r.bDone then .ok (tx, nTotalGathered + r.gathered, arrAddressesOwners)
      else
        formTxInputsLoop rest tx (nTotalGathered + r.gathered) (restOfAmount - r.gathered)
          arrAddressesOwners

/-- `_formTxInputs`: the transaction with its inputs, what they are worth and who
owns them. -/
def formTxInputs (tx : TxDraft) (arrAddresses : List Address) (nAmount : Amount) :
    Except String (TxDraft × Amount × List Address) :=
  W.formTxInputsLoop arrAddresses tx 0 nAmount []

/-- `_estimateSizeContractInvoke`. -/
def estimateSizeContractInvoke (objContractInvoke : String) : Amount :=
  let nSize := objContractInvoke.length + 20 + 4
  W.nFeePerReceiver + (W.TX_FEE * nSize / 1024 : Nat) + 1

variable (C : Crypto)

/-- The key of an address. A missing keystore cannot be destructured. -/
def readKey (password : String) (mapAddrKeystore : Address → Option Keystore)
    (strAddress : Address) : Except String (Option PrivateKey) :=
  match mapAddrKeystore strAddress with
  | none => .error "Cannot destructure property of undefined"
  | some keystore => C.decrypt password keystore

/-- `_ensurePk`. An owner that is repeated has the same key again. -/
def ensurePk (password : String) (mapAddrKeystore : Address → Option Keystore) :
    List Address → Except String (Address → Option PrivateKey)
  | [] => .ok fun _ => none
  | strAddress :: rest => do
      let strPrivateKey ← readKey C password mapAddrKeystore strAddress
      let mapUnencryptedKeys ← ensurePk password mapAddrKeystore rest
      .ok fun a => if a = strAddress then strPrivateKey else mapUnencryptedKeys a

/-- The claims of `_claimFundsAndSignTx`: the transaction as far as it was
claimed, and the exception that ended the loop. -/
def claimFunds (mapUnencryptedKeys : Address → Option PrivateKey) :
    Nat → List Address → TxDraft → TxDraft × Option String
  | _, [], tx => (tx, none)
  | i, strAddress :: rest, tx =>
      match mapUnencryptedKeys strAddress with
      | none => (tx, some "Private key not found")
      | some pk =>
          match tx.claim C i pk with
          | .error e => (tx, some e)
          | .ok tx => claimFunds mapUnencryptedKeys (i + 1) rest tx

/-- `_claimFundsAndSignTx`: the transaction as the function leaves it, and the
exception that rejects its promise. -/
def claimFundsAndSignTx (tx : TxDraft) (arrAddressesOwners : List Address)
    (mapAddrKeystore : Address → Option Keystore) (strPassword : String)
    (strAddrToSign : Option Address) : TxDraft × Option String :=
  match ensurePk C strPassword mapAddrKeystore arrAddressesOwners with
  | .error e => (tx, some e)
  | .ok mapUnencryptedKeys =>
      match claimFunds C mapUnencryptedKeys 0 arrAddressesOwners tx with
      | (tx, some e) => (tx, some e)
      | (tx, none) =>
          match strAddrToSign.bind mapUnencryptedKeys with
          | some signPk => (tx.signForContract C signPk, none)
          | none => (tx, none)

/-- The check that an account is unlocked. -/
def password (strAccountName : String) : Except String String :=
  match W.mapAccountPasswords strAccountName with
  | none => .error "unlockAccount first"
  | some strPassword => .ok strPassword

/-- The end of both kinds of payment: gather the inputs, return the change, and
claim. Nobody awaits the promise of the claims, so their exception is lost. -/
def payAndClaim (tx : TxDraft) (strAccountName strPassword : String) (nReqPlusOutputs : Amount)
    (addReceivers : TxDraft → Except String TxDraft) (strChangeAddress : Address)
    (strAddrToSign : Option Address) : Except String TxDraft := do
  let (tx, nTotalGathered, arrAddressesOwners) ← W.formTxInputs tx
    (W.storage.getAccountAddresses strAccountName) nReqPlusOutputs
  let nRequired := nReqPlusOutputs + arrAddressesOwners.length * W.nFeePerInput
  if nTotalGathered < nRequired then .error "Not enough coins to send."
  else do
    let tx ← addReceivers tx
    let tx ← if nTotalGathered - nRequired ≠ 0 then
        tx.addReceiver (nTotalGathered - nRequired) strChangeAddress
      else .ok tx
    let mapAddrKeystore ← W.storage.getKeystoresForAccount strAccountName
    .ok (claimFundsAndSignTx C tx arrAddressesOwners mapAddrKeystore strPassword strAddrToSign).1

/-- `sendToAddress`. -/
def sendToAddress (p : SendParameters) : Except String TxDraft := do
  let strPassword ← W.password p.strAccountName
  W.payAndClaim C { payload := { conciliumId := p.nConciliumId } } p.strAccountName strPassword
    (p.nAmount + W.nFeePerReceiver * 2) (fun tx => tx.addReceiver p.nAmount p.strAddressTo)
    p.strChangeAddress none

/-- `callContract`. -/
def callContract (p : CallParameters) : Except String TxDraft := do
  let strPassword ← W.password p.strAccountName
  let objCodeInvoke ← p.objCodeInvoke
  let tx := TxDraft.invokeContract p.strAddressContract objCodeInvoke p.nAmount
    (some p.strChangeAddress)
  let tx : TxDraft := { tx with payload := { tx.payload with conciliumId := p.nConciliumId } }
  if p.strSignerAddress.any fun a => a ∉ W.storage.getAccountAddresses p.strAccountName then
    .error "Signer address specified BUT not found in account"
  else
    W.payAndClaim C tx p.strAccountName strPassword
      (p.nAmount + p.nCoinLimit + W.nFeePerReceiver + W.estimateSizeContractInvoke objCodeInvoke)
      .ok p.strChangeAddress p.strSignerAddress

end StoredWallet

end CilCore
