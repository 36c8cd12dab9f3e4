import CilCore.Storage.Patch

/-!
# The storage of a node

The part of `storage/persistentStorage.js` that holds the stable state: unspent
outputs and contracts. It changes only by applying the patch of blocks that have
become stable.
-/

namespace CilCore

/-- What the database holds under the UTXO and the contract prefix. -/
structure Storage where
  utxos : FinMap Hash UTXO
  contracts : FinMap Address Contract
deriving DecidableEq

namespace Storage

/-- A fresh database. -/
def empty : Storage := ⟨∅, ∅⟩

/-- `getUtxo`. -/
def getUtxo (storage : Storage) (hash : Hash) : Except String UTXO :=
  match storage.utxos.lookup hash with
  | some utxo => .ok utxo
  | none => .error "Storage: UTXO not found !"

/-- `getUtxosPatch`: a patch with the coins that storage has of the hashes. -/
def getUtxosPatch (storage : Storage) (arrUtxoHashes : List Hash) : PatchDB :=
  arrUtxoHashes.foldl (fun patch hash =>
    match storage.getUtxo hash with
    | .ok utxo => patch.setUtxo hash utxo
    | .error _ => patch) PatchDB.empty

/-- `checkTxCollision`. -/
def checkTxCollision (storage : Storage) (arrTxHashes : List Hash) : Except String Unit :=
  if arrTxHashes.any fun txHash => (storage.utxos.lookup txHash).isSome then
    .error "Tx collision!"
  else .ok ()

/-- `getContract`: every call decodes a new object, which is told its address. -/
def getContract (storage : Storage) (address : Address) : Option Contract :=
  (storage.contracts.lookup address).map fun contract => { contract with strAddress := address }

/-- `_ensureArrConciliumDefinition`: the definitions in the concilium contract. -/
def arrConciliumDefinition (F : Factory) (storage : Storage) : List ConciliumDefinition :=
  match F.constants.CONCILIUM_DEFINITION_CONTRACT_ADDRESS with
  | none => []
  | some address =>
      match storage.getContract address with
      | none => []
      | some contract => F.arrConciliums (contract.data F)

/-- `getConciliumById`. -/
def getConciliumById (F : Factory) (storage : Storage) (id : Nat) :
    Except String (Option ConciliumDefinition) :=
  match F.constants.CONCILIUM_DEFINITION_CONTRACT_ADDRESS with
  | none => .ok none
  | some _ =>
      match (storage.arrConciliumDefinition F)[id]? with
      | none => .error "ConciliumId exceed number registered conciliums"
      | some definition => .ok (some definition)

/-- `getConciliumsCount`. -/
def getConciliumsCount (F : Factory) (storage : Storage) : Nat :=
  ((storage.arrConciliumDefinition F).filter (·.isEnabled)).length

/-- The contract as `applyPatch` writes it. -/
def storedContract (F : Factory) (nHeightMax : Nat) (contract : Contract) : Option Contract :=
  let contract :=
    if nHeightMax < F.constants.forks.HEIGHT_FORK_SERIALIZER_FIX3 then contract.dirtyWorkaround F
    else contract
  (contract.clone F).toOption

/-- `applyPatch`: emptied UTXOs are deleted, the others are written over. -/
def applyPatch (F : Factory) (statePatch : PatchDB) (nHeightMax : Nat) (storage : Storage) :
    Storage where
  utxos := FinMap.zipWith
    (fun _ patched stored =>
      match patched with
      | some utxo => if utxo.isEmpty then none else some utxo
      | none => stored)
    statePatch.coins storage.utxos
  contracts := FinMap.zipWith
    (fun _ patched stored =>
      match patched with
      | some contract => storedContract F nHeightMax contract
      | none => stored)
    statePatch.mapContractStates storage.contracts

end Storage

end CilCore
