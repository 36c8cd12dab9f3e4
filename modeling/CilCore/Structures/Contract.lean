import CilCore.Factory

/-!
# Contracts

`structures/contract.js`: the balance of a contract and its data, which is kept
decoded in a cache, encoded in the record, or both, and which was serialized in
one of two ways. The contract's code is a text that only the virtual machine reads.
-/

namespace CilCore

/-- `Constants.CONTRACT_V_V8` and `Constants.CONTRACT_V_JSON`. -/
inductive ContractVersion where
  | CONTRACT_V_V8
  | CONTRACT_V_JSON
deriving DecidableEq, Repr

/-- `Contract`. -/
structure Contract where
  strAddress : Address
  conciliumId : Option Nat := none
  balance : Amount := 0
  version : ContractVersion
  contractData : Option Bytes := none
  contractCode : Option String := none
  cacheData : Option Data := none
  bDataModified : Bool := false
  bPatched : Bool := false
deriving DecidableEq

/-- What the constructor of a contract leaves: its data, and the functions it exports. -/
structure Constructed where
  data : Data
  objCode : String

namespace Contract

/-- The constructor, given decoded data. -/
def new (strAddress : Address) (data : Data) (contractCode : String) (version : ContractVersion) :
    Contract where
  strAddress := strAddress
  version := version
  contractCode := some contractCode
  cacheData := some data
  bDataModified := true

/-- `_serialize`. -/
def serialize (F : Factory) (version : ContractVersion) (data : Data) : Bytes :=
  match version with
  | .CONTRACT_V_JSON => data
  | .CONTRACT_V_V8 => F.v8Serialize data

/-- `_deserialize`. -/
def deserialize (F : Factory) (version : ContractVersion) (bytes : Bytes) : Data :=
  match version with
  | .CONTRACT_V_JSON => bytes
  | .CONTRACT_V_V8 => F.v8Deserialize bytes

/-- `serializeContractDataJson({})`: the text `\x7b\x7d`. -/
def emptyData : Data := [123, 125]

/-- `getSizeOfEmptyData`. -/
def getSizeOfEmptyData (F : Factory) (contract : Contract) : Nat :=
  (serialize F contract.version emptyData).length

/-- What `getData` returns. -/
def data (F : Factory) (contract : Contract) : Data :=
  match contract.cacheData with
  | some data => data
  | none => deserialize F contract.version (contract.contractData.getD [])

/-- `getData`, which fills the cache. -/
def getData (F : Factory) (contract : Contract) : Contract :=
  { contract with cacheData := some (contract.data F) }

/-- `_ensureData`. -/
def ensureData (F : Factory) (contract : Contract) : Contract :=
  match contract.contractData, contract.cacheData with
  | none, some data => { contract with contractData := some (serialize F contract.version data) }
  | _, _ => contract

/-- `getDataSize`: the size of the encoded data beyond that of no data. -/
def getDataSize (F : Factory) (contract : Contract) : Nat :=
  ((contract.ensureData F).contractData.getD []).length - contract.getSizeOfEmptyData F

/-- `getDataBuffer`. -/
def getDataBuffer (F : Factory) (contract : Contract) : Except String Bytes :=
  match contract.bDataModified, contract.contractData, contract.cacheData with
  | false, some (byte :: bytes), _ => .ok (byte :: bytes)
  | _, _, some data => .ok (serialize F contract.version data)
  | _, _, _ => .error "Unexpected situation"

/-- `updateData`. -/
def updateData (data : Data) (contract : Contract) : Contract :=
  { contract with bDataModified := true, cacheData := some data, contractData := none }

/-- `switchSerializerToJson`. -/
def switchSerializerToJson (F : Factory) (contract : Contract) : Contract :=
  { contract.getData F with version := .CONTRACT_V_JSON, contractData := none }

/-- `dirtyWorkaround`. -/
def dirtyWorkaround (F : Factory) (contract : Contract) : Contract :=
  if !contract.bPatched && contract.version ≠ .CONTRACT_V_JSON && !contract.bDataModified then
    contract
  else
    { contract with
      version := .CONTRACT_V_V8
      contractData :=
        some (F.v8Serialize (F.v8Deserialize (F.v8Serialize (contract.data F))))
      cacheData := none
      bPatched := true }

/-- `clone`: the contract encoded and decoded again. -/
def clone (F : Factory) (contract : Contract) : Except String Contract :=
  match contract.conciliumId with
  | none => .error "Contract \"conciliumId\" not specified!"
  | some conciliumId => .ok
      { strAddress := contract.strAddress
        conciliumId := some conciliumId
        balance := contract.balance
        version := contract.version
        contractData := (contract.ensureData F).contractData
        contractCode := contract.contractCode }

/-- `deposit`, for a contract that is not a proxy. -/
def deposit (amount : Amount) (contract : Contract) : Contract :=
  { contract with balance := contract.balance + amount }

/-- `withdraw`. -/
def withdraw (amount : Amount) (contract : Contract) : Except String Contract :=
  if contract.balance < amount then .error "Insufficient funds!"
  else .ok (contract.deposit (0 - amount))

/-- `setConciliumId`. -/
def setConciliumId (nConciliumId : Nat) (contract : Contract) : Contract :=
  { contract with conciliumId := some nConciliumId }

@[simp] theorem balance_getData (F : Factory) (contract : Contract) :
    (contract.getData F).balance = contract.balance := rfl

@[simp] theorem balance_updateData (data : Data) (contract : Contract) :
    (contract.updateData data).balance = contract.balance := rfl

@[simp] theorem balance_switchSerializerToJson (F : Factory) (contract : Contract) :
    (contract.switchSerializerToJson F).balance = contract.balance := rfl

@[simp] theorem balance_ensureData (F : Factory) (contract : Contract) :
    (contract.ensureData F).balance = contract.balance := by
  unfold ensureData
  split <;> rfl

@[simp] theorem balance_dirtyWorkaround (F : Factory) (contract : Contract) :
    (contract.dirtyWorkaround F).balance = contract.balance := by
  unfold dirtyWorkaround
  split <;> rfl

@[simp] theorem balance_setConciliumId (nConciliumId : Nat) (contract : Contract) :
    (contract.setConciliumId nConciliumId).balance = contract.balance := rfl

theorem balance_clone {F : Factory} {contract copy : Contract}
    (h : contract.clone F = .ok copy) : copy.balance = contract.balance := by
  unfold clone at h
  split at h
  next => cases h
  next =>
    injection h with h
    rw [← h]

@[simp] theorem strAddress_ensureData (F : Factory) (contract : Contract) :
    (contract.ensureData F).strAddress = contract.strAddress := by
  unfold ensureData
  split <;> rfl

@[simp] theorem strAddress_updateData (data : Data) (contract : Contract) :
    (contract.updateData data).strAddress = contract.strAddress := rfl

@[simp] theorem strAddress_switchSerializerToJson (F : Factory) (contract : Contract) :
    (contract.switchSerializerToJson F).strAddress = contract.strAddress := rfl

@[simp] theorem strAddress_dirtyWorkaround (F : Factory) (contract : Contract) :
    (contract.dirtyWorkaround F).strAddress = contract.strAddress := by
  unfold dirtyWorkaround
  split <;> rfl

theorem strAddress_withdraw {amount : Amount} {contract after : Contract}
    (h : contract.withdraw amount = .ok after) : after.strAddress = contract.strAddress := by
  unfold withdraw at h
  split at h
  next => cases h
  next =>
    injection h with h
    rw [← h]
    rfl

theorem strAddress_clone {F : Factory} {contract copy : Contract}
    (h : contract.clone F = .ok copy) : copy.strAddress = contract.strAddress := by
  unfold clone at h
  split at h
  next => cases h
  next =>
    injection h with h
    rw [← h]

end Contract

end CilCore
