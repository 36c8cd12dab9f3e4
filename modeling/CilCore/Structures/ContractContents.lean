import CilCore.Structures.Contract

/-!
# What a contract contains

The data and the balance of a contract, and what becomes of them when the contract is
encoded and decoded again.
-/

namespace CilCore

/-- `v8.deserialize` undoes `v8.serialize`. -/
def Factory.ReadsBack (F : Factory) : Prop :=
  ∀ data, F.v8Deserialize (F.v8Serialize data) = data

theorem Factory.readsBack_sample : Factory.sample.ReadsBack := fun _ => rfl

namespace Contract

/-- The data and the balance. -/
def contents (F : Factory) (contract : Contract) : Data × Amount :=
  (contract.data F, contract.balance)

/-- If a contract has its data both encoded and decoded, they are the same. -/
def Coherent (F : Factory) (contract : Contract) : Prop :=
  ∀ bytes data, contract.contractData = some bytes → contract.cacheData = some data →
    deserialize F contract.version bytes = data

variable {F : Factory} {contract copy : Contract}

/-! ### The concilium -/

@[simp] theorem conciliumId_ensureData (F : Factory) (contract : Contract) :
    (contract.ensureData F).conciliumId = contract.conciliumId := by
  unfold ensureData
  split <;> rfl

@[simp] theorem conciliumId_updateData (data : Data) (contract : Contract) :
    (contract.updateData data).conciliumId = contract.conciliumId := rfl

@[simp] theorem conciliumId_switchSerializerToJson (F : Factory) (contract : Contract) :
    (contract.switchSerializerToJson F).conciliumId = contract.conciliumId := rfl

@[simp] theorem conciliumId_dirtyWorkaround (F : Factory) (contract : Contract) :
    (contract.dirtyWorkaround F).conciliumId = contract.conciliumId := by
  unfold dirtyWorkaround
  split <;> rfl

theorem conciliumId_withdraw {amount : Amount} {after : Contract}
    (h : contract.withdraw amount = .ok after) : after.conciliumId = contract.conciliumId := by
  unfold withdraw at h
  obtain ⟨-, rfl⟩ := guard_eq_ok.mp h
  rfl

theorem conciliumId_clone (h : contract.clone F = .ok copy) :
    copy.conciliumId = contract.conciliumId := by
  unfold clone at h
  split at h
  next => cases h
  next hsome =>
    cases h
    exact hsome.symm

/-! ### Encoding -/

theorem deserialize_serialize (hF : F.ReadsBack) (version : ContractVersion) (data : Data) :
    deserialize F version (serialize F version data) = data := by
  cases version with
  | CONTRACT_V_V8 => exact hF data
  | CONTRACT_V_JSON => rfl

theorem coherent_of_cacheData (h : contract.cacheData = none) : contract.Coherent F := by
  intro bytes data _ hdata
  rw [h] at hdata
  cases hdata

theorem coherent_of_contractData (h : contract.contractData = none) : contract.Coherent F := by
  intro bytes data hbytes
  rw [h] at hbytes
  cases hbytes

theorem Coherent.ensureData (hF : F.ReadsBack) (h : contract.Coherent F) :
    (contract.ensureData F).Coherent F := by
  unfold Contract.ensureData
  split
  next data _ hdata =>
    intro bytes data' hbytes hdata'
    cases hbytes
    rw [hdata] at hdata'
    cases hdata'
    exact deserialize_serialize hF _ _
  next => exact h

theorem Coherent.dirtyWorkaround (h : contract.Coherent F) :
    (contract.dirtyWorkaround F).Coherent F := by
  unfold Contract.dirtyWorkaround
  split
  next => exact h
  next => exact coherent_of_cacheData rfl

theorem data_of_cacheData (h : contract.cacheData = none) :
    contract.data F = deserialize F contract.version (contract.contractData.getD []) := by
  rw [data, h]

/-- The workaround keeps the data. -/
theorem contents_dirtyWorkaround (hF : F.ReadsBack) (contract : Contract) :
    (contract.dirtyWorkaround F).contents F = contract.contents F := by
  unfold dirtyWorkaround
  split
  next => rfl
  next =>
    have hdata : F.v8Deserialize (F.v8Serialize (F.v8Deserialize (F.v8Serialize
        (contract.data F)))) = contract.data F := by rw [hF, hF]
    exact Prod.ext hdata rfl

theorem ensureData_of_cacheData (h : contract.cacheData = none) :
    contract.ensureData F = contract := by
  unfold ensureData
  split
  next data _ hdata =>
    rw [h] at hdata
    cases hdata
  next => rfl

theorem cacheData_clone (h : contract.clone F = .ok copy) : copy.cacheData = none := by
  unfold clone at h
  split at h
  next => cases h
  next =>
    cases h
    rfl

theorem data_clone (h : contract.clone F = .ok copy) :
    copy.data F =
      deserialize F contract.version ((contract.ensureData F).contractData.getD []) := by
  rw [data_of_cacheData (cacheData_clone h)]
  unfold clone at h
  split at h
  next => cases h
  next =>
    cases h
    rfl

/-- A copy of something that is only encoded has the same data and balance. -/
theorem contents_clone_of_cacheData (hcache : contract.cacheData = none)
    (h : contract.clone F = .ok copy) : copy.contents F = contract.contents F := by
  refine Prod.ext ?_ (balance_clone h)
  change copy.data F = contract.data F
  rw [data_clone h, ensureData_of_cacheData hcache, data_of_cacheData hcache]

/-- A copy has the same data and balance. -/
theorem contents_clone (hF : F.ReadsBack) (hcontract : contract.Coherent F)
    (h : contract.clone F = .ok copy) : copy.contents F = contract.contents F := by
  cases hcache : contract.cacheData with
  | none => exact contents_clone_of_cacheData hcache h
  | some data =>
      refine Prod.ext ?_ (balance_clone h)
      change copy.data F = contract.data F
      rw [data_clone h]
      have hown : contract.data F = data := by rw [Contract.data, hcache]
      cases hdata : contract.contractData with
      | none =>
          simp only [ensureData, hcache, hdata, Option.getD_some, hown]
          exact deserialize_serialize hF _ _
      | some bytes =>
          simp only [ensureData, hcache, hdata, Option.getD_some, hown]
          exact hcontract bytes data hdata hcache

end Contract

end CilCore
