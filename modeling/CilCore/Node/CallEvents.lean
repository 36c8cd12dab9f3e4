import CilCore.Node.ContractAccounting

/-!
# The nested calls of a run, in order

What happens to contracts while the code of a method runs: they are loaded for nested
calls, coins are taken from them, and the calls return or fail. A call that returns
leaves its contract in the patch of the transaction.
-/

namespace CilCore

/-- Something that happens to a contract. -/
inductive CallEvent where
  /-- A nested call begins with this contract. -/
  | loaded (contract : Contract)
  /-- Coins are taken from the balance of a running contract. -/
  | sent (strAddress : Address) (amount : Amount)
  /-- A nested call returns: the contract it began with, and what it makes of it. -/
  | finished (delegate : Bool) (before after : Contract)
  /-- A nested call throws: the contract it began with, and what is left of it. -/
  | failed (delegate : Bool) (before after : Contract)

/-- A contract is made ready to be stored after a nested call. -/
def sealContract (F : Factory) (E : RunEnv) (contract : Contract) : Contract :=
  if E.isTimeToForkSerializer3 then (contract.ensureData F).dirtyWorkaround F
  else contract.ensureData F

@[simp] theorem balance_sealContract (F : Factory) (E : RunEnv) (contract : Contract) :
    (sealContract F E contract).balance = contract.balance := by
  unfold sealContract
  split <;> simp

@[simp] theorem strAddress_sealContract (F : Factory) (E : RunEnv) (contract : Contract) :
    (sealContract F E contract).strAddress = contract.strAddress := by
  unfold sealContract
  split <;> simp

/-- How a nested call ends. -/
def callEnd (delegate : Bool) (nested : Contract) (r : RunState × Contract × Except String Data) :
    CallEvent :=
  match r.2.2 with
  | .error _ => .failed delegate nested r.2.1
  | .ok data =>
      .finished delegate nested (updateAfterCall delegate data (if delegate then nested else r.2.1))

/-- What happens to contracts while the code of a method runs. -/
def callEvents (F : Factory) (E : RunEnv) : Code → Contract → RunState → List CallEvent
  | .done _, _, _ => []
  | .throws _, _, _ => []
  | .send strAddress amount k, holder, s =>
      let r := send F E strAddress amount holder s
      .sent holder.strAddress (holder.balance - r.2.1.balance) ::
        callEvents F E (k r.2.2) r.2.1 r.1
  | .call delegate strAddress coinsToPass callee k, holder, s =>
      match startCall F E strAddress coinsToPass s with
      | .error error => callEvents F E (k (some error)) holder s
      | .ok (nested, nCoinsLimit) =>
          let called := if delegate then holder else nested
          let r := runCode F E callee called { s with nCoinsLimit }
          let r' := endCall F E delegate holder nested r
          .loaded nested :: (callEvents F E callee called { s with nCoinsLimit } ++
            (callEnd delegate nested r :: callEvents F E (k r'.2.2) r'.2.1 r'.1))

/-- A contract that is put into the patch of the transaction, and whether the call that
puts it there was delegated. -/
structure Stored where
  delegate : Bool
  contract : Contract

/-- The contracts that returned calls put into the patch, in order. -/
def storedContracts (F : Factory) (E : RunEnv) (events : List CallEvent) : List Stored :=
  events.filterMap fun event =>
    match event with
    | .finished delegate _ after => some ⟨delegate, sealContract F E after⟩
    | _ => none

/-- The bytes that the data of contracts grows by. -/
def dataGrowth (F : Factory) (events : List CallEvent) : Int :=
  (events.map fun event =>
    match event with
    | .finished _ before after => (after.getDataSize F : Int) - before.getDataSize F
    | _ => 0).sum

/-! ### What is loaded -/

/-- The data that a contract has before the transaction. -/
def previousData (F : Factory) (storage : Storage) (patchForBlock : PatchDB)
    (contractAddr : Address) : Data :=
  match getContractByAddr F storage (some patchForBlock) contractAddr with
  | .ok (some contract) => contract.data F
  | _ => Contract.emptyData

@[simp] theorem data_ensureData (F : Factory) (contract : Contract) :
    (contract.ensureData F).data F = contract.data F := by
  unfold Contract.ensureData
  split
  next hcache => simp [Contract.data, hcache]
  next => rfl

@[simp] theorem data_switchSerializerToJson (F : Factory) (contract : Contract) :
    (contract.switchSerializerToJson F).data F = contract.data F := rfl

@[simp] theorem data_updateData (F : Factory) (data : Data) (contract : Contract) :
    (contract.updateData data).data F = data := rfl

section Run

variable {F : Factory} {E : RunEnv}

theorem startCall_data {strAddress : Address} {coinsToPass : Option Amount} {s : RunState}
    {nested : Contract} {nCoinsLimit : Amount}
    (h : startCall F E strAddress coinsToPass s = .ok (nested, nCoinsLimit)) :
    nested.data F = previousData F E.storage E.patchBlock strAddress := by
  unfold startCall at h
  split at h
  next => cases h
  next =>
    split at h
    next => cases h
    next => cases h
    next contract hcontract =>
      dsimp only at h
      split at h
      next => cases h
      next =>
        cases h
        rw [previousData, hcontract]
        cases E.isTimeToForkSerializer2 <;> simp

/-- Every nested call begins with the contract as it was before the transaction. -/
theorem callEvents_loaded (code : Code) (holder : Contract) (s : RunState) :
    ∀ contract, .loaded contract ∈ callEvents F E code holder s →
      contract.data F = previousData F E.storage E.patchBlock contract.strAddress ∧
      contract.balance = previousBalance E.storage E.patchBlock contract.strAddress := by
  induction code generalizing holder s with
  | done data => exact fun contract hmem => absurd hmem List.not_mem_nil
  | throws message => exact fun contract hmem => absurd hmem List.not_mem_nil
  | send strAddress amount k ih =>
      rw [callEvents]
      intro contract hmem
      rcases List.mem_cons.mp hmem with heq | hmem
      · cases heq
      · exact ih _ _ _ contract hmem
  | call delegate strAddress coinsToPass callee k ihcallee ihk =>
      cases hstart : startCall F E strAddress coinsToPass s with
      | error error =>
          simp only [callEvents, hstart]
          exact ihk _ _ _
      | ok started =>
          obtain ⟨nested, nCoinsLimit⟩ := started
          obtain ⟨haddress, hbalance⟩ := startCall_found hstart
          simp only [callEvents, hstart]
          intro contract hmem
          rcases List.mem_cons.mp hmem with heq | hmem
          · cases heq
            exact ⟨haddress ▸ startCall_data hstart, haddress ▸ hbalance⟩
          rcases List.mem_append.mp hmem with hmem | hmem
          · exact ihcallee _ _ contract hmem
          rcases List.mem_cons.mp hmem with heq | hmem
          · unfold callEnd at heq
            split at heq <;> cases heq
          · exact ihk _ _ _ contract hmem

/-! ### What is stored -/

theorem createInternalTx_mapContractStates {receiver : Address} {amount : Amount}
    {strHash txHash : Hash} {coins : Coins} {patch patch' : PatchDB}
    (h : createInternalTx F receiver amount strHash patch = .ok (txHash, coins, patch')) :
    patch'.mapContractStates = patch.mapContractStates := by
  unfold createInternalTx at h
  split at h
  next =>
    cases h
    rfl
  next => cases h

theorem sendCoins_mapContractStates (strAddress : Option Address) (amount : Amount)
    (holder : Contract) (patchTx : PatchDB) :
    (sendCoins F E strAddress amount holder patchTx).1.mapContractStates =
      patchTx.mapContractStates := by
  fun_cases sendCoins F E strAddress amount holder patchTx with
  | case5 _ _ _ _ _ _ hcreate =>
      have hsame := createInternalTx_mapContractStates hcreate
      exact hsame
  | case6 _ _ _ _ _ _ hcreate _ _ hreceipt =>
      have hsame := createInternalTx_mapContractStates hcreate
      obtain ⟨_, rfl, -⟩ := PatchDB.setReceipt_ok hreceipt
      exact hsame
  | case7 _ _ _ _ _ _ hcreate _ _ hreceipt =>
      have hsame := createInternalTx_mapContractStates hcreate
      obtain ⟨_, rfl, -⟩ := PatchDB.setReceipt_ok hreceipt
      exact hsame
  | _ => rfl

theorem send_mapContractStates (strAddress : Option Address) (amount : Amount)
    (holder : Contract) (s : RunState) :
    (send F E strAddress amount holder s).1.patchTx.mapContractStates =
      s.patchTx.mapContractStates := by
  unfold send
  split
  next => rfl
  next => exact sendCoins_mapContractStates strAddress amount holder s.patchTx

theorem send_strAddress (strAddress : Option Address) (amount : Amount) (holder : Contract)
    (s : RunState) :
    (send F E strAddress amount holder s).2.1.strAddress = holder.strAddress := by
  unfold send
  split
  next => rfl
  next => exact sendCoins_strAddress strAddress amount holder s.patchTx

theorem send_nDataDelta (strAddress : Option Address) (amount : Amount) (holder : Contract)
    (s : RunState) : (send F E strAddress amount holder s).1.nDataDelta = s.nDataDelta := by
  unfold send
  split <;> rfl

/-- The contracts of a patch after some more are stored. -/
def storeAll (F : Factory) (stored : List Stored) (patch : PatchDB) : PatchDB :=
  stored.foldl (fun patch entry => patch.setContract F entry.contract) patch

theorem mapContractStates_setContract_congr {patch patch' : PatchDB} (contract : Contract)
    (h : patch.mapContractStates = patch'.mapContractStates) :
    (patch.setContract F contract).mapContractStates =
      (patch'.setContract F contract).mapContractStates := by
  simp only [PatchDB.setContract, PatchDB.recordedContract, PatchDB.getContract, h]

theorem mapContractStates_storeAll_congr (stored : List Stored) {patch patch' : PatchDB}
    (h : patch.mapContractStates = patch'.mapContractStates) :
    (storeAll F stored patch).mapContractStates =
      (storeAll F stored patch').mapContractStates := by
  induction stored generalizing patch patch' with
  | nil => exact h
  | cons entry rest ih => exact ih (mapContractStates_setContract_congr entry.contract h)

theorem storeAll_append (stored stored' : List Stored) (patch : PatchDB) :
    storeAll F (stored ++ stored') patch = storeAll F stored' (storeAll F stored patch) :=
  List.foldl_append

theorem storedContracts_append (events events' : List CallEvent) :
    storedContracts F E (events ++ events') =
      storedContracts F E events ++ storedContracts F E events' :=
  List.filterMap_append

/-- The contracts stored by a call, and by what follows it. -/
theorem storedContracts_call (contract : Contract) (events rest : List CallEvent)
    (ended : CallEvent) :
    storedContracts F E (.loaded contract :: (events ++ (ended :: rest))) =
      storedContracts F E events ++
        (storedContracts F E [ended] ++ storedContracts F E rest) := by
  rw [← storedContracts_append, ← storedContracts_append]
  rfl

theorem endCall_mapContractStates (delegate : Bool) (caller nested : Contract)
    (r : RunState × Contract × Except String Data) :
    (endCall F E delegate caller nested r).1.patchTx.mapContractStates =
      (storeAll F (storedContracts F E [callEnd delegate nested r])
        r.1.patchTx).mapContractStates := by
  obtain ⟨s, holder, result⟩ := r
  cases result <;> rfl

/-- **The contracts in the patch of a transaction** are those that its nested calls stored. -/
theorem runCode_mapContractStates (code : Code) (holder : Contract) (s : RunState) :
    (runCode F E code holder s).1.patchTx.mapContractStates =
      (storeAll F (storedContracts F E (callEvents F E code holder s))
        s.patchTx).mapContractStates := by
  induction code generalizing holder s with
  | done data => rfl
  | throws message => rfl
  | send strAddress amount k ih =>
      rw [runCode, callEvents, ih]
      exact mapContractStates_storeAll_congr _ (send_mapContractStates ..)
  | call delegate strAddress coinsToPass callee k ihcallee ihk =>
      cases hstart : startCall F E strAddress coinsToPass s with
      | error error =>
          simp only [runCode, callEvents, hstart]
          exact ihk _ _ _
      | ok started =>
          obtain ⟨nested, nCoinsLimit⟩ := started
          have hcallee := ihcallee (if delegate then holder else nested) { s with nCoinsLimit }
          have hend := endCall_mapContractStates (F := F) (E := E) delegate holder nested
            (runCode F E callee (if delegate then holder else nested) { s with nCoinsLimit })
          simp only [runCode, callEvents, hstart]
          rw [ihk, storedContracts_call, storeAll_append, storeAll_append]
          refine mapContractStates_storeAll_congr _ ?_
          rw [hend]
          exact mapContractStates_storeAll_congr _ hcallee

end Run

end CilCore
