import CilCore.Node.NestedCalls
import CilCore.Structures.ContractContents

/-!
# Where stored contracts come from

A call stores the contract that was loaded for it: its address and its concilium stay what
they were. If the patch of the block has the contract, it was loaded from there. What a
contract does never changes the levels of a patch.
-/

namespace CilCore

/-- The contract has its concilium from this patch, if the patch has the contract. -/
def Contract.LoadedFrom (F : Factory) (patch : PatchDB) (contract : Contract) : Prop :=
  ∀ known, patch.getContract contract.strAddress = some known →
    contract.conciliumId = known.conciliumId ∧ contract.Coherent F

theorem Contract.LoadedFrom.congr {F : Factory} {patch : PatchDB} {contract contract' : Contract}
    (h : contract.LoadedFrom F patch) (haddress : contract'.strAddress = contract.strAddress)
    (hconcilium : contract'.conciliumId = contract.conciliumId)
    (hcoherent : contract.Coherent F → contract'.Coherent F) : contract'.LoadedFrom F patch := by
  intro known hknown
  rw [haddress] at hknown
  obtain ⟨hsame, hcontract⟩ := h known hknown
  exact ⟨hconcilium.trans hsame, hcoherent hcontract⟩

section Run

variable {F : Factory} {E : RunEnv}

@[simp] theorem conciliumId_sealContract (F : Factory) (E : RunEnv) (contract : Contract) :
    (sealContract F E contract).conciliumId = contract.conciliumId := by
  unfold sealContract
  split <;> simp

theorem contents_sealContract (hF : F.ReadsBack) (E : RunEnv) (contract : Contract) :
    (sealContract F E contract).contents F = contract.contents F := by
  have hensure : (contract.ensureData F).contents F = contract.contents F :=
    Prod.ext (data_ensureData F contract) (Contract.balance_ensureData F contract)
  unfold sealContract
  split
  · rw [Contract.contents_dirtyWorkaround hF, hensure]
  · exact hensure

/-! ### What is loaded -/

theorem getContractByAddr_loadedFrom {storage : Storage} {patchForBlock : Option PatchDB}
    {contractAddr : Address} {contract : Contract}
    (h : getContractByAddr F storage patchForBlock contractAddr = .ok (some contract)) :
    contract.LoadedFrom F (patchForBlock.getD PatchDB.empty) := by
  intro known hknown
  rw [(getContractByAddr_found h).1] at hknown
  cases patchForBlock with
  | none => cases hknown
  | some patch =>
      have hpatch : (some patch).bind (fun patch => patch.getContract contractAddr) = some known :=
        hknown
      simp only [getContractByAddr, hpatch] at h
      cases hclone : known.clone F with
      | error error => simp [hclone] at h
      | ok copy =>
          rw [hclone] at h
          cases h
          exact ⟨Contract.conciliumId_clone hclone,
            Contract.coherent_of_cacheData (Contract.cacheData_clone hclone)⟩

theorem startCall_loadedFrom (hF : F.ReadsBack) {strAddress : Address} {coinsToPass : Option Amount}
    {s : RunState} {nested : Contract} {nCoinsLimit : Amount}
    (h : startCall F E strAddress coinsToPass s = .ok (nested, nCoinsLimit)) :
    nested.LoadedFrom F E.patchBlock := by
  unfold startCall at h
  split at h
  next => cases h
  next =>
    split at h
    next => cases h
    next => cases h
    next contract hcontract =>
      dsimp only at h
      split at h
      next => cases h
      next =>
        cases h
        have hloaded : contract.LoadedFrom F E.patchBlock :=
          getContractByAddr_loadedFrom hcontract
        cases E.isTimeToForkSerializer2 with
        | false => exact hloaded.congr (by simp) (by simp) fun hcoherent => hcoherent.ensureData hF
        | true =>
            exact hloaded.congr (by simp) (by simp) fun _ =>
              (Contract.coherent_of_contractData rfl).ensureData hF

/-! ### What is stored -/

theorem send_conciliumId (strAddress : Option Address) (amount : Amount) (holder : Contract)
    (s : RunState) :
    (send F E strAddress amount holder s).2.1.conciliumId = holder.conciliumId := by
  unfold send
  split
  next => rfl
  next =>
    fun_cases sendCoins F E strAddress amount holder s.patchTx with
    | case7 _ _ _ _ _ _ _ _ _ _ _ hwithdraw => exact Contract.conciliumId_withdraw hwithdraw
    | _ => rfl

/-- Running code does not change the concilium of the holder. -/
theorem runCode_conciliumId (code : Code) (holder : Contract) (s : RunState) :
    (runCode F E code holder s).2.1.conciliumId = holder.conciliumId := by
  induction code generalizing holder s with
  | done data => rfl
  | throws message => rfl
  | send strAddress amount k ih => rw [runCode, ih, send_conciliumId]
  | call delegate strAddress coinsToPass callee k ihcallee ihk =>
      cases hstart : startCall F E strAddress coinsToPass s with
      | error error =>
          simp only [runCode, hstart]
          exact ihk _ _ _
      | ok started =>
          simp only [runCode, hstart]
          rw [ihk, endCall_caller]
          cases delegate with
          | true => exact ihcallee _ _
          | false => rfl

/-- A call that returns leaves the contract that was loaded for it. -/
theorem callEvents_finished (hF : F.ReadsBack) (code : Code) (holder : Contract) (s : RunState) :
    ∀ delegate before after, .finished delegate before after ∈ callEvents F E code holder s →
      after.LoadedFrom F E.patchBlock := by
  induction code generalizing holder s with
  | done data => exact fun _ _ _ hmem => absurd hmem List.not_mem_nil
  | throws message => exact fun _ _ _ hmem => absurd hmem List.not_mem_nil
  | send strAddress amount k ih =>
      rw [callEvents]
      intro delegate before after hmem
      rcases List.mem_cons.mp hmem with heq | hmem
      · cases heq
      · exact ih _ _ _ delegate before after hmem
  | call delegate strAddress coinsToPass callee k ihcallee ihk =>
      cases hstart : startCall F E strAddress coinsToPass s with
      | error error =>
          simp only [callEvents, hstart]
          exact ihk _ _ _
      | ok started =>
          obtain ⟨nested, nCoinsLimit⟩ := started
          have hloaded := startCall_loadedFrom hF hstart
          have haddress := runCode_strAddress (F := F) (E := E) callee nested { s with nCoinsLimit }
          have hconcilium :=
            runCode_conciliumId (F := F) (E := E) callee nested { s with nCoinsLimit }
          simp only [callEvents, hstart]
          intro delegate' before after hmem
          rcases List.mem_cons.mp hmem with heq | hmem
          · cases heq
          rcases List.mem_append.mp hmem with hmem | hmem
          · exact ihcallee _ _ delegate' before after hmem
          rcases List.mem_cons.mp hmem with heq | hmem
          · unfold callEnd at heq
            split at heq
            next => cases heq
            next data _ =>
              cases heq
              cases delegate with
              | true => exact hloaded
              | false =>
                  exact hloaded.congr haddress hconcilium fun _ =>
                    Contract.coherent_of_contractData rfl
          · exact ihk _ _ _ delegate' before after hmem

/-! ### Levels -/

theorem createInternalTx_mapConciliumLevel {receiver : Address} {amount : Amount}
    {strHash txHash : Hash} {coins : Coins} {patch patch' : PatchDB}
    (h : createInternalTx F receiver amount strHash patch = .ok (txHash, coins, patch')) :
    patch'.mapConciliumLevel = patch.mapConciliumLevel := by
  unfold createInternalTx at h
  split at h
  next =>
    cases h
    rfl
  next => cases h

theorem send_mapConciliumLevel (strAddress : Option Address) (amount : Amount) (holder : Contract)
    (s : RunState) :
    (send F E strAddress amount holder s).1.patchTx.mapConciliumLevel =
      s.patchTx.mapConciliumLevel := by
  unfold send
  split
  next => rfl
  next =>
    fun_cases sendCoins F E strAddress amount holder s.patchTx with
    | case5 _ _ _ _ _ _ hcreate => exact createInternalTx_mapConciliumLevel hcreate
    | case6 _ _ _ _ _ _ hcreate _ _ hreceipt =>
        obtain ⟨_, rfl, -⟩ := PatchDB.setReceipt_ok hreceipt
        have hsame := createInternalTx_mapConciliumLevel hcreate
        exact hsame
    | case7 _ _ _ _ _ _ hcreate _ _ hreceipt =>
        obtain ⟨_, rfl, -⟩ := PatchDB.setReceipt_ok hreceipt
        have hsame := createInternalTx_mapConciliumLevel hcreate
        exact hsame
    | _ => rfl

theorem endCall_mapConciliumLevel (delegate : Bool) (caller nested : Contract)
    (r : RunState × Contract × Except String Data) :
    (endCall F E delegate caller nested r).1.patchTx.mapConciliumLevel =
      r.1.patchTx.mapConciliumLevel := by
  obtain ⟨s, holder, result⟩ := r
  cases result <;> rfl

/-- Running code changes no level. -/
theorem runCode_mapConciliumLevel (code : Code) (holder : Contract) (s : RunState) :
    (runCode F E code holder s).1.patchTx.mapConciliumLevel = s.patchTx.mapConciliumLevel := by
  induction code generalizing holder s with
  | done data => rfl
  | throws message => rfl
  | send strAddress amount k ih => rw [runCode, ih, send_mapConciliumLevel]
  | call delegate strAddress coinsToPass callee k ihcallee ihk =>
      cases hstart : startCall F E strAddress coinsToPass s with
      | error error =>
          simp only [runCode, hstart]
          exact ihk _ _ _
      | ok started =>
          obtain ⟨nested, nCoinsLimit⟩ := started
          simp only [runCode, hstart]
          rw [ihk, endCall_mapConciliumLevel]
          exact ihcallee (if delegate then holder else nested) { s with nCoinsLimit }

end Run

/-! ### The run of a transaction -/

section Tx

variable {F : Factory} {node : NodeView} {patchForBlock : Option PatchDB} {isGenesis : Bool}
  {tx : Transaction} {behaviour : Behaviour} {run : ContractRun} {fee : Amount}
  {patchThisTx : PatchDB}

theorem outcome_mapConciliumLevel (tx : Transaction) (behaviour : Behaviour) (run : ContractRun) :
    (run.outcome F tx behaviour).state.patchTx.mapConciliumLevel =
      run.patchThisTx.mapConciliumLevel := by
  rw [ContractRun.outcome, state_checkCoinsUsed]
  cases execContract_cases F tx behaviour run with
  | notCreated _ _ hpatch _ => rw [hpatch]
  | created _ _ _ _ hpatch _ _ => rw [hpatch]
  | refused _ _ _ _ hexec =>
      rw [hexec]
      rfl
  | invoked contract started s _ _ _ _ hpatch hexec =>
      rw [hexec, (endInvocation_spec _ _).1, runCode_mapConciliumLevel, hpatch]

theorem settleContract_mapConciliumLevel {nMaxCoins used : Amount} {o : ContractOutcome}
    {patch : PatchDB}
    (h : settleContract F node isGenesis tx nMaxCoins used o = .ok (fee, patch)) :
    patch.mapConciliumLevel = o.state.patchTx.mapConciliumLevel := by
  have hsettled (stored : TxReceipt) :
      (settledPatch F node tx o stored).mapConciliumLevel = o.state.patchTx.mapConciliumLevel := by
    unfold settledPatch storeOutcome
    split <;> rfl
  obtain ⟨stored, -, ⟨-, -, rfl⟩ | ⟨-, -, -, rfl⟩ | ⟨-, -, hchange⟩⟩ := settleContract_ok h
  · exact hsettled stored
  · exact hsettled stored
  · obtain ⟨-, -, rfl⟩ | ⟨receiver, -, -, ⟨-, rfl⟩ | ⟨-, rfl⟩⟩ := createContractChange_ok hchange
    · exact hsettled stored
    · exact hsettled stored
    · exact hsettled stored

theorem processTxInputsFrom_mapConciliumLevel {view : PatchDB} {inputs : List Input} {i : Nat}
    {patch patch' : PatchDB} {totalHas totalHas' : Amount}
    (h : App.processTxInputsFrom F tx view i inputs patch totalHas = .ok (patch', totalHas')) :
    patch'.mapConciliumLevel = patch.mapConciliumLevel := by
  induction inputs generalizing i patch totalHas with
  | nil =>
      cases h
      rfl
  | cons input rest ih =>
      unfold App.processTxInputsFrom at h
      split at h
      next => cases h
      next patchNext totalNext hinput =>
        obtain ⟨utxo, coins, -, -, -, -, hnext, -⟩ := App.processTxInput_ok hinput
        rw [ih h, hnext]
        rfl

/-- Only the patch of a genesis transaction has a level, the first one of its concilium. -/
theorem processTx_mapConciliumLevel
    (h : processTx F node patchForBlock isGenesis tx behaviour = .ok (fee, patchThisTx)) :
    patchThisTx.mapConciliumLevel =
      if isGenesis then (∅ : FinMap Nat Nat).insert tx.conciliumId 1 else ∅ := by
  obtain ⟨prepared, hprepared⟩ : ∃ prepared,
      prepareTx F node patchForBlock isGenesis tx = .ok prepared := by
    unfold processTx at h
    split at h
    next => cases h
    next prepared hprepared => exact ⟨prepared, hprepared⟩
  have hlevels : prepared.patchThisTx.mapConciliumLevel =
      if isGenesis then (∅ : FinMap Nat Nat).insert tx.conciliumId 1 else ∅ := by
    unfold prepareTx at hprepared
    split at hprepared
    next => cases hprepared
    next =>
      split at hprepared
      next => cases hprepared
      next patchInputs totalHas nFeeSize hinputs =>
        split at hprepared
        next => cases hprepared
        next patchPaid totalSent hpayments =>
          obtain ⟨-, rfl⟩ := guard_eq_ok.mp hprepared
          have hpaid := App.processPaymentsFrom_frame hpayments
          change patchPaid.mapConciliumLevel = _
          rw [hpaid]
          change patchInputs.mapConciliumLevel = _
          unfold processInputs at hinputs
          split at hinputs
          next hgenesis =>
            cases hinputs
            rw [if_pos hgenesis]
            rfl
          next hgenesis =>
            rw [if_neg hgenesis]
            split at hinputs
            next => cases hinputs
            next =>
              split at hinputs
              next => cases hinputs
              next hfrom =>
                split at hinputs
                next => cases hinputs
                next =>
                  cases hinputs
                  exact processTxInputsFrom_mapConciliumLevel hfrom
  cases hcontract : prepared.contract with
  | none =>
      simp only [processTx, hprepared, hcontract, Except.ok.injEq, Prod.mk.injEq] at h
      rw [← h.2, hlevels]
  | some contract =>
      simp only [processTx, hprepared, hcontract, processContract] at h
      split at h
      next => cases h
      next run hrun =>
        rw [settleContract_mapConciliumLevel h, outcome_mapConciliumLevel,
          (startContract_ok hrun).patchThisTx, hlevels]

/-! ### The contracts that a transaction stores -/

/-- A transaction either runs a contract or stores none. -/
theorem txRun_or_no_contracts
    (h : processTx F node patchForBlock isGenesis tx behaviour = .ok (fee, patchThisTx)) :
    (∃ run, txRun F node patchForBlock isGenesis tx = .ok run) ∨
      patchThisTx.mapContractStates = ∅ := by
  unfold processTx at h
  split at h
  next => cases h
  next prepared hprepared =>
    split at h
    next contract hcontract =>
      unfold processContract at h
      split at h
      next => cases h
      next run hrun =>
        refine .inl ⟨run, ?_⟩
        rw [txRun, hprepared]
        simp only [hcontract]
        exact hrun
    next =>
      cases h
      exact .inr (prepareTx_coins hprepared).1.contracts

theorem mem_storedContracts {E : RunEnv} {events : List CallEvent} {entry : Stored}
    (h : entry ∈ storedContracts F E events) :
    ∃ delegate before after, .finished delegate before after ∈ events ∧
      entry = ⟨delegate, sealContract F E after⟩ := by
  obtain ⟨event, hevent, hentry⟩ := List.mem_filterMap.mp h
  cases event with
  | finished delegate before after =>
      cases hentry
      exact ⟨delegate, before, after, hevent, rfl⟩
  | loaded contract => cases hentry
  | sent strAddress amount => cases hentry
  | failed delegate before after => cases hentry

theorem conciliumId_depositTo (tx : Transaction) (contract : Contract) :
    (depositTo tx contract).conciliumId = some (contract.conciliumId.getD tx.conciliumId) := by
  unfold depositTo
  split
  next h =>
    rw [h]
    rfl
  next h => exact h.trans (by rw [h]; rfl)

theorem conciliumId_createContract {E : RunEnv} {constructor : Except String Constructed} {s : RunState}
    {contract : Contract} (h : (createContract F E constructor s).contract = some contract) :
    contract.conciliumId = none := by
  unfold createContract at h
  dsimp only at h
  split at h
  next => cases h
  next =>
    split at h
    next => cases h
    next =>
      split at h
      next => cases h
      next =>
        cases h
        exact Contract.conciliumId_ensureData F _

theorem conciliumId_startInvocation {E : RunEnv} {contract started : Contract} {s s' : RunState}
    (h : startInvocation F E tx contract s = .ok (started, s')) :
    contract.conciliumId = some tx.conciliumId ∧ started.conciliumId = some tx.conciliumId := by
  unfold startInvocation at h
  split at h
  next => cases h
  next =>
    split at h
    next => cases h
    next hconcilium =>
      rw [not_not] at hconcilium
      split at h
      next => cases h
      next =>
        cases h
        exact ⟨hconcilium, (Contract.conciliumId_ensureData F contract).trans hconcilium⟩

theorem conciliumId_endInvocation (nPrevDataSize : Nat)
    (r : RunState × Contract × Except String Data) {contract : Contract}
    (h : (endInvocation F nPrevDataSize r).contract = some contract) :
    contract.conciliumId = r.2.1.conciliumId := by
  obtain ⟨s, holder, result⟩ := r
  cases result with
  | error error =>
      cases h
      rfl
  | ok data =>
      cases h
      exact Contract.conciliumId_ensureData F _

/-- The contract of a transaction belongs to the concilium of the transaction, and so does
the one that was invoked. -/
theorem ownContract_conciliumId (hrun : txRun F node patchForBlock isGenesis tx = .ok run)
    {own : Contract} (hown : run.ownContract F node tx behaviour = some own) :
    own.conciliumId = some tx.conciliumId ∧
      (run.events F tx behaviour ≠ [] → ∀ known,
        (patchForBlock.getD PatchDB.empty).getContract own.strAddress = some known →
          known.conciliumId = some tx.conciliumId) := by
  obtain ⟨contract, hstore, rfl⟩ := Option.map_eq_some_iff.mp hown
  obtain ⟨prepared, found, hprepared, hfound, hof, -⟩ := txRun_ok hrun
  -- the contract that is stored comes from the outcome
  have hsource : ∃ left, (run.execContract F tx behaviour).contract = some left ∧
      contract.conciliumId = left.conciliumId ∧ contract.strAddress = left.strAddress := by
    obtain ⟨-, left, hleft, haddress, -⟩ := contractToStore_some hstore
    rw [ContractRun.outcome, contract_checkCoinsUsed] at hleft
    refine ⟨left, hleft, ?_, haddress⟩
    unfold contractToStore at hstore
    split at hstore
    next =>
      rw [ContractRun.outcome, contract_checkCoinsUsed, hleft, Option.map_some] at hstore
      cases hstore
      split <;> simp
    next => cases hstore
  obtain ⟨left, hleft, hconcilium, haddress⟩ := hsource
  rw [conciliumId_depositTo, strAddress_depositTo, hconcilium, haddress]
  cases execContract_cases F tx behaviour run with
  | notCreated _ hnone _ _ =>
      rw [hnone] at hleft
      cases hleft
  | created hnone created hcreated _ _ _ _ =>
      have hexec : run.execContract F tx behaviour =
          createContract F run.env behaviour.constructor run.start := by
        rw [ContractRun.execContract, hnone]
      rw [hexec] at hleft
      refine ⟨by rw [conciliumId_createContract hleft]; rfl, fun hevents => ?_⟩
      exact absurd (by simp [ContractRun.events, ContractRun.invocation, hnone]) hevents
  | refused _ _ _ message hexec =>
      unfold contractToStore at hstore
      rw [ContractRun.outcome, checkCoinsUsed, hexec] at hstore
      simp at hstore
  | invoked loaded started s hloaded hinvocation hstarted _ _ hexec =>
      rw [hexec] at hleft
      have hleftConcilium := conciliumId_endInvocation _ _ hleft
      rw [runCode_conciliumId] at hleftConcilium
      obtain ⟨-, ended, hended, hendedAddress, -⟩ := endInvocation_spec (F := F)
        (started.getDataSize F) (runCode F run.env behaviour.method started s)
      obtain rfl : ended = left := Option.some.inj (hended.symm.trans hleft)
      have hstart : startInvocation F run.env tx loaded run.start = .ok (started, s) := by
        rw [ContractRun.invocation, hloaded, Option.bind_some] at hinvocation
        cases hstart : startInvocation F run.env tx loaded run.start with
        | error error => simp [hstart, Except.toOption] at hinvocation
        | ok result => simpa [hstart, Except.toOption] using hinvocation
      obtain ⟨hloadedConcilium, hstartedConcilium⟩ := conciliumId_startInvocation hstart
      refine ⟨by rw [hleftConcilium, hstartedConcilium]; rfl, fun _ known hknown => ?_⟩
      rw [hendedAddress, runCode_strAddress, hstarted] at hknown
      -- the invoked contract was looked up in the patch of the block
      have hsearch := prepareTx_contract hprepared
      rw [hfound] at hsearch
      rw [hof.contract] at hloaded
      obtain ⟨source, rfl, hswitched⟩ := Option.map_eq_some_iff.mp hloaded
      have hfrom : source.LoadedFrom F (patchForBlock.getD PatchDB.empty) := by
        unfold findContract at hsearch
        split at hsearch
        next => cases hsearch
        next => cases hsearch
        next =>
          split at hsearch
          next => cases hsearch
          next contractAddr _ =>
            cases hget : getContractByAddr F node.storage patchForBlock contractAddr with
            | error error => simp [hget, Except.map] at hsearch
            | ok result =>
                obtain rfl : result = some source := by simpa [hget, Except.map] using hsearch
                exact getContractByAddr_loadedFrom hget
      have hsame : loaded.strAddress = source.strAddress ∧
          loaded.conciliumId = source.conciliumId := by
        rw [← hswitched]
        split <;> simp
      rw [hsame.1] at hknown
      rw [← (hfrom known hknown).1, ← hsame.2, hloadedConcilium]

/-- Every nested call that returns was made to a contract of this concilium, or it found its
contract in the patch and left the data and the balance as they were. -/
def KeepsOthers (F : Factory) (patchBlock : PatchDB) (nConciliumId : Nat)
    (events : List CallEvent) : Prop :=
  ∀ delegate before after, .finished delegate before after ∈ events →
    after.conciliumId = some nConciliumId ∨
      ∃ known, patchBlock.getContract after.strAddress = some known ∧
        after.contents F = known.contents F

@[simp] theorem conciliumId_mergeCopies (first : Contract) (rest : List Stored) :
    (mergeCopies F first rest).conciliumId = first.conciliumId := by
  induction rest generalizing first with
  | nil => rfl
  | cons entry rest ih => exact ih (first.updateData (entry.contract.data F))

theorem coherent_mergeCopies {first : Contract} (hfirst : first.Coherent F) (rest : List Stored) :
    (mergeCopies F first rest).Coherent F := by
  induction rest generalizing first with
  | nil => exact hfirst
  | cons entry rest ih => exact ih (Contract.coherent_of_contractData rfl)

/-- **What a transaction stores** belongs to its own concilium, or is what the patch of the
block has, if its nested calls keep the contracts of others. -/
theorem processTx_ownOrKnown {patchBlock : PatchDB} (hF : F.ReadsBack)
    (hkeeps : ∀ run, txRun F node (some patchBlock) isGenesis tx = .ok run →
      KeepsOthers F patchBlock tx.conciliumId (run.events F tx behaviour))
    (hok : processTx F node (some patchBlock) isGenesis tx behaviour = .ok (fee, patchThisTx))
    {addr : Address} {stored : Contract} (hstored : patchThisTx.getContract addr = some stored) :
    stored.conciliumId = some tx.conciliumId ∨
      stored.Coherent F ∧ ∃ known, patchBlock.getContract addr = some known ∧
        stored.contents F = known.contents F := by
  rcases txRun_or_no_contracts hok with ⟨run, hrun⟩ | hnone
  swap
  · rw [PatchDB.getContract, hnone] at hstored
    cases hstored
  have hget := getContract_of_storedAt hrun hok addr
  rw [hstored] at hget
  cases hcopies : storedAt addr (run.stored F node tx behaviour) with
  | nil =>
      rw [hcopies] at hget
      cases hget
  | cons first rest =>
      rw [hcopies, List.foldl_cons] at hget
      obtain rfl : stored = mergeCopies F first.contract rest :=
        Option.some.inj (hget.trans (foldl_recordCopy first.contract rest))
      by_cases hconcilium : first.contract.conciliumId = some tx.conciliumId
      · exact .inl (by rw [conciliumId_mergeCopies, hconcilium])
      -- the copies of the address: from nested calls, or the transaction's own one
      have hcopy : ∀ entry ∈ first :: rest, entry.contract.strAddress = addr ∧
          (entry ∈ storedContracts F run.env (run.events F tx behaviour) ∨
            run.ownContract F node tx behaviour = some entry.contract) := by
        intro entry hentry
        rw [← hcopies] at hentry
        obtain ⟨hmem, haddress⟩ := List.mem_filter.mp hentry
        refine ⟨of_decide_eq_true haddress, ?_⟩
        rcases List.mem_append.mp hmem with hmem | hmem
        · exact .inl hmem
        · cases hown : run.ownContract F node tx behaviour with
          | none => simp [hown] at hmem
          | some own =>
              simp only [hown, Option.toList_some, List.map_singleton,
                List.mem_singleton] at hmem
              exact .inr (by rw [hmem])
      obtain ⟨_, _, hprepared, _, hof, -⟩ := txRun_ok hrun
      have hpatch : run.env.patchBlock = patchBlock := hof.patchBlock
      have hnested : ∀ entry ∈ first :: rest,
          entry ∈ storedContracts F run.env (run.events F tx behaviour) →
            entry.contract.LoadedFrom F patchBlock ∧
              (entry.contract.conciliumId = some tx.conciliumId ∨
                ∃ known, patchBlock.getContract addr = some known ∧
                  entry.contract.contents F = known.contents F) := by
        intro entry hentry hmem
        obtain ⟨delegate, before, after, hevent, rfl⟩ := mem_storedContracts hmem
        have haddress := (hcopy _ hentry).1
        rw [strAddress_sealContract] at haddress
        have hfrom : after.LoadedFrom F patchBlock := by
          unfold ContractRun.events at hevent
          split at hevent
          next => cases hevent
          next started s _ =>
            exact hpatch ▸ callEvents_finished hF behaviour.method started s _ _ _ hevent
        refine ⟨hfrom.congr (by simp) (by simp) fun hcoherent => ?_, ?_⟩
        · dsimp only
          unfold sealContract
          split
          · exact (hcoherent.ensureData hF).dirtyWorkaround
          · exact hcoherent.ensureData hF
        · dsimp only
          rw [conciliumId_sealContract, contents_sealContract hF, ← haddress]
          exact hkeeps run hrun delegate before after hevent
      have hfirst : first ∈ storedContracts F run.env (run.events F tx behaviour) := by
        refine (hcopy first List.mem_cons_self).2.resolve_right fun hown => ?_
        exact hconcilium (ownContract_conciliumId hrun hown).1
      obtain ⟨hfirstFrom, hfirstKeeps⟩ := hnested first List.mem_cons_self hfirst
      obtain ⟨known, hknown, hcontents⟩ := hfirstKeeps.resolve_left hconcilium
      obtain ⟨hfirstConcilium, hfirstCoherent⟩ :=
        hfirstFrom known (by rw [(hcopy first List.mem_cons_self).1]; exact hknown)
      rw [hfirstConcilium] at hconcilium
      refine .inr ⟨coherent_mergeCopies hfirstCoherent rest, known, hknown, ?_⟩
      have hlast := (List.dropLast_append_getLast (List.cons_ne_nil first rest)).symm
      have hlastMem := List.getLast_mem (List.cons_ne_nil first rest)
      generalize (first :: rest).getLast (List.cons_ne_nil first rest) = last at hlast hlastMem
      obtain ⟨hlastAddress, hlastSource⟩ := hcopy last hlastMem
      refine Prod.ext ?_ ?_
      · change (mergeCopies F first.contract rest).data F = known.data F
        rw [data_mergeCopies hlast]
        rcases hlastSource with hmem | hown
        · obtain ⟨hlastFrom, hlastKeeps⟩ := hnested last hlastMem hmem
          have hlastConcilium := (hlastFrom known (by rw [hlastAddress]; exact hknown)).1
          rw [hlastConcilium] at hlastKeeps
          obtain ⟨known', hknown', hsame⟩ := hlastKeeps.resolve_left hconcilium
          obtain rfl : known = known' := Option.some.inj (hknown.symm.trans hknown')
          exact congrArg Prod.fst hsame
        · -- the transaction's own contract would belong to its concilium
          refine absurd ((ownContract_conciliumId hrun hown).2 (fun hevents => ?_) known
            (by rw [hlastAddress]; exact hknown)) hconcilium
          rw [hevents] at hfirst
          cases hfirst
      · change (mergeCopies F first.contract rest).balance = known.balance
        rw [balance_mergeCopies]
        exact congrArg Prod.snd hcontents

end Tx

end CilCore
