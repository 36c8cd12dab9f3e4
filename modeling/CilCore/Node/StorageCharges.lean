import CilCore.Node.NestedCalls

/-!
# The storage that a transaction is charged for

The growth of data is added up call by call, between what a call began with and what it
left. Where one contract is called more than once, or its data is encoded in another
way, the sum is not the growth of what is stored.
-/

namespace CilCore

/-- A copy of a contract that a call puts into the patch: what the call began with, what
its size was taken of at the end, and what is stored. -/
structure Copy where
  before : Option Contract
  after : Contract
  stored : Stored

/-- The bytes that were charged for a copy. -/
def Copy.grown (F : Factory) (copy : Copy) : Int :=
  copy.after.getDataSize F - copy.before.elim 0 fun contract => (contract.getDataSize F : Int)

/-- The copies that nested calls store. -/
def copies (F : Factory) (E : RunEnv) (events : List CallEvent) : List Copy :=
  events.filterMap fun event =>
    match event with
    | .finished delegate before after =>
        some ⟨some before, after, delegate, sealContract F E after⟩
    | _ => none

/-- The copies of one contract. -/
def copiesAt (addr : Address) (list : List Copy) : List Copy :=
  list.filter fun copy => copy.stored.contract.strAddress = addr

/-- The size of the data that a contract has before the transaction. -/
def previousDataSize (F : Factory) (storage : Storage) (patchForBlock : PatchDB)
    (contractAddr : Address) : Int :=
  match getContractByAddr F storage (some patchForBlock) contractAddr with
  | .ok (some contract) => contract.getDataSize F
  | _ => 0

section Growth

variable {F : Factory} {E : RunEnv}

theorem copies_stored (events : List CallEvent) :
    (copies F E events).map (·.stored) = storedContracts F E events := by
  induction events with
  | nil => rfl
  | cons event rest ih =>
      rw [copies, storedContracts] at *
      cases event with
      | finished delegate before after =>
          simp only [List.filterMap_cons, List.map_cons, ih]
      | _ => simpa only [List.filterMap_cons] using ih

theorem dataGrowth_copies (events : List CallEvent) :
    ((copies F E events).map (·.grown F)).sum = dataGrowth F events := by
  induction events with
  | nil => rfl
  | cons event rest ih =>
      rw [copies, dataGrowth] at *
      cases event with
      | finished delegate before after =>
          simp only [List.filterMap_cons, List.map_cons, List.sum_cons, ih]
          rfl
      | _ => simpa only [List.filterMap_cons, List.map_cons, List.sum_cons, zero_add] using ih

theorem dataGrowth_append (events events' : List CallEvent) :
    dataGrowth F (events ++ events') = dataGrowth F events + dataGrowth F events' := by
  rw [dataGrowth, List.map_append, List.sum_append, dataGrowth, dataGrowth]

theorem dataGrowth_call (contract : Contract) (events rest : List CallEvent) (ended : CallEvent) :
    dataGrowth F (.loaded contract :: (events ++ (ended :: rest))) =
      dataGrowth F events + (dataGrowth F [ended] + dataGrowth F rest) := by
  rw [← dataGrowth_append, ← dataGrowth_append]
  exact zero_add _

theorem endCall_nDataDelta (delegate : Bool) (caller nested : Contract)
    (r : RunState × Contract × Except String Data) :
    (endCall F E delegate caller nested r).1.nDataDelta =
      r.1.nDataDelta + dataGrowth F [callEnd delegate nested r] := by
  obtain ⟨s, holder, result⟩ := r
  cases result with
  | error error => simp [endCall, callEnd, dataGrowth]
  | ok data => simp [endCall, callEnd, dataGrowth, finishCall]

/-- **What is charged while code runs** is the growth of the copies that its calls leave. -/
theorem runCode_nDataDelta (code : Code) (holder : Contract) (s : RunState) :
    (runCode F E code holder s).1.nDataDelta =
      s.nDataDelta + dataGrowth F (callEvents F E code holder s) := by
  induction code generalizing holder s with
  | done data => simp [runCode, callEvents, dataGrowth]
  | throws message => simp [runCode, callEvents, dataGrowth]
  | send strAddress amount k ih =>
      rw [runCode, callEvents, ih, send_nDataDelta, dataGrowth, dataGrowth, List.map_cons,
        List.sum_cons, zero_add]
  | call delegate strAddress coinsToPass callee k ihcallee ihk =>
      cases hstart : startCall F E strAddress coinsToPass s with
      | error error =>
          simp only [runCode, callEvents, hstart]
          exact ihk _ _ _
      | ok started =>
          obtain ⟨nested, nCoinsLimit⟩ := started
          have hcallee := ihcallee (if delegate then holder else nested) { s with nCoinsLimit }
          simp only [runCode, callEvents, hstart]
          rw [ihk, endCall_nDataDelta, hcallee, dataGrowth_call]
          ring

@[simp] theorem getDataSize_ensureData (F : Factory) (contract : Contract) :
    (contract.ensureData F).getDataSize F = contract.getDataSize F := by
  have hidem : (contract.ensureData F).ensureData F = contract.ensureData F := by
    cases hdata : contract.contractData <;> cases hcache : contract.cacheData <;>
      simp [Contract.ensureData, hdata, hcache]
  rw [Contract.getDataSize, hidem, Contract.getDataSize]
  unfold Contract.ensureData
  split <;> rfl

/-- The end of an invocation that succeeds. -/
theorem endInvocation_nDataDelta {nPrevDataSize : Nat}
    {r : RunState × Contract × Except String Data} {contract : Contract}
    (hmessage : (endInvocation F nPrevDataSize r).message = none)
    (hcontract : (endInvocation F nPrevDataSize r).contract = some contract) :
    (endInvocation F nPrevDataSize r).state.nDataDelta =
      r.1.nDataDelta + ((contract.getDataSize F : Int) - nPrevDataSize) := by
  obtain ⟨s, left, result⟩ := r
  cases result with
  | error error => cases hmessage
  | ok data =>
      cases hcontract
      simp [endInvocation]

theorem createContract_nDataDelta {constructor : Except String Constructed} {s : RunState}
    {contract : Contract} (hcontract : (createContract F E constructor s).contract = some contract) :
    (createContract F E constructor s).state.nDataDelta =
      s.nDataDelta + contract.getDataSize F := by
  unfold createContract at hcontract ⊢
  dsimp only at hcontract ⊢
  split at hcontract
  next => cases hcontract
  next hless =>
    split at hcontract
    next => cases hcontract
    next hfound =>
      rw [if_neg hless, if_neg hfound]
      cases constructor with
      | error error => cases hcontract
      | ok data =>
          cases hcontract
          simp

theorem startInvocation_nDataDelta {tx : Transaction} {contract started : Contract}
    {s s' : RunState} (h : startInvocation F E tx contract s = .ok (started, s')) :
    s'.nDataDelta = s.nDataDelta := by
  unfold startInvocation at h
  split at h
  next => cases h
  next =>
    split at h
    next => cases h
    next =>
      split at h
      next => cases h
      next =>
        cases h
        rfl

end Growth

/-! ### The run of a transaction -/

namespace ContractRun

/-- The copy that the transaction's own call stores. -/
def ownCopy (F : Factory) (node : NodeView) (tx : Transaction) (behaviour : Behaviour)
    (run : ContractRun) : Option Copy :=
  (run.ownContract F node tx behaviour).bind fun own =>
    (run.outcome F tx behaviour).contract.map fun after =>
      ⟨(run.invocation F tx).map Prod.fst, after, false, own⟩

/-- All copies that calls store. -/
def copies (F : Factory) (node : NodeView) (tx : Transaction) (behaviour : Behaviour)
    (run : ContractRun) : List Copy :=
  CilCore.copies F run.env (run.events F tx behaviour) ++ (run.ownCopy F node tx behaviour).toList

/-- The growth that is charged for the calls to a contract other than the last that
returned. -/
def repeated (F : Factory) (node : NodeView) (tx : Transaction) (behaviour : Behaviour)
    (run : ContractRun) (addr : Address) : Int :=
  ((copiesAt addr (run.copies F node tx behaviour)).dropLast.map (·.grown F)).sum

/-- What the size of a contract's data changes by without a change of the data: after the
last call has returned, and before it began. -/
def reencoded (F : Factory) (node : NodeView) (tx : Transaction) (behaviour : Behaviour)
    (run : ContractRun) (addr : Address) : Int :=
  let copies := copiesAt addr (run.copies F node tx behaviour)
  let size (contract : Option Contract) : Int :=
    contract.elim 0 fun contract => (contract.getDataSize F : Int)
  (size ((copies.map (·.stored)).foldl (recordCopy F) none) - size (copies.getLast?.map (·.after))) +
    (size (copies.getLast?.bind (·.before)) -
      previousDataSize F run.env.storage run.env.patchBlock addr)

/-- The contracts that calls store. -/
def storedAddresses (F : Factory) (node : NodeView) (tx : Transaction) (behaviour : Behaviour)
    (run : ContractRun) : Finset Address :=
  ((run.copies F node tx behaviour).map (·.stored.contract.strAddress)).toFinset

end ContractRun

/-- The growth that is charged is that of the contracts in the patch of the transaction. -/
def ChargedExactly (F : Factory) (tx : Transaction) (behaviour : Behaviour) (run : ContractRun)
    (patchThisTx : PatchDB) : Prop :=
  (run.outcome F tx behaviour).state.nDataDelta =
    ∑ addr ∈ patchThisTx.mapContractStates.keys,
      ((patchThisTx.getContract addr).elim 0 (fun contract => (contract.getDataSize F : Int)) -
        previousDataSize F run.env.storage run.env.patchBlock addr)

instance (F : Factory) (tx : Transaction) (behaviour : Behaviour) (run : ContractRun)
    (patchThisTx : PatchDB) : Decidable (ChargedExactly F tx behaviour run patchThisTx) :=
  inferInstanceAs (Decidable (_ = _))

section Charged

variable {F : Factory} {node : NodeView} {patchForBlock : Option PatchDB} {isGenesis : Bool}
  {tx : Transaction} {behaviour : Behaviour} {run : ContractRun} {fee : Amount}
  {patchThisTx : PatchDB}

/-- A sum over a list, by the address of its entries. -/
theorem sum_copiesAt (list : List Copy) {addrs : Finset Address}
    (haddrs : ∀ copy ∈ list, copy.stored.contract.strAddress ∈ addrs) :
    (list.map (·.grown F)).sum = ∑ addr ∈ addrs, ((copiesAt addr list).map (·.grown F)).sum := by
  induction list with
  | nil => simp [copiesAt]
  | cons copy rest ih =>
      have hrest := ih fun other hother => haddrs other (List.mem_cons_of_mem _ hother)
      have hcons (addr : Address) : ((copiesAt addr (copy :: rest)).map (·.grown F)).sum =
          (if copy.stored.contract.strAddress = addr then copy.grown F else 0) +
            ((copiesAt addr rest).map (·.grown F)).sum := by
        unfold copiesAt
        rw [List.filter_cons]
        split
        next h =>
          rw [if_pos (of_decide_eq_true h)]
          rfl
        next h =>
          rw [if_neg (by simpa using h), zero_add]
      rw [List.map_cons, List.sum_cons, hrest, Finset.sum_congr rfl fun addr _ => hcons addr,
        Finset.sum_add_distrib, Finset.sum_ite_eq, if_pos (haddrs copy List.mem_cons_self)]

theorem invocation_nDataDelta {started : Contract} {s : RunState}
    (h : run.invocation F tx = some (started, s)) : s.nDataDelta = 0 := by
  obtain ⟨contract, -, hstart⟩ := Option.bind_eq_some_iff.mp h
  cases hinvocation : startInvocation F run.env tx contract run.start with
  | error error => simp [hinvocation, Except.toOption] at hstart
  | ok r =>
      obtain rfl : r = (started, s) := by simpa [hinvocation, Except.toOption] using hstart
      rw [startInvocation_nDataDelta hinvocation]
      rfl

/-- What is charged is the growth of all copies. -/
theorem nDataDelta_eq (hrun : txRun F node patchForBlock isGenesis tx = .ok run)
    (hmessage : (run.outcome F tx behaviour).message = none) :
    (run.outcome F tx behaviour).state.nDataDelta =
      ((run.copies F node tx behaviour).map (·.grown F)).sum := by
  obtain ⟨own, hown, -⟩ := ownContract_ok hrun hmessage
  obtain ⟨found, hfound⟩ := outcome_contract hmessage
  have hcopy : run.ownCopy F node tx behaviour =
      some ⟨(run.invocation F tx).map Prod.fst, found, false, own⟩ := by
    rw [ContractRun.ownCopy, hown, hfound]
    rfl
  rw [ContractRun.copies, hcopy, List.map_append, List.sum_append, dataGrowth_copies]
  rw [ContractRun.outcome, contract_checkCoinsUsed] at hfound
  rw [ContractRun.outcome, state_checkCoinsUsed]
  obtain ⟨hexecMessage, -⟩ := message_checkCoinsUsed hmessage
  cases execContract_cases F tx behaviour run with
  | notCreated _ _ _ hfailed => exact absurd hexecMessage hfailed
  | created hnone created hcreated _ _ _ _ =>
      have hexec : run.execContract F tx behaviour =
          createContract F run.env behaviour.constructor run.start := by
        rw [ContractRun.execContract, hnone]
      rw [hexec] at hfound ⊢
      rw [createContract_nDataDelta hfound]
      simp [ContractRun.events, ContractRun.invocation, hnone, dataGrowth, Copy.grown,
        ContractRun.start]
  | refused _ _ _ message hexec =>
      rw [hexec] at hexecMessage
      cases hexecMessage
  | invoked loaded started s _ hinvocation _ _ _ hexec =>
      rw [hexec] at hexecMessage hfound ⊢
      rw [endInvocation_nDataDelta hexecMessage hfound, runCode_nDataDelta,
        invocation_nDataDelta hinvocation, ContractRun.events, hinvocation]
      simp [Copy.grown]

theorem copies_map_stored (hrun : txRun F node patchForBlock isGenesis tx = .ok run)
    (hmessage : (run.outcome F tx behaviour).message = none) :
    (run.copies F node tx behaviour).map (·.stored) = run.stored F node tx behaviour := by
  obtain ⟨own, hown, -⟩ := ownContract_ok hrun hmessage
  obtain ⟨found, hfound⟩ := outcome_contract hmessage
  rw [ContractRun.copies, List.map_append, copies_stored, ContractRun.stored, ContractRun.ownCopy,
    hown, hfound]
  rfl

theorem copiesAt_map_stored (hrun : txRun F node patchForBlock isGenesis tx = .ok run)
    (hmessage : (run.outcome F tx behaviour).message = none) (addr : Address) :
    (copiesAt addr (run.copies F node tx behaviour)).map (·.stored) =
      storedAt addr (run.stored F node tx behaviour) := by
  rw [← copies_map_stored hrun hmessage, copiesAt, storedAt, List.filter_map]
  rfl

/-- The contracts in the patch of a transaction are those that calls store. -/
theorem keys_eq_storedAddresses (hrun : txRun F node patchForBlock isGenesis tx = .ok run)
    (hmessage : (run.outcome F tx behaviour).message = none)
    (hok : processTx F node patchForBlock isGenesis tx behaviour = .ok (fee, patchThisTx)) :
    patchThisTx.mapContractStates.keys = run.storedAddresses F node tx behaviour := by
  ext addr
  rw [FinMap.mem_keys_iff, ContractRun.storedAddresses, List.mem_toFinset, List.mem_map]
  have hget := getContract_of_storedAt hrun hok addr
  rw [← copiesAt_map_stored hrun hmessage] at hget
  constructor
  · intro ⟨contract, hcontract⟩
    cases hcopies : copiesAt addr (run.copies F node tx behaviour) with
    | nil =>
        rw [hcopies] at hget
        exact absurd (hget.symm.trans hcontract) nofun
    | cons copy rest =>
        have hmem : copy ∈ copiesAt addr (run.copies F node tx behaviour) := by
          rw [hcopies]
          exact List.mem_cons_self
        obtain ⟨hcopy, haddress⟩ := List.mem_filter.mp hmem
        exact ⟨copy, hcopy, of_decide_eq_true haddress⟩
  · intro ⟨copy, hcopy, haddress⟩
    have hmem : copy ∈ copiesAt addr (run.copies F node tx behaviour) :=
      List.mem_filter.mpr ⟨hcopy, decide_eq_true haddress⟩
    cases hcopies : copiesAt addr (run.copies F node tx behaviour) with
    | nil =>
        rw [hcopies] at hmem
        cases hmem
    | cons first rest =>
        rw [hcopies, List.map_cons, List.foldl_cons] at hget
        exact ⟨_, hget.trans (foldl_recordCopy ..)⟩

end Charged

section Sample

/-- A method that calls another contract, which grows by the given number of bytes. -/
def growOnce (size : Nat) (k : Code) : Code :=
  .call false 78 none (.done (List.replicate (size + 2) 0)) fun _ => k

end Sample

end CilCore
