import CilCore.Node.CallEvents

/-!
# Nested calls compose

Every nested call loads its own copy of a contract, and a copy that is stored later
replaces only the data of one that was stored before. A ledger of what all calls have
done so far tells when the copies are what they should be.
-/

namespace CilCore

/-- The data and the balance of contracts. -/
abbrev Ledger := Address → Data × Amount

namespace CallEvent

/-- What an event does to contracts: coins are gone when they are sent, data is there when
a call that is not delegated returns, and a call that fails leaves its contract as it was. -/
def apply (F : Factory) (E : RunEnv) (ledger : Ledger) : CallEvent → Ledger
  | .loaded _ => ledger
  | .sent addr amount => Function.update ledger addr ((ledger addr).1, (ledger addr).2 - amount)
  | .finished delegate _ after =>
      if delegate then ledger
      else Function.update ledger after.strAddress
        ((sealContract F E after).data F, (ledger after.strAddress).2)
  | .failed delegate before after =>
      if delegate then ledger
      else Function.update ledger before.strAddress
        ((ledger before.strAddress).1,
          (ledger before.strAddress).2 + (before.balance - after.balance))

/-- The ledger after some events. -/
def replay (F : Factory) (E : RunEnv) (events : List CallEvent) (ledger : Ledger) : Ledger :=
  events.foldl (apply F E) ledger

end CallEvent

/-- What a stored contract has more than before the transaction. -/
def Stored.gain (E : RunEnv) (entry : Stored) : Amount :=
  entry.contract.balance - previousBalance E.storage E.patchBlock entry.contract.strAddress

/-- The entries of one contract. -/
def storedAt (addr : Address) (stored : List Stored) : List Stored :=
  stored.filter fun entry => entry.contract.strAddress = addr

/-- What the stored copies of one contract have more than before, together. -/
def gains (E : RunEnv) (addr : Address) (stored : List Stored) : Amount :=
  ((storedAt addr stored).map (·.gain E)).sum

/-- The data of a contract after its copies were stored by calls that were not delegated. -/
def leftData (F : Factory) (addr : Address) (stored : List Stored) (data : Data) : Data :=
  (storedAt addr stored).foldl
    (fun data entry => if entry.delegate then data else entry.contract.data F) data

section Ledger

variable {F : Factory} {E : RunEnv} (addr : Address)

theorem storedAt_append (stored stored' : List Stored) :
    storedAt addr (stored ++ stored') = storedAt addr stored ++ storedAt addr stored' :=
  List.filter_append ..

theorem gains_append (stored stored' : List Stored) :
    gains E addr (stored ++ stored') = gains E addr stored + gains E addr stored' := by
  rw [gains, storedAt_append, List.map_append, List.sum_append, gains, gains]

theorem gains_singleton (entry : Stored) :
    gains E addr [entry] = if entry.contract.strAddress = addr then entry.gain E else 0 := by
  unfold gains storedAt
  split
  next h => simp [h]
  next h => simp [h]

/-- The end of a call, on the balances of the ledger: what the method took while it ran stays
taken if the call returns, and is given back if it fails. -/
theorem balance_apply_callEnd (ledger : Ledger) (delegate : Bool) {nested : Contract}
    {r : RunState × Contract × Except String Data}
    (hbalance : nested.balance = previousBalance E.storage E.patchBlock nested.strAddress)
    (haddress : delegate = false → r.2.1.strAddress = nested.strAddress) :
    ((callEnd delegate nested r).apply F E ledger addr).2 +
        (if delegate = false ∧ nested.strAddress = addr then r.2.1.balance - nested.balance
          else 0) =
      (ledger addr).2 + gains E addr (storedContracts F E [callEnd delegate nested r]) := by
  obtain ⟨s, left, result⟩ := r
  cases delegate with
  | true =>
      cases result with
      | error error => simp [callEnd, CallEvent.apply, storedContracts, gains, storedAt]
      | ok data =>
          have hgain : (Stored.mk true (sealContract F E nested)).gain E = 0 := by
            simp [Stored.gain, hbalance]
          have hsingle := gains_singleton (E := E) addr
            (Stored.mk true (sealContract F E nested))
          rw [hgain, ite_self] at hsingle
          simp only [callEnd, CallEvent.apply, updateAfterCall, if_true, reduceCtorEq, false_and,
            if_false]
          exact congrArg _ hsingle.symm
  | false =>
      have hleft : left.strAddress = nested.strAddress := haddress rfl
      cases result with
      | error error =>
          simp only [callEnd, CallEvent.apply, storedContracts, Bool.false_eq_true, if_false,
            Function.update_apply]
          by_cases heq : nested.strAddress = addr
          · simp [heq, gains, storedAt]
            ring
          · simp [heq, Ne.symm heq, gains, storedAt]
      | ok data =>
          have hsingle := gains_singleton (E := E) addr
            (Stored.mk false (sealContract F E (left.updateData data)))
          have hgain : (Stored.mk false (sealContract F E (left.updateData data))).gain E =
              left.balance - nested.balance := by
            simp [Stored.gain, hbalance, hleft]
          have hupdate : ((callEnd false nested (s, left, Except.ok data)).apply F E ledger addr).2 =
              (ledger addr).2 := by
            simp only [callEnd, CallEvent.apply, Bool.false_eq_true, if_false,
              Function.update_apply]
            split
            next heq => rw [heq]
            next => rfl
          rw [hupdate]
          simp only [strAddress_sealContract, Contract.strAddress_updateData, hleft,
            hgain] at hsingle
          simp only [true_and]
          exact congrArg _ hsingle.symm

/-- **What a run does to balances**: its holder has what is left, and other contracts have
what their stored copies have more. -/
theorem balance_replay_callEvents (code : Code) (holder : Contract) (s : RunState)
    (ledger : Ledger) :
    (CallEvent.replay F E (callEvents F E code holder s) ledger addr).2 =
      (ledger addr).2 +
        (if holder.strAddress = addr then (runCode F E code holder s).2.1.balance - holder.balance
          else 0) +
        gains E addr (storedContracts F E (callEvents F E code holder s)) := by
  induction code generalizing holder s ledger with
  | done data => simp [callEvents, runCode, CallEvent.replay, gains, storedAt, storedContracts]
  | throws message => simp [callEvents, runCode, CallEvent.replay, gains, storedAt, storedContracts]
  | send strAddress amount k ih =>
      have hrest := ih (send F E strAddress amount holder s).2.2
        (send F E strAddress amount holder s).2.1 (send F E strAddress amount holder s).1
        ((CallEvent.sent holder.strAddress
          (holder.balance - (send F E strAddress amount holder s).2.1.balance)).apply F E ledger)
      rw [send_strAddress] at hrest
      rw [callEvents, runCode]
      refine hrest.trans ?_
      simp only [CallEvent.apply, Function.update_apply]
      by_cases heq : holder.strAddress = addr
      · simp only [heq, if_true, storedContracts, List.filterMap_cons]
        ring
      · simp only [heq, Ne.symm heq, if_false, storedContracts, List.filterMap_cons]
  | call delegate strAddress coinsToPass callee k ihcallee ihk =>
      cases hstart : startCall F E strAddress coinsToPass s with
      | error error =>
          simp only [runCode, callEvents, hstart]
          exact ihk _ _ _ _
      | ok started =>
          obtain ⟨nested, nCoinsLimit⟩ := started
          simp only [runCode, callEvents, hstart]
          rw [storedContracts_call, gains_append, gains_append]
          have hcallee := ihcallee (if delegate then holder else nested) { s with nCoinsLimit } ledger
          generalize hr : runCode F E callee (if delegate then holder else nested)
            { s with nCoinsLimit } = r at hcallee ⊢
          have haddress : r.2.1.strAddress = (if delegate then holder else nested).strAddress := by
            rw [← hr, runCode_strAddress]
          obtain ⟨hfound, hbalance⟩ := startCall_found hstart
          have hend := balance_apply_callEnd (F := F) addr
            (CallEvent.replay F E (callEvents F E callee (if delegate then holder else nested)
              { s with nCoinsLimit }) ledger) delegate (hfound ▸ hbalance)
            (fun hnot => by rw [haddress, hnot]; rfl)
          have hrest := ihk (endCall F E delegate holder nested r).2.2
            (endCall F E delegate holder nested r).2.1 (endCall F E delegate holder nested r).1
            ((callEnd delegate nested r).apply F E (CallEvent.replay F E
              (callEvents F E callee (if delegate then holder else nested) { s with nCoinsLimit })
              ledger))
          have hreplay : CallEvent.replay F E (.loaded nested ::
              (callEvents F E callee (if delegate then holder else nested) { s with nCoinsLimit } ++
                (callEnd delegate nested r :: callEvents F E (k (endCall F E delegate holder nested
                  r).2.2) (endCall F E delegate holder nested r).2.1
                  (endCall F E delegate holder nested r).1))) ledger =
              CallEvent.replay F E (callEvents F E (k (endCall F E delegate holder nested r).2.2)
                (endCall F E delegate holder nested r).2.1
                (endCall F E delegate holder nested r).1)
                ((callEnd delegate nested r).apply F E (CallEvent.replay F E
                  (callEvents F E callee (if delegate then holder else nested)
                    { s with nCoinsLimit }) ledger)) :=
            List.foldl_append
          rw [hreplay, hrest, endCall_caller]
          cases delegate with
          | true =>
              simp only [if_true, reduceCtorEq, false_and, if_false, haddress] at hend hcallee ⊢
              by_cases heq : holder.strAddress = addr
              · simp only [heq, if_true] at hcallee ⊢
                linarith
              · simp only [heq, if_false] at hcallee ⊢
                linarith
          | false =>
              simp only [Bool.false_eq_true, if_false, true_and] at hend hcallee ⊢
              linarith

/-- What a run does to data. -/
theorem data_replay (events : List CallEvent) (ledger : Ledger) :
    (CallEvent.replay F E events ledger addr).1 =
      leftData F addr (storedContracts F E events) (ledger addr).1 := by
  induction events generalizing ledger with
  | nil => rfl
  | cons event rest ih =>
      refine (ih (event.apply F E ledger)).trans ?_
      cases event with
      | loaded contract => rfl
      | sent strAddress amount =>
          simp only [CallEvent.apply, Function.update_apply, storedContracts, List.filterMap_cons]
          split
          next heq => rw [heq]
          next => rfl
      | failed delegate before after =>
          simp only [CallEvent.apply, storedContracts, List.filterMap_cons]
          cases delegate with
          | true => rfl
          | false =>
              simp only [Bool.false_eq_true, if_false, Function.update_apply]
              split
              next heq => rw [heq]
              next => rfl
      | finished delegate before after =>
          have hcons : storedContracts F E (.finished delegate before after :: rest) =
              ⟨delegate, sealContract F E after⟩ :: storedContracts F E rest := rfl
          rw [hcons, leftData, leftData, storedAt, storedAt, List.filter_cons]
          simp only [CallEvent.apply, strAddress_sealContract, decide_eq_true_eq]
          cases delegate with
          | true =>
              rw [if_pos rfl]
              by_cases heq : after.strAddress = addr
              · rw [if_pos heq]
                rfl
              · rw [if_neg heq]
          | false =>
              simp only [Bool.false_eq_true, if_false, Function.update_apply]
              by_cases heq : after.strAddress = addr
              · rw [if_pos heq, if_pos heq.symm]
                rfl
              · rw [if_neg heq, if_neg (Ne.symm heq)]

theorem leftData_append_singleton (earlier : List Stored) (last : Stored) (data : Data)
    (haddress : last.contract.strAddress = addr) :
    leftData F addr (earlier ++ [last]) data =
      if last.delegate then leftData F addr earlier data else last.contract.data F := by
  have hlast : storedAt addr [last] = [last] := by simp [storedAt, haddress]
  rw [leftData, storedAt_append, hlast, List.foldl_append]
  rfl

theorem leftData_storedAt (stored : List Stored) (data : Data) :
    leftData F addr (storedAt addr stored) data = leftData F addr stored data := by
  simp [leftData, storedAt]

/-- One more copy of a contract is stored: only its data replaces that of an earlier one. -/
def recordCopy (F : Factory) (found : Option Contract) (entry : Stored) : Option Contract :=
  some ((found.map fun contract => contract.updateData (entry.contract.data F)).getD
    entry.contract)

/-- The first copy with the data of those that are stored after it. -/
def mergeCopies (F : Factory) (first : Contract) (rest : List Stored) : Contract :=
  rest.foldl (fun contract entry => contract.updateData (entry.contract.data F)) first

/-- What is stored under an address. -/
theorem getContract_storeAll (stored : List Stored) (patch : PatchDB) :
    (storeAll F stored patch).getContract addr =
      (storedAt addr stored).foldl (recordCopy F) (patch.getContract addr) := by
  induction stored generalizing patch with
  | nil => rfl
  | cons entry rest ih =>
      refine (ih (patch.setContract F entry.contract)).trans ?_
      have hget : (patch.setContract F entry.contract).getContract addr =
          if addr = entry.contract.strAddress then
            some (patch.recordedContract F entry.contract)
          else patch.getContract addr := FinMap.lookup_insert_ite ..
      rw [hget, storedAt, storedAt, List.filter_cons]
      by_cases heq : entry.contract.strAddress = addr
      · rw [if_pos heq.symm, if_pos (decide_eq_true heq), List.foldl_cons]
        congr 1
        rw [PatchDB.recordedContract, heq, recordCopy]
        cases patch.getContract addr <;> rfl
      · rw [if_neg (Ne.symm heq), if_neg (by simpa using heq)]

theorem foldl_recordCopy (first : Contract) (rest : List Stored) :
    rest.foldl (recordCopy F) (some first) = some (mergeCopies F first rest) := by
  induction rest generalizing first with
  | nil => rfl
  | cons entry rest ih => exact ih (first.updateData (entry.contract.data F))

@[simp] theorem balance_mergeCopies (first : Contract) (rest : List Stored) :
    (mergeCopies F first rest).balance = first.balance := by
  induction rest generalizing first with
  | nil => rfl
  | cons entry rest ih => exact ih (first.updateData (entry.contract.data F))

theorem data_mergeCopies {first last : Stored} {rest earlier : List Stored}
    (hlast : first :: rest = earlier ++ [last]) :
    (mergeCopies F first.contract rest).data F = last.contract.data F := by
  rcases List.eq_nil_or_concat rest with rfl | ⟨others, final, rfl⟩
  · have hsame := congrArg List.getLast? hlast
    rw [List.getLast?_singleton, List.getLast?_concat, Option.some.injEq] at hsame
    rw [← hsame]
    rfl
  · have hsame := congrArg List.getLast? hlast
    rw [List.concat_eq_append, ← List.cons_append, List.getLast?_concat, List.getLast?_concat,
      Option.some.injEq] at hsame
    rw [mergeCopies, List.concat_eq_append, List.foldl_append, hsame]
    rfl

end Ledger

/-! ### The run of a transaction -/

/-- The contract as it is stored at the end of its transaction, with what was sent to it. -/
def depositTo (tx : Transaction) (contract : Contract) : Contract :=
  (match contract.conciliumId with
  | none => contract.setConciliumId tx.conciliumId
  | some _ => contract).deposit tx.getContractSentAmount

theorem storeContract_eq_setContract (F : Factory) (tx : Transaction) (contract : Contract)
    (patch : PatchDB) :
    storeContract F tx contract patch = patch.setContract F (depositTo tx contract) := rfl

@[simp] theorem strAddress_depositTo (tx : Transaction) (contract : Contract) :
    (depositTo tx contract).strAddress = contract.strAddress := by
  unfold depositTo
  split <;> rfl

@[simp] theorem balance_depositTo (tx : Transaction) (contract : Contract) :
    (depositTo tx contract).balance = contract.balance + tx.getContractSentAmount := by
  unfold depositTo
  split <;> rfl

namespace ContractRun

/-- What happens to contracts while the invoked method runs. -/
def events (F : Factory) (tx : Transaction) (behaviour : Behaviour) (run : ContractRun) :
    List CallEvent :=
  match run.invocation F tx with
  | none => []
  | some (contract, s) => callEvents F run.env behaviour.method contract s

/-- The contracts before the transaction. -/
def ledger (F : Factory) (run : ContractRun) : Ledger := fun addr =>
  (previousData F run.env.storage run.env.patchBlock addr,
    previousBalance run.env.storage run.env.patchBlock addr)

/-- The contract of the transaction, if it is stored. -/
def ownContract (F : Factory) (node : NodeView) (tx : Transaction) (behaviour : Behaviour)
    (run : ContractRun) : Option Contract :=
  (contractToStore F node (run.outcome F tx behaviour)).map (depositTo tx)

/-- All contracts that calls put into the patch. The transaction's own call returns last. -/
def stored (F : Factory) (node : NodeView) (tx : Transaction) (behaviour : Behaviour)
    (run : ContractRun) : List Stored :=
  storedContracts F run.env (run.events F tx behaviour) ++
    (run.ownContract F node tx behaviour).toList.map (Stored.mk false)

/-- The contracts after all calls, the transaction's own one included. A contract that it
creates had nothing before. -/
def finalLedger (F : Factory) (node : NodeView) (tx : Transaction) (behaviour : Behaviour)
    (run : ContractRun) : Ledger :=
  let left := CallEvent.replay F run.env (run.events F tx behaviour) (run.ledger F)
  match run.ownContract F node tx behaviour with
  | none => left
  | some contract => Function.update left contract.strAddress
      (contract.data F, (if run.contract.isSome then (left contract.strAddress).2 else 0) +
        tx.getContractSentAmount)

end ContractRun

/-- Every nested call begins with the contract as the calls before have left it, and the
contracts that a successful transaction leaves in its patch are as all its calls have left
them. -/
structure NestedCallsCompose (F : Factory) (node : NodeView) (tx : Transaction)
    (behaviour : Behaviour) (run : ContractRun) (patchThisTx : PatchDB) : Prop where
  starts : ∀ before contract after,
    run.events F tx behaviour = before ++ .loaded contract :: after →
      (contract.data F, contract.balance) =
        CallEvent.replay F run.env before (run.ledger F) contract.strAddress
  composed : (run.outcome F tx behaviour).message = none →
    ∀ addr contract, patchThisTx.getContract addr = some contract →
      (contract.data F, contract.balance) = run.finalLedger F node tx behaviour addr

/-- No nested call is made to a contract that earlier or running calls have changed, only
the first copy of a contract that is stored has another balance than before, or the others
make up for it, and a delegated call is not the last to store a contract whose data other
calls have changed. -/
structure CallsApart (F : Factory) (node : NodeView) (tx : Transaction) (behaviour : Behaviour)
    (run : ContractRun) : Prop where
  unchanged : ∀ before contract after,
    run.events F tx behaviour = before ++ .loaded contract :: after →
      CallEvent.replay F run.env before (run.ledger F) contract.strAddress =
        run.ledger F contract.strAddress
  balances : (run.outcome F tx behaviour).message = none →
    ∀ addr first rest, storedAt addr (run.stored F node tx behaviour) = first :: rest →
      (rest.map (·.gain run.env)).sum = 0
  data : (run.outcome F tx behaviour).message = none →
    ∀ addr earlier last, storedAt addr (run.stored F node tx behaviour) = earlier ++ [last] →
      last.delegate = true →
        last.contract.data F = leftData F addr earlier (run.ledger F addr).1

section Compose

variable {F : Factory} {node : NodeView} {patchForBlock : Option PatchDB} {isGenesis : Bool}
  {tx : Transaction} {behaviour : Behaviour} {run : ContractRun} {fee : Amount}
  {patchThisTx : PatchDB}

/-- The contract of a transaction that succeeds, and what its method has taken from it. -/
theorem ownContract_ok (hrun : txRun F node patchForBlock isGenesis tx = .ok run)
    (hmessage : (run.outcome F tx behaviour).message = none) :
    ∃ own, run.ownContract F node tx behaviour = some own ∧
      (run.contract = none ∧ run.events F tx behaviour = [] ∧
          own.balance = tx.getContractSentAmount ∨
        ∃ started s, run.contract.isSome = true ∧ run.invocation F tx = some (started, s) ∧
          own.strAddress = started.strAddress ∧
          started.balance =
            previousBalance run.env.storage run.env.patchBlock started.strAddress ∧
          own.balance = (runCode F run.env behaviour.method started s).2.1.balance +
            tx.getContractSentAmount) := by
  obtain ⟨found, hfound⟩ := outcome_contract hmessage
  have hown : ∃ contract, contractToStore F node (run.outcome F tx behaviour) = some contract := by
    rw [contractToStore, if_pos hmessage, hfound]
    exact ⟨_, rfl⟩
  obtain ⟨contract, hcontract⟩ := hown
  obtain ⟨-, found', hfound', haddress, hbalance⟩ := contractToStore_some hcontract
  obtain rfl : found = found' := Option.some.inj (hfound.symm.trans hfound')
  rw [ContractRun.outcome, contract_checkCoinsUsed] at hfound
  obtain ⟨hexecMessage, -⟩ := message_checkCoinsUsed hmessage
  refine ⟨depositTo tx contract, by rw [ContractRun.ownContract, hcontract]; rfl, ?_⟩
  rw [strAddress_depositTo, balance_depositTo, haddress, hbalance]
  cases execContract_cases F tx behaviour run with
  | notCreated _ _ _ hfailed => exact absurd hexecMessage hfailed
  | created hnone created hcreated _ _ _ hzero =>
      obtain rfl : created = found := Option.some.inj (hcreated.symm.trans hfound)
      refine .inl ⟨hnone, ?_, by rw [hzero, zero_add]⟩
      simp [ContractRun.events, ContractRun.invocation, hnone]
  | refused _ _ _ message hexec =>
      rw [hexec] at hexecMessage
      cases hexecMessage
  | invoked loaded started s hloaded hinvocation hstarted hstartedBalance hpatch hexec =>
      obtain ⟨-, left, hleft, hleftAddress, hleftBalance⟩ := endInvocation_spec (F := F)
        (started.getDataSize F) (runCode F run.env behaviour.method started s)
      obtain rfl : left = found := Option.some.inj (hleft.symm.trans (hexec ▸ hfound))
      refine .inr ⟨started, s, by simp [hloaded], hinvocation, ?_, ?_, by rw [hleftBalance]⟩
      · rw [hleftAddress, runCode_strAddress]
      · rw [hstartedBalance, hstarted]
        exact txRun_contract hrun hloaded

/-- The contracts after all calls of a transaction that succeeds. -/
theorem finalLedger_eq (hrun : txRun F node patchForBlock isGenesis tx = .ok run)
    (hmessage : (run.outcome F tx behaviour).message = none) (addr : Address) :
    run.finalLedger F node tx behaviour addr =
      (leftData F addr (run.stored F node tx behaviour) (run.ledger F addr).1,
        (run.ledger F addr).2 + gains run.env addr (run.stored F node tx behaviour)) := by
  obtain ⟨own, hown, hcases⟩ := ownContract_ok hrun hmessage
  have hstored : run.stored F node tx behaviour =
      storedContracts F run.env (run.events F tx behaviour) ++ [⟨false, own⟩] := by
    rw [ContractRun.stored, hown]
    rfl
  have hdata := data_replay (F := F) (E := run.env) addr (run.events F tx behaviour) (run.ledger F)
  rw [hstored, gains_append, gains_singleton, ContractRun.finalLedger, hown]
  dsimp only
  by_cases heq : own.strAddress = addr
  · subst heq
    have hlast := leftData_append_singleton (F := F) own.strAddress
      (storedContracts F run.env (run.events F tx behaviour)) ⟨false, own⟩
      (run.ledger F own.strAddress).1 rfl
    rw [Function.update_self, hlast, if_pos rfl]
    refine Prod.ext rfl ?_
    have hprevious : (run.ledger F own.strAddress).2 =
        previousBalance run.env.storage run.env.patchBlock own.strAddress := rfl
    dsimp only [Stored.gain]
    obtain ⟨hnone, hevents, hbalance⟩ | ⟨started, s, hsome, hinvocation, haddress, hstarted, hbalance⟩ :=
      hcases
    · rw [hnone, hevents, hbalance, hprevious]
      simp [gains, storedAt, storedContracts]
    · have hevents : run.events F tx behaviour =
          callEvents F run.env behaviour.method started s := by
        rw [ContractRun.events, hinvocation]
      have hreplay := balance_replay_callEvents (F := F) (E := run.env) own.strAddress behaviour.method
        started s (run.ledger F)
      rw [if_pos haddress.symm, hstarted, ← haddress] at hreplay
      rw [hsome, if_pos rfl, hevents, hreplay, hbalance, hprevious]
      ring
  · have hnotOwn : storedAt addr [Stored.mk false own] = [] := by simp [storedAt, heq]
    rw [Function.update_of_ne (Ne.symm heq), if_neg heq, add_zero, leftData, storedAt_append,
      hnotOwn, List.append_nil]
    refine Prod.ext hdata ?_
    obtain ⟨-, hevents, -⟩ | ⟨started, s, -, hinvocation, haddress, -⟩ := hcases
    · rw [hevents]
      simp [CallEvent.replay, gains, storedAt, storedContracts]
    · have hevents : run.events F tx behaviour =
          callEvents F run.env behaviour.method started s := by
        rw [ContractRun.events, hinvocation]
      have hreplay := balance_replay_callEvents (F := F) (E := run.env) addr behaviour.method started s
        (run.ledger F)
      rw [if_neg (haddress ▸ heq), add_zero] at hreplay
      rw [hevents, hreplay]

/-- The contracts in the patch of a transaction, whether it succeeds or not. -/
theorem processTx_mapContractStates (hrun : txRun F node patchForBlock isGenesis tx = .ok run)
    (hok : processTx F node patchForBlock isGenesis tx behaviour = .ok (fee, patchThisTx)) :
    patchThisTx.mapContractStates =
      (storeAll F (run.stored F node tx behaviour) run.patchThisTx).mapContractStates := by
  obtain ⟨prepared, _, -, -, -, hprocess⟩ := txRun_ok hrun
  rw [hprocess] at hok
  -- the contracts when the contract of the transaction has stopped
  have hstopped : (run.outcome F tx behaviour).state.patchTx.mapContractStates =
      (storeAll F (storedContracts F run.env (run.events F tx behaviour))
        run.patchThisTx).mapContractStates := by
    rw [ContractRun.outcome, state_checkCoinsUsed]
    cases execContract_cases F tx behaviour run with
    | notCreated hcontract _ hpatch _ =>
        simp [hpatch, ContractRun.events, ContractRun.invocation, hcontract, storedContracts,
          storeAll]
    | created hcontract _ _ _ hpatch _ _ =>
        simp [hpatch, ContractRun.events, ContractRun.invocation, hcontract, storedContracts,
          storeAll]
    | refused _ _ hinvocation _ hexec =>
        simp [hexec, ContractRun.events, hinvocation, ContractRun.start, storedContracts, storeAll]
    | invoked contract started s _ hinvocation _ _ hpatch hexec =>
        have hrunCode := runCode_mapContractStates (F := F) (E := run.env) behaviour.method started s
        rw [hexec, (endInvocation_spec _ _).1, hrunCode, ContractRun.events, hinvocation]
        exact mapContractStates_storeAll_congr _ (by rw [hpatch])
  have hsettled (stored : TxReceipt) :
      (settledPatch F node tx (run.outcome F tx behaviour) stored).mapContractStates =
        (storeAll F (run.stored F node tx behaviour) run.patchThisTx).mapContractStates := by
    rw [settledPatch, storeOutcome, ContractRun.stored, ContractRun.ownContract, storeAll_append]
    cases contractToStore F node (run.outcome F tx behaviour) with
    | none => exact hstopped
    | some contract => exact mapContractStates_setContract_congr _ hstopped
  obtain ⟨stored, -, ⟨-, -, rfl⟩ | ⟨-, -, -, rfl⟩ | ⟨-, -, hchange⟩⟩ := settleContract_ok hok
  · exact hsettled stored
  · exact hsettled stored
  · obtain ⟨-, -, rfl⟩ | ⟨receiver, -, -, ⟨-, rfl⟩ | ⟨-, rfl⟩⟩ := createContractChange_ok hchange
    · exact hsettled stored
    · exact hsettled stored
    · exact hsettled stored

/-- What a transaction leaves under an address: nothing if no call stored the contract, or
else the first copy with the data of the last. -/
theorem getContract_of_storedAt (hrun : txRun F node patchForBlock isGenesis tx = .ok run)
    (hok : processTx F node patchForBlock isGenesis tx behaviour = .ok (fee, patchThisTx))
    (addr : Address) :
    patchThisTx.getContract addr =
      (storedAt addr (run.stored F node tx behaviour)).foldl (recordCopy F) none := by
  obtain ⟨prepared, _, hprepared, -, hof, -⟩ := txRun_ok hrun
  have hempty : run.patchThisTx.getContract addr = none := by
    rw [PatchDB.getContract, hof.patchThisTx, (prepareTx_coins hprepared).1.contracts]
    rfl
  rw [PatchDB.getContract, processTx_mapContractStates hrun hok, ← PatchDB.getContract,
    getContract_storeAll, hempty]

theorem getContract_of_copies (hrun : txRun F node patchForBlock isGenesis tx = .ok run)
    (hok : processTx F node patchForBlock isGenesis tx behaviour = .ok (fee, patchThisTx))
    {addr : Address} {first : Stored} {rest : List Stored}
    (hstored : storedAt addr (run.stored F node tx behaviour) = first :: rest) :
    patchThisTx.getContract addr = some (mergeCopies F first.contract rest) := by
  rw [getContract_of_storedAt hrun hok addr, hstored]
  exact foldl_recordCopy first.contract rest

/-- Every nested call begins with the contract as it was before the transaction. -/
theorem events_loaded {before after : List CallEvent} {contract : Contract}
    (hevents : run.events F tx behaviour = before ++ .loaded contract :: after) :
    (contract.data F, contract.balance) = run.ledger F contract.strAddress := by
  have hmem : .loaded contract ∈ run.events F tx behaviour := by
    rw [hevents]
    exact List.mem_append_right _ List.mem_cons_self
  unfold ContractRun.events at hmem
  split at hmem
  next => cases hmem
  next started s _ =>
    obtain ⟨hdata, hbalance⟩ := callEvents_loaded behaviour.method started s contract hmem
    rw [hdata, hbalance]
    rfl

/-- One stored contract against the ledger. -/
theorem composed_iff (hrun : txRun F node patchForBlock isGenesis tx = .ok run)
    (hmessage : (run.outcome F tx behaviour).message = none)
    (hok : processTx F node patchForBlock isGenesis tx behaviour = .ok (fee, patchThisTx))
    {addr : Address} {first last : Stored} {rest earlier : List Stored}
    (hfirst : storedAt addr (run.stored F node tx behaviour) = first :: rest)
    (hlast : first :: rest = earlier ++ [last]) :
    (∀ contract, patchThisTx.getContract addr = some contract →
        (contract.data F, contract.balance) = run.finalLedger F node tx behaviour addr) ↔
      (rest.map (·.gain run.env)).sum = 0 ∧
        (last.delegate = true →
          last.contract.data F = leftData F addr earlier (run.ledger F addr).1) := by
  simp only [getContract_of_copies hrun hok hfirst, Option.some.injEq, forall_eq',
    data_mergeCopies hlast, balance_mergeCopies]
  have haddress : ∀ entry ∈ first :: rest, entry.contract.strAddress = addr := by
    intro entry hentry
    rw [← hfirst] at hentry
    exact of_decide_eq_true (List.mem_filter.mp hentry).2
  have hlastAddress := haddress last (hlast ▸ List.mem_append_right _ (List.mem_singleton_self _))
  have hgain : first.gain run.env = first.contract.balance - (run.ledger F addr).2 := by
    rw [Stored.gain, haddress first List.mem_cons_self]
    rfl
  rw [finalLedger_eq hrun hmessage, ← leftData_storedAt, gains, hfirst, hlast,
    leftData_append_singleton _ _ _ _ hlastAddress, ← hlast, List.map_cons, List.sum_cons, hgain,
    Prod.mk.injEq]
  constructor
  · intro ⟨hdata, hbalance⟩
    refine ⟨by linarith, fun hdelegate => ?_⟩
    rw [hdata, if_pos hdelegate]
  · intro ⟨hsum, hdata⟩
    refine ⟨?_, by linarith⟩
    split
    next hdelegate => exact hdata hdelegate
    next => rfl

end Compose

section Sample

/-- The sample node with another contract. -/
def twoContracts : NodeView where
  storage := { sampleNode.storage with
    contracts := sampleNode.storage.contracts.insert 78 { sampleContract with strAddress := 78 } }
  processedHeight := none

/-- A method that calls another contract, which sends coins. -/
def callOnce : Code :=
  .call false 78 none (.send (some 9) 100 fun _ => .done Contract.emptyData) fun _ =>
    .done Contract.emptyData

/-- A method that calls another contract two times, and each time it sends coins. -/
def callTwice : Code :=
  .call false 78 none (.send (some 9) 100 fun _ => .done Contract.emptyData) fun _ => callOnce

end Sample

end CilCore
