import CilCore.Node.CallStack
import CilCore.Node.ContractAccounting

/-!
# Who pays for what contract code sends

What code requests is attributed to the contract on top of the stack. In every run that
keeps the stack in order, that is the contract of the code that was started last, and its
own only if nothing that it has called is still running.
-/

namespace CilCore.ContractMachine

variable {F : Factory} {J : Dagjs} {i n : Nat} {s : ContractMachine} {session : Session}

/-- A call of the execution is served as what it is: the current contract is its own, what
it sends leaves all objects alone but the one that has to pay, and if it is sent, that one
has as much less. -/
structure Attributed (F : Factory) (s : ContractMachine) (session : Session) (n : Nat) :
    Prop where
  current : s.app.getCurrentContract = session.contractOf n
  others : ∀ strAddress amount ref, session.intendedPayer n ≠ some ref →
    (s.serveSend F strAddress amount).1.store.heap[ref]? = s.store.heap[ref]?
  withdrawn : ∀ strAddress amount payer, session.intendedPayer n = some payer →
    (s.serveSend F strAddress amount).2 = none →
      ∃ live live', s.store.heap[payer]? = some live ∧
        (s.serveSend F strAddress amount).1.store.heap[payer]? = some live' ∧
        live'.contract.balance = live.contract.balance - amount

theorem balance_sendCoins {E : RunEnv} {strAddress : Option Address} {amount : Amount}
    {holder : Contract} {patchTx : PatchDB}
    (h : (sendCoins F E strAddress amount holder patchTx).2.2 = none) :
    (sendCoins F E strAddress amount holder patchTx).2.1.balance = holder.balance - amount := by
  revert h
  unfold sendCoins
  split
  next => exact fun h => by cases h
  next =>
    split
    next => exact fun h => by cases h
    next =>
      split
      next hzero =>
        intro _
        rw [hzero]
        exact (sub_zero holder.balance).symm
      next =>
        split
        next => exact fun h => by cases h
        next txHash coins patch _ =>
          dsimp only
          split
          next => exact fun h => by cases h
          next patch' _ =>
            split
            next => exact fun h => by cases h
            next after hwithdraw =>
              intro _
              unfold Contract.withdraw at hwithdraw
              split at hwithdraw
              next => cases hwithdraw
              next =>
                injection hwithdraw with hwithdraw
                rw [← hwithdraw]
                change holder.balance + (0 - amount) = holder.balance - amount
                rw [zero_sub, ← sub_eq_add_neg]

/-- What `_send` changes: the object that pays, which has the amount less if it is sent. -/
theorem serveSend_effect (strAddress : Option Address) (amount : Amount) :
    (∀ ref, s.payer ≠ some ref →
      (s.serveSend F strAddress amount).1.store.heap[ref]? = s.store.heap[ref]?) ∧
    ((s.serveSend F strAddress amount).2 = none → ∃ payer live live', s.payer = some payer ∧
      s.store.heap[payer]? = some live ∧
      (s.serveSend F strAddress amount).1.store.heap[payer]? = some live' ∧
      live'.contract.balance = live.contract.balance - amount) := by
  unfold serveSend
  split
  next => exact ⟨fun _ _ => rfl, fun hsent => by cases hsent⟩
  next nCoinsLimit _ =>
    unfold sendCurrent
    split
    next payer serving hpayer _ =>
      have hpayer' : s.payer = some payer := hpayer
      split
      next => exact ⟨fun _ _ => rfl, fun hsent => by cases hsent⟩
      next live hlive =>
        have hlive' : s.store.heap[payer]? = some live := hlive
        refine ⟨fun ref href => ?_, fun hsent => ⟨payer, live, { live with contract := _ }, hpayer',
          hlive', ?_, balance_sendCoins hsent⟩⟩
        · exact List.getElem?_modify_ne _ _ fun heq => href (heq ▸ hpayer')
        · change (s.store.heap.modify payer _)[payer]? = _
          rw [List.getElem?_modify_eq, hlive']
          rfl
    next => exact ⟨fun _ _ => rfl, fun hsent => by cases hsent⟩

/-- Two contracts with a method each. -/
def twoContracts : ContractDb where
  storage := { sampleNode.storage with
    contracts := sampleNode.storage.contracts.insert 78
      { sampleContract with strAddress := 78, balance := 50 } }
  codes :=
    let serving : FinMap Address ContractCode := (∅ : FinMap Address ContractCode).insert 78
      [⟨"serve", true, ""⟩]
    serving.insert 77 [⟨"main", true, ""⟩]

/-- A transaction that invokes the first one. -/
def invocationSession : Session :=
  .start
    { storage := twoContracts.storage
      patchBlock := PatchDB.empty
      strTxHash := (sampleTx none).hash Factory.sample
      nFeeContractCreation := 10000
      nFeeContractInvocation := 10000
      nFeeInternalTx := 300
      isTimeToForkSerializer2 := true
      isTimeToForkSerializer3 := true } ∅
    (.invocation
      { node := { sampleNode with storage := twoContracts.storage }
        isGenesis := false
        tx := sampleTx none
        nMaxCoins := 98000
        nFeeSize := 1000
        nFeeStorage := 10 })
    { strAddress := 77, method := "main", callbacks := 0 } PatchDB.empty

/-- A node that runs it. -/
def oneInvocation : ContractMachine where
  app := ⟨⟨none, none, none⟩, none, none, 0, none, [], 0⟩
  store := .new twoContracts
  pendingBlocks := ⟨.empty, []⟩
  pendingContracts := ∅
  sessions := [invocationSession]

theorem begins_oneInvocation : oneInvocation.Begins 0 :=
  ⟨_, _, _, _, _, rfl, rfl, rfl, fun _ _ h => by cases h⟩

/-- The contract is read. -/
def fetchedContract : ContractMachine :=
  oneInvocation.steps Factory.sample Dagjs.sample 0 [.fetch 0, .process]

theorem keepsOrder_enter_fetchedContract :
    fetchedContract.KeepsOrder Dagjs.sample 0 (.enter 0) := by
  intro session call ref hsession hcall href
  have hcontext : (fetchedContract.sessions[0]?).all (fun session =>
      (session.calls[0]?).all fun call => call.context = none) = true := by decide +kernel
  have hentering : fetchedContract.entering Dagjs.sample 0 0 = some 0 := by decide +kernel
  have hown : (fetchedContract.store.heap[0]?).any (·.proxiedContract.isNone) = true := by
    decide +kernel
  rw [hentering] at href
  injection href with href
  rw [hsession, Option.all_some, hcall, Option.all_some] at hcontext
  rw [if_pos (of_decide_eq_true hcontext)]
  obtain ⟨live, hlive, hnone⟩ := (Option.any_eq_true _ _).mp hown
  exact ⟨live, href ▸ hlive, Option.isNone_iff_eq_none.mp hnone⟩

/-- The contract calls the other one without waiting for it. -/
def unawaitedCall : ContractMachine :=
  oneInvocation.steps Factory.sample Dagjs.sample 0
    [.fetch 0, .process, .enter 0, .call 0 false 78 "serve" none, .fetch 1, .enter 1]

end CilCore.ContractMachine
