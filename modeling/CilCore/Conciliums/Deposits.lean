import CilCore.Conciliums.ContractConciliums
import CilCore.Lib.Runs
import CilCore.Node.SendAttribution

/-!
# Deposits in the contract of the conciliums

The contract of the conciliums runs on the node like any other contract. While it is
not handed to a proxy, its balance covers the deposits, and who has waited long enough
can take the deposit back, unless nested calls record coins that never came.
-/

namespace CilCore.ContractConciliums

/-- The contract as the node stores it, and the data that it holds. -/
structure Deployed where
  state : State
  contract : Contract

/-- One call of the contract. It is the call that a transaction makes, or a nested one, which
has the global variables of the transaction but brings no coins. The transaction may turn out
not to afford the call. What a proxy would do is open. -/
structure Invocation where
  globals : Globals
  method : Method
  nested : Bool
  affordable : Bool
  env : RunEnv
  before : RunState
  proxyCode : Code
  proxyState : State

/-- The coins that come with a call. -/
def Invocation.coins (x : Invocation) : Amount := if x.nested then 0 else x.globals.value

/-- The caller leaves the concilium at a position. -/
def Invocation.Leaves (x : Invocation) (index : Nat) (strAddress : Address) : Prop :=
  ∃ conciliumId, x.method = .leaveConcilium conciliumId ∧
    conciliumId.parsed = some (index : Int) ∧ x.globals.callerAddress = some strAddress

/-- Nothing follows the last request, and nothing is caught. -/
def afterRequest (data : Data) : Option String → Code
  | none => .done data
  | some message => .throws message

/-- The requests that the node sees. -/
def Outcome.code (toData : State → Data) (x : Invocation) : Outcome → Code
  | .throws message => .throws message
  | .returns state => .done (toData state)
  | .pays strAddress amount state =>
      .send (some strAddress) amount (afterRequest (toData state))
  | .delegates strAddress =>
      .call true strAddress none x.proxyCode (afterRequest (toData x.proxyState))

/-- The data after a call that returned. -/
def Outcome.stateAfter (x : Invocation) (before : State) : Outcome → State
  | .throws _ => before
  | .returns state => state
  | .pays _ _ state => state
  | .delegates _ => x.proxyState

namespace Deployed

variable (F : Factory) (toData : State → Data)

/-- What the method does. -/
def outcome (d : Deployed) (x : Invocation) : Outcome := x.method.run x.globals d.state

/-- The run of the method on the node. -/
def runCall (d : Deployed) (x : Invocation) : RunState × Contract × Except String Data :=
  runCode F x.env ((d.outcome x).code toData x) d.contract x.before

/-- A call is stored if it returned and, unless it is nested, is paid for. The coins that
come with it are deposited then. -/
def call (d : Deployed) (x : Invocation) : Deployed :=
  match (d.runCall F toData x).2.2 with
  | .error _ => d
  | .ok data =>
      if x.nested || x.affordable then
        { state := (d.outcome x).stateAfter x d.state
          contract := (finishedContract F x.env false data (d.runCall F toData x).2.1).deposit
            x.coins }
      else d

/-- What is left of the balance when all deposits are paid back. -/
def surplus (d : Deployed) : Amount := d.contract.balance - d.state.deposits

/-- The contract works for itself, and nobody owes coins to it. -/
structure Working (d : Deployed) : Prop where
  proxyAddress : d.state.proxyAddress = none
  nonneg : d.state.Nonneg

/-- The balance covers the deposits. -/
structure Sound (d : Deployed) : Prop extends d.Working where
  surplus : 0 ≤ d.surplus

end Deployed

/-- A call that asks for nothing unfair. Amounts of transactions are not negative. -/
structure FairCall extends Invocation where
  fair : method.Fair
  value_nonneg : 0 ≤ globals.value

/-- The contract takes one call after another. -/
def Deployed.step (F : Factory) (toData : State → Data) (d : Deployed) (x : FairCall) : Deployed :=
  d.call F toData x.toInvocation

/-- Coins that are sent are gone from the balance. -/
theorem balance_send {F : Factory} {E : RunEnv} {strAddress : Option Address} {amount : Amount}
    {holder : Contract} {s : RunState} (h : (send F E strAddress amount holder s).2.2 = none) :
    amount ≤ holder.balance ∧
      (send F E strAddress amount holder s).2.1.balance = holder.balance - amount := by
  cases hspend : spendCoins s.nCoinsLimit E.nFeeInternalTx with
  | error error => simp [send, hspend] at h
  | ok nCoinsLimit =>
      simp only [send, hspend] at h ⊢
      refine ⟨?_, ContractMachine.balance_sendCoins h⟩
      by_contra hfunds
      cases strAddress with
      | none => simp [sendCoins] at h
      | some receiver => simp [sendCoins, not_le.mp hfunds] at h

/-- With coins for the fee, what the holder has can be sent. -/
theorem send_of_ready {F : Factory} {E : RunEnv} {strAddress : Address} {amount : Amount}
    {holder : Contract} {s : RunState} (hready : s.patchTx.Ready F E.strTxHash)
    (hfee : E.nFeeInternalTx ≤ s.nCoinsLimit) (hamount : 0 ≤ amount)
    (hfunds : amount ≤ holder.balance) :
    (send F E (some strAddress) amount holder s).1.patchTx =
        (if amount = 0 then s.patchTx else s.patchTx.afterSend F E.strTxHash strAddress amount) ∧
      (send F E (some strAddress) amount holder s).2.2 = none := by
  have hspend : spendCoins s.nCoinsLimit E.nFeeInternalTx =
      .ok (s.nCoinsLimit - E.nFeeInternalTx) := by
    rw [spendCoins, if_neg (by linarith)]
  by_cases hzero : amount = 0
  · simp [send, hspend, sendCoins, hzero, not_lt.mpr (hzero ▸ hfunds)]
  · have hpos : 0 < amount := lt_of_le_of_ne hamount (Ne.symm hzero)
    have hreceipt := PatchDB.setReceipt_running
      (s.patchTx.getNonce.2.setUtxo (F.internalHash E.strTxHash s.patchTx.nonce)
        ((∅ : UTXO).insert 0 ⟨amount, strAddress⟩)) hready.receipt
      (F.internalHash E.strTxHash s.patchTx.nonce) ⟨amount, strAddress⟩
    have hsend : sendCoins F E (some strAddress) amount holder s.patchTx =
        (s.patchTx.afterSend F E.strTxHash strAddress amount, holder.deposit (0 - amount), none) := by
      simp only [sendCoins, if_neg (not_lt.mpr hfunds), if_neg hzero, createInternalTx, if_pos hpos,
        PatchDB.getNonce, Contract.withdraw] at hreceipt ⊢
      rw [hreceipt]
      rfl
    simp [send, hspend, hsend, hzero]

namespace Deployed

variable {F : Factory} {toData : State → Data} {d : Deployed} {x : Invocation}

theorem call_of_throws {message : String} (h : d.outcome x = .throws message) :
    d.call F toData x = d := by
  simp [call, runCall, h, Outcome.code, runCode]

/-- A call that changes nothing but the data: the coins that come with it are kept. -/
theorem call_of_returns {st : State} (h : d.outcome x = .returns st) :
    d.call F toData x = d ∨
      (d.call F toData x).state = st ∧
        (d.call F toData x).contract.balance = d.contract.balance + x.coins := by
  by_cases hstored : x.nested || x.affordable
  · refine .inr ?_
    simp [call, runCall, h, Outcome.code, runCode, hstored, Outcome.stateAfter, Contract.deposit]
  · refine .inl ?_
    simp [call, runCall, h, Outcome.code, runCode, hstored]

/-- A call that sends coins has them, or leaves everything as it was. -/
theorem call_of_pays {strAddress : Address} {amount : Amount} {st : State}
    (h : d.outcome x = .pays strAddress amount st) :
    d.call F toData x = d ∨
      amount ≤ d.contract.balance ∧ (d.call F toData x).state = st ∧
        (d.call F toData x).contract.balance = d.contract.balance - amount + x.coins := by
  cases hsend : (send F x.env (some strAddress) amount d.contract x.before).2.2 with
  | some message =>
      refine .inl ?_
      simp [call, runCall, h, Outcome.code, runCode, hsend, afterRequest]
  | none =>
      obtain ⟨hamount, hbalance⟩ := balance_send hsend
      by_cases hstored : x.nested || x.affordable
      · refine .inr ⟨hamount, ?_, ?_⟩
        · simp [call, runCall, h, Outcome.code, runCode, hsend, afterRequest, hstored,
            Outcome.stateAfter]
        · simp [call, runCall, h, Outcome.code, runCode, hsend, afterRequest, hstored, hbalance,
            Contract.deposit]
      · refine .inl ?_
        simp [call, runCall, h, Outcome.code, runCode, hsend, afterRequest, hstored]

/-- **What a fair call does** to deposits and balance. -/
theorem step_cases (hd : d.Working) (x : FairCall) :
    d.step F toData x = d ∨
      (∃ amount ≤ x.globals.value, d.state.Credits (d.step F toData x).state amount ∧
        (d.step F toData x).contract.balance = d.contract.balance + x.coins) ∨
      ∃ index strAddress amount, x.Leaves index strAddress ∧
        d.state.Debits (d.step F toData x).state index strAddress amount ∧
        (d.step F toData x).contract.balance = d.contract.balance - amount + x.coins := by
  rcases Method.run_cases hd.proxyAddress x.value_nonneg hd.nonneg x.fair with ⟨message, hrun⟩ |
    ⟨st, amount, hrun, hle, hcredits⟩ |
    ⟨conciliumId, index, strAddress, amount, st, hmethod, hparsed, hcaller, hrun, hdebits⟩
  · exact .inl (call_of_throws hrun)
  · rcases call_of_returns (F := F) hrun with hsame | ⟨hstate, hbalance⟩
    · exact .inl hsame
    · exact .inr (.inl ⟨amount, hle, hstate ▸ hcredits, hbalance⟩)
  · rcases call_of_pays (F := F) hrun with hsame | ⟨-, hstate, hbalance⟩
    · exact .inl hsame
    · exact .inr (.inr ⟨index, strAddress, amount, ⟨conciliumId, hmethod, hparsed, hcaller⟩,
        hstate ▸ hdebits, hbalance⟩)

theorem Working.step (hd : d.Working) (x : FairCall) : (d.step F toData x).Working := by
  rcases step_cases (F := F) hd x with hsame | ⟨amount, -, hcredits, -⟩ |
    ⟨index, strAddress, amount, -, hdebits, -⟩
  · rwa [hsame]
  · exact ⟨hcredits.proxyAddress.trans hd.proxyAddress, hcredits.nonneg hd.nonneg⟩
  · exact ⟨hdebits.proxyAddress.trans hd.proxyAddress, hdebits.nonneg hd.nonneg⟩

/-- What is left over gets less exactly if a nested call records a deposit: the coins that
it counts were sent to another contract. -/
theorem surplus_step_iff (hd : d.Working) (x : FairCall) :
    d.surplus ≤ (d.step F toData x).surplus ↔
      (x.nested = true → (d.step F toData x).state.deposits ≤ d.state.deposits) := by
  have hvalue := x.value_nonneg
  rcases (step_cases hd x : d.step F toData x = d ∨ _) with hsame |
    ⟨amount, hle, hcredits, hbalance⟩ | ⟨index, strAddress, amount, -, hdebits, hbalance⟩
  · simp [hsame]
  · rw [surplus, surplus, hbalance, hcredits.deposits, Invocation.coins]
    cases x.nested with
    | true =>
        simp only [if_true, add_zero, true_implies]
        constructor
        all_goals
          intro h
          linarith
    | false =>
        simp only [Bool.false_eq_true, if_false, false_implies, iff_true]
        linarith
  · have hamount : 0 ≤ amount := by
      rw [← hdebits.depositOf]
      exact hd.nonneg.depositOf_nonneg index strAddress
    have hcoins : 0 ≤ x.coins := by
      unfold Invocation.coins
      split
      · exact le_rfl
      · exact hvalue
    rw [surplus, surplus, hbalance, hdebits.deposits]
    constructor
    all_goals
      intros
      linarith

/-- Only a member's own leaving takes from the deposit. -/
theorem depositOf_step (hd : d.Working) (x : FairCall) {index : Nat} {strAddress : Address}
    (hstays : ¬x.Leaves index strAddress) :
    d.state.depositOf index strAddress ≤
      (d.step F toData x).state.depositOf index strAddress := by
  rcases (step_cases hd x : d.step F toData x = d ∨ _) with hsame | ⟨amount, -, hcredits, -⟩ |
    ⟨i, other, amount, hleaves, hdebits, -⟩
  · rw [hsame]
  · exact hcredits.depositOf hd.nonneg index strAddress
  · refine (hdebits.others index strAddress ?_).ge
    rintro ⟨rfl, rfl⟩
    exact hstays hleaves

/-- A call by which a member leaves who is not held back any more, with coins for its fees. -/
structure Due (F : Factory) (d : Deployed) (x : Invocation) (index : Nat) (strAddress : Address)
    (objMember : Member) : Prop where
  method : ∃ conciliumId, x.method = .leaveConcilium conciliumId ∧ conciliumId.truthy = true ∧
    conciliumId.parsed = some (index : Int)
  caller : x.globals.callerAddress = some strAddress
  member : ∃ c, d.state.arrConciliums[index]? = some c ∧ c.type = .CONCILIUM_TYPE_POS ∧
    (c.arrMembers.getD []).find? (·.address = strAddress) = some objMember
  released : objMember.nHeightToRelease.all fun height => height ≤ (x.globals.height : Int)
  fee : x.env.nFeeInternalTx ≤ x.before.nCoinsLimit
  stored : x.nested = true ∨ x.affordable = true
  ready : x.before.patchTx.Ready F x.env.strTxHash

/-- The deposit of a member is paid back: it is an output of the transaction, and it is gone
from the balance and from the deposits. -/
structure PaidBack (F : Factory) (toData : State → Data) (d : Deployed) (x : Invocation)
    (strAddress : Address) (amount : Amount) : Prop where
  patchTx : (d.runCall F toData x).1.patchTx =
    if amount = 0 then x.before.patchTx
    else x.before.patchTx.afterSend F x.env.strTxHash strAddress amount
  balance : (d.call F toData x).contract.balance = d.contract.balance - amount + x.coins
  deposits : (d.call F toData x).state.deposits = d.state.deposits - amount

theorem Sound.paidBack (hd : d.Sound) {index : Nat} {strAddress : Address} {objMember : Member}
    (hdue : Due F d x index strAddress objMember) :
    PaidBack F toData d x strAddress objMember.amount := by
  obtain ⟨c, hget, htype, hfind⟩ := hdue.member
  obtain ⟨changed, hretire⟩ := exists_retirePosConciliumMember hfind hdue.released
  obtain ⟨conciliumId, hmethod, htruthy, hparsed⟩ := hdue.method
  have hrun : d.outcome x = .pays strAddress objMember.amount
      { d.state with arrConciliums := d.state.arrConciliums.set index changed } := by
    have haddress : objMember.address = strAddress := by simpa using List.find?_some hfind
    simp [outcome, hmethod, Method.run, State.leaveConcilium, State.signed, hdue.caller,
      hd.proxyAddress, htruthy, State.checkConciliumId_eq hparsed hget, htype, hretire, haddress]
  have hdebits := State.Debits.of_concilium hget htype hretire
  have hamount : 0 ≤ objMember.amount :=
    hd.nonneg.conciliums c (List.mem_of_getElem? hget) htype objMember
      (List.mem_of_find?_eq_some hfind)
  have hfunds : objMember.amount ≤ d.contract.balance := by
    have hrest := (hdebits.nonneg hd.nonneg).deposits_nonneg
    have hsurplus := hd.surplus
    rw [hdebits.deposits] at hrest
    rw [Deployed.surplus] at hsurplus
    linarith
  obtain ⟨hpatch, hnone⟩ :=
    (send_of_ready hdue.ready hdue.fee hamount hfunds :
      (send F x.env (some strAddress) objMember.amount d.contract x.before).1.patchTx = _ ∧ _)
  have hbalance := (balance_send hnone).2
  have hstored : (x.nested || x.affordable) = true := by simpa using hdue.stored
  refine ⟨?_, ?_, ?_⟩
  · rw [← hpatch]
    simp [runCall, hrun, Outcome.code, runCode, hnone, afterRequest]
  · simp [Deployed.call, runCall, hrun, Outcome.code, runCode, hnone, afterRequest, hstored, hbalance,
      Contract.deposit]
  · rw [← hdebits.deposits]
    simp [Deployed.call, runCall, hrun, Outcome.code, runCode, hnone, afterRequest, hstored,
      Outcome.stateAfter]

end Deployed

/-- The constructor starts soundly if the coins of the creation cover the first members. -/
theorem sound_construct {g : Globals} {c : Concilium} {nFeeCreate : Option Amount} {st : State}
    {contract : Contract} (hc : c.Nonneg) (hfee : 0 ≤ nFeeCreate.getD 0)
    (hfunds : c.deposits ≤ contract.balance) (h : construct g (some c) nFeeCreate = .ok st) :
    (Deployed.mk st contract).Sound := by
  have hsound : ∀ feeCreate : Option Amount, 0 ≤ feeCreate.getD 0 →
      (Deployed.mk ⟨g.callerAddress, [{ c with conciliumCreationTx := some g.contractTx }],
        feeCreate, none⟩ contract).Sound := by
    intro feeCreate hnonneg
    refine ⟨⟨rfl, ⟨fun d hd => ?_, hnonneg⟩⟩, ?_⟩
    · rw [List.mem_singleton.mp hd]
      exact hc
    · simpa [Deployed.surplus, State.deposits, Concilium.deposits] using hfunds
  unfold construct at h
  dsimp only at h
  split at h
  · cases h
    exact hsound none (by simp)
  · split at h
    · cases h
    · cases h
      exact hsound nFeeCreate hfee

/-- What the node sets for the example: nobody pays fees. -/
def sampleRun : RunState := ⟨0, 0, .empty⟩

def sampleEnv : RunEnv where
  storage := .empty
  patchBlock := .empty
  strTxHash := 3
  nFeeContractCreation := 0
  nFeeContractInvocation := 0
  nFeeInternalTx := 0
  isTimeToForkSerializer2 := true
  isTimeToForkSerializer3 := false

/-- The second concilium has one member, who has put in ten coins. -/
def sampleDeployed : Deployed where
  state := {
    ownerAddress := some 5
    arrConciliums := [
      { type := .CONCILIUM_TYPE_RR, addresses := some [5] },
      { type := .CONCILIUM_TYPE_POS, isOpen := true, nMinAmountToJoin := some 1,
        arrMembers := some [⟨6, 10, some 1200⟩] }] }
  contract := { strAddress := 9, balance := 12, version := .CONTRACT_V_V8 }

def sampleCall (callerAddress : Address) (value : Amount) (nested : Bool) (method : Method) :
    Invocation where
  globals := ⟨some callerAddress, value, 1300, 4⟩
  method := method
  nested := nested
  affordable := true
  env := sampleEnv
  before := sampleRun
  proxyCode := .throws "no proxy"
  proxyState := { ownerAddress := none, arrConciliums := [] }

/-- Another member joins, by a transaction or by a nested call. -/
def sampleJoin (nested : Bool) : FairCall where
  toInvocation := sampleCall 7 5 nested (.joinConcilium ⟨true, some 1⟩)
  fair := trivial
  value_nonneg := by simp [sampleCall]

theorem sound_sampleDeployed : sampleDeployed.Sound where
  proxyAddress := rfl
  nonneg := ⟨by simp [sampleDeployed, Concilium.Nonneg], by simp [sampleDeployed]⟩
  surplus := by
    simp [sampleDeployed, Deployed.surplus, State.deposits, Concilium.deposits]
    norm_num

theorem arrConciliums_sampleJoin (nested : Bool) :
    (sampleDeployed.step Factory.sample (fun _ => []) (sampleJoin nested)).state.arrConciliums =
      [{ type := .CONCILIUM_TYPE_RR, addresses := some [5] },
        { type := .CONCILIUM_TYPE_POS, isOpen := true, nMinAmountToJoin := some 1,
          arrMembers := some [⟨6, 10, some 1200⟩, ⟨7, 5, some 2300⟩] }] := by
  cases nested <;> rfl

end CilCore.ContractConciliums
