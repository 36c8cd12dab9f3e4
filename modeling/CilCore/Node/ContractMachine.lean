import CilCore.Node.Application
import CilCore.Node.PendingBlocksManager

/-!
# Executions of contracts, interleaved

`runContract`, `_send` and `_callWithContext` of `node/app.js` with `_sendCoins`,
`_invokeNestedContract`, `_constantMethodCallRpc` and the contract part of `_processTx` of
`node/node.js`, cut at their `await`s. Executions take turns at these points, and so do
the calls of one execution, since contract code need not wait for the calls that it makes.
They share the application object and the contract objects.
-/

namespace CilCore

/-- How far a call has come. -/
inductive Stage where
  /-- The contract is being read. -/
  | loading
  | loaded
  /-- The fees are being read, for the contract of a transaction. -/
  | processing
  /-- The address of a new contract is being looked up. -/
  | checking
  | running
  /-- The code has returned, but the contract is not stored yet. -/
  | returned
  /-- Over, with the message of the exception if one was thrown. -/
  | over (message : Option String)
deriving DecidableEq

/-- A call of a contract's method. The first call of an execution is its own, the others
were requested by code that it runs. -/
structure Call where
  form : AddressForm := .buffer
  strAddress : Address
  method : String
  /-- For a delegated call, the call whose context the code runs in. -/
  context : Option Nat := none
  /-- The execution whose callbacks serve the call. -/
  callbacks : Nat
  /-- The current contract when the call was requested. -/
  caller : Option Ref := none
  contract : Option Ref := none
  stage : Stage := .loading
deriving DecidableEq

/-- What `_processTx` has computed when it comes to the contract. -/
structure ContractTx where
  node : NodeView
  isGenesis : Bool
  tx : Transaction
  nMaxCoins : Amount
  nFeeSize : Nat
  nFeeStorage : Nat

/-- What an execution is for. -/
inductive Task where
  | constantCall (completed : Bool)
  | invocation (contractTx : ContractTx)
  | creation (contractTx : ContractTx) (constructor : Except String Constructed)

/-- An execution: its environment with the code of the contracts in the block's patch, its
calls and the order in which they were started (the last one first), the patch of the
transaction with the contract objects that were stored in it, what contract code was
answered, and what `_processTx` returns. -/
structure Session where
  env : RunEnv
  codes : FinMap Address ContractCode
  task : Task
  calls : List Call
  started : List Nat
  patchTx : PatchDB
  contracts : List Ref
  answers : List (Option String)
  result : Option (Except String (Amount × PatchDB))

namespace Session

/-- An execution that begins. -/
def start (env : RunEnv) (codes : FinMap Address ContractCode) (task : Task) (call : Call)
    (patchTx : PatchDB) : Session :=
  ⟨env, codes, task, [call], [], patchTx, [], [], none⟩

/-- A call changes. -/
def modifyCall (n : Nat) (f : Call → Call) (session : Session) : Session :=
  { session with calls := session.calls.modify n f }

/-- The code of a call starts. -/
def startCall (n : Nat) (session : Session) : Session :=
  { session.modifyCall n fun call => { call with stage := .running } with
    started := n :: session.started }

/-- Is it a call that returns its result without storing data? -/
def isConstantCall (session : Session) (n : Nat) : Bool :=
  match session.task with
  | .constantCall _ => n = 0
  | _ => false

/-- The code of a call is running. -/
def IsRunning (session : Session) (n : Nat) : Prop :=
  ∃ call, session.calls[n]? = some call ∧ call.stage = .running

instance (session : Session) (n : Nat) : Decidable (session.IsRunning n) :=
  decidable_of_iff ((session.calls[n]?).any fun call => call.stage = .running) (by
    simp [IsRunning, Option.any_eq_true])

/-- The calls whose code is running, the last one started first. -/
def running (session : Session) : List Nat := session.started.filter fun n => session.IsRunning n

/-- `setContract` of the transaction's patch, for a contract object. -/
def findStored (session : Session) (heap : Heap) (strAddress : Address) : Option Ref :=
  session.contracts.find? fun ref => (heap[ref]?).any fun live =>
    live.contract.strAddress = strAddress

/-- The patch of the transaction, with the contracts as they are. -/
def patchThisTx (F : Factory) (session : Session) (heap : Heap) : PatchDB :=
  (session.contracts.filterMap (heap[·]?)).foldl
    (fun patch live => patch.setContract F live.contract) session.patchTx

end Session

/-- The node, as far as contract code can reach: the application object, the storage with
its cache and all contract objects, those held by the patches of pending blocks, and the
executions. -/
structure ContractMachine where
  app : Application
  store : StorageWithCache
  pendingBlocks : PendingBlocksManager
  pendingContracts : FinMap (Hash × Address) Ref
  sessions : List Session

/-- What an execution does next. Calls are named by their number in the execution. -/
inductive Action where
  /-- The contract of a call has been read. -/
  | fetch (n : Nat)
  /-- `_processContract` is entered. -/
  | process
  /-- `runContract` is entered, or the creation of a contract begins. -/
  | enter (n : Nat)
  /-- The new contract's address has been looked up. -/
  | create
  | send (n : Nat) (strAddress : Option Address) (amount : Amount)
  | call (n : Nat) (delegate : Bool) (strAddress : Address) (method : String)
      (coinsLimit : Option Amount)
  /-- The code changes its contract's data below the first level. -/
  | changeNested (n : Nat) (data : Data)
  /-- The method returns, the context data being this, or throws. -/
  | stop (n : Nat) (result : Except String Data)
  /-- `_invokeNestedContract` goes on after `runContract`. -/
  | storeNested (n : Nat)
  /-- `_processContract` goes on after the contract has stopped. -/
  | settle

namespace PendingBlocksManager

/-- The loop of `getContract` over the tips: the first one with the highest level. -/
def bestTip (dag : PendingDag) (nConciliumId : Nat) : List Hash → Hash × Nat → Hash × Nat
  | [], best => best
  | hash :: rest, best =>
      let nLevel := ((dag.readObj hash).bind (·.patch.getLevel (some nConciliumId))).getD 0
      bestTip dag nConciliumId rest (if nLevel > best.2 then (hash, nLevel) else best)

/-- The block whose patch `getContract` reads: the first one of the concilium on a path
down from that tip which has the same level. -/
def contractVertex (J : Dagjs) (nConciliumId : Nat) (pbm : PendingBlocksManager) : Option Hash :=
  let best := bestTip pbm.dag nConciliumId (J.tips pbm.dag) (0, 0)
  if best.2 = 0 then none
  else
    (J.findPathsDown pbm.dag best.1).flatten.find? fun vertex =>
      (pbm.dag.readObj vertex).any fun block =>
        block.patch.getLevel (some nConciliumId) = some best.2 ∧
          block.patch.conciliumId = some nConciliumId

end PendingBlocksManager

namespace ContractMachine

variable (F : Factory) (J : Dagjs) (i n : Nat) (s : ContractMachine)

/-! ### Pieces -/

def modifySession (f : Session → Session) : ContractMachine :=
  { s with sessions := s.sessions.modify i f }

def modifyCall (f : Call → Call) : ContractMachine :=
  s.modifySession i (·.modifyCall n f)

def setStage (stage : Stage) : ContractMachine :=
  s.modifyCall i n fun call => { call with stage }

def modifyLive (ref : Ref) (f : LiveContract → LiveContract) : ContractMachine :=
  { s with store := { s.store with heap := s.store.heap.modify ref f } }

def modifyContract (ref : Ref) (f : Contract → Contract) : ContractMachine :=
  s.modifyLive ref fun live => { live with contract := f live.contract }

/-- The answer to a request. -/
def answer (message : Option String) : ContractMachine :=
  s.modifySession i fun session => { session with answers := session.answers ++ [message] }

/-- A call of an execution. -/
def getCall : Option Call := (s.sessions[i]?).bind (·.calls[n]?)

/-- `getDataSize` of a contract object. -/
def dataSize (ref : Ref) : Nat :=
  ((s.store.heap[ref]?).map (·.contract.getDataSize F)).getD 0

/-- Has the code of a contract object this method? -/
def hasMethod (ref : Ref) (method : String) : Bool :=
  (s.store.heap[ref]?).any fun live => live.code.any (·.name = method)

/-- The method that is called: `_default` where none is named. -/
def calledMethod (method : String) : String := if method = "" then "_default" else method

/-- `_prepareCode`, which takes the marks of asynchronous methods away. -/
def prepareCode (code : ContractCode) : ContractCode :=
  code.map fun method => { method with isAsync := false }

/-! ### The beginning and the end of `runContract` -/

/-- The end of `runContract`: `_execDone`, after an exception or not. -/
def leave (ref : Ref) (message : Option String) : ContractMachine :=
  match s.app.execDone (some (s.dataSize F ref)) with
  | .error error => s.setStage i n (.over (some error))
  | .ok app =>
      ({ s with app }.modifyContract ref (·.ensureData F)).setStage i n
        (if message.isSome ∨ n = 0 then .over message else .returned)

/-- The code of a call starts. -/
def startCode (ref : Ref) : ContractMachine :=
  (s.modifyLive ref fun live =>
    { live with contract := live.contract.getData F, code := prepareCode live.code }).modifySession i
      (·.startCall n)

/-- `runContract` up to the code of the method. -/
def runContract (ref : Ref) (method : String) : ContractMachine :=
  match s.app.execStarted (some ref) (s.dataSize F ref) with
  | .error error => s.setStage i n (.over (some error))
  | .ok app =>
      let s := { s with app }.modifyContract ref (·.ensureData F)
      match s.app.nCoinsLimit.spendCoins s.app.objFees.nFeeContractInvocation with
      | .error error => s.leave F i n ref (some error)
      | .ok nCoinsLimit =>
          let s := { s with app := { s.app with nCoinsLimit } }
          if s.hasMethod ref (calledMethod method) then
            s.startCode F i n ref
          else s.leave F i n ref (some "Method not found")

/-! ### Requests -/

/-- The contract object that pays for what is sent: the holder of the balance that the
current contract shows. -/
def payer : Option Ref := s.app.getCurrentContract.bind s.store.heap.holder

/-- `_sendCoins` of the callbacks that are installed, for the current contract. -/
def sendCurrent (strAddress : Option Address) (amount : Amount) :
    ContractMachine × Option String :=
  match s.payer, s.sessions[s.app.objCallbacks]? with
  | some payer, some session =>
      match s.store.heap[payer]? with
      | none => (s, some "Expected a contract")
      | some live =>
          let r := sendCoins F session.env strAddress amount live.contract session.patchTx
          ((s.modifyContract payer fun _ => r.2.1).modifySession s.app.objCallbacks
            fun session => { session with patchTx := r.1 }, r.2.2)
  | _, _ => (s, some "Expected a contract")

/-- `_send`: the fee is spent first. -/
def serveSend (strAddress : Option Address) (amount : Amount) :
    ContractMachine × Option String :=
  match s.app.nCoinsLimit.spendCoins s.app.objFees.nFeeInternalTx with
  | .error error => (s, some error)
  | .ok nCoinsLimit =>
      { s with app := { s.app with nCoinsLimit } }.sendCurrent F strAddress amount

/-- `_callWithContext`: the call that is requested. -/
def serveCall (call : Call) (delegate : Bool) (strAddress : Address) (method : String)
    (coinsToPass : Option Amount) : Except String Call :=
  match s.app.checkCoinsToPass coinsToPass with
  | .error error => .error error
  | .ok () =>
      match s.app.getCurrentContract with
      | none => .error "Expected a contract"
      | some caller => .ok
          { strAddress
            method
            context := if delegate then some (call.context.getD n) else none
            callbacks := s.app.objCallbacks
            caller := some caller }

/-! ### The actions -/

/-- `_getContractByAddr`, for the patch of the execution that serves the call. -/
def fetch (call : Call) (session : Session) : ContractMachine :=
  match session.env.patchBlock.getContract call.strAddress with
  | some contract =>
      match contract.clone F with
      | .error error => s.setStage i n (.over (some error))
      | .ok copy =>
          let live := ⟨copy, (session.codes.lookup call.strAddress).getD [], none⟩
          { s with store := { s.store with heap := s.store.heap ++ [live] } }.modifyCall i n
            fun call => { call with contract := some s.store.heap.length, stage := .loaded }
  | none =>
      match s.store.getContract F call.form call.strAddress with
      | (none, store) =>
          { s with store }.setStage i n (.over (some "Contract not found!"))
      | (some ref, store) =>
          { s with store }.modifyCall i n
            fun call => { call with contract := some ref, stage := .loaded }

/-- The contract that a constant call runs: that of the most recent pending block of its
concilium, if it asks for it and the block has it. -/
def constantContract (completed : Bool) (strAddress : Address) (ref : Ref) : Option Ref :=
  if completed then some ref
  else
    match (s.store.heap[ref]?).bind (·.contract.conciliumId) with
    | none => none
    | some nConciliumId =>
        ((s.pendingBlocks.contractVertex J nConciliumId).bind fun vertex =>
          s.pendingContracts.lookup (vertex, strAddress)).or (some ref)

/-- `_constantMethodCallRpc` after the contract has been read. -/
def enterConstantCall (call : Call) (completed : Bool) (ref : Ref) : ContractMachine :=
  match s.constantContract J completed call.strAddress ref with
  | none => s.setStage i n (.over (some "Expected a number"))
  | some ref =>
      let app := (s.app.setCallbacks i).setupVariables ⟨none, some maxSafeInteger, none⟩ none
      ({ s with app }.modifyCall i n fun call => { call with contract := some ref }).runContract
        F i n ref call.method

/-- `setupVariables`, as `_processContract` calls it. -/
def setupContract (session : Session) (contractTx : ContractTx) : ContractMachine :=
  let objFees : AppFees :=
    { nFeeContractCreation := some session.env.nFeeContractCreation
      nFeeContractInvocation := some session.env.nFeeContractInvocation
      nFeeInternalTx := some session.env.nFeeInternalTx }
  { s with app := s.app.setupVariables objFees (some (contractTx.nMaxCoins - contractTx.nFeeSize)) }

/-- The checks before an invocation, with the message of the one that fails. -/
def checkInvocation (session : Session) (contractTx : ContractTx) (ref : Ref) : Option String :=
  match s.store.heap[ref]? with
  | none => some "Expected a contract"
  | some live =>
      match startInvocation F session.env contractTx.tx live.contract
          ⟨contractTx.nMaxCoins - contractTx.nFeeSize, 0, session.patchTx⟩ with
      | .error error => some error
      | .ok _ => none

/-- `_processContract` from `setupVariables` to the code of the invoked method. -/
def enterInvocation (call : Call) (session : Session) (contractTx : ContractTx) (ref : Ref) :
    ContractMachine :=
  let s := s.setupContract session contractTx
  match s.checkInvocation F session contractTx ref with
  | some error => s.setStage i n (.over (some error))
  | none => { s with app := s.app.setCallbacks i }.runContract F i n ref call.method

/-- `_processContract` from `setupVariables` to the lookup of the new address. -/
def enterCreation (session : Session) (contractTx : ContractTx) : ContractMachine :=
  let s := s.setupContract session contractTx
  if contractTx.nMaxCoins - contractTx.nFeeSize < session.env.nFeeContractCreation then
    s.setStage i n (.over (some "Tx fee for contract creation too small!"))
  else s.setStage i n .checking

/-- What a nested call does to the contract object before it runs. -/
def switchNested (call : Call) (session : Session) (live : LiveContract) : LiveContract :=
  { live with
    contract := if session.env.isTimeToForkSerializer2 then
      live.contract.switchSerializerToJson F else live.contract
    proxiedContract := if call.context.isSome then call.caller else live.proxiedContract }

/-- `_invokeNestedContract` after the contract has been read. -/
def enterNested (call : Call) (session : Session) (ref : Ref) : ContractMachine :=
  let s := s.modifyLive ref (switchNested F call session)
  if (s.store.heap.holder ref).isNone then
    s.setStage i n (.over (some "Maximum call stack size exceeded"))
  else s.runContract F i n ref call.method

/-- The end of `createContract` of `node/app.js`. -/
def doneCreation (nDataSize : Option Nat) (stage : Stage) : ContractMachine :=
  match s.app.execDone nDataSize with
  | .error error => s.setStage i n (.over (some error))
  | .ok app => { s with app }.setStage i n stage

/-- `createContract` of `node/app.js`, after the lookup of the new address. What it throws
before its `try` leaves the stacks as they are. -/
def createContract (call : Call) (session : Session) (constructor : Except String Constructed) :
    ContractMachine :=
  let addr := F.contractAddress session.env.strTxHash
  match s.store.getContract F call.form addr with
  | (some _, store) => { s with store }.setStage i n (.over (some "Contract already exists"))
  | (none, _) =>
      match s.app.execStarted none 0 with
      | .error error => s.setStage i n (.over (some error))
      | .ok app =>
          match app.nCoinsLimit.spendCoins app.objFees.nFeeContractCreation with
          | .error error => { s with app }.setStage i n (.over (some error))
          | .ok nCoinsLimit =>
              let s := { s with app := { app with nCoinsLimit } }
              match constructor with
              | .error error => s.doneCreation i n none (.over (some error))
              | .ok created =>
                  let contract := Contract.new addr created.data created.objCode .CONTRACT_V_V8
                  let live := ⟨contract.ensureData F, [], none⟩
                  let s := { s with store := { s.store with heap := s.store.heap ++ [live] } }
                  (s.doneCreation i n (some (contract.getDataSize F)) (.over none)).modifyCall i n
                    fun call => { call with contract := some (s.store.heap.length - 1) }

/-- `setContract` of the transaction's patch: an object that is already there only gets the
data of the new one. -/
def storeObject (callbacks : Nat) (ref : Ref) : ContractMachine :=
  match s.sessions[callbacks]?, s.store.heap[ref]? with
  | some session, some live =>
      match session.findStored s.store.heap live.contract.strAddress with
      | some found => s.modifyContract found (·.updateData (live.contract.data F))
      | none => s.modifySession callbacks fun session =>
          { session with contracts := session.contracts ++ [ref] }
  | _, _ => s

/-- `_invokeNestedContract` after `runContract` has returned. -/
def finishNested (call : Call) (session : Session) (ref : Ref) : ContractMachine :=
  let s := if session.env.isTimeToForkSerializer3 then
    s.modifyContract ref (·.dirtyWorkaround F) else s
  (s.storeObject F call.callbacks ref).setStage i n (.over none)

/-- How the contract of a transaction ended. -/
def outcome (session : Session) (call : Call) (contractTx : ContractTx) (bNewContract : Bool)
    (message : Option String) (nCoinsUsed : Amount) : ContractOutcome :=
  checkCoinsUsed contractTx.nMaxCoins nCoinsUsed
    { contract := (call.contract.bind (s.store.heap[·]?)).map (·.contract)
      bNewContract
      state := ⟨s.app.nCoinsLimit.getD 0, s.app.nDataDelta, session.patchThisTx F s.store.heap⟩
      message }

/-- `deposit`, on the object that holds the balance. -/
def depositTo (ref : Ref) (amount : Amount) : ContractMachine :=
  match s.store.heap.holder ref with
  | some holder => s.modifyContract holder (·.deposit amount)
  | none => s

/-- What the end of `_processContract` does to the contract object itself. -/
def settleObject (contractTx : ContractTx) (ref : Ref) (successful : Bool) : ContractMachine :=
  let s := if contractTx.node.isTimeToForkSerializer3 F then
    s.modifyContract ref (·.dirtyWorkaround F) else s
  if successful then
    (s.modifyContract ref fun contract =>
      if contract.conciliumId.isNone then contract.setConciliumId contractTx.tx.conciliumId
      else contract).depositTo ref contractTx.tx.getContractSentAmount
  else s

/-- The end of `_processContract`, which makes the result of `_processTx`. The coins that
were spent have to be a number to fit into a receipt. -/
def finishTx (session : Session) (call : Call) (contractTx : ContractTx) (bNewContract : Bool)
    (message : Option String) : ContractMachine :=
  match s.app.coinsSpent with
  | none => s.modifySession i fun session =>
      { session with result := some (.error "TxReceipt: coinsUsed: integer|Long expected") }
  | some coinsSpent =>
      let nCoinsUsed := contractTx.nFeeSize + coinsSpent + s.app.nDataDelta * contractTx.nFeeStorage
      let o := s.outcome F session call contractTx bNewContract message nCoinsUsed
      let s := s.modifySession i fun session =>
        { session with
          result := some (settleContract F contractTx.node contractTx.isGenesis contractTx.tx
            contractTx.nMaxCoins nCoinsUsed o) }
      match call.contract with
      | some ref => s.settleObject F contractTx ref o.message.isNone
      | none => s

/-- `_processContract` after the contract has stopped. There is nothing to do for an
address that has no contract. -/
def settle (session : Session) (call : Call) : ContractMachine :=
  match call.stage, session.task, session.result, call.contract with
  | .over message, .invocation contractTx, none, some _ =>
      s.finishTx F i session call contractTx false message
  | .over message, .creation contractTx _, none, _ =>
      s.finishTx F i session call contractTx message.isNone message
  | _, _, _, _ => s

/-- One step of an execution. Nothing happens where the action is not possible. -/
def step (action : Action) : ContractMachine :=
  match s.sessions[i]? with
  | none => s
  | some session =>
      match action with
      | .fetch n =>
          match session.calls[n]? with
          | none => s
          | some call =>
              match s.sessions[call.callbacks]? with
              | none => s
              | some serving => if call.stage = .loading then s.fetch F i n call serving else s
      | .process =>
          match session.calls[0]?, session.task with
          | some call, .invocation contractTx =>
              if call.stage = .loaded then
                (match call.contract with
                | some ref => if contractTx.node.isTimeToForkSerializer1 F then
                    s.modifyContract ref (·.switchSerializerToJson F) else s
                | none => s).setStage i 0 .processing
              else s
          | _, _ => s
      | .enter n =>
          match session.calls[n]? with
          | none => s
          | some call =>
              match n, session.task, call.contract, call.stage with
              | 0, .constantCall completed, some ref, .loaded =>
                  s.enterConstantCall F J i 0 call completed ref
              | 0, .invocation contractTx, some ref, .processing =>
                  s.enterInvocation F i 0 call session contractTx ref
              | 0, .creation contractTx _, _, .processing =>
                  s.enterCreation i 0 session contractTx
              | n + 1, _, some ref, .loaded => s.enterNested F i (n + 1) call session ref
              | _, _, _, _ => s
      | .create =>
          match session.calls[0]?, session.task with
          | some call, .creation _ constructor =>
              if call.stage = .checking then s.createContract F i 0 call session constructor else s
          | _, _ => s
      | .send n strAddress amount =>
          if session.IsRunning n then
            let r := s.serveSend F strAddress amount
            r.1.answer i r.2
          else s
      | .call n delegate strAddress method coinsLimit =>
          match session.calls[n]? with
          | none => s
          | some call =>
              if call.stage = .running then
                match s.serveCall n call delegate strAddress method coinsLimit with
                | .error error => s.answer i (some error)
                | .ok call => s.modifySession i fun session =>
                    { session with calls := session.calls ++ [call] }
              else s
      | .changeNested n data =>
          match session.calls[n]? with
          | none => s
          | some call =>
              if call.stage = .running then
                match (session.calls[call.context.getD n]?).bind (·.contract) with
                | none => s
                | some ref => s.modifyContract ref fun contract =>
                    { contract with cacheData := some data }
              else s
      | .stop n result =>
          match session.calls[n]? with
          | none => s
          | some call =>
              match call.stage, call.contract, result with
              | .running, some ref, .error error => s.leave F i n ref (some error)
              | .running, some ref, .ok data =>
                  (if session.isConstantCall n ∨ call.context.isSome then s
                    else s.modifyContract ref (·.updateData data)).leave F i n ref none
              | _, _, _ => s
      | .storeNested n =>
          match session.calls[n]? with
          | none => s
          | some call =>
              match call.stage, call.contract with
              | .returned, some ref => s.finishNested F i n call session ref
              | _, _ => s
      | .settle =>
          match session.calls[0]? with
          | none => s
          | some call => s.settle F i session call

/-! ### Runs -/

/-- The execution is at its beginning: it is about to read its contract. -/
def Begins : Prop :=
  ∃ env codes task call patchTx,
    s.sessions[i]? = some (.start env codes task call patchTx) ∧ call.stage = .loading ∧
      call.context = none ∧ ∀ contractTx constructor, task ≠ .creation contractTx constructor

/-- The states that are reached by one execution whose actions all meet a condition. -/
inductive RunWhile (condition : ContractMachine → Action → Prop) (start : ContractMachine) :
    ContractMachine → Prop
  | start : RunWhile condition start start
  | step {s : ContractMachine} {action : Action} : RunWhile condition start s →
      condition s action → RunWhile condition start (s.step F J i action)

/-- One execution does one thing after another. -/
def steps (actions : List Action) : ContractMachine :=
  actions.foldl (fun s action => s.step F J i action) s

theorem runWhile_steps (actions : List Action) (start : ContractMachine) :
    RunWhile F J i (fun _ _ => True) start (start.steps F J i actions) := by
  induction actions using List.reverseRecOn with
  | nil => exact .start
  | append_singleton actions action ih =>
      rw [steps, List.foldl_append]
      exact .step ih trivial

end ContractMachine

end CilCore
