import CilCore.Node.SendAttribution

/-!
# Executions beside a transaction

A transaction that runs a contract holds a lock, but a constant call takes none, and both
set up and use the one application object. What the transaction computes is what it would
compute alone if nothing else touches the application object between its setting up and
its result, and the contracts and the cache are left alone until then.
-/

namespace CilCore.ContractMachine

variable {F : Factory} {J : Dagjs} {i c d n : Nat} {s t : ContractMachine}
  {session : Session} {call : Call}

/-! ### Two nodes that differ in other executions -/

/-- A change of an execution that neither adds calls nor hands any to other callbacks. -/
def KeepsCallbacks (f : Session → Session) : Prop :=
  ∀ session, (f session).task = session.task ∧
    ∀ call' ∈ (f session).calls, ∃ call ∈ session.calls, call'.callbacks = call.callbacks

theorem keepsCallbacks_modifyCall (n : Nat) {f : Call → Call}
    (hf : ∀ call, (f call).callbacks = call.callbacks) :
    KeepsCallbacks (·.modifyCall n f) := by
  refine fun session => ⟨rfl, fun call' hcall' => ?_⟩
  obtain ⟨m, hm⟩ := List.mem_iff_getElem?.mp hcall'
  have hm' : (session.calls.modify n f)[m]? = some call' := hm
  rw [List.getElem?_modify] at hm'
  obtain ⟨call, hcall, heq⟩ := Option.map_eq_some_iff.mp hm'
  refine ⟨call, List.mem_of_getElem? hcall, ?_⟩
  rw [← heq]
  split
  next => exact hf call
  next => rfl

/-- The execution is that of a transaction, and its calls are served by its own callbacks. -/
def ServesItself (i : Nat) (session : Session) : Prop :=
  (∀ completed, session.task ≠ .constantCall completed) ∧ ∀ call ∈ session.calls, call.callbacks = i

/-- Two nodes have the same contracts, and the same execution, which serves itself. -/
structure Beside (i : Nat) (s t : ContractMachine) : Prop where
  store : t.store = s.store
  session : t.sessions[i]? = s.sessions[i]?
  own : ∀ session, s.sessions[i]? = some session → ServesItself i session

/-- In addition, the application objects are the same up to the callbacks that are
installed. -/
structure Alike (i c d : Nat) (s t : ContractMachine) : Prop extends Beside i s t where
  app : t.app = s.app.setCallbacks c
  callbacks : s.app.objCallbacks = d

namespace Beside

variable (h : Beside i s t)
include h

theorem modifySession {f : Session → Session} (hf : KeepsCallbacks f) :
    Beside i (s.modifySession i f) (t.modifySession i f) where
  store := h.store
  session := by
    rw [ContractMachine.modifySession, ContractMachine.modifySession, List.getElem?_modify_eq,
      List.getElem?_modify_eq, h.session]
  own session' hsession' := by
    rw [ContractMachine.modifySession, List.getElem?_modify_eq] at hsession'
    obtain ⟨session, hsession, heq⟩ := Option.map_eq_some_iff.mp hsession'
    obtain ⟨htask, hcalls⟩ := h.own session hsession
    rw [← heq]
    refine ⟨fun completed => (hf session).1 ▸ htask completed, fun call' hcall' => ?_⟩
    obtain ⟨call, hcall, hsame⟩ := (hf session).2 call' hcall'
    exact hsame.trans (hcalls call hcall)

theorem modifyCall (n : Nat) {f : Call → Call} (hf : ∀ call, (f call).callbacks = call.callbacks) :
    Beside i (s.modifyCall i n f) (t.modifyCall i n f) :=
  h.modifySession (keepsCallbacks_modifyCall n hf)

theorem setStage (n : Nat) (stage : Stage) :
    Beside i (s.setStage i n stage) (t.setStage i n stage) := h.modifyCall n fun _ => rfl

theorem withStore (store : StorageWithCache) : Beside i { s with store } { t with store } :=
  ⟨rfl, h.session, h.own⟩

theorem modifyLive (ref : Ref) (f : LiveContract → LiveContract) :
    Beside i (s.modifyLive ref f) (t.modifyLive ref f) := by
  refine ⟨?_, h.session, h.own⟩
  rw [ContractMachine.modifyLive, ContractMachine.modifyLive, h.store]

theorem modifyContract (ref : Ref) (f : Contract → Contract) :
    Beside i (s.modifyContract ref f) (t.modifyContract ref f) := h.modifyLive ref _

theorem dataSize (ref : Ref) : t.dataSize F ref = s.dataSize F ref := by
  rw [ContractMachine.dataSize, ContractMachine.dataSize, h.store]

theorem hasMethod (ref : Ref) (method : String) :
    t.hasMethod ref method = s.hasMethod ref method := by
  rw [ContractMachine.hasMethod, ContractMachine.hasMethod, h.store]

theorem checkInvocation (contractTx : ContractTx) (ref : Ref) :
    t.checkInvocation F session contractTx ref = s.checkInvocation F session contractTx ref := by
  rw [ContractMachine.checkInvocation, ContractMachine.checkInvocation, h.store]

theorem fetch (n : Nat) (call : Call) :
    Beside i (s.fetch F i n call session) (t.fetch F i n call session) := by
  unfold ContractMachine.fetch
  rw [h.store]
  split
  next =>
    split
    next => exact h.setStage n _
    next copy _ => exact (h.withStore _).modifyCall n fun _ => rfl
  next =>
    split
    next => exact (h.withStore _).setStage n _
    next => exact (h.withStore _).modifyCall n fun _ => rfl

end Beside

theorem app_fetch (n : Nat) (call : Call) : (s.fetch F i n call session).app = s.app := by
  unfold fetch
  split <;> split <;> rfl

theorem execStarted_setCallbacks (app : Application) (c : Nat) (contract : Option Ref)
    (nDataSize : Nat) : (app.setCallbacks c).execStarted contract nDataSize =
      (app.execStarted contract nDataSize).map (·.setCallbacks c) := by
  unfold Application.execStarted
  dsimp only [Application.setCallbacks]
  cases app.arrContractDataSize <;> rfl

theorem execDone_setCallbacks (app : Application) (c : Nat) (nDataSize : Option Nat) :
    (app.setCallbacks c).execDone nDataSize =
      (app.execDone nDataSize).map (·.setCallbacks c) := by
  unfold Application.execDone
  dsimp only [Application.setCallbacks]
  rcases app.arrContractDataSize with _ | ⟨_ | ⟨_, _⟩⟩ <;> rfl

namespace Alike

variable (h : Alike i c d s t)
include h

theorem modifySession {f : Session → Session} (hf : KeepsCallbacks f) :
    Alike i c d (s.modifySession i f) (t.modifySession i f) :=
  ⟨h.toBeside.modifySession hf, h.app, h.callbacks⟩

theorem modifyCall (n : Nat) {f : Call → Call} (hf : ∀ call, (f call).callbacks = call.callbacks) :
    Alike i c d (s.modifyCall i n f) (t.modifyCall i n f) :=
  ⟨h.toBeside.modifyCall n hf, h.app, h.callbacks⟩

theorem setStage (n : Nat) (stage : Stage) :
    Alike i c d (s.setStage i n stage) (t.setStage i n stage) :=
  ⟨h.toBeside.setStage n stage, h.app, h.callbacks⟩

theorem withStore (store : StorageWithCache) :
    Alike i c d { s with store } { t with store } :=
  ⟨h.toBeside.withStore store, h.app, h.callbacks⟩

theorem withApp (app : Application) (happ : app.objCallbacks = d) :
    Alike i c d { s with app } { t with app := app.setCallbacks c } :=
  ⟨⟨h.store, h.session, h.own⟩, rfl, happ⟩

theorem modifyLive (ref : Ref) (f : LiveContract → LiveContract) :
    Alike i c d (s.modifyLive ref f) (t.modifyLive ref f) :=
  ⟨h.toBeside.modifyLive ref f, h.app, h.callbacks⟩

theorem modifyContract (ref : Ref) (f : Contract → Contract) :
    Alike i c d (s.modifyContract ref f) (t.modifyContract ref f) := h.modifyLive ref _

theorem fetch (n : Nat) (call : Call) :
    Alike i c d (s.fetch F i n call session) (t.fetch F i n call session) :=
  ⟨h.toBeside.fetch n call, by rw [app_fetch, app_fetch, h.app],
    by rw [app_fetch, h.callbacks]⟩

theorem leave (n : Nat) (ref : Ref) (message : Option String) :
    Alike i c d (s.leave F i n ref message) (t.leave F i n ref message) := by
  unfold ContractMachine.leave
  rw [h.app, h.dataSize, execDone_setCallbacks]
  cases hdone : s.app.execDone (some (s.dataSize F ref)) with
  | error error => exact h.setStage n _
  | ok app =>
      have happ := (Application.execDone_ok hdone).2.trans h.callbacks
      exact ((h.withApp _ happ).modifyContract ref _).setStage n _

theorem startCode (n : Nat) (ref : Ref) :
    Alike i c d (s.startCode F i n ref) (t.startCode F i n ref) :=
  (h.modifyLive ref _).modifySession fun session =>
    ⟨rfl, (keepsCallbacks_modifyCall n (f := fun call => { call with stage := .running })
      (fun _ => rfl) session).2⟩

theorem runContract (n : Nat) (ref : Ref) (method : String) :
    Alike i c d (s.runContract F i n ref method) (t.runContract F i n ref method) := by
  unfold ContractMachine.runContract
  rw [h.app, h.dataSize, execStarted_setCallbacks]
  cases hstarted : s.app.execStarted (some ref) (s.dataSize F ref) with
  | error error => exact h.setStage n _
  | ok app =>
      have happ := (Application.execStarted_ok hstarted).2.trans h.callbacks
      have hpushed := (h.withApp _ happ).modifyContract ref (·.ensureData F)
      dsimp only [Except.map, Application.setCallbacks, ContractMachine.modifyContract,
        ContractMachine.modifyLive]
      cases app.nCoinsLimit.spendCoins app.objFees.nFeeContractInvocation with
      | error error => exact hpushed.leave n ref _
      | ok nCoinsLimit =>
          have hspent := hpushed.withApp { app with nCoinsLimit } happ
          have hmethod := hspent.hasMethod ref (calledMethod method)
          dsimp only
          split
          next hs =>
            split
            next => exact hspent.startCode n ref
            next ht => exact absurd (hmethod.trans hs) ht
          next hs =>
            split
            next ht => exact absurd (hmethod.symm.trans ht) hs
            next => exact hspent.leave n ref _

theorem enterNested (n : Nat) (call : Call) (ref : Ref) :
    Alike i c d (s.enterNested F i n call session ref) (t.enterNested F i n call session ref) := by
  have hswitch := h.modifyLive ref (switchNested F call session)
  unfold ContractMachine.enterNested
  dsimp only
  rw [hswitch.store]
  split
  next => exact hswitch.setStage n _
  next => exact hswitch.runContract n ref _

theorem doneCreation (n : Nat) (nDataSize : Option Nat) (stage : Stage) :
    Alike i c d (s.doneCreation i n nDataSize stage) (t.doneCreation i n nDataSize stage) := by
  unfold ContractMachine.doneCreation
  rw [h.app, execDone_setCallbacks]
  cases hdone : s.app.execDone nDataSize with
  | error error => exact h.setStage n _
  | ok app => exact (h.withApp _ ((Application.execDone_ok hdone).2.trans h.callbacks)).setStage n _

theorem createContract (n : Nat) (call : Call) (constructor : Except String Constructed) :
    Alike i c d (s.createContract F i n call session constructor)
      (t.createContract F i n call session constructor) := by
  unfold ContractMachine.createContract
  dsimp only
  rw [h.store]
  split
  next => exact (h.withStore _).setStage n _
  next =>
    rw [h.app, execStarted_setCallbacks]
    cases hstarted : s.app.execStarted none 0 with
    | error error => exact h.setStage n _
    | ok app =>
        have happ := (Application.execStarted_ok hstarted).2.trans h.callbacks
        dsimp only [Except.map, Application.setCallbacks]
        cases app.nCoinsLimit.spendCoins app.objFees.nFeeContractCreation with
        | error error => exact ((h.withStore s.store).withApp _ happ).setStage n _
        | ok nCoinsLimit =>
            have hspent := (h.withStore s.store).withApp { app with nCoinsLimit } happ
            cases constructor with
            | error error => exact hspent.doneCreation n none _
            | ok data =>
                exact ((hspent.withStore _).doneCreation n _ _).modifyCall n fun _ => rfl

theorem storeObject (ref : Ref) (hsession : s.sessions[i]? = some session) :
    Alike i c d (s.storeObject F i ref) (t.storeObject F i ref) := by
  unfold ContractMachine.storeObject
  rw [h.session, h.store, hsession]
  cases s.store.heap[ref]? with
  | none => exact h
  | some live =>
      dsimp only
      cases session.findStored s.store.heap live.contract.strAddress with
      | none => exact h.modifySession fun _ => ⟨rfl, fun call hcall => ⟨call, hcall, rfl⟩⟩
      | some found => exact h.modifyContract found _

theorem finishNested (n : Nat) (hsession : s.sessions[i]? = some session)
    (hcallbacks : call.callbacks = i) (ref : Ref) :
    Alike i c d (s.finishNested F i n call session ref)
      (t.finishNested F i n call session ref) := by
  unfold ContractMachine.finishNested
  dsimp only
  rw [hcallbacks]
  split
  next => exact ((h.modifyContract ref _).storeObject ref hsession).setStage n _
  next => exact (h.storeObject ref hsession).setStage n _

theorem depositTo (ref : Ref) (amount : Amount) :
    Alike i c d (s.depositTo ref amount) (t.depositTo ref amount) := by
  unfold ContractMachine.depositTo
  rw [h.store]
  split
  next holder _ => exact h.modifyContract holder _
  next => exact h

theorem settleObject (contractTx : ContractTx) (ref : Ref) (successful : Bool) :
    Alike i c d (s.settleObject F contractTx ref successful)
      (t.settleObject F contractTx ref successful) := by
  have hfork : Alike i c d
      (if contractTx.node.isTimeToForkSerializer3 F then
        s.modifyContract ref (·.dirtyWorkaround F) else s)
      (if contractTx.node.isTimeToForkSerializer3 F then
        t.modifyContract ref (·.dirtyWorkaround F) else t) := by
    split
    next => exact h.modifyContract ref _
    next => exact h
  unfold ContractMachine.settleObject
  cases successful with
  | true => exact (hfork.modifyContract ref _).depositTo ref _
  | false => exact hfork

theorem finishTx (call : Call) (contractTx : ContractTx) (bNewContract : Bool)
    (message : Option String) :
    Alike i c d (s.finishTx F i session call contractTx bNewContract message)
      (t.finishTx F i session call contractTx bNewContract message) := by
  have hspent : t.app.coinsSpent = s.app.coinsSpent := by rw [h.app]; rfl
  have hdelta : t.app.nDataDelta = s.app.nDataDelta := by rw [h.app]; rfl
  have houtcome : t.outcome F session call contractTx bNewContract message =
      s.outcome F session call contractTx bNewContract message := by
    funext nCoinsUsed
    unfold ContractMachine.outcome
    rw [h.store, h.app]
    rfl
  have hresult : ∀ result, KeepsCallbacks fun session => { session with result } :=
    fun result session => ⟨rfl, fun call hcall => ⟨call, hcall, rfl⟩⟩
  unfold ContractMachine.finishTx
  rw [hspent, hdelta, houtcome]
  cases s.app.coinsSpent with
  | none => exact h.modifySession (hresult _)
  | some coinsSpent =>
      dsimp only
      cases call.contract with
      | none => exact h.modifySession (hresult _)
      | some ref => exact (h.modifySession (hresult _)).settleObject contractTx ref _

theorem settle (call : Call) :
    Alike i c d (s.settle F i session call) (t.settle F i session call) := by
  unfold ContractMachine.settle
  split
  next => exact h.finishTx call _ _ _
  next => exact h.finishTx call _ _ _
  next => exact h

end Alike

/-! ### A transaction whose callbacks are installed -/

namespace Alike

variable (h : Alike i i i s t)
include h

theorem app_eq : t.app = s.app := by
  rw [h.app]
  exact congrArg (fun objCallbacks => { s.app with objCallbacks }) h.callbacks.symm

theorem payer_eq : t.payer = s.payer := by
  rw [payer, payer, h.app_eq, h.store]

theorem appendCall {call : Call} (hcall : call.callbacks = i) :
    Alike i i i (s.modifySession i fun session => { session with calls := session.calls ++ [call] })
      (t.modifySession i fun session => { session with calls := session.calls ++ [call] }) := by
  refine ⟨⟨h.store, ?_, fun session' hsession' => ?_⟩, h.app, h.callbacks⟩
  · rw [ContractMachine.modifySession, ContractMachine.modifySession, List.getElem?_modify_eq,
      List.getElem?_modify_eq, h.session]
  · rw [ContractMachine.modifySession, List.getElem?_modify_eq] at hsession'
    obtain ⟨session, hsession, heq⟩ := Option.map_eq_some_iff.mp hsession'
    obtain ⟨htask, hcalls⟩ := h.own session hsession
    rw [← heq]
    refine ⟨htask, fun call' hcall' => ?_⟩
    rcases List.mem_append.mp hcall' with hold | hnew
    · exact hcalls call' hold
    · exact List.mem_singleton.mp hnew ▸ hcall

theorem answer (message : Option String) :
    Alike i i i (s.answer i message) (t.answer i message) :=
  h.modifySession fun _ => ⟨rfl, fun call hcall => ⟨call, hcall, rfl⟩⟩

theorem sendCurrent (strAddress : Option Address) (amount : Amount) :
    (t.sendCurrent F strAddress amount).2 = (s.sendCurrent F strAddress amount).2 ∧
      Alike i i i (s.sendCurrent F strAddress amount).1
        (t.sendCurrent F strAddress amount).1 := by
  unfold ContractMachine.sendCurrent
  rw [h.payer_eq, h.app_eq, h.callbacks, h.session, h.store]
  split
  next payer serving _ _ =>
    split
    next => exact ⟨rfl, h⟩
    next live _ =>
      exact ⟨rfl, (h.modifyContract payer _).modifySession fun _ =>
        ⟨rfl, fun call hcall => ⟨call, hcall, rfl⟩⟩⟩
  next => exact ⟨rfl, h⟩

theorem serveSend (strAddress : Option Address) (amount : Amount) :
    (t.serveSend F strAddress amount).2 = (s.serveSend F strAddress amount).2 ∧
      Alike i i i (s.serveSend F strAddress amount).1 (t.serveSend F strAddress amount).1 := by
  unfold ContractMachine.serveSend
  rw [h.app_eq]
  cases s.app.nCoinsLimit.spendCoins s.app.objFees.nFeeInternalTx with
  | error error => exact ⟨rfl, h⟩
  | ok nCoinsLimit =>
      have hspent : Alike i i i { s with app := { s.app with nCoinsLimit } }
          { t with app := { s.app with nCoinsLimit } } := by
        refine ⟨⟨h.store, h.session, h.own⟩, ?_, h.callbacks⟩
        exact congrArg (fun objCallbacks => { s.app with nCoinsLimit, objCallbacks })
          h.callbacks
      exact hspent.sendCurrent strAddress amount

theorem serveCall (n : Nat) (call : Call) (delegate : Bool) (strAddress : Address)
    (method : String) (coinsToPass : Option Amount) :
    t.serveCall n call delegate strAddress method coinsToPass =
        s.serveCall n call delegate strAddress method coinsToPass ∧
      ∀ requested, s.serveCall n call delegate strAddress method coinsToPass = .ok requested →
        requested.callbacks = i := by
  unfold ContractMachine.serveCall
  rw [h.app_eq]
  refine ⟨rfl, fun requested hrequested => ?_⟩
  split at hrequested
  next => cases hrequested
  next =>
    split at hrequested
    next => cases hrequested
    next =>
      injection hrequested with hrequested
      rw [← hrequested]
      exact h.callbacks

end Alike

theorem Beside.setupContract (h : Beside i s t) (session : Session) (contractTx : ContractTx) :
    Alike i t.app.objCallbacks s.app.objCallbacks (s.setupContract session contractTx)
      (t.setupContract session contractTx) :=
  ⟨⟨h.store, h.session, h.own⟩, rfl, rfl⟩

/-- When the method of an invocation is entered, its callbacks are installed. -/
theorem Beside.enterInvocation (h : Beside i s t) (contractTx : ContractTx) (ref : Ref)
    (hcheck : s.checkInvocation F session contractTx ref = none) :
    Alike i i i (s.enterInvocation F i 0 call session contractTx ref)
      (t.enterInvocation F i 0 call session contractTx ref) := by
  have hsetup := h.setupContract session contractTx
  have hcheckS : (s.setupContract session contractTx).checkInvocation F session contractTx ref =
      none := hcheck
  unfold ContractMachine.enterInvocation
  dsimp only
  rw [hsetup.checkInvocation, hcheckS]
  exact Alike.runContract (s := { s.setupContract session contractTx with
      app := (s.setupContract session contractTx).app.setCallbacks i })
    (t := { t.setupContract session contractTx with
      app := (t.setupContract session contractTx).app.setCallbacks i })
    ⟨⟨h.store, h.session, h.own⟩, rfl, rfl⟩ 0 ref call.method

/-- A transaction that is running goes on in the same way, whatever else the nodes do. -/
theorem Alike.step (h : Alike i i i s t) (J' : Dagjs) (action : Action) :
    Alike i i i (s.step F J i action) (t.step F J' i action) := by
  unfold ContractMachine.step
  rw [h.session]
  cases hsession : s.sessions[i]? with
  | none => exact h
  | some session =>
    obtain ⟨htask, hcallbacks⟩ := h.own session hsession
    cases action with
    | fetch n =>
        dsimp only
        cases hcall : session.calls[n]? with
        | none => exact h
        | some call =>
            dsimp only
            rw [hcallbacks call (List.mem_of_getElem? hcall), h.session, hsession]
            dsimp only
            split
            next => exact h.fetch n call
            next => exact h
    | process =>
        dsimp only
        split
        next call contractTx _ _ =>
          split
          next =>
            cases call.contract with
            | none => exact h.setStage 0 _
            | some ref =>
                dsimp only
                split
                next => exact (h.modifyContract ref _).setStage 0 _
                next => exact h.setStage 0 _
          next => exact h
        next => exact h
    | enter n =>
        dsimp only
        split
        next => exact h
        next call hcall =>
          split
          next completed _ hconstant _ _ => exact absurd hconstant (htask completed)
          next contractTx ref _ _ _ =>
            cases hcheck : s.checkInvocation F session contractTx ref with
            | none => exact h.toBeside.enterInvocation contractTx ref hcheck
            | some error =>
                have hsetup := h.toBeside.setupContract session contractTx
                rw [h.app_eq, h.callbacks] at hsetup
                have hcheckS : (s.setupContract session contractTx).checkInvocation F session
                    contractTx ref = some error := hcheck
                unfold ContractMachine.enterInvocation
                dsimp only
                rw [hsetup.checkInvocation, hcheckS]
                exact hsetup.setStage 0 _
          next contractTx _ _ _ =>
            have hsetup := h.toBeside.setupContract session contractTx
            rw [h.app_eq, h.callbacks] at hsetup
            unfold ContractMachine.enterCreation
            dsimp only
            split
            next => exact hsetup.setStage 0 _
            next => exact hsetup.setStage 0 _
          next ref _ _ => exact h.enterNested _ call ref
          next => exact h
    | create =>
        dsimp only
        split
        next call _ constructor _ _ =>
          split
          next => exact h.createContract 0 call constructor
          next => exact h
        next => exact h
    | send n strAddress amount =>
        dsimp only
        split
        next =>
          obtain ⟨hanswer, hsent⟩ := h.serveSend (F := F) strAddress amount
          rw [hanswer]
          exact hsent.answer _
        next => exact h
    | call n delegate strAddress method coinsToPass =>
        dsimp only
        split
        next => exact h
        next call _ =>
          split
          next =>
            obtain ⟨hsame, hserved⟩ := h.serveCall n call delegate strAddress method coinsToPass
            rw [hsame]
            split
            next => exact h.answer _
            next requested hrequested => exact h.appendCall (hserved requested hrequested)
          next => exact h
    | changeNested n data =>
        dsimp only
        split
        next => exact h
        next call _ =>
          split
          next =>
            split
            next => exact h
            next ref _ => exact h.modifyContract ref _
          next => exact h
    | stop n result =>
        dsimp only
        split
        next => exact h
        next call _ =>
          split
          next => exact h.leave n _ _
          next ref data _ _ =>
            split
            next => exact h.leave n _ _
            next => exact (h.modifyContract ref _).leave n _ _
          next => exact h
    | storeNested n =>
        dsimp only
        split
        next => exact h
        next call hcall =>
          split
          next ref _ _ =>
            exact h.finishNested n hsession (hcallbacks call (List.mem_of_getElem? hcall)) ref
          next => exact h
    | settle =>
        dsimp only
        split
        next => exact h
        next call _ => exact h.settle call

/-! ### A transaction from its beginning -/

/-- The transaction has not set up the application object, and it never will if its address
turned out to have no contract. -/
def Waiting (session : Session) : Prop :=
  ∃ call, session.calls = [call] ∧
    ((call.stage = .loading ∨ ∃ message, call.stage = .over message) ∧ call.contract = none ∧
        (∃ contractTx, session.task = .invocation contractTx) ∨
      call.stage = .loaded ∨ call.stage = .processing)

/-- The transaction has set up the application object, but no code of a method runs for it. -/
def Prepared (session : Session) : Prop :=
  ∃ call, session.calls = [call] ∧ (call.stage = .checking ∨ ∃ message, call.stage = .over message)

/-- Two nodes in which the transaction has come equally far. -/
inductive Agree (i : Nat) (s t : ContractMachine) : Prop
  | waiting (session : Session) (hsession : s.sessions[i]? = some session)
      (hwaiting : Waiting session) (h : Beside i s t)
  | prepared (c d : Nat) (session : Session) (hsession : s.sessions[i]? = some session)
      (hprepared : Prepared session) (h : Alike i c d s t)
  | active (h : Alike i i i s t)

/-- An action of code, or after code. -/
def NeedsCode : Action → Prop
  | .send _ _ _ | .call _ _ _ _ _ | .changeNested _ _ | .stop _ _ | .storeNested _ => True
  | _ => False

theorem eq_of_getElem?_singleton {α : Type} {x y : α} (h : [x][n]? = some y) :
    n = 0 ∧ y = x := by
  cases n with
  | zero =>
      injection h with h
      exact ⟨rfl, h.symm⟩
  | succ n => cases h

theorem step_eq_self (hsession : s.sessions[i]? = some session) (hcalls : session.calls = [call])
    (hrunning : call.stage ≠ .running) (hreturned : call.stage ≠ .returned) {action : Action}
    (haction : NeedsCode action) : s.step F J i action = s := by
  have hget : ∀ (n : Nat) (call' : Call), session.calls[n]? = some call' → call' = call :=
    fun n call' hcall' => (eq_of_getElem?_singleton (hcalls ▸ hcall')).2
  unfold ContractMachine.step
  rw [hsession]
  cases action with
  | fetch | process | enter | create | settle => exact absurd haction id
  | send n strAddress amount =>
      refine if_neg ?_
      rintro ⟨call', hcall', hrun⟩
      exact hrunning (hget n call' hcall' ▸ hrun)
  | call n delegate strAddress method coinsToPass =>
      dsimp only
      split
      next => rfl
      next call' hcall' => exact if_neg fun hrun => hrunning (hget n call' hcall' ▸ hrun)
  | changeNested n data =>
      dsimp only
      split
      next => rfl
      next call' hcall' => exact if_neg fun hrun => hrunning (hget n call' hcall' ▸ hrun)
  | stop n result =>
      dsimp only
      split
      next => rfl
      next call' hcall' =>
        split
        next hrun _ => exact absurd (hget n call' hcall' ▸ hrun) hrunning
        next hrun _ => exact absurd (hget n call' hcall' ▸ hrun) hrunning
        next => rfl
  | storeNested n =>
      dsimp only
      split
      next => rfl
      next call' hcall' =>
        split
        next hret _ => exact absurd (hget n call' hcall' ▸ hret) hreturned
        next => rfl

theorem sessions_setStage (hsession : s.sessions[i]? = some session)
    (hcalls : session.calls = [call]) (stage : Stage) :
    ∃ session', (s.setStage i 0 stage).sessions[i]? = some session' ∧
      session'.calls = [{ call with stage }] ∧ session'.task = session.task := by
  refine ⟨_, sessions_modifySession hsession _, ?_, rfl⟩
  rw [Session.modifyCall, hcalls]
  rfl

/-- What reading its contract does to a transaction. -/
theorem waiting_fetch (hsession : s.sessions[i]? = some session) (hcalls : session.calls = [call])
    (hcontract : call.contract = none)
    (htask : ∃ contractTx, session.task = .invocation contractTx) (serving : Session) :
    ∃ session', (s.fetch F i 0 call serving).sessions[i]? = some session' ∧ Waiting session' := by
  have hover : ∀ s' : ContractMachine, s'.sessions = s.sessions → ∀ message,
      ∃ session', (s'.setStage i 0 (.over message)).sessions[i]? = some session' ∧
        Waiting session' := by
    intro s' hsessions message
    obtain ⟨session', hsession', hcalls', htask'⟩ :=
      sessions_setStage (s := s') (hsessions ▸ hsession) hcalls (.over message)
    exact ⟨session', hsession', _, hcalls', .inl ⟨.inr ⟨message, rfl⟩, hcontract,
      htask'.symm ▸ htask⟩⟩
  have hloaded : ∀ s' : ContractMachine, s'.sessions = s.sessions → ∀ ref : Ref,
      ∃ session', (s'.modifyCall i 0 fun call =>
        { call with contract := some ref, stage := .loaded }).sessions[i]? = some session' ∧
        Waiting session' := by
    intro s' hsessions ref
    refine ⟨_, sessions_modifySession (hsessions ▸ hsession) _,
      { call with contract := some ref, stage := .loaded }, ?_, .inr (.inl rfl)⟩
    rw [Session.modifyCall, hcalls]
    rfl
  unfold ContractMachine.fetch
  split
  next =>
    split
    next => exact hover s rfl _
    next => exact hloaded _ rfl _
  next =>
    split
    next => exact hover _ rfl _
    next => exact hloaded _ rfl _

/-- A transaction that waits goes on in the same way, whatever the application objects hold. -/
theorem agree_waiting (hsession : s.sessions[i]? = some session) (hwaiting : Waiting session)
    (h : Beside i s t) (J' : Dagjs) (action : Action) :
    Agree i (s.step F J i action) (t.step F J' i action) := by
  obtain ⟨call, hcalls, hstage⟩ := id hwaiting
  have hsessionT : t.sessions[i]? = some session := h.session.trans hsession
  obtain ⟨htask, hcallbacks⟩ := h.own session hsession
  have hskip : Agree i s t := .waiting session hsession hwaiting h
  have hget : session.calls[0]? = some call := by rw [hcalls]; rfl
  have hrunning : call.stage ≠ .running ∧ call.stage ≠ .returned ∧ call.stage ≠ .checking := by
    rcases hstage with ⟨hload | ⟨message, hover⟩, -⟩ | hloaded | hprocessing <;> simp [*]
  by_cases hneeds : NeedsCode action
  · rw [step_eq_self hsession hcalls hrunning.1 hrunning.2.1 hneeds,
      step_eq_self hsessionT hcalls hrunning.1 hrunning.2.1 hneeds]
    exact hskip
  unfold ContractMachine.step
  rw [hsessionT, hsession]
  cases action with
  | fetch n =>
      dsimp only
      cases hcall : session.calls[n]? with
      | none => exact hskip
      | some call' =>
          obtain ⟨rfl, rfl⟩ := eq_of_getElem?_singleton (hcalls ▸ hcall)
          dsimp only
          rw [hcallbacks call' (List.mem_of_getElem? hcall), hsessionT, hsession]
          dsimp only
          split
          next hload =>
            rcases hstage with ⟨-, hcontract, hinvocation⟩ | hloaded | hprocessing
            · obtain ⟨session', hsession', hwaiting'⟩ :=
                waiting_fetch hsession hcalls hcontract hinvocation session
              exact .waiting session' hsession' hwaiting' (h.fetch 0 call')
            · exact absurd (hload.symm.trans hloaded) (by simp)
            · exact absurd (hload.symm.trans hprocessing) (by simp)
          next => exact hskip
  | process =>
      dsimp only
      split
      next call' contractTx hcall' htask' =>
        have hsame : call' = call := Option.some.inj (hcall'.symm.trans hget)
        subst hsame
        split
        next =>
          have hprocessing : ∀ s' t' : ContractMachine, s'.sessions = s.sessions →
              Beside i s' t' → Agree i (s'.setStage i 0 .processing) (t'.setStage i 0 .processing) := by
            intro s' t' hsessions h'
            obtain ⟨session', hsession', hcalls', -⟩ :=
              sessions_setStage (s := s') (hsessions ▸ hsession) hcalls .processing
            exact .waiting session' hsession' ⟨_, hcalls', .inr (.inr rfl)⟩ (h'.setStage 0 _)
          cases call'.contract with
          | none => exact hprocessing s t rfl h
          | some ref =>
              dsimp only
              split
              next => exact hprocessing _ _ rfl (h.modifyContract ref _)
              next => exact hprocessing _ _ rfl h
        next => exact hskip
      next => exact hskip
  | enter n =>
      dsimp only
      split
      next => exact hskip
      next call' hcall' =>
        obtain ⟨rfl, rfl⟩ := eq_of_getElem?_singleton (hcalls ▸ hcall')
        split
        next completed ref _ hconstant _ _ => exact absurd hconstant (htask completed)
        next contractTx ref _ _ _ _ =>
          cases hcheck : s.checkInvocation F session contractTx ref with
          | none => exact .active (h.enterInvocation contractTx ref hcheck)
          | some error =>
              have hsetup := h.setupContract session contractTx
              have hcheckS : (s.setupContract session contractTx).checkInvocation F session
                  contractTx ref = some error := hcheck
              unfold ContractMachine.enterInvocation
              dsimp only
              rw [hsetup.checkInvocation, hcheckS]
              obtain ⟨session', hsession', hcalls', -⟩ := sessions_setStage
                (s := s.setupContract session contractTx) hsession hcalls (.over (some error))
              exact .prepared _ _ session' hsession' ⟨_, hcalls', .inr ⟨_, rfl⟩⟩
                (hsetup.setStage 0 _)
        next contractTx constructor _ _ _ =>
          have hsetup := h.setupContract session contractTx
          unfold ContractMachine.enterCreation
          dsimp only
          split
          next =>
            obtain ⟨session', hsession', hcalls', -⟩ := sessions_setStage
              (s := s.setupContract session contractTx) hsession hcalls
              (.over (some "Tx fee for contract creation too small!"))
            exact .prepared _ _ session' hsession' ⟨_, hcalls', .inr ⟨_, rfl⟩⟩
              (hsetup.setStage 0 _)
          next =>
            obtain ⟨session', hsession', hcalls', -⟩ := sessions_setStage
              (s := s.setupContract session contractTx) hsession hcalls .checking
            exact .prepared _ _ session' hsession' ⟨_, hcalls', .inl rfl⟩ (hsetup.setStage 0 _)
        next m ref hzero _ _ => cases hzero
        next => exact hskip
  | create =>
      dsimp only
      split
      next call' _ _ hcall' _ =>
        have hsame : call' = call := Option.some.inj (hcall'.symm.trans hget)
        rw [if_neg (hsame ▸ hrunning.2.2), if_neg (hsame ▸ hrunning.2.2)]
        exact hskip
      next => exact hskip
  | settle =>
      dsimp only
      rw [hget]
      dsimp only
      unfold ContractMachine.settle
      split
      next message _ ref hover hinvocation _ hcontract =>
        rcases hstage with ⟨-, hnone, -⟩ | hloaded | hprocessing
        · exact absurd (hcontract.symm.trans hnone) (by simp)
        · exact absurd (hover.symm.trans hloaded) (by simp)
        · exact absurd (hover.symm.trans hprocessing) (by simp)
      next message contractTx constructor hover hcreation _ =>
        rcases hstage with ⟨-, -, contractTx', hinvocation⟩ | hloaded | hprocessing
        · exact absurd (hcreation.symm.trans hinvocation) (by simp)
        · exact absurd (hover.symm.trans hloaded) (by simp)
        · exact absurd (hover.symm.trans hprocessing) (by simp)
      next => exact hskip
  | send | call | changeNested | stop | storeNested => exact absurd trivial hneeds

theorem prepared_over (hsession : s.sessions[i]? = some session) (hcalls : session.calls = [call])
    (message : Option String) :
    ∃ session', (s.setStage i 0 (.over message)).sessions[i]? = some session' ∧
      Prepared session' := by
  obtain ⟨session', hsession', hcalls', -⟩ := sessions_setStage hsession hcalls (.over message)
  exact ⟨session', hsession', _, hcalls', .inr ⟨message, rfl⟩⟩

theorem prepared_doneCreation (hsession : s.sessions[i]? = some session)
    (hcalls : session.calls = [call]) (nDataSize : Option Nat) (message : Option String) :
    ∃ session', (s.doneCreation i 0 nDataSize (.over message)).sessions[i]? = some session' ∧
      Prepared session' := by
  unfold doneCreation
  split
  next => exact prepared_over hsession hcalls _
  next app _ => exact prepared_over (s := { s with app }) hsession hcalls _

theorem prepared_createContract (hsession : s.sessions[i]? = some session)
    (hcalls : session.calls = [call]) (constructor : Except String Constructed) :
    ∃ session', (s.createContract F i 0 call session constructor).sessions[i]? = some session' ∧
      Prepared session' := by
  unfold createContract
  dsimp only
  split
  next store _ => exact prepared_over (s := { s with store }) hsession hcalls _
  next =>
    split
    next => exact prepared_over hsession hcalls _
    next app _ =>
      split
      next => exact prepared_over (s := { s with app }) hsession hcalls _
      next nCoinsLimit _ =>
        split
        next =>
          exact prepared_doneCreation (s := { s with app := { app with nCoinsLimit } }) hsession
            hcalls none _
        next created =>
          obtain ⟨session', hsession', call', hcalls', hstage'⟩ := prepared_doneCreation
            (s := { s with
              app := { app with nCoinsLimit }
              store := { s.store with heap := s.store.heap ++
                [⟨(Contract.new (F.contractAddress session.env.strTxHash) created.data created.objCode
                  .CONTRACT_V_V8).ensureData F, [], none⟩] } }) hsession hcalls
            (some ((Contract.new (F.contractAddress session.env.strTxHash) created.data
              created.objCode .CONTRACT_V_V8).getDataSize F)) none
          refine ⟨_, sessions_modifySession hsession' _, ?_⟩
          unfold Session.modifyCall
          rw [hcalls']
          exact ⟨_, rfl, hstage'⟩

theorem prepared_settle (hsession : s.sessions[i]? = some session) (hprepared : Prepared session)
    (call : Call) :
    ∃ session', (s.settle F i session call).sessions[i]? = some session' ∧ Prepared session' := by
  have hfinish : ∀ contractTx bNewContract message, ∃ session',
      (s.finishTx F i session call contractTx bNewContract message).sessions[i]? = some session' ∧
        Prepared session' := by
    intro contractTx bNewContract message
    unfold finishTx
    split
    next => exact ⟨_, sessions_modifySession hsession _, hprepared⟩
    next =>
      dsimp only
      split
      next ref _ =>
        rw [(settleObject_frame contractTx ref _).1]
        exact ⟨_, sessions_modifySession hsession _, hprepared⟩
      next => exact ⟨_, sessions_modifySession hsession _, hprepared⟩
  unfold settle
  split
  next => exact hfinish _ _ _
  next => exact hfinish _ _ _
  next => exact ⟨session, hsession, hprepared⟩

/-- A transaction without running code goes on in the same way. -/
theorem agree_prepared (hsession : s.sessions[i]? = some session) (hprepared : Prepared session)
    (h : Alike i c d s t) (J' : Dagjs) (action : Action) :
    Agree i (s.step F J i action) (t.step F J' i action) := by
  obtain ⟨call, hcalls, hstage⟩ := id hprepared
  have hsessionT : t.sessions[i]? = some session := h.session.trans hsession
  have hskip : Agree i s t := .prepared c d session hsession hprepared h
  have hget : session.calls[0]? = some call := by rw [hcalls]; rfl
  have hnot : call.stage ≠ .running ∧ call.stage ≠ .returned ∧ call.stage ≠ .loading ∧
      call.stage ≠ .loaded ∧ call.stage ≠ .processing := by
    rcases hstage with hchecking | ⟨message, hover⟩ <;> simp [*]
  by_cases hneeds : NeedsCode action
  · rw [step_eq_self hsession hcalls hnot.1 hnot.2.1 hneeds,
      step_eq_self hsessionT hcalls hnot.1 hnot.2.1 hneeds]
    exact hskip
  unfold ContractMachine.step
  rw [hsessionT, hsession]
  cases action with
  | fetch n =>
      dsimp only
      cases hcall : session.calls[n]? with
      | none => exact hskip
      | some call' =>
          obtain ⟨rfl, rfl⟩ := eq_of_getElem?_singleton (hcalls ▸ hcall)
          dsimp only
          rw [(h.own session hsession).2 call' (List.mem_of_getElem? hcall), hsessionT, hsession]
          dsimp only
          rw [if_neg hnot.2.2.1, if_neg hnot.2.2.1]
          exact hskip
  | process =>
      dsimp only
      split
      next call' contractTx hcall' _ =>
        have hsame : call' = call := Option.some.inj (hcall'.symm.trans hget)
        rw [if_neg (hsame ▸ hnot.2.2.2.1), if_neg (hsame ▸ hnot.2.2.2.1)]
        exact hskip
      next => exact hskip
  | enter n =>
      dsimp only
      split
      next => exact hskip
      next call' hcall' =>
        obtain ⟨rfl, rfl⟩ := eq_of_getElem?_singleton (hcalls ▸ hcall')
        split
        next hloaded => exact absurd hloaded hnot.2.2.2.1
        next hprocessing => exact absurd hprocessing hnot.2.2.2.2
        next hprocessing => exact absurd hprocessing hnot.2.2.2.2
        next m ref hzero _ _ => cases hzero
        next => exact hskip
  | create =>
      dsimp only
      split
      next call' _ constructor hcall' _ =>
        have hsame : call' = call := Option.some.inj (hcall'.symm.trans hget)
        subst hsame
        split
        next =>
          obtain ⟨session', hsession', hprepared'⟩ :=
            prepared_createContract (F := F) hsession hcalls constructor
          exact .prepared c d session' hsession' hprepared' (h.createContract 0 call' constructor)
        next => exact hskip
      next => exact hskip
  | settle =>
      dsimp only
      rw [hget]
      obtain ⟨session', hsession', hprepared'⟩ :=
        prepared_settle (F := F) hsession hprepared call
      exact .prepared c d session' hsession' hprepared' (h.settle call)
  | send | call | changeNested | stop | storeNested => exact absurd trivial hneeds

theorem Agree.step (h : Agree i s t) (J' : Dagjs) (action : Action) :
    Agree i (s.step F J i action) (t.step F J' i action) := by
  cases h with
  | waiting session hsession hwaiting h => exact agree_waiting hsession hwaiting h J' action
  | prepared c d session hsession hprepared h =>
      exact agree_prepared hsession hprepared h J' action
  | active h => exact .active (h.step J' action)

/-! ### Steps of others -/

/-- A step leaves a transaction undisturbed: it is the transaction's own, or it changes no
contract object, nothing in the cache and nothing of the transaction itself, and comes
before the transaction sets up the application object or only reads a contract. -/
def Undisturbed (F : Factory) (J : Dagjs) (i : Nat) (s : ContractMachine) (j : Nat)
    (action : Action) : Prop :=
  j = i ∨
    (s.step F J j action).store = s.store ∧
      (s.step F J j action).sessions[i]? = s.sessions[i]? ∧
      ((∃ session, s.sessions[i]? = some session ∧ Waiting session) ∨ ∃ n, action = .fetch n)

theorem app_step_fetch (j n : Nat) : (s.step F J j (.fetch n)).app = s.app := by
  unfold ContractMachine.step
  split
  next => rfl
  next =>
    dsimp only
    split
    next => rfl
    next =>
      split
      next => rfl
      next =>
        split
        next => exact app_fetch _ _
        next => rfl

theorem Agree.other (h : Agree i s t) {j : Nat} (hj : j ≠ i) {action : Action}
    (hcond : Undisturbed F J i s j action) : Agree i (s.step F J j action) t := by
  obtain ⟨hstore, hsame, hphase⟩ := hcond.resolve_left hj
  have hbeside : Beside i s t → Beside i (s.step F J j action) t := fun h =>
    ⟨h.store.trans hstore.symm, h.session.trans hsame.symm,
      fun session hsession => h.own session (hsame ▸ hsession)⟩
  have halike : ∀ {c d}, (∃ n, action = .fetch n) → Alike i c d s t →
      Alike i c d (s.step F J j action) t := by
    rintro c d ⟨n, rfl⟩ h
    exact ⟨hbeside h.toBeside, by rw [app_step_fetch, h.app], by rw [app_step_fetch, h.callbacks]⟩
  cases h with
  | waiting session hsession hwaiting h =>
      exact .waiting session (hsame.trans hsession) hwaiting (hbeside h)
  | prepared c d session hsession hprepared h =>
      rcases hphase with ⟨session', hsession', hwaiting⟩ | hfetch
      · exact .waiting session' (hsame.trans hsession') hwaiting (hbeside h.toBeside)
      · exact .prepared c d session (hsame.trans hsession) hprepared (halike hfetch h)
  | active h =>
      rcases hphase with ⟨session', hsession', hwaiting⟩ | hfetch
      · exact .waiting session' (hsame.trans hsession') hwaiting (hbeside h.toBeside)
      · exact .active (halike hfetch h)

/-! ### Interleavings -/

/-- Steps of several executions, one after another. -/
def interleave (F : Factory) (J : Dagjs) (s : ContractMachine) (events : List (Nat × Action)) :
    ContractMachine :=
  events.foldl (fun s event => s.step F J event.1 event.2) s

/-- Every step of an interleaving leaves a transaction undisturbed. -/
def UndisturbedBy (F : Factory) (J : Dagjs) (i : Nat) :
    ContractMachine → List (Nat × Action) → Prop
  | _, [] => True
  | s, event :: rest =>
      Undisturbed F J i s event.1 event.2 ∧
        UndisturbedBy F J i (s.step F J event.1 event.2) rest

/-- What `_processTx` returns for a transaction: its fee, and its patch with the receipt. -/
def resultOf (i : Nat) (s : ContractMachine) : Option (Except String (Amount × PatchDB)) :=
  (s.sessions[i]?).bind (·.result)

/-- The transaction is at its beginning: it reads its contract, or is about to create one. -/
def BeginsTx (i : Nat) (s : ContractMachine) : Prop :=
  ∃ env codes task call patchTx,
    s.sessions[i]? = some (.start env codes task call patchTx) ∧ call.callbacks = i ∧
      ((∃ contractTx, task = .invocation contractTx) ∧ call.stage = .loading ∧
          call.contract = none ∨
        (∃ contractTx constructor, task = .creation contractTx constructor) ∧
          call.stage = .processing)

theorem agree_of_beginsTx (h : s.BeginsTx i) : Agree i s s := by
  obtain ⟨env, codes, task, call, patchTx, hsession, hcallbacks, htask⟩ := h
  refine .waiting _ hsession ⟨call, rfl, ?_⟩ ⟨rfl, rfl, fun session hsession' => ?_⟩
  · rcases htask with ⟨hinvocation, hloading, hcontract⟩ | ⟨-, hprocessing⟩
    · exact .inl ⟨.inl hloading, hcontract, hinvocation⟩
    · exact .inr (.inr hprocessing)
  · rw [hsession] at hsession'
    injection hsession' with hsession'
    rw [← hsession']
    refine ⟨fun completed hconstant => ?_, fun call' hcall' => ?_⟩
    · change task = .constantCall completed at hconstant
      rcases htask with ⟨⟨contractTx, hinvocation⟩, -⟩ | ⟨⟨contractTx, constructor, hcreation⟩, -⟩
      · exact absurd (hconstant.symm.trans hinvocation) (by simp)
      · exact absurd (hconstant.symm.trans hcreation) (by simp)
    · exact List.mem_singleton.mp hcall' ▸ hcallbacks

theorem Agree.interleave (events : List (Nat × Action)) :
    ∀ {s t : ContractMachine}, Agree i s t → UndisturbedBy F J i s events →
      Agree i (s.interleave F J events) (t.interleave F J (events.filter (·.1 = i))) := by
  induction events with
  | nil => exact fun h _ => h
  | cons event rest ih =>
      intro s t h hundisturbed
      by_cases hown : event.1 = i
      · have hfilter : (event :: rest).filter (·.1 = i) = event :: rest.filter (·.1 = i) :=
          List.filter_cons_of_pos (by simpa using hown)
        rw [hfilter]
        refine ih ?_ hundisturbed.2
        dsimp only
        rw [hown]
        exact h.step J event.2
      · have hfilter : (event :: rest).filter (·.1 = i) = rest.filter (·.1 = i) :=
          List.filter_cons_of_neg (by simpa using hown)
        rw [hfilter]
        exact ih (h.other hown hundisturbed.1) hundisturbed.2

theorem Agree.resultOf_eq (h : Agree i s t) : resultOf i t = resultOf i s := by
  have hbeside : Beside i s t := by
    cases h with
    | waiting session hsession hwaiting h => exact h
    | prepared c d session hsession hprepared h => exact h.toBeside
    | active h => exact h.toBeside
  rw [resultOf, resultOf, hbeside.session]

/-- What a transaction returns in an interleaving that leaves it undisturbed is what it
returns when it takes the same steps alone. -/
theorem resultOf_interleave (F : Factory) (J : Dagjs) (i : Nat) (s : ContractMachine)
    (events : List (Nat × Action)) (hbegins : s.BeginsTx i)
    (hundisturbed : UndisturbedBy F J i s events) :
    resultOf i (s.interleave F J events) =
      resultOf i (s.interleave F J (events.filter (·.1 = i))) :=
  ((agree_of_beginsTx hbegins).interleave events hundisturbed).resultOf_eq.symm

/-! ### A constant call in the middle of a transaction -/

/-- A constant call of the other contract. -/
def constantSession : Session :=
  .start { invocationSession.env with patchBlock := PatchDB.empty, strTxHash := 1 } ∅
    (.constantCall true) { form := .string, strAddress := 78, method := "serve", callbacks := 1 }
    PatchDB.empty

/-- A node that is asked for both. -/
def invocationAndConstantCall : ContractMachine :=
  { oneInvocation with sessions := [invocationSession, constantSession] }

theorem beginsTx_invocationAndConstantCall : invocationAndConstantCall.BeginsTx 0 :=
  ⟨_, _, _, _, _, rfl, rfl, .inl ⟨⟨_, rfl⟩, rfl, rfl⟩⟩

/-- The contract's method waits for something while the constant call is made. -/
def constantCallInBetween : List (Nat × Action) :=
  [(0, .fetch 0), (0, .process), (0, .enter 0), (1, .fetch 0), (1, .enter 0),
    (0, .stop 0 (.ok Contract.emptyData)), (0, .settle)]

/-- The constant call makes the transaction fail, which succeeds alone. -/
theorem resultOf_constantCallInBetween :
    ¬ ∀ (F : Factory) (J : Dagjs) (i : Nat) (s : ContractMachine) (events : List (Nat × Action)),
      s.BeginsTx i → resultOf i (s.interleave F J events) =
        resultOf i (s.interleave F J (events.filter (·.1 = i))) := by
  intro hclaim
  have hsame := hclaim Factory.sample Dagjs.sample 0 invocationAndConstantCall
    constantCallInBetween beginsTx_invocationAndConstantCall
  have hdisturbed : (resultOf 0 (invocationAndConstantCall.interleave Factory.sample Dagjs.sample
      constantCallInBetween)).any (·.toBool) = false := by decide +kernel
  have halone : (resultOf 0 (invocationAndConstantCall.interleave Factory.sample Dagjs.sample
      (constantCallInBetween.filter (·.1 = 0)))).any (·.toBool) = true := by decide +kernel
  rw [← hsame, hdisturbed] at halone
  cases halone

/-- A node that is also asked for a contract that does not exist. -/
def invocationAndMissing : ContractMachine :=
  { oneInvocation with
    sessions := [invocationSession,
      { constantSession with
        calls := [{ form := .string, strAddress := 99, method := "serve", callbacks := 1 }] }] }

/-- That contract is looked up while the fees for the transaction's own are read. -/
def missingInBetween : List (Nat × Action) :=
  [(0, .fetch 0), (0, .process), (1, .fetch 0), (0, .enter 0),
    (0, .stop 0 (.ok Contract.emptyData)), (0, .settle)]

theorem resultOf_interleave_missingInBetween :
    resultOf 0 (invocationAndMissing.interleave Factory.sample Dagjs.sample missingInBetween) =
      resultOf 0 (invocationAndMissing.interleave Factory.sample Dagjs.sample
        (missingInBetween.filter (·.1 = 0))) :=
  resultOf_interleave Factory.sample Dagjs.sample 0 invocationAndMissing missingInBetween
    ⟨_, _, _, _, _, rfl, rfl, .inl ⟨⟨_, rfl⟩, rfl, rfl⟩⟩
    ⟨.inl rfl, .inl rfl, .inr ⟨rfl, rfl, .inr ⟨0, rfl⟩⟩, .inl rfl, .inl rfl, .inl rfl, trivial⟩

end CilCore.ContractMachine
