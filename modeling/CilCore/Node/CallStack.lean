import CilCore.Node.CallOrder
import CilCore.Storage.CacheCoherence

/-!
# The stack of running contracts

The application finds the contract that requests something on top of one stack, to which
calls are pushed when they start and from which the top is taken when any of them stops.
The stack is that of the running calls as long as the code that stops is the one that was
started last.
-/

namespace CilCore

namespace Session

/-- The execution has not run any code yet. -/
def Idle (session : Session) : Prop := session.started = [] ∧ session.calls.length = 1

/-- The execution has run code, and the application's stack is that of its calls. -/
structure Underway (app : Application) (session : Session) : Prop where
  first : ∃ call, session.calls[0]? = some call ∧ call.stage.IsEntered
  stacked : Stacked app session.stack

end Session

namespace ContractMachine

variable {F : Factory} {J : Dagjs} {i n : Nat} {s t : ContractMachine}
  {session session' : Session} {call : Call}

/-- The contract object that a call is going to run. -/
def entering (J : Dagjs) (i n : Nat) (s : ContractMachine) : Option Ref :=
  match s.sessions[i]? with
  | none => none
  | some session =>
      match session.calls[n]? with
      | none => none
      | some call =>
          match n, session.task, call.contract with
          | 0, .constantCall completed, some ref =>
              s.constantContract J completed call.strAddress ref
          | _, _, contract => contract

/-- An object is the contract of running code or calls by delegation, or holds a balance for
one that does. -/
def InUse (s : ContractMachine) (session : Session) (ref : Ref) : Prop :=
  ∃ (m : Nat) (call : Call) (root : Ref), session.calls[m]? = some call ∧
    (call.stage = .running ∧ call.contract = some root ∨
      call.context.isSome ∧ call.stage.IsPending ∧ call.caller = some root) ∧
    s.store.heap.Follows root ref

/-- When an action keeps the stack in order: a request comes from the code that was started
last; so does the end of a method; a contract that is entered by `call` has no proxy left,
and one that is entered by `delegatecall` is not in use. -/
def KeepsOrder (J : Dagjs) (i : Nat) (s : ContractMachine) : Action → Prop
  | .send n _ _ | .call n _ _ _ _ => ∀ session, s.sessions[i]? = some session →
      session.IsRunning n → session.Latest n
  | .stop n _ => ∀ session, s.sessions[i]? = some session →
      session.IsRunning n → session.running.head? = some n
  | .enter n => ∀ session (call : Call) ref, s.sessions[i]? = some session →
      session.calls[n]? = some call → s.entering J i n = some ref →
      if call.context = none then s.store.heap.HasOwn ref else ¬ s.InUse session ref
  | _ => True

/-- The invariant of an execution. -/
structure Ordered (s : ContractMachine) (session : Session) : Prop where
  notCreation : ∀ contractTx constructor, session.task ≠ .creation contractTx constructor
  inOrder : InOrder s.store.heap session
  phase : session.Idle ∨ session.Underway s.app

theorem sessions_modifySession (hsession : s.sessions[i]? = some session)
    (f : Session → Session) : (s.modifySession i f).sessions[i]? = some (f session) := by
  rw [modifySession, List.getElem?_modify_eq, hsession]
  rfl

/-- An execution after another one, or itself, has changed in something else than its calls. -/
theorem exists_sessions_modifySession (hsession : s.sessions[i]? = some session) (j : Nat)
    {f : Session → Session} (hcalls : (f session).calls = session.calls)
    (hstarted : (f session).started = session.started) (htask : (f session).task = session.task) :
    ∃ session', (s.modifySession j f).sessions[i]? = some session' ∧
      session'.calls = session.calls ∧ session'.started = session.started ∧
      session'.task = session.task := by
  by_cases hij : j = i
  · subst hij
    exact ⟨f session, sessions_modifySession hsession f, hcalls, hstarted, htask⟩
  · exact ⟨session, (List.getElem?_modify_ne _ _ hij).trans hsession, rfl, rfl, rfl⟩

theorem Ordered.frame (h : s.Ordered session) (hheap : s.store.heap.SameProxies t.store.heap)
    (hstack : session.Underway s.app → Stacked t.app session.stack)
    (hcalls : session'.calls = session.calls) (hstarted : session'.started = session.started)
    (htask : session'.task = session.task) : t.Ordered session' := by
  refine ⟨htask ▸ h.notCreation, h.inOrder.frame hheap hcalls hstarted, ?_⟩
  rcases h.phase with hidle | hunder
  · exact .inl ⟨hstarted.trans hidle.1, hcalls ▸ hidle.2⟩
  · refine .inr ⟨hcalls ▸ hunder.first, ?_⟩
    rw [InOrder.stack_of_calls_eq hcalls hstarted]
    exact hstack hunder

theorem first_modifyCall {f : Call → Call} (hcall : session.calls[n]? = some call)
    (hentered : call.stage.IsEntered → (f call).stage.IsEntered)
    (h : ∃ call, session.calls[0]? = some call ∧ call.stage.IsEntered) :
    ∃ call, (session.modifyCall n f).calls[0]? = some call ∧ call.stage.IsEntered := by
  obtain ⟨first, hfirst, hstage⟩ := h
  by_cases hn : 0 = n
  · subst hn
    rw [hcall] at hfirst
    injection hfirst with hfirst
    exact ⟨f call, InOrder.calls_modify_self hcall, hentered (hfirst ▸ hstage)⟩
  · exact ⟨first, (InOrder.calls_modify hn).trans hfirst, hstage⟩

/-- A call that does not run goes on without running code. -/
theorem Ordered.modify (h : s.Ordered session)
    (hheap : s.store.heap.SameProxies t.store.heap)
    (hstack : session.Underway s.app → Stacked t.app session.stack)
    {f : Call → Call} (hcall : session.calls[n]? = some call) (hnot : call.stage ≠ .running)
    (hstage : (f call).stage ≠ .running)
    (hcontext : (f call).context = call.context) (hcaller : (f call).caller = call.caller)
    (hcontract : call.stage.IsEntered → (f call).contract = call.contract)
    (hentered : call.stage.IsEntered → (f call).stage.IsEntered)
    (hpending : (f call).stage.IsPending → call.stage.IsPending) :
    t.Ordered (session.modifyCall n f) := by
  refine ⟨h.notCreation, (h.inOrder.modify hcall hstage hcontext hcaller hcontract hentered
    hpending).frame hheap rfl rfl, ?_⟩
  rcases h.phase with hidle | hunder
  · refine .inl ⟨hidle.1, ?_⟩
    rw [Session.modifyCall, List.length_modify]
    exact hidle.2
  · refine .inr ⟨first_modifyCall hcall hentered hunder.first, ?_⟩
    rw [InOrder.stack_modify hcall hnot hstage]
    exact hstack hunder

/-- A call that does not run is over. -/
theorem Ordered.over (h : s.Ordered session)
    (hheap : s.store.heap.SameProxies t.store.heap)
    (hstack : session.Underway s.app → Stacked t.app session.stack)
    (hcall : session.calls[n]? = some call) (hnot : call.stage ≠ .running)
    (message : Option String) :
    t.Ordered (session.modifyCall n fun call => { call with stage := .over message }) :=
  h.modify hheap hstack hcall hnot (by simp) rfl rfl (fun _ => rfl) (fun _ => trivial)
    (fun hpending => absurd hpending id)

/-! ### The beginning and the end of code -/

theorem sameProxies_modifyContract (ref : Ref) (f : Contract → Contract) :
    s.store.heap.SameProxies (s.modifyContract ref f).store.heap :=
  Heap.sameProxies_modify ref fun _ => rfl

/-- The end of `runContract` takes the top off the stack, whosever it is. -/
theorem leave_eq {top : Option Ref} {stack : List (Option Ref)}
    (hstack : Stacked s.app (top :: stack)) (i n : Nat) (ref : Ref) (message : Option String) :
    ∃ s₁ : ContractMachine, s₁.sessions = s.sessions ∧
      s.store.heap.SameProxies s₁.store.heap ∧ Stacked s₁.app stack ∧
      s.leave F i n ref message =
        s₁.setStage i n (if message.isSome ∨ n = 0 then .over message else .returned) := by
  obtain ⟨app, happ, hstacked⟩ := hstack.execDone (some (s.dataSize F ref))
  refine ⟨{ s with app }.modifyContract ref (·.ensureData F), rfl,
    sameProxies_modifyContract (s := { s with app }) ref _, hstacked, ?_⟩
  unfold leave
  rw [happ]

/-- `runContract` fails, with the stack as it was, or comes to the code, with the contract on
top of the stack. -/
theorem runContract_cases {stack : List (Option Ref)} (hstack : Stacked s.app stack) (i n : Nat)
    (ref : Ref) (method : String) :
    ∃ s₁ : ContractMachine, s₁.sessions = s.sessions ∧
      s.store.heap.SameProxies s₁.store.heap ∧
      ((∃ message, s.runContract F i n ref method = s₁.setStage i n (.over (some message))) ∧
          Stacked s₁.app stack ∨
        s.runContract F i n ref method = s₁.startCode F i n ref ∧
          Stacked s₁.app (some ref :: stack)) := by
  unfold runContract
  rcases hstack.execStarted (some ref) (s.dataSize F ref) with ⟨error, herror⟩ | ⟨app, happ, hpush⟩
  · rw [herror]
    exact ⟨s, rfl, .refl _, .inl ⟨⟨error, rfl⟩, hstack⟩⟩
  rw [happ]
  have hheap := sameProxies_modifyContract (s := { s with app }) ref (·.ensureData F)
  dsimp only
  split
  next error _ =>
    obtain ⟨s₁, hsessions, hsame, hstacked, heq⟩ := leave_eq (F := F)
      (s := { s with app }.modifyContract ref (·.ensureData F)) hpush i n ref (some error)
    rw [if_pos (.inl rfl)] at heq
    exact ⟨s₁, hsessions, hheap.trans hsame, .inl ⟨⟨error, heq⟩, hstacked⟩⟩
  next nCoinsLimit _ =>
    have hpush' : Stacked { app with nCoinsLimit } (some ref :: stack) :=
      ⟨hpush.contracts, hpush.sizes⟩
    split
    next =>
      exact ⟨{ { s with app }.modifyContract ref (·.ensureData F) with
        app := { app with nCoinsLimit } }, rfl, hheap, .inr ⟨rfl, hpush'⟩⟩
    next =>
      obtain ⟨s₁, hsessions, hsame, hstacked, heq⟩ := leave_eq (F := F)
        (s := { { s with app }.modifyContract ref (·.ensureData F) with
          app := { app with nCoinsLimit } }) hpush' i n ref (some "Method not found")
      rw [if_pos (.inl rfl)] at heq
      exact ⟨s₁, hsessions, hheap.trans hsame, .inl ⟨⟨_, heq⟩, hstacked⟩⟩

theorem exists_over (hsession : s.sessions[i]? = some session) (h : s.Ordered session)
    (hcall : session.calls[n]? = some call) (hnot : call.stage ≠ .running)
    (hsessions : t.sessions = s.sessions) (hheap : s.store.heap.SameProxies t.store.heap)
    (hstack : session.Underway s.app → Stacked t.app session.stack) (message : Option String) :
    ∃ session', (t.setStage i n (.over message)).sessions[i]? = some session' ∧
      (t.setStage i n (.over message)).Ordered session' := by
  refine ⟨_, sessions_modifySession (hsessions ▸ hsession) _, h.over ?_ ?_ hcall hnot message⟩
  · exact hheap
  · exact hstack

/-- `runContract` of a call whose contract, or the one it is to pay from, is held by the one
that has to pay. -/
theorem exists_runContract (hsession : s.sessions[i]? = some session)
    (hnotCreation : ∀ contractTx constructor, session.task ≠ .creation contractTx constructor)
    (hin : InOrder s.store.heap session) (hstack : Stacked s.app session.stack)
    (hfirst : n = 0 ∨ ∃ call, session.calls[0]? = some call ∧ call.stage.IsEntered)
    (hcall : session.calls[n]? = some call) (hnot : ¬ call.stage.IsEntered) {ref payer : Ref}
    (href : call.contract = some ref) (hpayer : session.intendedPayer n = some payer)
    (hholds : s.store.heap.Holds ref payer) (method : String) :
    ∃ session', (s.runContract F i n ref method).sessions[i]? = some session' ∧
      (s.runContract F i n ref method).Ordered session' := by
  have hfirst' : ∀ f : Call → Call, (f call).stage.IsEntered →
      ∃ call, (session.modifyCall n f).calls[0]? = some call ∧ call.stage.IsEntered := by
    intro f hf
    rcases hfirst with rfl | hfirst
    · exact ⟨f call, InOrder.calls_modify_self hcall, hf⟩
    · exact first_modifyCall hcall (fun _ => hf) hfirst
  obtain ⟨s₁, hsessions, hheap, ⟨⟨message, heq⟩, hstacked⟩ | ⟨heq, hstacked⟩⟩ :=
    runContract_cases (F := F) hstack i n ref method
  · rw [heq]
    refine ⟨_, sessions_modifySession (hsessions ▸ hsession) _, hnotCreation,
      (hin.modify (f := fun call => { call with stage := .over (some message) }) hcall
        (by simp) rfl rfl (fun _ => rfl) (fun _ => trivial)
        (fun hpending => absurd hpending id)).frame hheap rfl rfl,
      .inr ⟨hfirst' (fun call => { call with stage := .over (some message) }) trivial, ?_⟩⟩
    rw [InOrder.stack_modify hcall (fun hrun => hnot (hrun ▸ trivial)) (by simp)]
    exact hstacked
  · rw [heq]
    refine ⟨_, sessions_modifySession (s := s₁.modifyLive ref _) (hsessions ▸ hsession) _,
      hnotCreation, (hin.start hcall hnot href hpayer hholds).frame
        (hheap.trans (Heap.sameProxies_modify ref fun _ => rfl)) rfl rfl,
      .inr ⟨hfirst' (fun call => { call with stage := .running }) trivial, ?_⟩⟩
    rw [InOrder.stack_start hcall hin hnot href]
    exact hstacked

/-- A call that has not been entered goes on from an execution that has not run code. -/
theorem Ordered.idle (h : s.Ordered session) (hcall : session.calls[0]? = some call)
    (hnot : ¬ call.stage.IsEntered) : session.Idle := by
  refine h.phase.resolve_right fun hunder => ?_
  obtain ⟨first, hfirst, hstage⟩ := hunder.first
  rw [hcall] at hfirst
  injection hfirst with hfirst
  exact hnot (hfirst ▸ hstage)

theorem stack_of_idle (h : session.Idle) : session.stack = [] := by
  rw [Session.stack, Session.running, h.1]
  rfl

theorem stacked_setupVariables (app : Application) (objFees : AppFees) (coinsLimit : Number) :
    Stacked (app.setupVariables objFees coinsLimit) [] := ⟨rfl, rfl⟩

/-! ### Each action -/

theorem Ordered.root_none (h : s.Ordered session) (hidle : session.Idle)
    (hcall : session.calls[n]? = some call) : call.context = none := by
  cases hroot : call.context with
  | none => rfl
  | some root =>
      have hstarted := h.inOrder.root_started n call root hcall hroot
      rw [hidle.1] at hstarted
      cases hstarted

theorem exists_fetch (hsession : s.sessions[i]? = some session) (h : s.Ordered session)
    (hcall : session.calls[n]? = some call) (hstage : call.stage = .loading)
    (serving : Session) :
    ∃ session', (s.fetch F i n call serving).sessions[i]? = some session' ∧
      (s.fetch F i n call serving).Ordered session' := by
  have hnot : call.stage ≠ .running := by simp [hstage]
  have hloaded : ∀ (t : ContractMachine) (ref : Ref), t.app = s.app →
      s.store.heap.SameProxies t.store.heap →
        t.Ordered (session.modifyCall n fun call =>
          { call with contract := some ref, stage := .loaded }) := by
    intro t ref happ hheap
    refine h.modify hheap (fun hunder => happ ▸ hunder.stacked) hcall hnot (by simp) rfl rfl
      ?_ ?_ ?_
    · exact fun hentered => absurd hentered (by simp [hstage, Stage.IsEntered])
    · exact fun hentered => absurd hentered (by simp [hstage, Stage.IsEntered])
    · exact fun _ => by simp [hstage, Stage.IsPending]
  unfold fetch
  split
  next contract _ =>
    split
    next error _ =>
      exact exists_over hsession h hcall hnot rfl (.refl _) Session.Underway.stacked _
    next copy _ =>
      refine ⟨_, sessions_modifySession ?_ _, hloaded _ _ rfl (Heap.sameProxies_append _)⟩
      exact hsession
  next =>
    have hheap : s.store.heap.SameProxies
        (s.store.getContract F call.form call.strAddress).2.heap := by
      rcases StorageWithCache.getContract_cases F s.store call.form call.strAddress with
        hsame | ⟨stored, -, -, hnew⟩
      · rw [hsame]
        exact .refl _
      · rw [hnew]
        exact Heap.sameProxies_append _
    split
    next store hget =>
      rw [hget] at hheap
      exact exists_over (t := { s with store }) hsession h hcall hnot rfl hheap
        Session.Underway.stacked _
    next ref store hget =>
      rw [hget] at hheap
      refine ⟨_, sessions_modifySession ?_ _, hloaded _ _ rfl hheap⟩
      exact hsession

theorem exists_enterConstantCall (hsession : s.sessions[i]? = some session) (h : s.Ordered session)
    (hcall : session.calls[0]? = some call) (hstage : call.stage = .loaded) {completed : Bool}
    {ref : Ref} (hown : ∀ ref', s.constantContract J completed call.strAddress ref = some ref' →
      s.store.heap.HasOwn ref') :
    ∃ session', (s.enterConstantCall F J i 0 call completed ref).sessions[i]? = some session' ∧
      (s.enterConstantCall F J i 0 call completed ref).Ordered session' := by
  have hnot : ¬ call.stage.IsEntered := by simp [hstage, Stage.IsEntered]
  have hidle := h.idle hcall hnot
  unfold enterConstantCall
  split
  next =>
    exact exists_over hsession h hcall (by simp [hstage]) rfl (.refl _)
      Session.Underway.stacked _
  next ref' href =>
    have hmodify := h.inOrder.modify (f := fun call => { call with contract := some ref' }) hcall
      (by simp [hstage]) rfl rfl (fun hentered => absurd hentered hnot)
      (fun hentered => absurd hentered hnot) id
    have hroot : call.context = none := h.root_none hidle hcall
    have hself := InOrder.calls_modify_self (f := fun call => { call with contract := some ref' })
      hcall
    have hholds : s.store.heap.Holds ref' ref' := ⟨.refl, hown ref' href⟩
    let s₁ : ContractMachine := { s with app :=
      (s.app.setCallbacks i).setupVariables ⟨none, some maxSafeInteger, none⟩ none }
    refine exists_runContract (sessions_modifySession (s := s₁) hsession _) h.notCreation
      hmodify ?_ (.inl rfl) hself hnot rfl ?_ hholds call.method
    · have hstack : (session.modifyCall 0 fun call => { call with contract := some ref' }).stack =
          [] := stack_of_idle ⟨hidle.1, by rw [Session.modifyCall, List.length_modify]; exact hidle.2⟩
      rw [hstack]
      exact stacked_setupVariables _ _ _
    · rw [Session.intendedPayer, hself, Option.bind_some, hroot]
      exact InOrder.contractOf_modify_self hcall

theorem exists_enterInvocation (hsession : s.sessions[i]? = some session) (h : s.Ordered session)
    (hcall : session.calls[0]? = some call) (hstage : call.stage = .processing)
    (contractTx : ContractTx) {ref : Ref} (href : call.contract = some ref)
    (hown : s.store.heap.HasOwn ref) :
    ∃ session', (s.enterInvocation F i 0 call session contractTx ref).sessions[i]? = some session' ∧
      (s.enterInvocation F i 0 call session contractTx ref).Ordered session' := by
  have hnot : ¬ call.stage.IsEntered := by simp [hstage, Stage.IsEntered]
  have hidle := h.idle hcall hnot
  have hroot : call.context = none := h.root_none hidle hcall
  unfold enterInvocation
  dsimp only
  split
  next error _ =>
    refine exists_over (t := s.setupContract session contractTx) hsession h hcall
      (by simp [hstage]) rfl (.refl _) (fun _ => ?_) _
    rw [stack_of_idle hidle]
    exact stacked_setupVariables _ _ _
  next =>
    let s₁ : ContractMachine := { s.setupContract session contractTx with
      app := (s.setupContract session contractTx).app.setCallbacks i }
    have hholds : s.store.heap.Holds ref ref := ⟨.refl, hown⟩
    refine exists_runContract (s := s₁) hsession h.notCreation h.inOrder ?_ (.inl rfl) hcall hnot
      href ?_ hholds call.method
    · rw [stack_of_idle hidle]
      exact ⟨rfl, rfl⟩
    · rw [Session.intendedPayer, hcall, Option.bind_some, hroot, Option.getD_none,
        Session.contractOf, hcall]
      exact href

/-- An object that is not in use may be changed, and made to proxy another one. -/
theorem inOrder_modifyLive (h : InOrder s.store.heap session) {ref : Ref}
    (hfree : ¬ s.InUse session ref) (f : LiveContract → LiveContract) :
    InOrder (s.modifyLive ref f).store.heap session where
  started_nodup := h.started_nodup
  started_entered := h.started_entered
  running_started := h.running_started
  root_started := h.root_started
  paid m hm := by
    obtain ⟨ref', payer, href', hpayer, hholds⟩ := h.paid m hm
    refine ⟨ref', payer, href', hpayer, hholds.modify (fun hfollows => hfree ?_) f⟩
    obtain ⟨call, hcall, hstage⟩ := hm
    rw [Session.contractOf, hcall] at href'
    exact ⟨m, call, ref', hcall, .inl ⟨hstage, href'⟩, hfollows⟩
  pending m call root hcall hroot hpending := by
    obtain ⟨caller, payer, hcaller, hpayer, hholds⟩ := h.pending m call root hcall hroot hpending
    refine ⟨caller, payer, hcaller, hpayer, hholds.modify (fun hfollows => hfree ?_) f⟩
    exact ⟨m, call, caller, hcall, .inr ⟨by rw [hroot]; rfl, hpending, hcaller⟩, hfollows⟩

theorem exists_enterNested (hsession : s.sessions[i]? = some session) (h : s.Ordered session)
    (hcall : session.calls[n]? = some call) (hn : n ≠ 0) (hstage : call.stage = .loaded)
    {ref : Ref} (href : call.contract = some ref)
    (hcond : if call.context = none then s.store.heap.HasOwn ref else ¬ s.InUse session ref) :
    ∃ session', (s.enterNested F i n call session ref).sessions[i]? = some session' ∧
      (s.enterNested F i n call session ref).Ordered session' := by
  have hnot : ¬ call.stage.IsEntered := by simp [hstage, Stage.IsEntered]
  have hrunning : call.stage ≠ .running := by simp [hstage]
  have hunder : session.Underway s.app := by
    refine h.phase.resolve_left fun hidle => ?_
    have hlt := (List.getElem?_eq_some_iff.mp hcall).1
    rw [hidle.2] at hlt
    omega
  have hin : InOrder (s.modifyLive ref (switchNested F call session)).store.heap session ∧
      ∃ payer, session.intendedPayer n = some payer ∧
        ((s.modifyLive ref (switchNested F call session)).store.heap.holder ref ≠ none →
          (s.modifyLive ref (switchNested F call session)).store.heap.Holds ref payer) := by
    cases hroot : call.context with
    | none =>
        rw [if_pos hroot] at hcond
        have hsame : s.store.heap.SameProxies
            (s.modifyLive ref (switchNested F call session)).store.heap :=
          Heap.sameProxies_modify ref fun live => by simp [switchNested, hroot]
        refine ⟨h.inOrder.frame hsame rfl rfl, ref, ?_, fun _ => Heap.Holds.mono ⟨.refl, hcond⟩ hsame⟩
        rw [Session.intendedPayer, hcall, Option.bind_some, hroot, Option.getD_none,
          Session.contractOf, hcall]
        exact href
    | some root =>
        rw [if_neg (by simp [hroot])] at hcond
        obtain ⟨caller, payer, hcaller, hpayer, hholds⟩ :=
          h.inOrder.pending n call root hcall hroot (by simp [hstage, Stage.IsPending])
        refine ⟨inOrder_modifyLive h.inOrder hcond _, payer, ?_, fun hholder => ?_⟩
        · rw [Session.intendedPayer, hcall, Option.bind_some, hroot]
          exact hpayer
        · have hkept := hholds.modify (fun hfollows => hcond ⟨n, call, caller, hcall,
            .inr ⟨by rw [hroot]; rfl, by simp [hstage, Stage.IsPending], hcaller⟩, hfollows⟩)
            (switchNested F call session)
          refine ⟨.head ?_ hkept.1, hkept.2⟩
          cases hlive : s.store.heap[ref]? with
          | none =>
              refine absurd ?_ hholder
              have hnone : (s.modifyLive ref (switchNested F call session)).store.heap[ref]? =
                  none := (List.getElem?_modify_eq _ _ _).trans (by rw [hlive]; rfl)
              unfold Heap.holder Heap.callDepth
              rw [Heap.holderFrom, hnone]
          | some live =>
              refine ⟨switchNested F call session live, ?_, ?_⟩
              · change (s.store.heap.modify ref _)[ref]? = _
                rw [List.getElem?_modify_eq, hlive]
                rfl
              · simp [switchNested, hroot, hcaller]
  obtain ⟨hin, payer, hpayer, hholds⟩ := hin
  unfold enterNested
  dsimp only
  split
  next =>
    refine ⟨_, sessions_modifySession (s := s.modifyLive ref (switchNested F call session))
      hsession _, h.notCreation, hin.modify (f := fun call =>
        { call with stage := .over (some "Maximum call stack size exceeded") }) hcall (by simp) rfl
        rfl (fun _ => rfl) (fun _ => trivial) (fun hpending => absurd hpending id), .inr
      ⟨first_modifyCall hcall (fun _ => trivial) hunder.first, ?_⟩⟩
    rw [InOrder.stack_modify hcall hrunning (by simp)]
    exact hunder.stacked
  next hholder =>
    exact exists_runContract (s := s.modifyLive ref (switchNested F call session)) hsession
      h.notCreation hin hunder.stacked (.inr hunder.first) hcall hnot href hpayer
      (hholds fun hnone => hholder (by rw [hnone]; rfl)) call.method

theorem Ordered.underway (h : s.Ordered session) (hrunning : session.IsRunning n) :
    session.Underway s.app := by
  refine h.phase.resolve_left fun hidle => ?_
  have hstarted := h.inOrder.running_started n hrunning
  rw [hidle.1] at hstarted
  cases hstarted

/-- Code that was started last is that of the current contract. -/
theorem Ordered.getCurrentContract (h : s.Ordered session) (hrunning : session.IsRunning n) :
    s.app.getCurrentContract = (session.running.head?).bind session.contractOf := by
  rw [Application.getCurrentContract, (h.underway hrunning).stacked.contracts, Session.stack,
    List.head?_map]
  cases session.running.head? <;> rfl

theorem exists_sendCurrent (hsession : s.sessions[i]? = some session) (h : s.Ordered session)
    (strAddress : Option Address) (amount : Amount) :
    ∃ session', (s.sendCurrent F strAddress amount).1.sessions[i]? = some session' ∧
      (s.sendCurrent F strAddress amount).1.Ordered session' := by
  unfold sendCurrent
  split
  next payer serving _ _ =>
    split
    next => exact ⟨session, hsession, h⟩
    next live _ =>
      obtain ⟨session', hsession', hcalls, hstarted, htask⟩ := exists_sessions_modifySession
        (s := s.modifyContract payer fun _ =>
          (sendCoins F serving.env strAddress amount live.contract serving.patchTx).2.1)
        hsession s.app.objCallbacks (f := fun session => { session with
          patchTx := (sendCoins F serving.env strAddress amount live.contract
            serving.patchTx).1 }) rfl rfl rfl
      refine ⟨session', hsession', h.frame ?_ Session.Underway.stacked hcalls hstarted htask⟩
      exact Heap.sameProxies_modify payer fun _ => rfl
  next => exact ⟨session, hsession, h⟩

theorem exists_serveSend (hsession : s.sessions[i]? = some session) (h : s.Ordered session)
    (strAddress : Option Address) (amount : Amount) :
    ∃ session', (s.serveSend F strAddress amount).1.sessions[i]? = some session' ∧
      (s.serveSend F strAddress amount).1.Ordered session' := by
  unfold serveSend
  split
  next => exact ⟨session, hsession, h⟩
  next nCoinsLimit _ =>
    exact exists_sendCurrent (s := { s with app := { s.app with nCoinsLimit } }) hsession
      (h.frame (.refl _) (fun hunder => ⟨hunder.stacked.1, hunder.stacked.2⟩) rfl rfl rfl) _ _

theorem exists_answer (hsession : s.sessions[i]? = some session) (h : s.Ordered session)
    (message : Option String) :
    ∃ session', (s.answer i message).sessions[i]? = some session' ∧
      (s.answer i message).Ordered session' :=
  ⟨_, sessions_modifySession hsession _,
    h.frame (t := s.answer i message) (.refl _) Session.Underway.stacked rfl rfl rfl⟩

theorem exists_call (hsession : s.sessions[i]? = some session) (h : s.Ordered session)
    (hcall : session.calls[n]? = some call) (hrun : call.stage = .running) {delegate : Bool}
    (hlatest : session.Latest n) {strAddress : Address} {method : String}
    {coinsToPass : Option Amount} {requested : Call}
    (hserve : s.serveCall n call delegate strAddress method coinsToPass = .ok requested) :
    ∃ session', (s.modifySession i fun session =>
        { session with calls := session.calls ++ [requested] }).sessions[i]? = some session' ∧
      (s.modifySession i fun session =>
        { session with calls := session.calls ++ [requested] }).Ordered session' := by
  have hrunning : session.IsRunning n := ⟨call, hcall, hrun⟩
  have hunder := h.underway hrunning
  unfold serveCall at hserve
  split at hserve
  next => cases hserve
  next =>
    split at hserve
    next => cases hserve
    next caller hcaller =>
      injection hserve with hserve
      obtain ⟨ref, payer, href, hpayer, hholds⟩ := h.inOrder.paid n hrunning
      have hcallerRef : caller = ref := by
        rw [h.getCurrentContract hrunning, hlatest, href] at hcaller
        injection hcaller with hcaller
        exact hcaller.symm
      have hroot : ∀ root, requested.context = some root → root ∈ session.started ∧
          ∃ caller payer, requested.caller = some caller ∧
            session.contractOf root = some payer ∧ s.store.heap.Holds caller payer := by
        intro root hroot
        have hroot' : root = call.context.getD n := by
          rw [← hserve] at hroot
          cases delegate with
          | false => cases hroot
          | true =>
              injection hroot with hroot
              exact hroot.symm
        refine ⟨?_, caller, payer, by rw [← hserve], ?_, hcallerRef ▸ hholds⟩
        · rw [hroot']
          cases hcontext : call.context with
          | none => exact h.inOrder.running_started n hrunning
          | some root => exact h.inOrder.root_started n call root hcall hcontext
        · rw [Session.intendedPayer, hcall, Option.bind_some] at hpayer
          rw [hroot']
          exact hpayer
      have happend := h.inOrder.append (by rw [← hserve]) hroot
      refine ⟨_, sessions_modifySession hsession _, h.notCreation, happend.1, .inr ⟨?_, ?_⟩⟩
      · obtain ⟨first, hfirst, hstage⟩ := hunder.first
        exact ⟨first, (List.getElem?_append_left (List.getElem?_eq_some_iff.mp hfirst).1).trans
          hfirst, hstage⟩
      · rw [happend.2]
        exact hunder.stacked

theorem exists_leave (hsession : s.sessions[i]? = some session) (h : s.Ordered session)
    (hcall : session.calls[n]? = some call) (hrun : call.stage = .running)
    (hhead : session.running.head? = some n) (ref : Ref) (message : Option String) :
    ∃ session', (s.leave F i n ref message).sessions[i]? = some session' ∧
      (s.leave F i n ref message).Ordered session' := by
  have hunder := h.underway ⟨call, hcall, hrun⟩
  let stage : Stage := if message.isSome ∨ n = 0 then .over message else .returned
  have hstage : stage ≠ .running ∧ stage.IsEntered ∧ ¬ stage.IsPending := by
    by_cases hover : message.isSome ∨ n = 0
    · simp [stage, hover, Stage.IsEntered, Stage.IsPending]
    · simp [stage, hover, Stage.IsEntered, Stage.IsPending]
  have hpop := h.inOrder.stack_stop (f := fun call => { call with stage }) hcall hhead hstage.1 rfl
  obtain ⟨s₁, hsessions, hheap, hstacked, heq⟩ :=
    leave_eq (F := F) (hpop ▸ hunder.stacked) i n ref message
  rw [heq]
  refine ⟨_, sessions_modifySession (hsessions ▸ hsession) _, h.notCreation,
    (h.inOrder.modify (f := fun call => { call with stage }) hcall hstage.1 rfl rfl
      (fun _ => rfl) (fun _ => hstage.2.1) (fun hpending => absurd hpending hstage.2.2)).frame
      hheap rfl rfl,
    .inr ⟨first_modifyCall hcall (fun _ => hstage.2.1) hunder.first, hstacked⟩⟩

theorem exists_finishNested (hsession : s.sessions[i]? = some session) (h : s.Ordered session)
    (hcall : session.calls[n]? = some call) (hstage : call.stage = .returned) (ref : Ref) :
    ∃ session', (s.finishNested F i n call session ref).sessions[i]? = some session' ∧
      (s.finishNested F i n call session ref).Ordered session' := by
  have hnot : call.stage ≠ .running := by simp [hstage]
  unfold finishNested
  dsimp only
  generalize hs₁ : (if session.env.isTimeToForkSerializer3 then
    s.modifyContract ref (·.dirtyWorkaround F) else s) = s₁
  have hsessions : s₁.sessions[i]? = some session := by
    rw [← hs₁]
    split <;> exact hsession
  have hordered : s₁.Ordered session := by
    rw [← hs₁]
    split
    next =>
      exact h.frame (sameProxies_modifyContract ref _) Session.Underway.stacked rfl rfl rfl
    next => exact h
  have hstore : ∃ session', (s₁.storeObject F call.callbacks ref).sessions[i]? = some session' ∧
      session'.calls = session.calls ∧
      (s₁.storeObject F call.callbacks ref).Ordered session' := by
    unfold storeObject
    split
    next =>
      split
      next found _ =>
        exact ⟨session, hsessions, rfl, hordered.frame (sameProxies_modifyContract found _)
          Session.Underway.stacked rfl rfl rfl⟩
      next =>
        obtain ⟨session', hsession', hcalls, hstarted, htask⟩ :=
          exists_sessions_modifySession hsessions call.callbacks
            (f := fun session => { session with contracts := session.contracts ++ [ref] })
            rfl rfl rfl
        exact ⟨session', hsession', hcalls, hordered.frame (.refl _) Session.Underway.stacked
          hcalls hstarted htask⟩
    next => exact ⟨session, hsessions, rfl, hordered⟩
  obtain ⟨session', hsession', hcalls, hordered'⟩ := hstore
  exact exists_over hsession' hordered' (hcalls ▸ hcall) hnot rfl (.refl _)
    Session.Underway.stacked _

theorem depositTo_frame (ref : Ref) (amount : Amount) :
    (s.depositTo ref amount).sessions = s.sessions ∧ (s.depositTo ref amount).app = s.app ∧
      s.store.heap.SameProxies (s.depositTo ref amount).store.heap := by
  unfold depositTo
  split
  next holder _ => exact ⟨rfl, rfl, sameProxies_modifyContract holder _⟩
  next => exact ⟨rfl, rfl, .refl _⟩

theorem settleObject_frame (contractTx : ContractTx) (ref : Ref) (successful : Bool) :
    (s.settleObject F contractTx ref successful).sessions = s.sessions ∧
      (s.settleObject F contractTx ref successful).app = s.app ∧
      s.store.heap.SameProxies (s.settleObject F contractTx ref successful).store.heap := by
  unfold settleObject
  dsimp only
  generalize hs₁ : (if contractTx.node.isTimeToForkSerializer3 F then
    s.modifyContract ref (·.dirtyWorkaround F) else s) = s₁
  have hframe : s₁.sessions = s.sessions ∧ s₁.app = s.app ∧
      s.store.heap.SameProxies s₁.store.heap := by
    rw [← hs₁]
    split
    next => exact ⟨rfl, rfl, sameProxies_modifyContract ref _⟩
    next => exact ⟨rfl, rfl, .refl _⟩
  obtain ⟨hsessions, happ, hheap⟩ := hframe
  split
  next =>
    have hplaced := sameProxies_modifyContract (s := s₁) ref fun contract =>
      if contract.conciliumId.isNone then contract.setConciliumId contractTx.tx.conciliumId
      else contract
    obtain ⟨hsessions', happ', hheap'⟩ := depositTo_frame (s := s₁.modifyContract ref fun contract =>
      if contract.conciliumId.isNone then contract.setConciliumId contractTx.tx.conciliumId
      else contract) ref contractTx.tx.getContractSentAmount
    exact ⟨hsessions'.trans hsessions, happ'.trans happ, (hheap.trans hplaced).trans hheap'⟩
  next => exact ⟨hsessions, happ, hheap⟩

theorem exists_finishTx (hsession : s.sessions[i]? = some session) (h : s.Ordered session)
    (contractTx : ContractTx) (bNewContract : Bool) (message : Option String) :
    ∃ session',
      (s.finishTx F i session call contractTx bNewContract message).sessions[i]? = some session' ∧
      (s.finishTx F i session call contractTx bNewContract message).Ordered session' := by
  unfold finishTx
  split
  next =>
    refine ⟨_, sessions_modifySession hsession _, h.frame ?_ Session.Underway.stacked rfl rfl rfl⟩
    exact .refl _
  next coinsSpent _ =>
    dsimp only
    split
    next ref _ =>
      generalize (s.outcome F session call contractTx bNewContract message _) = o
      obtain ⟨hsessions, happ, hheap⟩ := settleObject_frame (F := F)
        (s := s.modifySession i fun session => { session with
          result := some (settleContract F contractTx.node contractTx.isGenesis contractTx.tx
            contractTx.nMaxCoins (contractTx.nFeeSize + coinsSpent +
              s.app.nDataDelta * contractTx.nFeeStorage) o) }) contractTx ref o.message.isNone
      refine ⟨_, (congrArg (·[i]?) hsessions).trans (sessions_modifySession hsession _),
        h.frame hheap (fun hunder => ?_) rfl rfl rfl⟩
      rw [happ]
      exact hunder.stacked
    next =>
      refine ⟨_, sessions_modifySession hsession _, h.frame ?_ Session.Underway.stacked
        rfl rfl rfl⟩
      exact .refl _

/-- An action that keeps the stack in order keeps the invariant. -/
theorem exists_step (hsession : s.sessions[i]? = some session) (h : s.Ordered session)
    {action : Action} (hcond : s.KeepsOrder J i action) :
    ∃ session', (s.step F J i action).sessions[i]? = some session' ∧
      (s.step F J i action).Ordered session' := by
  have hskip : ∃ session', s.sessions[i]? = some session' ∧ s.Ordered session' :=
    ⟨session, hsession, h⟩
  rw [step, hsession]
  cases action with
  | fetch n =>
      dsimp only
      split
      next => exact hskip
      next call hcall =>
        split
        next => exact hskip
        next serving _ =>
          split
          next hstage => exact exists_fetch hsession h hcall hstage serving
          next => exact hskip
  | process =>
      dsimp only
      split
      next call contractTx hcall htask =>
        split
        next hstage =>
          have hmodify : ∀ s₁ : ContractMachine, s₁.sessions = s.sessions → s₁.app = s.app →
              s.store.heap.SameProxies s₁.store.heap →
              ∃ session', (s₁.setStage i 0 .processing).sessions[i]? = some session' ∧
                (s₁.setStage i 0 .processing).Ordered session' := by
            intro s₁ hsessions happ hheap
            refine ⟨_, sessions_modifySession (hsessions ▸ hsession) _,
              h.modify (t := s₁.setStage i 0 .processing)
                (f := fun call => { call with stage := .processing }) hheap
                (fun hunder => ?_) hcall (by simp [hstage]) (by simp) rfl rfl (fun _ => rfl)
                (fun hentered => ?_) (fun hpending => absurd hpending id)⟩
            · change Stacked s₁.app session.stack
              rw [happ]
              exact hunder.stacked
            · exact absurd hentered (by simp [hstage, Stage.IsEntered])
          split
          next ref _ =>
            split
            next => exact hmodify _ rfl rfl (sameProxies_modifyContract ref _)
            next => exact hmodify _ rfl rfl (.refl _)
          next => exact hmodify _ rfl rfl (.refl _)
        next => exact hskip
      next => exact hskip
  | enter n =>
      dsimp only
      split
      next => exact hskip
      next call hcall =>
        have hcond' := hcond session call
        split
        next completed ref htask href hstage =>
          refine exists_enterConstantCall hsession h hcall hstage fun ref' href' => ?_
          have hidle := h.idle hcall (by simp [hstage, Stage.IsEntered])
          have := hcond' ref' hsession hcall (by
            simp only [entering, hsession, hcall, htask, href]
            exact href')
          rwa [if_pos (h.root_none hidle hcall)] at this
        next contractTx ref htask href hstage =>
          have hidle := h.idle hcall (by simp [hstage, Stage.IsEntered])
          have := hcond' ref hsession hcall (by simp only [entering, hsession, hcall, htask, href])
          rw [if_pos (h.root_none hidle hcall)] at this
          exact exists_enterInvocation hsession h hcall hstage contractTx href this
        next contractTx constructor htask _ =>
          exact absurd htask (h.notCreation contractTx constructor)
        next m ref href hstage =>
          exact exists_enterNested hsession h hcall (Nat.succ_ne_zero m) hstage href
            (hcond' ref hsession hcall (by simp only [entering, hsession, hcall, href]))
        next => exact hskip
  | create =>
      dsimp only
      split
      next contractTx constructor _ htask =>
        exact absurd htask (h.notCreation contractTx constructor)
      next => exact hskip
  | send n strAddress amount =>
      dsimp only
      split
      next =>
        obtain ⟨session', hsession', h'⟩ := exists_serveSend (F := F) hsession h strAddress amount
        exact exists_answer hsession' h' _
      next => exact hskip
  | call n delegate strAddress method coinsToPass =>
      dsimp only
      split
      next => exact hskip
      next call hcall =>
        split
        next hrun =>
          split
          next => exact exists_answer hsession h _
          next requested hserve =>
            exact exists_call hsession h hcall hrun (hcond session hsession ⟨call, hcall, hrun⟩)
              hserve
        next => exact hskip
  | changeNested n data =>
      dsimp only
      split
      next => exact hskip
      next call hcall =>
        split
        next =>
          split
          next => exact hskip
          next ref _ =>
            exact ⟨session, hsession, h.frame (sameProxies_modifyContract ref _)
              Session.Underway.stacked rfl rfl rfl⟩
        next => exact hskip
  | stop n result =>
      dsimp only
      split
      next => exact hskip
      next call hcall =>
        split
        next ref error hrun href =>
          exact exists_leave hsession h hcall hrun (hcond session hsession ⟨call, hcall, hrun⟩)
            ref _
        next ref data hrun href =>
          have hhead := hcond session hsession ⟨call, hcall, hrun⟩
          split
          next => exact exists_leave hsession h hcall hrun hhead ref _
          next =>
            exact exists_leave (s := s.modifyContract ref _) hsession
              (h.frame (sameProxies_modifyContract ref _) Session.Underway.stacked rfl rfl rfl)
              hcall hrun hhead ref _
        next => exact hskip
  | storeNested n =>
      dsimp only
      split
      next => exact hskip
      next call hcall =>
        split
        next ref hstage _ => exact exists_finishNested hsession h hcall hstage ref
        next => exact hskip
  | settle =>
      dsimp only
      split
      next => exact hskip
      next call _ =>
        unfold settle
        split
        next => exact exists_finishTx hsession h _ _ _
        next => exact exists_finishTx hsession h _ _ _
        next => exact hskip

theorem ordered_of_begins (h : s.Begins i) :
    ∃ session, s.sessions[i]? = some session ∧ s.Ordered session := by
  obtain ⟨env, codes, task, call, patchTx, hsession, hstage, hcontext, htask⟩ := h
  have hget : ∀ (m : Nat) (call' : Call), [call][m]? = some call' → call' = call :=
    fun m call' hcall' => List.mem_singleton.mp (List.mem_of_getElem? hcall')
  refine ⟨_, hsession, htask, ⟨List.nodup_nil, ?_, ?_, ?_, ?_, ?_⟩, .inl ⟨rfl, rfl⟩⟩
  · intro m hm
    cases hm
  · rintro m ⟨call', hcall', hrun⟩
    rw [hget m call' hcall', hstage] at hrun
    cases hrun
  · intro m call' root hcall' hroot
    rw [hget m call' hcall', hcontext] at hroot
    cases hroot
  · rintro m ⟨call', hcall', hrun⟩
    rw [hget m call' hcall', hstage] at hrun
    cases hrun
  · intro m call' root hcall' hroot
    rw [hget m call' hcall', hcontext] at hroot
    cases hroot

/-- The invariant holds along every run that keeps the stack in order. -/
theorem ordered_of_run {start : ContractMachine} (hbegins : start.Begins i)
    (hrun : RunWhile F J i (KeepsOrder J i) start s) :
    ∃ session, s.sessions[i]? = some session ∧ s.Ordered session := by
  induction hrun with
  | start => exact ordered_of_begins hbegins
  | step _ hcond ih =>
      obtain ⟨session, hsession, h⟩ := ih
      exact exists_step hsession h hcond

end ContractMachine

end CilCore
