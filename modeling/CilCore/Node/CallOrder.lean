import CilCore.Node.ContractMachine
import CilCore.Storage.Proxies

/-!
# Calls in order

What holds of the calls of one execution when each contract object that is made to proxy
another one is not in use already: what running code would pay from is held by the contract
that has to pay. One lemma for each way in which a call goes on.
-/

namespace CilCore

namespace Session

/-- The contract object of a call. -/
def contractOf (session : Session) (n : Nat) : Option Ref :=
  (session.calls[n]?).bind (·.contract)

/-- The contract object that has to pay for what a call sends: its own, or, if it runs by
delegation, that of the call whose context it runs in. -/
def intendedPayer (session : Session) (n : Nat) : Option Ref :=
  (session.calls[n]?).bind fun call => session.contractOf (call.context.getD n)

/-- The code that was started last, of all that runs, is that of the call's contract. -/
def Latest (session : Session) (n : Nat) : Prop :=
  (session.running.head?).bind session.contractOf = session.contractOf n

/-- The contracts of the calls that run, the last one started first. -/
def stack (session : Session) : List (Option Ref) := session.running.map session.contractOf

end Session

/-- The call waits for its contract. -/
def Stage.IsPending : Stage → Prop
  | .loading | .loaded => True
  | _ => False

/-- The call has been entered, and may be over already. -/
def Stage.IsEntered : Stage → Prop
  | .running | .returned | .over _ => True
  | _ => False

/-- What holds of the calls of an execution: running code has been started once, what it
would pay from is held by the contract that has to pay, and what a delegated call is going
to pay from is held by the contract in whose context it will run. -/
structure InOrder (heap : Heap) (session : Session) : Prop where
  started_nodup : session.started.Nodup
  started_entered : ∀ n ∈ session.started, ∃ call : Call,
    session.calls[n]? = some call ∧ call.stage.IsEntered
  running_started : ∀ n, session.IsRunning n → n ∈ session.started
  root_started : ∀ (n : Nat) (call : Call) (root : Nat), session.calls[n]? = some call → call.context = some root →
    root ∈ session.started
  paid : ∀ n, session.IsRunning n → ∃ ref payer, session.contractOf n = some ref ∧
    session.intendedPayer n = some payer ∧ heap.Holds ref payer
  pending : ∀ (n : Nat) (call : Call) (root : Nat), session.calls[n]? = some call → call.context = some root →
    call.stage.IsPending → ∃ caller payer, call.caller = some caller ∧
      session.contractOf root = some payer ∧ heap.Holds caller payer

/-- The application object has this stack of contracts, and as many data sizes. -/
structure Stacked (app : Application) (stack : List (Option Ref)) : Prop where
  contracts : app.arrContracts = stack
  sizes : (app.arrContractDataSize.getD []).length = stack.length

theorem Stacked.execStarted {app : Application} {stack : List (Option Ref)}
    (h : Stacked app stack) (contract : Option Ref) (nDataSize : Nat) :
    (∃ error, app.execStarted contract nDataSize = .error error) ∨
    ∃ app', app.execStarted contract nDataSize = .ok app' ∧ Stacked app' (contract :: stack) := by
  unfold Application.execStarted
  have hsizes := h.sizes
  split
  next => exact .inl ⟨_, rfl⟩
  next sizes heq =>
    rw [heq] at hsizes
    exact .inr ⟨_, rfl, by rw [h.contracts], congrArg Nat.succ hsizes⟩

theorem Stacked.execDone {app : Application} {top : Option Ref} {stack : List (Option Ref)}
    (h : Stacked app (top :: stack)) (nDataSize : Option Nat) :
    ∃ app', app.execDone nDataSize = .ok app' ∧ Stacked app' stack := by
  unfold Application.execDone
  have hsizes := h.sizes
  split
  next heq =>
    rw [heq] at hsizes
    exact absurd hsizes.symm (Nat.succ_ne_zero _)
  next heq =>
    rw [heq] at hsizes
    exact absurd hsizes.symm (Nat.succ_ne_zero _)
  next nPrevDataSize sizes heq =>
    rw [heq] at hsizes
    refine ⟨_, rfl, by rw [h.contracts, List.tail_cons], ?_⟩
    have hlength : sizes.length = stack.length := Nat.succ.inj hsizes
    by_cases hnil : sizes = []
    · rw [if_pos hnil, ← hlength, hnil]
      rfl
    · rw [if_neg hnil]
      exact hlength

namespace InOrder

variable {heap heap' : Heap} {session session' : Session} {n : Nat} {call : Call}

theorem isRunning_iff_of_calls_eq (hcalls : session'.calls = session.calls) (m : Nat) :
    session'.IsRunning m ↔ session.IsRunning m := by
  rw [Session.IsRunning, Session.IsRunning, hcalls]

theorem contractOf_of_calls_eq (hcalls : session'.calls = session.calls) (m : Nat) :
    session'.contractOf m = session.contractOf m := by
  rw [Session.contractOf, Session.contractOf, hcalls]

theorem stack_of_calls_eq (hcalls : session'.calls = session.calls)
    (hstarted : session'.started = session.started) : session'.stack = session.stack := by
  unfold Session.stack Session.running
  rw [hstarted, List.filter_congr fun m _ => decide_eq_decide.mpr
    (isRunning_iff_of_calls_eq hcalls m)]
  exact List.map_congr_left fun m _ => contractOf_of_calls_eq hcalls m

/-- Objects may be changed and added if they go on proxying what they proxy. -/
theorem frame (h : InOrder heap session) (hheap : heap.SameProxies heap')
    (hcalls : session'.calls = session.calls) (hstarted : session'.started = session.started) :
    InOrder heap' session' where
  started_nodup := hstarted ▸ h.started_nodup
  started_entered n hn := hcalls ▸ h.started_entered n (hstarted ▸ hn)
  running_started n hn :=
    hstarted ▸ h.running_started n ((isRunning_iff_of_calls_eq hcalls n).mp hn)
  root_started n call root hcall hroot :=
    hstarted ▸ h.root_started n call root (hcalls ▸ hcall) hroot
  paid n hn := by
    obtain ⟨ref, payer, href, hpayer, hholds⟩ :=
      h.paid n ((isRunning_iff_of_calls_eq hcalls n).mp hn)
    refine ⟨ref, payer, (contractOf_of_calls_eq hcalls n).trans href, ?_, hholds.mono hheap⟩
    rw [← hpayer, Session.intendedPayer, Session.intendedPayer, hcalls]
    congr 1
    funext call
    exact contractOf_of_calls_eq hcalls _
  pending n call root hcall hroot hstage := by
    obtain ⟨caller, payer, hcaller, hpayer, hholds⟩ :=
      h.pending n call root (hcalls ▸ hcall) hroot hstage
    exact ⟨caller, payer, hcaller, (contractOf_of_calls_eq hcalls root).trans hpayer,
      hholds.mono hheap⟩

/-! ### One call changes -/

section Modify

variable {f : Call → Call} (hcall : session.calls[n]? = some call)
include hcall

theorem calls_modify_self : (session.modifyCall n f).calls[n]? = some (f call) := by
  rw [Session.modifyCall, List.getElem?_modify_eq, hcall]
  rfl

omit hcall in
theorem calls_modify {m : Nat} (hm : m ≠ n) :
    (session.modifyCall n f).calls[m]? = session.calls[m]? :=
  List.getElem?_modify_ne _ _ hm.symm

theorem isRunning_modify_self :
    (session.modifyCall n f).IsRunning n ↔
      (f call).stage = .running := by
  constructor
  · rintro ⟨call', hcall', hrunning⟩
    rw [calls_modify_self hcall] at hcall'
    injection hcall' with hcall'
    rwa [hcall']
  · exact fun h => ⟨f call, calls_modify_self hcall, h⟩

omit hcall in
theorem isRunning_modify {m : Nat} (hm : m ≠ n) :
    (session.modifyCall n f).IsRunning m ↔
      session.IsRunning m := by
  rw [Session.IsRunning, Session.IsRunning, calls_modify hm]

theorem contractOf_modify_self :
    (session.modifyCall n f).contractOf n =
      (f call).contract := by
  rw [Session.contractOf, calls_modify_self hcall]
  rfl

theorem contractOf_modify {m : Nat} (hm : m = n → (f call).contract = call.contract) :
    (session.modifyCall n f).contractOf m =
      session.contractOf m := by
  by_cases hmn : m = n
  · subst hmn
    rw [contractOf_modify_self hcall, hm rfl, Session.contractOf, hcall]
    rfl
  · rw [Session.contractOf, Session.contractOf, calls_modify hmn]

theorem isEntered (h : InOrder heap session) (hn : n ∈ session.started) :
    call.stage.IsEntered := by
  obtain ⟨call', hcall', hstage'⟩ := h.started_entered n hn
  rw [hcall] at hcall'
  injection hcall' with hcall'
  exact hcall' ▸ hstage'

/-- A call goes on, without running code afterwards. Its contract is set before it is
started. -/
theorem modify (h : InOrder heap session) (hstage : (f call).stage ≠ .running)
    (hcontext : (f call).context = call.context) (hcaller : (f call).caller = call.caller)
    (hcontract : call.stage.IsEntered → (f call).contract = call.contract)
    (hentered : call.stage.IsEntered → (f call).stage.IsEntered)
    (hpending : (f call).stage.IsPending → call.stage.IsPending) :
    InOrder heap (session.modifyCall n f) := by
  have hstarted : n ∈ session.started → call.stage.IsEntered := h.isEntered hcall
  have hof : ∀ m ∈ session.started,
      (session.modifyCall n f).contractOf m = session.contractOf m :=
    fun m hm => contractOf_modify hcall fun hmn => hcontract (hstarted (hmn ▸ hm))
  refine ⟨h.started_nodup, fun m hm => ?_, fun m hm => ?_, fun m call' root hcall' hroot => ?_,
    fun m hm => ?_, fun m call' root hcall' hroot hpend => ?_⟩
  · by_cases hmn : m = n
    · subst hmn
      exact ⟨f call, calls_modify_self hcall, hentered (hstarted hm)⟩
    · rw [calls_modify hmn]
      exact h.started_entered m hm
  · by_cases hmn : m = n
    · subst hmn
      exact absurd ((isRunning_modify_self hcall).mp hm) hstage
    · exact h.running_started m ((isRunning_modify hmn).mp hm)
  · by_cases hmn : m = n
    · subst hmn
      rw [calls_modify_self hcall] at hcall'
      injection hcall' with hcall'
      subst hcall'
      exact h.root_started m call root hcall (hcontext ▸ hroot)
    · rw [calls_modify hmn] at hcall'
      exact h.root_started m call' root hcall' hroot
  · by_cases hmn : m = n
    · subst hmn
      exact absurd ((isRunning_modify_self hcall).mp hm) hstage
    · have hrunning := (isRunning_modify hmn).mp hm
      obtain ⟨ref, payer, href, hpayer, hholds⟩ := h.paid m hrunning
      refine ⟨ref, payer, (hof m (h.running_started m hrunning)).trans href, ?_, hholds⟩
      obtain ⟨call', hcall', -⟩ := id hrunning
      rw [← hpayer, Session.intendedPayer, Session.intendedPayer,
        calls_modify hmn, hcall', Option.bind_some, Option.bind_some]
      cases hroot : call'.context with
      | none => exact hof m (h.running_started m hrunning)
      | some root => exact hof root (h.root_started m call' root hcall' hroot)
  · by_cases hmn : m = n
    · subst hmn
      rw [calls_modify_self hcall] at hcall'
      injection hcall' with hcall'
      subst hcall'
      rw [hcontext] at hroot
      obtain ⟨caller, payer, hcaller', hpayer, hholds⟩ :=
        h.pending m call root hcall hroot (hpending hpend)
      exact ⟨caller, payer, hcaller.trans hcaller',
        (hof root (h.root_started m call root hcall hroot)).trans hpayer, hholds⟩
    · rw [calls_modify hmn] at hcall'
      obtain ⟨caller, payer, hcaller', hpayer, hholds⟩ :=
        h.pending m call' root hcall' hroot hpend
      exact ⟨caller, payer, hcaller',
        (hof root (h.root_started m call' root hcall' hroot)).trans hpayer, hholds⟩

/-- A call that does not run does not show on the stack. -/
theorem stack_modify (hnot : call.stage ≠ .running)
    (hstage : (f call).stage ≠ .running) :
    (session.modifyCall n f).stack = session.stack := by
  have hrunning : ∀ m,
      (session.modifyCall n f).IsRunning m ↔
        session.IsRunning m := by
    intro m
    by_cases hmn : m = n
    · subst hmn
      rw [isRunning_modify_self hcall, iff_false_left hstage]
      rintro ⟨call', hcall', hrun⟩
      rw [hcall] at hcall'
      injection hcall' with hcall'
      exact hnot (hcall' ▸ hrun)
    · exact isRunning_modify hmn
  unfold Session.stack Session.running
  rw [List.filter_congr fun m _ => decide_eq_decide.mpr (hrunning m)]
  refine List.map_congr_left fun m hm => contractOf_modify hcall fun hmn => ?_
  obtain ⟨call', hcall', hrun⟩ := of_decide_eq_true (List.mem_filter.mp hm).2
  rw [hmn, hcall] at hcall'
  injection hcall' with hcall'
  exact absurd (hcall' ▸ hrun) hnot

/-- When the code that was started last stops, its contract leaves the stack. -/
theorem stack_stop (h : InOrder heap session) (hhead : session.running.head? = some n)
    (hstage : (f call).stage ≠ .running) (hcontract : (f call).contract = call.contract) :
    session.stack = session.contractOf n ::
      (session.modifyCall n f).stack := by
  obtain ⟨rest, hrest⟩ := List.head?_eq_some_iff.mp hhead
  have hnodup : (n :: rest).Nodup := hrest ▸ h.started_nodup.filter _
  have hrunning' :
      (session.modifyCall n f).running = rest := by
    have hfilter : (session.modifyCall n f).running =
        session.running.filter (· ≠ n) := by
      unfold Session.running
      rw [List.filter_filter]
      refine List.filter_congr fun m _ => ?_
      by_cases hmn : m = n
      · subst hmn
        simp [isRunning_modify_self hcall, hstage]
      · simp [isRunning_modify hmn, hmn]
    rw [hfilter, hrest, List.filter_cons_of_neg (by simp)]
    exact List.filter_eq_self.mpr fun m hm => decide_eq_true fun hmn =>
      (List.nodup_cons.mp hnodup).1 (hmn ▸ hm)
  unfold Session.stack
  rw [hrunning', hrest, List.map_cons]
  congr 1
  exact (List.map_congr_left fun m _ => (contractOf_modify hcall fun _ => hcontract).symm)

/-- The code of a call starts. Its contract, or the one that it is to pay from, is held by
the one that has to pay. -/
theorem start (h : InOrder heap session) (hnot : ¬ call.stage.IsEntered) {ref payer : Ref}
    (href : call.contract = some ref) (hpayer : session.intendedPayer n = some payer)
    (hholds : heap.Holds ref payer) :
    InOrder heap (session.startCall n) := by
  have hfresh : n ∉ session.started := fun hn => hnot (h.isEntered hcall hn)
  have hof : ∀ m, (session.modifyCall n fun call => { call with stage := .running }).contractOf m =
      session.contractOf m := fun m => contractOf_modify hcall fun _ => rfl
  have hintended : ∀ m,
      (session.modifyCall n fun call => { call with stage := .running }).intendedPayer m =
        session.intendedPayer m := by
    intro m
    by_cases hmn : m = n
    · subst hmn
      rw [Session.intendedPayer, Session.intendedPayer, calls_modify_self hcall, hcall]
      exact hof _
    · rw [Session.intendedPayer, Session.intendedPayer, calls_modify hmn]
      exact congrArg _ (funext fun call => hof _)
  refine ⟨List.nodup_cons.mpr ⟨hfresh, h.started_nodup⟩, fun m hm => ?_, fun m hm => ?_,
    fun m call' root hcall' hroot => ?_, fun m hm => ?_, fun m call' root hcall' hroot hpend => ?_⟩
  · by_cases hmn : m = n
    · subst hmn
      exact ⟨_, calls_modify_self hcall, trivial⟩
    · obtain ⟨call', hcall', hstage'⟩ :=
        h.started_entered m ((List.mem_cons.mp hm).resolve_left hmn)
      exact ⟨call', (calls_modify hmn).trans hcall', hstage'⟩
  · by_cases hmn : m = n
    · exact List.mem_cons.mpr (.inl hmn)
    · exact List.mem_cons_of_mem n (h.running_started m ((isRunning_modify hmn).mp hm))
  · by_cases hmn : m = n
    · subst hmn
      have hsame := (calls_modify_self hcall).symm.trans hcall'
      injection hsame with hsame
      subst hsame
      exact List.mem_cons_of_mem _ (h.root_started m call root hcall hroot)
    · exact List.mem_cons_of_mem n
        (h.root_started m call' root ((calls_modify hmn).symm.trans hcall') hroot)
  · by_cases hmn : m = n
    · subst hmn
      refine ⟨ref, payer, (hof m).trans ?_, (hintended m).trans hpayer, hholds⟩
      rw [Session.contractOf, hcall]
      exact href
    · obtain ⟨ref', payer', href', hpayer', hholds'⟩ := h.paid m ((isRunning_modify hmn).mp hm)
      exact ⟨ref', payer', (hof m).trans href', (hintended m).trans hpayer', hholds'⟩
  · by_cases hmn : m = n
    · subst hmn
      have hsame := (calls_modify_self hcall).symm.trans hcall'
      injection hsame with hsame
      subst hsame
      exact absurd hpend id
    · obtain ⟨caller, payer', hcaller, hpayer', hholds'⟩ :=
        h.pending m call' root ((calls_modify hmn).symm.trans hcall') hroot hpend
      exact ⟨caller, payer', hcaller, (hof root).trans hpayer', hholds'⟩

/-- The contract of code that starts comes on top of the stack. -/
theorem stack_start (h : InOrder heap session) (hnot : ¬ call.stage.IsEntered) {ref : Ref}
    (href : call.contract = some ref) :
    (session.startCall n).stack = some ref :: session.stack := by
  have hfresh : n ∉ session.started := fun hn => hnot (h.isEntered hcall hn)
  have hself : (session.startCall n).IsRunning n :=
    (isRunning_modify_self (f := fun call => { call with stage := .running }) hcall).mpr rfl
  have hother : ∀ m ∈ session.started,
      ((session.startCall n).IsRunning m ↔ session.IsRunning m) :=
    fun m hm => isRunning_modify fun hmn => hfresh (hmn ▸ hm)
  have hrunning : (session.startCall n).running = n :: session.running := by
    unfold Session.running
    change List.filter _ (n :: session.started) = _
    rw [List.filter_cons, if_pos (decide_eq_true hself)]
    exact congrArg _ (List.filter_congr fun m hm => decide_eq_decide.mpr (hother m hm))
  unfold Session.stack
  rw [hrunning, List.map_cons]
  congr 1
  · exact (contractOf_modify_self hcall).trans href
  · exact List.map_congr_left fun m _ => contractOf_modify hcall fun _ => rfl

end Modify

/-- A call is requested. -/
theorem append (h : InOrder heap session) {call : Call} (hstage : call.stage = .loading)
    (hroot : ∀ root, call.context = some root → root ∈ session.started ∧
      ∃ caller payer, call.caller = some caller ∧ session.contractOf root = some payer ∧
        heap.Holds caller payer) :
    InOrder heap { session with calls := session.calls ++ [call] } ∧
      Session.stack { session with calls := session.calls ++ [call] } = session.stack := by
  let session' := { session with calls := session.calls ++ [call] }
  have hold : ∀ m ∈ session.started, session'.calls[m]? = session.calls[m]? := by
    intro m hm
    obtain ⟨call', hcall', -⟩ := h.started_entered m hm
    exact List.getElem?_append_left (List.getElem?_eq_some_iff.mp hcall').1
  have hcases : ∀ (m : Nat) (call' : Call), session'.calls[m]? = some call' →
      session.calls[m]? = some call' ∨ call' = call := by
    intro m call' hcall'
    rw [List.getElem?_append] at hcall'
    split at hcall'
    next => exact .inl hcall'
    next => exact .inr (List.mem_singleton.mp (List.mem_of_getElem? hcall'))
  have hrunning : ∀ m, session'.IsRunning m ↔ session.IsRunning m := by
    refine fun m => ⟨fun ⟨call', hcall', hrun⟩ => ?_, fun hrun => ?_⟩
    · rcases hcases m call' hcall' with hcall' | rfl
      · exact ⟨call', hcall', hrun⟩
      · rw [hstage] at hrun
        cases hrun
    · obtain ⟨call', hcall', hrun'⟩ := id hrun
      exact ⟨call', (hold m (h.running_started m hrun)).trans hcall', hrun'⟩
  have hof : ∀ m ∈ session.started, session'.contractOf m = session.contractOf m := by
    intro m hm
    rw [Session.contractOf, Session.contractOf, hold m hm]
  refine ⟨⟨h.started_nodup, fun m hm => ?_, fun m hm => h.running_started m ((hrunning m).mp hm),
    fun m call' root hcall' hroot' => ?_, fun m hm => ?_,
    fun m call' root hcall' hroot' hpending => ?_⟩, ?_⟩
  · rw [hold m hm]
    exact h.started_entered m hm
  · rcases hcases m call' hcall' with hcall' | rfl
    · exact h.root_started m call' root hcall' hroot'
    · exact (hroot root hroot').1
  · have hrun := (hrunning m).mp hm
    obtain ⟨ref, payer, href, hpayer, hholds⟩ := h.paid m hrun
    refine ⟨ref, payer, (hof m (h.running_started m hrun)).trans href, ?_, hholds⟩
    obtain ⟨call', hcall', -⟩ := id hrun
    rw [Session.intendedPayer, hcall', Option.bind_some] at hpayer
    rw [Session.intendedPayer, hold m (h.running_started m hrun), hcall', Option.bind_some,
      ← hpayer]
    cases hroot' : call'.context with
    | none => exact hof m (h.running_started m hrun)
    | some root => exact hof root (h.root_started m call' root hcall' hroot')
  · rcases hcases m call' hcall' with hcall' | rfl
    · obtain ⟨caller, payer, hcaller, hpayer, hholds⟩ :=
        h.pending m call' root hcall' hroot' hpending
      exact ⟨caller, payer, hcaller,
        (hof root (h.root_started m call' root hcall' hroot')).trans hpayer, hholds⟩
    · obtain ⟨hstarted, caller, payer, hcaller, hpayer, hholds⟩ := hroot root hroot'
      exact ⟨caller, payer, hcaller, (hof root hstarted).trans hpayer, hholds⟩
  · unfold Session.stack Session.running
    rw [List.filter_congr fun m _ => decide_eq_decide.mpr (hrunning m)]
    exact List.map_congr_left fun m hm => hof m (List.mem_filter.mp hm).1

end InOrder

end CilCore
