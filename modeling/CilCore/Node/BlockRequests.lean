import CilCore.Factory
import CilCore.Lib.FinMap
import CilCore.Lib.Runs

/-!
# Requests for blocks and transactions

A node hears of blocks and transactions in inventories, and asks for those that it does not
know. `node/requestsCache.js` remembers for a while what was asked for. The handler of an
inventory waits for the storage between the moment where it looks into the cache and the moment
where it asks, and other parts of the node may ask in between.
-/

namespace CilCore

def INV_REQUEST_HOLDOFF : Nat := 1 * 60 * 1000

/-- The hashes that were asked for, and till when they are awaited. -/
structure RequestCache where
  mapRequests : FinMap Hash Nat := ∅

namespace RequestCache

variable (cache : RequestCache) (now : Nat) (hash : Hash)

def isRequested : Bool := (cache.mapRequests.lookup hash).any fun awaitTill => now < awaitTill

/-- `request`, and whether the hash should be asked for. -/
def request : RequestCache × Bool :=
  if cache.isRequested now hash then (cache, false)
  else (⟨cache.mapRequests.insert hash (now + INV_REQUEST_HOLDOFF)⟩, true)

def done : RequestCache := ⟨cache.mapRequests.erase hash⟩

/-- `_purgeOutdated`. -/
def purgeOutdated : RequestCache :=
  ⟨FinMap.tabulate cache.mapRequests.keys fun hash =>
    (cache.mapRequests.lookup hash).filter fun awaitTill => awaitTill ≠ 0 && now ≤ awaitTill⟩

/-- `isEmpty`, and the cache that it leaves. -/
def isEmpty : RequestCache × Bool :=
  (cache.purgeOutdated now, (cache.purgeOutdated now).mapRequests.keys = ∅)

end RequestCache

inductive InvType where
  | INV_TX
  | INV_BLOCK
  | unknown
deriving DecidableEq

structure InvVector where
  type : InvType
  hash : Hash
deriving DecidableEq

/-- The vector of an `Inventory`, and the hashes that were marked as added. -/
structure Inventory where
  vector : List InvVector := []
  setHashes : List Hash := []

/-- `addVector` does not mark what it adds. -/
def Inventory.addVector (inventory : Inventory) (vector : InvVector) : Inventory :=
  { inventory with vector := inventory.vector ++ [vector] }

def Inventory.addBlockHash (inventory : Inventory) (hash : Hash) : Inventory :=
  if hash ∈ inventory.setHashes then inventory
  else ⟨inventory.vector ++ [⟨.INV_BLOCK, hash⟩], inventory.setHashes ++ [hash]⟩

namespace BlockRequests

/-- A run of `_handleInvMessage`, which holds the mutex `inventory`. -/
structure InvTask where
  rest : List InvVector
  /-- What the storage is asked about. -/
  current : Option InvVector := none
  invToRequest : Inventory := {}
  nBlockToRequest : Nat := 0

/-- What happened to a hash. -/
inductive Entry where
  /-- It was announced, and had not been asked for. -/
  | checked (hash : Hash)
  /-- It was added to a `MsgGetData`, in answer to an announcement or not. The cache said that
  it should be asked for, or that it was already. -/
  | asked (hash : Hash) (time : Nat) (fresh announced : Bool)
  /-- It came in a message, and was not unrequested. -/
  | accepted (hash : Hash) (time : Nat)
  /-- The block with this hash was stored. -/
  | done (hash : Hash)
deriving DecidableEq

/-- The cache, the handler that holds the mutex, and what happened so far, the last first. -/
structure State where
  cache : RequestCache := {}
  inventory : Option InvTask := none
  log : List Entry := []
  clock : Nat := 0

inductive Action where
  /-- `_handleInvMessage` gets the mutex. -/
  | handleInv (vector : List InvVector)
  /-- It looks at the next element. The mempool has it, or the block is banned, or it is of
  another type; or it has to be looked for. Without any elements it releases the mutex. -/
  | look (skip : Bool)
  /-- The storage has answered. -/
  | looked (known : Bool)
  /-- `_createGetDataMsg`. -/
  | createGetDataMsg (arrBlockHashes : List Hash)
  /-- `_handleBlockMessage` or `_handleTxMessage`. -/
  | message (hash : Hash)
  /-- `_handleArrivedBlock` stores a block, for which it waits for the mutex. -/
  | store (hash : Hash)
  | isEmpty

structure Event where
  now : Nat
  action : Action

namespace State

/-- Add a hash to a message. -/
def ask (s : State) (now : Nat) (announced : Bool) (hash : Hash) : State :=
  { s with
    cache := (s.cache.request now hash).1
    log := .asked hash now (s.cache.request now hash).2 announced :: s.log }

/-- The loop of `_createGetDataMsg`. -/
def createGetDataMsg (s : State) (now : Nat) (arrBlockHashes : List Hash) : State :=
  arrBlockHashes.foldl (fun s hash => if s.cache.isRequested now hash then s else s.ask now false hash) s

/-- The handler of an inventory takes the next element, before it waits. -/
def look (s : State) (now : Nat) (skip : Bool) (task : InvTask) : State :=
  match task.rest with
  | [] => { s with inventory := none }
  | vector :: rest =>
      if s.cache.isRequested now vector.hash || skip then
        { s with inventory := some { task with rest } }
      else
        { s with
          inventory := some { task with rest, current := some vector }
          log := .checked vector.hash :: s.log }

/-- It goes on after it waited. What `request` returns is not looked at. -/
def looked (s : State) (now : Nat) (known : Bool) (task : InvTask) (vector : InvVector) : State :=
  if known then { s with inventory := some { task with current := none } }
  else
    { s.ask now true vector.hash with
      inventory := some
        { task with
          current := none
          invToRequest := task.invToRequest.addVector vector
          nBlockToRequest :=
            if vector.type = .INV_BLOCK then task.nBlockToRequest + 1 else task.nBlockToRequest } }

def act (s : State) (now : Nat) : Action → State
  | .handleInv vector => if s.inventory.isNone then { s with inventory := some { rest := vector } } else s
  | .look skip =>
      match s.inventory with
      | some task => if task.current.isNone then s.look now skip task else s
      | none => s
  | .looked known =>
      match s.inventory with
      | some task =>
          match task.current with
          | some vector => s.looked now known task vector
          | none => s
      | none => s
  | .createGetDataMsg arrBlockHashes => s.createGetDataMsg now arrBlockHashes
  | .message hash =>
      if s.cache.isRequested now hash then { s with log := .accepted hash now :: s.log } else s
  | .store hash =>
      if s.inventory.isNone then
        { s with cache := s.cache.done hash, log := .done hash :: s.log }
      else s
  | .isEmpty => { s with cache := (s.cache.isEmpty now).1 }

def step (s : State) (event : Event) : State :=
  { s.act event.now event.action with clock := event.now }

/-- Time does not run backwards. -/
def Timely (s : State) (event : Event) : Prop := s.clock ≤ event.now

instance (s : State) (event : Event) : Decidable (s.Timely event) :=
  inferInstanceAs (Decidable (s.clock ≤ event.now))

end State

/-! ### What a log says -/

/-- Since when a hash is awaited. -/
def pendingSince (hash : Hash) : List Entry → Option Nat
  | [] => none
  | .asked other time true _ :: before => if other = hash then some time else pendingSince hash before
  | .done other :: before => if other = hash then none else pendingSince hash before
  | _ :: before => pendingSince hash before

/-- A hash was asked for not long ago, and has not arrived. -/
def isPending (log : List Entry) (now : Nat) (hash : Hash) : Bool :=
  (pendingSince hash log).any fun time => now < time + INV_REQUEST_HOLDOFF

/-- Neither a step of the handler of an inventory nor a block that was stored. -/
def Entry.IsAside : Entry → Prop
  | .checked _ | .asked _ _ _ true | .done _ => False
  | _ => True

/-- Why something could happen. -/
def Entry.JustifiedBy : Entry → List Entry → Prop
  | .asked hash time true _, before => isPending before time hash = false
  | .asked hash time false announced, before =>
      announced = true ∧ ∃ since earlier older first,
        before = since ++ .asked hash first true false :: (earlier ++ .checked hash :: older) ∧
          time < first + INV_REQUEST_HOLDOFF ∧
          (∀ entry ∈ since ++ earlier, entry.IsAside)
  | .accepted hash time, before => isPending before time hash = true
  | .checked _, _ | .done _, _ => True

section Log

variable {hash : Hash} {now time first : Nat} {entry : Entry} {log since before older : List Entry}

/-- An entry that says nothing about a hash. -/
theorem pendingSince_cons_of_aside (h : entry.IsAside)
    (hfresh : ∀ time, entry ≠ .asked hash time true false) :
    pendingSince hash (entry :: before) = pendingSince hash before := by
  cases entry with
  | checked _ | done _ => cases h
  | accepted _ _ => rfl
  | asked other time fresh announced =>
      cases announced with
      | true => cases fresh <;> cases h
      | false =>
          cases fresh with
          | false => rfl
          | true =>
              refine if_neg fun heq => hfresh time ?_
              rw [heq]

/-- Whatever else happens, a hash is awaited since it was asked for. -/
theorem pendingSince_append (hsince : ∀ entry ∈ since, entry.IsAside)
    (h : pendingSince hash (since ++ before) = some first) :
    pendingSince hash before = some first ∨
      ∃ later earlier, since = later ++ .asked hash first true false :: earlier := by
  induction since with
  | nil => exact .inl h
  | cons entry since ih =>
      obtain ⟨haside, hrest⟩ := List.forall_mem_cons.mp hsince
      by_cases hfresh : ∃ time, entry = .asked hash time true false
      · obtain ⟨time, rfl⟩ := hfresh
        rw [List.cons_append, pendingSince, if_pos rfl, Option.some.injEq] at h
        subst h
        exact .inr ⟨[], since, rfl⟩
      · rw [List.cons_append, pendingSince_cons_of_aside haside (not_exists.mp hfresh)] at h
        obtain hbefore | ⟨later, earlier, rfl⟩ := ih hrest h
        · exact .inl hbefore
        · exact .inr ⟨entry :: later, earlier, rfl⟩

/-- Everything that happened could happen. -/
def Justified (log : List Entry) : Prop :=
  ∀ later entry before, log = later ++ entry :: before → entry.JustifiedBy before

theorem Justified.cons (h : Justified log) (hentry : entry.JustifiedBy log) :
    Justified (entry :: log) := by
  intro later other before heq
  obtain ⟨rfl, hcons⟩ | ⟨rest, rfl, rfl⟩ := List.cons_eq_append_iff.mp heq
  · obtain ⟨rfl, rfl⟩ := List.cons.inj hcons
    exact hentry
  · exact h rest other before rfl

/-- A hash was not pending when it was checked, and no other announcement was handled since. -/
def CheckedBefore (log : List Entry) (now : Nat) (hash : Hash) : Prop :=
  ∃ since older time, log = since ++ .checked hash :: older ∧ time ≤ now ∧
    isPending older time hash = false ∧ ∀ entry ∈ since, entry.IsAside

theorem CheckedBefore.cons (h : CheckedBefore log now hash) (hentry : entry.IsAside) :
    CheckedBefore (entry :: log) now hash := by
  obtain ⟨since, older, time, rfl, htime, hpending, hsince⟩ := h
  exact ⟨entry :: since, older, time, rfl, htime, hpending,
    List.forall_mem_cons.mpr ⟨hentry, hsince⟩⟩

/-- If a hash is pending although it was not when it was checked, it was asked for meanwhile. -/
theorem CheckedBefore.raced (h : CheckedBefore log now hash) (hpending : isPending log now hash = true) :
    (Entry.asked hash now false true).JustifiedBy log := by
  obtain ⟨since, older, time, rfl, htime, hnot, hsince⟩ := h
  rw [isPending, Option.any_eq_true] at hpending
  obtain ⟨first, hfirst, hlt⟩ := hpending
  have hlt := of_decide_eq_true hlt
  obtain holder | ⟨later, earlier, rfl⟩ := pendingSince_append hsince hfirst
  · have holder : pendingSince hash older = some first := holder
    rw [isPending, holder, Option.any_some, decide_eq_false_iff_not] at hnot
    omega
  · refine ⟨rfl, later, earlier, older, first, by simp, hlt, fun entry hentry => hsince entry ?_⟩
    rw [List.mem_append] at hentry ⊢
    exact hentry.imp_right (List.mem_cons_of_mem _)

end Log

/-! ### What the node knows -/

/-- The cache tells what the log says, from a moment on. -/
structure Sound (now : Nat) (s : State) : Prop where
  requested : ∀ time, now ≤ time → ∀ hash,
    s.cache.isRequested time hash = isPending s.log time hash
  current : ∀ task vector, s.inventory = some task → task.current = some vector →
    CheckedBefore s.log now vector.hash
  justified : Justified s.log

section Sound

variable {s : State} {now : Nat} {hash : Hash} {announced : Bool}

theorem Sound.mono {now' : Nat} (h : Sound now s) (hle : now ≤ now') : Sound now' s where
  requested time htime := h.requested time (hle.trans htime)
  current task vector htask hcurrent := by
    obtain ⟨since, older, time, hlog, htime, hrest⟩ := h.current task vector htask hcurrent
    exact ⟨since, older, time, hlog, htime.trans hle, hrest⟩
  justified := h.justified

/-- The cache after a hash was asked for. -/
theorem requested_ask (h : Sound now s) (time : Nat) (htime : now ≤ time) (other : Hash) :
    (s.ask now announced hash).cache.isRequested time other =
      isPending (s.ask now announced hash).log time other := by
  rw [State.ask, RequestCache.request]
  split
  next hrequested => exact h.requested time htime other
  next hrequested =>
    rw [isPending, pendingSince, RequestCache.isRequested, FinMap.lookup_insert_ite]
    by_cases heq : hash = other
    · rw [if_pos heq, if_pos heq.symm, Option.any_some, Option.any_some]
    · rw [if_neg heq, if_neg (Ne.symm heq)]
      exact h.requested time htime other

theorem Sound.justified_ask (h : Sound now s)
    (hdouble : s.cache.isRequested now hash = true →
      (Entry.asked hash now false announced).JustifiedBy s.log) :
    Justified (s.ask now announced hash).log := by
  refine h.justified.cons ?_
  rw [RequestCache.request]
  split
  next hrequested => exact hdouble hrequested
  next hrequested =>
    exact (h.requested now le_rfl hash).symm.trans (by simpa using hrequested)

/-- `_createGetDataMsg` asks for what is not pending. -/
theorem Sound.createGetDataMsg (h : Sound now s) (arrBlockHashes : List Hash) :
    Sound now (s.createGetDataMsg now arrBlockHashes) := by
  induction arrBlockHashes generalizing s with
  | nil => exact h
  | cons hash rest ih =>
      rw [State.createGetDataMsg, List.foldl_cons]
      refine ih ?_
      split
      next => exact h
      next hrequested =>
        refine ⟨requested_ask h, fun task vector htask hcurrent => ?_, ?_⟩
        · refine (h.current task vector htask hcurrent).cons ?_
          rw [RequestCache.request, if_neg hrequested]
          trivial
        · exact h.justified_ask fun hagain => absurd hagain hrequested

theorem Sound.look (h : Sound now s) (skip : Bool) {task : InvTask}
    (hcurrent : task.current = none) : Sound now (s.look now skip task) := by
  rw [State.look]
  split
  next => exact ⟨h.requested, fun _ _ htask => (by cases htask), h.justified⟩
  next vector rest _ =>
    split
    next =>
      refine ⟨h.requested, fun task' vector' htask hvector => ?_, h.justified⟩
      cases htask
      cases hcurrent.symm.trans hvector
    next hnot =>
      rw [Bool.or_eq_true, not_or, Bool.not_eq_true] at hnot
      refine ⟨h.requested, fun task' vector' htask hvector => ?_, h.justified.cons trivial⟩
      cases htask
      cases hvector
      exact ⟨[], s.log, now, rfl, le_rfl, (h.requested now le_rfl _).symm.trans hnot.1,
        List.forall_mem_nil _⟩

theorem Sound.looked (h : Sound now s) (known : Bool) {task : InvTask} {vector : InvVector}
    (htask : s.inventory = some task) (hcurrent : task.current = some vector) :
    Sound now (s.looked now known task vector) := by
  rw [State.looked]
  split
  next =>
    refine ⟨h.requested, fun task' vector' htask' hvector => ?_, h.justified⟩
    cases htask'
    cases hvector
  next =>
    refine ⟨requested_ask h, fun task' vector' htask' hvector => ?_, h.justified_ask fun hrequested => ?_⟩
    · cases htask'
      cases hvector
    · exact (h.current task vector htask hcurrent).raced
        ((h.requested now le_rfl _).symm.trans hrequested)

theorem isRequested_purgeOutdated (cache : RequestCache) {time : Nat} (h : now ≤ time) (hash : Hash) :
    (cache.purgeOutdated now).isRequested time hash = cache.isRequested time hash := by
  rw [RequestCache.isRequested, RequestCache.isRequested, RequestCache.purgeOutdated,
    FinMap.lookup_tabulate]
  cases hlookup : cache.mapRequests.lookup hash with
  | none => simp
  | some awaitTill =>
      rw [if_pos (FinMap.mem_keys_of_lookup hlookup), Option.any_some, Bool.eq_iff_iff,
        Option.any_eq_true]
      constructor
      · rintro ⟨kept, hkept, hlt⟩
        obtain ⟨heq, -⟩ := Option.filter_eq_some_iff.mp hkept
        cases heq
        exact hlt
      · intro hlt
        refine ⟨awaitTill, Option.filter_eq_some_iff.mpr ⟨rfl, ?_⟩, hlt⟩
        have hlt := of_decide_eq_true hlt
        simp only [Bool.and_eq_true, decide_eq_true_eq]
        omega

theorem Sound.act (h : Sound now s) (action : Action) : Sound now (s.act now action) := by
  cases action with
  | handleInv vector =>
      rw [State.act]
      split
      next =>
        refine ⟨h.requested, fun task vector' htask hvector => ?_, h.justified⟩
        cases htask
        cases hvector
      next => exact h
  | look skip =>
      rw [State.act]
      split
      next task _ =>
        split
        next hcurrent => exact h.look skip (Option.isNone_iff_eq_none.mp hcurrent)
        next => exact h
      next => exact h
  | looked known =>
      rw [State.act]
      split
      next task htask =>
        split
        next vector hcurrent => exact h.looked known htask hcurrent
        next => exact h
      next => exact h
  | createGetDataMsg arrBlockHashes => exact h.createGetDataMsg arrBlockHashes
  | message hash =>
      rw [State.act]
      split
      next hrequested =>
        refine ⟨h.requested, fun task vector htask hcurrent => ?_, h.justified.cons ?_⟩
        · exact (h.current task vector htask hcurrent).cons trivial
        · exact (h.requested now le_rfl hash).symm.trans hrequested
      next => exact h
  | store hash =>
      rw [State.act]
      split
      next hnone =>
        refine ⟨fun time htime other => ?_, fun task vector htask => ?_, h.justified.cons trivial⟩
        · rw [isPending, pendingSince, RequestCache.isRequested, RequestCache.done,
            FinMap.lookup_erase_ite]
          by_cases heq : hash = other
          · rw [if_pos heq, if_pos heq.symm]
            rfl
          · rw [if_neg heq, if_neg (Ne.symm heq)]
            exact h.requested time htime other
        · rw [htask] at hnone
          cases hnone
      next => exact h
  | isEmpty =>
      refine ⟨fun time htime hash => ?_, h.current, h.justified⟩
      exact (isRequested_purgeOutdated s.cache htime hash).trans (h.requested time htime hash)

theorem Sound.step {event : Event} (h : Sound s.clock s) (hclock : s.Timely event) :
    Sound (s.step event).clock (s.step event) :=
  have hnow := (h.mono hclock).act event.action
  ⟨hnow.requested, hnow.current, hnow.justified⟩

theorem sound_start : Sound 0 {} where
  requested _ _ _ := rfl
  current _ _ h := by cases h
  justified later entry before h := by cases later <;> cases h

end Sound

/-- **What a node asks for.** Inventories, other requests, messages and blocks that are stored
may come in any order, also while the handler of an inventory waits. A hash that the cache lets
through is not awaited since less than the hold-off. A hash that is asked for again meanwhile was
announced, and asked for by another part of the node between the moment when the handler looked
into the cache and the moment when it asked. And whatever is accepted from a peer is awaited. -/
theorem requests_run (events : List Event) (hclock : Runs.EveryStep State.step State.Timely {} events) :
    let log := (Runs.after State.step {} events).log
    (∀ later hash time announced before, log = later ++ .asked hash time true announced :: before →
      isPending before time hash = false) ∧
    (∀ later hash time announced before, log = later ++ .asked hash time false announced :: before →
      announced = true ∧ ∃ since earlier older first,
        before = since ++ .asked hash first true false :: (earlier ++ .checked hash :: older) ∧
          time < first + INV_REQUEST_HOLDOFF ∧ ∀ entry ∈ since ++ earlier, entry.IsAside) ∧
    (∀ later hash time before, log = later ++ .accepted hash time :: before →
      isPending before time hash = true) := by
  intro log
  have hsound : Sound (Runs.after State.step {} events).clock (Runs.after State.step {} events) :=
    Runs.EveryStep.invariant (I := fun s : State => Sound s.clock s)
      (fun _ _ h hclock => h.step hclock) hclock sound_start
  exact ⟨fun later _ _ _ before heq => hsound.justified later _ before heq,
    fun later _ _ _ before heq => hsound.justified later _ before heq,
    fun later _ _ before heq => hsound.justified later _ before heq⟩

/-- A block is announced, and requested as a missing parent while the storage looks for it. -/
def racedRequests : List Event :=
  [⟨10, .handleInv [⟨.INV_BLOCK, 7⟩]⟩, ⟨10, .look false⟩, ⟨11, .createGetDataMsg [7]⟩,
    ⟨12, .looked false⟩, ⟨12, .look false⟩, ⟨20, .message 7⟩, ⟨21, .store 7⟩]

/-- It is asked for twice, and the first answer is accepted. -/
theorem requests_run_raced :
    (∃ since earlier older first, [Entry.asked 7 11 true false, .checked 7] =
      since ++ .asked 7 first true false :: (earlier ++ .checked 7 :: older) ∧
        12 < first + INV_REQUEST_HOLDOFF ∧ ∀ entry ∈ since ++ earlier, entry.IsAside) ∧
    isPending [.asked 7 12 false true, .asked 7 11 true false, .checked 7] 20 7 = true :=
  have h := requests_run racedRequests (by decide)
  ⟨(h.2.1 [.done 7, .accepted 7 20] 7 12 true _ (by decide +kernel)).2,
    h.2.2 [.done 7] 7 20 _ (by decide +kernel)⟩

end BlockRequests

end CilCore
