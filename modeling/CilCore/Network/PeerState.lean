import CilCore.Lib.Runs
import CilCore.Network.PeerManager

/-!
# The state of a peer

`network/peer.js` decides when a peer is connected, penalised, banned and listened to. Here
one peer lives through any sequence of messages, timers, connection attempts and closings. The
functions take the time at which they run.
-/

namespace CilCore

def BAN_PEER_SCORE : Nat := 100

def BAN_PEER_TIME : Nat := 24 * 60 * 60 * 1000

def PEER_CONNECTION_LIFETIME : Nat := 60 * 60 * 1000

def PEER_DEAD_TIME : Nat := 6 * 60 * 1000

def PEER_MAX_BYTES_COUNT : Nat := 10 * 1024 * 1024

/-- A peer without its address. The tag `fullyConnected` is set with `handshakeDone`. -/
structure PeerState where
  bannedTill : Nat
  restrictedTill : Nat
  misbehavedAt : Nat
  misbehaveScore : Nat := 0
  lifetimeMisbehaveScore : Nat := 0
  failedConnectionsCount : Nat := 0
  persistent : Bool := false
  whitelisted : Bool := false
  /-- Whether there is a `_connection`. -/
  connection : Bool := false
  /-- Calls of `connect` that wait for the transport. -/
  connecting : Nat := 0
  bInbound : Bool := false
  handshakeDone : Bool := false
  version : Option Nat := none
  loadDone : Bool := false
  transmittedBytes : Nat := 0
  receivedBytes : Nat := 0
  randomMsecDelta : Nat := 0
  connectedTill : Nat := 0
  lastActionTimestamp : Option Nat := none

namespace PeerState

/-! ### The functions of a peer -/

/-- The constructor, for a peer that is known by its address. -/
def known (randomMsecDelta now : Nat) : PeerState where
  bannedTill := now
  restrictedTill := now
  misbehavedAt := now
  randomMsecDelta := randomMsecDelta

/-- The constructor, for an incoming connection. -/
def incoming (randomMsecDelta now : Nat) : PeerState :=
  { known randomMsecDelta now with
    connection := true
    bInbound := true
    connectedTill := now + PEER_CONNECTION_LIFETIME + randomMsecDelta }

variable (p : PeerState)

def disconnected : Bool := !p.connection

def fullyConnected : Bool := !p.disconnected && p.handshakeDone

/-- The setter of `fullyConnected`. -/
def setFullyConnected : PeerState := { p with handshakeDone := true }

def amountBytes : Nat := p.transmittedBytes + p.receivedBytes

def isRestricted (now : Nat) : Bool := !p.persistent && now < p.restrictedTill

def isBanned (now : Nat) : Bool := now < p.bannedTill

def isDead : Bool := PEER_FAILED_CONNECTIONS_LIMIT < p.failedConnectionsCount

/-- `_cleanup`. -/
def cleanup : PeerState :=
  { p with
    connection := false, handshakeDone := false, version := none, transmittedBytes := 0,
    receivedBytes := 0, bInbound := false, loadDone := false }

/-- `disconnect` of a peer that is connected. -/
def disconnect (now : Nat) : PeerState :=
  { p.cleanup with restrictedTill := now + PEER_RESTRICT_TIME + p.randomMsecDelta }

/-- `_updateMisbehave`. -/
def updateMisbehave (score : Nat) : PeerState :=
  { p with
    lifetimeMisbehaveScore := p.lifetimeMisbehaveScore + score
    misbehaveScore := p.misbehaveScore + score }

/-- What `ban` does to the counters. -/
def markBanned (now : Nat) : PeerState :=
  { p.updateMisbehave BAN_PEER_SCORE with bannedTill := now + BAN_PEER_TIME }

def ban (now : Nat) : PeerState :=
  if p.whitelisted then p
  else if p.connection then (p.markBanned now).disconnect now
  else p.markBanned now

/-- Reset the score if the last offence was long ago. -/
def forgive (now : Nat) : PeerState :=
  if BAN_PEER_TIME < now - p.misbehavedAt then { p with misbehaveScore := 0 } else p

/-- Add to the score, and remember when. -/
def blame (now score : Nat) : PeerState :=
  { (p.forgive now).updateMisbehave score with misbehavedAt := now }

def misbehave (now score : Nat) : PeerState :=
  if BAN_PEER_SCORE ≤ (p.blame now score).misbehaveScore then (p.blame now score).ban now
  else p.blame now score

/-- The node disconnects the peer while it handles a message. What `disconnect` throws if there
is no connection is caught as misbehaviour. -/
def disconnectOrBlame (now : Nat) : PeerState :=
  if p.connection then p.disconnect now else p.misbehave now 1

/-- `connect` before it waits for the transport. -/
def connect (now : Nat) : PeerState :=
  if p.isBanned now || p.isRestricted now || p.isDead || p.connection then p
  else { p with transmittedBytes := 0, receivedBytes := 0, connecting := p.connecting + 1 }

/-- `connect` after it waited for the transport. -/
def connected (ok : Bool) (now : Nat) : PeerState :=
  if p.connecting = 0 then p
  else if ok then
    { p with
      connecting := p.connecting - 1
      connection := true
      connectedTill := now + PEER_CONNECTION_LIFETIME }
  else
    { p with
      connecting := p.connecting - 1
      failedConnectionsCount := p.failedConnectionsCount + 1 }

/-- More bytes were exchanged than a peer may exchange that is not persistent. -/
def exceedsBytes : Bool := !p.persistent && PEER_MAX_BYTES_COUNT < p.amountBytes

/-- `_updateReceived`. -/
def updateReceived (bytes : Nat) : PeerState :=
  { p with receivedBytes := p.receivedBytes + bytes }

/-- `_updateTransmitted`. -/
def updateTransmitted (bytes : Nat) : PeerState :=
  { p with transmittedBytes := p.transmittedBytes + bytes }

/-- What `pushMessage` does with a peer when a message was sent. -/
def sent (bytes now : Nat) : PeerState :=
  if (p.updateTransmitted bytes).exceedsBytes && p.connection then
    (p.updateTransmitted bytes).disconnect now
  else p.updateTransmitted bytes

/-- `_tick`, without the ping that it sends. -/
def tick (now : Nat) : PeerState :=
  if p.disconnected then p
  else if !p.persistent && p.connectedTill < now then
    { p.disconnect now with restrictedTill := now + PEER_RESTRICT_TIME }
  else if p.lastActionTimestamp.any fun timestamp => timestamp + PEER_DEAD_TIME < now then
    p.disconnect now
  else p

/-! ### The messages of a peer -/

/-- What the node finds when it looks at a version message. -/
inductive VersionCheck where
  /-- The clocks differ. The peer is rejected, and disconnected a second later. -/
  | timeOffset
  /-- The node is connected to itself, and the peer manager has stored the peer or not. -/
  | self (stored : Bool)
  | incompatible
  | compatible (protocolVersion : Nat)

inductive Message where
  | ping
  | pong
  | reject
  | version (check : VersionCheck)
  | verAck
  /-- A message of a witness. -/
  | signed
  /-- Any other message, which needs a handshake. -/
  | request

/-- `_handleVersionMessage`, up to the moment where the version is known. -/
def handleVersionMessage (now : Nat) : VersionCheck → PeerState
  | .timeOffset => p
  | .self true => (p.disconnectOrBlame now).misbehave now 1
  | .self false | .incompatible => p.disconnectOrBlame now
  | .compatible protocolVersion =>
      if p.version = none then { p with version := some protocolVersion } else p.misbehave now 1

/-- `_handleVerackMessage`. -/
def handleVerackMessage : PeerState := if p.version = none then p else p.setFullyConnected

/-- `_incomingMessage` of the node. -/
def incomingMessage (now : Nat) : Message → PeerState
  | .ping | .pong | .reject | .signed => p
  | .version check => p.handleVersionMessage now check
  | .verAck => p.handleVerackMessage
  | .request => if p.fullyConnected then p else p.misbehave now 1

/-- `_onMessageHandler` remembers when it was called last. -/
def heard (now : Nat) : PeerState := { p with lastActionTimestamp := some now }

/-- What `_onMessageHandler` does with a peer before anyone sees the message. -/
def arrive (now bytes : Nat) : PeerState :=
  if (p.updateReceived bytes).exceedsBytes then ((p.updateReceived bytes).disconnect now).heard now
  else (p.updateReceived bytes).heard now

/-- `_onMessageHandler`. Where the limit is exceeded without a connection, `disconnect`
throws. -/
def onMessageHandler (now bytes : Nat) (msg : Message) : PeerState :=
  if p.disconnected && (p.updateReceived bytes).exceedsBytes then p.updateReceived bytes
  else (p.arrive now bytes).incomingMessage now msg

/-- What happens to a peer. -/
inductive Action where
  | message (bytes : Nat) (msg : Message)
  | sent (bytes : Nat)
  /-- The node blames the peer for something that it has sent. -/
  | misbehave (score : Nat)
  /-- A witness fails to prove that it is one. -/
  | ban
  | connect
  | connected (ok : Bool)
  /-- The other side closed the connection. -/
  | closed
  /-- The node disconnects the peer, if it is connected. -/
  | disconnect
  | tick
  | markAsPersistent
  | markAsWhitelisted
  | resetFailedConnectionsCount
  | loadDone

def act (now : Nat) : Action → PeerState
  | .message bytes msg => p.onMessageHandler now bytes msg
  | .sent bytes => p.sent bytes now
  | .misbehave score => p.misbehave now score
  | .ban => p.ban now
  | .connect => p.connect now
  | .connected ok => p.connected ok now
  | .closed => p.cleanup
  | .disconnect => if p.connection then p.disconnect now else p
  | .tick => p.tick now
  | .markAsPersistent => { p with persistent := true }
  | .markAsWhitelisted => { p with whitelisted := true }
  | .resetFailedConnectionsCount => { p with failedConnectionsCount := 0 }
  | .loadDone => { p with loadDone := true }

/-! ### What an action takes from a peer -/

/-- The score is only as high as it is because the peer is banned for it. -/
structure Barred (now : Nat) (p : PeerState) : Prop where
  misbehavedAt : p.misbehavedAt ≤ now
  banned : p.whitelisted = false → BAN_PEER_SCORE ≤ p.misbehaveScore →
    p.misbehavedAt + BAN_PEER_TIME ≤ p.bannedTill

/-- The same connection, in the same state, and no new ban. -/
structure SameSession (p p' : PeerState) : Prop where
  connection : p.connection = true
  bannedTill : p'.bannedTill = p.bannedTill
  version : p'.version = p.version
  handshakeDone : p'.handshakeDone = p.handshakeDone
  bInbound : p'.bInbound = p.bInbound

/-- A peer gets nothing: neither a connection nor a part of the handshake, and it is banned only
together with its disconnection. -/
structure Tightens (now : Nat) (p p' : PeerState) : Prop where
  handshake : p'.version = p.version ∧ p'.handshakeDone = p.handshakeDone ∨
    p'.version = none ∧ p'.handshakeDone = false
  connection : p'.connection = true → SameSession p p'
  barred : p.Barred now → p'.Barred now

section Tightens

variable {p q r : PeerState} {now bytes score : Nat}

theorem Tightens.refl (p : PeerState) (now : Nat) : Tightens now p p :=
  ⟨.inl ⟨rfl, rfl⟩, fun h => ⟨h, rfl, rfl, rfl, rfl⟩, id⟩

theorem SameSession.trans (h : SameSession p q) (h' : SameSession q r) : SameSession p r :=
  ⟨h.connection, h'.bannedTill.trans h.bannedTill, h'.version.trans h.version,
    h'.handshakeDone.trans h.handshakeDone, h'.bInbound.trans h.bInbound⟩

theorem Tightens.trans (h : Tightens now p q) (h' : Tightens now q r) : Tightens now p r where
  handshake := by
    obtain ⟨hversion, hdone⟩ | hnone := h'.handshake
    · rw [hversion, hdone]
      exact h.handshake
    · exact .inr hnone
  connection hr := (h.connection (h'.connection hr).connection).trans (h'.connection hr)
  barred hp := h'.barred (h.barred hp)

/-- Whatever does not matter here may change. -/
theorem Tightens.of_eq (hversion : q.version = p.version)
    (hdone : q.handshakeDone = p.handshakeDone) (hinbound : q.bInbound = p.bInbound)
    (hconnection : q.connection = p.connection) (hbanned : q.bannedTill = p.bannedTill) (hat : q.misbehavedAt = p.misbehavedAt)
    (hscore : q.misbehaveScore = p.misbehaveScore)
    (hwhite : p.whitelisted = true → q.whitelisted = true) : Tightens now p q where
  handshake := .inl ⟨hversion, hdone⟩
  connection h := ⟨hconnection ▸ h, hbanned, hversion, hdone, hinbound⟩
  barred h := by
    refine ⟨hat ▸ h.misbehavedAt, fun hq hle => ?_⟩
    rw [hat, hbanned]
    refine h.banned ?_ (hscore ▸ hle)
    cases hp : p.whitelisted with
    | false => rfl
    | true => rw [hwhite hp] at hq; cases hq

theorem tightens_cleanup : Tightens now p p.cleanup where
  handshake := .inr ⟨rfl, rfl⟩
  connection h := by cases h
  barred h := ⟨h.misbehavedAt, h.banned⟩

theorem tightens_heard : Tightens now p (p.heard now) := .of_eq rfl rfl rfl rfl rfl rfl rfl id

theorem tightens_updateReceived : Tightens now p (p.updateReceived bytes) :=
  .of_eq rfl rfl rfl rfl rfl rfl rfl id

theorem tightens_updateTransmitted : Tightens now p (p.updateTransmitted bytes) :=
  .of_eq rfl rfl rfl rfl rfl rfl rfl id

theorem tightens_disconnect : Tightens now p (p.disconnect now) where
  handshake := .inr ⟨rfl, rfl⟩
  connection h := by cases h
  barred h := ⟨h.misbehavedAt, h.banned⟩

/-- Whoever is banned while it is connected is disconnected. -/
theorem tightens_ban : Tightens now p (p.ban now) := by
  unfold ban
  split
  next => exact .refl p now
  next hwhite =>
    have hbarred : p.Barred now → (p.markBanned now).Barred now := fun h =>
      ⟨h.misbehavedAt, fun _ _ => Nat.add_le_add_right h.misbehavedAt _⟩
    split
    next hconnection =>
      exact ⟨.inr ⟨rfl, rfl⟩, fun h => (by cases h), fun h => tightens_disconnect.barred (hbarred h)⟩
    next hconnection => exact ⟨.inl ⟨rfl, rfl⟩, fun h => absurd h hconnection, hbarred⟩

theorem forgive_cases (p : PeerState) (now : Nat) :
    p.forgive now = p ∨ p.forgive now = { p with misbehaveScore := 0 } := by
  unfold forgive
  split
  · exact .inr rfl
  · exact .inl rfl

theorem tightens_misbehave : Tightens now p (p.misbehave now score) := by
  have hsame : (p.blame now score).version = p.version ∧
      (p.blame now score).handshakeDone = p.handshakeDone ∧
      (p.blame now score).bInbound = p.bInbound ∧
      (p.blame now score).connection = p.connection ∧
      (p.blame now score).bannedTill = p.bannedTill := by
    unfold blame updateMisbehave
    obtain heq | heq := forgive_cases p now
    · rw [heq]
      exact ⟨rfl, rfl, rfl, rfl, rfl⟩
    · rw [heq]
      exact ⟨rfl, rfl, rfl, rfl, rfl⟩
  obtain ⟨hversion, hdone, hinbound, hconnection, hbannedTill⟩ := hsame
  unfold misbehave
  split
  next hscore =>
    have hban : Tightens now (p.blame now score) ((p.blame now score).ban now) := tightens_ban
    refine ⟨?_, fun h => ?_, fun _ => ?_⟩
    · rw [← hversion, ← hdone]
      exact hban.handshake
    · have hsession := hban.connection h
      exact ⟨hconnection ▸ hsession.connection, hsession.bannedTill.trans hbannedTill,
        hsession.version.trans hversion, hsession.handshakeDone.trans hdone,
        hsession.bInbound.trans hinbound⟩
    · unfold ban
      split
      next hwhite => exact ⟨le_rfl, fun h => by rw [hwhite] at h; cases h⟩
      next =>
        split
        · exact ⟨le_rfl, fun _ _ => le_rfl⟩
        · exact ⟨le_rfl, fun _ _ => le_rfl⟩
  next hscore =>
    exact ⟨.inl ⟨hversion, hdone⟩, fun h =>
      ⟨hconnection ▸ h, hbannedTill, hversion, hdone, hinbound⟩,
      fun _ => ⟨le_rfl, fun _ h => absurd h hscore⟩⟩

theorem tightens_disconnectOrBlame : Tightens now p (p.disconnectOrBlame now) := by
  unfold disconnectOrBlame
  split
  · exact tightens_disconnect
  · exact tightens_misbehave

theorem tightens_connect : Tightens now p (p.connect now) := by
  unfold connect
  split
  · exact .refl p now
  · exact .of_eq rfl rfl rfl rfl rfl rfl rfl id

theorem tightens_sent : Tightens now p (p.sent bytes now) := by
  unfold sent
  split
  · exact tightens_updateTransmitted.trans tightens_disconnect
  · exact tightens_updateTransmitted

theorem tightens_arrive : Tightens now p (p.arrive now bytes) := by
  unfold arrive
  split
  · exact (tightens_updateReceived.trans tightens_disconnect).trans tightens_heard
  · exact tightens_updateReceived.trans tightens_heard

theorem tightens_tick : Tightens now p (p.tick now) := by
  unfold tick
  split
  · exact .refl p now
  · split
    · exact tightens_disconnect.trans (.of_eq rfl rfl rfl rfl rfl rfl rfl id)
    · split
      · exact tightens_disconnect
      · exact .refl p now

end Tightens

/-! ### What an action can do -/

/-- What a message can do: it tightens, or it is the next part of the handshake. -/
theorem incomingMessage_cases (p : PeerState) (now : Nat) (msg : Message) :
    Tightens now p (p.incomingMessage now msg) ∨
      (∃ protocolVersion, msg = .version (.compatible protocolVersion) ∧ p.version = none ∧
        p.incomingMessage now msg = { p with version := some protocolVersion }) ∨
      msg = .verAck ∧ p.version ≠ none ∧ p.incomingMessage now msg = p.setFullyConnected := by
  cases msg with
  | ping | pong | reject | signed => exact .inl (.refl p now)
  | version check =>
      cases check with
      | timeOffset => exact .inl (.refl p now)
      | self stored =>
          cases stored with
          | true => exact .inl (tightens_disconnectOrBlame.trans tightens_misbehave)
          | false => exact .inl tightens_disconnectOrBlame
      | incompatible => exact .inl tightens_disconnectOrBlame
      | compatible protocolVersion =>
          by_cases hversion : p.version = none
          · exact .inr (.inl ⟨protocolVersion, rfl, hversion,
              by rw [incomingMessage, handleVersionMessage, if_pos hversion]⟩)
          · left
            rw [incomingMessage, handleVersionMessage, if_neg hversion]
            exact tightens_misbehave
  | verAck =>
      by_cases hversion : p.version = none
      · left
        rw [incomingMessage, handleVerackMessage, if_pos hversion]
        exact .refl p now
      · exact .inr (.inr ⟨rfl, hversion, by rw [incomingMessage, handleVerackMessage, if_neg hversion]⟩)
  | request =>
      left
      rw [incomingMessage]
      split
      · exact .refl p now
      · exact tightens_misbehave

/-- No message connects a peer. -/
theorem connection_of_incomingMessage {p : PeerState} {now : Nat} {msg : Message}
    (h : (p.incomingMessage now msg).connection = true) : p.connection = true := by
  obtain htight | ⟨_, -, -, heq⟩ | ⟨-, -, heq⟩ := incomingMessage_cases p now msg
  · exact (htight.connection h).connection
  · rwa [heq] at h
  · rwa [heq] at h

/-- A message that exceeds the limit closes the connection before it is looked at. -/
theorem arrive_of_exceeds {p : PeerState} {now bytes : Nat}
    (h : (p.updateReceived bytes).exceedsBytes = true) :
    (p.arrive now bytes).connection = false ∧ (p.arrive now bytes).bInbound = false ∧
      (p.arrive now bytes).version = none := by
  rw [arrive, if_pos h]
  exact ⟨rfl, rfl, rfl⟩

theorem arrive_session {p : PeerState} {now bytes : Nat} (hp : p.connection = true)
    (h : (p.updateReceived bytes).exceedsBytes = false) : p.SameSession (p.arrive now bytes) := by
  rw [arrive, if_neg (by simp [h])]
  exact ⟨hp, rfl, rfl, rfl, rfl⟩

theorem connection_arrive {p : PeerState} {now bytes : Nat} (hp : p.connection = true)
    (h : (p.updateReceived bytes).exceedsBytes = false) : (p.arrive now bytes).connection = true := by
  rw [arrive, if_neg (by simp [h])]
  exact hp

/-- Before the node sees a message, the peer can only be disconnected. -/
theorem onMessageHandler_cases (p : PeerState) (now bytes : Nat) (msg : Message) :
    Tightens now p (p.onMessageHandler now bytes msg) ∨
      ∃ q, Tightens now p q ∧ p.onMessageHandler now bytes msg = q.incomingMessage now msg := by
  unfold onMessageHandler
  split
  · exact .inl tightens_updateReceived
  · exact .inr ⟨_, tightens_arrive, rfl⟩

/-- The parts of the handshake, as actions. -/
def Action.IsVersion (action : Action) : Prop :=
  ∃ bytes protocolVersion, action = .message bytes (.version (.compatible protocolVersion))

def Action.IsVerAck (action : Action) : Prop := ∃ bytes, action = .message bytes .verAck

/-- **What an action can do.** It tightens, or it is a part of the handshake that the peer had
waited for, or a connection that was asked for. -/
theorem act_cases (p : PeerState) (now : Nat) (action : Action) :
    Tightens now p (p.act now action) ∨
      (action.IsVersion ∧ ∃ q protocolVersion, Tightens now p q ∧ q.version = none ∧
        p.act now action = { q with version := some protocolVersion }) ∨
      (action.IsVerAck ∧ ∃ q, Tightens now p q ∧ q.version ≠ none ∧
        p.act now action = q.setFullyConnected) ∨
      action = .connected true ∧ 0 < p.connecting ∧ p.act now action =
        { p with
          connecting := p.connecting - 1
          connection := true
          connectedTill := now + PEER_CONNECTION_LIFETIME } := by
  cases action with
  | message bytes msg =>
      obtain h | ⟨q, hq, heq⟩ := onMessageHandler_cases p now bytes msg
      · exact .inl h
      · rw [act, heq]
        obtain h | ⟨protocolVersion, rfl, hversion, hset⟩ | ⟨rfl, hversion, hset⟩ :=
          incomingMessage_cases q now msg
        · exact .inl (hq.trans h)
        · exact .inr (.inl ⟨⟨bytes, protocolVersion, rfl⟩, q, protocolVersion, hq, hversion, hset⟩)
        · exact .inr (.inr (.inl ⟨⟨bytes, rfl⟩, q, hq, hversion, hset⟩))
  | sent bytes => exact .inl tightens_sent
  | misbehave score => exact .inl tightens_misbehave
  | ban => exact .inl tightens_ban
  | connect => exact .inl tightens_connect
  | connected ok =>
      by_cases hconnecting : p.connecting = 0
      · left
        rw [act, connected, if_pos hconnecting]
        exact .refl p now
      · cases ok with
        | true =>
            refine .inr (.inr (.inr ⟨rfl, Nat.pos_of_ne_zero hconnecting, ?_⟩))
            rw [act, connected, if_neg hconnecting, if_pos rfl]
        | false =>
            left
            rw [act, connected, if_neg hconnecting, if_neg Bool.false_ne_true]
            exact .of_eq rfl rfl rfl rfl rfl rfl rfl id
  | closed => exact .inl tightens_cleanup
  | disconnect =>
      left
      rw [act]
      split
      · exact tightens_disconnect
      · exact .refl p now
  | tick => exact .inl tightens_tick
  | markAsPersistent => exact .inl (.of_eq rfl rfl rfl rfl rfl rfl rfl id)
  | markAsWhitelisted => exact .inl (.of_eq rfl rfl rfl rfl rfl rfl rfl fun _ => rfl)
  | resetFailedConnectionsCount => exact .inl (.of_eq rfl rfl rfl rfl rfl rfl rfl id)
  | loadDone => exact .inl (.of_eq rfl rfl rfl rfl rfl rfl rfl id)

/-! ### Runs -/

/-- An action and when it happens. -/
structure Event where
  now : Nat
  action : Action

/-- A peer and when something happened to it last. -/
structure Life where
  peer : PeerState
  clock : Nat

namespace Life

def step (s : Life) (event : Event) : Life := ⟨s.peer.act event.now event.action, event.now⟩

/-- A peer that was constructed just now. -/
def New (s : Life) : Prop :=
  ∃ randomMsecDelta, s.peer = known randomMsecDelta s.clock ∨ s.peer = incoming randomMsecDelta s.clock

/-- Time does not run backwards. -/
def Timely (s : Life) (event : Event) : Prop := s.clock ≤ event.now

instance (s : Life) (event : Event) : Decidable (s.Timely event) :=
  inferInstanceAs (Decidable (s.clock ≤ event.now))

/-- If the peer is banned, it is disconnected. -/
def ShutOut (s : Life) : Prop := s.peer.isBanned s.clock = true → s.peer.connection = false

/-- A connection attempt succeeds while the peer is banned. It started before. -/
def ConnectsBanned (s : Life) (event : Event) : Prop :=
  event.action = .connected true ∧ 0 < s.peer.connecting ∧ s.peer.isBanned event.now = true

def KnowsVersion (s : Life) : Prop := s.peer.version ≠ none

def Done (s : Life) : Prop := s.peer.handshakeDone = true

/-- The peer sent its version and then acknowledged the one of the node. Its version is known
since the first of these, and the handshake is done since the second. -/
def ShookHands (start : Life) (events : List Event) : Prop :=
  ∃ before version middle verAck later,
    events = before ++ version :: (middle ++ verAck :: later) ∧
      version.action.IsVersion ∧ verAck.action.IsVerAck ∧
      Runs.EveryStep step (fun s event => (s.step event).KnowsVersion)
        (Runs.after step start before) (version :: (middle ++ verAck :: later)) ∧
      Runs.EveryStep step (fun s event => (s.step event).Done)
        (Runs.after step start (before ++ version :: middle)) (verAck :: later)

variable {s start : Life} {event : Event} {events : List Event}

/-- Whoever is done has a version. -/
def DoneKnows (s : Life) : Prop := s.Done → s.KnowsVersion

theorem New.barred (h : s.New) : s.peer.Barred s.clock := by
  obtain ⟨randomMsecDelta, hpeer | hpeer⟩ := h
  all_goals
    rw [hpeer]
    exact ⟨le_rfl, fun _ hscore => absurd hscore (Nat.not_succ_le_zero _)⟩

theorem New.doneKnows (h : s.New) : s.DoneKnows := by
  intro hdone
  obtain ⟨randomMsecDelta, hpeer | hpeer⟩ := h
  all_goals
    rw [Done, hpeer] at hdone
    cases hdone

theorem New.shutOut (h : s.New) : s.ShutOut := by
  intro hbanned
  obtain ⟨randomMsecDelta, hpeer | hpeer⟩ := h
  all_goals
    rw [hpeer] at hbanned
    exact absurd (of_decide_eq_true hbanned) (lt_irrefl _)

theorem barred_step (hclock : s.Timely event) (h : s.peer.Barred s.clock) :
    (s.step event).peer.Barred (s.step event).clock := by
  have hlater : s.peer.Barred event.now := ⟨h.misbehavedAt.trans hclock, h.banned⟩
  rw [step]
  obtain htight | ⟨-, q, protocolVersion, htight, -, heq⟩ | ⟨-, q, htight, -, heq⟩ | ⟨-, -, heq⟩ :=
    act_cases s.peer event.now event.action
  · exact htight.barred hlater
  · rw [heq]
    exact ⟨(htight.barred hlater).misbehavedAt, (htight.barred hlater).banned⟩
  · rw [heq]
    exact ⟨(htight.barred hlater).misbehavedAt, (htight.barred hlater).banned⟩
  · rw [heq]
    exact ⟨hlater.misbehavedAt, hlater.banned⟩

theorem doneKnows_step (h : s.DoneKnows) : (s.step event).DoneKnows := by
  intro hdone
  rw [Done, step] at hdone
  rw [KnowsVersion, step]
  obtain htight | ⟨-, q, protocolVersion, -, -, heq⟩ | ⟨-, q, -, hversion, heq⟩ | ⟨-, -, heq⟩ :=
    act_cases s.peer event.now event.action
  · obtain ⟨hversion, hsame⟩ | ⟨-, hnone⟩ := htight.handshake
    · rw [hversion]
      exact h (hsame.symm.trans hdone)
    · rw [hnone] at hdone
      cases hdone
  · rw [heq]
    exact Option.some_ne_none _
  · rw [heq]
    exact hversion
  · rw [heq] at hdone ⊢
    exact h hdone

/-- A version is known after a step only if it was known before, or just came. -/
theorem knowsVersion_of_step (h : (s.step event).KnowsVersion) :
    s.KnowsVersion ∨ event.action.IsVersion := by
  rw [KnowsVersion, step] at h
  obtain htight | ⟨hversion, -⟩ | ⟨-, q, htight, hversion, -⟩ | ⟨-, -, heq⟩ :=
    act_cases s.peer event.now event.action
  · left
    obtain ⟨hsame, -⟩ | ⟨hnone, -⟩ := htight.handshake
    · rwa [hsame] at h
    · exact absurd hnone h
  · exact .inr hversion
  · left
    obtain ⟨hsame, -⟩ | ⟨hnone, -⟩ := htight.handshake
    · rwa [hsame] at hversion
    · exact absurd hnone hversion
  · left
    rwa [heq] at h

/-- The handshake is done after a step only if it was before, or was acknowledged just now. -/
theorem done_of_step (h : (s.step event).Done) :
    s.Done ∨ event.action.IsVerAck ∧ s.KnowsVersion := by
  rw [Done, step] at h
  obtain htight | ⟨-, q, protocolVersion, htight, -, heq⟩ | ⟨hverAck, q, htight, hversion, -⟩ |
    ⟨-, -, heq⟩ := act_cases s.peer event.now event.action
  · left
    obtain ⟨-, hsame⟩ | ⟨-, hnone⟩ := htight.handshake
    · rwa [hsame] at h
    · rw [hnone] at h
      cases h
  · left
    rw [heq] at h
    obtain ⟨-, hsame⟩ | ⟨-, hnone⟩ := htight.handshake
    · exact hsame.symm.trans h
    · exact absurd (hnone.symm.trans h) Bool.false_ne_true
  · refine .inr ⟨hverAck, ?_⟩
    obtain ⟨hsame, -⟩ | ⟨hnone, -⟩ := htight.handshake
    · rwa [hsame] at hversion
    · exact absurd hnone hversion
  · left
    rwa [heq] at h

/-- If a banned peer was disconnected, it is after a step that does not connect it. -/
theorem shutOut_step_iff (hclock : s.Timely event) (h : s.ShutOut) :
    (s.step event).ShutOut ↔ ¬ s.ConnectsBanned event := by
  have hbefore : s.peer.connection = true → s.peer.bannedTill ≤ event.now := fun hconnection => by
    refine le_trans (not_lt.mp fun hlt => ?_) hclock
    rw [h (decide_eq_true hlt)] at hconnection
    cases hconnection
  have hopen : (s.peer.act event.now event.action).connection = true →
      event.action ≠ .connected true ∨ s.peer.connecting = 0 →
      (s.peer.act event.now event.action).bannedTill ≤ event.now := by
    intro hconnection hother
    obtain htight | ⟨-, q, protocolVersion, htight, -, heq⟩ | ⟨-, q, htight, -, heq⟩ |
      ⟨haction, hpos, -⟩ := act_cases s.peer event.now event.action
    · have hsession := htight.connection hconnection
      exact hsession.bannedTill ▸ hbefore hsession.connection
    · rw [heq] at hconnection ⊢
      have hsession := htight.connection hconnection
      exact hsession.bannedTill ▸ hbefore hsession.connection
    · rw [heq] at hconnection ⊢
      have hsession := htight.connection hconnection
      exact hsession.bannedTill ▸ hbefore hsession.connection
    · exact absurd hother (by rw [haction]; simp [hpos.ne'])
  rw [ShutOut, step]
  constructor
  · rintro hshut ⟨haction, hpos, hbanned⟩
    rw [haction, act, connected, if_neg hpos.ne', if_pos rfl] at hshut
    exact absurd (hshut hbanned) (by simp)
  · intro hnot hbanned
    by_contra hconnection
    rw [Bool.not_eq_false] at hconnection
    refine absurd (of_decide_eq_true hbanned) (not_lt.mpr ?_)
    by_cases haction : event.action = .connected true ∧ 0 < s.peer.connecting
    · obtain ⟨haction, hpos⟩ := haction
      rw [haction, act, connected, if_neg hpos.ne', if_pos rfl] at hbanned ⊢
      exact absurd ⟨haction, hpos, hbanned⟩ hnot
    · refine hopen hconnection ?_
      rwa [not_and_or, Nat.not_lt, Nat.le_zero] at haction

/-- Where the version that is known comes from. -/
theorem exists_version (hstart : ¬ start.KnowsVersion)
    (h : (Runs.after step start events).KnowsVersion) :
    ∃ before version later, events = before ++ version :: later ∧ version.action.IsVersion ∧
      Runs.EveryStep step (fun s event => (s.step event).KnowsVersion)
        (Runs.after step start before) (version :: later) := by
  induction events using List.reverseRecOn with
  | nil => exact absurd h hstart
  | append_singleton events event ih =>
      rw [Runs.after_concat] at h
      obtain hbefore | hversion := knowsVersion_of_step h
      · obtain ⟨before, version, later, rfl, hversion, hknows⟩ := ih hbefore
        refine ⟨before, version, later ++ [event], by simp, hversion, ?_⟩
        rw [← List.cons_append, Runs.everyStep_concat, ← Runs.after_append]
        exact ⟨hknows, h⟩
      · exact ⟨events, event, [], rfl, hversion, h, trivial⟩

/-- Where a handshake that is done comes from. -/
theorem shookHands (hstart : ¬ start.KnowsVersion) (hdone : ¬ start.Done) (hknows : start.DoneKnows)
    (h : (Runs.after step start events).Done) : ShookHands start events := by
  induction events using List.reverseRecOn with
  | nil => exact absurd h hdone
  | append_singleton events event ih =>
      rw [Runs.after_concat] at h
      have hlast : ((Runs.after step start events).step event).KnowsVersion :=
        doneKnows_step (Runs.invariant_after (fun _ _ => doneKnows_step) hknows events) h
      obtain hbefore | ⟨hverAck, hversion⟩ := done_of_step h
      · obtain ⟨before, version, middle, verAck, later, rfl, hversion, hverAck, hall, hdones⟩ :=
          ih hbefore
        refine ⟨before, version, middle, verAck, later ++ [event], by simp, hversion, hverAck,
          ?_, ?_⟩
        · have hassoc : version :: (middle ++ verAck :: (later ++ [event])) =
              version :: (middle ++ verAck :: later) ++ [event] := by simp
          rw [hassoc, Runs.everyStep_concat, ← Runs.after_append]
          exact ⟨hall, hlast⟩
        · rw [← List.cons_append, Runs.everyStep_concat, ← Runs.after_append, List.append_assoc,
            List.cons_append]
          exact ⟨hdones, h⟩
      · obtain ⟨before, version, middle, rfl, hfirst, hall⟩ := exists_version hstart hversion
        refine ⟨before, version, middle, event, [], by simp, hfirst, hverAck, ?_, h, trivial⟩
        rw [← List.cons_append, Runs.everyStep_concat, ← Runs.after_append]
        exact ⟨hall, hlast⟩

theorem New.not_knowsVersion (h : s.New) : ¬ s.KnowsVersion := by
  obtain ⟨randomMsecDelta, hpeer | hpeer⟩ := h
  all_goals
    rw [KnowsVersion, hpeer]
    exact fun hversion => hversion rfl

theorem New.not_done (h : s.New) : ¬ s.Done := by
  obtain ⟨randomMsecDelta, hpeer | hpeer⟩ := h
  all_goals
    rw [Done, hpeer]
    exact Bool.false_ne_true

/-- **The life of a peer.** Whatever happens to a peer, in any order: unless it is whitelisted, a
score that deserves a ban is under a ban, for the full time from the last offence; it is fully
connected only after it shook hands, and never disconnected since; and while it is banned, it is
disconnected, in exactly the runs where no connection attempt succeeds during a ban. -/
theorem peer_life (start : Life) (hnew : start.New) (events : List Event)
    (hclock : Runs.EveryStep step Timely start events) :
    let p := (Runs.after step start events).peer
    (p.whitelisted = false → BAN_PEER_SCORE ≤ p.misbehaveScore →
      p.misbehavedAt + BAN_PEER_TIME ≤ p.bannedTill) ∧
    (p.fullyConnected = true → ShookHands start events) ∧
    (Runs.EveryStep step (fun s event => s.Timely event ∧ (s.step event).ShutOut) start events ↔
      Runs.EveryStep step (fun s event => s.Timely event ∧ ¬ s.ConnectsBanned event)
        start events) := by
  intro p
  refine ⟨?_, fun hfully => ?_, ?_⟩
  · exact (Runs.EveryStep.invariant (I := fun s : Life => s.peer.Barred s.clock)
      (fun _ _ h hclock => barred_step hclock h) hclock hnew.barred).banned
  · exact shookHands hnew.not_knowsVersion hnew.not_done hnew.doneKnows
      (Bool.and_eq_true_iff.mp hfully).2
  · exact Runs.everyStep_congr (I := ShutOut) (fun _ _ _ h => h.2)
      (fun _ _ hshut => and_congr_right fun hclock => shutOut_step_iff hclock hshut) hnew.shutOut
      events

/-- A peer connects and shakes hands. -/
def shakenHands : List Event :=
  [⟨1, .message 90 (.version (.compatible 1))⟩, ⟨2, .message 0 .verAck⟩]

/-- A peer is banned while the node connects to it. -/
def bannedMeanwhile : List Event := [⟨1, .connect⟩, ⟨2, .ban⟩, ⟨3, .connected true⟩]

theorem peer_life_samples :
    ShookHands ⟨incoming 0 0, 0⟩ shakenHands ∧
      ¬ Runs.EveryStep step (fun s event => s.Timely event ∧ (s.step event).ShutOut)
        ⟨known 0 0, 0⟩ bannedMeanwhile :=
  ⟨(peer_life ⟨incoming 0 0, 0⟩ ⟨0, .inr rfl⟩ shakenHands (by decide)).2.1 rfl,
    fun h => ((peer_life ⟨known 0 0, 0⟩ ⟨0, .inl rfl⟩ bannedMeanwhile (by decide)).2.2.mp
      h).2.2.1.2 ⟨rfl, by decide, rfl⟩⟩

end Life

end PeerState

end CilCore
