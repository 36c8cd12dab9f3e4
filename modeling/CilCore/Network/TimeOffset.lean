import CilCore.Lib.Runs
import Mathlib.Algebra.BigOperators.Group.List.Basic
import Mathlib.Algebra.Order.Field.Rat
import Mathlib.Tactic.Linarith
import Mathlib.Tactic.Ring

/-!
# Network time

`_handleVersionMessage` and `_peerDisconnect` of `node/node.js` keep the offset of the
network time: half of the offset of each peer is added when versions are exchanged, and is
to be subtracted when the peer disconnects. But `_cleanup` of `network/peer.js` has reset
the offset of the peer before the node is told.
-/

namespace CilCore

/-- A peer, as far as versions are exchanged. Whether its handler has recorded an offset
for this connection is kept in `exchanged`. -/
structure TimedPeer where
  connected : Bool := false
  inbound : Bool := false
  version : Option Nat := none
  offsetDelta : ℚ := 0
  exchanged : Bool := false

/-- `_cleanup`. -/
def TimedPeer.cleanup (peer : TimedPeer) : TimedPeer :=
  { peer with
    connected := false, inbound := false, version := none, offsetDelta := 0, exchanged := false }

/-- What a peer adds to the offset: its delta, if it is connected and completed the exchange
of versions. -/
def TimedPeer.share (peer : TimedPeer) : ℚ :=
  if peer.connected ∧ peer.exchanged then peer.offsetDelta else 0

/-- What a version message says. -/
structure VersionMessage where
  msecTime : ℚ
  nonce : Nat
  protocolVersion : Nat

/-- A node with the peers that it knows, in the order of their construction, and the handlers
of version messages that wait until their answer is sent. -/
structure TimedNode where
  nonce : Nat
  protocolVersion : Nat
  TOLERATED_TIME_DIFF : ℚ
  msecOffset : ℚ := 0
  peers : List TimedPeer := []
  waiting : List (Nat × ℚ) := []

namespace TimedNode

/-- What happens to a node. -/
inductive Event where
  /-- The address of a peer becomes known. -/
  | addPeer
  /-- A peer connects to the node. -/
  | incoming
  /-- The node connects to a peer. -/
  | connect (n : Nat)
  /-- A version message arrives, at some time on the clock of the node. Whether the peer can
  be associated with the address it tells is decided by the peer manager. -/
  | version (n : Nat) (message : VersionMessage) (now : ℚ) (associated : Bool)
  /-- The answer of a handler that waits was sent. -/
  | answered (k : Nat)
  /-- The answer of a handler that waits could not be sent. -/
  | unanswered (k : Nat)
  /-- The connection emits that it was closed. -/
  | closed (n : Nat)
  /-- The node disconnects a peer. -/
  | disconnect (n : Nat)

/-- Change a peer. -/
def updatePeer (n : Nat) (f : TimedPeer → TimedPeer) (s : TimedNode) : TimedNode :=
  { s with peers := s.peers.modify n f }

/-- `_peerDisconnect`. -/
def peerDisconnect (n : Nat) (s : TimedNode) : TimedNode :=
  { s with msecOffset := s.msecOffset - ((s.peers[n]?).map (·.offsetDelta)).getD 0 }

/-- The handler of a connection that is closed: the peer is cleaned up, and tells the node. -/
def closed (n : Nat) (s : TimedNode) : TimedNode :=
  (s.updatePeer n (·.cleanup)).peerDisconnect n

/-- `disconnect` of a peer. Closing the connection calls the handler above before. -/
def disconnect (n : Nat) (s : TimedNode) : TimedNode :=
  if (s.peers[n]?).any (·.connected) then (s.closed n).closed n else s

/-- `_adjustNetworkTime`, and the delta that is recorded for the peer. -/
def adjustNetworkTime (n : Nat) (offset : ℚ) (s : TimedNode) : TimedNode :=
  { s with msecOffset := s.msecOffset + offset / 2 }.updatePeer n fun peer =>
    { peer with offsetDelta := offset / 2, exchanged := peer.connected }

/-- `_handleVersionMessage`, up to the `await` for a peer that has connected to the node. A
peer that is refused is disconnected later, and the peers that are disconnected where the
node finds that it has connected to itself are so in events of their own. -/
def handleVersionMessage (n : Nat) (message : VersionMessage) (now : ℚ) (associated : Bool)
    (s : TimedNode) : TimedNode :=
  match s.peers[n]? with
  | none => s
  | some peer =>
      let offset := message.msecTime - (now + s.msecOffset)
      if s.TOLERATED_TIME_DIFF < |offset| then s
      else if message.nonce = s.nonce then s
      else if message.protocolVersion ≠ s.protocolVersion then s.disconnect n
      else if peer.version.isSome then s
      else
        let s := s.updatePeer n fun peer => { peer with version := some message.protocolVersion }
        if peer.inbound then
          if associated then { s with waiting := s.waiting ++ [(n, offset)] } else s
        else s.adjustNetworkTime n offset

/-- One step. Nothing happens where the event is not possible. -/
def step (s : TimedNode) : Event → TimedNode
  | .addPeer => { s with peers := s.peers ++ [{}] }
  | .incoming => { s with peers := s.peers ++ [{ connected := true, inbound := true }] }
  | .connect n => s.updatePeer n fun peer => { peer with connected := true }
  | .version n message now associated => s.handleVersionMessage n message now associated
  | .answered k =>
      match s.waiting[k]? with
      | none => s
      | some (n, offset) =>
          { s with waiting := s.waiting.eraseIdx k }.adjustNetworkTime n offset
  | .unanswered k => { s with waiting := s.waiting.eraseIdx k }
  | .closed n => s.closed n
  | .disconnect n => s.disconnect n

/-- The sum of the deltas of the peers that are connected and completed the exchange. -/
def shares (s : TimedNode) : ℚ := (s.peers.map TimedPeer.share).sum

/-- The offset is exact, so it is 0 when no peer is connected. -/
structure Exact (s : TimedNode) : Prop where
  msecOffset : s.msecOffset = s.shares
  zero : (∀ peer ∈ s.peers, peer.connected = false) → s.msecOffset = 0

/-- What a peer adds to the offset, if it is there. -/
def shareOf (s : TimedNode) (n : Nat) : ℚ := ((s.peers[n]?).map TimedPeer.share).getD 0

/-- The handler of a version message records its offset for a connection that has none, and
while the peer is connected, unless the offset is 0. -/
def AdjustsExactly (s : TimedNode) (n : Nat) (offset : ℚ) : Prop :=
  s.shareOf n = 0 ∧ (offset = 0 ∨ (s.peers[n]?).any (·.connected) = true)

/-- A peer is disconnected only if its delta is 0, and the handlers of version messages
record their offsets exactly. -/
def Meets (s : TimedNode) : Event → Prop
  | .addPeer | .incoming | .connect _ | .unanswered _ => True
  | .version n message now _ =>
      let offset := message.msecTime - (now + s.msecOffset)
      |offset| ≤ s.TOLERATED_TIME_DIFF → message.nonce ≠ s.nonce →
        if message.protocolVersion ≠ s.protocolVersion then s.shareOf n = 0
        else ∀ peer, s.peers[n]? = some peer → peer.version = none → peer.inbound = false →
          s.AdjustsExactly n offset
  | .answered k => ∀ n offset, s.waiting[k]? = some (n, offset) → s.AdjustsExactly n offset
  | .closed n | .disconnect n => s.shareOf n = 0

variable {s : TimedNode} {n : Nat}

/-! ### Shares -/

@[simp] theorem share_cleanup (peer : TimedPeer) : peer.cleanup.share = 0 := by
  simp [TimedPeer.share, TimedPeer.cleanup]

theorem sum_map_modify (peers : List TimedPeer) (n : Nat) (f : TimedPeer → TimedPeer) :
    ((peers.modify n f).map TimedPeer.share).sum =
      (peers.map TimedPeer.share).sum - ((peers[n]?).map TimedPeer.share).getD 0 +
        ((peers[n]?).map fun peer => (f peer).share).getD 0 := by
  induction peers generalizing n with
  | nil => simp
  | cons peer rest ih =>
      cases n with
      | zero => simp [add_comm]
      | succ n =>
          simp only [List.modify_succ_cons, List.map_cons, List.sum_cons, ih,
            List.getElem?_cons_succ]
          ring

theorem shares_updatePeer (f : TimedPeer → TimedPeer) :
    (s.updatePeer n f).shares =
      s.shares - s.shareOf n + ((s.peers[n]?).map fun peer => (f peer).share).getD 0 :=
  sum_map_modify s.peers n f

/-- A change that keeps the share of a peer keeps the sum. -/
theorem shares_updatePeer_of_share (f : TimedPeer → TimedPeer)
    (h : ∀ peer, s.peers[n]? = some peer → (f peer).share = peer.share) :
    (s.updatePeer n f).shares = s.shares := by
  rw [shares_updatePeer, shareOf]
  cases hpeer : s.peers[n]? with
  | none => simp
  | some peer => simp [h peer hpeer]

theorem exact_iff : s.Exact ↔ s.msecOffset = s.shares := by
  constructor
  · exact fun h => h.msecOffset
  · intro h
    refine ⟨h, fun hnone => ?_⟩
    rw [h, shares]
    apply List.sum_eq_zero
    intro share hshare
    obtain ⟨peer, hpeer, rfl⟩ := List.mem_map.mp hshare
    simp [TimedPeer.share, hnone peer hpeer]

/-! ### Disconnecting -/

/-- The peer has no delta any more when the node subtracts it. -/
theorem msecOffset_closed : (s.closed n).msecOffset = s.msecOffset := by
  unfold closed peerDisconnect updatePeer
  rw [List.getElem?_modify_eq]
  cases s.peers[n]? with
  | none => simp
  | some peer => simp [TimedPeer.cleanup]

theorem shares_closed : (s.closed n).shares = s.shares - s.shareOf n := by
  have hclosed : (s.closed n).shares = (s.updatePeer n (·.cleanup)).shares := rfl
  rw [hclosed, shares_updatePeer]
  cases s.peers[n]? <;> simp

theorem shareOf_closed : (s.closed n).shareOf n = 0 := by
  unfold shareOf closed peerDisconnect updatePeer
  rw [List.getElem?_modify_eq]
  cases s.peers[n]? <;> simp

theorem msecOffset_disconnect : (s.disconnect n).msecOffset = s.msecOffset := by
  unfold disconnect
  split
  next => rw [msecOffset_closed, msecOffset_closed]
  next => rfl

theorem shares_disconnect : (s.disconnect n).shares = s.shares - s.shareOf n := by
  unfold disconnect
  split
  next => rw [shares_closed, shares_closed, shareOf_closed, sub_zero]
  next hnot =>
    have hshare : s.shareOf n = 0 := by
      unfold shareOf
      cases hpeer : s.peers[n]? with
      | none => rfl
      | some peer =>
          rw [hpeer] at hnot
          have hdisconnected : peer.connected = false := by simpa using hnot
          simp [TimedPeer.share, hdisconnected]
    rw [hshare, sub_zero]

theorem exact_closed_iff (h : s.msecOffset = s.shares) :
    (s.closed n).msecOffset = (s.closed n).shares ↔ s.shareOf n = 0 := by
  rw [msecOffset_closed, shares_closed, h]
  constructor
  · intro heq
    linarith
  · intro hzero
    rw [hzero, sub_zero]

theorem exact_disconnect_iff (h : s.msecOffset = s.shares) :
    (s.disconnect n).msecOffset = (s.disconnect n).shares ↔ s.shareOf n = 0 := by
  rw [msecOffset_disconnect, shares_disconnect, h]
  constructor
  · intro heq
    linarith
  · intro hzero
    rw [hzero, sub_zero]

/-! ### Exchanging versions -/

theorem exact_adjustNetworkTime_iff (h : s.msecOffset = s.shares) (offset : ℚ) :
    (s.adjustNetworkTime n offset).msecOffset = (s.adjustNetworkTime n offset).shares ↔
      s.AdjustsExactly n offset := by
  have hshares : (s.adjustNetworkTime n offset).shares = s.shares - s.shareOf n +
      ((s.peers[n]?).map fun peer => if peer.connected then offset / 2 else 0).getD 0 := by
    unfold adjustNetworkTime
    rw [shares_updatePeer]
    simp [TimedPeer.share, shares, shareOf]
  have hoffset : (s.adjustNetworkTime n offset).msecOffset = s.msecOffset + offset / 2 := rfl
  rw [hshares, hoffset, h, AdjustsExactly]
  cases hpeer : s.peers[n]? with
  | none =>
      have hshare : s.shareOf n = 0 := by rw [shareOf, hpeer]; rfl
      simp [hshare]
  | some peer =>
      cases hconnected : peer.connected with
      | false =>
          have hshare : s.shareOf n = 0 := by
            rw [shareOf, hpeer]
            simp [TimedPeer.share, hconnected]
          simp [hshare, hconnected]
      | true =>
          simp [hconnected]
          constructor <;> intro heq <;> linarith

/-! ### Runs -/

/-- What holds between two events, besides that the offset is the sum of the deltas: only a
connected peer has completed the exchange. -/
structure Settled (s : TimedNode) : Prop where
  msecOffset : s.msecOffset = s.shares
  connected : ∀ peer ∈ s.peers, peer.exchanged = true → peer.connected = true

/-- Only connected peers have completed the exchange after a change that keeps this. -/
theorem connected_updatePeer {f : TimedPeer → TimedPeer}
    (h : ∀ peer ∈ s.peers, peer.exchanged = true → peer.connected = true)
    (hf : ∀ peer : TimedPeer, (peer.exchanged = true → peer.connected = true) →
      (f peer).exchanged = true → (f peer).connected = true) :
    ∀ peer ∈ (s.updatePeer n f).peers, peer.exchanged = true → peer.connected = true := by
  intro peer hpeer
  obtain ⟨k, hk⟩ := List.mem_iff_getElem?.mp hpeer
  unfold updatePeer at hk
  rw [List.getElem?_modify] at hk
  obtain ⟨old, hold, rfl⟩ := Option.map_eq_some_iff.mp hk
  have hkept := h old (List.mem_of_getElem? hold)
  split
  next => exact hf old hkept
  next => exact hkept

theorem connected_closed (h : ∀ peer ∈ s.peers, peer.exchanged = true → peer.connected = true) :
    ∀ peer ∈ (s.closed n).peers, peer.exchanged = true → peer.connected = true :=
  connected_updatePeer h fun peer _ hexchanged => by simp [TimedPeer.cleanup] at hexchanged

theorem connected_disconnect
    (h : ∀ peer ∈ s.peers, peer.exchanged = true → peer.connected = true) :
    ∀ peer ∈ (s.disconnect n).peers, peer.exchanged = true → peer.connected = true := by
  unfold disconnect
  split
  next => exact connected_closed (connected_closed h)
  next => exact h

theorem connected_adjustNetworkTime
    (h : ∀ peer ∈ s.peers, peer.exchanged = true → peer.connected = true) (offset : ℚ) :
    ∀ peer ∈ (s.adjustNetworkTime n offset).peers,
      peer.exchanged = true → peer.connected = true := by
  unfold adjustNetworkTime
  apply connected_updatePeer
  · exact h
  · exact fun peer _ hexchanged => hexchanged

/-- Recording the version of a peer. -/
def setVersion (n version : Nat) (s : TimedNode) : TimedNode :=
  s.updatePeer n fun peer => { peer with version := some version }

theorem shares_setVersion (version : Nat) : (s.setVersion n version).shares = s.shares :=
  shares_updatePeer_of_share _ fun _ _ => rfl

theorem shareOf_setVersion (version : Nat) : (s.setVersion n version).shareOf n = s.shareOf n := by
  unfold shareOf setVersion updatePeer
  rw [List.getElem?_modify_eq]
  cases s.peers[n]? <;> rfl

theorem adjustsExactly_setVersion (version : Nat) (offset : ℚ) :
    (s.setVersion n version).AdjustsExactly n offset ↔ s.AdjustsExactly n offset := by
  have hconnected : ((s.setVersion n version).peers[n]?).any (·.connected) =
      (s.peers[n]?).any (·.connected) := by
    unfold setVersion updatePeer
    rw [List.getElem?_modify_eq]
    cases s.peers[n]? <;> rfl
  unfold AdjustsExactly
  rw [shareOf_setVersion, hconnected]

/-- What the handler of a version message does. -/
theorem handleVersionMessage_cases (n : Nat) (message : VersionMessage) (now : ℚ)
    (associated : Bool) (s : TimedNode) :
    let offset := message.msecTime - (now + s.msecOffset)
    let after := s.handleVersionMessage n message now associated
    (after = s ∧ (s.peers[n]? = none ∨ s.TOLERATED_TIME_DIFF < |offset| ∨
      message.nonce = s.nonce ∨ message.protocolVersion = s.protocolVersion ∧
        ∃ peer, s.peers[n]? = some peer ∧ peer.version ≠ none)) ∨
    (after = s.disconnect n ∧ |offset| ≤ s.TOLERATED_TIME_DIFF ∧
      message.nonce ≠ s.nonce ∧ message.protocolVersion ≠ s.protocolVersion) ∨
    (message.nonce ≠ s.nonce ∧ message.protocolVersion = s.protocolVersion ∧
      |offset| ≤ s.TOLERATED_TIME_DIFF ∧
      ∃ peer, s.peers[n]? = some peer ∧ peer.version = none ∧
        if peer.inbound then
          ∃ waiting, after = { s.setVersion n message.protocolVersion with waiting := waiting }
        else after = (s.setVersion n message.protocolVersion).adjustNetworkTime n offset) := by
  dsimp only
  unfold handleVersionMessage
  cases hpeer : s.peers[n]? with
  | none => exact .inl ⟨rfl, .inl rfl⟩
  | some peer =>
      dsimp only
      split
      next hfar => exact .inl ⟨rfl, .inr (.inl hfar)⟩
      next hnear =>
        split
        next hself => exact .inl ⟨rfl, .inr (.inr (.inl hself))⟩
        next hother =>
          split
          next hversion => exact .inr (.inl ⟨rfl, not_lt.mp hnear, hother, hversion⟩)
          next hversion =>
            have hsame := not_not.mp hversion
            split
            next hknown =>
              have hknown : peer.version ≠ none := by
                intro hnone
                simp [hnone] at hknown
              exact .inl ⟨rfl, .inr (.inr (.inr ⟨hsame, peer, rfl, hknown⟩))⟩
            next hnew =>
              have hnew : peer.version = none := by simpa using hnew
              refine .inr (.inr ⟨hother, hsame, not_lt.mp hnear, peer, rfl, hnew, ?_⟩)
              split
              next hinbound =>
                split
                next => exact ⟨_, rfl⟩
                next => exact ⟨_, rfl⟩
              next => rfl

theorem exact_handleVersionMessage_iff (h : s.msecOffset = s.shares) (message : VersionMessage)
    (now : ℚ) (associated : Bool) :
    (s.handleVersionMessage n message now associated).msecOffset =
        (s.handleVersionMessage n message now associated).shares ↔
      s.Meets (.version n message now associated) := by
  rw [Meets]
  obtain ⟨hsame, hwhy⟩ | ⟨hdisconnect, hnear, hother, hversion⟩ |
      ⟨hother, hversion, hnear, peer, hpeer, hnew, hafter⟩ :=
    handleVersionMessage_cases n message now associated s
  · rw [hsame]
    refine iff_of_true h fun hnear hother => ?_
    obtain hnone | hfar | hself | ⟨hversion, peer, hpeer, hknown⟩ := hwhy
    · have hshare : s.shareOf n = 0 := by rw [shareOf, hnone]; rfl
      simp [hshare, hnone]
    · exact absurd hnear (not_le.mpr hfar)
    · exact absurd hself hother
    · rw [if_neg (not_not.mpr hversion)]
      intro peer' hpeer' hnew
      rw [hpeer] at hpeer'
      obtain rfl := Option.some.inj hpeer'
      exact absurd hnew hknown
  · rw [hdisconnect, exact_disconnect_iff h, if_pos hversion]
    exact ⟨fun hshare _ _ => hshare, fun hmeets => hmeets hnear hother⟩
  · have hset : (s.setVersion n message.protocolVersion).msecOffset =
        (s.setVersion n message.protocolVersion).shares := by
      rw [shares_setVersion]
      exact h
    rw [if_neg (not_not.mpr hversion)]
    cases hinbound : peer.inbound with
    | true =>
        obtain ⟨waiting, hafter⟩ := (if_pos hinbound).mp hafter
        rw [hafter]
        refine iff_of_true hset fun _ _ peer' hpeer' _ houtbound => ?_
        rw [hpeer] at hpeer'
        obtain rfl := Option.some.inj hpeer'
        rw [hinbound] at houtbound
        exact absurd houtbound.symm Bool.false_ne_true
    | false =>
        rw [if_neg (by simp [hinbound])] at hafter
        rw [hafter, exact_adjustNetworkTime_iff hset, adjustsExactly_setVersion]
        constructor
        · exact fun hexact _ _ _ _ _ _ => hexact
        · exact fun hmeets => hmeets hnear hother peer hpeer hnew hinbound

/-- One step keeps the offset exact just when the condition is met. -/
theorem exact_step_iff (h : s.Settled) (event : Event) :
    (step s event).Exact ↔ s.Meets event := by
  rw [exact_iff]
  cases event with
  | addPeer =>
      have hshares : (step s .addPeer).shares = s.shares := by
        simp [step, shares, TimedPeer.share]
      exact iff_of_true (h.msecOffset.trans hshares.symm) trivial
  | incoming =>
      have hshares : (step s .incoming).shares = s.shares := by
        simp [step, shares, TimedPeer.share]
      exact iff_of_true (h.msecOffset.trans hshares.symm) trivial
  | connect n =>
      have hshares : (step s (.connect n)).shares = s.shares := by
        apply shares_updatePeer_of_share
        intro peer hpeer
        have hconnected := h.connected peer (List.mem_of_getElem? hpeer)
        cases hexchanged : peer.exchanged with
        | false => simp [TimedPeer.share, hexchanged]
        | true => simp [TimedPeer.share, hexchanged, hconnected hexchanged]
      exact iff_of_true (h.msecOffset.trans hshares.symm) trivial
  | version n message now associated =>
      exact exact_handleVersionMessage_iff h.msecOffset message now associated
  | answered k =>
      rw [step, Meets]
      cases hwaiting : s.waiting[k]? with
      | none => exact iff_of_true h.msecOffset fun _ _ hsome => by simp at hsome
      | some answer =>
          have hsame : ({ s with waiting := s.waiting.eraseIdx k } : TimedNode).msecOffset =
              ({ s with waiting := s.waiting.eraseIdx k } : TimedNode).shares := h.msecOffset
          have hiff := exact_adjustNetworkTime_iff (n := answer.1) hsame answer.2
          constructor
          · intro hexact n offset hsome
            obtain rfl := Option.some.inj hsome
            exact hiff.mp hexact
          · intro hmeets
            exact hiff.mpr (hmeets answer.1 answer.2 rfl)
  | unanswered k => exact iff_of_true h.msecOffset trivial
  | closed n => exact exact_closed_iff h.msecOffset
  | disconnect n => exact exact_disconnect_iff h.msecOffset

theorem connected_step (h : ∀ peer ∈ s.peers, peer.exchanged = true → peer.connected = true)
    (event : Event) :
    ∀ peer ∈ (step s event).peers, peer.exchanged = true → peer.connected = true := by
  cases event with
  | addPeer =>
      intro peer hpeer hexchanged
      obtain hold | hnew := List.mem_append.mp hpeer
      · exact h peer hold hexchanged
      · rw [List.mem_singleton.mp hnew] at hexchanged
        exact absurd hexchanged Bool.false_ne_true
  | incoming =>
      intro peer hpeer hexchanged
      obtain hold | hnew := List.mem_append.mp hpeer
      · exact h peer hold hexchanged
      · rw [List.mem_singleton.mp hnew]
  | connect n => exact connected_updatePeer h fun _ _ _ => rfl
  | version n message now associated =>
      rw [step]
      obtain ⟨hsame, _⟩ | ⟨hdisconnect, _⟩ | ⟨_, _, _, peer, _, _, hafter⟩ :=
        handleVersionMessage_cases n message now associated s
      · rw [hsame]
        exact h
      · rw [hdisconnect]
        exact connected_disconnect h
      · have hset := connected_updatePeer (n := n) h (f := fun peer : TimedPeer =>
          { peer with version := some message.protocolVersion }) fun _ hkept => hkept
        split at hafter
        next =>
          obtain ⟨waiting, hafter⟩ := hafter
          rw [hafter]
          exact hset
        next =>
          rw [hafter]
          exact connected_adjustNetworkTime hset _
  | answered k =>
      rw [step]
      cases s.waiting[k]? with
      | none => exact h
      | some answer =>
          exact connected_adjustNetworkTime (s := { s with waiting := s.waiting.eraseIdx k }) h _
  | unanswered k => exact h
  | closed n => exact connected_closed h
  | disconnect n => exact connected_disconnect h

/-- A node that has no peers yet. -/
def start (nonce protocolVersion : Nat) (TOLERATED_TIME_DIFF : ℚ) : TimedNode :=
  { nonce, protocolVersion, TOLERATED_TIME_DIFF }

theorem settled_start (nonce protocolVersion : Nat) (TOLERATED_TIME_DIFF : ℚ) :
    (start nonce protocolVersion TOLERATED_TIME_DIFF).Settled where
  msecOffset := rfl
  connected := fun _ hpeer => by simp [start] at hpeer

/-- The offset is exact after every step of a run just when no peer is disconnected that
has a delta, and every delta is recorded for a new connection that is still there. -/
theorem everyStep_exact_iff (nonce protocolVersion : Nat) (TOLERATED_TIME_DIFF : ℚ)
    (events : List Event) :
    Runs.EveryStep step (fun s event => (step s event).Exact)
        (start nonce protocolVersion TOLERATED_TIME_DIFF) events ↔
      Runs.EveryStep step Meets (start nonce protocolVersion TOLERATED_TIME_DIFF) events := by
  apply Runs.everyStep_congr (I := Settled)
  · intro s event hs hexact
    exact ⟨hexact.msecOffset, connected_step hs.connected event⟩
  · exact fun s event hs => exact_step_iff hs event
  · exact settled_start nonce protocolVersion TOLERATED_TIME_DIFF

/-- The only peer of the node has a clock that is 2 ahead, and closes its connection. -/
theorem not_exact_peerGone :
    ¬ Runs.EveryStep step (fun s event => (step s event).Exact) (start 1 1 1000)
      [.addPeer, .connect 0, .version 0 ⟨12, 2, 1⟩ 10 true, .closed 0] := by
  intro h
  have hzero := h.2.2.2.1.zero (by decide +kernel)
  exact absurd hzero (by decide +kernel)

end TimedNode

end CilCore
