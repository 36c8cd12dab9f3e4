import CilCore.Lib.Renamed
import CilCore.Lib.Runs
import Mathlib.Tactic.ByContra

/-!
# The peer manager

`network/peerManager.js` keeps its peers in maps whose keys are the text of the address
followed by the digits of the port. The manager is written here over any keys, so that the
code can be compared with a manager whose keys are the endpoints themselves.
-/

namespace CilCore

/-- An address as text and a port. -/
abbrev Endpoint := String × Nat

/-- What the peer manager uses of the transport. -/
structure Transport (Address : Type) where
  strToAddress : String → Address
  addressToString : Address → String
  isRoutableAddress : String → Bool

/-- What is known about a peer. -/
structure PeerInfo (Address : Type) where
  address : Address
  port : Nat
  failedConnectionsCount : Nat := 0

/-- A peer, as far as the manager looks at it. Whether the manager listens to its events is
kept in `listening`. -/
structure Peer (Address : Type) where
  peerInfo : PeerInfo Address
  connected : Bool := false
  inbound : Bool := false
  persistent : Bool := false
  listening : Bool := false
  bannedTill : Nat
  restrictedTill : Nat
  randomMsecDelta : Nat := 0

def PEER_RESTRICT_TIME : Nat := 2 * 60 * 1000

def PEER_FAILED_CONNECTIONS_LIMIT : Nat := 10

variable {Address : Type}

namespace Peer

variable (transport : Transport Address) (peer : Peer Address)

/-- `address` and `port`. -/
def endpoint : Endpoint :=
  (transport.addressToString peer.peerInfo.address, peer.peerInfo.port)

def isBanned (now : Nat) : Bool := now < peer.bannedTill

def isRestricted (now : Nat) : Bool := !peer.persistent && now < peer.restrictedTill

def isDead : Bool := PEER_FAILED_CONNECTIONS_LIMIT < peer.peerInfo.failedConnectionsCount

def resetFailedConnectionsCount : Peer Address :=
  { peer with peerInfo := { peer.peerInfo with failedConnectionsCount := 0 } }

/-- `updatePeerFromPeerInfo` that updates the address. -/
def updatePeerFromPeerInfo (peerInfo : PeerInfo Address) : Peer Address :=
  { peer with
    peerInfo :=
      { peer.peerInfo with
        port := peerInfo.port
        address :=
          if transport.isRoutableAddress (transport.addressToString peerInfo.address) then
            peerInfo.address
          else peer.peerInfo.address } }

/-- Listen to the events of a peer, or not. -/
def setListening (listening : Bool) : Peer Address := { peer with listening }

/-- `disconnect` of a peer that is connected. -/
def disconnect (now : Nat) : Peer Address :=
  { peer with
    connected := false, inbound := false,
    restrictedTill := now + PEER_RESTRICT_TIME + peer.randomMsecDelta }

/-- Anything changes but the endpoint. -/
def become (after : Peer Address) : Peer Address :=
  { after with
    peerInfo :=
      { after.peerInfo with address := peer.peerInfo.address, port := peer.peerInfo.port } }

theorem endpoint_become (after : Peer Address) :
    (peer.become after).endpoint transport = peer.endpoint transport := rfl

theorem endpoint_resetFailedConnectionsCount :
    peer.resetFailedConnectionsCount.endpoint transport = peer.endpoint transport := rfl

theorem endpoint_setListening (listening : Bool) :
    (peer.setListening listening).endpoint transport = peer.endpoint transport := rfl

theorem endpoint_disconnect (now : Nat) :
    (peer.disconnect now).endpoint transport = peer.endpoint transport := rfl

end Peer

/-- What an operation of the peer manager returns or throws. -/
inductive PeerAnswer where
  | peer (n : Nat)
  | REJECT_BANNED
  | REJECT_RESTRICTED
  | REJECT_REWRITE_DEAD
  | REJECT_DUPLICATE
  | has (found : Bool)
  | removed
  /-- Trying to disconnect already disconnected peer. -/
  | alreadyDisconnected
  /-- Incoming connection dropped. Peer is banned. -/
  | dropped
  /-- Unexpected peer not found in candidates! -/
  | notCandidate
  /-- Peer tries to forge its address! -/
  | forged
  | nothing
deriving DecidableEq

/-- The operations take a peer or what is known about one. -/
inductive PeerArg (Address : Type) where
  | peerInfo (peerInfo : PeerInfo Address)
  | peer (n : Nat)

/-- The manager and all peers that were constructed. The maps lead from keys to peers. -/
structure PeerManager (Address Key : Type) [DecidableEq Key] where
  strictAddresses : Bool
  peers : List (Peer Address) := []
  allPeers : FinMap Key Nat := ∅
  candidatePeers : FinMap Key Nat := ∅
  bannedAddresses : FinMap String Nat := ∅

namespace PeerManager

/-- What happens to a peer manager. -/
inductive Event (Address : Type) where
  | addPeer (peer : PeerArg Address) (bForceRewrite : Bool) (now : Nat)
  | addCandidateConnection (remoteAddress : String) (remotePort now : Nat)
  | associatePeer (n : Nat) (peerInfo : PeerInfo Address) (now : Nat)
  | hasPeer (peer : PeerArg Address) (now : Nat)
  | removePeer (peer : PeerArg Address) (now : Nat)
  /-- Anything happens to a peer that does not change its endpoint. -/
  | happens (n : Nat) (after : Peer Address)
  /-- A peer was banned, and so its address is. -/
  | peerBanned (address : String) (bannedTill : Nat)

variable {Key : Type} [DecidableEq Key] (transport : Transport Address)
  (key : Endpoint → Key)

/-- Change a peer. -/
def updatePeer (n : Nat) (f : Peer Address → Peer Address) (s : PeerManager Address Key) :
    PeerManager Address Key :=
  { s with peers := s.peers.modify n f }

/-- Construct a peer from what is known about it. -/
def toPeer (now : Nat) (s : PeerManager Address Key) :
    PeerArg Address → PeerManager Address Key × Nat
  | .peerInfo peerInfo =>
      ({ s with peers := s.peers ++ [{ peerInfo, bannedTill := now, restrictedTill := now }] },
        s.peers.length)
  | .peer n => (s, n)

/-- The peer that is stored under a key. -/
def existingPeer (k : Key) (s : PeerManager Address Key) : Option (Nat × Peer Address) :=
  (s.allPeers.lookup k).bind fun m => (s.peers[m]?).map fun peer => (m, peer)

/-- Listen to a peer and store it. -/
def storePeer (k : Key) (n : Nat) (s : PeerManager Address Key) : PeerManager Address Key :=
  { s.updatePeer n (·.setListening true) with
    allPeers := s.allPeers.insert k n }

/-- Forget what is stored under a key. -/
def deletePeer (k : Key) (s : PeerManager Address Key) : PeerManager Address Key :=
  { s with allPeers := s.allPeers.erase k }

/-- The last part of `addPeer`, where a peer that is stored may be replaced. -/
def replacePeer (k : Key) (n m : Nat) (bothConnected bForceRewrite : Bool)
    (s : PeerManager Address Key) : PeerManager Address Key × PeerAnswer :=
  if bothConnected then (s, .REJECT_DUPLICATE)
  else if !bForceRewrite then (s, .peer m)
  else ((s.updatePeer m (·.setListening false)).storePeer k n, .peer n)

/-- `addPeer`. -/
def addPeer (n : Nat) (bForceRewrite : Bool) (now : Nat) (s : PeerManager Address Key) :
    PeerManager Address Key × PeerAnswer :=
  match s.peers[n]? with
  | none => (s, .nothing)
  | some peer =>
      let k := key (peer.endpoint transport)
      match s.existingPeer k with
      | none => (s.storePeer k n, .peer n)
      | some (m, existing) =>
          if existing.isBanned now then (s, .REJECT_BANNED)
          else if existing.isRestricted now then (s, .REJECT_RESTRICTED)
          else if existing.isDead && !peer.inbound then (s, .REJECT_REWRITE_DEAD)
          else
            let s := if existing.isDead then s.updatePeer m (·.resetFailedConnectionsCount) else s
            s.replacePeer k n m (existing.connected && peer.connected) bForceRewrite

/-- Construct a peer and keep it as a candidate. -/
def storeCandidate (k : Key) (peer : Peer Address) (s : PeerManager Address Key) :
    PeerManager Address Key :=
  { s with
    peers := s.peers ++ [peer]
    candidatePeers := s.candidatePeers.insert k s.peers.length }

/-- `addCandidateConnection`. -/
def addCandidateConnection (remoteAddress : String) (remotePort now : Nat)
    (s : PeerManager Address Key) : PeerManager Address Key × PeerAnswer :=
  if now < (s.bannedAddresses.lookup remoteAddress).getD 0 then (s, .dropped)
  else
    let newPeer : Peer Address :=
      { peerInfo := { address := transport.strToAddress remoteAddress, port := remotePort }
        connected := true, inbound := true, listening := true
        bannedTill := now, restrictedTill := now }
    (s.storeCandidate (key (newPeer.endpoint transport)) newPeer, .peer s.peers.length)

/-- A peer that is no candidate any more gets the endpoint that it announces. -/
def updateCandidate (n : Nat) (peerInfo : PeerInfo Address) (keyCandidate : Key)
    (s : PeerManager Address Key) : PeerManager Address Key :=
  { s.updatePeer n (·.updatePeerFromPeerInfo transport peerInfo) with
    candidatePeers := s.candidatePeers.erase keyCandidate }

/-- `associatePeer`. -/
def associatePeer [DecidableEq Address] (n : Nat) (peerInfo : PeerInfo Address) (now : Nat)
    (s : PeerManager Address Key) : PeerManager Address Key × PeerAnswer :=
  match s.peers[n]? with
  | none => (s, .nothing)
  | some peer =>
      let keyCandidate := key (peer.endpoint transport)
      if s.candidatePeers.lookup keyCandidate = none then (s, .notCandidate)
      else if s.strictAddresses ∧ peer.peerInfo.address ≠ peerInfo.address then (s, .forged)
      else
        (s.updateCandidate transport n peerInfo keyCandidate).addPeer transport key n true now

/-- `hasPeer`. -/
def hasPeer (n : Nat) (s : PeerManager Address Key) : PeerManager Address Key × PeerAnswer :=
  match s.peers[n]? with
  | none => (s, .nothing)
  | some peer => (s, .has (s.allPeers.lookup (key (peer.endpoint transport))).isSome)

/-- `removePeer`. -/
def removePeer (n now : Nat) (s : PeerManager Address Key) :
    PeerManager Address Key × PeerAnswer :=
  match s.peers[n]? with
  | none => (s, .nothing)
  | some peer =>
      let k := key (peer.endpoint transport)
      match s.existingPeer k with
      | none => (s.deletePeer k, .removed)
      | some (m, foundPeer) =>
          let s := s.updatePeer m (·.setListening false)
          if peer.connected then
            if foundPeer.connected then
              ((s.updatePeer m (·.disconnect now)).deletePeer k, .removed)
            else (s, .alreadyDisconnected)
          else (s.deletePeer k, .removed)

/-- One step. -/
def step [DecidableEq Address] (s : PeerManager Address Key) :
    Event Address → PeerManager Address Key × PeerAnswer
  | .addPeer arg bForceRewrite now =>
      (s.toPeer now arg).1.addPeer transport key (s.toPeer now arg).2 bForceRewrite now
  | .addCandidateConnection remoteAddress remotePort now =>
      s.addCandidateConnection transport key remoteAddress remotePort now
  | .associatePeer n peerInfo now => s.associatePeer transport key n peerInfo now
  | .hasPeer arg now => (s.toPeer now arg).1.hasPeer transport key (s.toPeer now arg).2
  | .removePeer arg now => (s.toPeer now arg).1.removePeer transport key (s.toPeer now arg).2 now
  | .happens n after => (s.updatePeer n (·.become after), .nothing)
  | .peerBanned address bannedTill =>
      ({ s with bannedAddresses := s.bannedAddresses.insert address bannedTill }, .nothing)

/-- `_createKey`. -/
def createKey (endpoint : Endpoint) : String := endpoint.1 ++ toString endpoint.2

/-- The code beside a manager whose keys are the endpoints. -/
structure Compared (Address : Type) where
  code : PeerManager Address String
  ideal : PeerManager Address Endpoint

/-- A peer has an endpoint. -/
def HasEndpoint (s : PeerManager Address Key) (n : Nat) (e : Endpoint) : Prop :=
  (s.peers[n]?).map (·.endpoint transport) = some e

/-- The peers are in the same state, each is stored under its own endpoint and found there,
and nothing else is found. -/
structure Agrees (s : Compared Address) : Prop where
  strictAddresses : s.code.strictAddresses = s.ideal.strictAddresses
  peers : s.code.peers = s.ideal.peers
  bannedAddresses : s.code.bannedAddresses = s.ideal.bannedAddresses
  allPeers : FinMap.Renamed createKey s.ideal.allPeers s.code.allPeers
  candidatePeers : FinMap.Renamed createKey s.ideal.candidatePeers s.code.candidatePeers
  own : ∀ e n, s.ideal.allPeers.lookup e = some n → s.ideal.HasEndpoint transport n e
  ownCandidate : ∀ e n, s.ideal.candidatePeers.lookup e = some n →
    s.ideal.HasEndpoint transport n e

/-- One step of both managers. -/
def Compared.step [DecidableEq Address] (s : Compared Address) (event : Event Address) : Compared Address :=
  ⟨(s.code.step transport createKey event).1, (s.ideal.step transport id event).1⟩

/-- An operation returns what it would if peers were kept by their endpoints, and leaves the
same peers stored under their own endpoints. -/
structure KeepsApart [DecidableEq Address] (s : Compared Address) (event : Event Address) :
    Prop where
  answer : (s.code.step transport createKey event).2 = (s.ideal.step transport id event).2
  agrees : Agrees transport (s.step transport event)

/-- No other stored endpoint has the key of a peer. -/
def FreshPeer (n : Nat) (t : PeerManager Address Endpoint) : Prop :=
  ∀ e, t.HasEndpoint transport n e → FinMap.Fresh createKey t.allPeers e

/-- An operation comes at an endpoint whose key no other endpoint has that is stored then. A
peer that is associated is not stored yet, unless it keeps its endpoint. -/
def Meets [DecidableEq Address] (s : Compared Address) : Event Address → Prop
  | .addPeer arg _ now | .hasPeer arg now | .removePeer arg now =>
      FreshPeer transport (s.ideal.toPeer now arg).2 (s.ideal.toPeer now arg).1
  | .addCandidateConnection remoteAddress remotePort now =>
      (s.ideal.bannedAddresses.lookup remoteAddress).getD 0 ≤ now →
        FinMap.Fresh createKey s.ideal.candidatePeers
          (transport.addressToString (transport.strToAddress remoteAddress), remotePort)
  | .associatePeer n peerInfo _ => ∀ peer, s.ideal.peers[n]? = some peer →
      FinMap.Fresh createKey s.ideal.candidatePeers (peer.endpoint transport) ∧
        (s.ideal.candidatePeers.lookup (peer.endpoint transport) ≠ none →
          ¬ (s.ideal.strictAddresses ∧ peer.peerInfo.address ≠ peerInfo.address) →
          (s.ideal.allPeers.lookup (peer.endpoint transport) = some n →
            (peer.updatePeerFromPeerInfo transport peerInfo).endpoint transport =
              peer.endpoint transport) ∧
          FinMap.Fresh createKey s.ideal.allPeers
            ((peer.updatePeerFromPeerInfo transport peerInfo).endpoint transport))
  | .happens _ _ | .peerBanned _ _ => True

variable {transport} {s : PeerManager Address String} {t : PeerManager Address Endpoint}
  {n : Nat} {e : Endpoint}

/-! ### What is kept by changes of one peer or one map -/

theorem hasEndpoint_updatePeer {manager : PeerManager Address Key}
    {f : Peer Address → Peer Address}
    (hf : ∀ peer, (f peer).endpoint transport = peer.endpoint transport) (m : Nat) :
    (manager.updatePeer m f).HasEndpoint transport n e ↔ manager.HasEndpoint transport n e := by
  unfold HasEndpoint updatePeer
  rw [List.getElem?_modify, Option.map_eq_map, Option.map_map]
  have hsame : ((fun peer : Peer Address => peer.endpoint transport) ∘
      fun peer => if m = n then f peer else peer) = fun peer => peer.endpoint transport := by
    funext peer
    by_cases hm : m = n
    · simp [hm, hf]
    · simp [hm]
  rw [hsame]

theorem HasEndpoint.append (h : t.HasEndpoint transport n e) (more : List (Peer Address)) :
    ({ t with peers := t.peers ++ more } : PeerManager Address Endpoint).HasEndpoint
      transport n e := by
  obtain ⟨peer, hpeer, hendpoint⟩ := Option.map_eq_some_iff.mp h
  unfold HasEndpoint
  rw [List.getElem?_append_left (List.getElem?_eq_some_iff.mp hpeer).1, hpeer]
  exact congrArg some hendpoint

theorem Agrees.updatePeer (h : Agrees transport ⟨s, t⟩) {f : Peer Address → Peer Address}
    (hf : ∀ peer, (f peer).endpoint transport = peer.endpoint transport) (n : Nat) :
    Agrees transport ⟨s.updatePeer n f, t.updatePeer n f⟩ where
  strictAddresses := h.strictAddresses
  peers := congrArg (·.modify n f) h.peers
  bannedAddresses := h.bannedAddresses
  allPeers := h.allPeers
  candidatePeers := h.candidatePeers
  own := fun e m hm => (hasEndpoint_updatePeer hf n).mpr (h.own e m hm)
  ownCandidate := fun e m hm => (hasEndpoint_updatePeer hf n).mpr (h.ownCandidate e m hm)

theorem Agrees.storePeer (h : Agrees transport ⟨s, t⟩) (hn : t.HasEndpoint transport n e)
    (hfresh : FinMap.Fresh createKey t.allPeers e) :
    Agrees transport ⟨s.storePeer (createKey e) n, t.storePeer e n⟩ := by
  have hlisten := h.updatePeer (Peer.endpoint_setListening transport · true) n
  refine { hlisten with allPeers := h.allPeers.insert hfresh n, own := ?_ }
  intro j m hm
  have hm : Finmap.lookup j (t.allPeers.insert e n) = some m := hm
  rw [FinMap.lookup_insert_ite] at hm
  by_cases hj : j = e
  · rw [if_pos hj] at hm
    obtain rfl := Option.some.inj hm
    rw [hj]
    exact (hasEndpoint_updatePeer (Peer.endpoint_setListening transport · true) n).mpr hn
  · rw [if_neg hj] at hm
    exact hlisten.own j m hm

theorem Agrees.deletePeer (h : Agrees transport ⟨s, t⟩)
    (hfresh : FinMap.Fresh createKey t.allPeers e) :
    Agrees transport ⟨s.deletePeer (createKey e), t.deletePeer e⟩ := by
  refine { h with allPeers := h.allPeers.erase hfresh, own := ?_ }
  intro j m hm
  have hm : Finmap.lookup j (t.allPeers.erase e) = some m := hm
  rw [FinMap.lookup_erase_ite] at hm
  by_cases hj : j = e
  · rw [if_pos hj] at hm
    cases hm
  · rw [if_neg hj] at hm
    exact h.own j m hm

theorem Agrees.appendPeer (h : Agrees transport ⟨s, t⟩) (peer : Peer Address) :
    Agrees transport
      ⟨{ s with peers := s.peers ++ [peer] }, { t with peers := t.peers ++ [peer] }⟩ where
  strictAddresses := h.strictAddresses
  peers := congrArg (· ++ [peer]) h.peers
  bannedAddresses := h.bannedAddresses
  allPeers := h.allPeers
  candidatePeers := h.candidatePeers
  own := fun e m hm => (h.own e m hm).append [peer]
  ownCandidate := fun e m hm => (h.ownCandidate e m hm).append [peer]

theorem Agrees.toPeer (h : Agrees transport ⟨s, t⟩) (now : Nat) (arg : PeerArg Address) :
    (s.toPeer now arg).2 = (t.toPeer now arg).2 ∧
      Agrees transport ⟨(s.toPeer now arg).1, (t.toPeer now arg).1⟩ := by
  cases arg with
  | peerInfo peerInfo => exact ⟨congrArg List.length h.peers, h.appendPeer _⟩
  | peer n => exact ⟨rfl, h⟩

theorem Agrees.existingPeer (h : Agrees transport ⟨s, t⟩)
    (hfresh : FinMap.Fresh createKey t.allPeers e) :
    s.existingPeer (createKey e) = t.existingPeer e := by
  unfold PeerManager.existingPeer
  rw [h.allPeers.lookup hfresh]
  rw [show s.peers = t.peers from h.peers]

/-! ### The operations -/

/-- Two results are the same, up to the keys. -/
def SameResult (transport : Transport Address) (x : PeerManager Address String × PeerAnswer)
    (y : PeerManager Address Endpoint × PeerAnswer) : Prop :=
  x.2 = y.2 ∧ Agrees transport ⟨x.1, y.1⟩

theorem sameResult_replacePeer (h : Agrees transport ⟨s, t⟩) (hn : t.HasEndpoint transport n e)
    (hfresh : FinMap.Fresh createKey t.allPeers e) (bothConnected bForceRewrite : Bool)
    (m : Nat) :
    SameResult transport (s.replacePeer (createKey e) n m bothConnected bForceRewrite)
      (t.replacePeer e n m bothConnected bForceRewrite) := by
  cases bothConnected with
  | true => exact ⟨rfl, h⟩
  | false =>
      cases bForceRewrite with
      | false => exact ⟨rfl, h⟩
      | true =>
          have hquiet := h.updatePeer (Peer.endpoint_setListening transport · false) m
          have hn :=
            (hasEndpoint_updatePeer (Peer.endpoint_setListening transport · false) m).mpr hn
          exact ⟨rfl, hquiet.storePeer hn hfresh⟩

theorem sameResult_addPeer (h : Agrees transport ⟨s, t⟩) (hfresh : FreshPeer transport n t)
    (bForceRewrite : Bool) (now : Nat) :
    SameResult transport (s.addPeer transport createKey n bForceRewrite now)
      (t.addPeer transport id n bForceRewrite now) := by
  unfold addPeer
  have hpeers : s.peers = t.peers := h.peers
  rw [hpeers]
  cases hpeer : t.peers[n]? with
  | none => exact ⟨rfl, h⟩
  | some peer =>
      have hn : t.HasEndpoint transport n (peer.endpoint transport) := by
        rw [HasEndpoint, hpeer]
        rfl
      have hkey := hfresh _ hn
      dsimp only [id_eq]
      rw [h.existingPeer hkey]
      cases t.existingPeer (peer.endpoint transport) with
      | none => exact ⟨rfl, h.storePeer hn hkey⟩
      | some found =>
          obtain ⟨m, existing⟩ := found
          dsimp only
          cases existing.isBanned now with
          | true => exact ⟨rfl, h⟩
          | false =>
              cases existing.isRestricted now with
              | true => exact ⟨rfl, h⟩
              | false =>
                  cases existing.isDead with
                  | false => exact sameResult_replacePeer h hn hkey _ _ m
                  | true =>
                      cases peer.inbound with
                      | false => exact ⟨rfl, h⟩
                      | true =>
                          have hreset := h.updatePeer
                            (Peer.endpoint_resetFailedConnectionsCount transport) m
                          have hn := (hasEndpoint_updatePeer
                            (Peer.endpoint_resetFailedConnectionsCount transport) m).mpr hn
                          exact sameResult_replacePeer hreset hn hkey _ _ m

theorem sameResult_hasPeer (h : Agrees transport ⟨s, t⟩) (hfresh : FreshPeer transport n t) :
    SameResult transport (s.hasPeer transport createKey n) (t.hasPeer transport id n) := by
  unfold hasPeer
  have hpeers : s.peers = t.peers := h.peers
  rw [hpeers]
  cases hpeer : t.peers[n]? with
  | none => exact ⟨rfl, h⟩
  | some peer =>
      have hkey := hfresh (peer.endpoint transport) (by rw [HasEndpoint, hpeer]; rfl)
      have hlookup := h.allPeers.lookup hkey
      exact ⟨congrArg (fun found : Option Nat => PeerAnswer.has found.isSome) hlookup, h⟩

theorem sameResult_removePeer (h : Agrees transport ⟨s, t⟩) (hfresh : FreshPeer transport n t)
    (now : Nat) :
    SameResult transport (s.removePeer transport createKey n now)
      (t.removePeer transport id n now) := by
  unfold removePeer
  have hpeers : s.peers = t.peers := h.peers
  rw [hpeers]
  cases hpeer : t.peers[n]? with
  | none => exact ⟨rfl, h⟩
  | some peer =>
      have hkey := hfresh (peer.endpoint transport) (by rw [HasEndpoint, hpeer]; rfl)
      dsimp only [id_eq]
      rw [h.existingPeer hkey]
      cases t.existingPeer (peer.endpoint transport) with
      | none => exact ⟨rfl, h.deletePeer hkey⟩
      | some found =>
          obtain ⟨m, foundPeer⟩ := found
          have hquiet := h.updatePeer (Peer.endpoint_setListening transport · false) m
          dsimp only
          cases peer.connected with
          | false => exact ⟨rfl, hquiet.deletePeer hkey⟩
          | true =>
              cases foundPeer.connected with
              | false => exact ⟨rfl, hquiet⟩
              | true =>
                  have hgone := hquiet.updatePeer (Peer.endpoint_disconnect transport · now) m
                  exact ⟨rfl, hgone.deletePeer hkey⟩

theorem Agrees.storeCandidate (h : Agrees transport ⟨s, t⟩) (peer : Peer Address)
    (hfresh : FinMap.Fresh createKey t.candidatePeers (peer.endpoint transport)) :
    Agrees transport
      ⟨s.storeCandidate (createKey (peer.endpoint transport)) peer,
        t.storeCandidate (peer.endpoint transport) peer⟩ := by
  have hlength : s.peers.length = t.peers.length := congrArg List.length h.peers
  have hmore := h.appendPeer peer
  refine { hmore with candidatePeers := ?_, ownCandidate := ?_ }
  · have hinsert := h.candidatePeers.insert hfresh s.peers.length
    rw [hlength] at hinsert
    have hcode : (s.storeCandidate (createKey (peer.endpoint transport)) peer).candidatePeers =
        s.candidatePeers.insert (createKey (peer.endpoint transport)) t.peers.length := by
      rw [← hlength]
      rfl
    rw [hcode]
    exact hinsert
  · intro j m hm
    have hm : Finmap.lookup j
      (t.candidatePeers.insert (peer.endpoint transport) t.peers.length) = some m := hm
    rw [FinMap.lookup_insert_ite] at hm
    split at hm
    next hj =>
      obtain rfl := Option.some.inj hm
      have hnew : ((t.peers ++ [peer])[t.peers.length]?).map (·.endpoint transport) =
          some (peer.endpoint transport) := by simp
      rw [hj]
      exact hnew
    next => exact hmore.ownCandidate j m hm

theorem sameResult_addCandidateConnection (h : Agrees transport ⟨s, t⟩)
    {remoteAddress : String} {remotePort now : Nat}
    (hfresh : (t.bannedAddresses.lookup remoteAddress).getD 0 ≤ now →
      FinMap.Fresh createKey t.candidatePeers
        (transport.addressToString (transport.strToAddress remoteAddress), remotePort)) :
    SameResult transport
      (s.addCandidateConnection transport createKey remoteAddress remotePort now)
      (t.addCandidateConnection transport id remoteAddress remotePort now) := by
  have hbanned : s.bannedAddresses = t.bannedAddresses := h.bannedAddresses
  have hlength : s.peers.length = t.peers.length := congrArg List.length h.peers
  unfold addCandidateConnection
  by_cases hnow : now < (t.bannedAddresses.lookup remoteAddress).getD 0
  · have hcode : now < (s.bannedAddresses.lookup remoteAddress).getD 0 := by rwa [hbanned]
    rw [if_pos hnow, if_pos hcode]
    exact ⟨rfl, h⟩
  · have hcode : ¬ now < (s.bannedAddresses.lookup remoteAddress).getD 0 := by rwa [hbanned]
    rw [if_neg hnow, if_neg hcode]
    exact ⟨congrArg PeerAnswer.peer hlength, h.storeCandidate _ (hfresh (not_lt.mp hnow))⟩

theorem hasEndpoint_updatePeer_of_ne {m : Nat} (hm : m ≠ n) (f : Peer Address → Peer Address) :
    (t.updatePeer m f).HasEndpoint transport n e ↔ t.HasEndpoint transport n e := by
  unfold HasEndpoint updatePeer
  simp [hm]

theorem getElem?_updateCandidate {manager : PeerManager Address Key} {peer : Peer Address}
    (hpeer : manager.peers[n]? = some peer) (peerInfo : PeerInfo Address) (k : Key) :
    (manager.updateCandidate transport n peerInfo k).peers[n]? =
      some (peer.updatePeerFromPeerInfo transport peerInfo) := by
  simp [updateCandidate, updatePeer, hpeer]

theorem hasEndpoint_updateCandidate {peer : Peer Address} (hpeer : t.peers[n]? = some peer)
    (peerInfo : PeerInfo Address) (k : Endpoint) :
    (t.updateCandidate transport n peerInfo k).HasEndpoint transport n
      ((peer.updatePeerFromPeerInfo transport peerInfo).endpoint transport) := by
  rw [HasEndpoint, getElem?_updateCandidate hpeer]
  rfl

theorem Agrees.updateCandidate (h : Agrees transport ⟨s, t⟩) {peer : Peer Address}
    (hpeer : t.peers[n]? = some peer) {peerInfo : PeerInfo Address}
    (hfresh : FinMap.Fresh createKey t.candidatePeers (peer.endpoint transport))
    (hown : t.allPeers.lookup (peer.endpoint transport) = some n →
      (peer.updatePeerFromPeerInfo transport peerInfo).endpoint transport =
        peer.endpoint transport) :
    Agrees transport
      ⟨s.updateCandidate transport n peerInfo (createKey (peer.endpoint transport)),
        t.updateCandidate transport n peerInfo (peer.endpoint transport)⟩ where
  strictAddresses := h.strictAddresses
  peers := congrArg (·.modify n (·.updatePeerFromPeerInfo transport peerInfo)) h.peers
  bannedAddresses := h.bannedAddresses
  allPeers := h.allPeers
  candidatePeers := h.candidatePeers.erase hfresh
  own := by
    intro j m hm
    have hj := h.own j m hm
    by_cases hmn : n = m
    · subst hmn
      have hsame : peer.endpoint transport = j := by
        rw [HasEndpoint, hpeer] at hj
        exact Option.some.inj hj
      rw [← hsame] at hm ⊢
      rw [← hown hm]
      exact hasEndpoint_updateCandidate hpeer peerInfo _
    · exact (hasEndpoint_updatePeer_of_ne hmn _).mpr hj
  ownCandidate := by
    intro j m hm
    have hm : Finmap.lookup j (t.candidatePeers.erase (peer.endpoint transport)) = some m := hm
    rw [FinMap.lookup_erase_ite] at hm
    split at hm
    next => cases hm
    next hne =>
      have hj := h.ownCandidate j m hm
      refine (hasEndpoint_updatePeer_of_ne ?_ _).mpr hj
      intro hmn
      subst hmn
      rw [HasEndpoint, hpeer] at hj
      exact hne (Option.some.inj hj).symm

theorem sameResult_associatePeer [DecidableEq Address] (h : Agrees transport ⟨s, t⟩)
    {peerInfo : PeerInfo Address} {now : Nat}
    (hmeets : Meets transport ⟨s, t⟩ (.associatePeer n peerInfo now)) :
    SameResult transport (s.associatePeer transport createKey n peerInfo now)
      (t.associatePeer transport id n peerInfo now) := by
  have hpeers : s.peers = t.peers := h.peers
  have hstrict : s.strictAddresses = t.strictAddresses := h.strictAddresses
  unfold associatePeer
  rw [hpeers]
  cases hpeer : t.peers[n]? with
  | none => exact ⟨rfl, h⟩
  | some peer =>
      obtain ⟨hfresh, hfound⟩ := hmeets peer hpeer
      dsimp only [id_eq]
      rw [h.candidatePeers.lookup hfresh, hstrict]
      by_cases hcandidate : t.candidatePeers.lookup (peer.endpoint transport) = none
      · simp only [if_pos hcandidate]
        exact ⟨rfl, h⟩
      simp only [if_neg hcandidate]
      by_cases hforged :
        t.strictAddresses = true ∧ peer.peerInfo.address ≠ peerInfo.address
      · simp only [if_pos hforged]
        exact ⟨rfl, h⟩
      simp only [if_neg hforged]
      obtain ⟨hown, hkey⟩ := hfound hcandidate hforged
      apply sameResult_addPeer (h.updateCandidate hpeer hfresh hown)
      intro e he
      have hnew := (hasEndpoint_updateCandidate hpeer peerInfo _).symm.trans he
      rw [← Option.some.inj hnew]
      exact hkey

/-! ### The converse -/

/-- A stored endpoint has a key of its own. -/
theorem Agrees.fresh_of_lookup (h : Agrees transport ⟨s, t⟩) (he : t.allPeers.lookup e = some n) :
    FinMap.Fresh createKey t.allPeers e := by
  intro j m hj hname
  have hsame := h.allPeers.found j m hj
  rw [hname, h.allPeers.found e n he] at hsame
  obtain rfl := Option.some.inj hsame
  have hown := h.own j n hj
  rw [HasEndpoint, h.own e n he] at hown
  exact (Option.some.inj hown).symm

theorem Agrees.fresh_of_lookup_candidate (h : Agrees transport ⟨s, t⟩)
    (he : t.candidatePeers.lookup e = some n) :
    FinMap.Fresh createKey t.candidatePeers e := by
  intro j m hj hname
  have hsame := h.candidatePeers.found j m hj
  rw [hname, h.candidatePeers.found e n he] at hsame
  obtain rfl := Option.some.inj hsame
  have hown := h.ownCandidate j n hj
  rw [HasEndpoint, h.ownCandidate e n he] at hown
  exact (Option.some.inj hown).symm

theorem hasEndpoint_storePeer {manager : PeerManager Address Key} (k : Key) (m : Nat) :
    (manager.storePeer k m).HasEndpoint transport n e ↔ manager.HasEndpoint transport n e :=
  hasEndpoint_updatePeer (Peer.endpoint_setListening transport · true) m

/-- The result of adding a peer is not that of a missing candidate, the endpoints of all
peers stay, and at most one entry is written. -/
structure Added (transport : Transport Address) (manager : PeerManager Address Key) (k : Key)
    (n : Nat) (after : PeerManager Address Key × PeerAnswer) : Prop where
  answer : after.2 ≠ .notCandidate
  hasEndpoint : ∀ m e, after.1.HasEndpoint transport m e ↔ manager.HasEndpoint transport m e
  allPeers : after.1.allPeers = manager.allPeers ∨
    after.1.allPeers = manager.allPeers.insert k n

theorem added_replacePeer {manager : PeerManager Address Key} (k : Key) (n m : Nat)
    (bothConnected bForceRewrite : Bool) :
    Added transport manager k n (manager.replacePeer k n m bothConnected bForceRewrite) := by
  cases bothConnected with
  | true => exact ⟨by simp [replacePeer], fun _ _ => Iff.rfl, .inl rfl⟩
  | false =>
      cases bForceRewrite with
      | false => exact ⟨by simp [replacePeer], fun _ _ => Iff.rfl, .inl rfl⟩
      | true =>
          refine ⟨by simp [replacePeer], fun _ _ => (hasEndpoint_storePeer k n).trans ?_, .inr rfl⟩
          exact hasEndpoint_updatePeer (Peer.endpoint_setListening transport · false) m

theorem added_addPeer {manager : PeerManager Address Key} {peer : Peer Address}
    (hpeer : manager.peers[n]? = some peer) (key : Endpoint → Key) (bForceRewrite : Bool)
    (now : Nat) :
    Added transport manager (key (peer.endpoint transport)) n
      (manager.addPeer transport key n bForceRewrite now) := by
  unfold addPeer
  rw [hpeer]
  dsimp only
  cases manager.existingPeer (key (peer.endpoint transport)) with
  | none => exact ⟨by simp, fun _ _ => hasEndpoint_storePeer _ n, .inr rfl⟩
  | some found =>
      obtain ⟨m, existing⟩ := found
      dsimp only
      cases existing.isBanned now with
      | true => exact ⟨by simp, fun _ _ => Iff.rfl, .inl rfl⟩
      | false =>
          cases existing.isRestricted now with
          | true => exact ⟨by simp, fun _ _ => Iff.rfl, .inl rfl⟩
          | false =>
              cases existing.isDead with
              | false => exact added_replacePeer _ n m _ _
              | true =>
                  cases peer.inbound with
                  | false => exact ⟨by simp, fun _ _ => Iff.rfl, .inl rfl⟩
                  | true =>
                      let reset := manager.updatePeer m (·.resetFailedConnectionsCount)
                      have hreplaced : Added transport reset (key (peer.endpoint transport)) n
                          (reset.replacePeer (key (peer.endpoint transport)) n m
                            (existing.connected && peer.connected) bForceRewrite) :=
                        added_replacePeer _ n m _ _
                      refine ⟨hreplaced.answer, fun k e => (hreplaced.hasEndpoint k e).trans ?_,
                        hreplaced.allPeers⟩
                      exact hasEndpoint_updatePeer
                        (Peer.endpoint_resetFailedConnectionsCount transport) m

theorem existingPeer_eq_none (h : t.allPeers.lookup e = none) : t.existingPeer e = none := by
  rw [existingPeer, h]
  rfl

theorem hasEndpoint_iff : t.HasEndpoint transport n e ↔
    ∃ peer, t.peers[n]? = some peer ∧ peer.endpoint transport = e :=
  Option.map_eq_some_iff

/-- If adding a peer has the right result, then its key is its own. -/
theorem freshPeer_of_addPeer (h : Agrees transport ⟨s, t⟩) {bForceRewrite : Bool} {now : Nat}
    (hsame : Agrees transport ⟨(s.addPeer transport createKey n bForceRewrite now).1,
      (t.addPeer transport id n bForceRewrite now).1⟩) :
    FreshPeer transport n t := by
  intro e he
  cases hlookup : t.allPeers.lookup e with
  | some m => exact h.fresh_of_lookup hlookup
  | none =>
      obtain ⟨peer, hpeer, rfl⟩ := hasEndpoint_iff.mp he
      have hnew : (t.addPeer transport id n bForceRewrite now).1 =
          t.storePeer (peer.endpoint transport) n := by
        unfold addPeer
        rw [hpeer]
        dsimp only [id_eq]
        rw [existingPeer_eq_none hlookup]
      rw [hnew] at hsame
      have hstored : (t.storePeer (peer.endpoint transport) n).allPeers.lookup
          (peer.endpoint transport) = some n := Finmap.lookup_insert t.allPeers
      intro j m hj hname
      refine hsame.fresh_of_lookup hstored j m ?_ hname
      have hne : j ≠ peer.endpoint transport := by
        intro heq
        rw [heq, hlookup] at hj
        cases hj
      exact (Finmap.lookup_insert_of_ne t.allPeers hne).trans hj

theorem freshPeer_of_hasPeer (h : Agrees transport ⟨s, t⟩)
    (hsame : (s.hasPeer transport createKey n).2 = (t.hasPeer transport id n).2) :
    FreshPeer transport n t := by
  intro e he
  cases hlookup : t.allPeers.lookup e with
  | some m => exact h.fresh_of_lookup hlookup
  | none =>
      obtain ⟨peer, hpeer, rfl⟩ := hasEndpoint_iff.mp he
      have hpeers : s.peers = t.peers := h.peers
      have hcode : s.peers[n]? = some peer := by rw [hpeers, hpeer]
      unfold hasPeer at hsame
      rw [hcode, hpeer] at hsame
      dsimp only [id_eq] at hsame
      rw [hlookup] at hsame
      intro j m hj hname
      have hfound := h.allPeers.found j m hj
      rw [hname] at hfound
      rw [hfound] at hsame
      cases hsame

/-- Where `removePeer` ends without an exception, nothing is stored under the key. -/
theorem allPeers_removePeer {manager : PeerManager Address Key} {peer : Peer Address}
    (hpeer : manager.peers[n]? = some peer) (key : Endpoint → Key) (now : Nat)
    (hremoved : (manager.removePeer transport key n now).2 = .removed) :
    (manager.removePeer transport key n now).1.allPeers =
      manager.allPeers.erase (key (peer.endpoint transport)) := by
  unfold removePeer at hremoved ⊢
  rw [hpeer] at hremoved ⊢
  dsimp only at hremoved ⊢
  cases hexisting : manager.existingPeer (key (peer.endpoint transport)) with
  | none => rfl
  | some found =>
      rw [hexisting] at hremoved
      dsimp only at hremoved ⊢
      cases hconnected : peer.connected with
      | false => rfl
      | true =>
          cases hfound : found.2.connected with
          | true => rfl
          | false =>
              rw [hconnected, hfound] at hremoved
              cases hremoved

theorem freshPeer_of_removePeer (h : Agrees transport ⟨s, t⟩) {now : Nat}
    (hsame : SameResult transport (s.removePeer transport createKey n now)
      (t.removePeer transport id n now)) :
    FreshPeer transport n t := by
  intro e he
  cases hlookup : t.allPeers.lookup e with
  | some m => exact h.fresh_of_lookup hlookup
  | none =>
      obtain ⟨peer, hpeer, rfl⟩ := hasEndpoint_iff.mp he
      have hpeers : s.peers = t.peers := h.peers
      have hcode : s.peers[n]? = some peer := by rw [hpeers, hpeer]
      have hideal : t.removePeer transport id n now =
          (t.deletePeer (peer.endpoint transport), .removed) := by
        unfold removePeer
        rw [hpeer]
        dsimp only [id_eq]
        rw [existingPeer_eq_none hlookup]
      obtain ⟨hanswer, hagrees⟩ := hsame
      rw [hideal] at hanswer hagrees
      have herased := allPeers_removePeer hcode createKey now hanswer
      intro j m hj hname
      by_contra hne
      have hkept : (t.deletePeer (peer.endpoint transport)).allPeers.lookup j = some m :=
        (Finmap.lookup_erase_ne hne).trans hj
      have hfound : (s.removePeer transport createKey n now).1.allPeers.lookup (createKey j) =
          some m := hagrees.allPeers.found j m hkept
      rw [herased, hname, Finmap.lookup_erase] at hfound
      cases hfound

theorem fresh_of_addCandidateConnection (h : Agrees transport ⟨s, t⟩) {remoteAddress : String}
    {remotePort now : Nat} (hnow : (t.bannedAddresses.lookup remoteAddress).getD 0 ≤ now)
    (hsame : Agrees transport
      ⟨(s.addCandidateConnection transport createKey remoteAddress remotePort now).1,
        (t.addCandidateConnection transport id remoteAddress remotePort now).1⟩) :
    FinMap.Fresh createKey t.candidatePeers
      (transport.addressToString (transport.strToAddress remoteAddress), remotePort) := by
  cases hlookup : t.candidatePeers.lookup
      (transport.addressToString (transport.strToAddress remoteAddress), remotePort) with
  | some m => exact h.fresh_of_lookup_candidate hlookup
  | none =>
      have hstored : (t.addCandidateConnection transport id remoteAddress remotePort
          now).1.candidatePeers = t.candidatePeers.insert
            (transport.addressToString (transport.strToAddress remoteAddress), remotePort)
            t.peers.length := by
        rw [addCandidateConnection, if_neg (not_lt.mpr hnow)]
        rfl
      intro j m hj hname
      refine hsame.fresh_of_lookup_candidate (n := t.peers.length) ?_ j m ?_ hname
      · rw [hstored]
        exact Finmap.lookup_insert t.candidatePeers
      · rw [hstored]
        have hne : j ≠
            (transport.addressToString (transport.strToAddress remoteAddress), remotePort) := by
          intro heq
          rw [heq, hlookup] at hj
          cases hj
        exact (Finmap.lookup_insert_of_ne t.candidatePeers hne).trans hj

theorem added_updateCandidate {manager : PeerManager Address Key} {peer : Peer Address}
    (hpeer : manager.peers[n]? = some peer) (transport : Transport Address)
    (peerInfo : PeerInfo Address) (k : Key) (key : Endpoint → Key) (now : Nat) :
    Added transport (manager.updateCandidate transport n peerInfo k)
      (key ((peer.updatePeerFromPeerInfo transport peerInfo).endpoint transport)) n
      ((manager.updateCandidate transport n peerInfo k).addPeer transport key n true now) :=
  added_addPeer (getElem?_updateCandidate hpeer peerInfo k) key true now

theorem meets_of_associatePeer [DecidableEq Address] (h : Agrees transport ⟨s, t⟩)
    {peerInfo : PeerInfo Address} {now : Nat}
    (hsame : SameResult transport (s.associatePeer transport createKey n peerInfo now)
      (t.associatePeer transport id n peerInfo now)) :
    Meets transport ⟨s, t⟩ (.associatePeer n peerInfo now) := by
  intro peer hpeer
  have hpeer : t.peers[n]? = some peer := hpeer
  have hpeers : s.peers = t.peers := h.peers
  have hstrict : s.strictAddresses = t.strictAddresses := h.strictAddresses
  have hcode : s.peers[n]? = some peer := by rw [hpeers, hpeer]
  have hfresh : FinMap.Fresh createKey t.candidatePeers (peer.endpoint transport) := by
    cases hcandidate : t.candidatePeers.lookup (peer.endpoint transport) with
    | some m => exact h.fresh_of_lookup_candidate hcandidate
    | none =>
        intro j m hj hname
        have hfound : s.candidatePeers.lookup (createKey j) = some m :=
          h.candidatePeers.found j m hj
        have hanswer := hsame.1
        unfold associatePeer at hanswer
        rw [hcode, hpeer] at hanswer
        dsimp only [id_eq] at hanswer
        rw [if_pos hcandidate, ← hname, if_neg (by rw [hfound]; exact Option.some_ne_none m)]
          at hanswer
        split at hanswer
        next => cases hanswer
        next =>
          rw [hname] at hanswer
          have hadded := added_updateCandidate hcode transport peerInfo
            (createKey (peer.endpoint transport)) createKey now
          exact absurd hanswer hadded.answer
  refine ⟨hfresh, fun hcandidate hforged => ?_⟩
  have hcandidate : t.candidatePeers.lookup (peer.endpoint transport) ≠ none := hcandidate
  have hforged : ¬ (t.strictAddresses = true ∧ peer.peerInfo.address ≠ peerInfo.address) :=
    hforged
  unfold associatePeer at hsame
  rw [hcode, hpeer] at hsame
  dsimp only [id_eq] at hsame
  rw [h.candidatePeers.lookup hfresh, hstrict, if_neg hcandidate, if_neg hcandidate,
    if_neg hforged, if_neg hforged] at hsame
  have hadded := added_updateCandidate hpeer transport peerInfo (peer.endpoint transport) id now
  have hnew : (t.updateCandidate transport n peerInfo
      (peer.endpoint transport)).HasEndpoint transport n
        ((peer.updatePeerFromPeerInfo transport peerInfo).endpoint transport) :=
    hasEndpoint_updateCandidate hpeer peerInfo _
  have hown (hstored : t.allPeers.lookup (peer.endpoint transport) = some n) :
      (peer.updatePeerFromPeerInfo transport peerInfo).endpoint transport =
        peer.endpoint transport := by
    by_contra hne
    have hkept : (((t.updateCandidate transport n peerInfo (peer.endpoint transport)).addPeer
        transport id n true now).1.allPeers).lookup (peer.endpoint transport) = some n := by
      obtain hsame | hinsert := hadded.allPeers
      · rw [hsame]
        exact hstored
      · rw [hinsert]
        exact (Finmap.lookup_insert_of_ne t.allPeers (Ne.symm hne)).trans hstored
    have hold := (hadded.hasEndpoint n _).mp (hsame.2.own _ n hkept)
    exact hne (Option.some.inj (hnew.symm.trans hold))
  exact ⟨hown, freshPeer_of_addPeer (h.updateCandidate hpeer hfresh hown) hsame.2 _ hnew⟩

/-! ### Runs -/

/-- Both managers have no peers yet. -/
def Compared.start (Address : Type) (strictAddresses : Bool) : Compared Address :=
  ⟨{ strictAddresses }, { strictAddresses }⟩

theorem agrees_start (strictAddresses : Bool) :
    Agrees transport (Compared.start Address strictAddresses) where
  strictAddresses := rfl
  peers := rfl
  bannedAddresses := rfl
  allPeers := FinMap.Renamed.empty createKey
  candidatePeers := FinMap.Renamed.empty createKey
  own := fun e n hn => by simp [Compared.start] at hn
  ownCandidate := fun e n hn => by simp [Compared.start] at hn

variable [DecidableEq Address]

/-- One step keeps the peers apart just when the condition is met. -/
theorem keepsApart_iff (h : Agrees transport ⟨s, t⟩) (event : Event Address) :
    KeepsApart transport ⟨s, t⟩ event ↔ Meets transport ⟨s, t⟩ event := by
  have hsplit : KeepsApart transport ⟨s, t⟩ event ↔
      SameResult transport (s.step transport createKey event) (t.step transport id event) :=
    ⟨fun hkeeps => ⟨hkeeps.answer, hkeeps.agrees⟩, fun hsame => ⟨hsame.1, hsame.2⟩⟩
  rw [hsplit]
  cases event with
  | addPeer arg bForceRewrite now =>
      obtain ⟨hn, hpeer⟩ := h.toPeer now arg
      rw [step, step, Meets, hn]
      constructor
      · exact fun hsame => freshPeer_of_addPeer hpeer hsame.2
      · exact fun hfresh => sameResult_addPeer hpeer hfresh bForceRewrite now
  | addCandidateConnection remoteAddress remotePort now =>
      constructor
      · exact fun hsame hnow => fresh_of_addCandidateConnection h hnow hsame.2
      · exact fun hfresh => sameResult_addCandidateConnection h hfresh
  | associatePeer n peerInfo now =>
      exact ⟨meets_of_associatePeer h, sameResult_associatePeer h⟩
  | hasPeer arg now =>
      obtain ⟨hn, hpeer⟩ := h.toPeer now arg
      rw [step, step, Meets, hn]
      constructor
      · exact fun hsame => freshPeer_of_hasPeer hpeer hsame.1
      · exact fun hfresh => sameResult_hasPeer hpeer hfresh
  | removePeer arg now =>
      obtain ⟨hn, hpeer⟩ := h.toPeer now arg
      rw [step, step, Meets, hn]
      constructor
      · exact fun hsame => freshPeer_of_removePeer hpeer hsame
      · exact fun hfresh => sameResult_removePeer hpeer hfresh now
  | happens n after =>
      exact iff_of_true ⟨rfl, h.updatePeer (Peer.endpoint_become transport · after) n⟩ trivial
  | peerBanned address bannedTill =>
      refine iff_of_true ⟨rfl, { h with bannedAddresses := ?_ }⟩ trivial
      exact congrArg (Finmap.insert address bannedTill) h.bannedAddresses

/-- Peers of different endpoints are kept apart in every step of a run just when every
operation comes at an endpoint whose key no other endpoint has that is stored then. -/
theorem everyStep_keepsApart_iff (strictAddresses : Bool) (events : List (Event Address)) :
    Runs.EveryStep (Compared.step transport) (KeepsApart transport)
        (Compared.start Address strictAddresses) events ↔
      Runs.EveryStep (Compared.step transport) (Meets transport)
        (Compared.start Address strictAddresses) events := by
  apply Runs.everyStep_congr (I := Agrees transport)
  · exact fun _ _ _ hkeeps => hkeeps.agrees
  · exact fun _ event hs => keepsApart_iff hs event
  · exact agrees_start strictAddresses

/-- A transport of the IPv4 addresses that are given by their four bytes. -/
def ipv4Transport : Transport (List Nat) where
  strToAddress := fun _ => []
  addressToString := fun bytes => String.intercalate "." (bytes.map toString)
  isRoutableAddress := fun _ => true

/-- The second peer is refused, since the text of both is 1.2.3.4123. -/
theorem not_keepsApart_joinedText :
    ¬ Runs.EveryStep (Compared.step ipv4Transport) (KeepsApart ipv4Transport)
      (Compared.start (List Nat) false)
      [.addPeer (.peerInfo ⟨[1, 2, 3, 4], 123, 0⟩) false 0,
        .addPeer (.peerInfo ⟨[1, 2, 3, 41], 23, 0⟩) false 0] := by
  intro h
  exact absurd h.2.1.answer (by decide +kernel)

end PeerManager

end CilCore
