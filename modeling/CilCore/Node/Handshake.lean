import CilCore.Network.PeerState

/-!
# The handshake of two nodes

One node connects to another, they exchange versions and acknowledge them, and from then on
they ask each other for addresses and blocks. Each end has its own `Peer` for the other one, and
`_incomingMessage` of `node/node.js` refuses what comes too early. Both nodes follow the
protocol here. Everything else may happen at any time: the order in which the messages on the
way arrive at the two ends, limits, heartbeats, penalties, bans and closings.
-/

namespace CilCore

namespace Handshake

/-- What is asked for, or sent to those who asked. -/
inductive Request where
  | getAddr
  | other (n : Nat)

/-- The messages between the nodes. A request is early if it was sent before its sender
acknowledged the version of the other end. -/
inductive Msg where
  | ping
  | pong
  | reject
  | version
  | verAck
  | request (content : Request) (early : Bool)

/-- What both nodes have in common. -/
structure Setup where
  protocolVersion : Nat
  /-- The length of a payload. -/
  size : Msg → Nat

variable (S : Setup)

/-- A message, as the peer state knows it. -/
def Setup.seen : Msg → PeerState.Message
  | .ping => .ping
  | .pong => .pong
  | .reject => .reject
  | .version => .version (.compatible S.protocolVersion)
  | .verAck => .verAck
  | .request _ _ => .request

/-- The two ends of a connection. The end `false` has opened it, and it came in at the end
`true`. -/
structure Link where
  peer : Bool → PeerState
  /-- What is on the way to an end. -/
  channel : Bool → List Msg
  /-- The end `true` has rejected the other one. -/
  rejected : Bool

/-- How many parts of the handshake an end has received. -/
def received (p : PeerState) : Nat :=
  if p.version = none then 0 else if p.handshakeDone then 2 else 1

/-- How many parts of the handshake an end has sent. -/
def sent (rejected : Bool) (p : PeerState) : Bool → Nat
  | false => if p.version = none then 1 else 2
  | true => if p.version = none ∨ rejected then 0 else 2

/-- Push some messages. A peer without a connection sends nothing. -/
def push (now : Nat) : PeerState → List Msg → PeerState × List Msg
  | p, [] => (p, [])
  | p, msg :: msgs =>
      let r := push now (p.sent (S.size msg) now) msgs
      (r.1, if p.connection then msg :: r.2 else r.2)

/-- What a node pushes in return for a message. -/
def replies (accepted early : Bool) (answers : List Request) (p : PeerState) : Msg → List Msg
  | .ping => [.pong]
  | .pong | .reject => []
  | .version =>
      if p.version = none then
        if p.bInbound then if accepted then [.version, .verAck] else [.reject]
        else [.verAck]
      else []
  | .verAck => if p.version = none then [] else [.request .getAddr early]
  | .request _ _ => if p.fullyConnected then answers.map (.request · early) else []

/-- What happens to a peer without a message and without a new connection. -/
def Own : PeerState.Action → Bool
  | .message _ _ | .connected _ => false
  | _ => true

/-- What happens at an end. -/
inductive Action where
  /-- The next message arrives. If it is the version of a peer whose connection came in, the
  peer manager accepts the peer or not. If it is a request, it gets some answers. -/
  | deliver (accepted : Bool) (answers : List Request)
  /-- The node sends a request to a peer that is connected. -/
  | request (content : Request)
  | ping
  /-- The timer of the peer, a penalty, a ban, a closing and so on. -/
  | own (action : PeerState.Action) (h : Own action = true)

/-- What happens, where and when. -/
structure Event where
  side : Bool
  now : Nat
  action : Action

namespace Link

/-- A peer changes and has sent something. What is on the way to a closed end is lost. -/
def set (l : Link) (e : Bool) (p : PeerState) (out : List Msg) : Link where
  peer d := if d = e then p else l.peer d
  channel d := if d = e then if p.connection then l.channel d else [] else l.channel d ++ out
  rejected := l.rejected

/-- The next message is taken from a channel. -/
def take (l : Link) (e : Bool) (rest : List Msg) (rejected : Bool) : Link where
  peer := l.peer
  channel d := if d = e then rest else l.channel d
  rejected := rejected

/-- An end pushes some messages. -/
def pushAll (l : Link) (e : Bool) (now : Nat) (p : PeerState) (msgs : List Msg) : Link :=
  l.set e (push S now p msgs).1 (push S now p msgs).2

/-- What is sent by an end now is early. -/
def early (l : Link) (e : Bool) : Bool := sent l.rejected (l.peer e) e < 2

/-- Whether a message makes an end reject the other one. -/
def rejects (accepted : Bool) (p : PeerState) : Msg → Bool
  | .version => p.version = none && p.bInbound && !accepted
  | _ => false

/-- `_onMessageHandler` and what follows from it. -/
def deliver (l : Link) (e : Bool) (now : Nat) (accepted : Bool) (answers : List Request) : Link :=
  match l.channel e with
  | [] => l
  | msg :: rest =>
      let p := (l.peer e).arrive now (S.size msg)
      (l.take e rest (l.rejected || rejects accepted p msg)).pushAll S e now
        (p.incomingMessage now (S.seen msg)) (replies accepted (l.early e) answers p msg)

/-- One step. An end that is closed takes no part any more. -/
def step (l : Link) (event : Event) : Link :=
  let e := event.side
  let p := l.peer e
  if p.disconnected then l
  else
    match event.action with
    | .deliver accepted answers => l.deliver S e event.now accepted answers
    | .request content => l.pushAll S e event.now p [.request content (l.early e)]
    | .ping => l.pushAll S e event.now p [.ping]
    | .own action _ => l.set e (p.act event.now action) []

/-- One end has connected to the other and sent its version. -/
structure Starts (l : Link) : Prop where
  connection : ∀ e, (l.peer e).connection = true
  version : ∀ e, (l.peer e).version = none
  handshakeDone : ∀ e, (l.peer e).handshakeDone = false
  bInbound : ∀ e, (l.peer e).bInbound = e
  incoming : l.channel true = [.version]
  outgoing : l.channel false = []
  rejected : l.rejected = false

end Link

/-- The node punishes the peer for the place of a message in the conversation. -/
def refuses (p : PeerState) : Msg → Bool
  | .version => p.version ≠ none
  | .request _ _ => !p.fullyConnected
  | _ => false

def Msg.isRequest : Msg → Bool
  | .request _ _ => true
  | _ => false

def Msg.isEarly : Msg → Bool
  | .request _ early => early
  | _ => false

/-! ### What is on the way -/

/-- The stages of the handshake that the messages lead through. -/
def next (n : Nat) : Msg → Option Nat
  | .ping | .pong | .reject => some n
  | .version => if n = 0 then some 1 else none
  | .verAck => if n = 1 then some 2 else none
  | .request _ early => if early = decide (n < 2) then some n else none

/-- The stage after some messages. -/
def follow (n : Nat) (msgs : List Msg) : Option Nat := msgs.foldlM next n

section Follow

variable {n k : Nat} {msg : Msg} {msgs out : List Msg}

@[simp] theorem follow_nil (n : Nat) : follow n [] = some n := rfl

theorem follow_cons (n : Nat) (msg : Msg) (msgs : List Msg) :
    follow n (msg :: msgs) = (next n msg).bind (follow · msgs) := rfl

theorem follow_append (n : Nat) (msgs more : List Msg) :
    follow n (msgs ++ more) = (follow n msgs).bind (follow · more) :=
  List.foldlM_append

theorem next_le (h : next n msg = some k) : n ≤ k := by
  cases msg with
  | ping | pong | reject => exact (Option.some.inj h).le
  | version | verAck | request =>
      rw [next] at h
      split at h
      · cases h
        omega
      · cases h

/-- The handshake does not go back. -/
theorem follow_le (h : follow n msgs = some k) : n ≤ k := by
  induction msgs generalizing n with
  | nil => exact (Option.some.inj h).le
  | cons msg msgs ih =>
      obtain ⟨i, hnext, hrest⟩ := Option.bind_eq_some_iff.mp h
      exact (next_le hnext).trans (ih hrest)

theorem exists_follow_prefix (h : follow n msgs = some k) (hout : out <+: msgs) :
    ∃ i, follow n out = some i := by
  obtain ⟨more, rfl⟩ := hout
  rw [follow_append] at h
  obtain ⟨i, hi, -⟩ := Option.bind_eq_some_iff.mp h
  exact ⟨i, hi⟩

/-- Requests that are marked as they should be lead nowhere. -/
theorem follow_requests (n : Nat) (answers : List Request) :
    follow n (answers.map (.request · (decide (n < 2)))) = some n := by
  induction answers with
  | nil => rfl
  | cons answer answers ih => rw [List.map_cons, follow_cons, next, if_pos rfl, Option.bind_some, ih]

end Follow

section Push

variable {p : PeerState} {now : Nat} {msgs : List Msg}

/-- A closed end pushes nothing. -/
theorem push_closed (h : p.connection = false) :
    (push S now p msgs).1.connection = false ∧ (push S now p msgs).2 = [] := by
  induction msgs generalizing p with
  | nil => exact ⟨h, rfl⟩
  | cons msg msgs ih =>
      have hsent : (p.sent (S.size msg) now).connection = false := by
        by_contra hopen
        rw [Bool.not_eq_false] at hopen
        rw [(PeerState.tightens_sent.connection hopen).connection] at h
        cases h
      obtain ⟨hrest, hout⟩ := ih hsent
      exact ⟨hrest, (if_neg (by simp [h])).trans hout⟩

/-- A push that does not close the connection sends everything. -/
theorem push_open (h : (push S now p msgs).1.connection = true) :
    PeerState.SameSession p (push S now p msgs).1 ∧ (push S now p msgs).2 = msgs := by
  induction msgs generalizing p with
  | nil => exact ⟨⟨h, rfl, rfl, rfl, rfl⟩, rfl⟩
  | cons msg msgs ih =>
      obtain ⟨hrest, hout⟩ := ih h
      have hfirst := PeerState.tightens_sent.connection hrest.connection
      refine ⟨hfirst.trans hrest, ?_⟩
      rw [push, if_pos hfirst.connection, hout]

theorem prefix_push : (push S now p msgs).2 <+: msgs := by
  induction msgs generalizing p with
  | nil => exact List.prefix_rfl
  | cons msg msgs ih =>
      cases hopen : p.connection with
      | true =>
          rw [push, if_pos hopen]
          exact List.cons_prefix_cons.mpr ⟨rfl, ih⟩
      | false =>
          rw [(push_closed S hopen).2]
          exact List.nil_prefix

end Push

/-! ### What holds of a connection -/

/-- What is on the way to an end leads from what it has received to what the other has sent. -/
structure Follows (l : Link) : Prop where
  bInbound : ∀ e, (l.peer e).connection = true → (l.peer e).bInbound = e
  handshakeDone : ∀ e, (l.peer e).connection = true → (l.peer e).version = none →
    (l.peer e).handshakeDone = false
  rejected : (l.peer true).connection = true → (l.peer true).version = none → l.rejected = false
  flows : ∀ e, (l.peer e).connection = true → ∃ k,
    follow (received (l.peer e)) (l.channel e) = some k ∧
      ((l.peer !e).connection = true → k = sent l.rejected (l.peer !e) !e)

section Follows

variable {S} {l : Link} {e rejected : Bool} {p q : PeerState} {now : Nat} {msg : Msg}
  {rest msgs out : List Msg} {n : Nat}

theorem received_congr (h : p.SameSession q) : received q = received p := by
  rw [received, received, h.version, h.handshakeDone]

theorem sent_congr (h : p.SameSession q) (rejected e : Bool) :
    sent rejected q e = sent rejected p e := by
  cases e with
  | false => rw [sent, sent, h.version]
  | true => rw [sent, sent, h.version]

section Set

variable (l : Link) (e : Bool) (p : PeerState) (rest out : List Msg) (rejected : Bool)

@[simp] theorem peer_set_self : (l.set e p out).peer e = p := if_pos rfl

@[simp] theorem peer_set_not : (l.set e p out).peer (!e) = l.peer !e := if_neg (Bool.not_ne_self e)

@[simp] theorem channel_set_self (h : p.connection = true) :
    (l.set e p out).channel e = l.channel e :=
  (if_pos rfl).trans (if_pos h)

@[simp] theorem channel_set_not : (l.set e p out).channel (!e) = l.channel (!e) ++ out :=
  if_neg (Bool.not_ne_self e)

@[simp] theorem rejected_set : (l.set e p out).rejected = l.rejected := rfl

@[simp] theorem peer_take : (l.take e rest rejected).peer = l.peer := rfl

@[simp] theorem channel_take_self : (l.take e rest rejected).channel e = rest := if_pos rfl

@[simp] theorem channel_take_not : (l.take e rest rejected).channel (!e) = l.channel !e :=
  if_neg (Bool.not_ne_self e)

@[simp] theorem rejected_take : (l.take e rest rejected).rejected = rejected := rfl

end Set

/-- What an end does to the invariant, if it took the next message and pushed some. -/
theorem Follows.set (h : Follows l) (hopen : (l.peer e).connection = true)
    (hbInbound : p.connection = true → p.bInbound = e)
    (hdone : p.connection = true → p.version = none → p.handshakeDone = false)
    (hrejected : rejected = l.rejected ∨ e = true ∧ (p.connection = true → p.version ≠ none))
    (hversion : p.connection = true → p.version = none → (l.peer e).version = none)
    (hrest : p.connection = true → ∃ k, follow (received p) rest = some k ∧
      ((l.peer !e).connection = true → k = sent l.rejected (l.peer !e) !e))
    (hout : ∃ k, follow (sent l.rejected (l.peer e) e) out = some k ∧
      (p.connection = true → k = sent rejected p e)) :
    Follows ((l.take e rest rejected).set e p out) where
  bInbound d hd := by
    obtain rfl | rfl := Bool.eq_or_eq_not d e
    · rw [peer_set_self] at hd ⊢
      exact hbInbound hd
    · rw [peer_set_not] at hd ⊢
      exact h.bInbound _ hd
  handshakeDone d hd hnone := by
    obtain rfl | rfl := Bool.eq_or_eq_not d e
    · rw [peer_set_self] at hd hnone ⊢
      exact hdone hd hnone
    · rw [peer_set_not] at hd hnone ⊢
      exact h.handshakeDone _ hd hnone
  rejected hd hnone := by
    rw [rejected_set, rejected_take]
    cases e with
    | true =>
        rw [peer_set_self] at hd hnone
        obtain rfl | ⟨-, hsome⟩ := hrejected
        · exact h.rejected hopen (hversion hd hnone)
        · exact absurd hnone (hsome hd)
    | false =>
        obtain rfl | ⟨he, -⟩ := hrejected
        · exact h.rejected hd hnone
        · cases he
  flows d hd := by
    -- only the incoming end can reject, so what the other end has sent is the same
    have hother : sent rejected (l.peer !e) (!e) = sent l.rejected (l.peer !e) !e := by
      obtain rfl | ⟨rfl, -⟩ := hrejected
      · rfl
      · rfl
    obtain rfl | rfl := Bool.eq_or_eq_not d e
    · rw [peer_set_self] at hd
      rw [peer_set_self, peer_set_not, channel_set_self _ _ _ _ hd, channel_take_self, rejected_set,
        rejected_take, peer_take, hother]
      exact hrest hd
    · rw [peer_set_not] at hd
      rw [peer_set_not, channel_set_not, channel_take_not, rejected_set, rejected_take, peer_take,
        Bool.not_not, peer_set_self, follow_append]
      obtain ⟨k, hk, hsent⟩ := h.flows (!e) hd
      rw [Bool.not_not] at hsent
      obtain ⟨i, hi, hclosing⟩ := hout
      rw [hk, hsent hopen, Option.bind_some]
      exact ⟨i, hi, hclosing⟩

theorem take_self (l : Link) (e : Bool) : l.take e (l.channel e) l.rejected = l := by
  obtain ⟨peer, channel, rejected⟩ := l
  rw [Link.take, Link.mk.injEq]
  refine ⟨rfl, ?_, rfl⟩
  funext d
  dsimp only
  split
  next h => rw [h]
  next => rfl

/-- An end that stays in its session may push what its stage allows. -/
theorem Follows.push (h : Follows l) (hopen : (l.peer e).connection = true)
    (hsession : p.connection = true → (l.peer e).SameSession p)
    (hout : ∃ k, follow (sent l.rejected (l.peer e) e) out = some k ∧
      (p.connection = true → k = sent l.rejected (l.peer e) e)) : Follows (l.set e p out) := by
  rw [← take_self l e]
  refine h.set hopen (fun hp => ?_) (fun hp hnone => ?_) (.inl rfl) (fun hp hnone => ?_)
    (fun hp => ?_) ?_
  · rw [(hsession hp).bInbound, h.bInbound e hopen]
  · rw [(hsession hp).handshakeDone]
    exact h.handshakeDone e hopen ((hsession hp).version ▸ hnone)
  · exact (hsession hp).version ▸ hnone
  · rw [received_congr (hsession hp)]
    exact h.flows e hopen
  · obtain ⟨k, hk, hsent⟩ := hout
    exact ⟨k, hk, fun hp => by rw [sent_congr (hsession hp)]; exact hsent hp⟩

/-- An end that stays connected while it handles the next message. -/
structure Stage (l : Link) (e : Bool) (rest : List Msg) (rejected : Bool) (p : PeerState)
    (msgs : List Msg) : Prop where
  bInbound : p.bInbound = e
  handshakeDone : p.version = none → p.handshakeDone = false
  version : p.version = none → (l.peer e).version = none
  rejection : rejected = l.rejected ∨ e = true ∧ p.version ≠ none
  rest : follow (received p) rest = follow (received (l.peer e)) (l.channel e)
  out : follow (sent l.rejected (l.peer e) e) msgs = some (sent rejected p e)

/-- An end that handled a message may push what its new stage allows. -/
theorem Follows.pushAll (h : Follows l) (hopen : (l.peer e).connection = true)
    (hstage : p.connection = true → Stage l e rest rejected p msgs)
    (hclosed : p.connection = false → rejected = l.rejected) :
    Follows ((l.take e rest rejected).pushAll S e now p msgs) := by
  cases hp : p.connection with
  | false =>
      obtain ⟨hpushed, hout⟩ :
          (Handshake.push S now p msgs).1.connection = false ∧
            (Handshake.push S now p msgs).2 = [] :=
        push_closed S hp
      rw [Link.pushAll, hout]
      refine h.set hopen ?_ ?_ (.inl (hclosed hp)) ?_ ?_ ⟨_, follow_nil _, ?_⟩
      all_goals
        intro hpush
        rw [hpushed] at hpush
        cases hpush
  | true =>
      have hstage := hstage hp
      refine h.set hopen (fun hpush => ?_) (fun hpush hnone => ?_) ?_ (fun hpush hnone => ?_)
        (fun hpush => ?_) ?_
      · rw [(push_open S hpush).1.bInbound, hstage.bInbound]
      · rw [(push_open S hpush).1.handshakeDone]
        exact hstage.handshakeDone ((push_open S hpush).1.version ▸ hnone)
      · refine hstage.rejection.imp_right fun hrejects => ⟨hrejects.1, fun hpush => ?_⟩
        rw [(push_open S hpush).1.version]
        exact hrejects.2
      · exact hstage.version ((push_open S hpush).1.version ▸ hnone)
      · rw [received_congr (push_open S hpush).1, hstage.rest]
        exact h.flows e hopen
      · have hprefix : (Handshake.push S now p msgs).2 <+: msgs := prefix_push S
        obtain ⟨k, hk⟩ := exists_follow_prefix hstage.out hprefix
        refine ⟨k, hk, fun hpush => ?_⟩
        rw [(push_open S hpush).2, hstage.out, Option.some.injEq] at hk
        rw [sent_congr (push_open S hpush).1, hk]

/-- An end that remains in its session, with a message that leads nowhere. -/
theorem Follows.stage_same (h : Follows l) (hopen : (l.peer e).connection = true)
    (hsession : (l.peer e).SameSession p) (hchannel : l.channel e = msg :: rest)
    (hnext : next (received (l.peer e)) msg = some (received (l.peer e)))
    (hout : follow (sent l.rejected (l.peer e) e) msgs = some (sent l.rejected (l.peer e) e)) :
    Stage l e rest l.rejected p msgs where
  bInbound := hsession.bInbound.trans (h.bInbound e hopen)
  handshakeDone hnone :=
    hsession.handshakeDone.trans (h.handshakeDone e hopen (hsession.version ▸ hnone))
  version hnone := hsession.version ▸ hnone
  rejection := .inl rfl
  rest := by rw [received_congr hsession, hchannel, follow_cons, hnext, Option.bind_some]
  out := by rw [hout, sent_congr hsession]

theorem received_eq_zero_iff : received p = 0 ↔ p.version = none := by
  rw [received]
  split
  next h => exact iff_of_true rfl h
  next h =>
    split
    · exact iff_of_false (by decide) h
    · exact iff_of_false (by decide) h

theorem received_eq_one_iff : received p = 1 ↔ p.version ≠ none ∧ p.handshakeDone = false := by
  rw [received]
  split
  next h => exact iff_of_false (by decide) fun hp => hp.1 h
  next h =>
    split
    next hdone => exact iff_of_false (by decide) fun hp => by simp [hdone] at hp
    next hdone => exact iff_of_true rfl ⟨h, by simpa using hdone⟩

/-- An end learns the version of the other one, and sends what it has not sent. -/
theorem Follows.stage_version (h : Follows l) (hopen : (l.peer e).connection = true)
    (hsession : (l.peer e).SameSession q) (hchannel : l.channel e = .version :: rest)
    (hnext : next (received (l.peer e)) .version = some n) (accepted early : Bool)
    (answers : List Request) :
    Stage l e rest (l.rejected || Link.rejects accepted q .version)
      (q.incomingMessage now (S.seen .version)) (replies accepted early answers q .version) := by
  have hstage : received (l.peer e) = 0 := by
    by_contra hne
    rw [next, if_neg hne] at hnext
    cases hnext
  have hnone := received_eq_zero_iff.mp hstage
  have hversion : q.version = none := hsession.version.trans hnone
  have hdone : q.handshakeDone = false :=
    hsession.handshakeDone.trans (h.handshakeDone e hopen hnone)
  have hrole : q.bInbound = e := hsession.bInbound.trans (h.bInbound e hopen)
  have hp : q.incomingMessage now (S.seen .version) =
      { q with version := some S.protocolVersion } := by
    rw [Setup.seen, PeerState.incomingMessage, PeerState.handleVersionMessage, if_pos hversion]
  rw [hp]
  refine ⟨hrole, fun h => (by cases h), fun h => (by cases h), ?_, ?_, ?_⟩
  · cases e with
    | true => exact .inr ⟨rfl, Option.some_ne_none _⟩
    | false => exact .inl (by simp [Link.rejects, hrole])
  · have hone : received { q with version := some S.protocolVersion } = 1 :=
      received_eq_one_iff.mpr ⟨Option.some_ne_none _, hdone⟩
    rw [hone, hchannel, follow_cons, hstage]
    rfl
  · rw [replies, if_pos hversion, hrole]
    cases e with
    | false =>
        rw [if_neg Bool.false_ne_true, sent, if_pos hnone]
        rfl
    | true =>
        rw [if_pos rfl, sent, if_pos (.inl hnone), h.rejected hopen hnone, Bool.false_or]
        cases accepted with
        | true => simp [Link.rejects, sent, follow_cons, next]
        | false => simp [Link.rejects, sent, follow_cons, next, hversion, hrole]

/-- An end is done, and asks for addresses. -/
theorem Follows.stage_verAck (h : Follows l) (hopen : (l.peer e).connection = true)
    (hsession : (l.peer e).SameSession q) (hchannel : l.channel e = .verAck :: rest)
    (hnext : next (received (l.peer e)) .verAck = some n) (accepted : Bool)
    (answers : List Request) :
    Stage l e rest l.rejected (q.incomingMessage now (S.seen .verAck))
      (replies accepted (l.early e) answers q .verAck) := by
  have hstage : received (l.peer e) = 1 := by
    by_contra hne
    rw [next, if_neg hne] at hnext
    cases hnext
  have hknown := (received_eq_one_iff.mp hstage).1
  have hversion : q.version ≠ none := hsession.version ▸ hknown
  have hp : q.incomingMessage now (S.seen .verAck) = q.setFullyConnected := by
    rw [Setup.seen, PeerState.incomingMessage, PeerState.handleVerackMessage, if_neg hversion]
  have hsent : sent l.rejected q.setFullyConnected e = sent l.rejected (l.peer e) e := by
    rw [← sent_congr hsession]
    cases e <;> rfl
  rw [hp]
  refine ⟨hsession.bInbound.trans (h.bInbound e hopen), fun h => absurd h hversion,
    fun h => absurd h hversion, .inl rfl, ?_, ?_⟩
  · have htwo : received q.setFullyConnected = 2 := (if_neg hversion).trans (if_pos rfl)
    rw [htwo, hchannel, follow_cons, hstage]
    rfl
  · rw [replies, if_neg hversion, hsent]
    exact follow_requests _ [.getAddr]

/-- An end answers a request, or refuses it. -/
theorem Follows.stage_request (h : Follows l) (hopen : (l.peer e).connection = true)
    (hsession : (l.peer e).SameSession q) {content : Request} {early : Bool}
    (hchannel : l.channel e = .request content early :: rest)
    (hnext : next (received (l.peer e)) (.request content early) = some n) (accepted : Bool)
    (answers : List Request)
    (hp : (q.incomingMessage now (S.seen (.request content early))).connection = true) :
    Stage l e rest l.rejected (q.incomingMessage now (S.seen (.request content early)))
      (replies accepted (l.early e) answers q (.request content early)) := by
  have hmarked : early = decide (received (l.peer e) < 2) := by
    by_contra hne
    rw [next, if_neg hne] at hnext
    cases hnext
  refine h.stage_same hopen ?_ hchannel (by rw [next, if_pos hmarked]) ?_
  · rw [Setup.seen, PeerState.incomingMessage] at hp ⊢
    split
    next => exact hsession
    next hnot =>
      rw [if_neg hnot] at hp
      exact hsession.trans (PeerState.tightens_misbehave.connection hp)
  · rw [replies]
    split
    · exact follow_requests _ answers
    · rfl

/-- Whoever rejects the other end stays connected for a while. -/
theorem rejects_eq_false (hopen : (l.peer e).connection = true) {bytes : Nat} (accepted : Bool)
    (hp : (((l.peer e).arrive now bytes).incomingMessage now (S.seen msg)).connection = false) :
    Link.rejects accepted ((l.peer e).arrive now bytes) msg = false := by
  cases msg with
  | ping | pong | reject | verAck | request => rfl
  | version =>
      cases hexceeds : ((l.peer e).updateReceived bytes).exceedsBytes with
      | true => simp [Link.rejects, (PeerState.arrive_of_exceeds hexceeds).2.1]
      | false =>
          by_cases hnone : ((l.peer e).arrive now bytes).version = none
          · rw [Setup.seen, PeerState.incomingMessage, PeerState.handleVersionMessage, if_pos hnone]
              at hp
            cases (PeerState.connection_arrive hopen hexceeds).symm.trans hp
          · simp [Link.rejects, hnone]

theorem Follows.deliver (h : Follows l) (hopen : (l.peer e).connection = true) (now : Nat)
    (accepted : Bool) (answers : List Request) :
    Follows (l.deliver S e now accepted answers) := by
  unfold Link.deliver
  split
  next => exact h
  next msg rest hchannel =>
    obtain ⟨k, hk, -⟩ := h.flows e hopen
    rw [hchannel, follow_cons] at hk
    obtain ⟨n, hnext, -⟩ := Option.bind_eq_some_iff.mp hk
    refine h.pushAll hopen (fun hp => ?_) fun hp => ?_
    · have hsession := PeerState.tightens_arrive.connection
        (PeerState.connection_of_incomingMessage hp)
      cases msg with
      | ping | pong | reject =>
          simp only [Link.rejects, Bool.or_false]
          exact h.stage_same hopen hsession hchannel rfl rfl
      | version => exact h.stage_version hopen hsession hchannel hnext accepted _ answers
      | verAck =>
          simp only [Link.rejects, Bool.or_false]
          exact h.stage_verAck hopen hsession hchannel hnext accepted answers
      | request content early =>
          simp only [Link.rejects, Bool.or_false]
          exact h.stage_request hopen hsession hchannel hnext accepted answers hp
    · rw [rejects_eq_false hopen accepted hp, Bool.or_false]

/-- An end that pushes something on its own. -/
theorem Follows.pushOne (h : Follows l) (hopen : (l.peer e).connection = true) (now : Nat)
    (hout : follow (sent l.rejected (l.peer e) e) [msg] = some (sent l.rejected (l.peer e) e)) :
    Follows (l.pushAll S e now (l.peer e) [msg]) := by
  refine h.push hopen (fun hp => (push_open S hp).1) ?_
  have hprefix : (Handshake.push S now (l.peer e) [msg]).2 <+: [msg] := prefix_push S
  obtain ⟨k, hk⟩ := exists_follow_prefix hout hprefix
  refine ⟨k, hk, fun hp => ?_⟩
  rw [(push_open S hp).2, hout, Option.some.injEq] at hk
  exact hk.symm

theorem Follows.step (h : Follows l) (event : Event) : Follows (l.step S event) := by
  unfold Link.step
  dsimp only
  split
  next => exact h
  next hconnected =>
    have hopen : (l.peer event.side).connection = true := by
      simpa [PeerState.disconnected] using hconnected
    split
    next accepted answers _ => exact h.deliver hopen event.now accepted answers
    next content _ => exact h.pushOne hopen event.now (follow_requests _ [content])
    next => exact h.pushOne hopen event.now rfl
    next action hown _ =>
      refine h.push hopen (fun hp => ?_) ⟨_, follow_nil _, fun _ => rfl⟩
      obtain htight | ⟨⟨_, _, rfl⟩, -⟩ | ⟨⟨_, rfl⟩, -⟩ | ⟨rfl, -⟩ :=
        PeerState.act_cases (l.peer event.side) event.now action
      · exact htight.connection hp
      · cases hown
      · cases hown
      · cases hown

theorem Link.Starts.follows (h : l.Starts) : Follows l where
  bInbound e _ := h.bInbound e
  handshakeDone e _ _ := h.handshakeDone e
  rejected _ _ := h.rejected
  flows e _ := by
    have hreceived : received (l.peer e) = 0 := received_eq_zero_iff.mpr (h.version e)
    cases e with
    | false =>
        refine ⟨0, by rw [hreceived, h.outgoing, follow_nil], fun _ => ?_⟩
        exact (if_pos (.inl (h.version true))).symm
    | true =>
        refine ⟨1, by rw [hreceived, h.incoming]; rfl, fun _ => ?_⟩
        exact (if_pos (h.version false)).symm

/-- An end is done once it has received both parts. -/
theorem Follows.received_lt_two_iff (h : Follows l) (hopen : (l.peer e).connection = true) :
    received (l.peer e) < 2 ↔ (l.peer e).handshakeDone = false := by
  rw [received]
  split
  next hnone => exact iff_of_true (by decide) (h.handshakeDone e hopen hnone)
  next =>
    split
    next hdone => exact iff_of_false (by decide) (by simp [hdone])
    next hdone => exact iff_of_true (by decide) (by simpa using hdone)

theorem version_of_sent (hsent : 2 ≤ sent rejected p e) : p.version ≠ none := by
  intro hnone
  cases e with
  | false => rw [sent, if_pos hnone] at hsent; omega
  | true => rw [sent, if_pos (.inl hnone)] at hsent; omega

/-- What is refused, at an end that follows. -/
theorem Follows.refuses_eq (h : Follows l) (hopen : (l.peer e).connection = true)
    (hchannel : l.channel e = msg :: rest) (now : Nat) :
    refuses ((l.peer e).arrive now (S.size msg)) msg =
      (msg.isEarly || msg.isRequest && ((l.peer e).updateReceived (S.size msg)).exceedsBytes) := by
  obtain ⟨k, hk, -⟩ := h.flows e hopen
  rw [hchannel, follow_cons] at hk
  obtain ⟨n, hnext, -⟩ := Option.bind_eq_some_iff.mp hk
  cases msg with
  | ping | pong | reject | verAck => rfl
  | version =>
      have hnone : ((l.peer e).arrive now (S.size .version)).version = none := by
        cases hexceeds : ((l.peer e).updateReceived (S.size .version)).exceedsBytes with
        | true => exact (PeerState.arrive_of_exceeds hexceeds).2.2
        | false =>
            rw [(PeerState.arrive_session hopen hexceeds).version, ← received_eq_zero_iff]
            by_contra hne
            rw [next, if_neg hne] at hnext
            cases hnext
      simp [refuses, Msg.isEarly, Msg.isRequest, hnone]
  | request content early =>
      have hmarked : early = decide (received (l.peer e) < 2) := by
        by_contra hne
        rw [next, if_neg hne] at hnext
        cases hnext
      simp only [refuses, Msg.isEarly, Msg.isRequest, Bool.true_and]
      cases hexceeds : ((l.peer e).updateReceived (S.size (.request content early))).exceedsBytes with
      | true =>
          simp [PeerState.fullyConnected, PeerState.disconnected,
            (PeerState.arrive_of_exceeds hexceeds).1]
      | false =>
          have hsession : (l.peer e).SameSession ((l.peer e).arrive now _) :=
            PeerState.arrive_session hopen hexceeds
          rw [PeerState.fullyConnected, PeerState.disconnected,
            PeerState.connection_arrive hopen hexceeds, hsession.handshakeDone, hmarked]
          simp [h.received_lt_two_iff hopen]

/-- Whoever is done got what the other one sent when it knew the version. -/
theorem Follows.agrees (h : Follows l) (hdone : (l.peer e).fullyConnected = true)
    (hother : (l.peer !e).connection = true) : (l.peer !e).version ≠ none := by
  rw [PeerState.fullyConnected, PeerState.disconnected, Bool.not_not, Bool.and_eq_true] at hdone
  obtain ⟨hopen, hdone⟩ := hdone
  obtain ⟨k, hk, hsent⟩ := h.flows e hopen
  have hreceived : ¬ received (l.peer e) < 2 := by
    rw [h.received_lt_two_iff hopen, hdone]
    decide
  apply version_of_sent
  rw [← hsent hother]
  exact (not_lt.mp hreceived).trans (follow_le hk)

/-- Nothing is left to do as soon as nothing is on the way. -/
theorem Follows.fullyConnected (h : Follows l) (hopen : ∀ e, (l.peer e).connection = true)
    (hempty : ∀ e, l.channel e = []) (hrejected : l.rejected = false) (e : Bool) :
    (l.peer e).fullyConnected = true := by
  have hsame : ∀ d, received (l.peer d) = sent l.rejected (l.peer !d) !d := by
    intro d
    obtain ⟨k, hk, hsent⟩ := h.flows d (hopen d)
    rw [hempty d, follow_nil, Option.some.injEq] at hk
    rw [hk, hsent (hopen !d)]
  have hincoming : (l.peer true).version ≠ none := by
    intro hnone
    have hzero := (hsame true).symm.trans (received_eq_zero_iff.mpr hnone)
    rw [Bool.not_true, sent] at hzero
    split at hzero <;> cases hzero
  have houtgoing : received (l.peer false) = 2 := by
    rw [hsame false, Bool.not_false, sent, if_neg (by simp [hincoming, hrejected])]
  have hboth : ∀ d, received (l.peer d) = 2 := by
    intro d
    cases d with
    | false => exact houtgoing
    | true =>
        have hversion : (l.peer false).version ≠ none := fun hnone => by
          rw [received_eq_zero_iff.mpr hnone] at houtgoing
          cases houtgoing
        rw [hsame true, Bool.not_true, sent, if_neg hversion]
  have hdone : (l.peer e).handshakeDone = true := by
    rw [← Bool.not_eq_false, ← h.received_lt_two_iff (hopen e), hboth e]
    exact lt_irrefl 2
  rw [PeerState.fullyConnected, PeerState.disconnected, hopen e, hdone]
  rfl

end Follows

/-- Payloads without length. -/
def light : Setup := { protocolVersion := 1, size := fun _ => 0 }

/-- A connection that was opened just now. -/
def opened : Link where
  peer e := if e then PeerState.incoming 0 0 else { PeerState.known 0 0 with connection := true }
  channel e := if e then [.version] else []
  rejected := false

/-- The node that has connected asks for blocks at once, and then everything arrives. -/
def earlyRequest : List Event :=
  [⟨false, 1, .request (.other 0)⟩, ⟨true, 2, .deliver true []⟩, ⟨false, 3, .deliver true []⟩,
    ⟨false, 4, .deliver true []⟩]

theorem starts_opened : opened.Starts where
  connection e := by cases e <;> rfl
  version e := by cases e <;> rfl
  handshakeDone e := by cases e <;> rfl
  bInbound e := by cases e <;> rfl
  incoming := rfl
  outgoing := rfl
  rejected := rfl

end Handshake

end CilCore
