import CilCore.Lib.Runs

/-!
# The send queue of a peer

`pushMessage` of `network/peer.js`: the first message that is pushed is sent at once, and
those that come while a send is under way wait in a queue, which the same loop sends then.
That there is a queue also means that the loop is running, but an exception ends the loop
and leaves the queue.
-/

namespace CilCore

variable {Message : Type}

/-- A peer, as far as it sends: whether it is connected, its queue, and whether the loop
waits for a send. All messages that were pushed and all that were handed to a connection
are listed in the order of time. -/
structure PeerQueue (Message : Type) where
  connected : Bool := false
  queue : Option (List Message) := none
  sending : Bool := false
  pushed : List Message := []
  handed : List Message := []

namespace PeerQueue

/-- What happens to a peer. -/
inductive Event (Message : Type) where
  /-- `pushMessage` is called. -/
  | push (message : Message)
  /-- The send that is under way is done. -/
  | complete
  /-- The send that is under way throws. -/
  | fail
  | connect
  /-- The connection is closed by either side. -/
  | disconnect

/-- The loop of `pushMessage` up to the next send. Messages are dropped while there is no
connection. -/
def sendNext (peer : PeerQueue Message) : List Message → PeerQueue Message
  | [] => { peer with queue := none, sending := false }
  | nextMsg :: rest =>
      if peer.connected then
        { peer with queue := some rest, sending := true, handed := peer.handed ++ [nextMsg] }
      else sendNext peer rest

/-- `pushMessage`. -/
def pushMessage (msg : Message) (peer : PeerQueue Message) : PeerQueue Message :=
  let peer := { peer with pushed := peer.pushed ++ [msg] }
  match peer.queue with
  | some queue => { peer with queue := some (queue ++ [msg]) }
  | none => peer.sendNext [msg]

/-- One step. Nothing happens where the event is not possible. -/
def step (peer : PeerQueue Message) : Event Message → PeerQueue Message
  | .push msg => peer.pushMessage msg
  | .complete => if peer.sending then peer.sendNext (peer.queue.getD []) else peer
  | .fail => if peer.sending then { peer with sending := false } else peer
  | .connect => { peer with connected := true }
  | .disconnect => { peer with connected := false }

/-- The messages that wait for their turn. -/
def waiting (peer : PeerQueue Message) : List Message := peer.queue.getD []

/-- Messages are handed to the connection in the order in which they were pushed, each at
most once, and none waits on a live connection unless a send is under way. -/
structure Lawful (peer : PeerQueue Message) (event : Event Message) : Prop where
  fifo : (peer.step event).handed.Sublist (peer.step event).pushed
  goesOn : (peer.step event).connected = true → (peer.step event).sending = false →
    (peer.step event).waiting = []

/-- A send that failed has left the queue. -/
def Stuck (peer : PeerQueue Message) : Prop := peer.sending = false ∧ peer.queue ≠ none

/-- A send fails on a live connection only when no message waits, and after a failure no
message is pushed on a live connection or waits when the peer connects again. -/
def Meets (peer : PeerQueue Message) : Event Message → Prop
  | .push _ => peer.Stuck → peer.connected = false
  | .fail => peer.sending = true → peer.connected = true → peer.waiting = []
  | .connect => peer.Stuck → peer.waiting = []
  | .complete | .disconnect => True

variable {peer : PeerQueue Message} {event : Event Message}

/-! ### The order of messages -/

/-- The messages that were handed over or wait are among those that were pushed, in their
order. -/
def Ordered (peer : PeerQueue Message) : Prop :=
  (peer.handed ++ peer.waiting).Sublist peer.pushed

/-- The loop hands over the first message, or drops all. -/
theorem sendNext_eq (peer : PeerQueue Message) (messages : List Message) :
    peer.sendNext messages =
      if peer.connected then
        match messages with
        | [] => { peer with queue := none, sending := false }
        | nextMsg :: rest =>
            { peer with queue := some rest, sending := true, handed := peer.handed ++ [nextMsg] }
      else { peer with queue := none, sending := false } := by
  induction messages with
  | nil =>
      rw [sendNext]
      split <;> rfl
  | cons nextMsg rest ih =>
      rw [sendNext]
      split
      next => rfl
      next hdisconnected => rw [ih, if_neg hdisconnected]

theorem ordered_sendNext {messages : List Message}
    (h : (peer.handed ++ messages).Sublist peer.pushed) : (peer.sendNext messages).Ordered := by
  have hhanded : peer.handed.Sublist peer.pushed := (List.sublist_append_left _ _).trans h
  rw [sendNext_eq]
  unfold Ordered waiting
  split
  next =>
    cases messages with
    | nil => simpa using hhanded
    | cons nextMsg rest => simpa using h
  next => simpa using hhanded

theorem Ordered.step (h : peer.Ordered) (event : Event Message) : (peer.step event).Ordered := by
  cases event with
  | push msg =>
      have hmore : (peer.handed ++ (peer.waiting ++ [msg])).Sublist (peer.pushed ++ [msg]) := by
        rw [← List.append_assoc]
        exact h.append_right [msg]
      unfold PeerQueue.step pushMessage
      dsimp only
      cases hqueue : peer.queue with
      | some queue =>
          rw [waiting, hqueue] at hmore
          exact hmore
      | none =>
          rw [waiting, hqueue] at hmore
          exact ordered_sendNext hmore
  | complete =>
      rw [PeerQueue.step]
      split
      next => exact ordered_sendNext h
      next => exact h
  | fail =>
      rw [PeerQueue.step]
      split
      next => exact h
      next => exact h
  | connect => exact h
  | disconnect => exact h

/-! ### Going on -/

/-- No message waits on a live connection without a send under way. -/
def GoesOn (peer : PeerQueue Message) : Prop :=
  peer.connected = true → peer.sending = false → peer.waiting = []

theorem goesOn_sendNext (messages : List Message) : (peer.sendNext messages).GoesOn := by
  rw [sendNext_eq]
  split
  next =>
    cases messages with
    | nil => exact fun _ _ => rfl
    | cons nextMsg rest => exact fun _ hidle => Bool.noConfusion hidle
  next => exact fun _ _ => rfl

/-- The loop is not running only if there is no queue, or the queue was left by a failure. -/
theorem goesOn_step_iff (h : peer.GoesOn) (event : Event Message) :
    (peer.step event).GoesOn ↔ peer.Meets event := by
  cases event with
  | push msg =>
      unfold step pushMessage
      dsimp only
      cases hqueue : peer.queue with
      | none =>
          refine iff_of_true (goesOn_sendNext _) fun hstuck => ?_
          exact absurd hqueue hstuck.2
      | some queue =>
          constructor
          · intro hgoes hstuck
            cases hconnected : peer.connected with
            | false => rfl
            | true =>
                have hnil := hgoes hconnected hstuck.1
                simp [waiting] at hnil
          · intro hmeets hconnected hidle
            have hstuck : peer.Stuck := ⟨hidle, by simp [hqueue]⟩
            rw [hmeets hstuck] at hconnected
            cases hconnected
  | complete =>
      refine iff_of_true ?_ trivial
      rw [step]
      split
      next => exact goesOn_sendNext _
      next => exact h
  | fail =>
      rw [step]
      split
      next hsending =>
        exact ⟨fun hgoes _ hconnected => hgoes hconnected rfl,
          fun hmeets hconnected _ => hmeets hsending hconnected⟩
      next hidle =>
        exact iff_of_true h fun hsending => absurd hsending hidle
  | connect =>
      constructor
      · exact fun hgoes hstuck => hgoes rfl hstuck.1
      · intro hmeets _ hidle
        cases hqueue : peer.queue with
        | none =>
            change peer.queue.getD [] = []
            rw [hqueue]
            rfl
        | some queue => exact hmeets ⟨hidle, by simp [hqueue]⟩
  | disconnect => exact iff_of_true (fun hconnected => Bool.noConfusion hconnected) trivial

theorem lawful_iff (hordered : peer.Ordered) (h : peer.GoesOn) (event : Event Message) :
    Lawful peer event ↔ peer.Meets event := by
  rw [← goesOn_step_iff h]
  constructor
  · exact fun hlawful => hlawful.goesOn
  · exact fun hgoes =>
      ⟨(List.sublist_append_left _ _).trans (hordered.step event), hgoes⟩

/-- The queue is first in, first out and goes on through a run exactly if no failed send
leaves messages behind. -/
theorem everyStep_delivered_iff (events : List (Event Message)) :
    Runs.EveryStep step Lawful {} events ↔ Runs.EveryStep step Meets {} events := by
  refine Runs.everyStep_congr (I := fun peer => peer.Ordered ∧ peer.GoesOn)
    (fun peer event h hlawful => ⟨h.1.step event, hlawful.goesOn⟩)
    (fun peer event h => lawful_iff h.1 h.2 event) ⟨?_, ?_⟩ events
  · exact .slnil
  · exact fun _ _ => rfl

/-- The send of a message fails, and another message is pushed. -/
def failedSend : List (Event Nat) := [.connect, .push 1, .fail, .push 2]

/-- The message that is pushed after the failure is never sent. -/
theorem not_lawful_failedSend :
    ¬ ∀ events : List (Event Nat), Runs.EveryStep step Lawful {} events := by
  intro hclaim
  obtain ⟨-, -, -, hpush, -⟩ := hclaim failedSend
  have hnil := hpush.goesOn rfl rfl
  cases hnil

end PeerQueue

end CilCore
