import Barebox.Ratp.Fragments
import Barebox.Ratp.Delivery
import Barebox.Data.SlotQueue

/-! The callbacks of `ratp_send_complete`. The list node of a message carries its
callback through the send queue; `ratp_msg_done` invokes it when the message is
acknowledged, or when the link is closed and the message still waits. -/
namespace Barebox.Ratp
open SlotQueue List RatpInternal Queue

/-- The messages on their way through `sendmsg` and `sendmsg_current`. -/
def RatpInternal.queue (ri : RatpInternal) : Queue Message :=
  ⟨ri.completed, ri.sendmsgCurrent, ri.sendmsg⟩

structure SameQueue (x x' : RatpInternal) : Prop where
  queue : x'.queue = x.queue
  handed : x'.handed = x.handed

inductive Takes (x x' : RatpInternal) : Prop where
  | same (same : SameQueue x x')
  | took (m : Message) (slot : x.queue.slot = none) (front : x.queue.waiting.head? = some m)
      (queue : x'.queue = x.queue.take) (handed : x'.handed = x.handed ++ [m])

inductive Finishes (ack : Prop) (x x' : RatpInternal) : Prop where
  | same (same : SameQueue x x')
  | finished (m : Message) (ack : ack) (slot : x.queue.slot = some m)
      (queue : x'.queue = x.queue.finish)
      (handed : x'.handed = x.handed)

def Passes (ack : Prop) (x x' : RatpInternal) : Prop := ∃ mid, Finishes ack x mid ∧ Takes mid x'

section Effects
variable {x y z : RatpInternal} {ack : Prop}

theorem SameQueue.refl (x : RatpInternal) : SameQueue x x := ⟨rfl, rfl⟩

theorem SameQueue.trans (h : SameQueue x y) (h' : SameQueue y z) : SameQueue x z :=
  ⟨h'.queue.trans h.queue, h'.handed.trans h.handed⟩

theorem Takes.of_same (h : SameQueue x y) (h' : Takes y z) : Takes x z := by
  cases h' with
  | same same => exact .same (h.trans same)
  | took m slot front queue handed =>
    rw [h.queue] at slot front queue
    rw [h.handed] at handed
    exact .took m slot front queue handed

theorem Passes.of_same (h : SameQueue x y) (h' : Passes ack y z) : Passes ack x z := by
  obtain ⟨mid, hFinishes, hTakes⟩ := h'
  refine ⟨mid, ?_, hTakes⟩
  cases hFinishes with
  | same same => exact .same (h.trans same)
  | finished m ack slot queue handed =>
    rw [h.queue] at slot queue
    rw [h.handed] at handed
    exact .finished m ack slot queue handed

theorem Takes.passes (h : Takes x y) : Passes ack x y := ⟨x, .same (.refl x), h⟩
theorem SameQueue.passes (h : SameQueue x y) : Passes ack x y := (Takes.same h).passes

variable (x : RatpInternal)

@[simp] theorem ratpSendPkt_queue (p : Packet) :
    (ratpSendPkt x p).sendmsg = x.sendmsg ∧ (ratpSendPkt x p).sendmsgCurrent = x.sendmsgCurrent ∧
      (ratpSendPkt x p).completed = x.completed ∧ (ratpSendPkt x p).handed = x.handed := by
  unfold ratpSendPkt
  split <;> exact ⟨rfl, rfl, rfl, rfl⟩

theorem ratpSendPkt_sameQueue (p : Packet) : SameQueue x (ratpSendPkt x p) := by
  constructor <;> simp [queue]

theorem ratpSendNextData_takes : Takes x (ratpSendNextData x) := by
  unfold ratpSendNextData
  split
  next msg sendmsg hCurrent hSendmsg =>
    have hSent := ratpSendPkt_sameQueue { x with
        sendmsgCurrent := some msg, sendmsg := sendmsg, retransmissionCount := 0,
        handed := x.handed ++ [msg] }
      (dataPacket x msg)
    refine .took msg hCurrent ?_ (hSent.queue.trans ?_) hSent.handed
    · simp [queue, hSendmsg]
    · simp [queue, Queue.take, hSendmsg]
  next => exact .same (.refl x)

theorem Takes.sendNextData (h : Takes x y) : Takes x (ratpSendNextData y) := by
  cases h with
  | same same => exact (ratpSendNextData_takes y).of_same same
  | took m slot front queue handed =>
    have hCurrent : y.sendmsgCurrent = some m := (congrArg Queue.slot queue).trans front
    have hBusy : ratpSendNextData y = y := by simp only [ratpSendNextData, hCurrent]
    rw [hBusy]
    exact .took m slot front queue handed

theorem Takes.completed (h : Takes x y) : y.completed = x.completed := by
  cases h with
  | same same => exact congrArg done same.queue
  | took m slot front queue handed => exact congrArg done queue

theorem Finishes.handed_eq (h : Finishes ack x y) : y.handed = x.handed := by
  cases h with
  | same same => exact same.handed
  | finished m ack slot queue handed => exact handed

end Effects

section Behaviours
variable {ack : Prop} (x : RatpInternal) (hdr : Header)

theorem ratpAnswer_takes : Takes x (ratpAnswer x hdr) := by
  unfold ratpAnswer ratpSendAck ratpSendHdr
  split
  · exact .same (ratpSendPkt_sameQueue x _)
  · exact ratpSendNextData_takes x

theorem a_sameQueue : SameQueue x (ratpBehaviourA x hdr) := by
  unfold ratpBehaviourA ratpSendHdr
  split
  · exact .refl x
  split
  · exact ratpSendPkt_sameQueue x _
  split
  · constructor <;> simp [queue]
  · exact .refl x

theorem b_takes : Takes x (ratpBehaviourB x hdr) := by
  unfold ratpBehaviourB ratpSendHdr
  split
  · split
    · exact .same (.refl x)
    · exact .same (ratpSendPkt_sameQueue x _)
  split
  · split <;> exact .same ⟨rfl, rfl⟩
  split
  · dsimp only
    split
    · have hState : SameQueue x { x with snReceived := hdr.control.sn, state := .established } :=
        ⟨rfl, rfl⟩
      exact (ratpAnswer_takes _ hdr).of_same hState
    · refine .same ?_
      constructor <;> simp [queue]
  · exact .same (.refl x)

theorem c1_sameQueue : SameQueue x (ratpBehaviourC1 x hdr).1 := by
  unfold ratpBehaviourC1 ratpSendAck ratpSendHdr
  split
  · exact .refl x
  split
  · exact .refl x
  · constructor <;> simp [queue]

theorem c2_sameQueue : SameQueue x (ratpBehaviourC2 x hdr).1 := by
  unfold ratpBehaviourC2 ratpSendAck ratpSendHdr
  split
  · exact .refl x
  split
  · exact .refl x
  split
  all_goals constructor <;> simp [queue]

theorem d1_sameQueue : SameQueue x (ratpBehaviourD1 x hdr).1 := by
  unfold ratpBehaviourD1
  split
  · exact .refl x
  · split <;> exact ⟨rfl, rfl⟩

theorem d2_sameQueue : SameQueue x (ratpBehaviourD2 x hdr).1 := by
  unfold ratpBehaviourD2
  split <;> exact ⟨rfl, rfl⟩

theorem d3_sameQueue : SameQueue x (ratpBehaviourD3 x hdr).1 := by
  unfold ratpBehaviourD3
  split <;> exact ⟨rfl, rfl⟩

theorem e_sameQueue : SameQueue x (ratpBehaviourE x hdr).1 := by
  unfold ratpBehaviourE ratpSendHdr
  split
  · exact .refl x
  · constructor <;> simp [queue]

theorem f1_sameQueue : SameQueue x (ratpBehaviourF1 x hdr).1 := by
  unfold ratpBehaviourF1 ratpSendHdr
  split
  · exact .refl x
  split
  · exact ⟨rfl, rfl⟩
  · dsimp only
    split
    all_goals constructor <;> simp [queue]

theorem h2_sameQueue : SameQueue x (ratpBehaviourH2 x hdr).1 := by
  unfold ratpBehaviourH2 ratpSendHdr
  split
  · exact .refl x
  · constructor <;> simp [queue]

theorem h3_sameQueue : SameQueue x (ratpBehaviourH3 x hdr).1 := by
  unfold ratpBehaviourH3 ratpSendHdr
  split
  · exact .refl x
  split
  all_goals constructor <;> simp [queue]

theorem h4_sameQueue : SameQueue x (ratpBehaviourH4 x hdr).1 := by
  unfold ratpBehaviourH4
  dsimp only
  split <;> exact ⟨rfl, rfl⟩

theorem h5_sameQueue : SameQueue x (ratpBehaviourH5 x hdr).1 := by
  unfold ratpBehaviourH5
  dsimp only
  split <;> exact ⟨rfl, rfl⟩

theorem h6_sameQueue : SameQueue x (ratpBehaviourH6 x hdr).1 := by
  unfold ratpBehaviourH6 ratpSendHdr
  split
  · exact .refl x
  · constructor <;> simp [queue]

theorem g_sameQueue : SameQueue x (ratpBehaviourG x hdr) := by
  unfold ratpBehaviourG ratpSendHdr
  split
  · exact .refl x
  · split <;> exact ratpSendPkt_sameQueue x _

theorem i1_takes : Takes x (ratpBehaviourI1 x hdr).1 := by
  unfold ratpBehaviourI1
  split
  · exact .same (.refl x)
  · have hAccept : SameQueue x (ratpAccept x hdr) := ⟨rfl, rfl⟩
    exact (ratpAnswer_takes _ hdr).of_same hAccept

theorem h1_takes : Takes x (ratpBehaviourH1 x hdr).1 := by
  have hState : SameQueue x { x with state := .established } := ⟨rfl, rfl⟩
  exact (i1_takes { x with state := .established } hdr).of_same hState

def acknowledges : Bool := hdr.control.ack && ratpAnExpected x hdr

theorem f2_finishes : Finishes (acknowledges x hdr = true) x (ratpBehaviourF2 x hdr).1 := by
  unfold ratpBehaviourF2
  split
  · exact .same (.refl x)
  next hAck =>
    split
    next hExpected =>
      split
      next msg hCurrent =>
        refine .finished msg (by simp_all [acknowledges]) hCurrent ?_ rfl
        simp [queue, finish, ratpMsgDone, hCurrent]
      next => exact .same ⟨rfl, rfl⟩
    · exact .same (.refl x)

/-- Behaviours of which only the last one can hand over a message. -/
theorem behave_takes (fs : List (RatpInternal → Header → RatpInternal × Bool))
    (last : RatpInternal → Header → RatpInternal × Bool)
    (hFront : ∀ f ∈ fs, ∀ x, SameQueue x (f x hdr).1)
    (hLast : ∀ x, Takes x (last x hdr).1) : Takes x (behave hdr (fs ++ [last]) x) := by
  induction fs generalizing x with
  | nil =>
    rw [nil_append, behave_cons]
    split <;> exact hLast x
  | cons f fs ih =>
    have hf := hFront f (.head _) x
    rw [cons_append, behave_cons]
    split
    · exact .same hf
    · exact (ih _ fun f hf => hFront f (.tail _ hf)).of_same hf

theorem behave_sameQueue {fs : List (RatpInternal → Header → RatpInternal × Bool)}
    (h : ∀ f ∈ fs, ∀ x, SameQueue x (f x hdr).1) : SameQueue x (behave hdr fs x) := by
  induction fs generalizing x with
  | nil => exact .refl x
  | cons f fs ih =>
    have hf := h f (.head _) x
    rw [behave_cons]
    split
    · exact hf
    · exact hf.trans (ih _ fun f hf => h f (.tail _ hf))

theorem synReceived_takes :
    Takes x (behave hdr [ratpBehaviourC1, ratpBehaviourD1, ratpBehaviourE,
      ratpBehaviourF1, ratpBehaviourH1] x) := by
  refine behave_takes x hdr [_, _, _, _] _ ?_ fun x => h1_takes x hdr
  simp [c1_sameQueue, d1_sameQueue, e_sameQueue, f1_sameQueue]

theorem acknowledged_passes :
    Passes (acknowledges x hdr = true) x (behave hdr [ratpBehaviourF2,
      ratpBehaviourH2, ratpBehaviourI1] x) := by
  refine ⟨(ratpBehaviourF2 x hdr).1, f2_finishes x hdr, ?_⟩
  rw [behave_cons]
  split
  · exact .same (.refl _)
  · refine behave_takes _ hdr [_] _ ?_ fun x => i1_takes x hdr
    simp [h2_sameQueue]

theorem established_passes : Passes (acknowledges x hdr = true) x (behave hdr
      [ratpBehaviourC2, ratpBehaviourD2, ratpBehaviourE, ratpBehaviourF2,
        ratpBehaviourH2, ratpBehaviourI1] x) := by
  by_cases hSn : ratpSnExpected x hdr = true
  · have hC2 : ratpBehaviourC2 x hdr = (x, false) := if_pos hSn
    have hD2 : (ratpBehaviourD2 x hdr).2 = false := by
      unfold ratpBehaviourD2
      split <;> rfl
    have hAck : acknowledges (ratpBehaviourD2 x hdr).1 hdr = acknowledges x hdr := by
      unfold ratpBehaviourD2
      split <;> rfl
    have hSame := d2_sameQueue x hdr
    rw [behave_cons, hC2, if_neg Bool.false_ne_true, behave_cons,
      hD2, if_neg Bool.false_ne_true, ← hAck]
    refine .of_same hSame ?_
    generalize (ratpBehaviourD2 x hdr).1 = y
    by_cases hSyn : hdr.control.syn = true
    · have hE : (ratpBehaviourE y hdr).2 = true := by simp [ratpBehaviourE, hSyn]
      rw [behave_cons, if_pos hE]
      exact (e_sameQueue y hdr).passes
    · have hE : ratpBehaviourE y hdr = (y, false) := by simp [ratpBehaviourE, hSyn]
      grind [behave_cons, acknowledged_passes]
  · have hC2 : (ratpBehaviourC2 x hdr).2 = true := by
      simp only [ratpBehaviourC2, hSn, Bool.false_eq_true, if_false]
      split
      · rfl
      · split <;> rfl
    rw [behave_cons, if_pos hC2]
    exact (c2_sameQueue x hdr).passes

theorem ratpStateMachine_passes :
    Passes (acknowledges x hdr = true) x (ratpStateMachine x hdr) := by
  unfold ratpStateMachine
  cases x.state with
  | listen => exact (a_sameQueue x hdr).passes
  | synSent => exact (b_takes x hdr).passes
  | synReceived => exact (synReceived_takes x hdr).passes
  | established => exact established_passes x hdr
  | finWait =>
    refine (behave_sameQueue x hdr ?_).passes
    simp [c2_sameQueue, d2_sameQueue, e_sameQueue, h3_sameQueue, ratpBehaviourF3, SameQueue.refl]
  | lastAck =>
    refine (behave_sameQueue x hdr ?_).passes
    simp [c2_sameQueue, d3_sameQueue, e_sameQueue, h4_sameQueue, ratpBehaviourF3, SameQueue.refl]
  | closing =>
    refine (behave_sameQueue x hdr ?_).passes
    simp [c2_sameQueue, d3_sameQueue, e_sameQueue, h5_sameQueue, ratpBehaviourF3, SameQueue.refl]
  | timeWait =>
    refine (behave_sameQueue x hdr ?_).passes
    simp [d3_sameQueue, e_sameQueue, h6_sameQueue, ratpBehaviourF3, SameQueue.refl]
  | closed => exact (g_sameQueue x hdr).passes

end Behaviours

def hearsAck (ri : RatpInternal) (stream : List UInt8) : Bool :=
  match (ratpRecvPkt ri.recvbuf stream).1 with
  | .ok hdr => acknowledges ri hdr
  | .error _ => false

theorem ratpPollRecv_passes (x : RatpInternal) (stream : List UInt8) (timers : Timers) :
    Passes (hearsAck x stream = true) x (ratpPollRecv x stream timers).2.1 := by
  unfold ratpPollRecv hearsAck
  rcases hRecv : ratpRecvPkt x.recvbuf stream with ⟨_ | hdr, recvbuf, rest⟩
  · have hSame : SameQueue x { x with recvbuf := recvbuf } := ⟨rfl, rfl⟩
    exact hSame.passes
  have hSame : SameQueue x { x with recvbuf := recvbuf } := ⟨rfl, rfl⟩
  dsimp only
  split
  · exact hSame.passes
  · exact .of_same hSame (ratpStateMachine_passes { x with recvbuf := recvbuf } hdr)

theorem Takes.pollSend {x y : RatpInternal} (h : Takes x y) (timers : Timers) :
    Takes x (ratpPollSend y timers).2 := by
  unfold ratpPollSend
  split
  · exact h.sendNextData
  have hSame (z : RatpInternal) (hz : SameQueue y z) : Takes x z := by
    cases h with
    | same same => exact .same (same.trans hz)
    | took m slot front queue handed =>
        exact .took m slot front (hz.queue.trans queue) (hz.handed.trans handed)
  split
  · dsimp only
    split <;> exact hSame _ ⟨rfl, rfl⟩
  · exact h

theorem ratpPoll_passes (x : RatpInternal) (stream : List UInt8) (timers : Timers) :
    Passes (hearsAck x stream = true) x (ratpPoll x stream timers).2.1 := by
  have hRecv := ratpPollRecv_passes x stream timers
  unfold ratpPoll
  rcases hPoll : ratpPollRecv x stream timers with ⟨_ | e, ri, rest⟩
  · rw [hPoll] at hRecv
    obtain ⟨mid, hFinishes, hTakes⟩ := hRecv
    exact ⟨mid, hFinishes, hTakes.pollSend timers⟩
  · grind

/-- A fragment in the queue with the callback that `ratp_send_complete` gave it, if
any: the context passed to it is the number of the message. -/
structure Queued where
  msg : Message
  complete : Option Nat

structure Call where
  message : Nat
  status : Option Errno
  deriving DecidableEq

/-- An end of a link with the callbacks of the messages in its queue. The calls
made, the number of messages with a callback that were accepted and those of them
whose last fragment was acknowledged are kept as observations. -/
structure Sender where
  ri : RatpInternal
  queue : Queue Queued
  calls : List Call
  sent : Nat
  acknowledged : List Nat

namespace Sender

/-- The callback that `ratp_msg_done` invokes. -/
def callback (status : Option Errno) (m : Queued) : Option Call := m.complete.map (⟨·, status⟩)

variable (s : Sender)

def hear : Sender :=
  { s with acknowledged := s.acknowledged ++ s.queue.slot.toList.filterMap Queued.complete }

/-- `ratp_msg_done` for the message in flight. -/
def msgDone : Sender :=
  { s with
    queue := s.queue.finish, calls := s.calls ++ s.queue.slot.toList.filterMap (callback none) }

def sendNextData : Sender := { s with queue := s.queue.take }

/-- `ratp_poll`. The message in flight is done if the endpoint completes one, and
the next one follows if it hands one over. -/
def ratpPoll (s : Sender) (stream : List UInt8) (timers : Timers) : Sender :=
  let ri := (Ratp.ratpPoll s.ri stream timers).2.1
  let heard := if hearsAck s.ri stream then s.hear else s
  let done := if s.ri.completed.length < ri.completed.length then heard.msgDone else heard
  let next := if s.ri.handed.length < ri.handed.length then done.sendNextData else done
  { next with ri := ri }

/-- `ratp_send_complete`, without a callback for `ratp_send`. -/
def ratpSendComplete (data : List UInt8) (complete : Bool) : Sender :=
  match ratpSend s.ri data, fragments data.length data with
  | some (.ok ri), some msgs =>
    { s with
      ri := ri, sent := if complete then s.sent + 1 else s.sent
      queue := s.queue.push
        (msgs.map fun m => ⟨m, if m.eor && complete then some s.sent else none⟩) }
  | _, _ => s

/-- The beginning of `ratp_close`: the packet with FIN. -/
def ratpFin (ri : RatpInternal) : RatpInternal :=
  ratpSendPkt { ri with state := .finWait }
    ⟨⟨{ Control.none with sn := !ri.snSent, an := !ri.snReceived, fin := true, ack := true }, 0⟩,
      []⟩

/-- `ratp_close` up to the end of its polls. -/
def closing (polls : List (List UInt8 × Timers)) : Sender :=
  if s.ri.state = .established ∨ s.ri.state = .synReceived then
    polls.foldl (fun s poll => s.ratpPoll poll.1 poll.2) { s with ri := ratpFin s.ri }
  else s

/-- `ratp_close`: in the end, the messages that still wait are done. -/
def ratpClose (polls : List (List UInt8 × Timers)) : Sender :=
  let s := s.closing polls
  { s with calls := s.calls ++ s.queue.waiting.filterMap (callback (some .econnreset)) }

inductive Event where
  | poll (stream : List UInt8) (timers : Timers)
  | send (data : List UInt8) (complete : Bool)

def step : Event → Sender
  | .poll stream timers => s.ratpPoll stream timers
  | .send data complete => s.ratpSendComplete data complete

def run (events : List Event) : Sender := events.foldl step s

def establish (active : Bool) (recvbuf : List UInt8) : Sender :=
  ⟨ratpEstablish active recvbuf, .empty, [], 0, []⟩

/-- Every message with a callback has seen one call, with status zero exactly if its
last fragment was acknowledged. -/
def CompletedOnce : Prop :=
  ∀ n < s.sent, ∃ status, s.calls.filter (·.message = n) = [⟨n, status⟩] ∧
    (status = none ↔ n ∈ s.acknowledged)

/-- The last fragment of a message with a callback is not in flight. -/
def Settled : Prop := ∀ m, s.queue.slot = some m → m.complete = none

def Tracks : Prop := s.queue.map Queued.msg = s.ri.queue

def numbers (ms : List Queued) : List Nat := ms.filterMap Queued.complete

/-- Messages are numbered in their order; those that are done were acknowledged and
reported, and only what was in flight was acknowledged. -/
structure Accounted (s : Sender) : Prop where
  all : numbers s.queue.all = range s.sent
  calls : s.calls = s.queue.done.filterMap (callback none)
  done : ∀ n ∈ numbers s.queue.done, n ∈ s.acknowledged
  handed : ∀ n ∈ s.acknowledged, n ∈ numbers (s.queue.done ++ s.queue.slot.toList)

variable {s : Sender}

theorem Accounted.hear (h : Accounted s) : Accounted s.hear := by
  refine ⟨h.all, h.calls, fun n hn => mem_append_left _ (h.done n hn), fun n hn => ?_⟩
  rcases mem_append.mp hn with hOld | hNew
  · exact h.handed n hOld
  · rw [numbers, filterMap_append]
    exact mem_append_right _ hNew

theorem Accounted.msgDone (h : Accounted s)
    (hAck : ∀ n ∈ numbers s.queue.slot.toList, n ∈ s.acknowledged) :
    Accounted s.msgDone := by
  refine ⟨?_, ?_, fun n hn => ?_, fun n hn => ?_⟩
  · simp [Sender.msgDone, h.all]
  · simp [Sender.msgDone, finish, h.calls]
  · rw [Sender.msgDone, finish, numbers, filterMap_append] at hn
    exact forall_mem_append.mpr ⟨h.done, hAck⟩ n hn
  · grind [Sender.msgDone, finish, h.handed]

theorem Accounted.sendNextData (h : Accounted s) (hSlot : s.queue.slot = none) :
    Accounted s.sendNextData := by
  refine ⟨?_, h.calls, h.done, fun n hn => ?_⟩
  · simp [Sender.sendNextData, all_take _ hSlot, h.all]
  have hOld := h.handed n hn
  rw [hSlot, Option.toList_none, append_nil] at hOld
  rw [numbers, filterMap_append]
  exact mem_append_left _ hOld

variable {x mid : RatpInternal} {polls : List (List UInt8 × Timers)}

theorem Accounted.follow_finishes {ack : Prop} (h : Accounted s)
    (hTracks : s.queue.map Queued.msg = x.queue)
    (hFinishes : Finishes ack x mid)
    (hAck : ack → ∀ n ∈ numbers s.queue.slot.toList, n ∈ s.acknowledged) :
    Accounted (if x.completed.length < mid.completed.length then s.msgDone else s) ∧
      (if x.completed.length < mid.completed.length then s.msgDone else s).queue.map Queued.msg =
      mid.queue := by
  cases hFinishes with
  | same same =>
    have hCompleted : mid.completed = x.completed := congrArg Queue.done same.queue
    grind [same.queue]
  | finished m ack slot queue handed =>
    have hCompleted : mid.completed = x.completed ++ [m] := by
      have hDone := congrArg Queue.done queue
      rwa [finish, slot] at hDone
    rw [hCompleted, if_pos (by simp), queue, Sender.msgDone, map_finish, hTracks]
    exact ⟨h.msgDone (hAck ack), rfl⟩

theorem Accounted.follow_takes {y : RatpInternal} (h : Accounted s)
    (hTracks : s.queue.map Queued.msg = mid.queue) (hTakes : Takes mid y) :
    Accounted (if mid.handed.length < y.handed.length then s.sendNextData else s) ∧
      (if mid.handed.length < y.handed.length then s.sendNextData else s).queue.map Queued.msg =
      y.queue := by
  cases hTakes with
  | same same =>
    grind [same.handed, same.queue]
  | took m slot front queue handed =>
    have hSlot : s.queue.slot = none := by
      rw [← hTracks] at slot
      exact Option.map_eq_none_iff.mp slot
    rw [handed, if_pos (by simp), queue, Sender.sendNextData, Queue.map_take, hTracks]
    exact ⟨h.sendNextData hSlot, rfl⟩

theorem ratpPoll_preserves (hTracks : Tracks s) (h : Accounted s)
    (stream : List UInt8) (timers : Timers) :
    Tracks (s.ratpPoll stream timers) ∧ Accounted (s.ratpPoll stream timers) := by
  obtain ⟨mid, hFinishes, hTakes⟩ := ratpPoll_passes s.ri stream timers
  unfold ratpPoll
  generalize (Ratp.ratpPoll s.ri stream timers).2.1 = ri at hTakes
  obtain ⟨heard, hEq, hQueue, hHeard, hAck⟩ : ∃ heard,
      (if hearsAck s.ri stream then s.hear else s) = heard ∧
      heard.queue = s.queue ∧ Accounted heard ∧
      (hearsAck s.ri stream = true → ∀ n ∈ numbers s.queue.slot.toList,
        n ∈ heard.acknowledged) := by
    refine ⟨_, rfl, ?_⟩
    split
    · exact ⟨rfl, h.hear, fun _ n hn => mem_append_right _ hn⟩
    next hNot => exact ⟨rfl, h, fun hAck => absurd hAck hNot⟩
  rw [← hQueue] at hAck
  obtain ⟨hDone, hMid⟩ := hHeard.follow_finishes (hQueue ▸ hTracks) hFinishes hAck
  obtain ⟨hNext, hNew⟩ := hDone.follow_takes hMid hTakes
  rw [hFinishes.handed_eq, ← hTakes.completed] at hNext hNew
  dsimp only
  rw [hEq]
  exact ⟨hNew, { hNext with }⟩

theorem numbers_fragments {fuel n : Nat} {data : List UInt8}
    {msgs : List Message} (h : fragments fuel data = some msgs) :
    numbers (msgs.map fun m => ⟨m, if m.eor && true then some n else none⟩) = [n] := by
  induction fuel generalizing data msgs with
  | zero => cases h
  | succ fuel ih =>
    simp only [fragments] at h
    split at h
    next => cases h
    next =>
      split at h
      next =>
        cases h
        rfl
      next =>
        obtain ⟨rest, hRest, rfl⟩ := Option.map_eq_some_iff.mp h
        simpa [numbers] using ih hRest

theorem numbers_without (msgs : List Message) (n : Nat) :
    numbers (msgs.map fun m => ⟨m, if m.eor && false then some n else none⟩) = [] := by
  simp [numbers]

theorem ratpSend_queue {x' : RatpInternal} {data : List UInt8}
    {msgs : List Message} (h : ratpSend x data = some (.ok x'))
    (hFragments : fragments data.length data = some msgs) : x'.queue = x.queue.push msgs := by
  unfold ratpSend at h
  split at h
  · cases h
  split at h
  · cases h
  rw [hFragments] at h
  cases h
  rfl

theorem ratpSendComplete_preserves (hTracks : Tracks s) (h : Accounted s)
    (data : List UInt8) (complete : Bool) :
    Tracks (s.ratpSendComplete data complete) ∧ Accounted (s.ratpSendComplete data complete) := by
  unfold ratpSendComplete
  split
  next ri msgs hSend hFragments =>
    constructor
    · rw [Tracks, ratpSend_queue hSend hFragments, map_push, hTracks, map_map]
      congr 1
      exact map_id msgs
    refine { h with all := ?_ }
    rw [all_push, numbers, filterMap_append]
    cases complete with
    | false =>
      have hNone := numbers_without msgs s.sent
      grind [numbers, h.all]
    | true =>
      have hOne := @numbers_fragments _ s.sent _ _ hFragments
      grind [numbers, range_succ, h.all]
  next => exact ⟨hTracks, h⟩

theorem run_preserves (events : List Event) (hTracks : Tracks s) (h : Accounted s) :
    Tracks (s.run events) ∧ Accounted (s.run events) := by
  induction events generalizing s with
  | nil => exact ⟨hTracks, h⟩
  | cons event events ih =>
    cases event with
    | poll stream timers =>
      obtain ⟨hTracks, h⟩ := ratpPoll_preserves hTracks h stream timers
      exact ih hTracks h
    | send data complete =>
      obtain ⟨hTracks, h⟩ := ratpSendComplete_preserves hTracks h data complete
      exact ih hTracks h

theorem polls_preserve (polls : List (List UInt8 × Timers)) (hTracks : Tracks s) (h : Accounted s) :
    Accounted (polls.foldl (fun s poll => s.ratpPoll poll.1 poll.2) s) := by
  induction polls generalizing s with
  | nil => exact h
  | cons poll polls ih =>
    obtain ⟨hTracks, h⟩ := ratpPoll_preserves hTracks h poll.1 poll.2
    exact ih hTracks h

theorem closing_accounted (polls : List (List UInt8 × Timers))
    (hTracks : Tracks s) (h : Accounted s) :
    Accounted (s.closing polls) := by
  unfold closing
  split
  · have hFin : s.ri.queue = (ratpFin s.ri).queue := by simp [RatpInternal.queue, ratpFin]
    exact polls_preserve polls (hTracks.trans hFin) { h with }
  · exact h

variable (active : Bool) (recvbuf : List UInt8)

theorem establish_tracks : Tracks (establish active recvbuf) := by
  cases active <;> simp [Tracks, establish, ratpEstablish, ratpSendHdr,
    RatpInternal.queue, Queue.empty, Queue.map]

theorem establish_accounted : Accounted (establish active recvbuf) := ⟨rfl, rfl, nofun, nofun⟩

theorem filterMap_callback (status : Option Errno) (ms : List Queued) :
    ms.filterMap (callback status) = (numbers ms).map (⟨·, status⟩) := by
  rw [numbers, map_filterMap]
  rfl

theorem filter_calls {ns : List Nat} (h : ns.Nodup) (status : Option Errno) (n : Nat) :
    (ns.map (Call.mk · status)).filter (·.message = n) = if n ∈ ns then [⟨n, status⟩] else [] := by
  rw [filter_map]
  have hFilter : ns.filter ((fun call => decide (call.message = n)) ∘ (Call.mk · status)) =
      replicate (ns.count n) n :=
    filter_eq n
  rw [hFilter, Nodup.count h]
  split <;> rfl

theorem Accounted.calls_ratpClose (h : Accounted (s.closing polls)) (n : Nat) :
    (s.ratpClose polls).calls.filter (·.message = n) =
      (if n ∈ numbers (s.closing polls).queue.done then [⟨n, none⟩] else []) ++
        if n ∈ numbers (s.closing polls).queue.waiting then [⟨n, some .econnreset⟩] else [] := by
  have hAll : (numbers (s.closing polls).queue.all).Nodup := h.all ▸ nodup_range
  rw [Queue.all, numbers, filterMap_append, filterMap_append] at hAll
  have hRest := (nodup_append.mp hAll).2.1
  have hDone : (numbers (s.closing polls).queue.done).Nodup := (nodup_append.mp hAll).1
  have hWaiting : (numbers (s.closing polls).queue.waiting).Nodup := (nodup_append.mp hRest).2.1
  simp [ratpClose, h.calls, filterMap_callback, filter_calls hDone, filter_calls hWaiting]

theorem completedOnce_iff (h : Accounted (s.closing polls)) :
    (s.ratpClose polls).CompletedOnce ↔ (s.closing polls).Settled := by
  have hCalls := h.calls_ratpClose
  have hMem (n : Nat) : n < (s.closing polls).sent ↔ n ∈ numbers (s.closing polls).queue.all := by
    simp [h.all]
  have hAll : (numbers (s.closing polls).queue.all).Nodup := h.all ▸ nodup_range
  simp only [Queue.all, numbers, filterMap_append, mem_append, nodup_append] at hMem hAll
  obtain ⟨hDone, ⟨hSlot, hWaiting, hSlotWaiting⟩, hApart⟩ := hAll
  constructor
  · intro hOnce m hm
    by_contra hSome
    obtain ⟨n, hn⟩ := Option.ne_none_iff_exists'.mp hSome
    have hIn : n ∈ (s.closing polls).queue.slot.toList.filterMap Queued.complete := by
      rw [hm]
      simp [hn]
    obtain ⟨status, hStatus, _⟩ := hOnce n ((hMem n).mpr (.inr (.inl hIn)))
    have hNotDone : n ∉ numbers (s.closing polls).queue.done := fun hOther =>
      hApart n hOther n (.inl hIn) rfl
    have hNotWaiting : n ∉ numbers (s.closing polls).queue.waiting := fun hOther =>
      hSlotWaiting n hIn n hOther rfl
    rw [hCalls n, if_neg hNotDone, if_neg hNotWaiting] at hStatus
    cases hStatus
  · intro hSettled n hn
    have hEmpty : (s.closing polls).queue.slot.toList.filterMap Queued.complete = [] := by
      cases hCurrent : (s.closing polls).queue.slot with
      | none => rfl
      | some m => simp [hSettled m hCurrent]
    rw [hCalls n]
    rw [hEmpty] at hMem hApart
    rcases (hMem n).mp hn with hIn | hIn | hIn
    · have hNot : n ∉ numbers (s.closing polls).queue.waiting := fun hOther =>
        hApart n hIn n (.inr hOther) rfl
      rw [if_pos (show n ∈ numbers _ from hIn), if_neg hNot]
      exact ⟨none, rfl, iff_of_true rfl (h.done n hIn)⟩
    · cases hIn
    have hNot : n ∉ numbers (s.closing polls).queue.done := fun hOther =>
      hApart n hOther n (.inr hIn) rfl
    rw [if_neg hNot, if_pos (show n ∈ numbers _ from hIn)]
    refine ⟨some .econnreset, rfl, iff_of_false (Option.some_ne_none _) fun hAck => hNot ?_⟩
    have hHanded := h.handed n hAck
    rwa [numbers, filterMap_append, hEmpty, append_nil] at hHanded

/-- When a link is closed, every message with a callback sees one call with the right
status exactly if none of their last fragments is in flight in the end: that one is
dropped without a call. -/
theorem ratpClose_completedOnce_iff (events : List Event)
    (polls : List (List UInt8 × Timers)) :
    (((establish active recvbuf).run events).ratpClose polls).CompletedOnce ↔
      (((establish active recvbuf).run events).closing polls).Settled := by
  obtain ⟨hTracks, h⟩ :=
    run_preserves events (establish_tracks active recvbuf) (establish_accounted active recvbuf)
  exact completedOnce_iff (closing_accounted polls hTracks h)

/-- The other side opens the link, a message of two bytes is sent, and the link is
closed before the message is acknowledged. -/
def unacknowledged : List Event :=
  [.poll (Packet.encode ⟨⟨{ Control.none with syn := true }, 255⟩, []⟩) ⟨false, false⟩,
    .poll (Packet.encode ⟨⟨{ Control.none with sn := true, an := true, ack := true }, 0⟩, []⟩)
      ⟨false, false⟩,
    .send [1, 2] true, .poll [] ⟨false, false⟩]

/-- The callback of the message is never invoked. -/
theorem ratpClose_drops_callback :
    let s := ((establish false (replicate 508 0)).run unacknowledged).ratpClose []
    s.sent = 1 ∧ s.calls = [] ∧ ¬ s.CompletedOnce := by
  have hRun : (((establish false (replicate 508 0)).run unacknowledged).ratpClose []).sent = 1 ∧
      (((establish false (replicate 508 0)).run unacknowledged).ratpClose []).calls = [] := by
    decide +kernel
  refine ⟨hRun.1, hRun.2, fun hOnce => ?_⟩
  obtain ⟨status, hCalls, _⟩ := hOnce 0 (by rw [hRun.1]; decide)
  rw [hRun.2] at hCalls
  cases hCalls

end Sender
end Barebox.Ratp
