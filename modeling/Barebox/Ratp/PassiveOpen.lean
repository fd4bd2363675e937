import Barebox.Ratp.ExactlyOnce

/-! The passive open: from LISTEN over SYN_RECEIVED to ESTABLISHED. The sequence number
of the SYN is not kept in LISTEN. -/
namespace Barebox.Ratp
open List

def pollWith (x : RatpInternal) (arrival : Option Packet × Timers) : RatpInternal :=
  (ratpPoll x ((arrival.1.map Packet.encode).getD []) arrival.2).2.1

def pollAll (x : RatpInternal) (arrivals : List (Option Packet × Timers)) : RatpInternal :=
  arrivals.foldl pollWith x

def synPacket (s : Bool) (mdl : UInt8) : Packet :=
  ⟨⟨{ Control.none with syn := true, sn := s }, mdl⟩, []⟩

structure Acknowledging (s : Bool) (p : Packet) : Prop where
  wellFormed : p.WellFormed
  ack : p.control.ack = true
  sn : p.control.sn = !s
  an : p.control.an = true
  plain : p.control.syn = false ∧ p.control.rst = false ∧ p.control.fin = false

/-- An end in LISTEN. Nothing can be queued before a connection is established. -/
structure Listening (x : RatpInternal) : Prop where
  state : x.state = .listen
  status : x.status = none
  sendmsg : x.sendmsg = []
  current : x.sendmsgCurrent = none

/-- Whatever is lost or repeated before, the acknowledgement of the SYN,ACK opens the
connection, and the first data of the peer is accepted once, however often it comes. -/
def OpensFor (x : RatpInternal) (s : Bool) : Prop :=
  ∀ syns, (∀ e ∈ syns, ∀ p ∈ e.1, ∃ mdl, p = synPacket s mdl) →
    (pollAll x syns).state = .synReceived →
    ∀ p timers, Acknowledging s p → (pollWith (pollAll x syns) (some p, timers)).state =
      .established ∧
      ∀ q later, Acknowledging s q → ratpHasData q.toHeader = true →
        (ratpHasData p.toHeader = true → q = p) →
        (∀ e ∈ later, ∀ p' ∈ e.1, p' = q) →
          (ratpHasData p.toHeader = true ∨ ∃ timers, (some q, timers) ∈ later) →
        (pollAll (pollWith (pollAll x syns) (some p, timers)) later).accepted =
          x.accepted ++ [q.fragment]

section Polls
variable {x : RatpInternal} {p : Packet} {s : Bool} {timers : Timers} {acc : List Message}

theorem pollWith_some (h : p.WellFormed) (hState : x.state ≠ .timeWait) {z : RatpInternal}
    (hz : ratpStateMachine { x with recvbuf := received p x.recvbuf } p.toHeader = z) :
    pollWith x (some p, timers) = if z.status = none then (ratpPollSend z timers).2 else z := by
  have hRecv := ratpRecvPkt_encode h x.recvbuf []
  rw [append_nil] at hRecv
  simp only [pollWith, ratpPoll, ratpPollRecv, Option.map_some,
    Option.getD_some, hRecv, hState, decide_false,
    Bool.false_and, Bool.false_eq_true, if_false, hz]
  cases z.status <;> rfl

theorem ratpSendAck_eq (x : RatpInternal) (hdr : Header) :
    ratpSendAck x hdr = { x with out := x.out ++ [⟨⟨ackControl hdr, 0⟩, []⟩] } := rfl

theorem ratpSendNextData_idle (h : x.sendmsg = []) : ratpSendNextData x = x := by
  unfold ratpSendNextData
  rw [h]
  cases x.sendmsgCurrent <;> rfl

/-- With nothing to send or to repeat, the second half of a poll does nothing. -/
theorem ratpPollSend_idle (h : x.sendbuf = none ∨ timers.retransmission = false)
    (hSendmsg : x.sendmsg = []) :
    (ratpPollSend x timers).2 = x := by
  unfold ratpPollSend
  split
  · exact ratpSendNextData_idle hSendmsg
  next hSome =>
    rw [hSome] at h
    rw [if_neg (by simp [h.resolve_left nofun])]

structure Awaiting (s : Bool) (acc : List Message) (y : RatpInternal) : Prop where
  received : y.snReceived = s
  accepted : y.accepted = acc
  sendmsg : y.sendmsg = []
  current : y.sendmsgCurrent = none
  place : Listening y ∨ (y.state = .synReceived ∧ y.snSent = false ∧ y.status = none) ∨
    y.state = .closed

variable (h : Awaiting s acc x)
include h

theorem Awaiting.send (timers : Timers) : Awaiting s acc (ratpPollSend x timers).2 := by
  unfold ratpPollSend
  split
  · rw [ratpSendNextData_idle h.sendmsg]
    exact h
  dsimp only
  split_ifs
  · exact { h with place := .inr (.inr rfl) }
  · exact { h with place := h.place.imp_left fun hListen => { hListen with } }
  · exact h

/-- A SYN in LISTEN is answered; one that comes again is a duplicate. -/
theorem Awaiting.syn (recvbuf : List UInt8) (mdl : UInt8) :
    Awaiting s acc (ratpStateMachine { x with recvbuf := recvbuf } (synPacket s mdl).toHeader) := by
  obtain ⟨hReceived, hAccepted, hSendmsg, hCurrent, hPlace⟩ := h
  rcases hPlace with hListen | ⟨hState, hSent, hStatus⟩ | hState
  · have hState := hListen.state
    have hStatus := hListen.status
    refine ⟨?_, ?_, ?_, ?_, .inr (.inl ⟨?_, ?_, ?_⟩)⟩ <;>
      simp [ratpStateMachine, ratpBehaviourA, synPacket, Control.none, ratpSendPkt, *]
  · refine ⟨?_, ?_, ?_, ?_, .inr (.inl ⟨?_, ?_, ?_⟩)⟩ <;>
      simp [ratpStateMachine, behave, ratpBehaviourC1, ratpSnExpected,
        synPacket, Control.none, ratpSendAck,
        ratpSendHdr, ackControl, ratpSendPkt, ratpHasData, *]
  · refine ⟨?_, ?_, ?_, ?_, .inr (.inr ?_)⟩ <;>
      simp [ratpStateMachine, ratpBehaviourG, synPacket, Control.none, ratpSendHdr, ratpSendPkt, *]

theorem Awaiting.poll {e : Option Packet × Timers} (he : ∀ p ∈ e.1, ∃ mdl, p = synPacket s mdl) :
    Awaiting s acc (pollWith x e) := by
  obtain ⟨_ | p, timers⟩ := e
  · exact h.send timers
  obtain ⟨mdl, rfl⟩ := he p rfl
  have hState : x.state ≠ .timeWait := by
    rcases h.place with hListen | hWait | hClosed
    · simp [hListen.state]
    · simp [hWait.1]
    · simp [hClosed]
  have hSyn := h.syn (Ratp.received (synPacket s mdl) x.recvbuf) mdl
  rw [pollWith_some (by rfl) hState rfl]
  split_ifs
  · exact hSyn.send timers
  · exact hSyn

/-- Repeated SYNs leave the passive end waiting. -/
theorem Awaiting.run {syns : List (Option Packet × Timers)}
    (hSyns : ∀ e ∈ syns, ∀ p ∈ e.1, ∃ mdl, p = synPacket s mdl) :
    Awaiting s acc (pollAll x syns) := by
  induction syns generalizing x with
  | nil => exact h
  | cons e syns ih => exact ih (h.poll (hSyns e (.head _))) fun e' he' => hSyns e' (.tail _ he')

omit h

/-- The connection is open and there is nothing to send. -/
structure Opened (v : Bool) (acc : List Message) (y : RatpInternal) : Prop where
  state : y.state = .established
  status : y.status = none
  sendbuf : y.sendbuf = none
  sendmsg : y.sendmsg = []
  current : y.sendmsgCurrent = none
  received : y.snReceived = v
  accepted : y.accepted = acc

theorem Opened.send {v : Bool} (h : Opened v acc x) (timers : Timers) :
    Opened v acc (ratpPollSend x timers).2 := by
  rw [ratpPollSend_idle (.inl h.sendbuf) h.sendmsg]
  exact h

theorem Opened.i1 {v : Bool} (h : Opened v acc x) (hp : Acknowledging s p) (recvbuf : List UInt8)
    (hBuf : x.recvbuf = Ratp.received p recvbuf) : Opened (if ratpHasData p.toHeader then !s else v)
      (acc ++ if ratpHasData p.toHeader then [p.fragment] else [])
      (ratpBehaviourI1 x p.toHeader).1 := by
  obtain ⟨hState, hStatus, hSendbuf, hSendmsg, hCurrent, hReceived, hAccepted⟩ := h
  rcases hData : ratpHasData p.toHeader with _ | _
  · constructor <;> simp [ratpBehaviourI1, *]
  have hFragment := carried_received hp.wellFormed hData recvbuf
  rw [← hBuf] at hFragment
  have hTake : ratpBehaviourI1 x p.toHeader =
      (ratpAnswer (ratpAccept x p.toHeader) p.toHeader, false) :=
    if_neg (by simp [hData])
  constructor <;> simp [hTake, ratpAnswer, ratpAccept, msgRecv,
    ratpSendAck_eq, hp.sn, hState, hStatus, hSendbuf, hSendmsg,
    hCurrent, hAccepted, hFragment]

theorem Awaiting.acknowledge (h : Awaiting s acc x) (hState : x.state = .synReceived)
    (hp : Acknowledging s p)
    (timers : Timers) : Opened (if ratpHasData p.toHeader then !s else s)
      (acc ++ if ratpHasData p.toHeader then [p.fragment] else [])
      (pollWith x (some p, timers)) := by
  obtain ⟨hSent, hStatus⟩ : x.snSent = false ∧ x.status = none := by
    rcases h.place with hListen | hWait | hClosed
    · simp [hListen.state] at hState
    · exact hWait.2
    · simp [hClosed] at hState
  have hMachine : ratpStateMachine { x with recvbuf := Ratp.received p x.recvbuf } p.toHeader =
      (ratpBehaviourI1
      { x with recvbuf := Ratp.received p x.recvbuf, sendbuf := none, state := .established }
      p.toHeader).1 := by
    simp [ratpStateMachine, hState, behave, ratpBehaviourC1,
      ratpSnExpected, h.received, hp.sn, ratpBehaviourD1,
      ratpBehaviourE, hp.plain, ratpBehaviourF1, hp.ack, ratpAnExpected,
        hp.an, hSent, ratpBehaviourH1]
  have hOpen :
      Opened s acc
        { x with recvbuf := Ratp.received p x.recvbuf, sendbuf := none, state := .established } :=
    ⟨rfl, hStatus, rfl, h.sendmsg, h.current, h.received, h.accepted⟩
  have hI1 := hOpen.i1 hp x.recvbuf rfl
  rw [pollWith_some hp.wellFormed (by simp [hState]) hMachine, if_pos hI1.status]
  exact hI1.send timers

section Data
variable {q : Packet} (hq : Acknowledging s q)
include hq

theorem Opened.first (h : Opened s acc x) (hData : ratpHasData q.toHeader = true)
    (timers : Timers) :
    Opened (!s) (acc ++ [q.fragment]) (pollWith x (some q, timers)) := by
  have hMachine : ratpStateMachine { x with recvbuf := Ratp.received q x.recvbuf } q.toHeader =
      (ratpBehaviourI1 { x with recvbuf := Ratp.received q x.recvbuf } q.toHeader).1 := by
    simp [ratpStateMachine, h.state, behave, ratpBehaviourC2,
      ratpSnExpected, h.received, hq.sn, ratpBehaviourD2,
      ratpBehaviourE, hq.plain, ratpBehaviourF2, hq.ack, h.current, h.sendbuf, ratpBehaviourH2]
  have hBuf : Opened s acc { x with recvbuf := Ratp.received q x.recvbuf } := { h with }
  have hI1 := hBuf.i1 hq x.recvbuf rfl
  rw [pollWith_some hq.wellFormed (by simp [h.state]) hMachine, if_pos hI1.status]
  simpa [hData] using hI1.send timers

theorem Opened.again (h : Opened (!s) acc x) (timers : Timers) :
    Opened (!s) acc (pollWith x (some q, timers)) := by
  have hDuplicate : Opened (!s) acc
      (ratpStateMachine { x with recvbuf := Ratp.received q x.recvbuf } q.toHeader) := by
    constructor <;>
      simp [ratpStateMachine, behave, ratpBehaviourC2, ratpSnExpected,
        hq.sn, hq.plain, ratpSendAck, ratpSendHdr,
        ratpSendPkt, ratpHasData, ackControl, Control.none, h.state,
          h.status, h.sendbuf, h.sendmsg, h.current,
        h.received, h.accepted]
  rw [pollWith_some hq.wellFormed (by simp [h.state]) rfl, if_pos hDuplicate.status]
  exact hDuplicate.send timers

variable {later : List (Option Packet × Timers)}

theorem Opened.stays (h : Opened (!s) acc x)
    (hLater : ∀ e ∈ later, ∀ p ∈ e.1, p = q) : Opened (!s) acc (pollAll x later) := by
  induction later generalizing x with
  | nil => exact h
  | cons e later ih =>
    refine ih ?_ fun e' he' => hLater e' (.tail _ he')
    obtain ⟨_ | p, timers⟩ := e
    · exact h.send timers
    · obtain rfl := hLater _ (.head _) p rfl
      exact h.again hq timers

theorem Opened.arrives (h : Opened s acc x)
    (hData : ratpHasData q.toHeader = true) (hLater : ∀ e ∈ later, ∀ p ∈ e.1, p = q)
    (hCome : ∃ timers, (some q, timers) ∈ later) :
    Opened (!s) (acc ++ [q.fragment]) (pollAll x later) := by
  induction later generalizing x with
  | nil => simp at hCome
  | cons e later ih =>
    have hRest : ∀ e' ∈ later, ∀ p ∈ e'.1, p = q := fun e' he' => hLater e' (.tail _ he')
    obtain ⟨_ | p, timers⟩ := e
    · exact ih (h.send timers) hRest (by simpa using hCome)
    · obtain rfl := hLater _ (.head _) p rfl
      exact (h.first hq hData timers).stays hq hRest

end Data

theorem opensFor_of_received (h : Listening x) : OpensFor x x.snReceived := by
  intro syns hSyns hState p timers hp
  have hAwait : Awaiting x.snReceived x.accepted x := ⟨rfl, rfl, h.sendmsg, h.current, .inl h⟩
  have hOpen := (hAwait.run hSyns).acknowledge hState hp timers
  refine ⟨hOpen.state, fun q later hq hData hSame hLater hCome => ?_⟩
  cases hFirst : ratpHasData p.toHeader with
  | true =>
    obtain rfl := hSame hFirst
    rw [hFirst] at hOpen
    exact (hOpen.stays hq hLater).accepted
  | false =>
    rw [hFirst] at hOpen hCome
    exact ((by simpa using hOpen : Opened x.snReceived x.accepted _).arrives hq hData hLater
      (by simpa using hCome)).accepted

theorem not_opensFor (h : Listening x) : ¬ OpensFor x (!x.snReceived) := by
  intro hOpens
  have hIdle : (⟨false, false⟩ : Timers).retransmission = false := rfl
  obtain ⟨y, hy, hState, hStatus, hSendmsg, hReceived⟩ : ∃ y,
      ratpStateMachine { x with recvbuf := received (synPacket (!x.snReceived) 0) x.recvbuf }
        (synPacket (!x.snReceived) 0).toHeader = y ∧ y.state = .synReceived ∧
          y.status = none ∧ y.sendmsg = [] ∧
        y.snReceived = x.snReceived := by
    refine ⟨_, rfl, ?_⟩
    simp [ratpStateMachine, h.state, ratpBehaviourA, synPacket,
      Control.none, ratpSendPkt, h.status, h.sendmsg]
  have hSyn : pollAll x [(some (synPacket (!x.snReceived) 0), ⟨false, false⟩)] = y := by
    rw [pollAll, foldl_cons, foldl_nil, pollWith_some (by rfl) (by simp [h.state]) hy,
      if_pos hStatus,
      ratpPollSend_idle (.inr hIdle) hSendmsg]
  let ack : Packet := ⟨⟨{ Control.none with ack := true, sn := x.snReceived, an := true }, 0⟩, []⟩
  obtain ⟨z, hz, hStay, hStatus', hSendmsg'⟩ : ∃ z,
      ratpStateMachine { y with recvbuf := received ack y.recvbuf } ack.toHeader = z ∧
        z.state = .synReceived ∧
        z.status = none ∧ z.sendmsg = [] := by
    refine ⟨_, rfl, ?_⟩
    simp [ratpStateMachine, hState, behave, ratpBehaviourC1,
      ratpSnExpected, ack, Control.none, hReceived, ratpSendAck,
      ratpSendHdr, ackControl, ratpSendPkt, ratpHasData, hStatus, hSendmsg]
  have hOpen :=
    (hOpens [(some (synPacket (!x.snReceived) 0), ⟨false, false⟩)]
      (by simp) (by rw [hSyn, hState]) ack
    ⟨false, false⟩ ⟨rfl, rfl, (Bool.not_not _).symm, rfl, rfl, rfl, rfl⟩).1
  rw [hSyn, pollWith_some (by rfl) (by simp [hState]) hz, if_pos hStatus',
    ratpPollSend_idle (.inr hIdle) hSendmsg', hStay] at hOpen
  cases hOpen

end Polls

/-- A passive open works for the initial sequence numbers of the peer for which the end
happens to expect the next one: LISTEN does not keep the number of the SYN. -/
theorem passive_open_iff {x : RatpInternal} (h : Listening x) (s : Bool) :
    OpensFor x s ↔ x.snReceived = s := by
  constructor
  · intro hOpens
    by_contra hNe
    have hOther : s = !x.snReceived := by
      revert hNe
      cases s <;> cases x.snReceived <;> decide
    exact not_opensFor h (hOther ▸ hOpens)
  · rintro rfl
    exact opensFor_of_received h

theorem ratpEstablish_listening (recvbuf : List UInt8) : Listening (ratpEstablish false recvbuf) :=
  ⟨rfl, rfl, rfl, rfl⟩

theorem passive_open_iff_zero :
    Listening (ratpEstablish false []) ∧ OpensFor (ratpEstablish false []) false :=
  ⟨ratpEstablish_listening [], (passive_open_iff (ratpEstablish_listening []) false).mpr rfl⟩

/-- A peer that starts with one cannot open a connection. -/
theorem passive_open_fails : ¬ OpensFor (ratpEstablish false []) true :=
  not_opensFor (ratpEstablish_listening [])

end Barebox.Ratp
