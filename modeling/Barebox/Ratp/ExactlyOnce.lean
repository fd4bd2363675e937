import Barebox.Ratp.Delivery
import Barebox.Ratp.Fragments

/-! Runs of a link from the opening handshake on. Fragments are delivered exactly
once and in order as long as no packet is retransmitted with an acknowledgement
that is out of date. -/
namespace Barebox.Ratp
open Bytes Barebox.Lib

def fresh (x : RatpInternal) : Bool :=
  match x.sendbuf with
  | some p => !p.control.ack || p.control.an == !x.snReceived
  | none => true

namespace Link

/-- An end that has closed the link is not polled again, and when the timer of a
poll runs out, what is retransmitted is fresh. -/
def allowed (l : Link) : Action → Bool
  | .poll arrived timers =>
    l.a.state != .closed &&
      (!timers.retransmission || fresh (ratpPollRecv l.a (l.incoming arrived) timers).2.1)
  | _ => true

def runAllowed : Link → List (Action ⊕ Action) → Bool
  | _, [] => true
  | l, .inl action :: actions => l.allowed action && runAllowed (l.step (.inl action)) actions
  | l, .inr action :: actions => l.flip.allowed action && runAllowed (l.step (.inr action)) actions

end Link

section Poll
variable {x y : RatpInternal} {wx wy : List Packet} {i k : Nat} {p : Packet}

theorem Opening.rebuffer (h : Opening x) (recvbuf : List UInt8) (count : Nat) (out : List Packet) :
    Opening { x with recvbuf := recvbuf, retransmissionCount := count, out := out } :=
  { h with }

variable (h : Standing x)
include h

theorem Standing.rebuffer (recvbuf : List UInt8) (count : Nat) (out : List Packet) :
    Standing { x with recvbuf := recvbuf, retransmissionCount := count, out := out } := by
  cases h with
  | listen state opening => exact .listen state (opening.rebuffer _ _ _)
  | synSent state opening sn => exact .synSent state (opening.rebuffer _ _ _) sn
  | synReceived state opening sn => exact .synReceived state (opening.rebuffer _ _ _) sn
  | established state established =>
    exact .established state { established with }
  | closed state status => exact .closed state status

theorem Standing.takesPart (hOpen : x.state ≠ .closed) :
    SendbufOk x ∧ x.snReceived = odd x.accepted.length := by
  have hNone : Opening x → SendbufOk x ∧ x.snReceived = odd x.accepted.length := fun opening =>
    ⟨opening.sendbuf, by rw [opening.received, opening.accepted]; rfl⟩
  cases h with
  | listen state opening | synSent state opening sn | synReceived state opening sn =>
      exact hNone opening
  | established state established => exact ⟨established.sendbuf, established.received⟩
  | closed state status => exact absurd state hOpen

theorem Standing.status_none (hStatus : x.status = none) : x.state ≠ .closed := by
  cases h with
  | closed state status => rw [hStatus] at status; cases status
  | listen state => rw [state]; nofun
  | synSent state => rw [state]; nofun
  | synReceived state => rw [state]; nofun
  | established state => rw [state]; nofun

theorem Standing.not_timeWait : x.state ≠ .timeWait := by
  cases h with
  | closed state => rw [state]; nofun
  | listen state => rw [state]; nofun
  | synSent state => rw [state]; nofun
  | synReceived state => rw [state]; nofun
  | established state => rw [state]; nofun

omit h

theorem carried_received (h : p.WellFormed) (hData : ratpHasData p.toHeader = true)
    (recvbuf : List UInt8) :
    carried p.toHeader (received p recvbuf) = p.fragment := by
  unfold carried Packet.fragment
  cases hSo : p.control.so with
  | true => rfl
  | false =>
    obtain ⟨hOnly, hNonzero⟩ : p.control.headerOnly = false ∧ p.dataLength ≠ 0 := by
      simpa [ratpHasData, Control.headerOnly, hSo, and_assoc, and_comm, and_left_comm] using hData
    have hLen : p.payload.length = p.dataLength.toNat := by simpa [Packet.WellFormed, hOnly] using h
    have hPayload : p.payload ≠ [] := by
      intro hNil
      rw [hNil] at hLen
      exact hNonzero (UInt8.toNat_inj.mp hLen.symm)
    simp [received, hPayload, ← hLen, overwrite]

theorem ratpPollRecv_packet (hWell : p.WellFormed) (hState : x.state ≠ .timeWait)
    (timers : Timers) :
    ratpPollRecv x p.encode timers =
    ((ratpStateMachine { x with recvbuf := received p x.recvbuf } p.toHeader).status,
        ratpStateMachine { x with recvbuf := received p x.recvbuf } p.toHeader, []) := by
  have hRecv := ratpRecvPkt_encode hWell x.recvbuf []
  grind [ratpPollRecv]

theorem good_pollRecv (h : Good x y wx wy i k) (hOpen : x.state ≠ .closed)
    (hBody : BodyOk y.handed i p)
    (hAck : AckOk k p) (timers : Timers) : Good (ratpPollRecv x p.encode timers).2.1 y wx wy i k ∧
      (ratpPollRecv x p.encode timers).1 = (ratpPollRecv x p.encode timers).2.1.status := by
  have hGood : Good { x with recvbuf := received p x.recvbuf } y wx wy i k :=
    ⟨h.1.quiet ⟨rfl, rfl, rfl, rfl⟩ rfl, h.2.rebuffer _ _ _⟩
  rw [ratpPollRecv_packet hBody.wellFormed h.2.not_timeWait]
  exact ⟨good_stateMachine hGood hOpen ⟨hBody, hAck,
    fun hData => carried_received hBody.wellFormed hData _⟩, rfl⟩

theorem good_nothing (hOpening : Opening x) (h : Processing x y wx wy i k)
    (hStanding : Standing x) :
    Good (ratpSendNextData x) y wx wy i k := by
  have hSame : ratpSendNextData x = x := by simp [ratpSendNextData, hOpening.sendmsg]
  rw [hSame]
  exact ⟨h, hStanding⟩

theorem good_pollSend (h : Good x y wx wy i k) (hOpen : x.state ≠ .closed) {timers : Timers}
    (hFresh : timers.retransmission = true → fresh x = true) :
    Good (ratpPollSend x timers).2 y wx wy i k := by
  obtain ⟨hProcessing, hStanding⟩ := h
  obtain ⟨hKept, hReceived⟩ := hStanding.takesPart hOpen
  unfold ratpPollSend
  split
  next =>
    cases hStanding with
    | listen state opening => exact good_nothing opening hProcessing (.listen state opening)
    | synSent state opening sn => exact good_nothing opening hProcessing (.synSent state opening sn)
    | synReceived state opening sn =>
        exact good_nothing opening hProcessing (.synReceived state opening sn)
    | established state established => exact good_sendNextData hProcessing state established
    | closed state => exact absurd state hOpen
  next q hSendbuf =>
    split
    next hTimer =>
      have hAck : AckOk x.accepted.length q := by
        intro hAck
        grind [fresh]
      simp only
      split
      · exact ⟨hProcessing.quiet ⟨rfl, rfl, rfl, rfl⟩ rfl, .closed rfl rfl⟩
      · exact ⟨hProcessing.emit ⟨rfl, rfl, rfl, rfl⟩ rfl (hKept q hSendbuf) hAck,
          hStanding.rebuffer _ _ _⟩
    next => exact ⟨hProcessing, hStanding⟩

theorem good_poll (h : Good x y wx wy i k) (hOpen : x.state ≠ .closed)
    (timers : Timers) {stream : List UInt8}
    (hStream : stream = [] ∨ ∃ p, stream = p.encode ∧ BodyOk y.handed i p ∧ AckOk k p)
    (hFresh : timers.retransmission = true → fresh (ratpPollRecv x stream timers).2.1 = true) :
    Good (ratpPoll x stream timers).2.1 y wx wy i k := by
  unfold ratpPoll
  rcases hStream with rfl | ⟨p, rfl, hBody, hAck⟩
  · exact good_pollSend h hOpen hFresh
  obtain ⟨hGood, hStatus⟩ := good_pollRecv h hOpen hBody hAck timers
  split
  next e x' rest hRecv =>
    grind
  next x' rest hRecv =>
    rw [hRecv] at hGood hStatus hFresh
    exact good_pollSend hGood (hGood.2.status_none hStatus.symm) hFresh

end Poll

structure Joint (l : Link) : Prop where
  there : Ledger l.a l.b
  back : Ledger l.b l.a
  ab : Flight l.a.handed l.ab l.a.accepted.length l.b.accepted.length l.b.completed.length
  ba : Flight l.b.handed l.ba l.b.accepted.length l.a.accepted.length l.a.completed.length
  standingA : Standing l.a
  standingB : Standing l.b
  outA : l.a.out = []
  outB : l.b.out = []

namespace Joint
variable {l : Link}

theorem flip (h : Joint l) : Joint l.flip :=
  ⟨h.back, h.there, h.ba, h.ab, h.standingB, h.standingA, h.outB, h.outA⟩

theorem start (h : Joint l) : Good l.a l.b l.ab l.ba l.a.accepted.length l.a.completed.length := by
  refine ⟨⟨h.there, h.back, ?_, h.ba, le_rfl, h.back.accepted.length_le,
    le_rfl, h.there.completed_le.1⟩, h.standingA⟩
  simp [h.outA, h.ab]

theorem start_packet (h : Joint l) {p : Packet} {rest : List Packet} (hBa : l.ba = p :: rest) :
    ∃ i k, Good l.a l.b l.ab rest i k ∧ BodyOk l.b.handed i p ∧ AckOk k p := by
  have hFlight := h.ba
  rw [hBa] at hFlight
  obtain ⟨i, k, hBody, hAck, hLow, hHigh, hAckLow, hAckHigh, hRest⟩ := hFlight.uncons
  refine ⟨i, k, ⟨⟨h.there, h.back, ?_, hRest, hLow, hHigh, hAckLow, hAckHigh⟩, h.standingA⟩,
    hBody, hAck⟩
  simp [h.outA, h.ab]

theorem finish {x y : RatpInternal} {wx wy : List Packet} {i k : Nat}
    (h : Good x y wx wy i k) (hStanding : Standing y)
    (hOut : y.out = []) : Joint ⟨{ x with out := [] }, y, wx ++ x.out, wy⟩ := by
  obtain ⟨⟨hThere, hBack, hFlight, hBehind, hLow, _, hAckLow, _⟩, hx⟩ := h
  have hBa : Flight (y.handed ++ []) wy y.accepted.length x.accepted.length x.completed.length :=
    hBehind.mono [] le_rfl hLow hAckLow
  rw [List.append_nil] at hBa
  exact ⟨⟨hThere.accepted, hThere.books, hThere.ahead, hThere.idle⟩,
    ⟨hBack.accepted, hBack.books, hBack.ahead, hBack.idle⟩, hFlight,
      hBa, hx.rebuffer _ _ _, hStanding, rfl, hOut⟩

theorem poll (h : Joint l) {arrived : Bool} {timers : Timers}
    (hAllowed : l.allowed (.poll arrived timers) = true) :
    Joint (l.poll arrived timers) := by
  obtain ⟨hOpen, hTimer⟩ : l.a.state ≠ .closed ∧ (timers.retransmission = true →
      fresh (ratpPollRecv l.a (l.incoming arrived) timers).2.1 = true) := by
    simpa [Link.allowed, imp_iff_not_or] using hAllowed
  obtain ⟨i, k, hGood, hStream⟩ : ∃ i k,
      Good l.a l.b l.ab (if arrived then l.ba.tail else l.ba) i k ∧
      (l.incoming arrived = [] ∨ ∃ p, l.incoming arrived = p.encode ∧
        BodyOk l.b.handed i p ∧ AckOk k p) := by
    rcases arrived with _ | _
    · exact ⟨_, _, h.start, .inl rfl⟩
    cases hBa : l.ba with
    | nil => exact ⟨_, _, hBa ▸ h.start, .inl (by simp only [Link.incoming, hBa])⟩
    | cons p rest =>
      obtain ⟨i, k, hGood, hBody, hAck⟩ := h.start_packet hBa
      exact ⟨i, k, hGood, .inr ⟨p, by simp only [Link.incoming, hBa], hBody, hAck⟩⟩
  exact finish (good_poll hGood hOpen timers hStream hTimer) h.standingB h.outB

theorem send (h : Joint l) (data : List UInt8) : Joint (l.act (.send data)) := by
  simp only [Link.act, ratpSend]
  split
  next ri hSent =>
    split at hSent
    next => cases hSent
    next hState =>
      split at hSent
      next => cases hSent
      next =>
        obtain ⟨msgs, hMsgs, hEq⟩ := Option.map_eq_some_iff.mp hSent
        cases hEq
        have hState : l.a.state = .established := by simpa using hState
        obtain ⟨hSent, hReceived, hSendmsg, hStatus, hSendbuf⟩ : Established l.a := by
          cases h.standingA with
          | established _ established => exact established
          | listen state | synSent state | synReceived state | closed state =>
              rw [state] at hState; cases hState
        have hQueue : ∀ m ∈ l.a.sendmsg ++ msgs, 1 ≤ m.data.length ∧ m.data.length ≤ 255 := by
          intro m hm
          rcases List.mem_append.mp hm with hOld | hNew
          · exact hSendmsg m hOld
          · exact fragments_length hMsgs m hNew
        obtain ⟨hThere, hBack, hAb, hBa, _, hStandingB, hOutA, hOutB⟩ := h
        exact ⟨⟨hThere.accepted, hThere.books, hThere.ahead, hThere.idle⟩,
          ⟨hBack.accepted, hBack.books, hBack.ahead, hBack.idle⟩, hAb, hBa,
          .established hState ⟨hSent, hReceived, hQueue, hStatus, hSendbuf⟩,
            hStandingB, hOutA, hOutB⟩
  next => exact h

theorem act (h : Joint l) (action : Action) (hAllowed : l.allowed action = true) :
    Joint (l.act action) := by
  cases action with
  | poll arrived timers => exact h.poll hAllowed
  | send data => exact h.send data
  | lose n => exact { h with ab := h.ab.lose n }
  | duplicate n => exact { h with ab := h.ab.duplicate n }

/-- The invariant of both ends over a run with lost and doubled packets. -/
theorem run (h : Joint l) (actions : List (Action ⊕ Action))
    (hAllowed : l.runAllowed actions = true) :
    Joint (l.run actions) := by
  induction actions generalizing l with
  | nil => exact h
  | cons action actions ih =>
    cases action with
    | inl action =>
      obtain ⟨hStep, hRest⟩ := (Bool.and_eq_true _ _).mp hAllowed
      exact ih (h.act action hStep) hRest
    | inr action =>
      obtain ⟨hStep, hRest⟩ := (Bool.and_eq_true _ _).mp hAllowed
      exact ih (h.flip.act action hStep).flip hRest

theorem establish_standing (active : Bool) (buf : List UInt8) :
    Standing { ratpEstablish active buf with out := [] } ∧ Flight []
    (ratpEstablish active buf).out 0 0 0 := by
  rcases active with _ | _
  · exact ⟨.listen rfl ⟨rfl, rfl, rfl, rfl, rfl, rfl, nofun⟩, .nil _ _ _ _⟩
  have hSyn : BodyOk [] 0 ⟨⟨{ Control.none with syn := true }, 0⟩, []⟩ :=
    .header _ _ rfl rfl (fun _ => rfl) (.inl rfl)
  refine ⟨.synSent rfl ⟨rfl, rfl, rfl, rfl, rfl, rfl, ?_⟩ rfl, ?_⟩
  · rintro p ⟨⟩
    exact hSyn
  · exact (Flight.nil [] 0 0 0).emit hSyn nofun le_rfl le_rfl

theorem establish_ledger (active active' : Bool) (buf buf' : List UInt8) :
    Ledger { ratpEstablish active buf with out := [] }
    { ratpEstablish active' buf' with out := [] } := by
  have hNone : ∀ active buf, (ratpEstablish active buf).handed = [] ∧
      (ratpEstablish active buf).accepted = [] ∧
      (ratpEstablish active buf).completed = [] ∧ (ratpEstablish active buf).sendmsgCurrent =
        none := by
    intro active buf
    cases active <;> exact ⟨rfl, rfl, rfl, rfl⟩
  obtain ⟨hHanded, _, hCompleted, hCurrent⟩ := hNone active buf
  obtain ⟨_, hAccepted, _, _⟩ := hNone active' buf'
  constructor <;> simp [hHanded, hCompleted, hCurrent, hAccepted]

theorem opened (activeA activeB : Bool) (bufA bufB : List UInt8) :
    Joint (.opened activeA activeB bufA bufB) := by
  obtain ⟨hStandingA, hFlightA⟩ := establish_standing activeA bufA
  obtain ⟨hStandingB, hFlightB⟩ := establish_standing activeB bufB
  refine ⟨establish_ledger _ _ _ _, establish_ledger _ _ _ _,
    ?_, ?_, hStandingA, hStandingB, rfl, rfl⟩
  · cases activeA <;> cases activeB <;> exact hFlightA
  · cases activeA <;> cases activeB <;> exact hFlightB

end Joint

theorem Ledger.completed_accepted {x y : RatpInternal} (h : Ledger x y) :
    x.completed <+: y.accepted := by
  refine List.prefix_of_prefix_length_le ⟨x.sendmsgCurrent.toList,
    h.books.symm⟩ h.accepted h.completed_le.1

/-- In every run in which retransmitted packets are fresh, each end accepts the
fragments of the other in order and once, and reports a fragment as done only
after the other end has accepted it. -/
theorem ratp_delivers (activeA activeB : Bool) (bufA bufB : List UInt8)
    (actions : List (Action ⊕ Action))
    (h : (Link.opened activeA activeB bufA bufB).runAllowed actions = true) :
    let l := (Link.opened activeA activeB bufA bufB).run actions
    (l.b.accepted <+: l.a.handed ∧ l.a.completed <+: l.b.accepted) ∧
      l.a.accepted <+: l.b.handed ∧ l.b.completed <+: l.a.accepted := by
  have hJoint := (Joint.opened activeA activeB bufA bufB).run actions h
  exact ⟨⟨hJoint.there.accepted, hJoint.there.completed_accepted⟩,
    hJoint.back.accepted, hJoint.back.completed_accepted⟩

def idlePoll (arrived : Bool) : Action := .poll arrived ⟨false, false⟩

def lateRetransmission : Action := .poll false ⟨false, true⟩

/-- Two fresh receive buffers; the first end opens the link. -/
def freshLink : Link := .opened true false (List.replicate 508 0) (List.replicate 508 0)

def handshake : List (Action ⊕ Action) :=
  [.inr (idlePoll true), .inl (idlePoll true), .inr (idlePoll true)]

/-- A fragment of the second end is lost, retransmitted and delivered twice. -/
def lossyRun : List (Action ⊕ Action) :=
  handshake ++ [
    .inr (.send [1, 2]), .inr (idlePoll false), .inr (.lose 0),
      .inr lateRetransmission, .inr (.duplicate 0),
    .inl (idlePoll true), .inl (idlePoll true), .inr (idlePoll true)]

theorem ratp_delivers_over_loss :
    freshLink.runAllowed lossyRun = true ∧ (let l := freshLink.run lossyRun
       (l.b.accepted <+: l.a.handed ∧ l.a.completed <+: l.b.accepted) ∧
         l.a.accepted <+: l.b.handed ∧ l.b.completed <+: l.a.accepted) :=
  ⟨by decide +kernel, ratp_delivers true false _ _ lossyRun (by decide +kernel)⟩

def staleRun : List (Action ⊕ Action) :=
  handshake ++ [.inr (.send [1, 2]), .inr (idlePoll false), .inl (idlePoll true),
    .inr (idlePoll true),
    .inr (.send [3, 4]), .inr (idlePoll false), .inr (.lose 0),
    .inl (.send [5, 6]), .inl (idlePoll false), .inr (idlePoll true), .inr lateRetransmission,
    .inl (.send [7, 8]), .inl (idlePoll true), .inl (.lose 0),
    .inl (.send [9, 10]), .inl (.send [11, 12]), .inl (idlePoll true),
      .inr (idlePoll true), .inl (idlePoll true),
    .inr (idlePoll true)]

/-- The old acknowledgement is taken for that of the fragment 7, 8, which was lost,
and 9, 10 for a duplicate of 5, 6. -/
theorem stale_acknowledgement_loses_fragments :
    let l := freshLink.run staleRun
    l.a.state = .established ∧ l.b.state = .established ∧
      l.a.handed.map (·.data) = [[5, 6], [7, 8], [9, 10], [11, 12]] ∧
      l.a.completed.map (·.data) = [[5, 6], [7, 8], [9, 10]] ∧
      l.b.accepted.map (·.data) = [[5, 6], [11, 12]] ∧
      ¬ l.b.accepted <+: l.a.handed ∧ ¬ l.a.completed <+: l.b.accepted := by
  decide +kernel

end Barebox.Ratp
