import Barebox.Ratp.ExactlyOnce

/-! One record sent over an established link without errors: which data arrives as
it was sent. The ends are polled in any order; the link neither loses nor delays
packets so long that a timer runs out. -/
namespace Barebox.Ratp
open Bytes Barebox.Lib List Link

/-- Two ends that have established the link and have nothing to send. The send
buffers are arbitrary: an end that has opened the link actively still has its SYN
there. -/
structure Quiescent (l : Link) : Prop where
  stateA : l.a.state = .established
  stateB : l.b.state = .established
  statusA : l.a.status = none
  statusB : l.b.status = none
  outA : l.a.out = []
  outB : l.b.out = []
  ab : l.ab = []
  ba : l.ba = []
  sendmsgA : l.a.sendmsg = []
  sendmsgB : l.b.sendmsg = []
  currentA : l.a.sendmsgCurrent = none
  currentB : l.b.sendmsgCurrent = none
  there : l.b.snReceived = l.a.snSent
  back : l.a.snReceived = l.b.snSent
  recvbuf : l.b.recvbuf.length = 508

def polls (schedule : List (Bool ⊕ Bool)) : List (Action ⊕ Action) :=
  schedule.map (Sum.map idlePoll idlePoll)

/-- The record that the second end has stored since it had `n` fragments. -/
def Link.delivered (l : Link) (n : Nat) : Option (List UInt8) := firstRecord (l.b.recvmsg.drop n)

/-- `ratp_send` takes the data, and whatever the order of polls, nothing but the data
is delivered, and from every point on it is. -/
def Transparent (l : Link) (data : List UInt8) : Prop :=
  ∃ ri, ratpSend l.a data = some (.ok ri) ∧ ∀ schedule : List (Bool ⊕ Bool),
    (∀ bytes, (run { l with a := ri } (polls schedule)).delivered l.b.recvmsg.length = some bytes →
      bytes = data) ∧
    ∃ more : List (Bool ⊕ Bool),
      (run { l with a := ri } (polls (schedule ++ more))).delivered l.b.recvmsg.length = some data

section Packet
variable {x : RatpInternal} {hdr : Header}

structure Expected (x : RatpInternal) (hdr : Header) : Prop where
  syn : hdr.control.syn = false
  rst : hdr.control.rst = false
  fin : hdr.control.fin = false
  ack : hdr.control.ack = true
  sn : hdr.control.sn = !x.snReceived
  an : hdr.control.an = !x.snSent

def acknowledged (x : RatpInternal) : RatpInternal :=
  { x with
    sendmsgCurrent := none, sendbuf := none, completed := x.completed ++ x.sendmsgCurrent.toList }

theorem established_expected (h : Expected x hdr) (hState : x.state = .established) :
    ratpStateMachine x hdr = (ratpBehaviourI1 (acknowledged x) hdr).1 := by
  have hC2 : ratpBehaviourC2 x hdr = (x, false) := if_pos (by simp [ratpSnExpected, h.sn])
  have hD2 : ratpBehaviourD2 x hdr = (x, false) := if_pos (by simp [h.rst])
  have hE : ratpBehaviourE x hdr = (x, false) := if_pos (by simp [h.syn])
  have hF2 : ratpBehaviourF2 x hdr = (acknowledged x, false) := by
    rw [ratpBehaviourF2, if_neg (by simp [h.ack]), if_pos (by simp [ratpAnExpected, h.an])]
    cases hCurrent : x.sendmsgCurrent with
    | some msg => simp [acknowledged, ratpMsgDone, hCurrent]
    | none => simp [acknowledged, ← hCurrent]
  have hH2 : ratpBehaviourH2 (acknowledged x) hdr = (acknowledged x, false) :=
    if_pos (by simp [h.fin])
  simp [ratpStateMachine, hState, behave, hC2, hD2, hE, hF2, hH2]

/-- Data is accepted and acknowledged if there is nothing to send. -/
theorem established_data (h : Expected x hdr) (hState : x.state = .established)
    (hData : ratpHasData hdr = true)
    (hSendmsg : x.sendmsg = []) :
    ratpStateMachine x hdr = ratpSendAck (ratpAccept (acknowledged x) hdr) hdr := by
  rw [established_expected h hState, ratpBehaviourI1, if_neg (by simp [hData]), ratpAnswer, if_pos]
  simp [ratpAccept, msgRecv, acknowledged, hSendmsg]

end Packet

section Stored
variable {m : Message} (x : RatpInternal)

theorem dataPacket_long (h : m.data.length ≠ 1) :
    (dataPacket x m).payload = m.data ∧ (dataPacket x m).dataLength =
    UInt8.ofNat m.data.length := by
  unfold dataPacket
  simp only
  split
  next hData => simp [hData] at h
  next => exact ⟨rfl, rfl⟩

theorem received_dataPacket (hMin : 1 ≤ m.data.length) (recvbuf : List UInt8) :
    received (dataPacket x m) recvbuf = bufferAfter recvbuf m := by
  by_cases hOne : m.data.length = 1
  · obtain ⟨data, eor⟩ := m
    obtain ⟨byte, rfl⟩ := length_eq_one_iff.mp hOne
    rfl
  · have hNonempty : m.data ≠ [] := ne_nil_of_length_pos hMin
    rw [bufferAfter_long hOne, received, (dataPacket_long x hOne).1, if_neg hNonempty]

theorem msgRecv_dataPacket (hMin : 1 ≤ m.data.length) (hMax : m.data.length ≤ 255)
    {y : RatpInternal}
    {recvbuf : List UInt8} (hBuf : y.recvbuf = bufferAfter recvbuf m) :
    (msgRecv y (dataPacket x m).toHeader).recvmsg = y.recvmsg ++
    [⟨storedData recvbuf m, m.eor⟩] := by
  by_cases hOne : m.data.length = 1
  · obtain ⟨data, eor⟩ := m
    obtain ⟨byte, rfl⟩ := length_eq_one_iff.mp hOne
    rw [msgRecv, hBuf]
    rfl
  have hLen : (UInt8.ofNat m.data.length).toNat = m.data.length := by grind [UInt8.toNat_ofNat']
  have hNonzero : UInt8.ofNat m.data.length ≠ 0 := by
    intro hZero
    rw [hZero] at hLen
    exact absurd hMin (by rw [← hLen]; decide)
  obtain ⟨_, _, _, _, _, _, hEor⟩ := dataPacket_control x m
  simp [msgRecv, (dataPacket_long x hOne).2, if_pos hNonzero, hLen, hBuf, bufferAfter_long hOne,
    storedData_long hOne, hEor, overwrite]

end Stored

variable {x : RatpInternal} {l : Link}

theorem ratpPollSend_next (hSendbuf : x.sendbuf = none) (hCurrent : x.sendmsgCurrent = none)
    {m : Message}
    {rest : List Message} (hSendmsg : x.sendmsg = m :: rest)
    (hMin : 1 ≤ m.data.length) (hMax : m.data.length ≤ 255)
    (timers : Timers) : (ratpPollSend x timers).2 = { x with
        sendmsgCurrent := some m, sendmsg := rest, retransmissionCount := 0,
        handed := x.handed ++ [m],
        sendbuf := some (dataPacket x m), snSent := !x.snSent,
        out := x.out ++ [dataPacket x m] } := by
  have hData : ratpHasData (dataPacket x m).toHeader = true := (dataPacket_hasData x hMin hMax).1
  obtain ⟨_, _, _, _, hSn, _, _⟩ := dataPacket_control x m
  simp [ratpPollSend, hSendbuf, ratpSendNextData, hCurrent, hSendmsg, ratpSendPkt, hData, hSn]

variable {timers : Timers} {p : Packet} {arrived : Bool}

theorem ratpPollSend_none (hTimer : timers.retransmission = false)
    (h : x.sendbuf.isSome ∨ x.sendmsg = []) :
    (ratpPollSend x timers).2 = x := by
  unfold ratpPollSend
  split
  next hSendbuf =>
    have hSendmsg : x.sendmsg = [] := by simpa [hSendbuf] using h
    simp only [ratpSendNextData, hSendmsg]
    cases x.sendmsgCurrent <;> rfl
  next => rw [hTimer]; rfl

/-- Both ends while the fragments `got` have been stored. -/
structure Carrying (start : Link) (got : List Message) (l : Link) : Prop where
  stateA : l.a.state = .established
  stateB : l.b.state = .established
  statusA : l.a.status = none
  statusB : l.b.status = none
  outA : l.a.out = []
  outB : l.b.out = []
  sendmsgB : l.b.sendmsg = []
  back : l.a.snReceived = l.b.snSent
  recvmsg : l.b.recvmsg = start.b.recvmsg ++ stored start.b.recvbuf got
  recvbuf : l.b.recvbuf = got.foldl bufferAfter start.b.recvbuf

structure Ready (start : Link) (got rest : List Message) (l : Link) :
    Prop extends Carrying start got l where
  sendbuf : l.a.sendbuf = none
  current : l.a.sendmsgCurrent = none
  sendmsg : l.a.sendmsg = rest
  ab : l.ab = []
  ba : l.ba = []
  there : l.b.snReceived = l.a.snSent

/-- The fragment `m` is on its way. -/
structure Sending (start : Link) (got : List Message) (m : Message)
    (rest : List Message) (l : Link) : Prop
    extends Carrying start got l where
  sendbuf : l.a.sendbuf.isSome
  sendmsg : l.a.sendmsg = rest
  ab : ∃ x : RatpInternal, l.ab = [dataPacket x m] ∧ x.snSent = (!l.a.snSent) ∧
    x.snReceived = l.a.snReceived
  ba : l.ba = []
  there : l.b.snReceived = !l.a.snSent

/-- The acknowledgement of the last fragment of `got` is on its way. -/
structure Answered (start : Link) (got rest : List Message) (l : Link) :
    Prop extends Carrying start got l where
  sendbuf : l.a.sendbuf.isSome
  sendmsg : l.a.sendmsg = rest
  ab : l.ab = []
  ba : l.ba =
    [⟨⟨{ Control.none with sn := !l.a.snReceived, an := !l.a.snSent, ack := true }, 0⟩, []⟩]
  there : l.b.snReceived = l.a.snSent

theorem Link.incoming_none {arrived : Bool} (h : arrived = false ∨ l.ba = []) :
    l.incoming arrived = [] ∧ (if arrived then l.ba.tail else l.ba) = l.ba := by
  rcases h with rfl | hBa
  · exact ⟨rfl, rfl⟩
  · cases arrived <;> simp [incoming, hBa]

theorem Link.poll_quiet (hNone : arrived = false ∨ l.ba = [])
    (h : l.a.sendbuf.isSome ∨ l.a.sendmsg = []) :
    l.act (idlePoll arrived) = { l with a := { l.a with out := [] }, ab := l.ab ++ l.a.out } := by
  obtain ⟨hIncoming, hRest⟩ := incoming_none hNone
  have hPoll : (ratpPoll l.a [] ⟨false, false⟩).2.1 = l.a := ratpPollSend_none rfl h
  simp only [act, idlePoll, poll, hIncoming, hPoll, hRest]

theorem Link.poll_none (hOut : l.a.out = []) (hNone : arrived = false ∨ l.ba = [])
    (h : l.a.sendbuf.isSome ∨ l.a.sendmsg = []) : l.act (idlePoll arrived) = l := by
  have hSame : { l.a with out := [] } = l.a := by rw [← hOut]
  simp [poll_quiet hNone h, hSame, hOut]

theorem Link.poll_packet {rest : List Packet} (hBa : l.ba = p :: rest) (hWell : p.WellFormed)
    (hState : l.a.state = .established)
    (hx : ratpStateMachine { l.a with recvbuf := received p l.a.recvbuf } p.toHeader = x)
    (hStatus : x.status = none) :
    l.act (idlePoll true) = act { l with a := x, ba := rest } (idlePoll false) := by
  have hPoll : (ratpPoll l.a p.encode ⟨false, false⟩).2.1 = (ratpPollSend x ⟨false, false⟩).2 := by
    rw [ratpPoll, ratpPollRecv_packet hWell (by rw [hState]; nofun), hx, hStatus]
  have hIncoming : l.incoming true = p.encode := by simp only [incoming, hBa]
  simp only [act, idlePoll, poll, hIncoming, hPoll, hBa, if_true]
  rfl

section Exchange
variable {start l : Link} {got rest : List Message} {m : Message}

theorem Ready.poll (h : Ready start got (m :: rest) l) (hMin : 1 ≤ m.data.length)
    (hMax : m.data.length ≤ 255)
    (arrived : Bool) : Sending start got m rest (l.act (idlePoll arrived)) := by
  obtain ⟨hIncoming, hRest⟩ := @incoming_none l arrived (.inr h.ba)
  have hPoll : (ratpPoll l.a [] ⟨false, false⟩).2.1 = (ratpPollSend l.a ⟨false, false⟩).2 := rfl
  simp only [Link.act, idlePoll, Link.poll, hIncoming, hPoll, hRest,
    ratpPollSend_next h.sendbuf h.current h.sendmsg hMin hMax, h.outA, h.ab, nil_append]
  exact ⟨{ h with outA := rfl }, rfl, rfl, ⟨l.a, rfl, by simp, rfl⟩, h.ba, by simpa using h.there⟩

theorem Answered.poll_eq (h : Answered start got rest l) :
    l.act (idlePoll true) = act { l with a := acknowledged l.a, ba := [] } (idlePoll false) := by
  refine poll_packet h.ba (by simp [Packet.WellFormed]) h.stateA ?_ h.statusA
  exact established_expected ⟨rfl, rfl, rfl, rfl, rfl, rfl⟩ h.stateA

theorem Answered.ready (h : Answered start got rest l) :
    Ready start got rest { l with a := acknowledged l.a, ba := [] } :=
  ⟨{ h with }, rfl, rfl, h.sendmsg, h.ab, rfl, h.there⟩

theorem Answered.poll (h : Answered start got (m :: rest) l)
    (hMin : 1 ≤ m.data.length) (hMax : m.data.length ≤ 255) :
    Sending start got m rest (l.act (idlePoll true)) := by grind [h.poll_eq, h.ready.poll]

theorem Sending.poll (h : Sending start got m rest l) (hMin : 1 ≤ m.data.length)
    (hMax : m.data.length ≤ 255) :
    Answered start (got ++ [m]) rest (l.flip.act (idlePoll true)).flip := by
  obtain ⟨x, hAb, hSent, hReceived⟩ := h.ab
  obtain ⟨hSyn, hRst, hFin, hAck, hSn, hAn, _⟩ := dataPacket_control x m
  obtain ⟨hData, hWell, _⟩ := dataPacket_hasData x hMin hMax
  let y := { l.b with recvbuf := received (dataPacket x m) l.b.recvbuf }
  have hExpected : Expected y (dataPacket x m).toHeader :=
    ⟨hSyn, hRst, hFin, hAck, by rw [hSn, hSent, ← h.there], by rw [hAn, hReceived, h.back]⟩
  have hControl : ackControl (dataPacket x m).toHeader =
      { Control.none with sn := !l.a.snReceived, an := !l.a.snSent, ack := true } := by
    simp [ackControl, hAn, hSn, hReceived, hSent]
  have hStored : (ratpAccept (acknowledged y) (dataPacket x m).toHeader).recvmsg = _ :=
    msgRecv_dataPacket x hMin hMax (received_dataPacket x hMin l.b.recvbuf)
  rw [poll_packet (l := l.flip) hAb hWell h.stateB
    (established_data hExpected h.stateB hData h.sendmsgB) h.statusB,
    poll_quiet (.inl rfl) (.inr h.sendmsgB)]
  refine ⟨{ h with outB := rfl, recvmsg := ?_, recvbuf := ?_ }, h.sendbuf, h.sendmsg, rfl, ?_, ?_⟩
  · refine hStored.trans ?_
    rw [stored_append, ← append_assoc, ← h.recvmsg, ← h.recvbuf]
    rfl
  · rw [foldl_append, ← h.recvbuf]
    exact received_dataPacket x hMin l.b.recvbuf
  · change l.ba ++ (l.b.out ++ [⟨⟨ackControl (dataPacket x m).toHeader, 0⟩, []⟩]) = _
    rw [h.ba, h.outB, hControl]
    rfl
  · change (dataPacket x m).control.sn = l.a.snSent
    simp [hSn, hSent]

inductive Phase (start : Link) (msgs : List Message) (l : Link) : Prop where
  | ready {got rest : List Message} (split : got ++ rest = msgs) (h : Ready start got rest l)
  | sending {got rest : List Message} {m : Message} (split : got ++ m :: rest = msgs)
      (h : Sending start got m rest l)
  | answered {got rest : List Message} (split : got ++ rest = msgs) (h : Answered start got rest l)

def Fits (msgs : List Message) : Prop := ∀ m ∈ msgs, 1 ≤ m.data.length ∧ m.data.length ≤ 255

variable {msgs : List Message}

theorem Ready.phase (h : Ready start got rest l) (split : got ++ rest = msgs)
    (hFits : Fits msgs) (arrived : Bool) :
    Phase start msgs (l.act (idlePoll arrived)) := by
  cases rest with
  | nil =>
    rw [poll_none h.outA (.inr h.ba) (.inr h.sendmsg)]
    exact .ready split h
  | cons m rest =>
    obtain ⟨hMin, hMax⟩ := hFits m (by rw [← split]; simp)
    exact .sending split (h.poll hMin hMax arrived)

theorem Answered.phase (h : Answered start got rest l) (split : got ++ rest = msgs)
    (hFits : Fits msgs) :
    Phase start msgs (l.act (idlePoll true)) := by grind [h.poll_eq, h.ready.phase]

variable (h : Phase start msgs l) (hFits : Fits msgs)
include h hFits

theorem Phase.pollA (arrived : Bool) : Phase start msgs (l.act (idlePoll arrived)) := by
  cases h with
  | ready split h => exact h.phase split hFits arrived
  | sending split h =>
    rw [poll_none h.outA (.inr h.ba) (.inl h.sendbuf)]
    exact .sending split h
  | answered split h =>
    cases arrived with
    | true => exact h.phase split hFits
    | false =>
      rw [poll_none h.outA (.inl rfl) (.inl h.sendbuf)]
      exact .answered split h

theorem Phase.pollB (arrived : Bool) : Phase start msgs (l.flip.act (idlePoll arrived)).flip := by
  cases h with
  | ready split h =>
    rw [poll_none (l := l.flip) h.outB (.inr h.ab) (.inr h.sendmsgB)]
    exact .ready split h
  | @sending got rest m split h =>
    cases arrived with
    | true =>
      obtain ⟨hMin, hMax⟩ := hFits m (by rw [← split]; simp)
      exact .answered (by rw [← split]; simp) (h.poll hMin hMax)
    | false =>
      rw [poll_none (l := l.flip) h.outB (.inl rfl) (.inr h.sendmsgB)]
      exact .sending split h
  | answered split h =>
    rw [poll_none (l := l.flip) h.outB (.inr h.ab) (.inr h.sendmsgB)]
    exact .answered split h

/-- The phases follow one another whatever the order of the polls. -/
theorem Phase.run (schedule : List (Bool ⊕ Bool)) : Phase start msgs (l.run (polls schedule)) := by
  induction schedule generalizing l with
  | nil => exact h
  | cons poll schedule ih =>
    cases poll with
    | inl arrived => exact ih (h.pollA hFits arrived)
    | inr arrived => exact ih (h.pollB hFits arrived)

omit h hFits

theorem Sending.completes (h : Sending start got m rest l) (split : got ++ m :: rest = msgs)
    (hFits : Fits msgs) :
    ∃ more, Carrying start msgs (l.run (polls more)) := by
  induction rest generalizing got m l with
  | nil =>
    obtain ⟨hMin, hMax⟩ := hFits m (by rw [← split]; simp)
    exact ⟨[.inr true], split ▸ (h.poll hMin hMax).toCarrying⟩
  | cons m' rest ih =>
    obtain ⟨hMin, hMax⟩ := hFits m (by rw [← split]; simp)
    obtain ⟨hMin', hMax'⟩ := hFits m' (by rw [← split]; simp)
    obtain ⟨more, hMore⟩ := ih ((h.poll hMin hMax).poll hMin' hMax') (by rw [← split]; simp)
    exact ⟨.inr true :: .inl true :: more, hMore⟩

theorem Ready.completes (h : Ready start got rest l) (split : got ++ rest = msgs)
    (hFits : Fits msgs) :
    ∃ more, Carrying start msgs (l.run (polls more)) := by
  cases rest with
  | nil =>
    rw [append_nil] at split
    exact ⟨[], split ▸ h.toCarrying⟩
  | cons m rest =>
    obtain ⟨hMin, hMax⟩ := hFits m (by rw [← split]; simp)
    obtain ⟨more, hMore⟩ := (h.poll hMin hMax false).completes split hFits
    exact ⟨.inl false :: more, hMore⟩

include h hFits in
theorem Phase.completes : ∃ more, Carrying start msgs (l.run (polls more)) := by
  cases h with
  | ready split h | sending split h => exact h.completes split hFits
  | @answered got rest split h =>
    cases rest with
    | nil =>
      rw [append_nil] at split
      exact ⟨[], split ▸ h.toCarrying⟩
    | cons m rest =>
      obtain ⟨hMin, hMax⟩ := hFits m (by rw [← split]; simp)
      obtain ⟨more, hMore⟩ := (h.poll hMin hMax).completes split hFits
      exact ⟨.inl true :: more, hMore⟩

theorem Carrying.delivered (h : Carrying start got l) :
    l.delivered start.b.recvmsg.length = firstRecord (stored start.b.recvbuf got) := by
  simp [Link.delivered, h.recvmsg]

theorem Phase.carrying (h : Phase start msgs l) :
    ∃ got rest, got ++ rest = msgs ∧ Carrying start got l := by
  cases h with
  | ready split h | sending split h | answered split h => exact ⟨_, _, split, h.toCarrying⟩

theorem Phase.delivered (h : Phase start msgs l) {fuel : Nat} {data : List UInt8}
    (hMsgs : fragments fuel data = some msgs) : l.delivered start.b.recvmsg.length = none ∨
      l.delivered start.b.recvmsg.length = firstRecord (stored start.b.recvbuf msgs) := by
  obtain ⟨got, rest, split, hCarrying⟩ := h.carrying
  rw [hCarrying.delivered]
  obtain ⟨front, last, hFront, hEor⟩ := fragments_eor hMsgs
  rcases eq_nil_or_concat rest with rfl | ⟨init, m, rfl⟩
  · grind
  · left
    have hGot : got ++ init = front := by grind [append_inj']
    exact firstRecord_stored_none _ fun m hm => hEor m (by rw [← hGot]; exact mem_append_left _ hm)

end Exchange

section Record
variable {l : Link} {data : List UInt8}

def Link.queue (l : Link) (msgs : List Message) : Link :=
  { l with a := { l.a with sendmsg := l.a.sendmsg ++ msgs } }

theorem transparent_iff (h : Quiescent l) (hData : data ≠ []) : Transparent l data ↔
      ∃ msgs, fragments data.length data = some msgs ∧ ∀ schedule : List (Bool ⊕ Bool),
        (∀ bytes, ((l.queue msgs).run (polls schedule)).delivered l.b.recvmsg.length = some bytes →
          bytes = data) ∧
        ∃ more : List (Bool ⊕ Bool),
          ((l.queue msgs).run (polls (schedule ++ more))).delivered l.b.recvmsg.length =
          some data := by
  have hSend : ratpSend l.a data = (fragments data.length data).map fun msgs =>
      .ok (l.queue msgs).a := by
    rw [ratpSend, if_neg (by simp [h.stateA]), if_neg hData]
    rfl
  constructor
  · rintro ⟨ri, hRi, hAll⟩
    obtain ⟨msgs, hMsgs, hEq⟩ := Option.map_eq_some_iff.mp (hSend.symm.trans hRi)
    cases hEq
    exact ⟨msgs, hMsgs, hAll⟩
  · rintro ⟨msgs, hMsgs, hAll⟩
    exact ⟨_, by rw [hSend, hMsgs]; rfl, hAll⟩

theorem Quiescent.ready (h : Quiescent l) (hSendbuf : l.a.sendbuf = none) (msgs : List Message) :
    Ready l [] msgs (l.queue msgs) := by
  exact ⟨{ h with recvmsg := by simp [stored, queue], recvbuf := rfl }, hSendbuf, h.currentA,
    by simp [queue, h.sendmsgA], h.ab, h.ba, h.there⟩

theorem Quiescent.stuck (h : Quiescent l) (hSendbuf : l.a.sendbuf.isSome) (msgs : List Message)
    (schedule : List (Bool ⊕ Bool)) : (l.queue msgs).run (polls schedule) = l.queue msgs := by
  induction schedule with
  | nil => rfl
  | cons poll schedule ih =>
    have hStep : (l.queue msgs).step (Sum.map idlePoll idlePoll poll) = l.queue msgs := by
      cases poll with
      | inl arrived => exact poll_none h.outA (.inr h.ba) (.inl hSendbuf)
      | inr arrived =>
        exact congrArg Link.flip
          (Link.poll_none (l := (l.queue msgs).flip) h.outB (.inr h.ab) (.inr h.sendmsgB))
    grind [polls, run]

/-- Data arrives as it was sent exactly if the sender does not still keep the SYN it
opened the link with, the length is positive as an `int`, and a last fragment of
one byte happens to be stored right. -/
theorem ratp_transparent (h : Quiescent l) (hData : data ≠ []) :
    Transparent l data ↔ l.a.sendbuf = none ∧ data.length < 2 ^ 31 ∧
    lastFragmentSafe l.b.recvbuf data := by
  have hMin : 0 < data.length := length_pos_iff.mpr hData
  have hBuf : 257 ≤ l.b.recvbuf.length := by rw [h.recvbuf]; decide
  rw [transparent_iff h hData]
  constructor
  · rintro ⟨msgs, hMsgs, hAll⟩
    obtain ⟨more, hMore⟩ := (hAll []).2
    rw [nil_append] at hMore
    have hMax : data.length < 2 ^ 31 := by
      by_contra hLong
      rw [fragments_of_le _ (Nat.le_of_not_lt hLong)] at hMsgs
      cases hMsgs
    have hSendbuf : l.a.sendbuf = none := by
      by_contra hSome
      rw [h.stuck (Option.isSome_iff_ne_none.mpr hSome)] at hMore
      simp [delivered, queue, firstRecord] at hMore
    refine ⟨hSendbuf, hMax, ?_⟩
    obtain ⟨msgs', hMsgs', _, hIff⟩ := firstRecord_fragments hMin hMax le_rfl hBuf
    obtain rfl : msgs = msgs' := Option.some.inj (hMsgs.symm.trans hMsgs')
    have hPhase := (Phase.ready (nil_append _) (h.ready hSendbuf msgs)).run
      (fragments_length hMsgs) more
    rcases hPhase.delivered hMsgs with hNone | hSome
    · cases hNone.symm.trans hMore
    · exact hIff.mp (hSome.symm.trans hMore)
  · rintro ⟨hSendbuf, hMax, hSafe⟩
    obtain ⟨msgs, hMsgs, _, hIff⟩ := firstRecord_fragments hMin hMax le_rfl hBuf
    have hRecord := hIff.mpr hSafe
    refine ⟨msgs, hMsgs, fun schedule => ?_⟩
    have hPhase := (Phase.ready (nil_append _) (h.ready hSendbuf msgs)).run
      (fragments_length hMsgs) schedule
    constructor
    · intro bytes hBytes
      rcases hPhase.delivered hMsgs with hNone | hSome
      · cases hNone.symm.trans hBytes
      · exact Option.some.inj (hBytes.symm.trans (hSome.trans hRecord))
    · obtain ⟨more, hMore⟩ := hPhase.completes (fragments_length hMsgs)
      refine ⟨more, ?_⟩
      grind [hMore.delivered, polls, run]

end Record

def passiveLink : Link := (freshLink.run handshake).flip

theorem passiveLink_quiescent : Quiescent passiveLink := by constructor <;> decide +kernel

theorem ratp_transparent_zero : Quiescent passiveLink ∧ Transparent passiveLink [7, 8, 0] := by
  have hSafe : passiveLink.a.sendbuf = none ∧ lastFragmentSafe passiveLink.b.recvbuf [7, 8, 0] := by
    decide +kernel
  exact ⟨passiveLink_quiescent, (ratp_transparent passiveLink_quiescent (by decide)).mpr
    ⟨hSafe.1, by decide, hSafe.2⟩⟩

/-- Of the single byte 5 the receiver stores five bytes of its fresh buffer. -/
theorem single_byte_not_transparent :
    passiveLink.a.state = .established ∧ passiveLink.b.state = .established ∧
      (passiveLink.run [.inl (.send [5]), .inl (idlePoll false), .inr (idlePoll true)]).delivered
        passiveLink.b.recvmsg.length = some [0, 0, 0, 0, 0] := by
  decide +kernel

end Barebox.Ratp
