import Barebox.Ratp.Link

/-! Delivery of fragments exactly once and in order, between two ends that open a
link and go on polling. Every packet acknowledges what its sender has accepted,
except one that is retransmitted later: the acknowledgement in it is that of the
time when it was first sent. -/
namespace Barebox.Ratp
open Bytes Barebox.Lib List

/-- The books of the sender `x` and the receiver `y`: at most one fragment is on its
way, and none if all were completed. -/
structure Ledger (x y : RatpInternal) : Prop where
  accepted : y.accepted <+: x.handed
  books : x.handed = x.completed ++ x.sendmsgCurrent.toList
  ahead : x.handed.length ≤ y.accepted.length + 1
  idle : x.sendmsgCurrent = none → x.handed.length = y.accepted.length

variable {x : RatpInternal}

theorem Ledger.completed_le {y : RatpInternal} (h : Ledger x y) :
    x.completed.length ≤ y.accepted.length ∧ x.completed.length ≤ x.handed.length ∧
      x.handed.length ≤ x.completed.length + 1 := by
  have hBooks := congrArg List.length h.books
  have hAhead := h.ahead
  cases hCurrent : x.sendmsgCurrent with
  | none =>
    have hIdle := h.idle hCurrent
    grind
  | some m =>
    grind

theorem Ledger.sender {x' y : RatpInternal} (h : Ledger x y) (hHanded : x'.handed = x.handed)
    (hCompleted : x'.completed = x.completed) (hCurrent : x'.sendmsgCurrent = x.sendmsgCurrent) :
    Ledger x' y := by
  obtain ⟨hAccepted, hBooks, hAhead, hIdle⟩ := h
  rw [← hHanded] at hAccepted hBooks hAhead hIdle
  rw [← hCurrent] at hBooks hIdle
  rw [← hCompleted] at hBooks
  exact ⟨hAccepted, hBooks, hAhead, hIdle⟩

theorem Ledger.receiver {y y' : RatpInternal} (h : Ledger x y) (hSame : y'.accepted = y.accepted) :
    Ledger x y' := by
  obtain ⟨hAccepted, hBooks, hAhead, hIdle⟩ := h
  rw [← hSame] at hAccepted hAhead hIdle
  exact ⟨hAccepted, hBooks, hAhead, hIdle⟩

/-- The end `x` processes a packet of `y` that was sent after `i` fragments were
handed over and `k` fragments accepted. -/
structure Processing (x y : RatpInternal) (wx wy : List Packet) (i k : Nat) : Prop where
  there : Ledger x y
  back : Ledger y x
  flight : Flight x.handed (wx ++ x.out) x.accepted.length y.accepted.length y.completed.length
  behind : Flight y.handed wy y.accepted.length i k
  low : x.accepted.length ≤ i
  high : i ≤ y.handed.length
  ackLow : x.completed.length ≤ k
  ackHigh : k ≤ y.accepted.length

structure SameBooks (x x' : RatpInternal) : Prop where
  handed : x'.handed = x.handed
  accepted : x'.accepted = x.accepted
  completed : x'.completed = x.completed
  current : x'.sendmsgCurrent = x.sendmsgCurrent

namespace Processing
variable {x x' y : RatpInternal} {wx wy : List Packet} {i k : Nat} (h : Processing x y wx wy i k)
  (same : SameBooks x x')
include h same

theorem quiet (hOut : x'.out = x.out) : Processing x' y wx wy i k := by
  refine ⟨h.there.sender same.handed same.completed same.current,
    h.back.receiver same.accepted, ?_, h.behind, ?_,
    h.high, ?_, h.ackHigh⟩
  · rw [same.handed, hOut, same.accepted]; exact h.flight
  · rw [same.accepted]; exact h.low
  · rw [same.completed]; exact h.ackLow

theorem emit {p : Packet} (hOut : x'.out = x.out ++ [p]) (hBody : BodyOk x.handed x.handed.length p)
    (hAck : AckOk x.accepted.length p) : Processing x' y wx wy i k := by
  refine ⟨h.there.sender same.handed same.completed same.current,
    h.back.receiver same.accepted, ?_, h.behind, ?_,
    h.high, ?_, h.ackHigh⟩
  · rw [same.handed, hOut, same.accepted, ← append_assoc]
    exact h.flight.emit hBody hAck h.there.accepted.length_le h.back.completed_le.1
  · rw [same.accepted]; exact h.low
  · rw [same.completed]; exact h.ackLow

omit h same
variable {m : Message} {c : Control} {hdr : Header} (h : Processing x y wx wy i k)
include h

theorem done (hCurrent : x.sendmsgCurrent = some m) (hAll : k = x.handed.length)
    (hHanded : x'.handed = x.handed)
    (hAccepted : x'.accepted = x.accepted) (hCompleted : x'.completed = x.completed ++ [m])
    (hNone : x'.sendmsgCurrent = none) (hOut : x'.out = x.out) : Processing x' y wx wy i k := by
  have hBooks := h.there.books
  rw [hCurrent] at hBooks
  have hLe := h.there.accepted.length_le
  have hHigh := h.ackHigh
  refine ⟨⟨?_, ?_, ?_, ?_⟩, h.back.receiver hAccepted, ?_, h.behind, ?_, h.high, ?_, h.ackHigh⟩
  · rw [hHanded]; exact h.there.accepted
  · grind
  · grind
  · intro _
    rw [hHanded]
    omega
  · rw [hHanded, hOut, hAccepted]; exact h.flight
  · rw [hAccepted]; exact h.low
  · have hLen := congrArg List.length hBooks
    grind

theorem accept (hNext : i = x.accepted.length + 1)
    (hFragment : y.handed[x.accepted.length]? = some m)
    (hHanded : x'.handed = x.handed) (hAccepted : x'.accepted = x.accepted ++ [m])
    (hCompleted : x'.completed = x.completed) (hCurrent : x'.sendmsgCurrent = x.sendmsgCurrent)
    (hOut : x'.out = x.out) : Processing x' y wx wy i k := by
  have hLen : x'.accepted.length = x.accepted.length + 1 := by rw [hAccepted]; simp
  have hAhead := h.back.ahead
  have hHigh := h.high
  refine ⟨h.there.sender hHanded hCompleted hCurrent, ⟨?_, h.back.books, by omega, ?_⟩,
    ?_, h.behind, by omega,
    h.high, ?_, h.ackHigh⟩
  · obtain ⟨rest, hRest⟩ := h.back.accepted
    rw [hAccepted]
    rw [← hRest, getElem?_append_right le_rfl, Nat.sub_self] at hFragment
    obtain ⟨tail, rfl⟩ : ∃ tail, rest = m :: tail := by
      cases rest with
      | nil => cases hFragment
      | cons m' tail => exact ⟨tail, by simpa using hFragment⟩
    exact ⟨tail, by simp [← hRest]⟩
  · intro hIdle
    have hEq := h.back.idle hIdle
    omega
  · rw [hHanded, hOut]
    have hFlight : Flight (x.handed ++ [])
        (wx ++ x.out) x'.accepted.length y.accepted.length y.completed.length :=
      h.flight.mono [] (by omega) le_rfl le_rfl
    rwa [append_nil] at hFlight
  · rw [hCompleted]; exact h.ackLow

theorem next {p : Packet} (hCurrent : x.sendmsgCurrent = none)
    (hHanded : x'.handed = x.handed ++ [m])
    (hAccepted : x'.accepted = x.accepted) (hCompleted : x'.completed = x.completed)
    (hNew : x'.sendmsgCurrent = some m) (hOut : x'.out = x.out ++ [p])
    (hBody : BodyOk x'.handed x'.handed.length p)
    (hAck : AckOk x.accepted.length p) : Processing x' y wx wy i k := by
  have hBooks := h.there.books
  rw [hCurrent, Option.toList_none, append_nil] at hBooks
  have hIdle := h.there.idle hCurrent
  have hLen : x'.handed.length = x.handed.length + 1 := by rw [hHanded]; simp
  refine ⟨⟨?_, ?_, by omega, ?_⟩, h.back.receiver hAccepted,
    ?_, h.behind, ?_, h.high, ?_, h.ackHigh⟩
  · rw [hHanded]; exact h.there.accepted.trans (List.prefix_append _ _)
  · grind
  · rw [hNew]; exact nofun
  · have hFlight := h.flight.mono [m] le_rfl le_rfl le_rfl
    rw [← hHanded] at hFlight
    rw [hOut, hAccepted, ← append_assoc]
    exact hFlight.emit hBody hAck (by omega) h.back.completed_le.1
  · rw [hAccepted]; exact h.low
  · rw [hCompleted]; exact h.ackLow

end Processing

def SendbufOk (x : RatpInternal) : Prop :=
  ∀ p, x.sendbuf = some p → BodyOk x.handed x.handed.length p

structure Opening (x : RatpInternal) : Prop where
  handed : x.handed = []
  accepted : x.accepted = []
  sendmsg : x.sendmsg = []
  current : x.sendmsgCurrent = none
  received : x.snReceived = false
  status : x.status = none
  sendbuf : SendbufOk x

structure Established (x : RatpInternal) : Prop where
  sent : x.snSent = odd x.handed.length
  received : x.snReceived = odd x.accepted.length
  sendmsg : ∀ m ∈ x.sendmsg, 1 ≤ m.data.length ∧ m.data.length ≤ 255
  status : x.status = none
  sendbuf : SendbufOk x

/-- The states of an end that is never told to close the link. -/
inductive Standing (x : RatpInternal) : Prop where
  | listen (state : x.state = .listen) (opening : Opening x)
  | synSent (state : x.state = .synSent) (opening : Opening x) (sn : x.snSent = false)
  | synReceived (state : x.state = .synReceived) (opening : Opening x) (sn : x.snSent = false)
  | established (state : x.state = .established) (established : Established x)
  | closed (state : x.state = .closed) (status : x.status.isSome)

theorem Opening.established (h : Opening x) (hSent : x.snSent = false) : Established x := by
  refine ⟨?_, ?_, ?_, h.status, h.sendbuf⟩
  · rw [hSent, h.handed]
    rfl
  · rw [h.received, h.accepted]
    rfl
  · grind [h.sendmsg]

theorem BodyOk.header (handed : List Message) (i : Nat) {len : UInt8}
    (hSo : c.so = false) (hFin : c.fin = false)
    (hSyn : c.syn = true → c.sn = false) (hLen : len = 0 ∨ c.syn = true) :
    BodyOk handed i ⟨⟨c, len⟩, []⟩ := by
  refine ⟨?_, hFin, hSyn, fun hData => ?_⟩
  · rcases hLen with rfl | hLen
    · simp [Packet.WellFormed]
    · simp [Packet.WellFormed, Control.headerOnly, hLen]
  · rcases hLen with rfl | hLen
    · simp [ratpHasData, hSo] at hData
    · simp [ratpHasData, hSo, hLen] at hData

section Send
variable (x : RatpInternal) (p : Packet)

theorem ratpSendPkt_sameBooks : SameBooks x (ratpSendPkt x p) := by
  unfold ratpSendPkt
  split <;> exact ⟨rfl, rfl, rfl, rfl⟩

@[simp] theorem ratpSendPkt_out : (ratpSendPkt x p).out = x.out ++ [p] := by
  unfold ratpSendPkt
  split <;> rfl

end Send

theorem Established.sendAck (h : Established x) (hdr : Header) : Established (ratpSendAck x hdr) :=
  { h with }

theorem ratpSendPkt_flags (x : RatpInternal) {p : Packet}
    (h : p.control.syn = true ∨ p.control.rst = true) :
    ratpSendPkt x p =
      { x with
        sendbuf := some p, snSent := p.control.sn, retransmissionCount := 0,
        out := x.out ++ [p] } := by
  grind [ratpSendPkt]

def Good (x y : RatpInternal) (wx wy : List Packet) (i k : Nat) : Prop :=
  Processing x y wx wy i k ∧ Standing x

section Behaviour
variable {x y : RatpInternal} {wx wy : List Packet} {i k : Nat} {p : Packet}

/-- The packet of `y` that `x` processes. -/
structure Received (x y : RatpInternal) (i k : Nat) (p : Packet) : Prop where
  body : BodyOk y.handed i p
  ack : AckOk k p
  carried : ratpHasData p.toHeader = true → carried p.toHeader x.recvbuf = p.fragment

variable (h : Processing x y wx wy i k)
include h

theorem Processing.sendFlags (len : UInt8)
    (hFlags : c.syn = true ∧ c.sn = false ∨ c.rst = true ∧ c.syn = false ∧ len = 0)
    (hSo : c.so = false)
    (hFin : c.fin = false) (hAck : c.ack = true → c.an = !odd x.accepted.length) :
    Processing (ratpSendPkt x ⟨⟨c, len⟩, []⟩) y wx wy i k ∧
    SendbufOk (ratpSendPkt x ⟨⟨c, len⟩, []⟩) := by
  have hBody : ∀ handed n, BodyOk handed n ⟨⟨c, len⟩, []⟩ := fun handed n => by
    rcases hFlags with ⟨hSyn, hSn⟩ | ⟨_, hSyn, hLen⟩
    · exact .header _ _ hSo hFin (fun _ => hSn) (.inr hSyn)
    · exact .header _ _ hSo hFin (fun hYes => absurd (hSyn.symm.trans hYes) (by decide)) (.inl hLen)
  refine ⟨h.emit (ratpSendPkt_sameBooks _ _) (ratpSendPkt_out _ _) (hBody _ _) hAck, ?_⟩
  rw [ratpSendPkt_flags _ (hFlags.imp (·.1) (·.1))]
  rintro q ⟨⟩
  exact hBody _ _

theorem Processing.sendReset (sn : Bool) :
    Processing (ratpSendPkt x ⟨⟨{ Control.none with rst := true, sn := sn }, 0⟩, []⟩) y wx wy i k ∧
      SendbufOk (ratpSendPkt x ⟨⟨{ Control.none with rst := true, sn := sn }, 0⟩, []⟩) :=
  h.sendFlags 0 (.inr ⟨rfl, rfl, rfl⟩) rfl rfl nofun

theorem good_listen (hState : x.state = .listen) (hOpen : Opening x) (hp : Received x y i k p) :
    Good (ratpBehaviourA x p.toHeader) y wx wy i k := by
  unfold ratpBehaviourA
  split
  · exact ⟨h, .listen hState hOpen⟩
  split
  · obtain ⟨hSent, hKept⟩ := h.sendReset p.control.an
    exact ⟨hSent, .listen hState { hOpen with sendbuf := hKept }⟩
  split
  next hSyn =>
    have hSn := hp.body.syn hSyn
    obtain ⟨hSent, hKept⟩ := h.sendFlags 255
      (c := { Control.none with syn := true, ack := true, an := !p.control.sn })
        (.inl ⟨rfl, rfl⟩) rfl rfl
      fun _ => by rw [hOpen.accepted, hSn]; rfl
    exact ⟨hSent.quiet ⟨rfl, rfl, rfl, rfl⟩ rfl,
      .synReceived rfl { hOpen with sendbuf := hKept } rfl⟩
  next => exact ⟨h, .listen hState hOpen⟩

theorem Processing.sendAck (hSn : hdr.control.sn = odd x.accepted.length) :
    Processing (ratpSendAck x hdr) y wx wy i k := by
  refine h.emit ⟨rfl, rfl, rfl, rfl⟩ rfl (.header _ _ rfl rfl nofun (.inl rfl)) fun _ => ?_
  change (!hdr.control.sn) = _
  rw [hSn]

theorem good_synSent (hState : x.state = .synSent) (hOpen : Opening x) (hSent : x.snSent = false)
    (hp : Received x y i k p) : Good (ratpBehaviourB x p.toHeader) y wx wy i k := by
  have hSame : Good x y wx wy i k := ⟨h, .synSent hState hOpen hSent⟩
  unfold ratpBehaviourB
  by_cases hWrong : (p.control.ack && !ratpAnExpected x p.toHeader) = true
  · rw [if_pos hWrong]
    split
    · exact hSame
    obtain ⟨hReset, hKept⟩ := h.sendReset p.control.an
    have hAn : p.control.an = false := by
      simp only [ratpAnExpected, hSent, Bool.and_eq_true] at hWrong
      simpa using hWrong.2
    exact ⟨hReset, .synSent hState { hOpen with sendbuf := hKept } hAn⟩
  · rw [if_neg hWrong]
    split
    · split
      · exact ⟨h.quiet ⟨rfl, rfl, rfl, rfl⟩ rfl, .closed rfl rfl⟩
      · exact hSame
    split
    next hSyn =>
      have hSn := hp.body.syn hSyn
      have hQuiet : Processing { x with snReceived := p.control.sn } y wx wy i k :=
        h.quiet ⟨rfl, rfl, rfl, rfl⟩ rfl
      simp only
      split
      · have hAnswer :
            ratpAnswer { x with snReceived := p.control.sn, state := .established } p.toHeader =
            ratpSendAck { x with snReceived := p.control.sn, state := .established }
              p.toHeader := by
          grind [ratpAnswer, hOpen.sendmsg]
        rw [hAnswer]
        have hEstablished :
            Processing { x with snReceived := p.control.sn, state := .established } y wx wy i k :=
          h.quiet ⟨rfl, rfl, rfl, rfl⟩ rfl
        refine ⟨hEstablished.sendAck (by rw [hSn, hOpen.accepted]; rfl),
          .established rfl (.sendAck ?_ _)⟩
        exact Opening.established { hOpen with received := hSn } hSent
      · obtain ⟨hSynAck, hKept⟩ := hQuiet.sendFlags 255
          (c := { Control.none with syn := true, ack := true, an := !p.control.sn })
            (.inl ⟨rfl, rfl⟩) rfl rfl
          fun _ => by rw [hOpen.accepted, hSn]; rfl
        exact ⟨hSynAck.quiet ⟨rfl, rfl, rfl, rfl⟩ rfl,
          .synReceived rfl { hOpen with received := hSn, sendbuf := hKept } rfl⟩
    next => exact hSame

omit h

theorem dataPacket_control (x : RatpInternal) (m : Message) :
    (dataPacket x m).control.syn = false ∧ (dataPacket x m).control.rst = false ∧
      (dataPacket x m).control.fin = false ∧ (dataPacket x m).control.ack = true ∧
      (dataPacket x m).control.sn = (!x.snSent) ∧ (dataPacket x m).control.an = (!x.snReceived) ∧
      (dataPacket x m).control.eor = m.eor := by
  unfold dataPacket
  simp only
  split <;> exact ⟨rfl, rfl, rfl, rfl, rfl, rfl, rfl⟩

theorem dataPacket_hasData (x : RatpInternal) (hMin : 1 ≤ m.data.length)
    (hMax : m.data.length ≤ 255) :
    ratpHasData (dataPacket x m).toHeader = true ∧ (dataPacket x m).WellFormed ∧
    (dataPacket x m).fragment = m := by
  obtain ⟨data, eor⟩ := m
  match data, hMin with
  | [byte], _ => exact ⟨rfl, rfl, rfl⟩
  | byte :: byte' :: rest, _ =>
    have hLength : (UInt8.ofNat (byte :: byte' :: rest).length).toNat =
        (byte :: byte' :: rest).length := by
      grind [UInt8.toNat_ofNat']
    have hNonzero : UInt8.ofNat (byte :: byte' :: rest).length ≠ 0 := by
      intro hZero
      rw [hZero] at hLength
      cases hLength
    exact ⟨by simpa [ratpHasData, dataPacket, Control.none] using hNonzero, hLength.symm, rfl⟩

theorem dataPacket_ok (hMin : 1 ≤ m.data.length) (hMax : m.data.length ≤ 255)
    (hSent : x.snSent = odd x.handed.length) :
    BodyOk (x.handed ++ [m]) (x.handed.length + 1) (dataPacket x m) := by
  obtain ⟨hSyn, hRst, hFin, hAck, hSn, _, _⟩ := dataPacket_control x m
  obtain ⟨_, hWell, hFragment⟩ := dataPacket_hasData x hMin hMax
  refine ⟨hWell, hFin, fun hYes => ?_, fun _ => ⟨hAck, hSyn, hRst, ?_, _, rfl, ?_⟩⟩
  · rw [hSyn] at hYes
    cases hYes
  · simp [hSn, hSent]
  · simp [hFragment]

variable (h : Processing x y wx wy i k) (hState : x.state = .established) (hx : Established x)
include h hState hx

theorem good_sendNextData : Good (ratpSendNextData x) y wx wy i k := by
  unfold ratpSendNextData
  split
  next m sendmsg hCurrent hSendmsg =>
    obtain ⟨hMin, hMax⟩ := hx.sendmsg m (by rw [hSendmsg]; exact (.head _))
    have hBody := dataPacket_ok hMin hMax hx.sent
    have hData := (dataPacket_hasData x hMin hMax).1
    obtain ⟨_, _, _, _, hSn, hAn, _⟩ := dataPacket_control x m
    rw [ratpSendPkt, if_pos (by simp [hData])]
    have hLen : (x.handed ++ [m]).length = x.handed.length + 1 := by simp
    refine ⟨h.next hCurrent rfl rfl rfl rfl rfl (by rw [hLen]; exact hBody) fun _ =>
      by rw [hAn, hx.received],
      .established hState ⟨?_, hx.received, fun m' hm' => ?_, hx.status, ?_⟩⟩
    · simp [hSn, hx.sent]
    · exact hx.sendmsg m' (by rw [hSendmsg]; exact .tail _ hm')
    · rintro q ⟨⟩
      simp [hBody]
  next => exact ⟨h, .established hState hx⟩

theorem good_answer (hSn : hdr.control.sn = odd x.accepted.length) :
    Good (ratpAnswer x hdr) y wx wy i k := by
  unfold ratpAnswer
  split
  · exact ⟨h.sendAck hSn, .established hState (hx.sendAck hdr)⟩
  · exact good_sendNextData h hState hx

theorem good_i1 (hp : Received x y i k p) (hExpected : p.control.sn = !x.snReceived) :
    Good (ratpBehaviourI1 x p.toHeader).1 y wx wy i k := by
  unfold ratpBehaviourI1
  split
  next => exact ⟨h, .established hState hx⟩
  next hNo =>
    have hData : ratpHasData p.toHeader = true := by simpa using hNo
    obtain ⟨_, _, _, hSn, j, hj, hFragment⟩ := hp.body.data hData
    have hNext : i = x.accepted.length + 1 := by
      have hLow := h.low
      have hHigh := h.high
      have hAhead := h.back.ahead
      have hNe : odd x.accepted.length ≠ odd i := by grind [hx.received]
      grind
    obtain rfl : j = x.accepted.length := by omega
    have hAccepted : (ratpAccept x p.toHeader).accepted = x.accepted ++ [p.fragment] := by
      rw [← hp.carried hData]
      rfl
    have hNumber : p.control.sn = odd (ratpAccept x p.toHeader).accepted.length := by
      simp [hAccepted, hExpected, hx.received]
    have hProcessing : Processing (ratpAccept x p.toHeader) y wx wy i k :=
      h.accept hNext hFragment rfl hAccepted rfl rfl rfl
    have hEstablished : Established (ratpAccept x p.toHeader) := { hx with received := hNumber }
    exact good_answer hProcessing hState hEstablished hNumber

omit h hState hx
include h in
/-- The acknowledgement in a packet: if it is the expected one, the current fragment
was accepted. -/
theorem good_f2 (hSent : x.snSent = odd x.handed.length) (hp : Received x y i k p) :
    Processing (ratpBehaviourF2 x p.toHeader).1 y wx wy i k := by
  unfold ratpBehaviourF2
  split
  next => exact h
  next hAck =>
    split
    next hExpected =>
      have hAn : p.control.an = !odd k := hp.ack (by simpa using hAck)
      have hAll : k = x.handed.length := by
        have hLow := h.ackLow
        have hHigh := h.ackHigh
        have hLe := h.there.accepted.length_le
        have hBooks := h.there.completed_le
        have hOdd : odd k = odd x.handed.length := by grind [ratpAnExpected]
        exact (odd_eq_iff (by omega) (by omega)).mp hOdd
      split
      next m hCurrent => exact h.done hCurrent hAll rfl rfl rfl rfl rfl
      next => exact h.quiet ⟨rfl, rfl, rfl, rfl⟩ rfl
    next => exact h

theorem behave_cons (hdr : Header) (f : RatpInternal → Header → RatpInternal × Bool)
    (fs : List (RatpInternal → Header → RatpInternal × Bool)) (x : RatpInternal) :
    behave hdr (f :: fs) x = if (f x hdr).2 then (f x hdr).1 else behave hdr fs (f x hdr).1 := rfl

variable {f : RatpInternal → Header → RatpInternal × Bool}

theorem behave_skip {x x' : RatpInternal} (h : f x hdr = (x', false))
    (fs : List (RatpInternal → Header → RatpInternal × Bool)) :
    behave hdr (f :: fs) x = behave hdr fs x' := by
  rw [behave_cons, h]
  rfl

theorem good_ended (h : Good (f x hdr).1 y wx wy i k ∧ (f x hdr).2 = true)
    (fs : List (RatpInternal → Header → RatpInternal × Bool)) :
    Good (behave hdr (f :: fs) x) y wx wy i k := by
  rw [behave_cons, if_pos h.2]
  exact h.1

include h hState hx in
theorem good_c2 (hOld : p.control.sn = x.snReceived) :
    Good (ratpBehaviourC2 x p.toHeader).1 y wx wy i k ∧
    (ratpBehaviourC2 x p.toHeader).2 = true := by
  have hSn : p.control.sn = odd x.accepted.length := hOld.trans hx.received
  unfold ratpBehaviourC2
  rw [if_neg (by simp [ratpSnExpected, hOld])]
  split
  · exact ⟨⟨h, .established hState hx⟩, rfl⟩
  split
  · have hQuiet : Processing { x with status := some .econnreset } y wx wy i k :=
      h.quiet ⟨rfl, rfl, rfl, rfl⟩ rfl
    have hReset :=
      (hQuiet.sendFlags 0 (c := { ackControl p.toHeader with rst := true })
        (.inr ⟨rfl, rfl, rfl⟩) rfl rfl
      fun _ => congrArg Bool.not hSn).1
    exact ⟨⟨hReset.quiet ⟨rfl, rfl, rfl, rfl⟩ rfl, .closed rfl rfl⟩, rfl⟩
  · exact ⟨⟨h.sendAck hSn, .established hState (hx.sendAck _)⟩, rfl⟩

include h in
theorem good_e (hSyn : p.control.syn = true) :
    Good (ratpBehaviourE x p.toHeader).1 y wx wy i k ∧ (ratpBehaviourE x p.toHeader).2 = true := by
  unfold ratpBehaviourE
  rw [if_neg (by simp [hSyn])]
  have hQuiet : Processing { x with status := some .econnreset } y wx wy i k :=
    h.quiet ⟨rfl, rfl, rfl, rfl⟩ rfl
  have hReset := (hQuiet.sendReset (p.control.ack && p.control.an)).1
  exact ⟨⟨hReset.quiet ⟨rfl, rfl, rfl, rfl⟩ rfl, .closed rfl rfl⟩, rfl⟩

theorem e_of_not_syn (x : RatpInternal) (h : p.control.syn = false) :
    ratpBehaviourE x p.toHeader = (x, false) :=
  if_pos (by simp [h])

theorem h2_of_not_fin (x : RatpInternal) (h : p.control.fin = false) :
    ratpBehaviourH2 x p.toHeader = (x, false) :=
  if_pos (by simp [h])

theorem i1_of_no_data (x : RatpInternal) (h : ratpHasData p.toHeader = false) :
    ratpBehaviourI1 x p.toHeader = (x, true) := if_pos (by simp [h])

theorem f2_frame (x : RatpInternal) (hdr : Header) :
    (ratpBehaviourF2 x hdr).1.state = x.state ∧ (ratpBehaviourF2 x hdr).1.status = x.status ∧
      (ratpBehaviourF2 x hdr).1.snReceived = x.snReceived ∧
      (ratpBehaviourF2 x hdr).1.recvbuf = x.recvbuf := by
  unfold ratpBehaviourF2
  split
  · exact ⟨rfl, rfl, rfl, rfl⟩
  · split
    · split <;> exact ⟨rfl, rfl, rfl, rfl⟩
    · exact ⟨rfl, rfl, rfl, rfl⟩

theorem Established.f2 (hx : Established x) (hdr : Header) :
    Established (ratpBehaviourF2 x hdr).1 := by
  unfold ratpBehaviourF2
  split
  · exact hx
  · split
    · split <;> exact { hx with sendbuf := nofun }
    · exact hx

variable (h : Processing x y wx wy i k)
include h
include hState hx in
theorem good_data (hp : Received x y i k p) (hExpected : p.control.sn = !x.snReceived) :
    Good (behave p.toHeader [ratpBehaviourF2, ratpBehaviourH2, ratpBehaviourI1] x) y wx wy i k := by
  obtain ⟨hState', _, hReceived, hRecvbuf⟩ := f2_frame x p.toHeader
  have hF2 := good_f2 h hx.sent hp
  have hx' := hx.f2 p.toHeader
  rw [behave_cons]
  split
  · exact ⟨hF2, .established (hState'.trans hState) hx'⟩
  rw [behave_skip (h2_of_not_fin _ hp.body.fin), behave_cons]
  have hI1 := good_i1 hF2 (hState'.trans hState) hx' ⟨hp.body,
    hp.ack, by rw [hRecvbuf]; exact hp.carried⟩
    (by rw [hReceived]; exact hExpected)
  split
  · exact hI1
  · exact hI1

/-- The rest of the processing of an expected RST, which goes on after the link was
closed; such a packet has no data. -/
theorem good_reset (hState : x.state = .closed) (hStatus : x.status.isSome)
    (hSent : x.snSent = odd x.handed.length)
    (hp : Received x y i k p) (hRst : p.control.rst = true) :
    Good (behave p.toHeader [ratpBehaviourF2, ratpBehaviourH2, ratpBehaviourI1] x) y wx wy i k := by
  obtain ⟨hState', hStatus', _, _⟩ := f2_frame x p.toHeader
  have hF2 : Good (ratpBehaviourF2 x p.toHeader).1 y wx wy i k :=
    ⟨good_f2 h hSent hp, .closed (hState'.trans hState) (by rw [hStatus']; exact hStatus)⟩
  have hNoData : ratpHasData p.toHeader = false := by
    cases hData : ratpHasData p.toHeader with
    | false => rfl
    | true => exact absurd ((hp.body.data hData).2.2.1.symm.trans hRst) (by decide)
  rw [behave_cons]
  split
  · exact hF2
  · rw [behave_skip (h2_of_not_fin _ hp.body.fin), behave_cons, i1_of_no_data _ hNoData, if_pos rfl]
    exact hF2

include hState hx in
theorem good_established (hp : Received x y i k p) :
    Good (behave p.toHeader
      [ratpBehaviourC2, ratpBehaviourD2, ratpBehaviourE, ratpBehaviourF2,
        ratpBehaviourH2, ratpBehaviourI1] x)
      y wx wy i k := by
  by_cases hExpected : p.control.sn = !x.snReceived
  · have hC2 : ratpBehaviourC2 x p.toHeader = (x, false) :=
      if_pos (by simp [ratpSnExpected, hExpected])
    rw [behave_skip hC2]
    cases hRst : p.control.rst with
    | false =>
      have hD2 : ratpBehaviourD2 x p.toHeader = (x, false) := if_pos (by simp [hRst])
      rw [behave_skip hD2]
      cases hSyn : p.control.syn with
      | false =>
        rw [behave_skip (e_of_not_syn _ hSyn)]
        exact good_data h hState hx hp hExpected
      | true => exact good_ended (good_e h hSyn) _
    | true =>
      have hD2 : ratpBehaviourD2 x p.toHeader =
          ({ x with status := some .econnreset, sendbuf := none, state := .closed }, false) :=
            if_neg (by simp [hRst])
      have hClosed :
          Processing { x with status := some .econnreset, sendbuf := none, state := .closed }
            y wx wy i k :=
        h.quiet ⟨rfl, rfl, rfl, rfl⟩ rfl
      rw [behave_skip hD2]
      cases hSyn : p.control.syn with
      | false =>
        rw [behave_skip (e_of_not_syn _ hSyn)]
        exact good_reset hClosed rfl rfl hx.sent { hp with } hRst
      | true => exact good_ended (good_e hClosed hSyn) _
  · exact good_ended (good_c2 h hState hx (by simpa using hExpected)) _

structure Waiting (x : RatpInternal) : Prop where
  state : x.state = .synReceived
  opening : Opening x
  sn : x.snSent = false

theorem good_c1 (hx : Waiting x) (hOld : p.control.sn = false) :
    Good (ratpBehaviourC1 x p.toHeader).1 y wx wy i k ∧
    (ratpBehaviourC1 x p.toHeader).2 = true := by
  obtain ⟨hState, hOpen, hSent⟩ := hx
  unfold ratpBehaviourC1
  rw [if_neg (by simp [ratpSnExpected, hOld, hOpen.received])]
  split
  · exact ⟨⟨h, .synReceived hState hOpen hSent⟩, rfl⟩
  have hSn : p.control.sn = odd x.accepted.length := by
    rw [hOld, hOpen.accepted]
    rfl
  exact ⟨⟨h.sendAck hSn, .synReceived hState { hOpen with } hSent⟩, rfl⟩

theorem good_d1 (hx : Waiting x) (hRst : p.control.rst = true) :
    Good (ratpBehaviourD1 x p.toHeader).1 y wx wy i k ∧
    (ratpBehaviourD1 x p.toHeader).2 = true := by
  obtain ⟨_, hOpen, _⟩ := hx
  unfold ratpBehaviourD1
  rw [if_neg (by simp [hRst])]
  split
  · exact ⟨⟨h.quiet ⟨rfl, rfl, rfl, rfl⟩ rfl, .listen rfl { hOpen with }⟩, rfl⟩
  · exact ⟨⟨h.quiet ⟨rfl, rfl, rfl, rfl⟩ rfl, .closed rfl rfl⟩, rfl⟩

theorem good_f1 (hx : Waiting x) :
    Good (ratpBehaviourF1 x p.toHeader).1 y wx wy i k ∧ (ratpBehaviourF1 x p.toHeader).2 = true ∨
      ratpBehaviourF1 x p.toHeader = ({ x with sendbuf := none }, false) := by
  obtain ⟨hState, hOpen, hSent⟩ := hx
  unfold ratpBehaviourF1
  split
  · exact .inl ⟨⟨h, .synReceived hState hOpen hSent⟩, rfl⟩
  split
  · exact .inr rfl
  obtain ⟨hReset, hKept⟩ := h.sendReset p.control.an
  left
  simp only
  split
  · exact ⟨⟨hReset.quiet ⟨rfl, rfl, rfl, rfl⟩ rfl, .closed rfl rfl⟩, rfl⟩
  · exact ⟨⟨hReset.quiet ⟨rfl, rfl, rfl, rfl⟩ rfl, .listen rfl { hOpen with sendbuf := hKept }⟩,
      rfl⟩

theorem good_synReceived (hx : Waiting x) (hp : Received x y i k p) :
    Good (behave p.toHeader [ratpBehaviourC1, ratpBehaviourD1,
      ratpBehaviourE, ratpBehaviourF1, ratpBehaviourH1] x)
      y wx wy i k := by
  have hReceived := hx.opening.received
  rcases hSn : p.control.sn with _ | _
  · exact good_ended (good_c1 h hx hSn) _
  have hC1 : ratpBehaviourC1 x p.toHeader = (x, false) :=
    if_pos (by simp [ratpSnExpected, hSn, hReceived])
  rw [behave_skip hC1]
  cases hRst : p.control.rst with
  | true => exact good_ended (good_d1 h hx hRst) _
  | false =>
    have hD1 : ratpBehaviourD1 x p.toHeader = (x, false) := if_pos (by simp [hRst])
    rw [behave_skip hD1]
    cases hSyn : p.control.syn with
    | true => exact good_ended (good_e h hSyn) _
    | false =>
      rw [behave_skip (e_of_not_syn _ hSyn)]
      rcases good_f1 (p := p) h hx with hEnded | hF1
      · exact good_ended hEnded _
      obtain ⟨hState, hOpening, hSent⟩ := hx
      have hOpen : Opening { x with sendbuf := none, state := .established } :=
        { hOpening with received := hReceived, sendbuf := nofun }
      have hQuiet : Processing { x with sendbuf := none, state := .established } y wx wy i k :=
        h.quiet ⟨rfl, rfl, rfl, rfl⟩ rfl
      have hI1 := good_i1 hQuiet rfl (hOpen.established hSent) { hp with }
        (by rw [hSn]; simp [hReceived])
      rw [behave_skip hF1, behave_cons, ratpBehaviourH1]
      split
      · exact hI1
      · exact hI1

omit h

theorem good_stateMachine (h : Good x y wx wy i k) (hOpen : x.state ≠ .closed)
    (hp : Received x y i k p) :
    Good (ratpStateMachine x p.toHeader) y wx wy i k := by
  obtain ⟨hProcessing, hStanding⟩ := h
  unfold ratpStateMachine
  cases hStanding with
  | listen state opening => rw [state]; exact good_listen hProcessing state opening hp
  | synSent state opening sn => rw [state]; exact good_synSent hProcessing state opening sn hp
  | synReceived state opening sn =>
      rw [state]; exact good_synReceived hProcessing ⟨state, opening, sn⟩ hp
  | established state established =>
      rw [state]; exact good_established hProcessing state established hp
  | closed state => exact absurd state hOpen

end Behaviour
end Barebox.Ratp
