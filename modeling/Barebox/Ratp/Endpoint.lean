import Barebox.Ratp.Packet

/-! One end of a RATP link: the state machine, polling and sending. The clock is
left out; whether a timer has run out is an input. The transport takes every
packet, `out` holds those of the current call. Lists of what was handed over,
accepted and completed are kept as observations. -/
namespace Barebox.Ratp
open Bytes Barebox.Lib

inductive RatpState where
  | listen | synSent | synReceived | established | finWait | lastAck | closing | timeWait | closed
  deriving DecidableEq, Repr

structure Message where
  data : List UInt8
  eor : Bool
  deriving DecidableEq, Repr

/-- `struct ratp_internal`. The receive buffer is its area for data, behind the
header; the send buffer is empty when `sendbuf_len` is zero. -/
structure RatpInternal where
  state : RatpState
  snSent : Bool
  snReceived : Bool
  active : Bool
  recvbuf : List UInt8
  sendbuf : Option Packet
  recvmsg : List Message
  sendmsg : List Message
  sendmsgCurrent : Option Message
  maxRetransmission : Nat
  retransmissionCount : Nat
  status : Option Errno
  out : List Packet
  handed : List Message
  accepted : List Message
  completed : List Message
  deriving DecidableEq

variable (ri : RatpInternal) (hdr : Header)

/-- `ratp_send_pkt`: a packet that has to be acknowledged is kept for retransmission. -/
def ratpSendPkt (p : Packet) : RatpInternal :=
  if ratpHasData p.toHeader || (p.control.syn || p.control.rst || p.control.fin) then
    { ri with
      sendbuf := some p, snSent := p.control.sn, retransmissionCount := 0, out := ri.out ++ [p] }
  else { ri with out := ri.out ++ [p] }

def ratpSendHdr (control : Control) : RatpInternal := ratpSendPkt ri ⟨⟨control, 0⟩, []⟩

def ratpAnExpected : Bool := hdr.control.an == !ri.snSent

def ratpSnExpected : Bool := hdr.control.sn == !ri.snReceived

def ackControl : Control :=
  { Control.none with sn := hdr.control.an, an := !hdr.control.sn, ack := true }

def ratpSendAck : RatpInternal := ratpSendHdr ri (ackControl hdr)

/-- The packet that `ratp_send_next_data` makes of a message: a single byte is sent
in the place of the length. -/
def dataPacket (msg : Message) : Packet :=
  let control : Control :=
    { Control.none with sn := !ri.snSent, an := !ri.snReceived, ack := true, eor := msg.eor }
  match msg.data with
  | [byte] => ⟨⟨{ control with so := true }, byte⟩, []⟩
  | data => ⟨⟨control, UInt8.ofNat data.length⟩, data⟩

/-- `ratp_send_next_data`: nothing is sent while a message is under way. -/
def ratpSendNextData : RatpInternal :=
  match ri.sendmsgCurrent, ri.sendmsg with
  | none, msg :: sendmsg =>
    ratpSendPkt
      { ri with
        sendmsgCurrent := some msg, sendmsg := sendmsg, retransmissionCount := 0,
        handed := ri.handed ++ [msg] }
      (dataPacket ri msg)
  | _, _ => ri

/-- `ratp_msg_done` with status zero, without its estimate of the round trip time. -/
def ratpMsgDone (msg : Message) : RatpInternal := { ri with completed := ri.completed ++ [msg] }

/-- `msg_recv`: a packet with the length 0 carries one byte, in the place of its length. -/
def msgRecv : RatpInternal :=
  let data := if hdr.dataLength ≠ 0 then ri.recvbuf.take hdr.dataLength.toNat else [hdr.dataLength]
  { ri with recvmsg := ri.recvmsg ++ [⟨data, hdr.control.eor⟩] }

/-- The fragment that a packet carries: the byte in the place of the length, or
the data behind the header. -/
def carried (recvbuf : List UInt8) : Message :=
  ⟨if hdr.control.so then [hdr.dataLength] else recvbuf.take hdr.dataLength.toNat, hdr.control.eor⟩

/-! The behaviours take a packet's header and say whether its processing ends. -/

/-- Behaviour A, in LISTEN. -/
def ratpBehaviourA : RatpInternal :=
  if hdr.control.rst then ri
  else if hdr.control.ack then
    ratpSendHdr ri { Control.none with rst := true, sn := hdr.control.an }
  else if hdr.control.syn then
    { ratpSendPkt ri
        ⟨⟨{ Control.none with syn := true, ack := true, an := !hdr.control.sn }, 255⟩, []⟩ with
      state := .synReceived }
  else ri

/-- The answer to new data, or to the SYN of the other side: an acknowledgement, or
data that is waiting. -/
def ratpAnswer : RatpInternal :=
  if ri.sendmsg.isEmpty || ri.sendmsgCurrent.isSome then ratpSendAck ri hdr else ratpSendNextData ri

/-- Behaviour B, in SYN-SENT. -/
def ratpBehaviourB : RatpInternal :=
  if hdr.control.ack && !ratpAnExpected ri hdr then
    if hdr.control.rst then ri
    else ratpSendHdr ri { Control.none with rst := true, sn := hdr.control.an }
  else if hdr.control.rst then
    if hdr.control.ack then { ri with status := some .econnrefused, state := .closed } else ri
  else if hdr.control.syn then
    let ri := { ri with snReceived := hdr.control.sn }
    if hdr.control.ack then ratpAnswer { ri with state := .established } hdr
    else
      { ratpSendPkt ri
          ⟨⟨{ Control.none with syn := true, ack := true, an := !hdr.control.sn }, 255⟩, []⟩ with
        state := .synReceived }
  else ri

/-- Behaviour C1: a packet with the wrong SN is acknowledged again and dropped. -/
def ratpBehaviourC1 : RatpInternal × Bool :=
  if ratpSnExpected ri hdr then (ri, false)
  else if hdr.control.rst || hdr.control.fin then (ri, true)
  else (ratpSendAck ri hdr, true)

/-- Behaviour C2: as C1, and a SYN resets the connection. -/
def ratpBehaviourC2 : RatpInternal × Bool :=
  if ratpSnExpected ri hdr then (ri, false)
  else if hdr.control.rst || hdr.control.fin then (ri, true)
  else if hdr.control.syn then
    ({ ratpSendHdr { ri with status := some .econnreset } { ackControl hdr with rst := true } with
      sendbuf := none, state := .closed }, true)
  else (ratpSendAck ri hdr, true)

/-- Behaviour D1: a reset while the connection opens. -/
def ratpBehaviourD1 : RatpInternal × Bool :=
  if !hdr.control.rst then (ri, false)
  else if !ri.active then ({ ri with state := .listen }, true)
  else ({ ri with status := some .econnrefused, sendbuf := none, state := .closed }, true)

/-- `ratp_behaviour_d2`, which lets the processing go on. -/
def ratpBehaviourD2 : RatpInternal × Bool :=
  if !hdr.control.rst then (ri, false)
  else ({ ri with status := some .econnreset, sendbuf := none, state := .closed }, false)

def ratpBehaviourD3 : RatpInternal × Bool :=
  if !hdr.control.rst then (ri, false) else ({ ri with state := .closed }, true)

/-- Behaviour E: an unexpected SYN resets the connection. -/
def ratpBehaviourE : RatpInternal × Bool :=
  if !hdr.control.syn then (ri, false)
  else
    ({ ratpSendHdr { ri with status := some .econnreset }
        { Control.none with rst := true, sn := hdr.control.ack && hdr.control.an } with
      sendbuf := none, state := .closed }, true)

/-- Behaviour F1: the ACK that completes the opening. -/
def ratpBehaviourF1 : RatpInternal × Bool :=
  if !hdr.control.ack then (ri, true)
  else if ratpAnExpected ri hdr then ({ ri with sendbuf := none }, false)
  else
    let ri := ratpSendHdr ri { Control.none with rst := true, sn := hdr.control.an }
    if ri.active then ({ ri with state := .closed, status := some .econnrefused }, true)
    else ({ ri with state := .listen }, true)

/-- Behaviour F2: the ACK of the message under way. -/
def ratpBehaviourF2 : RatpInternal × Bool :=
  if !hdr.control.ack then (ri, true)
  else if ratpAnExpected ri hdr then
    match ri.sendmsgCurrent with
    | some msg => ({ ratpMsgDone ri msg with sendmsgCurrent := none, sendbuf := none }, false)
    | none => ({ ri with sendbuf := none }, false)
  else (ri, false)

def ratpBehaviourF3 : RatpInternal × Bool := (ri, !hdr.control.ack)

/-- Behaviour G: the answer of a closed connection is a reset. -/
def ratpBehaviourG : RatpInternal :=
  if hdr.control.rst then ri
  else if hdr.control.ack then
    ratpSendHdr ri { Control.none with rst := true, sn := hdr.control.an }
  else ratpSendHdr ri { Control.none with rst := true, an := !hdr.control.sn, ack := true }

/-- Taking over the data of a packet in `ratp_behaviour_i1`. -/
def ratpAccept : RatpInternal :=
  { msgRecv { ri with snReceived := hdr.control.sn } hdr with
    accepted := ri.accepted ++ [carried hdr ri.recvbuf] }

/-- Behaviour I1: data is accepted and answered. -/
def ratpBehaviourI1 : RatpInternal × Bool :=
  if !ratpHasData hdr then (ri, true) else (ratpAnswer (ratpAccept ri hdr) hdr, false)

/-- Behaviour H1: the connection is established. -/
def ratpBehaviourH1 : RatpInternal × Bool := ratpBehaviourI1 { ri with state := .established } hdr

/-- Behaviour H2: the other side closes. -/
def ratpBehaviourH2 : RatpInternal × Bool :=
  if !hdr.control.fin then (ri, false)
  else
    ({ ratpSendHdr { ri with status := some .enetdown } { ackControl hdr with fin := true } with
      state := .lastAck, snReceived := hdr.control.sn }, true)

def ratpBehaviourH3 : RatpInternal × Bool :=
  if !hdr.control.fin then (ri, true)
  else if ratpHasData hdr then
    ({ ratpSendHdr ri { ackControl hdr with rst := true } with
      status := some .econnreset, sendbuf := none, state := .closed }, true)
  else
    ({ ratpSendHdr ri (ackControl hdr) with
        state := if ratpAnExpected ri hdr then .timeWait else .closing }, true)

def ratpBehaviourH4 : RatpInternal × Bool :=
  (if ratpAnExpected ri hdr then { ri with sendbuf := none, state := .closed } else ri, true)

def ratpBehaviourH5 : RatpInternal × Bool :=
  (if ratpAnExpected ri hdr then { ri with sendbuf := none, state := .timeWait } else ri, false)

def ratpBehaviourH6 : RatpInternal × Bool :=
  if !hdr.control.ack || !hdr.control.fin then (ri, true)
  else (ratpSendHdr ri { Control.none with sn := !hdr.control.an, ack := true }, false)

def behave (hdr : Header) :
    List (RatpInternal → Header → RatpInternal × Bool) → RatpInternal → RatpInternal
  | [], ri => ri
  | behaviour :: behaviours, ri =>
    let (ri, ended) := behaviour ri hdr
    if ended then ri else behave hdr behaviours ri

/-- `ratp_state_machine`: the behaviours of a state, in their order. -/
def ratpStateMachine : RatpInternal :=
  match ri.state with
  | .listen => ratpBehaviourA ri hdr
  | .synSent => ratpBehaviourB ri hdr
  | .synReceived =>
    behave hdr [ratpBehaviourC1, ratpBehaviourD1, ratpBehaviourE,
      ratpBehaviourF1, ratpBehaviourH1] ri
  | .established =>
    behave hdr [ratpBehaviourC2, ratpBehaviourD2, ratpBehaviourE,
      ratpBehaviourF2, ratpBehaviourH2, ratpBehaviourI1] ri
  | .finWait => behave hdr [ratpBehaviourC2, ratpBehaviourD2,
      ratpBehaviourE, ratpBehaviourF3, ratpBehaviourH3] ri
  | .lastAck => behave hdr [ratpBehaviourC2, ratpBehaviourD3,
      ratpBehaviourE, ratpBehaviourF3, ratpBehaviourH4] ri
  | .closing => behave hdr [ratpBehaviourC2, ratpBehaviourD3,
      ratpBehaviourE, ratpBehaviourF3, ratpBehaviourH5] ri
  | .timeWait => behave hdr [ratpBehaviourD3, ratpBehaviourE, ratpBehaviourF3, ratpBehaviourH6] ri
  | .closed => ratpBehaviourG ri hdr

structure Timers where
  timeWait : Bool
  retransmission : Bool
  deriving DecidableEq, Repr

/-- The part of `ratp_poll` that receives: the error to return at once, if any, the
new state and the rest of the stream. -/
def ratpPollRecv (stream : List UInt8) (timers : Timers) :
    Option Errno × RatpInternal × List UInt8 :=
  match ratpRecvPkt ri.recvbuf stream with
  | (.error _, recvbuf, rest) => (none, { ri with recvbuf := recvbuf }, rest)
  | (.ok hdr, recvbuf, rest) =>
    let ri := { ri with recvbuf := recvbuf }
    if ri.state = .timeWait && timers.timeWait then (some .econnreset, ri, rest)
    else
      let ri := ratpStateMachine ri hdr
      (ri.status, ri, rest)

/-- The part of `ratp_poll` that retransmits and sends. -/
def ratpPollSend (timers : Timers) : Option Errno × RatpInternal :=
  match ri.sendbuf with
  | none => (none, ratpSendNextData ri)
  | some p =>
    if timers.retransmission then
      let ri := { ri with retransmissionCount := ri.retransmissionCount + 1 }
      if ri.retransmissionCount = ri.maxRetransmission then
        (some .etimedout, { ri with status := some .etimedout, state := .closed })
      else (none, { ri with out := ri.out ++ [p] })
    else (none, ri)

/-- `ratp_poll`: at most one packet in, then what is due to be sent. -/
def ratpPoll (stream : List UInt8) (timers : Timers) : Option Errno × RatpInternal × List UInt8 :=
  match ratpPollRecv ri stream timers with
  | (some e, ri, rest) => (some e, ri, rest)
  | (none, ri, rest) => ((ratpPollSend ri timers).1, (ratpPollSend ri timers).2, rest)

/-- The setup of `ratp_establish`; `recvbuf` is the content of a fresh buffer. -/
def ratpEstablish (active : Bool) (recvbuf : List UInt8) : RatpInternal :=
  let ri : RatpInternal :=
    { state := .listen, snSent := false, snReceived := false, active := active, recvbuf := recvbuf,
      sendbuf := none,
      recvmsg := [], sendmsg := [], sendmsgCurrent := none, maxRetransmission := 100,
      retransmissionCount := 0,
      status := none, out := [], handed := [], accepted := [], completed := [] }
  if active then { ratpSendHdr ri { Control.none with syn := true } with state := .synSent } else ri

/-- The conversion of a `size_t` to `int`. -/
def toInt (n : Nat) : Int := (BitVec.ofNat 32 n).toInt

/-- The fragments of up to 255 bytes that `ratp_send_complete` cuts data into, in
`fuel` turns of its loop; the last one ends the record. A turn that does not get
a positive length from the conversion to `int` leads nowhere. -/
def fragments : Nat → List UInt8 → Option (List Message)
  | 0, _ => none
  | fuel + 1, data =>
    let now := min (toInt data.length) 255
    if now ≤ 0 then none
    else if data.length ≤ now.toNat then some [⟨data, true⟩]
    else (fragments fuel (data.drop now.toNat)).map (⟨data.take now.toNat, false⟩ :: ·)

/-- `ratp_send`, if it returns. -/
def ratpSend (data : List UInt8) : Option (Except Errno RatpInternal) :=
  if ri.state ≠ .established then some (.error .enetdown)
  else if data = [] then some (.error .einval)
  else (fragments data.length data).map fun msgs => .ok { ri with sendmsg := ri.sendmsg ++ msgs }

end Barebox.Ratp
