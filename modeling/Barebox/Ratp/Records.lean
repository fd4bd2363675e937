import Barebox.Ratp.Transparency

/-! Records and their fragments at the receiving end. `ratp_recv` adds up the lengths of the
fragments of one record and then copies all fragments that are there. -/
namespace Barebox.Ratp
open Bytes List

/-- The first walk of `ratp_recv`: the length up to the end of the first record, if there is one. -/
def recordLen : List Message → Nat → Option Nat
  | [], _ => none
  | msg :: msgs, len => if msg.eor then some (len + msg.data.length)
      else recordLen msgs (len + msg.data.length)

/-- What a call returns: the buffer of the given length, and what was copied behind its end. -/
structure RecvResult where
  data : List UInt8
  len : Nat
  overrun : List UInt8
  deriving DecidableEq

def ratpRecv (ri : RatpInternal) : Except Errno RecvResult × RatpInternal :=
  if ri.state ≠ .established then (.error .enetdown, ri)
  else if ri.recvmsg.isEmpty then (.error .eagain, ri)
  else
    match recordLen ri.recvmsg 0 with
    | none => (.error .eagain, ri)
    | some len =>
      -- the second walk does not stop at the end of the record
      let copied := ri.recvmsg.flatMap Message.data
      (.ok ⟨copied.take len, len, copied.drop len⟩, { ri with recvmsg := [] })

def splitRecord : List Message → Option (List Message × List Message)
  | [] => none
  | msg :: msgs =>
    if msg.eor then some ([msg], msgs)
    else (splitRecord msgs).map fun parts => (msg :: parts.1, parts.2)

def recordsFrom (front : List UInt8) : List Message → List (List UInt8)
  | [] => []
  | msg :: msgs =>
    if msg.eor then (front ++ msg.data) :: recordsFrom [] msgs
    else recordsFrom (front ++ msg.data) msgs

def records (msgs : List Message) : List (List UInt8) := recordsFrom [] msgs

structure ReturnsRecord (ri : RatpInternal) (got : RecvResult) (ri' : RatpInternal) : Prop where
  len : got.len = got.data.length
  overrun : got.overrun = []
  record : ∃ record rest, splitRecord ri.recvmsg = some (record, rest) ∧
    got.data = record.flatMap Message.data ∧
    ri' = { ri with recvmsg := rest }

variable {msgs record rest : List Message} {ri ri' : RatpInternal} {got : RecvResult}

theorem recordLen_eq (msgs : List Message) (len : Nat) :
    recordLen msgs len = (splitRecord msgs).map fun parts =>
    len + (parts.1.flatMap Message.data).length := by
  induction msgs generalizing len with
  | nil => rfl
  | cons msg msgs ih =>
    rw [recordLen, splitRecord]
    cases msg.eor with
    | true => simp
    | false =>
      simp [ih, Function.comp_def, Nat.add_assoc]

/-- The first record and what lies behind it. -/
theorem splitRecord_spec (h : splitRecord msgs = some (record, rest)) :
    msgs = record ++ rest ∧ (rest = [] ↔ ∀ msg ∈ msgs.dropLast, msg.eor = false) := by
  induction msgs generalizing record with
  | nil => cases h
  | cons msg msgs ih =>
    rw [splitRecord] at h
    cases hEor : msg.eor with
    | true =>
      rw [hEor, if_pos rfl] at h
      cases h
      refine ⟨rfl, ?_⟩
      cases rest with
      | nil => exact iff_of_true rfl fun _ hMem => by cases hMem
      | cons next msgs =>
        refine iff_of_false (cons_ne_nil _ _) fun hAll => ?_
        have hFirst := hAll msg (.head _)
        rw [hEor] at hFirst
        cases hFirst
    | false =>
      rw [hEor, if_neg (by decide)] at h
      obtain ⟨⟨record', rest'⟩, hFirst, hEq⟩ := Option.map_eq_some_iff.mp h
      cases hEq
      obtain ⟨hSplit, hIff⟩ := ih hFirst
      refine ⟨congrArg (msg :: ·) hSplit, ?_⟩
      rw [hIff]
      cases msgs with
      | nil => cases hFirst
      | cons next msgs => rw [dropLast_cons_cons, forall_mem_cons, and_iff_right hEor]

theorem ratpRecv_ok (h : ratpRecv ri = (.ok got, ri')) :
    ∃ record rest, splitRecord ri.recvmsg = some (record, rest) ∧
      got = ⟨record.flatMap Message.data, (record.flatMap Message.data).length,
        rest.flatMap Message.data⟩ ∧
      ri' = { ri with recvmsg := [] } := by
  rw [ratpRecv] at h
  split_ifs at h with hState hEmpty
  · cases h
  · cases h
  rw [recordLen_eq] at h
  rcases hFirst : splitRecord ri.recvmsg with _ | parts
  · rw [hFirst] at h
    cases h
  obtain ⟨record, rest⟩ := parts
  rw [hFirst] at h
  cases h
  refine ⟨record, rest, rfl, ?_, rfl⟩
  simp [(splitRecord_spec hFirst).1]

/-- A call returns the first record and leaves the rest exactly if nothing is behind the record. -/
theorem returnsRecord_iff (h : ratpRecv ri = (.ok got, ri')) :
    ReturnsRecord ri got ri' ↔ ∀ msg ∈ ri.recvmsg.dropLast, msg.eor = false := by
  obtain ⟨record, rest, hFirst, rfl, rfl⟩ := ratpRecv_ok h
  rw [← (splitRecord_spec hFirst).2]
  constructor
  · rintro ⟨-, -, record', rest', hFirst', -, hLeft⟩
    rw [hFirst] at hFirst'
    cases hFirst'
    exact (congrArg RatpInternal.recvmsg hLeft).symm
  · rintro rfl
    exact ⟨rfl, rfl, record, [], hFirst, rfl, rfl⟩

/-- The packet of a fragment comes in as the sender has encoded it: `ratp_recv_pkt` reads it into
the receive buffer and `msg_recv` puts it into the queue. -/
def ratpArrive (ri sender : RatpInternal) (msg : Message) : RatpInternal :=
  match ratpRecvPkt ri.recvbuf (dataPacket sender msg).encode with
  | (.ok hdr, recvbuf, _) => msgRecv { ri with recvbuf } hdr
  | (.error _, recvbuf, _) => { ri with recvbuf }

/-- A fragment of the peer comes in, or `ratp_recv` is called. -/
inductive RecvEvent where
  | fragment (sender : RatpInternal) (msg : Message)
  | recv

/-- The fragments as they were handed to the sender. -/
def sentFragments : List RecvEvent → List Message
  | [] => []
  | .fragment _ msg :: events => msg :: sentFragments events
  | .recv :: events => sentFragments events

/-- The data that the calls return, and the receiver behind the events. -/
def recvRun (ri : RatpInternal) : List RecvEvent → List (List UInt8) × RatpInternal
  | [] => ([], ri)
  | .fragment sender msg :: events => recvRun (ratpArrive ri sender msg) events
  | .recv :: events =>
    match ratpRecv ri with
    | (.error _, ri) => recvRun ri events
    | (.ok got, ri) => (got.data :: (recvRun ri events).1, (recvRun ri events).2)

/-- Every call is made while at most one record has come in. -/
def Paced (ri : RatpInternal) : List RecvEvent → Prop
  | [] => True
  | .fragment sender msg :: events => Paced (ratpArrive ri sender msg) events
  | .recv :: events =>
    (∀ msg ∈ ri.recvmsg.dropLast, msg.eor = false) ∧ Paced (ratpRecv ri).2 events

/-- A fragment that `msg_recv` stores as it was sent: a single byte is sent in the place of the
length, and is taken for a length unless it is zero. -/
structure Message.Storable (msg : Message) : Prop where
  pos : 1 ≤ msg.data.length
  le : msg.data.length ≤ 255
  single : msg.data.length = 1 → msg.data = [0]

theorem ratpArrive_recvmsg {msg : Message} (h : msg.Storable) (ri sender : RatpInternal) :
    (ratpArrive ri sender msg).recvmsg = ri.recvmsg ++ [msg] := by
  have hStored : storedData ri.recvbuf msg = msg.data := by
    by_cases hOne : msg.data.length = 1
    · simp [storedData, h.single hOne]
    · exact storedData_long hOne _
  obtain ⟨-, hWell, -⟩ := dataPacket_hasData sender h.pos h.le
  have hRead := ratpRecvPkt_encode hWell ri.recvbuf []
  rw [append_nil, received_dataPacket sender h.pos] at hRead
  rw [ratpArrive, hRead]
  dsimp only
  rw [msgRecv_dataPacket sender h.pos h.le rfl, hStored]

theorem recordsFrom_splitRecord (front : List UInt8) (later : List Message)
    (h : splitRecord msgs = some (record, rest)) :
    recordsFrom front (msgs ++ later) = (front ++ record.flatMap Message.data) :: recordsFrom []
    (rest ++ later) := by
  induction msgs generalizing record front with
  | nil => cases h
  | cons msg msgs ih =>
    rw [splitRecord] at h
    rw [cons_append, recordsFrom]
    cases hEor : msg.eor with
    | true =>
      rw [hEor, if_pos rfl] at h
      cases h
      simp
    | false =>
      rw [hEor, if_neg (by decide)] at h
      obtain ⟨⟨record', rest'⟩, hFirst, hEq⟩ := Option.map_eq_some_iff.mp h
      cases hEq
      grind

theorem ratpRecv_error {e : Errno} (h : ratpRecv ri = (.error e, ri')) : ri' = ri := by
  rw [ratpRecv] at h
  split_ifs at h
  · cases h
    rfl
  · cases h
    rfl
  cases hLen : recordLen ri.recvmsg 0 with
  | none =>
    rw [hLen] at h
    cases h
    rfl
  | some len =>
    rw [hLen] at h
    cases h

theorem recvRun_records (events : List RecvEvent) : ∀ ri, Paced ri events →
    (∀ msg ∈ sentFragments events, msg.Storable) →
    records (ri.recvmsg ++ sentFragments events) =
      (recvRun ri events).1 ++ records (recvRun ri events).2.recvmsg := by
  induction events with
  | nil =>
    intro ri _ _
    rw [sentFragments, append_nil]
    rfl
  | cons event events ih =>
    intro ri hPaced hStorable
    cases event with
    | fragment sender msg =>
      obtain ⟨hFirst, hRest⟩ := forall_mem_cons.mp hStorable
      rw [recvRun, ← ih _ hPaced hRest, sentFragments, ratpArrive_recvmsg hFirst, append_assoc,
        singleton_append]
    | recv =>
      obtain ⟨hLast, hPaced⟩ := hPaced
      rw [recvRun, sentFragments]
      cases hCall : ratpRecv ri with
      | mk ret ri' =>
        rw [hCall] at hPaced
        rcases ret with e | got
        · rw [← ratpRecv_error hCall]
          exact ih ri' hPaced hStorable
        obtain ⟨record, rest, hFirst, rfl, hEmpty⟩ := ratpRecv_ok hCall
        have hRest := (splitRecord_spec hFirst).2.mpr hLast
        have hNext := ih ri' hPaced hStorable
        rw [hEmpty, nil_append] at hNext
        rw [records, recordsFrom_splitRecord [] _ hFirst, hRest, nil_append, nil_append, hEmpty,
          cons_append, ← hNext]
        rfl

/-- A call that succeeds returns the first record, with its length, and leaves the fragments behind
it exactly if there are none. If each call is made in such a state, and no single byte but zero is
sent, the calls return the records one by one as they were sent. -/
theorem ratpRecv_record (ri : RatpInternal) :
    (∀ got ri', ratpRecv ri = (.ok got, ri') →
      (ReturnsRecord ri got ri' ↔ ∀ msg ∈ ri.recvmsg.dropLast, msg.eor = false)) ∧
    ∀ events, Paced ri events → (∀ msg ∈ sentFragments events, msg.Storable) →
      records (ri.recvmsg ++ sentFragments events) =
        (recvRun ri events).1 ++ records (recvRun ri events).2.recvmsg :=
  ⟨fun _ _ h => returnsRecord_iff h, fun events => recvRun_records events ri⟩

/-- Two records, of two fragments and of a zero byte, each asked for when it has come in. -/
theorem ratpRecv_record_two :
    (recvRun passiveLink.b [.fragment passiveLink.a ⟨[1, 2], false⟩,
      .fragment passiveLink.a ⟨[3, 4], true⟩, .recv,
      .fragment passiveLink.a ⟨[0], true⟩, .recv]).1 = [[1, 2, 3, 4], [0]] := by
  have hRun := (ratpRecv_record passiveLink.b).2
    [.fragment passiveLink.a ⟨[1, 2], false⟩, .fragment passiveLink.a ⟨[3, 4], true⟩, .recv,
      .fragment passiveLink.a ⟨[0], true⟩, .recv] (by simp only [Paced]; decide +kernel)
    (by simp only [sentFragments, forall_mem_cons]
        exact ⟨⟨by decide, by decide, by decide⟩, ⟨by decide, by decide, by decide⟩,
          ⟨by decide, by decide, by decide⟩, by simp⟩)
  rw [show (recvRun passiveLink.b _).2.recvmsg = [] by decide +kernel] at hRun
  exact (hRun.trans (append_nil _)).symm

/-- Two records of a byte each: the second one is copied behind the buffer for the first one, and
lost. -/
theorem ratpRecv_two_records :
    let ri : RatpInternal := { ratpEstablish false [] with
      state := .established, recvmsg := [⟨[1], true⟩, ⟨[2], true⟩] }
    (ratpRecv ri).1 = .ok ⟨[1], 1, [2]⟩ ∧ (ratpRecv ri).2.recvmsg = [] ∧
      (ratpRecv (ratpRecv ri).2).1 = .error .eagain := by
  decide

end Barebox.Ratp
