import Barebox.Tftp.Window

/-! Reassembly of a file from data packets that are lost, duplicated and
reordered. A session interleaves packets with the reader; as long as the packets
belong near the current position, the bytes put into the fifo are the file's
blocks in order. -/
namespace Barebox.Tftp
open Bytes Barebox.Lib List Nat FilePriv

def dataPacket (n : Nat) (data : List UInt8) : List UInt8 := be 2 3 ++ be 2 (n % 2 ^ 16) ++ data

theorem tftpRecv_dataPacket (maxWindow : Nat) (priv : FilePriv) (n : Nat) (data : List UInt8) :
    tftpRecv maxWindow priv (dataPacket n data) = tftpRecvData priv (UInt16.ofNat n) data := by
  have hLen : ¬(dataPacket n data).length < 4 := by
    simp [dataPacket]
    omega
  have hOp : slice 0 2 (dataPacket n data) = be 2 3 := rfl
  have hBlock : slice 2 2 (dataPacket n data) = be 2 (n % 2 ^ 16) :=
    slice_append_middle (be 2 3) (be 2 (n % 2 ^ 16)) data
  have hData : (dataPacket n data).drop 4 = data := drop_left' (by simp [be_length])
  have hThree : ofBe (be 2 3) = 3 := by decide
  have hNumber : ofBe (be 2 (n % 2 ^ 16)) = n % 2 ^ 16 := ofBe_be_of_lt (by omega)
  rw [tftpRecv, if_neg hLen, hOp, hBlock, hData, hThree, hNumber]
  change tftpRecvData priv (UInt16.ofNat (n % 2 ^ 16)) data = _
  congr 1
  exact UInt16.toNat_inj.mp (by simp)

def held (priv : FilePriv) : List UInt8 :=
  match priv.fifo with
  | some fifo => fifo.content
  | none => []

variable {priv : FilePriv} {fifo : Kfifo} {w : Nat} {options : List UInt8}

theorem held_eq (h : priv.fifo = some fifo) : held priv = fifo.content := by rw [held, h]

structure Session where
  priv : FilePriv
  delivered : List UInt8

/-- What can happen to a client: a packet with a block of the file, a turn of the
read loop up to its poll, or a poll that brings no packet. -/
inductive Event where
  | packet (n : Nat)
  | read (insize : Nat)
  | resend
  | ctrlc
  | timeout
  deriving DecidableEq

namespace Session

/-- A poll, which the read loop does not reach once the transfer is done. -/
def poll (maxWindow : Nat) (s : Session) (p : Poll) : Session :=
  if s.priv.state = .done then s else { s with priv := (tftpReadPoll maxWindow s.priv p).2 }

def step (maxWindow : Nat) (file : List UInt8) (b : Nat) (s : Session) : Event → Session
  | .packet n => { s with priv := tftpRecv maxWindow s.priv (dataPacket n (fileBlock file b n)) }
  | .read insize =>
    { priv := (tftpReadFifo s.priv insize).2,
      delivered := s.delivered ++ (tftpReadFifo s.priv insize).1 }
  | .resend => s.poll maxWindow .resend
  | .ctrlc => s.poll maxWindow .ctrlc
  | .timeout => s.poll maxWindow .timeout

def put (s : Session) : List UInt8 := s.delivered ++ held s.priv

def position (b : Nat) (s : Session) : Nat := s.put.length / b

end Session

/-- The block belongs to the file and is less than `d` from the position. -/
def Near (d : Nat) (file : List UInt8) (b : Nat) (s : Session) (n : Nat) : Prop :=
  1 ≤ n ∧ n ≤ blockCount file b ∧ n < s.position b + d ∧ s.position b < n + d

instance (d : Nat) (file : List UInt8) (b : Nat) (s : Session) (n : Nat) :
    Decidable (Near d file b s n) :=
  inferInstanceAs (Decidable (_ ∧ _))

/-- The first `k` blocks were put into the fifo, and nothing else. -/
structure Received (file : List UInt8) (b k : Nat) (s : Session) : Prop where
  bytes : s.put = firstBlocks file b k
  last : s.priv.lastBlock = UInt16.ofNat k
  le : k ≤ blockCount file b

inductive Progress (file : List UInt8) (b k : Nat) (s : Session) : Prop where
  | running (received : Received file b k s) (state : s.priv.state = .rdata)
      (full : k ≤ file.length / b)
      (fifo : s.priv.fifo.isSome) (err : s.priv.err ≠ some .enomem)
  | finished (received : Received file b k s) (state : s.priv.state = .done)
      (err : s.priv.err ≠ some .enomem)
      (final : s.priv.err = none → k = blockCount file b)
  | overflow (whole : Nat) (part : List UInt8) (state : s.priv.state = .done)
      (err : s.priv.err = some .enomem)
      (bytes : s.put = firstBlocks file b whole ++ part)
        (isPart : part <+: fileBlock file b (whole + 1))

section Put
variable {file : List UInt8} {b k : Nat} {s : Session}

theorem blockLimit_eq {priv : FilePriv} (hSize : priv.blocksize = (b : Int)) (hb : b ≤ 1432) :
    blockLimit priv = b := by
  rw [blockLimit, hSize]
  omega

theorem tftpPutData_cases {fifo : Kfifo} (hb : 0 < b) (hLe : b ≤ 1432)
    (hSize : s.priv.blocksize = (b : Int))
    (hFifo : s.priv.fifo = some fifo) (hFull : k ≤ file.length / b) :
    let data := fileBlock file b (k + 1)
    let priv :=
      { s.priv with lastBlock := UInt16.ofNat (k + 1), fifo := some (kfifoPut fifo data).2 }
    (kfifoPut fifo data).1 ≠ data.length ∧ tftpPutData s.priv (UInt16.ofNat (k + 1)) data =
        { priv with err := some .enomem, state := .done } ∨
      (kfifoPut fifo data).1 = data.length ∧ k + 1 = blockCount file b ∧
        tftpPutData s.priv (UInt16.ofNat (k + 1)) data =
          { tftpSend priv with err := none, state := .done } ∨
      (kfifoPut fifo data).1 = data.length ∧ k + 1 ≤ file.length / b ∧
        tftpPutData s.priv (UInt16.ofNat (k + 1)) data = priv := by
  intro data priv
  have hData := fileBlock_length_le file b (k + 1)
  have hPut : tftpPutData s.priv (UInt16.ofNat (k + 1)) data =
      if (kfifoPut fifo data).1 ≠ data.length then { priv with err := some .enomem, state := .done }
      else if data.length < b then { tftpSend priv with err := none, state := .done }
      else priv := by
    have hLimit : blockLimit priv = b := blockLimit_eq hSize hLe
    rw [tftpPutData, blockLimit_eq hSize hLe, if_neg (not_lt.mpr hData), hFifo]
    grind
  rw [hPut]
  by_cases hRoom : (kfifoPut fifo data).1 = data.length
  · rw [if_neg (not_not_intro hRoom)]
    by_cases hMore : k + 1 ≤ file.length / b
    · rw [if_neg (by rw [fileBlock_full hMore]; exact lt_irrefl b)]
      exact .inr (.inr ⟨hRoom, hMore, rfl⟩)
    rw [if_pos (fileBlock_short hb (by omega))]
    refine .inr (.inl ⟨hRoom, ?_, rfl⟩)
    rw [blockCount]
    omega
  · grind

theorem put_putData {fifo : Kfifo} (hFifo : s.priv.fifo = some fifo)
    (data : List UInt8) (priv : FilePriv)
    (hNew : priv.fifo = some (kfifoPut fifo data).2) :
    Session.put { s with priv := priv } = s.put ++ data.take (kfifoPut fifo data).1 := by
  simp [Session.put, held_eq hFifo, held_eq hNew, kfifoPut_content]

theorem Progress.putData (hb : 0 < b) (hLe : b ≤ 1432) (hSize : s.priv.blocksize = (b : Int))
    (h : Progress file b k s) (hState : s.priv.state = .rdata) : Progress file b (k + 1)
      { s with priv := tftpPutData s.priv (UInt16.ofNat (k + 1)) (fileBlock file b (k + 1)) } := by
  cases h with
  | finished _ hDone | overflow _ _ hDone => rw [hState] at hDone; cases hDone
  | running received _ full fifo err =>
    obtain ⟨fifo, hFifo⟩ := Option.isSome_iff_exists.mp fifo
    have hPut := fun priv => put_putData hFifo (fileBlock file b (k + 1)) priv
    rcases tftpPutData_cases hb hLe hSize hFifo full with ⟨_, hEq⟩ |
        ⟨hRoom, hLast, hEq⟩ | ⟨hRoom, hMore, hEq⟩
    · rw [hEq]
      refine .overflow k _ rfl rfl ?_
        (List.take_prefix (kfifoPut fifo (fileBlock file b (k + 1))).1 _)
      rw [hPut _ rfl, received.bytes]
    · rw [hEq]
      refine .finished ⟨?_, ?_, le_of_eq hLast⟩ rfl (by simp) fun _ => hLast
      · rw [hPut _ (tftpSend_fifo _), received.bytes, hRoom, take_length, firstBlocks_succ]
      · exact tftpSend_lastBlock _
    rw [hEq]
    refine .running ⟨?_, rfl, ?_⟩ hState hMore rfl err
    · rw [hPut _ rfl, received.bytes, hRoom, take_length, firstBlocks_succ]
    · exact le_succ_of_le hMore

theorem Progress.congr {s' : Session} (h : Progress file b k s) (hPut : s'.put = s.put)
    (hLast : s'.priv.lastBlock = s.priv.lastBlock) (hState : s'.priv.state = s.priv.state)
    (hErr : s'.priv.err = s.priv.err) (hFifo : s'.priv.fifo.isSome = s.priv.fifo.isSome) :
    Progress file b k s' := by
  cases h with
  | running received state full fifo err =>
    exact .running ⟨hPut.trans received.bytes, hLast.trans received.last, received.le⟩
      (hState.trans state)
      full (hFifo.trans fifo) (by rwa [hErr])
  | finished received state err final =>
    exact .finished ⟨hPut.trans received.bytes, hLast.trans received.last, received.le⟩
      (hState.trans state)
      (by rwa [hErr]) (by rwa [hErr])
  | overflow whole part state err bytes isPart =>
    exact .overflow whole part (hState.trans state) (hErr.trans err) (hPut.trans bytes) isPart

theorem Progress.position_eq (hb : 0 < b) (h : Progress file b k s)
    (hState : s.priv.state = .rdata) :
    s.position b = k := by
  cases h with
  | finished _ hDone => rw [hState] at hDone; cases hDone
  | overflow _ _ hDone => rw [hState] at hDone; cases hDone
  | running received _ full =>
    rw [Session.position, received.bytes, firstBlocks_length full, Nat.mul_div_cancel k hb]

end Put

/-- The reader takes bytes from the front of the fifo; an acknowledgement is sent
only if little is left. -/
theorem tftpReadFifo_cases (hFifo : priv.fifo = some fifo) (insize : Nat) :
    let priv' := { priv with fifo := some (kfifoGet fifo (insize % 2 ^ 32)).2 }
    (tftpReadFifo priv insize).1 = fifo.content.take (insize % 2 ^ 32) ∧
      ((tftpReadFifo priv insize).2 = priv' ∨
        (tftpReadFifo priv insize).2 = tftpSend priv' ∧
          kfifoLen (kfifoGet fifo (insize % 2 ^ 32)).2 ≤
            ((tftpExtraBlocks * priv.blocksize) % 2 ^ 32).toNat) := by
  intro priv'
  rw [tftpReadFifo, hFifo]
  simp only
  split
  next h => exact ⟨kfifoGet_bytes fifo _, .inr ⟨rfl, h.2.2⟩⟩
  next => exact ⟨kfifoGet_bytes fifo _, .inl rfl⟩

theorem tftpReadFifo_frame (priv : FilePriv) (insize : Nat) :
    (tftpReadFifo priv insize).2.state = priv.state ∧
    (tftpReadFifo priv insize).2.cache = priv.cache := by
  cases hFifo : priv.fifo with
  | none =>
    simp [tftpReadFifo, hFifo]
  | some fifo => rcases (tftpReadFifo_cases hFifo insize).2 with hEq | ⟨hEq, _⟩ <;> simp [hEq]

section Step
variable {file : List UInt8} {b : Nat} {s : Session} {maxWindow : Nat}

structure Invariant (file : List UInt8) (b : Nat) (s : Session) : Prop where
  size : s.priv.blocksize = (b : Int)
  progress : ∃ k ms, Progress file b k s ∧ (s.priv.state = .rdata → Cached file b k ms s.priv)

theorem Progress.state_cases {k : Nat} (h : Progress file b k s) :
    s.priv.state = .rdata ∨ s.priv.state = .done := by
  cases h with
  | running _ state => exact .inl state
  | finished _ state => exact .inr state
  | overflow _ _ state => exact .inr state

theorem Progress.last_eq {k : Nat} (h : Progress file b k s) (hState : s.priv.state = .rdata) :
    s.priv.lastBlock = UInt16.ofNat k := by
  cases h with
  | running received | finished received => exact received.last
  | overflow _ _ hDone => rw [hState] at hDone; cases hDone

theorem Invariant.packet (hb : 0 < b) (hLe : b ≤ 1432) (h : Invariant file b s)
    {n : Nat} (hNear : Near (2 ^ 14) file b s n) :
    Invariant file b (s.step maxWindow file b (.packet n)) := by
  obtain ⟨hSize, k, ms, hProgress, hCached⟩ := h
  simp only [Session.step, tftpRecv_dataPacket]
  rcases hProgress.state_cases with hState | hState
  · rw [tftpRecvData_rdata hState]
    have hPos := hProgress.position_eq hb hState
    obtain ⟨k', ms', ⟨hSize', hProgress'⟩, _, hCached'⟩ :=
      tftpHandleData_rule (fun k priv => priv.blocksize = (b : Int) ∧
        Progress file b k { s with priv := priv })
        (fun _ => True) (fun k priv hP => hP.2.last_eq)
        (fun k priv hP hRun _ =>
          ⟨(tftpPutData_frame _ _ _).2.1.trans hP.1, Progress.putData hb hLe hP.1 hP.2 hRun⟩)
        (fun k priv cache hP => ⟨hP.1, hP.2.congr rfl rfl rfl rfl rfl⟩)
        (by omega) hState ⟨hSize, hProgress⟩ (hCached hState) (fun _ _ => trivial) trivial
        (by rw [← hPos]; exact hNear.2.2)
    exact ⟨hSize', k', ms', hProgress', hCached'⟩
  · rw [tftpRecvData_done hState]
    exact ⟨hSize, k, ms, hProgress, hCached⟩

/-- A change of nothing but the acknowledgements and the place of the bytes. -/
theorem Invariant.congr {s' : Session} (h : Invariant file b s) (hPut : s'.put = s.put)
    (hPriv : ∃ fifo ack sent,
      s'.priv = { s.priv with fifo := fifo, ackBlock := ack, sent := sent } ∧
      fifo.isSome = s.priv.fifo.isSome) : Invariant file b s' := by
  obtain ⟨fifo, ack, sent, hPriv, hSome⟩ := hPriv
  obtain ⟨hSize, k, ms, hProgress, hCached⟩ := h
  refine ⟨by rw [hPriv]; exact hSize, k, ms, hProgress.congr hPut ?_ ?_ ?_ ?_, fun hState => ?_⟩
  all_goals rw [hPriv] at *
  · exact hSome
  · obtain ⟨hCache, hSorted, hNear⟩ := hCached hState
    exact ⟨hCache, hSorted, hNear⟩

theorem tftpSend_eq (priv : FilePriv) :
    ∃ ack sent, tftpSend priv = { priv with ackBlock := ack, sent := sent } := by
  unfold tftpSend
  split
  · exact ⟨_, _, rfl⟩
  · exact ⟨priv.ackBlock, priv.sent, rfl⟩

theorem Session.read_put (s : Session) (insize : Nat) :
    (s.step maxWindow file b (.read insize)).put = s.put := by
  cases hFifo : s.priv.fifo with
  | none =>
    have hRead : tftpReadFifo s.priv insize = ([], s.priv) := by rw [tftpReadFifo, hFifo]
    simp [Session.step, hRead]
  | some fifo =>
    obtain ⟨hBytes, hPriv⟩ := tftpReadFifo_cases hFifo insize
    have hNew : (tftpReadFifo s.priv insize).2.fifo = some (kfifoGet fifo (insize % 2 ^ 32)).2 := by
      rcases hPriv with hEq | ⟨hEq, _⟩ <;> simp [hEq]
    simp [Session.step, Session.put, held_eq hNew, held_eq hFifo, hBytes, kfifoGet_content]

variable (h : Invariant file b s)
include h

theorem Invariant.read (insize : Nat) :
    Invariant file b (s.step maxWindow file b (.read insize)) := by
  refine h.congr (Session.read_put s insize) ?_
  rcases hFifo : s.priv.fifo with _ | fifo
  · have hRead : (tftpReadFifo s.priv insize).2 = s.priv := by rw [tftpReadFifo, hFifo]
    exact ⟨none, s.priv.ackBlock, s.priv.sent, by simp only [Session.step, hRead, ← hFifo], rfl⟩
  refine ⟨some (kfifoGet fifo (insize % 2 ^ 32)).2, ?_⟩
  rcases (tftpReadFifo_cases hFifo insize).2 with hEq | ⟨hEq, _⟩
  · exact ⟨s.priv.ackBlock, s.priv.sent, hEq, rfl⟩
  · obtain ⟨ack, sent, hSend⟩ :=
      tftpSend_eq { s.priv with fifo := some (kfifoGet fifo (insize % 2 ^ 32)).2 }
    exact ⟨ack, sent, hEq.trans hSend, rfl⟩

theorem Invariant.resend : Invariant file b (s.step maxWindow file b .resend) := by
  simp only [Session.step, Session.poll]
  split
  · exact h
  · obtain ⟨ack, sent, hSend⟩ := tftpSend_eq s.priv
    refine h.congr ?_ ⟨s.priv.fifo, ack, sent, hSend, rfl⟩
    simp [Session.put, held, tftpReadPoll, tftpPoll]

theorem Invariant.giveUp {e : Errno} (he : e ≠ .enomem) (hState : s.priv.state ≠ .done) :
    Invariant file b { s with priv := { s.priv with state := .done, err := some e } } := by
  obtain ⟨hSize, k, ms, hProgress, hCached⟩ := h
  refine ⟨hSize, k, ms, ?_, fun hRun => by cases hRun⟩
  cases hProgress with
  | running received =>
    exact .finished ⟨received.bytes, received.last, received.le⟩ rfl (by simpa using he) (by simp)
  | finished _ hDone | overflow _ _ hDone => exact absurd hDone hState

omit h

def Legal (d : Nat) (file : List UInt8) (b : Nat) (s : Session) : Event → Prop
  | .packet n => Near d file b s n
  | _ => True

instance (d : Nat) (file : List UInt8) (b : Nat) (s : Session) (e : Event) :
    Decidable (Legal d file b s e) :=
  match e with
  | .packet n => inferInstanceAs (Decidable (Near d file b s n))
  | .read _ | .resend | .ctrlc | .timeout => inferInstanceAs (Decidable True)

/-- Every legal event keeps the invariant of the session. -/
theorem Invariant.step (hb : 0 < b) (hLe : b ≤ 1432) (h : Invariant file b s)
    {e : Event} (hLegal : Legal (2 ^ 14) file b s e) :
    Invariant file b (s.step maxWindow file b e) := by
  cases e with
  | packet n => exact h.packet hb hLe hLegal
  | read insize => exact h.read insize
  | resend => exact h.resend
  | ctrlc | timeout =>
    simp only [Session.step, Session.poll]
    split
    next => exact h
    next hState => exact h.giveUp (by decide) hState

end Step

def oackPacket (options : List UInt8) : List UInt8 := be 2 6 ++ options

def Negotiated (maxWindow : Nat) (options : List UInt8) (b w : Nat) : Prop :=
  (tftpRecv maxWindow tftpOpenRead (oackPacket options)).state = .start ∧
    (tftpRecv maxWindow tftpOpenRead (oackPacket options)).blocksize = (b : Int) ∧
    (tftpRecv maxWindow tftpOpenRead (oackPacket options)).windowsize = w

instance (maxWindow : Nat) (options : List UInt8) (b w : Nat) :
    Decidable (Negotiated maxWindow options b w) :=
  inferInstanceAs (Decidable (_ ∧ _))

def Session.start (maxWindow : Nat) (options : List UInt8) : Session :=
  ⟨tftpStartTransfer (tftpRecv maxWindow tftpOpenRead (oackPacket options)), []⟩

theorem tftpRecv_oack (maxWindow : Nat) (options : List UInt8) :
    tftpRecv maxWindow tftpOpenRead (oackPacket options) = tftpOpenRead ∨
      tftpRecv maxWindow tftpOpenRead (oackPacket options) =
      { tftpOpenRead with err := some .einval, state := .done } ∨
      ∃ priv, tftpParseOack maxWindow tftpOpenRead options = .ok priv ∧
        tftpRecv maxWindow tftpOpenRead (oackPacket options) = { priv with state := .start } := by
  have hOp : slice 0 2 (oackPacket options) = be 2 6 := slice_append_middle [] (be 2 6) options
  have hSix : ofBe (be 2 6) = 6 := by decide
  have hRest : (oackPacket options).drop 2 = options := drop_left' (be_length 2 6)
  rw [tftpRecv, hOp, hSix, hRest]
  split
  · exact .inl rfl
  · cases hParse : tftpParseOack maxWindow tftpOpenRead options with
    | error e => exact .inr (.inl rfl)
    | ok priv => exact .inr (.inr ⟨priv, rfl, rfl⟩)

variable {maxWindow b : Nat} (h : Negotiated maxWindow options b w)
include h

theorem Negotiated.spec :
    (0 < b ∧ b ≤ 1432 ∧ 1 ≤ w ∧ w ≤ maxWindow) ∧
      ∃ filesize, tftpRecv maxWindow tftpOpenRead (oackPacket options) =
        { tftpOpenRead with
          state := .start, filesize := filesize, blocksize := b, windowsize := w } := by
  obtain ⟨hState, hSize, hWindow⟩ := h
  rcases tftpRecv_oack maxWindow options with hEq | hEq | ⟨priv, hParse, hEq⟩
  · rw [hEq] at hState; cases hState
  · grind
  · rw [hEq] at hSize hWindow ⊢
    obtain ⟨⟨hNonzero, hMtu, hLow, hHigh⟩, fs, bs, ws, rfl⟩ := tftpParseOack_ok hParse
    grind [tftpMtuSize]

theorem Session.start_eq :
    (kfifoAlloc (b * (w + 2) % 2 ^ 32) = none ∧
      (Session.start maxWindow options).priv.state = .done ∧
        (Session.start maxWindow options).priv.err = some .enomem ∧
        (Session.start maxWindow options).put = [] ∧
        (Session.start maxWindow options).priv.blocksize = (b : Int)) ∨
      ∃ fifo filesize, kfifoAlloc (b * (w + 2) % 2 ^ 32) = some fifo ∧
      (Session.start maxWindow options).priv =
          { tftpOpenRead with
            state := .rdata, filesize := filesize, fifo := some fifo, blocksize := b,
            windowsize := w,
            ackBlock := UInt16.ofNat w, sent := [0] } := by
  obtain ⟨_, filesize, hRecv⟩ := h.spec
  have hArg : (((b : Int) * ((w : Int) + (tftpExtraBlocks : Int))) % 2 ^ 32).toNat =
      b * (w + 2) % 2 ^ 32 := by
    simp only [tftpExtraBlocks]
    norm_cast
  simp only [Session.start, hRecv, tftpStartTransfer, tftpAllocateTransfer, hArg]
  cases hAlloc : kfifoAlloc (b * (w + 2) % 2 ^ 32) with
  | none => exact .inl ⟨rfl, rfl, rfl, rfl, rfl⟩
  | some fifo =>
    refine .inr ⟨fifo, filesize, rfl, ?_⟩
    simp [tftpSend, tftpOpenRead]

omit h
variable {s : Session}

theorem Progress.start {fifo : Kfifo} {size b : Nat} {file : List UInt8}
    (hAlloc : kfifoAlloc size = some fifo)
    (hFifo : s.priv.fifo = some fifo) (hState : s.priv.state = .rdata)
    (hErr : s.priv.err = some .einval)
    (hLast : s.priv.lastBlock = 0) (hDelivered : s.delivered = []) : Progress file b 0 s := by
  refine .running ⟨?_, hLast, zero_le _⟩ hState (zero_le _) (by rw [hFifo]; rfl)
    (by rw [hErr]; simp)
  rw [Session.put, held_eq hFifo, kfifoAlloc_content hAlloc, hDelivered]
  rfl

theorem Invariant.start {maxWindow b w : Nat} {options file : List UInt8}
    (h : Negotiated maxWindow options b w) :
    Invariant file b (Session.start maxWindow options) := by
  rcases Session.start_eq h with ⟨_, hState, hErr, hPut, hSize⟩ | ⟨fifo, filesize, hAlloc, hPriv⟩
  · refine ⟨hSize, 0, [], .overflow 0 [] hState hErr ?_ nil_prefix, fun hRun => ?_⟩
    · rw [hPut]
      rfl
    · rw [hState] at hRun
      cases hRun
  · exact ⟨by rw [hPriv], 0, [], .start hAlloc (by rw [hPriv]) (by rw [hPriv]) (by rw [hPriv]; rfl)
      (by rw [hPriv]; rfl) rfl, fun _ => ⟨by rw [hPriv]; rfl, by simp, by simp⟩⟩

def Session.run (maxWindow : Nat) (file : List UInt8) (b : Nat)
    (s : Session) (events : List Event) : Session :=
  events.foldl (Session.step maxWindow file b) s

/-- A poll whose packets, if it brings any, carry blocks of the file. -/
inductive BlockPoll where
  | ctrlc
  | resend
  | timeout
  | net (blocks : List Nat)

namespace BlockPoll

def toPoll (file : List UInt8) (b : Nat) : BlockPoll → Poll
  | .ctrlc => .ctrlc
  | .resend => .resend
  | .timeout => .timeout
  | .net blocks => .net (blocks.map fun n => dataPacket n (fileBlock file b n))

def events : BlockPoll → List Event
  | .ctrlc => [.ctrlc]
  | .resend => [.resend]
  | .timeout => [.timeout]
  | .net blocks => blocks.map .packet

end BlockPoll

section Reads
variable (maxWindow : Nat) (file : List UInt8) (b : Nat)

/-- What one call of `tftp_read` goes through: the turns of its loop, each followed by what its poll
brings, up to the end of the transfer, the error of a poll or the last byte asked for. -/
def readEvents (priv : FilePriv) (insize : Nat) : List BlockPoll → List Event
  | [] => []
  | p :: polls =>
    if insize = 0 then []
    else if (tftpReadFifo priv insize).2.state = .done then [.read insize]
    else
      .read insize :: p.events ++
        match tftpReadPoll maxWindow (tftpReadFifo priv insize).2 (p.toPoll file b) with
        | (some _, _) => []
        | (none, next) =>
          readEvents next (insize - (tftpReadFifo priv insize).1.length) polls

/-- A call of `tftp_read`, by the size asked for and the polls it makes. -/
def Session.read (s : Session) (call : Nat × List BlockPoll) : Session :=
  ⟨(tftpRead maxWindow s.priv call.1 (call.2.map (·.toPoll file b))).2.2,
    s.delivered ++ (tftpRead maxWindow s.priv call.1 (call.2.map (·.toPoll file b))).2.1⟩

def Session.reads (s : Session) (calls : List (Nat × List BlockPoll)) : Session :=
  calls.foldl (Session.read maxWindow file b) s

/-- The events of one call after the other. -/
def callsEvents (s : Session) : List (Nat × List BlockPoll) → List Event
  | [] => []
  | call :: calls =>
    readEvents maxWindow file b s.priv call.1 call.2 ++
      callsEvents (s.read maxWindow file b call) calls

theorem Session.run_append (s : Session) (events later : List Event) :
    s.run maxWindow file b (events ++ later) =
      (s.run maxWindow file b events).run maxWindow file b later := foldl_append

theorem Session.run_packets (s : Session) (blocks : List Nat) :
    s.run maxWindow file b (blocks.map .packet) =
      { s with
        priv := (blocks.map fun n => dataPacket n (fileBlock file b n)).foldl (tftpRecv maxWindow)
          s.priv } := by
  induction blocks generalizing s with
  | nil => rfl
  | cons n blocks ih => exact ih _

theorem Session.run_poll (h : s.priv.state ≠ .done) (p : BlockPoll) :
    s.run maxWindow file b p.events =
      { s with priv := (tftpReadPoll maxWindow s.priv (p.toPoll file b)).2 } := by
  cases p with
  | ctrlc => exact if_neg h
  | resend => exact if_neg h
  | timeout => exact if_neg h
  | net blocks => exact Session.run_packets maxWindow file b s blocks

/-- A call of `tftp_read` is the run of its events. -/
theorem Session.run_readEvents (polls : List BlockPoll) (s : Session) (insize : Nat) :
    s.run maxWindow file b (readEvents maxWindow file b s.priv insize polls) =
      s.read maxWindow file b (insize, polls) := by
  induction polls generalizing s insize with
  | nil => simp [readEvents, Session.run, Session.read, tftpRead]
  | cons p polls ih =>
    simp only [readEvents, Session.read, map_cons, tftpRead]
    by_cases hSize : insize = 0
    · simp [hSize, Session.run]
    rw [if_neg hSize, if_neg hSize]
    by_cases hDone : (tftpReadFifo s.priv insize).2.state = .done
    · rw [if_pos hDone, if_pos hDone]
      cases (tftpReadFifo s.priv insize).2.err <;> rfl
    rw [if_neg hDone, if_neg hDone, cons_append]
    have hPoll := Session.run_poll maxWindow file b (s := s.step maxWindow file b (.read insize))
      hDone p
    dsimp only [Session.step] at hPoll
    rcases hResult : tftpReadPoll maxWindow (tftpReadFifo s.priv insize).2 (p.toPoll file b) with
      ⟨_ | e, priv⟩
    all_goals rw [hResult] at hPoll
    · have hRest := ih ⟨priv, s.delivered ++ (tftpReadFifo s.priv insize).1⟩
        (insize - (tftpReadFifo s.priv insize).1.length)
      grind [Session.run, Session.step, Session.read]
    · rw [append_nil]
      exact hPoll

theorem Session.run_callsEvents (calls : List (Nat × List BlockPoll)) (s : Session) :
    s.run maxWindow file b (callsEvents maxWindow file b s calls) =
    s.reads maxWindow file b calls := by
  induction calls generalizing s with
  | nil => rfl
  | cons call calls ih =>
    rw [callsEvents, Session.run_append, Session.run_readEvents, ih]
    rfl

end Reads

/-- A turn that takes less than it may leaves an empty fifo. -/
theorem tftpReadFifo_short (priv : FilePriv) (insize : Nat) :
    (tftpReadFifo priv insize).1.length ≤ insize ∧
      (insize < 2 ^ 32 → (tftpReadFifo priv insize).1.length < insize →
        held (tftpReadFifo priv insize).2 = []) := by
  cases hFifo : priv.fifo with
  | none => simp [tftpReadFifo, hFifo, held]
  | some fifo =>
    obtain ⟨hBytes, hPriv⟩ := tftpReadFifo_cases hFifo insize
    have hHeld : held (tftpReadFifo priv insize).2 = fifo.content.drop (insize % 2 ^ 32) := by
      rw [← kfifoGet_content]
      rcases hPriv with hPriv | ⟨hPriv, -⟩ <;> rw [hPriv]
      · exact held_eq rfl
      · exact held_eq (tftpSend_fifo _)
    rw [hBytes, hHeld, length_take, drop_eq_nil_iff]
    have hMod := Nat.mod_le insize (2 ^ 32)
    exact ⟨by omega, fun hSmall => by rw [Nat.mod_eq_of_lt hSmall]; omega⟩

/-- The value of `tftp_read` is the number of bytes copied, and less than was asked for only when
the transfer is done and the fifo is empty; an error is the one that the transfer ended with. -/
structure ReadValue (insize : Nat) (r : Option (Except Errno Nat) × List UInt8 × FilePriv) :
    Prop where
  count : ∀ n, r.1 = some (.ok n) → n = r.2.1.length ∧ n ≤ insize
  short : ∀ n, r.1 = some (.ok n) → insize < 2 ^ 32 → n < insize →
    r.2.2.state = .done ∧ r.2.2.err = none ∧ held r.2.2 = []
  error : ∀ e, r.1 = some (.error e) → r.2.2.state = .done ∧ r.2.2.err = some e

theorem ReadValue.failed {insize : Nat} {e : Errno} (bytes : List UInt8)
    (hDone : priv.state = .done) (hErr : priv.err = some e) :
    ReadValue insize (some (.error e), bytes, priv) :=
  ⟨nofun, nofun, fun _ hEq => by cases hEq; exact ⟨hDone, hErr⟩⟩

/-- The turns in front of a later one only add their bytes. -/
theorem ReadValue.prepend {insize : Nat} {now : List UInt8}
    {r : Option (Except Errno Nat) × List UInt8 × FilePriv} (hNow : now.length ≤ insize)
    (h : ReadValue (insize - now.length) r) :
    ReadValue insize (r.1.map (·.map (now.length + ·)), now ++ r.2.1, r.2.2) := by
  obtain ⟨result, more, priv⟩ := r
  rcases result with _ | e | n
  · exact ⟨nofun, nofun, nofun⟩
  · obtain ⟨hDone, hErr⟩ := h.error e rfl
    exact .failed _ hDone hErr
  · obtain ⟨hLen, hLe⟩ := h.count n rfl
    refine ⟨fun m hEq => ?_, fun m hEq hSmall hLess => ?_, nofun⟩
    all_goals
      have hSum : now.length + n = m := by
        injection hEq with hEq
        injection hEq
    · exact ⟨by rw [← hSum, hLen, length_append], by omega⟩
    · exact h.short n rfl (by omega) (by omega)

theorem tftpRead_value (maxWindow : Nat) (priv : FilePriv) (insize : Nat) (polls : List Poll) :
    ReadValue insize (tftpRead maxWindow priv insize polls) := by
  induction polls generalizing priv insize with
  | nil => by_cases hSize : insize = 0 <;> constructor <;> simp [tftpRead, hSize]
  | cons p polls ih =>
    obtain ⟨hNow, hShort⟩ := tftpReadFifo_short priv insize
    rw [tftpRead]
    by_cases hSize : insize = 0
    · constructor <;> simp [hSize]
    rw [if_neg hSize]
    generalize tftpReadFifo priv insize = turn at hNow hShort ⊢
    obtain ⟨now, next⟩ := turn
    dsimp only at hNow hShort ⊢
    by_cases hDone : next.state = .done
    · rw [if_pos hDone]
      cases hErr : next.err with
      | none =>
        refine ⟨fun _ hEq => ?_, fun _ hEq hSmall hLess => ?_, nofun⟩
        · cases hEq
          exact ⟨rfl, hNow⟩
        · cases hEq
          exact ⟨hDone, hErr, hShort hSmall hLess⟩
      | some e => exact .failed now hDone hErr
    rw [if_neg hDone]
    rcases hPoll : tftpReadPoll maxWindow next p with ⟨_ | e, priv'⟩
    · exact (ih priv' (insize - now.length)).prepend hNow
    · have hEnd : priv'.state = .done ∧ priv'.err = some e := by
        cases p <;> simp [tftpReadPoll, tftpPoll] at hPoll
        all_goals
          obtain ⟨rfl, rfl⟩ := hPoll
          exact ⟨rfl, rfl⟩
      exact .failed now hEnd.1 hEnd.2

/-- Every packet of a run carries a block that is less than `d` from the position
at the moment of its arrival. -/
def Admissible (d maxWindow : Nat) (file : List UInt8) (b : Nat) : Session → List Event → Prop
  | _, [] => True
  | s, e :: events => Legal d file b s e ∧
      Admissible d maxWindow file b (s.step maxWindow file b e) events

/-- By induction on the events: the step lemma at each of them. -/
theorem Invariant.run {maxWindow b : Nat} {file : List UInt8} (hb : 0 < b) (hLe : b ≤ 1432)
    {events : List Event} (h : Invariant file b s)
    (hEvents : Admissible (2 ^ 14) maxWindow file b s events) :
    Invariant file b (s.run maxWindow file b events) := by
  induction events generalizing s with
  | nil => exact h
  | cons e events ih => exact ih (h.step hb hLe hEvents.1) hEvents.2

/-- The bytes put into the fifo are the first blocks of the file, and the transfer
ends without an error only behind the last one. If the fifo was full, a part of
the next block follows. -/
def Reassembled (file : List UInt8) (b : Nat) (s : Session) : Prop :=
  if s.priv.err = some .enomem then
    s.priv.state = .done ∧ ∃ k part, s.put = firstBlocks file b k ++ part ∧
      part <+: fileBlock file b (k + 1)
  else
    ∃ k, s.put = firstBlocks file b k ∧ s.priv.lastBlock = UInt16.ofNat k ∧ k ≤ blockCount file b ∧
      (s.priv.state = .done → s.priv.err = none → k = blockCount file b)

theorem Invariant.reassembled {file : List UInt8} {b : Nat} (h : Invariant file b s) :
    Reassembled file b s := by
  obtain ⟨_, k, _, hProgress, _⟩ := h
  unfold Reassembled
  cases hProgress with
  | running received state _ _ err =>
    rw [if_neg err]
    exact ⟨k, received.bytes, received.last, received.le,
      fun hDone => by rw [state] at hDone; cases hDone⟩
  | finished received _ err final =>
    rw [if_neg err]
    exact ⟨k, received.bytes, received.last, received.le, fun _ => final⟩
  | overflow whole part state err bytes isPart =>
    grind

/-- In every transfer whose packets belong near the position, in any order and
with any losses and duplicates, the fifo gets the blocks of the file in order. -/
theorem tftp_reassembles {maxWindow b : Nat} {file : List UInt8}
    (h : Negotiated maxWindow options b w)
    (events : List Event)
    (hEvents : Admissible (2 ^ 14) maxWindow file b (Session.start maxWindow options) events) :
    Reassembled file b ((Session.start maxWindow options).run maxWindow file b events) := by
  obtain ⟨⟨hb, hLe, _⟩, _⟩ := h.spec
  exact ((Invariant.start h).run hb hLe hEvents).reassembled

def tinyOptions : List UInt8 := ascii "blksize" ++ [0, 49, 0] ++ ascii "windowsize" ++ [0, 49, 0]

theorem tftp_reassembles_sample : Negotiated 1 tinyOptions 1 1 ∧
      Admissible (2 ^ 14) 1 [7, 8] 1 (Session.start 1 tinyOptions)
        [.packet 3, .packet 1, .packet 1, .read 1, .packet 2] ∧
      Reassembled [7, 8] 1 ((Session.start 1 tinyOptions).run 1 [7, 8] 1
        [.packet 3, .packet 1, .packet 1, .read 1, .packet 2]) :=
  have hOptions : Negotiated 1 tinyOptions 1 1 := by decide +kernel
  have hEvents : Admissible (2 ^ 14) 1 [7, 8] 1 (Session.start 1 tinyOptions)
      [.packet 3, .packet 1, .packet 1, .read 1, .packet 2] := by
    simp only [Admissible]
    decide +kernel
  ⟨hOptions, hEvents, tftp_reassembles hOptions _ hEvents⟩

theorem firstBlocks_all {file : List UInt8} {b : Nat} (hb : 0 < b) :
    firstBlocks file b (blockCount file b) = file := by
  have hTake (k : Nat) : firstBlocks file b k = file.take (k * b) := by
    induction k with
    | zero => simp [firstBlocks]
    | succ k ih => rw [firstBlocks_succ, ih, fileBlock, slice,
        Nat.add_sub_cancel, Nat.succ_mul, take_add]
  have hLt := Nat.lt_mul_of_div_lt (Nat.lt_succ_self (file.length / b)) hb
  rw [hTake, take_of_length_le]
  exact hLt.le

def wrapFile : List UInt8 := 1 :: zeros 65537

/-- A transfer of that file in one-byte blocks between two events, with `k` blocks
put, `pending` in the fifo and the given cache. -/
structure Steady (k a : Nat) (pending : List UInt8) (cache : List TftpBlock) (s : Session) :
    Prop where
  state : s.priv.state = .rdata
  blocksize : s.priv.blocksize = ((1 : Nat) : Int)
  windowsize : s.priv.windowsize = 1
  last : s.priv.lastBlock = UInt16.ofNat k
  ack : s.priv.ackBlock = UInt16.ofNat a
  cache_eq : s.priv.cache = cache
  fifo : ∃ fifo, s.priv.fifo = some fifo ∧ fifo.content = pending ∧ fifo.size = 4
  put : s.put = firstBlocks wrapFile 1 k

theorem cons_zeros_length (n : Nat) : (1 :: zeros n).length / 1 = n + 1 := by simp
theorem wrapFile_length : wrapFile.length / 1 = 65538 := by rw [wrapFile, cons_zeros_length]

theorem wrapFile_block {k : Nat} (h : k ≤ 65537) : (fileBlock wrapFile 1 (k + 1)).length = 1 :=
  fileBlock_full (by rw [wrapFile_length]; omega)

section Steady
variable {k a : Nat} {cache : List TftpBlock} {s : Session} {pending : List UInt8}

theorem Steady.position_eq (h : Steady k a pending cache s) (hk : k ≤ 65538) :
    s.position 1 = k := by
  rw [Session.position, h.put, firstBlocks_length (by rw [wrapFile_length]; exact hk),
    Nat.mul_one, Nat.div_one]

theorem Steady.near_next (h : Steady k a pending cache s) (hk : k ≤ 65537) :
    Near (2 ^ 15) wrapFile 1 s (k + 1) := by
  have hPos := h.position_eq (by omega)
  have hCount : blockCount wrapFile 1 = 65539 := by rw [blockCount, wrapFile_length]
  simp [Near]
  omega

theorem Steady.putNext (h : Steady k a [] cache s) (hk : k ≤ 65537) :
    ∃ priv, Steady (k + 1) a (fileBlock wrapFile 1 (k + 1)) cache { s with priv := priv } ∧
      s.step 1 wrapFile 1 (.packet (k + 1)) = { s with priv := applyBlocks priv cache } := by
  obtain ⟨fifo, hFifo, hContent, hSize⟩ := h.fifo
  have hLen : kfifoLen fifo = 0 := by rw [← fifo.content_length, hContent]; rfl
  have hData := wrapFile_block hk
  have hCount : (kfifoPut fifo (fileBlock wrapFile 1 (k + 1))).1 =
      (fileBlock wrapFile 1 (k + 1)).length := by
    rw [kfifoPut_count, hData, hLen, hSize]
    rfl
  have hPut := put_putData hFifo (fileBlock wrapFile 1 (k + 1))
    { s.priv with
      lastBlock := UInt16.ofNat (k + 1),
      fifo := some (kfifoPut fifo (fileBlock wrapFile 1 (k + 1))).2 } rfl
  rw [hCount, take_length] at hPut
  have hNext : s.priv.lastBlock + 1 = UInt16.ofNat (k + 1) := by simp [h.last]
  have hFull : k + 1 ≤ wrapFile.length / 1 := by rw [wrapFile_length]; omega
  refine ⟨{ s.priv with
      lastBlock := UInt16.ofNat (k + 1),
      fifo := some (kfifoPut fifo (fileBlock wrapFile 1 (k + 1))).2 },
    { h with last := rfl, fifo := ⟨_, rfl, ?_, ?_⟩, put := ?_ }, ?_⟩
  · simp [kfifoPut_content, hContent, hCount]
  · simp [hSize]
  · rw [hPut, h.put, firstBlocks_succ]
  obtain rfl := h.cache_eq
  simp only [Session.step, tftpRecv_dataPacket, tftpRecvData_rdata h.state, tftpHandleData]
  rw [if_pos hNext, tftpApplyWindowCache, (tftpPutData_frame _ _ _).1]
  rcases tftpPutData_cases (by decide) (by decide) h.blocksize hFifo (le_of_succ_le hFull) with
    ⟨hNo, _⟩ | ⟨_, hNo, _⟩ | ⟨_, _, hEq⟩
  · exact absurd hCount hNo
  · grind [blockCount]
  · rw [hEq]

theorem Steady.readByte (h : Steady k k pending cache s) (hPending : pending.length = 1) :
    Steady k (k + 1) [] cache (s.step 1 wrapFile 1 (.read 1)) := by
  obtain ⟨fifo, hFifo, hContent, hSize⟩ := h.fifo
  have hEmpty : (kfifoGet fifo 1).2.content = [] := by grind [kfifoGet_content]
  have hLen : kfifoLen (kfifoGet fifo 1).2 = 0 := by rw [← Kfifo.content_length, hEmpty]; rfl
  have hRead : tftpReadFifo s.priv 1 = ((kfifoGet fifo 1).1,
      tftpSend { s.priv with fifo := some (kfifoGet fifo 1).2 }) := by
    rw [tftpReadFifo, hFifo]
    simp only
    rw [if_pos ⟨by simp [h.state], by rw [h.last, h.ack], by simp [hLen]⟩]
    rfl
  simp only [Session.step, hRead]
  refine ⟨?_, ?_, ?_, ?_, ?_, ?_, ⟨_, tftpSend_fifo _, hEmpty, hSize⟩, ?_⟩
  · simp [h.state]
  · simpa using h.blocksize
  · simp [h.windowsize]
  · simp [h.last]
  · simp [tftpSend, h.state, h.last, h.windowsize]
  · simp [h.cache_eq]
  have hHeld : held (tftpSend { s.priv with fifo := some (kfifoGet fifo 1).2 }) = [] := by
    rw [held_eq (tftpSend_fifo _), hEmpty]
  rw [Session.put, hHeld, ← h.put, Session.put, held_eq hFifo, kfifoGet_bytes, hContent, append_nil,
    ← hPending, take_length]

/-- A cache that the loop leaves alone when it looks for block `k + 1`. -/
def Stays (k : Nat) (cache : List TftpBlock) : Prop :=
  cache = [] ∨ cache = [cacheEntry wrapFile 1 1] ∧ 32768 ≤ k ∧ k ≤ 65535

theorem Stays.applyBlocks_eq (h : Stays k cache) (hState : s.priv.state = .rdata)
    (hLast : s.priv.lastBlock = UInt16.ofNat k) (hCache : s.priv.cache = cache) :
    applyBlocks s.priv cache = s.priv := by
  obtain rfl := hCache
  rcases h with hNil | ⟨hOne, hLow, hHigh⟩
  · rw [hNil, applyBlocks, ← hNil]
  have hSucc : s.priv.lastBlock + 1 = UInt16.ofNat (k + 1) := by simp [hLast]
  have hId : (cacheEntry wrapFile 1 1).id = UInt16.ofNat 65537 := rfl
  have hNe : UInt16.ofNat 65537 ≠ UInt16.ofNat (k + 1) := by
    rw [Ne, UInt16.ofNat_inj_of_near (by omega) (by omega)]
    omega
  -- seen from here, the number one stands for the block 65537, still to come
  have hBefore : isBlockBefore (UInt16.ofNat 65537) (UInt16.ofNat (k + 1)) = false := by
    rcases lt_or_ge 32768 k with hFar | hEdge
    · rw [isBlockBefore_ofNat (by omega) (by omega)]
      simp
      omega
    · obtain rfl : k = 32768 := by omega
      decide
  rw [hOne, applyBlocks, if_neg (by simp [hState]), hSucc, hId,
    hBefore, if_neg (by simp), if_pos hNe, ← hOne]

theorem Steady.round (h : Steady k (k + 1) [] cache s) (hk : k ≤ 65537)
    (hStays : Stays (k + 1) cache) :
    Admissible (2 ^ 15) 1 wrapFile 1 s [.packet (k + 1), .read 1] ∧
      Steady (k + 1) (k + 2) [] cache (s.run 1 wrapFile 1 [.packet (k + 1), .read 1]) := by
  obtain ⟨priv, hPut, hStep⟩ := h.putNext hk
  have hApply : applyBlocks priv cache = priv :=
    hStays.applyBlocks_eq hPut.state hPut.last hPut.cache_eq
  rw [hApply] at hStep
  refine ⟨⟨h.near_next hk, trivial, trivial⟩, ?_⟩
  simp only [Session.run, foldl_cons, foldl_nil]
  rw [hStep]
  exact hPut.readByte (wrapFile_block hk)

theorem Admissible.append {d maxWindow b : Nat} {file : List UInt8}
    {events more : List Event} {s : Session}
    (h : Admissible d maxWindow file b s events)
    (hMore : Admissible d maxWindow file b (s.run maxWindow file b events) more) :
    Admissible d maxWindow file b s (events ++ more) := by
  induction events generalizing s with
  | nil => exact hMore
  | cons e events ih => exact ⟨h.1, ih h.2 hMore⟩

theorem Steady.rounds (n : Nat) (h : Steady k (k + 1) [] cache s) (hk : k + n ≤ 65535)
    (hStays : ∀ j, k < j → j ≤ k + n → Stays j cache) :
    ∃ events, Admissible (2 ^ 15) 1 wrapFile 1 s events ∧
      Steady (k + n) (k + n + 1) [] cache (s.run 1 wrapFile 1 events) := by
  induction n with
  | zero => exact ⟨[], trivial, h⟩
  | succ n ih =>
    obtain ⟨events, hEvents, hSteady⟩ := ih (by omega) fun j hj hLe => hStays j hj (by omega)
    obtain ⟨hRound, hNext⟩ := hSteady.round (by omega) (hStays (k + n + 1) (by omega) (by omega))
    refine ⟨events ++ [.packet (k + n + 1), .read 1], hEvents.append hRound, ?_⟩
    grind [Session.run]

end Steady

theorem steady_start : Steady 0 1 [] [] (Session.start 1 tinyOptions) := by
  have hOptions : Negotiated 1 tinyOptions 1 1 := by decide +kernel
  rcases Session.start_eq hOptions with ⟨hNone, _⟩ | ⟨fifo, filesize, hAlloc, hPriv⟩
  · exact absurd hNone (by decide)
  have hContent := kfifoAlloc_content hAlloc
  have hSize : fifo.size = 4 := by
    cases hAlloc
    decide
  have hFifo : (Session.start 1 tinyOptions).priv.fifo = some fifo := congrArg FilePriv.fifo hPriv
  refine ⟨congrArg state hPriv, congrArg blocksize hPriv, congrArg windowsize hPriv,
    congrArg lastBlock hPriv, congrArg ackBlock hPriv, congrArg cache hPriv,
    ⟨fifo, hFifo, hContent, hSize⟩, ?_⟩
  rfl

theorem Steady.cacheFirst {pending : List UInt8} (h : Steady 32767 32767 pending [] s) :
    Near (2 ^ 15) wrapFile 1 s 1 ∧
      Steady 32767 32767 pending [cacheEntry wrapFile 1 1] (s.step 1 wrapFile 1 (.packet 1)) := by
  have hPos := h.position_eq (by decide)
  have hCount : blockCount wrapFile 1 = 65539 := by rw [blockCount, wrapFile_length]
  refine ⟨by simp only [Near, hPos, hCount]; omega, ?_⟩
  have hData : fileBlock wrapFile 1 1 = [1] := rfl
  have hStep : s.step 1 wrapFile 1 (.packet 1) =
      { s with priv := { s.priv with cache := [cacheEntry wrapFile 1 1] } } := by
    simp only [Session.step, tftpRecv_dataPacket, tftpRecvData_rdata h.state, tftpHandleData]
    rw [h.last, h.ack, h.cache_eq, if_neg (by decide), if_neg (by decide),
      tftpWindowCacheInsert, hData]
    rfl
  rw [hStep]
  exact { h with cache_eq := rfl }

theorem Steady.wrap (h : Steady 65535 65536 [] [cacheEntry wrapFile 1 1] s) :
    (s.step 1 wrapFile 1 (.packet 65536)).priv.state = .rdata ∧
      (s.step 1 wrapFile 1 (.packet 65536)).put = firstBlocks wrapFile 1 65536 ++
      fileBlock wrapFile 1 1 := by
  obtain ⟨priv, hPut, hStep⟩ := h.putNext (by decide)
  obtain ⟨fifo, hFifo, hContent, hSize⟩ := hPut.fifo
  have hLast : priv.lastBlock + 1 = 1 := by
    rw [show priv.lastBlock = UInt16.ofNat 65536 from hPut.last]; decide
  have hLen : kfifoLen fifo = 1 := by
    rw [← fifo.content_length, hContent]; exact wrapFile_block (by decide)
  have hCount : (kfifoPut fifo [1]).1 = 1 := by
    rw [kfifoPut_count, hLen, hSize]
    rfl
  have hLimit : blockLimit priv = 1 := blockLimit_eq hPut.blocksize (by decide)
  have hApply : applyBlocks priv [cacheEntry wrapFile 1 1] =
      { priv with lastBlock := 1, fifo := some (kfifoPut fifo [1]).2, cache := [] } := by
    have hEntry : cacheEntry wrapFile 1 1 = ⟨1, [1]⟩ := rfl
    have hState : priv.state = .rdata := hPut.state
    have hSame : blockLimit { priv with lastBlock := 1, fifo := some (kfifoPut fifo [1]).2 } =
        1 := hLimit
    have hNew : tftpPutData priv 1 [1] =
        { priv with lastBlock := 1, fifo := some (kfifoPut fifo [1]).2 } := by
      rw [tftpPutData, hLimit, if_neg (by decide), show priv.fifo = some fifo from hFifo]
      simp [hCount, hSame]
    rw [hEntry, applyBlocks, if_neg (by simp [hState]), hLast,
      if_neg (by decide), if_neg (by simp), hNew]
    rfl
  rw [hStep, hApply]
  refine ⟨hPut.state, ?_⟩
  have hBytes :=
    put_putData hFifo
      [1] { priv with lastBlock := 1, fifo := some (kfifoPut fifo [1]).2, cache := [] } rfl
  rw [hCount] at hBytes
  exact hBytes.trans (congrArg (· ++ [1]) hPut.put)

theorem firstBlocks_prefix_of_le (file : List UInt8) (b : Nat) {j k : Nat} (h : j ≤ k) :
    firstBlocks file b j <+: firstBlocks file b k := by
  induction k, h using le_induction with
  | base => exact List.prefix_refl _
  | succ k _ ih => exact ih.trans (by rw [firstBlocks_succ]; exact List.prefix_append _ _)

/-- The first block does not belong behind the first 65536 blocks. -/
theorem wrapFile_not_firstBlocks (k : Nat) :
    firstBlocks wrapFile 1 65536 ++ fileBlock wrapFile 1 1 ≠ firstBlocks wrapFile 1 k := by
  intro hEq
  have hLen := congrArg List.length hEq
  rw [length_append, firstBlocks_length (by rw [wrapFile_length]; decide)] at hLen
  rcases lt_or_ge 65536 k with hLt | hGe
  · obtain ⟨rest, hRest⟩ := firstBlocks_prefix_of_le wrapFile 1 (succ_le_of_lt hLt)
    have hZero : fileBlock wrapFile 1 (65536 + 1) = [0] := by
      rw [fileBlock, wrapFile]
      exact (slice_append_right [1] (zeros 65537) 65535 1).trans (slice_zeros (by decide))
    have hSucc := firstBlocks_succ wrapFile 1 65536
    rw [← hRest, succ_eq_add_one, hSucc, append_assoc, hZero] at hEq
    exact absurd (append_cancel_left hEq) (by simp [fileBlock, wrapFile, slice])
  · rw [firstBlocks_length (by rw [wrapFile_length]; omega)] at hLen
    have hOne : (fileBlock wrapFile 1 1).length = 1 := wrapFile_block (k := 0) (by decide)
    omega

theorem wrap_run : ∃ events, Admissible (2 ^ 15) 1 wrapFile 1 (Session.start 1 tinyOptions) events ∧
    ((Session.start 1 tinyOptions).run 1 wrapFile 1 events).priv.state = .rdata ∧
    ((Session.start 1 tinyOptions).run 1 wrapFile 1 events).put =
      firstBlocks wrapFile 1 65536 ++ fileBlock wrapFile 1 1 := by
  obtain ⟨first, hFirst, hSteady⟩ := steady_start.rounds 32766 (by decide) fun _ _ _ => .inl rfl
  obtain ⟨priv, hPut, hStep⟩ := hSteady.putNext (by decide)
  have hApply : applyBlocks priv [] = priv :=
    Stays.applyBlocks_eq (.inl rfl) hPut.state hPut.last hPut.cache_eq
  rw [hApply] at hStep
  obtain ⟨hOld, hCached⟩ := hPut.cacheFirst
  obtain ⟨second, hSecond, hLast⟩ :=
    (hCached.readByte (wrapFile_block (by decide))).rounds 32768 (by decide)
    fun j hj hLe => .inr ⟨rfl, hj, hLe⟩
  obtain ⟨hState, hWrong⟩ := hLast.wrap
  rw [← hStep] at hOld hSecond hLast hState hWrong
  refine ⟨first ++ ([.packet 32767, .packet 1, .read 1] ++ (second ++ [.packet 65536])), ?_, ?_, ?_⟩
  · have hNext : Near (2 ^ 15) wrapFile 1 _ 32767 := hSteady.near_next (by decide)
    have hEnd : Near (2 ^ 15) wrapFile 1 _ 65536 := hLast.near_next (by decide)
    apply hFirst.append
    exact ⟨hNext, hOld, trivial, hSecond.append ⟨hEnd, trivial⟩⟩
  · simp only [Session.run, foldl_append, foldl_cons, foldl_nil]
    exact hState
  · simp only [Session.run, foldl_append, foldl_cons, foldl_nil]
    exact hWrong

/-- A duplicate of the first block, 32766 blocks old when it arrives, is put into
the fifo again in place of block 65537; and five blocks that nobody reads do not
fit into the fifo. -/
theorem reassembly_breaks : Negotiated 1 tinyOptions 1 1 ∧
      (∃ events, Admissible (2 ^ 15) 1 wrapFile 1 (Session.start 1 tinyOptions) events ∧
        ((Session.start 1 tinyOptions).run 1 wrapFile 1 events).priv.state = .rdata ∧
        ∀ k, ((Session.start 1 tinyOptions).run 1 wrapFile 1 events).put ≠
        firstBlocks wrapFile 1 k) ∧
      Admissible (2 ^ 15) 1 [1, 2, 3, 4, 5] 1 (Session.start 1 tinyOptions)
        [.packet 1, .packet 2, .packet 3, .packet 4, .packet 5] ∧
      ((Session.start 1 tinyOptions).run 1 [1, 2, 3, 4, 5] 1
        [.packet 1, .packet 2, .packet 3, .packet 4, .packet 5]).priv.lastBlock = 5 ∧
      ((Session.start 1 tinyOptions).run 1 [1, 2, 3, 4, 5] 1
        [.packet 1, .packet 2, .packet 3, .packet 4, .packet 5]).put = [1, 2, 3, 4] := by
  refine ⟨by decide +kernel, ?_, ?_, by decide +kernel, by decide +kernel⟩
  · obtain ⟨events, hEvents, hState, hPut⟩ := wrap_run
    exact ⟨events, hEvents, hState, fun k => by rw [hPut]; exact wrapFile_not_firstBlocks k⟩
  · simp only [Admissible]
    decide +kernel

end Barebox.Tftp
