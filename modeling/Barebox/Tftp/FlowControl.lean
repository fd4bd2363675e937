import Barebox.Tftp.Reassembly

/-! Flow control between the server, the fifo and the reader. The server sends at
most a window of blocks beyond the last acknowledgement it heard; the client
acknowledges when the fifo is nearly empty, or when the server is silent. -/
namespace Barebox.Tftp
open Bytes Barebox.Lib Nat FilePriv

/-- The block that the newest acknowledgement of a log means. Every one is taken
for the next number, from the one before it on, with these sixteen low bits. -/
def ackPosition : List UInt16 → Nat
  | [] => 0
  | id :: older => ackPosition older + (id - UInt16.ofNat (ackPosition older)).toNat

theorem ackPosition_drop_le (sent : List UInt16) (i : Nat) :
    ackPosition (sent.drop i) ≤ ackPosition sent := by
  induction sent generalizing i with
  | nil => simp
  | cons id older ih =>
    cases i with
    | zero => exact le_rfl
    | succ i => exact le_trans (ih i) (le_add_right _ _)

structure Exchange where
  session : Session
  heard : Nat

/-- What happens at the client, or an acknowledgement arrives at the server: the
one in front of the `i` newest. -/
inductive Action where
  | client (e : Event)
  | hear (i : Nat)
  deriving DecidableEq

namespace Exchange

def step (maxWindow : Nat) (file : List UInt8) (b : Nat) (x : Exchange) : Action → Exchange
  | .client e => { x with session := x.session.step maxWindow file b e }
  | .hear i => { x with heard := max x.heard (ackPosition (x.session.priv.sent.drop i)) }

def run (maxWindow : Nat) (file : List UInt8) (b : Nat) (x : Exchange) (actions : List Action) :
    Exchange :=
  actions.foldl (step maxWindow file b) x

/-- The beginning: the request counts as an acknowledgement of block zero. -/
def start (maxWindow : Nat) (options : List UInt8) : Exchange :=
  ⟨Session.start maxWindow options, 0⟩

end Exchange

/-- The server sends no block beyond its window, and resends are reported only in
some sessions. -/
def Permitted (onResend : Session → Prop) (file : List UInt8) (b w : Nat) (x : Exchange) :
    Action → Prop
  | .client (.packet n) => x.heard < n ∧ n ≤ x.heard + w ∧ n ≤ blockCount file b
  | .client .resend => onResend x.session
  | _ => True

def Served (onResend : Session → Prop) (maxWindow : Nat) (file : List UInt8) (b w : Nat) :
    Exchange → List Action → Prop
  | _, [] => True
  | x, a :: actions =>
    Permitted onResend file b w x a ∧
      Served onResend maxWindow file b w (x.step maxWindow file b a) actions

/-- The queue has room for a window. -/
def WindowFits (s : Session) : Prop :=
  match s.priv.fifo with
  | some fifo => kfifoLen fifo + s.priv.windowsize * blockLimit s.priv ≤ fifo.size
  | none => True

instance : DecidablePred WindowFits := fun s =>
  match h : s.priv.fifo with
  | some fifo =>
    decidable_of_iff (kfifoLen fifo + s.priv.windowsize * blockLimit s.priv ≤ fifo.size)
      (by rw [WindowFits, h])
  | none => .isTrue (by rw [WindowFits, h]; trivial)

instance (onResend : Session → Prop) [DecidablePred onResend]
    (file : List UInt8) (b w : Nat) (x : Exchange)
    (a : Action) : Decidable (Permitted onResend file b w x a) :=
  match a with
  | .client (.packet n) =>
      inferInstanceAs (Decidable (x.heard < n ∧ n ≤ x.heard + w ∧ n ≤ blockCount file b))
  | .client .resend => inferInstanceAs (Decidable (onResend x.session))
  | .client (.read _) | .client .ctrlc | .client .timeout | .hear _ => .isTrue trivial

instance decidableServed (onResend : Session → Prop) [DecidablePred onResend]
    (maxWindow : Nat) (file : List UInt8)
    (b w : Nat) : ∀ x actions, Decidable (Served onResend maxWindow file b w x actions)
  | _, [] => .isTrue trivial
  | x, a :: actions =>
    have := decidableServed onResend maxWindow file b w (x.step maxWindow file b a) actions
    inferInstanceAs (Decidable (Permitted onResend file b w x a ∧ _))

/-- The fifo has room for all that the server may still send: after `k` blocks, up
to a window beyond the last acknowledgement sent. -/
structure Flow (b w heard k : Nat) (priv : FilePriv) : Prop where
  heard_le : heard ≤ ackPosition priv.sent
  acked_le : ackPosition priv.sent ≤ k
  le : k ≤ heard + w
  room : ∃ fifo, priv.fifo = some fifo ∧ (w + 2) * b ≤ fifo.size ∧
    kfifoLen fifo + (ackPosition priv.sent + w - k) * b ≤ fifo.size

structure Controlled (file : List UInt8) (b w heard k : Nat)
    (delivered : List UInt8) (priv : FilePriv) : Prop where
  blocksize : priv.blocksize = (b : Int)
  windowsize : priv.windowsize = w
  progress : Progress file b k ⟨priv, delivered⟩
  err : priv.err ≠ some .enomem
  flow : priv.state = .rdata → Flow b w heard k priv

section Steps
variable {file delivered : List UInt8} {b w heard k : Nat}

theorem Controlled.putData {priv : FilePriv} (hb : 0 < b) (hLe : b ≤ 1432)
    (h : Controlled file b w heard k delivered priv) (hState : priv.state = .rdata)
    (hAllowed : k + 1 ≤ heard + w) :
    Controlled file b w heard (k + 1) delivered
      (tftpPutData priv (UInt16.ofNat (k + 1)) (fileBlock file b (k + 1))) := by
  obtain ⟨_, hSize', hWindow'⟩ :=
    tftpPutData_frame priv (UInt16.ofNat (k + 1)) (fileBlock file b (k + 1))
  obtain ⟨hHeard, hAcked, _, fifo, hFifo, hCapacity, hRoom⟩ := h.flow hState
  have hFull : k ≤ file.length / b := by
    cases h.progress with
    | running _ _ full => exact full
    | finished _ hDone | overflow _ _ hDone => exact absurd (hDone.symm.trans hState) (by decide)
  -- one block of the window is used up
  have hWindow : (ackPosition priv.sent + w - k) * b =
      (ackPosition priv.sent + w - (k + 1)) * b + b := by
    rw [← succ_mul]
    congr 1
    omega
  have hData := fileBlock_length_le file b (k + 1)
  have hCount : (kfifoPut fifo (fileBlock file b (k + 1))).1 =
      (fileBlock file b (k + 1)).length := by
    rw [kfifoPut_count]
    omega
  refine ⟨hSize'.trans h.blocksize, hWindow'.trans h.windowsize,
    h.progress.putData hb hLe h.blocksize hState, ?_, ?_⟩
  all_goals
    rcases tftpPutData_cases (s := ⟨priv, delivered⟩) hb hLe h.blocksize hFifo hFull with
      ⟨hNo, _⟩ | ⟨_, _, hEq⟩ | ⟨_, _, hEq⟩
  · exact absurd hCount hNo
  · simp only at hEq
    rw [hEq]
    simp
  · grind [h.err]
  · exact absurd hCount hNo
  · simp only at hEq
    rw [hEq]
    intro hRun
    cases hRun
  simp only at hEq
  rw [hEq]
  refine fun _ => ⟨hHeard, by simpa using le_succ_of_le hAcked, hAllowed, _, rfl, hCapacity, ?_⟩
  have hLen : kfifoLen (kfifoPut fifo (fileBlock file b (k + 1))).2 ≤ kfifoLen fifo + b := by
    grind [Kfifo.content_length, kfifoPut_content]
  simp only [kfifoPut_size]
  omega

theorem Controlled.send {priv : FilePriv} {fifo : Kfifo} (hw : w < 2 ^ 16)
    (h : Controlled file b w heard k delivered priv)
    (hFifo : priv.fifo = some fifo) (hRoom : kfifoLen fifo + w * b ≤ fifo.size) :
    Controlled file b w heard k delivered (tftpSend priv) := by
  refine ⟨by simpa using h.blocksize, by simpa using h.windowsize, h.progress.congr ?_ ?_ ?_ ?_ ?_,
    by simpa using h.err, fun hRun => ?_⟩
  · simp [Session.put, held]
  · simp
  · simp
  · simp
  · simp
  rw [tftpSend_state] at hRun
  obtain ⟨hHeard, hAcked, hUpper, fifo', hFifo', hCapacity, _⟩ := h.flow hRun
  obtain rfl : fifo = fifo' := by simpa [hFifo] using hFifo'
  have hSent : (tftpSend priv).sent = UInt16.ofNat k :: priv.sent := by
    have hLast : priv.lastBlock = UInt16.ofNat k := h.progress.last_eq hRun
    simp [tftpSend, hRun, hLast]
  have hAck : ackPosition (tftpSend priv).sent = k := by
    simp [hSent, ackPosition, UInt16.toNat_sub]
    omega
  refine ⟨by rw [hAck]; exact le_trans hHeard hAcked, le_of_eq hAck,
    hUpper, fifo, by simpa using hFifo, hCapacity, ?_⟩
  simp [hAck, hRoom]

theorem Controlled.read (hb : 0 < b) (hLe : b ≤ 1432) (hw : w < 2 ^ 16)
    (insize : Nat) {maxWindow : Nat}
    {s : Session} (h : Controlled file b w heard k s.delivered s.priv) :
    Controlled file b w heard k (s.step maxWindow file b (.read insize)).delivered
      (s.step maxWindow file b (.read insize)).priv := by
  rcases hFifo : s.priv.fifo with _ | fifo
  · have hRead : tftpReadFifo s.priv insize = ([], s.priv) := by rw [tftpReadFifo, hFifo]
    simp [Session.step, hRead, h]
  obtain ⟨hBytes, hPriv⟩ := tftpReadFifo_cases hFifo insize
  have hLess : kfifoLen (kfifoGet fifo (insize % 2 ^ 32)).2 ≤ kfifoLen fifo := by
    grind [Kfifo.content_length, kfifoGet_content]
  have hTaken : Controlled file b w heard k (s.step maxWindow file b (.read insize)).delivered
      { s.priv with fifo := some (kfifoGet fifo (insize % 2 ^ 32)).2 } := by
    refine ⟨h.blocksize, h.windowsize, h.progress.congr ?_ rfl rfl rfl (by simp [hFifo]),
      h.err, fun hRun => ?_⟩
    · simp only [Session.step, Session.put]
      rw [held_eq rfl, held_eq hFifo, hBytes, kfifoGet_content,
        List.append_assoc, List.take_append_drop]
    · obtain ⟨hHeard, hAcked, hUpper, fifo', hFifo', hCapacity, hRoom⟩ := h.flow hRun
      obtain rfl : fifo = fifo' := by simpa [hFifo] using hFifo'
      exact ⟨hHeard, hAcked, hUpper, _, rfl, hCapacity,
        Nat.le_trans (Nat.add_le_add_right hLess _) hRoom⟩
  change Controlled _ _ _ _ _ _ (tftpReadFifo s.priv insize).2
  rcases hPriv with hEq | ⟨hEq, hLittle⟩
  · grind
  rw [hEq]
  by_cases hRun : s.priv.state = .rdata
  · obtain ⟨_, _, _, fifo', hFifo', hCapacity, _⟩ := h.flow hRun
    obtain rfl : fifo = fifo' := by simpa [hFifo] using hFifo'
    refine hTaken.send hw rfl ?_
    have hExtra : ((tftpExtraBlocks * s.priv.blocksize) % 2 ^ 32).toNat = 2 * b := by
      rw [h.blocksize, tftpExtraBlocks]
      omega
    grind [kfifoGet_size]
  · have hSend : tftpSend { s.priv with fifo := some (kfifoGet fifo (insize % 2 ^ 32)).2 } =
        { s.priv with fifo := some (kfifoGet fifo (insize % 2 ^ 32)).2 } := if_neg hRun
    rw [hSend]
    exact hTaken

end Steps

def Guarded (file : List UInt8) (b w : Nat) (x : Exchange) : Prop :=
  ∃ k ms, Controlled file b w x.heard k x.session.delivered x.session.priv ∧
    (x.session.priv.state = .rdata → Cached file b k ms x.session.priv ∧ ∀ m ∈ ms, m ≤ x.heard + w)

section Exchange
variable {file : List UInt8} {b w maxWindow : Nat} {x : Exchange}

theorem Guarded.packet (hb : 0 < b) (hLe : b ≤ 1432) (hw : w ≤ 128)
    (h : Guarded file b w x) {n : Nat}
    (hLow : x.heard < n) (hHigh : n ≤ x.heard + w) :
    Guarded file b w (x.step maxWindow file b (.client (.packet n))) := by
  obtain ⟨k, ms, hControlled, hCached⟩ := h
  simp only [Exchange.step, Session.step, tftpRecv_dataPacket]
  rcases hControlled.progress.state_cases with hState | hState
  · rw [tftpRecvData_rdata hState]
    obtain ⟨hHeard, hAcked, hUpper, _⟩ := hControlled.flow hState
    obtain ⟨hCache, hAllowed⟩ := hCached hState
    obtain ⟨k', ms', hControlled', hAllowed', hCached'⟩ :=
      tftpHandleData_rule (fun k priv => Controlled file b w x.heard k x.session.delivered priv)
        (· ≤ x.heard + w)
        (fun k priv hP => hP.progress.last_eq)
        (fun k priv hP hRun hNext => hP.putData hb hLe hRun hNext)
        (fun k priv cache hP =>
          { hP with
            progress := hP.progress.congr rfl rfl rfl rfl rfl,
            flow := fun hRun => { (hP.flow hRun) with } })
        (by omega) hState hControlled hCache hAllowed hHigh (by omega)
    exact ⟨k', ms', hControlled', fun hRun => ⟨hCached' hRun, hAllowed'⟩⟩
  · rw [tftpRecvData_done hState]
    exact ⟨k, ms, hControlled, hCached⟩

theorem Guarded.client (h : Guarded file b w x) {s : Session}
    (hState : s.priv.state = .rdata → x.session.priv.state = .rdata)
    (hCache : s.priv.cache = x.session.priv.cache)
    (hControlled : ∀ k, Controlled file b w x.heard k x.session.delivered x.session.priv →
      Controlled file b w x.heard k s.delivered s.priv) :
    Guarded file b w { x with session := s } := by
  obtain ⟨k, ms, hOld, hCached⟩ := h
  refine ⟨k, ms, hControlled k hOld, fun hRun => ?_⟩
  obtain ⟨⟨hEq, hSorted, hNear⟩, hAllowed⟩ := hCached (hState hRun)
  exact ⟨⟨hCache.trans hEq, hSorted, hNear⟩, hAllowed⟩

theorem Guarded.resend (hLe : b ≤ 1432) (hw : w ≤ 128) (h : Guarded file b w x)
    (hFits : WindowFits x.session) :
    Guarded file b w (x.step maxWindow file b (.client .resend)) := by
  simp only [Exchange.step, Session.step, Session.poll]
  split
  next => exact h
  next hDone =>
    refine h.client (fun hRun => by simpa [tftpReadPoll, tftpPoll] using hRun)
      (by simp [tftpReadPoll, tftpPoll])
      fun k hOld => ?_
    have hRun : x.session.priv.state = .rdata := hOld.progress.state_cases.resolve_right hDone
    obtain ⟨_, _, _, fifo, hFifo, _⟩ := hOld.flow hRun
    rw [WindowFits, hFifo] at hFits
    simp only [hOld.windowsize, blockLimit_eq hOld.blocksize hLe] at hFits
    exact hOld.send (by omega) hFifo hFits

theorem Guarded.giveUp (h : Guarded file b w x) {e : Errno} (he : e ≠ .enomem)
    (hDone : x.session.priv.state ≠ .done) :
    Guarded file b w
      { x with
        session := { x.session with
          priv := { x.session.priv with state := .done, err := some e } } } := by
  refine h.client nofun rfl fun k hOld =>
    ⟨hOld.blocksize, hOld.windowsize, ?_, by simpa using he, nofun⟩
  cases hOld.progress with
  | running received =>
    exact .finished ⟨received.bytes, received.last, received.le⟩ rfl (by simpa using he) (by simp)
  | finished _ hEnd | overflow _ _ hEnd => exact absurd hEnd hDone

theorem Guarded.hear (h : Guarded file b w x) (i : Nat) :
    Guarded file b w (x.step maxWindow file b (.hear i)) := by
  obtain ⟨k, ms, hControlled, hCached⟩ := h
  have hDrop := ackPosition_drop_le x.session.priv.sent i
  refine ⟨k, ms, { hControlled with flow := fun hRun => ?_ },
    fun hRun => ⟨(hCached hRun).1, fun m hm => ?_⟩⟩
  · obtain ⟨hHeard, hAcked, hUpper, hRoom⟩ := hControlled.flow hRun
    refine ⟨?_, hAcked, ?_, hRoom⟩
    · exact Nat.max_le.mpr ⟨hHeard, hDrop⟩
    · simp only [Exchange.step]
      omega
  · have hOld := (hCached hRun).2 m hm
    simp only [Exchange.step]
    omega

variable (hb : 0 < b) (hLe : b ≤ 1432) (hw : w ≤ 128) (h : Guarded file b w x)
include hb hLe hw h

/-- What the server may send and the reader may do keeps room in the queue. -/
theorem Guarded.step {a : Action} (hPermitted : Permitted WindowFits file b w x a) :
    Guarded file b w (x.step maxWindow file b a) := by
  cases a with
  | hear i => exact h.hear i
  | client e =>
    cases e with
    | packet n => exact h.packet hb hLe hw hPermitted.1 hPermitted.2.1
    | read insize =>
      obtain ⟨hState, hCache⟩ := tftpReadFifo_frame x.session.priv insize
      exact h.client (fun hRun => hState.symm.trans hRun) hCache fun k hOld =>
        hOld.read hb hLe (by omega) insize
    | resend => exact h.resend hLe hw hPermitted
    | ctrlc | timeout =>
      simp only [Exchange.step, Session.step, Session.poll]
      split
      next => exact h
      next hDone => exact h.giveUp (by decide) hDone

/-- By induction on the actions. -/
theorem Guarded.run {actions : List Action}
    (hServed : Served WindowFits maxWindow file b w x actions) :
    Guarded file b w (x.run maxWindow file b actions) := by
  induction actions generalizing x with
  | nil => exact h
  | cons a actions ih => exact ih (h.step hb hLe hw hServed.1) hServed.2

end Exchange

theorem Guarded.start {maxWindow b w : Nat} {options file : List UInt8}
    (h : Negotiated maxWindow options b w)
    (hMax : maxWindow ≤ 128) : Guarded file b w (Exchange.start maxWindow options) := by
  obtain ⟨⟨hb, hLe, hw, hw'⟩, _⟩ := h.spec
  have hProduct : b * (w + 2) ≤ 1432 * 130 := Nat.mul_le_mul hLe (by omega)
  have hArg : b * (w + 2) % 2 ^ 32 = b * (w + 2) := mod_eq_of_lt (by omega)
  have hTwo : 2 ≤ b * (w + 2) := Nat.le_trans (by omega) (Nat.mul_le_mul hb (Nat.le_refl (w + 2)))
  obtain ⟨fifo, hAlloc, hSize⟩ := kfifoAlloc_spec hTwo (by omega)
  rcases Session.start_eq h with ⟨hNone, _⟩ | ⟨fifo', filesize, hAlloc', hPriv⟩
  · rw [hArg, hAlloc] at hNone
    cases hNone
  rw [hArg, hAlloc] at hAlloc'
  cases hAlloc'
  have hFifo : (Session.start maxWindow options).priv.fifo = some fifo :=
    congrArg FilePriv.fifo hPriv
  have hErr : (Session.start maxWindow options).priv.err = some .einval := congrArg err hPriv
  have hSent : (Session.start maxWindow options).priv.sent = [0] := congrArg sent hPriv
  have hAck : ackPosition (Session.start maxWindow options).priv.sent = 0 := by rw [hSent]; decide
  have hLen : kfifoLen fifo = 0 := by rw [← fifo.content_length, kfifoAlloc_content hAlloc]; rfl
  have hCapacity : (w + 2) * b ≤ fifo.size := by rw [mul_comm]; exact hSize
  refine ⟨0, [], ⟨congrArg blocksize hPriv, congrArg windowsize hPriv, ?_,
    fun hFull => absurd (hErr.symm.trans hFull) (by decide), fun _ =>
      ⟨zero_le _, le_of_eq hAck, zero_le _,
      fifo, hFifo, hCapacity, ?_⟩⟩, fun _ => ⟨⟨congrArg cache hPriv, by simp, by simp⟩, by simp⟩⟩
  · exact .start hAlloc hFifo (congrArg state hPriv) hErr (congrArg lastBlock hPriv) rfl
  rw [add_mul] at hCapacity
  change kfifoLen fifo + (ackPosition (Session.start maxWindow options).priv.sent + w - 0) * b ≤
    fifo.size
  simp [hAck]
  omega

/-- The reader's speed never makes the fifo overflow, in every exchange with a
server that keeps to its window and with resends reported only when the fifo has
room for a whole window. -/
theorem tftp_fifo_has_room {maxWindow b w : Nat} {options file : List UInt8}
    (hMax : maxWindow ≤ 128)
    (h : Negotiated maxWindow options b w) (actions : List Action)
    (hServed : Served WindowFits maxWindow file b w (Exchange.start maxWindow options) actions) :
    ((Exchange.start maxWindow options).run maxWindow file b actions).session.priv.err ≠
    some .enomem := by
  obtain ⟨⟨hb, hLe, hw, hw'⟩, _⟩ := h.spec
  obtain ⟨k, ms, hControlled, _⟩ := (Guarded.start h hMax).run hb hLe (by omega) hServed
  exact hControlled.err

def wordOptions : List UInt8 := ascii "blksize" ++ [0, 52, 0] ++ ascii "windowsize" ++ [0, 49, 0]

/-- Blocks arrive one by one and the reader takes a byte after each; the fifo holds
nine bytes when the third block is acknowledged by a resend. -/
def slowReader : List Action :=
  [.client (.packet 1), .client (.read 1), .hear 0, .client (.packet 2), .client (.read 1), .hear 0,
    .client (.packet 3), .client (.read 1), .client .resend, .hear 0, .client (.packet 4)]

theorem tftp_fifo_has_room_sample : Negotiated 1 wordOptions 4 1 ∧
      Served WindowFits 1 (zeros 40) 4 1 (Exchange.start 1 wordOptions) slowReader ∧
      ((Exchange.start 1 wordOptions).run 1 (zeros 40) 4 slowReader).session.priv.err ≠
      some .enomem :=
  have hOptions : Negotiated 1 wordOptions 4 1 := by decide +kernel
  have hServed : Served WindowFits 1 (zeros 40) 4 1 (Exchange.start 1 wordOptions) slowReader := by
    decide +kernel
  ⟨hOptions, hServed, tftp_fifo_has_room (by decide) hOptions slowReader hServed⟩

/-- The reader goes on taking a byte after each block, and every block from the
third on is acknowledged by a resend: the sixth does not fit into the fifo. -/
theorem resend_overflows :
    let more : List Action :=
      [.client (.read 1), .client .resend, .hear 0, .client (.packet 5),
        .client (.read 1), .client .resend,
        .hear 0, .client (.packet 6)]
    Negotiated 1 wordOptions 4 1 ∧
      Served (fun _ => True) 1 (zeros 40) 4 1 (Exchange.start 1 wordOptions) (slowReader ++ more) ∧
      ((Exchange.start 1 wordOptions).run 1 (zeros 40) 4 (slowReader ++ more)).session.priv.state =
        .done ∧
      ((Exchange.start 1 wordOptions).run 1 (zeros 40) 4 (slowReader ++ more)).session.priv.err =
        some .enomem := by
  decide +kernel

end Barebox.Tftp
