import Barebox.Data.CString
import Barebox.Errno
import Barebox.Lib.Kfifo
import Barebox.Lib.Strtox

/-! The TFTP client, as far as it receives a file: the window of blocks, the
cache of blocks that came too early, the fifo between the network and the
reader, and the read loop. Requests, writing, timers and messages are left out;
what the timers and the network do in `tftp_poll` is an input. -/
namespace Barebox.Tftp
open Bytes Barebox.Lib

inductive TftpState where
  | invalid | rrq | wrq | rdata | wdata | start | waitack | last | done
  deriving DecidableEq, Repr

/-- `struct tftp_block`; the data has the length that the field `len` says. -/
structure TftpBlock where
  id : UInt16
  data : List UInt8
  deriving DecidableEq

/-- `struct file_priv`. An `err` of zero is `none`. `sent` logs the
acknowledgements handed to the network, the newest first. -/
structure FilePriv where
  push : Bool
  block : UInt16
  lastBlock : UInt16
  ackBlock : UInt16
  state : TftpState
  err : Option Errno
  filesize : Nat
  fifo : Option Kfifo
  blocksize : Int
  windowsize : Nat
  cache : List TftpBlock
  sent : List UInt16

/-- `TFTP_BLOCK_SIZE`, `TFTP_MTU_SIZE` and `TFTP_EXTRA_BLOCKS`. -/
def tftpBlockSize : Int := 512

@[inherit_doc tftpBlockSize] def tftpMtuSize : Int := 1432

@[inherit_doc tftpBlockSize] def tftpExtraBlocks : Nat := 2

/-- `is_block_before`: the sign of the difference in 16 bits. -/
def isBlockBefore (a b : UInt16) : Bool := 0 < (b - a).toInt16

/-- `in_window`: the window may wrap around. -/
def inWindow (block start ende : UInt16) : Bool :=
  (start ≤ block && block ≤ ende) || (block ≤ ende && ende ≤ start) ||
    (ende ≤ start && start ≤ block)

/-- `tftp_window_cache_insert`: sorted by number, without doubles. -/
def tftpWindowCacheInsert (id : UInt16) (data : List UInt8) : List TftpBlock → List TftpBlock
  | [] => [⟨id, data.take (data.length % 2 ^ 16)⟩]
  | block :: blocks =>
    if block.id = id then block :: blocks
    else if isBlockBefore block.id id then block :: tftpWindowCacheInsert id data blocks
    else ⟨id, data.take (data.length % 2 ^ 16)⟩ :: block :: blocks

/-- `tftp_send` while data is received: acknowledge the last block. The request
that it sends in the states in front of that changes nothing here. -/
def tftpSend (priv : FilePriv) : FilePriv :=
  if priv.state = .rdata then
    { priv with
      ackBlock := priv.lastBlock + UInt16.ofNat priv.windowsize,
      sent := priv.lastBlock :: priv.sent }
  else priv

section Send
variable (priv : FilePriv)

@[simp] theorem tftpSend_lastBlock : (tftpSend priv).lastBlock = priv.lastBlock := by
  unfold tftpSend
  split <;> rfl

@[simp] theorem tftpSend_state : (tftpSend priv).state = priv.state := by
  unfold tftpSend
  split <;> rfl

@[simp] theorem tftpSend_err : (tftpSend priv).err = priv.err := by
  unfold tftpSend
  split <;> rfl

@[simp] theorem tftpSend_fifo : (tftpSend priv).fifo = priv.fifo := by
  unfold tftpSend
  split <;> rfl

@[simp] theorem tftpSend_blocksize : (tftpSend priv).blocksize = priv.blocksize := by
  unfold tftpSend
  split <;> rfl

@[simp] theorem tftpSend_windowsize : (tftpSend priv).windowsize = priv.windowsize := by
  unfold tftpSend
  split <;> rfl

@[simp] theorem tftpSend_cache : (tftpSend priv).cache = priv.cache := by
  unfold tftpSend
  split <;> rfl

end Send

/-- The conversion of an `unsigned long` to `int`. -/
def toInt (n : Nat) : Int := (BitVec.ofNat 32 n).toInt

def parseOption (opt val : List UInt8) (priv : FilePriv) : FilePriv :=
  if opt = ascii "tsize" then { priv with filesize := (simpleStrtoull val 10).1 }
  else if opt = ascii "blksize" then { priv with blocksize := toInt (simpleStrtoull val 10).1 }
  else if opt = ascii "windowsize" then
    { priv with windowsize := (simpleStrtoull val 10).1 % 2 ^ 32 }
  else priv

/-- The loop over the options; every turn takes at least two bytes. -/
def parseOptions : Nat → List UInt8 → FilePriv → FilePriv
  | 0, _, priv => priv
  | fuel + 1, s, priv =>
    let opt := untilZero s
    let rest := s.drop (opt.length + 1)
    if rest = [] then priv
    else
      let val := untilZero rest
      parseOptions fuel (rest.drop (val.length + 1)) (parseOption opt val priv)

theorem parseOptions_frame (fuel : Nat) (s : List UInt8) (priv : FilePriv) :
    ∃ filesize blocksize windowsize, parseOptions fuel s priv =
      { priv with filesize := filesize, blocksize := blocksize, windowsize := windowsize } := by
  induction fuel generalizing s priv with
  | zero => exact ⟨priv.filesize, priv.blocksize, priv.windowsize, rfl⟩
  | succ fuel ih =>
    simp only [parseOptions]
    split
    · exact ⟨priv.filesize, priv.blocksize, priv.windowsize, rfl⟩
    obtain ⟨fs, bs, ws, hRest⟩ := ih ((s.drop ((untilZero s).length + 1)).drop _)
      (parseOption (untilZero s) (untilZero (s.drop ((untilZero s).length + 1))) priv)
    refine ⟨fs, bs, ws, hRest.trans ?_⟩
    unfold parseOption
    split
    · rfl
    · split
      · rfl
      · split <;> rfl

variable (priv : FilePriv) (block : UInt16) (maxWindow : Nat)

/-- `tftp_parse_oack`; `maxWindow` is `CONFIG_FS_TFTP_MAX_WINDOW_SIZE`. -/
def tftpParseOack (priv : FilePriv) (pkt : List UInt8) : Except Errno FilePriv :=
  let priv := parseOptions pkt.length (pkt.set (pkt.length - 1) 0) priv
  if priv.blocksize = 0 ∨ tftpMtuSize < priv.blocksize ∨ maxWindow < priv.windowsize ∨
    priv.windowsize = 0 then
    .error .einval
  else .ok priv

/-- What an accepted OACK says. The block size is an `int`: one that is negative
after the conversion is accepted too. -/
theorem tftpParseOack_ok {maxWindow : Nat} {priv priv' : FilePriv} {pkt : List UInt8}
    (h : tftpParseOack maxWindow priv pkt = .ok priv') :
    (priv'.blocksize ≠ 0 ∧ priv'.blocksize ≤ tftpMtuSize ∧ 1 ≤ priv'.windowsize ∧
        priv'.windowsize ≤ maxWindow) ∧
      ∃ filesize blocksize windowsize,
        priv' =
          { priv with filesize := filesize, blocksize := blocksize, windowsize := windowsize } := by
  unfold tftpParseOack at h
  simp only at h
  split at h
  next => cases h
  next hAccept =>
    cases h
    refine ⟨?_, parseOptions_frame _ _ _⟩
    omega

def tftpAllocateTransfer : FilePriv :=
  match kfifoAlloc ((priv.blocksize * (priv.windowsize + tftpExtraBlocks)) % 2 ^ 32).toNat with
  | none => { priv with err := some .enomem, state := .done }
  | some fifo => { priv with fifo := some fifo, cache := [] }

/-- The block size where it is compared with a `size_t`. -/
def blockLimit : Nat := (priv.blocksize % 2 ^ 64).toNat

/-- `tftp_put_data`: a block that is not full ends the transfer. -/
def tftpPutData (pkt : List UInt8) : FilePriv :=
  if blockLimit priv < pkt.length then priv
  else
    match priv.fifo with
    | none => { priv with lastBlock := block }
    | some fifo =>
      let priv := { priv with lastBlock := block, fifo := some (kfifoPut fifo pkt).2 }
      if (kfifoPut fifo pkt).1 ≠ pkt.length then { priv with err := some .enomem, state := .done }
      else if pkt.length < blockLimit priv then { tftpSend priv with err := none, state := .done }
      else priv

theorem tftpPutData_frame (pkt : List UInt8) :
    (tftpPutData priv block pkt).cache = priv.cache ∧
    (tftpPutData priv block pkt).blocksize = priv.blocksize ∧
      (tftpPutData priv block pkt).windowsize = priv.windowsize := by
  unfold tftpPutData
  split
  · exact ⟨rfl, rfl, rfl⟩
  cases priv.fifo with
  | none => exact ⟨rfl, rfl, rfl⟩
  | some fifo =>
    simp only
    split
    · exact ⟨rfl, rfl, rfl⟩
    · split <;> simp

/-- The loop of `tftp_apply_window_cache`, with the blocks that are left. -/
def applyBlocks (priv : FilePriv) : List TftpBlock → FilePriv
  | [] => { priv with cache := [] }
  | block :: blocks =>
    if priv.state ≠ .rdata then { priv with cache := block :: blocks }
    else if isBlockBefore block.id (priv.lastBlock + 1) then applyBlocks priv blocks
    else if block.id ≠ priv.lastBlock + 1 then { priv with cache := block :: blocks }
    else applyBlocks (tftpPutData priv block.id block.data) blocks

def tftpApplyWindowCache : FilePriv := applyBlocks priv priv.cache

/-- `tftp_handle_data`: the next block, one to keep for later, or one to drop. -/
def tftpHandleData (data : List UInt8) : FilePriv :=
  if priv.lastBlock + 1 = block then tftpApplyWindowCache (tftpPutData priv block data)
  else if !inWindow block (priv.lastBlock + 1) priv.ackBlock then priv
  else { priv with cache := tftpWindowCacheInsert block data priv.cache }

/-- The acknowledgement of a written block in `tftp_recv`. -/
def tftpRecvAck : FilePriv :=
  if !priv.push ∨ block ≠ priv.lastBlock then priv
  else
    match priv.state with
    | .wrq => { priv with state := .start, block := block + 1 }
    | .waitack => { priv with state := .wdata, block := block + 1 }
    | .last => { priv with state := .done, block := block + 1 }
    | _ => priv

/-- A data packet in `tftp_recv`. In `STATE_RRQ` it comes from a server that
knows no options. -/
def tftpRecvData (data : List UInt8) : FilePriv :=
  let priv :=
    if priv.state = .rrq then
      tftpAllocateTransfer
        { priv with state := .rdata, lastBlock := 0, ackBlock := UInt16.ofNat priv.windowsize }
    else priv
  if priv.state ≠ .rdata then priv else tftpHandleData priv block data

theorem tftpRecvData_rdata {priv : FilePriv} (h : priv.state = .rdata)
    (block : UInt16) (data : List UInt8) :
    tftpRecvData priv block data = tftpHandleData priv block data := by simp [tftpRecvData, h]

theorem tftpRecvData_done {priv : FilePriv} (h : priv.state = .done)
    (block : UInt16) (data : List UInt8) :
    tftpRecvData priv block data = priv := by simp [tftpRecvData, h]

/-- `tftp_recv`: by the opcode of the packet. -/
def tftpRecv (priv : FilePriv) (pkt : List UInt8) : FilePriv :=
  if pkt.length < 4 then priv
  else
    let block := UInt16.ofNat (ofBe (slice 2 2 pkt))
    match ofBe (slice 0 2 pkt) with
    | 3 => tftpRecvData priv block (pkt.drop 4)
    | 4 => tftpRecvAck priv block
    | 5 =>
      let err : Errno := if block = 1 then .enoent else if block = 2 then .eacces else .einval
      { priv with err := some err, state := .done }
    | 6 =>
      if priv.state ≠ .rrq ∧ priv.state ≠ .wrq then priv
      else
        match tftpParseOack maxWindow priv (pkt.drop 2) with
        | .error _ => { priv with err := some .einval, state := .done }
        | .ok priv => { priv with state := .start }
    | _ => priv

/-- What `tftp_do_open` sets up for reading before it sends the request. -/
def tftpOpenRead : FilePriv where
  push := false
  block := 1
  lastBlock := 0
  ackBlock := 0
  state := .rrq
  err := some .einval
  filesize := 0
  fifo := none
  blocksize := tftpBlockSize
  windowsize := 1
  cache := []
  sent := []

/-- `tftp_start_transfer` of a file that is read. -/
def tftpStartTransfer : FilePriv :=
  let priv := tftpAllocateTransfer priv
  if priv.state = .done then priv else tftpSend { priv with state := .rdata, lastBlock := 0 }

/-- What happens while `tftp_poll` runs. -/
inductive Poll where
  | ctrlc
  | resend
  | timeout
  | net (packets : List (List UInt8))

/-- `tftp_poll`; `ok true` is `TFTP_ERR_RESEND`. -/
def tftpPoll (priv : FilePriv) : Poll → Except Errno Bool × FilePriv
  | .ctrlc => (.error .eintr, { priv with state := .done, err := some .eintr })
  | .resend => (.ok true, priv)
  | .timeout => (.error .etimedout, { priv with state := .done, err := some .etimedout })
  | .net packets => (.ok false, packets.foldl (tftpRecv maxWindow) priv)

/-- The part of a turn of the loop in `tftp_read` in front of the poll: take what
the fifo holds, and acknowledge when the fifo is nearly empty. -/
def tftpReadFifo (insize : Nat) : List UInt8 × FilePriv :=
  match priv.fifo with
  | none => ([], priv)
  | some fifo =>
    let now := (kfifoGet fifo (insize % 2 ^ 32)).1
    let fifo := (kfifoGet fifo (insize % 2 ^ 32)).2
    let priv := { priv with fifo := some fifo }
    if priv.state ≠ .done ∧ priv.lastBlock = priv.ackBlock ∧
        kfifoLen fifo ≤ ((tftpExtraBlocks * priv.blocksize) % 2 ^ 32).toNat then
      (now, tftpSend priv)
    else (now, priv)

/-- The poll of a turn: repeat the acknowledgement when the server is silent. -/
def tftpReadPoll (priv : FilePriv) (poll : Poll) : Option Errno × FilePriv :=
  match tftpPoll maxWindow priv poll with
  | (.ok true, priv) => (none, tftpSend priv)
  | (.ok false, priv) => (none, priv)
  | (.error e, priv) => (some e, priv)

/-- `tftp_read`: the result once there is one, the bytes copied and the state. The
loop waits for ever when nothing comes; it is followed for as long as it polls. -/
def tftpRead (maxWindow : Nat) (priv : FilePriv) (insize : Nat) :
    List Poll → Option (Except Errno Nat) × List UInt8 × FilePriv
  | [] => (if insize = 0 then some (.ok 0) else none, [], priv)
  | poll :: polls =>
    if insize = 0 then (some (.ok 0), [], priv)
    else
      let (now, priv) := tftpReadFifo priv insize
      if priv.state = .done then
        match priv.err with
        | some e => (some (.error e), now, priv)
        | none => (some (.ok now.length), now, priv)
      else
        match tftpReadPoll maxWindow priv poll with
        | (some e, priv) => (some (.error e), now, priv)
        | (none, priv) =>
          let (result, more, priv) := tftpRead maxWindow priv (insize - now.length) polls
          (result.map (·.map (now.length + ·)), now ++ more, priv)

end Barebox.Tftp
