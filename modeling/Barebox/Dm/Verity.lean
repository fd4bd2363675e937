import Barebox.Data.Bytes
import Barebox.Errno

/-! The verity target of the device mapper. Numbers of blocks and of sectors have 64 bits, an `int`
has 32. A digest never fails, and memory does not run out. -/
namespace Barebox.Dm
open Bytes

/-- Why an operation has no result: an error code, or undefined behaviour. -/
inductive Failure where
  | errno (e : Errno)
  | fault
  deriving DecidableEq, Repr

def sectorShift : Nat := 9

/-- `struct dm_cdev`. The mask follows from the number of bits. -/
structure DmCdev where
  size : Nat
  start : Nat
  num : Nat
  bits : Nat
  deriving DecidableEq, Repr

def DmCdev.mask (c : DmCdev) : Nat := 2 ^ (c.bits - sectorShift) - 1

/-- `dm_cdev_open` of a device that can be opened, which is large enough unless the number of
bytes wraps. The jump to `err` for a bad block size comes with the zero that `stat` returned: the
result is success, and nothing is opened. -/
def dmCdevOpen (size start numBlocks blocksize : Nat) : Except Failure (Option DmCdev) :=
  if blocksize = 0 ∨ blocksize &&& (blocksize - 1) ≠ 0 then .ok none
  else if Nat.log2 blocksize < sectorShift then .ok none
  -- `1 << bits` does not fit an `int`
  else if 31 ≤ Nat.log2 blocksize then .error .fault
  else if size < ((start + numBlocks) % 2 ^ 64 * 2 ^ Nat.log2 blocksize) % 2 ^ 64 then
    .error (.errno .e2big)
  else .ok (some { size := size, start := start, num := numBlocks, bits := Nat.log2 blocksize })

structure Digest where
  length : Nat
  sum : List UInt8 → List UInt8
  length_pos : 0 < length
  sum_length : ∀ bytes, (sum bytes).length = length

/-- `struct dm_verity`, apart from what changes while it is used. -/
structure Verity where
  ddev : Option DmCdev
  hdev : DmCdev
  digestAlgo : Digest
  rootDigest : List UInt8
  salt : List UInt8
  hashPerBlockBits : Nat
  hashLevelBlock : List Nat

namespace Verity
variable (v : Verity)

def levels : Nat := v.hashLevelBlock.length

/-- `dm_verity_set_digest`. -/
def digest (buf : List UInt8) : List UInt8 := v.digestAlgo.sum (v.salt ++ buf)

variable (dblock level : Nat)

/-- `dm_verity_position_at_level`: the hash that covers a data block, counted within a level. -/
def positionAtLevel : Nat := dblock >>> (level * v.hashPerBlockBits)

def hblockAtLevel : Nat :=
  v.hashLevelBlock.getD level 0 + v.positionAtLevel dblock level >>> v.hashPerBlockBits

def indexAtLevel : Nat := v.positionAtLevel dblock level &&& (2 ^ v.hashPerBlockBits - 1)

/-- The bytes that are compared with a digest. The offset is the one of `dm_verity_hash_at_level`.
-/
def expected (idx : Nat) (data : List UInt8) : List UInt8 :=
  slice (idx <<< (v.hdev.bits - v.hashPerBlockBits)) v.digestAlgo.length data

end Verity

/-- The loop that counts the levels; `left` bounds its turns. -/
def countLevels (num bits : Nat) : Nat → Nat → Nat
  | 0, levels => levels
  | left + 1, levels =>
    if bits * levels < 64 ∧ (num - 1) >>> (bits * levels) ≠ 0 then
      countLevels num bits left (levels + 1)
    else levels

/-- The loop of `dm_verity_measure` that places the levels, the root first. -/
def levelStarts (num bits : Nat) : Nat → Nat → List Nat → Except Failure (List Nat × Nat)
  | 0, lstart, starts => .ok (starts, lstart)
  | i + 1, lstart, starts =>
    if 64 ≤ (i + 1) * bits then .error .fault
    else
      let lsize := ((num + 2 ^ ((i + 1) * bits) - 1) % 2 ^ 64) >>> ((i + 1) * bits)
      if (lstart + lsize) % 2 ^ 64 < lstart then .error (.errno .e2big)
      else levelStarts num bits i ((lstart + lsize) % 2 ^ 64) (lstart :: starts)

def maxLevels : Nat := 63

/-- `dm_verity_measure` for a number of data blocks: the bits of a hash block, where its levels
start, and the hash device with the number of its blocks. -/
def verityMeasure (num digestLen : Nat) (hdev : DmCdev) :
    Except Failure (Nat × List Nat × DmCdev) :=
  let bits := Nat.log2 (2 ^ hdev.bits / digestLen)
  let levels := if num = 0 then 0 else countLevels num bits 64 0
  if maxLevels < levels then .error (.errno .e2big)
  else
    match levelStarts num bits levels 0 [] with
    | .error e => .error e
    | .ok (starts, hnum) =>
      if hdev.size < ((hdev.start + hnum) % 2 ^ 64 * 2 ^ hdev.bits) % 2 ^ 64 then
        .error (.errno .e2big)
      else .ok (bits, starts, { hdev with num := hnum })

/-- The arguments of a row for `dm_verity_create`, with the sizes of the devices they name. -/
structure VerityArgs where
  dataSize : Nat
  hashSize : Nat
  dataBlockSize : Nat
  hashBlockSize : Nat
  numBlocks : Nat
  hashStart : Nat
  digestAlgo : Digest
  rootDigest : List UInt8
  salt : List UInt8

/-- `dm_verity_create`. A hash device that was not opened has blocks of one byte. -/
def verityCreate (args : VerityArgs) : Except Failure Verity :=
  match dmCdevOpen args.dataSize 0 args.numBlocks args.dataBlockSize with
  | .error e => .error e
  | .ok ddev =>
    match dmCdevOpen args.hashSize args.hashStart 0 args.hashBlockSize with
    | .error e => .error e
    | .ok none => .error (.errno .einval)
    | .ok (some hdev) =>
      if 2 ^ hdev.bits < args.digestAlgo.length * 2 then .error (.errno .einval)
      else if args.rootDigest.length ≠ args.digestAlgo.length then .error (.errno .einval)
      else
        match verityMeasure (ddev.elim 0 DmCdev.num) args.digestAlgo.length hdev with
        | .error e => .error e
        | .ok (bits, starts, hdev) =>
          .ok { ddev := ddev, hdev := hdev, digestAlgo := args.digestAlgo,
                rootDigest := args.rootDigest,
                salt := args.salt, hashPerBlockBits := bits, hashLevelBlock := starts }

/-- `struct dm_target` of a verity row. -/
structure DmTarget where
  base : Nat
  size : Nat
  verity : Verity

/-- `dm_parse_row` of a verity row, for a device that ends at `dmSize` so far. -/
def dmParseRow (dmSize base size : Nat) (args : VerityArgs) : Option DmTarget :=
  if base ≠ dmSize then none
  else if size = 0 then none
  else
    match verityCreate args with
    | .error _ => none
    | .ok v => some { base := base, size := size, verity := v }

/-- What a read of a device did to the buffer: it is filled, or the read failed and left the
buffer in some state. -/
inductive Reply where
  | done (bytes : List UInt8)
  | failed (left : List UInt8) (e : Errno)
  deriving DecidableEq

/-- The two devices below a target: reading changes their state, and sees the buffer. -/
structure Storage (ρ : Type) where
  readHash : ρ → List UInt8 → Nat → Reply × ρ
  readData : ρ → Nat → Nat → Except Errno (List UInt8) × ρ

/-- A read of the hash device: its block, whether that was trusted, the buffer before and the
reply. -/
structure HashRead where
  number : Nat
  trusted : Bool
  before : List UInt8
  reply : Reply

/-- The part of `struct dm_verity` that changes, the state of the devices, and the reads of the
hash device so far, newest first, which no function looks at. -/
structure Verify (ρ : Type) where
  trusted : List Bool
  data : List UInt8
  block : Nat
  io : ρ
  reads : List HashRead

variable {ρ : Type} (c : DmCdev) (v : Verity) (s : Storage ρ) (w : Verify ρ) (block num : Nat)

/-- After `dm_verity_create`. The buffer is not initialised. -/
def Verity.initial (garbage : List UInt8) (io : ρ) : Verify ρ :=
  { trusted := List.replicate v.hdev.num false, data := garbage, block := v.hdev.num, io := io,
    reads := [] }

/-- `dm_verity_set_hblock`: a hash block is read unless it is in the buffer already. -/
def setHblock (hblock : Nat) : Except Failure Unit × Verify ρ :=
  if w.block = hblock then (.ok (), w)
  else
    let (reply, io) := s.readHash w.io w.data hblock
    let read : HashRead :=
      { number := hblock, trusted := w.trusted.getD hblock false, before := w.data, reply := reply }
    match reply with
    | .failed left e =>
        (.error (.errno e), { w with data := left, io := io, reads := read :: w.reads })
    | .done bytes =>
        (.ok (), { w with data := bytes, block := hblock, io := io, reads := read :: w.reads })

/-- The loop of `dm_verity_verify` over the levels that are left. The result is the level at which
it ends. A bit outside of the bitmap is not there to be tested. -/
def ascend (v : Verity) (s : Storage ρ) (dblock : Nat) :
    Nat → Nat → List UInt8 → Verify ρ → Except Failure Nat × Verify ρ
  | 0, level, digest, w => (if digest = v.rootDigest then .ok level else .error (.errno .einval), w)
  | left + 1, level, digest, w =>
    match setHblock s w (v.hblockAtLevel dblock level) with
    | (.error e, w) => (.error e, w)
    | (.ok (), w) =>
      if v.expected (v.indexAtLevel dblock level) w.data ≠ digest then (.error (.errno .einval), w)
      else
        match w.trusted[v.hblockAtLevel dblock level]? with
        | none => (.error .fault, w)
        | some true => (.ok level, w)
        | some false => ascend v s dblock left (level + 1) (v.digest w.data) w

def markAsTrusted (v : Verity) (dblock : Nat) : Nat → List Bool → List Bool
  | 0, trusted => trusted
  | level + 1, trusted =>
      markAsTrusted v dblock level (trusted.set (v.hblockAtLevel dblock level) true)

/-- `dm_verity_verify`: up to the first trusted block; the path below it becomes trusted. -/
def verityVerify (buf : List UInt8) (dblock : Nat) : Except Failure Unit × Verify ρ :=
  match ascend v s dblock v.levels 0 (v.digest buf) w with
  | (.error e, w) => (.error e, w)
  | (.ok level, w) => (.ok (), { w with trusted := markAsTrusted v dblock level w.trusted })

/-- `dm_verity_verify_range`, for blocks of the given size. -/
def verityVerifyRange (v : Verity) (s : Storage ρ) (blockSize : Nat) :
    Nat → Verify ρ → List UInt8 → Nat → Except Failure Unit × Verify ρ
  | 0, w, _, _ => (.ok (), w)
  | n + 1, w, buf, block =>
    match verityVerify v s w (buf.take blockSize) block with
    | (.error e, w) => (.error e, w)
    | (.ok (), w) => verityVerifyRange v s blockSize n w (buf.drop blockSize) (block + 1)

def preBlocks (block : Nat) : Nat := block &&& c.mask

def postBlocks : Nat :=
  let post := (preBlocks c block + num) &&& c.mask
  if post = 0 then 0 else c.mask + 1 - post

def firstBlock (block : Nat) : Nat := (block - preBlocks c block) >>> (c.bits - sectorShift)

def blockCount : Nat :=
  (preBlocks c block + num + postBlocks c block num) >>> (c.bits - sectorShift)

/-- `dm_verity_read`. On a device that was not opened the block number is shifted by a negative
number of bits. -/
def verityRead : Except Failure (List UInt8) × Verify ρ :=
  match v.ddev with
  | none => (.error .fault, w)
  | some c =>
    match s.readData w.io (firstBlock c block) (blockCount c block num) with
    | (.error e, io) => (.error (.errno e), { w with io := io })
    | (.ok buf, io) =>
      match verityVerifyRange v s (2 ^ c.bits) (blockCount c block num) { w with io := io } buf
        (firstBlock c block) with
      | (.error e, w) => (.error e, w)
      | (.ok (), w) => (.ok (slice (preBlocks c block * 512) (num * 512) buf), w)

def verityRun (v : Verity) (s : Storage ρ) :
    List (Nat × Nat) → Verify ρ → List (Except Failure (List UInt8)) × Verify ρ
  | [], w => ([], w)
  | (block, num) :: calls, w =>
    let (r, w) := verityRead v s w block num
    let (rs, w) := verityRun v s calls w
    (r :: rs, w)

end Barebox.Dm
