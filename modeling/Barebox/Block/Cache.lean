import Barebox.Data.Memory
import Barebox.Errno

/-! The cache of a block device: eight chunks, each in the list of buffered or
in the list of idle ones, and the operations on bytes that go through it. -/
namespace Barebox.Block
open Memory

/-- Block size and number of blocks. `blockdevice_register` refuses other block
sizes. -/
structure Geometry where
  blockBits : Nat
  numBlocks : Nat
  minBits : 9 ≤ blockBits
  maxBits : blockBits ≤ 16

namespace Geometry
variable (g : Geometry)

def blockSize : Nat := 2 ^ g.blockBits

/-- Blocks of a chunk: `BUFSIZE >> blockbits`. -/
def rdbufsize : Nat := 2 ^ 16 / 2 ^ g.blockBits

def size : Nat := g.numBlocks * g.blockSize

/-- `block & ~blkmask`. -/
def startOf (block : Nat) : Nat := block / g.rdbufsize * g.rdbufsize

/-- `writebuffer_io_nblocks`: the last chunk may be shorter. -/
def ioNblocks (blockStart : Nat) : Nat := min g.rdbufsize (g.numBlocks - blockStart)

end Geometry

/-- The driver of a block device and its medium: which operations it has, which of
its calls fail, and what a call leaves behind that fails or erases. -/
structure Driver where
  write : Bool
  erase : Bool
  flush : Bool
  fault : Nat → Option Errno
  content : Nat → Memory

/-- `struct chunk`: a window of `rdbufsize` blocks in memory. -/
structure Chunk where
  data : Memory
  blockStart : Nat
  dirty : Bool
  num : Nat

/-- `struct block_device`, with its medium and the number of driver calls. -/
structure BlockDevice where
  medium : Memory
  buffered : List Chunk
  idle : List Chunk
  discardStart : Nat
  discardSize : Nat
  calls : Nat

abbrev Result (α : Type) := Except Errno α × BlockDevice

def Result.andThen {α β : Type} (r : Result α) (next : α → BlockDevice → Result β) : Result β :=
  match r with
  | (.error e, s) => (.error e, s)
  | (.ok a, s) => next a s

@[simp] theorem Result.andThen_ok {α β : Type} (a : α) (s : BlockDevice)
    (next : α → BlockDevice → Result β) :
    Result.andThen (.ok a, s) next = next a s := rfl

@[simp] theorem Result.andThen_error {α β : Type} (e : Errno) (s : BlockDevice)
    (next : α → BlockDevice → Result β) : Result.andThen (.error e, s) next = (.error e, s) := rfl

/-- The cache of a new device: eight idle chunks. -/
def register (medium : Memory) : BlockDevice where
  medium
  buffered := []
  idle := (List.range 8).map fun num => { data := fun _ => 0, blockStart := 0, dirty := false, num }
  discardStart := 0
  discardSize := 0
  calls := 0

section Operations
variable (g : Geometry) (drv : Driver)

/-- `chunk_flush`: the chunk after it and the device. A failing write may have
changed the blocks of the chunk. -/
def chunkFlush (chunk : Chunk) (s : BlockDevice) : Except Errno Unit × Chunk × BlockDevice :=
  if !chunk.dirty then (.ok (), chunk, s)
  else if !drv.write then (.ok (), chunk, s)
  else
    let pos := chunk.blockStart * g.blockSize
    let len := g.ioNblocks chunk.blockStart * g.blockSize
    match drv.fault s.calls with
    | some e =>
      (.error e, chunk, { s with
        medium := blit pos len (drv.content s.calls) s.medium, calls := s.calls + 1 })
    | none =>
      (.ok (), { chunk with dirty := false }, { s with
        medium := blit pos len chunk.data s.medium, calls := s.calls + 1 })

/-- The loop of `writebuffer_flush`. -/
def flushChunks : List Chunk → BlockDevice → Except Errno Unit × List Chunk × BlockDevice
  | [], s => (.ok (), [], s)
  | chunk :: chunks, s =>
    match chunkFlush g drv chunk s with
    | (.error e, chunk, s) => (.error e, chunk :: chunks, s)
    | (.ok _, chunk, s) =>
      let rest := flushChunks chunks s
      (rest.1, chunk :: rest.2.1, rest.2.2)

variable (s : BlockDevice) (block : Nat)

/-- `writebuffer_flush`: writes the dirty chunks, then lets the driver flush. -/
def writebufferFlush : Result Unit :=
  let flushed := flushChunks g drv s.buffered s
  let s := { flushed.2.2 with buffered := flushed.2.1 }
  match flushed.1 with
  | .error e => (.error e, s)
  | .ok _ =>
    if drv.flush then
      match drv.fault s.calls with
      | some e => (.error e, { s with calls := s.calls + 1 })
      | none => (.ok (), { s with calls := s.calls + 1 })
    else (.ok (), s)

/-- The test in `chunk_get_cached`. -/
def Chunk.holds (chunk : Chunk) : Bool :=
  chunk.blockStart ≤ block && block < chunk.blockStart + g.rdbufsize

variable (count offset : Nat) (s : BlockDevice)

/-- `chunk_get_cached`. The chunk moves to the head of the list. -/
def chunkGetCached : Option Chunk × BlockDevice :=
  match s.buffered.find? (Chunk.holds g block) with
  | none => (none, s)
  | some chunk =>
      (some chunk, { s with buffered := chunk :: s.buffered.eraseP (Chunk.holds g block) })

/-- `get_chunk`. With eight chunks the buffered list is not empty when the idle
list is. -/
def getChunk : Result Chunk :=
  match s.idle with
  | chunk :: idle => (.ok chunk, { s with idle })
  | [] =>
    match s.buffered.getLast? with
    | none => (.error .enoent, s)
    | some last =>
      match chunkFlush g drv last s with
      | (.error e, chunk, s) => (.error e, { s with buffered := s.buffered.dropLast ++ [chunk] })
      | (.ok _, chunk, s) => (.ok chunk, { s with buffered := s.buffered.dropLast })

def BlockDevice.discards (blockStart : Nat) : Bool :=
  s.discardStart ≤ blockStart * g.blockSize &&
    (blockStart + g.ioNblocks blockStart) * g.blockSize ≤ s.discardStart + s.discardSize

/-- `block_cache`: fills a chunk from the medium, or with zeros where blocks were discarded. -/
def blockCache : Result Unit :=
  (getChunk g drv s).andThen fun chunk s =>
    let blockStart := g.startOf block
    let fill (source : Memory) : Chunk := { chunk with
      blockStart := blockStart
      data := blit 0 (g.ioNblocks blockStart * g.blockSize) source chunk.data }
    if s.discards g blockStart then (.ok (), { s with buffered := fill (fun _ => 0) :: s.buffered })
    else
      match drv.fault s.calls with
      | some e =>
        (.error e, { s with idle := s.idle ++ [fill (drv.content s.calls)], calls := s.calls + 1 })
      | none =>
        let chunk := fill fun i => s.medium (blockStart * g.blockSize + i)
        (.ok (), { s with buffered := chunk :: s.buffered, calls := s.calls + 1 })

/-- `block_get`: the chunk with the block, which is the head of the list then. The
last case is the `BUG`. -/
def blockGet : Result Chunk :=
  if g.numBlocks ≤ block then (.error .enxio, s)
  else
    match chunkGetCached g block s with
    | (some chunk, s) => (.ok chunk, s)
    | (none, s) =>
      (blockCache g drv block s).andThen fun _ s =>
        match chunkGetCached g block s with
        | (some chunk, s) => (.ok chunk, s)
        | (none, s) => (.error .enoent, s)

def Chunk.place (chunk : Chunk) (block : Nat) : Nat := (block - chunk.blockStart) * g.blockSize

/-- The loop over whole blocks in `block_op_read`. -/
def readBlocks : Nat → Nat → BlockDevice → Result (List UInt8)
  | 0, _, s => (.ok [], s)
  | blocks + 1, block, s =>
    (blockGet g drv block s).andThen fun chunk s =>
      (readBlocks blocks (block + 1) s).andThen fun rest s =>
        (.ok (load (chunk.place g block) g.blockSize chunk.data ++ rest), s)

def readPart (block off len : Nat) (s : BlockDevice) : Result (List UInt8) :=
  (blockGet g drv block s).andThen fun chunk s =>
    (.ok (load (chunk.place g block + off) len chunk.data), s)

/-- `block_op_read`: a part of the first block, whole blocks, and a part of the last one. -/
def blockOpRead : Result (List UInt8) :=
  let off := offset % g.blockSize
  let block := offset / g.blockSize
  let now := if off = 0 then 0 else min count (g.blockSize - off)
  let first : Result (List UInt8) := if off = 0 then (.ok [], s) else readPart g drv block off now s
  first.andThen fun front s =>
    let block := if off = 0 then block else block + 1
    let count := count - now
    let blocks := count / g.blockSize
    (readBlocks g drv blocks block s).andThen fun middle s =>
      let rest := count % g.blockSize
      if rest = 0 then (.ok (front ++ middle), s)
      else
        (readPart g drv (block + blocks) 0 rest s).andThen fun back s =>
          (.ok (front ++ middle ++ back), s)

def BlockDevice.poke (pos : Nat) (bytes : List UInt8) (s : BlockDevice) : BlockDevice :=
  match s.buffered with
  | [] => s
  | chunk :: chunks =>
      { s with buffered := { chunk with data := store pos bytes chunk.data } :: chunks }

def BlockDevice.markDirty : BlockDevice :=
  match s.buffered with
  | [] => s
  | chunk :: chunks => { s with buffered := { chunk with dirty := true } :: chunks }

/-- `block_put`: the copy into the chunk, which the lookup then marks as dirty. -/
def blockPut (bytes : List UInt8) (block : Nat) (s : BlockDevice) : Result Unit :=
  if g.numBlocks ≤ block then (.error .einval, s)
  else
    (blockGet g drv block s).andThen fun chunk s =>
      let s := s.poke (chunk.place g block) bytes
      (.ok (), (chunkGetCached g block s).2.markDirty)

def writePart (block off : Nat) (bytes : List UInt8) (s : BlockDevice) : Result Unit :=
  (blockGet g drv block s).andThen fun chunk s =>
    let pos := chunk.place g block
    let data := store (pos + off) bytes chunk.data
    blockPut g drv (load pos g.blockSize data) block (s.poke (pos + off) bytes)

/-- The loop over whole blocks in `block_op_write`. -/
def writeBlocks : Nat → Nat → List UInt8 → BlockDevice → Result Unit
  | 0, _, _, s => (.ok (), s)
  | blocks + 1, block, buf, s =>
    (blockPut g drv (buf.take g.blockSize) block s).andThen fun _ s =>
      writeBlocks blocks (block + 1) (buf.drop g.blockSize) s

/-- `block_op_write`: a part of the first block, whole blocks, and a part of the last one. -/
def blockOpWrite (buf : List UInt8) (offset : Nat) (s : BlockDevice) : Result Unit :=
  let off := offset % g.blockSize
  let block := offset / g.blockSize
  let now := if off = 0 then 0 else min buf.length (g.blockSize - off)
  let first : Result Unit := if off = 0 then (.ok (), s)
    else writePart g drv block off (buf.take now) s
  first.andThen fun _ s =>
    let block := if off = 0 then block else block + 1
    let buf := buf.drop now
    let blocks := buf.length / g.blockSize
    (writeBlocks g drv blocks block buf s).andThen fun _ s =>
      let rest := buf.drop (blocks * g.blockSize)
      if rest = [] then (.ok (), s)
      else writePart g drv (block + blocks) 0 rest s

/-- `block_op_flush`: forgets the discarded range before it writes. -/
def blockOpFlush : Result Unit :=
  writebufferFlush g drv { s with discardStart := 0, discardSize := 0 }

/-- `block_op_discard_range`: only the last range is remembered. -/
def blockOpDiscardRange : BlockDevice :=
  { s with discardStart := offset, discardSize := count }

/-- `region_overlap_size` on block numbers, whose sums do not wrap. -/
def regionOverlapSize (starta lena startb lenb : Nat) : Bool :=
  lena ≠ 0 && lenb ≠ 0 && startb < starta + lena && starta < startb + lenb

/-- The loop of `block_op_erase`: the chunks that stay buffered, in order, and
those that become idle, the last one first. -/
def dropChunks (offset count : Nat) :
    List Chunk → BlockDevice → Except Errno Unit × List Chunk × List Chunk × BlockDevice
  | [], s => (.ok (), [], [], s)
  | chunk :: chunks, s =>
    if regionOverlapSize offset count chunk.blockStart g.rdbufsize then
      match chunkFlush g drv chunk s with
      | (.error e, chunk, s) => (.error e, chunk :: chunks, [], s)
      | (.ok _, chunk, s) =>
        let rest := dropChunks offset count chunks s
        (rest.1, rest.2.1, rest.2.2.1 ++ [chunk], rest.2.2.2)
    else
      let rest := dropChunks offset count chunks s
      (rest.1, chunk :: rest.2.1, rest.2.2.1, rest.2.2.2)

/-- `block_op_erase`. What the blocks hold afterwards is up to the medium. -/
def blockOpErase : Result Unit :=
  if !drv.erase then (.error .eopnotsupp, s)
  else
    let count := count / g.blockSize
    let offset := offset / g.blockSize
    let dropped := dropChunks g drv offset count s.buffered s
    let s := { dropped.2.2.2 with buffered := dropped.2.1, idle := dropped.2.2.1 ++ s.idle }
    match dropped.1 with
    | .error e => (.error e, s)
    | .ok _ =>
      let s' := { s with
        medium := blit (offset * g.blockSize) (count * g.blockSize) (drv.content s.calls) s.medium,
        calls := s.calls + 1 }
      match drv.fault s.calls with
      | some e => (.error e, s')
      | none => (.ok (), s')

end Operations
end Barebox.Block
