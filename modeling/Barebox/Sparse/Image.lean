import Barebox.Data.Bytes

/-! `lib/image-sparse.c`: an Android sparse image is read piece by piece. The context
keeps the file, the chunk it is in and how much of that chunk is still to be delivered.
A failing function returns its negative C value; the context is dropped then, as the
callers do. `size_t` has 64 bits. -/
namespace Barebox.Sparse
open Bytes

def einval : Int := -22

structure File where
  data : List UInt8
  pos : Nat
  deriving DecidableEq

/-- `read_full`. The count is an `int`, so that one of two gigabytes or more comes out
negative and is taken for an error. -/
def readFull (f : File) (size : Nat) : Except Int (List UInt8 × File) :=
  let bytes := slice f.pos size f.data
  if 2147483648 ≤ bytes.length then .error (bytes.length - 4294967296)
  else .ok (bytes, { f with pos := f.pos + bytes.length })

/-- `lseek` to a position counted from the start of the file. -/
def lseek (f : File) (pos : Int) : Except Int File :=
  if pos < 0 ∨ (f.data.length : Int) < pos then .error einval else .ok { f with pos := pos.toNat }

/-- A `uint64_t` passed as a `loff_t`. -/
def loff (n : Nat) : Int := if n < 9223372036854775808 then n else n - 18446744073709551616

/-- `struct sparse_header` as far as it is looked at. -/
structure SparseHeader where
  fileHdrSz : Nat
  chunkHdrSz : Nat
  blkSz : Nat
  totalBlks : Nat
  totalChunks : Nat
  deriving DecidableEq

def SparseHeader.size : Nat := 28

def SparseHeader.ofBytes (bytes : List UInt8) : SparseHeader where
  fileHdrSz := ofLe (slice 8 2 bytes)
  chunkHdrSz := ofLe (slice 10 2 bytes)
  blkSz := ofLe (slice 12 4 bytes)
  totalBlks := ofLe (slice 16 4 bytes)
  totalChunks := ofLe (slice 20 4 bytes)

def chunkTypeRaw : Nat := 0xCAC1
def chunkTypeFill : Nat := 0xCAC2
def chunkTypeDontCare : Nat := 0xCAC3
def chunkTypeCrc32 : Nat := 0xCAC4

structure ChunkHeader where
  chunkType : Nat
  chunkSz : Nat
  totalSz : Nat
  deriving DecidableEq

def ChunkHeader.size : Nat := 12

def ChunkHeader.ofBytes (bytes : List UInt8) : ChunkHeader where
  chunkType := ofLe (slice 0 2 bytes)
  chunkSz := ofLe (slice 4 4 bytes)
  totalSz := ofLe (slice 8 4 bytes)

/-- `struct sparse_image_ctx`. The position is a `loff_t`, kept as its 64 bits; the fill
value as the four bytes it has in memory. -/
structure SparseImage where
  file : File
  sparse : SparseHeader
  processedChunks : Nat
  chunk : ChunkHeader
  pos : Nat
  remaining : Nat
  fillVal : List UInt8
  deriving DecidableEq

variable (si : SparseImage)

def SparseImage.chunkDataSz : Nat := si.sparse.blkSz * si.chunk.chunkSz

/-- `payload`, an `unsigned int`. -/
def SparseImage.payload : Nat := (si.chunk.totalSz + 4294967296 - si.sparse.chunkHdrSz) % 4294967296

def SparseImage.advance (n : Nat) : SparseImage :=
  { si with pos := (si.pos + n) % 18446744073709551616 }

/-- The part of `sparse_seek` that reads a chunk header and skips the bytes of it that are
not known. -/
def readChunkHeader : Except Int SparseImage :=
  match readFull si.file ChunkHeader.size with
  | .error e => .error e
  | .ok (header, file) =>
    if header.length < ChunkHeader.size then .error einval
    else
      let si := { si with chunk := .ofBytes header, processedChunks := si.processedChunks + 1 }
      if ChunkHeader.size < si.sparse.chunkHdrSz then
        match lseek file (file.pos + (si.sparse.chunkHdrSz - ChunkHeader.size : Nat)) with
        | .error e => .error e
        | .ok file => .ok { si with file := file }
      else .ok { si with file := file }

/-- `sparse_seek` with the number of chunks that have not been looked at. The result says
whether there is a chunk with data. -/
def sparseSeekFrom : Nat → SparseImage → Except Int (Bool × SparseImage)
  | 0, si => .ok (false, si)
  | left + 1, si =>
    match readChunkHeader si with
    | .error e => .error e
    | .ok si =>
      if si.chunk.chunkType = chunkTypeRaw then
        if si.payload ≠ si.chunkDataSz then .error einval
        else .ok (true, { si with remaining := si.payload })
      else if si.chunk.chunkType = chunkTypeFill then
        if si.payload ≠ 4 then .error einval
        else
          match readFull si.file 4 with
          | .error e => .error e
          | .ok (fillVal, file) =>
            if fillVal.length < 4 then .error einval
            else .ok (true,
              { si with file := file, fillVal := fillVal, remaining := si.chunkDataSz })
      else if si.chunk.chunkType = chunkTypeDontCare then
        sparseSeekFrom left (si.advance si.chunkDataSz)
      else if si.chunk.chunkType = chunkTypeCrc32 then
        if si.payload ≠ 4 then .error einval
        else
          match lseek si.file (si.file.pos + loff si.chunkDataSz) with
          | .error _ => .error einval
          | .ok file => sparseSeekFrom left { si with file := file }
      else .error einval

/-- `sparse_seek`: the next chunk with data. -/
def sparseSeek : Except Int (Bool × SparseImage) :=
  sparseSeekFrom (si.sparse.totalChunks - si.processedChunks) si

/-- `sparse_image_open` on the contents of the file. -/
def sparseImageOpen (data : List UInt8) : Except Int SparseImage :=
  let sparse := SparseHeader.ofBytes (slice 0 SparseHeader.size data)
  let file : File := ⟨data, min SparseHeader.size data.length⟩
  let opened (file : File) : Except Int SparseImage :=
    match sparseSeek ⟨file, sparse, 0, ⟨0, 0, 0⟩, 0, 0, zeros 4⟩ with
    | .error e => .error e
    | .ok (_, si) => .ok si
  if SparseHeader.size < sparse.fileHdrSz then
    match lseek file sparse.fileHdrSz with
    | .error e => .error e
    | .ok file => opened file
  else opened file

def repeated (n : Nat) (bytes : List UInt8) : List UInt8 := (List.replicate n bytes).flatten

/-- The loop that fills a buffer with the fill value. Its index is an `int`: the loop
ends when that becomes negative. -/
def fillBuffer (fillVal : List UInt8) (now : Nat) (buf : List UInt8) : List UInt8 :=
  let words := repeated (min (now / 4) 2147483648) fillVal
  words ++ (buf.take now).drop words.length

/-- The part of `sparse_image_read` behind the seek: the position and the bytes that are
delivered. -/
def deliver (buf : List UInt8) : Except Int ((Nat × List UInt8) × SparseImage) :=
  let now := min si.remaining buf.length
  let si' := { si.advance now with remaining := si.remaining - now }
  if si.chunk.chunkType = chunkTypeRaw then
    match readFull si.file now with
    | .error e => .error e
    | .ok (bytes, file) =>
      if bytes.length < now then .error einval
      else .ok ((si.pos, bytes), { si' with file := file })
  else if si.chunk.chunkType = chunkTypeFill then
    if now % 4 ≠ 0 then .error einval else .ok ((si.pos, fillBuffer si.fillVal now buf), si')
  else .error einval

/-- `sparse_image_read` into a buffer; `retlen` is the number of bytes delivered. The
position is not set at the end of the image. -/
def sparseImageRead (buf : List UInt8) : Except Int ((Nat × List UInt8) × SparseImage) :=
  if si.remaining = 0 then
    match sparseSeek si with
    | .error e => .error e
    | .ok (false, si) => .ok ((0, []), si)
    | .ok (true, si) => deliver si buf
  else deliver si buf

/-- The loop of `fastboot_handle_sparse`: read until nothing is delivered, always into the
same buffer. Nothing if there were more reads than the given number. -/
def readAll :
    Nat → SparseImage → List UInt8 → Option (Except Int (List (Nat × List UInt8) × SparseImage))
  | 0, _, _ => none
  | reads + 1, si, buf =>
    match sparseImageRead si buf with
    | .error e => some (.error e)
    | .ok (piece, si) =>
      if piece.2 = [] then some (.ok ([], si))
      else
        match readAll reads si (piece.2 ++ buf.drop piece.2.length) with
        | some (.ok (pieces, si)) => some (.ok (piece :: pieces, si))
        | result => result

end Barebox.Sparse
