import Barebox.Fs.File

/-! Loadables: a memory region, a file, or a decompression wrapper around one of them. A file is
read through the file layer from a file system whose reads succeed. A decompressor is known by
the chunks it passes on for a stream, and by the error it ends with when one is not taken. The
buffer does not lie in the zero page. -/
namespace Barebox.Lib
open Bytes Fs

/-- `mem_loadable_extract_into_buf`. -/
def memExtract (data : List UInt8) (size offset : Nat) (isPartial : Bool) :
    Except Failure (List UInt8) :=
  if data.length ≤ offset then .ok []
  else if isPartial = false ∧ size < data.length - offset then .error (.errno .enospc)
  else .ok (slice offset (min (data.length - offset) size) data)

/-- `read` of a file system that holds the content of the file. -/
def staticReader (content : List UInt8) : Reader Unit :=
  fun node pos count => (.ok (slice pos count content), node)

/-- The loop of `read_full`: what is in the buffer. -/
def readFullLoop {σ : Type} (driver : Reader σ) (f : File σ) (size : Nat) :
    Except Failure (List UInt8) × File σ :=
  if _hSize : size = 0 then (.ok [], f)
  else
    match Fs.read driver f size with
    | (.error e, f') => (.error e, f')
    | (.ok [], f') => (.ok [], f')
    | (.ok (b :: bytes), f') =>
      let (r, f'') := readFullLoop driver f' (size - (b :: bytes).length)
      (r.map (b :: bytes ++ ·), f'')
termination_by size
decreasing_by
  rw [List.length_cons]
  omega

/-- `read_full`: it returns an `int`. -/
def readFull {σ : Type} (driver : Reader σ) (f : File σ) (size : Nat) :
    Except Failure (List UInt8) × File σ :=
  let (r, f') := readFullLoop driver f size
  (r.bind returned, f')

/-- `file_loadable_extract_into_buf`. -/
def fileExtract (content : List UInt8) (size offset : Nat) (isPartial : Bool) :
    Except Failure (List UInt8) :=
  match Fs.lseek (fun node _ => .ok node) (⟨0, content.length, ()⟩ : File Unit) offset .set with
  | (.error e, _) => .error (.errno e)
  | (.ok _, f) =>
    match readFull (staticReader content) f size with
    | (.error e, _) => .error e
    | (.ok bytes, f') =>
      if isPartial = false ∧ bytes.length = size then
        match readFull (staticReader content) f' 1 with
        | (.ok (_ :: _), _) => .error (.errno .enospc)
        | _ => .ok bytes
      else .ok bytes

inductive PlainLoadable where
  | mem (data : List UInt8)
  | file (content : List UInt8)

def PlainLoadable.content : PlainLoadable → List UInt8
  | .mem data => data
  | .file content => content

def PlainLoadable.extract : PlainLoadable → Nat → Nat → Bool → Except Failure (List UInt8)
  | .mem data => memExtract data
  | .file content => fileExtract content

/-- A decompressor: how much it asks for at a time until it has a stream, what it passes on for
it, and the error it ends with when a chunk is not taken, which is no `-ENOSPC`. -/
structure Decompressor where
  asks : List UInt8 → List Nat
  chunks : List UInt8 → List (List UInt8)
  failure : Errno
  asks_all : ∀ stream, stream.length ≤ (asks stream).sum
  asks_small : ∀ stream, ∀ n ∈ asks stream, n < 2147483648
  failure_ne : failure ≠ .enospc

/-- `struct decompress_ctx`, with what is in the destination buffer. -/
structure DecompressCtx where
  dest : List UInt8
  destSize : Nat
  skipBytes : Nat
  done : Bool

/-- Calls of `decompress_fill`, from a position of the compressed stream. -/
def decompressFills (inner : PlainLoadable) : List Nat → Nat → Except Failure (List UInt8)
  | [], _ => .ok []
  | len :: rest, pos => do
      let bytes ← inner.extract len pos true
      let more ← decompressFills inner rest (pos + bytes.length)
      return bytes ++ more

/-- The part of `decompress_flush` behind the skipping: the length it returns is the one that is
left. -/
def flushCopy (ctx : DecompressCtx) (buf : List UInt8) : Nat × DecompressCtx :=
  let dest := ctx.dest ++ buf.take (ctx.destSize - ctx.dest.length)
  if ctx.destSize ≤ dest.length then (0, { ctx with dest := dest, done := true })
  else (buf.length, { ctx with dest := dest })

/-- `decompress_flush`: skips up to the offset, copies, and stops at a full buffer. -/
def decompressFlush (ctx : DecompressCtx) (buf : List UInt8) : Nat × DecompressCtx :=
  if ctx.done = true ∨ ctx.destSize ≤ ctx.dest.length then (0, { ctx with done := true })
  else if 0 < ctx.skipBytes then
    if buf.length ≤ ctx.skipBytes then
      (buf.length, { ctx with skipBytes := ctx.skipBytes - buf.length })
    else flushCopy { ctx with skipBytes := 0 } (buf.drop ctx.skipBytes)
  else flushCopy ctx buf

/-- A decompressor passes on its chunks until one is not taken. -/
def flushAll (failure : Errno) :
    List (List UInt8) → DecompressCtx → Except Errno Unit × DecompressCtx
  | [], ctx => (.ok (), ctx)
  | chunk :: rest, ctx =>
    let (n, ctx') := decompressFlush ctx chunk
    if n = chunk.length then flushAll failure rest ctx' else (.error failure, ctx')

/-- `decompress_loadable_extract_into_buf`. -/
def compressedExtract (inner : PlainLoadable) (d : Decompressor)
    (size offset : Nat) (isPartial : Bool) :
    Except Failure (List UInt8) :=
  match decompressFills inner (d.asks inner.content) 0 with
  | .error e => .error e
  | .ok stream =>
    match flushAll d.failure (d.chunks stream) ⟨[], size, offset, false⟩ with
    | (.error e, ctx) =>
      if ctx.done = false then .error (.errno e)
      else if offset ≠ 0 ∧ isPartial = false ∧ ctx.dest.length < size ∧
        ctx.done = false then .error (.errno .enospc)
      else .ok ctx.dest
    | (.ok _, ctx) =>
      if offset ≠ 0 ∧ isPartial = false ∧ ctx.dest.length < size ∧
        ctx.done = false then .error (.errno .enospc)
      else .ok ctx.dest

/-- `struct loadable` as far as extraction goes. -/
inductive Loadable where
  | plain (l : PlainLoadable)
  | compressed (inner : PlainLoadable) (d : Decompressor)

def Loadable.content : Loadable → List UInt8
  | .plain l => l.content
  | .compressed inner d => (d.chunks inner.content).flatten

def loadableExtractIntoBuf : Loadable → Nat → Nat → Bool → Except Failure (List UInt8)
  | .plain l => l.extract
  | .compressed inner d => compressedExtract inner d

/-- The loop of `loadable_extract_into_fd`, for a number of rounds: what was written, behind
`written`. The file takes everything. -/
def extractIntoFdLoop (l : Loadable) : Nat → List UInt8 → Option (Except Failure Nat × List UInt8)
  | 0, _ => none
  | rounds + 1, written =>
    match loadableExtractIntoBuf l 1048576 written.length true with
    | .error e => some (.error e, written)
    | .ok [] => some (.ok written.length, written)
    | .ok (b :: bytes) => extractIntoFdLoop l rounds (written ++ b :: bytes)

def loadableExtractIntoFd (l : Loadable) (rounds : Nat) :
    Option (Except Failure Nat × List UInt8) :=
  extractIntoFdLoop l rounds []

end Barebox.Lib
