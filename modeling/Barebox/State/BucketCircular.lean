import Barebox.Data.Flash
import Barebox.Errno

/-! The circular backend bucket of the state framework. A bucket owns one
eraseblock and appends records to it; each record ends in a small meta that
lets the next start find the last record by searching backwards. -/
namespace Barebox.State
open Bytes Flash

/-- How a physical eraseblock answers an access. An uncorrectable ECC error
leads to a torture test, which either erases the block or fails; an access
that fails otherwise may have handled some pages before. -/
inductive PebStatus where
  | clean
  | bitflips
  | eccError (torture : Option Errno)
  | failed (e : Errno) (done : Nat)
  deriving DecidableEq, Repr

/-- A physical eraseblock: what it holds and how the medium behaves. -/
structure Peb (size : Nat) where
  block : Block size
  onRead : PebStatus := .clean
  onWrite : PebStatus := .clean
  onErase : Option Errno := none
  deriving DecidableEq

def Peb.good {size : Nat} (block : Block size) : Peb size := { block }

def Peb.tortured {size : Nat} (peb : Peb size) : Peb size :=
  { peb with block := .erased size, onRead := .clean, onWrite := .clean }

def Peb.markBad {size : Nat} (peb : Peb size) : Peb size :=
  { peb with onRead := .failed .einval 0, onWrite := .failed .einval 0 }

/-- Sizes of a circular bucket. The eraseblock interface passes offsets and
lengths as `int`, and `state_backend_bucket_circular_create` raises the
writesize to at least eight. -/
structure Geometry where
  writesize : Nat
  maxSize : Nat
  eight_le_writesize : 8 ≤ writesize
  writesize_le_maxSize : writesize ≤ maxSize
  maxSize_lt : maxSize < 2 ^ 31
  deriving DecidableEq

structure BucketCircular (g : Geometry) where
  peb : Peb g.maxSize
  writeArea : Nat
  lastWrittenLength : Nat
  wrongMagic : Bool
  writeArea_le : writeArea ≤ g.maxSize
  deriving DecidableEq

/-- Outcome of a bucket's `read`: the buffer with the length reported for it.
`-EUCLEAN` comes with data. -/
inductive BucketRead where
  | ok (buf : List UInt8) (len : Nat)
  | unclean (buf : List UInt8) (len : Nat)
  | error (e : Errno)
  deriving DecidableEq, Repr

def circularMagic : Nat := 0x14fa2d02

def metaSize : Nat := 8

def roundup (x y : Nat) : Nat := (x + (y - 1)) / y * y

variable {g : Geometry}

namespace BucketCircular

def rewind (c : BucketCircular g) : BucketCircular g :=
  { c with writeArea := 0, writeArea_le := Nat.zero_le _ }

end BucketCircular

variable (c : BucketCircular g)

/-- `state_mtd_peb_read`: bit flips ask for a refresh; after a read error the block is tortured. -/
def mtdPebRead (offset len : Nat) : Except Errno (Bool × List UInt8) × BucketCircular g :=
  match c.peb.onRead with
  | .clean => (.ok (false, c.peb.block.read offset len), c)
  | .bitflips => (.ok (true, c.peb.block.read offset len), c)
  | .eccError none => (.ok (true, zeros len), { c.rewind with peb := c.peb.tortured })
  | .eccError (some .eio) => (.error .eio, { c with peb := c.peb.markBad })
  | .eccError (some e) => (.error e, c)
  | .failed e _ => (.error e, c)

/-- `state_mtd_peb_write`. The pages of the buffer are programmed in ascending
order. -/
def mtdPebWrite (buf : List UInt8) (offset : Nat) : Except Errno Unit × BucketCircular g :=
  let steps := pageSteps g.writesize offset buf
  match c.peb.onWrite with
  | .clean => (.ok (), { c with peb.block := c.peb.block.run steps })
  | .bitflips => (.error .euclean, { c with peb.block := c.peb.block.run steps })
  | .eccError none => (.error .euclean, { c with peb := c.peb.tortured })
  | .eccError (some .eio) => (.error .eio, { c with peb := c.peb.markBad })
  | .eccError (some e) => (.error e, c)
  | .failed e done => (.error e, { c with peb.block := c.peb.block.run (steps.take done) })

def mtdPebErase : Except Errno Unit × BucketCircular g :=
  match c.peb.onErase with
  | none => (.ok (), { c with peb.block := .erased g.maxSize })
  | some e => (.error e, c)

/-- The part of `state_backend_bucket_circular_read` behind the choice of the
range. The meta at the end of a record is not reported to the caller. -/
def bucketCircularReadRange (offset readLen : Nat) : BucketRead × BucketCircular g :=
  if readLen = 0 then (.error .einval, c)
  else
    let len := if c.lastWrittenLength ≠ 0 then readLen - metaSize else readLen
    match mtdPebRead c offset readLen with
    | (.ok (false, buf), c) => (.ok buf len, c)
    | (.ok (true, buf), c) => (.unclean buf len, c)
    | (.error e, c) => (.error e, c)

/-- `state_backend_bucket_circular_read`: without a length the bucket has the old format. -/
def bucketCircularRead : BucketRead × BucketCircular g :=
  if c.writeArea = 0 then (.error .enodata, c)
  else if c.lastWrittenLength = 0 then
    bucketCircularReadRange c.rewind 0 (min c.writeArea (g.maxSize - metaSize))
  else if c.writeArea < c.lastWrittenLength ∨ c.lastWrittenLength % g.writesize ≠ 0 then
    (.error .einval, c.rewind)
  else
    bucketCircularReadRange c (c.writeArea - c.lastWrittenLength) c.lastWrittenLength

/-- `written_length` of a payload; the variable is a `uint32_t`. -/
def writtenLength (g : Geometry) (len : Nat) : Nat := roundup (len + metaSize) g.writesize % 2 ^ 32

def circularMeta (written : Nat) : List UInt8 := le 4 circularMagic ++ le 4 written

/-- A record in flash: the data, padding to a whole page, and the metadata at its end. -/
def circularRecord (g : Geometry) (buf : List UInt8) : List UInt8 :=
  buf ++ (zeros (writtenLength g buf.length - metaSize - buf.length) ++
    circularMeta (writtenLength g buf.length))

def BucketCircular.writeOffset (written : Nat) : Nat :=
  if g.maxSize ≤ c.writeArea + written then 0 else c.writeArea

theorem BucketCircular.writeOffset_add_le {written : Nat} (h : written ≤ g.maxSize) :
    c.writeOffset written + written ≤ g.maxSize := by
  unfold writeOffset
  split_ifs <;> omega

/-- `state_backend_bucket_circular_write`: erases when the record does not fit behind the last. -/
def bucketCircularWrite (buf : List UInt8) : Except Errno Unit × BucketCircular g :=
  let written := writtenLength g buf.length
  if h : g.maxSize < written then (.error .e2big, c)
  else if written = 0 then (.error .einval, c)
  else
    let offset := c.writeOffset written
    have position : written ≤ g.maxSize → offset + written ≤ g.maxSize := c.writeOffset_add_le
    let c := { c with
      writeArea := offset
      writeArea_le := (Nat.le_add_right _ _).trans (position (Nat.le_of_not_lt h)) }
    match if offset = 0 then mtdPebErase c else (.ok (), c) with
    | (.error e, c) => (.error e, c)
    | (.ok (), c) =>
      let c := { c with
        writeArea := offset + written
        writeArea_le := position (Nat.le_of_not_lt h) }
      mtdPebWrite c (circularRecord g buf) offset

/-- Search backwards for the last page that is not erased. `stop` is the
`sub_offset` of the source plus the writesize; the number of remaining pages
bounds the loop. -/
def bucketCircularScan (writesize : Nat) (bytes : List UInt8) : Nat → Nat → Nat
  | 0, stop => stop
  | pages + 1, stop =>
    if stop < writesize then stop
    else if blank (slice (stop - writesize) writesize bytes) then
      bucketCircularScan writesize bytes pages (stop - writesize)
    else stop

theorem bucketCircularScan_le (writesize : Nat) (bytes : List UInt8) (pages stop : Nat) :
    bucketCircularScan writesize bytes pages stop ≤ stop := by
  induction pages generalizing stop with
  | zero => exact le_rfl
  | succ pages ih =>
    unfold bucketCircularScan
    split_ifs
    · rfl
    · exact (ih _).trans (Nat.sub_le _ _)
    · rfl

def metaAt (bytes : List UInt8) (stop : Nat) : Nat × Nat :=
  (ofLe (slice (stop - metaSize) 4 bytes), ofLe (slice (stop - 4) 4 bytes))

/-- `state_backend_bucket_circular_init`. When no page is in use, the scan
stops below one page and there is no meta to look at. -/
def bucketCircularInit (peb : Peb g.maxSize) : Except Errno (BucketCircular g) :=
  let c : BucketCircular g := ⟨peb, 0, 0, false, Nat.zero_le _⟩
  match mtdPebRead c 0 g.maxSize with
  | (.error e, _) => .error e
  | (.ok (_, buf), c) =>
    let stop := bucketCircularScan g.writesize buf g.maxSize g.maxSize
    let mark := metaAt buf stop
    .ok { c with
      writeArea := stop
      lastWrittenLength :=
        if g.writesize ≤ stop ∧ mark.1 = circularMagic then mark.2 else 0
      wrongMagic :=
        decide (g.writesize ≤ stop ∧ mark.1 ≠ circularMagic ∧ mark.1 ≠ 2 ^ 32 - 1 ∧ mark.1 ≠ 0)
      writeArea_le := bucketCircularScan_le _ _ _ _ }

end Barebox.State
