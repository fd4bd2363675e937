import Barebox.Data.Bytes
import Barebox.Errno

/-! A block device as `block_read` and `block_write` show it, above the cache.
Writes happen block by block, in order. -/
namespace Barebox.Partitions
open Bytes

/-- The content of a block device. Its size in bytes fits a `loff_t`. -/
structure Disk where
  blockBits : Nat
  numBlocks : Nat
  block : Nat → List UInt8
  minBits : 9 ≤ blockBits
  size_lt : numBlocks * 2 ^ blockBits < 2 ^ 63
  block_length : ∀ i, (block i).length = 2 ^ blockBits

namespace Disk
variable (d : Disk)

def blockSize : Nat := 2 ^ d.blockBits

theorem blockSize_ge : 512 ≤ d.blockSize := Nat.pow_le_pow_right (n := 2) Nat.two_pos d.minBits
theorem blockSize_pos : 0 < d.blockSize := Nat.lt_of_lt_of_le (by decide) d.blockSize_ge

def index (lba : Nat) : Nat := lba * d.blockSize % 2 ^ 64 / d.blockSize

theorem index_of_lt {d : Disk} {lba : Nat} (h : lba < d.numBlocks) : d.index lba = lba := by
  have hSize := d.size_lt
  have hMul : lba * d.blockSize ≤ d.numBlocks * 2 ^ d.blockBits := Nat.mul_le_mul_right _ h.le
  have hLt : lba * d.blockSize < 2 ^ 64 := by omega
  rw [index, Nat.mod_eq_of_lt hLt, Nat.mul_div_cancel _ d.blockSize_pos]

def range (d : Disk) (i : Nat) : Nat → List UInt8
  | 0 => []
  | n + 1 => d.block i ++ range d (i + 1) n

def blockRead (lba n : Nat) : Except Errno (List UInt8) :=
  if n = 0 ∨ d.index lba + n ≤ d.numBlocks then .ok (d.range (d.index lba) n) else .error .enxio

def fit (size : Nat) (bytes : List UInt8) : List UInt8 := (bytes ++ zeros size).take size

@[simp] theorem fit_length (size : Nat) (bytes : List UInt8) : (fit size bytes).length = size := by
  simp [fit]

theorem fit_of_length {size : Nat} {bytes : List UInt8} (h : bytes.length = size) :
    fit size bytes = bytes := by
  simp [fit, h]

def put (i : Nat) (bytes : List UInt8) : Disk where
  blockBits := d.blockBits
  numBlocks := d.numBlocks
  block j := if j = i then fit (2 ^ d.blockBits) bytes else d.block j
  minBits := d.minBits
  size_lt := d.size_lt
  block_length j := by
    split_ifs
    · exact fit_length _ _
    · exact d.block_length j

theorem put_block_self {i : Nat} {bytes : List UInt8} (h : bytes.length = d.blockSize) :
    (d.put i bytes).block i = bytes := by
  rw [put]
  simp only [if_true]
  exact fit_of_length h

abbrev BlockWrite := Nat × List UInt8

/-- The single-block writes of a buffer of `n` blocks. -/
def blockWrites (d : Disk) (i : Nat) (buf : List UInt8) : Nat → List BlockWrite
  | 0 => []
  | n + 1 => (i, buf.take d.blockSize) :: blockWrites d (i + 1) (buf.drop d.blockSize) n

def applyWrites (writes : List BlockWrite) : Disk := writes.foldl (fun d w => d.put w.1 w.2) d

/-- `block_write`: the result and the blocks that are written. Blocks behind the
end of the device are refused after those in front of it were written. -/
def blockWrite (d : Disk) (lba : Nat) (buf : List UInt8) (n : Nat) :
    Except Errno Unit × List BlockWrite :=
  if n = 0 ∨ d.index lba + n ≤ d.numBlocks then (.ok (), d.blockWrites (d.index lba) buf n)
  else (.error .einval, d.blockWrites (d.index lba) buf (d.numBlocks - d.index lba))

end Disk
end Barebox.Partitions
