import Barebox.Data.Bytes

/-! The CRC of `crypto/crc32.c`, byte by byte over a table of 256 entries. -/
namespace Barebox.Lib

def crcTerms : List UInt32 := [0, 1, 2, 4, 5, 7, 8, 10, 11, 12, 16, 22, 23, 26]

def crcPoly : UInt32 := crcTerms.foldl (fun poly n => poly ||| ((1 : UInt32) <<< (31 - n))) 0

/-- The inner loop of `make_crc_table`. -/
def crcShift : Nat → UInt32 → UInt32
  | 0, c => c
  | k + 1, c => crcShift k (if c &&& 1 = 1 then crcPoly ^^^ (c >>> 1) else c >>> 1)

def crcTable (n : UInt32) : UInt32 := crcShift 8 n

def crc32NoComp (crc : UInt32) (buf : List UInt8) : UInt32 :=
  buf.foldl (fun crc b => crcTable ((crc ^^^ b.toUInt32) &&& 0xff) ^^^ (crc >>> 8)) crc

def crc32 (crc : UInt32) (buf : List UInt8) : UInt32 := ~~~crc32NoComp (~~~crc) buf

example : crc32 0 [49, 50, 51, 52, 53, 54, 55, 56, 57] = 0xcbf43926 := by decide +kernel

end Barebox.Lib
