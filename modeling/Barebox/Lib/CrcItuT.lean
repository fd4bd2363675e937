import Barebox.Data.Bytes

/-! The CRC of `crypto/crc-itu-t.c`, byte by byte over a table of 256 entries. -/
namespace Barebox.Lib

/-- The loop of `crc_itu_t_byte`. -/
def crcItuTShift : Nat → UInt16 → UInt16
  | 0, crc => crc
  | i + 1, crc => crcItuTShift i (if crc &&& 0x8000 ≠ 0 then (crc <<< 1) ^^^ 0x1021 else crc <<< 1)

def crcItuTByte (crc : UInt16) (data : UInt8) : UInt16 :=
  crcItuTShift 8 (crc ^^^ (data.toUInt16 <<< 8))

def crcItuT (crc : UInt16) (buffer : List UInt8) : UInt16 :=
  buffer.foldl (fun crc b => (crc <<< 8) ^^^ crcItuTByte 0 ((crc >>> 8) ^^^ b.toUInt16).toUInt8) crc

example : crcItuT 0 [49, 50, 51, 52, 53, 54, 55, 56, 57] = 0x31c3 := by decide +kernel

/-- The lower byte of entry `x` of the table is `y ^ y << 5` for `y = x ^ x >> 4`. -/
theorem crcItuTByte_low_inj : Function.Injective fun x => (crcItuTByte 0 x).toUInt8 := by
  let index (low : UInt8) : UInt8 := (low ^^^ low <<< 5) ^^^ (low ^^^ low <<< 5) >>> 4
  have hIndex : ∀ n < 256, index (crcItuTByte 0 (.ofNat n)).toUInt8 = .ofNat n := by decide +kernel
  exact Function.LeftInverse.injective (g := index) fun x => by
    simpa using hIndex x.toNat x.toNat_lt

theorem crcItuT_step_inj {s t : UInt16} {x y : UInt8}
    (h : s <<< 8 ^^^ crcItuTByte 0 x = t <<< 8 ^^^ crcItuTByte 0 y) :
    x = y ∧ s <<< 8 = t <<< 8 := by
  have hLow (s : UInt16) : (s <<< 8).toUInt8 = 0 := by
    simp [← UInt8.toNat_inj, UInt16.toNat_shiftLeft]
    omega
  obtain rfl : x = y := crcItuTByte_low_inj (by simpa [hLow] using congrArg UInt16.toUInt8 h)
  exact ⟨rfl, by simpa using h⟩

theorem crcItuT_replace_iff (crc : UInt16) (pre post : List UInt8) (a b : UInt8) :
    crcItuT crc (pre ++ b :: post) = crcItuT crc (pre ++ a :: post) ↔ b = a := by
  refine Bytes.foldl_replace_iff (fun a s t h => ?_) (fun s a b h => ?_) pre post a b crc
  · obtain ⟨hEntry, hLow⟩ := crcItuT_step_inj h
    have hHigh : (s >>> 8).toUInt8 = (t >>> 8).toUInt8 := by simpa using hEntry
    simp [← UInt8.toNat_inj, ← UInt16.toNat_inj, UInt16.toNat_shiftLeft] at hHigh hLow ⊢
    have := s.toNat_lt
    have := t.toNat_lt
    omega
  · simpa using (crcItuT_step_inj h).1

end Barebox.Lib
