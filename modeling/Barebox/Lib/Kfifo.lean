import Barebox.Data.Ring

/-! The byte fifo. Its indices run through all values of an `unsigned int` and
wrap there; the buffer size is a power of two, so that they can be masked. The
fifo is a bounded queue of bytes (`content`). -/
namespace Barebox.Lib
open Nat Memory UInt32

/-- `struct kfifo`: the positions run on and wrap around in 32 bits. -/
structure Kfifo where
  buffer : Memory
  bits : Nat
  inPos : UInt32
  outPos : UInt32
  bits_le : bits ≤ 31
  filled : (inPos - outPos).toNat ≤ 2 ^ bits

namespace Kfifo

def size (fifo : Kfifo) : Nat := 2 ^ fifo.bits

end Kfifo

def kfifoLen (fifo : Kfifo) : Nat := (fifo.inPos - fifo.outPos).toNat

/-- The exponent of the power of two that `kfifo_alloc` rounds a size up to. -/
def roundupPowOfTwo (size : Nat) : Nat :=
  if size &&& (size - 1) = 0 then size.log2 else (size - 1).log2 + 1

/-- `kfifo_alloc`, without the failure of `malloc`. A size that is not a power of
two and larger than 2 GiB is a bug; no fifo comes back from it either. -/
def kfifoAlloc (size : Nat) : Option Kfifo :=
  if size < 2 then none
  else if h : roundupPowOfTwo size ≤ 31 then
    some
      { buffer := fun _ => 0, bits := roundupPowOfTwo size, inPos := 0, outPos := 0, bits_le := h,
        filled := by simp }
  else none

def kfifoRoom (fifo : Kfifo) : Nat := (ofNat fifo.size - fifo.inPos + fifo.outPos).toNat

namespace Kfifo
variable (fifo : Kfifo)

theorem size_pos : 0 < fifo.size := Nat.two_pow_pos _
theorem size_dvd : fifo.size ∣ 2 ^ 32 := Nat.pow_dvd_pow 2 (by have h := fifo.bits_le; omega)
theorem size_le : fifo.size ≤ 2 ^ 31 := Nat.pow_le_pow_right (by decide) fifo.bits_le
theorem len_le : kfifoLen fifo ≤ fifo.size := fifo.filled

theorem inPos_mod :
    fifo.inPos.toNat % fifo.size = (fifo.outPos.toNat + kfifoLen fifo) % fifo.size := by
  have hIn : fifo.inPos.toNat = (fifo.outPos.toNat + kfifoLen fifo) % 2 ^ 32 := by
    have hLt := fifo.inPos.toNat_lt
    have hLt' := fifo.outPos.toNat_lt
    simp only [kfifoLen, UInt32.toNat_sub]
    omega
  rw [hIn, mod_mod_of_dvd _ fifo.size_dvd]

theorem room_eq : kfifoRoom fifo = fifo.size - kfifoLen fifo := by
  have hFilled := fifo.filled
  have hSize := fifo.size_le
  have hLt := fifo.inPos.toNat_lt
  have hLt' := fifo.outPos.toNat_lt
  simp only [kfifoRoom, kfifoLen, UInt32.toNat_add, UInt32.toNat_sub,
    UInt32.toNat_ofNat'] at hFilled ⊢
  change _ ≤ fifo.size at hFilled
  omega

theorem filled_put {n : Nat} (h : n ≤ kfifoRoom fifo) :
    (fifo.inPos + ofNat n - fifo.outPos).toNat = kfifoLen fifo + n := by
  have hFilled := fifo.filled
  have hSize := fifo.size_le
  rw [room_eq] at h
  simp only [kfifoLen, UInt32.toNat_add, UInt32.toNat_sub, UInt32.toNat_ofNat'] at h hFilled ⊢
  omega

theorem filled_get {n : Nat} (h : n ≤ kfifoLen fifo) :
    (fifo.inPos - (fifo.outPos + ofNat n)).toNat = kfifoLen fifo - n := by
  have hLt' := fifo.outPos.toNat_lt
  simp only [kfifoLen, UInt32.toNat_add, UInt32.toNat_sub, UInt32.toNat_ofNat'] at h ⊢
  omega

end Kfifo

/-- `kfifo_put`: the number of bytes taken and the new fifo. -/
def kfifoPut (fifo : Kfifo) (data : List UInt8) : Nat × Kfifo :=
  let len := min data.length (kfifoRoom fifo)
  let pos := fifo.inPos.toNat &&& (fifo.size - 1)
  let l := min len (fifo.size - pos)
  (len,
    { fifo with
      buffer := store 0 ((data.take len).drop l) (store pos (data.take l) fifo.buffer)
      inPos := fifo.inPos + ofNat len
      filled := by
        rw [fifo.filled_put (Nat.min_le_right _ _)]
        have hRoom := fifo.room_eq
        have hLen := fifo.len_le
        change _ ≤ fifo.size
        omega })

/-- `kfifo_get`: up to the end of the buffer, then from its start. -/
def kfifoGet (fifo : Kfifo) (len : Nat) : List UInt8 × Kfifo :=
  let len := min len (kfifoLen fifo)
  let pos := fifo.outPos.toNat &&& (fifo.size - 1)
  let l := min len (fifo.size - pos)
  (load pos l fifo.buffer ++ load 0 (len - l) fifo.buffer,
    { fifo with
      outPos := fifo.outPos + ofNat len
      filled := by
        rw [fifo.filled_get (Nat.min_le_right _ _)]
        have hLen := fifo.len_le
        change _ ≤ fifo.size
        omega })

namespace Kfifo

def content (fifo : Kfifo) : List UInt8 :=
  ringLoad fifo.size fifo.outPos.toNat (kfifoLen fifo) fifo.buffer

@[simp] theorem content_length (fifo : Kfifo) : fifo.content.length = kfifoLen fifo :=
  ringLoad_length ..

theorem mask_eq (fifo : Kfifo) (pos : Nat) : pos &&& (fifo.size - 1) = pos % fifo.size :=
  and_two_pow_sub_one_eq_mod pos fifo.bits

end Kfifo

variable (fifo : Kfifo) (data : List UInt8) (len : Nat)

@[simp] theorem kfifoPut_size : (kfifoPut fifo data).2.size = fifo.size := rfl
@[simp] theorem kfifoGet_size : (kfifoGet fifo len).2.size = fifo.size := rfl

theorem kfifoPut_count : (kfifoPut fifo data).1 = min data.length (fifo.size - kfifoLen fifo) := by
  rw [← fifo.room_eq]
  rfl

theorem kfifoPut_content :
    (kfifoPut fifo data).2.content = fifo.content ++ data.take (kfifoPut fifo data).1 := by
  have hSize := fifo.len_le
  have hCount : (data.take (kfifoPut fifo data).1).length = (kfifoPut fifo data).1 := by
    simp [kfifoPut_count]
  have hLen : kfifoLen (kfifoPut fifo data).2 = kfifoLen fifo + (kfifoPut fifo data).1 :=
    fifo.filled_put (Nat.min_le_right _ _)
  have hBuffer : (kfifoPut fifo data).2.buffer = ringStore fifo.size
      ((fifo.outPos.toNat + kfifoLen fifo) % fifo.size)
        (data.take (kfifoPut fifo data).1) fifo.buffer := by
    rw [ringStore, hCount, ← fifo.inPos_mod, List.take_take,
      Nat.min_eq_left (Nat.min_le_left _ _), ← fifo.mask_eq]
    rfl
  calc (kfifoPut fifo data).2.content
      = ringLoad fifo.size fifo.outPos.toNat
          (kfifoLen fifo + (data.take (kfifoPut fifo data).1).length)
            (kfifoPut fifo data).2.buffer := by
        rw [hCount, ← hLen]
        rfl
    _ = fifo.content ++ data.take (kfifoPut fifo data).1 := by
        rw [hBuffer]
        refine ringLoad_ringStore _ fifo.size_pos ?_
        simp [kfifoPut_count]
        omega

theorem kfifoGet_bytes : (kfifoGet fifo len).1 = fifo.content.take len := by
  have hLen := fifo.len_le
  have hMin := Nat.min_le_right len (kfifoLen fifo)
  have hTake : fifo.content.take len = fifo.content.take (min len (kfifoLen fifo)) := by simp
  rw [hTake, Kfifo.content, ringLoad_take _ hMin]
  rw [ringLoad_congr _ _ (mod_mod fifo.outPos.toNat fifo.size).symm,
    ← load_wrap _ (mod_lt _ fifo.size_pos) (Nat.le_trans hMin hLen), ← fifo.mask_eq]
  rfl

theorem kfifoGet_content : (kfifoGet fifo len).2.content = fifo.content.drop len := by
  have hMin := Nat.min_le_right len (kfifoLen fifo)
  have hDrop : fifo.content.drop len = fifo.content.drop (min len (kfifoLen fifo)) := by
    rcases Nat.le_total len fifo.content.length with h | h
    · simp
    · simp
  have hLen : kfifoLen (kfifoGet fifo len).2 = kfifoLen fifo - min len (kfifoLen fifo) :=
    fifo.filled_get hMin
  have hOut : (kfifoGet fifo len).2.outPos.toNat % fifo.size =
      (fifo.outPos.toNat + min len (kfifoLen fifo)) % fifo.size := by
    change (fifo.outPos + ofNat (min len (kfifoLen fifo))).toNat % fifo.size = _
    rw [UInt32.toNat_add, UInt32.toNat_ofNat', add_mod_mod, mod_mod_of_dvd _ fifo.size_dvd]
  rw [hDrop, Kfifo.content, Kfifo.content, ringLoad_drop _ hMin, kfifoGet_size, hLen]
  exact ringLoad_congr _ _ hOut

variable {size : Nat}

theorem roundupPowOfTwo_spec (h : 2 ≤ size) :
    size ≤ 2 ^ roundupPowOfTwo size ∧ 2 ^ roundupPowOfTwo size < 2 * size := by
  unfold roundupPowOfTwo
  split
  next hPow =>
    obtain ⟨k, rfl⟩ := (and_sub_one_eq_zero_iff_isPowerOfTwo (by omega)).mp hPow
    simp
  next =>
    have hUpper := lt_log2_self (n := size - 1)
    have hLower := log2_self_le (n := size - 1) (by omega)
    omega

theorem kfifoAlloc_content {fifo : Kfifo} (h : kfifoAlloc size = some fifo) :
    fifo.content = [] := by
  unfold kfifoAlloc at h
  split at h
  next => cases h
  next =>
    split at h
    next => cases h; exact List.eq_nil_of_length_eq_zero (by simp [kfifoLen])
    next => cases h

theorem kfifoAlloc_spec (hSize : 2 ≤ size) (hLe : size ≤ 2 ^ 31) :
    ∃ fifo, kfifoAlloc size = some fifo ∧ size ≤ fifo.size := by
  obtain ⟨hUpper, hLower⟩ := roundupPowOfTwo_spec hSize
  have hBits : roundupPowOfTwo size ≤ 31 := by
    have hLt : 2 ^ roundupPowOfTwo size < 2 ^ 32 := by omega
    have hExp := (Nat.pow_lt_pow_iff_right (by decide : 1 < 2)).mp hLt
    omega
  unfold kfifoAlloc
  rw [if_neg (by omega), dif_pos hBits]
  exact ⟨_, rfl, hUpper⟩

end Barebox.Lib
