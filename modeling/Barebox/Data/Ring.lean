import Barebox.Data.Memory

/-! A ring of `size` bytes at address zero of a memory: what stands in it from an
index on, and copying into it in two pieces. Indices are taken modulo the size. -/
namespace Memory
open List

def ringLoad (size pos len : Nat) (m : Memory) : List UInt8 :=
  (range len).map fun i => m ((pos + i) % size)

def ringStore (size pos : Nat) (bytes : List UInt8) (m : Memory) : Memory :=
  let l := min bytes.length (size - pos)
  store 0 (bytes.drop l) (store pos (bytes.take l) m)

@[simp] theorem ringLoad_length (size pos len : Nat) (m : Memory) :
    (ringLoad size pos len m).length = len := by
  simp [ringLoad]

theorem ringLoad_append (size pos len n : Nat) (m : Memory) :
    ringLoad size pos (len + n) m = ringLoad size pos len m ++ ringLoad size (pos + len) n m := by
  simp [ringLoad, range_add, Nat.add_assoc]

variable {size pos len n i : Nat} {bytes : List UInt8} (m : Memory)

theorem ringLoad_take (h : n ≤ len) : (ringLoad size pos len m).take n = ringLoad size pos n m := by
  obtain ⟨rest, rfl⟩ := Nat.exists_eq_add_of_le h
  simp [ringLoad_append]

theorem ringLoad_drop (h : n ≤ len) :
    (ringLoad size pos len m).drop n = ringLoad size (pos + n) (len - n) m := by
  obtain ⟨rest, rfl⟩ := Nat.exists_eq_add_of_le h
  simp [ringLoad_append]

theorem ringLoad_congr {pos' : Nat} (len : Nat) (m : Memory) (h : pos % size = pos' % size) :
    ringLoad size pos len m = ringLoad size pos' len m := by
  refine map_congr_left fun i _ => congrArg m ?_
  simp [Nat.add_mod, h]

variable (hPos : pos < size)
include hPos

theorem ring_index (hi : i < size) :
    (pos + i) % size = if pos + i < size then pos + i else pos + i - size := by
  split
  next h => exact Nat.mod_eq_of_lt h
  next h => rw [Nat.mod_eq_sub_mod (Nat.le_of_not_lt h), Nat.mod_eq_of_lt (by omega)]

theorem load_wrap (hLen : len ≤ size) :
    load pos (min len (size - pos)) m ++ load 0 (len - min len (size - pos)) m =
    ringLoad size pos len m := by
  obtain ⟨rest, hRest⟩ := Nat.exists_eq_add_of_le (Nat.min_le_left len (size - pos))
  have hSub : len - min len (size - pos) = rest := by omega
  rw [hSub]
  conv => rhs; rw [hRest, ringLoad_append]
  congr 1
  · refine map_congr_left fun i hi => congrArg m ?_
    have hLt := mem_range.mp hi
    rw [ring_index hPos (by omega), if_pos (by omega)]
  refine map_congr_left fun i hi => congrArg m ?_
  have hLt := mem_range.mp hi
  rw [Nat.add_assoc, ring_index hPos (by omega), if_neg (by omega)]
  omega

theorem ringStore_of_lt (hLen : bytes.length ≤ size) (hi : i < bytes.length) :
    ringStore size pos bytes m ((pos + i) % size) = bytes.getD i 0 := by
  rw [ring_index hPos (by omega)]
  unfold ringStore
  split
  next h =>
    have hTake : (bytes.take (min bytes.length (size - pos))).length =
        min bytes.length (size - pos) := by simp
    rw [store_of_not_mem _ (by simp; omega), store_of_mem _ (by omega),
      Nat.add_sub_cancel_left, getD_eq_getElem?_getD, getD_eq_getElem?_getD,
      getElem?_take_of_lt (by omega)]
  next h =>
    rw [store_of_mem _ (by simp; omega), getD_eq_getElem?_getD,
      getD_eq_getElem?_getD, getElem?_drop]
    congr 2
    omega

theorem ringStore_of_le (hLen : bytes.length ≤ i) (hi : i < size) :
    ringStore size pos bytes m ((pos + i) % size) = m ((pos + i) % size) := by
  rw [ring_index hPos hi]
  unfold ringStore
  rw [store_of_not_mem _ (by rw [length_drop]; split <;> omega),
    store_of_not_mem _ (by rw [length_take]; split <;> omega)]

omit hPos

theorem ringLoad_ringStore (hSize : 0 < size) (hLen : len + bytes.length ≤ size) :
    ringLoad size pos (len + bytes.length) (ringStore size ((pos + len) % size) bytes m) =
      ringLoad size pos len m ++ bytes := by
  have hPos := Nat.mod_lt (pos + len) hSize
  rw [ringLoad_append]
  congr 1
  · refine map_congr_left fun i hi => ?_
    have hLt := mem_range.mp hi
    -- seen from the place of the write, the old bytes stand at the far end of the ring
    have hIndex : (pos + i) % size = ((pos + len) % size + (size - len + i)) % size := by
      simp [show pos + len + (size - len + i) = pos + i + size by omega]
    rw [hIndex]
    exact ringStore_of_le m hPos (by omega) (by omega)
  · refine ext_getElem (ringLoad_length ..) fun i hi _ => ?_
    rw [ringLoad_length] at hi
    have hByte := ringStore_of_lt m hPos (by omega : bytes.length ≤ size) hi
    grind [Nat.mod_add_mod, ringLoad]

end Memory
