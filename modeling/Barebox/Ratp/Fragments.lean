import Barebox.Ratp.Endpoint

/-! The fragments that data is cut into, and what the receiver stores of them. A
fragment of one byte travels in the place of the length, and the receiver takes
it for a length: it stores that many bytes of the packet before. -/
namespace Barebox.Ratp
open Bytes Barebox.Lib List
variable {fuel n : Nat} {data recvbuf : List UInt8} {msgs : List Message} {m : Message}

theorem fragments_length (h : fragments fuel data = some msgs) :
    ∀ m ∈ msgs, 1 ≤ m.data.length ∧ m.data.length ≤ 255 := by
  induction fuel generalizing data msgs with
  | zero => cases h
  | succ fuel ih =>
    simp only [fragments] at h
    split at h
    next => cases h
    next hPositive =>
      have hMax : (min (toInt data.length) 255).toNat ≤ 255 := by omega
      split at h
      next hLast =>
        cases h
        intro m hm
        obtain rfl := mem_singleton.mp hm
        have hNonempty : data.length ≠ 0 := by
          intro hZero
          rw [hZero] at hPositive
          exact hPositive (by decide)
        exact ⟨Nat.pos_of_ne_zero hNonempty, Nat.le_trans hLast hMax⟩
      next hMore =>
        obtain ⟨rest, hRest, rfl⟩ := Option.map_eq_some_iff.mp h
        refine forall_mem_cons.mpr ⟨?_, ih hRest⟩
        simp
        omega

theorem toInt_of_lt (h : n < 2 ^ 31) : toInt n = n := by
  rw [toInt, BitVec.toInt_eq_toNat_of_lt]
  · grind
  · simp
    omega

theorem toInt_nonpos (h : 2 ^ 31 ≤ n) (h' : n ≤ 2 ^ 32) : toInt n ≤ 0 := by
  rw [toInt, BitVec.toInt_eq_toNat_cond, BitVec.toNat_ofNat]
  rcases Nat.lt_or_eq_of_le h' with hLt | rfl
  · omega
  · decide

/-- One packet of a message: the first 255 bytes, without the end of the record. -/
theorem fragments_step (fuel : Nat) (hMin : 0 < data.length) (hMax : data.length < 2 ^ 31) :
    fragments (fuel + 1) data = if data.length ≤ 255 then some [⟨data, true⟩]
      else (fragments fuel (data.drop 255)).map (⟨data.take 255, false⟩ :: ·) := by
  rw [fragments, toInt_of_lt hMax, if_neg (by omega)]
  by_cases hLast : data.length ≤ 255
  · simp [if_pos (by omega)]
  · have hNow : (min (data.length : Int) 255).toNat = 255 := by omega
    simp [hNow]

/-- Lengths from `2 ^ 31` on are never cut up: the loop gets to a length that is not
positive as an `int`. -/
theorem fragments_of_le (fuel : Nat) (h : 2 ^ 31 ≤ data.length) : fragments fuel data = none := by
  induction fuel generalizing data with
  | zero => rfl
  | succ fuel ih =>
    simp only [fragments]
    by_cases hPositive : min (toInt data.length) 255 ≤ 0
    · rw [if_pos hPositive]
    have hLong : 2 ^ 32 < data.length := by
      by_contra hShort
      have hNonpos := toInt_nonpos h (by omega)
      omega
    grind

/-- What `msg_recv` stores of a fragment that arrives with the data area `recvbuf`. -/
def storedData (recvbuf : List UInt8) (m : Message) : List UInt8 :=
  match m.data with
  | [byte] => if byte ≠ 0 then recvbuf.take byte.toNat else [byte]
  | data => data

def bufferAfter (recvbuf : List UInt8) (m : Message) : List UInt8 :=
  match m.data with
  | [_] => recvbuf
  | data => overwrite 0 (data ++ be 2 (crcItuT 0 data).toNat) recvbuf

def stored : List UInt8 → List Message → List Message
  | _, [] => []
  | recvbuf, m :: ms => ⟨storedData recvbuf m, m.eor⟩ :: stored (bufferAfter recvbuf m) ms

/-- The data of the first record: the fragments up to the one that ends it. -/
def firstRecord : List Message → Option (List UInt8)
  | [] => none
  | m :: ms => if m.eor then some m.data else (firstRecord ms).map (m.data ++ ·)

theorem stored_append (recvbuf : List UInt8) (ms ms' : List Message) :
    stored recvbuf (ms ++ ms') = stored recvbuf ms ++
    stored (ms.foldl bufferAfter recvbuf) ms' := by
  induction ms generalizing recvbuf with
  | nil => rfl
  | cons m ms ih => simp [stored, ih]

theorem fragments_eor (h : fragments fuel data = some msgs) :
    ∃ front m, msgs = front ++ [m] ∧ ∀ m' ∈ front, m'.eor = false := by
  induction fuel generalizing data msgs with
  | zero => cases h
  | succ fuel ih =>
    simp only [fragments] at h
    split at h
    next => cases h
    next =>
      split at h
      next =>
        cases h
        exact ⟨[], _, rfl, nofun⟩
      next =>
        obtain ⟨rest, hRest, rfl⟩ := Option.map_eq_some_iff.mp h
        obtain ⟨front, m, rfl, hFront⟩ := ih hRest
        exact ⟨_ :: front, m, rfl, forall_mem_cons.mpr ⟨rfl, hFront⟩⟩

theorem firstRecord_stored_none (recvbuf : List UInt8) {ms : List Message}
    (h : ∀ m ∈ ms, m.eor = false) :
    firstRecord (stored recvbuf ms) = none := by
  induction ms generalizing recvbuf with
  | nil => rfl
  | cons m ms ih =>
    grind [stored, firstRecord]

/-- The byte that the receiver has at the front of its data area when the last
fragment arrives: the first one of the fragment before. -/
def staleByte (recvbuf data : List UInt8) : UInt8 :=
  if data.length = 1 then recvbuf.headD 0 else data.getD (data.length - 256) 0

def lastFragmentSafe (recvbuf data : List UInt8) : Prop :=
  data.length % 255 ≠ 1 ∨ data.getLast? = some 0 ∨ data.getLast? = some 1 ∧
    staleByte recvbuf data = 1

instance (recvbuf data : List UInt8) : Decidable (lastFragmentSafe recvbuf data) :=
  inferInstanceAs (Decidable (_ ∨ _ ∨ _ ∧ _))

theorem storedData_byte (hBuf : 255 ≤ recvbuf.length) (byte : UInt8) (eor : Bool) :
    storedData recvbuf ⟨[byte], eor⟩ = [byte] ↔ byte = 0 ∨ byte = 1 ∧ recvbuf.headD 0 = 1 := by
  by_cases hZero : byte = 0
  · simp [storedData, hZero]
  have hStored : storedData recvbuf ⟨[byte], eor⟩ = recvbuf.take byte.toNat := if_pos hZero
  rw [hStored]
  by_cases hOne : byte = 1
  · obtain ⟨first, rest, rfl⟩ := exists_cons_of_length_pos (Nat.lt_of_lt_of_le (by decide) hBuf)
    simp [hOne]
  have hLen : (recvbuf.take byte.toNat).length = byte.toNat := by
    simp [Nat.min_eq_left (Nat.le_trans (Nat.le_of_lt_succ byte.toNat_lt) hBuf)]
  constructor
  · intro hEq
    rw [hEq] at hLen
    exact absurd (UInt8.toNat_inj.mp hLen.symm) hOne
  · rintro (h | ⟨h, _⟩)
    · exact absurd h hZero
    · exact absurd h hOne

theorem storedData_long (h : m.data.length ≠ 1) (recvbuf : List UInt8) :
    storedData recvbuf m = m.data := by
  unfold storedData
  split
  next hData => simp [hData] at h
  next => rfl

theorem bufferAfter_long (h : m.data.length ≠ 1) (recvbuf : List UInt8) :
    bufferAfter recvbuf m = overwrite 0 (m.data ++ be 2 (crcItuT 0 m.data).toNat) recvbuf := by
  unfold bufferAfter
  split
  next hData => simp [hData] at h
  next => rfl

theorem bufferAfter_length (hMax : m.data.length ≤ 255)
    (hBuf : 257 ≤ recvbuf.length) : (bufferAfter recvbuf m).length = recvbuf.length := by
  by_cases hOne : m.data.length = 1
  · obtain ⟨byte, hByte⟩ := length_eq_one_iff.mp hOne
    rw [bufferAfter, hByte]
  · rw [bufferAfter_long hOne, overwrite_length]
    simp
    omega

/-- Whether the last fragment is safe is decided behind a full fragment. -/
theorem lastFragmentSafe_drop (hLong : 255 < data.length) :
    lastFragmentSafe (bufferAfter recvbuf ⟨data.take 255, false⟩)
    (data.drop 255) ↔ lastFragmentSafe recvbuf data := by
  have hMod : (data.drop 255).length % 255 = data.length % 255 := by
    simp
    omega
  have hLastByte : (data.drop 255).getLast? = data.getLast? := by
    rw [getLast?_drop, if_neg (by omega)]
  have hStale : data.length % 255 = 1 →
      staleByte (bufferAfter recvbuf ⟨data.take 255, false⟩) (data.drop 255) =
        staleByte recvbuf data := by
    intro hRem
    unfold staleByte
    rw [if_neg (show data.length ≠ 1 by omega)]
    by_cases hOne : (data.drop 255).length = 1
    · have hLen : data.length = 256 := by grind
      have hFull : (data.take 255).length ≠ 1 := by
        simp
        omega
      rw [if_pos hOne, bufferAfter_long hFull, hLen]
      cases data with
      | nil => cases hLen
      | cons first rest => simp [overwrite]
    · rw [if_neg hOne, length_drop, getD_eq_getElem?_getD, getD_eq_getElem?_getD, getElem?_drop]
      rw [length_drop] at hOne
      rw [show 255 + (data.length - 255 - 256) = data.length - 256 by omega]
  unfold lastFragmentSafe
  rw [hMod, hLastByte]
  by_cases hRem : data.length % 255 = 1
  · rw [hStale hRem]
  · exact iff_of_true (.inl hRem) (.inl hRem)

/-- The record that is stored is the data exactly if its last fragment is safe. -/
theorem firstRecord_fragments (hMin : 0 < data.length)
    (hMax : data.length < 2 ^ 31) (hFuel : data.length ≤ fuel) (hBuf : 257 ≤ recvbuf.length) :
    ∃ msgs, fragments fuel data = some msgs ∧ (firstRecord (stored recvbuf msgs)).isSome ∧
      (firstRecord (stored recvbuf msgs) = some data ↔ lastFragmentSafe recvbuf data) := by
  induction fuel generalizing data recvbuf with
  | zero => omega
  | succ fuel ih =>
    rw [fragments_step fuel hMin hMax]
    by_cases hLast : data.length ≤ 255
    · rw [if_pos hLast]
      refine ⟨_, rfl, rfl, ?_⟩
      have hRecord : firstRecord (stored recvbuf [⟨data, true⟩]) =
          some (storedData recvbuf ⟨data, true⟩) := rfl
      rw [hRecord, Option.some.injEq]
      by_cases hOne : data.length = 1
      · obtain ⟨byte, rfl⟩ := length_eq_one_iff.mp hOne
        rw [storedData_byte (by omega)]
        simp [lastFragmentSafe, staleByte]
      · exact iff_of_true (storedData_long hOne _) (.inl (by omega))
    · have hFull : (data.take 255).length = 255 := by
        simp
        omega
      have hBuf' : 257 ≤ (bufferAfter recvbuf ⟨data.take 255, false⟩).length := by
        rw [bufferAfter_length (by simp) hBuf]
        exact hBuf
      obtain ⟨msgs, hMsgs, hSome, hIff⟩ :=
        @ih (data.drop 255) (bufferAfter recvbuf ⟨data.take 255, false⟩)
        (by simp; omega) (by simp; omega) (by simp; omega) hBuf'
      have hRecord : firstRecord (stored recvbuf (⟨data.take 255, false⟩ :: msgs)) =
          (firstRecord (stored (bufferAfter recvbuf ⟨data.take 255, false⟩) msgs)).map
            (data.take 255 ++ ·) := by
        rw [stored, firstRecord, if_neg (by simp), storedData_long (by simp [hFull])]
      rw [if_neg hLast, hMsgs]
      refine ⟨_, rfl, ?_, ?_⟩
      · simp [hRecord, hSome]
      rw [hRecord, ← lastFragmentSafe_drop (by omega), ← hIff, Option.map_eq_some_iff]
      constructor
      · rintro ⟨bytes, hBytes, hData⟩
        have hEq : data.take 255 ++ bytes = data.take 255 ++ data.drop 255 := by simp [hData]
        rw [hBytes, append_cancel_left hEq]
      · intro hRest
        exact ⟨_, hRest, take_append_drop 255 data⟩

end Barebox.Ratp
