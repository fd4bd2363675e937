import Barebox.Fs.File
import Barebox.Data.Memory

/-! `read_full` and `write_full` of `lib/libfile.c`, and what they do on the file of a
device: its size is fixed, and every access inside of it succeeds. -/
namespace Barebox.Fs
open List Memory

section Loops
variable {σ : Type} (truncate : σ → Nat → Except Errno σ) (writer : Writer σ) (reader : Reader σ)

/-- The loop of `write_full`, in at most `fuel` turns. -/
def writeLoop : Nat → File σ → List UInt8 → Except Failure Unit × File σ
  | 0, f, _ => (.ok (), f)
  | fuel + 1, f, buf =>
    if buf = [] then (.ok (), f)
    else
      match write truncate writer f buf with
      | (.error e, f) => (.error e, f)
      | (.ok now, f) =>
        if now = 0 then (.error (.errno .enospc), f)
        else if now < 0 then (.error .negative, f)
        else writeLoop fuel f (buf.drop now.toNat)

/-- `write_full`, with the check of its result for an error. The number of bytes is an `int`. -/
def writeFull (f : File σ) (buf : List UInt8) : Except Failure Unit × File σ :=
  match writeLoop truncate writer buf.length f buf with
  | (.error e, f) => (.error e, f)
  | (.ok (), f) => (if toInt buf.length < 0 then .error .negative else .ok (), f)

/-- The loop of `read_full`, in at most `fuel` turns. -/
def readLoop : Nat → File σ → Nat → Except Failure (List UInt8) × File σ
  | 0, f, _ => (.ok [], f)
  | fuel + 1, f, size =>
    if size = 0 then (.ok [], f)
    else
      match read reader f size with
      | (.error e, f) => (.error e, f)
      | (.ok [], f) => (.ok [], f)
      | (.ok (b :: bytes), f) =>
        match readLoop fuel f (size - (b :: bytes).length) with
        | (.error e, f) => (.error e, f)
        | (.ok more, f) => (.ok (b :: bytes ++ more), f)

/-- `read_full`, with the check of its result for an error. -/
def readFull (f : File σ) (size : Nat) : Except Failure (List UInt8) × File σ :=
  match readLoop reader size f size with
  | (.error e, f) => (.error e, f)
  | (.ok bytes, f) => (if toInt bytes.length < 0 then .error .negative else .ok bytes, f)

end Loops

/-- `cdev_truncate` of a device without an operation for it. -/
def deviceTruncate (_ : Memory) (_ : Nat) : Except Errno Memory := .error .eperm

def deviceSeek (bytes : Memory) (_ : Nat) : Except Errno Memory := .ok bytes

def deviceRead : Reader Memory := fun bytes pos count => (.ok (load pos count bytes), bytes)

def deviceWrite : Writer Memory := fun bytes pos data count =>
  (.ok (toInt count), store pos (data.take count) bytes)

section Device
variable {f f' : File Memory} {buf : List UInt8}

theorem write_device (hPos : f.pos ≤ f.size) (hSize : f.size < 2 ^ 63)
    (hLen : buf.length < 2 ^ 63) (hBuf : buf ≠ []) : write deviceTruncate deviceWrite f buf =
      if f.pos = f.size then (.error (.errno .enospc), f)
      else (.ok (toInt (min buf.length (f.size - f.pos))), { f with
            pos := f.pos + (toInt (min buf.length (f.size - f.pos))).toNat
            node := store f.pos (buf.take (f.size - f.pos)) f.node }) := by
  have hPositive : 0 < buf.length := length_pos_iff.mpr hBuf
  have hStop : (f.pos + buf.length) % 18446744073709551616 = f.pos + buf.length :=
    Nat.mod_eq_of_lt (by omega)
  have hLeft : (f.size + 18446744073709551616 - f.pos) % 18446744073709551616 =
      f.size - f.pos := by omega
  rw [write, writeAt, hStop, hLeft]
  by_cases hIn : f.pos + buf.length ≤ f.size
  · grind [deviceWrite]
  by_cases hFull : f.pos = f.size
  · simp [deviceTruncate, hFull, hPositive]
  · have hSome : f.size - f.pos ≠ 0 := by omega
    grind [deviceTruncate, deviceWrite]

theorem store_drop_store (pos n : Nat) (bytes : List UInt8) (m : Memory) :
    store (pos + n) (bytes.drop n) (store pos bytes m) = store pos bytes m := by
  funext a
  by_cases h : pos + n ≤ a ∧ a < pos + n + (bytes.drop n).length
  · have hLen := h.2
    rw [length_drop] at hLen
    rw [store_of_mem _ h, store_of_mem _ (by omega), getD_eq_getElem?_getD,
      getD_eq_getElem?_getD, getElem?_drop]
    congr 2
    omega
  · exact store_of_not_mem _ h

theorem toInt_toNat_le (n : Nat) : (toInt n).toNat ≤ n := by
  have hLe := toInt_le n
  omega

/-- What the loop of `write_full` leaves on the device, whether it fails or not. It
succeeds only if everything fits. -/
theorem writeLoop_spec (fuel : Nat) (hFuel : buf.length ≤ fuel)
    (hPos : f.pos ≤ f.size) (hSize : f.size < 2 ^ 63)
    (hLen : buf.length < 2 ^ 63) (h : writeLoop deviceTruncate deviceWrite fuel f buf = (r, f')) :
    (f'.node = store f.pos (buf.take (f.size - f.pos)) f.node ∧ f'.size = f.size) ∧
      (r = .ok () → f.pos + buf.length ≤ f.size ∧ f'.pos = f.pos + buf.length) := by
  induction fuel generalizing f buf with
  | zero =>
    have hEmpty : buf = [] := length_eq_zero_iff.mp (by omega)
    cases h
    simp [hEmpty, store_nil, hPos]
  | succ fuel ih =>
    by_cases hBuf : buf = []
    · rw [writeLoop, if_pos hBuf] at h
      cases h
      simp [hBuf, store_nil, hPos]
    rw [writeLoop, if_neg hBuf, write_device hPos hSize hLen hBuf] at h
    by_cases hFull : f.pos = f.size
    · rw [if_pos hFull] at h
      cases h
      simp [hFull, store_nil]
    rw [if_neg hFull] at h
    have hNow := toInt_toNat_le (min buf.length (f.size - f.pos))
    generalize toInt (min buf.length (f.size - f.pos)) = now at h hNow
    dsimp only at h
    split at h
    · cases h
      exact ⟨⟨rfl, rfl⟩, nofun⟩
    split at h
    · cases h
      exact ⟨⟨rfl, rfl⟩, nofun⟩
    have hDrop : (buf.drop now.toNat).length = buf.length - now.toNat := length_drop
    obtain ⟨⟨hNode, hSame⟩, hOk⟩ := @ih
      { f with pos := f.pos + now.toNat, node := store f.pos (buf.take (f.size - f.pos)) f.node }
      (buf.drop now.toNat) (by omega) (by dsimp only; omega) hSize (by omega) h
    refine ⟨⟨hNode.trans ?_, hSame⟩, fun hr => ?_⟩
    · rw [← Nat.sub_sub, ← drop_take]
      exact store_drop_store _ _ _ _
    · have hRest := hOk hr
      dsimp only at hRest
      omega

theorem writeLoop_fits (hSize : f.size < 2 ^ 63) (hIn : f.pos + buf.length ≤ f.size)
    (hShort : buf.length < 2147483648) :
    (writeLoop deviceTruncate deviceWrite buf.length f buf).1 = .ok () := by
  by_cases hBuf : buf = []
  · rw [hBuf]
    rfl
  have hPositive : 0 < buf.length := length_pos_iff.mpr hBuf
  obtain ⟨fuel, hFuel⟩ : ∃ fuel, buf.length = fuel + 1 := ⟨buf.length - 1, by omega⟩
  rw [hFuel, writeLoop, if_neg hBuf, write_device (by omega) hSize (by omega) hBuf,
    if_neg (by omega),
    Nat.min_eq_left (by omega), toInt_of_lt hShort]
  dsimp only
  rw [if_neg (by omega), if_neg (by omega), Int.toNat_natCast, drop_length]
  cases fuel <;> rfl

variable (hPos : f.pos ≤ f.size) (hSize : f.size < 2 ^ 63) (hLen : buf.length < 2 ^ 63)
include hPos hSize hLen

theorem writeFull_node :
    (writeFull deviceTruncate deviceWrite f buf).2.node =
    store f.pos (buf.take (f.size - f.pos)) f.node ∧
      (writeFull deviceTruncate deviceWrite f buf).2.size = f.size := by
  unfold writeFull
  split
  next e f' hEq => exact (writeLoop_spec buf.length le_rfl hPos hSize hLen hEq).1
  next f' hEq =>
    have hLoop := (writeLoop_spec buf.length le_rfl hPos hSize hLen hEq).1
    grind

theorem writeFull_ok (h : writeFull deviceTruncate deviceWrite f buf = (.ok (), f')) :
    f.pos + buf.length ≤ f.size ∧ f'.pos = f.pos + buf.length ∧ ¬ toInt buf.length < 0 := by
  unfold writeFull at h
  split at h
  next => cases h
  next f'' hEq =>
    obtain ⟨hIn, hNew⟩ := (writeLoop_spec buf.length le_rfl hPos hSize hLen hEq).2 rfl
    split at h
    · cases h
    next hInt =>
      cases h
      exact ⟨hIn, hNew, hInt⟩

omit hPos hSize hLen
include hSize in
theorem writeFull_fits (hIn : f.pos + buf.length ≤ f.size)
    (hShort : buf.length < 2147483648) :
    (writeFull deviceTruncate deviceWrite f buf).1 = .ok () := by
  have hLoop := writeLoop_fits hSize hIn hShort
  unfold writeFull
  split
  next e f' hEq =>
    grind
  next f' hEq => rw [toInt_of_lt hShort, if_neg (by omega)]

include hPos hSize in
theorem readAt_device {count : Nat} (hCount : count < 2 ^ 63)
    (hSome : 0 < min count (f.size - f.pos)) :
    readAt deviceRead f count = (returned (load f.pos (min count (f.size - f.pos)) f.node), f) := by
  have hClamp : f.clampCount count = min count (f.size - f.pos) := by
    rw [File.clampCount, Nat.mod_eq_of_lt (by omega)]
    split <;> omega
  rw [readAt, hClamp]
  rw [if_neg (by omega)]
  rfl

theorem read_end (h : f.pos = f.size) (hSize : f.size < 2 ^ 63) {count : Nat}
    (hCount : count < 2 ^ 63) : read deviceRead f count = (.ok [], f) := by
  have hClamp : f.clampCount count = 0 := by
    rw [File.clampCount, Nat.mod_eq_of_lt (by omega)]
    split <;> omega
  have hAt : readAt deviceRead f count = (.ok [], f) := by simp [readAt, hClamp]
  rw [read_ok hAt]
  rfl

theorem readLoop_end (fuel : Nat) {size : Nat} (h : size = 0 ∨ f.pos = f.size)
    (hSize : f.size < 2 ^ 63)
    (hCount : size < 2 ^ 63) : readLoop deviceRead fuel f size = (.ok [], f) := by
  cases fuel with
  | zero => rfl
  | succ fuel =>
    rw [readLoop]
    split
    · rfl
    next hSome => rw [read_end (h.resolve_left hSome) hSize hCount]

include hPos hSize in
theorem readFull_device {count : Nat} (hCount : count < 2 ^ 63)
    (hShort : min count (f.size - f.pos) < 2147483648) :
    readFull deviceRead f count = (.ok (load f.pos (min count (f.size - f.pos)) f.node),
        { f with pos := f.pos + min count (f.size - f.pos) }) := by
  have hLoop : readLoop deviceRead count f count =
      (.ok (load f.pos (min count (f.size - f.pos)) f.node),
        { f with pos := f.pos + min count (f.size - f.pos) }) := by
    by_cases hEmpty : count = 0 ∨ f.pos = f.size
    · have hNone : min count (f.size - f.pos) = 0 := by omega
      rw [readLoop_end count hEmpty hSize hCount, hNone]
      rfl
    obtain ⟨fuel, hFuel⟩ : ∃ fuel, count = fuel + 1 := ⟨count - 1, by omega⟩
    have hAt := readAt_device hPos hSize hCount (by omega)
    rw [returned_of_lt (by rwa [load_length])] at hAt
    have hRead := read_ok hAt
    have hLen : (load f.pos (min count (f.size - f.pos)) f.node).length =
        min count (f.size - f.pos) :=
      load_length _ _ _
    generalize load f.pos (min count (f.size - f.pos)) f.node = bytes at hRead hLen
    cases bytes with
    | nil =>
      grind
    | cons b bytes =>
      have hRest := @readLoop_end { f with pos := f.pos + min count (f.size - f.pos) } fuel
        (count - min count (f.size - f.pos)) (by dsimp only; omega) hSize (by omega)
      have hTurn : readLoop deviceRead count f count = readLoop deviceRead (fuel + 1) f count := by
        rw [← hFuel]
      grind [readLoop]
  rw [readFull, hLoop]
  dsimp only
  rw [load_length, toInt_of_lt hShort, if_neg (by omega)]

theorem toInt_neg {n : Nat} (h : 2147483648 ≤ n) (h' : n < 4294967296) : toInt n < 0 := by
  grind [toInt]

include hPos hSize in
theorem readFull_negative {count : Nat} (hCount : count < 4294967296)
    (hLong : 2147483648 ≤ min count (f.size - f.pos)) :
    (readFull deviceRead f count).1 = .error .negative := by
  obtain ⟨fuel, hFuel⟩ : ∃ fuel, count = fuel + 1 := ⟨count - 1, by omega⟩
  have hAt := readAt_device hPos hSize (by omega : count < 2 ^ 63) (by omega)
  have hReturned : returned (load f.pos (min count (f.size - f.pos)) f.node) =
      .error .negative := by
    simp [returned, if_pos (toInt_neg hLong (by omega))]
  rw [hReturned] at hAt
  rw [hFuel] at hAt ⊢
  rw [readFull, readLoop, if_neg (by omega), read_error hAt]

end Device
end Barebox.Fs
