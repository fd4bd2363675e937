import Barebox.Data.Bytes
import Barebox.Errno

/-! The generic file layer of `fs/fs.c` for files whose size is a bound: positions, and how
counts are cut. The driver of a file has a state of its own. A `size_t` has 64 bits, an `int`
32. -/
namespace Barebox.Fs

/-- Why there is no result: an error code, a length that is negative as an `int`, or an access
outside of a buffer. -/
inductive Failure where
  | errno (e : Errno)
  | negative
  | fault
  deriving DecidableEq

/-- `struct file` with the size of its inode. -/
structure File (σ : Type) where
  pos : Nat
  size : Nat
  node : σ

def toInt (n : Nat) : Int :=
  if n % 4294967296 < 2147483648 then ((n % 4294967296 : Nat) : Int)
  else ((n % 4294967296 : Nat) : Int) - 4294967296

variable {σ : Type}

/-- How `__read` cuts the count. -/
def File.clampCount (f : File σ) (count : Nat) : Nat :=
  if f.size < (f.pos + count) % 18446744073709551616 then
    (f.size + 18446744073709551616 - f.pos) % 18446744073709551616
  else count

/-- What the caller gets of the bytes in its buffer: their number is an `int`. -/
def returned (bytes : List UInt8) : Except Failure (List UInt8) :=
  if toInt bytes.length < 0 then .error .negative else .ok (bytes.take (toInt bytes.length).toNat)

/-- `read` of a driver: the state, the position and the count. -/
abbrev Reader (σ : Type) := σ → Nat → Nat → Except Failure (List UInt8) × σ

/-- `__read`. -/
def readAt (driver : Reader σ) (f : File σ) (count : Nat) : Except Failure (List UInt8) × File σ :=
  let count := f.clampCount count
  if count = 0 then (.ok [], f)
  else
    let (r, node) := driver f.node f.pos count
    (r.bind returned, { f with node := node })

/-- `pread`: a read elsewhere, with the position put back. -/
def pread (driver : Reader σ) (f : File σ) (count offset : Nat) :
    Except Failure (List UInt8) × File σ :=
  let (r, f') := readAt driver { f with pos := offset } count
  (r, { f' with pos := f.pos })

def read (driver : Reader σ) (f : File σ) (count : Nat) : Except Failure (List UInt8) × File σ :=
  let (r, f') := readAt driver f count
  match r with
  | .error e => (.error e, f')
  | .ok bytes => (.ok bytes, { f' with pos := f'.pos + bytes.length })

/-- `write` of a driver: the state, the position, the buffer and the count. It returns an `int`. -/
abbrev Writer (σ : Type) := σ → Nat → List UInt8 → Nat → Except Failure Int × σ

/-- `__write`. A file that cannot be made larger is written up to its end. -/
def writeAt (truncate : σ → Nat → Except Errno σ) (driver : Writer σ)
    (f : File σ) (data : List UInt8) :
    Except Failure Int × File σ :=
  let stop := (f.pos + data.length) % 18446744073709551616
  let write (f : File σ) (count : Nat) : Except Failure Int × File σ :=
    let (r, node) := driver f.node f.pos data count
    (r, { f with node := node })
  if f.size < stop then
    match truncate f.node stop with
    | .ok node => write { f with node := node, size := stop } data.length
    | .error e =>
      if e = .eperm ∨ e = .enospc then
        let count := (f.size + 18446744073709551616 - f.pos) % 18446744073709551616
        if count = 0 then (.error (.errno .enospc), f) else write f count
      else (.error (.errno e), f)
  else write f data.length

/-- `pwrite`: a write elsewhere, with the position put back. -/
def pwrite (truncate : σ → Nat → Except Errno σ) (driver : Writer σ)
    (f : File σ) (data : List UInt8) (offset : Nat) :
    Except Failure Int × File σ :=
  let (r, f') := writeAt truncate driver { f with pos := offset } data
  (r, { f' with pos := f.pos })

def write (truncate : σ → Nat → Except Errno σ) (driver : Writer σ)
    (f : File σ) (data : List UInt8) :
    Except Failure Int × File σ :=
  let (r, f') := writeAt truncate driver f data
  match r with
  | .error e => (.error e, f')
  | .ok n => (.ok n, { f' with pos := f'.pos + n.toNat })

def ftruncate (truncate : σ → Nat → Except Errno σ) (f : File σ) (length : Nat) :
    Except Errno Unit × File σ :=
  match truncate f.node length with
  | .error e => (.error e, f)
  | .ok node => (.ok (), { f with node := node, size := length })

inductive Whence where
  | set | cur | end
  deriving DecidableEq

/-- The position `lseek` goes to. -/
def File.target (f : File σ) (offset : Int) : Whence → Int
  | .set => offset
  | .cur => f.pos + offset
  | .end => f.size + offset

/-- `lseek`: not beyond the size of the file. -/
def lseek (driver : σ → Nat → Except Errno σ) (f : File σ) (offset : Int) (whence : Whence) :
    Except Errno Nat × File σ :=
  let pos := f.target offset whence
  if pos < 0 ∨ (f.size : Int) < pos then (.error .einval, f)
  else
    match driver f.node pos.toNat with
    | .error e => (.error e, f)
    | .ok node => (.ok pos.toNat, { f with pos := pos.toNat, node := node })

section Read
variable {driver : Reader σ} {f f' : File σ} {count : Nat}

theorem read_error {e : Failure} (h : readAt driver f count = (.error e, f')) :
    read driver f count = (.error e, f') := by
  rw [read, h]

theorem read_ok {bytes : List UInt8} (h : readAt driver f count = (.ok bytes, f')) :
    read driver f count = (.ok bytes, { f' with pos := f'.pos + bytes.length }) := by rw [read, h]

theorem pread_eq {offset : Nat} {r : Except Failure (List UInt8)}
    (h : readAt driver { f with pos := offset } count = (r, f')) :
    pread driver f count offset = (r, { f' with pos := f.pos }) := by rw [pread, h]

end Read

section Write
variable {truncate : σ → Nat → Except Errno σ} {driver : Writer σ} {f : File σ} {data : List UInt8}
  {r : Except Failure Int} {node node' : σ}
    (hRange : f.pos + data.length < 18446744073709551616) {f' : File σ}

theorem write_error {e : Failure} (h : writeAt truncate driver f data = (.error e, f')) :
    write truncate driver f data = (.error e, f') := by rw [write, h]

theorem write_ok {n : Int} (h : writeAt truncate driver f data = (.ok n, f')) :
    write truncate driver f data = (.ok n, { f' with pos := f'.pos + n.toNat }) := by rw [write, h]

include hRange

theorem writeAt_inside (hIn : f.pos + data.length ≤ f.size)
    (hWrite : driver f.node f.pos data data.length = (r, node)) :
    writeAt truncate driver f data = (r, { f with node := node }) := by
  rw [writeAt, Nat.mod_eq_of_lt hRange]
  simp [if_neg (Nat.not_lt.mpr hIn), hWrite]

variable (hGrow : f.size < f.pos + data.length)
include hGrow

theorem writeAt_growing (hUp : truncate f.node (f.pos + data.length) = .ok node)
    (hWrite : driver node f.pos data data.length = (r, node')) :
    writeAt truncate driver f data =
    (r, { f with node := node', size := f.pos + data.length }) := by
  rw [writeAt, Nat.mod_eq_of_lt hRange]
  simp [if_pos hGrow, hUp, hWrite]

variable (hUp : truncate f.node (f.pos + data.length) = .error .enospc)
include hUp

theorem writeAt_full (hPos : f.pos = f.size) :
    writeAt truncate driver f data = (.error (.errno .enospc), f) := by
  have hLeft : (f.size + 18446744073709551616 - f.pos) % 18446744073709551616 = 0 := by omega
  simp [writeAt, Nat.mod_eq_of_lt hRange, if_pos hGrow, hUp, if_pos hLeft]

theorem writeAt_short (hPos : f.pos < f.size)
    (hWrite : driver f.node f.pos data (f.size - f.pos) = (r, node)) :
    writeAt truncate driver f data = (r, { f with node := node }) := by
  have hLeft : (f.size + 18446744073709551616 - f.pos) % 18446744073709551616 =
      f.size - f.pos := by omega
  rw [writeAt, Nat.mod_eq_of_lt hRange]
  rw [if_pos hGrow, hUp]
  dsimp only
  rw [if_pos (.inr rfl), hLeft, if_neg (by omega), hWrite]

end Write

section Seek
variable {driver : σ → Nat → Except Errno σ} {f : File σ} {offset : Int} {whence : Whence}

theorem lseek_outside (h : f.target offset whence < 0 ∨ (f.size : Int) < f.target offset whence) :
    lseek driver f offset whence = (.error .einval, f) := by rw [lseek, if_pos h]

theorem lseek_inside {pos : Nat} {node : σ} (h : f.target offset whence = pos) (hIn : pos ≤ f.size)
    (hDriver : driver f.node pos = .ok node) :
    lseek driver f offset whence = (.ok pos, { f with pos := pos, node := node }) := by
  grind [lseek]

theorem lseek_refused {pos : Nat} {e : Errno} (h : f.target offset whence = pos)
    (hIn : pos ≤ f.size)
    (hDriver : driver f.node pos = .error e) : lseek driver f offset whence = (.error e, f) := by
  grind [lseek]

end Seek

theorem toInt_of_lt {n : Nat} (h : n < 2147483648) : toInt n = n := by grind [toInt]

theorem toInt_le (n : Nat) : toInt n ≤ n := by
  rw [toInt]
  split <;> omega

variable {bytes out : List UInt8}

theorem returned_of_lt (h : bytes.length < 2147483648) : returned bytes = .ok bytes := by
  rw [returned, toInt_of_lt h, if_neg (by omega), Int.toNat_natCast, List.take_length]

theorem returned_ok (h : returned bytes = .ok out) :
    out = bytes.take out.length ∧ out.length ≤ bytes.length := by
  unfold returned at h
  by_cases hNeg : toInt bytes.length < 0
  · rw [if_pos hNeg] at h
    injection h
  rw [if_neg hNeg] at h
  injection h with hOut
  have hLe := toInt_le bytes.length
  have hLen : out.length = (toInt bytes.length).toNat := by grind
  grind

theorem returned_lt (h : returned bytes = .ok out) : out.length < 2147483648 := by
  have hInt : toInt bytes.length < 2147483648 := by
    rw [toInt]
    split <;> omega
  unfold returned at h
  by_cases hNeg : toInt bytes.length < 0
  · rw [if_pos hNeg] at h
    injection h
  · rw [if_neg hNeg] at h
    injection h with hOut
    grind

theorem returned_error {e : Failure} (h : returned bytes = .error e) : e = .negative := by
  unfold returned at h
  by_cases hNeg : toInt bytes.length < 0
  · rw [if_pos hNeg] at h
    injection h with hEq
    exact hEq.symm
  · rw [if_neg hNeg] at h
    injection h

end Barebox.Fs
