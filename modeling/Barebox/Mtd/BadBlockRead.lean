import Barebox.Fs.File
import Barebox.Mtd.BadBlock

/-! Reading of the bad block aware device through the file layer. The device has a position of
its own, an address of the flash, that only reads and seeks move. -/
namespace Barebox.Mtd
open Bytes Rounding Fs List

def readNow (mtd : MtdInfo) (count offset : Nat) : Nat :=
  min (min count (mtd.erasesize - offset % mtd.erasesize)) (mtd.size - offset)

theorem readNow_pos {mtd : MtdInfo} {count offset : Nat} (hCount : count ≠ 0)
    (hIn : offset < mtd.size) :
    0 < readNow mtd count offset := by
  have hMod := Nat.mod_lt offset mtd.erasesize_pos
  rw [readNow]
  omega

/-- The loop of `nand_bb_read` from the address `bb->offset`: what is in the buffer, and the
address it ends with. A flash read may fail. One of 2 GiB or more does: its length is a negative
`int`. -/
def nandBbRead (mtd : MtdInfo) (raw : List UInt8) (fault : Nat → Option Errno)
    (count offset : Nat) :
    Except Failure (List UInt8) × Nat :=
  if count = 0 then (.ok [], offset)
  else if _hIn : mtd.size ≤ offset then (.ok [], offset)
  else if blockBad mtd offset then nandBbRead mtd raw fault count (offset + mtd.erasesize)
  else if 2147483648 ≤ readNow mtd count offset then (.error (.errno .einval), offset)
  else
    match fault offset with
    | some e => (.error (.errno e), offset)
    | none =>
      let now := readNow mtd count offset
      let (r, offset') := nandBbRead mtd raw fault (count - now) (offset + now)
      (r.map (slice offset now raw ++ ·), offset')
termination_by mtd.size - offset
decreasing_by
  · have := mtd.erasesize_pos
    omega
  · have := @readNow_pos mtd count offset ‹_› (by omega)
    omega

/-- The loop of `nand_bb_lseek`: the address it finds. -/
def nandBbLseek (mtd : MtdInfo) (offset rawPos : Nat) : Except Errno Nat :=
  if _hIn : rawPos < mtd.size then
    if blockBad mtd rawPos then
      if offset = 0 then .ok (rawPos + mtd.erasesize)
      else nandBbLseek mtd offset (rawPos + mtd.erasesize)
    else
      let now := min offset mtd.erasesize
      if _hLeft : offset - now = 0 then .ok (rawPos + now)
      else nandBbLseek mtd (offset - now) (rawPos + now)
  else .error .einval
termination_by mtd.size - rawPos
decreasing_by
  all_goals
    have hPos := mtd.erasesize_pos
    omega

variable {mtd : MtdInfo} {raw : List UInt8} {fault : Nat → Option Errno}

section Loops
variable (hUniform : mtd.eraseregions = []) (hRaw : raw.length = mtd.size)
include hUniform hRaw
variable {r p count : Nat}

/-- One round: the bytes at the position, and the address after them stands for the position
after them. -/
theorem At.round (h : At mtd r p) (hIn : r < mtd.size) (hGood : blockBad mtd r = false)
    (count : Nat) :
    slice r (readNow mtd count r) raw = slice p (readNow mtd count r) (goodContent mtd raw) ∧
      (slice p (readNow mtd count r) (goodContent mtd raw)).length = readNow mtd count r ∧
      At mtd (r + readNow mtd count r) (p + readNow mtd count r) := by
  have hMin : readNow mtd count r ≤ mtd.erasesize - r % mtd.erasesize := by
    rw [readNow]
    omega
  have hLeft : readNow mtd count r ≤ mtd.size - r := Nat.min_le_right _ _
  obtain ⟨k, j, rfl, rfl, hj, hk, hBlock⟩ := h.good hIn hGood
  rw [Nat.mul_add_mod, Nat.mod_eq_of_lt hj] at hMin
  have hSlice := goodContent_slice hUniform hRaw hk hBlock
    (by omega : j + readNow mtd count (mtd.erasesize * k + j) ≤ mtd.erasesize)
  refine ⟨hSlice.symm, ?_, At.advance hUniform hk hBlock (by omega)⟩
  rw [hSlice]
  exact slice_length_of_le (by omega)

theorem At.le_goodSize (h : At mtd r p) (hIn : r < mtd.size)
    (hGood : blockBad mtd r = false) (count : Nat) :
    p + readNow mtd count r ≤ goodSize mtd ∨ readNow mtd count r = 0 := by
  obtain ⟨-, hLen, -⟩ := h.round hUniform hRaw hIn hGood count
  rw [slice_length, goodContent_length hUniform hRaw] at hLen
  omega

theorem nandBbRead_ok {r' : Nat} {bytes : List UInt8} (h : At mtd r p)
    (hRead : nandBbRead mtd raw fault count r = (.ok bytes, r')) :
    bytes = slice p count (goodContent mtd raw) ∧ At mtd r' (p + bytes.length) := by
  fun_induction nandBbRead mtd raw fault count r generalizing p r' bytes with
  | case1 r =>
    cases hRead
    exact ⟨by simp [slice], h⟩
  | case2 count r hCount hEnd =>
    cases hRead
    rw [h.end_eq hUniform hEnd, ← goodContent_length hUniform hRaw]
    refine ⟨by simp [slice], ?_⟩
    rw [goodContent_length hUniform hRaw, ← h.end_eq hUniform hEnd]
    exact h
  | case3 count r hCount hIn hBad ih => exact ih (h.skip hUniform (by omega) hBad) hRead
  | case4 => cases hRead
  | case5 => cases hRead
  | case6 count r hCount hIn hGood hLong hNone now rest offset' hRest =>
    rename_i ih
    obtain ⟨hSlice, hLen, hNext⟩ :=
      h.round hUniform hRaw (by omega) (Bool.eq_false_iff.mpr hGood) count
    have hNow : now ≤ count := (Nat.min_le_left _ _).trans (Nat.min_le_left _ _)
    rcases rest with e | more
    · cases hRead
    cases hRead
    obtain ⟨hMore, hAt⟩ := ih hNext hRest
    refine ⟨?_, ?_⟩
    · rw [slice_split hNow, hMore]
      exact congrArg (· ++ _) hSlice
    · rw [length_append, hSlice, hLen, ← Nat.add_assoc]
      exact hAt

theorem nandBbRead_clean (hFault : ∀ a, fault a = none) (h : At mtd r p)
    (hLeft : min count (goodSize mtd - p) < 2147483648) :
    ∃ bytes r', nandBbRead mtd raw fault count r = (.ok bytes, r') := by
  fun_induction nandBbRead mtd raw fault count r generalizing p with
  | case1 r => exact ⟨_, _, rfl⟩
  | case2 => exact ⟨_, _, rfl⟩
  | case3 count r hCount hIn hBad ih => exact ih (h.skip hUniform (by omega) hBad) hLeft
  | case4 count r hCount hIn hGood hLong =>
    have hLe := h.le_goodSize hUniform hRaw (by omega) (Bool.eq_false_iff.mpr hGood) count
    have hNow : readNow mtd count r ≤ count := (Nat.min_le_left _ _).trans (Nat.min_le_left _ _)
    omega
  | case5 count r hCount hIn hGood hLong e hSome =>
    rw [hFault] at hSome
    cases hSome
  | case6 count r hCount hIn hGood hLong hNone now rest offset' hRest =>
    rename_i ih
    obtain ⟨-, -, hNext⟩ := h.round hUniform hRaw (by omega) (Bool.eq_false_iff.mpr hGood) count
    obtain ⟨more, r', hMore⟩ := ih hNext (by omega)
    rw [hRest] at hMore
    cases hMore
    exact ⟨_, _, rfl⟩

end Loops

theorem nandBbLseek_ok (hUniform : mtd.eraseregions = []) {offset k : Nat}
    (hk : mtd.erasesize * k ≤ mtd.size)
    (hIn : mtd.erasesize * goodBelow mtd k + offset ≤ goodSize mtd)
    (hLeft : offset ≠ 0 ∨ mtd.erasesize * k < mtd.size) :
    ∃ r, nandBbLseek mtd offset (mtd.erasesize * k) = .ok r ∧
    At mtd r (mtd.erasesize * goodBelow mtd k + offset) := by
  have hAt : At mtd (mtd.erasesize * k) (mtd.erasesize * goodBelow mtd k) := .start hk
  have hPos := mtd.erasesize_pos
  by_cases hRaw : mtd.erasesize * k < mtd.size
  · have hNextIn := block_in hUniform hRaw
    rw [nandBbLseek, dif_pos hRaw]
    cases hBlock : blockBad mtd (mtd.erasesize * k) with
    | true =>
      have hSkip := hAt.skip hUniform hRaw hBlock
      have hSame : goodBelow mtd (k + 1) = goodBelow mtd k := by
        have hEq := @At.blockBad_eq mtd k 0 hPos
        rw [Nat.add_zero, hBlock] at hEq
        simp [goodBelow_succ, hEq]
      rw [if_pos rfl]
      by_cases hZero : offset = 0
      · rw [if_pos hZero, hZero]
        exact ⟨_, rfl, hSkip⟩
      · rw [if_neg hZero, ← Nat.mul_succ, ← hSame]
        exact nandBbLseek_ok hUniform hNextIn (by rw [hSame]; exact hIn) (.inl hZero)
    | false =>
      obtain hBlock' := @At.blockBad_eq mtd k 0 hPos
      rw [Nat.add_zero, hBlock] at hBlock'
      rw [if_neg Bool.false_ne_true]
      dsimp only
      by_cases hShort : offset ≤ mtd.erasesize
      · rw [Nat.min_eq_left hShort, dif_pos (Nat.sub_self _)]
        refine ⟨_, rfl, ?_⟩
        have hAdvance :=
          At.advance hUniform hRaw hBlock'.symm (by omega : 0 + offset ≤ mtd.erasesize)
        exact hAdvance
      have hNext : goodBelow mtd (k + 1) = goodBelow mtd k + 1 := by simp [goodBelow_succ, hBlock']
      have hSum : mtd.erasesize * goodBelow mtd (k + 1) + (offset - mtd.erasesize) =
          mtd.erasesize * goodBelow mtd k + offset := by
        rw [hNext, Nat.mul_succ]
        omega
      rw [Nat.min_eq_right (by omega), dif_neg (by omega), ← Nat.mul_succ, ← hSum]
      exact nandBbLseek_ok hUniform hNextIn (hSum.trans_le hIn) (.inl (by omega))
  · have hEnd := hAt.end_eq hUniform (by omega)
    omega
termination_by mtd.size - mtd.erasesize * k
decreasing_by all_goals (rw [Nat.mul_succ]; omega)

inductive BbCall where
  | read (count : Nat) (fault : Nat → Option Errno)
  | pread (count offset : Nat) (fault : Nat → Option Errno)
  | lseek (offset : Int) (whence : Whence)

/-- `nand_bb_read` as the driver of a file: the position it is given is not used. -/
def bbReader (mtd : MtdInfo) (raw : List UInt8) (fault : Nat → Option Errno) : Reader Nat :=
  fun node _ count => nandBbRead mtd raw fault count node

/-- The device after `nand_bb_open`, read-only: its node is `bb->offset`. -/
def bbOpen (mtd : MtdInfo) : File Nat := ⟨0, goodSize mtd, 0⟩

namespace BbCall

def step (mtd : MtdInfo) (raw : List UInt8) (f : File Nat) :
    BbCall → Except Failure (List UInt8) × File Nat
  | .read count fault => Fs.read (bbReader mtd raw fault) f count
  | .pread count offset fault => Fs.pread (bbReader mtd raw fault) f count offset
  | .lseek offset whence =>
    let (r, f') := Fs.lseek (fun _ pos => nandBbLseek mtd pos 0) f offset whence
    match r with
    | .ok _ => (.ok [], f')
    | .error e => (.error (.errno e), f')

/-- The arguments of a call: a count is a `size_t`, a position lies inside of the device. -/
def Inside (mtd : MtdInfo) : BbCall → Prop
  | .read count _ => count < 18446744073709551616
  | .pread count offset _ => count < 18446744073709551616 ∧ offset ≤ goodSize mtd
  | .lseek _ _ => True

end BbCall

/-- The bytes of the good blocks at a position, as many as were asked for and are there. Only a
read of 2 GiB or more may return fewer. -/
def ReadsRight (mtd : MtdInfo) (raw : List UInt8) (pos count : Nat) (bytes : List UInt8) : Prop :=
  bytes = slice pos bytes.length (goodContent mtd raw) ∧
    (min count (goodSize mtd - pos) < 2147483648 → bytes.length = min count (goodSize mtd - pos))

def BbCall.Right (mtd : MtdInfo) (raw : List UInt8) (f : File Nat) (call : BbCall) : Prop :=
  ∀ bytes, (call.step mtd raw f).1 = .ok bytes →
    match call with
    | .read count _ => ReadsRight mtd raw f.pos count bytes
    | .pread count offset _ => ReadsRight mtd raw offset count bytes
    | .lseek _ _ => True

def RunRight (mtd : MtdInfo) (raw : List UInt8) : File Nat → List BbCall → Prop
  | _, [] => True
  | f, call :: rest => call.Right mtd raw f ∧ RunRight mtd raw (call.step mtd raw f).2 rest

/-- A call that gets to the driver needs both positions to agree, and a `pread` the file
position. -/
def BbCall.Allowed (lost : Prop) (f : File Nat) : BbCall → Prop
  | .read count _ => f.clampCount count = 0 ∨ ¬lost
  | .pread count offset _ => { f with pos := offset }.clampCount count = 0 ∨
      (¬lost ∧ offset = f.pos)
  | .lseek _ _ => True

/-- Whether the positions may disagree after a call: after a `pread`, or a `read` that can fail
half way or whose length is no `int`, until a seek. -/
def BbCall.Loses (mtd : MtdInfo) (lost : Prop) (f : File Nat) : BbCall → Prop
  | .read count fault =>
    if f.clampCount count = 0 then lost
    else (∃ a, fault a ≠ none) ∨ 2147483648 ≤ min count (goodSize mtd - f.pos)
  | .pread count offset _ => { f with pos := offset }.clampCount count ≠ 0 ∨ lost
  | .lseek offset whence =>
    lost ∧ ¬(0 < mtd.size ∧ 0 ≤ f.target offset whence ∧ f.target offset whence ≤ goodSize mtd)

/-- A run in which no call relies on a position that may be lost. -/
def Careful (mtd : MtdInfo) (raw : List UInt8) : Prop → File Nat → List BbCall → Prop
  | _, _, [] => True
  | lost, f, call :: rest =>
    call.Allowed lost f ∧ Careful mtd raw (call.Loses mtd lost f) (call.step mtd raw f).2 rest

structure Synced (mtd : MtdInfo) (lost : Prop) (f : File Nat) : Prop where
  size_eq : f.size = goodSize mtd
  pos_le : f.pos ≤ goodSize mtd
  at_pos : ¬lost → At mtd f.node f.pos

theorem ReadsRight.le {pos count : Nat} {bytes : List UInt8} (hUniform : mtd.eraseregions = [])
    (hRaw : raw.length = mtd.size) (h : ReadsRight mtd raw pos count bytes) :
    bytes.length ≤ goodSize mtd - pos := by
  have hLen := congrArg List.length h.1
  rw [slice_length, goodContent_length hUniform hRaw] at hLen
  omega

section Calls
variable (hUniform : mtd.eraseregions = []) (hRaw : raw.length = mtd.size)
  (hSize : goodSize mtd < 18446744073709551616)
include hUniform hRaw hSize

theorem readAt_right {f : File Nat} {count : Nat} (hEq : f.size = goodSize mtd)
    (hPos : f.pos ≤ goodSize mtd)
    (hCount : count < 2 ^ 64) (hAt : f.clampCount count ≠ 0 → At mtd f.node f.pos)
    {r : Except Failure (List UInt8)} {f' : File Nat}
    (h : readAt (bbReader mtd raw fault) f count = (r, f')) :
    f'.pos = f.pos ∧ f'.size = f.size ∧
    (∀ bytes, r = .ok bytes → ReadsRight mtd raw f.pos count bytes) ∧
      (f.clampCount count = 0 → f' = f ∧ r = .ok []) ∧
      (f.clampCount count ≠ 0 → (∀ a, fault a = none) →
        min count (goodSize mtd - f.pos) < 2147483648 →
        ∃ bytes, r = .ok bytes ∧ At mtd f'.node (f.pos + bytes.length)) := by
  have hMin : min (f.clampCount count) (goodSize mtd - f.pos) =
      min count (goodSize mtd - f.pos) := by
    unfold File.clampCount
    split <;> omega
  unfold readAt at h
  dsimp only at h
  by_cases hZero : f.clampCount count = 0
  · rw [if_pos hZero] at h
    cases h
    refine ⟨rfl, rfl, fun bytes hBytes => ?_, fun _ => ⟨rfl, rfl⟩, fun hNo => absurd hZero hNo⟩
    cases hBytes
    refine ⟨by simp [slice], fun _ => ?_⟩
    grind
  rw [if_neg hZero] at h
  have hStart := hAt hZero
  cases hRes : nandBbRead mtd raw fault (f.clampCount count) f.node with
  | mk res node =>
    rw [bbReader, hRes] at h
    cases h
    have hAll (all : List UInt8) (hOk : res = .ok all) :
        all = slice f.pos (f.clampCount count) (goodContent mtd raw) ∧
          At mtd node (f.pos + all.length) ∧
          all.length = min count (goodSize mtd - f.pos) := by
      rw [hOk] at hRes
      obtain ⟨hBytes, hNode⟩ := nandBbRead_ok hUniform hRaw hStart hRes
      refine ⟨hBytes, hNode, ?_⟩
      rw [hBytes, slice_length, goodContent_length hUniform hRaw, hMin]
    refine ⟨rfl, rfl, fun bytes hBytes => ?_, fun hNo => absurd hNo hZero,
      fun _ hClean hShort => ?_⟩
    · rcases res with e | all
      · cases hBytes
      obtain ⟨hSlice, -, hLen⟩ := hAll all rfl
      obtain ⟨hTake, hLe⟩ := returned_ok (hBytes : returned all = .ok bytes)
      refine ⟨?_, fun hShort => ?_⟩
      · have hClamp : all.length ≤ f.clampCount count := by omega
        rw [← take_slice (hLe.trans hClamp), ← hSlice]
        exact hTake
      have hWhole := returned_of_lt (by omega : all.length < 2147483648)
      rw [show returned all = .ok bytes from hBytes] at hWhole
      cases hWhole
      exact hLen
    · have hLeft : min (f.clampCount count) (goodSize mtd - f.pos) < 2147483648 := by omega
      obtain ⟨all, node', hOk⟩ := nandBbRead_clean hUniform hRaw hClean hStart hLeft
      rw [hRes] at hOk
      cases hOk
      obtain ⟨-, hNode, hLen⟩ := hAll all rfl
      exact ⟨all, returned_of_lt (by omega), hNode⟩

section Step
variable {lost : Prop} {f : File Nat} (hSync : Synced mtd lost f)
include hSync

theorem read_right {count : Nat} {fault : Nat → Option Errno}
    (hInside : (BbCall.read count fault).Inside mtd)
    (hAllowed : (BbCall.read count fault).Allowed lost f) :
    (BbCall.read count fault).Right mtd raw f ∧
      Synced mtd ((BbCall.read count fault).Loses mtd lost f)
      ((BbCall.read count fault).step mtd raw f).2 := by
  obtain ⟨hEq, hPos, hAt⟩ := hSync
  rcases hRead : readAt (bbReader mtd raw fault) f count with ⟨r, f'⟩
  obtain ⟨hSame, hSizeEq, hRight, hNone, hClean⟩ :=
    readAt_right hUniform hRaw hSize hEq hPos hInside
    (fun hSome => hAt (hAllowed.resolve_left hSome)) hRead
  -- what a read that loses nothing leaves
  have hKeep (hKept : ¬(BbCall.read count fault).Loses mtd lost f) :
      ∃ bytes, r = .ok bytes ∧ At mtd f'.node (f.pos + bytes.length) := by
    by_cases hZero : f.clampCount count = 0
    · rw [BbCall.Loses, if_pos hZero] at hKept
      obtain ⟨rfl, rfl⟩ := hNone hZero
      exact ⟨[], rfl, hAt hKept⟩
    · rw [BbCall.Loses, if_neg hZero, not_or, not_exists] at hKept
      exact hClean hZero (fun a => not_not.mp (hKept.1 a)) (by omega)
  cases r with
  | error e =>
    have hStep : (BbCall.read count fault).step mtd raw f = (.error e, f') := read_error hRead
    rw [BbCall.Right, hStep]
    refine ⟨fun _ hNo => (by cases hNo), hSizeEq.trans hEq, hSame.trans_le hPos, fun hKept => ?_⟩
    obtain ⟨bytes, hNo, -⟩ := hKeep hKept
    cases hNo
  | ok bytes =>
    have hStep : (BbCall.read count fault).step mtd raw f =
        (.ok bytes, { f' with pos := f'.pos + bytes.length }) := read_ok hRead
    have hLe := (hRight bytes rfl).le hUniform hRaw
    rw [BbCall.Right, hStep]
    refine ⟨fun out hOut => hRight out hOut, hSizeEq.trans hEq, ?_, fun hKept => ?_⟩
    · dsimp only
      omega
    · obtain ⟨out, hOut, hNode⟩ := hKeep hKept
      cases hOut
      simp [hSame, hNode]

theorem pread_right {count offset : Nat} {fault : Nat → Option Errno}
    (hInside : (BbCall.pread count offset fault).Inside mtd)
    (hAllowed : (BbCall.pread count offset fault).Allowed lost f) :
    (BbCall.pread count offset fault).Right mtd raw f ∧
    Synced mtd ((BbCall.pread count offset fault).Loses mtd lost f)
        ((BbCall.pread count offset fault).step mtd raw f).2 := by
  obtain ⟨hEq, hPos, hAt⟩ := hSync
  rcases hRead : readAt (bbReader mtd raw fault) { f with pos := offset } count with ⟨r, f'⟩
  have hStart (hSome : { f with pos := offset }.clampCount count ≠ 0) : At mtd f.node offset := by
    obtain ⟨hKept, hSame⟩ := hAllowed.resolve_left hSome
    grind
  obtain ⟨-, hSizeEq, hRight, hNone, -⟩ :=
    @readAt_right mtd raw fault hUniform hRaw hSize { f with pos := offset } count hEq hInside.2
      hInside.1 hStart r f' hRead
  have hStep : (BbCall.pread count offset fault).step mtd raw f = (r, { f' with pos := f.pos }) :=
    pread_eq hRead
  rw [BbCall.Right, hStep]
  refine ⟨hRight, hSizeEq.trans hEq, hPos, fun hKept => ?_⟩
  rw [BbCall.Loses, not_or, not_not] at hKept
  obtain ⟨rfl, -⟩ := hNone hKept.1
  exact hAt hKept.2

omit hRaw hSize in
theorem lseek_synced (offset : Int) (whence : Whence) :
    Synced mtd ((BbCall.lseek offset whence).Loses mtd lost f)
    ((BbCall.lseek offset whence).step mtd raw f).2 := by
  obtain ⟨hEq, hPos, hAt⟩ := hSync
  -- a seek that fails leaves everything as it is
  have hKeep (hOut : ¬(0 < mtd.size ∧ 0 ≤ f.target offset whence ∧
      f.target offset whence ≤ goodSize mtd)) :
      Synced mtd ((BbCall.lseek offset whence).Loses mtd lost f) f :=
    ⟨hEq, hPos, fun hKept => hAt fun hLost => hKept ⟨hLost, hOut⟩⟩
  rw [BbCall.step]
  by_cases hOut : f.target offset whence < 0 ∨ (f.size : Int) < f.target offset whence
  · rw [lseek_outside hOut]
    exact hKeep (by omega)
  obtain ⟨pos, hTarget⟩ := Int.eq_ofNat_of_zero_le (by omega : 0 ≤ f.target offset whence)
  have hIn : pos ≤ goodSize mtd := by omega
  by_cases hEmpty : mtd.size = 0
  · have hNone : nandBbLseek mtd pos 0 = .error .einval := by grind [nandBbLseek]
    rw [lseek_refused hTarget (by omega) hNone]
    exact hKeep (by omega)
  have hZero : mtd.erasesize * goodBelow mtd 0 = 0 := Nat.mul_zero _
  obtain ⟨r, hOk, hNode⟩ := @nandBbLseek_ok mtd hUniform pos 0 (Nat.zero_le _)
    (by rw [hZero, Nat.zero_add]; exact hIn) (.inr (by rw [Nat.mul_zero]; omega))
  rw [Nat.mul_zero] at hOk
  rw [hZero, Nat.zero_add] at hNode
  rw [lseek_inside hTarget (by omega) hOk]
  exact ⟨hEq, hIn, fun _ => hNode⟩

/-- The step: an allowed call is right, and the positions agree as far as they did not get
lost. -/
theorem BbCall.step_right {call : BbCall} (hInside : call.Inside mtd)
    (hAllowed : call.Allowed lost f) :
    call.Right mtd raw f ∧ Synced mtd (call.Loses mtd lost f) (call.step mtd raw f).2 := by
  cases call with
  | read count fault => exact read_right hUniform hRaw hSize hSync hInside hAllowed
  | pread count offset fault => exact pread_right hUniform hRaw hSize hSync hInside hAllowed
  | lseek offset whence => exact ⟨fun _ _ => trivial, lseek_synced hUniform hSync offset whence⟩

end Step

theorem run_right {calls : List BbCall} (hInside : ∀ call ∈ calls, call.Inside mtd)
    {lost : Prop} {f : File Nat}
    (hSync : Synced mtd lost f) (hCareful : Careful mtd raw lost f calls) :
    RunRight mtd raw f calls := by
  induction calls generalizing lost f with
  | nil => trivial
  | cons call rest ih =>
    obtain ⟨hAllowed, hRest⟩ := hCareful
    obtain ⟨hRight, hNext⟩ :=
      BbCall.step_right hUniform hRaw hSize hSync (hInside call (.head _)) hAllowed
    exact ⟨hRight, ih (fun c hc => hInside c (.tail _ hc)) hNext hRest⟩

end Calls

/-- The device reads like one array, in every run in which no call relies on a position that an
earlier one may have lost. -/
theorem bb_reads_like_array {mtd : MtdInfo} {raw : List UInt8} (hUniform : mtd.eraseregions = [])
    (hRaw : raw.length = mtd.size) (hSize : mtd.size < 9223372036854775808) {calls : List BbCall}
    (hInside : ∀ call ∈ calls, call.Inside mtd)
    (hCareful : Careful mtd raw False (bbOpen mtd) calls) :
    RunRight mtd raw (bbOpen mtd) calls := by
  have hLe := goodSize_le mtd
  exact run_right hUniform hRaw (by omega) hInside ⟨rfl, Nat.zero_le _,
    fun _ => At.zero mtd⟩ hCareful

def threeBlocksRaw : List UInt8 := replicate 16384 0 ++ (replicate 16384 255 ++ replicate 16384 1)

theorem threeBlocksRaw_length : threeBlocksRaw.length = threeBlocks.size := by
  rw [threeBlocksRaw, length_append, length_append, length_replicate,
    length_replicate, length_replicate]
  rfl

theorem bb_reads_like_array_three : RunRight threeBlocks threeBlocksRaw (bbOpen threeBlocks)
    [.read 20000 fun _ => none, .lseek 16384 .set, .read 1 fun _ => none] := by
  refine bb_reads_like_array rfl threeBlocksRaw_length (by decide) ?_
    ⟨.inr id, trivial, .inr ?_, trivial⟩
  · exact forall_mem_cons.mpr ⟨(by decide : 20000 < 18446744073709551616),
      forall_mem_cons.mpr ⟨trivial,
        forall_mem_singleton.mpr (by decide : 1 < 18446744073709551616)⟩⟩
  · rintro ⟨hLost, -⟩
    rw [BbCall.Loses, if_neg (by decide)] at hLost
    rcases hLost with ⟨a, ha⟩ | hLong
    · exact ha rfl
    · omega

/-- One byte is read at a position in the last block: it comes from the first one, and the next
read goes on behind it. -/
theorem bb_pread_wrong : (BbCall.pread 1 16384 fun _ => none).Inside threeBlocks ∧
    (BbCall.pread 1 16384 fun _ => none).step threeBlocks threeBlocksRaw (bbOpen threeBlocks) =
      (.ok [0], ⟨0, 32768, 1⟩) ∧
    ¬RunRight threeBlocks threeBlocksRaw (bbOpen threeBlocks) [.pread 1 16384 fun _ => none] := by
  have hLoop : nandBbRead threeBlocks threeBlocksRaw (fun _ => none) 1 0 = (.ok [0], 1) := by
    rw [nandBbRead, if_neg (by decide), dif_neg (by decide), if_neg (by decide), if_neg (by decide)]
    dsimp only
    rw [show readNow threeBlocks 1 0 = 1 by decide, nandBbRead, if_pos rfl]
    rfl
  have hSize : goodSize threeBlocks = 32768 := by decide
  have hStep : (BbCall.pread 1 16384 fun _ => none).step threeBlocks threeBlocksRaw
      (bbOpen threeBlocks) =
      (.ok [0], ⟨0, 32768, 1⟩) := by
    have hRead : readAt (bbReader threeBlocks threeBlocksRaw fun _ =>
        none) { bbOpen threeBlocks with pos := 16384 } 1 =
        (.ok [0], ⟨16384, 32768, 1⟩) := by
      rw [readAt, bbOpen, hSize]
      dsimp only [bbReader]
      rw [show File.clampCount (⟨16384, 32768, 0⟩ : File Nat) 1 = 1 by decide,
        if_neg (by decide), hLoop]
      rfl
    exact pread_eq hRead
  refine ⟨⟨by decide, by rw [hSize]; decide⟩, hStep, fun hRun => ?_⟩
  have hRight := hRun.1 [0] (by rw [hStep])
  have hOther : slice 16384 1 (goodContent threeBlocks threeBlocksRaw) = [1] := by
    have hSlice := @goodContent_slice threeBlocks threeBlocksRaw rfl threeBlocksRaw_length 2 0 1
      (by decide) (by decide)
      (by decide)
    have hFront := slice_append_right (replicate 16384 0 ++ replicate 16384 255)
      (replicate 16384 1) 0 1
    rw [append_assoc, length_append, length_replicate, length_replicate] at hFront
    exact hSlice.trans (hFront.trans rfl)
  have hBytes : [0] = slice 16384 1 (goodContent threeBlocks threeBlocksRaw) := hRight.1
  grind

end Barebox.Mtd
