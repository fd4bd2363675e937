import Barebox.State.BucketCircular

/-! The eraseblock of a circular bucket seen as a log. On an error-free medium
the block is always some used part followed by erased bytes, a write appends
its record to the used part or starts it afresh, and a new start recovers the
used part from the bytes alone. -/
namespace Barebox.State
open Bytes Flash List Nat BucketCircular
variable {g : Geometry}

theorem dvd_roundup (x y : Nat) : y ∣ roundup x y := Dvd.intro_left _ rfl

variable {x y writesize : Nat}

theorem le_roundup (hy : 0 < y) : x ≤ roundup x y := by
  have h := div_add_mod (x + (y - 1)) y
  have hm := mod_lt (x + (y - 1)) hy
  rw [mul_comm] at h
  unfold roundup
  omega

theorem roundup_le {z : Nat} (hy : 0 < y) (hz : y ∣ z) (h : x ≤ z) : roundup x y ≤ z := by
  obtain ⟨k, rfl⟩ := hz
  rw [mul_comm y k]
  apply Nat.mul_le_mul_right
  rw [div_le_iff_le_mul_add_pred hy]
  omega

def recordLength (g : Geometry) (len : Nat) : Nat := roundup (len + metaSize) g.writesize

def Fits (g : Geometry) (p : List UInt8) : Prop := recordLength g p.length ≤ g.maxSize

instance (g : Geometry) (p : List UInt8) : Decidable (Fits g p) :=
  inferInstanceAs (Decidable (_ ≤ _))

theorem Geometry.writesize_pos (g : Geometry) : 0 < g.writesize :=
  lt_of_lt_of_le (by decide) g.eight_le_writesize
theorem writesize_dvd_recordLength (g : Geometry) (len : Nat) : g.writesize ∣ recordLength g len :=
  dvd_roundup _ _

theorem add_metaSize_le_recordLength (g : Geometry) (len : Nat) :
    len + metaSize ≤ recordLength g len := le_roundup g.writesize_pos

theorem recordLength_pos (g : Geometry) (len : Nat) : 0 < recordLength g len := by
  have h := add_metaSize_le_recordLength g len
  grind [metaSize]

theorem recordLength_le {len n : Nat} (hn : g.writesize ∣ n) (h : len + metaSize ≤ n) :
    recordLength g len ≤ n := roundup_le g.writesize_pos hn h

variable {p : List UInt8}

theorem Fits.writtenLength (fit : Fits g p) :
    writtenLength g p.length = recordLength g p.length := by
  have hMax := g.maxSize_lt
  unfold Fits at fit
  exact mod_eq_of_lt (show recordLength g p.length < 2 ^ 32 by omega)

@[simp] theorem circularMeta_length (written : Nat) :
    (circularMeta written).length = metaSize := rfl

theorem Fits.record (fit : Fits g p) :
    circularRecord g p = p ++ (zeros (recordLength g p.length - metaSize - p.length) ++
      circularMeta (recordLength g p.length)) := by rw [circularRecord, fit.writtenLength]

theorem Fits.record_length (fit : Fits g p) :
    (circularRecord g p).length = recordLength g p.length := by
  have h := add_metaSize_le_recordLength g p.length
  rw [fit.record]
  simp
  omega

/-- The block holds the used part `used`, everything behind it is erased, and
the write position of the bucket is the end of the used part. When the used
part is empty, the block may hold anything: the next write erases it. -/
structure HoldsLog (c : BucketCircular g) (used : List UInt8) : Prop where
  good : c.peb = .good c.peb.block
  bytes : used ≠ [] → c.peb.block.bytes = used ++ blanks (g.maxSize - used.length)
  area : c.writeArea = used.length

variable {c : BucketCircular g} {used : List UInt8} (h : HoldsLog c used)
include h

theorem HoldsLog.length_le : used.length ≤ g.maxSize := h.area ▸ c.writeArea_le
theorem HoldsLog.rewind : HoldsLog c.rewind [] := ⟨h.good, fun hUsed => (hUsed rfl).elim, rfl⟩

omit h

/-- The part of the log that a write keeps. A record that would reach the end
of the block starts the block afresh. -/
def logKept (g : Geometry) (used p : List UInt8) : List UInt8 :=
  if g.maxSize ≤ used.length + recordLength g p.length then [] else used

def logAppend (g : Geometry) (used p : List UInt8) : List UInt8 :=
  logKept g used p ++ circularRecord g p

theorem Fits.logKept_room (fit : Fits g p) (used : List UInt8) :
    (logKept g used p).length + recordLength g p.length ≤ g.maxSize := by
  unfold Fits at fit
  unfold logKept
  split_ifs with h
  · simpa using fit
  · omega

theorem Fits.logAppend_length (fit : Fits g p) (used : List UInt8) :
    (logAppend g used p).length = (logKept g used p).length + recordLength g p.length := by
  simp [logAppend, fit.record_length]

namespace BucketCircular

def eraseSteps (c : BucketCircular g) (p : List UInt8) : List Step :=
  if c.writeOffset (recordLength g p.length) = 0 then [.erase] else []

def writeSteps (c : BucketCircular g) (p : List UInt8) : List Step :=
  c.eraseSteps p ++ pageSteps g.writesize (c.writeOffset (recordLength g p.length))
    (circularRecord g p)

end BucketCircular

namespace HoldsLog
variable {c : BucketCircular g} {used p : List UInt8}

theorem writeOffset_eq (h : HoldsLog c used) :
    c.writeOffset (recordLength g p.length) = (logKept g used p).length := by
  unfold writeOffset logKept
  rw [h.area]
  split_ifs <;> rfl

theorem run_eraseSteps (h : HoldsLog c used) : (c.peb.block.run (c.eraseSteps p)).bytes =
      logKept g used p ++ blanks (g.maxSize - (logKept g used p).length) := by
  unfold eraseSteps
  rw [h.writeOffset_eq]
  by_cases hKept : logKept g used p = []
  · simp [hKept, Block.apply]
  have hUsed : logKept g used p = used := by
    unfold logKept at hKept ⊢
    split_ifs at hKept ⊢
    · exact (hKept rfl).elim
    · rfl
  grind [Block.run_nil, h.bytes]

theorem run_take_writeSteps (h : HoldsLog c used) (fit : Fits g p) (m : Nat)
    (hm : m ≤ recordLength g p.length / g.writesize) :
    (c.peb.block.run ((c.writeSteps p).take ((c.eraseSteps p).length + m))).bytes =
      logKept g used p ++ ((circularRecord g p).take (m * g.writesize) ++
        blanks (g.maxSize - (logKept g used p).length - m * g.writesize)) := by
  have hRoom := fit.logKept_room used
  rw [writeSteps, take_length_add_append, Block.run_append, h.writeOffset_eq]
  apply run_take_pageSteps h.run_eraseSteps
  · rw [fit.record_length]
    omega
  · simp [fit.record_length, hm]

theorem run_writeSteps (h : HoldsLog c used) (fit : Fits g p) :
    (c.peb.block.run (c.writeSteps p)).bytes =
      logAppend g used p ++ blanks (g.maxSize - (logAppend g used p).length) := by
  have hPages := Nat.div_mul_cancel (writesize_dvd_recordLength g p.length)
  have hRun := h.run_take_writeSteps fit _ le_rfl
  have hAll : (c.writeSteps p).length ≤ (c.eraseSteps p).length +
      recordLength g p.length / g.writesize := by
    simp [writeSteps, fit.record_length]
  rw [take_of_length_le hAll, hPages, take_of_length_le fit.record_length.le] at hRun
  rw [hRun, fit.logAppend_length, logAppend, Nat.sub_sub, append_assoc]

/-- A write of a payload that fits succeeds and appends its record. It leaves
the cached length of the last record as it was. -/
theorem write (h : HoldsLog c used) (fit : Fits g p) :
    ∃ c', bucketCircularWrite c p = (.ok (), c') ∧ HoldsLog c' (logAppend g used p) ∧
      c'.lastWrittenLength = c.lastWrittenLength ∧ c'.peb.block =
      c.peb.block.run (c.writeSteps p) := by
  have hArea : c.writeOffset (recordLength g p.length) + recordLength g p.length =
      (logAppend g used p).length := by
    rw [fit.logAppend_length, h.writeOffset_eq]
  have hLe : (logAppend g used p).length ≤ g.maxSize := by
    simp [fit.logAppend_length, fit.logKept_room]
  refine ⟨{ c with
    peb := .good (c.peb.block.run (c.writeSteps p))
    writeArea := (logAppend g used p).length
    writeArea_le := hLe }, ?_, ⟨rfl, fun _ => h.run_writeSteps fit, rfl⟩, rfl, rfl⟩
  have hFit : ¬g.maxSize < recordLength g p.length := not_lt.mpr fit
  have hPos := (recordLength_pos g p.length).ne'
  simp only [bucketCircularWrite, fit.writtenLength, hFit, hPos, dite_false, if_false, ← hArea]
  have hGood := h.good
  obtain ⟨⟨block, onRead, onWrite, onErase⟩, area, last, wrong, hBound⟩ := c
  obtain ⟨rfl, rfl, rfl⟩ := hGood
  by_cases hOffset : writeOffset
      ⟨⟨block, .clean, .clean, none⟩, area, last, wrong, hBound⟩ (recordLength g p.length) = 0
  · simp [hOffset, mtdPebErase, mtdPebWrite, Peb.good, writeSteps, eraseSteps, Block.apply]
  · simp [hOffset, mtdPebWrite, Peb.good, writeSteps, eraseSteps]

theorem read_record (h : HoldsLog c used) (hPos : c.lastWrittenLength ≠ 0)
    (hLe : c.lastWrittenLength ≤ used.length) (hDvd : g.writesize ∣ c.lastWrittenLength) :
    bucketCircularRead c =
      (.ok (slice (used.length - c.lastWrittenLength) c.lastWrittenLength used)
        (c.lastWrittenLength - metaSize), c) := by
  have hArea : c.writeArea ≠ 0 := by rw [h.area]; omega
  have hOk : ¬(c.writeArea < c.lastWrittenLength ∨ c.lastWrittenLength % g.writesize ≠ 0) := by
    simp [h.area]
    omega
  have hGood : c.peb.onRead = .clean := by rw [h.good]; rfl
  have hSlice : c.peb.block.read (used.length - c.lastWrittenLength) c.lastWrittenLength =
      slice (used.length - c.lastWrittenLength) c.lastWrittenLength used := by
    rw [Block.read, h.bytes (by rintro rfl; simp at hLe; omega)]
    exact slice_append_left _ (by omega)
  grind [bucketCircularRead, bucketCircularReadRange, mtdPebRead, h.area]

/-- Without a length in the last meta, the block is taken for the old format:
it is read from its start, and the write position is forgotten. -/
theorem read_old (h : HoldsLog c used) (hLast : c.lastWrittenLength = 0)
    (hPos : 0 < min used.length (g.maxSize - metaSize)) : bucketCircularRead c =
      (.ok (used.take (min used.length (g.maxSize - metaSize)))
        (min used.length (g.maxSize - metaSize)), c.rewind) := by
  have hArea : c.writeArea ≠ 0 := by rw [h.area]; omega
  have hGood : c.rewind.peb.onRead = .clean := by
    rw [show c.rewind.peb = c.peb from rfl, h.good]; rfl
  have hSlice : c.rewind.peb.block.read 0 (min used.length (g.maxSize - metaSize)) =
      used.take (min used.length (g.maxSize - metaSize)) := by
    rw [show c.rewind.peb = c.peb from rfl, Block.read, h.bytes (by rintro rfl; simp at hPos),
      slice_append_left _ (by omega), slice, drop_zero]
  grind [bucketCircularRead, h.area, bucketCircularReadRange, mtdPebRead, BucketCircular.rewind]

/-- In a block that has room for a meta only, there is nothing to read in the
old format. -/
theorem read_old_none (h : HoldsLog c used) (hUsed : used ≠ []) (hLast : c.lastWrittenLength = 0)
    (hMax : g.maxSize = metaSize) : bucketCircularRead c = (.error .einval, c.rewind) := by
  have hArea : c.writeArea ≠ 0 := by grind [h.area]
  simp [bucketCircularRead, if_neg hArea, if_pos hLast, hMax, bucketCircularReadRange]

/-- A length that cannot belong to the block makes the read fail. -/
theorem read_invalid (h : HoldsLog c used) (hUsed : used ≠ []) (hLast : c.lastWrittenLength ≠ 0)
    (hBad : used.length < c.lastWrittenLength ∨ ¬g.writesize ∣ c.lastWrittenLength) :
    bucketCircularRead c = (.error .einval, c.rewind) := by
  have hArea : c.writeArea ≠ 0 := by grind [h.area]
  have hBad' : c.writeArea < c.lastWrittenLength ∨ c.lastWrittenLength % g.writesize ≠ 0 := by
    rw [h.area]
    exact hBad.imp id (fun hDvd hMod => hDvd (dvd_of_mod_eq_zero hMod))
  rw [bucketCircularRead, if_neg hArea, if_neg hLast, if_pos hBad']

end HoldsLog

theorem bucketCircularRead_empty {c : BucketCircular g} (h : c.writeArea = 0) :
    bucketCircularRead c = (.error .enodata, c) := by rw [bucketCircularRead, if_pos h]

/-- The last page in front of `stop` is in use, or there is no such page. -/
def LastPage (writesize : Nat) (bytes : List UInt8) (stop : Nat) : Prop :=
  stop < writesize ∨ blank (slice (stop - writesize) writesize bytes) = false

/-- The scan from the end stops behind the last page that is not blank. -/
theorem bucketCircularScan_spec (hw : 0 < writesize) (bytes : List UInt8)
    (fuel stop : Nat) (hFuel : stop ≤ fuel)
    (hLen : stop ≤ bytes.length) (hBlank : bytes.drop stop = blanks (bytes.length - stop)) :
    let found := bucketCircularScan writesize bytes fuel stop
    bytes.drop found = blanks (bytes.length - found) ∧ writesize ∣ stop - found ∧
      LastPage writesize bytes found := by
  induction fuel generalizing stop with
  | zero =>
    have hZero : stop = 0 := by omega
    subst hZero
    exact ⟨hBlank, by simp, .inl hw⟩
  | succ fuel ih =>
    unfold bucketCircularScan
    split_ifs with hLow hPage
    · exact ⟨hBlank, by simp, .inl hLow⟩
    · have hSplit : bytes.drop (stop - writesize) = slice (stop - writesize) writesize bytes ++
          bytes.drop stop := by
        have hDrop : bytes.drop stop = (bytes.drop (stop - writesize)).drop writesize := by
          simp
          omega
        simp [slice, hDrop]
      have hDrop : bytes.drop (stop - writesize) = blanks (bytes.length - (stop - writesize)) := by
        rw [hSplit, hBlank, blank_iff.mp hPage, slice_length_of_le (by omega), ← blanks_add]
        congr 1
        omega
      obtain ⟨hRest, hDvd, hLast⟩ := ih (stop - writesize) (by omega) (by omega) hDrop
      have hLe := bucketCircularScan_le writesize bytes fuel (stop - writesize)
      refine ⟨hRest, ?_, hLast⟩
      rw [show stop - bucketCircularScan writesize bytes fuel (stop - writesize) =
        stop - writesize - bucketCircularScan writesize bytes fuel (stop - writesize) + writesize
        by omega]
      exact (Nat.dvd_add_self_right).mpr hDvd
    · exact ⟨hBlank, by simp, .inr (by simpa using hPage)⟩

variable {used : List UInt8}

theorem bucketCircularScan_eq (hw : 0 < writesize) {free : Nat}
    (hLast : LastPage writesize used used.length)
    (fuel stop : Nat) (hFuel : stop ≤ fuel) (hLe : used.length ≤ stop)
    (hStop : stop ≤ used.length + free)
    (hDvd : writesize ∣ stop - used.length) :
    bucketCircularScan writesize (used ++ blanks free) fuel stop = used.length := by
  induction fuel generalizing stop with
  | zero =>
    unfold bucketCircularScan
    omega
  | succ fuel ih =>
    obtain ⟨pages, hPages⟩ := hDvd
    unfold bucketCircularScan
    cases pages with
    | zero =>
      have hEq : stop = used.length := by simp at hPages; omega
      subst hEq
      split_ifs with hLow hPage
      · rfl
      · rw [slice_append_left _ (by omega)] at hPage
        rcases hLast with hLow' | hPage'
        · exact (hLow hLow').elim
        · simp [hPage'] at hPage
      · rfl
    | succ pages =>
      rw [mul_succ] at hPages
      have hBlank : blank (slice (stop - writesize) writesize (used ++ blanks free)) = true := by
        have hOff : stop - writesize = used.length + writesize * pages := by omega
        rw [hOff, slice_append_right, slice, blanks, drop_replicate, take_replicate]
        exact blank_blanks _
      rw [if_neg (by omega), if_pos hBlank]
      exact ih _ (by omega) (by omega) (by omega) ⟨pages, by omega⟩

/-- The length a start finds in front of the end of the used part, zero when
there is no page or its meta does not carry the magic. -/
def foundLength (g : Geometry) (used : List UInt8) : Nat :=
  if g.writesize ≤ used.length ∧ (metaAt used used.length).1 = circularMagic then
    (metaAt used used.length).2
  else 0

private theorem metaAt_append (h : metaSize ≤ used.length) (rest : List UInt8) :
    metaAt (used ++ rest) used.length = metaAt used used.length := by
  simp only [metaSize] at h
  simp only [metaAt, metaSize]
  rw [slice_append_left _ (by omega), slice_append_left _ (by omega)]

theorem bucketCircularInit_log {block : Block g.maxSize}
    (hBytes : block.bytes = used ++ blanks (g.maxSize - used.length))
    (hLe : used.length ≤ g.maxSize)
    (hDvd : g.writesize ∣ g.maxSize - used.length) (hLast : LastPage g.writesize used used.length) :
    ∃ c : BucketCircular g, bucketCircularInit (.good block) = .ok c ∧ HoldsLog c used ∧
      c.peb = .good block ∧ c.lastWrittenLength = foundLength g used := by
  have hScan : bucketCircularScan g.writesize block.bytes g.maxSize g.maxSize = used.length := by
    rw [hBytes]
    exact bucketCircularScan_eq g.writesize_pos hLast _ _ le_rfl hLe (by omega) hDvd
  have hRead : (Peb.good block).block.read 0 g.maxSize = block.bytes := by
    simp [Peb.good, Block.read, slice, take_of_length_le block.length_eq.le]
  have hMeta : g.writesize ≤ used.length → metaAt block.bytes used.length =
      metaAt used used.length := fun hPage => by
    rw [hBytes]
    exact metaAt_append (g.eight_le_writesize.trans hPage) _
  refine ⟨_, rfl, ?_, rfl, ?_⟩
  · exact ⟨rfl, fun _ => hBytes, by simp only [hRead, hScan]⟩
  simp only [hRead, hScan, foundLength]
  by_cases hPage : g.writesize ≤ used.length
  · simp [hMeta hPage]
  · simp [hPage]

theorem bucketCircularInit_good (block : Block g.maxSize) :
    ∃ (c : BucketCircular g) (used : List UInt8), bucketCircularInit (.good block) = .ok c ∧
      HoldsLog c used ∧ c.lastWrittenLength = foundLength g used ∧
      g.writesize ∣ g.maxSize - used.length ∧ LastPage g.writesize used used.length := by
  have hLen := block.length_eq
  have hStop := bucketCircularScan_le g.writesize block.bytes g.maxSize g.maxSize
  obtain ⟨hBlank, hDvd, hLast⟩ := bucketCircularScan_spec g.writesize_pos block.bytes g.maxSize
    g.maxSize le_rfl hLen.ge (by simp [blanks, hLen])
  generalize bucketCircularScan g.writesize block.bytes g.maxSize g.maxSize = stop at *
  have hUsed : (block.bytes.take stop).length = stop := by simp [hLen, hStop]
  have hBytes : block.bytes = block.bytes.take stop ++ blanks (g.maxSize - stop) := by
    grind [take_append_drop]
  have hLast' : LastPage g.writesize (block.bytes.take stop) stop := by
    by_cases hLow : stop < g.writesize
    · exact .inl hLow
    · have hPage := hLast.resolve_left hLow
      rw [hBytes, slice_append_left _ (by omega)] at hPage
      exact .inr hPage
  have hFree : block.bytes = block.bytes.take stop ++
      blanks (g.maxSize - (block.bytes.take stop).length) := by rw [hUsed]; exact hBytes
  have hDvd' : g.writesize ∣ g.maxSize - (block.bytes.take stop).length := by rw [hUsed]; exact hDvd
  have hPage : LastPage g.writesize (block.bytes.take stop) (block.bytes.take stop).length := by
    rw [hUsed]; exact hLast'
  obtain ⟨c, hInit, hLog, -, hFound⟩ := bucketCircularInit_log hFree (by omega) hDvd' hPage
  exact ⟨c, _, hInit, hLog, hFound, hDvd', hPage⟩

end Barebox.State
