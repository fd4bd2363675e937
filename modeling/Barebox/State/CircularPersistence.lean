import Barebox.State.CircularLog

/-! What a circular bucket keeps over whole sequences of writes: every page is
erased when it is programmed, and a new start reads back the last payload. -/
namespace Barebox.State
open Bytes Flash List
variable {g : Geometry}

theorem metaAt_circularMeta (front : List UInt8) {written : Nat} (h : written < 2 ^ 32) :
    metaAt (front ++ circularMeta written) (front ++ circularMeta written).length =
    (circularMagic, written) := by
  have hMagic : slice front.length 4 (front ++ circularMeta written) = le 4 circularMagic := by
    have := slice_append_middle front (le 4 circularMagic) (le 4 written)
    rwa [le_length] at this
  have hWritten : slice (front.length + 4) 4 (front ++ circularMeta written) = le 4 written := by
    simp [circularMeta, slice]
  have hLen : (front ++ circularMeta written).length = front.length + 8 := by simp [metaSize]
  simp only [metaAt, hLen, metaSize, Nat.add_sub_cancel, hMagic]
  rw [show front.length + 8 - 4 = front.length + 4 by omega, hWritten,
    ofLe_le_of_lt (by decide), ofLe_le_of_lt (by simpa using h)]

theorem blank_circularMeta (written : Nat) : blank (circularMeta written) = false := rfl

theorem lastPage_circularMeta (front : List UInt8) (written : Nat) :
    LastPage g.writesize (front ++ circularMeta written)
    (front ++ circularMeta written).length := by
  have hEight := g.eight_le_writesize
  by_cases hLow : (front ++ circularMeta written).length < g.writesize
  · exact .inl hLow
  have hLen : (front ++ circularMeta written).length = front.length + 8 := by simp [metaSize]
  refine .inr ?_
  have hTake : slice ((front ++ circularMeta written).length - g.writesize) g.writesize
      (front ++ circularMeta written) =
      front.drop (front.length + 8 - g.writesize) ++ circularMeta written := by
        grind [slice, take_of_length_le]
  rw [hTake, blank_append, blank_circularMeta, Bool.and_false]

namespace Fits
variable {p : List UInt8} (fit : Fits g p)
include fit

theorem recordLength_lt : recordLength g p.length < 2 ^ 32 := by
  have hMax := g.maxSize_lt
  grind [Fits]

theorem logAppend_ne_nil (used : List UInt8) : logAppend g used p ≠ [] := by
  have hPos := recordLength_pos g p.length
  rw [← length_pos_iff, fit.logAppend_length]
  omega

theorem lastPage (front : List UInt8) :
    LastPage g.writesize (front ++ circularRecord g p) (front ++ circularRecord g p).length := by
  grind [fit.record, lastPage_circularMeta]

theorem foundLength (front : List UInt8) :
    foundLength g (front ++ circularRecord g p) = recordLength g p.length := by
  have hPage : g.writesize ≤ (front ++ circularRecord g p).length := by
    have hLe := Nat.le_of_dvd (recordLength_pos g p.length) (writesize_dvd_recordLength g p.length)
    simp [fit.record_length]
    omega
  have hMeta : metaAt (front ++ circularRecord g p) (front ++ circularRecord g p).length =
      (circularMagic, recordLength g p.length) := by
    rw [fit.record, ← append_assoc p, ← append_assoc front]
    exact metaAt_circularMeta _ fit.recordLength_lt
  grind [State.foundLength]

theorem record_take : (circularRecord g p).take (recordLength g p.length - metaSize) =
      p ++ zeros (recordLength g p.length - metaSize - p.length) := by
  have h := add_metaSize_le_recordLength g p.length
  rw [fit.record, ← append_assoc, take_left']
  simp
  omega

theorem slice_beyond {front : List UInt8} {last : Nat} (hBeyond : recordLength g p.length ≤ last)
    (hLe : last ≤ (front ++ circularRecord g p).length) :
    (slice ((front ++ circularRecord g p).length - last) last (front ++ circularRecord g p)).take
      (last - metaSize) =
      front.drop (front.length + recordLength g p.length - last) ++
        (p ++ zeros (recordLength g p.length - metaSize - p.length)) := by
  have hMeta := add_metaSize_le_recordLength g p.length
  rw [length_append, fit.record_length] at hLe ⊢
  rw [slice, drop_append_of_le_length (by omega), take_take]
  have hSplit : min (last - metaSize) last =
      (front.drop (front.length + recordLength g p.length - last)).length +
        (recordLength g p.length - metaSize) := by
    simp
    omega
  rw [hSplit, take_length_add_append, fit.record_take]

theorem dvd_logAppend (hPages : g.writesize ∣ g.maxSize) {used : List UInt8}
    (hUsed : g.writesize ∣ g.maxSize - used.length) :
    g.writesize ∣ g.maxSize - (logAppend g used p).length := by
  have hRecord := writesize_dvd_recordLength g p.length
  rw [fit.logAppend_length, ← Nat.sub_sub]
  apply Nat.dvd_sub _ hRecord
  unfold logKept
  split_ifs
  · omega
  · exact hUsed

end Fits

variable {c : BucketCircular g} {used : List UInt8}

theorem HoldsLog.read_last {front p : List UInt8} (fit : Fits g p)
    (h : HoldsLog c (front ++ circularRecord g p))
    (hLast : c.lastWrittenLength = recordLength g p.length) : bucketCircularRead c =
      (.ok (circularRecord g p) (recordLength g p.length - metaSize), c) := by
  have hLen : (front ++ circularRecord g p).length = front.length + recordLength g p.length := by
    simp [fit.record_length]
  have hSlice : slice ((front ++ circularRecord g p).length - recordLength g p.length)
      (recordLength g p.length) (front ++ circularRecord g p) = circularRecord g p := by
    rw [hLen, Nat.add_sub_cancel, ← fit.record_length, ← Nat.add_zero front.length,
      slice_append_right, slice_zero_length]
  rw [h.read_record (by rw [hLast]; exact (recordLength_pos g p.length).ne')
    (by omega) (by rw [hLast]; exact writesize_dvd_recordLength _ _), hLast, hSlice]

def bucketCircularWriteAll (c : BucketCircular g) : List (List UInt8) → BucketCircular g
  | [] => c
  | p :: rest => bucketCircularWriteAll (bucketCircularWrite c p).2 rest

theorem bucketCircularWriteAll_append (c : BucketCircular g) (first second : List (List UInt8)) :
    bucketCircularWriteAll c (first ++ second) =
    bucketCircularWriteAll (bucketCircularWriteAll c first) second := by
  induction first generalizing c with
  | nil => rfl
  | cons p rest ih => exact ih _

theorem HoldsLog.writeAll (h : HoldsLog c used) (hPages : g.writesize ∣ g.maxSize)
    (hUsed : g.writesize ∣ g.maxSize - used.length) (payloads : List (List UInt8))
    (hFit : ∀ p ∈ payloads, Fits g p) :
    ∃ used', HoldsLog (bucketCircularWriteAll c payloads) used' ∧
    g.writesize ∣ g.maxSize - used'.length := by
  induction payloads generalizing c used with
  | nil => exact ⟨used, h, hUsed⟩
  | cons p rest ih =>
    have fit := hFit p (.head _)
    obtain ⟨c', hWrite, hLog, -, -⟩ := h.write fit
    rw [bucketCircularWriteAll, hWrite]
    exact ih hLog (fit.dvd_logAppend hPages hUsed) (fun q hq => hFit q (.tail _ hq))

theorem HoldsLog.program_erased {p : List UInt8} (h : HoldsLog c used)
    (fit : Fits g p) {before after : List Step}
    {off : Nat} {page : List UInt8}
    (hStep : c.writeSteps p = before ++ .program off page :: after) :
    (c.peb.block.run before).read off page.length = blanks page.length := by
  have hBefore : before = (c.writeSteps p).take before.length := by simp [hStep]
  have hAt : (c.writeSteps p)[before.length]? = some (.program off page) := by simp [hStep]
  by_cases hErase : before.length < (c.eraseSteps p).length
  · exfalso
    rw [BucketCircular.writeSteps, getElem?_append_left hErase] at hAt
    have hMem := mem_of_getElem? hAt
    unfold BucketCircular.eraseSteps at hMem
    split_ifs at hMem <;> simp at hMem
  obtain ⟨m, hm⟩ := Nat.exists_eq_add_of_le (Nat.le_of_not_lt hErase)
  rw [BucketCircular.writeSteps, getElem?_append_right (by omega),
    hm, Nat.add_sub_cancel_left] at hAt
  have hCount : m < recordLength g p.length / g.writesize := by
    have := (List.getElem?_eq_some_iff.mp hAt).1
    rwa [pageSteps_length, fit.record_length] at this
  have hEnd : m * g.writesize + g.writesize ≤ recordLength g p.length := by
    rw [← Nat.succ_mul]
    exact (Nat.mul_le_mul_right _ hCount).trans (Nat.div_mul_le_self _ _)
  have hRoom := fit.logKept_room used
  rw [← fit.record_length] at hCount
  simp only [pageSteps, getElem?_map, getElem?_range hCount, Option.map_some,
    Option.some.injEq, Step.program.injEq, h.writeOffset_eq] at hAt
  obtain ⟨rfl, rfl⟩ := hAt
  rw [slice_length_of_le (by rw [fit.record_length]; omega), hBefore, hm, Block.read,
    h.run_take_writeSteps fit m (by rw [← fit.record_length]; exact hCount.le),
    ← append_assoc]
  have hLen : (logKept g used p ++ (circularRecord g p).take (m * g.writesize)).length =
      (logKept g used p).length + m * g.writesize := by
    simp [fit.record_length]
    omega
  rw [← hLen, ← Nat.add_zero (List.length _), slice_append_right, slice, drop_zero, blanks,
    take_replicate, Nat.min_eq_left (by omega), blanks]

/-- Any sequence of writes that fit, on any initial content: each write
succeeds, every page is erased when it is programmed, and a new start reads
the last payload, padded with zeros to its record without the meta. -/
theorem bucketCircular_persists (hPages : g.writesize ∣ g.maxSize) (block : Block g.maxSize)
    (c : BucketCircular g) (hInit : bucketCircularInit (.good block) = .ok c)
    (payloads : List (List UInt8)) (hFit : ∀ p ∈ payloads, Fits g p) :
    (∀ before p after, payloads = before ++ p :: after →
      let c' := bucketCircularWriteAll c before
      (bucketCircularWrite c' p).1 = .ok () ∧
      (bucketCircularWrite c' p).2.peb.block = c'.peb.block.run (c'.writeSteps p) ∧
      ∀ done off page rest, c'.writeSteps p = done ++ .program off page :: rest →
        (c'.peb.block.run done).read off page.length = blanks page.length) ∧
    (∀ before p, payloads = before ++ [p] → ∃ (c' : BucketCircular g) (buf : List UInt8),
        bucketCircularInit (.good (bucketCircularWriteAll c payloads).peb.block) = .ok c' ∧
        (bucketCircularRead c').1 = .ok buf (recordLength g p.length - metaSize) ∧
        buf.take (recordLength g p.length - metaSize) =
          p ++ zeros (recordLength g p.length - metaSize - p.length)) := by
  obtain ⟨c₀, used, hInit', hLog, -, hUsed, -⟩ := bucketCircularInit_good block
  obtain rfl : c₀ = c := Except.ok.inj (hInit'.symm.trans hInit)
  constructor
  · rintro before p after rfl
    have hBefore : ∀ q ∈ before, Fits g q := fun q hq => hFit q (by simp [hq])
    obtain ⟨used', hLog', -⟩ := hLog.writeAll hPages hUsed before hBefore
    have fit : Fits g p := hFit p (by simp)
    obtain ⟨c', hWrite, -, -, hBlock⟩ := hLog'.write fit
    exact ⟨by rw [hWrite], by rw [hWrite]; exact hBlock,
      fun _ _ _ _ hStep => hLog'.program_erased fit hStep⟩
  rintro before p rfl
  have hBefore : ∀ q ∈ before, Fits g q := fun q hq => hFit q (by simp [hq])
  obtain ⟨used', hLog', hUsed'⟩ := hLog.writeAll hPages hUsed before hBefore
  have fit : Fits g p := hFit p (by simp)
  obtain ⟨c', hWrite, hLast, -, -⟩ := hLog'.write fit
  rw [bucketCircularWriteAll_append, bucketCircularWriteAll, hWrite, bucketCircularWriteAll]
  obtain ⟨c'', hInit'', hLog'', -, hFound⟩ := bucketCircularInit_log
    (hLast.bytes (fit.logAppend_ne_nil used')) hLast.length_le
      (fit.dvd_logAppend hPages hUsed') (fit.lastPage _)
  have hRead := hLog''.read_last fit (hFound.trans (fit.foundLength _))
  exact ⟨c'', circularRecord g p, hInit'', by rw [hRead], fit.record_take⟩

def sampleGeometry : Geometry := ⟨8, 64, by decide, by decide, by decide⟩

/-- Two writes on a block with foreign content, the second all `0xff`. -/
theorem bucketCircular_persists_sample :
    ∃ (c c' : BucketCircular sampleGeometry) (buf : List UInt8),
      bucketCircularInit (.good ((Block.erased 64).program 20 [7, 7])) = .ok c ∧ bucketCircularInit
        (.good (bucketCircularWriteAll c [[1, 2, 3], [255, 255]]).peb.block) = .ok c' ∧
      (bucketCircularRead c').1 = .ok buf 8 ∧ buf.take 8 = [255, 255, 0, 0, 0, 0, 0, 0] := by
  obtain ⟨c', buf, hInit, hRead, hBuf⟩ := (bucketCircular_persists (g := sampleGeometry)
    (by decide) ((Block.erased 64).program 20 [7, 7]) _ rfl [[1, 2, 3], [255, 255]]
    (by decide)).2 [[1, 2, 3]] [255, 255] rfl
  exact ⟨_, c', buf, rfl, hInit, hRead, hBuf⟩

end Barebox.State
