import Barebox.State.CircularPersistence

/-! Reads and writes of a circular bucket within one session. A write moves the
write position but not the cached length of the last record, so what a read
returns depends on the length that the start of the session found. -/
namespace Barebox.State
open Bytes Flash List
variable {g : Geometry}

inductive BucketOp where
  | write (p : List UInt8)
  | read
  deriving DecidableEq, Repr

def BucketOp.step (c : BucketCircular g) : BucketOp → BucketCircular g
  | .write p => (bucketCircularWrite c p).2
  | .read => (bucketCircularRead c).2

def bucketSession (c : BucketCircular g) (ops : List BucketOp) : BucketCircular g :=
  ops.foldl BucketOp.step c

/-- The most recent write of a session and whether a read followed it. -/
def BucketOp.recent (ops : List BucketOp) : Option (List UInt8 × Bool) :=
  ops.foldl (fun last op => match op with
    | .write p => some (p, false)
    | .read => last.map fun (p, _) => (p, true)) none

def EndsInMark (used : List UInt8) : Prop :=
  used = [] ∨ ∃ front len, used = front ++ (le 4 circularMagic ++ len) ∧ len.length = 4

variable {p used front : List UInt8} {last : Nat} {c : BucketCircular g}
    {recent : Option (List UInt8 × Bool)}

theorem endsInMark_record (front : List UInt8) : EndsInMark (front ++ circularRecord g p) := by
  refine .inr ⟨front ++ (p ++ zeros (writtenLength g p.length - metaSize - p.length)),
    le 4 (writtenLength g p.length), ?_, le_length _ _⟩
  simp [circularRecord, circularMeta]

theorem endsInMark_of_foundLength (h : foundLength g used ≠ 0) : EndsInMark used := by
  unfold foundLength at h
  split_ifs at h with hFound
  · obtain ⟨hPage, hMagic⟩ := hFound
    have hEight := g.eight_le_writesize
    have hBytes : slice (used.length - metaSize) 4 used = le 4 circularMagic := by
      have hLen : (slice (used.length - metaSize) 4 used).length = 4 :=
        slice_length_of_le (by simp only [metaSize]; omega)
      have hBack := le_ofLe (slice (used.length - metaSize) 4 used)
      rw [hLen] at hBack
      exact hBack.symm.trans (congrArg (le 4) hMagic)
    refine .inr ⟨used.take (used.length - metaSize), used.drop (used.length - 4), ?_, ?_⟩
    · have hSplit : used.drop (used.length - metaSize) =
          slice (used.length - metaSize) 4 used ++ used.drop (used.length - 4) := by
        simp [slice, show used.length - 4 = used.length - metaSize +
          4 by simp only [metaSize]; omega]
      grind [take_append_drop]
    · simp
      omega
  · exact (h rfl).elim

/-- What the operations of a session establish, `last` being the length that
the start has found. After a write the bucket either ends in the new record,
or a read in between has forgotten the write position. -/
def SessionInv (last : Nat) (c : BucketCircular g) : Option (List UInt8 × Bool) → Prop
  | none => ∃ used, HoldsLog c used ∧ (last ≠ 0 → EndsInMark used)
  | some (p, since) => Fits g p ∧
      ((∃ front, HoldsLog c (front ++ circularRecord g p) ∧ (last ≠ 0 → EndsInMark front) ∧
          (front = [] ∨ front.length + recordLength g p.length < g.maxSize) ∧
          (since = true → last ≠ 0)) ∨
        (HoldsLog c [] ∧ since = true ∧ last ≠ recordLength g p.length))

theorem SessionInv.log (h : SessionInv last c recent) :
    ∃ used, HoldsLog c used ∧ (last ≠ 0 → EndsInMark used) := by
  match recent, h with
  | none, h => exact h
  | some (p, since), ⟨fit, .inl ⟨front, hLog, _, _, _⟩⟩ =>
    exact ⟨_, hLog, fun _ => endsInMark_record front⟩
  | some (p, since), ⟨fit, .inr ⟨hLog, _, _⟩⟩ => exact ⟨[], hLog, fun _ => .inl rfl⟩

theorem SessionInv.write {last : Nat} {c : BucketCircular g} {recent : Option (List UInt8 × Bool)}
    (h : SessionInv last c recent) (hCached : c.lastWrittenLength = last)
    {p : List UInt8} (fit : Fits g p) :
    SessionInv last (bucketCircularWrite c p).2 (some (p, false)) ∧
      (bucketCircularWrite c p).2.lastWrittenLength = last := by
  obtain ⟨used, hLog, hMark⟩ := h.log
  obtain ⟨c', hWrite, hLog', hSame, -⟩ := hLog.write fit
  rw [hWrite]
  refine ⟨⟨fit, .inl ⟨logKept g used p, hLog', ?_, ?_, by simp⟩⟩, hSame.trans hCached⟩
  · intro hLast
    unfold logKept
    split_ifs
    · exact .inl rfl
    · exact hMark hLast
  · unfold logKept
    split_ifs with hWrap
    · exact .inl rfl
    · exact .inr (by omega)

theorem bucketCircularReadRange_snd (hGood : c.peb = .good c.peb.block)
    (offset len : Nat) : (bucketCircularReadRange c offset len).2 = c := by
  have hClean : c.peb.onRead = .clean := by rw [hGood]; rfl
  by_cases hLen : len = 0
  · simp [bucketCircularReadRange, hLen]
  · simp [bucketCircularReadRange, mtdPebRead, hLen, hClean]

/-- A read keeps the log or forgets the write position. It keeps the log
exactly when the cached length can belong to it. -/
theorem HoldsLog.read_log (h : HoldsLog c used) :
    (bucketCircularRead c).2.lastWrittenLength = c.lastWrittenLength ∧
    ((HoldsLog (bucketCircularRead c).2 used ∧ (used ≠ [] → c.lastWrittenLength ≠ 0)) ∨
      (HoldsLog (bucketCircularRead c).2 [] ∧ (c.lastWrittenLength = 0 ∨
        used.length < c.lastWrittenLength ∨ ¬g.writesize ∣ c.lastWrittenLength))) := by
  by_cases hUsed : used = []
  · subst hUsed
    rw [bucketCircularRead_empty h.area]
    exact ⟨rfl, .inl ⟨h, by simp⟩⟩
  have hArea : c.writeArea ≠ 0 := by grind [h.area]
  by_cases hLast : c.lastWrittenLength = 0
  · rw [bucketCircularRead, if_neg hArea, if_pos hLast, bucketCircularReadRange_snd h.rewind.good]
    exact ⟨rfl, .inr ⟨h.rewind, .inl hLast⟩⟩
  by_cases hBad : used.length < c.lastWrittenLength ∨ ¬g.writesize ∣ c.lastWrittenLength
  · rw [h.read_invalid hUsed hLast hBad]
    exact ⟨rfl, .inr ⟨h.rewind, .inr hBad⟩⟩
  · push Not at hBad
    rw [h.read_record hLast hBad.1 hBad.2]
    exact ⟨rfl, .inl ⟨h, fun _ => hLast⟩⟩

theorem SessionInv.read (h : SessionInv last c recent) (hCached : c.lastWrittenLength = last) :
    SessionInv last (bucketCircularRead c).2 (recent.map fun (p, _) => (p, true)) ∧
      (bucketCircularRead c).2.lastWrittenLength = last := by
  subst hCached
  match recent, h with
  | none, ⟨used, hLog, hMark⟩ =>
    obtain ⟨hSame, ⟨hKeep, -⟩ | ⟨hRewind, -⟩⟩ := hLog.read_log
    · exact ⟨⟨used, hKeep, hMark⟩, hSame⟩
    · exact ⟨⟨[], hRewind, fun _ => .inl rfl⟩, hSame⟩
  | some (p, since), ⟨fit, .inl ⟨front, hLog, hMark, hRoom, hSince⟩⟩ =>
    have hUsed : front ++ circularRecord g p ≠ [] := by
      rw [← length_pos_iff, length_append, fit.record_length]
      have := recordLength_pos g p.length
      omega
    obtain ⟨hSame, ⟨hKeep, hLast⟩ | ⟨hRewind, hBad⟩⟩ := hLog.read_log
    · exact ⟨⟨fit, .inl ⟨front, hKeep, hMark, hRoom, fun _ => hLast hUsed⟩⟩, hSame⟩
    refine ⟨⟨fit, .inr ⟨hRewind, rfl, ?_⟩⟩, hSame⟩
    intro hEq
    have hPos := recordLength_pos g p.length
    rw [hEq, length_append, fit.record_length] at hBad
    rcases hBad with hBad | hBad | hBad
    · omega
    · omega
    · exact hBad (writesize_dvd_recordLength _ _)
  | some (p, since), ⟨fit, .inr ⟨hLog, hSince, hNe⟩⟩ =>
    rw [bucketCircularRead_empty hLog.area]
    exact ⟨⟨fit, .inr ⟨hLog, rfl, hNe⟩⟩, rfl⟩

theorem bucketSession_inv (h : SessionInv c.lastWrittenLength c none)
    (ops : List BucketOp) (hFit : ∀ p, .write p ∈ ops → Fits g p) :
    SessionInv c.lastWrittenLength (bucketSession c ops) (BucketOp.recent ops) ∧
      (bucketSession c ops).lastWrittenLength = c.lastWrittenLength := by
  induction ops using reverseRecOn with
  | nil => exact ⟨h, rfl⟩
  | append_singleton ops op ih =>
    obtain ⟨hInv, hSame⟩ := ih (fun p hp => hFit p (by simp [hp]))
    have hSession : bucketSession c (ops ++ [op]) = op.step (bucketSession c ops) := by
      simp [bucketSession]
    rw [hSession]
    cases op with
    | write p =>
      have hRecent : BucketOp.recent (ops ++ [.write p]) = some (p, false) := by
        simp [BucketOp.recent]
      rw [hRecent]
      exact hInv.write hSame (hFit p (by simp))
    | read =>
      have hRecent : BucketOp.recent (ops ++ [.read]) = (BucketOp.recent ops).map fun (p, _) =>
          (p, true) := by
        simp [BucketOp.recent]
      rw [hRecent]
      exact hInv.read hSame

/-- The read returned the payload, followed by zero padding only. -/
def BucketRead.Returns (r : BucketRead) (p : List UInt8) : Prop :=
  ∃ buf len n, r = .ok buf len ∧ buf.take len = p ++ zeros n

theorem BucketRead.not_returns_error (e : Errno) (p : List UInt8) :
    ¬(BucketRead.error e).Returns p := by
  rintro ⟨buf, len, n, h, -⟩
  cases h

theorem BucketRead.not_returns_of_getElem? {buf : List UInt8}
    {len i : Nat} {b : UInt8} (hBehind : p.length ≤ i)
    (hByte : (buf.take len)[i]? = some b) (hb : b ≠ 0) : ¬(BucketRead.ok buf len).Returns p := by
  rintro ⟨buf', len', n, h, hEq⟩
  cases h
  rw [hEq, getElem?_append_right hBehind, zeros, getElem?_replicate] at hByte
  split_ifs at hByte
  exact hb (Option.some.inj hByte).symm

/-- A log read from its start does not consist of the payload of its last
record and zeros: the first byte of the last meta gets in the way. -/
theorem HoldsLog.read_old_not_returns (fit : Fits g p)
    (h : HoldsLog c (front ++ circularRecord g p))
    (hLast : c.lastWrittenLength = 0) (hRoom : front.length + recordLength g p.length < g.maxSize) :
    ¬(bucketCircularRead c).1.Returns p := by
  have hLe := add_metaSize_le_recordLength g p.length
  simp only [metaSize] at hLe
  have hLen : (front ++ circularRecord g p).length = front.length + recordLength g p.length := by
    simp [fit.record_length]
  have hByte : (front ++ circularRecord g p)[front.length + recordLength g p.length - 8]? =
      some 2 := by
    rw [getElem?_append_right (by omega), fit.record, ← append_assoc,
      getElem?_append_right (by simp [metaSize]; omega)]
    have hIndex : front.length + recordLength g p.length - 8 - front.length -
        (p ++ zeros (recordLength g p.length - metaSize - p.length)).length = 0 := by
      simp [metaSize]
      omega
    rw [hIndex]
    rfl
  have hMin : 0 < min (front ++ circularRecord g p).length (g.maxSize - metaSize) := by
    simp only [metaSize]
    omega
  rw [h.read_old hLast hMin]
  apply BucketRead.not_returns_of_getElem? (i := front.length + recordLength g p.length - 8)
    (b := 2) (by omega) _ (by decide)
  grind [metaSize]

/-- A record that fills the block is read correctly even in the old format. -/
theorem HoldsLog.read_old_returns (fit : Fits g p) (h : HoldsLog c (circularRecord g p))
    (hLast : c.lastWrittenLength = 0) (hFull : recordLength g p.length = g.maxSize)
    (hMeta : metaSize < g.maxSize) :
    (bucketCircularRead c).1.Returns p := by
  have hMin : min (circularRecord g p).length (g.maxSize - metaSize) =
      recordLength g p.length - metaSize := by
    simp [fit.record_length, hFull]
  rw [h.read_old hLast (by omega), hMin]
  exact ⟨_, _, _, rfl, by rw [take_take, Nat.min_self, fit.record_take]⟩

theorem EndsInMark.two_mem_drop (h : EndsInMark used) {n : Nat}
    (hn : n + 8 ≤ used.length) : (2 : UInt8) ∈ used.drop n := by
  rcases h with rfl | ⟨front, len, rfl, hFour⟩
  · simp at hn
  · have hFront : n ≤ front.length := by grind [le_length]
    rw [drop_append_of_le_length hFront]
    exact mem_append_right _ (mem_append_left _ (by decide))

/-- With any other length than that of the last record, the read fails, is too
short, or starts inside the part in front of the record. -/
theorem HoldsLog.read_other_not_returns (fit : Fits g p)
    (h : HoldsLog c (front ++ circularRecord g p))
    (hLast : c.lastWrittenLength ≠ 0) (hMark : EndsInMark front)
    (hNe : c.lastWrittenLength ≠ recordLength g p.length) :
    ¬(bucketCircularRead c).1.Returns p := by
  have hLen : (front ++ circularRecord g p).length = front.length + recordLength g p.length := by
    simp [fit.record_length]
  have hPos := recordLength_pos g p.length
  by_cases hBad : (front ++ circularRecord g p).length < c.lastWrittenLength ∨
    ¬g.writesize ∣ c.lastWrittenLength
  · simp [h.read_invalid (by rw [← length_pos_iff]; omega) hLast hBad, BucketRead.not_returns_error]
  push Not at hBad
  obtain ⟨hLe, hDvd⟩ := hBad
  rw [h.read_record hLast hLe hDvd]
  rintro ⟨buf, len, n, hRead, hEq⟩
  simp only [BucketRead.ok.injEq] at hRead
  rw [← hRead.1, ← hRead.2] at hEq
  have hEight := g.eight_le_writesize
  have hPage := Nat.le_of_dvd (Nat.pos_of_ne_zero hLast) hDvd
  have hShort : recordLength g p.length ≤ c.lastWrittenLength := by
    have hLength := congrArg List.length hEq
    rw [length_take, hLen, length_append] at hLength
    refine recordLength_le hDvd ?_
    grind [metaSize]
  have hMore : 8 ≤ c.lastWrittenLength - recordLength g p.length := by
    have hStep := Nat.dvd_sub hDvd (writesize_dvd_recordLength g p.length)
    have := Nat.le_of_dvd (by omega) hStep
    omega
  rw [fit.slice_beyond hShort hLe] at hEq
  have hZero : (2 : UInt8) = 0 := front_zero_of_shift p hEq 2 (hMark.two_mem_drop (by omega))
  simp at hZero

/-- What a read returns after the operations of a session, depending on the
length `last` that the start of the session has found. -/
theorem SessionInv.returns_iff {since : Bool}
    (h : SessionInv last c (some (p, since))) (hCached : c.lastWrittenLength = last) :
    (bucketCircularRead c).1.Returns p ↔ last = recordLength g p.length ∨
        (last = 0 ∧ recordLength g p.length = g.maxSize ∧ metaSize < g.maxSize ∧
          since = false) := by
  subst hCached
  have hPos := recordLength_pos g p.length
  obtain ⟨fit, ⟨front, hLog, hMark, hRoom, hSince⟩ | ⟨hLog, hSince, hNe⟩⟩ := h
  · by_cases hRight : c.lastWrittenLength = recordLength g p.length
    · refine iff_of_true ?_ (.inl hRight)
      rw [hLog.read_last fit hRight]
      exact ⟨_, _, _, rfl, fit.record_take⟩
    by_cases hOld : c.lastWrittenLength = 0
    · have hFresh : since = false := by
        cases since with
        | false => rfl
        | true => exact (hSince rfl hOld).elim
      by_cases hFull : recordLength g p.length = g.maxSize
      · have hFront : front = [] := hRoom.resolve_right (by omega)
        rw [hFront, nil_append] at hLog
        by_cases hMeta : metaSize < g.maxSize
        · exact iff_of_true (hLog.read_old_returns fit hOld hFull hMeta)
            (.inr ⟨hOld, hFull, hMeta, hFresh⟩)
        have hMax : g.maxSize = metaSize := Nat.le_antisymm (Nat.not_lt.mp hMeta)
          (g.eight_le_writesize.trans g.writesize_le_maxSize)
        have hUsed : circularRecord g p ≠ [] := by grind [fit.record_length]
        rw [hLog.read_old_none hUsed hOld hMax]
        exact iff_of_false (BucketRead.not_returns_error _ _) (by tauto)
      · refine iff_of_false (hLog.read_old_not_returns fit hOld ?_) (by tauto)
        unfold Fits at fit
        rcases hRoom with rfl | hRoom
        · simp
          omega
        · exact hRoom
    · exact iff_of_false (hLog.read_other_not_returns fit hOld (hMark hOld) hRight) (by tauto)
  · rw [bucketCircularRead_empty hLog.area]
    refine iff_of_false (BucketRead.not_returns_error _ _) ?_
    simp [hNe, hSince]

/-- A read at the end of a session returns the most recent payload exactly
when the start has found the length of its record, or has found no length and
the record fills the block, which a read in between would have forgotten. -/
theorem bucketCircular_session_read_iff (block : Block g.maxSize) (c : BucketCircular g)
    (hInit : bucketCircularInit (.good block) = .ok c) (ops : List BucketOp)
    (hFit : ∀ p, .write p ∈ ops → Fits g p) (p : List UInt8) (since : Bool)
    (hRecent : BucketOp.recent ops = some (p, since)) :
    (bucketCircularRead (bucketSession c ops)).1.Returns p ↔
      c.lastWrittenLength = recordLength g p.length ∨
      (c.lastWrittenLength = 0 ∧ recordLength g p.length = g.maxSize ∧
          metaSize < g.maxSize ∧ since = false) := by
  obtain ⟨c₀, used, hInit', hLog, hFound, -, -⟩ := bucketCircularInit_good block
  obtain rfl : c₀ = c := Except.ok.inj (hInit'.symm.trans hInit)
  have hStart : SessionInv c₀.lastWrittenLength c₀ none :=
    ⟨used, hLog, fun hNe => endsInMark_of_foundLength (hFound ▸ hNe)⟩
  obtain ⟨hInv, hSame⟩ := bucketSession_inv hStart ops hFit
  rw [hRecent] at hInv
  exact hInv.returns_iff hSame

/-- A session that starts behind a record of the same length. -/
theorem bucketCircular_session_read_iff_sample : ∃ c : BucketCircular sampleGeometry,
      bucketCircularInit
        (.good ((Block.erased 64).program 0 (circularRecord sampleGeometry [1, 2, 3]))) = .ok c ∧
      (bucketCircularRead (bucketSession c [.write [4, 5, 6], .read])).1.Returns [4, 5, 6] := by
  refine ⟨_, rfl, ?_⟩
  refine (bucketCircular_session_read_iff _ _ rfl [.write [4, 5, 6], .read] ?_ _ true rfl).mpr ?_
  · intro p hp
    simp only [mem_cons, BucketOp.write.injEq, reduceCtorEq, not_mem_nil, or_false] at hp
    subst hp
    decide
  · exact .inl (by decide)

/-- On an erased block the second of two writes is not read back: the read
starts at the first record. -/
theorem bucketCircular_session_read_stale : ∃ c : BucketCircular sampleGeometry,
      bucketCircularInit (.good (.erased 64)) = .ok c ∧
      (bucketCircularWrite c [1, 2, 3]).1 = .ok () ∧
      (bucketCircularWrite (bucketSession c [.write [1, 2, 3]]) [4, 5, 6]).1 = .ok () ∧
      (bucketCircularRead (bucketSession c [.write [1, 2, 3], .write [4, 5, 6]])).1 =
        .ok (circularRecord sampleGeometry [1, 2, 3] ++ circularRecord sampleGeometry [4,
          5, 6]) 32 ∧
      ¬(bucketCircularRead (bucketSession c [.write [1, 2, 3], .write [4, 5, 6]])).1.Returns [4,
        5, 6] := by
  have hRead : (bucketCircularRead (bucketSession (g := sampleGeometry)
      ⟨.good (.erased 64), 0, 0, false, Nat.zero_le _⟩ [.write [1, 2, 3], .write [4, 5, 6]])).1 =
      .ok (circularRecord sampleGeometry [1, 2, 3] ++ circularRecord sampleGeometry [4, 5, 6])
        32 := by decide +kernel
  refine ⟨⟨.good (.erased 64), 0, 0, false, Nat.zero_le _⟩, by decide +kernel, by decide +kernel,
    by decide +kernel, hRead, ?_⟩
  rw [hRead]
  rintro ⟨buf, len, n, h, hEq⟩
  cases h
  exact absurd (congrArg List.head? hEq) (by simp [circularRecord])

end Barebox.State
