import Barebox.Lib.Loadable

/-! When extraction of a loadable gives what is asked for. -/
namespace Barebox.Lib
open Bytes Fs List Nat

/-- What extraction is to return: as many bytes from the offset as fit the buffer, or `-ENOSPC`
when they do not fit and a part is not wanted. -/
def expected (content : List UInt8) (size offset : Nat) (isPartial : Bool) :
    Except Failure (List UInt8) :=
  if isPartial = false ∧ size < content.length - offset then .error (.errno .enospc)
  else .ok (slice offset size content)

def Reaches : List (List UInt8) → Nat → Nat → Prop
  | [], _, _ => True
  | chunk :: rest, size, offset =>
    if chunk.length ≤ offset then Reaches rest size (offset - chunk.length)
    else offset = 0 ∨ size ≤ chunk.length - offset

def PlainLoadable.Extractable (l : PlainLoadable) (size offset : Nat) : Prop :=
  match l with
  | .mem _ => True
  | .file content => offset ≤ content.length ∧ min size (content.length - offset) < 2147483648

def Loadable.Extractable (l : Loadable) (size offset : Nat) (isPartial : Bool) : Prop :=
  match l with
  | .plain p => p.Extractable size offset
  | .compressed inner d =>
    if isPartial = true then Reaches (d.chunks inner.content) size offset
    else if offset = 0 then l.content.length ≤ size
    else size = l.content.length - offset ∧ Reaches (d.chunks inner.content) size offset

/-- The condition for writing all of it: each piece of 1 MiB can be had. -/
def Loadable.Streamable : Loadable → Prop
  | .plain _ => True
  | .compressed inner d =>
    ∀ k, k * 1048576 < (d.chunks inner.content).flatten.length →
      Reaches (d.chunks inner.content) 1048576 (k * 1048576)

variable {size offset : Nat} {inner : PlainLoadable}

theorem extractable_compressed {d : Decompressor} :
    (Loadable.compressed inner d).Extractable size offset true ↔
    Reaches (d.chunks inner.content) size offset := by rfl

theorem slice_min (offset size : Nat) (bytes : List UInt8) :
    slice offset (min (bytes.length - offset) size) bytes = slice offset size bytes := by
  rw [slice, slice, ← length_drop, take_eq_take_iff]
  omega

theorem slice_of_le {bytes : List UInt8} (h : bytes.length ≤ offset) (size : Nat) :
    slice offset size bytes = [] := by
  simp [slice, drop_eq_nil_of_le h]

theorem memExtract_eq (data : List UInt8) (size offset : Nat) (isPartial : Bool) :
    memExtract data size offset isPartial = expected data size offset isPartial := by
  unfold memExtract expected
  by_cases hPast : data.length ≤ offset
  · rw [if_pos hPast, if_neg (by omega), slice_of_le hPast]
  · rw [if_neg hPast, slice_min]

section File
variable {content : List UInt8} (hContent : content.length < 9223372036854775808)
include hContent
variable {pos size offset : Nat} {f f' : File Unit} (hPos : pos ≤ content.length)
    (hSize : size < 9223372036854775808)
  (hShort : min size (content.length - pos) < 2147483648)
include hPos hSize hShort

theorem static_read : Fs.read (staticReader content) ⟨pos, content.length, ()⟩ size =
      (.ok (slice pos size content),
        ⟨pos + min size (content.length - pos), content.length, ()⟩) := by
  have hClamp : File.clampCount (⟨pos, content.length, ()⟩ : File Unit) size =
      min (content.length - pos) size := by
    unfold File.clampCount
    dsimp only
    split <;> omega
  have hLen : (slice pos size content).length = min size (content.length - pos) :=
    slice_length _ _ _
  have hRead : readAt (staticReader content) ⟨pos, content.length, ()⟩ size =
      (.ok (slice pos size content), ⟨pos, content.length, ()⟩) := by
    rw [readAt, hClamp]
    dsimp only
    by_cases hZero : min (content.length - pos) size = 0
    · grind
    rw [if_neg hZero, staticReader, slice_min]
    dsimp only
    rw [show (Except.ok (slice pos size content) : Except Failure _).bind returned =
      returned (slice pos size content)
      from rfl, returned_of_lt (by omega)]
  rw [read_ok hRead, hLen]

theorem static_readFullLoop : readFullLoop (staticReader content) ⟨pos, content.length, ()⟩ size =
      (.ok (slice pos size content),
        ⟨pos + min size (content.length - pos), content.length, ()⟩) := by
  rw [readFullLoop]
  by_cases hZero : size = 0
  · rw [dif_pos hZero, hZero, zero_min, add_zero]
    rfl
  have hLen : (slice pos size content).length = min size (content.length - pos) :=
    slice_length _ _ _
  rw [dif_neg hZero, static_read hContent hPos hSize hShort]
  rcases hBytes : slice pos size content with _ | ⟨b, bytes⟩
  · rfl
  rw [hBytes] at hLen
  have hRest : readFullLoop (staticReader content)
      ⟨pos + min size (content.length - pos), content.length, ()⟩ (size - (b :: bytes).length) =
        (.ok [], ⟨pos + min size (content.length - pos), content.length, ()⟩) := by
    rw [readFullLoop]
    split
    · rfl
    · rw [static_read hContent (by omega) (by omega) (by omega), slice_of_le (by omega),
        show min (size - (b :: bytes).length)
          (content.length - (pos + min size (content.length - pos))) = 0 by omega]
      rfl
  grind [Except.map]

theorem static_readFull : readFull (staticReader content) ⟨pos, content.length, ()⟩ size =
      (.ok (slice pos size content),
        ⟨pos + min size (content.length - pos), content.length, ()⟩) := by
  have hLen : (slice pos size content).length = min size (content.length - pos) :=
    slice_length _ _ _
  rw [readFull, static_readFullLoop hContent hPos hSize hShort]
  dsimp only
  rw [show (Except.ok (slice pos size content) : Except Failure _).bind returned =
    returned (slice pos size content)
    from rfl, returned_of_lt (by omega)]

omit hPos hSize hShort

omit hContent in
/-- The only error of a read is a length that is no `int`. -/
theorem static_read_error {e : Failure}
    (h : Fs.read (staticReader content) f size = (.error e, f')) : e = .negative := by
  unfold Fs.read readAt at h
  dsimp only at h
  by_cases hZero : f.clampCount size = 0
  · rw [if_pos hZero] at h
    cases h
  rw [if_neg hZero, staticReader] at h
  dsimp only at h
  cases hReturned : returned (slice f.pos (f.clampCount size) content) with
  | error e' =>
    rw [show (Except.ok (slice f.pos (f.clampCount size) content) : Except Failure _).bind
      returned = .error e'
      from hReturned] at h
    cases h
    exact returned_error hReturned
  | ok bytes =>
    rw [show (Except.ok (slice f.pos (f.clampCount size) content) : Except Failure _).bind
      returned = .ok bytes
      from hReturned] at h
    cases h

omit hContent in
theorem static_readFullLoop_error {f f' : File Unit} {size : Nat} {e : Failure}
    (h : readFullLoop (staticReader content) f size = (.error e, f')) : e = .negative := by
  rw [readFullLoop] at h
  split at h
  · cases h
  split at h
  · rename_i hRead
    cases h
    exact static_read_error hRead
  · cases h
  rename_i b bytes f₁ hRead
  dsimp only at h
  rcases hRest : readFullLoop (staticReader content) f₁ (size - (b :: bytes).length) with
      ⟨_ | more, f₂⟩
  · rw [hRest] at h
    cases h
    exact static_readFullLoop_error hRest
  · rw [hRest] at h
    cases h
termination_by size
decreasing_by
  rw [length_cons]
  omega

omit hContent in
theorem static_readFull_cases {r : Except Failure (List UInt8)}
    (h : readFull (staticReader content) f size = (r, f')) :
    r = .error .negative ∨ ∃ bytes, r = .ok bytes ∧ bytes.length < 2147483648 := by
  unfold readFull at h
  rcases hLoop : readFullLoop (staticReader content) f size with ⟨_ | bytes, f₁⟩
  · rw [hLoop] at h
    cases h
    exact .inl (congrArg Except.error (static_readFullLoop_error hLoop))
  rw [hLoop] at h
  cases h
  cases hReturned : returned bytes with
  | error e => exact .inl (hReturned.trans (congrArg Except.error (returned_error hReturned)))
  | ok out => exact .inr ⟨out, hReturned, returned_lt hReturned⟩

include hSize in
/-- A file is extracted as it should exactly when the offset does not lie behind its end and less
than 2 GiB are to be read. -/
theorem fileExtract_iff (isPartial : Bool) :
    fileExtract content size offset isPartial = expected content size offset isPartial ↔
      offset ≤ content.length ∧ min size (content.length - offset) < 2147483648 := by
  have hLen : (slice offset size content).length = min size (content.length - offset) :=
    slice_length _ _ _
  by_cases hIn : offset ≤ content.length
  · rw [fileExtract, lseek_inside rfl hIn rfl]
    dsimp only
    by_cases hShort : min size (content.length - offset) < 2147483648
    · refine iff_of_true ?_ ⟨hIn, hShort⟩
      rw [static_readFull hContent hIn hSize hShort]
      dsimp only
      rw [hLen, expected]
      cases isPartial with
      | true => rw [if_neg (by simp), if_neg (by simp)]
      | false =>
        by_cases hFull : min size (content.length - offset) = size
        · rw [if_pos ⟨rfl, hFull⟩, static_readFull hContent (by omega) (by decide) (by omega)]
          have hOne : (slice (offset + min size (content.length - offset)) 1 content).length =
              min 1 (content.length - (offset + min size (content.length - offset))) :=
                slice_length _ _ _
          cases hNext : slice (offset + min size (content.length - offset)) 1 content with
          | nil =>
            grind
          | cons b rest =>
            grind
        · grind
    · refine iff_of_false (fun hEq => ?_) fun h => hShort h.2
      rcases hRead : readFull (staticReader content) ⟨offset, content.length, ()⟩ size with ⟨r, f'⟩
      rw [hRead] at hEq
      rcases static_readFull_cases hRead with rfl | ⟨bytes, rfl, hBytes⟩
      · dsimp only [expected] at hEq
        split at hEq <;> cases hEq
      dsimp only [expected] at hEq
      rw [if_neg (by omega)] at hEq
      split at hEq
      · cases hEq
      · injection hEq with hSame
        grind
  · refine iff_of_false (fun hEq => ?_) fun h => hIn h.1
    have hOutside : ((⟨0, content.length, ()⟩ : File Unit).size : Int) < (offset : Int) := by
      dsimp only
      omega
    rw [fileExtract, lseek_outside (.inr hOutside), expected, if_neg (by omega)] at hEq
    cases hEq

end File

theorem PlainLoadable.extract_iff {l : PlainLoadable} (hContent : l.content.length < 2 ^ 63)
    (hSize : size < 2 ^ 63) (offset : Nat) (isPartial : Bool) :
    l.extract size offset isPartial = expected l.content size offset isPartial ↔
    l.Extractable size offset := by
  cases l with
  | mem data => exact iff_of_true (memExtract_eq data size offset isPartial) trivial
  | file content => exact fileExtract_iff hContent hSize isPartial

theorem PlainLoadable.extract_partial {l : PlainLoadable} (hContent : l.content.length < 2 ^ 63)
    (hSize : size < 2147483648) (hOffset : offset ≤ l.content.length) :
    l.extract size offset true = .ok (slice offset size l.content) := by
  have hExtract : l.Extractable size offset := by
    cases l with
    | mem data => trivial
    | file content => exact ⟨hOffset, by omega⟩
  rw [(PlainLoadable.extract_iff hContent (by omega) offset true).mpr hExtract,
    expected, if_neg (by simp)]

theorem decompressFills_eq (hContent : inner.content.length < 2 ^ 63) {asks : List Nat}
    (hSmall : ∀ n ∈ asks, n < 2147483648) {pos : Nat} (hPos : pos ≤ inner.content.length) :
    decompressFills inner asks pos = .ok (slice pos asks.sum inner.content) := by
  induction asks generalizing pos with
  | nil => rfl
  | cons len rest ih =>
    have hLen : (slice pos len inner.content).length = min len (inner.content.length - pos) :=
      slice_length _ _ _
    rw [decompressFills, PlainLoadable.extract_partial hContent (hSmall len (.head _)) hPos]
    dsimp only [bind, Except.bind, pure, Except.pure]
    rw [ih (fun n hn => hSmall n (.tail _ hn)) (by omega)]
    dsimp only
    rw [sum_cons, slice_split (Nat.le_add_right len rest.sum), Nat.add_sub_cancel_left]
    congr 2
    rcases le_total (pos + len) inner.content.length with hIn | hOut
    · grind
    · rw [slice_of_le (by omega), slice_of_le (by omega)]

theorem decompressFills_all (hContent : inner.content.length < 2 ^ 63)
    (d : Decompressor) : decompressFills inner (d.asks inner.content) 0 = .ok inner.content := by
  simp [decompressFills_eq hContent (d.asks_small _) (zero_le _),
    slice, take_of_length_le (d.asks_all _)]

section Flush
variable {failure : Errno} {chunk buf : List UInt8} {rest : List (List UInt8)}
    {ctx ctx' : DecompressCtx}
  {size offset : Nat}

theorem flushAll_taken (h : decompressFlush ctx chunk = (chunk.length, ctx')) :
    flushAll failure (chunk :: rest) ctx = flushAll failure rest ctx' := by
  rw [flushAll, h]
  simp

theorem flushAll_refused {n : Nat} (h : decompressFlush ctx chunk = (n, ctx'))
    (hn : n ≠ chunk.length) :
    flushAll failure (chunk :: rest) ctx = (.error failure, ctx') := by
  rw [flushAll, h]
  simp [if_neg hn]

theorem flushCopy_full (hRoom : ctx.dest.length ≤ ctx.destSize)
    (hFull : ctx.destSize ≤ ctx.dest.length + buf.length) :
    flushCopy ctx buf =
    (0, { ctx with dest := (ctx.dest ++ buf).take ctx.destSize, done := true }) := by
  have hTake : ctx.dest ++ buf.take (ctx.destSize - ctx.dest.length) =
      (ctx.dest ++ buf).take ctx.destSize := by
    rw [take_append, take_of_length_le hRoom]
  have hLen : ((ctx.dest ++ buf).take ctx.destSize).length = ctx.destSize := by
    simp [min_eq_left hFull]
  rw [flushCopy, hTake, if_pos hLen.ge]

theorem flushCopy_room (hRoom : ctx.dest.length + buf.length < ctx.destSize) :
    flushCopy ctx buf = (buf.length, { ctx with dest := ctx.dest ++ buf }) := by
  rw [flushCopy, take_of_length_le (by omega), if_neg (by rw [length_append]; omega)]

/-- Chunks that are collected without skipping: the buffer fills up. -/
theorem flushAll_collect {chunks : List (List UInt8)} {ctx : DecompressCtx}
    (hSkip : ctx.skipBytes = 0)
    (hDone : ctx.done = false) (hRoom : ctx.dest.length < ctx.destSize) :
    ∃ r ctx', flushAll failure chunks ctx = (r, ctx') ∧
    ctx'.dest = (ctx.dest ++ chunks.flatten).take ctx.destSize ∧
      ctx'.done = decide (ctx.destSize ≤ ctx.dest.length + chunks.flatten.length) ∧
      (r = .ok () ∨ ctx'.done = true) := by
  induction chunks generalizing ctx with
  | nil =>
    refine ⟨.ok (), ctx, rfl, ?_, ?_, .inl rfl⟩
    · simp [take_of_length_le hRoom.le]
    · grind
  | cons chunk rest ih =>
    have hFlush : decompressFlush ctx chunk = flushCopy ctx chunk := by grind [decompressFlush]
    rw [flatten_cons, length_append]
    by_cases hFull : ctx.destSize ≤ ctx.dest.length + chunk.length
    · rw [flushCopy_full hRoom.le hFull] at hFlush
      refine ⟨_, _, flushAll_refused hFlush (by omega), ?_, (decide_eq_true (by omega)).symm,
        .inr rfl⟩
      grind
    rw [flushCopy_room (by omega)] at hFlush
    obtain ⟨r, ctx', hAll, hDest, hDone', hEither⟩ :=
      @ih { ctx with dest := ctx.dest ++ chunk } hSkip hDone
      (by dsimp only; rw [length_append]; omega)
    dsimp only at hDest hDone'
    refine ⟨r, ctx', (flushAll_taken hFlush).trans hAll, ?_, ?_, hEither⟩
    · simp [hDest]
    · simp [hDone', add_assoc]

theorem decompressFlush_skip (hSize : 0 < size) (hOffset : 0 < offset)
    (hLe : chunk.length ≤ offset) : decompressFlush ⟨[], size, offset, false⟩ chunk =
      (chunk.length, ⟨[], size, offset - chunk.length, false⟩) := by grind [decompressFlush]

theorem decompressFlush_inside (hSize : 0 < size) (hOffset : 0 < offset)
    (hLt : offset < chunk.length) : decompressFlush ⟨[], size, offset, false⟩ chunk =
      flushCopy ⟨[], size, 0, false⟩ (chunk.drop offset) := by grind [decompressFlush]

theorem flushAll_reaches {chunks : List (List UInt8)} {size offset : Nat} (hSize : 0 < size)
    (h : Reaches chunks size offset) :
    ∃ r ctx, flushAll failure chunks ⟨[], size, offset, false⟩ = (r, ctx) ∧
    ctx.dest = slice offset size chunks.flatten ∧
      ctx.done = decide (size ≤ chunks.flatten.length - offset) ∧
      (r = .ok () ∨ ctx.done = true) := by
  rcases Nat.eq_zero_or_pos offset with rfl | hOffset
  · obtain ⟨r, ctx, hAll, hDest, hDone, hEither⟩ :=
      @flushAll_collect failure chunks ⟨[], size, 0, false⟩ rfl rfl hSize
    refine ⟨r, ctx, hAll, hDest, ?_, hEither⟩
    simp [hDone]
  rcases chunks with _ | ⟨chunk, rest⟩
  · refine ⟨.ok (), _, rfl, ?_, ?_, .inl rfl⟩
    · rw [flatten_nil, slice_of_le (zero_le _)]
    · grind
  rw [Reaches] at h
  rw [flatten_cons, length_append]
  by_cases hLe : chunk.length ≤ offset
  · rw [if_pos hLe] at h
    obtain ⟨r, ctx, hAll, hDest, hDone, hEither⟩ := flushAll_reaches hSize h
    have hSlice := slice_append_right chunk rest.flatten (offset - chunk.length) size
    rw [Nat.add_sub_cancel' hLe] at hSlice
    refine ⟨r, ctx, (flushAll_taken (decompressFlush_skip hSize hOffset hLe)).trans hAll,
      ?_, ?_, hEither⟩
    · rw [hDest, hSlice]
    · simp [hDone]
      omega
  · rw [if_neg hLe] at h
    have hFit := h.resolve_left (by omega)
    have hFlush := decompressFlush_inside hSize hOffset (by omega : offset < chunk.length)
    have hDrop : (chunk.drop offset).length = chunk.length - offset := length_drop
    rw [flushCopy_full (zero_le _) (by dsimp only; rw [length_nil, hDrop]; omega)] at hFlush
    refine ⟨_, _, flushAll_refused hFlush (by omega), ?_, (decide_eq_true (by omega)).symm,
      .inr rfl⟩
    grind [slice]

theorem flushAll_not_reaches {chunks : List (List UInt8)} {size offset : Nat} (hSize : 0 < size)
    (h : ¬Reaches chunks size offset) :
    ∃ ctx, flushAll failure chunks ⟨[], size, offset, false⟩ = (.error failure, ctx) ∧
    ctx.done = false := by
  induction chunks generalizing offset with
  | nil => exact absurd trivial h
  | cons chunk rest ih =>
    rw [Reaches] at h
    by_cases hLe : chunk.length ≤ offset
    · rw [if_pos hLe] at h
      obtain ⟨ctx, hAll, hDone⟩ := ih h
      refine ⟨ctx, ?_, hDone⟩
      rcases Nat.eq_zero_or_pos offset with rfl | hOffset
      · have hFlush : decompressFlush ⟨[], size, 0, false⟩ chunk =
            (chunk.length, ⟨[], size, 0, false⟩) := by
          obtain rfl := eq_nil_of_length_eq_zero (le_zero.mp hLe)
          rw [decompressFlush, if_neg (by simp; omega), if_neg (by simp),
            flushCopy_room (by simpa using hSize)]
          rfl
        rw [Nat.zero_sub] at hAll
        exact (flushAll_taken hFlush).trans hAll
      · exact (flushAll_taken (decompressFlush_skip hSize hOffset hLe)).trans hAll
    · rw [if_neg hLe, not_or] at h
      have hDrop : (chunk.drop offset).length = chunk.length - offset := length_drop
      have hFlush :=
        decompressFlush_inside hSize (pos_of_ne_zero h.1) (by omega : offset < chunk.length)
      rw [flushCopy_room (by dsimp only; rw [length_nil, hDrop]; omega)] at hFlush
      exact ⟨_, flushAll_refused hFlush (by omega), rfl⟩

theorem flushAll_empty {chunks : List (List UInt8)} {ctx : DecompressCtx}
    (hSize : ctx.destSize = 0) (hDest : ctx.dest = [])
    : ∃ r ctx', flushAll failure chunks ctx = (r, ctx') ∧ ctx'.dest = [] ∧
    (r = .ok () ∨ ctx'.done = true) := by
  induction chunks generalizing ctx with
  | nil => exact ⟨.ok (), ctx, rfl, hDest, .inl rfl⟩
  | cons chunk rest ih =>
    have hFlush : decompressFlush ctx chunk = (0, { ctx with done := true }) := by
      grind [decompressFlush]
    by_cases hEmpty : 0 = chunk.length
    · obtain ⟨r, ctx', hAll, hDest', hEither⟩ := @ih { ctx with done := true } hSize hDest
      rw [hEmpty] at hFlush
      exact ⟨r, ctx', (flushAll_taken hFlush).trans hAll, hDest', hEither⟩
    · exact ⟨_, _, flushAll_refused hFlush hEmpty, hDest, .inr rfl⟩

end Flush

variable (chunks : List (List UInt8))

theorem reaches_zero (size : Nat) : Reaches chunks size 0 := by
  induction chunks with
  | nil => trivial
  | cons chunk rest ih =>
    rw [Reaches]
    split
    · simp [ih]
    · exact .inl rfl

theorem reaches_empty (offset : Nat) : Reaches chunks 0 offset := by
  induction chunks generalizing offset with
  | nil => trivial
  | cons chunk rest ih =>
    rw [Reaches]
    split
    · exact ih _
    · exact .inr (zero_le _)

theorem reaches_past {chunks : List (List UInt8)} (h : chunks.flatten.length ≤ offset)
    (size : Nat) :
    Reaches chunks size offset := by
  induction chunks generalizing offset with
  | nil => trivial
  | cons chunk rest ih =>
    grind [Reaches]

section Compressed
variable {inner : PlainLoadable} (hContent : inner.content.length < 9223372036854775808)
    (d : Decompressor)
include hContent
variable {size offset : Nat} {ctx : DecompressCtx} (isPartial : Bool)

theorem compressedExtract_eq {r : Except Errno Unit}
    (hFlush : flushAll d.failure (d.chunks inner.content) ⟨[], size, offset, false⟩ = (r, ctx))
    (hEither : r = .ok () ∨ ctx.done = true) : compressedExtract inner d size offset isPartial =
      if offset ≠ 0 ∧ isPartial = false ∧ ctx.dest.length < size ∧
      ctx.done = false then .error (.errno .enospc)
      else .ok ctx.dest := by
  rw [compressedExtract, decompressFills_all hContent d]
  dsimp only
  rw [hFlush]
  cases r with
  | ok u => rfl
  | error e =>
    grind

theorem compressedExtract_failed
    (hFlush : flushAll d.failure (d.chunks inner.content) ⟨[],
      size, offset, false⟩ = (.error d.failure, ctx))
    (hDone : ctx.done = false) :
    compressedExtract inner d size offset isPartial = .error (.errno d.failure) := by
  rw [compressedExtract, decompressFills_all hContent d]
  simp [hFlush, if_pos hDone]

/-- All cases of the wrapper in one: a part is what it should be when the offset is reached, and
the rest depends on whether the buffer was filled. -/
theorem compressedExtract_reaches (h : Reaches (d.chunks inner.content) size offset) :
    compressedExtract inner d size offset isPartial =
      if offset ≠ 0 ∧ isPartial = false ∧ (d.chunks inner.content).flatten.length - offset <
      size then
        .error (.errno .enospc) else .ok (slice offset size (d.chunks inner.content).flatten) := by
  rcases Nat.eq_zero_or_pos size with rfl | hSize
  · obtain ⟨r, ctx, hAll, hDest, hEither⟩ :=
      @flushAll_empty d.failure (d.chunks inner.content) ⟨[], 0, offset, false⟩ rfl rfl
    rw [compressedExtract_eq hContent d isPartial hAll hEither,
      if_neg (by omega), if_neg (by omega), hDest]
    rfl
  obtain ⟨r, ctx, hAll, hDest, hDone, hEither⟩ := @flushAll_reaches d.failure _ size offset hSize h
  have hLen : ctx.dest.length = min size ((d.chunks inner.content).flatten.length - offset) := by
    rw [hDest, slice_length]
  rw [compressedExtract_eq hContent d isPartial hAll hEither, hDest, hDone]
  rw [hDest] at hLen
  rw [hLen]
  refine if_congr ?_ rfl rfl
  refine and_congr_right fun _ => and_congr_right fun _ => ?_
  simp

theorem compressedExtract_iff (size offset : Nat) (isPartial : Bool) :
    compressedExtract inner d size offset isPartial =
    expected (d.chunks inner.content).flatten size offset isPartial ↔
      (Loadable.compressed inner d).Extractable size offset isPartial := by
  dsimp only [Loadable.Extractable, Loadable.content, expected]
  by_cases hReach : Reaches (d.chunks inner.content) size offset
  · rw [compressedExtract_reaches hContent d isPartial hReach]
    cases isPartial with
    | true =>
      grind
    | false =>
      rw [if_neg Bool.false_ne_true]
      by_cases hZero : offset = 0
      · rw [if_neg (fun h => h.1 hZero), if_pos hZero, hZero, Nat.sub_zero]
        by_cases hFits : (d.chunks inner.content).flatten.length ≤ size
        · simp
        · simp
      rw [if_neg hZero]
      rcases lt_trichotomy size
          ((d.chunks inner.content).flatten.length - offset) with hLess | hSame | hMore
      · grind
      · grind
      · grind
  · have hSize : 0 < size := pos_of_ne_zero fun hZero => hReach (hZero ▸ reaches_empty _ _)
    have hOffset : offset ≠ 0 := fun hZero => hReach (hZero ▸ reaches_zero _ _)
    obtain ⟨ctx, hAll, hDone⟩ := @flushAll_not_reaches d.failure _ size offset hSize hReach
    rw [compressedExtract_failed hContent d isPartial hAll hDone]
    refine iff_of_false (fun hEq => ?_) ?_
    · split at hEq
      · injection hEq with hFailure
        injection hFailure with hErrno
        exact d.failure_ne hErrno
      · cases hEq
    · rw [if_neg hOffset]
      split
      · exact hReach
      · exact fun h => hReach h.2

end Compressed

def Loadable.source : Loadable → PlainLoadable
  | .plain l => l
  | .compressed inner _ => inner

section Extract
variable {l : Loadable} (hSource : l.source.content.length < 9223372036854775808)
include hSource

theorem extract_iff {size : Nat} (hSize : size < 2 ^ 63) (offset : Nat) (isPartial : Bool) :
    loadableExtractIntoBuf l size offset isPartial = expected l.content size offset isPartial ↔
      l.Extractable size offset isPartial := by
  cases l with
  | plain p => exact PlainLoadable.extract_iff hSource hSize offset isPartial
  | compressed inner d => exact compressedExtract_iff hSource d size offset isPartial

theorem extract_piece {offset : Nat} (hOffset : offset ≤ l.content.length) :
    (l.Extractable 1048576 offset true ∧
        loadableExtractIntoBuf l 1048576 offset true = .ok (slice offset 1048576 l.content)) ∨
      ¬l.Extractable 1048576 offset true ∧ ∃ e, loadableExtractIntoBuf l 1048576 offset true =
      .error e := by
  by_cases hExtract : l.Extractable 1048576 offset true
  · refine .inl ⟨hExtract, ?_⟩
    rw [(extract_iff hSource (by decide) offset true).mpr hExtract, expected, if_neg (by simp)]
  refine .inr ⟨hExtract, ?_⟩
  cases l with
  | plain p =>
    refine absurd ?_ hExtract
    cases p with
    | mem data => trivial
    | file content => exact ⟨hOffset, by omega⟩
  | compressed inner d =>
    obtain ⟨ctx, hAll, hDone⟩ :=
      @flushAll_not_reaches d.failure (d.chunks inner.content) 1048576 offset (by decide)
      (fun h => hExtract (extractable_compressed.mpr h))
    exact ⟨_, compressedExtract_failed hSource d true hAll hDone⟩

omit hSource in
omit hSource in
theorem extractable_past : l.Extractable 1048576 l.content.length true := by
  cases l with
  | plain p =>
    cases p with
    | mem data => trivial
    | file content => exact ⟨le_rfl, by omega⟩
  | compressed inner d => exact extractable_compressed.mpr (reaches_past le_rfl _)

/-- From a multiple of 1 MiB on, everything is written exactly when every piece can be had. -/
theorem extractIntoFdLoop_iff {rounds k : Nat} (hRounds : l.content.length - k * 1048576 < rounds) :
    extractIntoFdLoop l rounds (l.content.take (k * 1048576)) =
    some (.ok l.content.length, l.content) ↔
      ∀ j, k ≤ j → j * 1048576 < l.content.length → l.Extractable 1048576 (j * 1048576) true := by
  induction rounds generalizing k with
  | zero => omega
  | succ rounds ih =>
    rw [extractIntoFdLoop]
    rcases lt_or_ge (k * 1048576) l.content.length with hInside | hPast
    · have hStep : (k + 1) * 1048576 = k * 1048576 + 1048576 := by rw [add_mul, one_mul]
      have hLess : l.content.length - (k + 1) * 1048576 < rounds := by grind
      rw [length_take_of_le hInside.le]
      rcases extract_piece hSource hInside.le with ⟨hExtract, hPiece⟩ | ⟨hNot, e, hPiece⟩
      · have hLen : (slice (k * 1048576) 1048576 l.content).length =
            min 1048576 (l.content.length - k * 1048576) := slice_length _ _ _
        have hNext : l.content.take (k * 1048576) ++ slice (k * 1048576) 1048576 l.content =
            l.content.take ((k + 1) * 1048576) := by simp [slice, take_add, add_mul]
        rw [hPiece]
        rcases hBytes : slice (k * 1048576) 1048576 l.content with _ | ⟨b, bytes⟩
        · rw [hBytes, length_nil] at hLen
          omega
        dsimp only
        rw [← hBytes, hNext, @ih (k + 1) hLess]
        refine ⟨fun hRest j hj hIn => ?_, fun hRest j hj hIn => hRest j (by omega) hIn⟩
        rcases eq_or_lt_of_le hj with rfl | hLater
        · exact hExtract
        · exact hRest j hLater hIn
      · rw [hPiece]
        refine iff_of_false (fun hNo => ?_) fun hRest => hNot (hRest k le_rfl hInside)
        cases hNo
    · have hAll : l.content.take (k * 1048576) = l.content := take_of_length_le hPast
      rw [hAll]
      rcases extract_piece hSource (le_refl l.content.length) with ⟨-, hPiece⟩ | ⟨hNot, -⟩
      · rw [hPiece, slice_of_le le_rfl]
        refine iff_of_true rfl fun j hj hIn => ?_
        omega
      · exact absurd extractable_past hNot

end Extract

/-- Extraction returns what it should exactly when the condition for the call holds, and
everything is written to a file descriptor exactly when every piece of 1 MiB can be had. -/
theorem loadable_extract_iff {l : Loadable}
    (hSource : l.source.content.length < 9223372036854775808) :
    (∀ size offset isPartial, size < 9223372036854775808 →
      (loadableExtractIntoBuf l size offset isPartial = expected l.content size offset isPartial ↔
        l.Extractable size offset isPartial)) ∧ ∀ rounds, l.content.length < rounds →
      (loadableExtractIntoFd l rounds = some (.ok l.content.length, l.content) ↔ l.Streamable) := by
  refine ⟨fun size offset isPartial hSize => extract_iff hSource hSize offset isPartial,
    fun rounds hRounds => ?_⟩
  have hLoop := @extractIntoFdLoop_iff l hSource rounds 0 (by omega)
  rw [zero_mul, take_zero] at hLoop
  refine hLoop.trans ?_
  cases l with
  | plain p =>
    refine iff_of_true (fun j _ hIn => ?_) trivial
    cases p with
    | mem data => trivial
    | file content => exact ⟨hIn.le, by omega⟩
  | compressed inner d =>
    refine ⟨fun h k hIn => ?_, fun h k _ hIn => ?_⟩
    · exact extractable_compressed.mp (h k (zero_le _) hIn)
    · exact extractable_compressed.mpr (h k hIn)

theorem asks_bytes_sum (stream : List UInt8) :
    stream.length ≤ (replicate stream.length 1).sum := by simp

theorem asks_bytes_small (stream : List UInt8) :
    ∀ n ∈ replicate stream.length 1, n < 2147483648 := by
  intro n hn
  rw [eq_of_mem_replicate hn]
  decide

/-- A decompressor that passes on the stream as it is: two bytes, and the rest. -/
def twoChunks : Decompressor where
  asks := fun stream => replicate stream.length 1
  chunks := fun stream => [stream.take 2, stream.drop 2]
  failure := .eperm
  asks_all := asks_bytes_sum
  asks_small := asks_bytes_small
  failure_ne := fun h => Errno.noConfusion h

theorem loadable_extract_two_chunks :
    loadableExtractIntoBuf (.compressed (.mem [1, 2, 3]) twoChunks) 5 2 true = .ok [3] ∧
    loadableExtractIntoFd (.compressed (.mem [1, 2, 3]) twoChunks) 4 = some (.ok 3, [1, 2, 3]) := by
  obtain ⟨hBuf, hFd⟩ := @loadable_extract_iff (.compressed (.mem [1, 2, 3]) twoChunks) (by decide)
  refine ⟨(hBuf 5 2 true (by decide)).mpr ?_, (hFd 4 (by decide)).mpr fun k hk => ?_⟩
  · exact .inl rfl
  have hLen : ((twoChunks.chunks (PlainLoadable.mem [1, 2, 3]).content).flatten).length = 3 := rfl
  rw [hLen] at hk
  obtain rfl : k = 0 := by omega
  exact reaches_zero _ _

/-- A stream of more than 1 MiB is not written: its second piece starts inside of a chunk. -/
theorem twoChunks_not_written {stream : List UInt8} (hLen : stream.length = 1048580)
    {rounds : Nat} (hRounds : 1048580 < rounds) :
    loadableExtractIntoFd (.compressed (.mem stream) twoChunks) rounds ≠
    some (.ok stream.length, stream) := by
  have hContent : (Loadable.compressed (.mem stream) twoChunks).content = stream := by
    simp [Loadable.content, twoChunks, PlainLoadable.content]
  intro hFd
  have hLoop := @extractIntoFdLoop_iff (.compressed (.mem stream) twoChunks)
    (by dsimp only [Loadable.source, PlainLoadable.content]; rw [hLen]; decide) rounds 0
    (by rw [hContent, hLen]; exact hRounds)
  rw [hContent, zero_mul, take_zero] at hLoop
  have hPiece := hLoop.mp hFd 1 (by decide) (by rw [hLen]; decide)
  have hFront : (stream.take 2).length = 2 := length_take_of_le (by rw [hLen]; decide)
  have hBack : (stream.drop 2).length = 1048578 := by rw [length_drop, hLen]
  have hReach : Reaches [stream.take 2, stream.drop 2] 1048576 1048576 :=
    extractable_compressed.mp hPiece
  grind [Reaches]

/-- An offset inside of a chunk, a buffer that is too small, a file read behind its end, and a
stream of more than 1 MiB. -/
theorem loadable_extract_wrong :
    loadableExtractIntoBuf (.compressed (.mem [1, 2, 3]) twoChunks) 5 1 true =
    .error (.errno .eperm) ∧
    loadableExtractIntoBuf (.compressed (.mem [1, 2, 3]) twoChunks) 2 0 false = .ok [1, 2] ∧
    loadableExtractIntoBuf (.plain (.file [])) 1 1 true = .error (.errno .einval) ∧
    loadableExtractIntoFd (.compressed (.mem (zeros 1048580)) twoChunks) 1048581 ≠
      some (.ok (zeros 1048580).length, zeros 1048580) :=
  ⟨rfl, rfl, rfl, twoChunks_not_written (zeros_length _) (by decide)⟩

end Barebox.Lib
