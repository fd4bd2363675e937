import Barebox.Data.Flash
import Barebox.Fs.File
import Barebox.Mtd.BadBlock

/-! Writing to the bad block aware device. Data is collected in a buffer of 8 KiB. Where the
buffer goes is derived from the address `bb->offset`, which is moved past bad blocks when the
buffer is written. -/
namespace Barebox.Mtd
open Bytes Rounding Flash Fs List Nat

inductive WriteFailure where
  | errno (e : Errno)
  | fault
  | hang
  deriving DecidableEq

/-- `struct nand_bb` of a device that is open for writing, with the flash writes made. -/
structure BbWriter where
  offset : Nat
  needsWrite : Bool
  writebuf : List UInt8
  log : List (Nat × List UInt8)

/-- The loop of `nand_bb_write_buf` at the address `cur_ofs`. -/
def writeBufLoop (mtd : MtdInfo) (buf : List UInt8) (count curOfs : Nat) (bb : BbWriter) :
    Except Errno Unit × BbWriter :=
  if count = 0 then (.ok (), bb)
  else if _hIn : mtd.size ≤ curOfs then (.error .enospc, bb)
  else if blockBad mtd curOfs then
    writeBufLoop mtd buf count
      (curOfs + mtd.erasesize) { bb with offset := bb.offset + mtd.erasesize }
  else if mtd.size - curOfs < min count mtd.erasesize then (.error .enospc, bb)
  else
    let now := min count mtd.erasesize
    writeBufLoop mtd (buf.drop now) (count - now) (curOfs + now)
      { bb with log := bb.log ++ [(curOfs, buf.take now)] }
termination_by mtd.size - curOfs
decreasing_by
  all_goals
    have hPos := mtd.erasesize_pos
    omega

variable (mtd : MtdInfo)

def nandBbWriteBuf (count : Nat) (bb : BbWriter) : Except Errno Unit × BbWriter :=
  writeBufLoop mtd bb.writebuf count (roundDown bb.offset 8192) bb

/-- How much one round of `nand_bb_write` copies: the count is taken as an `int`. -/
def writeNow (count offset : Nat) : Int := min (toInt count) (8192 - (offset % 8192 : Nat))

theorem writeNow_le (count offset : Nat) : writeNow count offset ≤ count := by
  have hLe := toInt_le count
  rw [writeNow]
  omega

def writeLoop (mtd : MtdInfo) (data : List UInt8) (bb : BbWriter) :
    Except WriteFailure Unit × BbWriter :=
  if data = [] then (.ok (), bb)
  else if writeNow data.length bb.offset < 0 then (.error .fault, bb)
  else if _hSome : writeNow data.length bb.offset = 0 then
    (.error .hang, { bb with needsWrite := true })
  else
    let now := (writeNow data.length bb.offset).toNat
    let wroffs := bb.offset % 8192
    let filled := { bb with writebuf := overwrite wroffs (data.take now) bb.writebuf }
    if wroffs + now = 8192 then
      match nandBbWriteBuf mtd 8192 { filled with needsWrite := false } with
      | (.error e, bb') => (.error (.errno e), bb')
      | (.ok _, bb') => writeLoop mtd (data.drop now) { bb' with offset := bb'.offset + now }
    else writeLoop mtd (data.drop now) { filled with needsWrite := true, offset := bb.offset + now }
termination_by data.length
decreasing_by
  all_goals
    have hLe := writeNow_le data.length bb.offset
    rw [length_drop]
    omega

/-- `nand_bb_write`: it returns the count as an `int`. -/
def nandBbWrite (data : List UInt8) (bb : BbWriter) : Except WriteFailure Int × BbWriter :=
  let (r, bb') := writeLoop mtd data bb
  (r.map fun _ => toInt data.length, bb')

/-- `nand_bb_open`: the buffer holds anything. -/
def nandBbOpen (writebuf : List UInt8) : BbWriter := ⟨0, false, writebuf, []⟩

/-- `nand_bb_close`: whether the last part could be written is not looked at. -/
def nandBbClose (bb : BbWriter) : BbWriter :=
  if bb.needsWrite then (nandBbWriteBuf mtd (bb.offset % 8192) bb).2 else bb

def writeAll (mtd : MtdInfo) : List (List UInt8) → BbWriter → Except WriteFailure BbWriter
  | [], bb => .ok bb
  | data :: rest, bb =>
    match nandBbWrite mtd data bb with
    | (.error e, _) => .error e
    | (.ok _, bb') => writeAll mtd rest bb'

def program (log : List (Nat × List UInt8)) : List UInt8 :=
  log.foldl (fun raw w => overwrite w.1 w.2 raw) (blanks mtd.size)

def Writes (w : Nat × List UInt8) (a : Nat) : Prop := w.1 ≤ a ∧ a < w.1 + w.2.length

/-- The good blocks begin with the data and are erased behind it, no bad block was written and no
byte twice. -/
structure StoredExactly (mtd : MtdInfo) (data : List UInt8) (log : List (Nat × List UInt8)) :
    Prop where
  content : goodContent mtd (program mtd log) = data ++ blanks (goodSize mtd - data.length)
  good : ∀ w ∈ log, ∀ a, Writes w a → blockBad mtd a = false
  once : log.Pairwise fun v w => ∀ a, ¬(Writes v a ∧ Writes w a)

/-- The invariant: the writes made so far lie below an address, and fit the flash. -/
structure StoredBelow (mtd : MtdInfo) (limit : Nat) (data : List UInt8)
    (log : List (Nat × List UInt8)) : Prop
    extends StoredExactly mtd data log where
  below : ∀ w ∈ log, w.1 + w.2.length ≤ limit
  size : (program mtd log).length = mtd.size

structure Holds (mtd : MtdInfo) (base : Nat) (flushed pending : List UInt8) (bb : BbWriter) :
    Prop where
  offset_eq : bb.offset = base + pending.length
  aligned : 8192 ∣ base
  position : At mtd base flushed.length
  room : pending.length < 8192
  buffer_length : bb.writebuf.length = 8192
  buffer : bb.writebuf.take pending.length = pending
  needs : bb.needsWrite = decide (pending ≠ [])
  stored : StoredBelow mtd base flushed bb.log

variable {mtd : MtdInfo}

theorem blocksContent_blanks {blocks : List Nat}
    (h : ∀ addr ∈ blocks, addr + mtd.erasesize ≤ mtd.size) :
    blocksContent mtd (blanks mtd.size) blocks = blanks (mtd.erasesize * blocks.length) := by
  induction blocks with
  | nil => rfl
  | cons addr rest ih =>
    have hRest := ih fun a ha => h a (.tail _ ha)
    have hFirst := h addr (.head _)
    have hSlice : slice addr mtd.erasesize (blanks mtd.size) = blanks mtd.erasesize := by
      grind [slice, blanks]
    grind [blocksContent, blanks_add, mul_succ]

section Writing
variable (hUniform : mtd.eraseregions = []) (hPage : 8192 ∣ mtd.erasesize)
include hUniform

theorem storedBelow_nil : StoredBelow mtd 0 [] [] := by
  refine ⟨⟨?_, (fun _ hNo => by cases hNo), .nil⟩, (fun _ hNo => by cases hNo), blanks_length _⟩
  refine blocksContent_blanks fun addr hMem => blocks_le ?_ hMem
  simp [Nat.mul_div_cancel' (mtd.uniform hUniform)]

theorem StoredBelow.write {limit k j : Nat} {data chunk : List UInt8}
    {log : List (Nat × List UInt8)}
    (h : StoredBelow mtd limit data log) (hk : mtd.erasesize * k < mtd.size)
    (hGood : mtdBlockIsbad mtd (mtd.erasesize * k) = false) (hIn : j + chunk.length ≤ mtd.erasesize)
    (hLimit : limit ≤ mtd.erasesize * k + j)
    (hPos : mtd.erasesize * goodBelow mtd k + j = data.length) :
    StoredBelow mtd (mtd.erasesize * k + j + chunk.length) (data ++ chunk)
      (log ++ [(mtd.erasesize * k + j, chunk)]) := by
  have hProgram : program mtd (log ++ [(mtd.erasesize * k + j, chunk)]) =
      overwrite (mtd.erasesize * k + j) chunk (program mtd log) := by simp [program]
  have hLe := block_le_length hUniform h.size hk
  have hRoom : mtd.erasesize * k + j + chunk.length ≤ (program mtd log).length := by omega
  refine ⟨⟨?_, ?_, ?_⟩, ?_, ?_⟩
  · have hFits : data.length + chunk.length ≤ goodSize mtd := by
      rw [← goodContent_length hUniform h.size, ← hPos]
      obtain ⟨m, hContent, hFront, -⟩ := goodContent_split hUniform h.size hk hGood
      simp [hContent, slice_length_of_le hLe]
      omega
    rw [hProgram, goodContent_overwrite hUniform h.size hk hGood hIn, hPos, h.content, overwrite,
      take_left, drop_length_add_append, length_append, append_assoc]
    simp [blanks]
    omega
  · intro w hw a ha
    rcases mem_append.mp hw with hOld | hNew
    · exact h.good w hOld a ha
    cases mem_singleton.mp hNew
    obtain ⟨hLow, hHigh⟩ := ha
    dsimp only at hLow hHigh
    obtain ⟨i, rfl⟩ := Nat.exists_eq_add_of_le (by omega : mtd.erasesize * k ≤ a)
    rw [At.blockBad_eq (by omega), hGood]
  · refine pairwise_append.mpr ⟨h.once, pairwise_singleton _ _, fun v hv w hw a ha => ?_⟩
    cases mem_singleton.mp hw
    have hBelow := h.below v hv
    obtain ⟨⟨-, hHigh⟩, ⟨hLow, -⟩⟩ := ha
    omega
  · intro w hw
    rcases mem_append.mp hw with hOld | hNew
    · have hBelow := h.below w hOld
      omega
    · cases mem_singleton.mp hNew
      exact le_rfl
  · rw [hProgram, overwrite_length hRoom, h.size]

include hPage

/-- The buffer goes to the next good block. -/
theorem writeBufLoop_ok {buf : List UInt8} {count base pos : Nat}
    {bb : BbWriter} (hCount : count ≠ 0)
    (hSmall : count ≤ 8192) (hAligned : 8192 ∣ base) (hAt : At mtd base pos)
    (hFits : pos + count ≤ goodSize mtd) :
    ∃ m, writeBufLoop mtd buf count base bb = (.ok (), { bb with
        offset := bb.offset + mtd.erasesize * m,
        log := bb.log ++ [(base + mtd.erasesize * m, buf.take count)] }) ∧
      At mtd (base + mtd.erasesize * m) pos ∧ base + mtd.erasesize * m < mtd.size ∧
      blockBad mtd (base + mtd.erasesize * m) = false := by
  have hPos := mtd.erasesize_pos
  have hIn : base < mtd.size := by
    by_contra hOut
    have hEnd := hAt.end_eq hUniform (by omega)
    omega
  rw [writeBufLoop, if_neg hCount, dif_neg (by omega)]
  cases hBlock : blockBad mtd base with
  | true =>
    obtain ⟨m, hLoop, hNext, hLt, hGood⟩ := @writeBufLoop_ok buf count (base + mtd.erasesize) pos
      { bb with offset := bb.offset + mtd.erasesize } hCount hSmall (Nat.dvd_add hAligned hPage)
      (hAt.skip hUniform hIn hBlock) hFits
    have hSum (x : Nat) : x + mtd.erasesize + mtd.erasesize * m = x + mtd.erasesize * (m + 1) := by
      rw [mul_succ]
      omega
    rw [hSum] at hNext hLt hGood
    refine ⟨m + 1, ?_, hNext, hLt, hGood⟩
    simp [hLoop, hSum]
  | false =>
    obtain ⟨k, j, rfl, rfl, hj, hk, hGood⟩ := hAt.good hIn hBlock
    have hNextIn := block_in hUniform hk
    rw [mul_succ] at hNextIn
    -- the block ends at a multiple of the buffer size
    have hLeft : 8192 ≤ mtd.erasesize - j := by
      refine le_of_dvd (by omega) (dvd_sub hPage ?_)
      exact (Nat.dvd_add_right (hPage.trans (Nat.dvd_mul_right _ _))).mp hAligned
    have hNow : min count mtd.erasesize = count := by omega
    refine ⟨0, ?_, ?_, ?_, ?_⟩
    · grind [writeBufLoop]
    · exact hAt
    · exact hIn
    · exact hBlock
termination_by mtd.size - base

/-- The buffer is written: where, and what is then on the flash. -/
theorem nandBbWriteBuf_ok {base count x : Nat} {flushed : List UInt8}
    {bb : BbWriter} (hCount : count ≠ 0)
    (hSmall : count ≤ 8192) (hBuffer : bb.writebuf.length = 8192)
    (hOffset : bb.offset = base + x) (hx : x < 8192)
    (hAligned : 8192 ∣ base) (hAt : At mtd base flushed.length)
    (hFits : flushed.length + count ≤ goodSize mtd)
    (hStored : StoredBelow mtd base flushed bb.log) :
    ∃ base' log', nandBbWriteBuf mtd count bb =
    (.ok (), { bb with offset := base' + x, log := log' }) ∧
      8192 ∣ base' ∧ At mtd (base' + count) (flushed.length + count) ∧
      StoredBelow mtd (base' + count) (flushed ++ bb.writebuf.take count) log' := by
  have hDown : roundDown bb.offset 8192 = base := by
    rw [roundDown_eq_iff (by decide), hOffset]
    exact ⟨hAligned, Nat.le_add_right _ _, Nat.add_lt_add_left hx _⟩
  obtain ⟨m, hLoop, hNext, hIn, hGood⟩ :=
    @writeBufLoop_ok mtd hUniform hPage bb.writebuf count base flushed.length bb
    hCount hSmall hAligned hAt hFits
  have hAligned' : 8192 ∣ base + mtd.erasesize * m :=
    Nat.dvd_add hAligned (hPage.trans (Nat.dvd_mul_right _ _))
  have hBase : base ≤ base + mtd.erasesize * m := le_add_right _ _
  refine ⟨base + mtd.erasesize * m, bb.log ++ [(base + mtd.erasesize * m, bb.writebuf.take count)],
    ?_, hAligned', ?_⟩
  · grind [nandBbWriteBuf]
  obtain ⟨k, j, hk, hp, hj, hkIn, hBlock⟩ := hNext.good hIn hGood
  rw [hk] at hAligned' hBase ⊢
  have hLeft : 8192 ≤ mtd.erasesize - j := by
    refine le_of_dvd (by omega) (dvd_sub hPage ?_)
    exact (Nat.dvd_add_right (hPage.trans (Nat.dvd_mul_right _ _))).mp hAligned'
  have hLen : (bb.writebuf.take count).length = count := by
    simp
    omega
  have hWrite := hStored.write hUniform hkIn hBlock
    (by omega : j + (bb.writebuf.take count).length ≤ mtd.erasesize)
    hBase hp.symm
  rw [hLen] at hWrite
  refine ⟨?_, hWrite⟩
  rw [hp]
  exact At.advance hUniform hkIn hBlock (by omega)

omit hUniform hPage in
theorem Holds.wroffs {base : Nat} {flushed pending : List UInt8} {bb : BbWriter}
    (h : Holds mtd base flushed pending bb) : bb.offset % 8192 = pending.length := by
  obtain ⟨c, hc⟩ := h.aligned
  simp [h.offset_eq, hc, mod_eq_of_lt h.room]

section Round
variable {base : Nat} {flushed pending chunk : List UInt8} {bb : BbWriter}
    (h : Holds mtd base flushed pending bb)
include h

omit hUniform hPage in
theorem Holds.filled_length (hRoom : pending.length + chunk.length ≤ 8192) :
    (overwrite pending.length chunk bb.writebuf).length = 8192 := by
  rw [overwrite_length (by rw [h.buffer_length]; exact hRoom), h.buffer_length]

omit hUniform hPage in
theorem Holds.filled_take :
    (overwrite pending.length chunk bb.writebuf).take (pending.length + chunk.length) =
    pending ++ chunk := by grind [overwrite, h.buffer]

omit hUniform hPage in
theorem Holds.fill (hRoom : pending.length + chunk.length < 8192) (hChunk : chunk ≠ []) :
    Holds mtd base flushed (pending ++ chunk)
      ⟨bb.offset + chunk.length, true, overwrite pending.length chunk bb.writebuf, bb.log⟩ := by
  refine ⟨?_, h.aligned, h.position, ?_, h.filled_length hRoom.le, ?_, ?_, h.stored⟩
  · simp [h.offset_eq, add_assoc]
  · simp [hRoom]
  · simp [h.filled_take]
  · have hSome : pending ++ chunk ≠ [] := fun hNil => hChunk (append_eq_nil_iff.mp hNil).2
    exact (decide_eq_true hSome).symm

theorem Holds.flush (hFull : pending.length + chunk.length = 8192)
    (hFits : flushed.length + 8192 ≤ goodSize mtd) :
    ∃ base' log', nandBbWriteBuf mtd 8192 ⟨bb.offset, false,
      overwrite pending.length chunk bb.writebuf, bb.log⟩ =
        (.ok (), ⟨base' + pending.length, false,
          overwrite pending.length chunk bb.writebuf, log'⟩) ∧
      Holds mtd (base' + 8192) (flushed ++ (pending ++ chunk)) []
        ⟨base' + pending.length + chunk.length, false, overwrite pending.length chunk bb.writebuf,
          log'⟩ := by
  have hLength := h.filled_length hFull.le
  have hTake := @Holds.filled_take mtd base flushed pending chunk bb h
  rw [hFull] at hTake
  obtain ⟨base', log', hFlush, hAligned, hAt, hStored⟩ :=
    @nandBbWriteBuf_ok mtd hUniform hPage base 8192
    pending.length flushed ⟨bb.offset, false, overwrite pending.length chunk bb.writebuf, bb.log⟩
      (by decide)
    le_rfl hLength h.offset_eq h.room h.aligned h.position hFits h.stored
  dsimp only at hStored
  rw [hTake] at hStored
  refine ⟨base', log', hFlush, ?_, Nat.dvd_add hAligned (Nat.dvd_refl _),
    ?_, by decide, hLength, rfl, rfl, hStored⟩
  · simp [add_assoc, hFull]
  · simp [hFull, hAt]

end Round

/-- One round of the write fills the buffer further or flushes it. -/
theorem writeLoop_round {base : Nat} {flushed pending data : List UInt8} {bb : BbWriter}
    (h : Holds mtd base flushed pending bb) (hData : data ≠ []) (hShort : data.length < 2147483648)
    (hFits : flushed.length + pending.length + data.length ≤ goodSize mtd) :
    ∃ now bb' base' flushed' pending', 0 < now ∧ writeLoop mtd data bb =
    writeLoop mtd (data.drop now) bb' ∧
      Holds mtd base' flushed' pending' bb' ∧ flushed' ++ pending' =
      flushed ++ pending ++ data.take now := by
  have hSome : 0 < data.length := length_pos_iff.mpr hData
  have hRoom := h.room
  obtain ⟨now, hNow⟩ : ∃ now, now = min data.length (8192 - pending.length) := ⟨_, rfl⟩
  have hInt : writeNow data.length bb.offset = now := by
    rw [writeNow, h.wroffs, toInt_of_lt hShort, hNow]
    omega
  have hTake : (data.take now).length = now := by
    simp
    omega
  have hChunk : data.take now ≠ [] := by
    intro hNil
    grind
  rw [writeLoop, if_neg hData, hInt, if_neg (by omega), dif_neg (by omega)]
  dsimp only
  rw [h.wroffs, Int.toNat_natCast]
  by_cases hFull : pending.length + now = 8192
  · obtain ⟨base', log', hFlush, hHolds⟩ :=
      @Holds.flush mtd hUniform hPage base flushed pending (data.take now) bb h
      (by omega) (by omega)
    grind
  · have hHolds := h.fill (by omega : pending.length + (data.take now).length < 8192) hChunk
    grind

/-- One call: the data goes to the flash and to the buffer, behind what was there. -/
theorem writeLoop_ok {base : Nat} {flushed pending data : List UInt8} {bb : BbWriter}
    (h : Holds mtd base flushed pending bb) (hShort : data.length < 2147483648)
    (hFits : flushed.length + pending.length + data.length ≤ goodSize mtd) :
    ∃ bb' base' flushed' pending', writeLoop mtd data bb = (.ok (), bb') ∧
    Holds mtd base' flushed' pending' bb' ∧
      flushed' ++ pending' = flushed ++ pending ++ data := by
  by_cases hData : data = []
  · grind [writeLoop]
  obtain ⟨now, bb₁, base₁, flushed₁, pending₁, hNow, hRound, hHolds, hBytes⟩ :=
    writeLoop_round hUniform hPage h hData hShort hFits
  have hLen := congrArg List.length hBytes
  rw [length_append, length_append, length_append, length_take] at hLen
  have hSome : 0 < data.length := length_pos_iff.mpr hData
  obtain ⟨bb', base', flushed', pending', hLoop, hHolds', hBytes'⟩ := writeLoop_ok hHolds
    (by rw [length_drop]; omega : (data.drop now).length < 2147483648) (by rw [length_drop]; omega)
  refine ⟨bb', base', flushed', pending', hRound.trans hLoop, hHolds', ?_⟩
  simp [hBytes', hBytes]
termination_by data.length
decreasing_by
  rw [length_drop]
  omega

theorem writeAll_ok {datas : List (List UInt8)} (hShort : ∀ data ∈ datas, data.length < 2147483648)
    {base : Nat}
    {flushed pending : List UInt8} {bb : BbWriter} (h : Holds mtd base flushed pending bb)
    (hFits : flushed.length + pending.length + datas.flatten.length ≤ goodSize mtd) :
    ∃ bb' base' flushed' pending', writeAll mtd datas bb = .ok bb' ∧
    Holds mtd base' flushed' pending' bb' ∧
      flushed' ++ pending' = flushed ++ pending ++ datas.flatten := by
  induction datas generalizing base flushed pending bb with
  | nil => exact ⟨bb, base, flushed, pending, rfl, h, (append_nil _).symm⟩
  | cons data rest ih =>
    rw [flatten_cons, length_append] at hFits
    obtain ⟨bb₁, base₁, flushed₁, pending₁, hLoop, hHolds, hBytes⟩ :=
      writeLoop_ok hUniform hPage h (hShort data (.head _)) (by omega)
    have hLen := congrArg List.length hBytes
    rw [length_append, length_append, length_append] at hLen
    obtain ⟨bb', base', flushed', pending', hAll, hHolds', hBytes'⟩ :=
      ih (fun d hd => hShort d (.tail _ hd)) hHolds (by omega)
    refine ⟨bb', base', flushed', pending', ?_, hHolds', ?_⟩
    · rw [writeAll, nandBbWrite, hLoop]
      exact hAll
    · simp [hBytes', hBytes]

theorem nandBbClose_stored {base : Nat} {flushed pending : List UInt8} {bb : BbWriter}
    (h : Holds mtd base flushed pending bb)
    (hFits : flushed.length + pending.length ≤ goodSize mtd) :
    StoredExactly mtd (flushed ++ pending) (nandBbClose mtd bb).log := by
  rw [nandBbClose, h.needs, h.wroffs]
  by_cases hEmpty : pending = []
  · simp [hEmpty, h.stored.toStoredExactly]
  have hSome : pending.length ≠ 0 := fun hNo => hEmpty (eq_nil_of_length_eq_zero hNo)
  obtain ⟨base', log', hFlush, -, -, hStored⟩ :=
    nandBbWriteBuf_ok hUniform hPage hSome h.room.le h.buffer_length
    h.offset_eq h.room h.aligned h.position hFits h.stored
  grind [h.buffer, hStored.toStoredExactly]

end Writing

/-- A call with 2 GiB or more copies a negative length or does not end, unless it fails before. -/
theorem writeLoop_long {data : List UInt8} {bb : BbWriter} (h : 2147483648 ≤ data.length) :
    (writeLoop mtd data bb).1 ≠ .ok () := by
  -- what is left stays that long, since less than the low 31 bits of the count is copied
  have hLeft (hNeg : ¬writeNow data.length bb.offset < 0) :
      2147483648 ≤ (data.drop (writeNow data.length bb.offset).toNat).length := by
    rw [writeNow, toInt] at *
    rw [length_drop]
    split at * <;> omega
  rw [writeLoop, if_neg (ne_nil_of_length_pos (by omega))]
  by_cases hNeg : writeNow data.length bb.offset < 0
  · simp [if_pos hNeg]
  rw [if_neg hNeg]
  by_cases hZero : writeNow data.length bb.offset = 0
  · simp [dif_pos hZero]
  rw [dif_neg hZero]
  dsimp only
  split
  · rcases nandBbWriteBuf mtd 8192 _ with ⟨_ | _, bb'⟩
    · exact fun hNo => by cases hNo
    · exact writeLoop_long (hLeft hNeg)
  · exact writeLoop_long (hLeft hNeg)
termination_by data.length
decreasing_by
  all_goals
    rw [length_drop]
    omega

theorem writeAll_long {datas : List (List UInt8)} {data : List UInt8} (hMem : data ∈ datas)
    (h : 2147483648 ≤ data.length) (bb bb' : BbWriter) : writeAll mtd datas bb ≠ .ok bb' := by
  induction datas generalizing bb with
  | nil => cases hMem
  | cons first rest ih =>
    rw [writeAll, nandBbWrite]
    rcases hLoop : writeLoop mtd first bb with ⟨_ | _, bb₁⟩
    · exact fun hNo => by cases hNo
    · rcases mem_cons.mp hMem with rfl | hRest
      · exact absurd (by rw [hLoop]) (@writeLoop_long mtd data bb h)
      · exact ih hRest bb₁

/-- All writes succeed, and the good blocks then hold the data. -/
def StoresAll (mtd : MtdInfo) (writebuf : List UInt8) (datas : List (List UInt8)) : Prop :=
  ∃ bb, writeAll mtd datas (nandBbOpen writebuf) = .ok bb ∧
    StoredExactly mtd datas.flatten (nandBbClose mtd bb).log

/-- Data that fits the good blocks is stored exactly when no single call gets 2 GiB or more. -/
theorem bb_write_stores_iff {mtd : MtdInfo} (hUniform : mtd.eraseregions = [])
    (hPage : 8192 ∣ mtd.erasesize)
    {writebuf : List UInt8} (hBuffer : writebuf.length = 8192) {datas : List (List UInt8)}
    (hFits : datas.flatten.length ≤ goodSize mtd) :
    StoresAll mtd writebuf datas ↔ ∀ data ∈ datas, data.length < 2147483648 := by
  constructor
  · rintro ⟨bb, hAll, -⟩ data hMem
    by_contra hLong
    exact writeAll_long hMem (by omega) _ bb hAll
  intro hShort
  have hOpen : Holds mtd 0 [] [] (nandBbOpen writebuf) :=
    ⟨rfl, dvd_zero _, At.zero mtd, by decide, hBuffer, rfl, rfl, storedBelow_nil hUniform⟩
  obtain ⟨bb, base, flushed, pending, hAll, hHolds, hBytes⟩ :=
    writeAll_ok hUniform hPage hShort hOpen (by rw [length_nil, Nat.zero_add]; exact hFits)
  rw [append_nil, nil_append] at hBytes
  refine ⟨bb, hAll, ?_⟩
  grind [nandBbClose_stored]

theorem bb_write_stores_three : StoresAll threeBlocks (zeros 8192) [zeros 20000, [1, 2, 3]] := by
  have hLen : [zeros 20000, [1, 2, 3]].flatten.length = 20003 := by simp
  have hSize : goodSize threeBlocks = 32768 := by decide
  refine (bb_write_stores_iff rfl (by decide) (zeros_length _) (by rw [hLen, hSize]; decide)).mpr ?_
  exact forall_mem_cons.mpr ⟨by simp, forall_mem_singleton.mpr (by decide)⟩

def largeNand : MtdInfo where
  size := 4294967296
  erasesize := 131072
  eraseregions := []
  blockIsbad := none
  allowErasebad := false
  erasesize_pos := Nat.two_pow_pos 17
  uniform := fun _ => by decide
  consecutive := fun h => absurd rfl h
  regions_good := fun h => absurd rfl h

/-- One call with 2 GiB, which the flash has room for, copies a negative length. -/
theorem bb_write_long : (zeros 2147483648).length ≤ goodSize largeNand ∧
    nandBbWrite largeNand (zeros 2147483648)
    (nandBbOpen (zeros 8192)) = (.error .fault, nandBbOpen (zeros 8192)) ∧
    ¬StoresAll largeNand (zeros 8192) [zeros 2147483648] := by
  have hLong : 2147483648 ≤ (zeros 2147483648).length := (zeros_length _).ge
  have hNow : writeNow (zeros 2147483648).length 0 < 0 := by
    rw [zeros_length]
    decide
  refine ⟨?_, ?_, ?_⟩
  · rw [goodSize_of_good rfl fun _ => rfl, zeros_length]
    decide
  · have hLoop : writeLoop largeNand (zeros 2147483648) (nandBbOpen (zeros 8192)) =
        (.error .fault, nandBbOpen (zeros 8192)) := by
      rw [writeLoop, if_neg (ne_nil_of_length_pos (by omega))]
      exact if_pos hNow
    rw [nandBbWrite, hLoop]
    rfl
  · rintro ⟨bb, hAll, -⟩
    exact writeAll_long (.head _) hLong _ bb hAll

end Barebox.Mtd
