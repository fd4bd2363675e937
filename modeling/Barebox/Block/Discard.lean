import Barebox.Block.Transfer
import Barebox.Data.Recency

/-! Discarded ranges. A chunk inside the range is not read from the medium but filled
with zeros, and the range stays until the next flush. Bytes written after the discard
are safe as long as their chunk is not evicted and fetched again before the flush. -/
namespace Barebox.Block
open Memory Recency List Chunk

inductive HintOp where
  | discard (count offset : Nat)
  | read (count offset : Nat)
  | write (bytes : List UInt8) (offset : Nat)
  | flush

def HintOp.Inside (g : Geometry) : HintOp → Prop
  | .read count offset => offset + count ≤ g.size
  | .write bytes offset => offset + bytes.length ≤ g.size
  | .discard _ _ => True
  | .flush => True

def hintStep (g : Geometry) (drv : Driver) : HintOp → BlockDevice → Result (List UInt8)
  | .discard count offset, s => (.ok [], blockOpDiscardRange count offset s)
  | .read count offset, s => blockOpRead g drv count offset s
  | .write bytes offset, s => (blockOpWrite g drv bytes offset s).andThen fun _ s => (.ok [], s)
  | .flush, s => (blockOpFlush g drv s).andThen fun _ s => (.ok [], s)

abbrev Written := Nat → Option UInt8

def Written.write (offset : Nat) (bytes : List UInt8) (w : Written) : Written := fun a =>
  if offset ≤ a ∧ a < offset + bytes.length then some (bytes.getD (a - offset) 0) else w a

def Written.discard (count offset : Nat) (w : Written) : Written := fun a =>
  if offset ≤ a ∧ a < offset + count then none else w a

def HintOp.written : HintOp → Written → Written
  | .discard count offset, w => w.discard count offset
  | .write bytes offset, w => w.write offset bytes
  | .read _ _, w => w
  | .flush, w => w

def HintOp.Returns (w : Written) (reply : Except Errno (List UInt8)) : HintOp → Prop
  | .read count offset => ∃ bytes, reply = .ok bytes ∧ bytes.length = count ∧
      ∀ i < count, ∀ v, w (offset + i) = some v → bytes.getD i 0 = v
  | _ => True

/-- Each read returns the bytes written last, where there are any. -/
def ReadsBack (g : Geometry) (drv : Driver) : List HintOp → Written → BlockDevice → Prop
  | [], _, _ => True
  | op :: ops, w, s =>
    op.Returns w (hintStep g drv op s).1 ∧
      ReadsBack g drv ops (op.written w) (hintStep g drv op s).2

/-- What matters of the operations so far: the chunks in the order of their last use,
the discarded range, and the chunks written since it was set. -/
structure History where
  recent : List Nat
  discardStart : Nat
  discardSize : Nat
  fresh : List Nat

namespace History

def discards (g : Geometry) (h : History) (start : Nat) : Bool :=
  h.discardStart ≤ start * g.blockSize && (start + g.ioNblocks start) * g.blockSize ≤
    h.discardStart + h.discardSize

def use (write : Bool) (start : Nat) (h : History) : History :=
  { h with recent := touch start h.recent, fresh := if write then start :: h.fresh else h.fresh }

/-- A chunk of the discarded range that was written since is among the eight that were
used last. -/
def Admits (g : Geometry) (h : History) (start : Nat) : Prop :=
  h.discards g start = true → start ∈ h.fresh → start ∈ h.recent.take 8

instance (g : Geometry) (h : History) (start : Nat) : Decidable (h.Admits g start) :=
  inferInstanceAs (Decidable (_ → _ → _))

def pass (g : Geometry) (write : Bool) : List Part → History → History
  | [], h => h
  | p :: ps, h => pass g write ps (h.use write (g.startOf p.block))

def AdmitsAll (g : Geometry) (write : Bool) : List Part → History → Prop
  | [], _ => True
  | p :: ps, h => h.Admits g (g.startOf p.block) ∧
      AdmitsAll g write ps (h.use write (g.startOf p.block))

instance decidableAdmitsAll (g : Geometry) (write : Bool) :
    ∀ ps h, Decidable (AdmitsAll g write ps h)
  | [], _ => inferInstanceAs (Decidable True)
  | p :: ps, h =>
    have := decidableAdmitsAll g write ps (h.use write (g.startOf p.block))
    inferInstanceAs (Decidable (_ ∧ _))

end History

def HintOp.history (g : Geometry) : HintOp → History → History
  | .discard count offset, h => { h with discardStart := offset, discardSize := count, fresh := [] }
  | .read count offset, h => h.pass g false (parts g offset count)
  | .write bytes offset, h => h.pass g true (parts g offset bytes.length)
  | .flush, h => { h with discardStart := 0, discardSize := 0 }

/-- No operation of the run comes back to a chunk of the discarded range that was
written since the discard, after eight other chunks were used. -/
def NeverRevisits (g : Geometry) : List HintOp → History → Prop
  | [], _ => True
  | op :: ops, h =>
    (match op with
      | .read count offset => h.AdmitsAll g false (parts g offset count)
      | .write bytes offset => h.AdmitsAll g true (parts g offset bytes.length)
      | _ => True) ∧
    NeverRevisits g ops (op.history g h)

structure Follows (g : Geometry) (s : BlockDevice) (h : History) (w : Written) : Prop where
  coherent : Coherent g (fun a => ∃ v, w a = some v) s
  view : ∀ a v, w a = some v → s.view g a = v
  nums : s.nums.Perm (range 8)
  discardStart : s.discardStart = h.discardStart
  discardSize : s.discardSize = h.discardSize
  recent : s.buffered.map blockStart = h.recent.take 8
  fresh : ∀ a v, w a = some v → h.discards g (g.chunkOf a) = true → g.chunkOf a ∈ h.fresh

variable {g : Geometry} {drv : Driver} {K : Nat → Prop} {s s' : BlockDevice}

theorem chunkGetCached_starts (h : Coherent g K s) {block : Nat} {chunk : Chunk}
    (hGet : chunkGetCached g block s = (some chunk, s')) :
    s'.buffered.map blockStart = touch (g.startOf block) (s.buffered.map blockStart) := by
  have hErase : ∀ chunks : List Chunk, (∀ c ∈ chunks, g.startOf c.blockStart = c.blockStart) →
      (chunks.eraseP (holds g block)).map blockStart =
        (chunks.map blockStart).erase (g.startOf block) := by
    intro chunks hAligned
    induction chunks with
    | nil => rfl
    | cons c chunks ih =>
      have hHolds : c.holds g block = true ↔ c.blockStart = g.startOf block :=
        holds_iff (hAligned c (.head _))
      by_cases hEq : c.blockStart = g.startOf block
      · simp [eraseP_cons_of_pos (hHolds.mpr hEq), hEq]
      · grind
  have hStart := (chunkGetCached_some h hGet).2.2.1
  unfold chunkGetCached at hGet
  cases hFind : s.buffered.find? (holds g block) with
  | none =>
    rw [hFind] at hGet
    cases hGet
  | some found =>
    rw [hFind] at hGet
    cases hGet
    simp [hErase _ h.aligned, hStart, touch]

section Quiet
variable (hQuiet : ∀ n, drv.fault n = none) (hWrite : drv.write = true)
include hQuiet

theorem chunkFlush_ok (chunk : Chunk) (s : BlockDevice) :
    (chunkFlush g drv chunk s).1 = .ok () := by
  unfold chunkFlush
  split_ifs
  · rfl
  · rfl
  · rw [hQuiet]

include hWrite

theorem getChunk_ok (h : Coherent g K s) (hNums : s.nums.Perm (range 8)) :
    ∃ chunk s', getChunk g drv s = (.ok chunk, s') ∧
      s'.buffered.map blockStart = (s.buffered.map blockStart).take 7 := by
  have hLen : s.buffered.length + s.idle.length = 8 := by
    have hEq := hNums.length_eq
    rwa [BlockDevice.nums, length_map, length_append, length_range] at hEq
  unfold getChunk
  cases hIdle : s.idle with
  | cons chunk idle =>
    rw [hIdle, length_cons] at hLen
    have hShort : s.buffered.length ≤ 7 := by omega
    refine ⟨chunk, _, rfl, (take_of_length_le ?_).symm⟩
    rwa [length_map]
  | nil =>
    rw [hIdle, length_nil] at hLen
    rcases hLast : s.buffered.getLast? with _ | last
    · rw [getLast?_eq_none_iff] at hLast
      rw [hLast] at hLen
      cases hLen
    rcases hRes : chunkFlush g drv last s with ⟨r, chunk', s''⟩
    have hOk := chunkFlush_ok (g := g) hQuiet last s
    have hFlush := chunkFlush_spec hWrite (h.aligned last (mem_of_getLast? hLast)) hRes
    rw [hRes] at hOk
    cases hOk
    dsimp only
    rw [hRes]
    refine ⟨chunk', _, rfl, ?_⟩
    have hSame : s''.buffered = s.buffered := by rw [hFlush.state]
    rw [hSame, dropLast_eq_take, List.map_take]
    congr 1
    omega

variable {block addr : Nat} {h : History} {w : Written} {ps : List Part}

theorem blockGet_ok (h : Coherent g K s) (hNums : s.nums.Perm (range 8)) {recent : List Nat}
    (hRecent : s.buffered.map blockStart = recent.take 8) (hBlock : block < g.numBlocks) :
    ∃ chunk s', blockGet g drv block s = (.ok chunk, s') ∧
      s'.buffered.map blockStart = (touch (g.startOf block) recent).take 8 := by
  unfold blockGet
  rw [if_neg (Nat.not_le_of_lt hBlock)]
  rcases hHit : chunkGetCached g block s with ⟨_ | chunk, s₁⟩
  · obtain ⟨rfl, hNew⟩ := chunkGetCached_none h hHit
    obtain ⟨chunk, s₂, hGet, hStarts⟩ := getChunk_ok hQuiet hWrite h hNums
    have hHolds : ∀ c : Chunk, c.blockStart = g.startOf block → c.holds g block = true := by
      intro c hc
      refine (holds_iff ?_).mpr hc
      rw [hc, g.startOf_startOf]
    have hEnd : (touch (g.startOf block) recent).take 8 =
        g.startOf block :: s₂.buffered.map blockStart := by
      simp [take_touch_of_not_mem (hRecent ▸ hNew), hStarts, hRecent, take_take]
    simp only [blockCache, hGet, Result.andThen_ok, hQuiet]
    split_ifs
    all_goals
      rw [Result.andThen_ok, chunkGetCached_of_head rfl (hHolds _ rfl)]
      exact ⟨_, _, rfl, hEnd.symm⟩
  · obtain ⟨-, -, hStart, hMem⟩ := chunkGetCached_some h hHit
    refine ⟨chunk, s₁, rfl, ?_⟩
    have hMem : g.startOf block ∈ recent.take 8 := hRecent ▸ hStart ▸ mem_map_of_mem hMem
    rw [chunkGetCached_starts h hHit, hRecent, take_touch_of_mem hMem]

omit hQuiet hWrite in
/-- A chunk that the history admits is buffered, or holds no written bytes if it is
not read from the medium. -/
theorem Follows.fetchable (hFollows : Follows g s h w)
    (hAdmits : h.Admits g (g.startOf block)) :
    Fetchable g (fun a => ∃ v, w a = some v) s block := by
  by_cases hMem : g.startOf block ∈ s.buffered.map blockStart
  · exact .inl hMem
  refine .inr ?_
  rintro hDiscard a ⟨v, hv⟩ hChunk
  have hSame : h.discards g (g.startOf block) = true := by
    rw [← hDiscard, History.discards, BlockDevice.discards, hFollows.discardStart,
      hFollows.discardSize]
  have hFresh := hFollows.fresh a v hv (hChunk.symm ▸ hSame)
  exact hMem (hFollows.recent ▸ hAdmits hSame (hChunk ▸ hFresh))

theorem readPart_follows (hFollows : Follows g s h w) {p : Part}
    (hAdmits : h.Admits g (g.startOf p.block)) (hLen : p.off + p.len ≤ g.blockSize)
    (hBlock : p.block < g.numBlocks) :
    ∃ bytes s', readPart g drv p.block p.off p.len s = (.ok bytes, s') ∧ bytes.length = p.len ∧
      (∀ i < p.len, ∀ v, w (p.block * g.blockSize + p.off + i) = some v → bytes.getD i 0 = v) ∧
      Follows g s' (h.use false (g.startOf p.block)) w := by
  obtain ⟨chunk, s', hGet, hStarts⟩ :=
    blockGet_ok hQuiet hWrite hFollows.coherent hFollows.nums hFollows.recent hBlock
  have hRead : readPart g drv p.block p.off p.len s =
      (.ok (load (chunk.place g p.block + p.off) p.len chunk.data), s') := by simp [readPart, hGet]
  obtain ⟨hKeeps, hBytes⟩ :=
    readPart_spec hWrite hFollows.coherent (hFollows.fetchable hAdmits) hLen hRead
  obtain ⟨hBytesLen, hBytes⟩ := hBytes _ rfl
  refine ⟨_, s', hRead, hBytesLen, ?_, ?_⟩
  · intro i hi v hv
    rw [hBytes i hi ⟨v, hv⟩, hFollows.view _ v hv]
  · exact ⟨hKeeps.coherent, fun a v hv => (hKeeps.view a ⟨v, hv⟩).trans (hFollows.view a v hv),
      hKeeps.nums.trans hFollows.nums, hKeeps.discardStart.trans hFollows.discardStart,
      hKeeps.discardSize.trans hFollows.discardSize, hStarts, hFollows.fresh⟩

theorem storePart_follows (hFollows : Follows g s h w) {off : Nat}
    {bytes : List UInt8} (hAdmits : h.Admits g (g.startOf block))
    (hLen : off + bytes.length ≤ g.blockSize)
    (hBlock : block < g.numBlocks) : ∃ s', storePart g drv block off bytes s = (.ok (), s') ∧
      Follows g s' (h.use true (g.startOf block)) (w.write (block * g.blockSize + off) bytes) := by
  obtain ⟨chunk, s₁, hGet, hStarts⟩ :=
    blockGet_ok hQuiet hWrite hFollows.coherent hFollows.nums hFollows.recent hBlock
  have hStore : storePart g drv block off bytes s =
      (.ok (), (s₁.poke (chunk.place g block + off) bytes).markDirty) := by simp [storePart, hGet]
  have hStored :=
    (storePart_spec hWrite hFollows.coherent (hFollows.fetchable hAdmits) hLen hStore).2 rfl
  obtain ⟨-, -, chunks, hList⟩ := blockGet_head hGet
  refine ⟨_, hStore, hStored.coherent.mono ?_, ?_, hStored.nums.trans hFollows.nums,
    hStored.discardStart.trans hFollows.discardStart,
      hStored.discardSize.trans hFollows.discardSize, ?_, ?_⟩
  · rintro a ⟨v, hv⟩
    rw [Written.write] at hv
    split_ifs at hv with hRange
    · exact .inr hRange
    · exact .inl ⟨v, hv⟩
  · intro a v hv
    rw [Written.write] at hv
    split_ifs at hv with hRange
    · rw [hStored.view a (.inr hRange), store_of_mem _ hRange]
      exact Option.some.inj hv
    · rw [hStored.view a (.inl ⟨v, hv⟩), store_of_not_mem _ hRange, hFollows.view a v hv]
  · rw [poke_markDirty hList]
    rw [hList] at hStarts
    exact hStarts
  · intro a v hv hDiscard
    rw [Written.write] at hv
    split_ifs at hv with hRange
    · rw [chunkOf_of_part hLen hRange]
      exact (.head _)
    · exact .tail _ (hFollows.fresh a v hv hDiscard)

theorem readParts_follows (hFollows : Follows g s h w)
    (hAdmits : h.AdmitsAll g false ps) (hChain : Chain g addr ps)
    (hEnd : addr + total ps ≤ g.size) :
    ∃ bytes s', readParts g drv ps s = (.ok bytes, s') ∧ bytes.length = total ps ∧
      (∀ i < total ps, ∀ v, w (addr + i) = some v → bytes.getD i 0 = v) ∧
      Follows g s' (h.pass g false ps) w := by
  induction ps generalizing addr s h with
  | nil => exact ⟨[], s, rfl, rfl, fun i hi => absurd hi (Nat.not_lt_zero i), hFollows⟩
  | cons p ps ih =>
    obtain ⟨rfl, hLen, hPos, hRest⟩ := hChain
    have hTotal : total (p :: ps) = p.len + total ps := rfl
    rw [hTotal] at hEnd ⊢
    obtain ⟨bytes, s₁, hFirst, hBytesLen, hBytes, hNext⟩ :=
      readPart_follows hQuiet hWrite hFollows hAdmits.1 hLen (Part.block_lt hPos (by omega))
    obtain ⟨rest, s₂, hMore, hRestLen, hRestBytes, hFinal⟩ := ih hNext hAdmits.2 hRest (by omega)
    refine ⟨bytes ++ rest, s₂, ?_, by rw [length_append]; omega, ?_, hFinal⟩
    · simp [readParts, hFirst, hMore]
    intro i hi v hv
    by_cases hIn : i < p.len
    · rw [getD_append _ _ _ _ (by omega)]
      exact hBytes i hIn v hv
    rw [getD_append_right _ _ _ _ (by omega), hBytesLen]
    refine hRestBytes (i - p.len) (by omega) v ?_
    rw [← hv]
    congr 1
    omega

omit hQuiet hWrite in
theorem Written.write_append (offset : Nat) (front back : List UInt8) (w : Written) :
    w.write offset (front ++ back) = (w.write offset front).write (offset + front.length) back := by
  funext a
  simp only [Written.write, length_append]
  by_cases hBack : offset + front.length ≤ a ∧ a < offset + front.length + back.length
  · grind
  rw [if_neg hBack]
  by_cases hFront : offset ≤ a ∧ a < offset + front.length
  · grind
  · grind

theorem storeParts_follows {buf : List UInt8} (hFollows : Follows g s h w)
    (hAdmits : h.AdmitsAll g true ps)
    (hChain : Chain g addr ps) (hEnd : addr + total ps ≤ g.size) (hBuf : buf.length = total ps) :
    ∃ s', storeParts g drv ps buf s = (.ok (), s') ∧ Follows g s' (h.pass g true ps)
    (w.write addr buf) := by
  induction ps generalizing addr s h w buf with
  | nil =>
    obtain rfl := length_eq_zero_iff.mp hBuf
    refine ⟨s, rfl, ?_⟩
    have hSame : w.write addr [] = w := by
      funext a
      exact if_neg (by simp only [length_nil]; omega)
    rwa [hSame]
  | cons p ps ih =>
    obtain ⟨rfl, hLen, hPos, hRest⟩ := hChain
    have hTotal : total (p :: ps) = p.len + total ps := rfl
    rw [hTotal] at hEnd hBuf
    have hTake : (buf.take p.len).length = p.len := by
      simp
      omega
    obtain ⟨s₁, hFirst, hNext⟩ :=
      storePart_follows hQuiet hWrite hFollows hAdmits.1 (hTake.symm ▸ hLen)
      (Part.block_lt hPos (by omega))
    have hDrop : (buf.drop p.len).length = total ps := by
      simp
      omega
    obtain ⟨s₂, hMore, hFinal⟩ := ih hNext hAdmits.2 hRest (by omega) hDrop
    refine ⟨s₂, ?_, ?_⟩
    · simp [storeParts, hFirst, hMore]
    have hJoin := Written.write_append (p.block * g.blockSize + p.off)
      (buf.take p.len) (buf.drop p.len) w
    rw [take_append_drop, hTake] at hJoin
    rw [hJoin]
    exact hFinal

omit hWrite in
theorem flushChunks_ok (chunks : List Chunk) (s : BlockDevice) :
    (flushChunks g drv chunks s).1 = .ok () ∧
      (flushChunks g drv chunks s).2.1.map blockStart = chunks.map blockStart := by
  induction chunks generalizing s with
  | nil => exact ⟨rfl, rfl⟩
  | cons chunk chunks ih =>
    have hOk := chunkFlush_ok (g := g) hQuiet chunk s
    have hStart : (chunkFlush g drv chunk s).2.1.blockStart = chunk.blockStart := by
      unfold chunkFlush
      split_ifs
      · rfl
      · rfl
      · rw [hQuiet]
    rcases hRes : chunkFlush g drv chunk s with ⟨r, chunk', s'⟩
    rw [hRes] at hOk hStart
    cases hOk
    grind [flushChunks]

omit hQuiet hWrite in
theorem History.discards_zero (hStart : h.discardStart = 0) (hSize : h.discardSize = 0) {a : Nat}
    (ha : a < g.size) : h.discards g (g.chunkOf a) = false := by
  have hBlock : a / g.blockSize < g.numBlocks := (Nat.div_lt_iff_lt_mul g.blockSize_pos).mpr ha
  have hFirst := g.startOf_le (a / g.blockSize)
  have hRd := g.rdbufsize_pos
  have hLen : 0 < (g.chunkOf a + g.ioNblocks (g.chunkOf a)) * g.blockSize :=
    Nat.mul_pos (by rw [Geometry.ioNblocks, Geometry.chunkOf]; omega) g.blockSize_pos
  grind [History.discards]

theorem blockOpFlush_follows (hFollows : Follows g s h w) :
    ∃ s', blockOpFlush g drv s = (.ok (), s') ∧
      Follows g s' { h with discardStart := 0, discardSize := 0 } w := by
  obtain ⟨hKeeps, -⟩ :=
    flushChunks_spec hWrite [] s.buffered { s with discardStart := 0, discardSize := 0 }
    { hFollows.coherent with }
  obtain ⟨hOk, hStarts⟩ :=
    flushChunks_ok (g := g) hQuiet s.buffered { s with discardStart := 0, discardSize := 0 }
  have hNext : ∀ calls, Follows g
      { (flushChunks g drv s.buffered { s with discardStart := 0, discardSize := 0 }).2.2 with
        buffered :=
          (flushChunks g drv s.buffered { s with discardStart := 0, discardSize := 0 }).2.1, calls }
      { h with discardStart := 0, discardSize := 0 } w := by
    intro calls
    refine ⟨{ hKeeps.coherent with }, ?_, hKeeps.nums.trans hFollows.nums,
      hKeeps.discardStart, hKeeps.discardSize, hStarts.trans hFollows.recent, ?_⟩
    · exact fun a v hv => (hKeeps.view a ⟨v, hv⟩).trans (hFollows.view a v hv)
    · intro a v hv hDiscard
      rw [History.discards_zero rfl rfl (hFollows.coherent.inside a ⟨v, hv⟩)] at hDiscard
      cases hDiscard
  rw [blockOpFlush, writebufferFlush]
  dsimp only
  rw [hOk]
  dsimp only
  split_ifs
  · rw [hQuiet]
    exact ⟨_, rfl, hNext _⟩
  · exact ⟨_, rfl, hNext _⟩

omit hQuiet hWrite in
theorem Follows.discard {h : History} {w : Written} (hFollows : Follows g s h w)
    (count offset : Nat) :
    Follows g (blockOpDiscardRange count offset s)
      { h with discardStart := offset, discardSize := count, fresh := [] }
      (w.discard count offset) := by
  have hOld : ∀ {a v}, w.discard count offset a = some v →
      w a = some v ∧ ¬(offset ≤ a ∧ a < offset + count) := by
    intro a v hv
    rw [Written.discard] at hv
    split_ifs at hv with hRange
    exact ⟨hv, hRange⟩
  have hCoherent : Coherent g (fun a => ∃ v, w.discard count offset a = some v) s :=
    hFollows.coherent.mono
    fun a ⟨v, hv⟩ => ⟨v, (hOld hv).1⟩
  refine ⟨{ hCoherent with }, fun a v hv => hFollows.view a v (hOld hv).1,
    hFollows.nums, rfl, rfl, hFollows.recent, ?_⟩
  intro a v hv hDiscard
  -- The whole chunk is discarded, so its bytes count as not written.
  have hRange :=
    (Geometry.chunkOf_eq_iff (g.startOf_startOf (a / g.blockSize))
      (hCoherent.inside a ⟨v, hv⟩)).mpr rfl
  rw [History.discards, Bool.and_eq_true, decide_eq_true_iff, decide_eq_true_iff, Geometry.chunkOf,
    Nat.add_mul] at hDiscard
  refine absurd ?_ (hOld hv).2
  dsimp only at hDiscard
  omega

theorem readsBack_of_follows {ops : List HintOp} (hFollows : Follows g s h w)
    (hInside : ∀ op ∈ ops, op.Inside g) (hRevisits : NeverRevisits g ops h) :
    ReadsBack g drv ops w s := by
  induction ops generalizing s h w with
  | nil => trivial
  | cons op ops ih =>
    have hRest := fun op' hOp' => hInside op' (mem_cons_of_mem op hOp')
    have hHere := hInside op (.head _)
    obtain ⟨hAdmits, hLater⟩ := hRevisits
    rw [ReadsBack]
    cases op with
    | discard count offset => exact ⟨trivial, ih (hFollows.discard count offset) hRest hLater⟩
    | read count offset =>
      obtain ⟨hChain, hTotal⟩ := chain_parts g offset count
      obtain ⟨bytes, s₁, hRead, hLen, hBytes, hNext⟩ :=
        readParts_follows hQuiet hWrite hFollows hAdmits hChain (hTotal.symm ▸ hHere)
      rw [hTotal] at hLen hBytes
      rw [hintStep, blockOpRead_eq, hRead]
      exact ⟨⟨bytes, rfl, hLen, hBytes⟩, ih hNext hRest hLater⟩
    | write bytes offset =>
      obtain ⟨hChain, hTotal⟩ := chain_parts g offset bytes.length
      obtain ⟨s₁, hStore, hNext⟩ :=
        storeParts_follows hQuiet hWrite hFollows hAdmits hChain (hTotal.symm ▸ hHere) hTotal.symm
      rw [hintStep, blockOpWrite_eq hHere, hStore]
      exact ⟨trivial, ih hNext hRest hLater⟩
    | flush =>
      obtain ⟨s₁, hFlush, hNext⟩ := blockOpFlush_follows hQuiet hWrite hFollows
      rw [hintStep, hFlush]
      exact ⟨trivial, ih hNext hRest hLater⟩

end Quiet

def noHistory : History := ⟨[], 0, 0, []⟩

/-- On a medium without errors every read gives the bytes that were written after the
last discard of them, in every run that does not come back to a chunk of the discarded
range, written since the discard, after eight other chunks. -/
theorem discard_keeps_written (hQuiet : ∀ n, drv.fault n = none)
    (hWrite : drv.write = true) (medium : Memory)
    (ops : List HintOp) (hInside : ∀ op ∈ ops, op.Inside g)
    (hRevisits : NeverRevisits g ops noHistory) :
    ReadsBack g drv ops (fun _ => none) (register medium) := by
  refine readsBack_of_follows hQuiet hWrite ⟨⟨?_, nofun, nofun, nodup_nil, nofun, ?_⟩, nofun,
    Perm.refl _, rfl, rfl, rfl, nofun⟩ hInside hRevisits
  · rintro a ⟨v, hv⟩
    cases hv
  · intro chunk hChunk
    obtain ⟨_, _, rfl⟩ := mem_map.mp hChunk
    rfl

def quietDriver : Driver := ⟨true, true, true, fun _ => none, fun _ _ => 0⟩

def nineChunks : Geometry := ⟨9, 1152, by decide, by decide⟩

/-- A byte is written to each of nine chunks, and then read from the last one and from the second.
-/
def discardWriteRead : List HintOp :=
  .discard 589824 0 :: ((range 9).map (fun i => .write [UInt8.ofNat (i + 1)] (65536 * i + 100)) ++
    [.read 1 524388, .read 1 65636])

/-- The first chunk is evicted by the ninth one; the others give back what was written. -/
theorem discard_keeps_written_nine : NeverRevisits nineChunks discardWriteRead noHistory ∧
      ReadsBack nineChunks quietDriver discardWriteRead (fun _ => none) (register fun _ => 1) := by
  have hRevisits : NeverRevisits nineChunks discardWriteRead noHistory := by
    simp only [discardWriteRead, range_succ, range_zero, nil_append, map_cons, map_nil, cons_append,
      NeverRevisits]
    decide +kernel
  refine ⟨hRevisits, discard_keeps_written (fun _ => rfl) rfl _ _ ?_ hRevisits⟩
  refine forall_mem_cons.mpr ⟨trivial, forall_mem_append.mpr ⟨forall_mem_map.mpr fun i hi => ?_,
    forall_mem_cons.mpr ⟨(by decide : 524388 + 1 ≤ nineChunks.size), forall_mem_singleton.mpr
      (by decide : 65636 + 1 ≤ nineChunks.size)⟩⟩⟩
  have hSize : nineChunks.size = 589824 := by decide
  have hLt := mem_range.mp hi
  change 65536 * i + 100 + 1 ≤ nineChunks.size
  omega

def discardWriteWander : List HintOp :=
  [.discard 589824 0, .write [7] 0] ++ (range 8).map (fun i => .read 1 (65536 * (i + 1))) ++
    [.read 1 0]

def lastReply (g : Geometry) (drv : Driver) :
    List HintOp → BlockDevice → Option (Except Errno (List UInt8))
  | [], _ => none
  | [op], s => some (hintStep g drv op s).1
  | op :: ops, s => lastReply g drv ops (hintStep g drv op s).2

/-- The chunk with the byte is written to the medium, and then filled with zeros. -/
theorem discard_loses_written :
    lastReply nineChunks quietDriver discardWriteWander (register fun _ => 1) = some (.ok [0]) ∧
      (discardWriteWander.foldl (fun w op => op.written w) fun _ => none) 0 = some 7 := by
  decide +kernel

end Barebox.Block
