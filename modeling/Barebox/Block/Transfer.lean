import Barebox.Block.View
import Mathlib.Algebra.BigOperators.Group.List.Basic

/-! Reading and writing bytes, block by block. Both operations pass over the same
parts: the end of a first block, whole blocks, and the beginning of a last one. -/
namespace Barebox.Block
open Memory List Nat BlockDevice Result

theorem Result.andThen_assoc {α β γ : Type} (r : Result α) (f : α → BlockDevice → Result β)
    (k : β → BlockDevice → Result γ) :
    (r.andThen f).andThen k = r.andThen fun a s => (f a s).andThen k := by
  rcases r with ⟨_ | _, _⟩ <;> rfl

structure Part where
  block : Nat
  off : Nat
  len : Nat

def wholeBlocks (g : Geometry) : Nat → Nat → List Part
  | _, 0 => []
  | block, n + 1 => ⟨block, 0, g.blockSize⟩ :: wholeBlocks g (block + 1) n

variable (g : Geometry)

def alignedParts (block count : Nat) : List Part :=
  wholeBlocks g block (count / g.blockSize) ++
    (if count % g.blockSize = 0 then []
      else [⟨block + count / g.blockSize, 0, count % g.blockSize⟩])

def parts (offset count : Nat) : List Part :=
  if offset % g.blockSize = 0 then alignedParts g (offset / g.blockSize) count
  else
    let now := min count (g.blockSize - offset % g.blockSize)
    ⟨offset / g.blockSize, offset % g.blockSize, now⟩ ::
      alignedParts g (offset / g.blockSize + 1) (count - now)

def Chain (g : Geometry) : Nat → List Part → Prop
  | _, [] => True
  | addr, p :: ps =>
    p.block * g.blockSize + p.off = addr ∧ p.off + p.len ≤ g.blockSize ∧
      0 < p.off + p.len ∧ Chain g (addr + p.len) ps

def total (ps : List Part) : Nat := (ps.map Part.len).sum

theorem chain_wholeBlocks (block n : Nat) :
    Chain g (block * g.blockSize) (wholeBlocks g block n) ∧
    total (wholeBlocks g block n) = n * g.blockSize := by
  induction n generalizing block with
  | zero => simp [wholeBlocks, Chain, total]
  | succ n ih =>
    obtain ⟨hChain, hTotal⟩ := ih (block + 1)
    have hPos := g.blockSize_pos
    rw [succ_mul] at hChain
    refine ⟨⟨rfl, by simp, by simpa using hPos, hChain⟩, ?_⟩
    grind [wholeBlocks, total]

theorem Chain.append {g : Geometry} {addr : Nat} {ps qs : List Part} (hps : Chain g addr ps)
    (hqs : Chain g (addr + total ps) qs) : Chain g addr (ps ++ qs) := by
  induction ps generalizing addr with
  | nil => exact hqs
  | cons p ps ih =>
    obtain ⟨hAddr, hLen, hPos, hRest⟩ := hps
    refine ⟨hAddr, hLen, hPos, ih hRest ?_⟩
    rwa [Nat.add_assoc]

theorem chain_alignedParts (block count : Nat) :
    Chain g (block * g.blockSize) (alignedParts g block count) ∧
    total (alignedParts g block count) = count := by
  obtain ⟨hChain, hTotal⟩ := chain_wholeBlocks g block (count / g.blockSize)
  have hSum := div_add_mod' count g.blockSize
  have hLt := mod_lt count g.blockSize_pos
  unfold alignedParts
  split_ifs with hRest
  · grind
  · refine ⟨hChain.append ⟨?_, by dsimp only; omega, by dsimp only; omega, trivial⟩, ?_⟩
    · simp [hTotal, Nat.add_mul]
    · grind [total]

theorem chain_parts (offset count : Nat) :
    Chain g offset (parts g offset count) ∧ total (parts g offset count) = count := by
  have hSum := div_add_mod' offset g.blockSize
  have hLt := mod_lt offset g.blockSize_pos
  unfold parts
  split_ifs with hOff
  · obtain ⟨hChain, hTotal⟩ := chain_alignedParts g (offset / g.blockSize) count
    have hAddr : offset / g.blockSize * g.blockSize = offset := by omega
    grind
  dsimp only
  obtain ⟨hChain, hTotal⟩ := chain_alignedParts g (offset / g.blockSize + 1)
    (count - min count (g.blockSize - offset % g.blockSize))
  refine ⟨⟨hSum, by dsimp only; omega, by dsimp only; omega, ?_⟩, ?_⟩
  · rcases Nat.le_total count (g.blockSize - offset % g.blockSize) with hShort | hLong
    · rw [Nat.min_eq_left hShort, Nat.sub_self, alignedParts, Nat.zero_div, zero_mod, if_pos rfl]
      trivial
    have hAddr : (offset / g.blockSize + 1) * g.blockSize =
        offset + min count (g.blockSize - offset % g.blockSize) := by
      rw [succ_mul]
      omega
    rwa [hAddr] at hChain
  · grind [total]

theorem Part.block_lt {g : Geometry} {p : Part} (hPos : 0 < p.off + p.len)
    (hEnd : p.block * g.blockSize + p.off + p.len ≤ g.size) : p.block < g.numBlocks := by
  by_contra hBlock
  have hMul : g.numBlocks * g.blockSize ≤ p.block * g.blockSize := Nat.mul_le_mul_right _ (by omega)
  rw [Geometry.size] at hEnd
  omega

section Folds
variable (g : Geometry) (drv : Driver)

def readParts : List Part → BlockDevice → Result (List UInt8)
  | [], s => (.ok [], s)
  | p :: ps, s =>
    (readPart g drv p.block p.off p.len s).andThen fun bytes s =>
      (readParts ps s).andThen fun rest s => (.ok (bytes ++ rest), s)

theorem readParts_append (ps qs : List Part) (s : BlockDevice) : readParts g drv (ps ++ qs) s =
      (readParts g drv ps s).andThen fun front s =>
        (readParts g drv qs s).andThen fun back s => (.ok (front ++ back), s) := by
  induction ps generalizing s with
  | nil =>
    simp only [nil_append, readParts, andThen_ok]
    rcases readParts g drv qs s with ⟨_ | _, _⟩ <;> rfl
  | cons p ps ih =>
    simp [readParts, ih, andThen_assoc]

theorem readBlocks_eq (blocks block : Nat) (s : BlockDevice) :
    readBlocks g drv blocks block s = readParts g drv (wholeBlocks g block blocks) s := by
  induction blocks generalizing block s with
  | zero => rfl
  | succ blocks ih =>
    simp [readBlocks, wholeBlocks, readParts, readPart, ih, andThen_assoc]

theorem readParts_aligned (block count : Nat) (s : BlockDevice) :
    readParts g drv (alignedParts g block count) s =
      (readBlocks g drv (count / g.blockSize) block s).andThen fun middle s =>
        if count % g.blockSize = 0 then (.ok middle, s)
        else (readPart g drv (block + count / g.blockSize) 0 (count % g.blockSize) s).andThen
        fun back s =>
          (.ok (middle ++ back), s) := by
  rw [alignedParts, readParts_append, readBlocks_eq]
  split_ifs
  · simp [readParts]
  · simp [readParts, andThen_assoc]

theorem blockOpRead_eq (count offset : Nat) (s : BlockDevice) :
    blockOpRead g drv count offset s = readParts g drv (parts g offset count) s := by
  unfold blockOpRead parts
  by_cases hOff : offset % g.blockSize = 0
  · simp [hOff, readParts_aligned]
  simp only [hOff, if_false, readParts, readParts_aligned, andThen_assoc]
  congr 1
  funext front s
  congr 1
  funext middle s
  split_ifs
  · rfl
  · simp [andThen_assoc]

def storePart (block off : Nat) (bytes : List UInt8) (s : BlockDevice) : Result Unit :=
  (blockGet g drv block s).andThen fun chunk s =>
    (.ok (), (s.poke (chunk.place g block + off) bytes).markDirty)

def storeParts : List Part → List UInt8 → BlockDevice → Result Unit
  | [], _, s => (.ok (), s)
  | p :: ps, buf, s =>
    (storePart g drv p.block p.off (buf.take p.len) s).andThen fun _ s =>
      storeParts ps (buf.drop p.len) s

theorem storeParts_append (ps qs : List Part) (buf : List UInt8) (s : BlockDevice) :
    storeParts g drv (ps ++ qs) buf s =
      (storeParts g drv ps buf s).andThen fun _ s =>
      storeParts g drv qs (buf.drop (total ps)) s := by
  induction ps generalizing buf s with
  | nil => simp only [nil_append, storeParts, andThen_ok, total, map_nil, sum_nil, drop_zero]
  | cons p ps ih =>
    simp [storeParts, ih, andThen_assoc, total]

variable {g drv}

variable {block : Nat} {s s' : BlockDevice} {chunk : Chunk} {chunks : List Chunk} {buf : List UInt8}

theorem chunkGetCached_head (h : chunkGetCached g block s = (some chunk, s')) :
    chunk.holds g block = true ∧ ∃ chunks, s'.buffered = chunk :: chunks := by
  unfold chunkGetCached at h
  cases hFind : s.buffered.find? (Chunk.holds g block) with
  | none =>
    rw [hFind] at h
    cases h
  | some found =>
    rw [hFind] at h
    cases h
    exact ⟨find?_some hFind, _, rfl⟩

theorem chunkGetCached_of_head (hList : s.buffered = chunk :: chunks)
    (hHolds : chunk.holds g block = true) :
    chunkGetCached g block s = (some chunk, s) := by
  unfold chunkGetCached
  rw [hList, find?_cons_of_pos hHolds, eraseP_cons_of_pos hHolds]
  dsimp only
  rw [← hList]

theorem blockGet_head (h : blockGet g drv block s = (.ok chunk, s')) :
    block < g.numBlocks ∧ chunk.holds g block = true ∧ ∃ chunks, s'.buffered = chunk :: chunks := by
  unfold blockGet at h
  split_ifs at h with hBlock
  · cases h
  refine ⟨Nat.lt_of_not_le hBlock, ?_⟩
  rcases hHit : chunkGetCached g block s with ⟨_ | found, s₁⟩ <;> rw [hHit] at h
  · rcases hCache : blockCache g drv block s₁ with ⟨_ | _, s₂⟩
    · simp only [hCache, andThen_error] at h
      cases h
    simp only [hCache, andThen_ok] at h
    rcases hHit' : chunkGetCached g block s₂ with ⟨_ | found, s₃⟩ <;> rw [hHit'] at h
    · cases h
    · cases h
      exact chunkGetCached_head hHit'
  · cases h
    exact chunkGetCached_head hHit

variable (hList : s.buffered = chunk :: chunks)
include hList

theorem poke_buffered (pos : Nat) (bytes : List UInt8) :
    s.poke pos bytes =
    { s with buffered := { chunk with data := store pos bytes chunk.data } :: chunks } := by
  rw [poke, hList]

theorem markDirty_buffered :
    s.markDirty = { s with buffered := { chunk with dirty := true } :: chunks } := by
  rw [markDirty, hList]

theorem poke_markDirty (pos : Nat) (bytes : List UInt8) :
    (s.poke pos bytes).markDirty =
      { s with
        buffered :=
          { chunk with data := store pos bytes chunk.data, dirty := true } :: chunks } := by
  rw [poke_buffered hList, markDirty_buffered rfl]

omit hList

theorem blockPut_eq (hBlock : block < g.numBlocks) (bytes : List UInt8) (s : BlockDevice) :
    blockPut g drv bytes block s = storePart g drv block 0 bytes s := by
  rw [blockPut, if_neg (Nat.not_le_of_lt hBlock), storePart]
  rcases hGet : blockGet g drv block s with ⟨_ | chunk, s'⟩
  · rfl
  · obtain ⟨-, hHolds, chunks, hList⟩ := blockGet_head hGet
    simp only [andThen_ok, Nat.add_zero, poke_buffered hList]
    rw [chunkGetCached_of_head rfl (by exact hHolds)]

theorem writePart_eq (hBlock : block < g.numBlocks) (off : Nat) (bytes : List UInt8)
    (s : BlockDevice) : writePart g drv block off bytes s = storePart g drv block off bytes s := by
  rw [writePart, storePart]
  rcases hGet : blockGet g drv block s with ⟨_ | chunk, s'⟩
  · rfl
  obtain ⟨-, hHolds, chunks, hList⟩ := blockGet_head hGet
  simp only [andThen_ok, poke_buffered hList, blockPut_eq hBlock]
  rw [storePart, blockGet, if_neg (Nat.not_le_of_lt hBlock),
    chunkGetCached_of_head rfl (by exact hHolds), andThen_ok,
    poke_buffered rfl]
  simp [Chunk.place, store_load]

theorem writeBlocks_eq {blocks : Nat} (hBlock : block + blocks ≤ g.numBlocks) (buf : List UInt8)
    (s : BlockDevice) :
    writeBlocks g drv blocks block buf s = storeParts g drv (wholeBlocks g block blocks) buf s := by
  induction blocks generalizing block buf s with
  | zero => rfl
  | succ blocks ih =>
    rw [writeBlocks, wholeBlocks, storeParts, blockPut_eq (by omega)]
    congr 1
    funext _ s
    exact ih (by omega) _ s

theorem storeParts_aligned (hEnd : block * g.blockSize + buf.length ≤ g.size) (s : BlockDevice) :
    storeParts g drv (alignedParts g block buf.length) buf s =
      (writeBlocks g drv (buf.length / g.blockSize) block buf s).andThen fun _ s =>
        if buf.drop (buf.length / g.blockSize * g.blockSize) = [] then (.ok (), s)
        else writePart g drv (block + buf.length / g.blockSize) 0
          (buf.drop (buf.length / g.blockSize * g.blockSize)) s := by
  have hSum := div_add_mod' buf.length g.blockSize
  have hRest : (buf.drop (buf.length / g.blockSize * g.blockSize)).length =
      buf.length % g.blockSize := by
    rw [length_drop]
    omega
  have hWhole : block + buf.length / g.blockSize ≤ g.numBlocks := by
    have hMul : (block + buf.length / g.blockSize) * g.blockSize ≤ g.numBlocks * g.blockSize := by
      rw [Nat.add_mul]
      exact Nat.le_trans (by omega) hEnd
    exact Nat.le_of_mul_le_mul_right hMul g.blockSize_pos
  rw [alignedParts, storeParts_append, writeBlocks_eq hWhole, (chain_wholeBlocks g _ _).2]
  congr 1
  funext _ s
  by_cases hZero : buf.length % g.blockSize = 0
  · grind [storeParts]
  rw [if_neg hZero, if_neg fun h => hZero (by rw [← hRest, h, length_nil])]
  have hBlock : block + buf.length / g.blockSize < g.numBlocks := by
    refine Part.block_lt (p := ⟨_, 0, buf.length % g.blockSize⟩) (by dsimp only; omega) ?_
    simp [Nat.add_mul]
    omega
  rw [writePart_eq hBlock, storeParts, take_of_length_le (Nat.le_of_eq hRest)]
  rcases storePart g drv (block + buf.length / g.blockSize) 0
    (buf.drop (buf.length / g.blockSize * g.blockSize)) s with ⟨_ | _, _⟩ <;> rfl

theorem blockOpWrite_eq {offset : Nat} (hEnd : offset + buf.length ≤ g.size) (s : BlockDevice) :
    blockOpWrite g drv buf offset s = storeParts g drv (parts g offset buf.length) buf s := by
  have hSum := div_add_mod' offset g.blockSize
  have hLt := mod_lt offset g.blockSize_pos
  unfold blockOpWrite parts
  by_cases hOff : offset % g.blockSize = 0
  · simp only [hOff, if_true, andThen_ok, drop_zero]
    rw [storeParts_aligned (by omega)]
  have hBlock : offset / g.blockSize < g.numBlocks := by
    refine Part.block_lt (p := ⟨_, offset % g.blockSize, buf.length⟩) (by dsimp only; omega) ?_
    dsimp only
    omega
  simp only [hOff, if_false, storeParts, writePart_eq hBlock]
  congr 1
  funext _ s
  set now := min buf.length (g.blockSize - offset % g.blockSize) with hNow
  have hDrop : (buf.drop now).length = buf.length - now := length_drop
  rcases Nat.le_total buf.length (g.blockSize - offset % g.blockSize) with hShort | hLong
  · have hNil : buf.drop now = [] := by
      simp
      omega
    have hZero : buf.length - now = 0 := by omega
    simp [hNil, hZero, alignedParts, wholeBlocks, storeParts, writeBlocks]
  · have hNext : (offset / g.blockSize + 1) * g.blockSize = offset + now := by
      rw [succ_mul]
      omega
    rw [← hDrop, storeParts_aligned (by rw [hNext, hDrop]; omega)]

end Folds

section Content
variable {g : Geometry} {drv : Driver} {K : Nat → Prop} {s s' : BlockDevice}

/-- What the cache needs to keep a set of bytes when it looks up a block: the chunk
is buffered, or it is read from the medium, or the set has no bytes of it. -/
def Fetchable (g : Geometry) (K : Nat → Prop) (s : BlockDevice) (block : Nat) : Prop :=
  g.startOf block ∈ s.buffered.map Chunk.blockStart ∨
    (s.discards g (g.startOf block) = true → ∀ a, K a → g.chunkOf a ≠ g.startOf block)

variable {block off len : Nat} {chunk : Chunk} {bytes : List UInt8}

theorem chunkOf_of_part {a : Nat} (hLen : off + len ≤ g.blockSize)
    (h : block * g.blockSize + off ≤ a ∧ a < block * g.blockSize + off + len) :
    g.chunkOf a = g.startOf block := by
  have hDiv : a / g.blockSize = block := by
    rw [Nat.div_eq_iff g.blockSize_pos]
    omega
  rw [Geometry.chunkOf, hDiv]

theorem place_add (hStart : chunk.blockStart = g.startOf block) :
    chunk.blockStart * g.blockSize + chunk.place g block = block * g.blockSize := by
  have hLe : chunk.blockStart ≤ block := hStart ▸ g.startOf_le block
  rw [Chunk.place, Nat.sub_mul]
  have hMul := Nat.mul_le_mul_right g.blockSize hLe
  omega

/-- A part of a block reads as the view has it. -/
theorem readPart_spec (hWrite : drv.write = true) (h : Coherent g K s)
    (hFetch : Fetchable g K s block) (hLen : off + len ≤ g.blockSize)
    {r : Except Errno (List UInt8)}
    (hRead : readPart g drv block off len s = (r, s')) :
    Keeps g K s s' ∧ ∀ bytes, r = .ok bytes → bytes.length = len ∧
    ∀ i < len, K (block * g.blockSize + off + i) →
        bytes.getD i 0 = s.view g (block * g.blockSize + off + i) := by
  unfold readPart at hRead
  rcases hGet : blockGet g drv block s with ⟨_ | chunk, s₁⟩ <;> rw [hGet] at hRead
  · cases hRead
    exact ⟨(blockGet_spec hWrite h hFetch hGet).1, nofun⟩
  obtain ⟨hKeeps, hOk⟩ := blockGet_spec hWrite h hFetch hGet
  obtain ⟨hHead, hStart, -⟩ := hOk chunk rfl
  rw [andThen_ok] at hRead
  cases hRead
  refine ⟨hKeeps, fun bytes hBytes => ?_⟩
  cases hBytes
  refine ⟨load_length _ _ _, fun i hi hK => ?_⟩
  have hChunk : g.chunkOf (block * g.blockSize + off + i) = chunk.blockStart := by
    rw [hStart]
    exact chunkOf_of_part hLen (by omega)
  have hPlace := place_add hStart
  rw [load_getD _ hi, ← hKeeps.view _ hK, view,
    lookup_of_mem hKeeps.coherent.distinct (mem_of_mem_head? hHead) hChunk, Chunk.byte]
  congr 1
  omega

def Grown (K : Nat → Prop) (addr len a : Nat) : Prop := K a ∨ (addr ≤ a ∧ a < addr + len)

structure Stored (g : Geometry) (K : Nat → Prop) (addr : Nat)
    (bytes : List UInt8) (s s' : BlockDevice) :
    Prop where
  coherent : Coherent g (Grown K addr bytes.length) s'
  view : ∀ a, Grown K addr bytes.length a → s'.view g a = store addr bytes (s.view g) a
  nums : s'.nums.Perm s.nums
  discardStart : s'.discardStart = s.discardStart
  discardSize : s'.discardSize = s.discardSize

theorem Coherent.storeHead (h : Coherent g K s)
    {chunks : List Chunk} (hList : s.buffered = chunk :: chunks) (hBlock : block < g.numBlocks)
    (hStart : chunk.blockStart = g.startOf block) (hLen : off + bytes.length ≤ g.blockSize) :
    Stored g K (block * g.blockSize + off) bytes s
      ((s.poke (chunk.place g block + off) bytes).markDirty) := by
  have hNe : ∀ other ∈ chunks, other.blockStart ≠ chunk.blockStart := fun other hOther =>
    h.ne_of_mem (show s.buffered = [] ++ chunk :: chunks from hList) hOther
  have hMem : chunk ∈ s.buffered := hList ▸ (.head _)
  have hOld : ∀ {other}, other ∈ chunks → other ∈ s.buffered := fun hOther =>
    hList ▸ .tail _ hOther
  have hPlace := place_add hStart
  rw [poke_markDirty hList]
  refine ⟨⟨?_, ?_, ?_, ?_, ?_, h.idleClean⟩, ?_, ?_, rfl, rfl⟩
  · rintro a (hK | hRange)
    · exact h.inside a hK
    · have hMul : (block + 1) * g.blockSize ≤ g.numBlocks * g.blockSize :=
        Nat.mul_le_mul_right _ hBlock
      rw [succ_mul] at hMul
      exact Nat.lt_of_lt_of_le (by omega) hMul
  · rintro other (_ | ⟨_, hOther⟩)
    · exact h.aligned chunk hMem
    · exact h.aligned other (hOld hOther)
  · rintro other (_ | ⟨_, hOther⟩)
    · exact h.onDevice chunk hMem
    · exact h.onDevice other (hOld hOther)
  · have hDistinct := h.distinct
    rwa [hList] at hDistinct
  · rintro other (_ | ⟨_, hOther⟩) hClean a ha hChunk
    · cases hClean
    have hK : K a := by
      rcases ha with hK | hRange
      · exact hK
      · exact absurd (hChunk.symm.trans ((chunkOf_of_part hLen hRange).trans hStart.symm))
          (hNe other hOther)
    exact h.clean other (hOld hOther) hClean a hK hChunk
  · intro a ha
    have hOldView : s.view g a = lookup g (chunk :: chunks) s.medium a := by rw [view, hList]
    by_cases hChunk : g.chunkOf a = chunk.blockStart
    · have hFrom : chunk.blockStart * g.blockSize ≤ a := by
        have hBlocks : g.startOf (a / g.blockSize) ≤ a / g.blockSize := g.startOf_le _
        rw [Geometry.chunkOf] at hChunk
        rw [hChunk, Nat.le_div_iff_mul_le g.blockSize_pos] at hBlocks
        exact hBlocks
      rw [view, lookup_cons_self (by exact hChunk), Chunk.byte]
      dsimp only
      by_cases hRange : block * g.blockSize + off ≤ a ∧ a < block * g.blockSize + off + bytes.length
      · rw [store_of_mem _ hRange, store_of_mem _ (by omega)]
        congr 1
        omega
      · rw [store_of_not_mem _ hRange, store_of_not_mem _ (by omega),
          hOldView, lookup_cons_self hChunk, Chunk.byte]
    · have hOut : ¬(block * g.blockSize + off ≤ a ∧ a < block * g.blockSize + off + bytes.length) :=
        fun hRange => hChunk ((chunkOf_of_part hLen hRange).trans hStart.symm)
      rw [view, lookup_cons_of_ne (by exact hChunk), store_of_not_mem _ hOut,
        hOldView, lookup_cons_of_ne hChunk]
  · simp [nums, hList]

/-- A part of a block is stored, or nothing changes. -/
theorem storePart_spec (hWrite : drv.write = true) (h : Coherent g K s)
    (hFetch : Fetchable g K s block) (hLen : off + bytes.length ≤ g.blockSize)
    {r : Except Errno Unit} (hStore : storePart g drv block off bytes s = (r, s')) :
    (∀ e, r = .error e → Keeps g K s s') ∧
    (r = .ok () → Stored g K (block * g.blockSize + off) bytes s s') := by
  unfold storePart at hStore
  rcases hGet : blockGet g drv block s with ⟨_ | chunk, s₁⟩ <;> rw [hGet] at hStore
  · cases hStore
    exact ⟨fun _ _ => (blockGet_spec hWrite h hFetch hGet).1, nofun⟩
  obtain ⟨hKeeps, hOk⟩ := blockGet_spec hWrite h hFetch hGet
  obtain ⟨-, hStart, hBlock⟩ := hOk chunk rfl
  obtain ⟨-, -, chunks, hList⟩ := blockGet_head hGet
  have hStored := hKeeps.coherent.storeHead hList hBlock hStart hLen
  rw [andThen_ok] at hStore
  cases hStore
  refine ⟨nofun, fun _ => ⟨hStored.coherent, fun a ha => ?_, hStored.nums.trans hKeeps.nums,
    hStored.discardStart.trans hKeeps.discardStart, hStored.discardSize.trans hKeeps.discardSize⟩⟩
  rw [hStored.view a ha]
  by_cases hRange : block * g.blockSize + off ≤ a ∧ a < block * g.blockSize + off + bytes.length
  · simp [store_of_mem _ hRange]
  · rw [store_of_not_mem _ hRange, store_of_not_mem _ hRange]
    exact hKeeps.view a (ha.resolve_right hRange)

end Content
end Barebox.Block
