import Barebox.Block.Transfer

/-! The cached block device against a plain array of bytes. Without a discarded range
every reply of the device is one of the array, whatever calls of the driver fail. -/
namespace Barebox.Block
open Memory List

inductive Op where
  | read (count offset : Nat)
  | write (bytes : List UInt8) (offset : Nat)
  | erase (count offset : Nat)
  | flush

def Op.Inside (g : Geometry) : Op → Prop
  | .read count offset => offset + count ≤ g.size
  | .write bytes offset => offset + bytes.length ≤ g.size
  | .erase count offset => offset + count ≤ g.size
  | .flush => True

abbrev Reply := Except Errno (List UInt8)

def Result.noBytes (r : Result Unit) : Result (List UInt8) := r.andThen fun _ s => (.ok [], s)

def step (g : Geometry) (drv : Driver) : Op → BlockDevice → Result (List UInt8)
  | .read count offset, s => blockOpRead g drv count offset s
  | .write bytes offset, s => Result.noBytes (blockOpWrite g drv bytes offset s)
  | .erase count offset, s => Result.noBytes (blockOpErase g drv count offset s)
  | .flush, s => Result.noBytes (blockOpFlush g drv s)

def run (g : Geometry) (drv : Driver) : List Op → BlockDevice → List (Op × Reply × BlockDevice)
  | [], _ => []
  | op :: ops, s =>
    let next := step g drv op s
    (op, next.1, next.2) :: run g drv ops next.2

/-- One operation on a plain array, with the content of the medium after it. A write
that fails may have stored the beginning of its bytes. Erased blocks hold what the
medium holds. -/
inductive DiskStep (g : Geometry) (array : Memory) : Op → Reply → Memory → Memory → Prop
  | read {count offset : Nat} {medium : Memory} :
      DiskStep g array (.read count offset) (.ok (load offset count array)) medium array
  | readFailed {count offset : Nat} {medium : Memory} (e : Errno) :
      DiskStep g array (.read count offset) (.error e) medium array
  | write {bytes : List UInt8} {offset : Nat} {medium : Memory} :
      DiskStep g array (.write bytes offset) (.ok []) medium (store offset bytes array)
  | writeFailed {bytes : List UInt8} {offset : Nat} {medium : Memory} (e : Errno) (n : Nat) :
      DiskStep g array (.write bytes offset) (.error e) medium (store offset (bytes.take n) array)
  | erase {count offset : Nat} {medium : Memory} (reply : Reply) :
      DiskStep g array (.erase count offset) reply medium
        (blit (offset / g.blockSize * g.blockSize) (count / g.blockSize * g.blockSize)
          (fun i => medium (offset / g.blockSize * g.blockSize + i)) array)
  | eraseRefused {count offset : Nat} {medium : Memory} (e : Errno) :
      DiskStep g array (.erase count offset) (.error e) medium array
  | flush {medium : Memory} (same : ∀ a < g.size, medium a = array a) :
      DiskStep g array .flush (.ok []) medium array
  | flushFailed {medium : Memory} (e : Errno) : DiskStep g array .flush (.error e) medium array

inductive DiskRun (g : Geometry) : Memory → List (Op × Reply × BlockDevice) → Prop
  | nil {array : Memory} : DiskRun g array []
  | cons {array array' : Memory} {op : Op} {reply : Reply} {s : BlockDevice}
      {events : List (Op × Reply × BlockDevice)} (first : DiskStep g array op reply s.medium array')
      (rest : DiskRun g array' events) : DiskRun g array ((op, reply, s) :: events)

/-- No block is in two chunks, and no chunk is lost. -/
def WellKept (g : Geometry) (s : BlockDevice) : Prop :=
  (∀ block, (s.buffered.filter (Chunk.holds g block)).length ≤ 1) ∧ s.nums.Perm (range 8)

structure Represents (g : Geometry) (s : BlockDevice) (array : Memory) : Prop where
  coherent : Coherent g (· < g.size) s
  view : ∀ a < g.size, s.view g a = array a
  nums : s.nums.Perm (range 8)
  discardStart : s.discardStart = 0
  discardSize : s.discardSize = 0

variable {g : Geometry} {drv : Driver} {K : Nat → Prop} {s s' : BlockDevice} {array : Memory}

theorem fetchable_of_no_discard (hStart : s.discardStart = 0)
    (hSize : s.discardSize = 0) {block : Nat}
    (hBlock : block < g.numBlocks) : Fetchable g K s block := by
  refine .inr fun hDiscard => ?_
  have hFirst := g.startOf_le block
  have hRd := g.rdbufsize_pos
  have hLen : 0 < (g.startOf block + g.ioNblocks (g.startOf block)) * g.blockSize :=
    Nat.mul_pos (by rw [Geometry.ioNblocks]; omega) g.blockSize_pos
  rw [BlockDevice.discards, Bool.and_eq_true, decide_eq_true_iff,
    decide_eq_true_iff, hStart, hSize] at hDiscard
  omega

/-- What keeps the view keeps the array that it represents. -/
theorem Represents.keeps (h : Represents g s array) (hKeeps : Keeps g (· < g.size) s s') :
    Represents g s' array where
  coherent := hKeeps.coherent
  view a ha := (hKeeps.view a ha).trans (h.view a ha)
  nums := hKeeps.nums.trans h.nums
  discardStart := hKeeps.discardStart.trans h.discardStart
  discardSize := hKeeps.discardSize.trans h.discardSize

variable {ps : List Part} {addr : Nat} {r : Except Errno Unit}
    (hWrite : drv.write = true) (h : Represents g s array)
include hWrite h
variable (hChain : Chain g addr ps) (hEnd : addr + total ps ≤ g.size)
include hChain hEnd

theorem readParts_represents {r : Reply} (hRead : readParts g drv ps s = (r, s')) :
    Represents g s' array ∧ ∀ bytes, r = .ok bytes → bytes = load addr (total ps) array := by
  induction ps generalizing addr s s' r with
  | nil =>
    cases hRead
    refine ⟨h, fun bytes hOk => ?_⟩
    cases hOk
    rfl
  | cons p ps ih =>
    obtain ⟨rfl, hLen, hPos, hRest⟩ := hChain
    have hTotal : total (p :: ps) = p.len + total ps := rfl
    rw [hTotal] at hEnd ⊢
    have hFetch : Fetchable g (· < g.size) s p.block :=
      fetchable_of_no_discard h.discardStart h.discardSize (Part.block_lt hPos (by omega))
    rw [readParts] at hRead
    rcases hFirst : readPart g drv p.block p.off p.len s with ⟨_ | bytes, s₁⟩ <;>
        rw [hFirst] at hRead
    · cases hRead
      exact ⟨h.keeps (readPart_spec hWrite h.coherent hFetch hLen hFirst).1,
        fun _ hOk => by cases hOk⟩
    obtain ⟨hKeeps, hBytes⟩ := readPart_spec hWrite h.coherent hFetch hLen hFirst
    obtain ⟨hBytesLen, hBytes⟩ := hBytes bytes rfl
    rw [Result.andThen_ok] at hRead
    rcases hMore : readParts g drv ps s₁ with ⟨_ | rest, s₂⟩ <;> rw [hMore] at hRead
    · cases hRead
      exact ⟨(ih (h.keeps hKeeps) hRest (by omega) hMore).1, fun _ hOk => by cases hOk⟩
    obtain ⟨hRep, hTail⟩ := ih (h.keeps hKeeps) hRest (by omega) hMore
    cases hRead
    refine ⟨hRep, fun all hOk => ?_⟩
    cases hOk
    have hHead : bytes = load (p.block * g.blockSize + p.off) p.len array := by
      apply ext_getElem
      · simp [hBytesLen]
      intro i hi hi'
      have hByte := hBytes i (hBytesLen ▸ hi) (by omega)
      rw [getD_eq_getElem _ _ hi, h.view _ (by omega), ← load_getD array (hBytesLen ▸ hi),
        getD_eq_getElem _ _ hi'] at hByte
      exact hByte
    rw [load_append, hTail rest rfl, ← hHead]

theorem storeParts_represents {buf : List UInt8} (hBuf : buf.length = total ps)
    (hStore : storeParts g drv ps buf s = (r, s')) :
    ∃ n, (r = .ok () → n = buf.length) ∧ Represents g s' (store addr (buf.take n) array) := by
  induction ps generalizing addr s s' r buf array with
  | nil =>
    cases hStore
    refine ⟨0, fun _ => by rw [hBuf]; rfl, ?_⟩
    rwa [take_zero, store_nil]
  | cons p ps ih =>
    obtain ⟨rfl, hLen, hPos, hRest⟩ := hChain
    have hTotal : total (p :: ps) = p.len + total ps := rfl
    rw [hTotal] at hEnd hBuf
    have hTake : (buf.take p.len).length = p.len := by
      simp
      omega
    have hFetch : Fetchable g (· < g.size) s p.block :=
      fetchable_of_no_discard h.discardStart h.discardSize (Part.block_lt hPos (by omega))
    rw [storeParts] at hStore
    rcases hFirst : storePart g drv p.block p.off (buf.take p.len) s with ⟨_ | _, s₁⟩ <;>
        rw [hFirst] at hStore
    all_goals have hPart := storePart_spec hWrite h.coherent hFetch (hTake.symm ▸ hLen) hFirst
    · cases hStore
      refine ⟨0, (fun hOk => by cases hOk), ?_⟩
      rw [take_zero, store_nil]
      exact h.keeps (hPart.1 _ rfl)
    have hStored := hPart.2 rfl
    have hSub : ∀ a, a < g.size → Grown (· < g.size) (p.block * g.blockSize + p.off)
      (buf.take p.len).length a := fun a => .inl
    have hRep : Represents g s₁ (store (p.block * g.blockSize + p.off) (buf.take p.len) array) := by
      refine ⟨hStored.coherent.mono hSub, fun a ha => ?_, hStored.nums.trans h.nums,
        hStored.discardStart.trans h.discardStart, hStored.discardSize.trans h.discardSize⟩
      rw [hStored.view a (hSub a ha), store, store, blit, blit, h.view a ha]
    obtain ⟨n, hAll, hFinal⟩ := ih hRep hRest (by omega) (by rw [length_drop]; omega) hStore
    refine ⟨p.len + n, fun hOk => ?_, ?_⟩
    · rw [hAll hOk, length_drop]
      omega
    · simp [take_add, store_append, hTake, hFinal]

omit hChain hEnd

theorem writebufferFlush_represents (hFlush : writebufferFlush g drv s = (r, s')) :
    Represents g s' array ∧ (r = .ok () → ∀ a < g.size, s'.medium a = array a) := by
  obtain ⟨hKeeps, hClean⟩ := flushChunks_spec hWrite [] s.buffered s h.coherent
  simp only [nil_append] at hKeeps
  have hRep := h.keeps hKeeps
  have hRep' : ∀ calls, Represents g { (flushChunks g drv s.buffered s).2.2 with
      buffered := (flushChunks g drv s.buffered s).2.1, calls } array := fun calls =>
    { hRep with coherent := { hRep.coherent with } }
  unfold writebufferFlush at hFlush
  dsimp only at hFlush
  rcases hRes : (flushChunks g drv s.buffered s).1 with e | u
  · rw [hRes] at hFlush
    cases hFlush
    exact ⟨hRep, nofun⟩
  have hMedium : ∀ a < g.size, (flushChunks g drv s.buffered s).2.2.medium a = array a := by
    intro a ha
    rw [← hRep.view a ha, BlockDevice.view]
    by_cases hMem : g.chunkOf a ∈ (flushChunks g drv s.buffered s).2.1.map Chunk.blockStart
    · obtain ⟨chunk, hChunk, hStart⟩ := mem_map.mp hMem
      rw [lookup_of_mem hRep.coherent.distinct hChunk hStart.symm]
      exact (hRep.coherent.clean chunk hChunk (hClean hRes chunk hChunk) a ha hStart.symm).symm
    · rw [lookup_of_absent hMem]
  rw [hRes] at hFlush
  dsimp only at hFlush
  split_ifs at hFlush
  · cases hFault : drv.fault (flushChunks g drv s.buffered s).2.2.calls with
    | some e =>
      rw [hFault] at hFlush
      cases hFlush
      exact ⟨hRep' _, nofun⟩
    | none =>
      rw [hFault] at hFlush
      cases hFlush
      exact ⟨hRep' _, fun _ => hMedium⟩
  · cases hFlush
    exact ⟨hRep, fun _ => hMedium⟩

omit hWrite h

/-- By induction on the chunks that are looked at for a discard. -/
theorem dropChunks_spec (hWrite : drv.write = true) (offset count : Nat)
    (front chunks idle : List Chunk)
    (s : BlockDevice) (h : Coherent g K { s with buffered := front ++ chunks, idle }) :
    let dropped := dropChunks g drv offset count chunks s
    Keeps g K { s with buffered := front ++ chunks, idle }
        { dropped.2.2.2 with buffered := front ++ dropped.2.1, idle := dropped.2.2.1 ++ idle } ∧
      (dropped.1 = .ok () →
        ∀ chunk ∈ dropped.2.1, regionOverlapSize offset count chunk.blockStart g.rdbufsize =
          false) := by
  induction chunks generalizing front idle s with
  | nil => exact ⟨Keeps.refl h, fun _ => nofun⟩
  | cons chunk chunks ih =>
    simp only [dropChunks]
    split_ifs with hOverlap
    · have hAligned := h.aligned chunk (mem_append_right _ (.head _))
      rcases hRes : chunkFlush g drv chunk s with ⟨_ | _, chunk', s'⟩
      all_goals
        have hFlush := chunkFlush_spec hWrite hAligned hRes
        have hKeeps := h.flush rfl (hFlush.relist (front ++ chunk :: chunks) idle)
      · exact ⟨hKeeps, nofun⟩
      have hClean := (hFlush.stored rfl).1
      have hGone := hKeeps.coherent.remove (show _ = front ++ chunk' :: chunks from rfl) hClean
      have hMoved : Keeps g K { s with buffered := front ++ chunk :: chunks, idle }
          { s' with buffered := front ++ chunks, idle := chunk' :: idle } := by
        refine { hKeeps with
          coherent := { hGone.1 with idleClean := ?_ },
          view := fun a ha => (hGone.2 a ha).trans (hKeeps.view a ha),
          nums := ?_ }
        · rintro other (_ | ⟨_, hOther⟩)
          · exact hClean
          · exact h.idleClean other hOther
        refine Perm.trans ?_ hKeeps.nums
        simp only [BlockDevice.nums]
        refine Perm.map _ ?_
        simp [Perm.append_left]
      obtain ⟨hNext, hApart⟩ := ih front (chunk' :: idle) s' hMoved.coherent
      refine ⟨?_, hApart⟩
      rw [append_assoc, singleton_append]
      exact hMoved.trans hNext
    · have hSplit : front ++ chunk :: chunks = (front ++ [chunk]) ++ chunks := by simp
      have hNext := ih (front ++ [chunk]) idle s (hSplit ▸ h)
      rw [← hSplit] at hNext
      refine ⟨?_, fun hOk => forall_mem_cons.mpr ⟨Bool.not_eq_true _ ▸ hOverlap, hNext.2 hOk⟩⟩
      have hKeeps := hNext.1
      rwa [append_assoc, singleton_append] at hKeeps

include h in
theorem Represents.erased {offset count : Nat} (content : Memory) (calls : Nat)
    (hApart : ∀ chunk ∈ s.buffered,
      regionOverlapSize offset count chunk.blockStart g.rdbufsize = false) :
    Represents g
      { s with medium := blit (offset * g.blockSize) (count * g.blockSize) content s.medium, calls }
      (blit (offset * g.blockSize) (count * g.blockSize)
        (fun i => blit (offset * g.blockSize) (count * g.blockSize)
          content s.medium (offset * g.blockSize + i))
        array) := by
  have hOut : ∀ chunk ∈ s.buffered, ∀ a, g.chunkOf a = chunk.blockStart →
      ¬(offset * g.blockSize ≤ a ∧ a < offset * g.blockSize + count * g.blockSize) := by
    intro chunk hChunk a hStart hRange
    have hBlock := (Geometry.startOf_eq_iff (h.coherent.aligned chunk hChunk)).mpr hStart
    rw [← Nat.add_mul, ← Nat.le_div_iff_mul_le g.blockSize_pos,
      ← Nat.div_lt_iff_lt_mul g.blockSize_pos] at hRange
    have hNone := hApart chunk hChunk
    have hRd := g.rdbufsize_pos
    have hOverlap : regionOverlapSize offset count chunk.blockStart g.rdbufsize = true := by
      simp [regionOverlapSize]
      omega
    rw [hOverlap] at hNone
    cases hNone
  refine { h with coherent := { h.coherent with clean := ?_ }, view := ?_ }
  · intro chunk hChunk hClean a ha hStart
    dsimp only
    rw [blit_of_not_mem _ _ (hOut chunk hChunk a hStart)]
    exact h.coherent.clean chunk hChunk hClean a ha hStart
  intro a ha
  by_cases hMem : g.chunkOf a ∈ s.buffered.map Chunk.blockStart
  · obtain ⟨chunk, hChunk, hStart⟩ := mem_map.mp hMem
    rw [BlockDevice.view, lookup_of_mem h.coherent.distinct hChunk hStart.symm,
      blit_of_not_mem _ _ (hOut chunk hChunk a hStart.symm), ← h.view a ha, BlockDevice.view,
      lookup_of_mem h.coherent.distinct hChunk hStart.symm]
  have hOld := h.view a ha
  rw [BlockDevice.view, lookup_of_absent hMem] at hOld ⊢
  by_cases hRange : offset * g.blockSize ≤ a ∧ a < offset * g.blockSize + count * g.blockSize
  · rw [blit_of_mem (fun i => _) _ hRange, Nat.add_sub_cancel' hRange.1]
  · simp [blit_of_not_mem _ _ hRange, hOld]

include hWrite h in
theorem step_represents (op : Op) (hInside : op.Inside g) :
    ∃ array', DiskStep g array op (step g drv op s).1 (step g drv op s).2.medium array' ∧
      Represents g (step g drv op s).2 array' := by
  cases op with
  | read count offset =>
    obtain ⟨hChain, hTotal⟩ := chain_parts g offset count
    rw [step, blockOpRead_eq]
    rcases hRead : readParts g drv (parts g offset count) s with ⟨r, s'⟩
    obtain ⟨hRep, hBytes⟩ := readParts_represents hWrite h hChain (hTotal.symm ▸ hInside) hRead
    refine ⟨array, ?_, hRep⟩
    cases r with
    | error e => exact .readFailed e
    | ok bytes =>
      rw [hBytes bytes rfl, hTotal]
      exact .read
  | write bytes offset =>
    obtain ⟨hChain, hTotal⟩ := chain_parts g offset bytes.length
    rw [step, blockOpWrite_eq hInside]
    rcases hStore : storeParts g drv (parts g offset bytes.length) bytes s with ⟨r, s'⟩
    obtain ⟨n, hAll, hRep⟩ :=
      storeParts_represents hWrite h hChain (hTotal.symm ▸ hInside) hTotal.symm hStore
    cases r with
    | error e => exact ⟨_, .writeFailed e n, hRep⟩
    | ok u =>
      rw [hAll rfl, take_length] at hRep
      exact ⟨_, .write, hRep⟩
  | erase count offset =>
    rw [step, blockOpErase]
    split_ifs
    · exact ⟨array, .eraseRefused _, h⟩
    obtain ⟨hKeeps, hApart⟩ :=
      dropChunks_spec hWrite (offset / g.blockSize) (count / g.blockSize) [] s.buffered
      s.idle s h.coherent
    have hRep := h.keeps hKeeps
    simp only [nil_append] at hRep
    dsimp only
    rcases hDrop : (dropChunks g drv (offset / g.blockSize)
        (count / g.blockSize) s.buffered s).1 with e | u
    · exact ⟨array, .eraseRefused _, hRep⟩
    dsimp only
    have hErased := hRep.erased (drv.content
      (dropChunks g drv (offset / g.blockSize) (count / g.blockSize) s.buffered s).2.2.2.calls)
      ((dropChunks g drv (offset / g.blockSize) (count / g.blockSize) s.buffered s).2.2.2.calls + 1)
      (hApart hDrop)
    cases drv.fault
      (dropChunks g drv (offset / g.blockSize) (count / g.blockSize) s.buffered s).2.2.2.calls with
    | some e | none => exact ⟨_, .erase _, hErased⟩
  | flush =>
    have hReset : Represents g { s with discardStart := 0, discardSize := 0 } array :=
      ⟨{ h.coherent with }, h.view, h.nums, rfl, rfl⟩
    rw [step, blockOpFlush]
    rcases hFlush : writebufferFlush g drv { s with discardStart := 0, discardSize := 0 } with
        ⟨r, s'⟩
    obtain ⟨hRep, hMedium⟩ := writebufferFlush_represents hWrite hReset hFlush
    cases r with
    | error e => exact ⟨array, .flushFailed e, hRep⟩
    | ok u => exact ⟨array, .flush (hMedium rfl), hRep⟩

include h in
theorem Represents.wellKept : WellKept g s := by
  refine ⟨fun block => ?_, h.nums⟩
  have hNodup : ((s.buffered.filter (Chunk.holds g block)).map Chunk.blockStart).Nodup :=
    h.coherent.distinct.sublist (filter_sublist.map _)
  have hSame : ∀ start ∈ (s.buffered.filter (Chunk.holds g block)).map Chunk.blockStart,
      start = g.startOf block := by
    intro start hStart
    obtain ⟨chunk, hChunk, rfl⟩ := mem_map.mp hStart
    obtain ⟨hMem, hHolds⟩ := mem_filter.mp hChunk
    exact (Chunk.holds_iff (h.coherent.aligned chunk hMem)).mp hHolds
  rw [eq_replicate_of_mem hSame] at hNodup
  have hLen := nodup_replicate.mp hNodup
  rwa [length_map] at hLen

theorem register_represents (medium : Memory) : Represents g (register medium) medium := by
  refine ⟨⟨fun _ => id, nofun, nofun, nodup_nil, nofun, ?_⟩, fun _ _ => rfl, ?_, rfl, rfl⟩
  · intro chunk hChunk
    obtain ⟨_, _, rfl⟩ := mem_map.mp hChunk
    rfl
  · exact Perm.refl _

include hWrite h in
theorem run_represents {ops : List Op} (hInside : ∀ op ∈ ops, op.Inside g) :
    DiskRun g array (run g drv ops s) ∧ ∀ event ∈ run g drv ops s, WellKept g event.2.2 := by
  induction ops generalizing s array with
  | nil => exact ⟨.nil, nofun⟩
  | cons op ops ih =>
    obtain ⟨array', hStep, hRep⟩ := step_represents hWrite h op (hInside op (.head _))
    obtain ⟨hRun, hKept⟩ := ih hRep fun op hop => hInside op (.tail _ hop)
    exact ⟨.cons hStep hRun, forall_mem_cons.mpr ⟨hRep.wellKept, hKept⟩⟩

/-- Every run of a device that can be written, from its registration on, is a run of
a plain array that starts with the content of the medium, and the eight chunks are
well kept after every operation. -/
theorem block_cache_refines (hWrite : drv.write = true) (medium : Memory) (ops : List Op)
    (hInside : ∀ op ∈ ops, op.Inside g) : DiskRun g medium (run g drv ops (register medium)) ∧
      ∀ event ∈ run g drv ops (register medium), WellKept g event.2.2 :=
  run_represents hWrite (register_represents medium) hInside

theorem twoChunks_minBits : 9 ≤ 9 := by decide
theorem twoChunks_maxBits : 9 ≤ 16 := by decide

def twoChunks : Geometry := ⟨9, 256, twoChunks_minBits, twoChunks_maxBits⟩

def secondFails : Driver where
  write := true
  erase := true
  flush := true
  fault n := if n = 1 then some .eio else none
  content _ _ := 0

theorem block_cache_refines_sample : secondFails.write = true ∧ DiskRun twoChunks (fun _ => 0)
        (run twoChunks secondFails [.write [1, 2] 65535, .flush,
          .read 1 65535] (register fun _ => 0)) := by
  refine ⟨rfl, (block_cache_refines rfl _ _ ?_).1⟩
  intro op hOp
  simp only [mem_cons, not_mem_nil, or_false] at hOp
  rcases hOp with rfl | rfl | rfl
  · exact (by decide : 65535 + 2 ≤ twoChunks.size)
  · trivial
  · exact (by decide : 65535 + 1 ≤ twoChunks.size)

def replies (g : Geometry) (drv : Driver) (ops : List Op) (s : BlockDevice) : List Reply :=
  (run g drv ops s).map fun event => event.2.1

/-- A write over two chunks whose second chunk cannot be fetched fails, and the first
byte is read back all the same instead of the zero that the device held. -/
theorem failed_write_is_read :
    replies twoChunks secondFails [.write [1, 2] 65535, .read 1 65535] (register fun _ => 0) =
        [.error .eio, .ok [1]] ∧ load 65535 1 (fun _ => 0) = [0] := by
  decide +kernel

end Barebox.Block
