import Barebox.Block.Cache
import Mathlib.Data.List.Nodup

/-! What the cache and the medium together hold. The content of a byte is that of
its chunk if the chunk is buffered and that of the medium if not. Finding, fetching,
evicting and flushing chunks keep that content. -/
namespace Barebox.Block
open Memory List Nat BlockDevice

namespace Geometry
variable (g : Geometry)

theorem blockSize_pos : 0 < g.blockSize := Nat.two_pow_pos _

theorem rdbufsize_pos : 0 < g.rdbufsize :=
  Nat.div_pos (Nat.pow_le_pow_right (n := 2) Nat.two_pos g.maxBits) (Nat.two_pow_pos _)

def chunkOf (a : Nat) : Nat := g.startOf (a / g.blockSize)

theorem startOf_le (block : Nat) : g.startOf block ≤ block := div_mul_le_self _ _

theorem startOf_startOf (block : Nat) : g.startOf (g.startOf block) = g.startOf block := by
  rw [startOf, startOf, Nat.mul_div_cancel _ g.rdbufsize_pos]

variable {g}

theorem startOf_eq_iff {start block : Nat} (hStart : g.startOf start = start) :
    start ≤ block ∧ block < start + g.rdbufsize ↔ g.startOf block = start := by
  have hPos := g.rdbufsize_pos
  obtain ⟨k, rfl⟩ : ∃ k, start = k * g.rdbufsize := ⟨_, hStart.symm⟩
  rw [← succ_mul, ← le_div_iff_mul_le hPos, ← div_lt_iff_lt_mul hPos,
    startOf, Nat.mul_left_inj (Nat.ne_of_gt hPos)]
  omega

theorem chunkOf_eq_iff {start a : Nat} (hStart : g.startOf start = start) (ha : a < g.size) :
    start * g.blockSize ≤ a ∧ a < start * g.blockSize + g.ioNblocks start * g.blockSize ↔
    g.chunkOf a = start := by
  have hPos := g.blockSize_pos
  have hBlock : a / g.blockSize < g.numBlocks := (div_lt_iff_lt_mul hPos).mpr ha
  rw [← add_mul, ← le_div_iff_mul_le hPos, ← div_lt_iff_lt_mul hPos,
    chunkOf, ← startOf_eq_iff hStart, ioNblocks]
  omega

end Geometry

variable {g : Geometry} {drv : Driver} {chunk chunk' : Chunk}
    {chunks front back : List Chunk} {medium : Memory}
  {a : Nat} {s' : BlockDevice} {r : Except Errno Unit}

theorem Chunk.holds_iff {block : Nat} (h : g.startOf chunk.blockStart = chunk.blockStart) :
    chunk.holds g block = true ↔ chunk.blockStart = g.startOf block := by
  rw [Chunk.holds, Bool.and_eq_true, decide_eq_true_iff, decide_eq_true_iff,
    Geometry.startOf_eq_iff h]
  exact eq_comm

def Chunk.byte (g : Geometry) (chunk : Chunk) (a : Nat) : UInt8 :=
  chunk.data (a - chunk.blockStart * g.blockSize)

def lookup (g : Geometry) (chunks : List Chunk) (medium : Memory) (a : Nat) : UInt8 :=
  match chunks.find? fun chunk => chunk.blockStart = g.chunkOf a with
  | some chunk => chunk.byte g a
  | none => medium a

def BlockDevice.view (g : Geometry) (s : BlockDevice) : Memory := lookup g s.buffered s.medium

theorem lookup_cons_self
    (h : g.chunkOf a = chunk.blockStart) :
    lookup g (chunk :: chunks) medium a = chunk.byte g a := by simp [lookup, h]

theorem lookup_cons_of_ne (h : g.chunkOf a ≠ chunk.blockStart) :
    lookup g (chunk :: chunks) medium a = lookup g chunks medium a := by simp [lookup, h.symm]

theorem lookup_append_of_absent (h : g.chunkOf a ∉ front.map Chunk.blockStart) :
    lookup g (front ++ back) medium a = lookup g back medium a := by
  induction front with
  | nil => rfl
  | cons chunk front ih =>
    rw [map_cons, mem_cons, not_or] at h
    simp [lookup_cons_of_ne h.1, ih h.2]

theorem lookup_middle_of_ne (h : g.chunkOf a ≠ chunk.blockStart) :
    lookup g (front ++ chunk :: back) medium a = lookup g (front ++ back) medium a := by
  induction front with
  | nil => exact lookup_cons_of_ne h
  | cons other front ih =>
    by_cases hOther : g.chunkOf a = other.blockStart
    · simp [lookup_cons_self hOther]
    · simp [lookup_cons_of_ne hOther, ih]

theorem lookup_medium {medium' : Memory} (h : medium' a = medium a) :
    lookup g chunks medium' a = lookup g chunks medium a := by
  unfold lookup
  rw [h]

theorem lookup_of_absent (h : g.chunkOf a ∉ chunks.map Chunk.blockStart) :
    lookup g chunks medium a = medium a := by
  have hEnd : lookup g (chunks ++ []) medium a = lookup g [] medium a := lookup_append_of_absent h
  rwa [append_nil] at hEnd

theorem lookup_of_mem (hDistinct : (chunks.map Chunk.blockStart).Nodup) (hMem : chunk ∈ chunks)
    (h : g.chunkOf a = chunk.blockStart) : lookup g chunks medium a = chunk.byte g a := by
  obtain ⟨front, back, rfl⟩ := append_of_mem hMem
  rw [map_append, map_cons] at hDistinct
  have hAbsent : g.chunkOf a ∉ front.map Chunk.blockStart := by grind
  rw [lookup_append_of_absent hAbsent, lookup_cons_self h]

theorem lookup_perm {chunks' : List Chunk} (hPerm : chunks.Perm chunks')
    (hDistinct : (chunks.map Chunk.blockStart).Nodup) (a : Nat) :
    lookup g chunks' medium a = lookup g chunks medium a := by
  have hDistinct' := (hPerm.map Chunk.blockStart).nodup_iff.mp hDistinct
  by_cases hMem : g.chunkOf a ∈ chunks.map Chunk.blockStart
  · obtain ⟨chunk, hChunk, hStart⟩ := mem_map.mp hMem
    rw [lookup_of_mem hDistinct hChunk hStart.symm,
      lookup_of_mem hDistinct' (hPerm.mem_iff.mp hChunk) hStart.symm]
  · have hMem' : g.chunkOf a ∉ chunks'.map Chunk.blockStart := fun h =>
      hMem ((hPerm.map Chunk.blockStart).mem_iff.mpr h)
    rw [lookup_of_absent hMem, lookup_of_absent hMem']

/-- The cache is coherent for a set of bytes of the device: no two chunks hold the
same blocks, clean chunks hold what the medium holds at those bytes, and idle chunks
are clean. -/
structure Coherent (g : Geometry) (K : Nat → Prop) (s : BlockDevice) : Prop where
  inside : ∀ a, K a → a < g.size
  aligned : ∀ chunk ∈ s.buffered, g.startOf chunk.blockStart = chunk.blockStart
  onDevice : ∀ chunk ∈ s.buffered, chunk.blockStart < g.numBlocks
  distinct : (s.buffered.map Chunk.blockStart).Nodup
  clean : ∀ chunk ∈ s.buffered, chunk.dirty = false →
    ∀ a, K a → g.chunkOf a = chunk.blockStart → chunk.byte g a = s.medium a
  idleClean : ∀ chunk ∈ s.idle, chunk.dirty = false

def BlockDevice.nums (s : BlockDevice) : List Nat := (s.buffered ++ s.idle).map Chunk.num

structure Keeps (g : Geometry) (K : Nat → Prop) (s s' : BlockDevice) : Prop where
  coherent : Coherent g K s'
  view : ∀ a, K a → s'.view g a = s.view g a
  nums : s'.nums.Perm s.nums
  discardStart : s'.discardStart = s.discardStart
  discardSize : s'.discardSize = s.discardSize

variable {s : BlockDevice}

theorem Keeps.refl {K : Nat → Prop} (h : Coherent g K s) : Keeps g K s s :=
  ⟨h, fun _ _ => rfl, Perm.refl _, rfl, rfl⟩

theorem Keeps.trans {K : Nat → Prop} {s' s'' : BlockDevice} (first : Keeps g K s s')
    (second : Keeps g K s' s'') :
    Keeps g K s s'' where
  coherent := second.coherent
  view a ha := (second.view a ha).trans (first.view a ha)
  nums := second.nums.trans first.nums
  discardStart := second.discardStart.trans first.discardStart
  discardSize := second.discardSize.trans first.discardSize

/-- What `chunk_flush` does on a device that can be written. -/
structure Flushed (g : Geometry) (chunk : Chunk) (s : BlockDevice) (r : Except Errno Unit)
    (chunk' : Chunk) (s' : BlockDevice) : Prop where
  state : s' = { s with medium := s'.medium, calls := s'.calls }
  same : chunk' = { chunk with dirty := chunk'.dirty }
  others : ∀ a < g.size, g.chunkOf a ≠ chunk.blockStart → s'.medium a = s.medium a
  failed : ∀ e, r = .error e → chunk' = chunk ∧ chunk.dirty = true
  stored : r = .ok () → chunk'.dirty = false ∧ ∀ a < g.size, g.chunkOf a = chunk.blockStart →
    (chunk.dirty = false → chunk.byte g a = s.medium a) → s'.medium a = chunk.byte g a

/-- A chunk is clean after its flush, or still dirty and the error is reported. -/
theorem chunkFlush_spec (hWrite : drv.write = true)
    (hAligned : g.startOf chunk.blockStart = chunk.blockStart)
    (hFlush : chunkFlush g drv chunk s = (r, chunk', s')) : Flushed g chunk s r chunk' s' := by
  unfold chunkFlush at hFlush
  cases hDirty : chunk.dirty with
  | false =>
    simp only [hDirty, Bool.not_false, if_true] at hFlush
    cases hFlush
    refine ⟨rfl, rfl, fun _ _ _ => rfl, nofun, fun _ => ⟨hDirty, ?_⟩⟩
    exact fun a _ _ hSame => (hSame hDirty).symm
  | true =>
    simp only [hDirty, hWrite, Bool.not_true, Bool.false_eq_true, if_false] at hFlush
    cases hFault : drv.fault s.calls with
    | some e =>
      rw [hFault] at hFlush
      cases hFlush
      refine ⟨rfl, rfl, ?_, fun _ _ => ⟨rfl, hDirty⟩, nofun⟩
      intro a ha hNe
      exact blit_of_not_mem _ _ fun h => hNe ((Geometry.chunkOf_eq_iff hAligned ha).mp h)
    | none =>
      rw [hFault] at hFlush
      cases hFlush
      refine ⟨rfl, rfl, ?_, nofun, fun _ => ⟨rfl, ?_⟩⟩
      · intro a ha hNe
        exact blit_of_not_mem _ _ fun h => hNe ((Geometry.chunkOf_eq_iff hAligned ha).mp h)
      · intro a ha hEq _
        exact blit_of_mem _ _ ((Geometry.chunkOf_eq_iff hAligned ha).mpr hEq)

variable {chunk chunk' : Chunk} {s s' : BlockDevice} {r : Except Errno Unit}
    (h : Flushed g chunk s r chunk' s')
include h

theorem Flushed.blockStart : chunk'.blockStart = chunk.blockStart := by rw [h.same]
theorem Flushed.byte (a : Nat) : chunk'.byte g a = chunk.byte g a := by
  rw [h.same, Chunk.byte, Chunk.byte]
theorem Flushed.num : chunk'.num = chunk.num := by rw [h.same]

omit h
include h in
/-- `chunk_flush` does not look at the lists. -/
theorem Flushed.rebuffer (buffered : List Chunk) :
    Flushed g chunk { s with buffered } r chunk' { s' with buffered } where
  state := by rw [h.state]
  same := h.same
  others := h.others
  failed := h.failed
  stored := h.stored

include h in
theorem Flushed.relist (buffered idle : List Chunk) :
    Flushed g chunk { s with buffered, idle } r chunk' { s' with buffered, idle } where
  state := by rw [h.state]
  same := h.same
  others := h.others
  failed := h.failed
  stored := h.stored

section Coherence
variable {K : Nat → Prop} {s : BlockDevice}

theorem Coherent.mono {K' : Nat → Prop} (h : Coherent g K s) (hSub : ∀ a, K' a → K a) :
    Coherent g K' s where
  inside a ha := h.inside a (hSub a ha)
  aligned := h.aligned
  onDevice := h.onDevice
  distinct := h.distinct
  clean chunk hMem hClean a ha := h.clean chunk hMem hClean a (hSub a ha)
  idleClean := h.idleClean

variable {front back : List Chunk} {chunk : Chunk} {s' : BlockDevice}
    {r : Except Errno Chunk} {block : Nat}

theorem Coherent.ne_of_mem (h : Coherent g K s) {other : Chunk}
    (hList : s.buffered = front ++ chunk :: back)
    (hOther : other ∈ front ++ back) : other.blockStart ≠ chunk.blockStart := by
  have hDistinct := h.distinct
  grind

theorem Coherent.flush (h : Coherent g K s) {front back : List Chunk} {chunk chunk' : Chunk}
    {r : Except Errno Unit} {s' : BlockDevice} (hList : s.buffered = front ++ chunk :: back)
    (hFlush : Flushed g chunk s r chunk' s') :
    Keeps g K s { s' with buffered := front ++ chunk' :: back } := by
  have hMem : ∀ {other}, other ∈ front ++ chunk' :: back →
      other = chunk' ∨ other ∈ front ++ back := by
    intro other hOther
    simp only [mem_append, mem_cons] at hOther ⊢
    tauto
  have hOld : ∀ {other}, other ∈ front ++ back → other ∈ s.buffered := by
    intro other hOther
    simp only [hList, mem_append, mem_cons] at hOther ⊢
    tauto
  have hChunk : chunk ∈ s.buffered := hList ▸ mem_append_right _ (.head _)
  have hStarts : (front ++ chunk' :: back).map Chunk.blockStart =
      s.buffered.map Chunk.blockStart := by
    simp [hList, hFlush.blockStart]
  have hIdle : s'.idle = s.idle := by rw [hFlush.state]
  refine ⟨⟨h.inside, ?_, ?_, hStarts ▸ h.distinct, ?_, ?_⟩, ?_, ?_, ?_, ?_⟩
  · intro other hOther
    rcases hMem hOther with rfl | hOther
    · grind [hFlush.blockStart, h.aligned]
    · exact h.aligned other (hOld hOther)
  · intro other hOther
    rcases hMem hOther with rfl | hOther
    · rw [hFlush.blockStart]
      exact h.onDevice chunk hChunk
    · exact h.onDevice other (hOld hOther)
  · intro other hOther hClean a ha hStart
    rcases hMem hOther with rfl | hOther
    · cases hr : r with
      | error e =>
        obtain ⟨hSame, hDirty⟩ := hFlush.failed e hr
        rw [hSame, hDirty] at hClean
        cases hClean
      | ok u =>
        rw [hFlush.blockStart] at hStart
        rw [hFlush.byte, (hFlush.stored hr).2 a (h.inside a ha) hStart]
        exact fun hClean => h.clean chunk hChunk hClean a ha hStart
    · have hNe := h.ne_of_mem hList hOther
      rw [h.clean other (hOld hOther) hClean a ha hStart]
      exact (hFlush.others a (h.inside a ha) (hStart ▸ hNe)).symm
  · grind [h.idleClean]
  · intro a ha
    by_cases hStart : g.chunkOf a = chunk.blockStart
    · simp [view, lookup_of_mem h.distinct hChunk hStart,
        lookup_of_mem (hStarts ▸ h.distinct) (mem_append_right _ (.head _))
          (hStart.trans hFlush.blockStart.symm), hFlush.byte]
    · rw [view, view, hList, lookup_middle_of_ne hStart,
        lookup_middle_of_ne (hFlush.blockStart ▸ hStart)]
      exact lookup_medium (hFlush.others a (h.inside a ha) hStart)
  · simp [nums, hList, hIdle, hFlush.num]
  · rw [hFlush.state]
  · rw [hFlush.state]

/-- By induction on the chunks still to be flushed; `front` has those before them. -/
theorem flushChunks_spec (hWrite : drv.write = true) (front chunks : List Chunk) (s : BlockDevice)
    (h : Coherent g K { s with buffered := front ++ chunks }) :
    Keeps g K { s with buffered := front ++ chunks }
        { (flushChunks g drv chunks s).2.2 with buffered := front ++
          (flushChunks g drv chunks s).2.1 } ∧
      ((flushChunks g drv chunks s).1 = .ok () → ∀ chunk ∈ (flushChunks g drv chunks s).2.1,
        chunk.dirty = false) := by
  induction chunks generalizing front s with
  | nil => exact ⟨Keeps.refl h, fun _ chunk hChunk => by simp [flushChunks] at hChunk⟩
  | cons chunk chunks ih =>
    have hAligned := h.aligned chunk (mem_append_right _ (.head _))
    simp only [flushChunks]
    rcases hRes : chunkFlush g drv chunk s with ⟨_ | _, chunk', s'⟩
    all_goals have hFlush := chunkFlush_spec hWrite hAligned hRes
    · have hKeeps := h.flush rfl (hFlush.rebuffer (front ++ chunk :: chunks))
      exact ⟨hKeeps, nofun⟩
    have hKeeps := h.flush rfl (hFlush.rebuffer (front ++ chunk :: chunks))
    have hSplit : front ++ chunk' :: chunks = (front ++ [chunk']) ++ chunks := by simp
    have hNext := ih (front ++ [chunk']) s' (hSplit ▸ hKeeps.coherent)
    rw [← hSplit] at hNext
    refine ⟨?_, ?_⟩
    · have hAll := hKeeps.trans hNext.1
      rwa [append_assoc, singleton_append] at hAll
    exact fun hOk => forall_mem_cons.mpr ⟨(hFlush.stored rfl).1, hNext.2 hOk⟩

theorem Coherent.remove (h : Coherent g K s)
    (hList : s.buffered = front ++ chunk :: back) (hClean : chunk.dirty = false) :
    Coherent g K { s with buffered := front ++ back } ∧
      ∀ a, K a → view g { s with buffered := front ++ back } a = s.view g a := by
  have hOld : ∀ {other}, other ∈ front ++ back → other ∈ s.buffered := by
    intro other hOther
    simp only [hList, mem_append, mem_cons] at hOther ⊢
    tauto
  have hSub : (front ++ back).Sublist s.buffered := by simp [hList]
  refine ⟨⟨h.inside, fun c hc => h.aligned c (hOld hc), fun c hc => h.onDevice c (hOld hc),
    h.distinct.sublist (hSub.map _), fun c hc => h.clean c (hOld hc), h.idleClean⟩, ?_⟩
  intro a ha
  by_cases hStart : g.chunkOf a = chunk.blockStart
  · have hAbsent : g.chunkOf a ∉ (front ++ back).map Chunk.blockStart := by
      intro hMem
      obtain ⟨other, hOther, hEq⟩ := mem_map.mp hMem
      exact h.ne_of_mem hList hOther (hEq.trans hStart)
    have hMem : chunk ∈ s.buffered := hList ▸ mem_append_right _ (.head _)
    rw [view, view, lookup_of_absent hAbsent, lookup_of_mem h.distinct hMem hStart]
    exact (h.clean chunk hMem hClean a ha hStart).symm
  · simp [view, hList, lookup_middle_of_ne hStart]

/-- `get_chunk` gives a clean chunk that is in none of the lists. -/
structure Taken (g : Geometry) (K : Nat → Prop) (s : BlockDevice)
    (chunk : Chunk) (s' : BlockDevice) :
    Prop where
  clean : chunk.dirty = false
  coherent : Coherent g K s'
  view : ∀ a, K a → s'.view g a = s.view g a
  nums : (chunk.num :: s'.nums).Perm s.nums
  discardStart : s'.discardStart = s.discardStart
  discardSize : s'.discardSize = s.discardSize
  starts : ∀ start ∈ s'.buffered.map Chunk.blockStart, start ∈ s.buffered.map Chunk.blockStart

/-- A chunk to fill: an idle one, or the oldest one after its flush. -/
theorem getChunk_spec (hWrite : drv.write = true) (h : Coherent g K s)
    (hGet : getChunk g drv s = (r, s')) :
    (∀ e, r = .error e → Keeps g K s s') ∧ ∀ chunk, r = .ok chunk → Taken g K s chunk s' := by
  unfold getChunk at hGet
  cases hIdle : s.idle with
  | cons chunk idle =>
    rw [hIdle] at hGet
    cases hGet
    refine ⟨nofun, fun chunk' hChunk => ?_⟩
    cases hChunk
    have hClean := h.idleClean
    rw [hIdle] at hClean
    refine ⟨hClean chunk (.head _), { h with idleClean := fun c hc => hClean c (.tail _ hc) },
      fun _ _ => rfl, ?_, rfl, rfl, fun _ => id⟩
    simp [nums, hIdle, perm_middle.symm]
  | nil =>
    rw [hIdle] at hGet
    rcases hLast : s.buffered.getLast? with _ | last
    · rw [hLast] at hGet
      cases hGet
      exact ⟨fun _ _ => Keeps.refl h, nofun⟩
    have hList : s.buffered = s.buffered.dropLast ++ last :: [] := by
      rw [dropLast_append_getLast? last hLast]
    have hMem : last ∈ s.buffered := mem_of_getLast? hLast
    rw [hLast] at hGet
    dsimp only at hGet
    rcases hRes : chunkFlush g drv last s with ⟨_ | _, chunk', s''⟩
    all_goals
      have hFlush := chunkFlush_spec hWrite (h.aligned last hMem) hRes
      rw [hRes] at hGet
    · cases hGet
      have hSame : s''.buffered = s.buffered := by rw [hFlush.state]
      rw [hSame]
      exact ⟨fun _ _ => h.flush hList hFlush, nofun⟩
    cases hGet
    refine ⟨nofun, fun chunk'' hChunk => ?_⟩
    cases hChunk
    have hSame : s''.buffered = s.buffered := by rw [hFlush.state]
    have hKeeps := h.flush hList hFlush
    have hClean := (hFlush.stored rfl).1
    have hGone :=
      hKeeps.coherent.remove (show _ = s.buffered.dropLast ++ chunk' :: [] from rfl) hClean
    rw [append_nil] at hGone
    rw [hSame]
    refine ⟨hClean, hGone.1, fun a ha => (hGone.2 a ha).trans (hKeeps.view a ha), ?_,
      hKeeps.discardStart, hKeeps.discardSize, ?_⟩
    · refine Perm.trans ?_ hKeeps.nums
      simp [nums, perm_middle.symm]
    · intro start hStart
      grind

/-- Putting a chunk with the content of the medium, or with any content where the
set has no bytes of it, at the head of the buffered list. -/
theorem Coherent.insert (h : Coherent g K s) {chunk : Chunk}
    (hAligned : g.startOf chunk.blockStart = chunk.blockStart)
    (hDevice : chunk.blockStart < g.numBlocks)
    (hNew : chunk.blockStart ∉ s.buffered.map Chunk.blockStart)
    (hData : ∀ a, K a → g.chunkOf a = chunk.blockStart → chunk.byte g a = s.medium a) :
    Coherent g K { s with buffered := chunk :: s.buffered } ∧
      ∀ a, K a → view g { s with buffered := chunk :: s.buffered } a = s.view g a := by
  refine ⟨⟨h.inside, ?_, ?_, ?_, ?_, h.idleClean⟩, ?_⟩
  · rintro c (_ | ⟨_, hc⟩)
    · exact hAligned
    · exact h.aligned c hc
  · rintro c (_ | ⟨_, hc⟩)
    · exact hDevice
    · exact h.onDevice c hc
  · rw [map_cons]
    exact nodup_cons.mpr ⟨hNew, h.distinct⟩
  · rintro c (_ | ⟨_, hc⟩) hClean a ha hStart
    · exact hData a ha hStart
    · exact h.clean c hc hClean a ha hStart
  intro a ha
  by_cases hStart : g.chunkOf a = chunk.blockStart
  · simp [view, lookup_cons_self hStart, hData a ha hStart, lookup_of_absent (hStart ▸ hNew)]
  · exact lookup_cons_of_ne hStart

/-- Fetching a chunk that is not buffered. If it lies in the discarded range, the
set must have no bytes of it. -/
theorem blockCache_spec (hWrite : drv.write = true) (h : Coherent g K s)
    (hBlock : block < g.numBlocks) (hNew : g.startOf block ∉ s.buffered.map Chunk.blockStart)
    (hFetch : s.discards g (g.startOf block) = true → ∀ a, K a → g.chunkOf a ≠ g.startOf block)
    {r : Except Errno Unit} (hCache : blockCache g drv block s = (r, s')) :
    Keeps g K s s' ∧ (r = .ok () → g.startOf block ∈ s'.buffered.map Chunk.blockStart) := by
  unfold blockCache at hCache
  rcases hGet : getChunk g drv s with ⟨_ | chunk, s₁⟩ <;> rw [hGet] at hCache
  · cases hCache
    exact ⟨(getChunk_spec hWrite h hGet).1 _ rfl, nofun⟩
  have hTaken := (getChunk_spec hWrite h hGet).2 chunk rfl
  have hDevice : g.startOf block < g.numBlocks := lt_of_le_of_lt (g.startOf_le block) hBlock
  have hNew₁ : g.startOf block ∉ s₁.buffered.map Chunk.blockStart := fun hMem =>
    hNew (hTaken.starts _ hMem)
  have hPut : ∀ source : Memory, ∀ calls : Nat, (∀ a, K a → g.chunkOf a = g.startOf block →
        source (a - g.startOf block * g.blockSize) = s₁.medium a) →
      Keeps g K s { s₁ with
        buffered := { chunk with
          blockStart := g.startOf block
          data := blit 0 (g.ioNblocks (g.startOf block) * g.blockSize) source chunk.data } ::
            s₁.buffered
        calls } := by
    intro source calls hSource
    have hIn := @Coherent.insert g K s₁ hTaken.coherent { chunk with
        blockStart := g.startOf block
        data := blit 0 (g.ioNblocks (g.startOf block) * g.blockSize) source chunk.data }
      (g.startOf_startOf block) hDevice hNew₁ (by
        intro a ha hStart
        have hRange :=
          (Geometry.chunkOf_eq_iff (g.startOf_startOf block)
            (hTaken.coherent.inside a ha)).mpr hStart
        rw [Chunk.byte]
        dsimp only
        rw [blit_of_mem _ _ (by omega)]
        exact hSource a ha hStart)
    refine ⟨{ hIn.1 with },
      fun a ha => (hIn.2 a ha).trans (hTaken.view a ha), ?_,
        hTaken.discardStart, hTaken.discardSize⟩
    exact hTaken.nums
  rw [Result.andThen_ok] at hCache
  dsimp only at hCache
  split_ifs at hCache with hDiscard
  · cases hCache
    refine ⟨hPut _ _ fun a ha hStart => absurd hStart ?_, fun _ => mem_map_of_mem (.head _)⟩
    refine hFetch ?_ a ha
    rw [← hDiscard, discards, discards, hTaken.discardStart, hTaken.discardSize]
  cases hFault : drv.fault s₁.calls with
  | some e =>
    rw [hFault] at hCache
    cases hCache
    refine ⟨{ hTaken with coherent := { hTaken.coherent with idleClean := ?_ }, nums := ?_ }, nofun⟩
    · exact forall_mem_append.mpr ⟨hTaken.coherent.idleClean, forall_mem_singleton.mpr hTaken.clean⟩
    · refine Perm.trans ?_ hTaken.nums
      grind [nums]
  | none =>
    rw [hFault] at hCache
    cases hCache
    refine ⟨hPut _ _ fun a ha hStart => ?_, fun _ => mem_map_of_mem (.head _)⟩
    have hRange :=
      (Geometry.chunkOf_eq_iff (g.startOf_startOf block) (hTaken.coherent.inside a ha)).mpr hStart
    congr 1
    omega

theorem chunkGetCached_some (h : Coherent g K s)
    (hGet : chunkGetCached g block s = (some chunk, s')) :
    Keeps g K s s' ∧ s'.buffered.head? = some chunk ∧ chunk.blockStart = g.startOf block ∧
    chunk ∈ s.buffered := by
  unfold chunkGetCached at hGet
  rcases hFind : s.buffered.find? (Chunk.holds g block) with _ | found
  · rw [hFind] at hGet
    cases hGet
  rw [hFind] at hGet
  cases hGet
  have hHolds := find?_some hFind
  have hMem := mem_of_find?_eq_some hFind
  have hPerm : s.buffered.Perm (chunk :: s.buffered.eraseP (Chunk.holds g block)) := by
    obtain ⟨-, front, back, hList, hNot⟩ := find?_eq_some_iff_append.mp hFind
    have hNot : ∀ c ∈ front, ¬Chunk.holds g block c := by simpa using hNot
    simp [hList, eraseP_append_right _ hNot, eraseP_cons_of_pos hHolds]
  refine ⟨⟨⟨h.inside, fun c hc => h.aligned c (hPerm.mem_iff.mpr hc),
    fun c hc => h.onDevice c (hPerm.mem_iff.mpr hc), (hPerm.map _).nodup_iff.mp h.distinct,
    fun c hc => h.clean c (hPerm.mem_iff.mpr hc), h.idleClean⟩,
    fun a _ => lookup_perm hPerm h.distinct a, ?_, rfl, rfl⟩, rfl,
    (Chunk.holds_iff (h.aligned chunk hMem)).mp hHolds, hMem⟩
  exact ((hPerm.symm.append_right s.idle).map Chunk.num)

theorem chunkGetCached_none (h : Coherent g K s) (hGet : chunkGetCached g block s = (none, s')) :
    s' = s ∧ g.startOf block ∉ s.buffered.map Chunk.blockStart := by
  unfold chunkGetCached at hGet
  cases hFind : s.buffered.find? (Chunk.holds g block) with
  | some found =>
    rw [hFind] at hGet
    cases hGet
  | none =>
    rw [hFind] at hGet
    cases hGet
    refine ⟨rfl, fun hMem => ?_⟩
    obtain ⟨chunk, hChunk, hStart⟩ := mem_map.mp hMem
    exact find?_eq_none.mp hFind chunk hChunk
      ((Chunk.holds_iff (h.aligned chunk hChunk)).mpr hStart)

/-- The chunk of a block stands in front after the lookup. -/
theorem blockGet_spec (hWrite : drv.write = true) (h : Coherent g K s)
    (hFetch : g.startOf block ∈ s.buffered.map Chunk.blockStart ∨
      (s.discards g (g.startOf block) = true → ∀ a, K a → g.chunkOf a ≠ g.startOf block))
        (hGet : blockGet g drv block s = (r, s')) :
    Keeps g K s s' ∧ ∀ chunk, r = .ok chunk →
      s'.buffered.head? = some chunk ∧ chunk.blockStart = g.startOf block ∧
      block < g.numBlocks := by
  unfold blockGet at hGet
  split_ifs at hGet with hBlock
  · cases hGet
    exact ⟨Keeps.refl h, nofun⟩
  have hBlock : block < g.numBlocks := Nat.lt_of_not_le hBlock
  rcases hHit : chunkGetCached g block s with ⟨_ | chunk, s₁⟩ <;> rw [hHit] at hGet
  · obtain ⟨rfl, hNew⟩ := chunkGetCached_none h hHit
    have hFetch := hFetch.resolve_left hNew
    rcases hCache : blockCache g drv block s₁ with ⟨_ | _, s₂⟩
    · simp only [hCache, Result.andThen_error] at hGet
      cases hGet
      exact ⟨(blockCache_spec hWrite h hBlock hNew hFetch hCache).1, nofun⟩
    simp only [hCache, Result.andThen_ok] at hGet
    obtain ⟨hKeeps, hMem⟩ := blockCache_spec hWrite h hBlock hNew hFetch hCache
    rcases hHit' : chunkGetCached g block s₂ with ⟨_ | chunk, s₃⟩ <;> rw [hHit'] at hGet
    · exact absurd (hMem rfl) (chunkGetCached_none hKeeps.coherent hHit').2
    cases hGet
    obtain ⟨hMoved, hHead, hStart, -⟩ := chunkGetCached_some hKeeps.coherent hHit'
    refine ⟨hKeeps.trans hMoved, fun chunk' hOk => ?_⟩
    cases hOk
    exact ⟨hHead, hStart, hBlock⟩
  · cases hGet
    obtain ⟨hMoved, hHead, hStart, -⟩ := chunkGetCached_some h hHit
    refine ⟨hMoved, fun chunk' hOk => ?_⟩
    cases hOk
    exact ⟨hHead, hStart, hBlock⟩

end Coherence
end Barebox.Block
