import Barebox.Fs.Ramfs

/-! The chunks of an inode as one array: they follow one another from 0 up to the allocated size,
and reading, writing and truncating work on their concatenation. -/
namespace Barebox.Fs
open Bytes List Nat

def RamfsChunk.Whole (c : RamfsChunk) : Prop :=
  c.size = c.data.length ∧ 0 < c.data.length ∧ c.data.length < 2147483648

def Tiled : Nat → Nat → List RamfsChunk → Prop
  | start, stop, [] => start = stop
  | start, stop, c :: rest => c.ofs = start ∧ c.Whole ∧ Tiled (start + c.data.length) stop rest

def stored (chunks : List RamfsChunk) : List UInt8 := chunks.flatMap (·.data)

structure RamfsInode.Valid (node : RamfsInode) : Prop where
  tiled : Tiled 0 node.allocSize node.data
  size_le : node.size ≤ node.allocSize
  bound : node.allocSize < 9223372036854784000
  current : ∀ i, node.currentChunk = some i → i < node.data.length

def RamfsInode.content (node : RamfsInode) : List UInt8 := (stored node.data).take node.size

@[simp] theorem stored_cons (c : RamfsChunk) (rest : List RamfsChunk) :
    stored (c :: rest) = c.data ++ stored rest := rfl

@[simp] theorem stored_append (front back : List RamfsChunk) :
    stored (front ++ back) = stored front ++ stored back :=
  flatMap_append

variable {c : RamfsChunk} {size : Nat} {rooms : List Nat}

theorem RamfsChunk.Whole.ulongSize_eq (h : c.Whole) : c.ulongSize = c.data.length := by
  obtain ⟨hSize, -, hSmall⟩ := h
  grind [ulongSize]

namespace Tiled
variable {start stop : Nat} {chunks : List RamfsChunk}

theorem length (h : Tiled start stop chunks) : start + (stored chunks).length = stop := by
  induction chunks generalizing start with
  | nil => exact h
  | cons c rest ih =>
    obtain ⟨-, -, hRest⟩ := h
    grind [stored_cons]

variable {front back : List RamfsChunk} {pos : Nat}

theorem append {mid : Nat} (hFront : Tiled start mid front) (hBack : Tiled mid stop back) :
    Tiled start stop (front ++ back) := by
  induction front generalizing start with
  | nil =>
    cases hFront
    exact hBack
  | cons c rest ih =>
    obtain ⟨hOfs, hWhole, hRest⟩ := hFront
    exact ⟨hOfs, hWhole, ih hRest⟩

theorem mem (h : Tiled start stop chunks) {c : RamfsChunk} (hMem : c ∈ chunks) :
    c.Whole ∧ start ≤ c.ofs ∧ c.ofs + c.data.length ≤ stop := by
  induction chunks generalizing start with
  | nil => cases hMem
  | cons d rest ih =>
    obtain ⟨hOfs, hWhole, hRest⟩ := h
    rcases mem_cons.mp hMem with rfl | hMem
    · have hLen := hRest.length
      exact ⟨hWhole, by omega, by omega⟩
    · obtain ⟨hC, hLow, hHigh⟩ := ih hRest hMem
      exact ⟨hC, by omega, hHigh⟩

theorem locate (h : Tiled start stop chunks) (hLow : start ≤ pos) (hHigh : pos < stop) :
    ∃ front c back, chunks = front ++ c :: back ∧ Tiled start c.ofs front ∧ c.Whole ∧
      Tiled (c.ofs + c.data.length) stop back ∧ c.ofs ≤ pos ∧ pos < c.ofs + c.data.length := by
  induction chunks generalizing start with
  | nil =>
    have hEq : start = stop := h
    omega
  | cons c rest ih =>
    obtain ⟨hOfs, hWhole, hRest⟩ := h
    by_cases hIn : pos < start + c.data.length
    · refine ⟨[], c, rest, rfl, hOfs.symm, hWhole, ?_, by omega, by omega⟩
      simp [hOfs, hRest]
    · obtain ⟨front, d, back, hEq, hFront, hD, hBack, hFrom, hTo⟩ := ih hRest (by omega)
      exact ⟨c :: front, d, back, congrArg (c :: ·) hEq, ⟨hOfs, hWhole, hFront⟩,
        hD, hBack, hFrom, hTo⟩

end Tiled

theorem findIdx?_append_cons {α : Type*} {p : α → Bool} {front : List α}
    {a : α} (hFront : ∀ x ∈ front, p x = false)
    (ha : p a = true) (back : List α) : (front ++ a :: back).findIdx? p = some front.length := by
  induction front with
  | nil => rw [nil_append, findIdx?_cons, ha]; rfl
  | cons x rest ih =>
    simp [findIdx?_cons, hFront x (.head _), ih fun y hy => hFront y (.tail _ hy)]

section Node
variable {node : RamfsInode} (hValid : node.Valid)
include hValid

theorem RamfsInode.Valid.length : (stored node.data).length = node.allocSize := by
  have hLen := hValid.tiled.length
  omega

omit hValid in
/-- The cached chunk does not lie behind a position the search starts there for. -/
theorem start_le {c : RamfsChunk} (hData : node.data = front ++ c :: back)
    (hBack : Tiled (c.ofs + c.data.length) node.allocSize back)
    (hTo : pos < c.ofs + c.data.length) :
    node.start pos ≤ front.length := by
  unfold RamfsInode.start
  split
  · exact zero_le _
  split
  · exact zero_le _
  rename_i i _ _ d hd
  split
  · rename_i hOfs
    by_contra hBehind
    rw [hData, getElem?_append_right (by omega)] at hd
    obtain ⟨j, hj⟩ := exists_eq_succ_of_ne_zero (by omega : i - front.length ≠ 0)
    rw [hj, getElem?_cons_succ] at hd
    obtain ⟨-, hLow, -⟩ := hBack.mem (mem_of_getElem? hd)
    omega
  · exact zero_le _

/-- The chunk found is the one that holds the position. -/
theorem ramfsFindChunk_spec (hPos : pos < node.allocSize) :
    ∃ front c back, node.data = front ++ c :: back ∧ Tiled 0 c.ofs front ∧ c.Whole ∧
      Tiled (c.ofs + c.data.length) node.allocSize back ∧ c.ofs ≤ pos ∧
      pos < c.ofs + c.data.length ∧
      ramfsFindChunk node pos = some front.length := by
  have hBound := hValid.bound
  obtain ⟨front, c, back, hData, hFront, hWhole, hBack, hFrom, hTo⟩ :=
    hValid.tiled.locate (zero_le pos) hPos
  have hEnd := hBack.length
  have hStart := start_le hData hBack hTo
  have hBefore : ∀ d ∈ front.drop (node.start pos), d.reaches pos = false := by
    intro d hd
    obtain ⟨hD, -, hHigh⟩ := hFront.mem (mem_of_mem_drop hd)
    grind [RamfsChunk.reaches, hD.ulongSize_eq]
  have hHere : c.reaches pos = true := by grind [RamfsChunk.reaches, hWhole.ulongSize_eq]
  refine ⟨front, c, back, hData, hFront, hWhole, hBack, hFrom, hTo, ?_⟩
  simp [ramfsFindChunk, hData, drop_append_of_le_length hStart, findIdx?_append_cons hBefore hHere,
    Nat.add_sub_cancel' hStart]

/-- One round of a read or write stays inside one chunk and makes progress. -/
theorem ramfsRound_spec {pos size : Nat} (hPos : pos < node.allocSize) (hSize : 0 < size) :
    ∃ front c back now, node.data = front ++ c :: back ∧ Tiled 0 c.ofs front ∧ c.Whole ∧
      Tiled (c.ofs + c.data.length) node.allocSize back ∧ c.ofs ≤ pos ∧
      pos - c.ofs + now ≤ c.data.length ∧ 0 < now ∧ now ≤ size ∧
      ramfsRound node size pos = .ok (front.length, pos - c.ofs, now) := by
  have hBound := hValid.bound
  obtain ⟨front, c, back, hData, hFront, hWhole, hBack, hFrom, hTo, hFind⟩ :=
    ramfsFindChunk_spec hValid hPos
  have hGet : node.data[front.length]? = some c := by simp [hData]
  have ⟨hSizeEq, _, hSmall⟩ := hWhole
  have hOfs : (pos + 18446744073709551616 - c.ofs) % 18446744073709551616 = pos - c.ofs := by omega
  refine ⟨front, c, back, min size (c.data.length - (pos - c.ofs)),
    hData, hFront, hWhole, hBack, hFrom,
    by omega, by omega, by omega, ?_⟩
  rw [ramfsRound, hFind]
  dsimp only
  rw [hGet]
  dsimp only
  rw [hOfs, toInt_of_lt (by omega), hSizeEq, if_pos (by omega)]
  congr 3
  omega

end Node

/-- Reading copies what the chunks hold. Only the cached chunk changes. -/
theorem ramfsReadLoop_ok {node : RamfsInode} (hValid : node.Valid)
    {pos size : Nat} (hIn : pos + size ≤ node.allocSize) :
    ∃ current, ramfsReadLoop node size pos =
    (.ok (slice pos size (stored node.data)), { node with currentChunk := current }) ∧
      { node with currentChunk := current }.Valid := by
  rw [ramfsReadLoop]
  by_cases hZero : size = 0
  · rw [if_pos (by omega), hZero]
    exact ⟨node.currentChunk, rfl, hValid⟩
  obtain ⟨front, c, back, now, hData, hFront, hWhole, -, hFrom, hFit, hNow, hLe, hRound⟩ :=
    @ramfsRound_spec node hValid pos size (by omega) (by omega)
  have hGet : node.data[front.length]? = some c := by simp [hData]
  have hNext : { node with currentChunk := some front.length }.Valid := by
    refine { hValid with current := fun i hi => ?_ }
    cases hi
    simp [hData]
  obtain ⟨current, hLoop, hKept⟩ :=
    @ramfsReadLoop_ok { node with currentChunk := some front.length } hNext
    (pos + now) (size - now) (by dsimp only; omega)
  refine ⟨current, ?_, hKept⟩
  have hSlice : slice (pos - c.ofs) now c.data = slice pos now (stored node.data) := by
    have hLen := hFront.length
    rw [zero_add] at hLen
    rw [hData, stored_append, stored_cons]
    conv_rhs => rw [show pos = (stored front).length + (pos - c.ofs) by omega]
    rw [slice_append_right, slice_append_left _ hFit]
  rw [if_neg (by omega)]
  split
  · rename_i hError
    rw [hRound] at hError
    cases hError
  rename_i i ofs n hOk
  rw [hRound] at hOk
  cases hOk
  rw [show ((size : Int) - (now : Int)) = ((size - now : Nat) : Int) by omega, hLoop]
  dsimp only
  rw [hGet, slice_split hLe, ← hSlice]
  rfl
termination_by size

theorem modify_append_cons {α : Type*} (f : α → α) (front : List α) (a : α) (back : List α) :
    (front ++ a :: back).modify front.length f = front ++ f a :: back := by
  induction front with
  | nil => rfl
  | cons x rest ih => rw [cons_append, length_cons, modify_succ_cons, ih, cons_append]

theorem RamfsInode.Valid.copy {node : RamfsInode} (h : node.Valid) {c : RamfsChunk}
    {bytes : List UInt8} (hData : node.data = front ++ c :: back) (hFront : Tiled 0 c.ofs front)
    (hWhole : c.Whole) (hBack : Tiled (c.ofs + c.data.length) node.allocSize back)
    (hFrom : c.ofs ≤ pos)
    (hFit : pos - c.ofs + bytes.length ≤ c.data.length) :
    (node.copy front.length (pos - c.ofs) bytes).Valid ∧
      stored (node.copy front.length (pos - c.ofs) bytes).data =
      overwrite pos bytes (stored node.data) := by
  have hCopy : (node.copy front.length (pos - c.ofs) bytes).data =
      front ++ { c with data := overwrite (pos - c.ofs) bytes c.data } :: back := by
    simp [RamfsInode.copy, hData, modify_append_cons]
  have hLen : (overwrite (pos - c.ofs) bytes c.data).length = c.data.length := overwrite_length hFit
  refine ⟨⟨?_, h.size_le, h.bound, fun i hi => ?_⟩, ?_⟩
  · rw [hCopy]
    refine hFront.append ⟨rfl, ?_, ?_⟩
    · grind [RamfsChunk.Whole]
    · rw [hLen]
      exact hBack
  · cases hi
    simp [hCopy]
  · have hStart := hFront.length
    rw [zero_add] at hStart
    have hMiddle := overwrite_middle hFit (stored front) (stored back)
    grind [stored_append, stored_cons]

/-- Inside the allocated size a write succeeds and overwrites just its bytes. -/
theorem ramfsWriteLoop_ok {node : RamfsInode} (hValid : node.Valid)
    {pos size : Nat} {buf : List UInt8}
    (hIn : pos + size ≤ node.allocSize) (hBuf : size ≤ buf.length) :
    ∃ node', ramfsWriteLoop node size pos buf = (.ok (), node') ∧
    node'.Valid ∧ node'.size = node.size ∧
      node'.allocSize = node.allocSize ∧ stored node'.data = overwrite pos (buf.take size)
      (stored node.data) := by
  have hLength := hValid.length
  rw [ramfsWriteLoop]
  by_cases hZero : size = 0
  · rw [if_pos (by omega), hZero]
    refine ⟨node, rfl, hValid, rfl, rfl, ?_⟩
    simp [overwrite]
  obtain ⟨front, c, back, now, hData, hFront, hWhole, hBack, hFrom, hFit, hNow, hLe, hRound⟩ :=
    @ramfsRound_spec node hValid pos size (by omega) (by omega)
  have hTake : (buf.take now).length = now := by
    simp
    omega
  obtain ⟨hNext, hStored⟩ := hValid.copy hData hFront hWhole hBack hFrom (hTake.symm ▸ hFit)
  obtain ⟨node', hLoop, hValid', hSize', hAlloc', hStored'⟩ :=
    @ramfsWriteLoop_ok (node.copy front.length (pos - c.ofs) (buf.take now)) hNext
      (pos + now) (size - now)
      (buf.drop now) (by dsimp only [RamfsInode.copy]; omega) (by rw [length_drop]; omega)
  refine ⟨node', ?_, hValid', hSize', hAlloc', ?_⟩
  · rw [if_neg (by omega)]
    split
    · rename_i hError
      rw [hRound] at hError
      cases hError
    rename_i i ofs n hOk
    rw [hRound] at hOk
    cases hOk
    grind
  · have hSplit : buf.take size = buf.take now ++ (buf.drop now).take (size - now) := by
      rw [← take_add, Nat.add_sub_cancel' hLe]
    have hAppend := @overwrite_append pos (stored node.data)
      (buf.take now) ((buf.drop now).take (size - now))
      (by rw [hTake, hLength]; omega)
    simp [hTake, hStored', hStored, hSplit, hAppend]
termination_by size

variable {start stop : Nat} {chunks : List RamfsChunk} (h : Tiled start stop chunks)
include h

theorem Tiled.sum : start + (chunks.map (·.ulongSize)).sum = stop := by
  induction chunks generalizing start with
  | nil => exact h
  | cons c rest ih =>
    obtain ⟨-, hWhole, hRest⟩ := h
    grind [hWhole.ulongSize_eq]

theorem Tiled.filter_lt (hSize : size ≤ stop) :
    ∃ mid, Tiled start mid (chunks.filter fun c => decide (c.ofs < size)) ∧ size ≤ mid ∧
      mid + ((chunks.filter fun c => decide (size ≤ c.ofs)).map (·.ulongSize)).sum = stop ∧
      stored (chunks.filter fun c => decide (c.ofs < size)) <+: stored chunks := by
  induction chunks generalizing start with
  | nil => exact ⟨start, rfl, hSize.trans (h : start = stop).ge, h, List.prefix_rfl⟩
  | cons c rest ih =>
    have ⟨hOfs, hWhole, hRest⟩ := h
    by_cases hKeep : c.ofs < size
    · obtain ⟨mid, hTiled, hMid, hSum, hPrefix⟩ := ih hRest
      rw [filter_cons_of_pos (by exact decide_eq_true hKeep),
        filter_cons_of_neg (by rw [decide_eq_true_eq]; omega)]
      refine ⟨mid, ⟨hOfs, hWhole, hTiled⟩, hMid, hSum, ?_⟩
      grind [stored_cons, List.prefix_append_right_inj]
    -- every further chunk lies behind, too
    have hBehind : ∀ d ∈ c :: rest, size ≤ d.ofs := by
      intro d hd
      obtain ⟨-, hLow, -⟩ := h.mem hd
      omega
    have hNone : (c :: rest).filter (fun d => decide (d.ofs < size)) = [] := by
      refine filter_eq_nil_iff.mpr fun d hd => ?_
      have hLe := hBehind d hd
      simp
      omega
    have hAll : (c :: rest).filter (fun d => decide (size ≤ d.ofs)) = c :: rest :=
      filter_eq_self.mpr fun d hd => decide_eq_true (hBehind d hd)
    rw [hNone, hAll]
    exact ⟨start, rfl, by omega, h.sum, nil_prefix⟩

omit h

theorem ramfsTruncateDown_ok {node : RamfsInode} (hValid : node.Valid)
    (hSize : size ≤ node.allocSize) :
    { ramfsTruncateDown node size with size := size }.Valid ∧
      { ramfsTruncateDown node size with size := size }.content = (stored node.data).take size := by
  have hBound := hValid.bound
  obtain ⟨mid, hTiled, hMid, hSum, hPrefix⟩ := hValid.tiled.filter_lt hSize
  have hAlloc : (ramfsTruncateDown node size).allocSize = mid := by
    dsimp only [ramfsTruncateDown]
    generalize ((node.data.filter fun c => decide (size ≤ c.ofs)).map (·.ulongSize)).sum =
      freed at hSum ⊢
    omega
  refine ⟨⟨?_, ?_, ?_, fun _ hNo => by cases hNo⟩, ?_⟩
  · dsimp only
    rw [hAlloc]
    exact hTiled
  · simp [hAlloc, hMid]
  · simp
    omega
  have hLen := hTiled.length
  obtain ⟨rest, hRest⟩ := hPrefix
  rw [zero_add] at hLen
  rw [← hRest, take_append_of_le_length (hMid.trans hLen.ge)]
  rfl

/-- The allocator does not give 2 GiB or more in one piece, or that much is not asked for. -/
def SmallPieces (rooms : List Nat) (add : Nat) : Prop :=
  add < 2147483648 ∨ ∀ room ∈ rooms, room < 2147483648

theorem ramfsGetChunk_ok {room ofs : Nat} (h : ramfsGetChunk room size ofs = some c)
    (hSmall : size < 2147483648 ∨ room < 2147483648) (hOfs : ofs < 18446744073709551616) :
    c.ofs = ofs ∧ c.Whole ∧ c.data = zeros (max size 8192) := by
  unfold ramfsGetChunk at h
  split at h
  · cases h
  cases h
  refine ⟨mod_eq_of_lt hOfs, ⟨?_, ?_, ?_⟩, rfl⟩
  · rw [toInt_of_lt (by omega), zeros_length]
  · simp
  · rw [zeros_length]
    omega

/-- The new chunks follow one another, hold zeros and are at most one smallest chunk too large. -/
theorem growLoop_ok {base : Nat} {chunksize add allocSize total : Nat} {chunks : List RamfsChunk}
    (h : growLoop base rooms chunksize add allocSize = some (chunks, total))
    (hSmall : SmallPieces rooms add)
    (hAdd : 0 < add) (hBound : base + allocSize + add < 2 ^ 63) :
    Tiled (base + allocSize) (base + total) chunks ∧ allocSize + add ≤ total ∧
    total < allocSize + add + 8192 ∧
      stored chunks = zeros (total - allocSize) := by
  induction rooms generalizing chunksize add allocSize chunks total with
  | nil => cases h
  | cons room rooms ih =>
    have hTail (n : Nat) (hn : n ≤ add) : SmallPieces rooms n :=
      hSmall.imp (by omega) fun hRooms r hr => hRooms r (.tail _ hr)
    rw [growLoop] at h
    cases hGet : ramfsGetChunk room (min chunksize add) (base + allocSize) with
    | none =>
      rw [hGet] at h
      dsimp only at h
      split at h
      · cases h
      · exact ih h (hTail add le_rfl) hAdd hBound
    | some c =>
      obtain ⟨hOfs, hWhole, hData⟩ := ramfsGetChunk_ok hGet
        (hSmall.imp (by omega) fun hRooms => hRooms room (.head _)) (by omega)
      have hLen : c.data.length = max (min chunksize add) 8192 := by rw [hData, zeros_length]
      rw [hGet] at h
      dsimp only at h
      rw [hWhole.ulongSize_eq, mod_eq_of_lt (by omega)] at h
      by_cases hLast : add ≤ c.data.length
      · rw [if_pos hLast] at h
        cases h
        refine ⟨⟨hOfs, hWhole, add_assoc _ _ _⟩, by omega, by omega, ?_⟩
        rw [stored_cons, hData, zeros_length, Nat.add_sub_cancel_left]
        exact append_nil _
      · rw [if_neg hLast] at h
        obtain ⟨⟨more, total'⟩, hMore, hEq⟩ := Option.map_eq_some_iff.mp h
        cases hEq
        obtain ⟨hTiled, hLow, hHigh, hZeros⟩ :=
          ih hMore (hTail _ (sub_le _ _)) (by omega) (by omega)
        rw [← add_assoc] at hTiled
        refine ⟨⟨hOfs, hWhole, hTiled⟩, by omega, by omega, ?_⟩
        have hSum : total' - allocSize = max (min chunksize add) 8192 +
            (total' - (allocSize + c.data.length)) := by
          omega
        rw [stored_cons, hZeros, hSum, zeros_add, hData]

theorem ramfsTruncateUp_ok {node node' : RamfsInode} (hValid : node.Valid)
    (h : ramfsTruncateUp rooms node size = .ok node')
    (hSmall : SmallPieces rooms (size - node.allocSize))
    (hSize : size < 2 ^ 63) :
    { node' with size := size }.Valid ∧ ∃ n, stored node'.data = stored node.data ++ zeros n := by
  unfold ramfsTruncateUp at h
  split at h
  · rename_i hEnough
    cases h
    exact ⟨{ hValid with size_le := hEnough }, 0, (append_nil _).symm⟩
  rename_i hMore
  split at h
  · cases h
  rename_i chunks total hLoop
  cases h
  obtain ⟨hTiled, hLow, hHigh, hZeros⟩ := growLoop_ok hLoop hSmall (by omega) (by omega)
  rw [Nat.sub_zero] at hZeros
  refine ⟨⟨?_, ?_, ?_, fun i hi => ?_⟩, total, ?_⟩
  · grind [hValid.tiled.append]
  · dsimp only
    omega
  · dsimp only
    omega
  · have hOld := hValid.current i hi
    simp
    omega
  · simp [hZeros]

theorem ramfsTruncateUp_error {node : RamfsInode} {e : Errno}
    (h : ramfsTruncateUp rooms node size = .error e) : e = .enospc := by
  unfold ramfsTruncateUp at h
  split at h
  · cases h
  split at h
  · cases h
    rfl
  · cases h

end Barebox.Fs
