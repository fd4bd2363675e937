import Barebox.Fs.RamfsChunks

/-! Calls on a ramfs file through the file layer, and the byte array they work on. -/
namespace Barebox.Fs
open Bytes List

/-- A call on an open file. A call that may allocate is told how much memory there is in one
piece at each attempt. -/
inductive RamfsCall where
  | read (count : Nat)
  | pread (count offset : Nat)
  | write (data : List UInt8) (rooms : List Nat)
  | pwrite (data : List UInt8) (offset : Nat) (rooms : List Nat)
  | lseek (offset : Int) (whence : Whence)
  | ftruncate (length : Nat) (rooms : List Nat)

inductive Reply where
  | bytes (bytes : List UInt8)
  | count (n : Int)
  | done
  | failed (e : Failure)

def replyBytes : Except Failure (List UInt8) → Reply
  | .ok bytes => .bytes bytes
  | .error e => .failed e

def replyCount : Except Failure Int → Reply
  | .ok n => .count n
  | .error e => .failed e

variable (f : File RamfsInode)

/-- One call. ramfs has no `lseek` of its own. -/
def RamfsCall.step : RamfsCall → Reply × File RamfsInode
  | .read count =>
    let (r, f') := Fs.read ramfsRead f count
    (replyBytes r, f')
  | .pread count offset =>
    let (r, f') := Fs.pread ramfsRead f count offset
    (replyBytes r, f')
  | .write data rooms =>
    let (r, f') := Fs.write (ramfsTruncate rooms) ramfsWrite f data
    (replyCount r, f')
  | .pwrite data offset rooms =>
    let (r, f') := Fs.pwrite (ramfsTruncate rooms) ramfsWrite f data offset
    (replyCount r, f')
  | .lseek offset whence =>
    match Fs.lseek (fun node _ => .ok node) f offset whence with
    | (.ok pos, f') => (.count pos, f')
    | (.error e, f') => (.failed (.errno e), f')
  | .ftruncate length rooms =>
    match Fs.ftruncate (ramfsTruncate rooms) f length with
    | (.ok _, f') => (.done, f')
    | (.error e, f') => (.failed (.errno e), f')

def ramfsNew : File RamfsInode := ⟨0, 0, ⟨0, 0, [], none⟩⟩

structure ByteFile where
  content : List UInt8
  pos : Nat

/-- Bytes stored at a position; an array that is too short is filled up with zeros. -/
def writeBytes (content : List UInt8) (pos : Nat) (data : List UInt8) : List UInt8 :=
  overwrite pos data (content ++ zeros (pos + data.length - content.length))

def resize (content : List UInt8) (length : Nat) : List UInt8 :=
  (content ++ zeros (length - content.length)).take length

/-- How many bytes a write may store: all, or those up to the end. -/
def Stores (a : ByteFile) (pos : Nat) (data : List UInt8) (n : Nat) : Prop :=
  n ≤ data.length ∧ (n = data.length ∨ pos + n = a.content.length)

def RamfsCall.IsRead : RamfsCall → Prop
  | .read _ | .pread _ _ => True
  | _ => False

/-- What calls do to a byte array. Only reads never fail, and a call that fails changes nothing. -/
inductive ByteFile.Step (a : ByteFile) : RamfsCall → Reply → ByteFile → Prop where
  | read (count : Nat) :
      Step a (.read count) (.bytes (slice a.pos count a.content))
        ⟨a.content, a.pos + min count (a.content.length - a.pos)⟩
  | pread (count offset : Nat) : Step a (.pread count offset)
      (.bytes (slice offset count a.content)) a
  | write {data : List UInt8} (rooms : List Nat) {n : Nat} (h : Stores a a.pos data n) :
      Step a (.write data rooms) (.count n) ⟨writeBytes a.content a.pos (data.take n), a.pos + n⟩
  | pwrite {data : List UInt8} {offset : Nat} (rooms : List Nat) {n : Nat}
      (h : Stores a offset data n) :
      Step a (.pwrite data offset rooms) (.count n)
        ⟨writeBytes a.content offset (data.take n), a.pos⟩
  | lseek {offset : Int} {whence : Whence} {pos : Nat}
      (h : (⟨a.pos, a.content.length, ()⟩ : File Unit).target offset whence = pos) :
      Step a (.lseek offset whence) (.count pos) ⟨a.content, pos⟩
  | ftruncate (length : Nat) (rooms : List Nat) : Step a (.ftruncate length rooms) .done
      ⟨resize a.content length, a.pos⟩
  | failed {call : RamfsCall} (h : ¬call.IsRead) (e : Errno) : Step a call (.failed (.errno e)) a

def byteFile : ByteFile := ⟨f.node.content, f.pos⟩

def RamfsCall.Refines (call : RamfsCall) : Prop :=
  (byteFile f).Step call (call.step f).1 (byteFile (call.step f).2) ∧
    Tiled 0 (call.step f).2.node.allocSize (call.step f).2.node.data ∧
    (call.step f).2.node.size ≤ (call.step f).2.node.allocSize

def RunRefines : File RamfsInode → List RamfsCall → Prop
  | _, [] => True
  | f, call :: rest => call.Refines f ∧ RunRefines (call.step f).2 rest

def Clean (upto : Nat) : Prop := ∀ b ∈ slice f.size (upto - f.size) (stored f.node.data), b = 0

/-- There is memory for a size: the allocations of `ramfs_truncate_up` get it. -/
def Grows (rooms : List Nat) (f : File RamfsInode) (size : Nat) : Prop :=
  ∃ node, ramfsTruncateUp rooms f.node size = .ok node

/-- A write that makes the file larger leaves no gap with old bytes, and one that starts behind
the end gets its memory. -/
def WriteAllowed (pos len : Nat) (rooms : List Nat) : Prop :=
  f.size < pos + len → SmallPieces rooms (pos + len - f.node.allocSize) ∧ Clean f pos ∧
    (pos ≤ f.size ∨ Grows rooms f (pos + len))

def RamfsCall.Allowed : RamfsCall → Prop
  | .read _ => f.pos ≤ f.size
  | .pread _ offset => offset ≤ f.size
  | .write data rooms => WriteAllowed f f.pos data.length rooms
  | .pwrite data offset rooms => WriteAllowed f offset data.length rooms
  | .lseek _ _ => True
  | .ftruncate length rooms =>
    f.size < length → SmallPieces rooms (length - f.node.allocSize) ∧ Clean f length

/-- The range of the arguments: counts below 2 GiB, positions that are a `loff_t`. -/
def RamfsCall.InRange : RamfsCall → Prop
  | .read count => count < 2147483648
  | .pread count _ => count < 2147483648
  | .write data _ => data.length < 2147483648 ∧ f.pos + data.length < 9223372036854775808
  | .pwrite data offset _ => data.length < 2147483648 ∧ offset + data.length < 9223372036854775808
  | .lseek _ _ => True
  | .ftruncate length _ => length < 9223372036854775808

def RunAllowed : File RamfsInode → List RamfsCall → Prop
  | _, [] => True
  | f, call :: rest => call.InRange f ∧ call.Allowed f ∧ RunAllowed (call.step f).2 rest

structure RamfsFile (f : File RamfsInode) : Prop where
  valid : f.node.Valid
  size_eq : f.node.size = f.size

/-- What is shown of a call: the file stays valid, and a byte array takes the same step. -/
def RamfsCall.Good (call : RamfsCall) : Prop :=
  RamfsFile (call.step f).2 ∧ (byteFile f).Step call (call.step f).1 (byteFile (call.step f).2)

variable {pos n m : Nat} {data bytes content : List UInt8} {calls : List RamfsCall}

theorem overwrite_take (h : pos + data.length ≤ n) (hn : n ≤ bytes.length) :
    (overwrite pos data bytes).take n = overwrite pos data (bytes.take n) := by
  have hLen : (bytes.take n).length = n := length_take_of_le hn
  have hMiddle := overwrite_middle (hLen.symm ▸ h) [] (bytes.drop n)
  rw [length_nil, Nat.zero_add, nil_append, nil_append, take_append_drop] at hMiddle
  rw [hMiddle]
  exact take_left' ((overwrite_length (hLen.symm ▸ h)).trans hLen)

theorem take_of_clean (hn : n ≤ m) (hm : m ≤ bytes.length)
    (hClean : ∀ b ∈ slice n (m - n) bytes, b = 0) :
    bytes.take m = bytes.take n ++ zeros (m - n) := by
  have hZeros := (eq_zeros_iff _).mpr hClean
  rw [slice_length_of_le (by omega)] at hZeros
  rw [← hZeros, slice, ← take_add, Nat.add_sub_cancel' hn]

theorem clean_append {k : Nat} (hn : n ≤ bytes.length) (hClean : ∀ b ∈ slice n m bytes, b = 0) :
    ∀ b ∈ slice n m (bytes ++ zeros k), b = 0 := by
  intro b hb
  rw [slice, drop_append_of_le_length hn, take_append] at hb
  rcases mem_append.mp hb with hOld | hNew
  · exact hClean b hOld
  · exact eq_of_mem_replicate (mem_of_mem_take hNew)

theorem writeBytes_inside (h : pos + data.length ≤ content.length) :
    writeBytes content pos data = overwrite pos data content := by
  simp [writeBytes, Nat.sub_eq_zero_of_le h, zeros]

theorem writeBytes_growing (h : content.length ≤ pos + data.length) :
    writeBytes content pos data =
    (content ++ zeros (pos + data.length - content.length)).take pos ++ data := by
  have hLen : (content ++ zeros (pos + data.length - content.length)).length =
      pos + data.length := by
    rw [length_append, zeros_length]
    omega
  simp [writeBytes, overwrite, drop_eq_nil_of_le hLen.le]

section Calls
variable {f : File RamfsInode} (hFile : RamfsFile f)
include hFile

theorem RamfsFile.size_le : f.size ≤ f.node.allocSize := hFile.size_eq ▸ hFile.valid.size_le

theorem RamfsFile.content_eq : f.node.content = (stored f.node.data).take f.size := by
  rw [RamfsInode.content, hFile.size_eq]

theorem RamfsFile.content_length : f.node.content.length = f.size := by
  rw [hFile.content_eq, length_take_of_le (hFile.valid.length ▸ hFile.size_le)]

variable {count pos n length offset : Nat} {node : RamfsInode}
    {data : List UInt8} {rooms : List Nat}

theorem ramfs_readAt (hPos : f.pos ≤ f.size) (hCount : count < 2147483648) :
    ∃ current, readAt ramfsRead f count =
        (.ok (slice f.pos count f.node.content),
          { f with node := { f.node with currentChunk := current } }) ∧
      { f.node with currentChunk := current }.Valid := by
  have hBound := hFile.valid.bound
  have hLe := hFile.size_le
  have hClamp : f.clampCount count = min count (f.size - f.pos) := by
    unfold File.clampCount
    split <;> omega
  have hSlice : slice f.pos count f.node.content =
      slice f.pos (f.clampCount count) (stored f.node.data) := by
    rw [hFile.content_eq, hClamp, slice, slice, drop_take, take_take]
  have hLength : (slice f.pos count f.node.content).length < 2147483648 := by
    rw [slice_length]
    omega
  rw [readAt]
  dsimp only
  by_cases hZero : f.clampCount count = 0
  · rw [if_pos hZero, hSlice, hZero]
    exact ⟨f.node.currentChunk, by rw [slice, take_zero], hFile.valid⟩
  obtain ⟨current, hLoop, hValid⟩ :=
    @ramfsReadLoop_ok f.node hFile.valid f.pos (f.clampCount count) (by omega)
  refine ⟨current, ?_, hValid⟩
  rw [if_neg hZero, ramfsRead, toInt_of_lt (by omega), hLoop, ← hSlice]
  dsimp only
  rw [show (Except.ok (slice f.pos count f.node.content) : Except Failure _).bind returned =
    returned (slice f.pos count f.node.content) from rfl, returned_of_lt hLength]

omit hFile in
theorem ramfsWrite_ok (hValid : node.Valid)
    (hIn : pos + n ≤ node.allocSize) (hData : n ≤ data.length) (hn : n < 2147483648) :
    ∃ node', ramfsWrite node pos data n = (.ok n, node') ∧ node'.Valid ∧ node'.size = node.size ∧
      stored node'.data = overwrite pos (data.take n) (stored node.data) := by
  obtain ⟨node', hLoop, hValid', hSize, -, hStored⟩ := ramfsWriteLoop_ok hValid hIn hData
  refine ⟨node', ?_, hValid', hSize, hStored⟩
  rw [ramfsWrite, toInt_of_lt hn, hLoop]
  rfl

theorem ramfsWrite_inside {pos n : Nat} {data : List UInt8} (hIn : pos + n ≤ f.size)
    (hData : n ≤ data.length)
    (hn : n < 2147483648) :
    ∃ node', ramfsWrite f.node pos data n = (.ok n, node') ∧ RamfsFile { f with node := node' } ∧
      node'.content = writeBytes f.node.content pos (data.take n) := by
  have hLe := hFile.size_le
  have hTake : (data.take n).length = n := length_take_of_le hData
  obtain ⟨node', hWrite, hValid, hSize, hStored⟩ :=
    ramfsWrite_ok hFile.valid (by omega : pos + n ≤ _) hData hn
  refine ⟨node', hWrite, ⟨hValid, hSize.trans hFile.size_eq⟩, ?_⟩
  rw [writeBytes_inside (by rw [hTake, hFile.content_length]; exact hIn),
    RamfsInode.content, hSize, hFile.size_eq,
    hStored, hFile.content_eq, overwrite_take (by rw [hTake]; exact hIn) (hFile.valid.length ▸ hLe)]

theorem grown_take {upto stop : Nat} (hClean : Clean f upto)
    (hStop : stop ≤ f.node.allocSize + n) (hUpto : upto ≤ stop)
    (hGrow : f.size ≤ stop) : (stored f.node.data ++ zeros n).take upto =
      (f.node.content ++ zeros (stop - f.size)).take upto := by
  have hLe := hFile.size_le
  have hLength := hFile.valid.length
  rw [hFile.content_eq]
  rcases Nat.le_total upto f.size with hBefore | hBehind
  · have hTake : ((stored f.node.data).take f.size).length = f.size := length_take_of_le (by omega)
    grind
  have hTotal : upto ≤ (stored f.node.data ++ zeros n).length := by
    simp
    omega
  have hTake : ((stored f.node.data).take f.size).length = f.size := length_take_of_le (by omega)
  rw [take_of_clean hBehind hTotal (clean_append (by omega) hClean),
    take_append_of_le_length (by omega),
    take_append, hTake, take_take, Nat.min_eq_right hBehind]
  grind [zeros]

theorem ramfsWrite_growing (hUp : ramfsTruncateUp rooms f.node (pos + data.length) = .ok node)
    (hGrow : f.size < pos + data.length)
    (hSmall : SmallPieces rooms (pos + data.length - f.node.allocSize))
    (hClean : Clean f pos) (hRange : pos + data.length < 2 ^ 63) (hLen : data.length < 2147483648) :
    ∃ node', ramfsWrite { node with size := pos + data.length } pos data data.length =
    (.ok data.length, node') ∧
      RamfsFile { f with node := node', size := pos + data.length } ∧
      node'.content = writeBytes f.node.content pos data := by
  obtain ⟨hValid, n, hZeros⟩ := ramfsTruncateUp_ok hFile.valid hUp hSmall hRange
  have hRoom := hValid.size_le
  have hStored := hValid.length
  have hLength := hFile.valid.length
  dsimp only at hRoom hStored
  have hTotal : node.allocSize = f.node.allocSize + n := by grind [zeros_length]
  obtain ⟨node', hWrite, hValid', hSize, hStored'⟩ := ramfsWrite_ok hValid hRoom le_rfl hLen
  refine ⟨node', hWrite, ⟨hValid', hSize⟩, ?_⟩
  have hBefore : ((stored f.node.data ++ zeros n).take pos).length = pos := by
    simp
    omega
  have hGap := grown_take hFile hClean (by omega : pos + data.length ≤ f.node.allocSize + n)
    (by omega) (by omega)
  rw [writeBytes_growing (by rw [hFile.content_length]; omega),
    hFile.content_length, ← hGap, RamfsInode.content, hSize,
    hStored', take_length, hZeros, overwrite, ← append_assoc]
  exact take_left' (by rw [length_append, hBefore])

/-- `__write`: the bytes are stored, or nothing changes. -/
theorem ramfs_writeAt (hAllowed : WriteAllowed f f.pos data.length rooms)
    (hLen : data.length < 2147483648) (hRange : f.pos + data.length < 2 ^ 63) :
    ∃ r f', writeAt (ramfsTruncate rooms) ramfsWrite f data = (r, f') ∧
    RamfsFile f' ∧ f'.pos = f.pos ∧
      ((∃ n : Nat, r = .ok n ∧ Stores (byteFile f) f.pos data n ∧
          f'.node.content = writeBytes f.node.content f.pos (data.take n)) ∨
        ∃ e, r = .error (.errno e) ∧ f' = f) := by
  have hLength := hFile.content_length
  have hRange' : f.pos + data.length < 2 ^ 64 := by omega
  by_cases hGrow : f.size < f.pos + data.length
  · obtain ⟨hSmall, hClean, hMemory⟩ := hAllowed hGrow
    have hTruncate : ramfsTruncate rooms f.node (f.pos + data.length) =
        (ramfsTruncateUp rooms f.node (f.pos + data.length)).map fun node =>
          { node with size := f.pos + data.length } := by
      have hSize := hFile.size_eq
      grind [ramfsTruncate]
    cases hUp : ramfsTruncateUp rooms f.node (f.pos + data.length) with
    | ok node =>
      rw [hUp] at hTruncate
      obtain ⟨node', hWrite, hFile', hContent⟩ :=
        ramfsWrite_growing hFile hUp hGrow hSmall hClean hRange hLen
      refine ⟨_, _, writeAt_growing hRange' hGrow hTruncate hWrite,
        hFile', rfl, .inl ⟨data.length, rfl,
        ⟨le_rfl, .inl rfl⟩, ?_⟩⟩
      simp [hContent]
    | error e =>
      obtain rfl := ramfsTruncateUp_error hUp
      rw [hUp] at hTruncate
      have hPos : f.pos ≤ f.size := by
        refine hMemory.resolve_right ?_
        rintro ⟨node, hOk⟩
        rw [hUp] at hOk
        cases hOk
      rcases Nat.eq_or_lt_of_le hPos with hEnd | hBefore
      · exact ⟨_, f, writeAt_full hRange' hGrow hTruncate hEnd,
          hFile, rfl, .inr ⟨.enospc, rfl, rfl⟩⟩
      obtain ⟨node', hWrite, hFile', hContent⟩ :=
        @ramfsWrite_inside f hFile f.pos (f.size - f.pos) data (by omega) (by omega) (by omega)
      refine ⟨_, _, writeAt_short hRange' hGrow hTruncate hBefore hWrite, hFile', rfl,
        .inl ⟨f.size - f.pos, rfl, ⟨by omega, .inr ?_⟩, hContent⟩⟩
      dsimp only [byteFile]
      omega
  · obtain ⟨node', hWrite, hFile', hContent⟩ :=
      @ramfsWrite_inside f hFile f.pos data.length data (by omega) le_rfl hLen
    exact ⟨_, _, writeAt_inside hRange' (by omega) hWrite, hFile', rfl,
      .inl ⟨data.length, rfl, ⟨le_rfl, .inl rfl⟩, hContent⟩⟩

/-- `ftruncate`: the content is cut or filled up, or nothing changes. -/
theorem ramfs_ftruncate
    (hAllowed : f.size < length → SmallPieces rooms (length - f.node.allocSize) ∧ Clean f length)
    (hRange : length < 2 ^ 63) :
    (∃ node, ftruncate (ramfsTruncate rooms) f length = (.ok (),
      { f with node := node, size := length }) ∧
        RamfsFile { f with node := node, size := length } ∧
        node.content = resize f.node.content length) ∨
      ∃ e, ftruncate (ramfsTruncate rooms) f length = (.error e, f) := by
  have hLe := hFile.size_le
  have hSize := hFile.size_eq
  have hLength := hFile.content_length
  rw [ftruncate, ramfsTruncate]
  rcases Nat.lt_trichotomy length f.size with hDown | rfl | hGrow
  · obtain ⟨hValid, hContent⟩ := ramfsTruncateDown_ok hFile.valid (by omega : length ≤ _)
    rw [if_neg (by omega), if_pos (by omega)]
    refine .inl ⟨_, rfl, ⟨hValid, rfl⟩, hContent.trans ?_⟩
    grind [resize, hFile.content_eq]
  · rw [if_pos hSize.symm]
    refine .inl ⟨f.node, rfl, hFile, ?_⟩
    rw [resize, take_append_of_le_length hLength.ge, take_of_length_le hLength.le]
  obtain ⟨hSmall, hClean⟩ := hAllowed hGrow
  rw [if_neg (by omega), if_neg (by omega)]
  rcases hUp : ramfsTruncateUp rooms f.node length with e | node
  · exact .inr ⟨e, rfl⟩
  obtain ⟨hValid, n, hZeros⟩ := ramfsTruncateUp_ok hFile.valid hUp hSmall hRange
  have hRoom := hValid.size_le
  have hStored := hValid.length
  dsimp only at hRoom hStored
  have hTotal : node.allocSize = f.node.allocSize + n := by
    rw [← hStored, hZeros, length_append, hFile.valid.length, zeros_length]
  refine .inl ⟨_, rfl, ⟨hValid, rfl⟩, ?_⟩
  rw [RamfsInode.content, hZeros, grown_take hFile hClean (by omega : length ≤ f.node.allocSize + n)
    le_rfl hGrow.le, resize, hLength]

theorem RamfsFile.seek (pos : Nat) : RamfsFile { f with pos := pos } := ⟨hFile.valid, hFile.size_eq⟩

theorem read_good (hRange : (RamfsCall.read count).InRange f)
    (hAllowed : (RamfsCall.read count).Allowed f) :
    (RamfsCall.read count).Good f := by
  obtain ⟨current, hRead, hValid⟩ := ramfs_readAt hFile hAllowed hRange
  have hStep : (RamfsCall.read count).step f = (.bytes (slice f.pos count f.node.content),
      { f with node := { f.node with currentChunk := current },
               pos := f.pos + (slice f.pos count f.node.content).length }) := by
    rw [RamfsCall.step, read_ok hRead]
    rfl
  rw [RamfsCall.Good, hStep, slice_length]
  exact ⟨⟨hValid, hFile.size_eq⟩, .read count⟩

theorem pread_good (hRange : (RamfsCall.pread count offset).InRange f)
    (hAllowed : (RamfsCall.pread count offset).Allowed f) :
    (RamfsCall.pread count offset).Good f := by
  obtain ⟨current, hRead, hValid⟩ := ramfs_readAt (hFile.seek offset) hAllowed hRange
  have hStep : (RamfsCall.pread count offset).step f = (.bytes (slice offset count f.node.content),
      { f with node := { f.node with currentChunk := current } }) := by
    rw [RamfsCall.step, pread_eq hRead]
    rfl
  rw [RamfsCall.Good, hStep]
  exact ⟨⟨hValid, hFile.size_eq⟩, .pread count offset⟩

theorem write_good (hRange : (RamfsCall.write data rooms).InRange f)
    (hAllowed : (RamfsCall.write data rooms).Allowed f) : (RamfsCall.write data rooms).Good f := by
  obtain ⟨r, f', hWrite, hFile', hPos, ⟨n, rfl, hStores, hContent⟩ | ⟨e, rfl, rfl⟩⟩ :=
    ramfs_writeAt hFile hAllowed hRange.1 hRange.2
  · have hStep : (RamfsCall.write data rooms).step f =
        (.count n, { f' with pos := f.pos + n }) := by
      rw [RamfsCall.step, write_ok hWrite, hPos, Int.toNat_natCast]
      rfl
    rw [RamfsCall.Good, hStep, byteFile, byteFile, hContent]
    exact ⟨hFile'.seek _, .write rooms hStores⟩
  · have hStep : (RamfsCall.write data rooms).step f' = (.failed (.errno e), f') := by
      rw [RamfsCall.step, write_error hWrite]
      rfl
    rw [RamfsCall.Good, hStep]
    exact ⟨hFile', .failed id e⟩

theorem pwrite_good (hRange : (RamfsCall.pwrite data offset rooms).InRange f)
    (hAllowed : (RamfsCall.pwrite data offset rooms).Allowed f) :
    (RamfsCall.pwrite data offset rooms).Good f := by
  obtain ⟨r, f', hWrite, hFile', hPos, ⟨n, rfl, hStores, hContent⟩ | ⟨e, rfl, rfl⟩⟩ :=
    ramfs_writeAt (hFile.seek offset) hAllowed hRange.1 hRange.2
  · have hStep : (RamfsCall.pwrite data offset rooms).step f =
        (.count n, { f' with pos := f.pos }) := by
      rw [RamfsCall.step, pwrite, hWrite]
      rfl
    rw [RamfsCall.Good, hStep, byteFile, byteFile, hContent]
    exact ⟨hFile'.seek _, .pwrite rooms hStores⟩
  · have hStep : (RamfsCall.pwrite data offset rooms).step f = (.failed (.errno e), f) := by
      rw [RamfsCall.step, pwrite, hWrite]
      rfl
    rw [RamfsCall.Good, hStep]
    exact ⟨hFile, .failed id e⟩

theorem lseek_good (offset : Int) (whence : Whence) : (RamfsCall.lseek offset whence).Good f := by
  have hTarget : (⟨(byteFile f).pos, (byteFile f).content.length,
      ()⟩ : File Unit).target offset whence =
      f.target offset whence := by
    rw [byteFile, hFile.content_length]
    cases whence <;> rfl
  by_cases hOut : f.target offset whence < 0 ∨ (f.size : Int) < f.target offset whence
  · have hStep : (RamfsCall.lseek offset whence).step f = (.failed (.errno .einval), f) := by
      rw [RamfsCall.step, lseek_outside hOut]
    rw [RamfsCall.Good, hStep]
    exact ⟨hFile, .failed id .einval⟩
  obtain ⟨pos, hPos⟩ := Int.eq_ofNat_of_zero_le (by omega : 0 ≤ f.target offset whence)
  have hStep : (RamfsCall.lseek offset whence).step f = (.count pos, { f with pos := pos }) := by
    rw [RamfsCall.step, lseek_inside hPos (by omega) rfl]
  rw [RamfsCall.Good, hStep]
  exact ⟨hFile.seek pos, .lseek (hTarget.trans hPos)⟩

theorem ftruncate_good (hRange : (RamfsCall.ftruncate length rooms).InRange f)
    (hAllowed : (RamfsCall.ftruncate length rooms).Allowed f) :
    (RamfsCall.ftruncate length rooms).Good f := by
  rcases ramfs_ftruncate hFile hAllowed hRange with ⟨node, hTruncate, hFile', hContent⟩ |
      ⟨e, hTruncate⟩
  · have hStep : (RamfsCall.ftruncate length rooms).step f =
        (.done, { f with node := node, size := length }) := by
      rw [RamfsCall.step, hTruncate]
    rw [RamfsCall.Good, hStep, byteFile, byteFile, hContent]
    exact ⟨hFile', .ftruncate length rooms⟩
  have hStep : (RamfsCall.ftruncate length rooms).step f = (.failed (.errno e), f) := by
    rw [RamfsCall.step, hTruncate]
  rw [RamfsCall.Good, hStep]
  exact ⟨hFile, .failed id e⟩

theorem RamfsCall.step_good {call : RamfsCall} (hRange : call.InRange f)
    (hAllowed : call.Allowed f) : call.Good f := by
  cases call with
  | read count => exact read_good hFile hRange hAllowed
  | pread count offset => exact pread_good hFile hRange hAllowed
  | write data rooms => exact write_good hFile hRange hAllowed
  | pwrite data offset rooms => exact pwrite_good hFile hRange hAllowed
  | lseek offset whence => exact lseek_good hFile offset whence
  | ftruncate length rooms => exact ftruncate_good hFile hRange hAllowed

end Calls

/-- By induction on the calls. -/
theorem run_refines {f : File RamfsInode} (hFile : RamfsFile f) (h : RunAllowed f calls) :
    RunRefines f calls := by
  induction calls generalizing f with
  | nil => trivial
  | cons call rest ih =>
    obtain ⟨hRange, hAllowed, hRest⟩ := h
    obtain ⟨hFile', hStep⟩ := call.step_good hFile hRange hAllowed
    exact ⟨⟨hStep, hFile'.valid.tiled, hFile'.valid.size_le⟩, ih hFile' hRest⟩

theorem ramfsFile_new : RamfsFile ramfsNew :=
  ⟨⟨rfl, le_rfl, by decide, fun _ hNo => by cases hNo⟩, rfl⟩

/-- A new file does what a byte array does, in every run whose calls meet the condition. -/
theorem ramfs_refines (h : RunAllowed ramfsNew calls) : RunRefines ramfsNew calls :=
  run_refines ramfsFile_new h

theorem ramfs_refines_write :
    RunRefines ramfsNew [.write [1, 2, 3] [8192], .pread 2 0, .ftruncate 0 []] := by
  refine ramfs_refines ⟨⟨by decide, by decide⟩, fun _ => ⟨.inl (by decide), ?_, .inl (by decide)⟩,
    (by decide : 2 < 2147483648), ?_, (by decide : 0 < 9223372036854775808), ?_, trivial⟩
  · intro b hb
    cases hb
  · exact Nat.zero_le _
  · intro hNo
    exact absurd hNo (Nat.not_lt_zero _)

def threeBytes (pos size : Nat) (current : Option Nat) : File RamfsInode :=
  ⟨pos, size, ⟨size, 8192, [⟨0, 8192, overwrite 0 [1, 2, 3] (zeros 8192)⟩], current⟩⟩

theorem write_threeBytes :
    (RamfsCall.write [1, 2, 3] [8192]).step ramfsNew = (.count 3, threeBytes 3 3 (some 0)) := by
  have hUp : ramfsTruncate [8192] ramfsNew.node 3 = .ok ⟨3, 8192, [⟨0, 8192, zeros 8192⟩], none⟩ :=
    rfl
  have hRound : ramfsRound ⟨3, 8192, [⟨0, 8192, zeros 8192⟩], none⟩ 3 0 = .ok (0, 0, 3) := by
    have hFind : ramfsFindChunk ⟨3, 8192, [⟨0, 8192, zeros 8192⟩], none⟩ 0 = some 0 := rfl
    rw [ramfsRound, hFind]
    dsimp only [getElem?_cons_zero]
    rw [zeros_length]
    rfl
  have hWrite : ramfsWrite ⟨3, 8192, [⟨0, 8192, zeros 8192⟩], none⟩ 0 [1, 2, 3] 3 =
      (.ok 3, (threeBytes 3 3 (some 0)).node) := by
    have hLoop : ramfsWriteLoop ⟨3, 8192, [⟨0, 8192, zeros 8192⟩], none⟩ 3 0 [1, 2, 3] =
        (.ok (), (threeBytes 3 3 (some 0)).node) := by
      rw [ramfsWriteLoop, if_neg (by decide)]
      split
      · rename_i hError
        rw [hRound] at hError
        cases hError
      rename_i i ofs n hOk
      rw [hRound] at hOk
      cases hOk
      rw [if_neg (by decide), ramfsWriteLoop, if_pos (by decide)]
      rfl
    rw [ramfsWrite, show toInt 3 = 3 from rfl, hLoop]
    rfl
  have hStep := write_ok (@writeAt_growing _ (ramfsTruncate [8192]) ramfsWrite ramfsNew [1,
    2, 3] _ _ _ (by decide)
    (by decide) hUp hWrite)
  rw [RamfsCall.step, hStep]
  rfl

theorem shrink_threeBytes (rooms : List Nat) :
    (RamfsCall.ftruncate 1 rooms).step (threeBytes 3 3 (some 0)) =
    (.done, threeBytes 3 1 none) := by rfl

theorem grow_threeBytes (rooms : List Nat) :
    (RamfsCall.ftruncate 3 rooms).step (threeBytes 3 1 none) =
    (.done, threeBytes 3 3 none) := by rfl

/-- A file that is made smaller and larger again shows its old bytes. A read behind the end of a
file fails. -/
theorem ramfs_not_refines :
    ¬RunRefines ramfsNew [.write [1, 2, 3] [8192], .ftruncate 1 [], .ftruncate 3 []] ∧
    ((RamfsCall.pread 1 5).step ramfsNew).1 = .failed (.errno .einval) ∧
    ¬RunRefines ramfsNew [.pread 1 5] := by
  have hPread : ((RamfsCall.pread 1 5).step ramfsNew).1 = .failed (.errno .einval) := by
    have hLoop : ramfsReadLoop ramfsNew.node (-5) 5 = (.error (.errno .einval), ramfsNew.node) := by
      rw [ramfsReadLoop, if_neg (by decide)]
      rfl
    have hRead : readAt ramfsRead { ramfsNew with pos := 5 } 1 =
        (.error (.errno .einval), { ramfsNew with pos := 5 }) := by
      rw [readAt, show File.clampCount { ramfsNew with pos := 5 } 1 =
        18446744073709551611 by decide]
      dsimp only
      rw [if_neg (by decide), ramfsRead, show toInt 18446744073709551611 = -5 by decide, hLoop]
      rfl
    rw [RamfsCall.step, pread_eq hRead]
    rfl
  refine ⟨?_, hPread, ?_⟩
  · rintro ⟨-, -, ⟨hStep, -⟩, -⟩
    rw [write_threeBytes] at hStep
    dsimp only at hStep
    rw [shrink_threeBytes] at hStep
    dsimp only at hStep
    rw [grow_threeBytes] at hStep
    have hSame : (threeBytes 3 3 none).node.content =
        resize (threeBytes 3 1 none).node.content 3 := by
      generalize hAfter : byteFile (threeBytes 3 3 none) = after at hStep
      cases hStep
      exact congrArg ByteFile.content hAfter
    have hOld : (threeBytes 3 3 none).node.content = [1, 2, 3] := rfl
    have hNew : resize (threeBytes 3 1 none).node.content 3 = [1, 0, 0] := rfl
    grind
  · rintro ⟨⟨hStep, -⟩, -⟩
    rw [hPread] at hStep
    generalize byteFile ramfsNew = before at hStep
    generalize byteFile _ = after at hStep
    cases hStep with
    | failed hRead => exact hRead trivial

end Barebox.Fs
