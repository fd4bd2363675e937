import Barebox.Fs.File

/-! Regular files of ramfs. The content lives in a list of chunks that are allocated when the
file grows. The size of a chunk is an `int`, offsets and the allocated size are `unsigned long`.
How much memory the allocator can give in one piece is told for each attempt. -/
namespace Barebox.Fs
open Bytes

structure RamfsChunk where
  ofs : Nat
  size : Int
  data : List UInt8

/-- The size as an `unsigned long`. -/
def RamfsChunk.ulongSize (c : RamfsChunk) : Nat := (c.size % 18446744073709551616).toNat

/-- `struct ramfs_inode`: the cached chunk is given by its place in the list. -/
structure RamfsInode where
  size : Nat
  allocSize : Nat
  data : List RamfsChunk
  currentChunk : Option Nat

/-- `data->ofs + data->size > pos`. -/
def RamfsChunk.reaches (c : RamfsChunk) (pos : Nat) : Bool :=
  pos < (c.ofs + c.ulongSize) % 18446744073709551616

variable (node : RamfsInode)

/-- Where `ramfs_find_chunk` starts. -/
def RamfsInode.start (pos : Nat) : Nat :=
  match node.currentChunk with
  | none => 0
  | some i =>
    match node.data[i]? with
    | none => 0
    | some c => if c.ofs ≤ pos then i else 0

/-- `ramfs_find_chunk`: the place of the chunk. -/
def ramfsFindChunk (pos : Nat) : Option Nat :=
  ((node.data.drop (node.start pos)).findIdx? (·.reaches pos)).map (node.start pos + ·)

/-- What one round of reading or writing works on: the place of the chunk, the offset in it and
how many bytes are copied. A copy outside of the chunk is a fault. -/
def ramfsRound (size : Int) (pos : Nat) : Except Failure (Nat × Nat × Nat) :=
  match ramfsFindChunk node pos with
  | none => .error (.errno .einval)
  | some i =>
    match node.data[i]? with
    | none => .error .fault
    | some c =>
      let ofs := toInt ((pos + 18446744073709551616 - c.ofs) % 18446744073709551616)
      let now := min size (c.size - ofs)
      if 0 ≤ ofs ∧ 0 < now ∧ ofs + now ≤ c.data.length then .ok (i, ofs.toNat, now.toNat)
      else .error .fault

theorem ramfsRound_pos {node : RamfsInode} {size : Int} {pos i ofs now : Nat}
    (h : ramfsRound node size pos = .ok (i, ofs, now)) : 0 < now ∧ (now : Int) ≤ size := by
  unfold ramfsRound at h
  split at h
  · cases h
  split at h
  · cases h
  dsimp only at h
  split at h
  · cases h
    omega
  · cases h

/-- The loop of `ramfs_read`, chunk by chunk. -/
def ramfsReadLoop (node : RamfsInode) (size : Int) (pos : Nat) :
    Except Failure (List UInt8) × RamfsInode :=
  if size = 0 then (.ok [], node)
  else
    match _h : ramfsRound node size pos with
    | .error e => (.error e, node)
    | .ok (i, ofs, now) =>
      let (r, node') := ramfsReadLoop { node with currentChunk := some i } (size - now) (pos + now)
      (r.map (slice ofs now ((node.data[i]?.map (·.data)).getD []) ++ ·), node')
termination_by size.toNat
decreasing_by
  have hPos := ramfsRound_pos _h
  omega

def ramfsRead : Reader RamfsInode := fun node pos insize => ramfsReadLoop node (toInt insize) pos

/-- `memcpy` into a chunk. -/
def RamfsInode.copy (i ofs : Nat) (bytes : List UInt8) : RamfsInode :=
  { node with
    data := node.data.modify i fun c => { c with data := overwrite ofs bytes c.data }
    currentChunk := some i }

def ramfsWriteLoop (node : RamfsInode) (size : Int) (pos : Nat) (buf : List UInt8) :
    Except Failure Unit × RamfsInode :=
  if size = 0 then (.ok (), node)
  else
    match _h : ramfsRound node size pos with
    | .error e => (.error e, node)
    | .ok (i, ofs, now) =>
      if buf.length < now then (.error .fault, node)
      else ramfsWriteLoop (node.copy i ofs (buf.take now)) (size - now) (pos + now) (buf.drop now)
termination_by size.toNat
decreasing_by
  have hPos := ramfsRound_pos _h
  omega

def ramfsWrite : Writer RamfsInode := fun node pos buf insize =>
  let (r, node') := ramfsWriteLoop node (toInt insize) pos buf
  (r.map fun _ => toInt insize, node')

/-- `ramfs_truncate_down`: the chunks that begin behind the new size are freed. -/
def ramfsTruncateDown (size : Nat) : RamfsInode :=
  let freed : Nat := ((node.data.filter fun c => decide (size ≤ c.ofs)).map (·.ulongSize)).sum
  { node with
    data := node.data.filter fun c => decide (c.ofs < size)
    allocSize := (((node.allocSize : Int) - (freed : Int)) % 18446744073709551616).toNat
    currentChunk := none }

/-- `ramfs_get_chunk`, where the allocator can give `room` bytes. -/
def ramfsGetChunk (room size ofs : Nat) : Option RamfsChunk :=
  if room < max size 8192 then none
  else some ⟨ofs % 18446744073709551616, toInt (max size 8192), zeros (max size 8192)⟩

/-- The loop of `ramfs_truncate_up`: the new chunks and what they hold, behind `base` bytes. -/
def growLoop (base : Nat) : List Nat → Nat → Nat → Nat → Option (List RamfsChunk × Nat)
  | [], _, _, _ => none
  | room :: rooms, chunksize, add, allocSize =>
    match ramfsGetChunk room (min chunksize add) (base + allocSize) with
    | none => if chunksize / 2 < 131072 then none
        else growLoop base rooms (chunksize / 2) add allocSize
    | some c =>
      let allocSize := (allocSize + c.ulongSize) % 18446744073709551616
      if add ≤ c.ulongSize then some ([c], allocSize)
      else (growLoop base rooms chunksize (add - c.ulongSize) allocSize).map fun (more, total) =>
        (c :: more, total)

/-- `ramfs_truncate_up`: new chunks until the size fits, or `-ENOSPC` and none. -/
def ramfsTruncateUp (rooms : List Nat) (node : RamfsInode) (size : Nat) : Except Errno RamfsInode :=
  if size ≤ node.allocSize then .ok node
  else
    match growLoop node.allocSize rooms (size - node.allocSize) (size - node.allocSize) 0 with
    | none => .error .enospc
    | some (chunks, total) =>
      .ok { node with
        data := node.data ++ chunks
        allocSize := (node.allocSize + total) % 18446744073709551616 }

def ramfsTruncate (rooms : List Nat) (node : RamfsInode) (size : Nat) : Except Errno RamfsInode :=
  if size = node.size then .ok node
  else if size < node.size then .ok { ramfsTruncateDown node size with size := size }
  else (ramfsTruncateUp rooms node size).map fun node' => { node' with size := size }

end Barebox.Fs
