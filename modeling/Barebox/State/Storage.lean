import Barebox.State.BucketCircular
import Mathlib.Data.List.TakeWhile

/-! The redundant storage of the state framework. A storage keeps one copy of
the state in each of its buckets. Loading takes the first copy that the format
accepts and then rewrites the copies that differ from it. -/
namespace Barebox.State
open List

/-- The function pointers of a bucket, and its mark for foreign content. The
buckets of a storage may share a medium `σ`. -/
structure BucketOps (β σ : Type) where
  read : β → σ → BucketRead × β × σ
  write : β → σ → List UInt8 → Except Errno Unit × β × σ
  wrongMagic : β → Bool

/-- `struct state_backend_storage_bucket`; without a buffer `buf` is empty. -/
structure Bucket (β : Type) where
  dev : β
  buf : List UInt8 := []
  len : Nat := 0
  needsRefresh : Bool := false
  deriving DecidableEq

structure StateFlags where
  noAuthentication : Bool := false
  deriving DecidableEq, Repr

/-- `verify` of a format with state `f`. It is given the magic, the buffer, its
length and the flags; besides the result it returns the length left in `*lenp`
and the new state of the format. -/
abbrev Verify (f : Type) := f → Nat → List UInt8 → Nat → StateFlags → Except Errno Unit × Nat × f

/-- A write issued by `bucket_refresh`: the data and the result. -/
structure RefreshWrite where
  data : List UInt8
  ret : Except Errno Unit
  deriving DecidableEq

structure Storage (β σ : Type) where
  buckets : List (Bucket β)
  shared : σ
  readonly : Bool := false

variable {β σ f : Type}

section Write
variable (ops : BucketOps β σ)

/-- The loop of `state_storage_write`, with the number of buckets written. -/
def bucketsWrite (buf : List UInt8) : List (Bucket β) → σ → Nat × List (Bucket β) × σ
  | [], shared => (0, [], shared)
  | b :: rest, shared =>
    let (ret, dev, shared) := ops.write b.dev shared buf
    let (written, rest, shared) := bucketsWrite buf rest shared
    (if ret.isOk then written + 1 else written, { b with dev } :: rest, shared)

def minBucketsWritten : Nat := 1

/-- `state_storage_write`: a read-only storage reports success and writes nothing. -/
def storageWrite (s : Storage β σ) (buf : List UInt8) : Except Errno Unit × Storage β σ :=
  if s.readonly then (.ok (), s)
  else
    let (written, buckets, shared) := bucketsWrite ops buf s.buckets s.shared
    (if minBucketsWritten ≤ written then .ok () else .error .eio, { s with buckets, shared })

/-- `bucket_refresh`, together with the write it issues, if any. -/
def bucketRefresh (buf : List UInt8) (len : Nat) (b : Bucket β) (shared : σ) :
    Option RefreshWrite × Bucket β × σ :=
  if b.needsRefresh ∨ b.len ≠ len ∨ b.buf.take len ≠ buf.take len then
    match ops.write b.dev shared (buf.take len) with
    | (.ok (), dev, shared) =>
      (some ⟨buf.take len, .ok ()⟩, { b with dev, needsRefresh := false }, shared)
    | (.error e, dev, shared) => (some ⟨buf.take len, .error e⟩, { b with dev }, shared)
  else (none, b, shared)

def Bucket.release (b : Bucket β) : Bucket β := { b with buf := [], len := 0 }

/-- The second loop of `state_storage_read`, over buckets that are not the used
one. -/
def bucketsRefresh (buf : List UInt8) (len : Nat) :
    List (Bucket β) → σ → List RefreshWrite × List (Bucket β) × σ
  | [], shared => ([], [], shared)
  | b :: rest, shared =>
    let (write, b, shared) := bucketRefresh ops buf len b shared
    let (writes, rest, shared) := bucketsRefresh buf len rest shared
    (write.toList ++ writes, b.release :: rest, shared)

end Write

section Read
variable (ops : BucketOps β σ) (verify : Verify f) (magic : Nat) (flags : StateFlags)

/-- One round of the first loop of `state_storage_read`: read the bucket and
verify what it returned. -/
def bucketCheck (b : Bucket β) (shared : σ) (format : f) : Except Errno Unit × Bucket β × σ × f :=
  match ops.read b.dev shared with
  | (.error e, dev, shared) => (.error e, { b with dev }, shared, format)
  | (.ok buf len, dev, shared) =>
    let (ret, len, format) := verify format magic buf len flags
    (ret, { b with dev, buf, len }, shared, format)
  | (.unclean buf len, dev, shared) =>
    let (ret, len, format) := verify format magic buf len flags
    (ret, { b with dev, buf, len, needsRefresh := true }, shared, format)

/-- The first loop of `state_storage_read`. -/
def bucketsCheck : List (Bucket β) → σ → f → List (Except Errno Unit × Bucket β) × σ × f
  | [], shared, format => ([], shared, format)
  | b :: rest, shared, format =>
    let (ret, b, shared, format) := bucketCheck ops verify magic flags b shared format
    let (checked, shared, format) := bucketsCheck rest shared format
    ((ret, b) :: checked, shared, format)

/-- Outcome of `state_storage_read`. The writes of the refresh are listed in
order. -/
structure StorageRead (β σ f : Type) where
  ret : Except Errno (List UInt8 × Nat)
  storage : Storage β σ
  format : f
  writes : List RefreshWrite

/-- The part of `state_storage_read` behind its first loop. The buckets in
front of the used one were not accepted; the used one is refreshed last. -/
def storageRestore (readonly : Bool) (checked : List (Except Errno Unit × Bucket β))
    (shared : σ) (format : f) : StorageRead β σ f :=
  match checked.span (fun c => !c.1.isOk) with
  | (_, []) =>
    { ret := .error (if checked.all (fun c => c.1 = .error .enomedium) then .enomedium else .enoent)
      storage := ⟨checked.map Prod.snd, shared, readonly⟩
      format
      writes := [] }
  | (before, (_, used) :: after) =>
    let (first, before, shared) := bucketsRefresh ops used.buf used.len (before.map Prod.snd) shared
    let (second, after, shared) := bucketsRefresh ops used.buf used.len (after.map Prod.snd) shared
    let (last, fresh, shared) := bucketRefresh ops used.buf used.len used shared
    { ret := .ok (used.buf, used.len)
      storage := ⟨before ++ fresh.release :: after, shared, readonly⟩
      format
      writes := first ++ second ++ last.toList }

/-- `state_storage_read`: every bucket is checked before the first good one is restored. -/
def storageRead (s : Storage β σ) (format : f) : StorageRead β σ f :=
  let (checked, shared, format) := bucketsCheck ops verify magic flags s.buckets s.shared format
  storageRestore ops s.readonly checked shared format

end Read

variable (ops : BucketOps β σ) (readonly : Bool) (checked : List (Except Errno Unit × Bucket β))
    (shared : σ)
    (format : f)

/-- What `state_storage_read` returns: the first bucket that is accepted. -/
theorem storageRestore_ret :
    (storageRestore ops readonly checked shared format).ret =
    match checked.find? (fun c => c.1.isOk) with
      | none =>
          .error (if checked.all (fun c => c.1 = .error .enomedium) then .enomedium else .enoent)
      | some (_, used) => .ok (used.buf, used.len) := by
  rw [List.find?_eq_head?_dropWhile_not, storageRestore, span_eq_takeWhile_dropWhile]
  cases checked.dropWhile (fun c => !c.1.isOk) with
  | nil => rfl
  | cons c rest => rfl

@[simp] theorem storageRestore_format :
    (storageRestore ops readonly checked shared format).format = format := by
  rw [storageRestore, span_eq_takeWhile_dropWhile]
  cases checked.dropWhile (fun c => !c.1.isOk) with
  | nil => rfl
  | cons c rest => rfl

variable (ops : BucketOps β σ) (buf : List UInt8) (len : Nat)

theorem bucketRefresh_data (b : Bucket β) (shared : σ) :
    ∀ w ∈ (bucketRefresh ops buf len b shared).1, w.data = buf.take len := by
  intro w hw
  rw [bucketRefresh] at hw
  split_ifs at hw with hStale
  · cases hWrite : ops.write b.dev shared (buf.take len) with
    | mk ret rest => cases ret <;> (rw [hWrite] at hw; cases hw; rfl)
  · cases hw

theorem bucketsRefresh_data (buckets : List (Bucket β)) (shared : σ) :
    ∀ w ∈ (bucketsRefresh ops buf len buckets shared).1, w.data = buf.take len := by
  induction buckets generalizing shared with
  | nil => simp [bucketsRefresh]
  | cons b rest ih =>
    exact forall_mem_append.mpr
      ⟨fun w hw => bucketRefresh_data ops buf len b shared w (Option.mem_toList.mp hw), ih _⟩

theorem storageRestore_writes (ops : BucketOps β σ) (readonly : Bool)
    (checked : List (Except Errno Unit × Bucket β)) (shared : σ)
    (format : f) {buf : List UInt8} {len : Nat}
    (hRet : (storageRestore ops readonly checked shared format).ret = .ok (buf, len)) :
    ∀ w ∈ (storageRestore ops readonly checked shared format).writes, w.data = buf.take len := by
  rw [storageRestore, span_eq_takeWhile_dropWhile] at hRet ⊢
  cases hUsed : checked.dropWhile (fun c => !c.1.isOk) with
  | nil => simp [hUsed] at hRet
  | cons c rest =>
    rw [hUsed] at hRet
    cases hRet
    intro w hw
    simp only [mem_append, Option.mem_toList] at hw
    rcases hw with (hFirst | hSecond) | hLast
    · exact bucketsRefresh_data ops _ _ _ _ w hFirst
    · exact bucketsRefresh_data ops _ _ _ _ w hSecond
    · exact bucketRefresh_data ops _ _ _ _ w hLast

end Barebox.State
