import Barebox.Fs.Libfile

/-! Buckets of direct storage: a copy of the state at a fixed offset of a device, with a
header in front of it if there is room. Pointers and `size_t` have 64 bits. -/
namespace Barebox.State
open Bytes Fs

/-- `struct state_backend_storage_bucket_direct`, with the number and the mark of its bucket.
`max_size` is the `uint32_t` stride. -/
structure BucketDirect where
  num : Nat
  offset : Nat
  maxSize : UInt32
  wrongMagic : Bool := false

def directMagic : Nat := 0x2354fdf3

/-- `struct state_backend_storage_bucket_direct_meta`; `written_length` is a `uint32_t`. -/
def directMeta (writtenLength : Nat) : List UInt8 := le 4 directMagic ++ le 4 writtenLength

/-- A buffer of `n` bytes of which the first ones were read. -/
def filled (garbage : Memory) (n : Nat) (got : List UInt8) : List UInt8 :=
  got ++ Memory.load got.length (n - got.length) garbage

def BucketDirect.headRoom (d : BucketDirect) (len : Nat) : Prop :=
  UInt64.ofNat len ≤ d.maxSize.toUInt64 - 8

instance (d : BucketDirect) (len : Nat) : Decidable (d.headRoom len) :=
  inferInstanceAs (Decidable (_ ≤ _))

section Access
variable (compat : Bool) (d : BucketDirect) (f : File Memory)

/-- The end of `state_backend_bucket_direct_read`. `malloc(0)` is an error. -/
def bucketDirectFetch (heap : Memory) (readLen : Nat) : Except Failure (List UInt8) :=
  if readLen = 0 then .error (.errno .einval)
  else (readFull deviceRead f readLen).1.map (filled heap readLen)

/-- `state_backend_bucket_direct_read`. The memory for the header and for the buffer is not
cleared. -/
def bucketDirectRead (stack heap : Memory) : Except Failure (List UInt8) × BucketDirect :=
  match lseek deviceSeek f d.offset .set with
  | (.error e, _) => (.error (.errno e), d)
  | (.ok _, f) =>
    match readFull deviceRead f 8 with
    | (.error e, _) => (.error e, d)
    | (.ok got, f) =>
      let magic := ofLe (slice 0 4 (filled stack 8 got))
      let writtenLength := ofLe (slice 4 4 (filled stack 8 got))
      if magic = directMagic then
        if d.maxSize.toNat < writtenLength then (.error (.errno .einval), d)
        else (bucketDirectFetch f heap writtenLength, d)
      else
        let d := if magic ≠ 0xffffffff ∧ magic ≠ 0 then { d with wrongMagic := true } else d
        if !compat then (.error (.errno (if magic ≠ 0 then .einval else .enomedium)), d)
        else
          match lseek deviceSeek f d.offset .set with
          | (.error e, _) => (.error (.errno e), d)
          | (.ok _, f) => (bucketDirectFetch f heap d.maxSize.toNat, d)

def directMetaWrite (buf : List UInt8) : Except Failure Unit × File Memory :=
  match writeFull deviceTruncate deviceWrite f (directMeta buf.length) with
  | (.error e, f) => (.error e, f)
  | (.ok (), f) => writeFull deviceTruncate deviceWrite f buf

/-- `state_backend_bucket_direct_write`: without room for the header only in the old format. -/
def bucketDirectWrite (buf : List UInt8) : Except Failure Unit × File Memory :=
  match lseek deviceSeek f d.offset .set with
  | (.error e, f) => (.error (.errno e), f)
  | (.ok _, f) =>
    if d.headRoom buf.length then directMetaWrite f buf
    else if compat then writeFull deviceTruncate deviceWrite f buf
    else (.error (.errno .einval), f)

end Access

def desiredBuckets : UInt32 := 3

/-- `state_storage_file_buckets_init`, on a device that can be opened. -/
def storageFileBucketsInit (offset : Nat) (stridesize : UInt32) (maxSize : Nat) :
    Except Errno (List BucketDirect) :=
  if stridesize = 0 then .error .einval
  else if maxSize ≠ 0 ∧ maxSize < (desiredBuckets * stridesize).toNat then .error .einval
  else .ok ((List.range desiredBuckets.toNat).map fun n =>
    ⟨n, offset + (UInt32.ofNat n * stridesize).toNat, stridesize, false⟩)

section Write
variable {compat : Bool} {d : BucketDirect} {f f' : File Memory} {payload : List UInt8}

theorem headRoom_iff (hLen : payload.length < 2 ^ 63) :
    d.headRoom payload.length ↔ d.maxSize.toNat < 8 ∨ payload.length + 8 ≤ d.maxSize.toNat := by
  have hMax := d.maxSize.toNat_lt
  rw [BucketDirect.headRoom, UInt64.le_iff_toNat_le, UInt64.toNat_ofNat',
    UInt64.toNat_sub, UInt32.toNat_toUInt64,
    Nat.mod_eq_of_lt (by omega)]
  have h8 : UInt64.toNat 8 = 8 := rfl
  omega

def BucketDirect.image (compat : Bool) (d : BucketDirect) (payload : List UInt8) : List UInt8 :=
  if d.headRoom payload.length then directMeta payload.length ++ payload
  else if compat then payload else []

@[simp] theorem directMeta_length (n : Nat) : (directMeta n).length = 8 := rfl

theorem lseek_device (h : d.offset ≤ f.size) :
    lseek deviceSeek f d.offset .set = (.ok d.offset, { f with pos := d.offset }) :=
  lseek_inside rfl h rfl

theorem lseek_behind (h : f.size < d.offset) :
    lseek deviceSeek f d.offset .set = (.error .einval, f) :=
  lseek_outside (.inr (by simp only [File.target]; omega))

theorem bucketDirectWrite_behind (h : f.size < d.offset) :
    bucketDirectWrite compat d f payload = (.error (.errno .einval), f) := by
  rw [bucketDirectWrite, lseek_behind h]

variable (hPos : f.pos ≤ f.size) (hSize : f.size < 2 ^ 63) (hLen : payload.length < 2 ^ 63)
include hPos hSize hLen

theorem directMetaWrite_node : (directMetaWrite f payload).2.node =
        Memory.store f.pos ((directMeta payload.length ++ payload).take (f.size - f.pos)) f.node ∧
      (directMetaWrite f payload).2.size = f.size := by
  have hEight := directMeta_length payload.length
  have hMeta := @writeFull_node f (directMeta payload.length) hPos hSize (by omega)
  unfold directMetaWrite
  split
  next e f' hEq =>
    have hEnd : f.size - f.pos ≤ (directMeta payload.length).length := by
      by_contra hFits
      have hOk := @writeFull_fits f (directMeta payload.length) hSize (by omega) (by omega)
      rw [hEq] at hOk
      cases hOk
    grind
  next f' hEq =>
    obtain ⟨hIn, hNew, _⟩ := writeFull_ok hPos hSize (by omega) hEq
    have hWhole : (directMeta payload.length).take (f.size - f.pos) = directMeta payload.length :=
      List.take_of_length_le (by omega)
    rw [hEq, hWhole] at hMeta
    obtain ⟨hNode, hSame⟩ := hMeta
    dsimp only at hNode hSame
    obtain ⟨hNode', hSame'⟩ := @writeFull_node f' payload (by omega) (by omega) hLen
    refine ⟨?_, hSame'.trans hSame⟩
    rw [hNode', hNode, hSame, hNew, ← Nat.sub_sub, List.take_append, hWhole, Memory.store_append]

theorem directMetaWrite_ok (hOk : (directMetaWrite f payload).1 = .ok ()) :
    f.pos + (8 + payload.length) ≤ f.size ∧ ¬ toInt payload.length < 0 := by
  have hEight := directMeta_length payload.length
  have hMeta := @writeFull_node f (directMeta payload.length) hPos hSize (by omega)
  unfold directMetaWrite at hOk
  split at hOk
  next => cases hOk
  next f' hEq =>
    obtain ⟨hIn, hNew, _⟩ := writeFull_ok hPos hSize (by omega) hEq
    have hSame : f'.size = f.size := by grind
    obtain ⟨hIn', _, hInt⟩ :=
      @writeFull_ok f' _ payload (by omega) (by omega) hLen (Prod.ext hOk rfl)
    exact ⟨by omega, hInt⟩

omit hPos hSize hLen
include hSize in
theorem directMetaWrite_fits (hIn : f.pos + (8 + payload.length) ≤ f.size)
    (hShort : payload.length < 2147483648) : (directMetaWrite f payload).1 = .ok () := by
  have hEight := directMeta_length payload.length
  have hMeta := @writeFull_node f (directMeta payload.length) (by omega) hSize (by omega)
  have hOk := @writeFull_fits f (directMeta payload.length) hSize (by omega) (by omega)
  unfold directMetaWrite
  split
  next e f' hEq =>
    rw [hEq] at hOk
    cases hOk
  next f' hEq =>
    obtain ⟨_, hNew, _⟩ := writeFull_ok (by omega) hSize (by omega) hEq
    have hSame : f'.size = f.size := by grind
    exact writeFull_fits (by omega) (by omega) hShort

/-- What a write leaves on the device, whether it fails or not. -/
theorem bucketDirectWrite_node (h : d.offset ≤ f.size) (hSize : f.size < 2 ^ 63)
    (hLen : payload.length < 2 ^ 63) : (bucketDirectWrite compat d f payload).2.node =
        Memory.store d.offset ((d.image compat payload).take (f.size - d.offset)) f.node ∧
      (bucketDirectWrite compat d f payload).2.size = f.size := by
  rw [bucketDirectWrite, lseek_device h, BucketDirect.image]
  dsimp only
  by_cases hRoom : d.headRoom payload.length
  · rw [if_pos hRoom, if_pos hRoom]
    exact @directMetaWrite_node { f with pos := d.offset } payload h hSize hLen
  rw [if_neg hRoom, if_neg hRoom]
  cases compat with
  | true => exact @writeFull_node { f with pos := d.offset } payload h hSize hLen
  | false => simp [Memory.store_nil]

include hSize hLen in
/-- A write that succeeds was not refused, has its bytes on the device and a payload whose length is
not negative. -/
theorem bucketDirectWrite_ok (hOk : (bucketDirectWrite compat d f payload).1 = .ok ()) :
    (d.headRoom payload.length ∨ compat = true) ∧
    d.offset + (d.image compat payload).length ≤ f.size ∧
      ¬ toInt payload.length < 0 := by
  by_cases h : f.size < d.offset
  · rw [bucketDirectWrite_behind h] at hOk
    cases hOk
  have hPos : d.offset ≤ f.size := by omega
  rw [bucketDirectWrite, lseek_device hPos] at hOk
  dsimp only at hOk
  rw [BucketDirect.image]
  by_cases hRoom : d.headRoom payload.length
  · rw [if_pos hRoom] at hOk
    obtain ⟨hIn, hInt⟩ := @directMetaWrite_ok { f with pos := d.offset } payload hPos hSize hLen hOk
    grind [directMeta_length]
  rw [if_neg hRoom] at hOk ⊢
  cases compat with
  | true =>
    obtain ⟨hIn, _, hInt⟩ :=
      @writeFull_ok { f with pos := d.offset } _ payload hPos hSize hLen (Prod.ext hOk rfl)
    exact ⟨.inr rfl, hIn, hInt⟩
  | false => cases hOk

include hSize in
theorem bucketDirectWrite_fits (hRoom : d.headRoom payload.length ∨ compat = true)
    (hFits : d.offset + (d.image compat payload).length ≤ f.size)
    (hShort : payload.length < 2147483648) :
    (bucketDirectWrite compat d f payload).1 = .ok () := by
  rw [bucketDirectWrite, lseek_device (by omega)]
  dsimp only
  rw [BucketDirect.image] at hFits
  by_cases h : d.headRoom payload.length
  · rw [if_pos h, List.length_append, directMeta_length] at hFits
    rw [if_pos h]
    exact @directMetaWrite_fits { f with pos := d.offset } payload hSize hFits hShort
  obtain rfl := hRoom.resolve_left h
  rw [if_neg h, if_pos rfl] at hFits
  rw [if_neg h, if_pos rfl]
  exact @writeFull_fits { f with pos := d.offset } payload hSize hFits hShort

end Write
end Barebox.State
