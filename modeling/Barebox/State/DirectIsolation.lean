import Barebox.State.BucketDirect

/-! Isolation and round trip of direct storage: what a write to one copy does to the bytes
around it, and whether the copy can be read back. -/
namespace Barebox.State
open Bytes Fs List Memory

section Read
variable {compat : Bool} {d : BucketDirect} {f : File Memory} {stack heap : Memory}

def headerBytes (d : BucketDirect) (f : File Memory) (stack : Memory) : List UInt8 :=
  filled stack 8 (load d.offset (min 8 (f.size - d.offset)) f.node)

theorem bucketDirectRead_eq (h : d.offset ≤ f.size) (hSize : f.size < 2 ^ 63) :
    (bucketDirectRead compat d f stack heap).1 = if ofLe (slice 0 4 (headerBytes d f stack)) =
    directMagic then
        if d.maxSize.toNat < ofLe (slice 4 4 (headerBytes d f stack)) then
          .error (.errno .einval) else
          bucketDirectFetch { f with pos := d.offset + min 8 (f.size - d.offset) } heap
            (ofLe (slice 4 4 (headerBytes d f stack)))
      else if compat then bucketDirectFetch { f with pos := d.offset } heap d.maxSize.toNat
      else .error (.errno (if ofLe (slice 0 4 (headerBytes d f stack)) ≠ 0 then .einval
      else .enomedium)) := by
  have hRead := @readFull_device { f with pos := d.offset } h hSize 8 (by omega) (by omega)
  rw [bucketDirectRead, lseek_device h]
  dsimp only
  rw [hRead]
  dsimp only
  rw [← headerBytes]
  split
  · split <;> rfl
  rcases compat with _ | _
  · rfl
  simp only [Bool.not_true, Bool.false_eq_true, if_false, if_true]
  have hMark (c : Prop) [Decidable c] : (if c then { d with wrongMagic := true } else d).offset =
      d.offset ∧
      (if c then { d with wrongMagic := true } else d).maxSize = d.maxSize := by
        split <;> exact ⟨rfl, rfl⟩
  have hSeek :
      lseek deviceSeek { f with pos := d.offset + min 8 (f.size - d.offset) } d.offset .set =
      (.ok d.offset, { f with pos := d.offset }) := lseek_inside rfl h rfl
  rw [(hMark _).1, hSeek, (hMark _).2]

theorem bucketDirectFetch_ok {readLen : Nat} (hLen : 0 < readLen)
    (hMax : readLen < 4294967296) (hPos : f.pos ≤ f.size)
    (hSize : f.size < 2 ^ 63) (hShort : min readLen (f.size - f.pos) < 2147483648) :
    bucketDirectFetch f heap readLen =
      .ok (filled heap readLen (load f.pos (min readLen (f.size - f.pos)) f.node)) := by
  rw [bucketDirectFetch, if_neg (by omega), readFull_device hPos hSize (by omega) hShort]
  rfl

theorem bucketDirectFetch_long {readLen : Nat} (hMax : readLen < 4294967296) (hPos : f.pos ≤ f.size)
    (hSize : f.size < 2 ^ 63) (hLong : 2147483648 ≤ min readLen (f.size - f.pos)) :
    bucketDirectFetch f heap readLen = .error .negative := by
  rw [bucketDirectFetch, if_neg (by omega), readFull_negative hPos hSize hMax hLong]
  rfl

variable {bytes : List UInt8} {offset maxSize : Nat} {stridesize : UInt32}
    {buckets : List BucketDirect}

theorem ofLe_eq_directMagic (hLen : bytes.length = 4) :
    ofLe bytes = directMagic ↔ bytes = le 4 directMagic := by
  constructor
  · intro h
    grind [le_ofLe]
  · rintro rfl
    decide

theorem slice_directMeta (n : Nat) :
    slice 0 4 (directMeta n) = le 4 directMagic ∧ slice 4 4 (directMeta n) = le 4 n := by
  constructor
  · rfl
  · rfl

theorem filled_length {garbage : Memory} {n : Nat} {got : List UInt8} (h : got.length ≤ n) :
    (filled garbage n got).length = n := by
  simp [filled]
  omega

theorem headerBytes_length : (headerBytes d f stack).length = 8 :=
  filled_length (by rw [load_length]; omega)

theorem headerBytes_eq (hLen : bytes.length = 8)
    (hDevice : ∀ i < 8, d.offset + i < f.size → f.node (d.offset + i) = bytes.getD i 0)
    (hStack : ∀ i < 8, f.size ≤ d.offset + i → stack i = bytes.getD i 0) :
    headerBytes d f stack = bytes := by
  refine ext_getElem (headerBytes_length.trans hLen.symm) fun i hi hi' => ?_
  rw [headerBytes_length] at hi
  rw [← getD_eq_getElem bytes 0 hi']
  simp only [headerBytes, filled, load_length, getElem_append]
  split
  next hIn =>
    simp [hDevice i hi (by omega), load]
  next hOut =>
    rw [← hStack i hi (by omega)]
    simp only [load, getElem_map, getElem_range]
    congr 1
    omega

theorem take_headerBytes {n : Nat} (hLen : n ≤ 8) (h : d.offset + n ≤ f.size) :
    (headerBytes d f stack).take n = load d.offset n f.node := by
  have hSplit : min 8 (f.size - d.offset) = n + (min 8 (f.size - d.offset) - n) := by omega
  rw [headerBytes, hSplit, load_append, filled, append_assoc]
  exact take_left' (load_length _ _ _)

theorem headerBytes_other {payload : List UInt8}
    (hLoad : load d.offset payload.length f.node = payload)
    (hIn : d.offset + payload.length ≤ f.size) (hMagic : ¬ payload <+: le 4 directMagic)
    (hFirst : payload.take 4 ≠ le 4 directMagic) :
    ¬ ofLe (slice 0 4 (headerBytes d f stack)) = directMagic := by
  have hFour : (slice 0 4 (headerBytes d f stack)).length = 4 := by
    rw [slice_length, headerBytes_length]
    rfl
  rw [ofLe_eq_directMagic hFour, slice, drop_zero]
  intro hEq
  by_cases hLong : 4 ≤ payload.length
  · have hSplit : payload.length = 4 + (payload.length - 4) := by omega
    rw [take_headerBytes (by omega) (by omega)] at hEq
    rw [hSplit, load_append, hEq] at hLoad
    refine hFirst ?_
    rw [← hLoad]
    exact take_left' (le_length _ _)
  · have hTake := @take_headerBytes d f stack payload.length (by omega) hIn
    have hShort : (headerBytes d f stack).take payload.length =
        ((headerBytes d f stack).take 4).take payload.length := by
      grind
    rw [hShort, hEq, hLoad] at hTake
    refine hMagic ?_
    grind

end Read

variable (compat : Bool) (d : BucketDirect) (size : Nat) (payload : List UInt8)

/-- A write changes no byte outside of its bucket. -/
def Isolated (f : File Memory) (payload : List UInt8) : Prop :=
  ∀ a, a < d.offset ∨ d.offset + d.maxSize.toNat ≤ a →
    (bucketDirectWrite compat d f payload).2.node a = f.node a

def ReadsBack (f : File Memory) (payload : List UInt8) : Prop :=
  (bucketDirectWrite compat d f payload).1 = .ok () → ∀ stack heap, ∃ rest,
    (bucketDirectRead compat d (bucketDirectWrite compat d f payload).2 stack heap).1 =
      .ok (payload ++ rest)

def StrideFits : Prop :=
  (d.image compat payload).length ≤ d.maxSize.toNat ∨ size ≤ d.offset + d.maxSize.toNat

/-- A payload with a header is not empty. Without a header it cannot be the beginning of one, and
what is read instead has a length that is an `int`. -/
def Readable : Prop :=
  if d.headRoom payload.length then payload ≠ []
  else ¬ payload <+: le 4 directMagic ∧ min d.maxSize.toNat (size - d.offset) < 2147483648

def Succeeds : Prop :=
  (d.headRoom payload.length ∨ compat = true) ∧ d.offset + (d.image compat payload).length ≤ size ∧
    payload.length < 2147483648

def BucketSound : Prop :=
  size < d.offset ∨ StrideFits compat d size payload ∧
    (Succeeds compat d size payload → Readable d size payload)

section Isolation
variable {compat : Bool} {d : BucketDirect} {f : File Memory} {payload : List UInt8}
  (hSize : f.size < 9223372036854775808) (hLen : payload.length < 9223372036854775808)
include hSize hLen

theorem isolated_of_fits (hFits : f.size < d.offset ∨ StrideFits compat d f.size payload) :
    Isolated compat d f payload := by
  intro a ha
  by_cases hPos : f.size < d.offset
  · rw [bucketDirectWrite_behind hPos]
  rw [(bucketDirectWrite_node (by omega) hSize hLen).1]
  refine store_of_not_mem _ ?_
  rw [length_take]
  rcases hFits with hBehind | hFits | hFits <;> omega

theorem exists_changed (hPos : d.offset ≤ f.size) {i : Nat}
    (hi : i < (d.image compat payload).length)
    (hDevice : d.offset + i < f.size) :
    ∃ node, (bucketDirectWrite compat d { f with node := node } payload).2.node (d.offset + i) ≠
    node (d.offset + i) := by
  have hIn : d.offset ≤ d.offset + i ∧
      d.offset + i < d.offset + ((d.image compat payload).take (f.size - d.offset)).length := by
    rw [length_take]
    omega
  generalize hByte : ((d.image compat payload).take (f.size - d.offset)).getD i 0 = byte
  refine ⟨fun _ => if byte = 0 then 1 else 0, ?_⟩
  have hNode :=
    (@bucketDirectWrite_node compat d { f with node := fun _ => if byte = 0 then 1 else 0 } payload
    hPos hSize hLen).1
  rw [hNode, store_of_mem _ hIn, Nat.add_sub_cancel_left, hByte]
  split
  next hZero =>
    simp [hZero]
  next hSome => exact hSome

theorem fits_of_isolated (hPos : d.offset ≤ f.size)
    (h : ∀ node, Isolated compat d { f with node := node } payload) :
    StrideFits compat d f.size payload := by
  by_contra hNot
  rw [StrideFits, not_or] at hNot
  obtain ⟨node, hChanged⟩ :=
    exists_changed hSize hLen hPos (Nat.lt_of_not_le hNot.1) (Nat.lt_of_not_le hNot.2)
  exact hChanged (h node _ (.inr le_rfl))

theorem succeeds_of_ok (hFits : StrideFits compat d f.size payload)
    (hOk : (bucketDirectWrite compat d f payload).1 = .ok ()) :
    Succeeds compat d f.size payload := by
  obtain ⟨hRoom, hDevice, hInt⟩ := bucketDirectWrite_ok hSize hLen hOk
  refine ⟨hRoom, hDevice, ?_⟩
  have hMax := d.maxSize.toNat_lt
  have hImage : payload.length ≤ (d.image compat payload).length := by
    rw [BucketDirect.image]
    split
    · simp
    next hNo => simp [hRoom.resolve_left hNo]
  have hWord : payload.length < 4294967296 := by rcases hFits with hFits | hFits <;> omega
  by_contra hLong
  exact hInt (toInt_neg (by omega) hWord)

theorem load_written (hSucceeds : Succeeds compat d f.size payload) :
    (bucketDirectWrite compat d f payload).2.size = f.size ∧
      load d.offset (d.image compat payload).length (bucketDirectWrite compat d f payload).2.node =
        d.image compat payload := by
  have hIn := hSucceeds.2.1
  obtain ⟨hNode, hSame⟩ := @bucketDirectWrite_node compat d f payload (by omega) hSize hLen
  refine ⟨hSame, ?_⟩
  rw [hNode, take_of_length_le (by omega), load_store]

theorem bucketDirectRead_header (hRoom : d.headRoom payload.length)
    (hFits : StrideFits compat d f.size payload)
    (hSucceeds : Succeeds compat d f.size payload) (stack heap : Memory) :
    (bucketDirectRead compat d (bucketDirectWrite compat d f payload).2 stack heap).1 =
        bucketDirectFetch { (bucketDirectWrite compat d f payload).2 with pos := d.offset +
          8 } heap payload.length ∧
      load (d.offset + 8) payload.length (bucketDirectWrite compat d f payload).2.node =
      payload := by
  obtain ⟨hSame, hLoad⟩ := load_written hSize hLen hSucceeds
  have hImage : d.image compat payload = directMeta payload.length ++ payload := if_pos hRoom
  obtain ⟨_, hIn, hShort⟩ := hSucceeds
  rw [StrideFits] at hFits
  rw [hImage, length_append, directMeta_length] at hIn hLoad hFits
  generalize (bucketDirectWrite compat d f payload).2 = g at hSame hLoad
  rw [load_append] at hLoad
  obtain ⟨hMeta, hPayload⟩ := append_inj hLoad (by simp)
  refine ⟨?_, hPayload⟩
  have hHeader : headerBytes d g stack = directMeta payload.length := by
    have hTake := @take_headerBytes d g stack 8 le_rfl (by omega)
    rwa [take_of_length_le (by rw [headerBytes_length]), hMeta] at hTake
  have hMagic : ofLe (slice 0 4 (headerBytes d g stack)) = directMagic := by
    rw [hHeader, (slice_directMeta _).1, ofLe_le_of_lt (by decide)]
  have hWritten : ofLe (slice 4 4 (headerBytes d g stack)) = payload.length := by
    rw [hHeader, (slice_directMeta _).2, ofLe_le_of_lt (by omega)]
  have hLeft : min 8 (g.size - d.offset) = 8 := by omega
  rw [bucketDirectRead_eq (by omega) (by omega), if_pos hMagic, hWritten, if_neg (by omega), hLeft]

theorem readsBack_header (hRoom : d.headRoom payload.length)
    (hSome : payload ≠ []) (hFits : StrideFits compat d f.size payload)
    (hSucceeds : Succeeds compat d f.size payload) (stack heap : Memory) :
    (bucketDirectRead compat d (bucketDirectWrite compat d f payload).2 stack heap).1 =
    .ok (payload ++ []) := by
  obtain ⟨hRead, hPayload⟩ := bucketDirectRead_header hSize hLen hRoom hFits hSucceeds stack heap
  obtain ⟨hSame, _⟩ := load_written hSize hLen hSucceeds
  have hImage : d.image compat payload = directMeta payload.length ++ payload := if_pos hRoom
  obtain ⟨_, hIn, hShort⟩ := hSucceeds
  rw [hImage, length_append, directMeta_length] at hIn
  rw [hRead, bucketDirectFetch_ok (length_pos_iff.mpr hSome)
    (by omega) (by dsimp only; omega) (by dsimp only; omega)
    (by dsimp only; omega)]
  dsimp only
  rw [Nat.min_eq_left (by omega), hPayload, filled, Nat.sub_self]
  rfl

variable (hRoom : ¬ d.headRoom payload.length)

omit hSize hLen in
include hRoom in
theorem image_plain (hSucceeds : Succeeds compat d f.size payload) :
    compat = true ∧ d.image compat payload = payload := by
  have hCompat : compat = true := hSucceeds.1.resolve_left hRoom
  exact ⟨hCompat, by rw [BucketDirect.image, if_neg hRoom, if_pos hCompat]⟩

include hRoom in
theorem readsBack_plain (hMagic : ¬ payload <+: le 4 directMagic)
    (hFirst : payload.take 4 ≠ le 4 directMagic)
    (hShort : min d.maxSize.toNat (f.size - d.offset) < 2147483648)
    (hFits : StrideFits compat d f.size payload) (hSucceeds : Succeeds compat d f.size payload)
    (stack heap : Memory) :
    ∃ rest, (bucketDirectRead compat d (bucketDirectWrite compat d f payload).2 stack heap).1 =
    .ok (payload ++ rest) := by
  obtain ⟨hSame, hLoad⟩ := load_written hSize hLen hSucceeds
  obtain ⟨hCompat, hImage⟩ := image_plain hRoom hSucceeds
  obtain ⟨_, hIn, _⟩ := hSucceeds
  rw [StrideFits] at hFits
  rw [hImage] at hIn hLoad hFits
  have hMax := d.maxSize.toNat_lt
  generalize (bucketDirectWrite compat d f payload).2 = g at hSame hLoad
  have hOther := @headerBytes_other d g stack payload hLoad (by omega) hMagic hFirst
  have hRoomFor : payload.length ≤ d.maxSize.toNat := by rcases hFits with hFits | hFits <;> omega
  have hPositive : 0 < d.maxSize.toNat := by
    rw [headRoom_iff hLen] at hRoom
    omega
  rw [bucketDirectRead_eq (by omega) (by omega), if_neg hOther, if_pos hCompat,
    bucketDirectFetch_ok hPositive (by omega) (by dsimp only; omega)
      (by dsimp only; omega) (by dsimp only; omega)]
  dsimp only
  have hSplit : min d.maxSize.toNat (g.size - d.offset) =
      payload.length + (min d.maxSize.toNat (g.size - d.offset) - payload.length) := by omega
  rw [hSplit, load_append, hLoad, filled, append_assoc]
  exact ⟨_, rfl⟩

/-- An empty payload has a header that cannot be read back. -/
theorem payload_ne_nil_of_readsBack (hRoom : d.headRoom payload.length)
    (hFits : StrideFits compat d f.size payload)
    (hSucceeds : Succeeds compat d f.size payload) (h : ReadsBack compat d f payload) :
    payload ≠ [] := by
  intro hNil
  obtain ⟨rest, hOk⟩ := h (bucketDirectWrite_fits hSize hSucceeds.1 hSucceeds.2.1 hSucceeds.2.2)
    (fun _ => 0) (fun _ => 0)
  obtain ⟨hRead, _⟩ :=
    bucketDirectRead_header hSize hLen hRoom hFits hSucceeds (fun _ => 0) (fun _ => 0)
  have hZero : payload.length = 0 := by rw [hNil]; rfl
  rw [hRead, bucketDirectFetch, if_pos hZero] at hOk
  cases hOk

include hRoom in
/-- Without a header, a payload that is the beginning of the magic can be completed by what is on
the device or on the stack. -/
theorem not_magic_of_readsBack (hSucceeds : Succeeds compat d f.size payload)
    (h : ∀ node, ReadsBack compat d { f with node := node } payload) :
    ¬ payload <+: le 4 directMagic := by
  intro hPrefix
  obtain ⟨more, hMore⟩ : payload <+: directMeta 0 := hPrefix.trans (List.prefix_append _ _)
  obtain ⟨hCompat, hImage⟩ := image_plain hRoom hSucceeds
  have hIn := hSucceeds.2.1
  rw [hImage] at hIn
  obtain ⟨rest, hRead⟩ := h (store d.offset (directMeta 0) fun _ => 0)
    (bucketDirectWrite_fits hSize hSucceeds.1 hSucceeds.2.1 hSucceeds.2.2)
      (fun i => (directMeta 0).getD i 0) (fun _ => 0)
  obtain ⟨hNode, hSame⟩ := @bucketDirectWrite_node compat d
    { f with node := store d.offset (directMeta 0) fun _ => 0 } payload
      (by dsimp only; omega) hSize hLen
  rw [hImage, take_of_length_le (by dsimp only; omega)] at hNode
  generalize
    (bucketDirectWrite compat
      d { f with node := store d.offset (directMeta 0) fun _ => 0 } payload).2 = g
    at hNode hSame hRead
  dsimp only at hNode hSame
  have hHeader : headerBytes d g (fun i => (directMeta 0).getD i 0) = directMeta 0 := by
    refine headerBytes_eq (directMeta_length 0) (fun i hi _ => ?_) fun _ _ _ => rfl
    rw [hNode]
    by_cases hPayload : i < payload.length
    · rw [store_of_mem _ (by omega), Nat.add_sub_cancel_left, ← hMore, getD_append _ _ _ _ hPayload]
    · rw [store_of_not_mem _ (by omega), store_of_mem _ (by rw [directMeta_length]; omega),
        Nat.add_sub_cancel_left]
  rw [bucketDirectRead_eq (by omega) (by omega), hHeader, (slice_directMeta 0).1,
    (slice_directMeta 0).2,
    ofLe_le_of_lt (by decide), if_pos rfl, ofLe_le_of_lt (by decide),
      if_neg (by omega), bucketDirectFetch, if_pos rfl]
    at hRead
  cases hRead

include hRoom in
theorem short_of_readsBack (hFirst : payload.take 4 ≠ le 4 directMagic)
    (hMagic : ¬ payload <+: le 4 directMagic) (hSucceeds : Succeeds compat d f.size payload)
    (h : ReadsBack compat d f payload) : min d.maxSize.toNat (f.size - d.offset) < 2147483648 := by
  obtain ⟨hSame, hLoad⟩ := load_written hSize hLen hSucceeds
  obtain ⟨hCompat, hImage⟩ := image_plain hRoom hSucceeds
  have hIn := hSucceeds.2.1
  rw [hImage] at hIn hLoad
  obtain ⟨rest, hRead⟩ := h (bucketDirectWrite_fits hSize hSucceeds.1 hSucceeds.2.1 hSucceeds.2.2)
    (fun _ => 0) (fun _ => 0)
  generalize (bucketDirectWrite compat d f payload).2 = g at hSame hLoad hRead
  by_contra hLong
  have hMax := d.maxSize.toNat_lt
  have hFetch := @bucketDirectFetch_long { g with pos := d.offset }
    (fun _ => 0) d.maxSize.toNat (by omega)
    (by dsimp only; omega) (by dsimp only; omega) (by dsimp only; omega)
  have hOther := @headerBytes_other d g (fun _ => 0) payload hLoad (by omega) hMagic hFirst
  rw [bucketDirectRead_eq (by omega) (by omega), if_neg hOther, if_pos hCompat, hFetch] at hRead
  cases hRead

/-- Every device with these bytes keeps what lies around a bucket and returns its payload exactly if
the condition holds. -/
theorem bucketSound_iff (hFirst : payload.take 4 ≠ le 4 directMagic) :
    (∀ node, Isolated compat d { f with node := node } payload ∧
      ReadsBack compat d { f with node := node } payload) ↔
      BucketSound compat d f.size payload := by
  constructor
  · intro h
    by_cases hPos : f.size < d.offset
    · exact .inl hPos
    have hFits := fits_of_isolated hSize hLen (by omega) fun node => (h node).1
    refine .inr ⟨hFits, fun hSucceeds => ?_⟩
    rw [Readable]
    split
    next hRoom => exact payload_ne_nil_of_readsBack hSize hLen hRoom hFits hSucceeds (h f.node).2
    next hRoom =>
      have hMagic := not_magic_of_readsBack hSize hLen hRoom hSucceeds fun node => (h node).2
      exact ⟨hMagic, short_of_readsBack hSize hLen hRoom hFirst hMagic hSucceeds (h f.node).2⟩
  · intro hSound node
    refine ⟨@isolated_of_fits compat d { f with node := node } payload hSize hLen
      (hSound.imp_right And.left), ?_⟩
    intro hOk stack heap
    rcases hSound with hBehind | ⟨hFits, hReadable⟩
    · rw [@bucketDirectWrite_behind compat d { f with node := node } payload hBehind] at hOk
      cases hOk
    have hSucceeds := @succeeds_of_ok compat d { f with node := node } payload hSize hLen hFits hOk
    have hReadable := hReadable hSucceeds
    rw [Readable] at hReadable
    by_cases hRoom : d.headRoom payload.length
    · rw [if_pos hRoom] at hReadable
      exact ⟨[], @readsBack_header compat d { f with node := node } payload
        hSize hLen hRoom hReadable hFits hSucceeds
        stack heap⟩
    · rw [if_neg hRoom] at hReadable
      exact @readsBack_plain compat d { f with node := node } payload hSize hLen hRoom hReadable.1
        hFirst hReadable.2 hFits
        hSucceeds stack heap

end Isolation

def CopyKept (compat : Bool) (d d' : BucketDirect) (f : File Memory)
    (payload : List UInt8) : Prop :=
  ∀ a, d'.offset ≤ a → a < d'.offset + d'.maxSize.toNat →
    (bucketDirectWrite compat d f payload).2.node a = f.node a

/-- The offset of the third copy does not wrap, or nothing is written there. -/
def CopiesApart (compat : Bool) (offset : Nat) (stridesize : UInt32)
    (size : Nat) (payload : List UInt8) : Prop :=
  stridesize.toNat < 2147483648 ∨ BucketDirect.image compat
    ⟨2, offset, stridesize, false⟩ payload = [] ∨
    size ≤ offset + (2 * stridesize).toNat

theorem mem_storageFileBucketsInit
    (h : storageFileBucketsInit offset stridesize maxSize = .ok buckets) (d : BucketDirect) :
    d ∈ buckets ↔ d = ⟨0, offset, stridesize, false⟩ ∨
    d = ⟨1, offset + stridesize.toNat, stridesize, false⟩ ∨
      d = ⟨2, offset + (2 * stridesize).toNat, stridesize, false⟩ := by
  unfold storageFileBucketsInit at h
  split at h
  · cases h
  split at h
  · cases h
  cases h
  have hRange : range desiredBuckets.toNat = [0, 1, 2] := rfl
  simp [hRange]

section Copies
variable {compat : Bool} {f : File Memory} {payload : List UInt8}
    (hSize : f.size < 9223372036854775808)
  (hLen : payload.length < 9223372036854775808)
include hSize hLen

/-- A write leaves what lies in front of its bucket or behind the device, and everything if it is
refused. -/
theorem bucketDirectWrite_untouched {d : BucketDirect} {a : Nat}
    (h : a < d.offset ∨ f.size ≤ a ∨ d.image compat payload = []) :
    (bucketDirectWrite compat d f payload).2.node a = f.node a := by
  by_cases hPos : f.size < d.offset
  · rw [bucketDirectWrite_behind hPos]
  rw [(bucketDirectWrite_node (by omega) hSize hLen).1]
  refine store_of_not_mem _ ?_
  rw [length_take]
  rcases h with h | h | h
  · omega
  · omega
  · simp [h]

theorem kept_iff_copiesApart
    (hInit : storageFileBucketsInit offset stridesize maxSize = .ok buckets)
    (hSound : ∀ d ∈ buckets, BucketSound compat d f.size payload) :
    (∀ d ∈ buckets, ∀ d' ∈ buckets, d.num ≠ d'.num → ∀ node,
      CopyKept compat d d' { f with node := node } payload) ↔
      CopiesApart compat offset stridesize f.size payload := by
  have hMem := mem_storageFileBucketsInit hInit
  have hStride := stridesize.toNat_lt
  have hTwice : (2 * stridesize).toNat = 2 * stridesize.toNat % 4294967296 := UInt32.toNat_mul _ _
  constructor
  · intro hKept
    by_contra hNot
    rw [CopiesApart, not_or, not_or] at hNot
    obtain ⟨hLarge, hImage, hDevice⟩ := hNot
    have hPositive := length_pos_iff.mpr hImage
    obtain ⟨node, hChanged⟩ :=
      @exists_changed compat ⟨2, offset + (2 * stridesize).toNat, stridesize, false⟩ f payload
      hSize hLen (by dsimp only; omega) 0 hPositive (by dsimp only; omega)
    refine hChanged
      (hKept _ ((hMem _).mpr (.inr (.inr rfl))) _ ((hMem _).mpr (.inl rfl)) (Nat.succ_ne_zero 1)
      node _ ?_ ?_)
    · dsimp only
      omega
    · dsimp only
      omega
  · intro hApart d hd d' hd' hNum node a hLow hHigh
    by_cases hSmall : stridesize.toNat < 2147483648
    · refine @isolated_of_fits compat d { f with node := node } payload hSize hLen
        ((hSound d hd).imp_right And.left) a ?_
      rw [Nat.mod_eq_of_lt (by omega)] at hTwice
      rcases (hMem d).mp hd with rfl | rfl | rfl <;>
          rcases (hMem d').mp hd' with rfl | rfl | rfl <;>
        first
        | exact absurd rfl hNum
        | (dsimp only at hLow hHigh ⊢; omega)
    · refine @bucketDirectWrite_untouched compat { f with node := node } payload hSize hLen d a ?_
      rcases hApart.resolve_left hSmall with hImage | hDevice
      · refine .inr (.inr ?_)
        rcases (hMem d).mp hd with rfl | rfl | rfl <;> exact hImage
      rcases (hMem d).mp hd with rfl | rfl | rfl <;>
          rcases (hMem d').mp hd' with rfl | rfl | rfl <;>
        first
        | exact absurd rfl hNum
        | (dsimp only at hLow hHigh ⊢; omega)

end Copies

/-- A bucket keeps to its range and returns its payload on every device exactly if what it writes
fits into the stride and can be told from a header; then the copies of a storage are apart exactly
if their offsets do not wrap. -/
theorem direct_isolation_iff (compat : Bool) (f : File Memory)
    (payload : List UInt8) (hSize : f.size < 9223372036854775808)
    (hLen : payload.length < 9223372036854775808) (hFirst : payload.take 4 ≠ le 4 directMagic) :
    (∀ d, (∀ node, Isolated compat d { f with node := node } payload ∧
      ReadsBack compat d { f with node := node } payload) ↔
      BucketSound compat d f.size payload) ∧
    ∀ offset stridesize maxSize buckets, storageFileBucketsInit offset stridesize maxSize =
    .ok buckets →
      (∀ d ∈ buckets, BucketSound compat d f.size payload) →
      ((∀ d ∈ buckets, ∀ d' ∈ buckets, d.num ≠ d'.num → ∀ node,
        CopyKept compat d d' { f with node := node } payload) ↔
        CopiesApart compat offset stridesize f.size payload) :=
  ⟨fun _ => bucketSound_iff hSize hLen hFirst,
    fun _ _ _ _ hInit hSound => kept_iff_copiesApart hSize hLen hInit hSound⟩

/-- Three copies of 64 bytes each, and a payload of two bytes. -/
theorem direct_isolation_iff_small :
    let f : File Memory := ⟨0, 192, fun _ => 0⟩
    (∀ node, Isolated true ⟨1, 64, 64, false⟩ { f with node := node } [1, 2] ∧
      ReadsBack true ⟨1, 64, 64, false⟩ { f with node := node } [1, 2]) := by
  intro f
  refine ((direct_isolation_iff true f [1, 2] (by decide) (by decide) (by decide)).1
    ⟨1, 64, 64, false⟩).mpr ?_
  refine .inr ⟨.inl (by decide), fun _ => ?_⟩
  rw [Readable, if_pos (by decide)]
  decide

/-- With `CONFIG_STATE_BACKWARD_COMPATIBLE`, a payload of 24 bytes for a stride of 16 bytes is
written over the first bytes of the next copy, and the write succeeds. -/
theorem directWrite_damages_copy :
    let buckets := storageFileBucketsInit 0 16 48
    let f : File Memory := ⟨0, 48, fun _ => 0⟩
    let write := bucketDirectWrite true ⟨0, 0, 16, false⟩ f (replicate 24 1)
    buckets = .ok [⟨0, 0, 16, false⟩, ⟨1, 16, 16, false⟩, ⟨2, 32, 16, false⟩] ∧
      write.1 = .ok () ∧ f.node 16 = 0 ∧ write.2.node 16 = 1 := by
  refine ⟨rfl, ?_, rfl, ?_⟩ <;> decide +kernel

end Barebox.State
