import Barebox.State.Copies
import Barebox.State.DirectIsolation
import Barebox.State.ReadOnly

/-! Direct and circular buckets keep copies. A direct bucket needs its stride of the device, and
room for the header; a circular one reads as many bytes as the record had that it found at the
start. -/
namespace Barebox.State
open Bytes Flash Fs List Memory

section Direct
variable {compat : Bool} {d : BucketDirect} {f f' : File Memory}
    {stack heap : Memory} {y : List UInt8}

theorem load_congr {m m' : Memory} {pos len : Nat} (h : ∀ a, pos ≤ a → a < pos + len → m' a = m a) :
    load pos len m' = load pos len m :=
  map_congr_left fun _ hi => h _ (Nat.le_add_right _ _) (Nat.add_lt_add_left (mem_range.mp hi) _)

/-- What is fetched starts with the same bytes if the device has the same bytes there. -/
theorem bucketDirectFetch_congr {pos w n : Nat} (hSize : f.size < 9223372036854775808)
    (hSame : f'.size = f.size)
    (hPos : pos ≤ f.size) (hw : w < 4294967296)
    (hNode : ∀ a, pos ≤ a → a < pos + n → f'.node a = f.node a)
    (hy : y.length ≤ n) {buf : List UInt8}
    (hFetch : bucketDirectFetch { f with pos := pos } heap w = .ok buf)
    (hPrefix : y <+: buf) :
    ∃ buf', bucketDirectFetch { f' with pos := pos } heap w = .ok buf' ∧ y <+: buf' := by
  have hZero : 0 < w := by
    by_contra hZero
    rw [bucketDirectFetch, if_pos (by omega)] at hFetch
    cases hFetch
  have hShort : min w (f.size - pos) < 2147483648 := by
    by_contra hLong
    rw [@bucketDirectFetch_long { f with pos := pos } heap w hw hPos hSize
      (by dsimp only; omega)] at hFetch
    cases hFetch
  rw [@bucketDirectFetch_ok { f with pos := pos } heap w hZero hw hPos hSize hShort] at hFetch
  cases hFetch
  have hSize' : f'.size < 9223372036854775808 := by omega
  refine ⟨_, @bucketDirectFetch_ok { f' with pos := pos } heap w hZero hw
    (by dsimp only; omega) hSize'
    (by dsimp only; omega), ?_⟩
  dsimp only at hPrefix ⊢
  rw [hSame]
  have hTake : (filled heap w (load pos (min w (f.size - pos)) f'.node)).take y.length =
      (filled heap w (load pos (min w (f.size - pos)) f.node)).take y.length := by
    rw [filled, filled, take_append, take_append, load_length, load_length]
    congr 1
    generalize min w (f.size - pos) = k
    refine ext_getElem? fun i => ?_
    by_cases hi : i < y.length
    · rw [getElem?_take_of_lt hi, getElem?_take_of_lt hi, load, load, getElem?_map, getElem?_map]
      cases hRange : (range k)[i]? with
      | none => rfl
      | some j =>
        have hj : j = i := by
          obtain ⟨_, hEq⟩ := List.getElem?_eq_some_iff.mp hRange
          rw [getElem_range] at hEq
          exact hEq.symm
        rw [Option.map_some, Option.map_some, hNode (pos + j) (by omega) (by omega)]
    · rw [getElem?_take_eq_none (by omega), getElem?_take_eq_none (by omega)]
  rw [prefix_iff_eq_take] at hPrefix ⊢
  rw [hTake]
  exact hPrefix

/-- A direct bucket reads the same bytes from a device that has the same bytes in its stride. -/
theorem bucketDirectRead_congr (hSize : f.size < 9223372036854775808) (hSame : f'.size = f.size)
    (hIn : d.offset + d.maxSize.toNat ≤ f.size) (hy : y.length + 8 ≤ d.maxSize.toNat)
    (hNode : ∀ a, d.offset ≤ a → a < d.offset + d.maxSize.toNat → f'.node a = f.node a)
    {buf : List UInt8}
    (hRead : (bucketDirectRead compat d f stack heap).1 = .ok buf) (hPrefix : y <+: buf) :
    ∃ buf', (bucketDirectRead compat d f' stack heap).1 = .ok buf' ∧ y <+: buf' := by
  have hMax := d.maxSize.toNat_lt
  have hHeader : headerBytes d f' stack = headerBytes d f stack := by
    rw [headerBytes, headerBytes, hSame, load_congr fun a h h' => hNode a h (by omega)]
  rw [bucketDirectRead_eq (by omega) hSize] at hRead
  rw [bucketDirectRead_eq (by omega) (by omega), hHeader]
  have hEight : min 8 (f.size - d.offset) = 8 := by omega
  rw [hEight] at hRead
  have hEight' : min 8 (f'.size - d.offset) = 8 := by omega
  rw [hEight']
  generalize ofLe (slice 0 4 (headerBytes d f stack)) = magic at *
  generalize ofLe (slice 4 4 (headerBytes d f stack)) = w at *
  split at hRead
  next hMagic =>
    rw [if_pos hMagic]
    split at hRead
    · cases hRead
    next hLen =>
      rw [if_neg hLen]
      exact bucketDirectFetch_congr hSize hSame (by omega) (by omega)
        (fun a h h' => hNode a (by omega) (by omega)) (Nat.le_sub_of_add_le hy) hRead hPrefix
  next hMagic =>
    rw [if_neg hMagic]
    split at hRead
    next hCompat =>
      rw [if_pos hCompat]
      exact bucketDirectFetch_congr hSize hSame (by omega) (by omega) hNode (by omega) hRead hPrefix
    · cases hRead

theorem bucketDirectRead_dev : (bucketDirectRead compat d f stack heap).2.offset = d.offset ∧
    (bucketDirectRead compat d f stack heap).2.maxSize = d.maxSize := by
  unfold bucketDirectRead
  split
  · exact ⟨rfl, rfl⟩
  split
  · exact ⟨rfl, rfl⟩
  dsimp only
  split_ifs
  all_goals first
    | exact ⟨rfl, rfl⟩
    | split <;> exact ⟨rfl, rfl⟩

end Direct

section Circular
variable {g : Geometry} {c : BucketCircular g} {used x : List UInt8}

theorem bucketCircularRead_dev (h : c.peb.onRead = .clean) :
    (bucketCircularRead c).2 = c ∨ (bucketCircularRead c).2 = c.rewind := by
  have hRange (c' : BucketCircular g) (h' : c'.peb.onRead = .clean) (offset readLen : Nat) :
      (bucketCircularReadRange c' offset readLen).2 = c' := by
    unfold bucketCircularReadRange mtdPebRead
    rw [h']
    split <;> rfl
  unfold bucketCircularRead
  split_ifs
  · exact .inl rfl
  · exact .inr (hRange c.rewind h _ _)
  · exact .inr rfl
  · exact .inl (hRange c h _ _)

theorem HoldsLog.onRead (h : HoldsLog c used) : c.peb.onRead = .clean := by
  rw [h.good]
  rfl

/-- The payload in front of the meta of its record. -/
theorem Fits.prefix_take (fit : Fits g x) {n : Nat} (h : x.length ≤ n) :
    x <+: (circularRecord g x).take n := by
  rw [fit.record, prefix_take_iff]
  exact ⟨prefix_append _ _, h⟩

/-- A bucket that found a record of this length returns what was written last. -/
theorem HoldsLog.read_written (h : HoldsLog c (logAppend g used x)) (fit : Fits g x)
    (hLast : c.lastWrittenLength = recordLength g x.length) :
    bucketCircularRead c = (.ok (circularRecord g x) (recordLength g x.length - metaSize), c) := by
  have hLength := fit.logAppend_length used
  have hPos := recordLength_pos g x.length
  have hRecord := fit.record_length
  have hRead :=
    h.read_record (by omega) (by omega) (by rw [hLast]; exact writesize_dvd_recordLength _ _)
  have hSlice : slice ((logAppend g used x).length - recordLength g x.length)
      (recordLength g x.length)
      (logAppend g used x) = circularRecord g x := by
    rw [hLength, Nat.add_sub_cancel, logAppend, slice, drop_left, take_of_length_le hRecord.le]
  rw [hLast, hSlice] at hRead
  exact hRead

theorem logKept_nil (x : List UInt8) : logKept g [] x = [] := by
  unfold logKept
  exact ite_self _

/-- An empty bucket returns the first record, and is empty again. -/
theorem HoldsLog.read_first (h : HoldsLog c (circularRecord g x)) (fit : Fits g x) (hx : x ≠ [])
    (hLast : c.lastWrittenLength = 0) :
    ∃ p, (bucketCircularRead c).1.payload = some p ∧ x <+: p.1.take p.2 := by
  have hRecord := fit.record_length
  have hRoom := add_metaSize_le_recordLength g x.length
  have hFits : recordLength g x.length ≤ g.maxSize := fit
  have hSome : 0 < x.length := length_pos_iff.mpr hx
  rw [h.read_old hLast (by omega)]
  refine ⟨_, rfl, ?_⟩
  dsimp only
  rw [take_take, Nat.min_self]
  exact fit.prefix_take (by omega)

/-- A bucket that returns a record of this length is the same afterwards. -/
theorem HoldsLog.read_same (h : HoldsLog c used) {p : Payload}
    (hRead : (bucketCircularRead c).1.payload = some p)
    (hLast : c.lastWrittenLength = recordLength g x.length ∨ c.writeArea = 0) :
    (bucketCircularRead c).2 = c := by
  have hUsed : used ≠ [] := by
    rintro rfl
    rw [bucketCircularRead_empty h.area] at hRead
    cases hRead
  have hSome : 0 < used.length := length_pos_iff.mpr hUsed
  have hArea := h.area
  rcases hLast with hLast | hEmpty
  · have hPos := recordLength_pos g x.length
    by_cases hLe : c.lastWrittenLength ≤ used.length
    · rw [h.read_record (by omega) hLe (by rw [hLast]; exact writesize_dvd_recordLength _ _)]
    · rw [h.read_invalid hUsed (by omega) (.inl (by omega))] at hRead
      cases hRead
  · omega

/-- What a bucket takes it returns, if it found a record of this length or was empty. -/
theorem HoldsLog.write_read (h : HoldsLog c used) (fit : Fits g x) (hx : x ≠ [])
    (hLast : c.lastWrittenLength = recordLength g x.length ∨
      c.lastWrittenLength = 0 ∧ c.writeArea = 0) :
    ∃ c', bucketCircularWrite c x = (.ok (), c') ∧
      ∃ p, (bucketCircularRead c').1.payload = some p ∧ x <+: p.1.take p.2 := by
  obtain ⟨c', hWrite, hLog, hSame, -⟩ := h.write fit
  refine ⟨c', hWrite, ?_⟩
  rcases hLast with hLast | ⟨hZero, hArea⟩
  · have hRoom := add_metaSize_le_recordLength g x.length
    rw [hLog.read_written fit (hSame.trans hLast)]
    exact ⟨_, rfl, fit.prefix_take (Nat.le_sub_of_add_le hRoom)⟩
  · have hUsed : used = [] := length_eq_zero_iff.mp (h.area.symm.trans hArea)
    rw [hUsed, logAppend, logKept_nil, nil_append] at hLog
    exact hLog.read_first fit hx (hSame.trans hZero)

end Circular

section Any
variable {g : Geometry}

/-- Two buckets have nothing in common: the strides of direct ones do not overlap. -/
def AnyBucket.Apart : AnyBucket g → AnyBucket g → Prop
  | .direct d, .direct e => d.offset + d.maxSize.toNat ≤ e.offset ∨
      e.offset + e.maxSize.toNat ≤ d.offset
  | _, _ => True

/-- A direct bucket has its stride on the device, with room for a header and the byte strings `X`.
-/
def AnyBucket.Safe (X : Set (List UInt8)) (f : File Memory) : AnyBucket g → Prop
  | .direct d => f.size < 9223372036854775808 ∧ d.offset + d.maxSize.toNat ≤ f.size ∧
      ∀ x ∈ X, x ≠ [] ∧ x.length + 8 ≤ d.maxSize.toNat ∧ x.length < 2147483648
  | .circular _ => True

/-- The block of a circular bucket answers without errors, and the byte strings `X` make records of
the length that was found when the bucket was set up; or the block is empty, if that is allowed. -/
def AnyBucket.Ready (empty : Prop) (X : Set (List UInt8)) (f : File Memory) : AnyBucket g → Prop
  | .direct d => AnyBucket.Safe X f (.direct d : AnyBucket g)
  | .circular c => (∃ used, HoldsLog c used) ∧ ∀ x ∈ X, x ≠ [] ∧ Fits g x ∧
      (c.lastWrittenLength = recordLength g x.length ∨ empty ∧
        c.lastWrittenLength = 0 ∧ c.writeArea = 0)

variable {compat : Bool} {stack heap : Memory} {empty : Prop} {X : Set (List UInt8)}

theorem AnyBucket.Safe.of_size {f f' : File Memory} {dev : AnyBucket g}
    (h : dev.Safe X f) (hSize : f'.size = f.size) :
    dev.Safe X f' := by
  cases dev with
  | direct d =>
    obtain ⟨hLt, hIn, hRoom⟩ := h
    exact ⟨hSize.trans_lt hLt, hIn.trans_eq hSize.symm, hRoom⟩
  | circular c => trivial

theorem anyOps_read_direct (readonly : Bool) (d : BucketDirect) (f : File Memory) :
    (anyOps (g := g) compat readonly stack heap).read (.direct d) f =
      (match (bucketDirectRead compat d f stack heap).1 with
        | .ok buf => .ok buf buf.length
        | .error e => .error (errnoOf e),
        .direct (bucketDirectRead compat d f stack heap).2, f) := by
  simp only [anyOps]
  rcases bucketDirectRead compat d f stack heap with ⟨_ | _, d'⟩ <;> rfl

/-- A direct bucket shows what its read starts with. -/
theorem shows_direct_iff {readonly : Bool} {d : BucketDirect} {f : File Memory} {x : List UInt8} :
    Shows (anyOps (g := g) compat readonly stack heap) x (.direct d) f ↔
      ∃ buf, (bucketDirectRead compat d f stack heap).1 = .ok buf ∧ x <+: buf := by
  rw [Shows, anyOps_read_direct]
  cases hRead : (bucketDirectRead compat d f stack heap).1 with
  | error e => simp [BucketRead.payload]
  | ok buf => simp [BucketRead.payload]

/-- A write that fits the stride succeeds, is read again, and leaves the rest of the device. -/
theorem bucketDirectWrite_safe {d : BucketDirect} {f : File Memory} {x : List UInt8} (hx : x ∈ X)
    (h : AnyBucket.Safe X f (.direct d : AnyBucket g)) :
    (bucketDirectWrite compat d f x).1 = .ok () ∧ (bucketDirectWrite compat d f x).2.size = f.size ∧
      (bucketDirectRead compat d (bucketDirectWrite compat d f x).2 stack heap).1 = .ok x ∧
      Isolated compat d f x := by
  obtain ⟨hSize, hIn, hRoom⟩ := h
  obtain ⟨hSome, hFits, hShort⟩ := hRoom x hx
  have hHead : d.headRoom x.length := (headRoom_iff (by omega)).mpr (.inr hFits)
  have hImage : (d.image compat x).length = 8 + x.length := by
    rw [BucketDirect.image, if_pos hHead, length_append, directMeta_length]
  have hSucceeds : Succeeds compat d f.size x := ⟨.inl hHead, by omega, hShort⟩
  have hStride : StrideFits compat d f.size x := .inl (by omega)
  have hRead := readsBack_header hSize (by omega) hHead hSome hStride hSucceeds stack heap
  rw [append_nil] at hRead
  exact ⟨bucketDirectWrite_fits hSize hSucceeds.1 hSucceeds.2.1 hShort,
    (load_written hSize (by omega) hSucceeds).1, hRead,
      isolated_of_fits hSize (by omega) (.inr hStride)⟩

theorem anyOps_write_direct {d : BucketDirect} {f : File Memory} {x : List UInt8} (hx : x ∈ X)
    (h : AnyBucket.Safe X f (.direct d : AnyBucket g)) :
    (anyOps (g := g) compat false stack heap).write (.direct d) f x =
      (.ok (), .direct d, (bucketDirectWrite compat d f x).2) := by
  have hOk := (@bucketDirectWrite_safe g compat stack heap X d f x hx h).1
  simp only [anyOps]
  rcases hWrite : bucketDirectWrite compat d f x with ⟨ret, f'⟩
  rw [hWrite] at hOk
  dsimp only at hOk
  subst hOk
  rfl

/-- Direct and circular buckets keep copies. -/
theorem anyOps_keepsCopies :
    KeepsCopies (anyOps (g := g) compat false stack heap) X (AnyBucket.Safe X)
    (AnyBucket.Ready empty X) AnyBucket.Apart where
  sized dev f p h := by
    cases dev with
    | direct d =>
      rw [anyOps_read_direct] at h
      cases hRead : (bucketDirectRead compat d f stack heap).1 with
      | error e =>
        rw [hRead] at h
        cases h
      | ok buf =>
        rw [hRead] at h
        cases h
        exact le_rfl
    | circular c => exact circularOps_sized c p h
  symm dev dev' h := by
    cases dev with
    | circular c => cases dev' <;> trivial
    | direct d =>
      cases dev' with
      | circular c => trivial
      | direct e => exact Or.symm h
  safe f dev h := by
    cases dev with
    | direct d => exact h
    | circular c => trivial
  readShared := anyOps_read_shared
  readApart dev dev' f h := by
    cases dev with
    | circular c => cases dev' <;> trivial
    | direct d =>
      rw [anyOps_read_direct]
      obtain ⟨hOffset, hMax⟩ := @bucketDirectRead_dev compat d f stack heap
      cases dev' with
      | circular c => trivial
      | direct e =>
        simp only [AnyBucket.Apart, hOffset, hMax] at h ⊢
        exact h
  readReady dev f h := by
    cases dev with
    | direct d =>
      rw [anyOps_read_direct]
      obtain ⟨hOffset, hMax⟩ := @bucketDirectRead_dev compat d f stack heap
      simp only [AnyBucket.Ready, AnyBucket.Safe, hOffset, hMax] at h ⊢
      exact h
    | circular c =>
      obtain ⟨⟨used, hLog⟩, hRoom⟩ := h
      rcases bucketCircularRead_dev hLog.onRead with hDev | hDev
      · simp only [anyOps, hDev]
        exact ⟨⟨used, hLog⟩, hRoom⟩
      · simp only [anyOps, hDev]
        exact ⟨⟨[], hLog.rewind⟩, fun x hx => ⟨(hRoom x hx).1, (hRoom x hx).2.1,
          (hRoom x hx).2.2.imp_right fun h => ⟨h.1, h.2.1, rfl⟩⟩⟩
  readAgain dev f x hx h hShows := by
    cases dev with
    | direct d =>
      obtain ⟨hSize, hIn, -⟩ := h
      rw [anyOps_read_direct]
      rw [shows_direct_iff] at hShows ⊢
      obtain ⟨hOffset, hMax⟩ := @bucketDirectRead_dev compat d f stack heap
      generalize (bucketDirectRead compat d f stack heap).2 = d' at *
      rw [bucketDirectRead_eq (by omega) hSize] at hShows ⊢
      simp only [headerBytes, hOffset, hMax] at hShows ⊢
      exact hShows
    | circular c =>
      obtain ⟨⟨used, hLog⟩, hRoom⟩ := h
      obtain ⟨p, hp, -⟩ := id hShows
      have hSame : (bucketCircularRead c).2 = c :=
        hLog.read_same hp ((hRoom x hx).2.2.imp_right fun h => h.2.2)
      change Shows _ x (AnyBucket.circular (bucketCircularRead c).2) f
      rw [hSame]
      exact hShows
  write dev f x hx h := by
    cases dev with
    | direct d =>
      obtain ⟨-, hSize, hRead, -⟩ := @bucketDirectWrite_safe g compat stack heap X d f x hx h
      rw [anyOps_write_direct hx h]
      exact ⟨rfl, AnyBucket.Safe.of_size h hSize, shows_direct_iff.mpr ⟨x, hRead, prefix_refl x⟩⟩
    | circular c =>
      obtain ⟨⟨used, hLog⟩, hRoom⟩ := h
      obtain ⟨hSome, fit, hLast⟩ := hRoom x hx
      obtain ⟨c', hWrite, hRead⟩ := hLog.write_read fit hSome (hLast.imp_right fun h => h.2)
      have hDev : (anyOps (g := g) compat false stack heap).write (.circular c) f x =
          (.ok (), .circular c', f) := by
        simp only [anyOps, hWrite]
      rw [hDev]
      exact ⟨rfl, trivial, hRead⟩
  writeApart dev dev' f x h := by
    cases dev with
    | circular c => cases dev' <;> trivial
    | direct d =>
      have hDev : ((anyOps (g := g) compat false stack heap).write (.direct d) f x).2.1 =
          .direct d := by
        simp only [anyOps]
        rcases bucketDirectWrite compat d f x with ⟨_ | _, f'⟩ <;> rfl
      rw [hDev]
      exact h
  writeOther dev dev' f x hx h hApart := by
    cases dev with
    | circular c =>
      have hFile : ((anyOps (g := g) compat false stack heap).write (.circular c) f x).2.2 = f :=
        rfl
      rw [hFile]
      exact ⟨id, id, fun _ _ _ => id⟩
    | direct d =>
      obtain ⟨-, hSize, -, hIsolated⟩ := @bucketDirectWrite_safe g compat stack heap X d f x hx h
      rw [anyOps_write_direct hx h]
      cases dev' with
      | circular c => exact ⟨id, id, fun _ _ _ => id⟩
      | direct e =>
        have hKeep (h : AnyBucket.Safe X f (.direct e : AnyBucket g)) :
            AnyBucket.Safe X (bucketDirectWrite compat d f x).2 (.direct e : AnyBucket g) :=
              h.of_size hSize
        refine ⟨hKeep, hKeep, fun y hy hSafe hShows => ?_⟩
        obtain ⟨buf, hRead, hPrefix⟩ := shows_direct_iff.mp hShows
        obtain ⟨hLt, hIn, hRoom⟩ := hSafe
        refine shows_direct_iff.mpr
          (bucketDirectRead_congr hLt hSize hIn (hRoom y hy).2.1 ?_ hRead hPrefix)
        intro a hLow hHigh
        refine hIsolated a ?_
        rcases hApart with hBefore | hBehind <;> omega

end Any

/-- The bucket that `state_backend_bucket_circular_init` makes of a block with the counter. -/
def counterBucket : BucketCircular sampleGeometry := ⟨.good counterBlock, 32, 32, false, by decide⟩

def emptyBucket : BucketCircular sampleGeometry := ⟨.good (.erased _), 0, 0, false, by decide⟩

def counterPair : Storage (AnyBucket sampleGeometry) (File Memory) where
  buckets := [{ dev := .circular counterBucket }, { dev := .circular emptyBucket }]
  shared := ⟨0, 0, fun _ => 0⟩

end Barebox.State
