import Barebox.State.Refresh
import Barebox.State.BucketDirect

/-! Read-only states. `state_storage_write` does nothing for them, and a direct bucket
is opened such that writes are rejected; the refresh at the end of a load is not
held back, and a circular bucket does what it is told. -/
namespace Barebox.State
open Bytes Flash Fs Of List
variable {g : Geometry}

inductive AnyBucket (g : Geometry) where
  | direct (d : BucketDirect)
  | circular (c : BucketCircular g)

/-- The error of a bucket on a file. The source passes on whatever the file functions return; a
negative length and an access outside of a buffer have no errno of their own and count as `EIO`. -/
def errnoOf : Fs.Failure → Errno
  | .errno e => e
  | .negative | .fault => .eio

/-- The buckets of a storage that is read-only or not. A descriptor opened with `O_RDONLY`
rejects writes. -/
def anyOps (compat readonly : Bool) (stack heap : Memory) :
    BucketOps (AnyBucket g) (File Memory) where
  read
    | .direct d, f =>
      match bucketDirectRead compat d f stack heap with
      | (.ok buf, d) => (.ok buf buf.length, .direct d, f)
      | (.error e, d) => (.error (errnoOf e), .direct d, f)
    | .circular c, f => ((bucketCircularRead c).1, .circular (bucketCircularRead c).2, f)
  write
    | .direct d, f, buf =>
      if readonly then (.error .eperm, .direct d, f)
      else
        match bucketDirectWrite compat d f buf with
        | (.ok (), f) => (.ok (), .direct d, f)
        | (.error e, f) => (.error (errnoOf e), .direct d, f)
    | .circular c, f, buf =>
        ((bucketCircularWrite c buf).1, .circular (bucketCircularWrite c buf).2, f)
  wrongMagic
    | .direct d => d.wrongMagic
    | .circular c => c.wrongMagic

def AnyBucket.block : AnyBucket g → Option (Block g.maxSize)
  | .direct _ => none
  | .circular c => some c.peb.block

/-- The bytes behind a storage: the device of the direct buckets and the eraseblocks of the circular
ones. -/
def Storage.backing (s : Storage (AnyBucket g) (File Memory)) :
    File Memory × List (Option (Block g.maxSize)) :=
  (s.shared, s.buckets.map (·.dev.block))

def AnyBucket.quiet : AnyBucket g → Bool
  | .direct _ => true
  | .circular c =>
    match c.peb.onRead with
    | .eccError _ => false
    | _ => true

def Bucket.agrees (buf : List UInt8) (len : Nat) (b : Bucket (AnyBucket g)) : Bool :=
  match b.dev with
  | .direct _ => true
  | .circular _ => !refreshes buf len b

section Frame
variable {compat : Bool} {stack heap : Memory} {f : Type} {c : BucketCircular g}
  (h : ∀ torture, c.peb.onRead ≠ .eccError torture)
include h

theorem bucketCircularReadRange_block (offset readLen : Nat) :
    (bucketCircularReadRange c offset readLen).2.peb.block = c.peb.block := by
  have hRead : (mtdPebRead c offset readLen).2 = c := by
    unfold mtdPebRead
    cases hStatus : c.peb.onRead with
    | clean => rfl
    | bitflips => rfl
    | eccError torture => exact absurd hStatus (h torture)
    | failed e done => rfl
  unfold bucketCircularReadRange
  split
  · rfl
  rcases hEq : mtdPebRead c offset readLen with ⟨_ | ⟨_ | _, buf⟩, c'⟩
  all_goals
    rw [hEq] at hRead
    exact congrArg (·.peb.block) hRead

theorem bucketCircularRead_block : (bucketCircularRead c).2.peb.block = c.peb.block := by
  unfold bucketCircularRead
  split
  · rfl
  split
  · exact bucketCircularReadRange_block (c := c.rewind) h _ _
  split
  · rfl
  · exact bucketCircularReadRange_block h _ _

omit h

theorem anyOps_read_shared {readonly : Bool} (b : AnyBucket g) (shared : File Memory) :
    ((anyOps compat readonly stack heap).read b shared).2.2 = shared := by
  cases b with
  | direct d =>
    simp only [anyOps]
    split <;> rfl
  | circular c => rfl

theorem anyOps_read_block {readonly : Bool} {b : AnyBucket g} (h : b.quiet = true)
    (shared : File Memory) :
    ((anyOps compat readonly stack heap).read b shared).2.1.block = b.block := by
  cases b with
  | direct d =>
    simp only [anyOps]
    split <;> rfl
  | circular c =>
    refine congrArg some (bucketCircularRead_block fun torture hStatus => ?_)
    rw [AnyBucket.quiet, hStatus] at h
    cases h

theorem bucketRefresh_frame {buf : List UInt8} {len : Nat} {b : Bucket (AnyBucket g)}
    (h : b.agrees buf len = true)
    (shared : File Memory) :
    (bucketRefresh (anyOps compat true stack heap) buf len b shared).2.1.dev.block = b.dev.block ∧
      (bucketRefresh (anyOps compat true stack heap) buf len b shared).2.2 = shared := by
  unfold bucketRefresh
  split
  next hDue =>
    unfold Bucket.agrees at h
    cases hDev : b.dev with
    | direct d =>
      simp [anyOps]
    | circular c =>
      rw [hDev] at h
      have hRefresh : refreshes buf len b = true := decide_eq_true hDue
      simp only [hRefresh] at h
      cases h
  next => exact ⟨rfl, rfl⟩

theorem bucketsRefresh_frame {buf : List UInt8} {len : Nat} {buckets : List (Bucket (AnyBucket g))}
    (h : ∀ b ∈ buckets, b.agrees buf len = true) (shared : File Memory) :
    (bucketsRefresh (anyOps compat true stack heap) buf len buckets shared).2.1.map (·.dev.block) =
        buckets.map (·.dev.block) ∧
      (bucketsRefresh (anyOps compat true stack heap) buf len buckets shared).2.2 = shared := by
  induction buckets generalizing shared with
  | nil => exact ⟨rfl, rfl⟩
  | cons b rest ih =>
    obtain ⟨hBlock, hShared⟩ :=
      @bucketRefresh_frame g compat stack heap buf len b (h b (.head _)) shared
    obtain ⟨hBlocks, hShared'⟩ := ih (fun b hb => h b (.tail _ hb))
      (bucketRefresh (anyOps compat true stack heap) buf len b shared).2.2
    refine ⟨?_, hShared'.trans hShared⟩
    rw [map_cons, ← hBlock, ← hBlocks]
    rfl

theorem storageRestore_frame {checked : List (Except Errno Unit × Bucket (AnyBucket g))}
    (h : ∀ ret used, checked.find? (·.1.isOk) = some (ret, used) → ∀ c ∈ checked,
      c.2.agrees used.buf used.len = true)
    (shared : File Memory) (format : f) :
    (storageRestore (anyOps compat true stack heap) true checked shared format).storage.backing =
      (shared, checked.map (·.2.dev.block)) := by
  have hSplit := takeWhile_append_dropWhile (p := fun c => !c.1.isOk) (l := checked)
  rw [List.find?_eq_head?_dropWhile_not] at h
  rw [storageRestore, span_eq_takeWhile_dropWhile]
  cases hDrop : checked.dropWhile (fun c => !c.1.isOk) with
  | nil => simp [Storage.backing, Function.comp_def]
  | cons c after =>
    obtain ⟨ret, used⟩ := c
    have hAll := h ret used (by rw [hDrop]; rfl)
    rw [hDrop] at hSplit
    generalize checked.takeWhile (fun c => !c.1.isOk) = before at hSplit
    subst hSplit
    have hBefore := @bucketsRefresh_frame g compat stack heap used.buf used.len
      (before.map Prod.snd)
      (by simpa using fun b a hb => hAll (a, b) (mem_append_left _ hb)) shared
    have hAfter := @bucketsRefresh_frame g compat stack heap used.buf used.len (after.map Prod.snd)
      (by simpa using fun b a hb => hAll (a, b) (mem_append_right _ (mem_cons_of_mem _ hb))) shared
    have hUsed := @bucketRefresh_frame g compat stack heap used.buf used.len used
      (hAll (ret, used) (by simp)) shared
    dsimp only
    rcases hB : bucketsRefresh (anyOps compat true stack heap) used.buf used.len
        (before.map Prod.snd) shared with
      ⟨first, before', shared'⟩
    rw [hB] at hBefore
    obtain ⟨hBlocks, rfl⟩ := hBefore
    rcases hA : bucketsRefresh (anyOps compat true stack heap) used.buf used.len
        (after.map Prod.snd) shared' with
      ⟨second, after', shared''⟩
    rw [hA] at hAfter
    obtain ⟨hBlocks', rfl⟩ := hAfter
    rcases hU : bucketRefresh (anyOps compat true stack heap) used.buf used.len used shared'' with
      ⟨last, fresh, shared'⟩
    rw [hU] at hUsed
    obtain ⟨hBlock, rfl⟩ := hUsed
    simp only [Storage.backing, map_append, map_cons, Bucket.release] at hBlocks hBlocks' hBlock ⊢
    rw [hBlocks, hBlocks', hBlock, map_map, map_map]
    rfl

end Frame

section Load
variable (compat : Bool) (stack heap : Memory) (codec : DtbCodec) (magic : Nat) (flags : StateFlags)
  (s : Storage (AnyBucket g) (File Memory)) (format : BackendFormat)

/-- A bucket has the payload `p` already. A circular one is read without bitflips, to a payload with
the bytes of `p`; one that cannot be read counts with the bytes it had before. -/
def Bucket.has (p : Payload) (b : Bucket (AnyBucket g)) : Bool :=
  let len := (verdict codec format magic flags p).2
  match b.dev with
  | .direct _ => true
  | .circular c =>
    !b.needsRefresh &&
      match (bucketCircularRead c).1 with
      | .ok own ownLen =>
        (verdict codec format magic flags (own, ownLen)).2 == len && own.take len == p.1.take len
      | .unclean _ _ => false
      | .error _ => b.len == len && b.buf.take len == p.1.take len

/-- A load has nothing to repair: no copy is accepted, or all buckets have the first one that is
accepted. -/
def cleanLoad : Bool :=
  s.buckets.all (·.dev.quiet) &&
    ((firstAccepted codec format magic flags
      (presented (anyOps compat true stack heap) s.buckets s.shared)).all
        fun p => s.buckets.all (Bucket.has codec magic flags format p))

variable {compat stack heap codec magic flags s format}

theorem bucketCheck_agrees {p : Payload} {b : Bucket (AnyBucket g)} {format' : BackendFormat}
    (hFresh : format'.fresh = format.fresh) (h : b.has codec magic flags format p = true)
    (m : File Memory) :
    (bucketCheck (anyOps compat true stack heap) (formatVerify codec) magic flags b m
      format').2.1.agrees p.1 (verdict codec format magic flags p).2 = true := by
  unfold Bucket.has at h
  unfold Bucket.agrees
  cases hDev : b.dev with
  | direct d =>
    rw [bucketCheck_dev, hDev]
    simp only [anyOps]
    rcases bucketDirectRead compat d m stack heap with ⟨_ | _, d'⟩ <;> rfl
  | circular c =>
    have hVerify (own : List UInt8) (ownLen : Nat) :
        (formatVerify codec format' magic own ownLen flags).2.1 =
          (verdict codec format magic flags (own, ownLen)).2 := by
      rw [← verdict_congr codec magic flags hFresh]
      exact (formatVerify_verdict codec magic flags format' (own, ownLen)).2.1
    rw [hDev] at h
    dsimp only at h
    unfold bucketCheck
    simp only [anyOps, hDev]
    generalize bucketCircularRead c = read at h ⊢
    rcases read with ⟨_ | _ | _, c'⟩ <;> simp_all [refreshes]

/-- A load that has nothing to repair writes nothing. -/
theorem storageRead_frame (hReadonly : s.readonly = true)
    (h : cleanLoad compat stack heap codec magic flags s format = true) :
    (storageRead (anyOps compat true stack heap) (formatVerify codec) magic flags s
      format).storage.backing = s.backing := by
  rw [cleanLoad, Bool.and_eq_true, all_eq_true, Option.all_eq_true] at h
  obtain ⟨hQuiet, hHas⟩ := h
  have hFind := bucketsCheck_find (anyOps compat true stack heap) codec magic flags s.buckets
    s.shared format
  obtain ⟨hShared, hDevs, hEach⟩ := @bucketsCheck_each _ _ (anyOps compat true stack heap) codec
    magic flags anyOps_read_shared s.shared format s.buckets
  rw [storageRead, hReadonly]
  generalize bucketsCheck (anyOps compat true stack heap) (formatVerify codec) magic flags s.buckets
    s.shared format = checked at *
  have hBlocks : checked.1.map (·.2.dev.block) = s.buckets.map (·.dev.block) := by
    have h := congrArg (map AnyBucket.block) hDevs
    rw [map_map, map_map] at h
    exact h.trans (map_congr_left fun b hb => anyOps_read_block (hQuiet b hb) s.shared)
  dsimp only
  rw [storageRestore_frame, hBlocks, hShared]
  · rfl
  · intro ret used hUsed c hc
    rw [hUsed] at hFind
    obtain ⟨p, hp, hEq⟩ := Option.map_eq_some_iff.mp hFind.symm
    obtain ⟨hBuf, hLen⟩ := Prod.mk.inj hEq
    obtain ⟨b, hb, format', hFresh, hCheck⟩ := hEach c hc
    rw [hCheck, ← hBuf, ← hLen]
    exact bucketCheck_agrees hFresh (all_eq_true.mp (hHas p hp) b hb) s.shared

end Load

/-- What happens to a state: it is loaded or saved, its variables are changed, or the medium of the
circular buckets behaves in another way from now on. -/
inductive StoreEvent where
  | load (flags : StateFlags)
  | save
  | edit (state : StateObject)
  | medium (onRead onWrite : Nat → PebStatus) (onErase : Nat → Option Errno)

def AnyBucket.behave (onRead onWrite : PebStatus) (onErase : Option Errno) :
    AnyBucket g → AnyBucket g
  | .direct d => .direct d
  | .circular c => .circular { c with peb := { c.peb with onRead, onWrite, onErase } }

section Run
variable (compat : Bool) (stack heap : Memory) (codec : DtbCodec)

/-- One event on a read-only state; there is no outcome where unpacking has none. -/
def storeStep (b : Backend (AnyBucket g) (File Memory)) :
    StoreEvent → Option (Backend (AnyBucket g) (File Memory))
  | .load flags => (stateDoLoad (anyOps compat true stack heap) codec flags b).map Prod.snd
  | .save => (stateSave (anyOps compat true stack heap) codec b).map Prod.snd
  | .edit state => some { b with state }
  | .medium onRead onWrite onErase =>
    some { b with
      storage.buckets := b.storage.buckets.mapIdx fun i bucket =>
        { bucket with dev := bucket.dev.behave (onRead i) (onWrite i) (onErase i) } }

def storeRun : Backend (AnyBucket g) (File Memory) → List StoreEvent →
    Option (Backend (AnyBucket g) (File Memory))
  | b, [] => some b
  | b, event :: events => (storeStep compat stack heap codec b event).bind (storeRun · events)

def CleanRun : Backend (AnyBucket g) (File Memory) → List StoreEvent → Prop
  | _, [] => True
  | b, event :: events =>
    (∀ flags, event = .load flags →
      cleanLoad compat stack heap codec b.state.magic.toNat flags b.storage b.format = true) ∧
    ∀ b', storeStep compat stack heap codec b event = some b' → CleanRun b' events

variable {compat stack heap codec}

theorem behave_block (onRead onWrite : PebStatus) (onErase : Option Errno) (b : AnyBucket g) :
    (b.behave onRead onWrite onErase).block = b.block := by
  cases b <;> rfl

variable {ret : Except Errno Unit}

theorem stateDoLoad_storage {β σ : Type} {ops : BucketOps β σ}
    {flags : StateFlags} {b b' : Backend β σ} (h : stateDoLoad ops codec flags b = some (ret, b')) :
    b'.storage =
    (storageRead ops (formatVerify codec) b.state.magic.toNat
      flags b.storage b.format).storage := by
  unfold stateDoLoad at h
  dsimp only at h
  split at h
  · cases h
    rfl
  · obtain ⟨⟨ret', state, format⟩, -, hEq⟩ := Option.map_eq_some_iff.mp h
    cases hEq
    rfl

theorem storageRead_readonly {β σ f : Type} (ops : BucketOps β σ)
    (verify : Verify f) (magic : Nat) (flags : StateFlags)
    (s : Storage β σ) (format : f) :
    (storageRead ops verify magic flags s format).storage.readonly = s.readonly := by
  unfold storageRead storageRestore
  dsimp only
  split <;> rfl

theorem stateSave_storage {β σ : Type} {ops : BucketOps β σ} {b b' : Backend β σ}
    (hReadonly : b.storage.readonly = true) (h : stateSave ops codec b = some (ret, b')) :
    b'.storage = b.storage := by
  have hWrite (buf : List UInt8) : storageWrite ops b.storage buf = (.ok (), b.storage) := by
    rw [storageWrite, if_pos hReadonly]
  unfold stateSave at h
  split at h
  · cases h
    rfl
  obtain ⟨⟨packed, format⟩, -, hEq⟩ := Option.map_eq_some_iff.mp h
  cases packed with
  | error e =>
    cases hEq
    rfl
  | ok buf =>
    dsimp only at hEq
    split at hEq
    · cases hEq
      rfl
    · rw [hWrite] at hEq
      cases hEq
      rfl

theorem storeStep_frame {b b' : Backend (AnyBucket g) (File Memory)} {event : StoreEvent}
    (hReadonly : b.storage.readonly = true) (hClean : ∀ flags, event = .load flags →
      cleanLoad compat stack heap codec b.state.magic.toNat flags b.storage b.format = true)
    (hStep : storeStep compat stack heap codec b event = some b') :
    b'.storage.readonly = true ∧ b'.storage.backing = b.storage.backing := by
  cases event with
  | load flags =>
    obtain ⟨⟨ret, loaded⟩, hLoad, rfl⟩ := Option.map_eq_some_iff.mp hStep
    rw [stateDoLoad_storage hLoad]
    exact ⟨(storageRead_readonly _ _ _ _ _ _).trans hReadonly,
      storageRead_frame hReadonly (hClean flags rfl)⟩
  | save =>
    obtain ⟨⟨ret, saved⟩, hSave, rfl⟩ := Option.map_eq_some_iff.mp hStep
    rw [stateSave_storage hReadonly hSave]
    exact ⟨hReadonly, rfl⟩
  | edit state =>
    cases hStep
    exact ⟨hReadonly, rfl⟩
  | medium onRead onWrite onErase =>
    cases hStep
    refine ⟨hReadonly, ?_⟩
    refine Prod.ext rfl (ext_getElem? fun i => ?_)
    simp [Storage.backing, Function.comp_def, behave_block]

/-- In every run of a read-only state whose loads have nothing to repair, the bytes behind the
storage stay. -/
theorem readonly_run_backing (b : Backend (AnyBucket g) (File Memory))
    (hReadonly : b.storage.readonly = true)
    (events : List StoreEvent) (hClean : CleanRun compat stack heap codec b events) :
    ∀ b', storeRun compat stack heap codec b events = some b' →
    b'.storage.backing = b.storage.backing := by
  induction events generalizing b with
  | nil =>
    intro b' hRun
    cases hRun
    rfl
  | cons event events ih =>
    intro b' hRun
    obtain ⟨next, hStep, hRest⟩ := Option.bind_eq_some_iff.mp hRun
    obtain ⟨hSame, hBacking⟩ := storeStep_frame hReadonly hClean.1 hStep
    exact (ih next hSame (hClean.2 next hStep) b' hRest).trans hBacking

end Run

/-- A read-only state of one counter in circular buckets on the given eraseblocks. -/
def counterStore (blocks : List (Block sampleGeometry.maxSize)) :
    Backend (AnyBucket sampleGeometry) (File Memory) where
  state := ⟨counterNode 0, 0x12345678, [counterVar 0 7], false⟩
  storage :=
    { buckets := (mtdBucketsInit (blocks.map .good)).map fun b => { dev := .circular b.dev }
      shared := ⟨0, 0, fun _ => 0⟩
      readonly := true }
  format := .raw {}

def counterBlock : Block sampleGeometry.maxSize :=
  (Block.erased _).program 0 (circularRecord sampleGeometry (packedCounter {}))

/-- Two copies that agree are loaded, and saved after a change. -/
theorem readonly_run_backing_agreeing :
    let events :
    List StoreEvent := [.load {}, .edit ⟨counterNode 0, 0x12345678, [counterVar 0 8], true⟩, .save]
    let run := storeRun false (fun _ => 0) (fun _ => 0) counterCodec
      (counterStore [counterBlock, counterBlock]) events
    run.isSome = true ∧ ∀ b', run = some b' →
      b'.storage.backing = (counterStore [counterBlock, counterBlock]).storage.backing := by
  refine ⟨by decide +kernel, readonly_run_backing _ rfl _ ?_⟩
  refine ⟨fun flags hEvent => ?_, fun b _ => ⟨nofun, fun b _ => ⟨nofun, fun _ _ => trivial⟩⟩⟩
  cases hEvent
  decide +kernel

/-- One bucket holds the counter and the other one is erased: the load writes the second one. -/
theorem readonly_load_writes : (counterStore [counterBlock, .erased _]).storage.readonly = true ∧
    ((storeRun false (fun _ => 0) (fun _ => 0) counterCodec (counterStore [counterBlock,
      .erased _]) [.load {}]).map
      fun b => b.storage.backing.2) = some [some counterBlock, some counterBlock] ∧
    (counterStore [counterBlock, .erased _]).storage.backing.2 =
    [some counterBlock, some (.erased _)] ∧
    counterBlock ≠ .erased _ := by
  refine ⟨rfl, ?_, ?_, ?_⟩ <;> decide +kernel

end Barebox.State
