import Barebox.State.CircularView
import Barebox.State.Storage

/-! A power cut during a write to a storage of circular buckets. The buckets
are written one after the other and each of them page by page; the next start
sees some first part of these accesses. -/
namespace Barebox.State
open Bytes Flash List Nat
variable {g : Geometry}

def circularOps (g : Geometry) : BucketOps (BucketCircular g) Unit where
  read c _ := ((bucketCircularRead c).1, (bucketCircularRead c).2, ())
  write c _ buf := ((bucketCircularWrite c buf).1, (bucketCircularWrite c buf).2, ())
  wrongMagic c := c.wrongMagic

/-- The loop of `state_storage_mtd_buckets_init`: eraseblocks whose bucket
cannot be created are passed over. -/
def mtdBucketsInit (pebs : List (Peb g.maxSize)) : List (Bucket (BucketCircular g)) :=
  pebs.filterMap fun peb => match bucketCircularInit peb with
    | .ok dev => some { dev }
    | .error _ => none

def circularStorage (g : Geometry) (n : Nat) : Storage (BucketCircular g) Unit where
  buckets := mtdBucketsInit (replicate n (.good (.erased g.maxSize)))
  shared := ()

def storageWriteAll (s : Storage (BucketCircular g) Unit) (history : List (List UInt8)) :
    Storage (BucketCircular g) Unit :=
  history.foldl (fun s p => (storageWrite (circularOps g) s p).2) s

def BucketCircular.trace (c : BucketCircular g) (p : List UInt8) : List Step :=
  if g.maxSize < writtenLength g p.length then [] else c.writeSteps p

/-- The blocks when a write to the buckets is cut after `t` accesses. -/
def cutBlocks (p : List UInt8) : List (Bucket (BucketCircular g)) → Nat → List (Block g.maxSize)
  | [], _ => []
  | b :: rest, t => b.dev.peb.block.run ((b.dev.trace p).take t) ::
      cutBlocks p rest (t - (b.dev.trace p).length)

/-- A format that accepts exactly the buffers which start with one complete
packed payload. `used` is the length that `verify` reports for a payload. -/
structure PackedFormat where
  packed : List UInt8 → Prop
  used : List UInt8 → Nat
  check : List UInt8 → Nat → Except Errno Unit × Nat
  prefixFree : PrefixFree packed
  accepts_iff : ∀ buf len, (check buf len).1 = .ok () ↔ ∃ p, packed p ∧ p <+: buf.take len
  used_eq : ∀ buf len p, packed p → p <+: buf.take len → (check buf len).2 = used p

variable (F : PackedFormat)

def PackedFormat.verify : Verify Unit := fun _ _ buf len _ =>
  ((F.check buf len).1, (F.check buf len).2, ())

def readBlocks (magic : Nat) (flags : StateFlags) (blocks : List (Block g.maxSize)) :
    Except Errno (List UInt8 × Nat) :=
  (storageRead (circularOps g) F.verify magic flags ⟨mtdBucketsInit (blocks.map .good),
    (), false⟩ ()).ret

def PackedFormat.Serves (r : Except Errno (List UInt8 × Nat)) (p : List UInt8) : Prop :=
  F.packed p ∧ ∃ buf len, r = .ok (buf, len) ∧ p <+: buf ∧ len = F.used p

variable {p : List UInt8}

theorem PackedFormat.Serves.unique {F : PackedFormat} {r : Except Errno (List UInt8 × Nat)}
    {q : List UInt8} (hp : F.Serves r p) (hq : F.Serves r q) : p = q := by
  obtain ⟨hPacked, buf, len, hRet, hPrefix, -⟩ := hp
  obtain ⟨hPacked', buf', len', hRet', hPrefix', -⟩ := hq
  rw [hRet] at hRet'
  cases hRet'
  exact F.prefixFree.eq_of_prefix hPacked hPacked' hPrefix hPrefix'

theorem not_serves_error {F : PackedFormat} {e : Errno} : ¬F.Serves (.error e) p := by
  rintro ⟨-, buf, len, hRet, -⟩
  cases hRet

section Read
variable {F : PackedFormat} {magic : Nat} {flags : StateFlags}

def bucketVerdict (F : PackedFormat) (magic : Nat) (flags : StateFlags)
    (b : Bucket (BucketCircular g)) : Except Errno Unit × Bucket (BucketCircular g) :=
  let result := bucketCheck (circularOps g) F.verify magic flags b () ()
  (result.1, result.2.1)

theorem bucketsCheck_circular (bs : List (Bucket (BucketCircular g))) :
    (bucketsCheck (circularOps g) F.verify magic flags bs () ()).1 =
    bs.map (bucketVerdict F magic flags) := by
  induction bs with
  | nil => rfl
  | cons b rest ih => exact congrArg (_ :: ·) ih

variable {block : Block g.maxSize} {c : BucketCircular g} {log : List UInt8}
  (hInit : bucketCircularInit (.good block) = .ok c)
include hInit

theorem readBlocks_cons_ok (hOk : (bucketVerdict F magic flags { dev := c }).1 = .ok ())
    (rest : List (Block g.maxSize)) :
    readBlocks F magic flags (block :: rest) =
    .ok ((bucketVerdict F magic flags { dev := c }).2.buf,
        (bucketVerdict F magic flags { dev := c }).2.len) := by
  have hStart : mtdBucketsInit ((block :: rest).map .good) =
      { dev := c } :: mtdBucketsInit (g := g) (rest.map .good) := by simp [mtdBucketsInit, hInit]
  rw [readBlocks, storageRead, hStart]
  simp only [storageRestore_ret, bucketsCheck_circular, map_cons]
  rw [find?_cons_of_pos (by rw [hOk]; rfl)]

theorem readBlocks_cons_error (hBad : (bucketVerdict F magic flags { dev := c }).1 ≠ .ok ())
    (rest : List (Block g.maxSize)) (p : List UInt8) :
    F.Serves (readBlocks F magic flags (block :: rest)) p ↔
    F.Serves (readBlocks F magic flags rest) p := by
  have hStart : mtdBucketsInit ((block :: rest).map .good) =
      { dev := c } :: mtdBucketsInit (g := g) (rest.map .good) := by simp [mtdBucketsInit, hInit]
  have hNot : (bucketVerdict F magic flags { dev := c }).1.isOk = false := by
    cases hRet : (bucketVerdict F magic flags { dev := c }).1 with
    | ok u => exact (hBad hRet).elim
    | error e => rfl
  rw [readBlocks, storageRead, hStart, readBlocks, storageRead]
  simp only [storageRestore_ret, bucketsCheck_circular, map_cons]
  rw [find?_cons_of_neg (by simp [hNot])]
  cases (List.map (bucketVerdict F magic flags) (mtdBucketsInit (rest.map .good))).find?
    (fun c => c.1.isOk) with
  | none => exact iff_of_false not_serves_error not_serves_error
  | some c => exact Iff.rfl

omit hInit

theorem readBlocks_nil (p : List UInt8) :
    ¬F.Serves (readBlocks F magic flags ([] : List (Block g.maxSize))) p := not_serves_error

theorem bucketVerdict_log (F : PackedFormat) (magic : Nat) (flags : StateFlags)
    (hLog : HoldsLog c log) :
    match logView g c.lastWrittenLength log with
    | none => (bucketVerdict F magic flags { dev := c }).1 ≠ .ok ()
    | some content => ∃ buf, buf.take content.length = content ∧
        (bucketVerdict F magic flags { dev := c }).1 = (F.check buf content.length).1 ∧
        (bucketVerdict F magic flags { dev := c }).2.buf = buf ∧
        (bucketVerdict F magic flags { dev := c }).2.len = (F.check buf content.length).2 := by
  have hView := hLog.read_view
  cases hContent : logView g c.lastWrittenLength log with
  | none =>
    rw [hContent] at hView
    obtain ⟨e, hRead⟩ := hView
    simp [bucketVerdict, bucketCheck, circularOps, hRead]
  | some content =>
    rw [hContent] at hView
    obtain ⟨buf, hRead, hBuf⟩ := hView
    refine ⟨buf, hBuf, ?_⟩
    simp [bucketVerdict, bucketCheck, circularOps, hRead, PackedFormat.verify]

/-- The first block shows a payload: the storage returns it. -/
theorem readBlocks_shown {content p : List UInt8} (hRec : Recovers block log)
    (hView : logView g (foundLength g log) log = some content)
    (hPacked : F.packed p) (hPrefix : p <+: content)
    (rest : List (Block g.maxSize)) : F.Serves (readBlocks F magic flags (block :: rest)) p := by
  obtain ⟨c, hInit, hLog, -, hFound⟩ :=
    bucketCircularInit_log hRec.bytes hRec.length_le hRec.aligned hRec.lastPage
  have hVerdict := bucketVerdict_log F magic flags hLog
  rw [hFound, hView] at hVerdict
  obtain ⟨buf, hBuf, hRet, hBuf', hLen⟩ := hVerdict
  rw [← hBuf] at hPrefix
  have hOk := (F.accepts_iff buf content.length).mpr ⟨p, hPacked, hPrefix⟩
  refine ⟨hPacked, _, _, readBlocks_cons_ok hInit (hRet.trans hOk) rest, ?_, ?_⟩
  · grind
  · grind [F.used_eq]

/-- The first block shows no payload: the next blocks decide. -/
theorem readBlocks_hidden (hRec : Recovers block log)
    (hHidden : ∀ content p, logView g (foundLength g log) log = some content → F.packed p →
      ¬p <+: content) (rest : List (Block g.maxSize)) (p : List UInt8) :
    F.Serves (readBlocks F magic flags (block :: rest)) p ↔
    F.Serves (readBlocks F magic flags rest) p := by
  obtain ⟨c, hInit, hLog, -, hFound⟩ :=
    bucketCircularInit_log hRec.bytes hRec.length_le hRec.aligned hRec.lastPage
  have hVerdict := bucketVerdict_log F magic flags hLog
  rw [hFound] at hVerdict
  refine readBlocks_cons_error hInit ?_ rest p
  rcases hView : logView g (foundLength g log) log with _ | content
  · grind
  rw [hView] at hVerdict
  obtain ⟨buf, hBuf, hRet, -, -⟩ := hVerdict
  rw [hRet]
  intro hOk
  obtain ⟨q, hPacked, hPrefix⟩ := (F.accepts_iff buf content.length).mp hOk
  grind

end Read

structure StoresLog (c : BucketCircular g) (ps : List (List UInt8)) : Prop where
  log : HoldsLog c (records g ps)
  bytes : c.peb.block.bytes = records g ps ++ blanks (g.maxSize - (records g ps).length)
  fit : ∀ p ∈ ps, Fits g p

variable {ps : List (List UInt8)} {c : BucketCircular g}

theorem StoresLog.recovers (h : StoresLog c ps)
    (hPages : g.writesize ∣ g.maxSize) : Recovers c.peb.block (records g ps) :=
  Recovers.records hPages h.fit h.log.length_le h.bytes

theorem storesLog_erased (hPages : g.writesize ∣ g.maxSize) :
    ∃ c : BucketCircular g, bucketCircularInit (.good (.erased g.maxSize)) = .ok c ∧
    StoresLog c [] := by
  have hBytes : (Block.erased g.maxSize).bytes = [] ++
      blanks (g.maxSize - ([] : List UInt8).length) := by simp
  obtain ⟨c, hInit, hLog, hPeb, -⟩ := bucketCircularInit_log hBytes (zero_le _)
    (by simpa using hPages) (.inl g.writesize_pos)
  exact ⟨c, hInit, hLog, by rw [hPeb]; exact hBytes, by simp⟩

theorem StoresLog.write
    (h : StoresLog c ps) (fit : Fits g p) : (bucketCircularWrite c p).1 = .ok () ∧
      StoresLog (bucketCircularWrite c p).2 (payloadsKept g ps p ++ [p]) := by
  obtain ⟨c', hWrite, hLog, -, -⟩ := h.log.write fit
  rw [hWrite]
  refine ⟨rfl, ?_, ?_, ?_⟩
  · simp [records_kept_append, hLog]
  · rw [records_kept_append]
    exact hLog.bytes (fit.logAppend_ne_nil _)
  exact forall_mem_append.mpr ⟨fun q hq => h.fit q (mem_of_mem_payloadsKept hq),
    forall_mem_singleton.mpr fit⟩

theorem bucketsWrite_replicate (n : Nat) (c : BucketCircular g) (p : List UInt8) :
    (bucketsWrite (circularOps g) p (replicate n { dev := c }) ()).2.1 =
      replicate n { dev := (bucketCircularWrite c p).2 } := by
  induction n with
  | zero => rfl
  | succ n ih => exact congrArg (_ :: ·) ih

theorem storageWriteAll_stores (hPages : g.writesize ∣ g.maxSize) (n : Nat)
    (history : List (List UInt8)) (hFit : ∀ p ∈ history, Fits g p) :
    ∃ c : BucketCircular g, storageWriteAll (circularStorage g n) history =
        ⟨replicate n { dev := c }, (), false⟩ ∧ StoresLog c (logPayloads g history) := by
  induction history using reverseRecOn with
  | nil =>
    obtain ⟨c, hInit, hLog⟩ := storesLog_erased hPages
    refine ⟨c, ?_, hLog⟩
    simp [storageWriteAll, circularStorage, mtdBucketsInit, hInit]
  | append_singleton history p ih =>
    obtain ⟨c, hStorage, hLog⟩ := ih (fun q hq => hFit q (by simp [hq]))
    have hStep : storageWriteAll (circularStorage g n) (history ++ [p]) =
        (storageWrite (circularOps g) (storageWriteAll (circularStorage g n) history) p).2 := by
          simp [storageWriteAll]
    refine ⟨(bucketCircularWrite c p).2, ?_, ?_⟩
    · rw [hStep, hStorage, storageWrite, if_neg Bool.false_ne_true]
      exact congrArg (Storage.mk · () false) (bucketsWrite_replicate n c p)
    · grind [logPayloads_append, hLog.write]

theorem cutBlocks_zero (n : Nat) (c : BucketCircular g) (p : List UInt8) :
    cutBlocks p (replicate n { dev := c }) 0 = replicate n c.peb.block := by
  induction n with
  | zero => rfl
  | succ n ih =>
    simp [replicate_succ, cutBlocks, ih]

variable (F : PackedFormat)

/-- What the storage returns when the write of `X` behind the given history is
cut after `t` accesses to the medium and all buckets are started again. -/
def powerCutRead (magic : Nat) (flags : StateFlags) (g : Geometry)
    (n : Nat) (history : List (List UInt8))
    (X : List UInt8) (t : Nat) : Except Errno (List UInt8 × Nat) :=
  readBlocks F magic flags (cutBlocks X (storageWriteAll (circularStorage g n) history).buckets t)

/-- The payloads that a power cut may leave: the interrupted one and the last
one that was completed. -/
def Recent (history : List (List UInt8)) (X p : List UInt8) : Prop :=
  p = X ∨ history.getLast? = some p

/-- When a record that was cut is harmless. The first bucket shows the part
`seen` of it behind the records it keeps. Unless `seen` happens to end in a
meta, the start takes the block for the old format and reads its first record.
A bucket that shows nothing leaves the choice to the next one. -/
def TornSafe (g : Geometry) (n : Nat) (history : List (List UInt8))
    (X : List UInt8) (kept : List (List UInt8))
    (seen : List UInt8) : Prop :=
  if seen = [] then kept ≠ [] ∨ (2 ≤ n ∧ history ≠ [])
  else if foundLength g seen = 0 then
    match kept with
    | first :: _ => Recent history X first
    | [] => X.length ≤ seen.length ∨ (2 ≤ n ∧ history ≠ [])
  else
    match logView g (foundLength g seen) (records g kept ++ seen) with
    | some content =>
      (∃ p, F.packed p ∧ p <+: content ∧ Recent history X p) ∨
        ((∀ p, F.packed p → ¬p <+: content) ∧ 2 ≤ n ∧ history ≠ [])
    | none => 2 ≤ n ∧ history ≠ []

/-- When a cut after `t` accesses is harmless, in terms of what was written.
The first bucket erases when the record has no room behind the earlier ones. -/
def CutSafe (g : Geometry) (n : Nat) (history : List (List UInt8))
    (X : List UInt8) (t : Nat) : Prop :=
  let kept := payloadsKept g (logPayloads g history) X
  let erases := if kept = [] then 1 else 0
  if ¬Fits g X ∨ t < erases then history ≠ []
  else if t < erases + recordLength g X.length / g.writesize then
    TornSafe F g n history X kept (visiblePart g.writesize (circularRecord g X) (t - erases))
  else True

section Cut
variable {F : PackedFormat} {magic : Nat} {flags : StateFlags}
    {c : BucketCircular g} {history : List (List UInt8)}
  {X : List UInt8} {p seen : List UInt8} {block : Block g.maxSize} {ps : List (List UInt8)}
  {m : Nat}

theorem logView_record (fit : Fits g p) (front : List UInt8) :
    logView g (foundLength g (front ++ circularRecord g p)) (front ++ circularRecord g p) =
      some (p ++ zeros (recordLength g p.length - metaSize - p.length)) := by
  have hPos := recordLength_pos g p.length
  have hLen : recordLength g p.length ≤ (front ++ circularRecord g p).length := by
    simp [fit.record_length]
  have hNil : front ++ circularRecord g p ≠ [] := by grind
  have hOk : ¬((front ++ circularRecord g p).length < recordLength g p.length ∨
      ¬g.writesize ∣ recordLength g p.length) := by
    simp only [writesize_dvd_recordLength, not_true_eq_false, or_false]
    omega
  rw [fit.foundLength, logView, if_neg hNil, if_neg hPos.ne', if_neg hOk,
    fit.slice_beyond le_rfl hLen, Nat.add_sub_cancel, drop_length, nil_append]

theorem readBlocks_records (hRec : Recovers block (records g (ps ++ [p])))
    (fit : Fits g p) (hPacked : F.packed p)
    (rest : List (Block g.maxSize)) : F.Serves (readBlocks F magic flags (block :: rest)) p := by
  rw [records_append] at hRec
  exact readBlocks_shown hRec (logView_record fit _) hPacked (List.prefix_append _ _) rest

/-- A payload is shown: the cut is harmless exactly when it is a recent one. -/
theorem recent_iff_of_serves {r : Except Errno (List UInt8 × Nat)}
    (h : F.Serves r p) : (∃ q, Recent history X q ∧ F.Serves r q) ↔ Recent history X p := by
  constructor
  · rintro ⟨q, hRecent, hq⟩
    rwa [h.unique hq]
  · intro hRecent
    exact ⟨p, hRecent, h⟩

theorem recent_replicate_iff (hPages : g.writesize ∣ g.maxSize)
    (hLog : StoresLog c (logPayloads g history)) (hPacked : ∀ p ∈ history, F.packed p) (k : Nat) :
    (∃ p, Recent history X p ∧ F.Serves (readBlocks F magic flags (replicate k c.peb.block)) p) ↔
      0 < k ∧ history ≠ [] := by
  cases history using reverseRecOn with
  | nil =>
    refine iff_of_false ?_ (by simp)
    rintro ⟨p, -, hServes⟩
    induction k with
    | zero => exact readBlocks_nil p hServes
    | succ k ih =>
      refine ih ((readBlocks_hidden (hLog.recovers hPages) ?_ _ p).mp hServes)
      intro content q hView
      simp [logView, logPayloads, records] at hView
  | append_singleton history last =>
    cases k with
    | zero =>
      refine iff_of_false ?_ (by simp)
      rintro ⟨p, -, hServes⟩
      exact readBlocks_nil p hServes
    | succ k =>
      refine iff_of_true ⟨last, .inr (by simp), ?_⟩ (by simp)
      have hRec := hLog.recovers hPages
      rw [logPayloads_append] at hRec
      exact readBlocks_records hRec (hLog.fit last (by simp)) (hPacked last (by simp)) _

theorem StoresLog.eraseSteps_length (hLog : StoresLog c (logPayloads g history)) :
    (c.eraseSteps X).length = if payloadsKept g (logPayloads g history) X = [] then 1 else 0 := by
  have hNil : (logKept g (records g (logPayloads g history)) X).length = 0 ↔
      payloadsKept g (logPayloads g history) X = [] := by
    rw [length_eq_zero_iff, ← records_kept]
    exact records_eq_nil (fun p hp => hLog.fit p (mem_of_mem_payloadsKept hp))
  unfold BucketCircular.eraseSteps
  rw [hLog.log.writeOffset_eq]
  by_cases hKept : payloadsKept g (logPayloads g history) X = []
  · grind
  · grind

theorem Fits.trace {p : List UInt8} (fit : Fits g p) : c.trace p = c.writeSteps p := by
  rw [BucketCircular.trace, fit.writtenLength, if_neg (not_lt.mpr fit)]

theorem trace_eq_nil (hFit : ¬Fits g p) (hSize : recordLength g p.length < 2 ^ 32) :
    c.trace p = [] := by
  have hWritten : writtenLength g p.length = recordLength g p.length := mod_eq_of_lt hSize
  rw [BucketCircular.trace, hWritten, if_pos (not_le.mp hFit)]

theorem cutBlocks_trace_nil (hTrace : c.trace p = []) (n t : Nat) :
    cutBlocks p (replicate n { dev := c }) t = replicate n c.peb.block := by
  induction n with
  | zero => rfl
  | succ n ih =>
    simp [replicate_succ, cutBlocks, hTrace, ih]

variable (hPages : g.writesize ∣ g.maxSize) (hLog : StoresLog c (logPayloads g history))
    (fit : Fits g X)
include hPages hLog fit

theorem StoresLog.recovers_torn (hm : m ≤ recordLength g X.length / g.writesize) :
    Recovers (c.peb.block.run ((c.trace X).take ((c.eraseSteps X).length + m)))
      (records g (payloadsKept g (logPayloads g history) X) ++
        visiblePart g.writesize (circularRecord g X) m) := by
  have hBytes := hLog.log.run_take_writeSteps fit m hm
  have hRoom := fit.logKept_room (records g (logPayloads g history))
  rw [← records_kept] at hBytes hRoom
  rw [fit.trace]
  refine Recovers.torn hPages
    (fun q hq => hLog.fit q (mem_of_mem_payloadsKept hq)) fit hRoom ?_ hBytes
  exact (mul_le_mul_right _ hm).trans (div_mul_le_self _ _)

theorem StoresLog.recovers_complete : Recovers (c.peb.block.run (c.trace X))
      (records g (payloadsKept g (logPayloads g history) X ++ [X])) := by
  have hBytes := hLog.log.run_writeSteps fit
  have hLe := fit.logKept_room (records g (logPayloads g history))
  rw [← fit.logAppend_length] at hLe
  rw [← records_kept_append] at hBytes hLe
  rw [fit.trace]
  refine Recovers.records hPages ?_ hLe hBytes
  exact forall_mem_append.mpr ⟨fun q hq => hLog.fit q (mem_of_mem_payloadsKept hq),
    forall_mem_singleton.mpr fit⟩

omit hPages hLog fit

theorem Fits.length_le (fit : Fits g p) : p.length ≤ g.maxSize - metaSize := by
  have hMeta := add_metaSize_le_recordLength g p.length
  grind [Fits]

theorem readBlocks_torn_first {first : List UInt8} {kept : List (List UInt8)} (fit : Fits g first)
    (hPacked : F.packed first) (hMax : g.maxSize ≠ metaSize)
    (hRec : Recovers block (records g (first :: kept) ++ seen))
    (hFound : foundLength g (records g (first :: kept) ++ seen) = 0)
    (rest : List (Block g.maxSize)) :
    F.Serves (readBlocks F magic flags (block :: rest)) first := by
  have hNil : records g (first :: kept) ++ seen ≠ [] := by
    intro h
    have hLen := fit.record_length
    have hPos := recordLength_pos g first.length
    rw [(append_eq_nil_iff.mp (append_eq_nil_iff.mp h).1).1, length_nil] at hLen
    omega
  have hPrefix : first <+: records g (first :: kept) ++ seen :=
    ((prefix_circularRecord g first).trans (List.prefix_append _ _)).trans (List.prefix_append _ _)
  have hView : logView g (foundLength g (records g (first :: kept) ++ seen))
      (records g (first :: kept) ++ seen) =
      some ((records g (first :: kept) ++ seen).take (g.maxSize - metaSize)) := by grind [logView]
  refine readBlocks_shown hRec hView hPacked (List.prefix_take_iff.mpr ⟨hPrefix, ?_⟩) rest
  exact fit.length_le

variable (hPages : g.writesize ∣ g.maxSize) (hLog : StoresLog c (logPayloads g history))
    (hPacked : ∀ p ∈ history, F.packed p)
include hPages hLog hPacked

/-- A torn record at the start of the block, without a meta: the payload is
shown when all of it was programmed, and nothing is shown otherwise. -/
theorem recent_torn_alone_iff (fit : Fits g X) (hX : F.packed X)
    (hSeen : seen <+: circularRecord g X)
    (hNil : seen ≠ []) (hMax : g.maxSize ≠ metaSize) (hRec : Recovers block seen)
    (hFound : foundLength g seen = 0)
    (k : Nat) :
    (∃ p, Recent history X p ∧
      F.Serves (readBlocks F magic flags (block :: replicate k c.peb.block)) p) ↔
      X.length ≤ seen.length ∨ (0 < k ∧ history ≠ []) := by
  have hView : logView g (foundLength g seen) seen = some (seen.take (g.maxSize - metaSize)) := by
    simp [hFound, logView, if_neg hNil, if_neg hMax]
  by_cases hWhole : X.length ≤ seen.length
  · have hPrefix : X <+: seen :=
      List.prefix_of_prefix_length_le (prefix_circularRecord g X) hSeen hWhole
    refine iff_of_true ⟨X, .inl rfl, ?_⟩ (.inl hWhole)
    exact readBlocks_shown hRec hView hX (List.prefix_take_iff.mpr ⟨hPrefix, fit.length_le⟩) _
  have hPart : seen <+: X :=
    List.prefix_of_prefix_length_le hSeen (prefix_circularRecord g X) (by omega)
  have hHidden : ∀ content p, logView g (foundLength g seen) seen = some content →
      F.packed p → ¬p <+: content := by
    intro content p hContent hp hPrefix
    obtain rfl := Option.some.inj (hView.symm.trans hContent)
    have hIn := hPrefix.trans (List.take_prefix _ _)
    obtain rfl := F.prefixFree p X hp hX (hIn.trans hPart)
    exact hWhole hIn.length_le
  simp only [readBlocks_hidden hRec hHidden, hWhole, false_or]
  exact recent_replicate_iff hPages hLog hPacked k

theorem recent_forged_iff {log : List UInt8} (hRec : Recovers block log) (k : Nat) :
    (∃ p, Recent history X p ∧
      F.Serves (readBlocks F magic flags (block :: replicate k c.peb.block)) p) ↔
      match logView g (foundLength g log) log with
      | some content =>
        (∃ p, F.packed p ∧ p <+: content ∧ Recent history X p) ∨
          ((∀ p, F.packed p → ¬p <+: content) ∧ 0 < k ∧ history ≠ [])
      | none => 0 < k ∧ history ≠ [] := by
  cases hView : logView g (foundLength g log) log with
  | none =>
    have hHidden : ∀ content p, logView g (foundLength g log) log = some content →
        F.packed p → ¬p <+: content := by simp [hView]
    simp only [readBlocks_hidden hRec hHidden]
    exact recent_replicate_iff hPages hLog hPacked k
  | some content =>
    by_cases hShown : ∃ p, F.packed p ∧ p <+: content
    · obtain ⟨p, hp, hPrefix⟩ := hShown
      rw [recent_iff_of_serves (readBlocks_shown hRec hView hp hPrefix _)]
      constructor
      · intro hRecent
        exact .inl ⟨p, hp, hPrefix, hRecent⟩
      · rintro (⟨q, hq, hPrefix', hRecent⟩ | ⟨hNone, -⟩)
        · rwa [F.prefixFree.eq_of_prefix hp hq hPrefix hPrefix']
        · exact (hNone p hp hPrefix).elim
    · push Not at hShown
      have hHidden : ∀ content' p, logView g (foundLength g log) log = some content' →
          F.packed p → ¬p <+: content' := by
        intro content' p hContent hp
        obtain rfl := Option.some.inj (hView.symm.trans hContent)
        exact hShown p hp
      simp only [readBlocks_hidden hRec hHidden]
      rw [recent_replicate_iff hPages hLog hPacked k]
      constructor
      · intro hRest
        exact .inr ⟨hShown, hRest⟩
      · rintro (⟨q, hq, hPrefix, -⟩ | ⟨-, hRest⟩)
        · exact (hShown q hq hPrefix).elim
        · exact hRest

omit hPages hLog hPacked

theorem visiblePart_length (fit : Fits g X) (hm : m * g.writesize ≤ recordLength g X.length)
    (hSeen : visiblePart g.writesize (circularRecord g X) m ≠ []) :
    g.writesize ≤ (visiblePart g.writesize (circularRecord g X) m).length ∧
      (visiblePart g.writesize (circularRecord g X) m).length ≤ m * g.writesize := by
  obtain ⟨q, hLen, -⟩ :=
    visiblePart_lastPage g.writesize_pos (by rw [fit.record_length]; exact hm) hSeen
  refine ⟨by omega, ?_⟩
  rw [visiblePart, length_take]
  exact (min_le_left _ _).trans (mul_le_mul_right _ (visiblePages_le _ _ _))

theorem payloadsKept_eq (h : payloadsKept g ps X ≠ []) : payloadsKept g ps X = ps := by
  unfold payloadsKept at h ⊢
  split_ifs at h ⊢ with hWrap
  · exact (h rfl).elim
  · rfl

theorem recent_torn_iff (hPages : g.writesize ∣ g.maxSize)
    (hLog : StoresLog c (logPayloads g history)) (hPacked : ∀ p ∈ history, F.packed p)
    (fit : Fits g X) (hX : F.packed X) (hm : m < recordLength g X.length / g.writesize) (k : Nat) :
    (∃ p, Recent history X p ∧ F.Serves (readBlocks F magic flags
          (c.peb.block.run ((c.trace X).take ((c.eraseSteps X).length + m)) ::
            replicate k c.peb.block)) p) ↔
      TornSafe F g (k + 1) history X (payloadsKept g (logPayloads g history) X)
        (visiblePart g.writesize (circularRecord g X) m) := by
  have hRec := hLog.recovers_torn hPages fit hm.le
  have hPart : m * g.writesize + g.writesize ≤ recordLength g X.length := by
    rw [← succ_mul]
    exact (mul_le_mul_right _ hm).trans (div_mul_le_self _ _)
  have hLength := visiblePart_length fit (le_of_add_right_le hPart)
  have hPrefix : visiblePart g.writesize (circularRecord g X) m <+: circularRecord g X :=
    take_prefix _ _
  have hSecond : (2 ≤ k + 1 ∧ history ≠ []) ↔ (0 < k ∧ history ≠ []) := by simp [succ_le_iff]
  have hKeptFit : ∀ p ∈ payloadsKept g (logPayloads g history) X, Fits g p ∧ F.packed p :=
    fun p hp => ⟨hLog.fit p (mem_of_mem_payloadsKept hp),
      hPacked p (mem_of_mem_logPayloads (mem_of_mem_payloadsKept hp))⟩
  have hKept : payloadsKept g (logPayloads g history) X ≠ [] → _ := payloadsKept_eq
  generalize visiblePart g.writesize (circularRecord g X) m = seen at *
  generalize payloadsKept g (logPayloads g history) X = kept at *
  unfold TornSafe
  simp only [hSecond]
  by_cases hBlank : seen = []
  · rw [if_pos hBlank]
    rw [hBlank, append_nil] at hRec
    by_cases hNone : kept = []
    · have hHidden : ∀ content p, logView g (foundLength g (records g kept)) (records g kept) =
          some content → F.packed p → ¬p <+: content := by simp [hNone, records, logView]
      simp only [readBlocks_hidden hRec hHidden, hNone, ne_eq, not_true_eq_false, false_or]
      exact recent_replicate_iff hPages hLog hPacked k
    · have hAll := hKept hNone
      refine iff_of_true ?_ (.inl hNone)
      cases history using reverseRecOn with
      | nil => exact (hNone hAll).elim
      | append_singleton history last =>
        rw [hAll, logPayloads_append] at hRec
        refine ⟨last, .inr (by simp), ?_⟩
        exact readBlocks_records hRec (hLog.fit last (by simp)) (hPacked last (by simp)) _
  · obtain ⟨hPage, hLe⟩ := hLength hBlank
    have hMax : g.maxSize ≠ metaSize := by
      have hEight := g.eight_le_writesize
      grind [Fits, metaSize]
    have hFound : foundLength g (records g kept ++ seen) = foundLength g seen :=
      foundLength_append hPage
    rw [if_neg hBlank]
    by_cases hMark : foundLength g seen = 0
    · rw [if_pos hMark]
      cases kept with
      | nil =>
        exact recent_torn_alone_iff hPages hLog hPacked fit hX hPrefix hBlank hMax hRec hMark k
      | cons first kept =>
        obtain ⟨fitFirst, hFirst⟩ := hKeptFit first (.head _)
        exact recent_iff_of_serves
          (readBlocks_torn_first fitFirst hFirst hMax hRec (hFound.trans hMark) _)
    · rw [if_neg hMark, ← hFound]
      exact recent_forged_iff hPages hLog hPacked hRec k

end Cut

/-- A power cut leaves the last completed payload or the interrupted one
exactly when the cut is safe; in all other cases the storage returns an older
payload or nothing. -/
theorem storage_powerCut_iff (F : PackedFormat) (g : Geometry) (hPages : g.writesize ∣ g.maxSize)
    (n : Nat) (hn : 0 < n) (history : List (List UInt8))
    (hHistory : ∀ p ∈ history, F.packed p ∧ Fits g p) (X : List UInt8) (hX : F.packed X)
    (hSize : recordLength g X.length < 2 ^ 32) (magic : Nat) (flags : StateFlags) (t : Nat) :
    (∃ p, Recent history X p ∧ F.Serves (powerCutRead F magic flags g n history X t) p) ↔
      CutSafe F g n history X t := by
  obtain ⟨k, rfl⟩ : ∃ k, n = k + 1 := ⟨n - 1, by omega⟩
  have hPacked : ∀ p ∈ history, F.packed p := fun p hp => (hHistory p hp).1
  obtain ⟨c, hStorage, hLog⟩ :=
    storageWriteAll_stores hPages (k + 1) history (fun p hp => (hHistory p hp).2)
  have hErase : (c.eraseSteps X).length = _ := hLog.eraseSteps_length
  rw [powerCutRead, hStorage]
  simp only [CutSafe, ← hErase]
  by_cases hEarly : ¬Fits g X ∨ t < (c.eraseSteps X).length
  · have hBlocks : cutBlocks X (replicate (k + 1) { dev := c }) t =
        replicate (k + 1) c.peb.block := by
      rcases hEarly with hFit | hEarly
      · exact cutBlocks_trace_nil (trace_eq_nil hFit hSize) _ _
      have hZero : t = 0 := by
        rw [hErase] at hEarly
        split_ifs at hEarly <;> omega
      rw [hZero, cutBlocks_zero]
    rw [if_pos hEarly, hBlocks, recent_replicate_iff hPages hLog hPacked]
    simp
  · rw [if_neg hEarly]
    push Not at hEarly
    obtain ⟨fit, hBehind⟩ := hEarly
    have hTrace : (c.trace X).length =
        (c.eraseSteps X).length + recordLength g X.length / g.writesize := by
      simp [fit.trace, BucketCircular.writeSteps, fit.record_length]
    rw [replicate_succ, cutBlocks]
    dsimp only
    by_cases hTorn : t < (c.eraseSteps X).length + recordLength g X.length / g.writesize
    · have hSplit : t = (c.eraseSteps X).length + (t - (c.eraseSteps X).length) := by omega
      rw [if_pos hTorn, Nat.sub_eq_zero_of_le (by omega), cutBlocks_zero]
      nth_rewrite 1 [hSplit]
      exact recent_torn_iff hPages hLog hPacked fit hX (by omega) k
    · rw [if_neg hTorn, take_of_length_le (by omega)]
      refine iff_of_true ⟨X, .inl rfl, ?_⟩ trivial
      exact readBlocks_records (hLog.recovers_complete hPages fit) fit hX _

def lengthPrefixed : PackedFormat where
  packed p := ∃ n rest, p = n :: rest ∧ rest.length = n.toNat
  used p := p.length
  check buf len := match buf.take len with
    | [] => (.error .einval, len)
    | n :: rest => if n.toNat ≤ rest.length then (.ok (), n.toNat + 1) else (.error .einval, len)
  prefixFree := by
    rintro p q ⟨n, rest, rfl, hLen⟩ ⟨n', rest', rfl, hLen'⟩ hPrefix
    obtain ⟨rfl, hRest⟩ := cons_prefix_cons.mp hPrefix
    rw [hRest.eq_of_length (hLen.trans hLen'.symm)]
  accepts_iff := by
    intro buf len
    rcases buf.take len with _ | ⟨n, rest⟩
    · simp
    by_cases hLen : n.toNat ≤ rest.length
    · have hTake : n :: rest.take n.toNat <+: n :: rest :=
        cons_prefix_cons.mpr ⟨rfl, take_prefix _ _⟩
      simp only [hLen, if_true, true_iff]
      exact ⟨_, ⟨n, rest.take n.toNat, rfl, by simp [hLen]⟩, hTake⟩
    simp only [hLen, if_false, reduceCtorEq, false_iff]
    rintro ⟨p, ⟨n', rest', rfl, hLen'⟩, hPrefix⟩
    obtain ⟨rfl, hRest⟩ := cons_prefix_cons.mp hPrefix
    exact hLen (hLen' ▸ hRest.length_le)
  used_eq := by
    rintro buf len p ⟨n, rest, rfl, hLen⟩ hPrefix
    cases hBuf : buf.take len with
    | nil =>
      rw [hBuf] at hPrefix
      exact absurd (List.prefix_nil.mp hPrefix) (by simp)
    | cons n' rest' =>
      rw [hBuf] at hPrefix
      obtain ⟨rfl, hRest⟩ := cons_prefix_cons.mp hPrefix
      have hFits : n.toNat ≤ rest'.length := hLen ▸ hRest.length_le
      simp [hFits, hLen]

/-- The record behind the only one in the block is cut after one page. -/
theorem storage_powerCut_iff_sample : ∃ p, Recent [[1, 10]] [8, 1, 2, 3, 4, 5, 6, 7, 8] p ∧
      lengthPrefixed.Serves (powerCutRead lengthPrefixed 0 {} sampleGeometry 3 [[1, 10]]
        [8, 1, 2, 3, 4, 5, 6, 7, 8] 1) p := by
  refine (storage_powerCut_iff lengthPrefixed sampleGeometry (by decide) 3 (by decide) [[1, 10]] ?_
    [8, 1, 2, 3, 4, 5, 6, 7, 8] ⟨8, _, rfl, rfl⟩ (by decide) 0 {} 1).mpr ?_
  · intro p hp
    obtain rfl := mem_singleton.mp hp
    exact ⟨⟨1, _, rfl, rfl⟩, by decide⟩
  unfold CutSafe TornSafe
  simp only [show payloadsKept sampleGeometry (logPayloads sampleGeometry [[1, 10]])
    [8, 1, 2, 3, 4, 5, 6, 7, 8] = [[1, 10]] by decide]
  rw [if_neg (by decide), if_pos (by decide), if_neg (by decide), if_pos (by decide +kernel)]
  exact .inr rfl

/-- With two records in the block, cutting the third after one page brings
back the first payload. -/
theorem storage_powerCut_stale :
    (∀ p ∈ [[1, 10], [1, 20]], lengthPrefixed.packed p ∧ Fits sampleGeometry p) ∧
    lengthPrefixed.packed [8, 1, 2, 3, 4, 5, 6, 7, 8] ∧
    lengthPrefixed.Serves (powerCutRead lengthPrefixed 0 {} sampleGeometry 3 [[1, 10], [1, 20]]
      [8, 1, 2, 3, 4, 5, 6, 7, 8] 1) [1, 10] ∧
        ¬∃ p, Recent [[1, 10], [1, 20]] [8, 1, 2, 3, 4, 5, 6, 7, 8] p ∧
      lengthPrefixed.Serves (powerCutRead lengthPrefixed 0 {} sampleGeometry 3 [[1, 10], [1, 20]]
        [8, 1, 2, 3, 4, 5, 6, 7, 8] 1) p := by
  have hPacked : lengthPrefixed.packed [1, 10] := ⟨1, _, rfl, rfl⟩
  have hServes : lengthPrefixed.Serves (powerCutRead lengthPrefixed 0 {} sampleGeometry 3
      [[1, 10], [1, 20]] [8, 1, 2, 3, 4, 5, 6, 7, 8] 1) [1, 10] := by
    refine ⟨hPacked, circularRecord sampleGeometry [1, 10] ++
      (circularRecord sampleGeometry [1, 20] ++ [8, 1, 2, 3, 4, 5, 6, 7]), 2, ?_, ?_, rfl⟩
    · decide +kernel
    · exact (prefix_circularRecord _ _).trans (List.prefix_append _ _)
  refine ⟨?_, ⟨8, _, rfl, rfl⟩, hServes, ?_⟩
  · intro p hp
    simp only [mem_cons, not_mem_nil, or_false] at hp
    rcases hp with rfl | rfl
    · exact ⟨hPacked, by decide⟩
    · exact ⟨⟨1, _, rfl, rfl⟩, by decide⟩
  · rintro ⟨p, hRecent, hServes'⟩
    obtain rfl := hServes.unique hServes'
    rcases hRecent with hEq | hEq
    all_goals exact absurd hEq (by decide)

end Barebox.State
