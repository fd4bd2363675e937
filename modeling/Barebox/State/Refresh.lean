import Barebox.State.Selection

/-! What the refresh at the end of a storage read achieves. Every copy should be
valid and identical afterwards; a copy that is rewritten gets the verified
content alone, without the HMAC that the raw format may ask for. -/
namespace Barebox.State
open Bytes Flash Lib Of List

def trailer (format : BackendFormat) (flags : StateFlags) (content : List UInt8) : List UInt8 :=
  match format with
  | .dtb _ => []
  | .raw raw =>
    match raw.authentication flags with
    | .ok (some digest) => digest.final content
    | _ => []

section Content
variable {magic : Nat} {flags : StateFlags} {content buf bytes : List UInt8}
    {off len : Nat} {digest : Option Digest}
  {raw : FormatRaw} {p q : Payload}

theorem slice_of_starts (h : content <+: buf)
    (hLen : off + len ≤ content.length) : slice off len buf = slice off len content := by
  obtain ⟨rest, rfl⟩ := h
  exact slice_append_left rest hLen

theorem take_of_starts (h : content <+: buf) : buf.take content.length = content :=
  (List.prefix_iff_eq_take.mp h).symm

theorem take_append_prefix_iff {n : Nat} : buf.take n ++ bytes <+: buf ↔ bytes <+: buf.drop n := by
  have hSplit : buf.take n ++ bytes <+: buf.take n ++ buf.drop n ↔ bytes <+: buf.drop n :=
    List.prefix_append_right_inj _
  rwa [take_append_drop] at hSplit

/-- What `backend_format_raw_verify` checks of an accepted buffer. -/
structure RawAccepted (raw : FormatRaw) (magic : Nat) (flags : StateFlags) (buf : List UInt8)
    (len : Nat) : Prop where
  header : rawHeaderSize ≤ len
  headerCrc : (crc32 0 (slice 0 12 buf)).toNat = rawHeaderCrc buf
  magic : magic = 0 ∨ magic = rawMagic buf
  dataCrc : (crc32 0 (slice rawHeaderSize (rawDataLen buf) buf)).toNat = rawDataCrc buf
  secret : (raw.authentication flags).isOk
  room : rawDataLen buf + rawHeaderSize +
    (trailer (.raw raw) flags (buf.take (rawDataLen buf + rawHeaderSize))).length ≤ len
  digest : trailer (.raw raw) flags (buf.take (rawDataLen buf + rawHeaderSize)) <+:
    buf.drop (rawDataLen buf + rawHeaderSize)

theorem slice_eq_iff_starts : slice off bytes.length buf = bytes ↔ bytes <+: buf.drop off := by
  rw [slice, List.prefix_iff_eq_take]
  exact eq_comm

def digestTrailer (digest : Option Digest) (content : List UInt8) : List UInt8 :=
  digest.elim [] (·.final content)

theorem digestTrailer_length (digest : Option Digest) (content : List UInt8) :
    (digestTrailer digest content).length = digest.elim 0 Digest.length := by
  cases digest with
  | none => rfl
  | some digest => exact digest.final_length content

theorem rawVerifyData_ok_iff : (rawVerifyData digest buf len).1 = .ok () ↔
      (crc32 0 (slice rawHeaderSize (rawDataLen buf) buf)).toNat = rawDataCrc buf ∧
      rawDataLen buf + rawHeaderSize +
        (digestTrailer digest (buf.take (rawDataLen buf + rawHeaderSize))).length ≤ len ∧
      digestTrailer digest (buf.take (rawDataLen buf + rawHeaderSize)) <+:
        buf.drop (rawDataLen buf + rawHeaderSize) := by
  have hRoom : ¬len < rawDataLen buf + digest.elim 0 Digest.length + rawHeaderSize ↔
      rawDataLen buf + rawHeaderSize +
        (digestTrailer digest (buf.take (rawDataLen buf + rawHeaderSize))).length ≤ len := by
    rw [digestTrailer_length]
    omega
  rw [rawVerifyData.eq_def, ← hRoom]
  simp only [Nat.add_comm rawHeaderSize (rawDataLen buf)]
  by_cases hShort : len < rawDataLen buf + digest.elim 0 Digest.length + rawHeaderSize
  · simp [hShort]
  by_cases hCrc : (crc32 0 (slice rawHeaderSize (rawDataLen buf) buf)).toNat = rawDataCrc buf
  · rw [if_neg hShort, if_neg (not_not.mpr hCrc)]
    cases digest with
    | none => exact iff_of_true rfl ⟨hCrc, hShort, nil_prefix⟩
    | some digest =>
      have hPrefix : slice (rawDataLen buf + rawHeaderSize)
          (digest.final (buf.take (rawDataLen buf + rawHeaderSize))).length buf = _ ↔ _ :=
        slice_eq_iff_starts
      rw [digest.final_length] at hPrefix
      dsimp only
      split_ifs with hDigest
      · exact iff_of_true rfl ⟨hCrc, hShort, hPrefix.mp hDigest⟩
      · exact iff_of_false (by simp) fun h => hDigest (hPrefix.mpr h.2.2)
  · simp [hShort, hCrc]

theorem rawVerifyData_len (h : (rawVerifyData digest buf len).1 = .ok ()) :
    (rawVerifyData digest buf len).2 = rawDataLen buf + rawHeaderSize := by
  obtain ⟨hCrc, hRoom, -⟩ := rawVerifyData_ok_iff.mp h
  rw [digestTrailer_length] at hRoom
  rw [rawVerifyData.eq_def, if_neg (by omega), if_neg (by simpa using hCrc)]
  cases digest with
  | none => rfl
  | some digest =>
    dsimp only
    split_ifs <;> rfl

theorem trailer_raw (h : raw.authentication flags = .ok digest) (content : List UInt8) :
    trailer (.raw raw) flags content = digestTrailer digest content := by
  cases digest <;> simp [trailer, h, digestTrailer]

theorem formatRawVerify_ok_iff : (formatRawVerify raw magic buf len flags).1 = .ok () ↔
      RawAccepted raw magic flags buf len := by
  constructor
  · intro h
    rw [formatRawVerify] at h
    split_ifs at h with hShort hHeader hMagic
    cases hAuth : raw.authentication flags with
    | error e =>
      rw [hAuth] at h
      cases h
    | ok digest =>
      rw [hAuth] at h
      obtain ⟨hCrc, hRoom, hDigest⟩ := rawVerifyData_ok_iff.mp h
      rw [← trailer_raw hAuth] at hRoom hDigest
      refine ⟨Nat.not_lt.mp hShort, not_not.mp hHeader, ?_, hCrc,
        by rw [hAuth]; rfl, hRoom, hDigest⟩
      exact or_iff_not_and_not.mpr hMagic
  · intro h
    cases hAuth : raw.authentication flags with
    | error e =>
      have hSecret := h.secret
      rw [hAuth] at hSecret
      cases hSecret
    | ok digest =>
      have hRoom := h.room
      have hDigest := h.digest
      rw [trailer_raw hAuth] at hRoom hDigest
      rw [formatRawVerify, if_neg (Nat.not_lt.mpr h.header), if_neg (not_not.mpr h.headerCrc),
        if_neg (or_iff_not_and_not.mp h.magic), hAuth]
      exact rawVerifyData_ok_iff.mpr ⟨h.dataCrc, hRoom, hDigest⟩

theorem formatRawVerify_len (h : (formatRawVerify raw magic buf len flags).1 = .ok ()) :
    (formatRawVerify raw magic buf len flags).2.1 = rawDataLen buf + rawHeaderSize := by
  rw [formatRawVerify] at h ⊢
  split_ifs at h ⊢ with hShort hHeader hMagic
  cases hAuth : raw.authentication flags with
  | error e =>
    rw [hAuth] at h
    cases h
  | ok digest =>
    rw [hAuth] at h
    exact rawVerifyData_len h

variable (h : RawAccepted raw magic flags buf len) (hLen : len ≤ buf.length)
include h hLen

theorem RawAccepted.length_take :
    (buf.take (rawDataLen buf + rawHeaderSize)).length = rawDataLen buf + rawHeaderSize := by
  have hRoom := h.room
  simp
  omega

/-- The content of an accepted buffer and its trailer make another buffer
acceptable, with the same content. -/
theorem RawAccepted.transfer {buf' : List UInt8} {len' : Nat}
    (hPrefix : buf.take (rawDataLen buf + rawHeaderSize) ++
      trailer (.raw raw) flags (buf.take (rawDataLen buf + rawHeaderSize)) <+: buf'.take len') :
    RawAccepted raw magic flags buf' len' ∧ rawDataLen buf' = rawDataLen buf ∧
      buf'.take (rawDataLen buf + rawHeaderSize) = buf.take (rawDataLen buf + rawHeaderSize) := by
  obtain ⟨hPrefix, hRoom⟩ := List.prefix_take_iff.mp hPrefix
  have hContent := (List.prefix_append _ _).trans hPrefix
  have hLength := h.length_take hLen
  have hSlice {off n : Nat} (hn : off + n ≤ rawDataLen buf + rawHeaderSize) : slice off n buf' =
      slice off n buf := by
    have hn' := hn.trans_eq hLength.symm
    rw [slice_of_starts hContent hn', slice_of_starts (List.take_prefix _ buf) hn']
  have hHead : rawHeaderSize = 16 := rfl
  have hData : rawDataLen buf' = rawDataLen buf := congrArg ofLe (hSlice (by omega))
  have hTake : buf'.take (rawDataLen buf + rawHeaderSize) =
      buf.take (rawDataLen buf + rawHeaderSize) := by
    have hEq := take_of_starts hContent
    rwa [hLength] at hEq
  rw [length_append, hLength] at hRoom
  refine ⟨⟨by omega, ?_, ?_, ?_, h.secret, ?_, ?_⟩, hData, hTake⟩
  · rw [rawHeaderCrc, hSlice (by omega), hSlice (by omega)]
    exact h.headerCrc
  · rw [rawMagic, hSlice (by omega)]
    exact h.magic
  · rw [rawDataCrc, hData, hSlice (by omega), hSlice (by omega)]
    exact h.dataCrc
  · simp [hData, hTake, hRoom]
  · grind [take_append_prefix_iff.mp]

omit h hLen
variable {codec : DtbCodec}

theorem verdict_dtb_transfer (magic : Nat) (flags : StateFlags)
    (root : Option Node) (hp : p.2 ≤ p.1.length)
    (hComplete : dtbComplete p.1 p.2) (hTree : (codec.unflatten (p.1.take (fdtTotalsize p.1))).isOk)
    (hPrefix : p.1.take (fdtTotalsize p.1) <+: q.1.take q.2) :
    verdict codec (.dtb ⟨root⟩) magic flags q = (.ok (), fdtTotalsize p.1) ∧
      q.1.take (fdtTotalsize p.1) = p.1.take (fdtTotalsize p.1) := by
  obtain ⟨hPrefix, hRoom⟩ := List.prefix_take_iff.mp hPrefix
  rw [dtbComplete, Bool.and_eq_true, decide_eq_true_eq, decide_eq_true_eq] at hComplete
  have hLength : (p.1.take (fdtTotalsize p.1)).length = fdtTotalsize p.1 := by
    simp
    omega
  cases hOwn : codec.unflatten (p.1.take (fdtTotalsize p.1)) with
  | error e =>
    rw [hOwn] at hTree
    cases hTree
  | ok tree =>
    have hHeader := codec.header _ tree hOwn
    rw [hLength, fdtHeaderSize] at hHeader
    have hFour : 4 + 4 ≤ (p.1.take (fdtTotalsize p.1)).length := by omega
    have hSize : fdtTotalsize q.1 = fdtTotalsize p.1 := by
      rw [fdtTotalsize, slice_of_starts hPrefix hFour,
        ← slice_of_starts (List.take_prefix _ p.1) hFour]
      rfl
    have hTake : q.1.take (fdtTotalsize p.1) = p.1.take (fdtTotalsize p.1) := by
      have hEq := take_of_starts hPrefix
      rwa [hLength] at hEq
    rw [hLength] at hRoom
    have hCompleteQ : dtbComplete q.1 q.2 = true := by
      rw [dtbComplete, Bool.and_eq_true, decide_eq_true_eq, decide_eq_true_eq, hSize]
      exact ⟨hHeader.trans hRoom, hRoom⟩
    refine ⟨?_, hTake⟩
    simp [verdict, formatVerify, BackendFormat.fresh, formatDtbVerify,
      hCompleteQ, hSize, hTake, hOwn]

/-- Given an accepted copy, another one is accepted with the same content if and
only if it starts with the content and its trailer. -/
theorem verdict_content_iff {format : BackendFormat} (hp : p.2 ≤ p.1.length)
    (hq : q.2 ≤ q.1.length) (hAccepted : (verdict codec format magic flags p).1 = .ok ()) :
    ((verdict codec format magic flags q).1 = .ok () ∧
      q.1.take (verdict codec format magic flags q).2 =
        p.1.take (verdict codec format magic flags p).2) ↔
          p.1.take (verdict codec format magic flags p).2 ++
      trailer format flags (p.1.take (verdict codec format magic flags p).2) <+: q.1.take q.2 := by
  cases format with
  | raw raw =>
    have hRaw (p : Payload) : verdict codec (.raw raw) magic flags p =
        ((formatRawVerify raw magic p.1 p.2 flags).1,
          (formatRawVerify raw magic p.1 p.2 flags).2.1) :=
      rfl
    rw [hRaw] at hAccepted
    have hLenP := formatRawVerify_len hAccepted
    have hChecks := formatRawVerify_ok_iff.mp hAccepted
    rw [hRaw, hRaw, hLenP]
    constructor
    · rintro ⟨hOk, hSame⟩
      have hq' := formatRawVerify_ok_iff.mp hOk
      rw [formatRawVerify_len hOk] at hSame
      rw [← hSame, List.prefix_take_iff, length_append, hq'.length_take hq]
      exact ⟨take_append_prefix_iff.mpr hq'.digest, hq'.room⟩
    · intro hPrefix
      obtain ⟨hNew, hData, hTake⟩ := hChecks.transfer hp hPrefix
      have hOk := formatRawVerify_ok_iff.mpr hNew
      refine ⟨hOk, ?_⟩
      simp [formatRawVerify_len hOk, hData, hTake]
  | dtb dtb =>
    obtain ⟨root⟩ := dtb
    have hOk {p : Payload} (h : (verdict codec (.dtb ⟨root⟩) magic flags p).1 = .ok ()) :=
      verdict_dtb (by rw [h]; rfl : (verdict codec (.dtb ⟨root⟩) magic flags p).1.isOk = true)
    obtain ⟨hComplete, hTree, hLen⟩ := hOk hAccepted
    rw [hLen, trailer, append_nil]
    constructor
    · rintro ⟨hAcceptedQ, hSame⟩
      obtain ⟨hCompleteQ, -, hLenQ⟩ := hOk hAcceptedQ
      rw [dtbComplete, Bool.and_eq_true, decide_eq_true_eq, decide_eq_true_eq] at hCompleteQ
      grind
    intro hPrefix
    obtain ⟨hVerdict, hSize⟩ := verdict_dtb_transfer magic flags root hp hComplete hTree hPrefix
    grind

theorem rawVerifyData_len_le : (rawVerifyData digest buf len).2 ≤ len := by
  unfold rawVerifyData
  dsimp only
  split
  · exact le_rfl
  split
  · exact le_rfl
  cases digest with
  | none =>
    dsimp only
    omega
  | some digest =>
    dsimp only
    split <;> (dsimp only; omega)

/-- The length that is left is never more than what was given. -/
theorem verdict_len_le (p : Payload) (format : BackendFormat) :
    (verdict codec format magic flags p).2 ≤ p.2 := by
  cases format with
  | raw raw =>
    change (formatRawVerify raw magic p.1 p.2 flags).2.1 ≤ p.2
    unfold formatRawVerify
    split
    · exact le_rfl
    split
    · exact le_rfl
    split
    · exact le_rfl
    cases raw.authentication flags with
    | error e => exact le_rfl
    | ok digest => exact rawVerifyData_len_le
  | dtb dtb =>
    change (formatDtbVerify codec {} magic p.1 p.2 flags).2.1 ≤ p.2
    unfold formatDtbVerify
    split
    next hComplete =>
      rw [dtbComplete, Bool.and_eq_true, decide_eq_true_eq, decide_eq_true_eq] at hComplete
      cases codec.unflatten (p.1.take (fdtTotalsize p.1)) with
      | error e => exact le_rfl
      | ok root => exact hComplete.2
    next => exact le_rfl

/-- An accepted copy has a content. -/
theorem verdict_len_pos {format : BackendFormat}
    (h : (verdict codec format magic flags p).1 = .ok ()) :
    0 < (verdict codec format magic flags p).2 := by
  cases format with
  | raw raw =>
    have hLen : (verdict codec (.raw raw) magic flags p).2 = rawDataLen p.1 + rawHeaderSize :=
      formatRawVerify_len h
    rw [hLen]
    exact Nat.lt_add_left _ (by decide)
  | dtb dtb =>
    obtain ⟨root⟩ := dtb
    obtain ⟨-, hTree, hLen⟩ := verdict_dtb (by rw [h]; rfl :
      (verdict codec (.dtb ⟨root⟩) magic flags p).1.isOk = true)
    cases hOwn : codec.unflatten (p.1.take (fdtTotalsize p.1)) with
    | error e =>
      rw [hOwn] at hTree
      cases hTree
    | ok tree =>
      have hHeader := codec.header _ tree hOwn
      rw [hLen]
      rw [fdtHeaderSize, length_take] at hHeader
      omega

end Content

section Storage
variable {β σ : Type} (ops : BucketOps β σ) (codec : DtbCodec) (magic : Nat) (flags : StateFlags)

/-- `bucket_refresh` rewrites the bucket. -/
def refreshes (buf : List UInt8) (len : Nat) (b : Bucket β) : Bool :=
  decide (b.needsRefresh ∨ b.len ≠ len ∨ b.buf.take len ≠ buf.take len)

/-- All copies are valid and have the given content when they are read once more. -/
def CopiesRestored (read : StorageRead β σ BackendFormat) (content : List UInt8) : Prop :=
  ∀ b ∈ read.storage.buckets, ∃ p, (ops.read b.dev read.storage.shared).1.payload = some p ∧
    (formatVerify codec read.format magic p.1 p.2 flags).1 = .ok () ∧
    p.1.take (formatVerify codec read.format magic p.1 p.2 flags).2.1 = content

variable {ops codec magic flags}

theorem bucketCheck_fresh (b : Bucket β) (shared : σ) (format : BackendFormat) :
    (bucketCheck ops (formatVerify codec) magic flags b shared format).2.2.2.fresh =
    format.fresh := by
  have hCheck := (bucketCheck_payload ops magic flags (formatVerify codec) b shared format).2
  cases hPayload : (ops.read b.dev shared).1.payload with
  | none =>
    grind
  | some p =>
    grind [formatVerify_verdict]

theorem bucketsCheck_fresh (buckets : List (Bucket β)) (shared : σ) (format : BackendFormat) :
    (bucketsCheck ops (formatVerify codec) magic flags buckets shared format).2.2.fresh =
    format.fresh := by
  induction buckets generalizing shared format with
  | nil => rfl
  | cons b rest ih => exact (ih _ _).trans (bucketCheck_fresh b shared format)

theorem bucketCheck_dev {f : Type} (verify : Verify f) (b : Bucket β) (m : σ) (format : f) :
    (bucketCheck ops verify magic flags b m format).2.1.dev = (ops.read b.dev m).2.1 := by
  unfold bucketCheck
  rcases ops.read b.dev m with ⟨_ | _ | _, dev, m'⟩ <;> rfl

/-- The first loop of a load reads every bucket on the same medium. -/
theorem bucketsCheck_each (readShared : ∀ dev m, (ops.read dev m).2.2 = m) {m : σ}
    {format : BackendFormat} {buckets : List (Bucket β)} :
    (bucketsCheck ops (formatVerify codec) magic flags buckets m format).2.1 = m ∧
      (bucketsCheck ops (formatVerify codec) magic flags buckets m format).1.map (·.2.dev) =
        buckets.map (fun b => (ops.read b.dev m).2.1) ∧
      ∀ c ∈ (bucketsCheck ops (formatVerify codec) magic flags buckets m format).1, ∃ b ∈ buckets,
        ∃ format', format'.fresh = format.fresh ∧
          c.2 = (bucketCheck ops (formatVerify codec) magic flags b m format').2.1 := by
  induction buckets generalizing format with
  | nil => exact ⟨rfl, rfl, fun _ hc => absurd hc not_mem_nil⟩
  | cons b rest ih =>
    have hFresh : (bucketCheck ops (formatVerify codec) magic flags b m format).2.2.2.fresh =
        format.fresh :=
      bucketCheck_fresh b m format
    have hShared : (bucketCheck ops (formatVerify codec) magic flags b m format).2.2.1 = m :=
      (bucketCheck_payload ops magic flags (formatVerify codec) b m format).1.trans
        (readShared _ _)
    obtain ⟨hSame, hDevs, hEach⟩ :=
      @ih (bucketCheck ops (formatVerify codec) magic flags b m format).2.2.2
    rw [bucketsCheck]
    dsimp only
    rw [hShared]
    refine ⟨hSame, ?_, ?_⟩
    · rw [map_cons, map_cons, hDevs, bucketCheck_dev]
    · refine forall_mem_cons.mpr ⟨⟨b, .head _, format, rfl, rfl⟩, fun c hc => ?_⟩
      obtain ⟨b', hb', format', hFormat, hEq⟩ := hEach c hc
      exact ⟨b', .tail _ hb', format', hFormat.trans hFresh, hEq⟩

theorem storageRead_fresh (s : Storage β σ) (format : BackendFormat) :
    (storageRead ops (formatVerify codec) magic flags s format).format.fresh = format.fresh := by
  rw [storageRead, storageRestore_format]
  exact bucketsCheck_fresh s.buckets s.shared format

end Storage

section Circular
variable {g : Geometry}

theorem mtdPebRead_length {c c' : BucketCircular g} {offset len : Nat} {unclean : Bool}
    {buf : List UInt8} (hRange : offset + len ≤ g.maxSize)
    (h : mtdPebRead c offset len = (.ok (unclean, buf), c')) : buf.length = len := by
  have hBlock : (c.peb.block.read offset len).length = len := by
    refine slice_length_of_le ?_
    rw [c.peb.block.length_eq]
    exact hRange
  unfold mtdPebRead at h
  split at h <;> cases h
  · exact hBlock
  · exact hBlock
  · exact zeros_length len

theorem bucketCircularReadRange_sized {c : BucketCircular g} {offset readLen : Nat}
    (hRange : offset + readLen ≤ g.maxSize) {p : Payload}
    (h : (bucketCircularReadRange c offset readLen).1.payload = some p) : p.2 ≤ p.1.length := by
  rw [bucketCircularReadRange] at h
  by_cases hZero : readLen = 0
  · rw [if_pos hZero] at h
    cases h
  rw [if_neg hZero] at h
  have hLen : (if c.lastWrittenLength ≠ 0 then readLen - metaSize else readLen) ≤ readLen := by
    split_ifs <;> omega
  generalize (if c.lastWrittenLength ≠ 0 then readLen - metaSize else readLen) = len at h hLen
  cases hRead : mtdPebRead c offset readLen with
  | mk result c' =>
    rw [hRead] at h
    cases result with
    | error e => cases h
    | ok found =>
      obtain ⟨unclean, buf⟩ := found
      have hBuf := mtdPebRead_length hRange hRead
      cases unclean <;> (cases h; exact hLen.trans_eq hBuf.symm)

theorem circularOps_sized (c : BucketCircular g) (p : Payload)
    (h : ((circularOps g).read c ()).1.payload = some p) : p.2 ≤ p.1.length := by
  have hArea := c.writeArea_le
  have hRead : (bucketCircularRead c).1.payload = some p := h
  rw [bucketCircularRead] at hRead
  split_ifs at hRead with hEmpty hOld hBad
  · cases hRead
  · exact bucketCircularReadRange_sized (by omega) hRead
  · cases hRead
  · exact bucketCircularReadRange_sized (by omega) hRead

def packedCounter (raw : FormatRaw) : List UInt8 :=
  match formatRawPack raw ⟨counterNode 0, 0x12345678, [counterVar 0 9], true⟩ with
  | some (.ok buf) => buf
  | _ => []

def halfStorage (raw : FormatRaw) : Storage (BucketCircular sampleGeometry) Unit where
  buckets := mtdBucketsInit
    [.good ((Block.erased 64).program 0 (circularRecord sampleGeometry (packedCounter raw))),
      .good (.erased 64)]
  shared := ()

def counterContent (raw : FormatRaw) : List UInt8 := (packedCounter raw).take 20

end Circular
end Barebox.State
