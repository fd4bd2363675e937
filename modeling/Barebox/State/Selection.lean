import Barebox.State.Backend
import Barebox.State.PowerCut
import Barebox.State.RawRoundTrip

/-! Which copy a load installs. The storage takes the first copy that the
format accepts, whereas the dtb format keeps the tree of the last copy it was
given. -/
namespace Barebox.State
open Bytes Flash Of List Variable
variable {β σ : Type}

abbrev Payload := List UInt8 × Nat

def BucketRead.payload : BucketRead → Option Payload
  | .ok buf len => some (buf, len)
  | .unclean buf len => some (buf, len)
  | .error _ => none

/-- What the buckets deliver, in their order. -/
def presented (ops : BucketOps β σ) : List (Bucket β) → σ → List Payload
  | [], _ => []
  | b :: rest, shared =>
    let (read, _, shared) := ops.read b.dev shared
    read.payload.toList ++ presented ops rest shared

def BackendFormat.fresh : BackendFormat → BackendFormat
  | .raw format => .raw format
  | .dtb _ => .dtb {}

section Payload
variable (codec : DtbCodec) (format : BackendFormat) (magic : Nat) (flags : StateFlags)

/-- What the format says about a payload, whatever it has verified before. -/
def verdict (p : Payload) : Except Errno Unit × Nat :=
  let (ret, len, _) := formatVerify codec format.fresh magic p.1 p.2 flags
  (ret, len)

/-- The values that a payload encodes: what a new format unpacks from it. -/
def encodedValues (st : StateObject) (p : Payload) : Option (List (List UInt8)) :=
  match formatUnpack codec format.fresh st p.1 p.2 with
  | some (.ok (), st, _) => some (st.vars.map raw)
  | _ => none

def firstAccepted (payloads : List Payload) : Option Payload :=
  payloads.find? fun p => (verdict codec format magic flags p).1.isOk

end Payload

section Verify
variable (codec : DtbCodec) (magic : Nat) (flags : StateFlags)

theorem formatVerify_verdict (format : BackendFormat) (p : Payload) :
    (formatVerify codec format magic p.1 p.2 flags).1 = (verdict codec format magic flags p).1 ∧
      (formatVerify codec format magic p.1 p.2 flags).2.1 = (verdict codec format magic flags p).2 ∧
      (formatVerify codec format magic p.1 p.2 flags).2.2.fresh = format.fresh := by
  cases format with
  | raw raw =>
    have hSame : (formatRawVerify raw magic p.1 p.2 flags).2.2 = raw := by
      unfold formatRawVerify
      repeat' split
      all_goals rfl
    refine ⟨rfl, rfl, ?_⟩
    simp [formatVerify, hSame]
  | dtb dtb =>
    refine ⟨?_, ?_, rfl⟩ <;>
      simp only [verdict, formatVerify, BackendFormat.fresh, formatDtbVerify] <;>
      cases dtbComplete p.1 p.2 <;> cases codec.unflatten (p.1.take (fdtTotalsize p.1)) <;> rfl

theorem formatVerify_dtb (root : Option Node) (p : Payload) :
    (formatVerify codec (.dtb ⟨root⟩) magic p.1 p.2 flags).2.2 = .dtb ⟨if dtbComplete p.1 p.2 then
        (codec.unflatten (p.1.take (fdtTotalsize p.1))).toOption else root⟩ := by
  simp only [formatVerify, formatDtbVerify]
  cases dtbComplete p.1 p.2 with
  | false => rfl
  | true => cases codec.unflatten (p.1.take (fdtTotalsize p.1)) <;> rfl

theorem verdict_congr {format format' : BackendFormat} (h : format.fresh = format'.fresh) :
    verdict codec format magic flags = verdict codec format' magic flags := by
  funext p
  simp only [verdict, h]

end Verify

section Check
variable (ops : BucketOps β σ) (codec : DtbCodec) (magic : Nat) (flags : StateFlags)

theorem bucketCheck_payload {f : Type} (verify : Verify f) (b : Bucket β)
    (shared : σ) (format : f) :
    (bucketCheck ops verify magic flags b shared format).2.2.1 = (ops.read b.dev shared).2.2 ∧
      match (ops.read b.dev shared).1.payload with
      | none => (bucketCheck ops verify magic flags b shared format).1.isOk = false ∧
          (bucketCheck ops verify magic flags b shared format).2.2.2 = format
      | some p => (bucketCheck ops verify magic flags b shared format).1 =
      (verify format magic p.1 p.2 flags).1 ∧
          (bucketCheck ops verify magic flags b shared format).2.1.buf = p.1 ∧
          (bucketCheck ops verify magic flags b shared format).2.1.len =
          (verify format magic p.1 p.2 flags).2.1 ∧
          (bucketCheck ops verify magic flags b shared format).2.2.2 =
          (verify format magic p.1 p.2 flags).2.2 := by
  unfold bucketCheck
  obtain ⟨read, dev, shared'⟩ := ops.read b.dev shared
  cases read with
  | ok buf len | unclean buf len => exact ⟨rfl, rfl, rfl, rfl, rfl⟩
  | error e => exact ⟨rfl, rfl, rfl⟩

variable (buckets : List (Bucket β)) (shared : σ)

theorem bucketsCheck_find (format : BackendFormat) :
    ((bucketsCheck ops (formatVerify codec) magic flags buckets shared format).1.find?
        (fun c => c.1.isOk)).map (fun c => (c.2.buf, c.2.len)) =
      (firstAccepted codec format magic flags (presented ops buckets shared)).map
        (fun p => (p.1, (verdict codec format magic flags p).2)) := by
  induction buckets generalizing shared format with
  | nil => rfl
  | cons b rest ih =>
    obtain ⟨hShared, hCheck⟩ :=
      bucketCheck_payload ops magic flags (formatVerify codec) b shared format
    simp only [bucketsCheck, presented, firstAccepted, find?_cons]
    rw [hShared]
    cases hPayload : (ops.read b.dev shared).1.payload with
    | none =>
      rw [hPayload] at hCheck
      simp only [hCheck, Option.toList_none, nil_append]
      exact ih _ format
    | some p =>
      rw [hPayload] at hCheck
      obtain ⟨hRet, hBuf, hLen, hFormat⟩ := hCheck
      obtain ⟨hVerdict, hLength, hFresh⟩ := formatVerify_verdict codec magic flags format p
      simp only [hRet, hFormat, hVerdict, Option.toList_some, singleton_append, find?_cons]
      cases hOk : (verdict codec format magic flags p).1.isOk with
      | true => simp only [Option.map_some, hBuf, hLen, hLength]
      | false =>
        rw [ih, firstAccepted, verdict_congr codec magic flags hFresh]

variable (root : Option Node)

def keptTree (payloads : List Payload) : Option Node :=
  match (payloads.filter fun p => dtbComplete p.1 p.2).getLast? with
  | none => root
  | some p => (codec.unflatten (p.1.take (fdtTotalsize p.1))).toOption

theorem keptTree_cons (p : Payload) (rest : List Payload) :
    keptTree codec root (p :: rest) = keptTree codec (if dtbComplete p.1 p.2 then
      (codec.unflatten (p.1.take (fdtTotalsize p.1))).toOption else root) rest := by
  simp only [keptTree, filter_cons]
  cases hComplete : dtbComplete p.1 p.2 with
  | false => rfl
  | true =>
    rw [if_pos rfl, if_pos rfl, getLast?_cons]
    cases (rest.filter fun p => dtbComplete p.1 p.2).getLast? with
    | none => rfl
    | some q => rfl

theorem bucketsCheck_dtb :
    (bucketsCheck ops (formatVerify codec) magic flags buckets shared (.dtb ⟨root⟩)).2.2 =
      .dtb ⟨keptTree codec root (presented ops buckets shared)⟩ := by
  induction buckets generalizing shared root with
  | nil => rfl
  | cons b rest ih =>
    obtain ⟨hShared, hCheck⟩ :=
      bucketCheck_payload ops magic flags (formatVerify codec) b shared (.dtb ⟨root⟩)
    simp only [bucketsCheck, presented]
    rw [hShared]
    cases hPayload : (ops.read b.dev shared).1.payload with
    | none =>
      grind
    | some p =>
      grind [formatVerify_dtb, keptTree_cons]

theorem bucketsCheck_raw (raw : FormatRaw) :
    (bucketsCheck ops (formatVerify codec) magic flags buckets shared (.raw raw)).2.2 =
    .raw raw := by
  have hStep (b : Bucket β) (shared : σ) :
      (bucketCheck ops (formatVerify codec) magic flags b shared (.raw raw)).2.2.2 = .raw raw := by
    have hCheck := (bucketCheck_payload ops magic flags (formatVerify codec) b shared (.raw raw)).2
    cases hPayload : (ops.read b.dev shared).1.payload with
    | none =>
      grind
    | some p =>
      rw [hPayload] at hCheck
      have hFresh := (formatVerify_verdict codec magic flags (.raw raw) p).2.2
      rw [hCheck.2.2.2]
      exact hFresh
  induction buckets generalizing shared with
  | nil => rfl
  | cons b rest ih =>
    simp [bucketsCheck, hStep, ih]

end Check

section Load
variable (ops : BucketOps β σ) (codec : DtbCodec) (flags : StateFlags)

/-- The copy that a load selects: the first one in the order of the buckets that
can be read and is accepted. -/
def selected (b : Backend β σ) : Option Payload :=
  firstAccepted codec b.format b.state.magic.toNat flags
    (presented ops b.storage.buckets b.storage.shared)

/-- A load that ends in `b'` installed the values of the selected copy, and all
its writes carry that copy. -/
def InstallsSelected (b b' : Backend β σ) : Prop :=
  ∃ p, selected ops codec flags b = some p ∧ encodedValues codec b.format b.state p =
    some (b'.state.vars.map raw) ∧
    ∀ w ∈ (storageRead ops (formatVerify codec) b.state.magic.toNat
      flags b.storage b.format).writes,
      w.data = p.1.take (verdict codec b.format b.state.magic.toNat flags p).2

/-- The last payload that is long enough for its device tree cannot be
unflattened, or encodes the same values as the selected one. Only the dtb format
asks for it. -/
def LastAgrees (b : Backend β σ) : Prop :=
  match b.format with
  | .raw _ => True
  | .dtb _ => ∀ p q, selected ops codec flags b = some p →
      ((presented ops b.storage.buckets b.storage.shared).filter
        fun q => dtbComplete q.1 q.2).getLast? = some q →
      (codec.unflatten (q.1.take (fdtTotalsize q.1))).isOk →
      encodedValues codec b.format b.state q = encodedValues codec b.format b.state p

variable {ops codec flags} {b b' : Backend β σ}

theorem stateDoLoad_ok (hLoad : stateDoLoad ops codec flags b = some (.ok (), b')) :
    ∃ p st format, selected ops codec flags b = some p ∧
      formatUnpack codec (bucketsCheck ops (formatVerify codec) b.state.magic.toNat flags
          b.storage.buckets b.storage.shared b.format).2.2 b.state p.1
          (verdict codec b.format b.state.magic.toNat flags p).2 = some (.ok (), st, format) ∧
      st.vars = b'.state.vars ∧
      ∀ w ∈ (storageRead ops (formatVerify codec) b.state.magic.toNat flags b.storage
          b.format).writes, w.data =
            p.1.take (verdict codec b.format b.state.magic.toNat flags p).2 := by
  have hFind :=
    bucketsCheck_find ops codec b.state.magic.toNat flags b.storage.buckets b.storage.shared
      b.format
  rw [stateDoLoad, storageRead] at hLoad
  rw [storageRead]
  generalize bucketsCheck ops (formatVerify codec) b.state.magic.toNat flags b.storage.buckets
    b.storage.shared b.format = check at hFind hLoad ⊢
  obtain ⟨checked, shared, format⟩ := check
  have hRet := storageRestore_ret ops b.storage.readonly checked shared format
  simp only [storageRestore_format] at hLoad
  cases hUsed : checked.find? (fun c => c.1.isOk) with
  | none =>
    grind
  | some c =>
    rw [hUsed] at hRet hFind
    obtain ⟨p, hSelected, hUsedCopy⟩ := Option.map_eq_some_iff.mp hFind.symm
    rw [hRet] at hLoad
    obtain ⟨⟨ret, st, format'⟩, hUnpack, hEnd⟩ := Option.map_eq_some_iff.mp hLoad
    cases hEnd
    have hBuf : p.1 = c.2.buf := congrArg Prod.fst hUsedCopy
    have hLen : (verdict codec b.format b.state.magic.toNat flags p).2 = c.2.len :=
      congrArg Prod.snd hUsedCopy
    refine ⟨p, st, format', hSelected, ?_, rfl, ?_⟩ <;> rw [hBuf, hLen]
    · exact hUnpack
    · exact storageRestore_writes ops _ checked shared format hRet

theorem formatUnpack_dtb (codec : DtbCodec) (root : Option Node) (st : StateObject) (p : Payload) :
    formatUnpack codec (.dtb ⟨root⟩) st p.1 p.2 =
    (stateFromNode st (root.or (if dtbComplete p.1 p.2 then
        (codec.unflatten (p.1.take (fdtTotalsize p.1))).toOption else none))).map
        fun (ret, st) => (ret, st.forgetTree, .dtb {}) := by
  simp only [formatUnpack, formatDtbUnpack, Option.map_map]
  cases root with
  | some root => rfl
  | none =>
    have hTree := formatVerify_dtb codec 0 {} none p
    simp only [formatVerify, BackendFormat.dtb.injEq] at hTree
    rw [hTree]
    rfl

variable {st st' : StateObject} {p : Payload} {format' : BackendFormat} {root : Option Node}

theorem encodedValues_of_unpack {format : BackendFormat}
    (h : formatUnpack codec format.fresh st p.1 p.2 =
      some (.ok (), st', format')) : encodedValues codec format st p = some (st'.vars.map raw) := by
  rw [encodedValues, h]

theorem verdict_dtb {magic : Nat} (h : (verdict codec (.dtb ⟨root⟩) magic flags p).1.isOk) :
    dtbComplete p.1 p.2 ∧ (codec.unflatten (p.1.take (fdtTotalsize p.1))).isOk ∧
      (verdict codec (.dtb ⟨root⟩) magic flags p).2 = fdtTotalsize p.1 := by
  simp only [verdict, formatVerify, BackendFormat.fresh, formatDtbVerify] at h ⊢
  cases hComplete : dtbComplete p.1 p.2 with
  | false =>
    rw [hComplete] at h
    cases h
  | true =>
    rw [hComplete] at h
    cases hTree : codec.unflatten (p.1.take (fdtTotalsize p.1)) with
    | error e =>
      rw [hTree] at h
      cases h
    | ok tree => exact ⟨rfl, rfl, rfl⟩

theorem encodedValues_dtb {tree : Node} (hComplete : dtbComplete p.1 p.2)
    (hTree : codec.unflatten (p.1.take (fdtTotalsize p.1)) = .ok tree)
    (hImport : (stateFromNode st (some tree)).map
      (fun (ret, st) => (ret, st.forgetTree, BackendFormat.dtb {})) = some (.ok (), st', format')) :
    encodedValues codec (.dtb ⟨root⟩) st p = some (st'.vars.map raw) := by
  have hUnpack := formatUnpack_dtb codec none st p
  rw [if_pos hComplete, hTree] at hUnpack
  exact encodedValues_of_unpack (hUnpack.trans hImport)

/-- With the tree of `q` kept, `p` is unpacked only when `q` could not be
unflattened. -/
theorem encodedValues_kept (root : Option Node) {q : Payload}
    (hp : dtbComplete p.1 p.2) (hq : dtbComplete q.1 q.2)
    (hTree : (codec.unflatten (p.1.take (fdtTotalsize p.1))).isOk) (hUnpack : formatUnpack codec
      (.dtb ⟨(codec.unflatten (q.1.take (fdtTotalsize q.1))).toOption⟩) st p.1
      (fdtTotalsize p.1) = some (.ok (), st', format')) : encodedValues codec (.dtb ⟨root⟩) st
      (if (codec.unflatten (q.1.take (fdtTotalsize q.1))).isOk then q else p) =
      some (st'.vars.map raw) := by
  have hRoot := (formatUnpack_dtb codec _ st (p.1, fdtTotalsize p.1)).symm.trans hUnpack
  cases hLast : codec.unflatten (q.1.take (fdtTotalsize q.1)) with
  | ok last =>
    rw [hLast] at hRoot
    exact encodedValues_dtb hq hLast hRoot
  | error e =>
    rw [hLast, show (Except.error e : Except Errno Node).toOption = none from rfl,
      Option.none_or] at hRoot
    split_ifs at hRoot with hShort
    · cases hOwn : codec.unflatten (p.1.take (fdtTotalsize p.1)) with
      | error e =>
        rw [hOwn] at hTree
        cases hTree
      | ok tree =>
        rw [hOwn] at hRoot
        exact encodedValues_dtb hp hOwn hRoot
    · cases hRoot

/-- A load that succeeds installs the selected copy if and only if the last
complete device tree among the copies cannot be unflattened or encodes the same
values. -/
theorem stateDoLoad_installs_iff (hLoad : stateDoLoad ops codec flags b = some (.ok (), b')) :
    InstallsSelected ops codec flags b b' ↔ LastAgrees ops codec flags b := by
  obtain ⟨p, st, format', hSelected, hUnpack, hVars, hWrites⟩ := stateDoLoad_ok hLoad
  have hInstalls : InstallsSelected ops codec flags b b' ↔
      encodedValues codec b.format b.state p = some (st.vars.map raw) := by
    rw [hVars]
    constructor
    · rintro ⟨q, hq, hValues, -⟩
      cases hSelected.symm.trans hq
      exact hValues
    · exact fun hValues => ⟨p, hSelected, hValues, hWrites⟩
  have hAccepted := find?_some hSelected
  rw [hInstalls, LastAgrees]
  cases hFormat : b.format with
  | raw raw =>
    rw [hFormat, bucketsCheck_raw] at hUnpack
    exact iff_of_true (encodedValues_of_unpack hUnpack) trivial
  | dtb dtb =>
    obtain ⟨root⟩ := dtb
    rw [hFormat] at hAccepted hUnpack
    obtain ⟨hComplete, hTree, hLen⟩ := verdict_dtb hAccepted
    have hMem : p ∈ (presented ops b.storage.buckets b.storage.shared).filter
        fun q => dtbComplete q.1 q.2 :=
      mem_filter.mpr ⟨mem_of_find?_eq_some hSelected, hComplete⟩
    obtain ⟨q, hLast⟩ := Option.isSome_iff_exists.mp
      (getLast?_isSome.mpr (ne_nil_of_mem hMem))
    have hq := (mem_filter.mp (mem_of_getLast? hLast)).2
    rw [bucketsCheck_dtb, hLen, keptTree, hLast] at hUnpack
    have hValues := encodedValues_kept root hComplete hq hTree hUnpack
    constructor
    · intro hSame p' q' hp' hq' hOk
      cases hSelected.symm.trans hp'
      cases hLast.symm.trans hq'
      grind
    intro hAgrees
    rw [← hValues]
    split_ifs with hOk
    · exact (hAgrees p q hSelected hLast hOk).symm
    · rfl

end Load

section Counter

def counterTree (value : UInt32) : Node :=
  .mk [] [⟨propMagic, [0x12, 0x34, 0x56, 0x78]⟩]
    [.mk (ascii "counter") [⟨propType, ascii "uint32" ++ [0]⟩, ⟨propValue, be 4 value.toNat⟩] []]

/-- `counterTree` as a flattened device tree: the header, an empty reserve map,
the structure and the strings. -/
def counterBlob (value : UInt32) : List UInt8 :=
  [0xd00dfeed, 157, 56, 140, 40, 17, 16, 0, 17, 84].flatMap (be 4) ++
    zeros 16 ++ (be 4 1 ++ zeros 4 ++
      (be 4 3 ++ be 4 4 ++ be 4 0 ++ [0x12, 0x34, 0x56, 0x78]) ++
      (be 4 1 ++ ascii "counter" ++ [0]) ++
      (be 4 3 ++ be 4 7 ++ be 4 6 ++ ascii "uint32" ++ [0, 0]) ++
      (be 4 3 ++ be 4 4 ++ be 4 11 ++ be 4 value.toNat) ++
      be 4 2 ++ be 4 2 ++ be 4 9) ++
    (ascii "magic" ++ [0] ++ ascii "type" ++ [0] ++ ascii "value" ++ [0])

def counterCodec : DtbCodec where
  flatten _ := none
  unflatten fdt :=
    if fdt = counterBlob 1 then .ok (counterTree 1)
    else if fdt = counterBlob 2 then .ok (counterTree 2)
    else .error .einval
  header fdt tree h := by
    split_ifs at h with hOne hTwo
    · rw [hOne]
      decide +kernel
    · rw [hTwo]
      decide +kernel

theorem counterGeometry_writesize : 8 ≤ 8 := by decide
theorem counterGeometry_maxSize : 8 ≤ 256 := by decide
theorem counterGeometry_lt : 256 < 2 ^ 31 := by decide

def counterGeometry : Geometry :=
  ⟨8, 256, counterGeometry_writesize, counterGeometry_maxSize, counterGeometry_lt⟩

def counterBackend (values : List UInt32) : Backend (BucketCircular counterGeometry) Unit where
  state := ⟨counterNode 0, 0x12345678, [counterVar 0 7], true⟩
  storage := ⟨mtdBucketsInit (values.map fun v =>
    .good ((Block.erased 256).program 0 (circularRecord counterGeometry (counterBlob v)))),
      (), false⟩
  format := .dtb {}

def counterPayload (value : UInt32) : Payload :=
  (circularRecord counterGeometry (counterBlob value), 160)

theorem exists_of_loaded (load : Option (Except Errno Unit × Backend β σ))
    (values : List (List UInt8)) (h : load.map (fun r => (r.1.isOk, r.2.state.vars.map raw)) =
      some (true, values)) : ∃ b', load = some (.ok (), b') ∧ b'.state.vars.map raw = values := by
  obtain ⟨⟨ret, b'⟩, hLoad, hValues⟩ := Option.map_eq_some_iff.mp h
  cases ret with
  | error e => cases hValues
  | ok =>
    cases hValues
    exact ⟨b', hLoad, rfl⟩

/-- Two equal copies: the load installs the first. -/
theorem stateDoLoad_installs_iff_sample :
    ∃ b', stateDoLoad (circularOps counterGeometry) counterCodec {}
    (counterBackend [1, 1]) = some (.ok (), b') ∧
      InstallsSelected (circularOps counterGeometry) counterCodec {}
      (counterBackend [1, 1]) b' := by
  obtain ⟨b', hLoad, -⟩ := exists_of_loaded
    (stateDoLoad (circularOps counterGeometry) counterCodec {} (counterBackend [1, 1])) [le 4 1]
    (by decide +kernel)
  refine ⟨b', hLoad, (stateDoLoad_installs_iff hLoad).mpr ?_⟩
  intro p q hp hq _
  have hSelected : selected (circularOps counterGeometry) counterCodec {} (counterBackend [1, 1]) =
      some (counterPayload 1) := by decide +kernel
  have hLast : ((presented (circularOps counterGeometry) (counterBackend [1, 1]).storage.buckets
      ()).filter fun q => dtbComplete q.1 q.2).getLast? = some (counterPayload 1) := by
    decide +kernel
  cases hSelected.symm.trans hp
  cases hLast.symm.trans hq
  rfl

/-- The first copy has the counter at 1 and is selected, but the load installs
the 2 of the second copy. -/
theorem stateLoad_installs_last :
    ∃ b', stateLoad (circularOps counterGeometry) counterCodec (counterBackend [1, 2]) =
        some (.ok (), b') ∧ selected (circularOps counterGeometry) counterCodec {}
        (counterBackend [1, 2]) =
        some (counterPayload 1) ∧ b'.state.vars.map raw = [le 4 2] ∧
      ¬InstallsSelected (circularOps counterGeometry) counterCodec {}
      (counterBackend [1, 2]) b' := by
  obtain ⟨b', hLoad, hValues⟩ := exists_of_loaded
    (stateLoad (circularOps counterGeometry) counterCodec (counterBackend [1, 2])) [le 4 2]
    (by decide +kernel)
  have hSelected : selected (circularOps counterGeometry) counterCodec {} (counterBackend [1, 2]) =
      some (counterPayload 1) := by decide +kernel
  refine ⟨b', hLoad, hSelected, hValues, ?_⟩
  rintro ⟨p, hp, hEncoded, -⟩
  cases hSelected.symm.trans hp
  rw [hValues] at hEncoded
  have hOne : encodedValues counterCodec (.dtb {}) ⟨counterNode 0,
      0x12345678, [counterVar 0 7], true⟩
      (counterPayload 1) = some [le 4 1] := by decide +kernel
  exact absurd (hOne.symm.trans hEncoded) (by decide)

end Counter
end Barebox.State
