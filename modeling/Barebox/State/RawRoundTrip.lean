import Barebox.State.FormatRaw
import Barebox.State.Layout

/-! Packing a created state in the raw format and unpacking it again. The
length of the data is stored in sixteen bits, which decides whether the way
back works. -/
namespace Barebox.State
open Bytes Lib List

def layout (vars : List Variable) : List (UInt32 × Nat) := vars.map fun sv => (sv.start, sv.size)

def DataFits (vars : List Variable) : Prop :=
  ∀ last ∈ vars.getLast?, last.start.toNat + last.size < 2 ^ 16

section Header
variable (magic : UInt32) (dataLen : Nat) (dataCrc : UInt32) (rest : List UInt8)

theorem rawMagic_fields :
    rawMagic (rawHeaderFields magic dataLen dataCrc ++ rest) = magic.toNat := by
  have hLt : magic.toNat < 256 ^ 4 := magic.toNat_lt
  rw [rawMagic, show slice 0 4 (rawHeaderFields magic dataLen dataCrc ++ rest) =
    le 4 magic.toNat from rfl, ofLe_le_of_lt hLt]

theorem rawDataLen_fields :
    rawDataLen (rawHeaderFields magic dataLen dataCrc ++ rest) = dataLen % 2 ^ 16 := by
  simp [rawDataLen, show slice 6 2 (rawHeaderFields magic dataLen dataCrc ++ rest) =
    le 2 dataLen from rfl, ofLe_le]

theorem rawDataCrc_fields :
    rawDataCrc (rawHeaderFields magic dataLen dataCrc ++ rest) = dataCrc.toNat := by
  have hLt : dataCrc.toNat < 256 ^ 4 := dataCrc.toNat_lt
  rw [rawDataCrc, show slice 8 4 (rawHeaderFields magic dataLen dataCrc ++ rest) =
    le 4 dataCrc.toNat from rfl, ofLe_le_of_lt hLt]

theorem rawHeaderCrc_fields (headerCrc : UInt32) :
    rawHeaderCrc (rawHeaderFields magic dataLen dataCrc ++ (le 4 headerCrc.toNat ++ rest)) =
    headerCrc.toNat := by
  have hLt : headerCrc.toNat < 256 ^ 4 := headerCrc.toNat_lt
  rw [rawHeaderCrc,
    show slice 12 4 (rawHeaderFields magic dataLen dataCrc ++ (le 4 headerCrc.toNat ++ rest)) =
    le 4 headerCrc.toNat from rfl, ofLe_le_of_lt hLt]

def rawHeader (magic : UInt32) (data : List UInt8) : List UInt8 :=
  let fields := rawHeaderFields magic data.length (crc32 0 data)
  fields ++ le 4 (crc32 0 fields).toNat

theorem rawHeader_length (data : List UInt8) : (rawHeader magic data).length = rawHeaderSize := rfl

end Header

def Apart (a b : UInt32 × Nat) : Prop := a.1.toNat + a.2 ≤ b.1.toNat

/-- Variables that lie apart are all found in the packed data, and the rest is untouched. -/
theorem packVariables_spec (vars : List Variable) (data : List UInt8)
    (hApart : (layout vars).Pairwise Apart)
    (hRoom : ∀ sv ∈ vars, sv.start.toNat + sv.size ≤ data.length) :
    ∃ out, packVariables data vars = some out ∧ out.length = data.length ∧
      (∀ sv ∈ vars, slice sv.start.toNat sv.size out = sv.raw) ∧
      ∀ pos len, (∀ sv ∈ vars, pos + len ≤ sv.start.toNat ∨ sv.start.toNat + sv.size ≤ pos) →
        slice pos len out = slice pos len data := by
  induction vars generalizing data with
  | nil => exact ⟨data, rfl, rfl, by simp, fun _ _ _ => rfl⟩
  | cons sv rest ih =>
    rw [layout, map_cons, pairwise_cons] at hApart
    have hSv := hRoom sv (.head _)
    have hRaw : sv.raw.length = sv.size := VariableData.raw_length _
    by_cases hEmpty : sv.size = 0
    · obtain ⟨out, hPack, hLen, hStored, hKept⟩ :=
        ih data hApart.2 (fun v hv => hRoom v (.tail _ hv))
      refine ⟨out, by rw [packVariables, if_pos hEmpty]; exact hPack, hLen, ?_, ?_⟩
      · refine forall_mem_cons.mpr ⟨?_, hStored⟩
        simp [eq_nil_of_length_eq_zero (hRaw.trans hEmpty), hEmpty, slice]
      · intro pos len hFree
        exact hKept pos len (fun v hv => hFree v (.tail _ hv))
    · have hWrite : sv.start.toNat + sv.raw.length ≤ data.length := by rw [hRaw]; exact hSv
      have hSame := overwrite_length hWrite
      obtain ⟨out, hPack, hLen, hStored, hKept⟩ := ih (overwrite sv.start.toNat sv.raw data)
        hApart.2 (fun v hv => by rw [hSame]; exact hRoom v (.tail _ hv))
      refine ⟨out, ?_, hLen.trans hSame, ?_, ?_⟩
      · rw [packVariables, if_neg hEmpty, if_neg (Nat.not_lt.mpr hSv), hPack]
      · refine forall_mem_cons.mpr ⟨?_, hStored⟩
        rw [hKept _ _ fun w hw => .inl (hApart.1 _ (mem_map_of_mem hw)), ← hRaw]
        exact slice_overwrite_self hWrite
      · intro pos len hFree
        rw [hKept pos len (fun v hv => hFree v (.tail _ hv))]
        apply slice_overwrite_of_disjoint hWrite
        simp [hRaw, hFree]

variable {vars vars' : List Variable} {data buf : List UInt8} {st : StateObject} {raw : FormatRaw}

theorem packVariables_room {out : List UInt8} (h : packVariables data vars = some out) :
    ∀ sv ∈ vars, sv.size = 0 ∨ sv.start.toNat + sv.size ≤ data.length := by
  induction vars generalizing data with
  | nil => simp
  | cons sv rest ih =>
    intro v hv
    rw [packVariables] at h
    by_cases hEmpty : sv.size = 0
    · rw [if_pos hEmpty] at h
      rcases mem_cons.mp hv with rfl | hv
      · exact .inl hEmpty
      · exact ih h v hv
    rw [if_neg hEmpty] at h
    by_cases hRoom : data.length < sv.start.toNat + sv.size
    · rw [if_pos hRoom] at h
      cases h
    rw [if_neg hRoom] at h
    rcases mem_cons.mp hv with rfl | hv
    · exact .inr (by omega)
    have hLen : (overwrite sv.start.toNat sv.raw data).length = data.length := by
      apply overwrite_length
      rw [show sv.raw.length = sv.size from VariableData.raw_length _]
      omega
    grind

theorem formatRawUnpack_ok (hEnd : ∀ sv ∈ vars, sv.start.toNat + sv.size ≤ rawDataLen buf)
    (hBuf : rawHeaderSize + rawDataLen buf ≤ buf.length) :
    formatRawUnpack buf vars = some (.ok (), vars.map fun sv =>
      { sv with data := sv.data.setRaw (slice (rawHeaderSize + sv.start.toNat) sv.size buf) }) := by
  induction vars with
  | nil => rfl
  | cons sv rest ih =>
    have hSv := hEnd sv (.head _)
    have hField : rawDataLen buf < 2 ^ 16 := by
      have hLt := ofLe_lt (slice 6 2 buf)
      have hLen : (slice 6 2 buf).length = 2 := slice_length_of_le (by
        simp only [rawHeaderSize] at hBuf
        omega)
      rw [hLen] at hLt
      exact hLt
    have hSum : (sv.start + .ofNat sv.size).toNat = sv.start.toNat + sv.size := by
      simp
      omega
    grind [formatRawUnpack]

theorem formatRawUnpack_end {out : List Variable}
    (h : formatRawUnpack buf vars = some (.ok (), out)) :
    ∀ sv ∈ vars, (sv.start + .ofNat sv.size).toNat ≤ rawDataLen buf := by
  induction vars generalizing out with
  | nil => simp
  | cons sv rest ih =>
    rw [formatRawUnpack] at h
    rcases hRest : formatRawUnpack buf rest with _ | result
    · rw [hRest] at h
      cases h
    obtain ⟨ret, rest'⟩ := result
    rw [hRest] at h
    dsimp only at h
    by_cases hBehind : rawDataLen buf < (sv.start + .ofNat sv.size).toNat
    · rw [if_pos hBehind] at h
      cases h
    rw [if_neg hBehind] at h
    by_cases hBuf : buf.length < rawHeaderSize + sv.start.toNat + sv.size
    · rw [if_pos hBuf] at h
      cases h
    rw [if_neg hBuf] at h
    cases h
    exact forall_mem_cons.mpr ⟨Nat.le_of_not_lt hBehind, ih hRest⟩

theorem start_le_last (hSorted : vars.Pairwise (fun a b => a.start ≤ b.start))
    {last : Variable} (hLast : last ∈ vars.getLast?) : ∀ sv ∈ vars, sv.start ≤ last.start := by
  intro sv hSv
  obtain ⟨front, rfl⟩ := getLast?_eq_some_iff.mp hLast
  rcases mem_append.mp hSv with hFront | hEnd
  · exact (pairwise_append.mp hSorted).2.2 sv hFront last (mem_singleton_self _)
  · simp [mem_singleton.mp hEnd]

/-- The overlap check keeps variables apart where its arithmetic does not wrap. -/
theorem apart_of_conflictFree (hFree : conflictFree vars = true)
    (hSmall : ∀ sv ∈ vars, sv.start.toNat + sv.size < 2 ^ 32) : (layout vars).Pairwise Apart := by
  have hTrans : ∀ a b c : UInt32 × Nat, Apart a b → Apart b c → Apart a c := by
    intro a b c hab hbc
    grind [Apart]
  have : IsTrans (UInt32 × Nat) Apart := ⟨hTrans⟩
  rw [← isChain_iff_pairwise, layout]
  induction vars with
  | nil => exact List.IsChain.nil
  | cons a rest ih =>
    rcases rest with _ | ⟨b, rest⟩
    · exact List.IsChain.singleton _
    rw [conflictFree, Bool.and_eq_true, decide_eq_true_eq] at hFree
    refine List.IsChain.cons_cons ?_ (ih hFree.2 (fun sv hSv => hSmall sv (.tail _ hSv)))
    have hA := hSmall a (.head _)
    have hLt := UInt32.lt_iff_toNat_lt.mp hFree.1
    rw [UInt32.toNat_sub, UInt32.toNat_add, UInt32.toNat_ofNat'] at hLt
    have hB := b.start.toNat_lt
    grind [Apart]

theorem created_layout {node : Of.Node} (hCreate : stateCreate node = some (.ok st))
    (hFits : DataFits st.vars) :
    (layout st.vars).Pairwise Apart ∧ stateDataSize st.vars < 2 ^ 16 ∧
      ∀ sv ∈ st.vars, sv.start.toNat + sv.size ≤ stateDataSize st.vars := by
  have hLaid := wellLaid_of_stateCreate hCreate
  have hFree := (stateCreate_ok hCreate).2.1
  rcases hLast : st.vars.getLast? with _ | last
  · rw [getLast?_eq_none_iff.mp hLast]
    exact ⟨Pairwise.nil, by decide, by simp⟩
  have hEnd := hFits last hLast
  have hSize : stateDataSize st.vars = last.start.toNat + last.size := by
    simp [stateDataSize, hLast]
    omega
  have hSmall : ∀ sv ∈ st.vars, sv.start.toNat + sv.size < 2 ^ 32 := by
    intro sv hSv
    have hStart := UInt32.le_iff_toNat_le.mp (start_le_last hLaid.sorted hLast sv hSv)
    have hBound := hLaid.small sv hSv
    omega
  have hApart := apart_of_conflictFree hFree hSmall
  refine ⟨hApart, hSize ▸ hEnd, ?_⟩
  intro sv hSv
  obtain ⟨front, hVars⟩ := getLast?_eq_some_iff.mp hLast
  rw [hSize]
  rw [hVars] at hSv hApart
  rcases mem_append.mp hSv with hFront | hOwn
  · rw [layout, map_append, pairwise_append] at hApart
    have hBefore := hApart.2.2 (sv.start, sv.size) (mem_map_of_mem hFront)
      (last.start, last.size) (by simp)
    simp only [Apart] at hBefore
    omega
  · rw [mem_singleton.mp hOwn]

theorem forall_of_layout (h : layout vars = layout vars')
    {P : UInt32 → Nat → Prop} (hP : ∀ sv ∈ vars', P sv.start sv.size) :
    ∀ sv ∈ vars, P sv.start sv.size := by
  intro sv hSv
  have hMem : (sv.start, sv.size) ∈ layout vars' := h ▸ mem_map_of_mem hSv
  obtain ⟨sv', hSv', hEq⟩ := mem_map.mp hMem
  obtain ⟨hStart, hSize⟩ := Prod.mk.inj hEq
  have := hP sv' hSv'
  rwa [hStart, hSize] at this

theorem stateDataSize_layout (h : layout vars = layout vars') :
    stateDataSize vars = stateDataSize vars' := by
  have hLast := congrArg List.getLast? h
  rw [layout, layout, getLast?_map, getLast?_map] at hLast
  unfold stateDataSize
  cases hA : vars.getLast? with
  | none =>
    rw [hA] at hLast
    rw [Option.map_eq_none_iff.mp hLast.symm]
  | some a =>
    rw [hA] at hLast
    obtain ⟨b, hB, hEq⟩ := Option.map_eq_some_iff.mp hLast.symm
    obtain ⟨hStart, hSize⟩ := Prod.mk.inj hEq
    simp [hB, hStart, hSize]

def rawMac (raw : FormatRaw) (magic : UInt32) (data : List UInt8) : List UInt8 :=
  raw.algo.elim [] (·.final (rawHeader magic data ++ data))

theorem rawDataLen_rawHeader (magic : UInt32) (hData : data.length < 2 ^ 16)
    (rest : List UInt8) : rawDataLen (rawHeader magic data ++ rest) = data.length := by
  rw [rawHeader, append_assoc, rawDataLen_fields, Nat.mod_eq_of_lt hData]

theorem rawVerifyData_ok (magic : UInt32) (hData : data.length < 2 ^ 16) {digest : Option Digest}
    {mac trailing : List UInt8} (hMac : ∀ d ∈ digest, mac = d.final (rawHeader magic data ++ data))
    {len : Nat}
    (hLen : (rawHeader magic data ++ (data ++ (mac ++ trailing))).length = len) :
    rawVerifyData digest (rawHeader magic data ++ (data ++ (mac ++ trailing))) len =
      (.ok (), data.length + rawHeaderSize) := by
  have hHeader := rawHeader_length magic data
  have hBody : slice rawHeaderSize data.length
      (rawHeader magic data ++ (data ++ (mac ++ trailing))) = data :=
    hHeader ▸ slice_append_middle _ _ _
  have hCrc : rawDataCrc (rawHeader magic data ++ (data ++ (mac ++ trailing))) =
      (crc32 0 data).toNat := by
    simp [rawHeader, rawDataCrc_fields]
  have hDigest : ∀ d ∈ digest, mac.length = d.length := fun d hd => by
    rw [hMac d hd, d.final_length]
  have hRoom : ¬len < data.length + digest.elim 0 Digest.length + rawHeaderSize := by
    have hTotal : len = rawHeaderSize + (data.length + (mac.length + trailing.length)) := by grind
    cases digest with
    | none =>
      simp
      omega
    | some d =>
      have := hDigest d rfl
      simp
      omega
  simp only [rawVerifyData, rawDataLen_rawHeader magic hData]
  rw [if_neg hRoom, if_neg (by rw [hBody, hCrc]; simp)]
  rcases digest with _ | d
  · rfl
  have hFront : (rawHeader magic data ++ data).length = rawHeaderSize + data.length := by
    simp [hHeader]
  have hTake : (rawHeader magic data ++ (data ++ (mac ++ trailing))).take
      (rawHeaderSize + data.length) = rawHeader magic data ++ data := by
        rw [← append_assoc, take_left' hFront]
  have hSlice : slice (rawHeaderSize + data.length) d.length
      (rawHeader magic data ++ (data ++ (mac ++ trailing))) = mac := by
    rw [← append_assoc, ← hFront, ← hDigest d rfl]
    exact slice_append_middle _ _ _
  grind

theorem formatRawVerify_ok (hSecret : raw.algo.isSome → raw.secret = .ok ())
    (magic : UInt32) (hData : data.length < 2 ^ 16) (trailing : List UInt8) (flags : StateFlags) :
    formatRawVerify raw magic.toNat (rawHeader magic data ++
      (data ++ (rawMac raw magic data ++ trailing)))
        (rawHeader magic data ++ (data ++ (rawMac raw magic data ++ trailing))).length flags =
      (.ok (), data.length + rawHeaderSize, raw) := by
  have hAuth : ∃ digest, raw.authentication flags = .ok digest ∧
      ∀ d ∈ digest, rawMac raw magic data = d.final (rawHeader magic data ++ data) := by
    unfold FormatRaw.authentication rawMac
    cases hAlgo : raw.algo with
    | none => exact ⟨none, rfl, by simp⟩
    | some d =>
      cases flags.noAuthentication with
      | true => exact ⟨none, rfl, by simp⟩
      | false => exact ⟨some d, by rw [hSecret (by simp [hAlgo])]; rfl, by simp⟩
  obtain ⟨digest, hAuth, hMac⟩ := hAuth
  generalize hRest : rawMac raw magic data ++ trailing = rest
  have hLong : ¬(rawHeader magic data ++ (data ++ rest)).length < rawHeaderSize := by
    simp [rawHeader_length]
  have hHeaderCrc : rawHeaderCrc (rawHeader magic data ++ (data ++ rest)) =
      (crc32 0 (rawHeaderFields magic data.length (crc32 0 data))).toNat := by
        simp [rawHeader, rawHeaderCrc_fields]
  have hFields : slice 0 12 (rawHeader magic data ++ (data ++ rest)) =
      rawHeaderFields magic data.length (crc32 0 data) := by rfl
  have hMagic : rawMagic (rawHeader magic data ++ (data ++ rest)) = magic.toNat := by
    simp [rawHeader, rawMagic_fields]
  rw [formatRawVerify, if_neg hLong, if_neg (by rw [hFields, hHeaderCrc]; simp),
    if_neg (by rw [hMagic]; simp), hAuth]
  dsimp only
  rw [← hRest, rawVerifyData_ok magic hData hMac rfl]

theorem formatRawPack_ok (hSecret : raw.algo.isSome → raw.secret = .ok ())
    (hApart : (layout st.vars).Pairwise Apart)
    (hEnd : ∀ sv ∈ st.vars, sv.start.toNat + sv.size ≤ stateDataSize st.vars)
    (hFits : stateDataSize st.vars < 2 ^ 16) :
    ∃ data, formatRawPack raw st =
    some (.ok (rawHeader st.magic data ++ (data ++ rawMac raw st.magic data))) ∧
      data.length = stateDataSize st.vars ∧ ∀ sv ∈ st.vars,
      slice sv.start.toNat sv.size data = sv.raw := by
  have hReady : (if raw.algo.isSome then raw.secret else .ok ()) = Except.ok () := by
    split_ifs with hAlgo
    · exact hSecret hAlgo
    · rfl
  have hDigest : raw.algo.elim 0 Digest.length ≤ 64 := by
    cases raw.algo with
    | none => exact Nat.zero_le _
    | some d => exact d.length_le
  have hFull : stateDataSize st.vars + rawHeaderSize + raw.algo.elim 0 Digest.length < 2 ^ 32 := by
    simp only [rawHeaderSize]
    omega
  have hRoom : (zeros (stateDataSize st.vars + rawHeaderSize + raw.algo.elim 0 Digest.length -
      rawHeaderSize)).length = stateDataSize st.vars + raw.algo.elim 0 Digest.length := by
    rw [zeros_length]
    omega
  obtain ⟨out, hPack, hLen, hStored, -⟩ := packVariables_spec st.vars _ hApart
    (fun sv hSv => by rw [hRoom]; exact (hEnd sv hSv).trans (Nat.le_add_right _ _))
  have hSize : (out.take (stateDataSize st.vars)).length = stateDataSize st.vars := by
    simp [hLen, hRoom]
  refine ⟨out.take (stateDataSize st.vars), ?_, hSize, ?_⟩
  · simp only [formatRawPack, hReady, Nat.mod_eq_of_lt hFull, Nat.lt_irrefl, if_false, hPack]
    simp [rawHeader, rawMac, hSize]
  intro sv hSv
  rw [← hStored sv hSv, slice, slice, drop_take, take_take, Nat.min_eq_left]
  have := hEnd sv hSv
  omega

theorem rawDataLen_lt (buf : List UInt8) : rawDataLen buf < 2 ^ 16 := by
  have hLen : (slice 6 2 buf).length ≤ 2 := by simp [slice_length]
  exact (ofLe_lt _).trans_le (Nat.pow_le_pow_right (by decide) hLen)

theorem formatRawPack_room (h : formatRawPack raw st = some (.ok buf)) :
    ∀ sv ∈ st.vars, sv.size = 0 ∨ sv.start.toNat + sv.size < 2 ^ 32 := by
  unfold formatRawPack at h
  rcases hReady : (if raw.algo.isSome then raw.secret else .ok ()) with e | u
  · rw [hReady] at h
    cases h
  rw [hReady] at h
  dsimp only at h
  generalize stateDataSize st.vars + rawHeaderSize + raw.algo.elim 0 Digest.length = full at h
  by_cases hWrap : full % 2 ^ 32 < full
  · rw [if_pos hWrap] at h
    cases h
  rw [if_neg hWrap] at h
  cases hPack : packVariables (zeros (full % 2 ^ 32 - rawHeaderSize)) st.vars with
  | none =>
    rw [hPack] at h
    cases h
  | some data =>
    intro sv hSv
    refine (packVariables_room hPack sv hSv).imp id fun hRoom => ?_
    rw [zeros_length] at hRoom
    omega

/-- The state is packed, and whatever follows the buffer it is accepted and
restores the raw bytes of every variable. -/
def RawRoundTrip (raw : FormatRaw) (st : StateObject) (vars : List Variable) : Prop :=
  ∃ buf, formatRawPack raw st = some (.ok buf) ∧ ∀ trailing flags,
    (formatRawVerify raw st.magic.toNat (buf ++ trailing) (buf ++ trailing).length flags).1 =
      .ok () ∧
    ∃ out, formatRawUnpack (buf ++ trailing) vars = some (.ok (), out) ∧
      out.map Variable.raw = st.vars.map Variable.raw

theorem RawRoundTrip.intro {raw : FormatRaw} (hSecret : raw.algo.isSome → raw.secret = .ok ())
    {st : StateObject} (hApart : (layout st.vars).Pairwise Apart)
    (hFits : stateDataSize st.vars < 2 ^ 16)
    (hEnd : ∀ sv ∈ st.vars, sv.start.toNat + sv.size ≤ stateDataSize st.vars)
    {vars : List Variable} (hLayout : layout vars = layout st.vars) : RawRoundTrip raw st vars := by
  obtain ⟨data, hPack, hLen, hStored⟩ := formatRawPack_ok hSecret hApart hEnd hFits
  refine ⟨_, hPack, fun trailing flags => ?_⟩
  have hAssoc : rawHeader st.magic data ++ (data ++ rawMac raw st.magic data) ++ trailing =
      rawHeader st.magic data ++ (data ++ (rawMac raw st.magic data ++ trailing)) := by simp
  have hData : data.length < 2 ^ 16 := hLen ▸ hFits
  have hHeader := rawHeader_length st.magic data
  have hField :=
    rawDataLen_rawHeader st.magic hData (data ++ (rawMac raw st.magic data ++ trailing))
  have hInside : ∀ sv ∈ vars, sv.start.toNat + sv.size ≤ data.length := by
    rw [hLen]
    exact forall_of_layout (P := fun start size => start.toNat + size ≤ _) hLayout hEnd
  rw [hAssoc, formatRawVerify_ok hSecret st.magic hData trailing flags]
  refine ⟨rfl, _, formatRawUnpack_ok (by rw [hField]; exact hInside) ?_, ?_⟩
  · simp [hField, hHeader]
  have hSlice : ∀ start size, start + size ≤ data.length → slice (rawHeaderSize + start) size
      (rawHeader st.magic data ++ (data ++ (rawMac raw st.magic data ++ trailing))) =
      slice start size data := by
    intro start size hIn
    rw [← hHeader, slice_append_right, slice_append_left _ hIn]
  calc
    (vars.map fun sv => { sv with data := sv.data.setRaw (slice (rawHeaderSize + sv.start.toNat)
        sv.size (rawHeader st.magic data ++
          (data ++ (rawMac raw st.magic data ++ trailing)))) }).map
        Variable.raw
      = vars.map fun sv => slice sv.start.toNat sv.size data := by
        rw [map_map]
        apply map_congr_left
        intro sv hSv
        have hIn := hInside sv hSv
        simp only [Function.comp_apply, hSlice _ _ hIn]
        exact VariableData.setRaw_raw _ (slice_length_of_le hIn)
    _ = (layout vars).map fun p => slice p.1.toNat p.2 data := by simp [layout]
    _ = st.vars.map fun sv => slice sv.start.toNat sv.size data := by
        rw [hLayout, layout, map_map]
        rfl
    _ = st.vars.map Variable.raw := map_congr_left hStored

theorem RawRoundTrip.dataFits {created : List Variable} (h : RawRoundTrip raw st vars)
    (hStored : layout st.vars = layout created) (hVars : layout vars = layout created) :
    DataFits created := by
  obtain ⟨buf, hPack, hTrip⟩ := h
  obtain ⟨-, out, hUnpack, -⟩ := hTrip [] {}
  intro last hLast
  have hMem := mem_of_getLast? hLast
  have hEnd := forall_of_layout (P := fun start size => (start + .ofNat size).toNat ≤ _)
    hVars.symm (formatRawUnpack_end hUnpack) last hMem
  have hRoom := forall_of_layout (P := fun start size => size = 0 ∨ start.toNat + size < 2 ^ 32)
    hStored.symm (formatRawPack_room hPack) last hMem
  have hField := rawDataLen_lt (buf ++ [])
  have hStart := last.start.toNat_lt
  rw [UInt32.toNat_add, UInt32.toNat_ofNat'] at hEnd
  omega

/-- For every state that is created from a node, whatever values its variables
have since been given, the raw format restores all of them exactly when the
end of the last variable fits the sixteen bits of the length field. -/
theorem formatRaw_roundTrip_iff (node : Of.Node) (st : StateObject)
    (hCreate : stateCreate node = some (.ok st)) (raw : FormatRaw)
    (hSecret : raw.algo.isSome → raw.secret = .ok ()) (vars vars' : List Variable)
    (hVars : layout vars = layout st.vars) (hVars' : layout vars' = layout st.vars) :
    RawRoundTrip raw { st with vars } vars' ↔ DataFits st.vars := by
  constructor
  · intro hTrip
    exact hTrip.dataFits hVars hVars'
  intro hFits
  obtain ⟨hApart, hSize, hEnd⟩ := created_layout hCreate hFits
  refine RawRoundTrip.intro hSecret ?_ ?_ ?_ (hVars'.trans hVars.symm)
  · simp [hVars, hApart]
  · rw [stateDataSize_layout hVars]
    exact hSize
  · rw [stateDataSize_layout hVars]
    exact forall_of_layout (P := fun start size => start.toNat + size ≤ _) hVars hEnd

/-- A state node with one variable of type `uint32` at the given offset. -/
def counterNode (start : UInt32) : Of.Node :=
  .mk (ascii "state") [⟨propMagic, [0x12, 0x34, 0x56, 0x78]⟩]
    [.mk (ascii "counter") [⟨propType, ascii "uint32" ++ [0]⟩,
      ⟨propReg, be 4 start.toNat ++ be 4 4⟩, ⟨propDefault, [0, 0, 0, 7]⟩] []]

def counterVar (start value : UInt32) : Variable := ⟨ascii "counter", start, .uint32 value 7⟩

def checksumDigest : Digest where
  length := 4
  final data := le 4 (crc32 0 data).toNat
  final_length data := le_length 4 _
  length_le := by decide

/-- A state node with a counter, an address and a text, with gaps between them. -/
def boardNode : Of.Node :=
  .mk (ascii "state") [⟨propMagic, [0x12, 0x34, 0x56, 0x78]⟩]
    [.mk (ascii "counter") [⟨propType, ascii "uint32" ++ [0]⟩, ⟨propReg, be 4 0 ++ be 4 4⟩] [],
      .mk (ascii "address") [⟨propType, ascii "mac" ++ [0]⟩, ⟨propReg, be 4 8 ++ be 4 6⟩] [],
      .mk (ascii "note") [⟨propType, ascii "string" ++ [0]⟩, ⟨propReg, be 4 16 ++ be 4 4⟩] []]

def boardVars (counter : UInt32) (address : MacAddr) (note : List UInt8) : List Variable :=
  [⟨ascii "counter", 0, .uint32 counter 0⟩, ⟨ascii "address", 8, .mac address .zero⟩,
    ⟨ascii "note", 16, .string none .null note⟩]

/-- Three variables with new values are packed with a digest, and read back over others. -/
theorem formatRaw_roundTrip_iff_board :
    RawRoundTrip { algo := some checksumDigest }
      ⟨boardNode, 0x12345678, boardVars 9 ⟨[2, 0, 0, 0, 0, 1], rfl⟩ (ascii "left"), true⟩
      (boardVars 5 .zero (zeros 4)) :=
  (formatRaw_roundTrip_iff boardNode ⟨boardNode, 0x12345678, boardVars 0 .zero (zeros 4), true⟩ rfl
    { algo := some checksumDigest } (fun _ => rfl)
      (boardVars 9 ⟨[2, 0, 0, 0, 0, 1], rfl⟩ (ascii "left"))
    (boardVars 5 .zero (zeros 4)) rfl rfl).mpr (by
      intro last hLast
      cases hLast
      decide)

/-- A variable behind the first 64 KiB is lost. -/
theorem formatRaw_roundTrip_large : stateCreate (counterNode 65536) =
      some (.ok ⟨counterNode 65536, 0x12345678, [counterVar 65536 7], true⟩) ∧
    ¬RawRoundTrip {} ⟨counterNode 65536, 0x12345678, [counterVar 65536 7],
      true⟩ [counterVar 65536 7] := by
  refine ⟨rfl, fun hTrip => ?_⟩
  have hFits : DataFits [counterVar 65536 7] := hTrip.dataFits rfl rfl
  exact absurd (hFits (counterVar 65536 7) rfl) (by decide)

end Barebox.State
