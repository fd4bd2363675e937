import Barebox.Lib.Crc32
import Barebox.State.Convert
import Barebox.State.Storage

/-! The raw format of the state framework: a header with two checksums, the raw
bytes of the variables at their offsets, and optionally an HMAC. -/
namespace Barebox.State
open Bytes Lib

/-- A keyed digest. `final` is what `digest_final` leaves behind after the data
was fed to the digest. No algorithm has more than 512 bits. -/
structure Digest where
  length : Nat
  final : List UInt8 → List UInt8
  final_length : ∀ data, (final data).length = length
  length_le : length ≤ 64

/-- `struct state_backend_format_raw`. `secret` is the result of
`backend_raw_digest_init`, which looks up the key. -/
structure FormatRaw where
  algo : Option Digest := none
  secret : Except Errno Unit := .ok ()

def rawHeaderSize : Nat := 16

/-- `struct backend_raw_header` in front of its own checksum. -/
def rawHeaderFields (magic : UInt32) (dataLen : Nat) (dataCrc : UInt32) : List UInt8 :=
  le 4 magic.toNat ++ (le 2 0 ++ (le 2 dataLen ++ le 4 dataCrc.toNat))

def rawMagic (buf : List UInt8) : Nat := ofLe (slice 0 4 buf)
def rawDataLen (buf : List UInt8) : Nat := ofLe (slice 6 2 buf)
def rawDataCrc (buf : List UInt8) : Nat := ofLe (slice 8 4 buf)
def rawHeaderCrc (buf : List UInt8) : Nat := ofLe (slice 12 4 buf)

def FormatRaw.authentication (raw : FormatRaw) (flags : StateFlags) :
    Except Errno (Option Digest) :=
  match raw.algo with
  | some digest => if flags.noAuthentication then .ok none else raw.secret.map fun _ => some digest
  | none => .ok none

/-- The part of `backend_format_raw_verify` that knows the digest to check. The
length is set before the digest is looked at. -/
def rawVerifyData (digest : Option Digest) (buf : List UInt8) (len : Nat) :
    Except Errno Unit × Nat :=
  let dataLen := rawDataLen buf
  if len < dataLen + (digest.elim 0 Digest.length) + rawHeaderSize then (.error .einval, len)
  else if (crc32 0 (slice rawHeaderSize dataLen buf)).toNat ≠ rawDataCrc buf then
    (.error .einval, len)
  else
    match digest with
    | none => (.ok (), dataLen + rawHeaderSize)
    | some digest =>
      if slice (rawHeaderSize + dataLen) digest.length buf =
          digest.final (buf.take (rawHeaderSize + dataLen)) then
        (.ok (), dataLen + rawHeaderSize)
      else (.error .einval, dataLen + rawHeaderSize)

/-- `backend_format_raw_verify`: an erased header is `-ENOMEDIUM`, not `-EINVAL`. -/
def formatRawVerify : Verify FormatRaw := fun raw magic buf len flags =>
  if len < rawHeaderSize then (.error .einval, len, raw)
  else if (crc32 0 (slice 0 12 buf)).toNat ≠ rawHeaderCrc buf then
    (.error (if rawHeaderCrc buf ≠ 0 then .einval else .enomedium), len, raw)
  else if magic ≠ 0 ∧ magic ≠ rawMagic buf then (.error .einval, len, raw)
  else
    match raw.authentication flags with
    | .error e => (.error e, len, raw)
    | .ok digest => ((rawVerifyData digest buf len).1, (rawVerifyData digest buf len).2, raw)

/-- `backend_format_raw_unpack`: every variable that ends within the data is
copied. There is no outcome when the copy would read behind the buffer. -/
def formatRawUnpack (buf : List UInt8) : List Variable → Option (Except Errno Unit × List Variable)
  | [] => some (.ok (), [])
  | sv :: rest =>
    match formatRawUnpack buf rest with
    | none => none
    | some (ret, rest) =>
      if rawDataLen buf < (sv.start + .ofNat sv.size).toNat then
        some (.error .enospc, sv :: rest)
      else if buf.length < rawHeaderSize + sv.start.toNat + sv.size then none
      else
        let bytes := slice (rawHeaderSize + sv.start.toNat) sv.size buf
        some (ret, { sv with data := sv.data.setRaw bytes } :: rest)

/-- `state_data_size`, in the arithmetic of `unsigned int`. -/
def stateDataSize (vars : List Variable) : Nat :=
  match vars.getLast? with
  | none => 0
  | some sv => (sv.start + .ofNat sv.size).toNat

/-- Copy the raw bytes of the variables into the data. There is no outcome when
a copy would write behind the buffer. -/
def packVariables (data : List UInt8) : List Variable → Option (List UInt8)
  | [] => some data
  | sv :: rest =>
    if sv.size = 0 then packVariables data rest
    else if data.length < sv.start.toNat + sv.size then none
    else packVariables (overwrite sv.start.toNat sv.raw data) rest

/-- `backend_format_raw_pack`. The sizes are of type `unsigned int`. There is no
outcome when the buffer is too small for what is written to it. -/
def formatRawPack (raw : FormatRaw) (st : StateObject) : Option (Except Errno (List UInt8)) :=
  match (if raw.algo.isSome then raw.secret else .ok ()) with
  | .error e => some (.error e)
  | .ok () =>
    let sizeData := stateDataSize st.vars
    let digestLength := raw.algo.elim 0 Digest.length
    let sizeFull := (sizeData + rawHeaderSize + digestLength) % 2 ^ 32
    if sizeFull < sizeData + rawHeaderSize + digestLength then none
    else
      match packVariables (zeros (sizeFull - rawHeaderSize)) st.vars with
      | none => none
      | some data =>
        let data := data.take sizeData
        let fields := rawHeaderFields st.magic sizeData (crc32 0 data)
        let body := fields ++ (le 4 (crc32 0 fields).toNat ++ data)
        some (.ok (body ++ (raw.algo.elim [] (·.final body))))

end Barebox.State
