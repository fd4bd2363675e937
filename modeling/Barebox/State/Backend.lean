import Barebox.State.FormatDtb
import Barebox.State.FormatRaw

/-! Loading and saving a state with its format and its storage. -/
namespace Barebox.State
open Bytes Of

inductive BackendFormat where
  | raw (format : FormatRaw)
  | dtb (format : FormatDtb)

def formatVerify (codec : DtbCodec) : Verify BackendFormat := fun format magic buf len flags =>
  match format with
  | .raw format =>
    let (ret, len, format) := formatRawVerify format magic buf len flags
    (ret, len, .raw format)
  | .dtb format =>
    let (ret, len, format) := formatDtbVerify codec format magic buf len flags
    (ret, len, .dtb format)

def formatUnpack (codec : DtbCodec) (format : BackendFormat) (st : StateObject) (buf : List UInt8)
    (len : Nat) : Option (Except Errno Unit × StateObject × BackendFormat) :=
  match format with
  | .raw format => (formatRawUnpack buf st.vars).map fun (ret, vars) =>
    (ret, { st with vars }, .raw format)
  | .dtb format => (formatDtbUnpack codec format st buf len).map fun (ret, st, format) =>
    (ret, st, .dtb format)

def formatPack (codec : DtbCodec) (format : BackendFormat) (st : StateObject) :
    Option (Except Errno (List UInt8) × BackendFormat) :=
  match format with
  | .raw format => (formatRawPack format st).map fun ret => (ret, .raw format)
  | .dtb format => (formatDtbPack codec format st).map fun (ret, format) => (ret, .dtb format)

structure Backend (β σ : Type) where
  state : StateObject
  storage : Storage β σ
  format : BackendFormat
  keepPrevContent : Bool := false

variable {β σ : Type}

/-- `state_save`: foreign content in a bucket is kept when the backend asks for it. -/
def stateSave (ops : BucketOps β σ) (codec : DtbCodec) (b : Backend β σ) :
    Option (Except Errno Unit × Backend β σ) :=
  if !b.state.dirty then some (.ok (), b)
  else
    (formatPack codec b.format b.state).map fun
      | (.error e, format) => (.error e, { b with format })
      | (.ok buf, format) =>
        if b.keepPrevContent && b.storage.buckets.any (fun bucket => ops.wrongMagic bucket.dev) then
          (.error .eperm, { b with format })
        else
          match storageWrite ops b.storage buf with
          | (.error e, storage) => (.error e, { b with storage, format })
          | (.ok (), storage) => (.ok (), { b with storage, format, state.dirty := false })

/-- `state_do_load`: a failed load leaves the state dirty. -/
def stateDoLoad (ops : BucketOps β σ) (codec : DtbCodec) (flags : StateFlags) (b : Backend β σ) :
    Option (Except Errno Unit × Backend β σ) :=
  let read := storageRead ops (formatVerify codec) b.state.magic.toNat flags b.storage b.format
  let b := { b with storage := read.storage, format := read.format }
  match read.ret with
  | .error e => some (.error e, { b with state.dirty := true })
  | .ok (buf, len) =>
    (formatUnpack codec b.format b.state buf len).map fun (ret, state, format) =>
      (ret, { b with state := { state with dirty := !ret.isOk }, format })

def stateLoad (ops : BucketOps β σ) (codec : DtbCodec) (b : Backend β σ) :
    Option (Except Errno Unit × Backend β σ) := stateDoLoad ops codec {} b

end Barebox.State
