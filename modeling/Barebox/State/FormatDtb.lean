import Barebox.State.Convert
import Barebox.State.Storage

/-! The dtb format of the state framework: the state as a flattened device
tree. The tree of the buffer that was verified last is kept until it is
unpacked. -/
namespace Barebox.State
open Bytes Of

def fdtHeaderSize : Nat := 40

/-- `of_flatten_dtb` and `of_unflatten_dtb`. The latter starts with
`fdt_parse_header`, which wants a header to be there. -/
structure DtbCodec where
  flatten : Node → Option (List UInt8)
  unflatten : List UInt8 → Except Errno Node
  header : ∀ fdt tree, unflatten fdt = .ok tree → fdtHeaderSize ≤ fdt.length

structure FormatDtb where
  root : Option Node := none

def fdtTotalsize (buf : List UInt8) : Nat := ofBe (slice 4 4 buf)

def dtbComplete (buf : List UInt8) (len : Nat) : Bool :=
  decide (fdtHeaderSize ≤ len) && decide (fdtTotalsize buf ≤ len)

variable (codec : DtbCodec)

/-- `state_backend_format_dtb_verify`. The tree of an earlier buffer is given up
only when there is a buffer to unflatten. -/
def formatDtbVerify : Verify FormatDtb := fun format _ buf len _ =>
  if dtbComplete buf len then
    match codec.unflatten (buf.take (fdtTotalsize buf)) with
    | .error e => (.error e, len, ⟨none⟩)
    | .ok root => (.ok (), fdtTotalsize buf, ⟨some root⟩)
  else (.error .einval, len, format)

def VariableData.forgetTree : VariableData → VariableData
  | .string value (.tree _) raw => .string value .freed raw
  | data => data

def StateObject.forgetTree (st : StateObject) : StateObject :=
  { st with vars := st.vars.map fun sv => { sv with data := sv.data.forgetTree } }

/-- `state_backend_format_dtb_unpack`: the root of the last verification is used up. -/
def formatDtbUnpack (format : FormatDtb) (st : StateObject) (buf : List UInt8) (len : Nat) :
    Option (Except Errno Unit × StateObject × FormatDtb) :=
  let root := match format.root with
    | some root => some root
    | none => (formatDtbVerify codec format 0 buf len {}).2.2.root
  (stateFromNode st root).map fun (ret, st) => (ret, st.forgetTree, ⟨none⟩)

/-- `state_backend_format_dtb_pack`: the buffer has the total size of the blob. -/
def formatDtbPack (format : FormatDtb) (st : StateObject) :
    Option (Except Errno (List UInt8) × FormatDtb) :=
  (stateToNode st).map fun
    | .error e => (.error e, format)
    | .ok root =>
      match codec.flatten root with
      | none => (.error .einval, format)
      | some fdt => (.ok (fdt.take (fdtTotalsize fdt)), ⟨some root⟩)

end Barebox.State
