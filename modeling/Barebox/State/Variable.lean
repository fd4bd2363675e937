import Barebox.Lib.Strtox
import Barebox.Of.Node
import Mathlib.Data.List.Sort

/-! State variables: how each type is created from a device tree node, and how
its value travels between the variable, its raw bytes and a node. -/
namespace Barebox.State
open Bytes Of

inductive VariableType where
  | uint8 | uint32 | enum32 | mac | string
  deriving DecidableEq, Repr

def VariableType.typeName : VariableType → CString
  | uint8 => ⟨ascii "uint8", by decide⟩
  | uint32 => ⟨ascii "uint32", by decide⟩
  | enum32 => ⟨ascii "enum32", by decide⟩
  | mac => ⟨ascii "mac", by decide⟩
  | string => ⟨ascii "string", by decide⟩

def types : List VariableType := [.uint8, .uint32, .enum32, .mac, .string]

def findTypeByName (name : CString) : Option VariableType := types.find? (·.typeName = name)

/-- Where a `const char *` for a default leads: to the device tree the state
was created from, to a tree that is being unpacked, or to memory that has been
freed since. -/
inductive TextPointer where
  | null
  | live (s : CString)
  | tree (s : CString)
  | freed
  deriving DecidableEq

structure MacAddr where
  bytes : List UInt8
  length_eq : bytes.length = 6
  deriving DecidableEq

def MacAddr.zero : MacAddr := ⟨zeros 6, rfl⟩

/-- The values of a variable: `struct state_uint32`, `state_enum32`,
`state_mac` or `state_string`. A string keeps its raw bytes apart from the
text that its parameter shows. -/
inductive VariableData where
  | uint8 (value valueDefault : UInt32)
  | uint32 (value valueDefault : UInt32)
  | enum32 (value valueDefault : UInt32) (names : List (List UInt8))
  | mac (value valueDefault : MacAddr)
  | string (value : Option CString) (valueDefault : TextPointer) (raw : List UInt8)
  deriving DecidableEq

namespace VariableData

def type : VariableData → VariableType
  | uint8 .. => .uint8
  | uint32 .. => .uint32
  | enum32 .. => .enum32
  | mac .. => .mac
  | string .. => .string

def size : VariableData → Nat
  | uint8 .. => 1
  | uint32 .. => 4
  | enum32 .. => 4
  | mac .. => 6
  | string _ _ raw => raw.length

/-- The bytes that `raw` points to, on a little-endian machine. -/
def raw : VariableData → List UInt8
  | uint8 value _ => le 1 value.toNat
  | uint32 value _ => le 4 value.toNat
  | enum32 value _ _ => le 4 value.toNat
  | mac value _ => value.bytes
  | string _ _ raw => raw

/-- Copy as many bytes as the variable has to where `raw` points. -/
def setRaw (bytes : List UInt8) : VariableData → VariableData
  | uint8 value d => uint8 (.ofNat (value.toNat / 256 * 256 + ofLe (bytes.take 1))) d
  | uint32 _ d => uint32 (.ofNat (ofLe (bytes.take 4))) d
  | enum32 _ d names => enum32 (.ofNat (ofLe (bytes.take 4))) d names
  | mac value d => mac (if h : bytes.length = 6 then ⟨bytes, h⟩ else value) d
  | string value d _ => string value d bytes

@[simp] theorem raw_length (d : VariableData) : d.raw.length = d.size := by
  cases d with
  | mac value _ => exact value.length_eq
  | _ => simp [raw, size]

theorem setRaw_raw (d : VariableData) {bytes : List UInt8} (h : bytes.length = d.size) :
    (d.setRaw bytes).raw = bytes := by
  cases d with
  | uint8 value d =>
    match bytes, h with
    | [b], _ =>
      apply List.singleton_inj.mpr
      apply UInt8.toNat_inj.mp
      simp [ofLe]
  | uint32 _ d | enum32 _ d names =>
    have hLt := ofLe_lt bytes
    have hBack := le_ofLe bytes
    simp only [size] at h
    rw [h] at hLt hBack
    simp [setRaw, raw, List.take_of_length_le h.le, Nat.mod_eq_of_lt (by simpa using hLt), hBack]
  | mac value d =>
    simp [size, setRaw, raw, h]
  | string value d _ => rfl

end VariableData

structure Variable where
  name : List UInt8
  start : UInt32
  data : VariableData
  deriving DecidableEq

namespace Variable

def size (sv : Variable) : Nat := sv.data.size

def raw (sv : Variable) : List UInt8 := sv.data.raw

end Variable

/-- `state_add_var`: a variable is put in front of the first one that does not
start before it. -/
def stateAddVar (vars : List Variable) (sv : Variable) : List Variable :=
  vars.orderedInsert (fun a b => a.start ≤ b.start) sv

def stateFindVar (vars : List Variable) (name : List UInt8) : Option Variable :=
  vars.find? (·.name = name)

def stateStringCopyToRaw (size : Nat) (src : CString) : Except Errno (List UInt8) :=
  if size < src.bytes.length then .error .eilseq
  else .ok (src.bytes ++ zeros (size - src.bytes.length))

def propDefault : List UInt8 := ascii "default"
def propValue : List UInt8 := ascii "value"
def propType : List UInt8 := ascii "type"
def propReg : List UInt8 := ascii "reg"
def propNames : List UInt8 := ascii "names"
def propMagic : List UInt8 := ascii "magic"

section Import
variable (props : List Property)

def stateUint32Import (valueDefault : UInt32) : UInt32 × UInt32 :=
  let valueDefault := (propertyReadU32 props propDefault).toOption.getD valueDefault
  ((propertyReadU32 props propValue).toOption.getD valueDefault, valueDefault)

def stateEnum32Import (valueDefault : UInt32) : Except Errno (UInt32 × UInt32) :=
  let value := findProperty props propValue
  let default := findProperty props propDefault
  if value.any (·.length ≠ 4) ∨ default.any (·.length ≠ 4) then .error .einval
  else
    let valueDefault := (default.map (cell · 0)).getD valueDefault
    .ok ((value.map (cell · 0)).getD valueDefault, valueDefault)

/-- `of_property_read_u8_array` of six bytes. -/
def propertyReadMac (name : List UInt8) : Option MacAddr :=
  match findProperty props name with
  | none => none
  | some value => if h : 6 ≤ value.length then some ⟨value.take 6, by simpa using h⟩ else none

def stateMacImport (valueDefault : MacAddr) : MacAddr × MacAddr :=
  let valueDefault := (propertyReadMac props propDefault).getD valueDefault
  ((propertyReadMac props propValue).getD valueDefault, valueDefault)

/-- `state_string_import`: the result, the new default and the new raw bytes.
`into` makes a pointer into the tree that is read. There is no outcome when a
freed default is looked at. -/
def stateStringImport (into : CString → TextPointer) (valueDefault : TextPointer)
    (raw : List UInt8) : Option (Except Errno Unit × TextPointer × List UInt8) :=
  let own := (propertyReadString props propDefault).toOption
  let pointer := (own.map into).getD valueDefault
  let text : Option (Option CString) := match own, valueDefault with
    | some s, _ => some (some s)
    | none, .null => some none
    | none, .live s => some (some s)
    | none, .tree s => some (some s)
    | none, .freed => none
  text.map fun text =>
    if text.any (fun s => raw.length < s.bytes.length) then (.error .eilseq, pointer, raw)
    else
      match (propertyReadString props propValue).toOption.or text with
      | none => (.ok (), pointer, raw)
      | some s =>
        match stateStringCopyToRaw raw.length s with
        | .ok raw => (.ok (), pointer, raw)
        | .error e => (.error e, pointer, raw)

/-- The `import` of a variable type, applied to a variable. The integer types
are laid out alike; for another combination the source would access memory
under a wrong layout, and there is no outcome. -/
def importData (vtype : VariableType) (into : CString → TextPointer) (d : VariableData) :
    Option (Except Errno Unit × VariableData) :=
  match vtype, d with
  | .uint8, .uint8 _ d | .uint32, .uint8 _ d =>
    let (v, d) := stateUint32Import props d
    some (.ok (), .uint8 v d)
  | .uint8, .uint32 _ d | .uint32, .uint32 _ d =>
    let (v, d) := stateUint32Import props d
    some (.ok (), .uint32 v d)
  | .uint8, .enum32 _ d names | .uint32, .enum32 _ d names =>
    let (v, d) := stateUint32Import props d
    some (.ok (), .enum32 v d names)
  | .enum32, .uint8 v d => some <| match stateEnum32Import props d with
      | .ok (v, d) => (.ok (), .uint8 v d)
      | .error e => (.error e, .uint8 v d)
  | .enum32, .uint32 v d => some <| match stateEnum32Import props d with
      | .ok (v, d) => (.ok (), .uint32 v d)
      | .error e => (.error e, .uint32 v d)
  | .enum32, .enum32 v d names => some <| match stateEnum32Import props d with
      | .ok (v, d) => (.ok (), .enum32 v d names)
      | .error e => (.error e, .enum32 v d names)
  | .mac, .mac _ d =>
    let (v, d) := stateMacImport props d
    some (.ok (), .mac v d)
  | .string, .string value d raw =>
    (stateStringImport props into d raw).map fun (ret, d, raw) => (ret, .string value d raw)
  | _, _ => none

end Import

section Export
variable (fixup : Bool) (props : List Property)

def stateUint32Export (value valueDefault : UInt32) : List Property :=
  let props := if valueDefault ≠ 0 then propertyWriteU32 props propDefault valueDefault else props
  if fixup then props else propertyWriteU32 props propValue value

def stateEnum32Export (value valueDefault : UInt32) (names : List (List UInt8)) : List Property :=
  let props := if valueDefault ≠ 0 then propertyWriteU32 props propDefault valueDefault else props
  let props := setProperty props propNames (names.flatMap (· ++ [0]))
  if fixup then props else propertyWriteU32 props propValue value

def stateMacExport (value valueDefault : MacAddr) : List Property :=
  let props := if valueDefault ≠ .zero then setProperty props propDefault valueDefault.bytes
    else props
  if fixup then props else setProperty props propValue value.bytes

/-- `state_string_export`. There is no outcome when a freed default is looked
at. -/
def stateStringExport (value : Option CString) (valueDefault : TextPointer) :
    Option (List Property) :=
  let withDefault : Option (List Property) := match valueDefault with
    | .null => some props
    | .live s | .tree s => some (propertyWriteString props propDefault s)
    | .freed => none
  withDefault.map fun props =>
    if fixup then props
    else match value with
      | some s => propertyWriteString props propValue s
      | none => props

/-- The `export` of a variable type, applied to a variable of that type. -/
def exportData : VariableData → Option (List Property)
  | .uint8 v d => some (stateUint32Export fixup props v d)
  | .uint32 v d => some (stateUint32Export fixup props v d)
  | .enum32 v d names => some (stateEnum32Export fixup props v d names)
  | .mac v d => some (stateMacExport fixup props v d)
  | .string v d _ => stateStringExport fixup props v d

end Export

/-- The `create` functions. `taken` tells that the state already has a
parameter of the name. -/
def createData (vtype : VariableType) (props : List Property) (taken : Bool) :
    Except Errno VariableData :=
  let addParam (d : VariableData) : Except Errno VariableData :=
    if taken then .error .eexist else .ok d
  match vtype with
  | .uint8 => addParam (.uint8 0 0)
  | .uint32 => addParam (.uint32 0 0)
  | .enum32 =>
    match propertyReadStrings props propNames with
    | .error _ => .error .einval
    | .ok names => addParam (.enum32 0 0 names)
  | .mac => addParam (.mac .zero .zero)
  | .string =>
    match propertyReadU32Array props propReg 2 with
    | .error e => .error e
    | .ok startSize =>
      let size := (startSize.getD 1 0).toNat
      if 4096 < size then .error .eilseq else addParam (.string none .null (zeros size))

end Barebox.State
