import Barebox.Data.CString
import Barebox.Errno

/-! Device tree nodes and the accessors of their properties. Every property
has a value, which may be empty. -/
namespace Barebox.Of
open Bytes

structure Property where
  name : List UInt8
  value : List UInt8
  deriving DecidableEq, Repr

inductive Node where
  | mk (name : List UInt8) (properties : List Property) (children : List Node)

namespace Node

def name : Node → List UInt8
  | mk name _ _ => name

def properties : Node → List Property
  | mk _ properties _ => properties

def children : Node → List Node
  | mk _ _ children => children

end Node

section Properties
variable (props : List Property) (name : List UInt8)

def findProperty : Option (List UInt8) := (props.find? (·.name = name)).map Property.value

/-- `of_find_property_value_of_size` without an upper bound. -/
def findPropertyValueOfSize (min : Nat) : Except Errno (List UInt8) :=
  match findProperty props name with
  | none => .error .einval
  | some value => if value.length < min then .error .eoverflow else .ok value

def cell (value : List UInt8) (i : Nat) : UInt32 := .ofNat (ofBe (slice (4 * i) 4 value))

def propertyReadU32Array (count : Nat) : Except Errno (List UInt32) := do
  let value ← findPropertyValueOfSize props name (4 * count)
  return (List.range count).map (cell value)

def propertyReadU32 : Except Errno UInt32 := do
  let value ← findPropertyValueOfSize props name 4
  return cell value 0

def propertyReadString : Except Errno CString :=
  match findProperty props name with
  | none => .error .einval
  | some value =>
    match CString.parse value with
    | none => .error .eilseq
    | some s => .ok s

/-- `of_property_count_strings` and `of_property_read_string_index` for each of
the strings. -/
def propertyReadStrings : Except Errno (List (List UInt8)) :=
  match findProperty props name with
  | none => .error .einval
  | some value =>
    match splitStrings [] value with
    | none => .error .eilseq
    | some [] => .error .enodata
    | some names => .ok names

/-- `of_set_property` with `create`: an existing property moves to the end. -/
def setProperty (name value : List UInt8) : List Property :=
  props.eraseP (·.name = name) ++ [⟨name, value⟩]

def propertyWriteU32Array (values : List UInt32) : List Property :=
  setProperty props name (values.flatMap fun v => be 4 v.toNat)

def propertyWriteU32 (value : UInt32) : List Property := setProperty props name (be 4 value.toNat)

def propertyWriteString (value : CString) : List Property := setProperty props name value.terminated

end Properties

variable {name : List UInt8}

variable {props : List Property}

end Barebox.Of
