import Barebox.Data.CString
import Barebox.Errno
import Barebox.Lib.Printf

/-! The environment as bootchooser uses it. Names and values are texts, the
bytes in front of the terminator. An `unsigned long` has 64 bits. -/
namespace Barebox.Bootchooser
open Bytes Lib

/-- What bootchooser calls of the environment and of the state framework. -/
structure EnvOps (ε : Type) where
  getenv : ε → List UInt8 → Option (List UInt8)
  setenv : ε → List UInt8 → List UInt8 → Except Errno Unit × ε
  nvvarAdd : ε → List UInt8 → List UInt8 → Except Errno Unit × ε
  stateByName : ε → List UInt8 → Bool
  stateSave : ε → Except Errno Unit × ε
  nvvarSave : ε → Except Errno Unit × ε

/-- `parse_assignment`: the name in front of the first equals sign and the value
behind it. -/
def parseAssignment (str : List UInt8) : Option (List UInt8 × List UInt8) :=
  match str.dropWhile (· ≠ 61) with
  | [] => none
  | _ :: value => some (str.takeWhile (· ≠ 61), value)

theorem parseAssignment_append {name : List UInt8} (h : 61 ∉ name) (value : List UInt8) :
    parseAssignment (name ++ 61 :: value) = some (name, value) := by
  have hName : ∀ c ∈ name, decide (c ≠ 61) = true := fun c hc => by
    simpa using fun hEq : c = 61 => h (hEq ▸ hc)
  rw [parseAssignment, List.dropWhile_append_of_pos hName, List.takeWhile_append_of_pos hName]
  simp

def dotted (path name : List UInt8) : List UInt8 := path ++ 46 :: name

/-- `simple_strtoul` into an `uint32_t`. -/
def strtoU32 (val : List UInt8) : UInt32 := .ofNat (simpleStrtoull val 0).1

def printedValue (v : UInt32) : UInt32 := if v.toNat < 2 ^ 31 then v else 0

variable (v : UInt32)

theorem strtoU32_formatSigned : strtoU32 (formatSigned v) = printedValue v := by
  rw [strtoU32, formatSigned, printedValue]
  split_ifs with h
  · simp [simpleStrtoull_decimal (v.toNat_lt.trans (by decide))]
  · rfl

theorem strtoU32_formatUnsigned : strtoU32 (formatUnsigned v) = v := by
  simp [strtoU32, formatUnsigned, simpleStrtoull_decimal (v.toNat_lt.trans (by decide))]

theorem printedValue_le : (printedValue v).toNat ≤ v.toNat := by
  rw [printedValue]
  split_ifs
  · exact le_refl _
  · simp

theorem printedValue_eq_iff : printedValue v = v ↔ v.toNat < 2 ^ 31 := by
  rw [printedValue]
  split_ifs with h
  · exact iff_of_true rfl h
  · refine iff_of_false (fun hZero => h ?_) h
    rw [← hZero]
    decide

section
variable {ε : Type} (ops : EnvOps ε)

def getenvU32 (env : ε) (path name : List UInt8) : Option UInt32 :=
  (ops.getenv env (dotted path name)).map strtoU32

/-- `bc_setenv`. A value that the variable has already is not set again. -/
def bcSetenv (state : Bool) (env : ε) (str : List UInt8) : Except Errno Unit × ε :=
  match parseAssignment str with
  | none => (.error .einval, env)
  | some (name, val) =>
    if ops.getenv env name = some val then (.ok (), env)
    else if state then ops.setenv env name val
    else ops.nvvarAdd env name val

end
end Barebox.Bootchooser
