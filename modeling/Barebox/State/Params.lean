import Barebox.Lib.Printf
import Barebox.State.Layout

/-! The parameters of the state variables. An `unsigned long` has 64 bits. -/
namespace Barebox.State
open Bytes Lib

/-- The loop of `string_to_ethaddr`. -/
def ethaddrFields : Nat → List UInt8 → List UInt8
  | 0, _ => []
  | n + 1, s =>
    let (value, rest) := simpleStrtoull s 16
    .ofNat value :: ethaddrFields n (rest.drop 1)

theorem ethaddrFields_length (n : Nat) (s : List UInt8) : (ethaddrFields n s).length = n := by
  induction n generalizing s with
  | zero => rfl
  | succ n ih => exact congrArg (· + 1) (ih _)

def stringToEthaddr (s : List UInt8) : Except Errno MacAddr :=
  if s.length ≠ 17 then .error .einval
  else if [2, 5, 8, 11, 14].any (fun i => charAt s i ≠ 58) then .error .einval
  else .ok ⟨ethaddrFields 6 s, ethaddrFields_length 6 s⟩

/-- The text that `param_string_set` keeps. -/
def trimmed (s : CString) : CString where
  bytes := trim s.bytes
  nonzero h := by
    have hMem : 0 ∈ (s.bytes.dropWhile isspace).reverse :=
      List.dropWhile_subset _ (List.mem_reverse.mp h)
    exact s.nonzero (List.dropWhile_subset _ (List.mem_reverse.mp hMem))

/-- `param_int_set`, `param_enum_set`, `param_mac_set` or `param_string_set`
with the set function of the variable. After an error the old value is put
back. -/
def paramSet (val : Option CString) : VariableData → Except Errno VariableData
  | .uint8 _ d =>
    match val with
    | none => .error .einval
    | some s =>
      let value : UInt32 := .ofNat (simpleStrtoull s.bytes 0).1
      if 255 < value then .error .erange else .ok (.uint8 value d)
  | .uint32 _ d =>
    match val with
    | none => .error .einval
    | some s => .ok (.uint32 (.ofNat (simpleStrtoull s.bytes 0).1) d)
  | .enum32 _ d names =>
    match val with
    | none => .error .einval
    | some s =>
      match names.findIdx? (· = s.bytes) with
      | some i => .ok (.enum32 (.ofNat i) d names)
      | none =>
        let (idx, rest) := simpleStrtoull s.bytes 0
        if rest ≠ [] ∨ rest = s.bytes ∨ names.length ≤ idx then .error .einval
        else .ok (.enum32 (.ofNat idx) d names)
  | .mac _ d =>
    match val with
    | none => .error .einval
    | some s => (stringToEthaddr s.bytes).map (.mac · d)
  | .string _ d raw =>
    let text := trimmed (val.getD ⟨[], by simp⟩)
    (stateStringCopyToRaw raw.length text).map (.string (some text) d ·)

/-- `bobject_set_param` on a name that is no variable. Of the parameters that
every state has, only one can be set, and no variable depends on it. -/
def ownParamSet (name : List UInt8) : Option CString → Except Errno Unit
  | none => .error .einval
  | some _ =>
    if name = ascii "save_on_shutdown" then .ok ()
    else if name ∈ stateParams then .error .erofs
    else .error .einval

/-- `bobject_set_param`. A value that is accepted makes the state dirty. -/
def stateSetParam (st : StateObject) (name : List UInt8) (val : Option CString) :
    Except Errno Unit × StateObject :=
  match stateFindVar st.vars name with
  | none => (ownParamSet name val, st)
  | some sv =>
    match paramSet val sv.data with
    | .error e => (.error e, st)
    | .ok data => (.ok (), { st with vars := setData name data st.vars, dirty := true })

/-- `param_int_get`, `param_enum_get`, `param_mac_get` or `param_string_get`: the
text and the variable afterwards. A string takes its text from its raw bytes. -/
def paramGet : VariableData → List UInt8 × VariableData
  | .uint8 v d => (formatUnsigned v, .uint8 v d)
  | .uint32 v d => (formatUnsigned v, .uint32 v d)
  | .enum32 v d names =>
    let text :=
      if v.toNat = 2 ^ 32 - 1000000 then ascii "unknown"
      else (names[v.toNat]?).getD (ascii "invalid:" ++ formatSigned v)
    (text, .enum32 v d names)
  | .mac v d => (formatMac v.bytes, .mac v d)
  | .string _ d raw => ((CString.ofBuffer raw).bytes, .string (some (.ofBuffer raw)) d raw)

/-- `bobject_get_param` on a variable. -/
def stateGetParam (st : StateObject) (name : List UInt8) : Option (List UInt8) × StateObject :=
  match stateFindVar st.vars name with
  | none => (none, st)
  | some sv =>
    let (text, data) := paramGet sv.data
    (some text, { st with vars := setData name data st.vars })

end Barebox.State
