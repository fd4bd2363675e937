import Barebox.State.Variable

/-! Conversion between a state and its device tree node: creation of the
variables, import of their values, and export to a new node. -/
namespace Barebox.State
open Bytes Of

/-- A node below the state node as the conversion meets it: its dotted name,
its properties, and whether it has no children. -/
structure Entry where
  name : List UInt8
  properties : List Property
  leaf : Bool

/-- The name of a variable: without the address part, behind the name of its
parent. -/
def entryName (parent name : List UInt8) : List UInt8 :=
  let short := name.takeWhile (· ≠ 64)
  if parent = [] then short else parent ++ 46 :: short

mutual

/-- The nodes in the order of `state_convert_node_variable`, which turns to the
children of a node before the node itself. -/
def nodeEntries (parent : List UInt8) : Node → List Entry
  | .mk name properties children =>
    nodesEntries (entryName parent name) children ++
      [⟨entryName parent name, properties, children.isEmpty⟩]

def nodesEntries (parent : List UInt8) : List Node → List Entry
  | [] => []
  | node :: rest => nodeEntries parent node ++ nodesEntries parent rest

end

/-- `struct state`, without its backend. `node` is what `of_path` leads to. -/
structure StateObject where
  node : Node
  magic : UInt32
  vars : List Variable
  dirty : Bool

def stateParams : List (List UInt8) :=
  [ascii "dirty", ascii "save_on_shutdown", ascii "init_from_defaults"]

/-- The type that the conversion finds in an entry: none for a parent without
a type, which is passed over. -/
def entryType (e : Entry) : Except Errno (Option VariableType) :=
  match propertyReadString e.properties propType with
  | .error .einval => if e.leaf then .error .einval else .ok none
  | .error err => .error err
  | .ok name =>
    match findTypeByName name with
    | none => .error .enoent
    | some vtype => .ok (some vtype)

/-- `state_convert_node_variable` for one entry, with
`STATE_CONVERT_FROM_NODE_CREATE`. -/
def createVariable (vars : List Variable) (e : Entry) : Option (Except Errno (List Variable)) :=
  match entryType e with
  | .error err => some (.error err)
  | .ok none => some (.ok vars)
  | .ok (some vtype) =>
    let taken := decide (e.name ∈ stateParams) || (stateFindVar vars e.name).isSome
    match createData vtype e.properties taken, propertyReadU32Array e.properties propReg 2 with
    | .error err, _ => some (.error err)
    | .ok _, .error err => some (.error err)
    | .ok data, .ok startSize =>
      if (startSize.getD 1 0).toNat ≠ data.size then some (.error .eoverflow)
      else
        match importData e.properties vtype .live data with
        | none => none
        | some (.error err, _) => some (.error err)
        | some (.ok (), data) =>
          some (.ok (stateAddVar vars ⟨e.name, startSize.getD 0 0, data⟩))

def createVariables (vars : List Variable) : List Entry → Option (Except Errno (List Variable))
  | [] => some (.ok vars)
  | e :: rest =>
    match createVariable vars e with
    | some (.ok vars) => createVariables vars rest
    | stop => stop

/-- The check for overlapping variables at the end of `state_from_node`, in the
arithmetic of `unsigned int`. -/
def conflictFree : List Variable → Bool
  | last :: sv :: rest =>
    decide (last.start + .ofNat last.size - 1 < sv.start) && conflictFree (sv :: rest)
  | _ => true

/-- `state_from_node` with `create`, on a new state. -/
def stateCreate (node : Node) : Option (Except Errno StateObject) :=
  match propertyReadU32 node.properties propMagic with
  | .error err => some (.error err)
  | .ok magic =>
    match createVariables [] (nodesEntries [] node.children) with
    | none => none
    | some (.error err) => some (.error err)
    | some (.ok vars) =>
      some (if conflictFree vars then .ok ⟨node, magic, vars, true⟩ else .error .einval)

def setData (name : List UInt8) (data : VariableData) : List Variable → List Variable
  | [] => []
  | sv :: rest => if sv.name = name then { sv with data } :: rest else sv :: setData name data rest

/-- `state_convert_node_variable` for one entry, with `STATE_CONVERT_FROM_NODE`.
An entry without a variable is ignored. -/
def importEntry (vars : List Variable) (e : Entry) : Option (Except Errno Unit × List Variable) :=
  match entryType e with
  | .error err => some (.error err, vars)
  | .ok none => some (.ok (), vars)
  | .ok (some vtype) =>
    match stateFindVar vars e.name with
    | none => some (.ok (), vars)
    | some sv => (importData e.properties vtype .tree sv.data).map fun (ret, data) =>
      (ret, setData e.name data vars)

def importEntries (vars : List Variable) : List Entry → Option (Except Errno Unit × List Variable)
  | [] => some (.ok (), vars)
  | e :: rest =>
    match importEntry vars e with
    | some (.ok (), vars) => importEntries vars rest
    | stop => stop

/-- `state_from_node` without `create`; `none` is the null pointer. -/
def stateFromNode (st : StateObject) (node : Option Node) :
    Option (Except Errno Unit × StateObject) :=
  match node with
  | none => some (.error .einval, st)
  | some node =>
    match propertyReadU32 node.properties propMagic with
    | .error err => some (.error err, st)
    | .ok magic =>
      if st.magic ≠ 0 ∧ st.magic ≠ magic then some (.error .einval, st)
      else
        (importEntries st.vars (nodesEntries [] node.children)).map fun (ret, vars) =>
          (ret, { st with vars })

/-- The properties that `state_convert_node_variable` gives to a new node, with
`STATE_CONVERT_TO_NODE` or `STATE_CONVERT_FIXUP`. -/
def exportEntry (fixup : Bool) (vars : List Variable) (e : Entry) :
    Option (Except Errno (List Property)) :=
  match entryType e with
  | .error err => some (.error err)
  | .ok none =>
    if fixup then
      some (.ok
        (propertyWriteU32 (propertyWriteU32 [] (ascii "#address-cells") 1) (ascii "#size-cells") 1))
    else some (.ok [])
  | .ok (some vtype) =>
    match stateFindVar vars e.name with
    | none => some (.ok [])
    | some sv =>
      if vtype ≠ sv.data.type then none
      else
        let props := propertyWriteString [] propType vtype.typeName
        let props := propertyWriteU32Array props propReg [sv.start, .ofNat sv.size]
        (exportData fixup props sv.data).map .ok

mutual

/-- `state_convert_node_variable` with `STATE_CONVERT_TO_NODE` or
`STATE_CONVERT_FIXUP`: the new node. -/
def exportNode (fixup : Bool) (vars : List Variable) (parent : List UInt8) :
    Node → Option (Except Errno Node)
  | .mk name properties children =>
    let full := entryName parent name
    match exportNodes fixup vars full children with
    | some (.ok new) =>
      match exportEntry fixup vars ⟨full, properties, children.isEmpty⟩ with
      | some (.ok props) => some (.ok (.mk name props new))
      | some (.error err) => some (.error err)
      | none => none
    | some (.error err) => some (.error err)
    | none => none

def exportNodes (fixup : Bool) (vars : List Variable) (parent : List UInt8) :
    List Node → Option (Except Errno (List Node))
  | [] => some (.ok [])
  | node :: rest =>
    match exportNode fixup vars parent node with
    | some (.ok new) =>
      match exportNodes fixup vars parent rest with
      | some (.ok news) => some (.ok (new :: news))
      | some (.error err) => some (.error err)
      | none => none
    | some (.error err) => some (.error err)
    | none => none

end

/-- `state_to_node` without a parent. -/
def stateToNode (st : StateObject) : Option (Except Errno Node) :=
  match exportNodes false st.vars [] st.node.children with
  | some (.ok new) => some (.ok (.mk [] (propertyWriteU32 [] propMagic st.magic) new))
  | some (.error err) => some (.error err)
  | none => none

end Barebox.State
