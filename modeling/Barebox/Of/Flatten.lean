import Barebox.Of.FdtBounds
import Mathlib.Data.Nat.Log

/-! `drivers/of/fdt.c`, writing: a tree of nodes becomes a flattened device tree. The structure
block and the strings grow in two buffers; every write is made through `storeAt` or checked
like it, and faults behind the end of its buffer. Memory is given out as long as the size asked
for is one that the code itself accepts. -/
namespace Barebox.Of
open Bytes

/-- `struct fdt`. Of the strings, those that are in use; the buffer has `strSize` bytes. -/
structure Fdt where
  dt : List UInt8
  dtNextofs : Nat
  strings : List UInt8
  strSize : Nat

def storeAt (buf : List UInt8) (off : Nat) (data : List UInt8) : Except Failure (List UInt8) :=
  if off + data.length ≤ buf.length then .ok (overwrite off data buf) else .error .fault

def align4 (n : Nat) : Nat := (n + 3) / 4 * 4

def dtNextOfs (curofs len : Nat) : Nat := align4 ((curofs + len) % 4294967296)

/-- `-ENOSPC` as an unsigned number. -/
def enospc : Nat := 4294967268

/-- `lstrcpy`: the bytes it writes, and the length, unless that is `-ENOSPC`. -/
def lstrcpy (src : List UInt8) : List UInt8 × Nat :=
  if src.length ≤ 1022 then (src ++ [0], src.length) else ((src ++ [0]).take 1024, enospc)

def mallocMaxSize : Nat := 1073741824

def roundupPowOfTwo (n : Nat) : Nat := 2 ^ Nat.clog 2 n

/-- The size `fdt_ensure_space` gives the buffer of the structure block. The room behind the
offset is an unsigned number. -/
def growDt (size nextofs dtsize : Nat) : Nat :=
  if (size + 4294967296 - nextofs) % 4294967296 < 1024 + dtsize then
    if size * 2 ≤ dtsize then roundupPowOfTwo (size + dtsize) else size * 2
  else size

def growStrings (size nextofs : Nat) : Nat :=
  if size < nextofs + 1024 then size * 2 % 4294967296 else size

/-- `fdt_ensure_space`: the structure block grows as needed, the strings at most twofold. -/
def fdtEnsureSpace (fdt : Fdt) (dtsize : Nat) : Except Failure Fdt :=
  let strSize := growStrings fdt.strSize fdt.strings.length
  let size := growDt fdt.dt.length fdt.dtNextofs dtsize
  if strSize = 0 ∨ mallocMaxSize < size then .error (.errno .enomem)
  else .ok { fdt with dt := fdt.dt ++ zeros (size - fdt.dt.length), strSize := strSize }

/-- `dt_add_string`. A buffer that could not be enlarged has been freed and is used all the
same; a name that is too long gives an error for an offset. -/
def dtAddString (fdt : Fdt) (str : List UInt8) : Except Failure (Fdt × Nat) :=
  match fdtEnsureSpace fdt 0 with
  | .error _ => .error .fault
  | .ok fdt =>
    let (bytes, len) := lstrcpy str
    if fdt.strSize < fdt.strings.length + bytes.length then .error .fault
    else if len = enospc then .ok (fdt, enospc)
    else .ok ({ fdt with strings := fdt.strings ++ bytes }, fdt.strings.length)

/-- The start of a node in `__of_flatten_dtb`. The length is not looked at. -/
def flattenBegin (fdt : Fdt) (name : List UInt8) : Except Failure Fdt :=
  (fdtEnsureSpace fdt 0).bind fun fdt =>
    let (bytes, len) := lstrcpy name
    (storeAt fdt.dt fdt.dtNextofs (be 4 fdtBeginNode ++ bytes)).map fun dt =>
      { fdt with dt := dt, dtNextofs := dtNextOfs fdt.dtNextofs (4 + len + 1) }

/-- A property in `__of_flatten_dtb`. The pointer to it is taken before its name is added; if
that moves the buffer, the rest is written to where the buffer was. -/
def flattenProp (fdt : Fdt) (p : Property) : Except Failure Fdt :=
  (fdtEnsureSpace fdt p.value.length).bind fun fdt =>
  (storeAt fdt.dt fdt.dtNextofs (be 4 fdtProp ++ be 4 p.value.length)).bind fun dt =>
  (dtAddString { fdt with dt := dt } p.name).bind fun (fdt', nameoff) =>
    if fdt'.dt.length ≠ fdt.dt.length then .error .fault
    else
      (storeAt fdt'.dt (fdt.dtNextofs + 8) (be 4 nameoff ++ p.value)).map fun dt =>
        { fdt' with dt := dt, dtNextofs := dtNextOfs fdt.dtNextofs (12 + p.value.length) }

/-- The end of a node in `__of_flatten_dtb`. -/
def flattenEnd (fdt : Fdt) : Except Failure Fdt :=
  (storeAt fdt.dt fdt.dtNextofs (be 4 fdtEndNode)).bind fun dt =>
    fdtEnsureSpace { fdt with dt := dt, dtNextofs := dtNextOfs fdt.dtNextofs 4 } 0

def flattenProps (fdt : Fdt) : List Property → Except Failure Fdt
  | [] => .ok fdt
  | p :: rest =>
    if isReservedName p.name then flattenProps fdt rest
    else (flattenProp fdt p).bind fun fdt => flattenProps fdt rest

mutual

/-- `__of_flatten_dtb`. -/
def flattenNode (fdt : Fdt) : Node → Except Failure Fdt
  | .mk name properties children =>
    (flattenBegin fdt name).bind fun fdt =>
    (flattenProps fdt properties).bind fun fdt =>
    (flattenChildren fdt children).bind flattenEnd

/-- The loop of `__of_flatten_dtb` over the children, without those of reserved names. -/
def flattenChildren (fdt : Fdt) : List Node → Except Failure Fdt
  | [] => .ok fdt
  | child :: rest =>
    if isReservedName child.name then flattenChildren fdt rest
    else (flattenNode fdt child).bind fun fdt => flattenChildren fdt rest

end

mutual

/-- The nodes below a node in the order of `of_tree_for_each_node_from`: a new node is put
right behind its parent. -/
def nodesBelow : Node → List Node
  | .mk _ _ children => nodesBelowAll children

def nodesBelowAll : List Node → List Node
  | [] => []
  | child :: rest => nodesBelowAll rest ++ (child :: nodesBelow child)

end

def findNodeByNameAddress (root : Node) (name : List UInt8) : Option Node :=
  (nodesBelow root).find? fun node => node.name = name

def reserveEntries (root : Node) : List UInt8 :=
  match findNodeByNameAddress root memreserveName with
  | none => []
  | some memreserve => (findProperty memreserve.properties regName).getD []

def fdtHeaderBytes (f : FdtHeader) : List UInt8 :=
  be 4 fdtMagic ++ (be 4 f.totalsize ++ (be 4 f.offDtStruct ++ (be 4 f.offDtStrings ++ (be 4 40 ++
    (be 4 17 ++ (be 4 16 ++ (be 4 0 ++ (be 4 f.sizeDtStrings ++ be 4 f.sizeDtStruct))))))))

def structOfs : Nat := 40 + 16 * ofMaxReserveMap

/-- What `of_flatten_dtb` starts with. -/
def Fdt.start : Fdt := ⟨zeros 65536, structOfs, [], 65536⟩

/-- `of_flatten_dtb`, with the bytes up to the total size as its result. -/
def ofFlattenDtb (root : Node) : Except Failure (List UInt8) :=
  (flattenNode .start root).bind fun fdt =>
  (storeAt fdt.dt 40 (reserveEntries root)).bind fun dt =>
  (storeAt dt fdt.dtNextofs (be 4 fdtEnd)).bind fun dt =>
    let nextofs := dtNextOfs fdt.dtNextofs 4
    let total := nextofs + fdt.strings.length
    if dt.length < total ∧ mallocMaxSize < total then .error (.errno .enomem)
    else
      (storeAt (dt ++ zeros (total - dt.length)) nextofs fdt.strings).bind fun dt =>
      (storeAt dt 0 (fdtHeaderBytes ⟨total, structOfs,
        (nextofs + 4294967296 - structOfs) % 4294967296, nextofs,
        fdt.strings.length⟩)).map fun dt => dt.take total

end Barebox.Of
