import Barebox.Data.RadixTable
import Barebox.Errno

/-! The page tables of ARM64 as `mmu_64.c` writes them. Memory is known by the address of a table
and the number of an entry; what `alloc_pte` will return is a list. Caches, barriers and the order
of the writes are left out. -/
namespace Barebox.Arm64

inductive MapType where
  | uncached | cached | fault | code | cachedRo | writecombine | cachedRwx | unknown
  deriving DecidableEq, Repr

def pageSize : Nat := 4096

def xlatAddrMask : Nat := 2 ^ 48 - 4096

def pteTypeMask : Nat := 3

def pteTypeTable : Nat := 3

def pteTypePage : Nat := 3

def pteTypeBlock : Nat := 1

def pteBlockMemtype (x : Nat) : Nat := x <<< 2

def pteBlockOuterShare : Nat := 2 <<< 8

def pteBlockAf : Nat := 1 <<< 10

def pteBlockPxn : Nat := 1 <<< 53

def pteBlockUxn : Nat := 1 <<< 54

def pteBlockRo : Nat := 1 <<< 7

def cachedMem : Nat := pteBlockMemtype 4 ||| pteBlockOuterShare ||| pteBlockAf

def uncachedMem : Nat := pteBlockMemtype 0 ||| pteBlockOuterShare ||| pteBlockAf

def memAllocWritecombine : Nat := pteBlockMemtype 3 ||| pteBlockOuterShare ||| pteBlockAf

def attrsXn (el : Nat) : Nat :=
  if el = 3 ∨ el = 2 then pteBlockUxn else pteBlockUxn ||| pteBlockPxn

/-- `get_pte_attrs`: code and `cachedRwx` are executable. -/
def getPteAttrs (el : Nat) : MapType → Option Nat
  | .cached => some (attrsXn el ||| cachedMem)
  | .uncached => some (attrsXn el ||| uncachedMem)
  | .fault => some 0
  | .writecombine => some (attrsXn el ||| memAllocWritecombine)
  | .code => some (cachedMem ||| pteBlockRo)
  | .cachedRo => some (attrsXn el ||| cachedMem ||| pteBlockRo)
  | .cachedRwx => some cachedMem
  | .unknown => none

variable (level : Nat) (m : Mmu)

def level2shift : Nat := 12 + 9 * (3 - level)

def level2mask : Nat := 511 <<< level2shift level

/-- `granule_size`, kept in an `unsigned`. -/
def granularity : Nat := 2 ^ level2shift level % 2 ^ 32

/-- The tables in memory, and the addresses that `alloc_pte` will return. -/
structure Mmu where
  mem : RadixTable.Memory Nat
  supply : List Nat

def Mmu.setPte (table idx val : Nat) : Mmu :=
  { m with mem := fun t i => if t = table ∧ i = idx then val else m.mem t i }

/-- `set_pte_range`, for the entries of a table from `idx` on. -/
def Mmu.setPteRange (m : Mmu) (level table : Nat) : (idx phys count attrs : Nat) → Mmu
  | _, _, 0, _ => m
  | idx, phys, count + 1, attrs =>
    Mmu.setPteRange (m.setPte table idx (phys ||| attrs)) level table
      (idx + 1) ((phys + granularity level) % 2 ^ 64) count
      attrs

def pteType (pte : Nat) : Nat := pte &&& pteTypeMask

/-- `split_block`. There is no result when no table can be allocated. -/
def Mmu.splitBlock (table idx level : Nat) : Option Mmu :=
  let oldPte := m.mem table idx
  if pteType oldPte = pteTypeTable then some m
  else
    match m.supply with
    | [] => none
    | newTable :: supply =>
      -- level 3 block entries have the table type
      let flags := if level + 1 = 3 then pteTypeTable else 0
      let m := Mmu.setPteRange { m with supply := supply } (level + 1) newTable 0 oldPte 512 flags
      some (m.setPteRange level table idx newTable 1 pteTypeTable)

/-- `get_level_table`: an entry that is no table pointer has none. -/
def getLevelTable (pte : Nat) : Option Nat :=
  if pteType pte = pteTypeTable then some (pte &&& xlatAddrMask) else none

def isAligned (x a : Nat) : Bool := x % a == 0

/-- The loop over the levels, of which `left` are left: it ends with a block, whose size is
returned. Without one the outer loop would not end. -/
def remapLevels (attr addr phys size : Nat) : (left level table : Nat) → Mmu → Option (Mmu × Nat)
  | 0, _, _, _ => none
  | left + 1, level, table, m =>
    let blockShift := level2shift level
    let idx := (addr &&& level2mask level) >>> blockShift
    let blockSize := 2 ^ blockShift
    if blockSize ≤ size ∧ isAligned addr blockSize ∧ isAligned phys blockSize then
      let type := if level = 3 then pteTypePage else pteTypeBlock
      some (m.setPteRange level table idx phys 1 (attr ||| type), blockSize)
    else
      match m.splitBlock table idx level with
      | none => none
      | some m =>
        match getLevelTable (m.mem table idx) with
        | none => none
        | some table => remapLevels attr addr phys size left (level + 1) table m

/-- The loop over the range. A turn maps at least a page, so that as many turns as there are pages
are enough. -/
def remapLoop (ttb attr : Nat) : (turns addr phys size : Nat) → Mmu → Option Mmu
  | 0, _, _, size, m => if size = 0 then some m else none
  | turns + 1, addr, phys, size, m =>
    if size = 0 then some m
    else
      match remapLevels attr addr phys size 4 0 ttb m with
      | none => none
      | some (m, blockSize) =>
          remapLoop ttb attr turns (addr + blockSize) (phys + blockSize) (size - blockSize) m

/-- Why a remap does not come back with new tables: the error code, or a `BUG` or a panic. -/
inductive Failure where
  | errno (e : Errno)
  | bug
  deriving DecidableEq, Repr

def pageAlign (size : Nat) : Nat := (size + 4095) / 4096 * 4096

/-- `__arch_remap_range`: addresses that are not aligned are a bug of the caller. -/
def archRemapRange (el ttb : Nat) (m : Mmu) (virt phys size : Nat) (mapType : MapType) :
    Except Failure Mmu :=
  match getPteAttrs el mapType with
  | none => .error (.errno .einval)
  | some attr =>
    if isAligned virt pageSize ∧ isAligned phys pageSize then
      match remapLoop ttb (attr - attr % 4) (pageAlign size / pageSize) virt phys
        (pageAlign size) m with
      | none => .error .bug
      | some m => .ok m
    else .error .bug

def l0XlatSize : Nat := 2 ^ 39

/-- `early_init_range`, with the number of the first entry that is left and the size that an entry
stands for. -/
def earlyInitRange (el ttb xlatSize : Nat) : (count idx : Nat) → Mmu → Except Failure Mmu
  | 0, _, m => .ok m
  | count + 1, idx, m =>
    match archRemapRange el ttb m (idx * xlatSize) (idx * xlatSize) xlatSize .uncached with
    | .error e => .error e
    | .ok m =>
      match m.splitBlock ttb idx 0 with
      | none => .error .bug
      | some m => earlyInitRange el ttb xlatSize count (idx + 1) m

def Mmu.clear (ttb : Nat) : Mmu :=
  { m with mem := fun t i => if t = ttb then 0 else m.mem t i }

structure Range where
  start : Nat
  size : Nat
  mapType : MapType

def earlyRemapRanges (el ttb : Nat) : List Range → Mmu → Except Failure Mmu
  | [], m => .ok m
  | r :: rs, m =>
    match archRemapRange el ttb m r.start r.start r.size r.mapType with
    | .error e => .error e
    | .ok m => earlyRemapRanges el ttb rs m

/-- `mmu_early_enable` for memory, the place of OP-TEE and the text of barebox. -/
def mmuEarlyEnable (el ttb : Nat) (m : Mmu)
    (membase memsize opteeMembase opteeSize stext textSize : Nat) :
    Except Failure Mmu :=
  match earlyInitRange el ttb l0XlatSize 2 0 (m.clear ttb) with
  | .error e => .error e
  | .ok m =>
    earlyRemapRanges el ttb
      [⟨membase, memsize, .cachedRwx⟩, ⟨opteeMembase, opteeSize, .fault⟩,
        ⟨stext / pageSize * pageSize, pageAlign textSize, .cachedRwx⟩] m

end Barebox.Arm64
