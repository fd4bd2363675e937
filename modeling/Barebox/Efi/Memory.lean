import Barebox.Data.CString
import Barebox.Lib.Printf
import Barebox.Resource.Iter

/-! `efi/loader/memory.c`: allocation of pages and the memory map, both made from the
resources of the memory banks. Addresses and sizes have 64 bits. -/
namespace Barebox.Efi
open Bytes Barebox.Resource Barebox.Lib

/-- The values of `efi_status_t` that the functions return besides success. -/
inductive Status where
  | invalidParameter
  | outOfResources
  | bufferTooSmall
  deriving DecidableEq

/-- `enum efi_memory_type`. A caller may pass other numbers. -/
inductive MemoryType where
  | reserved | loaderCode | loaderData | bootServicesCode | bootServicesData | runtimeServicesCode
  | runtimeServicesData | conventional | unusable | acpiReclaim | acpiNvs | mmio | mmioPort
  | palCode
  | persistent | unaccepted | max
  | other (n : Nat)
  deriving DecidableEq

def efiMemoryTypeTostr : MemoryType → List UInt8
  | .reserved => ascii "res"
  | .loaderCode => ascii "ldcode"
  | .loaderData => ascii "lddata"
  | .bootServicesCode => ascii "bscode"
  | .bootServicesData => ascii "bsdata"
  | .runtimeServicesCode => ascii "rtcode"
  | .runtimeServicesData => ascii "rtdata"
  | .conventional => ascii "memory"
  | .unusable => ascii "unsable"
  | .acpiReclaim => ascii "acpireclaim"
  | .acpiNvs => ascii "acpinvs"
  | .mmio => ascii "mmio"
  | .mmioPort => ascii "mmioport"
  | .palCode => ascii "pal"
  | .persistent => ascii "persistent"
  | .unaccepted => ascii "unaccepted"
  | .max | .other _ => ascii "unknown"

def memattrsRw : Nat := 0x4008
def memattrsRwx : Nat := 0x8
def memattrsFault : Nat := 0x26001
def memattrSp : Nat := 0x40000

def efiMemoryTypeDefaultAttrs : MemoryType → Nat
  | .reserved | .mmio | .mmioPort | .unaccepted => 0
  | .bootServicesCode | .loaderCode | .runtimeServicesCode | .acpiReclaim | .acpiNvs => memattrsRwx
  | .loaderData | .bootServicesData | .runtimeServicesData => memattrsRw
  | .conventional => memattrsRwx
  | .palCode => memattrsFault
  | .persistent => memattrsRw ||| memattrSp
  | .unusable | .max => memattrsFault
  | .other _ => memattrsRwx

structure TypeAttrs where
  type : MemoryType
  attrs : Nat
  runtime : Bool
  deriving DecidableEq

/-- The resources, their types, and `efi_memory_map_key`. -/
structure Loader where
  tree : Tree
  typeAttrs : Nat → TypeAttrs
  memoryMapKey : Nat

def efiPageAlign (val : Nat) : Nat := (val + 4095) % 2 ^ 64 / 4096 * 4096

def efiSizeInPages (size : Nat) : Nat := (size + 4095) % 2 ^ 64 / 4096

/-- The first of the pages that `find_pages_max` takes from a gap. -/
def gapPages (npages page : Nat) (region : Region) : Option Nat :=
  let firstpage := efiPageAlign region.start / 4096
  let lastpage := efiPageAlign ((region.last + 1) % 2 ^ 64) / 4096
  if lastpage = 0 ∨ lastpage < firstpage then none
  else
    let candidateLast := min (lastpage - 1) page
    if candidateLast < firstpage then none
    else if candidateLast - firstpage + 1 < npages then none
    else some (candidateLast + 1 - npages)

variable (t : Tree) (l : Loader)

/-- The part of `find_pages_max` for one bank. -/
def bankPages (npages page bank : Nat) : Option Nat :=
  match t.region bank with
  | none => none
  | some b =>
    if page < b.start / 4096 then none
    else (resourceRegionsReverse t bank).findSome? fun item =>
      if regionIsGap item.region then gapPages npages page item.region else none

/-- `find_pages_max`: the banks from the last to the first. -/
def findPagesMax (npages page : Nat) : Except Status Nat :=
  match t.banks.reverse.findSome? (bankPages t npages page) with
  | some page => .ok page
  | none => .error .outOfResources

/-- `__request_sdram_region`: the first bank that takes the region. -/
def requestSdramRegion (name : List UInt8) (start last : Nat) :
    List Nat → Tree → Outcome (Option Nat)
  | [], t => some (none, t)
  | bank :: banks, t =>
    match requestRegion t bank start last name ioresourceMem with
    | none => none
    | some (.ok res, t) => some (some res, t)
    | some (.error _, t) => requestSdramRegion name start last banks t

inductive AllocateType where
  | anyPages
  | maxAddress
  | address
  | other (n : Nat)
  deriving DecidableEq

def requestedAddress (type : AllocateType) (npages memory : Nat) : Except Status Nat :=
  match type with
  | .anyPages => (findPagesMax t npages (maxAddress / 4096)).map fun page => page * 4096 % 2 ^ 64
  | .maxAddress => (findPagesMax t npages (memory / 4096)).map fun page => page * 4096 % 2 ^ 64
  | .address => .ok memory
  | .other _ => .error .invalidParameter

def allocationName (key : Nat) (type : MemoryType) (name : Option (List UInt8)) : List UInt8 :=
  let tail := name.elim [] fun name => ascii "-" ++ name
  (ascii "efi" ++ decimal key ++ ascii "-" ++ efiMemoryTypeTostr type ++ tail).take 63

def ioresourceTypeValid : Nat := 0x800000

def ioresourceEfiAlloc : Nat := 0x2000000

def Loader.allocated (t : Tree) (res : Nat) (type : MemoryType) : Loader :=
  let flag (r : Region) : Region :=
    { r with flags := r.flags ||| ioresourceTypeValid ||| ioresourceEfiAlloc }
  let runtime := type = .runtimeServicesCode || type = .runtimeServicesData
  { l with
    tree := (t.region res).elim t fun r => t.setRegion res (flag r)
    typeAttrs := Function.update l.typeAttrs res ⟨type, efiMemoryTypeDefaultAttrs type, runtime⟩ }

/-- `efi_allocate_pages`, without the mapping of executable pages. -/
def efiAllocatePages (type : AllocateType) (memoryType : MemoryType) (npages memory : Nat)
    (name : Option (List UInt8)) : Option (Except Status Nat × Loader) :=
  let l := { l with memoryMapKey := (l.memoryMapKey + 1) % 2 ^ 64 }
  if npages = 0 then some (.error .invalidParameter, l)
  else
    match requestedAddress l.tree type npages memory with
    | .error status => some (.error status, l)
    | .ok newAddr =>
      if efiMemoryTypeDefaultAttrs memoryType = 0 then some (.error .invalidParameter, l)
      else
        match requestSdramRegion (allocationName l.memoryMapKey memoryType name) newAddr
            (lastOf newAddr (npages * 4096 % 2 ^ 64)) l.tree.banks l.tree with
        | none => none
        | some (none, t) => some (.error .outOfResources, { l with tree := t })
        | some (some res, t) => some (.ok newAddr, l.allocated t res memoryType)

structure MemoryDesc where
  type : MemoryType
  physStart : Nat
  virtStart : Nat
  npages : Nat
  attrs : Nat
  deriving DecidableEq

def efiMemoryWb : Nat := 0x8

def efiMemoryRuntime : Nat := 2 ^ 63

/-- `efi_memory_desc_from_res` with the type and attributes of the region. -/
def efiMemoryDescFromRes (ta : TypeAttrs) (region : Region) : Option MemoryDesc :=
  let physStart := efiPageAlign region.start
  let npages :=
    efiSizeInPages ((efiPageAlign ((region.last + 1) % 2 ^ 64) + 2 ^ 64 - physStart) % 2 ^ 64)
  if npages = 0 then none
  else if region.flags &&& ioresourceTypeValid ≠ 0 then
    some ⟨ta.type, physStart, physStart, npages,
      ta.attrs ||| (if ta.runtime then efiMemoryRuntime else 0)⟩
  else some ⟨.reserved, physStart, physStart, npages, efiMemoryWb⟩

def Loader.itemAttrs (parent : Nat) : Item → TypeAttrs
  | .resource id _ => l.typeAttrs id
  | .gap _ _ _ => { l.typeAttrs parent with runtime := false }

/-- The items that `efi_get_memory_map` makes one descriptor of each: a region of a bank
without children, or the children of a region and the gaps between them. -/
def regionItems (parent : Nat) (region : Item) : List (Nat × Item) :=
  match region with
  | .gap _ _ _ => [(parent, region)]
  | .resource id _ =>
    if t.children id = [] then [(parent, region)] else (resourceRegions t id).map fun item =>
      (id, item)

/-- The regions and gaps that `efi_get_memory_map` walks over, bank by bank. -/
def mapItems : List (Nat × Item) := t.banks.flatMap fun bank =>
    (resourceRegions t bank).flatMap (regionItems t bank)

def regionEntries : Item → Nat
  | .gap _ _ _ => 1
  | .resource id _ => if t.children id = [] then 1 else (resourceRegions t id).length

/-- `map_entries` after the first pass. -/
def mapEntries : Nat :=
  (t.banks.map fun bank => ((resourceRegions t bank).map (regionEntries t)).sum).sum

def descSize : Nat := 40

/-- `efi_get_memory_map` for the size and whether there is a buffer of that size: the
descriptors and the key, and the size that is returned. -/
def efiGetMemoryMap (memoryMapSize : Option Nat) (memoryMap : Bool) :
    Except Status (List MemoryDesc × Nat) × Option Nat :=
  match memoryMapSize with
  | none => (.error .invalidParameter, none)
  | some provided =>
    let mapSize := mapEntries l.tree * descSize
    if provided < mapSize then (.error .bufferTooSmall, some mapSize)
    else if !memoryMap then (.error .invalidParameter, some mapSize)
    else
      let descs := (mapItems l.tree).filterMap fun (parent, item) =>
        efiMemoryDescFromRes (l.itemAttrs parent item) item.region
      (.ok (descs, l.memoryMapKey), some (descs.length * descSize))

end Barebox.Efi
