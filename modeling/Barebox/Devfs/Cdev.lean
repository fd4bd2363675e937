import Barebox.Data.CString
import Barebox.Errno
import Barebox.Lib.Range

/-! Character devices and their partitions, `fs/devfs-core.c`. Devices are numbered
in the order of `cdev_list`, and the partitions of one are in the order of their
creation. Devices of MTD have partitions of their own kind and are left out. -/
namespace Barebox.Devfs
open Bytes Barebox.Lib

structure Alias where
  name : List UInt8
  derived : Bool
  deriving DecidableEq

/-- `struct cdev`; the offset is that on the device without a master. -/
structure Cdev where
  name : List UInt8
  size : Int64
  offset : Int64
  master : Option Nat
  deriving DecidableEq

/-- `cdev_list`, with the aliases of each device. -/
structure CdevList where
  cdevs : List Cdev
  aliases : Nat → List Alias

variable (fs : CdevList) (cdev : Nat)

def cdevByName (filename : List UInt8) : Option Nat :=
  (fs.cdevs.zipIdx.find? fun c => c.1.name = filename ||
    (fs.aliases c.2).any (·.name = filename)).map (·.2)

/-- `__devfs_add_alias`. -/
def devfsAddAliasEntry (name : List UInt8) (derived : Bool) : Except Errno CdevList :=
  if 47 ∈ name then .error .einval
  else if (cdevByName fs name).isSome then .error .eexist
  else
    .ok { fs with
      aliases := fun i => if i = cdev then fs.aliases i ++ [⟨name, derived⟩] else fs.aliases i }

/-- `devfs_add_derived_alias`: the part behind the stem is put behind the known name. -/
def devfsAddDerivedAlias (stem known name : List UInt8) : CdevList :=
  if ¬stem.isPrefixOf name ∨ name.getD stem.length 0 ≠ 46 then fs
  else
    match devfsAddAliasEntry fs cdev (known ++ name.drop stem.length) true with
    | .ok fs => fs
    | .error _ => fs

/-- `devfs_inherit_master_aliases`: one derived alias for each alias of the master. -/
def devfsInheritMasterAliases (name : List UInt8) : CdevList :=
  match fs.cdevs[cdev]?.bind Cdev.master with
  | none => fs
  | some master =>
    match fs.cdevs[master]? with
    | none => fs
    | some m => (fs.aliases master).foldl (fun fs known =>
        devfsAddDerivedAlias fs cdev m.name known.name name) fs

def partitions : List (Cdev × Nat) := fs.cdevs.zipIdx.filter fun c => c.1.master = some cdev

/-- `devfs_propagate_alias`: to the partitions, and to their own aliases. -/
def devfsPropagateAlias (stem known : List UInt8) : CdevList :=
  (partitions fs cdev).foldl (fun fs part =>
    let fs := devfsAddDerivedAlias fs part.2 stem known part.1.name
    ((fs.aliases part.2).filter fun partalias => !partalias.derived).foldl
      (fun fs partalias => devfsAddDerivedAlias fs part.2 stem known partalias.name) fs) fs

/-- `devfs_add_alias`: the alias, those it inherits, and those of the partitions. -/
def devfsAddAlias (stem name : List UInt8) : Except Errno CdevList :=
  match devfsAddAliasEntry fs cdev name false with
  | .error e => .error e
  | .ok fs => .ok (devfsPropagateAlias (devfsInheritMasterAliases fs cdev name) cdev stem name)

/-- `check_overlap`: nothing, a partition with the same place and size, or an error. -/
def checkOverlap (canOverlap : Bool) (offset size : Int64) :
    List (Cdev × Nat) → Option (Except Errno (Cdev × Nat))
  | [] => none
  | part :: parts =>
    if regionIdentical part.1.offset.toUInt64 part.1.size.toUInt64 offset.toUInt64
        size.toUInt64 then some (.ok part)
    else if regionOverlapSize part.1.offset.toUInt64 part.1.size.toUInt64 offset.toUInt64
        size.toUInt64 then
      if canOverlap then none else some (.error .einval)
    else checkOverlap canOverlap offset size parts

/-- `struct devfs_partition`, with the flag `DEVFS_PARTITION_CAN_OVERLAP`. -/
structure Partinfo where
  name : List UInt8
  offset : Int64
  size : Int64
  canOverlap : Bool

/-- The offset on the device that a partition asks for; `last` is the end of the
partition before. -/
def requestedOffset (cdev : Cdev) (partinfo : Partinfo) (last : Int64) : Int64 :=
  if 0 < partinfo.offset then partinfo.offset
  else if partinfo.offset = 0 then last
  else cdev.size + partinfo.offset

def requestedSize (cdev : Cdev) (partinfo : Partinfo) (offset : Int64) : Int64 :=
  if 0 < partinfo.size then partinfo.size else cdev.size + partinfo.size - offset

/-- `__devfs_add_partition` on the device `cdev`, which has the number `n`. -/
def devfsAddPartitionAfter (n : Nat) (cdev : Cdev) (partinfo : Partinfo) (last : Int64) :
    Except Errno Nat × CdevList :=
  if (cdevByName fs partinfo.name).isSome then (.error .eexist, fs)
  else
    let offset := requestedOffset cdev partinfo last
    let size := requestedSize cdev partinfo offset
    if offset < 0 ∨ cdev.size < offset + size then (.error .einval, fs)
    else
      match checkOverlap partinfo.canOverlap offset size (partitions fs n) with
      | some (.error e) => (.error e, fs)
      | some (.ok overlap) =>
        match devfsAddAlias fs overlap.2 overlap.1.name partinfo.name with
        | .ok fs => (.ok overlap.2, fs)
        | .error _ => (.ok overlap.2, fs)
      | none =>
        let new : Cdev := ⟨partinfo.name, size, cdev.offset + offset, some n⟩
        (.ok fs.cdevs.length, devfsInheritMasterAliases
            { cdevs := fs.cdevs ++ [new]
              aliases := fun i => if i = fs.cdevs.length then [] else fs.aliases i }
            fs.cdevs.length partinfo.name)

def devfsAddPartition (devname : List UInt8) (partinfo : Partinfo) : Except Errno Nat × CdevList :=
  match cdevByName fs devname with
  | none => (.error .enoent, fs)
  | some n =>
    match fs.cdevs[n]? with
    | none => (.error .enoent, fs)
    | some cdev => devfsAddPartitionAfter fs n cdev partinfo 0

end Barebox.Devfs
