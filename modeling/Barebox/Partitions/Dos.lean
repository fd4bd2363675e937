import Barebox.Data.CString
import Barebox.Lib.Strtox
import Barebox.Partitions.Disk

/-! The partition table in the master boot record: reading it, creating and
removing partitions, and writing it. -/
namespace Barebox.Partitions
open Bytes Lib

/-- `struct dos_partition` with its `struct partition`. -/
structure DosPartition where
  firstSec : Nat
  size : Nat
  dosPartitionType : UInt8 := 0
  num : Nat
  extended : Bool := false
  logical : Bool := false
  bootIndicator : UInt8 := 0
  chsBegin : List UInt8 := zeros 3
  type : UInt8
  chsEnd : List UInt8 := zeros 3
  deriving DecidableEq

structure DosDesc where
  partitions : List DosPartition
  signature : Nat
  deriving DecidableEq

def signatureOffset : Nat := 0x1b8

def tableOffset : Nat := 446

def maxPartition : Nat := 128

def tableEntry (sector : List UInt8) (i : Nat) : List UInt8 :=
  slice (tableOffset + 16 * i) 16 sector

variable (entry : List UInt8)

def entryStart : Nat := ofLe (slice 8 4 entry)

def entrySize : Nat := ofLe (slice 12 4 entry)

def entryType : UInt8 := entry.getD 4 0

def isExtendedPartition (type : UInt8) : Bool := type = 5 || type = 0x0f || type = 0x85

def partitionOfEntry (num firstSec : Nat) : DosPartition where
  firstSec
  size := entrySize entry
  dosPartitionType := entryType entry
  num
  bootIndicator := entry.getD 0 0
  chsBegin := slice 1 3 entry
  type := entryType entry
  chsEnd := slice 5 3 entry

/-- The loop of `dos_extended_partition`. Sector numbers are 32 bits wide. -/
def extendedPartitions (d : Disk) (firstSec : Nat) : Nat → Nat → Nat → List DosPartition
  | 0, _, _ => []
  | n + 1, partno, ebrSector =>
    match d.blockRead ebrSector 1 with
    | .error _ => []
    | .ok buf =>
      if slice 0x1fe 2 buf ≠ [0x55, 0xaa] then []
      else if slice 0x1de 0x20 buf ≠ zeros 0x20 then []
      else
        let first := tableEntry buf 0
        let part := { partitionOfEntry first partno ((ebrSector + entryStart first) % 2 ^ 32) with
          logical := true }
        let next := entryStart (tableEntry buf 1)
        if next = 0 then [part]
        else part :: extendedPartitions d firstSec n (partno + 1) ((firstSec + next) % 2 ^ 32)

theorem extendedPartitions_forall {P : DosPartition → Prop} (d : Disk) (firstSec : Nat)
    (hEntry : ∀ entry num sector,
      P { partitionOfEntry entry num (sector % 2 ^ 32) with logical := true }) (n : Nat) :
    ∀ partno ebrSector, ∀ p ∈ extendedPartitions d firstSec n partno ebrSector, P p := by
  induction n with
  | zero =>
    intro partno ebrSector p hp
    cases hp
  | succ n ih =>
    intro partno ebrSector p hp
    rw [extendedPartitions] at hp
    rcases hRead : d.blockRead ebrSector 1 with e | buf
    · rw [hRead] at hp
      cases hp
    rw [hRead] at hp
    dsimp only at hp
    split_ifs at hp with hMagic hZero hLast
    · cases hp
    · cases hp
    · grind
    · rcases List.mem_cons.mp hp with rfl | hp
      · exact hEntry _ _ _
      · exact ih _ _ p hp

/-- One entry in the loop of `dos_partition`. -/
def parseEntry (buf : List UInt8) (i : Nat) : Option DosPartition :=
  let entry := tableEntry buf i
  if entryStart entry = 0 then none
  else
    let part := partitionOfEntry entry i (entryStart entry)
    if isExtendedPartition (entryType entry) then some { part with extended := true, size := 2 }
    else some part

/-- `dos_partition`, on a buffer with the first sector. The signature is kept
only when there is a partition. -/
def dosPartition (d : Disk) (buf : List UInt8) : DosDesc :=
  let primary := (List.range 4).filterMap (parseEntry buf)
  let logical :=
    match primary.find? DosPartition.extended with
    | none => []
    | some part => extendedPartitions d part.firstSec (maxPartition - 4) 4 (part.firstSec % 2 ^ 32)
  { partitions := primary ++ logical
    signature := if primary = [] then 0 else ofLe (slice signatureOffset 4 buf) }

/-- `dos_partition_create_table`, with a random signature. -/
def dosPartitionCreateTable (random : UInt32) : DosDesc := ⟨[], random.toNat⟩

/-- `kstrtoul` in base 16: the value without the overflow that it reports. -/
def kstrtoulHex (s : List UInt8) : Except Errno Nat :=
  let s := if charAt s 0 = 43 then s.drop 1 else s
  let s := (parseIntegerFixupRadix s 16).1
  let digits := s.takeWhile fun c => (digitValue c).any (· < 16)
  let value := digits.foldl (fun r c => r * 16 + (digitValue c).getD 0) 0
  let rest := s.drop digits.length
  let rest := if charAt rest 0 = 10 then rest.drop 1 else rest
  if 2 ^ 64 ≤ value then .error .erange
  else if digits = [] ∨ rest ≠ [] then .error .einval
  else .ok value

def fsTypeToType (fstype : List UInt8) : Except Errno UInt8 :=
  if fstype = ascii "ext2" ∨ fstype = ascii "ext3" ∨ fstype = ascii "ext4" then .ok 0x83
  else if fstype = ascii "fat16" then .ok 0xe
  else if fstype = ascii "fat32" then .ok 0xc
  else
    match kstrtoulHex fstype with
    | .error e => .error e
    | .ok type => if 0xff < type then .error .einval else .ok (.ofNat type)

/-- The bits left in `mask_free`. Each partition clears the bit of the number of
primary partitions in front of it. -/
def maskFree : List DosPartition → Nat → List Nat → List Nat
  | [], _, free => free
  | p :: ps, npart, free => maskFree ps (if p.logical then npart else npart + 1) (free.erase npart)

def ffs (free : List Nat) : Nat := (free.head?.map (· + 1)).getD 0

def dosPartitionMkpart (pd : DosDesc) (name fsType : List UInt8) (startLba endLba : Nat) :
    Except Errno DosDesc :=
  match fsTypeToType fsType with
  | .error _ => .error .einval
  | .ok type =>
    if startLba < 1 then .error .einval
    else
      let npart := (pd.partitions.filter fun p => !p.logical).length
      let hasExtended := pd.partitions.any DosPartition.extended
      let size := (endLba + 2 ^ 64 - startLba + 1) % 2 ^ 64
      let create : Except Errno DosDesc :=
        if 2 ^ 32 - 1 < startLba then .error .enospc
        else if 2 ^ 32 - 1 < size then .error .enospc
        else .ok { pd with partitions := pd.partitions ++
          [{ firstSec := startLba, size, type,
             num := ffs (maskFree pd.partitions 0 (List.range 4)) }] }
      if name = ascii "extended" then
        if hasExtended then .error .enospc else create
      else if name = ascii "primary" then
        if npart = 4 then .error .enospc else create
      else if name = ascii "logical" then
        if ¬hasExtended then .error .einval
        else if 4 ≤ (pd.partitions.filter DosPartition.logical).length then .error .enospc
        else .error .einval
      else .error .einval

def entryBytes (p : DosPartition) : List UInt8 :=
  [p.bootIndicator] ++ p.chsBegin ++ [p.type] ++ p.chsEnd ++ le 4 p.firstSec ++ le 4 p.size

/-- Where `dos_partition_write` puts a partition: the entry of the number minus
one, for number zero the bytes in front of the table. -/
def entryOffset (num : Nat) : Nat := tableOffset + 16 * num - 16

/-- The sector that `dos_partition_write` makes of the present one. -/
def dosSector (pd : DosDesc) (sector : List UInt8) : List UInt8 :=
  let sector := overwrite signatureOffset (le 4 pd.signature) sector
  let sector := overwrite tableOffset (zeros 64) sector
  let sector := overwrite 0x1fe [0x55, 0xaa] sector
  pd.partitions.foldl (fun sector p => overwrite (entryOffset p.num) (entryBytes p) sector) sector

/-- `dos_partition_write`: the boot code of the sector stays; logical partitions are refused. -/
def dosPartitionWrite (d : Disk) (pd : DosDesc) : Except Errno Unit × List Disk.BlockWrite :=
  if pd.partitions.any DosPartition.logical then (.error .einval, [])
  else
    match d.blockRead 0 1 with
    | .error _ => (.error .eio, [])
    | .ok sector => d.blockWrite 0 (dosSector pd sector) 1

end Barebox.Partitions
