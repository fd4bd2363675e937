import Barebox.Partitions.Dos
import Barebox.Partitions.FreeSpace

/-! Creating a partition, in a GUID partition table or in a master boot record, and whether the
places that the search for free space returns are accepted. -/
namespace Barebox.Partitions
open Bytes Barebox.Lib UInt64

/-- `gpt_entry`, without its attributes. -/
structure GptEntry where
  partitionTypeGuid : List UInt8
  uniquePartitionGuid : List UInt8
  startingLba : UInt64
  endingLba : UInt64
  partitionName : List UInt16
  deriving DecidableEq

/-- `struct efi_partition` with its `struct partition`. -/
structure EfiPartition where
  name : List UInt8
  firstSec : UInt64
  size : UInt64
  typeuuid : List UInt8
  num : Nat
  deriving DecidableEq

/-- `struct efi_partition_desc`: the partitions, and the entries for them. -/
structure EfiDesc where
  partitions : List EfiPartition
  ptes : List GptEntry
  deriving DecidableEq

variable (blk : BlockDevice)

def BlockDevice.lastLba : UInt64 := blk.numBlocks - 1

def isPteValid (pte : GptEntry) (lastlba : UInt64) : Bool :=
  !(pte.partitionTypeGuid = zeros 16 || lastlba < pte.startingLba || lastlba < pte.endingLba ||
    pte.endingLba < pte.startingLba)

def partitionLinuxDataGuid : List UInt8 :=
  [0xaf, 0x3d, 0xc6, 0x0f, 0x83, 0x84, 0x72, 0x47, 0x8e, 0x79, 0x3d, 0x69, 0xd8, 0x47, 0x7d, 0xe4]

def partitionBasicDataGuid : List UInt8 :=
  [0xa2, 0xa0, 0xd0, 0xeb, 0xe5, 0xb9, 0x33, 0x44, 0x87, 0xc0, 0x68, 0xb6, 0xb7, 0x26, 0x99, 0xc7]

def partitionBareboxEnvGuid : List UInt8 :=
  [0xf2, 0x37, 0x37, 0x6c, 0xf8, 0x07, 0xd1, 0x45, 0xad, 0x45, 0x15, 0xd2, 0x60, 0xaa, 0xb2, 0x4d]

def partitionBareboxStateGuid : List UInt8 :=
  [0x65, 0xed, 0x78, 0x47, 0x42, 0xbf, 0xfa, 0x45, 0x9c, 0x5b, 0x28, 0x7a, 0x1d, 0xc4, 0xaa, 0xb1]

def fsTypeToGuid (fstype : List UInt8) : Option (List UInt8) :=
  if fstype = ascii "ext2" ∨ fstype = ascii "ext3" ∨ fstype = ascii "ext4" then
    some partitionLinuxDataGuid
  else if fstype = ascii "fat16" ∨ fstype = ascii "fat32" then some partitionBasicDataGuid
  else if fstype = ascii "bbenv" then some partitionBareboxEnvGuid
  else if fstype = ascii "barebox-state" then some partitionBareboxStateGuid
  else none

def isprint (c : UInt8) : Bool := (0x20 ≤ c && c < 0x7f) || 0xa0 ≤ c

/-- `part_get_efi_name`: the name of an entry, 36 characters. -/
def partGetEfiName (src : List UInt8) : List UInt16 :=
  (List.range 36).map fun i => (src.getD i 0).toUInt16

def partSetEfiName (name : List UInt16) : List UInt8 :=
  name.map fun c => if c.toUInt8 ≠ 0 ∧ !isprint c.toUInt8 then 46 else c.toUInt8

/-- `efi_partition_mkpart`, with the GUID that is generated for the entry. -/
def efiPartitionMkpart (guid : List UInt8) (epd : EfiDesc) (name fsType : List UInt8)
    (startLba endLba : UInt64) :
    Except Errno EfiDesc :=
  if startLba < 34 then .error .einval
  else if blk.lastLba - 33 ≤ endLba then .error .einval
  else
    match epd.ptes.findIdx? (fun pte => !isPteValid pte blk.lastLba) with
    | none => .error .enospc
    | some i =>
      match fsTypeToGuid fsType with
      | none => .error .einval
      | some type =>
        .ok
          { partitions := epd.partitions ++
              [⟨partSetEfiName (partGetEfiName name), startLba, endLba - startLba + 1, type, i⟩]
            ptes := epd.ptes.set i ⟨type, guid, startLba, endLba, partGetEfiName name⟩ }

/-- The loop of `efi_partition` over the entries of a table. -/
def efiPartition (ptes : List GptEntry) : EfiDesc where
  partitions := ptes.zipIdx.filterMap fun (pte, i) =>
    if isPteValid pte blk.lastLba && i < maxPartition then
      some ⟨partSetEfiName pte.partitionName, pte.startingLba, pte.endingLba - pte.startingLba + 1,
        pte.partitionTypeGuid, i⟩
    else none
  ptes

/-- `struct partition_desc` of one of the two parsers. -/
inductive PartitionDesc where
  | efi (epd : EfiDesc)
  | dos (pd : DosDesc)
  deriving DecidableEq

def PartitionDesc.partitions : PartitionDesc → List Partition
  | efi epd => epd.partitions.map fun p => ⟨p.firstSec, p.size⟩
  | dos pd => pd.partitions.map fun p => ⟨.ofNat p.firstSec, .ofNat p.size⟩

def PartitionDesc.mkpart (guid : List UInt8) (name fsType : List UInt8) (lbaStart lbaEnd : UInt64) :
    PartitionDesc → Except Errno PartitionDesc
  | efi epd => (efiPartitionMkpart blk guid epd name fsType lbaStart lbaEnd).map efi
  | dos pd => (dosPartitionMkpart pd name fsType lbaStart.toNat lbaEnd.toNat).map dos

/-- `partition_create`: the checks that do not depend on the kind of table, then its `mkpart`. -/
def partitionCreate (offset : UInt64) (guid : List UInt8) (pdesc : PartitionDesc)
    (name fsType : List UInt8)
    (lbaStart lbaEnd : UInt64) : Except Errno PartitionDesc :=
  if lbaEnd < lbaStart then .error .einval
  else if blk.numBlocks ≤ lbaEnd then .error .einval
  else if lbaStart < partitionFirstUsableLba blk offset then .error .einval
  else if pdesc.partitions.any fun p =>
      regionOverlapEndInclusive p.firstSec (p.firstSec + p.size - 1) lbaStart lbaEnd then
        .error .einval
  else pdesc.mkpart blk guid name fsType lbaStart lbaEnd

/-- A table with a slot for the partition that is asked for: an entry of the GUID table that is not
in use, or less than four primary partitions. The type of the file system is known. -/
def PartitionDesc.Ready (name fsType : List UInt8) : PartitionDesc → Prop
  | efi epd => (∃ pte ∈ epd.ptes, isPteValid pte blk.lastLba = false) ∧ (fsTypeToGuid fsType).isSome
  | dos pd => name = ascii "primary" ∧ (pd.partitions.filter fun p => !p.logical).length < 4 ∧
      ∃ type, fsTypeToType fsType = .ok type

def PartitionDesc.InBounds (start size : Nat) : PartitionDesc → Prop
  | efi _ => 34 ≤ start ∧ start + size + 34 ≤ blk.numBlocks.toNat
  | dos _ => start < 2 ^ 32 ∧ size < 2 ^ 32

structure Acceptable (blk : BlockDevice) (offset : UInt64) (pdesc : PartitionDesc)
    (size start : UInt64) : Prop where
  fits : start.toNat + size.toNat < 2 ^ 64
  usable : partitionFirstUsableLba blk offset ≤ start
  empty : ∀ p ∈ pdesc.partitions, p.size = 0 →
    0 < p.firstSec ∧ (p.firstSec ≤ start ∨ start.toNat + size.toNat ≤ p.firstSec.toNat)
  bounds : pdesc.InBounds blk start.toNat size.toNat

theorem error_not_ok {α : Type} {e : Errno} : ¬ ∃ a : α, Except.error e = .ok a := by
  rintro ⟨_, h⟩
  cases h

variable {blk : BlockDevice} {guid name fsType : List UInt8} {offset lbaEnd start size : UInt64}
    {pdesc : PartitionDesc} {partitions : List Partition}

theorem efiPartitionMkpart_ok_iff {epd : EfiDesc}
    {startLba endLba : UInt64} (hReady : (PartitionDesc.efi epd).Ready blk name fsType) :
    (∃ epd', efiPartitionMkpart blk guid epd name fsType startLba endLba = .ok epd') ↔
      34 ≤ startLba ∧ endLba < blk.lastLba - 33 := by
  obtain ⟨⟨pte, hPte, hFree⟩, hType⟩ := hReady
  obtain ⟨type, hType⟩ := Option.isSome_iff_exists.mp hType
  obtain ⟨i, hIdx⟩ : ∃ i, epd.ptes.findIdx? (fun pte => !isPteValid pte blk.lastLba) = some i := by
    apply Option.isSome_iff_exists.mp
    grind
  rw [efiPartitionMkpart, hIdx, hType]
  by_cases hLow : startLba < 34
  · grind
  rw [if_neg hLow]
  by_cases hHigh : blk.lastLba - 33 ≤ endLba
  · grind
  · rw [if_neg hHigh]
    exact ⟨fun _ => ⟨UInt64.not_lt.mp hLow, UInt64.not_le.mp hHigh⟩, fun _ => ⟨_, rfl⟩⟩

theorem dosPartitionMkpart_ok_iff {pd : DosDesc} {startLba endLba : Nat}
    (hReady : (PartitionDesc.dos pd).Ready blk name fsType) (hStart : 0 < startLba)
    (hOrder : startLba ≤ endLba)
    (hEnd : endLba < 2 ^ 64 - 1) :
    (∃ pd', dosPartitionMkpart pd name fsType startLba endLba = .ok pd') ↔
      startLba < 2 ^ 32 ∧ endLba - startLba + 1 < 2 ^ 32 := by
  obtain ⟨rfl, hPrimary, type, hType⟩ := hReady
  have hSize : (endLba + 2 ^ 64 - startLba + 1) % 2 ^ 64 = endLba - startLba + 1 := by omega
  rw [dosPartitionMkpart, hType]
  dsimp only
  rw [if_neg (by omega), if_neg (by decide), if_pos rfl, if_neg (by omega), hSize]
  by_cases hWide : 2 ^ 32 - 1 < startLba
  · grind
  rw [if_neg hWide]
  by_cases hLong : 2 ^ 32 - 1 < endLba - startLba + 1
  · grind
  · rw [if_neg hLong]
    exact ⟨fun _ => by omega, fun _ => ⟨_, rfl⟩⟩

theorem map_ok_iff {α β : Type} {f : α → β} {x : Except Errno α} :
    (∃ b, x.map f = .ok b) ↔ ∃ a, x = .ok a := by
  cases x with
  | error e => exact iff_of_false error_not_ok error_not_ok
  | ok a => exact ⟨fun _ => ⟨a, rfl⟩, fun _ => ⟨f a, rfl⟩⟩

theorem partitionCreate_ok_iff {lbaStart : UInt64} :
    (∃ pdesc', partitionCreate blk offset guid pdesc name fsType lbaStart lbaEnd = .ok pdesc') ↔
    lbaStart ≤ lbaEnd ∧
      lbaEnd < blk.numBlocks ∧ partitionFirstUsableLba blk offset ≤ lbaStart ∧
      (∀ p ∈ pdesc.partitions,
        regionOverlapEndInclusive p.firstSec (p.firstSec + p.size - 1) lbaStart lbaEnd = false) ∧
      ∃ pdesc', pdesc.mkpart blk guid name fsType lbaStart lbaEnd = .ok pdesc' := by
  rw [partitionCreate]
  by_cases hOrder : lbaEnd < lbaStart
  · grind
  rw [if_neg hOrder]
  by_cases hDevice : blk.numBlocks ≤ lbaEnd
  · grind
  rw [if_neg hDevice]
  by_cases hUsable : lbaStart < partitionFirstUsableLba blk offset
  · grind
  rw [if_neg hUsable]
  cases hAny : pdesc.partitions.any fun p =>
      regionOverlapEndInclusive p.firstSec (p.firstSec + p.size - 1) lbaStart lbaEnd with
  | true =>
    rw [if_pos rfl]
    obtain ⟨p, hp, hOverlap⟩ := List.any_eq_true.mp hAny
    refine iff_of_false error_not_ok fun h => ?_
    rw [h.2.2.2.1 p hp] at hOverlap
    cases hOverlap
  | false =>
    rw [if_neg (by decide)]
    have hNone : ∀ p ∈ pdesc.partitions,
        regionOverlapEndInclusive p.firstSec (p.firstSec + p.size - 1) lbaStart lbaEnd = false :=
          fun p hp =>
      Bool.eq_false_iff.mpr (List.any_eq_false.mp hAny p hp)
    exact ⟨fun h => ⟨UInt64.not_lt.mp hOrder, UInt64.not_le.mp hDevice,
      UInt64.not_lt.mp hUsable, hNone, h⟩,
      fun h => h.2.2.2.2⟩

theorem regionOverlapEndInclusive_eq_false {starta enda startb endb : UInt64} :
    regionOverlapEndInclusive starta enda startb endb = false ↔
      enda.toNat < startb.toNat ∨ endb.toNat < starta.toNat := by
  rw [regionOverlapEndInclusive]
  simp only [lt_iff_toNat_lt]
  split_ifs with hA hB
  · exact iff_of_true rfl (.inl hA)
  · exact iff_of_true rfl (.inr hB)
  · exact iff_of_false (by decide) (by omega)

theorem toNat_sub_one {x : UInt64} (h : 0 < x.toNat) : (x - 1).toNat = x.toNat - 1 := by
  rw [UInt64.toNat_sub_of_le]
  · rfl
  · rw [le_iff_toNat_le]
    exact h

/-- The inclusive test sees an empty partition where the search does not. -/
theorem overlap_of_free (hWithin : Within partitions)
    (hEnd : lbaEnd.toNat + 1 = start.toNat + size.toNat)
    (hFree : FirstFit.Free (partitions.map Partition.extent) size.toNat start.toNat)
    {p : Partition} (hp : p ∈ partitions) :
    regionOverlapEndInclusive p.firstSec (p.firstSec + p.size - 1) start lbaEnd = false ↔
      (p.size = 0 → 0 < p.firstSec ∧
        (p.firstSec ≤ start ∨ start.toNat + size.toNat ≤ p.firstSec.toNat)) := by
  rw [regionOverlapEndInclusive_eq_false]
  by_cases hZero : p.size = 0
  · rw [hZero, UInt64.add_zero]
    simp only [forall_const, lt_iff_toNat_lt, le_iff_toNat_le]
    by_cases hFirst : p.firstSec = 0
    · have hLt := start.toNat_lt
      have hLast : (p.firstSec - 1).toNat = 2 ^ 64 - 1 := by rw [hFirst]; rfl
      have hNone : p.firstSec.toNat = 0 := by rw [hFirst]; rfl
      omega
    · have hPos : 0 < p.firstSec.toNat := Nat.pos_of_ne_zero fun h => hFirst (UInt64.toNat_inj.mp h)
      rw [toNat_sub_one hPos, show (0 : UInt64).toNat = 0 from rfl]
      omega
  · have hPos : 0 < p.size.toNat := Nat.pos_of_ne_zero fun h => hZero (UInt64.toNat_inj.mp h)
    have hSum : (p.firstSec + p.size).toNat = p.firstSec.toNat + p.size.toNat := by
      rw [UInt64.toNat_add, Nat.mod_eq_of_lt (hWithin p hp)]
    have hApart := hFree p.extent (List.mem_map.mpr ⟨p, hp, rfl⟩) hPos
    rw [toNat_sub_one (by omega), hSum]
    refine iff_of_true ?_ fun h => absurd h hZero
    dsimp only [Partition.extent] at hApart
    omega

theorem mkpart_ok_iff {blk : BlockDevice} {guid : List UInt8}
    {pdesc : PartitionDesc} {name fsType : List UInt8}
    {size start lbaEnd : UInt64} (hReady : pdesc.Ready blk name fsType)
    (hSize : 0 < size.toNat) (hStart : 0 < start.toNat)
    (hEnd : lbaEnd.toNat + 1 = start.toNat + size.toNat)
    (hDevice : start.toNat + size.toNat < blk.numBlocks.toNat) :
    (∃ pdesc', pdesc.mkpart blk guid name fsType start lbaEnd = .ok pdesc') ↔
      pdesc.InBounds blk start.toNat size.toNat := by
  have hBlocks := blk.numBlocks.toNat_lt
  cases pdesc with
  | efi epd =>
    rw [PartitionDesc.mkpart, map_ok_iff, efiPartitionMkpart_ok_iff hReady, PartitionDesc.InBounds,
      le_iff_toNat_le, lt_iff_toNat_lt, show (34 : UInt64).toNat = 34 from rfl]
    refine and_congr_right fun hLow => ?_
    have hLast : (blk.lastLba - 33).toNat = blk.numBlocks.toNat - 34 := by
      have hOne : blk.lastLba.toNat = blk.numBlocks.toNat - 1 := toNat_sub_one (by omega)
      rw [UInt64.toNat_sub_of_le, hOne, show (33 : UInt64).toNat = 33 from rfl]
      · omega
      · simp [le_iff_toNat_le]
        omega
    rw [hLast]
    omega
  | dos pd =>
    rw [PartitionDesc.mkpart, map_ok_iff,
      dosPartitionMkpart_ok_iff hReady hStart (by omega) (by omega),
      PartitionDesc.InBounds]
    omega

/-- A place that the search takes for free is accepted exactly if it is acceptable. -/
theorem partitionCreate_of_free (hWithin : Within pdesc.partitions)
    (hReady : pdesc.Ready blk name fsType)
    (hSize : 0 < size.toNat) (hFree : partitionIsFree blk pdesc.partitions start size = true) :
    (∃ pdesc', partitionCreate blk offset guid pdesc name fsType start (start + size - 1) =
      .ok pdesc') ↔
      Acceptable blk offset pdesc size start := by
  rw [partitionCreate_ok_iff]
  by_cases hFits : start.toNat + size.toNat < 2 ^ 64
  · obtain ⟨hAlign, hDevice, hApart⟩ := (partitionIsFree_iff hWithin hSize hFits).mp hFree
    have hPos := (partitionAlignLba_lt blk).1
    have hSum : (start + size).toNat = start.toNat + size.toNat := by
      rw [UInt64.toNat_add, Nat.mod_eq_of_lt hFits]
    have hEnd : (start + size - 1).toNat + 1 = start.toNat + size.toNat := by
      rw [toNat_sub_one (by omega), hSum]
      omega
    have hOverlap := fun p hp => overlap_of_free hWithin hEnd hApart (p := p) hp
    have hMkpart := @mkpart_ok_iff blk guid pdesc name fsType size start _ hReady hSize
      (by omega) hEnd hDevice
    constructor
    · rintro ⟨-, -, hUsable, hNone, hMade⟩
      exact ⟨hFits, hUsable, fun p hp => (hOverlap p hp).mp (hNone p hp), hMkpart.mp hMade⟩
    rintro ⟨-, hUsable, hEmpty, hBounds⟩
    refine ⟨?_, ?_, hUsable, fun p hp => (hOverlap p hp).mpr (hEmpty p hp), hMkpart.mpr hBounds⟩
    · rw [le_iff_toNat_le]
      omega
    · rw [lt_iff_toNat_lt]
      omega
  -- the end wraps around to a block in front of the start, or to the last number there is
  · refine iff_of_false ?_ fun h => hFits h.fits
    rintro ⟨hOrder, hDevice, -⟩
    have hStart := start.toNat_lt
    have hSizeLt := size.toNat_lt
    have hBlocks := blk.numBlocks.toNat_lt
    have hSum : (start + size).toNat = start.toNat + size.toNat - 2 ^ 64 := by
      rw [UInt64.toNat_add]
      omega
    rw [le_iff_toNat_le] at hOrder
    rw [lt_iff_toNat_lt] at hDevice
    by_cases hZero : start + size = 0
    · rw [hZero] at hDevice
      have hLast : (0 - 1 : UInt64).toNat = 2 ^ 64 - 1 := rfl
      omega
    · have hPos : 0 < (start + size).toNat := Nat.pos_of_ne_zero fun h =>
        hZero (UInt64.toNat_inj.mp h)
      rw [toNat_sub_one hPos] at hOrder
      omega

/-- A free place, and the first one of the search. -/
def FirstFree (blk : BlockDevice) (offset : UInt64) (partitions : List Partition)
    (size start : UInt64) : Prop :=
  partitionIsFree blk partitions start size = true ∧
    ∃ before after, searchPlaces blk offset partitions = before ++ start :: after ∧
      ∀ c ∈ before, partitionIsFree blk partitions c size = false

theorem partitionFindFreeSpace_ok_iff :
    partitionFindFreeSpace blk offset partitions size = .ok start ↔
    FirstFree blk offset partitions size start := by
  have hFirst : (searchPlaces blk offset partitions).find? (partitionIsFree blk partitions · size) =
      some start ↔
      FirstFree blk offset partitions size start := by
        simp [FirstFree, List.find?_eq_some_iff_append]
  rw [← hFirst, partitionFindFreeSpace_eq]
  cases (searchPlaces blk offset partitions).find?
    (fun x => partitionIsFree blk partitions x size) with
  | none => exact iff_of_false (by rintro h; cases h) (by rintro h; cases h)
  | some c => exact ⟨fun h => by injection h with h; rw [h],
      fun h => by injection h with h; rw [h]; rfl⟩

/-- Creation accepts what the search returns exactly if the first free place is acceptable. -/
theorem partitionCreate_at_free_space (hWithin : Within pdesc.partitions)
    (hReady : pdesc.Ready blk name fsType) (hSize : 0 < size) :
    (∀ start, partitionFindFreeSpace blk offset pdesc.partitions size = .ok start →
      ∃ pdesc', partitionCreate blk offset guid pdesc name fsType start (start + size - 1) =
      .ok pdesc') ↔
    ∀ start, FirstFree blk offset pdesc.partitions size start →
    Acceptable blk offset pdesc size start := by
  have hPos : 0 < size.toNat := lt_iff_toNat_lt.mp hSize
  refine forall_congr' fun start => ?_
  rw [partitionFindFreeSpace_ok_iff]
  exact forall_congr' fun hFirst => partitionCreate_of_free hWithin hReady hPos hFirst.1

/-- No partition that `dos_partition` finds reaches the end of the sector numbers. -/
theorem dosPartition_within (d : Disk) (buf : List UInt8) :
    Within (PartitionDesc.dos (dosPartition d buf)).partitions := by
  have hWord (pos : Nat) (entry : List UInt8) : ofLe (slice pos 4 entry) < 2 ^ 32 := by
    have hLe : (slice pos 4 entry).length ≤ 4 := by
      rw [slice_length]
      omega
    calc ofLe (slice pos 4 entry) < 256 ^ (slice pos 4 entry).length := ofLe_lt _
      _ ≤ 256 ^ 4 := Nat.pow_le_pow_right (by decide) hLe
      _ = 2 ^ 32 := by decide
  have hParts : ∀ p ∈ (dosPartition d buf).partitions, p.firstSec < 2 ^ 32 ∧ p.size < 2 ^ 32 := by
    refine List.forall_mem_append.mpr ⟨fun p hp => ?_, ?_⟩
    · obtain ⟨i, -, hParse⟩ := List.mem_filterMap.mp hp
      unfold parseEntry at hParse
      dsimp only at hParse
      split_ifs at hParse <;> cases hParse
      · exact ⟨hWord _ _, (by decide : 2 < 2 ^ 32)⟩
      · exact ⟨hWord _ _, hWord _ _⟩
    · split
      · nofun
      · exact extendedPartitions_forall d _
          (fun entry _ sector => ⟨Nat.mod_lt sector (by decide), hWord 12 entry⟩) _ _ _
  refine List.forall_mem_map.mpr fun p hp => ?_
  obtain ⟨hFirst, hSize⟩ := hParts p hp
  dsimp only
  rw [UInt64.toNat_ofNat', UInt64.toNat_ofNat', Nat.mod_eq_of_lt (by omega),
    Nat.mod_eq_of_lt (by omega)]
  omega

/-- The same for the partitions of a GUID table on a device that is not empty: they end on it. -/
theorem efiPartition_within {blk : BlockDevice} (hBlocks : 0 < blk.numBlocks.toNat)
    (ptes : List GptEntry) :
    Within (PartitionDesc.efi (efiPartition blk ptes)).partitions := by
  refine List.forall_mem_map.mpr fun p hp => ?_
  obtain ⟨⟨pte, i⟩, -, hEntry⟩ := List.mem_filterMap.mp hp
  dsimp only at hEntry
  split_ifs at hEntry with hValid
  cases hEntry
  simp only [isPteValid, Bool.and_eq_true, Bool.not_eq_true',
    Bool.or_eq_false_iff, decide_eq_false_iff_not,
    UInt64.not_lt] at hValid
  obtain ⟨⟨⟨⟨-, -⟩, hEnd⟩, hOrder⟩, -⟩ := hValid
  have hLast : blk.lastLba.toNat = blk.numBlocks.toNat - 1 :=
    UInt64.toNat_sub_of_le _ _ (UInt64.le_iff_toNat_le.mpr hBlocks)
  have hMax := blk.numBlocks.toNat_lt
  rw [UInt64.le_iff_toNat_le, hLast] at hEnd
  have hOrder' := UInt64.le_iff_toNat_le.mp hOrder
  dsimp only
  rw [UInt64.toNat_add, UInt64.toNat_sub_of_le _ _ hOrder]
  have hOne : (1 : UInt64).toNat = 1 := rfl
  omega

def blankTable : PartitionDesc := .efi ⟨[], [⟨zeros 16, zeros 16, 0, 0, []⟩]⟩

/-- On a disk of 10 MiB the search returns a place that reaches into the copy of the table. -/
theorem partitionCreate_refuses_free_space :
    let blk : BlockDevice := ⟨9, 20480, by decide, by decide⟩
    partitionFindFreeSpace blk 0x800000 blankTable.partitions 4095 = .ok 16384 ∧
      partitionCreate blk 0x800000 (zeros 16) blankTable (ascii "data")
        (ascii "ext4") 16384 (16384 + 4095 - 1) =
        .error .einval := by
  decide

/-- A table with a partition at the first usable block and another one behind a gap. -/
def usedTable (blk : BlockDevice) : PartitionDesc :=
  .efi (efiPartition blk [⟨partitionLinuxDataGuid, zeros 16, 16384, 18431, []⟩,
    ⟨partitionBasicDataGuid, zeros 16, 20480, 22527, []⟩, ⟨zeros 16, zeros 16, 0, 0, []⟩])

/-- The gap between the partitions is found and accepted. -/
theorem partitionCreate_at_free_space_gap :
    let blk : BlockDevice := ⟨9, 40960, by decide, by decide⟩
    partitionFindFreeSpace blk 0x800000 (usedTable blk).partitions 2048 = .ok 18432 ∧
      ∀ start, partitionFindFreeSpace blk 0x800000 (usedTable blk).partitions 2048 = .ok start →
        ∃ pdesc', partitionCreate blk 0x800000 (zeros 16) (usedTable blk)
          (ascii "data") (ascii "ext4") start
          (start + 2048 - 1) = .ok pdesc' := by
  intro blk
  have hFound : partitionFindFreeSpace blk 0x800000 (usedTable blk).partitions 2048 =
      .ok 18432 := by decide
  have hReady : (usedTable blk).Ready blk (ascii "data") (ascii "ext4") :=
    ⟨⟨⟨zeros 16, zeros 16, 0, 0, []⟩, by simp [efiPartition], by simp [isPteValid]⟩, by decide⟩
  have hWithin : Within (usedTable blk).partitions := efiPartition_within (by decide) _
  refine ⟨hFound, (partitionCreate_at_free_space hWithin hReady (by decide)).mpr
    fun start hFirst => ?_⟩
  have hStart := partitionFindFreeSpace_ok_iff.mpr hFirst
  rw [hFound] at hStart
  injection hStart with hStart
  rw [← hStart]
  exact ⟨by decide, by decide, by decide, by decide, by decide⟩

end Barebox.Partitions
