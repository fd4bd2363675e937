import Barebox.Data.FirstFit
import Barebox.Errno
import Barebox.Lib.Range

/-! The search for free space between partitions. Block numbers have 64 bits, and so has the offset
below which no partition is placed. -/
namespace Barebox.Partitions
open Barebox.Lib Rounding List Nat UInt64

/-- The numbers of `struct block_device`. A block has at least 512 bytes. -/
structure BlockDevice where
  blockBits : Nat
  numBlocks : UInt64
  bits_ge : 9 ≤ blockBits
  bits_lt : blockBits < 32

/-- The place of a `struct partition`. -/
structure Partition where
  firstSec : UInt64
  size : UInt64
  deriving DecidableEq

variable (blk : BlockDevice)

def BlockDevice.roundNblocks (nbytes : UInt64) : UInt64 :=
  if nbytes = 0 then 0 else ((nbytes - 1) >>> ofNat blk.blockBits) + 1

variable (firstPartitionOffset : UInt64)

/-- `partition_first_usable_lba`, for an offset in bytes. -/
def partitionFirstUsableLba : UInt64 := blk.roundNblocks firstPartitionOffset

def partitionAlignSize : UInt64 := 0x100000

def partitionAlignLba : UInt64 := blk.roundNblocks partitionAlignSize

def alignUp (x a : UInt64) : UInt64 := (x + (a - 1)) &&& ~~~(a - 1)

/-- `partition_is_free`: sums of sectors are taken in 64 bits. -/
def partitionIsFree (partitions : List Partition) (start size : UInt64) : Bool :=
  if start < partitionAlignLba blk then false
  else if blk.numBlocks ≤ start + size then false
  else !partitions.any fun p => regionOverlapSize p.firstSec p.size start size

def minSec : UInt64 :=
  let align := partitionAlignLba blk
  let first := partitionFirstUsableLba blk firstPartitionOffset
  alignUp (if first < align then align else first) align

/-- The loop of `partition_find_free_space` over the partitions `behind` which it looks. -/
def findBehind (blk : BlockDevice) (partitions : List Partition) (sectors : UInt64) :
    List Partition → Except Errno UInt64
  | [] => .error .enospc
  | p :: behind =>
    let s := alignUp (p.firstSec + p.size) (partitionAlignLba blk)
    if partitionIsFree blk partitions s sectors then .ok s
    else findBehind blk partitions sectors behind

/-- `partition_find_free_space`: the first place, then behind each partition. -/
def partitionFindFreeSpace (partitions : List Partition) (sectors : UInt64) : Except Errno UInt64 :=
  if partitionIsFree blk partitions (minSec blk firstPartitionOffset) sectors then
    .ok (minSec blk firstPartitionOffset)
  else findBehind blk partitions sectors partitions

theorem shiftRight_align : ∀ bits < 32, 9 ≤ bits →
    (((partitionAlignSize - 1) >>> ofNat bits) + 1).toNat = 2 ^ (20 - bits) := by decide

variable (blk : BlockDevice)

theorem partitionAlignLba_toNat : (partitionAlignLba blk).toNat = 2 ^ (20 - blk.blockBits) := by
  exact shiftRight_align blk.blockBits blk.bits_lt blk.bits_ge

theorem partitionAlignLba_lt :
    0 < (partitionAlignLba blk).toNat ∧ (partitionAlignLba blk).toNat ≤ 2 ^ 11 := by
  have hBits := blk.bits_ge
  rw [partitionAlignLba_toNat]
  exact ⟨Nat.two_pow_pos _, Nat.pow_le_pow_right (by decide) (by omega)⟩

theorem partitionFirstUsableLba_le (offset : UInt64) :
    (partitionFirstUsableLba blk offset).toNat ≤ 2 ^ 55 := by
  have hBits := blk.bits_ge
  have hLt := blk.bits_lt
  rw [partitionFirstUsableLba, BlockDevice.roundNblocks]
  split
  · simp
  have hShift : ((offset - 1) >>> ofNat blk.blockBits).toNat ≤ 2 ^ 55 - 1 := by
    rw [UInt64.toNat_shiftRight, UInt64.toNat_ofNat',
      mod_eq_of_lt (show blk.blockBits < 2 ^ 64 by omega),
      mod_eq_of_lt (show blk.blockBits < 64 by omega), shiftRight_eq_div_pow]
    have hPow : 2 ^ 9 ≤ 2 ^ blk.blockBits := Nat.pow_le_pow_right (by decide) hBits
    have hDiv : (offset - 1).toNat / 2 ^ blk.blockBits ≤ (offset - 1).toNat / 2 ^ 9 :=
      div_le_div_left hPow (by decide)
    have hTop := (offset - 1).toNat_lt
    omega
  grind [UInt64.toNat_add]

variable {k : Nat} {start size offset sectors s : UInt64} {blk : BlockDevice}
    {partitions : List Partition}

theorem and_not_mask {n : Nat} (hn : n < 2 ^ 64) (hk : k ≤ 64) :
    n &&& (2 ^ 64 - 1 - (2 ^ k - 1)) = n / 2 ^ k * 2 ^ k := by
  have hPow : 2 ^ k ≤ 2 ^ 64 := Nat.pow_le_pow_right (by decide) hk
  rw [show 2 ^ 64 - 1 - (2 ^ k - 1) = 2 ^ 64 - (2 ^ k - 1 + 1) by omega]
  apply eq_of_testBit_eq
  intro i
  rw [testBit_and, testBit_two_pow_sub_succ (by omega), testBit_two_pow_sub_one,
    testBit_mul_two_pow,
    testBit_div_two_pow]
  by_cases hi : k ≤ i
  · by_cases hTop : i < 64
    · simp [hi, hTop]
    · have hZero : n.testBit i = false :=
        testBit_lt_two_pow (Nat.lt_of_lt_of_le hn (Nat.pow_le_pow_right (by decide) (by omega)))
      simp [hi, Nat.sub_add_cancel hi, hZero]
  · simp [hi, Nat.lt_of_not_le hi]

theorem alignUp_toNat {x a : UInt64} (hk : k ≤ 63) (ha : a.toNat = 2 ^ k)
    (hUp : roundUp x.toNat (2 ^ k) < 2 ^ 64) : (alignUp x a).toNat = roundUp x.toNat (2 ^ k) := by
  have hPos : 0 < 2 ^ k := Nat.two_pow_pos k
  obtain ⟨hDvd, hLow, hHigh⟩ :=
    (roundUp_eq_iff (n := x.toNat) (m := roundUp x.toNat (2 ^ k)) hPos).mp rfl
  have hMask : (a - 1).toNat = 2 ^ k - 1 := by
    rw [UInt64.toNat_sub_of_le, ha]
    · rfl
    · rw [le_iff_toNat_le, ha]
      exact hPos
  -- the next multiple is at most 2 ^ 64 as well
  have hTop : roundUp x.toNat (2 ^ k) + 2 ^ k ≤ 2 ^ 64 := by
    obtain ⟨j, hj⟩ := hDvd
    obtain ⟨t, ht⟩ : 2 ^ k ∣ 2 ^ 64 := Nat.pow_dvd_pow 2 (by omega)
    rw [hj, ht] at hUp ⊢
    exact Nat.mul_le_mul_left _ (Nat.lt_of_mul_lt_mul_left hUp)
  have hSum : (x + (a - 1)).toNat = x.toNat + (2 ^ k - 1) := by
    rw [UInt64.toNat_add, hMask, mod_eq_of_lt (by omega)]
  have hLt : x.toNat + (2 ^ k - 1) < 2 ^ 64 := by omega
  rw [alignUp, UInt64.toNat_and, UInt64.toNat_not, hSum, hMask]
  refine (and_not_mask hLt (by omega)).trans ?_
  refine ((roundUp_eq_iff hPos).mpr ⟨Nat.dvd_mul_left _ _, ?_⟩).symm
  have hDiv := mod_add_div (x.toNat + (2 ^ k - 1)) (2 ^ k)
  rw [Nat.mul_comm] at hDiv
  omega

theorem minSec_toNat (blk : BlockDevice) (offset : UInt64) :
    (minSec blk offset).toNat =
    roundUp (max (partitionAlignLba blk).toNat (partitionFirstUsableLba blk offset).toNat)
      (partitionAlignLba blk).toNat := by
  have hFirst := partitionFirstUsableLba_le blk offset
  obtain ⟨hPos, hAlign⟩ := partitionAlignLba_lt blk
  have hMax : (if partitionFirstUsableLba blk offset < partitionAlignLba blk then
      partitionAlignLba blk
      else partitionFirstUsableLba blk offset).toNat =
      max (partitionAlignLba blk).toNat (partitionFirstUsableLba blk offset).toNat := by
    split
    all_goals
      rename_i hLt
      rw [lt_iff_toNat_lt] at hLt
      omega
  have hUp : roundUp (max (partitionAlignLba blk).toNat (partitionFirstUsableLba blk offset).toNat)
      (partitionAlignLba blk).toNat < 2 ^ 64 := by
    have hHigh :=
      ((roundUp_eq_iff
        (n := max (partitionAlignLba blk).toNat (partitionFirstUsableLba blk offset).toNat)
      hPos).mp rfl).2.2
    omega
  rw [partitionAlignLba_toNat] at hUp hMax ⊢
  rw [minSec, alignUp_toNat (by omega) (partitionAlignLba_toNat blk) (by rw [hMax]; exact hUp),
    hMax]

def Partition.extent (p : Partition) : FirstFit.Extent := ⟨p.firstSec.toNat, p.size.toNat⟩

def Within (partitions : List Partition) : Prop :=
  ∀ p ∈ partitions, p.firstSec.toNat + p.size.toNat < 2 ^ 64

theorem regionOverlapSize_eq_false {p : Partition} (hSize : 0 < size.toNat)
    (hPart : p.firstSec.toNat + p.size.toNat < 2 ^ 64) (hEnd : start.toNat + size.toNat < 2 ^ 64) :
    regionOverlapSize p.firstSec p.size start size = false ↔
      (0 < p.size.toNat → p.firstSec.toNat + p.size.toNat ≤ start.toNat ∨
        start.toNat + size.toNat ≤ p.firstSec.toNat) := by
  rw [← Bool.not_eq_true]
  by_cases hZero : p.size = 0
  · have hNone : regionOverlapSize p.firstSec p.size start size = false := if_pos (.inl hZero)
    rw [hNone, hZero]
    exact ⟨fun _ hPos => absurd hPos (by decide), fun _ => by decide⟩
  · have hPos : 0 < p.size.toNat := Nat.pos_of_ne_zero fun h => hZero (UInt64.toNat_inj.mp h)
    rw [regionOverlapSize_iff hPos hSize hPart hEnd]
    omega

/-- What `partition_is_free` tests, if the end does not wrap around. -/
theorem partitionIsFree_iff
    (hWithin : Within partitions) (hSize : 0 < size.toNat)
    (hEnd : start.toNat + size.toNat < 2 ^ 64) :
    partitionIsFree blk partitions start size = true ↔
      (partitionAlignLba blk).toNat ≤ start.toNat ∧ start.toNat + size.toNat < blk.numBlocks.toNat ∧
        FirstFit.Free (partitions.map Partition.extent) size.toNat start.toNat := by
  have hSum : (start + size).toNat = start.toNat + size.toNat := by
    rw [UInt64.toNat_add, mod_eq_of_lt hEnd]
  have hAny : (!partitions.any fun p => regionOverlapSize p.firstSec p.size start size) = true ↔
      FirstFit.Free (partitions.map Partition.extent) size.toNat start.toNat := by
    rw [Bool.not_eq_true', any_eq_false, FirstFit.Free, forall_mem_map]
    refine forall₂_congr fun p hp => ?_
    rw [Bool.not_eq_true]
    exact regionOverlapSize_eq_false hSize (hWithin p hp) hEnd
  rw [partitionIsFree]
  simp only [lt_iff_toNat_lt, le_iff_toNat_le, hSum]
  split
  · simp
    omega
  split
  · simp
    omega
  · grind

def searchPlaces (blk : BlockDevice) (offset : UInt64) (partitions : List Partition) :
    List UInt64 :=
  minSec blk offset :: partitions.map fun p => alignUp (p.firstSec + p.size) (partitionAlignLba blk)

theorem findBehind_eq (blk : BlockDevice) (partitions : List Partition)
    (sectors : UInt64) (behind : List Partition) :
    findBehind blk partitions sectors behind =
      ((behind.map fun p => alignUp (p.firstSec + p.size) (partitionAlignLba blk)).find?
        (partitionIsFree blk partitions · sectors)).elim (.error .enospc) .ok := by
  induction behind with
  | nil => rfl
  | cons p behind ih =>
    rw [findBehind, map_cons, find?_cons]
    cases hFree : partitionIsFree blk partitions
      (alignUp (p.firstSec + p.size) (partitionAlignLba blk)) sectors with
    | true => simp
    | false => simp [ih]

theorem partitionFindFreeSpace_eq (blk : BlockDevice) (offset : UInt64)
    (partitions : List Partition) (sectors : UInt64) :
    partitionFindFreeSpace blk offset partitions sectors =
      ((searchPlaces blk offset partitions).find? (partitionIsFree blk partitions · sectors)).elim
        (.error .enospc) .ok := by
  rw [partitionFindFreeSpace, searchPlaces, find?_cons, findBehind_eq]
  cases hFree : partitionIsFree blk partitions (minSec blk offset) sectors with
  | true => rfl
  | false => rfl

/-- An aligned free place that is not below the first usable block. -/
structure Suitable (blk : BlockDevice) (offset : UInt64) (partitions : List Partition)
    (sectors s : UInt64) : Prop where
  aligned : (partitionAlignLba blk).toNat ∣ s.toNat
  usable : alignUp (partitionFirstUsableLba blk offset) (partitionAlignLba blk) ≤ s
  end_lt : s.toNat + sectors.toNat < 2 ^ 64
  free : partitionIsFree blk partitions s sectors = true

variable (hWithin : Within partitions) (hSectors : 0 < sectors.toNat)
    (h : Suitable blk offset partitions sectors s)
include hWithin hSectors h

theorem minSec_le_of_suitable : (minSec blk offset).toNat ≤ s.toNat := by
  obtain ⟨hPos, hAlign⟩ := partitionAlignLba_lt blk
  have hFirst := partitionFirstUsableLba_le blk offset
  have hLow := ((partitionIsFree_iff hWithin hSectors h.end_lt).mp h.free).1
  have hUsable := h.usable
  rw [le_iff_toNat_le, alignUp_toNat (by omega) (partitionAlignLba_toNat blk)] at hUsable
  · rw [minSec_toNat, roundUp_le_iff hPos h.aligned]
    rw [← partitionAlignLba_toNat, roundUp_le_iff hPos h.aligned] at hUsable
    omega
  · have hHigh :=
      ((roundUp_eq_iff (n := (partitionFirstUsableLba blk offset).toNat) hPos).mp rfl).2.2
    rw [← partitionAlignLba_toNat]
    omega

theorem exists_free_place :
    ∃ c ∈ searchPlaces blk offset partitions, partitionIsFree blk partitions c sectors = true := by
  obtain ⟨hPos, -⟩ := partitionAlignLba_lt blk
  obtain ⟨-, hEnd, hFree⟩ := (partitionIsFree_iff hWithin hSectors h.end_lt).mp h.free
  have hMin := minSec_toNat blk offset
  obtain ⟨hDvd, hLow, -⟩ := (roundUp_eq_iff hPos).mp hMin.symm
  obtain ⟨c, hc, hLeast, hLe, hFreeC⟩ :=
    FirstFit.exists_place hPos hDvd h.aligned (minSec_le_of_suitable hWithin hSectors h) hFree
  -- a block number that stands for the place found in the natural numbers
  have hPlace {c' : UInt64} (hEq : c'.toNat = c) : partitionIsFree blk partitions c' sectors =
      true := by
    have hLt := blk.numBlocks.toNat_lt
    rw [partitionIsFree_iff hWithin hSectors (by omega), hEq]
    exact ⟨by omega, by omega, hFreeC⟩
  rcases mem_cons.mp hc with hSame | hc
  · exact ⟨minSec blk offset, .head _, hPlace hSame.symm⟩
  obtain ⟨e, he, hUp⟩ := mem_map.mp hc
  obtain ⟨p, hp, rfl⟩ := mem_map.mp he
  have hSum : (p.firstSec + p.size).toNat = p.firstSec.toNat + p.size.toNat := by
    rw [UInt64.toNat_add, mod_eq_of_lt (hWithin p hp)]
  refine ⟨alignUp (p.firstSec + p.size) (partitionAlignLba blk),
    .tail _ (mem_map.mpr ⟨p, hp, rfl⟩), hPlace ?_⟩
  rw [Partition.extent, partitionAlignLba_toNat] at hUp
  have hLt := s.toNat_lt
  rw [alignUp_toNat (by omega) (partitionAlignLba_toNat blk), hSum]
  · exact hUp
  · rw [hSum, hUp]
    omega

omit hWithin hSectors h

/-- The search finds a free place if there is one at an aligned block from the first usable one on,
and fails for lack of space only if there is none. -/
theorem partitionFindFreeSpace_complete (hWithin : Within partitions) (hSectors : 0 < sectors) :
    ((∃ s, Suitable blk offset partitions sectors s) →
      ∃ s, partitionFindFreeSpace blk offset partitions sectors = .ok s ∧
        partitionIsFree blk partitions s sectors = true) ∧
    ∀ e, partitionFindFreeSpace blk offset partitions sectors = .error e →
      e = .enospc ∧ ¬ ∃ s, Suitable blk offset partitions sectors s := by
  have hPos : 0 < sectors.toNat := lt_iff_toNat_lt.mp hSectors
  rw [partitionFindFreeSpace_eq]
  cases hFind : (searchPlaces blk offset partitions).find?
    (partitionIsFree blk partitions · sectors) with
  | none =>
    have hNone : ¬ ∃ s, Suitable blk offset partitions sectors s := by
      rintro ⟨s, hs⟩
      obtain ⟨c, hc, hFree⟩ := exists_free_place hWithin hPos hs
      exact find?_eq_none.mp hFind c hc hFree
    refine ⟨fun h => absurd h hNone, fun e hError => ⟨?_, hNone⟩⟩
    injection hError with hError
    exact hError.symm
  | some s =>
    have hFree : partitionIsFree blk partitions s sectors = true :=
      find?_some (p := fun x => partitionIsFree blk partitions x sectors) hFind
    exact ⟨fun _ => ⟨s, rfl, hFree⟩, fun e hError => by cases hError⟩

/-- A card with two partitions in the wrong order, and the gap between them. -/
theorem partitionFindFreeSpace_complete_gap :
    let blk : BlockDevice := ⟨9, 131072, by decide, by decide⟩
    let partitions : List Partition := [⟨65536, 32768⟩, ⟨16384, 2000⟩]
    (∃ s, partitionFindFreeSpace blk 0x800000 partitions 4096 = .ok s ∧
      partitionIsFree blk partitions s 4096 = true) ∧
    Suitable blk 0x800000 partitions 4096 20480 := by
  intro blk partitions
  have hSuitable : Suitable blk 0x800000 partitions 4096 20480 :=
    ⟨by decide, by decide, by decide, by decide⟩
  exact ⟨(partitionFindFreeSpace_complete (by unfold Within; decide) (by decide)).1
    ⟨20480, hSuitable⟩, hSuitable⟩

end Barebox.Partitions
