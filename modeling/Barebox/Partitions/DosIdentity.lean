import Barebox.Partitions.Dos

/-! Reading the partition table of a master boot record and writing it back. The
parser numbers the entries from zero and the writer takes one off, so every used
entry moves down and the first one leaves the table. -/
namespace Barebox.Partitions
open Bytes List

/-- The sector with those entries zeroed that `dos_partition` treats as empty. -/
def blankEmpty (sector : List UInt8) (entries : List Nat) : List UInt8 :=
  entries.foldl (fun s i => if entryStart (tableEntry sector i) = 0 then
    overwrite (tableOffset + 16 * i) (zeros 16) s else s) sector

/-- Read the table of a disk with `dos_partition` and write it back unchanged. -/
def rewriteTable (d : Disk) : Except Errno Unit × Disk :=
  let written := dosPartitionWrite d (dosPartition d (d.block 0))
  (written.1, d.applyWrites written.2)

def NoExtended (sector : List UInt8) : Prop :=
  ∀ i < 4, isExtendedPartition (entryType (tableEntry sector i)) = false

variable {buf : List UInt8} {i : Nat} {p : DosPartition} {d : Disk} {ps : List DosPartition}

theorem parseEntry_num (h : parseEntry buf i = some p) :
    p.num = i ∧ p.logical = false ∧ entryStart (tableEntry buf i) ≠ 0 := by
  unfold parseEntry at h
  dsimp only at h
  split_ifs at h with hStart hExt
  all_goals
    cases h
    exact ⟨rfl, rfl, hStart⟩

theorem dosPartition_of_noExtended (hExt : NoExtended buf) : dosPartition d buf =
      { partitions := (range 4).filterMap (parseEntry buf)
        signature := if (range 4).filterMap (parseEntry buf) = [] then 0
          else ofLe (slice signatureOffset 4 buf) } := by
  have hNone : ((range 4).filterMap (parseEntry buf)).find? DosPartition.extended = none := by
    rw [find?_eq_none]
    intro p hp
    obtain ⟨i, hi, hParse⟩ := mem_filterMap.mp hp
    have hType := hExt i (mem_range.mp hi)
    simp only [parseEntry, hType, Bool.false_eq_true, if_false] at hParse
    split_ifs at hParse
    cases hParse
    simp [partitionOfEntry]
  simp [dosPartition, hNone]

theorem dosPartition_of_empty (hExt : NoExtended buf)
    (hEmpty : ∀ i < 4, entryStart (tableEntry buf i) = 0) : dosPartition d buf = ⟨[], 0⟩ := by
  have hNone : (range 4).filterMap (parseEntry buf) = [] := by
    rw [filterMap_eq_nil_iff]
    intro i hi
    rw [parseEntry, if_pos (hEmpty i (mem_range.mp hi))]
  simp [dosPartition_of_noExtended hExt, hNone]

theorem entryBytes_length (h : p.chsBegin.length = 3 ∧ p.chsEnd.length = 3) :
    (entryBytes p).length = 16 := by
  simp [entryBytes, h.1, h.2]

theorem parseEntry_chs (hLen : 512 ≤ buf.length) (hi : i < 4) (h : parseEntry buf i = some p) :
    p.chsBegin.length = 3 ∧ p.chsEnd.length = 3 := by
  have hEntry : (tableEntry buf i).length = 16 :=
    slice_length_of_le (by simp only [tableOffset]; omega)
  have hBegin : (slice 1 3 (tableEntry buf i)).length = 3 := slice_length_of_le (by omega)
  have hEnd : (slice 5 3 (tableEntry buf i)).length = 3 := slice_length_of_le (by omega)
  unfold parseEntry at h
  dsimp only at h
  split_ifs at h
  · cases h
    exact ⟨hBegin, hEnd⟩
  · cases h
    exact ⟨hBegin, hEnd⟩

variable {sector : List UInt8}

theorem entries_slice {pos len : Nat} (hLen : 512 ≤ sector.length)
    (hSound : ∀ p ∈ ps, p.num ≤ 4 ∧ (entryBytes p).length = 16)
    (hApart : ∀ p ∈ ps, pos + len ≤ entryOffset p.num ∨ entryOffset p.num + 16 ≤ pos) :
    slice pos len
      (ps.foldl (fun sector p => overwrite (entryOffset p.num) (entryBytes p) sector) sector) =
      slice pos len sector := by
  induction ps generalizing sector with
  | nil => rfl
  | cons p ps ih =>
    obtain ⟨hNum, hBytes⟩ := hSound p (.head _)
    have hFits : entryOffset p.num + (entryBytes p).length ≤ sector.length := by
      simp [entryOffset, tableOffset]
      omega
    rw [foldl_cons, ih (by rw [overwrite_length hFits]; exact hLen)
      (fun q hq => hSound q (.tail _ hq)) (fun q hq => hApart q (.tail _ hq))]
    apply slice_overwrite_of_disjoint hFits
    simp [hBytes, hApart]

theorem entries_slice_of_absent {k : Nat} (hLen : 512 ≤ sector.length)
    (hSound : ∀ p ∈ ps, p.num ≤ 4 ∧ (entryBytes p).length = 16) (hAbsent : ∀ p ∈ ps, p.num ≠ k) :
    slice (entryOffset k) 16
      (ps.foldl (fun sector p => overwrite (entryOffset p.num) (entryBytes p) sector) sector) =
      slice (entryOffset k) 16 sector := by
  refine entries_slice hLen hSound fun p hp => ?_
  have hNe := hAbsent p hp
  simp only [entryOffset, tableOffset]
  omega

theorem blankEmpty_slice (pos len : Nat) {entries : List Nat} (hLen : 512 ≤ sector.length)
    (hEntries : ∀ j ∈ entries, j < 4)
    (hApart : ∀ j ∈ entries, entryStart (tableEntry sector j) = 0 →
      pos + len ≤ tableOffset + 16 * j ∨ tableOffset + 16 * j + 16 ≤ pos) :
    slice pos len (blankEmpty sector entries) = slice pos len sector := by
  have hFold : ∀ s : List UInt8, 512 ≤ s.length →
      slice pos len (entries.foldl (fun s i => if entryStart (tableEntry sector i) = 0 then
        overwrite (tableOffset + 16 * i) (zeros 16) s else s) s) = slice pos len s := by
    induction entries with
    | nil => exact fun s _ => rfl
    | cons j entries ih =>
      intro s hs
      have hj := hEntries j (.head _)
      have hRest := ih (fun l hl => hEntries l (.tail _ hl)) fun l hl => hApart l (.tail _ hl)
      rw [foldl_cons]
      split_ifs with hEmpty
      · have hFits : tableOffset + 16 * j + (zeros 16).length ≤ s.length := by
          simp [tableOffset]
          omega
        rw [hRest _ (by rw [overwrite_length hFits]; exact hs)]
        exact slice_overwrite_of_disjoint hFits
          (by rw [zeros_length]; exact hApart j (.head _) hEmpty)
      · exact hRest s hs
  exact hFold sector hLen

theorem entries_length (hLen : 512 ≤ sector.length)
    (hSound : ∀ p ∈ ps, p.num ≤ 4 ∧ (entryBytes p).length = 16) :
    (ps.foldl (fun sector p => overwrite (entryOffset p.num) (entryBytes p) sector) sector).length =
    sector.length := by
  induction ps generalizing sector with
  | nil => rfl
  | cons p ps ih =>
    obtain ⟨hNum, hBytes⟩ := hSound p (.head _)
    have hSame : (overwrite (entryOffset p.num) (entryBytes p) sector).length = sector.length := by
      apply overwrite_length
      simp [entryOffset, tableOffset]
      omega
    simp [ih (hSame ▸ hLen) fun q hq => hSound q (.tail _ hq), hSame]

section Sector
variable {sector : List UInt8} (hLen : 512 ≤ sector.length)
include hLen

theorem dosSector_eq (pd : DosDesc) : ∃ cleared : List UInt8, cleared.length = sector.length ∧
      (∀ i < 4, slice (tableOffset + 16 * i) 16 cleared = zeros 16) ∧
      slice signatureOffset 4 cleared = le 4 pd.signature ∧ dosSector pd sector =
        pd.partitions.foldl (fun s p =>
          overwrite (entryOffset p.num) (entryBytes p) s) cleared := by
  refine ⟨_, ?_, ?_, ?_, rfl⟩
  all_goals
    have hSign : (overwrite signatureOffset (le 4 pd.signature) sector).length = sector.length :=
      overwrite_length (by simp [signatureOffset]; omega)
    have hTable : (overwrite tableOffset (zeros 64)
        (overwrite signatureOffset (le 4 pd.signature) sector)).length = sector.length := by
      rw [overwrite_length, hSign]
      simp [tableOffset]
      omega
  · rw [overwrite_length (by simp; omega), hTable]
  · intro i hi
    rw [slice_overwrite_of_disjoint (by simp; omega) (.inl (by simp only [tableOffset]; omega))]
    rw [slice_overwrite_inside (by simp [tableOffset]; omega) (by simp; omega)]
    exact slice_zeros (by omega)
  · rw [slice_overwrite_of_disjoint (by simp; omega)
      (.inl (by simp [signatureOffset])),
      slice_overwrite_of_disjoint (by simp [tableOffset]; omega)
        (.inl (by simp [signatureOffset, tableOffset]))]
    exact (le_length 4 pd.signature) ▸ slice_overwrite_self (by simp [signatureOffset]; omega)

theorem dosSector_length {pd : DosDesc}
    (hSound : ∀ p ∈ pd.partitions, p.num ≤ 4 ∧ (entryBytes p).length = 16) :
    (dosSector pd sector).length = sector.length := by
  obtain ⟨cleared, hCleared, -, -, hEq⟩ := dosSector_eq hLen pd
  rw [hEq, entries_length (hCleared ▸ hLen) hSound, hCleared]

theorem empty_of_absent {pd : DosDesc} {i : Nat} (hi : i < 4)
    (hSound : ∀ p ∈ pd.partitions, p.num ≤ 4 ∧ (entryBytes p).length = 16)
    (hSame : dosSector pd sector = blankEmpty sector (range 4))
    (hAbsent : ∀ p ∈ pd.partitions, p.num ≠ i + 1) : entryStart (tableEntry sector i) = 0 := by
  by_contra hStart
  obtain ⟨cleared, hCleared, hZero, -, hEq⟩ := dosSector_eq hLen pd
  have hPlace : entryOffset (i + 1) = tableOffset + 16 * i := rfl
  have hKept := entries_slice_of_absent (hCleared ▸ hLen) (k := i + 1) hSound hAbsent
  rw [← hEq, hSame, hPlace, hZero i hi] at hKept
  have hEntry := blankEmpty_slice (tableOffset + 16 * i) 16 hLen (fun j => mem_range.mp)
    fun j _ hEmpty => by
      have hNe : i ≠ j := fun h => hStart (h ▸ hEmpty)
      omega
  rw [tableEntry, ← hEntry, hKept] at hStart
  exact hStart (by decide)

theorem dosSector_empty (hMagic : slice 0x1fe 2 sector = [0x55, 0xaa])
    (hSign : slice signatureOffset 4 sector = zeros 4)
    (hEmpty : ∀ i < 4, entryStart (tableEntry sector i) = 0) :
    dosSector ⟨[], 0⟩ sector = blankEmpty sector (range 4) := by
  have hSame : overwrite signatureOffset (le 4 0) sector = sector := by
    have hKeep := @overwrite_slice signatureOffset 4 sector (by simp only [signatureOffset]; omega)
    rwa [hSign] at hKeep
  have hTable : tableOffset + (zeros 64).length ≤ sector.length := by
    simp [tableOffset]
    omega
  have hTail : overwrite 0x1fe [0x55, 0xaa] (overwrite tableOffset (zeros 64) sector) =
      overwrite tableOffset (zeros 64) sector := by
    have hKeep := @overwrite_slice 0x1fe 2 (overwrite tableOffset (zeros 64) sector)
      (by rw [overwrite_length hTable]; omega)
    rwa [slice_overwrite_of_disjoint hTable (.inr (by decide)), hMagic] at hKeep
  have hSplit : zeros 64 = zeros 16 ++ (zeros 16 ++ (zeros 16 ++ zeros 16)) := rfl
  have hSize : ∀ {i : Nat} {s : List UInt8}, i < 4 → s.length = sector.length →
      tableOffset + 16 * i + (zeros 16).length ≤ s.length := by
    intro i s hi hs
    simp [tableOffset]
    omega
  have h0 := overwrite_length (hSize (i := 0) (by decide) (Eq.refl sector.length))
  have h1 := (overwrite_length (hSize (i := 1) (by decide) h0)).trans h0
  simp only [dosSector, hSame, hTail, foldl_nil, blankEmpty]
  simp only [range, range.loop, foldl_cons, foldl_nil, hEmpty 0 (by decide),
    hEmpty 1 (by decide), hEmpty 2 (by decide), hEmpty 3 (by decide), if_true]
  rw [hSplit, overwrite_append, zeros_length, overwrite_append, zeros_length, overwrite_append]
  · rfl
  · exact hSize (i := 2) (by decide) h1
  · exact hSize (i := 1) (by decide) h0
  · exact hSize (i := 0) (by decide) rfl

end Sector

theorem parsed_sound {sector : List UInt8} (hLen : 512 ≤ sector.length) :
    ∀ p ∈ (range 4).filterMap (parseEntry sector), p.num < 4 ∧
    p.logical = false ∧ (entryBytes p).length = 16 ∧
        entryStart (tableEntry sector p.num) ≠ 0 := by
  intro p hp
  obtain ⟨i, hi, hParse⟩ := mem_filterMap.mp hp
  obtain ⟨rfl, hLogical, hStart⟩ := parseEntry_num hParse
  have hNum := mem_range.mp hi
  exact ⟨hNum, hLogical, entryBytes_length (parseEntry_chs hLen hNum hParse), hStart⟩

theorem rewriteTable_eq (hBlocks : 0 < d.numBlocks) (hExt : NoExtended (d.block 0)) :
    (rewriteTable d).1 = .ok () ∧
      (rewriteTable d).2.block 0 = dosSector (dosPartition d (d.block 0)) (d.block 0) := by
  have hLen : 512 ≤ (d.block 0).length := (d.block_length 0).symm ▸ d.blockSize_ge
  have hIndex : d.index 0 = 0 := Disk.index_of_lt hBlocks
  have hSound := parsed_sound hLen
  have hLogical : (dosPartition d (d.block 0)).partitions.any DosPartition.logical = false := by
    rw [dosPartition_of_noExtended hExt, any_eq_false]
    intro p hp
    simp [(hSound p hp).2.1]
  have hRead : d.blockRead 0 1 = .ok (d.block 0) := by
    rw [Disk.blockRead, hIndex, if_pos (.inr hBlocks)]
    simp [Disk.range]
  have hSector : (dosSector (dosPartition d (d.block 0)) (d.block 0)).length = d.blockSize := by
    rw [dosPartition_of_noExtended hExt]
    exact (dosSector_length hLen fun p hp => ⟨(hSound p hp).1.le, (hSound p hp).2.2.1⟩).trans
      (d.block_length 0)
  have hWrite : dosPartitionWrite d (dosPartition d (d.block 0)) =
      (.ok (), [(0, dosSector (dosPartition d (d.block 0)) (d.block 0))]) := by
    simp only [dosPartitionWrite, hLogical, Bool.false_eq_true, if_false, hRead]
    grind [Disk.blockWrite, Disk.blockWrites]
  rw [rewriteTable, hWrite]
  exact ⟨rfl, d.put_block_self hSector⟩

/-- Reading a table without extended entries and writing it back gives the same
sector, up to the empty entries, exactly when all entries are empty and the disk
signature is zero. -/
theorem dosPartition_rewrite_iff (d : Disk) (hBlocks : 0 < d.numBlocks)
    (hExt : NoExtended (d.block 0))
    (hMagic : slice 0x1fe 2 (d.block 0) = [0x55, 0xaa]) : ((rewriteTable d).1 = .ok () ∧
        (rewriteTable d).2.block 0 = blankEmpty (d.block 0) (range 4)) ↔
      (∀ i < 4, entryStart (tableEntry (d.block 0) i) = 0) ∧
      slice signatureOffset 4 (d.block 0) = zeros 4 := by
  have hLen : 512 ≤ (d.block 0).length := (d.block_length 0).symm ▸ d.blockSize_ge
  obtain ⟨hOk, hBlock⟩ := rewriteTable_eq hBlocks hExt
  have hSound := parsed_sound hLen
  have hDesc := dosPartition_of_noExtended (d := d) hExt
  rw [hBlock]
  constructor
  · rintro ⟨-, hSame⟩
    have hStep : ∀ i < 4, (∀ p ∈ (dosPartition d (d.block 0)).partitions, p.num ≠ i + 1) →
        entryStart (tableEntry (d.block 0) i) = 0 := by
      intro i hi
      refine empty_of_absent hLen hi ?_ hSame
      grind
    have hFree : ∀ i, entryStart (tableEntry (d.block 0) i) = 0 →
        ∀ p ∈ (dosPartition d (d.block 0)).partitions, p.num ≠ i := by
      rintro _ hEmpty p hp rfl
      grind
    -- From the last entry to the first: an empty entry leaves the one in front of it empty.
    have h3 := hStep 3 (by decide) fun p hp => by
      rw [hDesc] at hp
      exact (hSound p hp).1.ne
    have h2 := hStep 2 (by decide) (hFree 3 h3)
    have h1 := hStep 1 (by decide) (hFree 2 h2)
    have h0 := hStep 0 (by decide) (hFree 1 h1)
    have hEmpty : ∀ i < 4, entryStart (tableEntry (d.block 0) i) = 0 := by
      intro i hi
      match i, hi with
      | 0, _ => exact h0
      | 1, _ => exact h1
      | 2, _ => exact h2
      | 3, _ => exact h3
    refine ⟨hEmpty, ?_⟩
    obtain ⟨cleared, -, -, hSign, hEq⟩ := dosSector_eq hLen ⟨[], 0⟩
    rw [dosPartition_of_empty hExt hEmpty, hEq] at hSame
    have hKept := blankEmpty_slice signatureOffset 4 hLen (fun j => mem_range.mp)
      fun j _ _ => .inl (by simp only [signatureOffset, tableOffset]; omega)
    rw [← hKept, ← hSame]
    exact hSign
  · rintro ⟨hEmpty, hSign⟩
    refine ⟨hOk, ?_⟩
    rw [dosPartition_of_empty hExt hEmpty]
    exact dosSector_empty hLen hMagic hSign hEmpty

theorem diskOf_minBits : 9 ≤ 9 := Nat.le_refl 9

theorem diskOf_block_length (sector : List UInt8) (i : Nat) :
    (if i = 0 then Disk.fit 512 sector else zeros 512).length = 2 ^ 9 := by
  split_ifs
  · exact Disk.fit_length _ _
  · exact zeros_length _

def diskOf (numBlocks : Nat) (sector : List UInt8) (h : numBlocks * 2 ^ 9 < 2 ^ 63) : Disk where
  blockBits := 9
  numBlocks
  block i := if i = 0 then Disk.fit 512 sector else zeros 512
  minBits := diskOf_minBits
  size_lt := h
  block_length := diskOf_block_length sector

/-- Boot code, no disk signature, and a first entry without a start. -/
def bootSector : List UInt8 :=
  replicate 440 0x90 ++ zeros 6 ++ ([0x80, 1, 1, 0, 0x83, 2, 3, 4] ++ le 4 0 ++ le 4 2048) ++
    zeros 48 ++ [0x55, 0xaa]

/-- The boot code stays, and the entry without a start is cleared. -/
theorem dosPartition_rewrite_boot : 0 < (diskOf 4096 bootSector (by decide)).numBlocks ∧
      (rewriteTable (diskOf 4096 bootSector (by decide))).2.block 0 =
        blankEmpty ((diskOf 4096 bootSector (by decide)).block 0) (range 4) ∧
      blankEmpty ((diskOf 4096 bootSector (by decide)).block 0) (range 4) =
        replicate 440 0x90 ++ zeros 70 ++ [0x55, 0xaa] :=
  ⟨by decide, ((dosPartition_rewrite_iff (diskOf 4096 bootSector (by decide)) (by decide)
    (by unfold NoExtended; decide +kernel) (by decide +kernel)).mpr
      ⟨by decide +kernel, by decide +kernel⟩).2, by decide +kernel⟩

def linuxSector : List UInt8 :=
  zeros 446 ++ ([0x80, 0, 33, 0, 0x83, 0, 33, 1] ++ le 4 2048 ++ le 4 2048) ++
    zeros 48 ++ [0x55, 0xaa]

/-- The only partition is written over the boot code and the disk signature, and
the table becomes empty. -/
theorem dosPartition_rewrite_moves : NoExtended ((diskOf 4096 linuxSector (by decide)).block 0) ∧
      slice 0x1fe 2 ((diskOf 4096 linuxSector (by decide)).block 0) = [0x55, 0xaa] ∧
      (rewriteTable (diskOf 4096 linuxSector (by decide))).1 = .ok () ∧
      slice tableOffset 64 ((rewriteTable (diskOf 4096 linuxSector (by decide))).2.block 0) =
      zeros 64 ∧
      slice (tableOffset - 16) 16 ((rewriteTable (diskOf 4096 linuxSector (by decide))).2.block 0) =
        tableEntry linuxSector 0 ∧ (rewriteTable (diskOf 4096 linuxSector (by decide))).2.block 0 ≠
        blankEmpty ((diskOf 4096 linuxSector (by decide)).block 0) (range 4) := by
  unfold NoExtended
  decide +kernel

end Barebox.Partitions
