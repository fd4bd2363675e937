import Barebox.Partitions.DosIdentity

/-! The entries of the master boot record that partitions are given when they are created and
removed in turn. A new partition is numbered by how many there are, not by which numbers are taken.
-/
namespace Barebox.Partitions
open Bytes List DosPartition
variable (pd : DosDesc)

/-- `dos_partition_rmpart` for the partition at a place of the list. -/
def dosPartitionRmpartAt (i : Nat) : DosDesc := { pd with partitions := pd.partitions.eraseIdx i }

inductive DosCall where
  | mkpart (name fsType : List UInt8) (startLba endLba : Nat)
  | rmpart (i : Nat)

def dosCall : DosCall → Except Errno DosDesc
  | .mkpart name fsType startLba endLba => dosPartitionMkpart pd name fsType startLba endLba
  | .rmpart i => .ok (dosPartitionRmpartAt pd i)

def visited (pd : DosDesc) : List DosCall → List DosDesc
  | [] => [pd]
  | call :: calls =>
    match dosCall pd call with
    | .error _ => visited pd calls
    | .ok pd' => pd :: visited pd' calls

/-- Where the calls begin: a table that was created, or one that was read. -/
inductive DosStart where
  | created (random : UInt32)
  | parsed (d : Disk) (buf : List UInt8) (hLen : 512 ≤ buf.length)

def DosStart.desc : DosStart → DosDesc
  | created random => dosPartitionCreateTable random
  | parsed d buf _ => dosPartition d buf

def DosDesc.primary : List DosPartition := pd.partitions.filter fun p => !p.logical

structure Slotted (pd : DosDesc) : Prop where
  range : ∀ p ∈ pd.primary, 1 ≤ p.num ∧ p.num ≤ 4
  distinct : pd.primary.Pairwise fun p q => p.num ≠ q.num

/-- A write puts every partition in its entry, and changes nothing but the disk signature, the table
and the mark at the end. -/
structure Writes (pd : DosDesc) (sector : List UInt8) : Prop where
  entry : ∀ p ∈ pd.partitions, tableEntry (dosSector pd sector) (p.num - 1) = entryBytes p
  frame : ∀ pos len, pos + len ≤ signatureOffset ∨
    (signatureOffset + 4 ≤ pos ∧ pos + len ≤ tableOffset) ∨ 512 ≤ pos →
    slice pos len (dosSector pd sector) = slice pos len sector

def Placed : Prop :=
  Slotted pd ∧ (pd.partitions.any logical = false →
    ∀ sector, 512 ≤ sector.length → Writes pd sector)

def trailing (ps : List DosPartition) : Nat := if ps.getLast?.any logical then 1 else 0

theorem trailing_cons (p : DosPartition) (ps : List DosPartition) :
    trailing (p :: ps) = if ps = [] then (if p.logical then 1 else 0) else trailing ps := by
  cases ps with
  | nil => rfl
  | cons q ps => rw [if_neg (cons_ne_nil q ps), trailing, trailing, getLast?_cons_cons]

theorem erase_filter {m extra : Nat} (hExtra : extra ≤ 1) :
    ((range 4).filter (m + extra ≤ ·)).erase m = (range 4).filter (m + 1 ≤ ·) := by
  rw [Nodup.erase_eq_filter (nodup_range.filter _), filter_filter]
  refine filter_congr fun x _ => ?_
  grind

/-- Each partition clears the bit of the number of primary ones in front of it, so the bits up to
that number are clear, and one more behind a logical partition. -/
theorem maskFree_eq (ps : List DosPartition) : ∀ (npart extra : Nat), extra ≤ 1 →
    maskFree ps npart ((range 4).filter (npart + extra ≤ ·)) = (range 4).filter
        (npart + (ps.filter fun p => !p.logical).length +
          (if ps = [] then extra else trailing ps) ≤ ·) := by
  induction ps with
  | nil =>
    intro npart extra _
    rfl
  | cons p ps ih =>
    intro npart extra hExtra
    rw [maskFree, erase_filter hExtra, if_neg (cons_ne_nil p ps), trailing_cons]
    cases hLogical : p.logical with
    | true =>
      rw [if_pos rfl, if_pos rfl, ih npart 1 (Nat.le_refl 1),
        filter_cons_of_neg (by simp [hLogical])]
    | false =>
      have hRest := ih (npart + 1) 0 (Nat.zero_le 1)
      grind

theorem ffs_filter (m : Nat) : ffs ((range 4).filter (m ≤ ·)) = if m < 4 then m + 1 else 0 := by
  by_cases hm : m < 4
  · rw [if_pos hm]
    have hAll : ∀ m < 4, ffs ((range 4).filter (m ≤ ·)) = m + 1 := by decide
    exact hAll m hm
  rw [if_neg hm]
  have hNone : (range 4).filter (m ≤ ·) = [] := by
    rw [filter_eq_nil_iff]
    intro x hx
    rw [decide_eq_true_eq]
    have hLt := mem_range.mp hx
    omega
  rw [hNone]
  rfl

/-- The number is one more than how many primary partitions there are, or two behind a logical one;
beyond four it is zero. -/
theorem ffs_maskFree : ffs (maskFree pd.partitions 0 (range 4)) =
      if pd.primary.length + trailing pd.partitions < 4 then
        pd.primary.length + trailing pd.partitions + 1 else 0 := by
  have hAll : (range 4).filter (0 + 0 ≤ ·) = range 4 := by decide
  have hMask := maskFree_eq pd.partitions 0 0 (Nat.zero_le 1)
  have hTrailing : (if pd.partitions = [] then 0 else trailing pd.partitions) =
      trailing pd.partitions := by
    split
    · rename_i hNil
      rw [hNil]
      rfl
    · rfl
  rw [hAll, hTrailing, Nat.zero_add] at hMask
  rw [hMask, ffs_filter]
  rfl

variable {pd pd' : DosDesc} {name fsType sector : List UInt8}
    {startLba endLba : Nat} {p : DosPartition}
    {call : DosCall}

theorem dosPartitionMkpart_ok (h : dosPartitionMkpart pd name fsType startLba endLba = .ok pd') :
    ∃ p, pd'.partitions = pd.partitions ++ [p] ∧ p.logical = false ∧
    p.chsBegin.length = 3 ∧ p.chsEnd.length = 3 ∧
      p.num = ffs (maskFree pd.partitions 0 (range 4)) := by
  rw [dosPartitionMkpart] at h
  rcases hType : fsTypeToType fsType with e | type
  · rw [hType] at h
    cases h
  rw [hType] at h
  dsimp only at h
  split_ifs at h
  all_goals first
    | cases h; done
    | cases h
      exact ⟨_, rfl, rfl, rfl, rfl, rfl⟩

def Admits (pd : DosDesc) : DosCall → Prop
  | .mkpart .. => pd.primary.length + trailing pd.partitions < 4 ∧
      ∀ p ∈ pd.primary, p.num ≠ pd.primary.length + trailing pd.partitions + 1
  | .rmpart _ => True

theorem primary_append (pd : DosDesc) (hParts : pd'.partitions = pd.partitions ++ [p])
    (hLogical : p.logical = false) : pd'.primary = pd.primary ++ [p] := by grind [DosDesc.primary]

/-- A creation keeps the entries apart exactly if the number it takes is free. -/
theorem slotted_mkpart_iff (hSlotted : Slotted pd)
    (h : dosPartitionMkpart pd name fsType startLba endLba = .ok pd') :
    Slotted pd' ↔ Admits pd (.mkpart name fsType startLba endLba) := by
  obtain ⟨p, hParts, hLogical, -, -, hNum⟩ := dosPartitionMkpart_ok h
  have hPrimary := primary_append pd hParts hLogical
  rw [ffs_maskFree] at hNum
  constructor
  · rintro ⟨hRange, hDistinct⟩
    rw [hPrimary] at hRange hDistinct
    have hNew := hRange p (by simp)
    have hRoom : pd.primary.length + trailing pd.partitions < 4 := by
      by_contra hFull
      grind
    rw [if_pos hRoom] at hNum
    refine ⟨hRoom, fun q hq => ?_⟩
    rw [← hNum]
    exact (pairwise_append.mp hDistinct).2.2 q hq p (by simp)
  · rintro ⟨hRoom, hFree⟩
    rw [if_pos hRoom] at hNum
    refine ⟨fun q hq => ?_, ?_⟩
    · rw [hPrimary] at hq
      rcases mem_append.mp hq with hq | hq
      · exact hSlotted.range q hq
      · rw [mem_singleton.mp hq]
        omega
    · rw [hPrimary, pairwise_append]
      refine ⟨hSlotted.distinct, pairwise_singleton _ _, fun q hq r hr => ?_⟩
      grind

theorem slotted_rmpart (hSlotted : Slotted pd) (i : Nat) : Slotted (dosPartitionRmpartAt pd i) := by
  have hSub : (dosPartitionRmpartAt pd i).primary.Sublist pd.primary :=
    (eraseIdx_sublist pd.partitions i).filter _
  exact ⟨fun p hp => hSlotted.range p (hSub.subset hp), hSlotted.distinct.sublist hSub⟩

theorem slotted_dosCall_iff (hSlotted : Slotted pd) (h : dosCall pd call = .ok pd') :
    Slotted pd' ↔ Admits pd call := by
  cases call with
  | mkpart name fsType startLba endLba => exact slotted_mkpart_iff hSlotted h
  | rmpart i =>
    injection h with h
    rw [← h]
    exact iff_of_true (slotted_rmpart hSlotted i) trivial

def WellSized (pd : DosDesc) : Prop := ∀ p ∈ pd.primary, p.chsBegin.length = 3 ∧ p.chsEnd.length = 3

theorem wellSized_dosCall (hSized : WellSized pd) (h : dosCall pd call = .ok pd') :
    WellSized pd' := by
  cases call with
  | mkpart name fsType startLba endLba =>
    obtain ⟨p, hParts, hLogical, hBegin, hEnd, -⟩ := dosPartitionMkpart_ok h
    intro q hq
    rw [primary_append pd hParts hLogical] at hq
    rcases mem_append.mp hq with hq | hq
    · exact hSized q hq
    · grind
  | rmpart i =>
    injection h with h
    rw [← h]
    exact fun p hp => hSized p (((eraseIdx_sublist pd.partitions i).filter _).subset hp)

def clearedSector (pd : DosDesc) (sector : List UInt8) : List UInt8 :=
  overwrite 0x1fe [0x55, 0xaa]
    (overwrite tableOffset (zeros 64) (overwrite signatureOffset (le 4 pd.signature) sector))

theorem clearedSector_frame (pd : DosDesc) (hLen : 512 ≤ sector.length) :
    (clearedSector pd sector).length = sector.length ∧
      ∀ pos len, pos + len ≤ signatureOffset ∨
      (signatureOffset + 4 ≤ pos ∧ pos + len ≤ tableOffset) ∨ 512 ≤ pos →
        slice pos len (clearedSector pd sector) = slice pos len sector := by
  have hSign : signatureOffset + (le 4 pd.signature).length ≤ sector.length := by
    simp [signatureOffset]
    omega
  have hSignLen := overwrite_length hSign
  have hTable : tableOffset + (zeros 64).length ≤
      (overwrite signatureOffset (le 4 pd.signature) sector).length := by
    simp [tableOffset]
    omega
  have hTableLen := overwrite_length hTable
  have hMark : 0x1fe + [(0x55 : UInt8), 0xaa].length ≤
      (overwrite tableOffset (zeros 64)
        (overwrite signatureOffset (le 4 pd.signature) sector)).length := by
    rw [hTableLen, hSignLen]
    exact hLen
  refine ⟨(overwrite_length hMark).trans (hTableLen.trans hSignLen), fun pos len hApart => ?_⟩
  simp only [signatureOffset, tableOffset] at hApart
  rw [clearedSector, slice_overwrite_of_disjoint hMark (by simp; omega),
    slice_overwrite_of_disjoint hTable (by simp [tableOffset]; omega),
    slice_overwrite_of_disjoint hSign (by simp [signatureOffset]; omega)]

theorem entries_tableEntry {ps : List DosPartition} (hLen : 512 ≤ sector.length)
    (hSound : ∀ p ∈ ps, p.num ≤ 4 ∧ (entryBytes p).length = 16)
    (hDistinct : ps.Pairwise fun p q => p.num ≠ q.num) (hp : p ∈ ps) :
    slice (entryOffset p.num) 16
      (ps.foldl (fun sector p => overwrite (entryOffset p.num) (entryBytes p) sector) sector) =
      entryBytes p := by
  induction ps generalizing sector with
  | nil => cases hp
  | cons q ps ih =>
    obtain ⟨hNum, hBytes⟩ := hSound q (.head _)
    obtain ⟨hFirst, hRest⟩ := pairwise_cons.mp hDistinct
    have hSound' : ∀ p ∈ ps, p.num ≤ 4 ∧ (entryBytes p).length = 16 :=
      fun p hp => hSound p (.tail _ hp)
    have hFits : entryOffset q.num + (entryBytes q).length ≤ sector.length := by
      simp [entryOffset, tableOffset]
      omega
    have hLen' : 512 ≤ (overwrite (entryOffset q.num) (entryBytes q) sector).length := by
      simp [overwrite_length hFits, hLen]
    rw [foldl_cons]
    rcases mem_cons.mp hp with rfl | hp
    · rw [entries_slice_of_absent hLen' hSound' fun r hr => (hFirst r hr).symm]
      exact hBytes ▸ slice_overwrite_self hFits
    · exact ih hLen' hSound' hRest hp

theorem writes_of_slotted (hSlotted : Slotted pd) (hSized : WellSized pd)
    (hLogical : pd.partitions.any logical = false) (hLen : 512 ≤ sector.length) :
    Writes pd sector := by
  have hPrimary : pd.primary = pd.partitions := by
    rw [DosDesc.primary, filter_eq_self]
    intro p hp
    grind
  obtain ⟨hRange, hDistinct⟩ := hSlotted
  rw [WellSized, hPrimary] at hSized
  rw [hPrimary] at hRange hDistinct
  obtain ⟨hCleared, hFrame⟩ := clearedSector_frame pd hLen
  have hSound : ∀ p ∈ pd.partitions, p.num ≤ 4 ∧ (entryBytes p).length = 16 := fun p hp =>
    ⟨(hRange p hp).2, entryBytes_length (hSized p hp)⟩
  refine ⟨fun p hp => ?_, fun pos len hApart => ?_⟩
  · have hPlace : tableOffset + 16 * (p.num - 1) = entryOffset p.num := by
      have hLow := (hRange p hp).1
      rw [entryOffset]
      omega
    rw [tableEntry, hPlace]
    exact entries_tableEntry (hCleared ▸ hLen) hSound hDistinct hp
  · rw [← hFrame pos len hApart]
    refine entries_slice (hCleared ▸ hLen) hSound fun p hp => ?_
    have hNum := hRange p hp
    grind [signatureOffset, tableOffset, entryOffset]

/-- The first entry of a record that was read is not in use. -/
def DosStart.FirstUnused : DosStart → Prop
  | created _ => True
  | parsed _ buf _ => entryStart (tableEntry buf 0) = 0

def AllAdmit (pd : DosDesc) : List DosCall → Prop
  | [] => True
  | call :: calls =>
    match dosCall pd call with
    | .error _ => AllAdmit pd calls
    | .ok pd' => Admits pd call ∧ AllAdmit pd' calls

theorem placed_iff (hSized : WellSized pd) : Placed pd ↔ Slotted pd :=
  ⟨fun h => h.1, fun h => ⟨h, fun hLogical _ hLen => writes_of_slotted h hSized hLogical hLen⟩⟩

/-- All tables on the way have entries apart exactly if every creation takes a free number. -/
theorem visited_placed_iff (calls : List DosCall) (hSized : WellSized pd) :
    (∀ pd' ∈ visited pd calls, Placed pd') ↔ Slotted pd ∧ AllAdmit pd calls := by
  induction calls generalizing pd with
  | nil =>
    simp [visited, placed_iff hSized, AllAdmit]
  | cons call calls ih =>
    rw [visited, AllAdmit]
    rcases hCall : dosCall pd call with e | pd'
    · exact ih hSized
    rw [forall_mem_cons, placed_iff hSized, ih (wellSized_dosCall hSized hCall)]
    constructor
    · rintro ⟨hSlotted, hNext, hRest⟩
      exact ⟨hSlotted, (slotted_dosCall_iff hSlotted hCall).mp hNext, hRest⟩
    · rintro ⟨hSlotted, hAdmits, hRest⟩
      exact ⟨hSlotted, (slotted_dosCall_iff hSlotted hCall).mpr hAdmits, hRest⟩

theorem dosPartition_primary (d : Disk) (buf : List UInt8) :
    (dosPartition d buf).primary = (range 4).filterMap (parseEntry buf) := by
  have hTable : ((range 4).filterMap (parseEntry buf)).filter (fun p => !p.logical) =
      (range 4).filterMap (parseEntry buf) := by
    rw [filter_eq_self]
    intro p hp
    obtain ⟨i, -, hParse⟩ := mem_filterMap.mp hp
    simp [(parseEntry_num hParse).2.1]
  rw [DosDesc.primary, dosPartition]
  rw [filter_append, hTable, append_right_eq_self, filter_eq_nil_iff]
  intro p hp
  cases hFind : ((range 4).filterMap (parseEntry buf)).find? extended with
  | none =>
    rw [hFind] at hp
    cases hp
  | some part =>
    rw [hFind] at hp
    simp [extendedPartitions_forall (P := fun p => p.logical = true) d _
      (fun _ _ _ => rfl) _ _ _ p hp]

variable (start : DosStart)

theorem start_wellSized : WellSized start.desc := by
  cases start with
  | created random =>
    intro p hp
    cases hp
  | parsed d buf hLen =>
    intro p hp
    rw [DosStart.desc, dosPartition_primary] at hp
    obtain ⟨i, hi, hParse⟩ := mem_filterMap.mp hp
    exact parseEntry_chs hLen (mem_range.mp hi) hParse

theorem start_slotted_iff : Slotted start.desc ↔ start.FirstUnused := by
  cases start with
  | created random =>
    refine iff_of_true ⟨fun p hp => ?_, Pairwise.nil⟩ trivial
    cases hp
  | parsed d buf hLen =>
    have hPrimary := dosPartition_primary d buf
    constructor
    · intro hSlotted
      -- a used first entry makes a partition with number zero
      by_contra hUsed
      obtain ⟨p, hParse⟩ : ∃ p, parseEntry buf 0 = some p := by
        rw [parseEntry, if_neg (show ¬ entryStart (tableEntry buf 0) = 0 from hUsed)]
        split
        · exact ⟨_, rfl⟩
        · exact ⟨_, rfl⟩
      have hp : p ∈ (dosPartition d buf).primary := by grind
      have hLow := (hSlotted.range p hp).1
      have hNum := (parseEntry_num hParse).1
      omega
    · intro hUnused
      refine ⟨fun p hp => ?_, ?_⟩
      · rw [DosStart.desc, hPrimary] at hp
        obtain ⟨i, hi, hParse⟩ := mem_filterMap.mp hp
        obtain ⟨hNum, -, hStart⟩ := parseEntry_num hParse
        have hLt := mem_range.mp hi
        have hPos : i ≠ 0 := fun h => hStart (by rw [h]; exact hUnused)
        omega
      · rw [DosStart.desc, hPrimary, pairwise_filterMap]
        refine pairwise_lt_range.imp fun {i j} hLt p hp q hq => ?_
        rw [(parseEntry_num hp).1, (parseEntry_num hq).1]
        omega

/-- Partitions have entries of their own all the way, and writes respect them, exactly if the first
entry of a record that was read is not in use and every creation takes a number that is free. -/
theorem visited_placed_start_iff (calls : List DosCall) :
    (∀ pd ∈ visited start.desc calls, Placed pd) ↔ start.FirstUnused ∧
    AllAdmit start.desc calls := by
  rw [visited_placed_iff calls (start_wellSized start), start_slotted_iff]

/-- Of two partitions the first one is removed: the next one gets the number of the other, and a
write keeps only one of them. -/
theorem mkpart_takes_used_number :
    let primary := DosCall.mkpart (ascii "primary") (ascii "ext4")
    let calls := [primary 2048 4095, primary 4096 6143, .rmpart 0, primary 8192 10239]
    ∃ pd ∈ visited (dosPartitionCreateTable 0) calls, pd.primary.map num = [2, 2] ∧
      ¬ Placed pd := by
  intro primary calls
  have hLast : ∃ pd ∈ visited (dosPartitionCreateTable 0) calls, pd.primary.map num = [2, 2] := by
    decide +kernel
  obtain ⟨pd, hMem, hNums⟩ := hLast
  refine ⟨pd, hMem, hNums, fun hPlaced => ?_⟩
  have hDistinct := pairwise_map.mpr hPlaced.1.distinct
  rw [hNums] at hDistinct
  revert hDistinct
  decide

end Barebox.Partitions
