import Barebox.Devfs.Cdev

/-! Partitions have a positive size, stay inside the device they are made on and
apart from each other, as long as each request is in its right mind and `check_overlap`, which
compares an offset on the parent with offsets on the root device, misses no overlap. -/
namespace Barebox.Devfs
open Bytes Barebox.Lib List

theorem devfsAddAliasEntry_cdevs {fs fs' : CdevList} {n : Nat} {name : List UInt8} {derived : Bool}
    (h : devfsAddAliasEntry fs n name derived = .ok fs') : fs'.cdevs = fs.cdevs := by
  unfold devfsAddAliasEntry at h
  split_ifs at h
  cases h
  rfl

variable (fs : CdevList)

theorem devfsAddDerivedAlias_cdevs (n : Nat) (stem known name : List UInt8) :
    (devfsAddDerivedAlias fs n stem known name).cdevs = fs.cdevs := by
  unfold devfsAddDerivedAlias
  split_ifs
  · rfl
  · split
    next hAdd => exact devfsAddAliasEntry_cdevs hAdd
    next => rfl

theorem foldl_cdevs {α : Type} {f : CdevList → α → CdevList}
    (h : ∀ fs x, (f fs x).cdevs = fs.cdevs) (xs : List α)
    (fs : CdevList) : (xs.foldl f fs).cdevs = fs.cdevs := by
  induction xs generalizing fs with
  | nil => rfl
  | cons x xs ih => rw [foldl_cons, ih, h]

theorem devfsInheritMasterAliases_cdevs (n : Nat) (name : List UInt8) :
    (devfsInheritMasterAliases fs n name).cdevs = fs.cdevs := by
  unfold devfsInheritMasterAliases
  split
  next => rfl
  next =>
    split
    next => rfl
    next => exact foldl_cdevs (fun fs known => devfsAddDerivedAlias_cdevs fs _ _ _ _) _ _

theorem devfsPropagateAlias_cdevs (n : Nat) (stem known : List UInt8) :
    (devfsPropagateAlias fs n stem known).cdevs = fs.cdevs := by
  apply foldl_cdevs
  intro fs part
  simp [foldl_cdevs fun fs partalias => devfsAddDerivedAlias_cdevs fs _ _ _ _,
    devfsAddDerivedAlias_cdevs]

theorem devfsAddAlias_cdevs {fs fs' : CdevList} {n : Nat} {stem name : List UInt8}
    (h : devfsAddAlias fs n stem name = .ok fs') : fs'.cdevs = fs.cdevs := by
  unfold devfsAddAlias at h
  split at h
  next => cases h
  next fs₁ hEntry =>
    cases h
    rw [devfsPropagateAlias_cdevs, devfsInheritMasterAliases_cdevs, devfsAddAliasEntry_cdevs hEntry]

theorem devfsAddPartitionAfter_cdevs (n : Nat) (cdev : Cdev) (partinfo : Partinfo) (last : Int64) :
    (devfsAddPartitionAfter fs n cdev partinfo last).2.cdevs = fs.cdevs ∨
      let offset := requestedOffset cdev partinfo last
      let size := requestedSize cdev partinfo offset
      ¬(offset < 0 ∨ cdev.size < offset + size) ∧
        checkOverlap partinfo.canOverlap offset size (partitions fs n) = none ∧
        (devfsAddPartitionAfter fs n cdev partinfo last).2.cdevs =
          fs.cdevs ++ [⟨partinfo.name, size, cdev.offset + offset, some n⟩] := by
  simp only [devfsAddPartitionAfter]
  split
  next => exact .inl rfl
  next =>
    split
    next => exact .inl rfl
    next hInside =>
      split
      next => exact .inl rfl
      next =>
        split
        next hAlias => exact .inl (devfsAddAlias_cdevs hAlias)
        next => exact .inl rfl
      next hNone => exact .inr ⟨hInside, hNone, devfsInheritMasterAliases_cdevs _ _ _⟩

def Within (c : Cdev) (first last : Int) : Prop :=
  first ≤ c.offset.toInt ∧ 0 ≤ c.size.toInt ∧ c.offset.toInt + c.size.toInt ≤ last

def Apart (c c' : Cdev) : Prop :=
  c.offset.toInt + c.size.toInt ≤ c'.offset.toInt ∨ c'.offset.toInt + c'.size.toInt ≤ c.offset.toInt

/-- Partitions lie inside their device and apart from each other. -/
structure Sound (cdevs : List Cdev) : Prop where
  inside : ∀ c ∈ cdevs, ∀ n, c.master = some n → ∃ parent, cdevs[n]? = some parent ∧
    0 < c.size.toInt ∧
    Within c parent.offset.toInt (parent.offset.toInt + parent.size.toInt)
  apart : cdevs.Pairwise fun c c' => c.master = c'.master → c.master.isSome → Apart c c'

def Bounded (cdevs : List Cdev) : Prop := ∀ c ∈ cdevs, Within c 0 (2 ^ 63 - 1)

theorem toUInt64_toNat {x : Int64} (h : 0 ≤ x.toInt) : (x.toUInt64.toNat : Int) = x.toInt := by
  have hCond : x.toInt = if 2 * x.toUInt64.toNat < 2 ^ 64 then (x.toUInt64.toNat : Int) else _ :=
    BitVec.toInt_eq_toNat_cond x.toBitVec
  split at hCond
  · exact hCond.symm
  · omega

theorem toInt_add_of_lt {x y : Int64} (h : -2 ^ 63 ≤ x.toInt + y.toInt)
    (h' : x.toInt + y.toInt < 2 ^ 63) :
    (x + y).toInt = x.toInt + y.toInt := by
  rw [Int64.toInt_add]
  apply Int.bmod_eq_of_le
  · omega
  · omega

theorem toInt_sub_of_lt {x y : Int64} (h : -2 ^ 63 ≤ x.toInt - y.toInt)
    (h' : x.toInt - y.toInt < 2 ^ 63) :
    (x - y).toInt = x.toInt - y.toInt := by
  rw [Int64.toInt_sub]
  apply Int.bmod_eq_of_le
  · omega
  · omega

theorem checkOverlap_none {offset size : Int64} {parts : List (Cdev × Nat)}
    (h : checkOverlap false offset size parts = none) (hOffset : 0 ≤ offset.toInt)
    (hSize : 0 < size.toInt)
    (hEnd : offset.toInt + size.toInt < 2 ^ 63) (hParts : ∀ part ∈ parts, 0 < part.1.size.toInt ∧
      Within part.1 0 (2 ^ 63 - 1)) : ∀ part ∈ parts, part.1.offset.toInt + part.1.size.toInt ≤
        offset.toInt ∨
      offset.toInt + size.toInt ≤ part.1.offset.toInt := by
  induction parts with
  | nil => exact fun _ hPart => absurd hPart not_mem_nil
  | cons part parts ih =>
    simp only [checkOverlap, Bool.false_eq_true, if_false] at h
    split_ifs at h with hSame hOverlap
    intro part' hPart'
    rcases mem_cons.mp hPart' with rfl | hIn
    · obtain ⟨hPositive, hFirst, _, hLast⟩ := hParts _ (.head _)
      have ho := toUInt64_toNat hOffset
      have hs := toUInt64_toNat hSize.le
      have hpo := toUInt64_toNat hFirst
      have hps := toUInt64_toNat hPositive.le
      rw [regionOverlapSize_iff (by omega) (by omega) (by omega) (by omega)] at hOverlap
      omega
    · exact ih h (fun other hOther => hParts other (.tail _ hOther)) part' hIn

instance (c c' : Cdev) : Decidable (Apart c c') := inferInstanceAs (Decidable (_ ∨ _))

/-- A partition of the device that lies apart from the place that `check_overlap` looks at, the
offset on the device, lies apart from the new partition as well. -/
def wellJudged (fs : CdevList) (n : Nat) (cdev : Cdev) (partinfo : Partinfo) : Bool :=
  let offset := requestedOffset cdev partinfo 0
  let placed (start : Int64) : Cdev :=
    ⟨partinfo.name, requestedSize cdev partinfo offset, start, some n⟩
  (partitions fs n).all fun part =>
    decide (Apart part.1 (placed offset) → Apart part.1 (placed (cdev.offset + offset)))

def wellPlaced (cdev : Cdev) (partinfo : Partinfo) : Bool :=
  let offset := if 0 ≤ partinfo.offset.toInt then partinfo.offset.toInt
    else cdev.size.toInt + partinfo.offset.toInt
  if 0 < partinfo.size.toInt then offset + partinfo.size.toInt < 2 ^ 63
  else offset < cdev.size.toInt + partinfo.size.toInt

section Step
variable {fs : CdevList} {n : Nat} {cdev : Cdev} {partinfo : Partinfo}

theorem requestedOffset_toInt (hSize : 0 ≤ cdev.size.toInt) :
    (requestedOffset cdev partinfo 0).toInt =
      if 0 ≤ partinfo.offset.toInt then partinfo.offset.toInt
      else cdev.size.toInt + partinfo.offset.toInt := by
  have hZero : (0 : Int64).toInt = 0 := rfl
  have hSizeLt := cdev.size.toInt_lt
  have hLow := partinfo.offset.le_toInt
  unfold requestedOffset
  by_cases hPositive : 0 < partinfo.offset
  · rw [if_pos hPositive, if_pos]
    rw [Int64.lt_iff_toInt_lt, hZero] at hPositive
    exact hPositive.le
  rw [if_neg hPositive]
  rw [Int64.lt_iff_toInt_lt, hZero] at hPositive
  by_cases hNone : partinfo.offset = 0
  · simp [hNone]
  · have hNe : partinfo.offset.toInt ≠ 0 := fun h => hNone (Int64.toInt_inj.mp h)
    rw [if_neg hNone, if_neg (by omega), toInt_add_of_lt (by omega) (by omega)]

/-- What is requested is positive and does not overflow. -/
theorem requested_end (hSize : 0 ≤ cdev.size.toInt) (hPlaced : wellPlaced cdev partinfo = true)
    (hOffset : 0 ≤ (requestedOffset cdev partinfo 0).toInt) :
    0 < (requestedSize cdev partinfo (requestedOffset cdev partinfo 0)).toInt ∧
      (requestedOffset cdev partinfo 0).toInt +
        (requestedSize cdev partinfo (requestedOffset cdev partinfo 0)).toInt < 2 ^ 63 := by
  have hZero : (0 : Int64).toInt = 0 := rfl
  have hSizeLt := cdev.size.toInt_lt
  unfold wellPlaced at hPlaced
  rw [← requestedOffset_toInt hSize] at hPlaced
  unfold requestedSize
  by_cases hPositive : 0 < partinfo.size
  · grind [Int64.lt_iff_toInt_lt]
  rw [if_neg hPositive]
  rw [Int64.lt_iff_toInt_lt, hZero] at hPositive
  rw [if_neg hPositive] at hPlaced
  have hBefore := of_decide_eq_true hPlaced
  have hSum : (cdev.size + partinfo.size).toInt = cdev.size.toInt + partinfo.size.toInt :=
    toInt_add_of_lt (by omega) (by omega)
  rw [toInt_sub_of_lt (by omega) (by omega), hSum]
  omega

theorem partition_mem {part : Cdev × Nat} (h : part ∈ partitions fs n) :
    part.1 ∈ fs.cdevs ∧ part.1.master = some n := by
  obtain ⟨hMem, hMaster⟩ := mem_filter.mp h
  exact ⟨fst_mem_of_mem_zipIdx hMem, of_decide_eq_true hMaster⟩

theorem mem_partitions {c : Cdev} (h : c ∈ fs.cdevs) (hMaster : c.master = some n) :
    ∃ i, (c, i) ∈ partitions fs n := by
  obtain ⟨i, hi, rfl⟩ := mem_iff_getElem.mp h
  refine ⟨i, mem_filter.mpr ⟨?_, decide_eq_true hMaster⟩⟩
  rw [mem_zipIdx_iff_getElem?]
  simp

theorem Sound.append {cdevs : List Cdev} {c parent : Cdev} (h : Sound cdevs)
    (hMaster : c.master = some n)
    (hParent : cdevs[n]? = some parent) (hSize : 0 < c.size.toInt)
    (hWithin : Within c parent.offset.toInt (parent.offset.toInt + parent.size.toInt))
    (hApart : ∀ c' ∈ cdevs, c'.master = some n → Apart c' c) : Sound (cdevs ++ [c]) := by
  have hKeeps : ∀ {i p}, cdevs[i]? = some p → (cdevs ++ [c])[i]? = some p := fun hi => by
    rw [getElem?_append_left (List.getElem?_eq_some_iff.mp hi).1]
    exact hi
  constructor
  · intro c' hc' i hi
    rcases mem_append.mp hc' with hOld | hNew
    · obtain ⟨p, hp, hSize', hWithin'⟩ := h.inside c' hOld i hi
      exact ⟨p, hKeeps hp, hSize', hWithin'⟩
    · obtain rfl := mem_singleton.mp hNew
      obtain rfl : n = i := Option.some.inj (hMaster.symm.trans hi)
      exact ⟨parent, hKeeps hParent, hSize, hWithin⟩
  · refine pairwise_append.mpr ⟨h.apart, pairwise_singleton _ _, ?_⟩
    intro c' hc' c'' hc'' hSame _
    obtain rfl := mem_singleton.mp hc''
    exact hApart c' hc' (hSame.trans hMaster)

/-- A well placed partition keeps its siblings apart and inside of the device. -/
theorem devfsAddPartitionAfter_sound (hSound : Sound fs.cdevs) (hBounded : Bounded fs.cdevs)
    (hCdev : fs.cdevs[n]? = some cdev) (hOverlap : partinfo.canOverlap = false)
    (hPlaced : wellPlaced cdev partinfo = true)
    (hJudged : wellJudged fs n cdev partinfo = true) :
    Sound (devfsAddPartitionAfter fs n cdev partinfo 0).2.cdevs ∧
      Bounded (devfsAddPartitionAfter fs n cdev partinfo 0).2.cdevs := by
  obtain hSame | ⟨hInside, hNone, hNew⟩ := devfsAddPartitionAfter_cdevs fs n cdev partinfo 0
  · grind
  have hMem : cdev ∈ fs.cdevs := mem_of_getElem? hCdev
  obtain ⟨hFirst, hSize, hLast⟩ := hBounded cdev hMem
  obtain ⟨hOffset, hEnd⟩ := not_or.mp hInside
  rw [Int64.not_lt, Int64.le_iff_toInt_le] at hOffset hEnd
  obtain ⟨hPositive, hNoWrap⟩ := requested_end hSize hPlaced hOffset
  have hOffset : 0 ≤ (requestedOffset cdev partinfo 0).toInt := hOffset
  rw [toInt_add_of_lt (by omega) hNoWrap] at hEnd
  have hAbsolute : (cdev.offset + requestedOffset cdev partinfo 0).toInt =
      cdev.offset.toInt + (requestedOffset cdev partinfo 0).toInt :=
        toInt_add_of_lt (by omega) (by omega)
  rw [hOverlap] at hNone
  rw [hNew]
  constructor
  · refine hSound.append rfl hCdev hPositive ⟨?_, hPositive.le, ?_⟩ ?_
    · rw [hAbsolute]
      omega
    · dsimp only
      omega
    intro c hc hMaster
    obtain ⟨j, hPart⟩ := mem_partitions hc hMaster
    have hFree := checkOverlap_none hNone hOffset hPositive hNoWrap (fun part hIn => by
      obtain ⟨hPartMem, hPartMaster⟩ := partition_mem hIn
      obtain ⟨_, _, hPartSize, _⟩ := hSound.inside _ hPartMem n hPartMaster
      exact ⟨hPartSize, hBounded _ hPartMem⟩) _ hPart
    exact of_decide_eq_true (all_eq_true.mp hJudged (c, j) hPart) hFree
  · intro c hc
    rcases mem_append.mp hc with hOld | hIn
    · exact hBounded c hOld
    · obtain rfl := mem_singleton.mp hIn
      simp [Within, hAbsolute]
      omega

end Step

/-- A call of `devfs_add_partition`. -/
structure Call where
  devname : List UInt8
  partinfo : Partinfo

def addPartitions (fs : CdevList) (calls : List Call) : CdevList :=
  calls.foldl (fun fs call => (devfsAddPartition fs call.devname call.partinfo).2) fs

/-- The request is well placed, and no overlap is missed. -/
def placeable (fs : CdevList) (call : Call) : Bool :=
  match cdevByName fs call.devname with
  | none => true
  | some n =>
    match fs.cdevs[n]? with
    | none => true
    | some cdev => wellPlaced cdev call.partinfo && wellJudged fs n cdev call.partinfo

def allPlaceable : CdevList → List Call → Bool
  | _, [] => true
  | fs, call :: calls =>
    placeable fs call && allPlaceable (devfsAddPartition fs call.devname call.partinfo).2 calls

variable {fs : CdevList} (hSound : Sound fs.cdevs) (hBounded : Bounded fs.cdevs)
include hSound hBounded

theorem devfsAddPartition_sound {call : Call} (hOverlap : call.partinfo.canOverlap = false)
    (hPlaceable : placeable fs call = true) :
    Sound (devfsAddPartition fs call.devname call.partinfo).2.cdevs ∧
      Bounded (devfsAddPartition fs call.devname call.partinfo).2.cdevs := by
  unfold placeable at hPlaceable
  unfold devfsAddPartition
  rcases hName : cdevByName fs call.devname with _ | n
  · exact ⟨hSound, hBounded⟩
  rw [hName] at hPlaceable
  dsimp only at hPlaceable ⊢
  cases hCdev : fs.cdevs[n]? with
  | none => exact ⟨hSound, hBounded⟩
  | some cdev =>
    rw [hCdev] at hPlaceable
    obtain ⟨hPlaced, hJudged⟩ := (Bool.and_eq_true _ _).mp hPlaceable
    exact devfsAddPartitionAfter_sound hSound hBounded hCdev hOverlap hPlaced hJudged

/-- By induction on the calls. -/
theorem addPartitions_keeps {calls : List Call}
    (hOverlap : ∀ call ∈ calls, call.partinfo.canOverlap = false)
    (hPlaceable : allPlaceable fs calls = true) : Sound (addPartitions fs calls).cdevs := by
  induction calls generalizing fs with
  | nil => exact hSound
  | cons call calls ih =>
    obtain ⟨hFirst, hRest⟩ := (Bool.and_eq_true _ _).mp hPlaceable
    obtain ⟨hSound', hBounded'⟩ :=
      devfsAddPartition_sound hSound hBounded (hOverlap call (.head _)) hFirst
    exact ih hSound' hBounded' (fun other hOther => hOverlap other (.tail _ hOther)) hRest

omit hSound hBounded

/-- Partitions that are created one after the other on devices and on earlier
partitions. -/
theorem addPartitions_sound (fs : CdevList)
    (hDevices : ∀ c ∈ fs.cdevs, c.master = none ∧ c.offset = 0 ∧ 0 ≤ c.size) (calls : List Call)
    (hOverlap : ∀ call ∈ calls, call.partinfo.canOverlap = false)
    (hPlaceable : allPlaceable fs calls = true) :
    Sound (addPartitions fs calls).cdevs := by
  refine addPartitions_keeps ⟨?_, ?_⟩ ?_ hOverlap hPlaceable
  · intro c hc n hMaster
    rw [(hDevices c hc).1] at hMaster
    cases hMaster
  · refine pairwise_of_forall_mem_list fun c hc c' _ _ hSome => ?_
    rw [(hDevices c hc).1] at hSome
    cases hSome
  intro c hc
  obtain ⟨_, hOffset, hSize⟩ := hDevices c hc
  have hZero : c.offset.toInt = 0 := by simp [hOffset]
  rw [Int64.le_iff_toInt_le] at hSize
  have hSize : 0 ≤ c.size.toInt := hSize
  have hLt := c.size.toInt_lt
  rw [Within, hZero]
  omega

def oneDevice : CdevList := ⟨[⟨[100], 4096, 0, none⟩], fun _ => []⟩

/-- A call for the partition with the one-letter name `name` on the device `dev`. -/
def request (dev name : UInt8) (offset size : Int64) : Call := ⟨[dev], [name], offset, size, false⟩

theorem addPartitions_sound_nested :
    (∀ c ∈ oneDevice.cdevs, c.master = none ∧ c.offset = 0 ∧ 0 ≤ c.size) ∧
      Sound (addPartitions oneDevice
        [request 100 97 0 1024, request 100 98 1024 (-1024),
          request 98 99 512 0, request 98 102 0 512, request 97 101 (-256) 128]).cdevs :=
  ⟨by decide, addPartitions_sound oneDevice (by decide) _ (by decide) (by decide +kernel)⟩

/-- Two overlapping partitions of a partition; a partition of size -10; one that ends
behind the device since its end overflows. -/
theorem addPartitions_unsound :
    (addPartitions oneDevice [request 100 98 1024 1024, request 98 99 0 512,
      request 98 101 256 512]).cdevs =
        [⟨[100], 4096, 0, none⟩, ⟨[98], 1024, 1024, some 0⟩,
          ⟨[99], 512, 1024, some 1⟩, ⟨[101], 512, 1280, some 1⟩] ∧
      (addPartitions oneDevice [request 100 98 4000 (-106)]).cdevs =
        [⟨[100], 4096, 0, none⟩, ⟨[98], -10, 4000, some 0⟩] ∧
      (addPartitions oneDevice [request 100 98 1 9223372036854775807]).cdevs =
        [⟨[100], 4096, 0, none⟩, ⟨[98], 9223372036854775807, 1, some 0⟩] := by
  decide +kernel

end Barebox.Devfs
