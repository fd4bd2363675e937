import Barebox.Data.HashPath
import Barebox.Dm.Verity
import Mathlib.Algebra.BigOperators.Intervals
import Mathlib.Algebra.Order.BigOperators.Group.Finset

/-! Where the hash blocks of a verity target lie: the levels follow each other without overlap, and
the hash blocks above a data block of the target are all different and inside of the tree. -/
namespace Barebox.Dm
open Finset Nat

def levelSize (num bits i : Nat) : Nat := (num + 2 ^ ((i + 1) * bits) - 1) / 2 ^ ((i + 1) * bits)

variable {dblock num bits : Nat} {starts : List Nat} {args : VerityArgs}

theorem div_lt_levelSize (h : dblock < num) (bits i : Nat) :
    dblock / 2 ^ ((i + 1) * bits) < levelSize num bits i := by
  rw [levelSize]
  generalize hPow : 2 ^ ((i + 1) * bits) = pow
  have hPos : 0 < pow := by rw [← hPow]; exact Nat.two_pow_pos _
  refine (Nat.le_div_iff_mul_le hPos).mpr ?_
  have hLe := div_mul_le_self dblock pow
  rw [succ_mul]
  omega

theorem countLevels_ends (num bits left levels : Nat) :
    64 ≤ bits * countLevels num bits left levels ∨
    (num - 1) >>> (bits * countLevels num bits left levels) = 0 ∨
      countLevels num bits left levels = levels + left := by
  induction left generalizing levels with
  | zero => exact .inr (.inr rfl)
  | succ left ih =>
    rw [countLevels]
    split
    · have hRest := ih (levels + 1)
      rwa [show levels + 1 + left = levels + (left + 1) by omega] at hRest
    · omega

theorem levelStarts_ok {n lstart total : Nat} {acc : List Nat} (hNum : num ≤ 2 ^ 63)
    (hStart : lstart < 2 ^ 64) (h : levelStarts num bits n lstart acc = .ok (starts, total)) :
    starts = (List.range n).map (fun i => lstart + ∑ j ∈ Ico (i + 1) n,
      levelSize num bits j) ++ acc ∧
      total = lstart + ∑ j ∈ range n, levelSize num bits j := by
  induction n generalizing lstart acc with
  | zero =>
    injection h with h
    injection h with hStarts hTotal
    exact ⟨hStarts.symm, hTotal.symm⟩
  | succ n ih =>
    rw [levelStarts] at h
    split at h
    · cases h
    next hShift =>
      have hPow : 2 ^ ((n + 1) * bits) ≤ 2 ^ 63 := Nat.pow_le_pow_right (by omega) (by omega)
      have hSize : ((num + 2 ^ ((n + 1) * bits) - 1) % 2 ^ 64) >>> ((n + 1) * bits) =
          levelSize num bits n := by
        rw [mod_eq_of_lt (by omega), shiftRight_eq_div_pow]
        rfl
      rw [hSize] at h
      dsimp only at h
      split at h
      · cases h
      next hWrap =>
        have hLt := mod_lt (lstart + levelSize num bits n) (Nat.two_pow_pos 64)
        obtain ⟨hStarts, hTotal⟩ := ih hLt h
        have hSmall : levelSize num bits n < 2 ^ 64 := by
          rw [← hSize, shiftRight_eq_div_pow]
          exact lt_of_le_of_lt (Nat.div_le_self _ _) (mod_lt _ (Nat.two_pow_pos 64))
        refine ⟨?_, ?_⟩
        · rw [hStarts, List.range_succ, List.map_append, List.append_assoc]
          congr 1
          · refine List.map_congr_left fun i hi => ?_
            have hi : i + 1 ≤ n := List.mem_range.mp hi
            rw [sum_Ico_succ_top hi]
            omega
          · simp
        · simp [sum_range_succ]
          omega

namespace Verity

def dataBlocks (v : Verity) : Nat := v.ddev.elim 0 DmCdev.num

structure Laid (v : Verity) : Prop where
  bits_pos : 0 < v.hashPerBlockBits
  slots : v.digestAlgo.length * 2 ^ v.hashPerBlockBits ≤ 2 ^ v.hdev.bits
  start : ∀ l < v.levels,
    v.hashLevelBlock.getD l 0 = ∑ j ∈ Ico (l + 1) v.levels,
      levelSize v.dataBlocks v.hashPerBlockBits j
  hnum : v.hdev.num = ∑ j ∈ range v.levels, levelSize v.dataBlocks v.hashPerBlockBits j
  top : v.dataBlocks ≤ 2 ^ (v.levels * v.hashPerBlockBits)
  root_length : v.rootDigest.length = v.digestAlgo.length

end Verity

theorem verityMeasure_ok {digestLen : Nat} {hdev hdev' : DmCdev} (hLen : 0 < digestLen)
    (hHalf : digestLen * 2 ≤ 2 ^ hdev.bits)
    (h : verityMeasure num digestLen hdev = .ok (bits, starts, hdev')) :
    0 < bits ∧ digestLen * 2 ^ bits ≤ 2 ^ hdev.bits ∧ hdev'.bits = hdev.bits ∧
    num ≤ 2 ^ (starts.length * bits) ∧
      starts = (List.range starts.length).map (fun i => ∑ j ∈ Ico (i + 1) starts.length,
        levelSize num bits j) ∧
      hdev'.num = ∑ j ∈ range starts.length, levelSize num bits j := by
  have hQuot : 2 ≤ 2 ^ hdev.bits / digestLen := (Nat.le_div_iff_mul_le hLen).mpr (by omega)
  have hPos : 0 < Nat.log2 (2 ^ hdev.bits / digestLen) := (le_log2 (by omega)).mpr hQuot
  have hSlots : digestLen * 2 ^ Nat.log2 (2 ^ hdev.bits / digestLen) ≤ 2 ^ hdev.bits :=
    calc digestLen * 2 ^ Nat.log2 (2 ^ hdev.bits / digestLen)
      _ ≤ digestLen * (2 ^ hdev.bits / digestLen) := Nat.mul_le_mul_left _ (log2_self_le (by omega))
      _ ≤ 2 ^ hdev.bits := mul_div_le _ _
  rw [verityMeasure] at h
  generalize Nat.log2 (2 ^ hdev.bits / digestLen) = bits' at h hPos hSlots
  generalize hLevels : (if num = 0 then 0 else countLevels num bits' 64 0) = levels at h
  split at h
  · cases h
  next hMax =>
    rcases hLoop : levelStarts num bits' levels 0 [] with e | result
    · rw [hLoop] at h; cases h
    obtain ⟨starts', total⟩ := result
    rw [hLoop] at h
    dsimp only at h
    split at h
    · cases h
    injection h with h
    injection h with hBits h
    injection h with hStarts hDev
    subst hBits hStarts hDev
    have hTop : num ≤ 2 ^ (levels * bits') ∧ num ≤ 2 ^ 63 := by
      by_cases hZero : num = 0
      · grind
      rw [if_neg hZero] at hLevels
      have hEnds := countLevels_ends num bits' 64 0
      rw [hLevels] at hEnds
      have hShift : bits' * levels < 64 := by
        cases levels with
        | zero => rw [Nat.mul_zero]; decide
        | succ n =>
          rw [levelStarts] at hLoop
          split at hLoop
          · cases hLoop
          next hShift => rw [Nat.mul_comm]; omega
      have hSmall : (num - 1) >>> (bits' * levels) = 0 := by
        rcases hEnds with hEnds | hEnds | hEnds
        · omega
        · exact hEnds
        · have : 1 * levels ≤ bits' * levels := Nat.mul_le_mul_right _ hPos
          omega
      rw [shiftRight_eq_div_pow, div_eq_zero_iff_lt (Nat.two_pow_pos _), Nat.mul_comm] at hSmall
      have hPow : 2 ^ (levels * bits') ≤ 2 ^ 63 :=
        Nat.pow_le_pow_right (by omega) (by rw [Nat.mul_comm]; omega)
      exact ⟨by omega, by omega⟩
    obtain ⟨hList, hTotal⟩ := levelStarts_ok hTop.2 (Nat.two_pow_pos 64) hLoop
    have hLength : starts'.length = levels := by rw [hList]; simp
    rw [hLength]
    refine ⟨hPos, hSlots, rfl, hTop.1, ?_, by simp [hTotal]⟩
    simp [hList]

variable {v : Verity}

theorem verityCreate_ok (h : verityCreate args = .ok v) :
    dmCdevOpen args.dataSize 0 args.numBlocks args.dataBlockSize = .ok v.ddev ∧
      v.digestAlgo = args.digestAlgo ∧ v.rootDigest.length = v.digestAlgo.length ∧
      ∃ hdev, v.digestAlgo.length * 2 ≤ 2 ^ hdev.bits ∧
        verityMeasure v.dataBlocks v.digestAlgo.length hdev =
        .ok (v.hashPerBlockBits, v.hashLevelBlock, v.hdev) := by
  rw [verityCreate] at h
  rcases hData : dmCdevOpen args.dataSize 0 args.numBlocks args.dataBlockSize with e | ddev
  · rw [hData] at h; cases h
  rw [hData] at h
  rcases hHash : dmCdevOpen args.hashSize args.hashStart 0 args.hashBlockSize with e | hdev
  · rw [hHash] at h; cases h
  rw [hHash] at h
  rcases hdev with _ | hdev
  · cases h
  dsimp only at h
  split at h
  · cases h
  next hHalf =>
    split at h
    · cases h
    next hRoot =>
      cases hMeasure : verityMeasure (ddev.elim 0 DmCdev.num) args.digestAlgo.length hdev with
      | error e => rw [hMeasure] at h; cases h
      | ok result =>
        rw [hMeasure] at h
        injection h with h
        subst h
        exact ⟨rfl, rfl, not_not.mp hRoot, hdev, not_lt.mp hHalf, hMeasure⟩

theorem verityCreate_laid (h : verityCreate args = .ok v) : v.Laid := by
  obtain ⟨-, -, hRoot, hdev, hHalf, hMeasure⟩ := verityCreate_ok h
  obtain ⟨hPos, hSlots, hBits, hTop, hStarts, hNum⟩ :=
    verityMeasure_ok v.digestAlgo.length_pos hHalf hMeasure
  refine ⟨hPos, by rw [hBits]; exact hSlots, fun l hl => ?_, hNum, hTop, hRoot⟩
  have hGet : v.hashLevelBlock[l]? = some (∑ j ∈ Ico (l + 1) v.levels,
      levelSize v.dataBlocks v.hashPerBlockBits j) := by
    rw [hStarts, List.getElem?_map, List.getElem?_range (show l < v.hashLevelBlock.length from hl)]
    rfl
  simp [hGet]

namespace Verity
variable {v : Verity}

theorem positionAtLevel_zero (dblock : Nat) : v.positionAtLevel dblock 0 = dblock := by
  simp [positionAtLevel]

variable (dblock l : Nat)

theorem positionAtLevel_eq : v.positionAtLevel dblock l = dblock / 2 ^ (l * v.hashPerBlockBits) :=
  shiftRight_eq_div_pow _ _

theorem positionAtLevel_succ :
    v.positionAtLevel dblock (l + 1) = v.positionAtLevel dblock l / 2 ^ v.hashPerBlockBits := by
  rw [positionAtLevel_eq, positionAtLevel_eq, Nat.div_div_eq_div_mul, ← Nat.pow_add]
  congr 2
  ring

theorem hblockAtLevel_eq :
    v.hblockAtLevel dblock l = v.hashLevelBlock.getD l 0 + v.positionAtLevel dblock (l + 1) := by
  rw [hblockAtLevel, positionAtLevel_succ, shiftRight_eq_div_pow]

theorem indexAtLevel_eq :
    v.indexAtLevel dblock l = v.positionAtLevel dblock l % 2 ^ v.hashPerBlockBits :=
  and_two_pow_sub_one_eq_mod _ _

theorem positionAtLevel_lt {dblock : Nat} (h : dblock < v.dataBlocks) (l : Nat) :
    v.positionAtLevel dblock (l + 1) < levelSize v.dataBlocks v.hashPerBlockBits l := by
  rw [positionAtLevel_eq]
  exact div_lt_levelSize h _ _

namespace Laid
variable (hv : v.Laid)
include hv
variable {l l' dblock : Nat}

theorem start_add_le (hl : l < v.levels) (hl' : l' < v.levels) (hLt : l < l') :
    v.hashLevelBlock.getD l' 0 + levelSize v.dataBlocks v.hashPerBlockBits l' ≤
    v.hashLevelBlock.getD l 0 := by
  rw [hv.start l hl, hv.start l' hl', Nat.add_comm, ← sum_eq_sum_Ico_succ_bot hl']
  refine sum_le_sum_of_subset ?_
  exact Ico_subset_Ico_left hLt

theorem start_add_le_hnum (hl : l < v.levels) :
    v.hashLevelBlock.getD l 0 + levelSize v.dataBlocks v.hashPerBlockBits l ≤ v.hdev.num := by
  rw [hv.start l hl, hv.hnum, Nat.add_comm, ← sum_eq_sum_Ico_succ_bot hl, range_eq_Ico]
  refine sum_le_sum_of_subset ?_
  exact Ico_subset_Ico_left (Nat.zero_le l)

theorem hblockAtLevel_lt (h : dblock < v.dataBlocks) (hl : l < v.levels) :
    v.hblockAtLevel dblock l < v.hdev.num := by
  have hPos := positionAtLevel_lt h l
  have hEnd := hv.start_add_le_hnum hl
  rw [hblockAtLevel_eq]
  omega

theorem hblockAtLevel_inj {dblock' : Nat} (h : dblock < v.dataBlocks) (h' : dblock' < v.dataBlocks)
    (hl : l < v.levels) (hl' : l' < v.levels)
    (hEq : v.hblockAtLevel dblock l = v.hblockAtLevel dblock' l') :
    l = l' ∧ v.positionAtLevel dblock (l + 1) = v.positionAtLevel dblock' (l + 1) := by
  have hPos := positionAtLevel_lt h l
  have hPos' := positionAtLevel_lt h' l'
  rw [hblockAtLevel_eq, hblockAtLevel_eq] at hEq
  rcases Nat.lt_trichotomy l l' with hLt | rfl | hLt
  · have hApart := hv.start_add_le hl hl' hLt
    omega
  · exact ⟨rfl, by omega⟩
  · have hApart := hv.start_add_le hl' hl hLt
    omega

end Laid

theorem digits_succ (dblock l n : Nat) :
    HashPath.digits (2 ^ v.hashPerBlockBits) (n + 1) (v.positionAtLevel dblock l) =
      v.indexAtLevel dblock l :: HashPath.digits (2 ^ v.hashPerBlockBits) n
        (v.positionAtLevel dblock (l + 1)) := by
  rw [HashPath.digits, indexAtLevel_eq, positionAtLevel_succ]

end Verity

theorem markAsTrusted_length (v : Verity) (dblock level : Nat) (trusted : List Bool) :
    (markAsTrusted v dblock level trusted).length = trusted.length := by
  induction level generalizing trusted with
  | zero => rfl
  | succ level ih => rw [markAsTrusted, ih, List.length_set]

theorem markAsTrusted_get {level h : Nat} {trusted : List Bool}
    (hMarked : (markAsTrusted v dblock level trusted)[h]? = some true) :
    trusted[h]? = some true ∨ ∃ l < level, v.hblockAtLevel dblock l = h := by
  induction level generalizing trusted with
  | zero => exact .inl hMarked
  | succ level ih =>
    rcases ih hMarked with hOld | ⟨l, hl, rfl⟩
    · by_cases hEq : v.hblockAtLevel dblock level = h
      · exact .inr ⟨level, lt_succ_self _, hEq⟩
      · grind
    · exact .inr ⟨l, by omega, rfl⟩

theorem DmCdev.mask_succ (c : DmCdev) : c.mask + 1 = 2 ^ (c.bits - sectorShift) :=
  Nat.sub_add_cancel (Nat.two_pow_pos _)

theorem preBlocks_eq (c : DmCdev) (block : Nat) :
    preBlocks c block = block % 2 ^ (c.bits - sectorShift) :=
  and_two_pow_sub_one_eq_mod _ _

theorem firstBlock_eq (c : DmCdev) (block : Nat) :
    firstBlock c block = block / 2 ^ (c.bits - sectorShift) := by
  rw [firstBlock, preBlocks_eq, shiftRight_eq_div_pow]
  exact div_eq_sub_mod_div.symm

theorem blockCount_covers (c : DmCdev) (block num : Nat) :
    preBlocks c block + num ≤ blockCount c block num * 2 ^ (c.bits - sectorShift) ∧
      blockCount c block num * 2 ^ (c.bits - sectorShift) <
      preBlocks c block + num + 2 ^ (c.bits - sectorShift) := by
  have hPost : postBlocks c block num = if (preBlocks c block + num) % 2 ^
      (c.bits - sectorShift) = 0 then 0
      else 2 ^ (c.bits - sectorShift) - (preBlocks c block + num) % 2 ^ (c.bits - sectorShift) := by
    rw [postBlocks, c.mask_succ, DmCdev.mask, and_two_pow_sub_one_eq_mod]
  rw [blockCount, hPost, shiftRight_eq_div_pow]
  have hm : 0 < 2 ^ (c.bits - sectorShift) := Nat.two_pow_pos _
  generalize 2 ^ (c.bits - sectorShift) = m at hm
  generalize preBlocks c block + num = x
  have hParts := div_add_mod x m
  have hMod := mod_lt x hm
  split
  next hZero =>
    simp [Nat.mul_comm]
    omega
  next hZero =>
    have hWhole : x + (m - x % m) = m * (x / m + 1) := by
      simp [Nat.mul_add]
      omega
    rw [hWhole, Nat.mul_div_cancel_left _ hm, Nat.mul_comm, Nat.mul_add, Nat.mul_one]
    omega

def Verity.InRange (v : Verity) (block num : Nat) : Prop :=
  ∀ c ∈ v.ddev, block + num ≤ c.num * 2 ^ (c.bits - sectorShift)

theorem blocks_in_range {c : DmCdev} {block : Nat} (hDev : v.ddev = some c)
    (h : v.InRange block num) :
    firstBlock c block + blockCount c block num ≤ v.dataBlocks := by
  have hEnd := h c hDev
  obtain ⟨-, hCount⟩ := blockCount_covers c block num
  have hParts := div_add_mod block (2 ^ (c.bits - sectorShift))
  rw [preBlocks_eq] at hCount
  rw [firstBlock_eq, Verity.dataBlocks, hDev, Option.elim_some]
  generalize 2 ^ (c.bits - sectorShift) = m at *
  have hMul : (block / m + blockCount c block num) * m < (c.num + 1) * m := by
    simp [Nat.add_mul, Nat.mul_comm (block / m)]
    omega
  exact Nat.lt_succ_iff.mp (Nat.lt_of_mul_lt_mul_right hMul)

end Barebox.Dm
