import Barebox.Mtd.Info

/-! The bad block aware device as one array: the good blocks one after the other, and which
address of the flash stands for a position in them. -/
namespace Barebox.Mtd
open Bytes Rounding List Nat
variable {mtd : MtdInfo} {raw : List UInt8}

theorem goodFrom_append (mtd : MtdInfo) (k m n : Nat) :
    goodFrom mtd k (m + n) = goodFrom mtd k m ++ goodFrom mtd (k + m) n := by
  grind [goodFrom, range'_append_1]

def blocksContent (mtd : MtdInfo) (raw : List UInt8) (blocks : List Nat) : List UInt8 :=
  blocks.flatMap fun addr => slice addr mtd.erasesize raw

def goodContent (mtd : MtdInfo) (raw : List UInt8) : List UInt8 :=
  blocksContent mtd raw (goodBlocks mtd)

/-- The size of the device: `nand_bb_calc_size`. -/
def goodSize (mtd : MtdInfo) : Nat := mtd.erasesize * (goodBlocks mtd).length

theorem goodSize_le (mtd : MtdInfo) : goodSize mtd ≤ mtd.size := by
  have hBlocks : (goodBlocks mtd).length ≤ mtd.size / mtd.erasesize := by
    refine (length_filter_le _ _).trans ?_
    simp
  exact (mul_le_mul_left _ hBlocks).trans (mul_div_le _ _)

theorem goodSize_of_good {mtd : MtdInfo} (hUniform : mtd.eraseregions = [])
    (h : ∀ a, mtdBlockIsbad mtd a = false) :
    goodSize mtd = mtd.size := by
  have hAll (n : Nat) : (goodFrom mtd 0 n).length = n := by
    rw [goodFrom, filter_eq_self.mpr fun a _ => decide_eq_true (h a), length_map, length_range']
  rw [goodSize, goodBlocks, hAll, Nat.mul_div_cancel' (mtd.uniform hUniform)]

def goodBelow (mtd : MtdInfo) (k : Nat) : Nat := (goodFrom mtd 0 k).length

/-- An address of the flash stands for a position: it is the start of a block, good or bad, or
lies inside of a good one. -/
inductive At (mtd : MtdInfo) : Nat → Nat → Prop where
  | start {k : Nat} (hIn : mtd.erasesize * k ≤ mtd.size) :
      At mtd (mtd.erasesize * k) (mtd.erasesize * goodBelow mtd k)
  | inside {k j : Nat} (hIn : mtd.erasesize * k < mtd.size) (hj : j < mtd.erasesize)
      (hGood : mtdBlockIsbad mtd (mtd.erasesize * k) = false) :
      At mtd (mtd.erasesize * k + j) (mtd.erasesize * goodBelow mtd k + j)

theorem goodBelow_succ (mtd : MtdInfo) (k : Nat) : goodBelow mtd (k + 1) =
    goodBelow mtd k + if mtdBlockIsbad mtd (mtd.erasesize * k) = false then 1 else 0 := by
  have hOne : goodFrom mtd k 1 = if mtdBlockIsbad mtd (mtd.erasesize * k) = false then
      [mtd.erasesize * k] else [] := by
    rw [goodFrom_succ]
    rfl
  rw [goodBelow, goodFrom_append, length_append, zero_add, hOne, goodBelow]
  split <;> rfl

variable {k n addr j : Nat}

theorem goodFrom_mem (h : addr ∈ goodFrom mtd k n) :
    ∃ i, k ≤ i ∧ i < k + n ∧ addr = mtd.erasesize * i ∧ mtdBlockIsbad mtd addr = false := by
  obtain ⟨hMem, hGood⟩ := mem_filter.mp h
  obtain ⟨i, hi, rfl⟩ := mem_map.mp hMem
  obtain ⟨hLow, hHigh⟩ := mem_range'_1.mp hi
  exact ⟨i, hLow, hHigh, rfl, of_decide_eq_true hGood⟩

/-- `mtd_block_isbad` for an address anywhere in a block. -/
def blockBad (mtd : MtdInfo) (r : Nat) : Bool := mtdBlockIsbad mtd (roundDown r mtd.erasesize)

theorem block_in (hUniform : mtd.eraseregions = []) (h : mtd.erasesize * k < mtd.size) :
    mtd.erasesize * (k + 1) ≤ mtd.size := by
  obtain ⟨n, hn⟩ := mtd.uniform hUniform
  rw [hn] at h ⊢
  exact Nat.mul_le_mul_left _ (Nat.lt_of_mul_lt_mul_left h)

namespace At
variable {r p : Nat}

theorem blockBad_eq {k j : Nat} (hj : j < mtd.erasesize) :
    blockBad mtd (mtd.erasesize * k + j) = mtdBlockIsbad mtd (mtd.erasesize * k) := by
  rw [blockBad, (roundDown_eq_iff mtd.erasesize_pos).mpr
    ⟨Nat.dvd_mul_right _ _, Nat.le_add_right _ _, Nat.add_lt_add_left hj _⟩]

/-- A bad block is only met at its start, and the next one stands for the same position. -/
theorem skip (hUniform : mtd.eraseregions = []) (h : At mtd r p)
    (hIn : r < mtd.size) (hBad : blockBad mtd r = true) :
    At mtd (r + mtd.erasesize) p := by
  cases h with
  | @start k =>
    have hBlock : mtdBlockIsbad mtd (mtd.erasesize * k) = true := by
      have hEq := blockBad_eq (k := k) mtd.erasesize_pos
      grind
    have hSame : goodBelow mtd (k + 1) = goodBelow mtd k := by simp [goodBelow_succ, hBlock]
    rw [← mul_succ, ← hSame]
    exact .start (block_in hUniform hIn)
  | inside hk hj hGood =>
    rw [blockBad_eq hj, hGood] at hBad
    cases hBad

theorem good (h : At mtd r p) (hIn : r < mtd.size) (hGood : blockBad mtd r = false) :
    ∃ k j, r = mtd.erasesize * k + j ∧ p = mtd.erasesize * goodBelow mtd k + j ∧ j < mtd.erasesize ∧
      mtd.erasesize * k < mtd.size ∧ mtdBlockIsbad mtd (mtd.erasesize * k) = false := by
  cases h with
  | @start k =>
    have hEq := blockBad_eq (k := k) mtd.erasesize_pos
    exact ⟨k, 0, rfl, rfl, mtd.erasesize_pos, hIn, by rw [← hEq]; exact hGood⟩
  | @inside k j hk hj hBlock => exact ⟨k, j, rfl, rfl, hj, hk, hBlock⟩

theorem advance (hUniform : mtd.eraseregions = []) {len : Nat} (hk : mtd.erasesize * k < mtd.size)
    (hGood : mtdBlockIsbad mtd (mtd.erasesize * k) = false) (hLen : j + len ≤ mtd.erasesize) :
    At mtd (mtd.erasesize * k + j + len) (mtd.erasesize * goodBelow mtd k + j + len) := by
  rcases lt_or_eq_of_le hLen with hLt | hEq
  · rw [add_assoc, add_assoc]
    exact .inside hk hLt hGood
  have hNext : goodBelow mtd (k + 1) = goodBelow mtd k + 1 := by simp [goodBelow_succ, hGood]
  have hStart : At mtd (mtd.erasesize * (k + 1)) (mtd.erasesize * goodBelow mtd (k + 1)) :=
    .start (block_in hUniform hk)
  grind

theorem zero (mtd : MtdInfo) : At mtd 0 0 := by
  have hStart : At mtd (mtd.erasesize * 0) (mtd.erasesize * goodBelow mtd 0) := .start (zero_le _)
  exact hStart

theorem end_eq (hUniform : mtd.eraseregions = []) (h : At mtd r p) (hEnd : mtd.size ≤ r) :
    p = goodSize mtd := by
  cases h with
  | @start k hIn =>
    have hk : mtd.size / mtd.erasesize = k := by
      rw [Nat.le_antisymm hEnd hIn, Nat.mul_div_cancel_left k mtd.erasesize_pos]
    rw [goodSize, goodBlocks, hk, goodBelow]
  | @inside k j hk hj hGood =>
    have hNext := block_in hUniform hk
    grind

end At

section Content
variable (hUniform : mtd.eraseregions = []) (hRaw : raw.length = mtd.size)

theorem blocks_le (h : mtd.erasesize * (k + n) ≤ mtd.size) (hMem : addr ∈ goodFrom mtd k n) :
    addr + mtd.erasesize ≤ mtd.size := by
  obtain ⟨i, -, hHigh, rfl, -⟩ := goodFrom_mem hMem
  exact (mul_le_mul_left _ hHigh).trans h

include hRaw

theorem blocksContent_length {blocks : List Nat}
    (h : ∀ addr ∈ blocks, addr + mtd.erasesize ≤ mtd.size) :
    (blocksContent mtd raw blocks).length = mtd.erasesize * blocks.length := by
  induction blocks with
  | nil => rfl
  | cons addr rest ih =>
    have hRest := ih fun a ha => h a (.tail _ ha)
    grind [blocksContent, slice_length_of_le]

include hUniform

theorem goodContent_length : (goodContent mtd raw).length = goodSize mtd := by
  refine blocksContent_length hRaw fun addr hMem => blocks_le ?_ hMem
  simp [Nat.mul_div_cancel' (mtd.uniform hUniform)]

theorem goodContent_split (hk : mtd.erasesize * k < mtd.size)
    (hGood : mtdBlockIsbad mtd (mtd.erasesize * k) = false) :
    ∃ m, goodContent mtd raw = blocksContent mtd raw (goodFrom mtd 0 k) ++
        (slice (mtd.erasesize * k) mtd.erasesize raw ++
          blocksContent mtd raw (goodFrom mtd (k + 1) m)) ∧
      (blocksContent mtd raw (goodFrom mtd 0 k)).length = mtd.erasesize * goodBelow mtd k ∧
      k + 1 + m = mtd.size / mtd.erasesize := by
  have hDiv : mtd.erasesize * (mtd.size / mtd.erasesize) = mtd.size :=
    Nat.mul_div_cancel' (mtd.uniform hUniform)
  have hLt : k < mtd.size / mtd.erasesize :=
    Nat.lt_of_mul_lt_mul_left (a := mtd.erasesize) (by omega)
  obtain ⟨m, hm⟩ := Nat.exists_eq_add_of_lt hLt
  have hSplit : goodBlocks mtd = goodFrom mtd 0 k ++
      (mtd.erasesize * k :: goodFrom mtd (k + 1) m) := by
    simp [goodBlocks, hm, add_assoc, goodFrom_append, goodFrom_succ, if_pos hGood]
  refine ⟨m, ?_, ?_, by omega⟩
  · simp [goodContent, hSplit, blocksContent]
  · refine blocksContent_length hRaw fun addr hMem => blocks_le ?_ hMem
    simp [hk.le]

theorem block_le_length (hk : mtd.erasesize * k < mtd.size) :
    mtd.erasesize * k + mtd.erasesize ≤ raw.length := by
  rw [hRaw, ← mul_succ]
  exact block_in hUniform hk

theorem goodContent_slice {k j len : Nat} (hk : mtd.erasesize * k < mtd.size)
    (hGood : mtdBlockIsbad mtd (mtd.erasesize * k) = false) (hIn : j + len ≤ mtd.erasesize) :
    slice (mtd.erasesize * goodBelow mtd k + j) len (goodContent mtd raw) =
    slice (mtd.erasesize * k + j) len raw := by
  obtain ⟨m, hContent, hFront, -⟩ := goodContent_split hUniform hRaw hk hGood
  have hBlock : (slice (mtd.erasesize * k) mtd.erasesize raw).length = mtd.erasesize :=
    slice_length_of_le (block_le_length hUniform hRaw hk)
  rw [hContent, ← hFront, slice_append_right, slice_append_left _ (by rw [hBlock]; exact hIn),
    slice_slice hIn]

theorem goodContent_overwrite {data : List UInt8} (hk : mtd.erasesize * k < mtd.size)
    (hGood : mtdBlockIsbad mtd (mtd.erasesize * k) = false)
    (hIn : j + data.length ≤ mtd.erasesize) :
    goodContent mtd (overwrite (mtd.erasesize * k + j) data raw) =
      overwrite (mtd.erasesize * goodBelow mtd k + j) data (goodContent mtd raw) := by
  have hLe := block_le_length hUniform hRaw hk
  have hRoom : mtd.erasesize * k + j + data.length ≤ raw.length := by omega
  have hRaw' := (overwrite_length hRoom).trans hRaw
  obtain ⟨m, hContent, hFront, hm⟩ := goodContent_split hUniform hRaw hk hGood
  obtain ⟨m', hContent', -, hm'⟩ := goodContent_split hUniform hRaw' hk hGood
  obtain rfl : m = m' := by omega
  -- the other blocks keep their content
  have hOther (k' n : Nat) (hApart : k' + n ≤ k ∨ k < k') :
      blocksContent mtd (overwrite (mtd.erasesize * k + j) data raw) (goodFrom mtd k' n) =
        blocksContent mtd raw (goodFrom mtd k' n) := by
    refine flatMap_congr fun addr hMem => ?_
    obtain ⟨i, hLow, hHigh, rfl, -⟩ := goodFrom_mem hMem
    refine slice_overwrite_of_disjoint hRoom ?_
    rcases lt_trichotomy i k with hBefore | rfl | hBehind
    · have hMul := mul_le_mul_left mtd.erasesize hBefore
      rw [mul_succ] at hMul
      omega
    · omega
    · have hMul := mul_le_mul_left mtd.erasesize hBehind
      grind
  have hBlock : (slice (mtd.erasesize * k) mtd.erasesize raw).length = mtd.erasesize :=
    slice_length_of_le hLe
  rw [hContent', hContent, hOther 0 k (.inl (by omega)), hOther (k + 1) m (.inr (by omega)),
    slice_overwrite_around hIn hLe, ← hFront, overwrite_middle (hBlock.symm ▸ hIn)]

end Content

def threeBlocks : MtdInfo where
  size := 49152
  erasesize := 16384
  eraseregions := []
  blockIsbad := some fun addr => addr = 16384
  allowErasebad := false
  erasesize_pos := by decide
  uniform := fun _ => by decide
  consecutive := fun h => absurd rfl h
  regions_good := fun h => absurd rfl h

end Barebox.Mtd
