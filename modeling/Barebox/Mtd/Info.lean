import Barebox.Data.Rounding
import Barebox.Errno

/-! `struct mtd_info` as far as erase blocks go. Blocks have one size, or the device is divided
into regions with block sizes of their own. A device of the second kind has no bad blocks: only
NOR flash is described with regions. -/
namespace Barebox.Mtd
open Rounding

structure EraseRegion where
  offset : Nat
  erasesize : Nat
  numblocks : Nat
  deriving DecidableEq

def EraseRegion.stop (e : EraseRegion) : Nat := e.offset + e.erasesize * e.numblocks

def Consecutive : Nat → Nat → List EraseRegion → Prop
  | start, stop, [] => start = stop
  | start, stop, e :: rest =>
    e.offset = start ∧ 0 < e.erasesize ∧ 0 < e.numblocks ∧ Consecutive e.stop stop rest

/-- `struct mtd_info`: a bad block is told by its first address. Whether bad blocks may be erased
is `allow_erasebad` of the device or of its parent. -/
structure MtdInfo where
  size : Nat
  erasesize : Nat
  eraseregions : List EraseRegion
  blockIsbad : Option (Nat → Bool)
  allowErasebad : Bool
  erasesize_pos : 0 < erasesize
  uniform : eraseregions = [] → erasesize ∣ size
  consecutive : eraseregions ≠ [] → Consecutive 0 size eraseregions
  regions_good : eraseregions ≠ [] → blockIsbad = none

/-- `mtd_block_isbad`, for an address inside the device. -/
def mtdBlockIsbad (mtd : MtdInfo) (ofs : Nat) : Bool :=
  match mtd.blockIsbad with
  | none => false
  | some isbad => isbad ofs

def regionOf (regions : List EraseRegion) (a : Nat) : Option EraseRegion :=
  regions.find? fun e => a < e.stop

namespace MtdInfo
variable (mtd : MtdInfo)

def blockSize (a : Nat) : Nat :=
  match regionOf mtd.eraseregions a with
  | none => mtd.erasesize
  | some e => e.erasesize

def blockStart (a : Nat) : Nat :=
  match regionOf mtd.eraseregions a with
  | none => roundDown a mtd.erasesize
  | some e => e.offset + roundDown (a - e.offset) e.erasesize

def blockEnd (a : Nat) : Nat := mtd.blockStart a + mtd.blockSize a

def Covered (count offset a : Nat) : Prop :=
  ∃ x, offset ≤ x ∧ x < offset + count ∧ mtd.blockStart x ≤ a ∧ a < mtd.blockEnd x ∧
    mtdBlockIsbad mtd (mtd.blockStart x) = false

end MtdInfo

variable {start stop a : Nat} {regions : List EraseRegion} {e : EraseRegion}

theorem Consecutive.start_le (h : Consecutive start stop regions) : start ≤ stop := by
  induction regions generalizing start with
  | nil => exact h.le
  | cons e rest ih =>
    obtain ⟨hStart, -, -, hRest⟩ := h
    have hLe := ih hRest
    grind [EraseRegion.stop]

theorem regionOf_head (h : a < e.stop) (rest : List EraseRegion) :
    regionOf (e :: rest) a = some e := List.find?_cons_of_pos (decide_eq_true h)

theorem regionOf_tail (h : ¬a < e.stop) (rest : List EraseRegion) :
    regionOf (e :: rest) a = regionOf rest a := List.find?_cons_of_neg (by simpa using h)

theorem EraseRegion.block_le (hLow : e.offset ≤ a) (hHigh : a < e.stop) :
    e.offset + roundDown (a - e.offset) e.erasesize + e.erasesize ≤ e.stop := by
  obtain ⟨k, hk⟩ := dvd_roundDown (a - e.offset) e.erasesize
  have hDown := roundDown_le (a - e.offset) e.erasesize
  rw [EraseRegion.stop] at hHigh ⊢
  have hLt : k < e.numblocks := Nat.lt_of_mul_lt_mul_left (a := e.erasesize) (by omega)
  have hMul : e.erasesize * (k + 1) ≤ e.erasesize * e.numblocks := Nat.mul_le_mul_left _ hLt
  grind

variable (h : Consecutive start stop regions)
include h

/-- Consecutive regions cover the device. -/
theorem regionOf_spec (hLow : start ≤ a) (hHigh : a < stop) :
    ∃ e, regionOf regions a = some e ∧ e.offset ≤ a ∧ a < e.stop ∧
    e.stop ≤ stop ∧ 0 < e.erasesize := by
  induction regions generalizing start with
  | nil =>
    have hEq : start = stop := h
    omega
  | cons e rest ih =>
    obtain ⟨hStart, hPos, -, hRest⟩ := h
    by_cases hIn : a < e.stop
    · exact ⟨e, regionOf_head hIn rest, by omega, hIn, hRest.start_le, hPos⟩
    · obtain ⟨e', hFind, hRest'⟩ := ih hRest (by omega)
      exact ⟨e', (regionOf_tail hIn rest).trans hFind, hRest'⟩

theorem regionOf_offset (hFind : regionOf regions a = some e) : start ≤ e.offset := by
  induction regions generalizing start with
  | nil => cases hFind
  | cons first rest ih =>
    obtain ⟨hStart, -, -, hRest⟩ := h
    by_cases hIn : a < first.stop
    · rw [regionOf_head hIn] at hFind
      cases hFind
      exact hStart.ge
    · rw [regionOf_tail hIn] at hFind
      have hLe := ih hRest hFind
      grind [EraseRegion.stop]

theorem regionOf_cases {x y : Nat} (hLow : start ≤ x) (hxy : x ≤ y) (hHigh : y < stop) :
    ∃ e e', regionOf regions x = some e ∧ regionOf regions y = some e' ∧
    ((e = e' ∧ 0 < e.erasesize ∧ e.offset ≤ x) ∨
        (e.offset + roundDown (x - e.offset) e.erasesize + e.erasesize ≤ e'.offset)) := by
  induction regions generalizing start with
  | nil =>
    have hEq : start = stop := h
    omega
  | cons e rest ih =>
    obtain ⟨hStart, hPos, hBlocks, hRest⟩ := h
    by_cases hx : x < e.stop
    · by_cases hy : y < e.stop
      · exact ⟨e, e, regionOf_head hx rest, regionOf_head hy rest, .inl ⟨rfl, hPos, by omega⟩⟩
      · obtain ⟨e', hFind, -⟩ := regionOf_spec hRest (by omega : e.stop ≤ y) hHigh
        exact ⟨e, e', regionOf_head hx rest, (regionOf_tail hy rest).trans hFind,
          .inr ((EraseRegion.block_le (by omega) hx).trans (regionOf_offset hRest hFind))⟩
    · obtain ⟨e₁, e₂, hFind, hFind', hCase⟩ := ih hRest (by omega)
      exact ⟨e₁, e₂, (regionOf_tail hx rest).trans hFind,
        (regionOf_tail (by omega : ¬y < e.stop) rest).trans hFind', hCase⟩

omit h

namespace MtdInfo
variable {mtd : MtdInfo}

theorem regionOf_uniform (h : mtd.eraseregions = []) (a : Nat) :
    regionOf mtd.eraseregions a = none := by
  rw [h]
  rfl

theorem blockStart_uniform (h : mtd.eraseregions = []) (a : Nat) :
    mtd.blockStart a = roundDown a mtd.erasesize := by
  rw [blockStart, regionOf_uniform h]

theorem blockEnd_uniform (h : mtd.eraseregions = []) (a : Nat) :
    mtd.blockEnd a = roundDown a mtd.erasesize + mtd.erasesize := by
  rw [blockEnd, blockStart_uniform h, blockSize, regionOf_uniform h]

variable {a x count offset : Nat}

theorem block_spec (h : a < mtd.size) :
    mtd.blockStart a ≤ a ∧ a < mtd.blockEnd a ∧ mtd.blockEnd a ≤ mtd.size := by
  by_cases hUniform : mtd.eraseregions = []
  · rw [blockStart_uniform hUniform, blockEnd_uniform hUniform]
    have hPos := mtd.erasesize_pos
    obtain ⟨n, hn⟩ := mtd.uniform hUniform
    obtain ⟨k, hk⟩ := dvd_roundDown a mtd.erasesize
    have hLow := roundDown_le a mtd.erasesize
    have hHigh := lt_roundDown_add (n := a) hPos
    refine ⟨hLow, hHigh, ?_⟩
    rw [hk] at hLow ⊢
    rw [hn] at h ⊢
    have hLt : k < n := Nat.lt_of_mul_lt_mul_left (a := mtd.erasesize) (by omega)
    exact Nat.mul_le_mul_left _ hLt
  · obtain ⟨e, hFind, hLow, hHigh, hStop, hPos⟩ :=
      regionOf_spec (mtd.consecutive hUniform) (Nat.zero_le a) h
    rw [blockEnd, blockStart, blockSize, hFind]
    have hDown := roundDown_le (a - e.offset) e.erasesize
    have hUp := lt_roundDown_add (n := a - e.offset) hPos
    dsimp only
    exact ⟨by omega, by omega, (EraseRegion.block_le hLow hHigh).trans hStop⟩

theorem block_cases {y : Nat} (h : x ≤ y) (hy : y < mtd.size) :
    (mtd.blockStart x = mtd.blockStart y ∧ mtd.blockEnd x = mtd.blockEnd y) ∨
    mtd.blockEnd x ≤ mtd.blockStart y := by
  by_cases hUniform : mtd.eraseregions = []
  · simp only [blockStart_uniform hUniform, blockEnd_uniform hUniform]
    rcases roundDown_cases mtd.erasesize_pos h with hSame | hApart
    · exact .inl ⟨hSame, by rw [hSame]⟩
    · exact .inr hApart
  obtain ⟨e, e', hFind, hFind', hCase⟩ :=
    regionOf_cases (mtd.consecutive hUniform) (Nat.zero_le x) h hy
  rw [blockEnd, blockEnd, blockStart, blockStart, blockSize, blockSize, hFind, hFind']
  dsimp only
  rcases hCase with ⟨rfl, hPos, hLow⟩ | hApart
  · rcases roundDown_cases hPos (Nat.sub_le_sub_right h e.offset) with hSame | hLess
    · exact .inl ⟨by rw [hSame], by rw [hSame]⟩
    · exact .inr (by omega)
  · exact .inr (by omega)

theorem block_same (hx : x < mtd.size) (hLow : mtd.blockStart x ≤ a) (hHigh : a < mtd.blockEnd x) :
    mtd.blockStart a = mtd.blockStart x ∧ mtd.blockEnd a = mtd.blockEnd x := by
  obtain ⟨-, -, hEnd⟩ := mtd.block_spec hx
  have ha := mtd.block_spec (Nat.lt_of_lt_of_le hHigh hEnd)
  rcases Nat.le_total x a with hLe | hLe
  · rcases mtd.block_cases hLe (by omega) with hSame | hApart
    · exact ⟨hSame.1.symm, hSame.2.symm⟩
    · omega
  · rcases mtd.block_cases hLe hx with hSame | hApart
    · exact hSame
    · omega

variable (hCount : 0 < count) (hIn : offset + count ≤ mtd.size) (a : Nat)
include hCount hIn

/-- The blocks that overlap a range lie between the start of its first block and the end of its
last one. -/
theorem overlap_iff :
    (∃ x, offset ≤ x ∧ x < offset + count ∧ mtd.blockStart x ≤ a ∧ a < mtd.blockEnd x) ↔
      mtd.blockStart offset ≤ a ∧ a < mtd.blockEnd (offset + count - 1) := by
  obtain ⟨hFirst, hFirstEnd, -⟩ := mtd.block_spec (by omega : offset < mtd.size)
  obtain ⟨hLast, hLastEnd, hSize⟩ := mtd.block_spec (by omega : offset + count - 1 < mtd.size)
  constructor
  · rintro ⟨x, hLow, hHigh, hStart, hEnd⟩
    refine ⟨?_, ?_⟩
    · rcases mtd.block_cases hLow (by omega) with hSame | hApart <;> omega
    · rcases mtd.block_cases (by omega : x ≤ offset + count - 1)
          (by omega) with hSame | hApart <;> omega
  rintro ⟨hLow, hHigh⟩
  obtain ⟨haLow, haHigh, -⟩ := mtd.block_spec (by omega : a < mtd.size)
  rcases Nat.lt_or_ge a offset with hBefore | hFrom
  · exact ⟨offset, by omega, by omega, hLow, by omega⟩
  · rcases Nat.lt_or_ge a (offset + count) with hInside | hBehind
    · exact ⟨a, hFrom, hInside, haLow, haHigh⟩
    · exact ⟨offset + count - 1, by omega, by omega, by omega, hHigh⟩

theorem covered_iff :
    mtd.Covered count offset a ↔ mtd.blockStart offset ≤ a ∧ a < mtd.blockEnd (offset + count - 1) ∧
      mtdBlockIsbad mtd (mtd.blockStart a) = false := by
  rw [← and_assoc, ← overlap_iff hCount hIn]
  constructor
  · rintro ⟨x, hLow, hHigh, hStart, hEnd, hGood⟩
    refine ⟨⟨x, hLow, hHigh, hStart, hEnd⟩, ?_⟩
    rw [(block_same (by omega) hStart hEnd).1]
    exact hGood
  · rintro ⟨⟨x, hLow, hHigh, hStart, hEnd⟩, hGood⟩
    rw [(block_same (by omega) hStart hEnd).1] at hGood
    exact ⟨x, hLow, hHigh, hStart, hEnd, hGood⟩

omit hCount hIn

theorem not_covered_empty (offset a : Nat) : ¬mtd.Covered 0 offset a := by
  rintro ⟨x, hLow, hHigh, -⟩
  omega

end MtdInfo

def goodFrom (mtd : MtdInfo) (k n : Nat) : List Nat :=
  ((List.range' k n).map (mtd.erasesize * ·)).filter fun addr => mtdBlockIsbad mtd addr = false

def goodBlocks (mtd : MtdInfo) : List Nat := goodFrom mtd 0 (mtd.size / mtd.erasesize)

theorem goodFrom_succ (mtd : MtdInfo) (k n : Nat) : goodFrom mtd k (n + 1) =
    if mtdBlockIsbad mtd (mtd.erasesize * k) = false then
      mtd.erasesize * k :: goodFrom mtd (k + 1) n
    else goodFrom mtd (k + 1) n := by simp [goodFrom, List.range'_succ, List.filter_cons]

end Barebox.Mtd
