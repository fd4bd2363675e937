import Mathlib.Data.List.Basic
import Mathlib.Tactic.Ring

/-! Tests for overlapping ranges, `include/range.h`, in 64 bits. -/
namespace Barebox.Lib

def regionOverlapEndInclusive (starta enda startb endb : UInt64) : Bool :=
  if enda < startb then false else if endb < starta then false else true

def regionOverlapEndExclusive (starta enda startb endb : UInt64) : Bool :=
  if starta ≤ enda - 1 ∧ startb ≤ endb - 1 then
    regionOverlapEndInclusive starta (enda - 1) startb (endb - 1)
  else false

def regionOverlapSize (starta lena startb lenb : UInt64) : Bool :=
  if lena = 0 ∨ lenb = 0 then false
  else regionOverlapEndExclusive starta (starta + lena) startb (startb + lenb)

def regionIdentical (starta extenta startb extentb : UInt64) : Bool :=
  starta = startb ∧ extenta = extentb

theorem regionOverlapSize_iff {a la b lb : UInt64} (ha : 0 < la.toNat) (hb : 0 < lb.toNat)
    (hEndA : a.toNat + la.toNat < 2 ^ 64) (hEndB : b.toNat + lb.toNat < 2 ^ 64) :
    regionOverlapSize a la b lb = true ↔ a.toNat < b.toNat + lb.toNat ∧
    b.toNat < a.toNat + la.toNat := by
  have hA : (a + la - 1).toNat = a.toNat + la.toNat - 1 := by
    rw [UInt64.toNat_sub_of_le, UInt64.toNat_add, Nat.mod_eq_of_lt hEndA]
    · rfl
    · grind [UInt64.le_iff_toNat_le, UInt64.toNat_add]
  have hB : (b + lb - 1).toNat = b.toNat + lb.toNat - 1 := by
    rw [UInt64.toNat_sub_of_le, UInt64.toNat_add, Nat.mod_eq_of_lt hEndB]
    · rfl
    · grind [UInt64.le_iff_toNat_le, UInt64.toNat_add]
  have hNonzero : ¬(la = 0 ∨ lb = 0) := by
    rintro (rfl | rfl)
    · exact absurd ha (by decide)
    · exact absurd hb (by decide)
  have hOrder : a ≤ a + la - 1 ∧ b ≤ b + lb - 1 := by
    simp [UInt64.le_iff_toNat_le]
    omega
  rw [regionOverlapSize, if_neg hNonzero, regionOverlapEndExclusive,
    if_pos hOrder, regionOverlapEndInclusive]
  simp only [UInt64.lt_iff_toNat_lt, hA, hB]
  split_ifs <;> simp <;> omega

end Barebox.Lib
