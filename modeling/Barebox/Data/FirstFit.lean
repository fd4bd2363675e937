import Barebox.Data.Rounding

/-! Places for an extent among extents that are taken, at multiples of an alignment. -/
namespace FirstFit
open Rounding

structure Extent where
  start : Nat
  size : Nat

/-- Nothing that is taken lies in the `size` units from `start` on. -/
def Free (taken : List Extent) (size start : Nat) : Prop :=
  ∀ e ∈ taken, 0 < e.size → e.start + e.size ≤ start ∨ start + size ≤ e.start

def places (taken : List Extent) (align least : Nat) : List Nat :=
  least :: taken.map fun e => roundUp (e.start + e.size) align

variable {taken : List Extent}

theorem free_before {align size start : Nat} (hAlign : 0 < align) (hDvd : align ∣ start + align)
    (hFree : Free taken size (start + align)) (hNot : ¬ Free taken size start) :
    ∃ e ∈ taken, roundUp (e.start + e.size) align = start + align := by
  obtain ⟨e, hNot⟩ := not_forall.mp hNot
  obtain ⟨he, hNot⟩ := Classical.not_imp.mp hNot
  obtain ⟨hSize, hNot⟩ := Classical.not_imp.mp hNot
  refine ⟨e, he, (roundUp_eq_iff hAlign).mpr ⟨hDvd, ?_⟩⟩
  rcases hFree e he hSize with hEnd | hBegin
  · omega
  · omega

/-- If there is a free place from `least` on then one of the places of the search is free, and it
does not come later. -/
theorem exists_place {align least size : Nat} (hAlign : 0 < align) (hLeast : align ∣ least) :
    ∀ {start : Nat}, align ∣ start → least ≤ start → Free taken size start →
      ∃ c ∈ places taken align least, least ≤ c ∧ c ≤ start ∧ Free taken size c := by
  intro start
  induction start using Nat.strong_induction_on with
  | _ start ih =>
    intro hDvd hLe hFree
    by_cases hSame : start = least
    · exact ⟨least, .head _, le_rfl, hLe, by rw [← hSame]; exact hFree⟩
    -- the place one step before is still one from `least` on
    have hStep : least + align ≤ start := by
      obtain ⟨k, hk⟩ := Nat.dvd_sub hDvd hLeast
      have hPos : k ≠ 0 := by
        rintro rfl
        omega
      have hMul : align * 1 ≤ align * k := Nat.mul_le_mul_left _ (Nat.one_le_iff_ne_zero.mpr hPos)
      omega
    obtain ⟨before, rfl⟩ : ∃ before, start = before + align := ⟨start - align, by omega⟩
    by_cases hBefore : Free taken size before
    · have hDvd' : align ∣ before := (Nat.dvd_add_left (Nat.dvd_refl align)).mp hDvd
      obtain ⟨c, hc, hLow, hHigh, hFreeC⟩ := ih before (by omega) hDvd' (by omega) hBefore
      exact ⟨c, hc, hLow, by omega, hFreeC⟩
    · obtain ⟨e, he, hUp⟩ := free_before hAlign hDvd hFree hBefore
      refine ⟨before + align, .tail _ (List.mem_map.mpr ⟨e, he, hUp⟩), hLe, le_rfl, hFree⟩

end FirstFit
