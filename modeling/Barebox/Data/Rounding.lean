import Barebox.Data.Bytes

/-! Rounding down and up to multiples of a number. -/
namespace Rounding
open Nat

def roundDown (n a : Nat) : Nat := n - n % a

def roundUp (n a : Nat) : Nat := if n % a = 0 then n else n + a - n % a

theorem roundDown_le (n a : Nat) : roundDown n a ≤ n := sub_le _ _

variable {n a m : Nat}

theorem lt_roundDown_add (ha : 0 < a) : n < roundDown n a + a := by
  have hMod := mod_lt n ha
  unfold roundDown
  omega

theorem dvd_roundDown (n a : Nat) : a ∣ roundDown n a := dvd_sub_mod n

theorem roundDown_eq_iff (ha : 0 < a) : roundDown n a = m ↔ a ∣ m ∧ m ≤ n ∧ n < m + a := by
  constructor
  · rintro rfl
    exact ⟨dvd_roundDown n a, roundDown_le n a, lt_roundDown_add ha⟩
  rintro ⟨⟨k, rfl⟩, hLow, hHigh⟩
  obtain ⟨r, rfl⟩ := Nat.exists_eq_add_of_le hLow
  rw [roundDown, mul_add_mod, mod_eq_of_lt (by omega)]
  omega

theorem roundDown_cases (ha : 0 < a) (h : n ≤ m) :
    roundDown n a = roundDown m a ∨ roundDown n a + a ≤ roundDown m a := by
  obtain ⟨k, hk⟩ := dvd_roundDown n a
  obtain ⟨j, hj⟩ := dvd_roundDown m a
  have hLow := roundDown_le n a
  have hHigh := lt_roundDown_add (n := m) ha
  rw [hk, hj] at *
  have hLe : k < j + 1 := Nat.lt_of_mul_lt_mul_left (a := a) (by rw [mul_succ]; omega)
  rcases Nat.lt_or_eq_of_le (le_of_lt_succ hLe) with hLt | rfl
  · exact .inr (by rw [← mul_succ]; exact Nat.mul_le_mul_left a hLt)
  · exact .inl rfl

theorem roundUp_eq_iff (ha : 0 < a) : roundUp n a = m ↔ a ∣ m ∧ n ≤ m ∧ m < n + a := by
  have hMod := mod_lt n ha
  have hDiv := mod_add_div n a
  constructor
  · rintro rfl
    unfold roundUp
    split
    · exact ⟨dvd_of_mod_eq_zero (by assumption), le_rfl, by omega⟩
    · refine ⟨⟨n / a + 1, ?_⟩, by omega, by omega⟩
      rw [mul_succ]
      omega
  · rintro ⟨⟨k, rfl⟩, hLow, hHigh⟩
    unfold roundUp
    split
    · rename_i hZero
      obtain ⟨j, rfl⟩ := dvd_of_mod_eq_zero hZero
      have hSame : k < j + 1 := Nat.lt_of_mul_lt_mul_left (a := a) (by omega)
      have hLe : j ≤ k := Nat.le_of_mul_le_mul_left hLow ha
      rw [show k = j by omega]
    · have hk : n / a + 1 = k := by
        have hUp : k < n / a + 2 := Nat.lt_of_mul_lt_mul_left (a := a) (by
          rw [Nat.mul_add]
          omega)
        have hDown : n / a < k := Nat.lt_of_mul_lt_mul_left (a := a) (by omega)
        omega
      rw [← hk, mul_succ]
      omega

theorem roundUp_le_roundDown_add (n : Nat) (ha : 0 < a) : roundUp n a ≤ roundDown n a + a := by
  unfold roundUp roundDown
  split <;> omega

theorem roundDown_self (h : a ∣ n) : roundDown n a = n := by simp [roundDown, mod_eq_zero_of_dvd h]
theorem roundUp_self (h : a ∣ n) : roundUp n a = n := if_pos (mod_eq_zero_of_dvd h)

theorem roundUp_le_iff (ha : 0 < a) (hDvd : a ∣ m) : roundUp n a ≤ m ↔ n ≤ m := by
  obtain ⟨⟨k, hk⟩, hLow, hHigh⟩ := (roundUp_eq_iff (m := roundUp n a) ha).mp rfl
  refine ⟨Nat.le_trans hLow, fun h => ?_⟩
  obtain ⟨j, rfl⟩ := hDvd
  rw [hk] at hHigh ⊢
  have hLt : k < j + 1 := Nat.lt_of_mul_lt_mul_left (a := a) (by rw [mul_succ]; omega)
  exact Nat.mul_le_mul_left a (le_of_lt_succ hLt)

end Rounding
