import Barebox.Lib.Strtox
import Mathlib.Data.Nat.Digits.Lemmas

/-! Conversion of numbers to strings, and back by the number parser. -/
namespace Barebox.Lib
open List Nat

def digitChar (d : Nat) : UInt8 := .ofNat (48 + d)

def decimal (n : Nat) : List UInt8 :=
  if n = 0 then [48] else ((Nat.digits 10 n).map digitChar).reverse

def formatUnsigned (v : UInt32) : List UInt8 := decimal v.toNat

def formatSigned (v : UInt32) : List UInt8 :=
  if v.toNat < 2 ^ 31 then decimal v.toNat else 45 :: decimal (2 ^ 32 - v.toNat)

def hexDigit (d : Nat) : UInt8 := .ofNat (if d < 10 then 48 + d else 87 + d)

/-- `%pM`: the bytes in hexadecimal, with colons in between. -/
def formatMac (bytes : List UInt8) : List UInt8 :=
  (bytes.map fun b => [hexDigit (b.toNat / 16), hexDigit (b.toNat % 16)]).intersperse
    [58] |>.flatten

theorem digitValue_digitChar {d : Nat} (h : d < 10) : digitValue (digitChar d) = some d := by
  have hAll : ∀ d < 10, digitValue (digitChar d) = some d := by decide
  exact hAll d h

theorem parseInteger_digits (ds : List Nat) (hDigits : ∀ d ∈ ds, d < 10)
    (res : Nat) (hRes : res < 2 ^ 64) :
    parseInteger 10 (ds.map digitChar) res =
    (ds.foldl (fun r d => r * 10 + d) res % 2 ^ 64, []) := by
  have hMod (ds : List Nat) (r : Nat) : ds.foldl (fun r d => r * 10 + d) (r % 2 ^ 64) % 2 ^ 64 =
        ds.foldl (fun r d => r * 10 + d) r % 2 ^ 64 := by
    induction ds generalizing r with
    | nil => simp
    | cons d rest ih =>
      rw [foldl_cons, foldl_cons, ← ih (r % 2 ^ 64 * 10 + d), ← ih (r * 10 + d)]
      congr 2
      omega
  induction ds generalizing res with
  | nil => rw [map_nil, parseInteger, foldl_nil, mod_eq_of_lt hRes]
  | cons d rest ih =>
    have hd : d < 10 := hDigits d (.head _)
    rw [map_cons, parseInteger, digitValue_digitChar hd]
    simp only [Nat.not_le.mpr hd, if_false]
    rw [ih (fun d h => hDigits d (.tail _ h)) _ (mod_lt _ (by decide)), hMod]
    rfl

theorem simpleStrtoull_decimal {n : Nat} (h : n < 2 ^ 64) :
    simpleStrtoull (decimal n) 0 = (n, []) := by
  by_cases hZero : n = 0
  · subst hZero
    decide
  have hNe : Nat.digits 10 n ≠ [] := digits_ne_nil_iff_ne_zero.mpr hZero
  have hLead : charAt (decimal n) 0 = digitChar ((Nat.digits 10 n).getLast hNe) := by
    grind [decimal, charAt]
  have hDigit : (Nat.digits 10 n).getLast hNe < 10 := digits_lt_base (by decide) (getLast_mem hNe)
  have hNotZero : ∀ d < 10, d ≠ 0 → digitChar d ≠ 48 := by decide
  have hChar : charAt (decimal n) 0 ≠ 48 :=
    hLead ▸ hNotZero _ hDigit (getLast_digit_ne_zero 10 hZero)
  rw [simpleStrtoull, parseIntegerFixupRadix]
  simp only [hChar, if_true, if_false, false_and, and_false, show ¬(10 : Nat) = 16 from by decide]
  rw [decimal, if_neg hZero, ← map_reverse,
    parseInteger_digits _ (fun d hd => digits_lt_base (by decide) (mem_reverse.mp hd)) 0
      (by decide), foldl_reverse]
  have hValue := ofDigits_digits 10 n
  rw [ofDigits_eq_foldr] at hValue
  have hFold : (Nat.digits 10 n).foldr (fun d r => r * 10 + d) 0 = n := by
    rw [← hValue]
    congr 1
    · funext d r
      simp [Nat.mul_comm, Nat.add_comm]
    · rw [hValue]
  rw [hFold, mod_eq_of_lt h]

end Barebox.Lib
