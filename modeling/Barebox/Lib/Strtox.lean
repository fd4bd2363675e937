import Barebox.Data.Bytes

/-! Conversion of strings to numbers. Strings are the bytes in front of the
terminator; reading behind the end gives the terminator. -/
namespace Barebox.Lib
variable (s : List UInt8) (c : UInt8)

def tolower : UInt8 := c ||| 0x20

/-- The digit values that `_parse_integer` knows. -/
def digitValue : Option Nat :=
  if 48 ≤ c ∧ c ≤ 57 then some (c.toNat - 48)
  else if 97 ≤ tolower c ∧ tolower c ≤ 102 then some ((tolower c).toNat - 97 + 10)
  else none

def isxdigit : Bool := (48 ≤ c ∧ c ≤ 57) || (65 ≤ c ∧ c ≤ 70) || (97 ≤ c ∧ c ≤ 102)

def charAt (i : Nat) : UInt8 := s.getD i 0

def parseIntegerFixupRadix (base : Nat) : List UInt8 × Nat :=
  let base :=
    if base = 0 then
      if charAt s 0 = 48 then
        if tolower (charAt s 1) = 120 ∧ isxdigit (charAt s 2) then 16 else 8
      else 10
    else base
  if base = 16 ∧ charAt s 0 = 48 ∧ tolower (charAt s 1) = 120 then (s.drop 2, base) else (s, base)

/-- `_parse_integer`: the value modulo the width of an `unsigned long long` and
the rest of the string. -/
def parseInteger (base : Nat) : List UInt8 → Nat → Nat × List UInt8
  | [], res => (res, [])
  | c :: s, res =>
    match digitValue c with
    | some val => if base ≤ val then (res, c :: s)
        else parseInteger base s ((res * base + val) % 2 ^ 64)
    | none => (res, c :: s)

/-- `simple_strtoull`, with the rest of the string. -/
def simpleStrtoull (base : Nat) : Nat × List UInt8 :=
  let (s, base) := parseIntegerFixupRadix s base
  parseInteger base s 0

def isspace : Bool := (9 ≤ c ∧ c ≤ 13) || c = 32 || c = 160

/-- `skip_spaces`, then `strim`. -/
def trim : List UInt8 := ((s.dropWhile isspace).reverse.dropWhile isspace).reverse

end Barebox.Lib
