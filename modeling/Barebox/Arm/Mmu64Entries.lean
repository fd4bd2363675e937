import Barebox.Arm.Mmu64

/-! Entries of ARM64 page tables as numbers: attributes above and below an address, and a type in
the lowest two bits. The translation of a page is what the four-level walk finds for it. -/
namespace Barebox.Arm64
open RadixTable Nat

def entry (hi page lo : Nat) : Nat := hi * 2 ^ 48 + page * 4096 + lo

def pteAddr (pte : Nat) : Nat := pte &&& xlatAddrMask

def pteAttrs (pte : Nat) : Nat := pte / 2 ^ 48 * 2 ^ 48 + pte % 4096 / 4 * 4

def accessFlag (pte : Nat) : Bool := pte / 1024 % 2 == 1

theorem and_xlatAddrMask (pte : Nat) : pte &&& xlatAddrMask = pte / 4096 % 2 ^ 36 * 4096 := by
  have hMask : xlatAddrMask = (2 ^ 36 - 1) <<< 12 := rfl
  rw [hMask]
  apply eq_of_testBit_eq
  intro i
  rw [show (4096 : Nat) = 2 ^ 12 from rfl, ← shiftLeft_eq, ← shiftRight_eq_div_pow, testBit_and,
    testBit_shiftLeft, testBit_shiftLeft, testBit_mod_two_pow,
      testBit_shiftRight, testBit_two_pow_sub_one]
  by_cases hi : 12 ≤ i
  · simp [hi, Bool.and_comm]
  · simp [hi]

theorem entry_cases {pte : Nat} (h : pte < 2 ^ 64) :
    ∃ hi page lo, pte = entry hi page lo ∧ hi < 2 ^ 16 ∧ page < 2 ^ 36 ∧ lo < 4096 := by
  refine ⟨pte / 2 ^ 48, pte / 4096 % 2 ^ 36, pte % 4096, ?_, ?_, ?_, ?_⟩
  · rw [entry]
    omega
  · omega
  · omega
  · omega

section Fields
variable {hi page lo : Nat} (hPage : page < 2 ^ 36) (hLo : lo < 4096)

theorem entry_lt (hHi : hi < 2 ^ 16) (hPage : page < 2 ^ 36) (hLo : lo < 4096) :
    entry hi page lo < 2 ^ 64 := by
  rw [entry]
  omega

theorem pteType_entry (hi page lo : Nat) : pteType (entry hi page lo) = lo % 4 := by
  rw [pteType, pteTypeMask, show (3 : Nat) = 2 ^ 2 - 1 from rfl, and_two_pow_sub_one_eq_mod, entry]
  omega

theorem accessFlag_entry (hi page lo : Nat) :
    accessFlag (entry hi page lo) = (lo / 1024 % 2 == 1) := by
  have hEq : entry hi page lo / 1024 % 2 = lo / 1024 % 2 := by
    rw [entry]
    omega
  rw [accessFlag, hEq]

include hPage hLo

theorem pteAddr_entry : pteAddr (entry hi page lo) = page * 4096 := by
  rw [pteAddr, and_xlatAddrMask, entry]
  omega

theorem pteAttrs_entry : pteAttrs (entry hi page lo) = hi * 2 ^ 48 + lo / 4 * 4 := by
  rw [pteAttrs, entry]
  omega

theorem or_entry : page * 4096 ||| entry hi 0 lo = entry hi page lo := by
  have hLow : page * 4096 ||| lo = page * 4096 + lo := by
    rw [Nat.mul_comm]
    exact (two_pow_add_eq_or_of_lt (i := 12) hLo page).symm
  have hUp (x : Nat) (hx : x < 2 ^ 48) : hi * 2 ^ 48 ||| x = hi * 2 ^ 48 + x := by
    rw [Nat.mul_comm]
    exact (two_pow_add_eq_or_of_lt hx hi).symm
  have hAttrs : entry hi 0 lo = hi * 2 ^ 48 ||| lo := by grind [entry]
  grind [entry]

end Fields

theorem entry_or_three (hi page lo : Nat) :
    entry hi page lo ||| 3 = entry hi page (lo / 4 * 4 + 3) := by
  have hSplit (x : Nat) : x ||| 3 = x / 4 * 4 + 3 := by
    have hOr (b : Nat) (hb : b < 2 ^ 2) : x / 4 * 4 ||| b = x / 4 * 4 + b := by
      rw [Nat.mul_comm]
      exact (two_pow_add_eq_or_of_lt hb (x / 4)).symm
    have hLow : x % 4 ||| 3 = 3 := by
      have hMod := mod_lt x (show 0 < 4 by decide)
      generalize x % 4 = b at hMod
      revert b
      decide
    calc x ||| 3 = (x / 4 * 4 ||| x % 4) ||| 3 := by
          rw [hOr (x % 4) (mod_lt _ (by decide)), div_add_mod']
      _ = x / 4 * 4 ||| 3 := by rw [Nat.or_assoc, hLow]
      _ = x / 4 * 4 + 3 := hOr 3 (by decide)
  rw [hSplit, entry, entry]
  omega

theorem entry_or_type {hi page lo type : Nat} (hZero : lo % 4 = 0) (hType : type < 4) :
    entry hi page lo ||| type = entry hi page (lo + type) := by
  have hFour : entry hi page lo = 2 ^ 2 * (entry hi page lo / 4) := by
    rw [entry]
    omega
  rw [hFour, ← two_pow_add_eq_or_of_lt (i := 2) hType, ← hFour, entry, entry, Nat.add_assoc]

theorem getLevelTable_table {table : Nat} (hAligned : table % 4096 = 0) (hLt : table < 2 ^ 48) :
    getLevelTable (table ||| pteTypeTable) = some table := by
  have hEntry : table ||| pteTypeTable = entry 0 (table / 4096) 3 := by
    have hOr := @or_entry 0 (table / 4096) 3 (by omega) (by decide)
    rw [Nat.div_mul_cancel (dvd_of_mod_eq_zero hAligned)] at hOr
    exact hOr
  have hAddr : entry 0 (table / 4096) 3 &&& xlatAddrMask = table :=
    (@pteAddr_entry 0 (table / 4096) 3 (by omega) (by decide)).trans
      (Nat.div_mul_cancel (dvd_of_mod_eq_zero hAligned))
  rw [getLevelTable, hEntry, pteType_entry, if_pos (show 3 % 4 = pteTypeTable from rfl), hAddr]

def entries (_ : Nat) : Nat := 512

theorem entries_pos (k : Nat) : 0 < entries k := by simp [entries]

theorem stride_entries (n : Nat) : stride entries n = 512 ^ n := by
  induction n with
  | zero => rfl
  | succ n ih => rw [stride, ih, entries, Nat.pow_succ, Nat.mul_comm]

/-- What an entry says about a page, `h` levels above the pages: nothing, unless it is valid at its
level and its access flag is set. -/
def translateEntry (h pte page : Nat) : Option (Nat × Nat) :=
  if h = 0 then
    if pteType pte = pteTypePage ∧ accessFlag pte then some (pteAddr pte / 4096, pteAttrs pte)
    else none
  else if h < 3 ∧ pteType pte = pteTypeBlock ∧ accessFlag pte then
    some (pteAddr pte / 4096 / 512 ^ h * 512 ^ h + page % 512 ^ h, pteAttrs pte)
  else none

/-- The translation of a page by the tables below one, `h` levels above the pages. -/
def translateAt (mem : Memory Nat) (h table page : Nat) : Option (Nat × Nat) :=
  translateEntry (lookup entries getLevelTable mem h table page).1
    (lookup entries getLevelTable mem h table page).2 page

/-- The translation of a page: the physical page, and attributes. -/
def Mmu.translate (m : Mmu) (ttb page : Nat) : Option (Nat × Nat) := translateAt m.mem 3 ttb page

/-- What holds of every entry that is no link: its address is that of a block, and it translates if
its access flag is set. -/
structure Good (h pte : Nat) : Prop where
  lt : pte < 2 ^ 64
  aligned : pteAddr pte / 4096 % 512 ^ h = 0
  flag : h ≠ 0 → accessFlag pte = true → h < 3 ∧ pteType pte = pteTypeBlock

theorem translateEntry_block {h hi page lo : Nat} (hh : h < 3)
    (hPage : page < 2 ^ 36) (hLo : lo < 4096)
    (hAligned : page % 512 ^ h = 0) (hType : lo % 4 = if h = 0 then 3 else 1) (q : Nat) :
    translateEntry h (entry hi page lo) q =
      if lo / 1024 % 2 = 1 then some (page + q % 512 ^ h, hi * 2 ^ 48 + lo / 4 * 4) else none := by
  have hBase : page / 512 ^ h * 512 ^ h = page := Nat.div_mul_cancel (dvd_of_mod_eq_zero hAligned)
  rw [translateEntry, pteType_entry, accessFlag_entry, pteAddr_entry hPage hLo,
    pteAttrs_entry hPage hLo, hType,
    Nat.mul_div_cancel _ (by decide), hBase]
  by_cases hZero : h = 0
  · subst hZero
    simp [pteTypePage, mod_one]
  · simp [hZero, hh, pteTypeBlock]

variable (m : Mmu) (level table idx phys count attrs : Nat)

theorem Mmu.setPteRange_supply :
    (m.setPteRange level table idx phys count attrs).supply = m.supply := by
  induction count generalizing m idx phys with
  | zero => rfl
  | succ count ih => exact ih _ _ _

theorem Mmu.setPteRange_mem (hPhys : phys < 2 ^ 64) (t i : Nat) :
    (m.setPteRange level table idx phys count attrs).mem t i =
      if t = table ∧ idx ≤ i ∧ i < idx + count then
        (phys + (i - idx) * granularity level) % 2 ^ 64 ||| attrs
      else m.mem t i := by
  induction count generalizing m idx phys with
  | zero =>
    rw [if_neg (by omega)]
    rfl
  | succ count ih =>
    rw [Mmu.setPteRange, ih _ _ _ (mod_lt _ (Nat.two_pow_pos 64))]
    by_cases hHere : t = table ∧ i = idx
    · obtain ⟨rfl, rfl⟩ := hHere
      rw [if_neg (by omega), if_pos (by omega), Nat.sub_self,
        Nat.zero_mul, Nat.add_zero, mod_eq_of_lt hPhys]
      exact if_pos ⟨rfl, rfl⟩
    by_cases hLater : t = table ∧ idx + 1 ≤ i ∧ i < idx + 1 + count
    · obtain ⟨rfl, hLow, hHigh⟩ := hLater
      rw [if_pos ⟨rfl, hLow, hHigh⟩, if_pos (by omega), mod_add_mod,
        show i - idx = i - (idx + 1) + 1 by
          omega, Nat.add_mul, Nat.one_mul, Nat.add_right_comm, Nat.add_assoc phys]
    · rw [if_neg hLater, if_neg (by omega)]
      exact if_neg hHere

end Barebox.Arm64
