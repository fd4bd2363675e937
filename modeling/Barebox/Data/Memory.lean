import Mathlib.Data.List.Basic
import Mathlib.Data.List.GetD
import Mathlib.Tactic.Ring

/-! Byte-addressed memory without a bound, and copying into it. -/

abbrev Memory := Nat → UInt8

namespace Memory
open List

/-- Copy `len` bytes from another memory, whose address zero lies at `pos`. -/
def blit (pos len : Nat) (source target : Memory) : Memory := fun a =>
  if pos ≤ a ∧ a < pos + len then source (a - pos) else target a

def store (pos : Nat) (bytes : List UInt8) (target : Memory) : Memory :=
  blit pos bytes.length (fun i => bytes.getD i 0) target

def load (pos len : Nat) (m : Memory) : List UInt8 := (range len).map fun i => m (pos + i)

variable {pos len a : Nat} {bytes : List UInt8} (source target : Memory)

theorem blit_of_mem (h : pos ≤ a ∧ a < pos + len) :
    blit pos len source target a = source (a - pos) := if_pos h
theorem blit_of_not_mem (h : ¬(pos ≤ a ∧ a < pos + len)) :
    blit pos len source target a = target a := if_neg h

theorem store_of_mem (target : Memory)
    (h : pos ≤ a ∧ a < pos + bytes.length) :
    store pos bytes target a = bytes.getD (a - pos) 0 := if_pos h

theorem store_of_not_mem (target : Memory)
    (h : ¬(pos ≤ a ∧ a < pos + bytes.length)) : store pos bytes target a = target a := if_neg h

@[simp] theorem load_length (pos len : Nat) (m : Memory) : (load pos len m).length = len := by
  simp [load]

theorem load_append (pos m n : Nat) (mem : Memory) :
    load pos (m + n) mem = load pos m mem ++ load (pos + m) n mem := by
  simp [load, range_add, Nat.add_assoc]

theorem load_getD {i : Nat} (m : Memory) (h : i < len) :
    (load pos len m).getD i 0 = m (pos + i) := by simp [load, h]

theorem store_nil (pos : Nat) (target : Memory) : store pos [] target = target := by
  funext a
  exact store_of_not_mem _ (by simp)

theorem store_load (pos len : Nat) (m : Memory) : store pos (load pos len m) m = m := by
  funext a
  by_cases h : pos ≤ a ∧ a < pos + (load pos len m).length
  · rw [store_of_mem _ h]
    rw [load_length] at h
    rw [load_getD m (by omega)]
    congr 1
    omega
  · exact store_of_not_mem _ h

theorem load_store (pos : Nat) (bytes : List UInt8) (m : Memory) :
    load pos bytes.length (store pos bytes m) = bytes := by
  refine ext_getElem (load_length _ _ _) fun i hi hi' => ?_
  have hIn : pos ≤ pos + i ∧ pos + i < pos + bytes.length := by omega
  simp only [load, getElem_map, getElem_range, store_of_mem m hIn, Nat.add_sub_cancel_left]
  exact getD_eq_getElem _ _ hi'

theorem store_append (pos : Nat) (front back : List UInt8) (target : Memory) :
    store pos (front ++ back) target =
    store (pos + front.length) back (store pos front target) := by
  funext a
  simp only [store, blit, length_append]
  by_cases hBack : pos + front.length ≤ a ∧ a < pos + front.length + back.length
  · grind
  rw [if_neg hBack]
  by_cases hFront : pos ≤ a ∧ a < pos + front.length
  · grind
  · grind

end Memory
