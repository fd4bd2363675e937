import Mathlib.Data.List.Basic

/-! Keys ordered by their last use, the most recent first. -/
namespace Recency
open List
variable {α : Type*} [DecidableEq α]

def touch (x : α) (l : List α) : List α := x :: l.erase x

variable {x : α} {n : Nat} {l : List α}

theorem take_erase_of_mem (h : x ∈ l.take (n + 1)) :
    (l.take (n + 1)).erase x = (l.erase x).take n := by
  induction l generalizing n with
  | nil => simp at h
  | cons y l ih =>
    by_cases hEq : y = x
    · subst hEq
      simp
    rw [take_succ_cons, erase_cons_tail (by simpa using hEq), erase_cons_tail (by simpa using hEq)]
    rw [take_succ_cons, mem_cons] at h
    have hRest := h.resolve_left fun h => hEq h.symm
    cases n with
    | zero => simp at hRest
    | succ n => rw [take_succ_cons, ih hRest]

theorem take_erase_of_not_mem (h : x ∉ l.take n) : (l.erase x).take n = l.take n := by
  induction l generalizing n with
  | nil => simp
  | cons y l ih =>
    cases n with
    | zero => simp
    | succ n =>
      grind

theorem take_touch_of_mem (h : x ∈ l.take (n + 1)) :
    (touch x l).take (n + 1) = touch x (l.take (n + 1)) := by
  simp [touch, take_erase_of_mem h]

theorem take_touch_of_not_mem (h : x ∉ l.take (n + 1)) :
    (touch x l).take (n + 1) = x :: l.take n := by
  have hLess : x ∉ l.take n := fun hMem => h (take_subset_take_left l (Nat.le_succ n) hMem)
  simp [touch, take_erase_of_not_mem hLess]

end Recency
