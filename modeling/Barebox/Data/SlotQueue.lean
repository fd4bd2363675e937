import Mathlib.Data.List.Basic

/-! A queue whose elements pass a slot one at a time: they wait, are taken into the
slot in the order of their arrival and leave it when they are done. -/
namespace SlotQueue

structure Queue (α : Type*) where
  done : List α
  slot : Option α
  waiting : List α

variable {α β : Type*}

namespace Queue

def empty : Queue α := ⟨[], none, []⟩

variable (q : Queue α)

def push (as : List α) : Queue α := { q with waiting := q.waiting ++ as }

def finish : Queue α := ⟨q.done ++ q.slot.toList, none, q.waiting⟩

def take : Queue α := ⟨q.done, q.waiting.head?, q.waiting.tail⟩

def all : List α := q.done ++ (q.slot.toList ++ q.waiting)

def map (f : α → β) (q : Queue α) : Queue β := ⟨q.done.map f, q.slot.map f, q.waiting.map f⟩

variable (q : Queue α)

@[simp] theorem all_push (as : List α) : (q.push as).all = q.all ++ as := by simp [push, all]
@[simp] theorem all_finish : q.finish.all = q.all := by simp [finish, all]

theorem all_take (h : q.slot = none) : q.take.all = q.all := by
  obtain ⟨done, slot, waiting⟩ := q
  subst h
  cases waiting <;> simp [take, all]

variable (f : α → β) (q : Queue α)
include f

theorem map_push (as : List α) : (q.push as).map f = (q.map f).push (as.map f) := by
  simp [push, map]

theorem map_finish : q.finish.map f = (q.map f).finish := by
  cases q with
  | mk done slot waiting => cases slot <;> simp [finish, map]

theorem map_take : q.take.map f = (q.map f).take := by simp [take, map]

end Queue
end SlotQueue
