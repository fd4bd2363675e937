import Barebox.Data.Bytes
import Mathlib.Data.List.TakeWhile

/-! Zero-terminated strings. A value of the type cannot contain the terminator,
so writing it into a buffer and reading it back are inverse. -/
namespace Bytes

structure CString where
  bytes : List UInt8
  nonzero : 0 ∉ bytes
  deriving DecidableEq

def ascii (s : String) : List UInt8 := s.toUTF8.data.toList

def untilZero (bs : List UInt8) : List UInt8 := bs.takeWhile (· ≠ 0)

theorem untilZero_nonzero (bs : List UInt8) : 0 ∉ untilZero bs := by
  intro h
  simpa using List.mem_takeWhile_imp h

namespace CString

@[ext] theorem ext {a b : CString} (h : a.bytes = b.bytes) : a = b := by
  cases a
  cases b
  simpa using h

def ofBuffer (bs : List UInt8) : CString := ⟨untilZero bs, untilZero_nonzero bs⟩

def terminated (s : CString) : List UInt8 := s.bytes ++ [0]

def parse (bs : List UInt8) : Option CString := if 0 ∈ bs then some (ofBuffer bs) else none

theorem untilZero_append (s : CString) (rest : List UInt8) :
    untilZero (s.bytes ++ 0 :: rest) = s.bytes := by
  have hAll : ∀ b ∈ s.bytes, decide (b ≠ 0) = true := by
    intro b hb
    simp only [ne_eq, decide_eq_true_eq]
    rintro rfl
    exact s.nonzero hb
  rw [untilZero, List.takeWhile_append_of_pos hAll]
  simp

end CString

/-- The strings of a buffer that holds nothing but terminated strings; `cur` is
the string in progress, in reverse. -/
def splitStrings (cur : List UInt8) : List UInt8 → Option (List (List UInt8))
  | [] => if cur = [] then some [] else none
  | b :: rest =>
    if b = 0 then (splitStrings [] rest).map (cur.reverse :: ·) else splitStrings (b :: cur) rest

end Bytes
