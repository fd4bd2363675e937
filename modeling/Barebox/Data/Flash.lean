import Barebox.Data.Bytes

/-! An erase block of a flash device. Erasing sets every bit; programming can
only clear bits, so it stores the data exactly where the block is erased. A
sequence of erase and program steps can be cut after any of them. -/
namespace Flash
open Bytes List

def blanks (n : Nat) : List UInt8 := replicate n 0xff

@[simp] theorem blanks_length (n : Nat) : (blanks n).length = n := by simp [blanks]
theorem blanks_add (m n : Nat) : blanks (m + n) = blanks m ++ blanks n := replicate_add m n 0xff

def blank (bs : List UInt8) : Bool := bs.all (· == 0xff)

theorem blank_iff {bs : List UInt8} : blank bs = true ↔ bs = blanks bs.length := by
  simp [blank, blanks, eq_replicate_iff]

@[simp] theorem blank_blanks (n : Nat) : blank (blanks n) = true := by simp [blank_iff]
theorem blank_append (xs ys : List UInt8) : blank (xs ++ ys) = (blank xs && blank ys) := by
  simp [blank]

structure Block (size : Nat) where
  bytes : List UInt8
  length_eq : bytes.length = size
  deriving DecidableEq

namespace Block
variable {size : Nat}

@[ext] theorem ext {a b : Block size} (h : a.bytes = b.bytes) : a = b := by
  cases a
  cases b
  simpa using h

def erased (size : Nat) : Block size where
  bytes := blanks size
  length_eq := blanks_length size

@[simp] theorem erased_bytes : (erased size).bytes = blanks size := rfl

def read (b : Block size) (off len : Nat) : List UInt8 := slice off len b.bytes

/-- Clear the bits of the block that are clear in `data`. Bytes that would
come to lie behind the end of the block are dropped. -/
def program (b : Block size) (off : Nat) (data : List UInt8) : Block size where
  bytes := b.bytes.take off ++
    (zipWith (· &&& ·) (b.bytes.drop off) data ++ b.bytes.drop (off + data.length))
  length_eq := by
    have hSize := b.length_eq
    simp only [length_append, length_take, length_zipWith, length_drop]
    omega

private theorem zipWith_blanks (data : List UInt8) (n : Nat) (h : data.length ≤ n) :
    zipWith (· &&& ·) (blanks n) data = data := by
  apply ext_getElem
  · simp
    omega
  intro i hi hi'
  have hAnd : ∀ x : UInt8, 255 &&& x = x := fun x => by
    apply UInt8.toBitVec_inj.mp
    simpa using BitVec.allOnes_and (x := x.toBitVec)
  simp [blanks, hAnd]

theorem program_append {b : Block size} {used : List UInt8} {free : Nat}
    (hb : b.bytes = used ++ blanks free) (data : List UInt8) (hData : data.length ≤ free) :
    (b.program used.length data).bytes = used ++ (data ++ blanks (free - data.length)) := by
  have hDrop : (used ++ blanks free).drop (used.length + data.length) =
      blanks (free - data.length) := by simp [blanks]
  simp [program, hb, hDrop, zipWith_blanks data free hData]

end Block

inductive Step where
  | erase
  | program (off : Nat) (data : List UInt8)
  deriving DecidableEq

namespace Block
variable {size : Nat}

def apply (b : Block size) : Step → Block size
  | .erase => erased size
  | .program off data => b.program off data

def run (b : Block size) (steps : List Step) : Block size := steps.foldl apply b

variable (b : Block size)

@[simp] theorem run_nil : b.run [] = b := rfl
@[simp] theorem run_cons (step : Step) (steps : List Step) :
    b.run (step :: steps) = (b.apply step).run steps := rfl
theorem run_append (first second : List Step) :
    b.run (first ++ second) = (b.run first).run second := by simp [run]

end Block

/-- Program `data` page by page in ascending order. -/
def pageSteps (page off : Nat) (data : List UInt8) : List Step :=
  (range (data.length / page)).map fun i =>
    .program (off + i * page) (slice (i * page) page data)

@[simp] theorem pageSteps_length (page off : Nat) (data : List UInt8) :
    (pageSteps page off data).length = data.length / page := by simp [pageSteps]

/-- After `m` pages exactly the first `m` pages of the data are stored. -/
theorem run_take_pageSteps {size : Nat} {b : Block size} {used : List UInt8} {free : Nat}
    (hb : b.bytes = used ++ blanks free) (page : Nat) (data : List UInt8)
    (hData : data.length ≤ free) (m : Nat) (hm : m ≤ data.length / page) :
    (b.run ((pageSteps page used.length data).take m)).bytes =
      used ++ (data.take (m * page) ++ blanks (free - m * page)) := by
  induction m with
  | zero => simpa using hb
  | succ m ih =>
    have hEnd : (m + 1) * page ≤ data.length :=
      (Nat.mul_le_mul_right page hm).trans (Nat.div_mul_le_self _ _)
    rw [Nat.succ_mul] at hEnd
    have hStep : (pageSteps page used.length data).take (m + 1) =
        (pageSteps page used.length data).take m ++
          [.program (used.length + m * page) (slice (m * page) page data)] := by
      simp [take_add_one, pageSteps, getElem?_range (show m < data.length / page by omega)]
    have hPrior := ih (by omega)
    rw [← append_assoc] at hPrior
    have hOff : used.length + m * page = (used ++ data.take (m * page)).length := by
      simp
      omega
    have hSlice : (slice (m * page) page data).length = page := slice_length_of_le hEnd
    rw [hStep, Block.run_append, Block.run_cons, Block.run_nil, Block.apply, hOff,
      Block.program_append hPrior _ (by omega), hSlice, append_assoc]
    have hTake : data.take (m * page) ++ slice (m * page) page data =
        data.take ((m + 1) * page) := by
      rw [slice, Nat.succ_mul, take_add]
    rw [← append_assoc (data.take (m * page)), hTake, Nat.succ_mul, Nat.sub_sub]

end Flash
