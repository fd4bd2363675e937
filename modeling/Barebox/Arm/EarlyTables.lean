import Mathlib.Data.List.Basic

/-! The second-level tables of the PBL, known by their distance from the translation table base in
bytes. What the entries map is left out: only whether a first-level entry is a table decides about
allocations. -/
namespace Barebox.Arm
open List

def armEarlyPagetableSize : Nat := 256 * 1024

/-- `alloc_pte`: the new counter and the table. The pointer moves by elements of `width` bytes; the
end of the area is a `BUG`. -/
def allocPte (size width idx : Nat) : Option (Nat × Nat) :=
  if armEarlyPagetableSize ≤ (idx + 1) * size then none
  else some (idx + 1, width * ((idx + 1) * size))

/-- `get_ttb()` of `mmu_32.c` points to `uint32_t`. -/
def allocPte32 : Nat → Option (Nat × Nat) := allocPte 1024 4

/-- `mmu_64.c` adds to a `void *`. -/
def allocPte64 : Nat → Option (Nat × Nat) := allocPte 4096 1

/-- The tables that a number of calls return, up to a `BUG`. -/
def allocated (alloc : Nat → Option (Nat × Nat)) : (calls idx : Nat) → List Nat
  | 0, _ => []
  | calls + 1, idx =>
    match alloc idx with
    | none => []
    | some (idx, table) => table :: allocated alloc calls idx

/-- Tables of `size` bytes inside the area, behind the first-level table and apart. -/
def Placed (firstLevel size : Nat) (tables : List Nat) : Prop :=
  (∀ t ∈ tables, firstLevel ≤ t ∧ t + size ≤ armEarlyPagetableSize) ∧ tables.Pairwise fun a b =>
    a + size ≤ b ∨ b + size ≤ a

def pgdirSize : Nat := 1024 * 1024

/-- Which first-level entries are tables, the counter of `alloc_pte`, what it returned, and whether
there was a `BUG`. -/
structure Early where
  typeTable : Nat → Bool := fun _ => false
  idx : Nat := 3
  tables : List Nat := []
  bug : Bool := false

/-- `arm_create_pte`. -/
def Early.createPte (e : Early) (pgd : Nat) : Early :=
  match allocPte32 e.idx with
  | none => { e with bug := true }
  | some (idx, table) => ⟨fun i => i == pgd || e.typeTable i, idx, e.tables ++ [table], e.bug⟩

/-- The loop over the range. A turn maps at least a page. -/
def remapLoop : (turns virt phys size : Nat) → Early → Early
  | 0, _, _, _, e => e
  | turns + 1, virt, phys, size, e =>
    if size = 0 ∨ e.bug then e
    else
      let pgd := virt / pgdirSize
      let chunk := min (pgdirSize - virt % pgdirSize) size
      let next := remapLoop turns ((virt + chunk) % 4294967296)
        ((phys + chunk) % 4294967296) (size - chunk)
      if pgdirSize ≤ size ∧ virt % pgdirSize = 0 ∧ phys % pgdirSize = 0 ∧
        e.typeTable pgd = false then
        next e
      else if e.typeTable pgd then next e
      else next (e.createPte pgd)

structure Remap where
  virt : Nat
  phys : Nat
  size : Nat

/-- `__arch_remap_range`, with the size rounded up to pages in 32 bits. -/
def archRemapRange (e : Early) (r : Remap) : Early :=
  if r.virt % 4096 = 0 ∧ r.phys % 4096 = 0 then
    let size := (r.size + 4095) / 4096 * 4096 % 4294967296
    remapLoop (size / 4096) r.virt r.phys size e
  else { e with bug := true }

/-- The tables that a sequence of remaps has allocated at its end or at a `BUG`. -/
def earlyTables (rs : List Remap) : List Nat := (rs.foldl archRemapRange {}).tables

theorem allocPte_eq_some {size width idx idx' table : Nat}
    (h : allocPte size width idx = some (idx', table)) :
    idx' = idx + 1 ∧ table = width * (idx' * size) ∧ idx' * size < armEarlyPagetableSize := by
  rw [allocPte] at h
  split_ifs at h with hEnd
  cases h
  exact ⟨rfl, rfl, Nat.lt_of_not_le hEnd⟩

theorem allocated64_placed (calls idx : Nat) :
    Placed ((idx + 1) * 4096) 4096 (allocated allocPte64 calls idx) := by
  induction calls generalizing idx with
  | zero => exact ⟨by simp [allocated], .nil⟩
  | succ calls ih =>
    rw [allocated]
    rcases hAlloc : allocPte64 idx with _ | ⟨idx', table⟩
    · exact ⟨by simp, .nil⟩
    obtain ⟨rfl, rfl, hLt⟩ := allocPte_eq_some hAlloc
    obtain ⟨hInside, hApart⟩ := ih (idx + 1)
    have hEnd : armEarlyPagetableSize = 64 * 4096 := rfl
    refine ⟨fun t ht => ?_, pairwise_cons.mpr ⟨fun t ht => ?_, hApart⟩⟩
    · rcases mem_cons.mp ht with rfl | ht
      · omega
      · exact ⟨Nat.le_trans (Nat.mul_le_mul_right _ (Nat.le_succ _)) (hInside t ht).1,
          (hInside t ht).2⟩
    · have := (hInside t ht).1
      omega

/-- The counter counts the tables, and the tables lie one behind the other. -/
def Early.Counted (e : Early) : Prop :=
  e.idx = 3 + e.tables.length ∧ e.tables = (range e.tables.length).map fun k => 4096 * (4 + k)

theorem createPte_counted {e : Early} (h : e.Counted) (pgd : Nat) : (e.createPte pgd).Counted := by
  rw [Early.createPte]
  rcases hAlloc : allocPte32 e.idx with _ | ⟨idx', table⟩
  · exact h
  obtain ⟨rfl, rfl, -⟩ := allocPte_eq_some hAlloc
  obtain ⟨hIdx, hTables⟩ := h
  refine ⟨by simp [hIdx, Nat.add_assoc], ?_⟩
  rw [length_append, length_singleton, range_succ, map_append, ← hTables, hIdx]
  simp
  omega

/-- The loop keeps the tables one behind the other, in the order of allocation. -/
theorem remapLoop_counted {turns virt phys size : Nat} {e : Early} (h : e.Counted) :
    (remapLoop turns virt phys size e).Counted := by
  induction turns generalizing virt phys size e with
  | zero => exact h
  | succ turns ih =>
    rw [remapLoop]
    dsimp only
    split_ifs
    · exact h
    · exact ih h
    · exact ih h
    · exact ih (createPte_counted h _)

theorem remaps_counted (rs : List Remap) {e : Early} (h : e.Counted) :
    (rs.foldl archRemapRange e).Counted := by
  induction rs generalizing e with
  | nil => exact h
  | cons r rs ih =>
    refine ih ?_
    rw [archRemapRange]
    split_ifs
    · exact remapLoop_counted h
    · exact h

end Barebox.Arm
