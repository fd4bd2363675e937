import Barebox.State.Layout

/-! Whether the variables of a state lie apart. Only neighbours are compared when a state is
created, and in the arithmetic of `unsigned int`. -/
namespace Barebox.State
open Bytes Of List

/-- The bytes that a variable takes: a start and a size. -/
structure ByteRange where
  start : Nat
  size : Nat
  deriving DecidableEq

def ByteRange.Apart (a b : ByteRange) : Prop :=
  ∀ n, ¬ ((a.start ≤ n ∧ n < a.start + a.size) ∧ b.start ≤ n ∧ n < b.start + b.size)

def Variable.range (sv : Variable) : ByteRange := ⟨sv.start.toNat, sv.size⟩

/-- The range in the `reg` of an entry with a type. -/
def entryRange (e : Entry) : Option ByteRange :=
  match entryType e, propertyReadU32Array e.properties propReg 2 with
  | .ok (some _), .ok startSize => some ⟨(startSize.getD 0 0).toNat, (startSize.getD 1 0).toNat⟩
  | _, _ => none

def declaredRanges (node : Node) : List ByteRange :=
  (nodesEntries [] node.children).filterMap entryRange

def ByteRange.Narrow (a b : ByteRange) : Prop :=
  0 < a.size → 0 < b.size →
    (a.start ≤ b.start → a.start + a.size ≤ 2 ^ 32) ∧
      (b.start ≤ a.start → b.start + b.size ≤ 2 ^ 32)

variable {a b : ByteRange} {vars vars' : List Variable}

theorem ByteRange.Apart.symm (h : a.Apart b) : b.Apart a := fun n hn => h n ⟨hn.2, hn.1⟩

theorem ByteRange.Narrow.symm (h : a.Narrow b) : b.Narrow a := fun hb ha =>
  ⟨(h ha hb).2, (h ha hb).1⟩

theorem ByteRange.apart_of_le (h : a.start + a.size ≤ b.start) : a.Apart b := fun n hn => by omega

theorem ByteRange.Apart.le (h : a.Apart b) (hb : 0 < b.size)
    (hOrder : a.start ≤ b.start) : a.start + a.size ≤ b.start := by
  by_contra hLt
  exact h b.start ⟨⟨hOrder, by omega⟩, le_rfl, by omega⟩

theorem ByteRange.Apart.narrow (h : a.Apart b) (ha : a.start < 2 ^ 32) (hb : b.start < 2 ^ 32) :
    a.Narrow b := by
  intro hSizeA hSizeB
  refine ⟨fun hOrder => ?_, fun hOrder => ?_⟩
  · exact Nat.le_trans (h.le hSizeB hOrder) hb.le
  · exact Nat.le_trans (h.symm.le hSizeA hOrder) ha.le

theorem createVariable_range {e : Entry} (h : createVariable vars e = some (.ok vars')) :
    (vars'.map Variable.range).Perm ((entryRange e).toList ++ vars.map Variable.range) := by
  obtain ⟨hType, rfl⟩ | ⟨vtype, start, d, data, hType, -, -,
      hImport, ⟨startSize, hReg, hStart, hSize⟩, rfl⟩ :=
    createVariable_cases h
  · rw [entryRange, hType]
    rfl
  have hRange : entryRange e = some (Variable.range ⟨e.name, start, data⟩) := by
    rw [entryRange, hType, hReg, Variable.range, Variable.size,
      (importData_type_size hImport).2, hStart, ← hSize]
  rw [hRange]
  exact (perm_orderedInsert _ _ _).map Variable.range

theorem createVariables_ranges {entries : List Entry}
    (h : createVariables vars entries = some (.ok vars')) :
    (vars'.map Variable.range).Perm (entries.filterMap entryRange ++ vars.map Variable.range) := by
  induction entries generalizing vars with
  | nil =>
    cases h
    rfl
  | cons e rest ih =>
    obtain ⟨mid, hOne, hRest⟩ := createVariables_cons h
    have hFirst := (createVariable_range hOne).append_left (rest.filterMap entryRange)
    have hAll : (e :: rest).filterMap entryRange = (entryRange e).toList ++
        rest.filterMap entryRange := by
      cases hRange : entryRange e with
      | none => rw [filterMap_cons_none hRange]; rfl
      | some r => rw [filterMap_cons_some hRange]; rfl
    grind

theorem end_le_of_lt {a b : Variable} (hSize : 0 < a.size) (hSmall : a.size ≤ 4096)
    (hFits : a.start.toNat + a.size ≤ 2 ^ 32)
    (h : a.start + .ofNat a.size - 1 < b.start) : a.start.toNat + a.size ≤ b.start.toNat := by
  have hOf : (UInt32.ofNat a.size).toNat = a.size := by
    simp
    omega
  have hLast : (a.start + .ofNat a.size - 1).toNat = a.start.toNat + a.size - 1 := by
    simp [UInt32.toNat_sub]
    omega
  rw [UInt32.lt_iff_toNat_lt, hLast] at h
  omega

theorem pairwise_apart_of_narrow (hSorted : vars.Pairwise fun a b => a.start ≤ b.start)
    (hSmall : ∀ sv ∈ vars, sv.size ≤ 4096) (hFree : conflictFree vars = true)
    (hNarrow : vars.Pairwise fun a b => a.range.Narrow b.range) :
    vars.Pairwise fun a b => a.range.Apart b.range := by
  induction vars with
  | nil => exact .nil
  | cons a rest ih =>
    obtain ⟨hFirst, hSorted⟩ := pairwise_cons.mp hSorted
    obtain ⟨hNarrowFirst, hNarrow⟩ := pairwise_cons.mp hNarrow
    have hSmallRest : ∀ sv ∈ rest, sv.size ≤ 4096 := fun sv h => hSmall sv (.tail _ h)
    rcases rest with _ | ⟨b, rest⟩
    · exact pairwise_singleton _ _
    rw [conflictFree, Bool.and_eq_true, decide_eq_true_eq] at hFree
    refine pairwise_cons.mpr ⟨fun c hc => ?_, ih hSorted hSmallRest hFree.2 hNarrow⟩
    by_cases hSizes : 0 < a.size ∧ 0 < c.size
    -- `c` starts where the neighbour of `a` starts, or later
    · have hOrder := UInt32.le_iff_toNat_le.mp (hFirst c hc)
      have hFits := ((hNarrowFirst c hc) hSizes.1 hSizes.2).1 hOrder
      have hEnd := end_le_of_lt hSizes.1 (hSmall a (.head _)) hFits hFree.1
      have hNext : b.start.toNat ≤ c.start.toNat := by
        rcases mem_cons.mp hc with rfl | hc
        · rfl
        · exact UInt32.le_iff_toNat_le.mp ((pairwise_cons.mp hSorted).1 c hc)
      exact ByteRange.apart_of_le (Nat.le_trans hEnd hNext)
    · intro n hn
      dsimp only [Variable.range] at hn
      omega

/-- A state that was created has its variables apart exactly if, of any two that take bytes, the one
that starts first ends within 32 bits. -/
theorem stateCreate_apart_iff {node : Node} {st : StateObject}
    (h : stateCreate node = some (.ok st)) :
    st.vars.Pairwise (fun a b => a.range.Apart b.range) ↔
    (declaredRanges node).Pairwise ByteRange.Narrow := by
  obtain ⟨hCreate, hFree, -, -⟩ := stateCreate_ok h
  have hLaid := wellLaid_of_stateCreate h
  have hPerm := createVariables_ranges hCreate
  rw [map_nil, append_nil] at hPerm
  have hNarrow : (declaredRanges node).Pairwise ByteRange.Narrow ↔
      st.vars.Pairwise fun a b => a.range.Narrow b.range := by
    rw [declaredRanges, ← hPerm.pairwise_iff fun hab => hab.symm, pairwise_map]
  rw [hNarrow]
  refine ⟨fun hApart => hApart.imp fun {a b} hab => ?_,
    pairwise_apart_of_narrow hLaid.sorted hLaid.small hFree⟩
  exact hab.narrow a.start.toNat_lt b.start.toNat_lt

def twoCounters (first second : UInt32) : Node :=
  .mk (ascii "state") [⟨propMagic, [0x12, 0x34, 0x56, 0x78]⟩]
    [.mk (ascii "a") [⟨propType, ascii "uint32" ++ [0]⟩, ⟨propReg, be 4 first.toNat ++ be 4 4⟩] [],
     .mk (ascii "b") [⟨propType, ascii "uint32" ++ [0]⟩, ⟨propReg, be 4 second.toNat ++ be 4 4⟩] []]

/-- Two variables with all of their bytes in common are accepted at the end of the address range. -/
theorem stateCreate_overlap :
    ∃ st, stateCreate (twoCounters 0xffffffff 0xffffffff) = some (.ok st) ∧
    st.vars.map Variable.range = [⟨0xffffffff, 4⟩, ⟨0xffffffff, 4⟩] ∧
    ¬ st.vars.Pairwise (fun a b => a.range.Apart b.range) := by
  refine ⟨_, rfl, rfl, fun hApart => ?_⟩
  exact (pairwise_cons.mp hApart).1 _ (.head _) 0xffffffff (by decide)

theorem stateCreate_apart_iff_two : ∃ st, stateCreate (twoCounters 8 0) = some (.ok st) ∧
    st.vars.Pairwise (fun a b => a.range.Apart b.range) := by
  have hCreate : ∃ st, stateCreate (twoCounters 8 0) = some (.ok st) := ⟨_, rfl⟩
  obtain ⟨st, hCreate⟩ := hCreate
  refine ⟨st, hCreate, (stateCreate_apart_iff hCreate).mpr ?_⟩
  have hRanges : declaredRanges (twoCounters 8 0) = [⟨8, 4⟩, ⟨0, 4⟩] := rfl
  simp [hRanges, ByteRange.Narrow]

end Barebox.State
