import Barebox.Of.FlattenRoundTrip

/-! Which trees the writer can write, by the lengths of their names and values alone, and a tree
that the reader gives and that is written over the end of the buffer. -/
namespace Barebox.Of
open Bytes List Item

/-- A value of `len` bytes at `ofs` that is written inside the buffer, whatever came before: it is
shorter than what is in front of it, or than the buffer at the start. A value that is much longer
makes the buffer a power of two, which has to have room for what is in front of it too. -/
def ValueFits (ofs len : Nat) : Prop :=
  len + 32 ≤ max 65536 ofs ∨
    (max 131072 (6 * (ofs + 1024)) ≤ len ∧ ofs + (len + 32) ≤ roundupPowOfTwo len)

/-- The lengths the writer can cope with in an item at `ofs`. -/
def Item.Bounded (ofs : Nat) : Item → Prop
  | .beginNode name => name.length ≤ 1012
  | .prop p => p.name.length ≤ 1022 ∧ ValueFits ofs p.value.length
  | .endNode => True

/-- All items, the first of them at `ofs`. -/
def ItemsBounded : Nat → List Item → Prop
  | _, [] => True
  | ofs, item :: rest => item.Bounded ofs ∧ ItemsBounded (ofs + item.size) rest

/-- A tree whose names and values are short enough, whose structure block ends below 340 MiB, and
which takes 1 GiB at most when it is flattened. -/
structure Node.Bounded (root : Node) : Prop where
  items : ItemsBounded structOfs (nodeItems root)
  structs : structOfs + root.structSize ≤ 356515840
  total : structOfs + root.structSize + 4 + (itemsStrings (nodeItems root)).length ≤ 1073741824

section Growing
variable {size ofs : Nat}

theorem roundupPowOfTwo_lt {n : Nat} (h : 2 ≤ n) : roundupPowOfTwo n < 2 * n := by
  have hPos : 0 < Nat.clog 2 n := Nat.clog_pos (by decide) h
  have hLt : 2 ^ (Nat.clog 2 n - 1) < n := Nat.pow_lt_of_lt_clog (by omega)
  have hStep : (2 : Nat) ^ Nat.clog 2 n = 2 ^ (Nat.clog 2 n - 1) * 2 := by
    rw [← Nat.pow_succ, Nat.succ_eq_add_one, Nat.sub_add_cancel hPos]
  rw [roundupPowOfTwo, hStep]
  omega

theorem roundupPowOfTwo_mono {m n : Nat} (h : m ≤ n) : roundupPowOfTwo m ≤ roundupPowOfTwo n :=
  Nat.pow_le_pow_right (by decide) (Nat.clog_mono_right 2 h)

/-- The buffer while a bounded tree is written: four bytes are left for a closing tag, and the
buffer is not much larger than what it holds. -/
structure Ample (size ofs : Nat) : Prop where
  ok : SizeOk size
  room : ofs + 4 ≤ size
  top : size = 65536 ∨ size ≤ 3 * (ofs + 1024)

/-- Enlarging the buffer for a name or a tag leaves 1024 bytes. -/
theorem Ample.grow (h : Ample size ofs) (hMax : size ≤ mallocMaxSize) {at' : Nat} (hAt : ofs ≤ at')
    (hIn : at' ≤ size) : at' + 1024 ≤ growDt size at' 0 ∧
      (growDt size at' 0 = 65536 ∨ growDt size at' 0 ≤ 3 * (at' + 1024)) := by
  have hLeast := h.ok.least
  have hTop := h.top
  rw [growDt_eq hMax hIn]
  split
  · rw [if_neg (by omega)]
    omega
  · omega

/-- Enlarging it for a value that fits leaves room for the value and for its name. -/
theorem Ample.grow_value (h : Ample size ofs) (hMax : size ≤ mallocMaxSize)
    {len : Nat} (hFits : ValueFits ofs len) :
    ofs + 1024 ≤ growDt size ofs len ∧ ofs + (len + 12) + 7 ≤ growDt size ofs len ∧
      (growDt size ofs len = 65536 ∨ growDt size ofs len ≤ 3 * (ofs + len + 1024)) := by
  have hLeast := h.ok.least
  have hRoom := h.room
  have hTop := h.top
  rw [growDt_eq hMax (by omega)]
  split
  · rcases hFits with hShort | ⟨hLong, hPower⟩
    · rw [if_neg (by omega)]
      omega
    · -- the buffer has at most half the length of the value, so its size becomes a power of two
      have hMono : roundupPowOfTwo len ≤ roundupPowOfTwo (size + len) :=
        roundupPowOfTwo_mono (by omega)
      have hLt := @roundupPowOfTwo_lt (size + len) (by omega)
      rw [if_pos (by omega)]
      omega
  · omega

/-- Writing an item that is bounded stays inside the buffer and leaves it ample. -/
theorem Item.Bounded.step {item : Item} (h : item.Bounded ofs)
    (hAmple : Ample size ofs) (hMod : ofs % 4 = 0)
    (hMax : size ≤ mallocMaxSize) :
    item.Fits size ofs ∧ Ample (item.sizeAfter size ofs) (ofs + item.size) := by
  have hRoom := hAmple.room
  have hOk := sizeAfter_ok hAmple.ok ofs item
  have hAligned := hOk.aligned
  cases item with
  | beginNode name =>
    obtain ⟨hSlack, hTop⟩ := hAmple.grow hMax le_rfl (by omega)
    rw [Item.Bounded] at h
    refine ⟨⟨by omega, by omega⟩, hOk, ?_, hTop.imp_right fun h =>
      h.trans (Nat.mul_le_mul_left 3 (by omega))⟩
    simp only [Item.sizeAfter, Item.size, align4]
    omega
  | prop p =>
    obtain ⟨hName, hFits⟩ := h
    obtain ⟨hSlack, hValue, hTop⟩ := hAmple.grow_value hMax hFits
    rw [sizeAfter] at hAligned
    have hLe := le_align4 (p.value.length + 12)
    refine ⟨⟨hName, hSlack, by omega⟩, hOk, ?_,
      hTop.imp_right fun h => h.trans (Nat.mul_le_mul_left 3 ?_)⟩ <;>
      simp only [Item.sizeAfter, Item.size]
    · rw [align4]
      omega
    · omega
  | endNode =>
    obtain ⟨hSlack, hTop⟩ := hAmple.grow hMax (Nat.le_add_right ofs 4) hRoom
    refine ⟨hRoom, hOk, ?_, hTop⟩
    simp only [Item.sizeAfter, Item.size]
    omega

/-- Items that are bounded are written inside the buffer, one after the other. -/
theorem ItemsBounded.roomy {items : List Item} (h : ItemsBounded ofs items)
    (hAmple : Ample size ofs)
    (hMod : ofs % 4 = 0) (hEnd : ofs + (items.map Item.size).sum ≤ 356515840) :
    Roomy size ofs items := by
  induction items generalizing size ofs with
  | nil => exact hAmple.room
  | cons item rest ih =>
    obtain ⟨hItem, hRest⟩ := h
    rw [map_cons, sum_cons, ← Nat.add_assoc] at hEnd
    have hTop := hAmple.top
    obtain ⟨hFits, hNext⟩ := hItem.step hAmple hMod (by rw [mallocMaxSize]; omega)
    have hNextTop := hNext.top
    have hSizeMod := item.size_mod
    refine ⟨hFits, by rw [mallocMaxSize]; omega, ih hRest hNext (by omega) hEnd⟩

end Growing

theorem Node.Bounded.fits {root : Node} (h : root.Bounded) : root.Fits :=
  ⟨h.items.roomy ⟨⟨le_rfl, rfl⟩, by decide, .inl rfl⟩ rfl h.structs, h.total⟩

def cpuNode : Node := .mk (ascii "cpu@0") [⟨ascii "reg", be 4 0⟩] []

def cpusNode : Node :=
  .mk (ascii "cpus") [⟨ascii "#size-cells", be 4 0⟩, ⟨ascii "ranges", []⟩] [cpuNode]

/-- A board with a model, a reserved region, a processor and a memory. -/
def boardTree : Node :=
  .mk [] [⟨ascii "model", ascii "board"⟩, ⟨ascii "compatible", zeros 300⟩]
    [memreserveNode (be 8 4096 ++ be 8 4096), cpusNode,
      .mk (ascii "memory") [⟨ascii "reg", be 8 65536⟩] []]

theorem boardTree_good : boardTree.RootGood [memreserveNode (be 8 4096 ++ be 8 4096)]
    [cpusNode, .mk (ascii "memory") [⟨ascii "reg", be 8 65536⟩] []] := by
  have hGood (name value : List UInt8) (h : isAllowedInputName name = true ∧ 0 ∉ name) :
      (Property.mk name value).Good := ⟨h.1, h.2⟩
  have hReserve : ReserveOk (be 8 4096 ++ be 8 4096) 1 := by
    rw [ReserveOk]
    decide +kernel
  refine ⟨rfl, .inr ⟨_, 1, rfl, hReserve⟩, ?_, ?_⟩
  · exact forall_mem_cons.mpr ⟨hGood _ _ (by decide +kernel),
      forall_mem_singleton.mpr (hGood _ _ (by decide +kernel))⟩
  · refine forall_mem_cons.mpr ⟨?_, forall_mem_singleton.mpr ?_⟩
    · refine .mk (by decide +kernel) (by decide +kernel) (by decide +kernel) ?_ ?_
      · exact forall_mem_cons.mpr ⟨hGood _ _ (by decide +kernel),
          forall_mem_singleton.mpr (hGood _ _ (by decide +kernel))⟩
      · refine forall_mem_singleton.mpr
          (.mk (by decide +kernel) (by decide +kernel) (by decide +kernel) ?_
          (fun c hc => by cases hc))
        exact forall_mem_singleton.mpr (hGood _ _ (by decide +kernel))
    · refine .mk (by decide +kernel) (by decide +kernel) (by decide +kernel) ?_
        (fun c hc => by cases hc)
      exact forall_mem_singleton.mpr (hGood _ _ (by decide +kernel))

theorem boardTree_bounded : boardTree.Bounded := by
  have hItems : nodeItems boardTree = [.beginNode [], .prop ⟨ascii "model", ascii "board"⟩,
      .prop ⟨ascii "compatible", zeros 300⟩, .beginNode (ascii "cpus"),
      .prop ⟨ascii "#size-cells", be 4 0⟩, .prop ⟨ascii "ranges", []⟩, .beginNode (ascii "cpu@0"),
      .prop ⟨ascii "reg", be 4 0⟩, .endNode, .endNode, .beginNode (ascii "memory"),
      .prop ⟨ascii "reg", be 8 65536⟩, .endNode, .endNode] := rfl
  refine ⟨?_, by decide +kernel, by decide +kernel⟩
  rw [hItems]
  simp only [ItemsBounded, Item.Bounded, ValueFits]
  decide +kernel

section Overrun
variable {content strings : List UInt8} {size strSize : Nat} {p : Property}

theorem flattenProp_overrun (hHeld : Held content size strings strSize)
    (hLen : strings.length ≤ mallocMaxSize)
    (hName : p.name.length ≤ 1022)
    (hGrow : growDt size content.length p.value.length ≤ mallocMaxSize)
    (hSlack : content.length + 1024 ≤ growDt size content.length p.value.length)
    (hOver : growDt size content.length p.value.length < content.length + (p.value.length + 12)) :
    flattenProp (.holding content size strings strSize) p = .error .fault := by
  obtain ⟨-, hStrRoom⟩ := growStrings_ok hHeld.strings hLen
  rw [flattenProp, fdtEnsureSpace_holding hHeld.fits hHeld.size hHeld.strings hLen hGrow, ok_bind]
  generalize growDt size content.length p.value.length = size' at *
  generalize growStrings strSize strings.length = strSize' at *
  have hHead : (be 4 fdtProp ++ be 4 p.value.length).length = 8 := by simp
  have hFirst := @storeAt_end content (be 4 fdtProp ++ be 4 p.value.length) (size' - content.length)
    (by rw [hHead]; omega)
  generalize be 4 fdtProp ++ be 4 p.value.length = head at *
  have hTotal : ((content ++ head) ++ zeros (size' - content.length - head.length)).length =
      size' := by
    simp
    omega
  have hString := @dtAddString_room
    ⟨(content ++ head) ++ zeros (size' - content.length - head.length),
      content.length, strings, strSize'⟩ p.name
    (by rw [hTotal]; exact hSlack) (by rw [hTotal]; exact hGrow) hStrRoom hName
  have hSame : (content ++ zeros (size' - content.length)).length = size' := by
    simp
    omega
  dsimp only [Fdt.holding]
  rw [hFirst, ok_bind, hString, ok_bind]
  refine (if_neg (not_not_intro (hTotal.trans hSame.symm))).trans ?_
  dsimp only
  rw [storeAt, if_neg]
  · rfl
  · rw [hTotal, length_append, be_length]
    omega

end Overrun

variable {fdt fdt' : Fdt}

theorem foldlM_cons_ok {item : Item} (h : writeItem fdt item = .ok fdt') (items : List Item) :
    (item :: items).foldlM writeItem fdt = items.foldlM writeItem fdt' := by
  rw [foldlM_cons, h]
  rfl

theorem foldlM_cons_error {item : Item} {e : Failure} (h : writeItem fdt item = .error e)
    (items : List Item) : (item :: items).foldlM writeItem fdt = .error e := by
  rw [foldlM_cons, h]
  rfl

def longTree : Node := .mk [] [⟨ascii "a", zeros 131000⟩] []

theorem longTree_items :
    nodeItems longTree = [.beginNode [], .prop ⟨ascii "a", zeros 131000⟩, .endNode] := rfl

theorem totalsize_prop {tree : Node} {p : Property} {n : Nat}
    (h : nodeItems tree = [.beginNode [], .prop p, .endNode])
    (hName : p.name.length < 1024) (hValue : p.value.length = n) (hn : n < 2147483648) :
    (imageHeader tree).totalsize < 4294967296 := by
  simp [imageHeader, Node.structSize, h, itemsStrings, size,
    string, structOfs, ofMaxReserveMap, align4]
  omega

theorem longTree_read : ofUnflattenDtb (image longTree) = .ok longTree := by
  refine @ofUnflattenDtb_image longTree [] [] ⟨rfl, .inl rfl, ?_, fun c hc => by cases hc⟩ ?_
  · intro p hp
    rw [mem_singleton.mp hp]
    exact ⟨by decide +kernel, by decide +kernel⟩
  · exact totalsize_prop longTree_items (by decide +kernel) (zeros_length _) (by decide)

end Barebox.Of
