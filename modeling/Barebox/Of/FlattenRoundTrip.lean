import Barebox.Of.FlattenWriting

/-! Reading back a flattened tree. -/
namespace Barebox.Of
open Bytes List

theorem flatMap_be_length (ns : List Nat) : (ns.flatMap (be 4)).length = 4 * ns.length := by
  induction ns with
  | nil => rfl
  | cons n rest ih =>
    simp
    omega

variable {n : Nat} {node : Node} {properties : List Property}

theorem load32_fields {ns : List Nat} {i : Nat} (hi : ns[i]? = some n)
    (hn : n < 4294967296) (rest : List UInt8) :
    load32 (ns.flatMap (be 4) ++ rest) (4 * i) = .ok n := by
  obtain ⟨hLt, hEq⟩ := List.getElem?_eq_some_iff.mp hi
  have hSplit : ns = ns.take i ++ n :: ns.drop (i + 1) := by
    rw [← hEq, ← drop_eq_getElem_cons hLt, take_append_drop]
  have hFront : ((ns.take i).flatMap (be 4)).length = 4 * i := by
    rw [flatMap_be_length, length_take, Nat.min_eq_left hLt.le]
  have hLoad := @load32_middle (ns.flatMap (be 4) ++ rest) ((ns.take i).flatMap (be 4))
    ((ns.drop (i + 1)).flatMap (be 4) ++ rest) n hn (by
      nth_rewrite 1 [hSplit]
      rw [flatMap_append, flatMap_cons]
      simp only [append_assoc])
  rwa [hFront] at hLoad

def headerWords (g : FdtHeader) : List Nat :=
  [fdtMagic, g.totalsize, g.offDtStruct, g.offDtStrings, 40,
    17, 16, 0, g.sizeDtStrings, g.sizeDtStruct]

theorem fdtHeaderBytes_eq (g : FdtHeader) : fdtHeaderBytes g = (headerWords g).flatMap (be 4) := rfl

structure FdtHeader.Narrow (g : FdtHeader) : Prop where
  totalsize : g.totalsize < 4294967296
  offDtStruct : g.offDtStruct < 4294967296
  sizeDtStruct : g.sizeDtStruct < 4294967296
  offDtStrings : g.offDtStrings < 4294967296
  sizeDtStrings : g.sizeDtStrings < 4294967296

section Header
variable {g : FdtHeader} (hg : g.Narrow) (rest : List UInt8)
include hg

theorem load32_totalsize : load32 (fdtHeaderBytes g ++ rest) 4 = .ok g.totalsize := by
  rw [fdtHeaderBytes_eq]
  exact load32_fields (i := 1) rfl hg.totalsize rest

theorem fdtParseHeader_front : fdtParseHeader (fdtHeaderBytes g ++ rest) =
    if 40 + rest.length < g.totalsize then .error (.errno .einval)
    else if g.totalsize < g.offDtStruct + g.sizeDtStruct then .error (.errno .espipe)
    else if g.totalsize < g.offDtStrings + g.sizeDtStrings then .error (.errno .espipe)
    else .ok g := by
  have hLen : (fdtHeaderBytes g ++ rest).length = 40 + rest.length := by
    simp [fdtHeaderBytes_length]
  have hTotal := load32_totalsize hg rest
  rw [fdtParseHeader, hLen, hTotal, fdtHeaderBytes_eq, if_neg (by omega),
    load32_fields (i := 0) rfl (by decide), ok_bind, if_neg (by decide),
    load32_fields (i := 5) rfl (by decide), ok_bind, if_neg (by decide), ok_bind,
    load32_fields (i := 2) rfl hg.offDtStruct, ok_bind,
      load32_fields (i := 9) rfl hg.sizeDtStruct, ok_bind,
    load32_fields (i := 3) rfl hg.offDtStrings, ok_bind,
      load32_fields (i := 8) rfl hg.sizeDtStrings, ok_bind]

end Header

section ReserveMap
variable {blob : List UInt8} {f : FdtHeader} (hf : HeaderOk blob f)
include hf

theorem reservemapNumEntries_eq {left r n : Nat} (hLt : n < left)
    (hIn : r + 16 * (n + 1) ≤ f.totalsize)
    (hAll : ∀ i < n, ofBe (slice (r + (16 * i + 8)) 8 blob) ≠ 0)
    (hEnd : ofBe (slice (r + (16 * n + 8)) 8 blob) = 0) :
    reservemapNumEntries blob left r = .ok n := by
  have hSize := hf.size
  induction n generalizing left r with
  | zero =>
    obtain ⟨left, rfl⟩ : ∃ l, left = l + 1 := ⟨left - 1, by omega⟩
    rw [reservemapNumEntries, dtPtrOk_eq hf, decide_eq_true ⟨Nat.mod_one _, by omega⟩, ok_bind]
    dsimp only
    rw [if_pos rfl, load_eq (by omega), ok_bind, if_pos hEnd]
  | succ n ih =>
    obtain ⟨left, rfl⟩ : ∃ l, left = l + 1 := ⟨left - 1, by omega⟩
    have hFirst := hAll 0 (by omega)
    have hShift (i : Nat) : r + 16 + (16 * i + 8) = r + (16 * (i + 1) + 8) := by omega
    have hRest : reservemapNumEntries blob left (r + 16) = .ok n := by
      refine ih (by omega) (by omega) (fun i hi => ?_) ?_
      · grind
      · simp [hShift, hEnd]
    rw [reservemapNumEntries, dtPtrOk_eq hf, decide_eq_true ⟨Nat.mod_one _, by omega⟩, ok_bind]
    dsimp only
    rw [if_pos rfl, load_eq (by omega), ok_bind, if_neg hFirst, hRest]
    rfl

end ReserveMap

variable {children : List Node}

theorem nodesBelowAll_not_reserved
    (h : ∀ c ∈ children, isReservedName c.name = false ∧ ∀ x ∈ nodesBelow c,
      isReservedName x.name = false) :
    ∀ x ∈ nodesBelowAll children, isReservedName x.name = false := by
  induction children with
  | nil =>
    intro x hx
    cases hx
  | cons child rest ih =>
    obtain ⟨hName, hBelow⟩ := h child (.head _)
    exact forall_mem_append.mpr ⟨ih fun c hc => h c (.tail _ hc),
      forall_mem_cons.mpr ⟨hName, hBelow⟩⟩

theorem Node.Good.below_not_reserved (h : node.Good n) :
    ∀ x ∈ nodesBelow node, isReservedName x.name = false := by
  induction h with
  | mk hName hAllowed hZero hProps hChildren ih =>
    exact nodesBelowAll_not_reserved fun c hc => ⟨(hChildren c hc).not_reserved, ih c hc⟩

theorem propItems_readable (h : ∀ p ∈ properties, p.Good) :
    ∀ item ∈ propItems properties, item.Readable := by
  intro item hItem
  obtain ⟨p, hp, rfl⟩ := mem_map.mp hItem
  exact (h p (mem_of_mem_filter hp)).nonzero

theorem childItems_readable (h : ∀ c ∈ children, ∀ item ∈ nodeItems c, item.Readable) :
    ∀ item ∈ childItems children, item.Readable := by
  induction children with
  | nil =>
    intro item hItem
    cases hItem
  | cons child rest ih =>
    have hRest := ih fun c hc => h c (.tail _ hc)
    intro item hItem
    rw [childItems] at hItem
    split at hItem
    · exact hRest item hItem
    · exact forall_mem_append.mpr ⟨h child (.head _), hRest⟩ item hItem

theorem nodeItems_readable {name : List UInt8} (hName : 0 ∉ name)
    (hProps : ∀ p ∈ properties, p.Good)
    (hChildren : ∀ c ∈ children, ∀ item ∈ nodeItems c, item.Readable) :
    ∀ item ∈ nodeItems (.mk name properties children), item.Readable := by
  exact forall_mem_cons.mpr ⟨hName, forall_mem_append.mpr ⟨propItems_readable hProps,
    forall_mem_append.mpr ⟨childItems_readable hChildren, forall_mem_singleton.mpr trivial⟩⟩⟩

theorem Node.Good.readable (h : node.Good n) : ∀ item ∈ nodeItems node, item.Readable := by
  induction h with
  | mk hName hAllowed hZero hProps hChildren ih => exact nodeItems_readable hZero hProps ih

section Root
variable {root : Node} {reserved children : List Node} (h : root.RootGood reserved children)
include h

theorem Node.RootGood.readable : ∀ item ∈ nodeItems root, item.Readable := by
  rw [h.eq, nodeItems, childItems_reserved h.reserved, ← nodeItems]
  exact nodeItems_readable (by simp) h.properties fun c hc => (h.children c hc).readable

theorem Node.RootGood.children_not_reserved :
    ∀ x ∈ nodesBelowAll children, isReservedName x.name = false :=
  nodesBelowAll_not_reserved fun c hc =>
    ⟨(h.children c hc).not_reserved, (h.children c hc).below_not_reserved⟩

theorem Node.RootGood.find_children :
    (nodesBelowAll children).find? (fun node => node.name = memreserveName) = none := by
  refine find?_eq_none.mpr fun x hx hName => ?_
  have hNot := h.children_not_reserved x hx
  rw [of_decide_eq_true hName] at hNot
  cases hNot

theorem Node.RootGood.reserveEntries : (reserved = [] ∧ reserveEntries root = []) ∨
    ∃ n, reserved = [memreserveNode (reserveEntries root)] ∧ ReserveOk (reserveEntries root) n := by
  have hNone := h.find_children
  rcases h.reserved with rfl | ⟨reg, n, rfl, hReg⟩
  · left
    refine ⟨rfl, ?_⟩
    rw [Of.reserveEntries, findNodeByNameAddress, h.eq, nodesBelow, nil_append, hNone]
  right
  have hFind : findNodeByNameAddress root memreserveName = some (memreserveNode reg) := by
    rw [findNodeByNameAddress, h.eq, nodesBelow, singleton_append,
      nodesBelowAll, find?_append, hNone]
    rfl
  have hEntries : Of.reserveEntries root = reg := by
    rw [Of.reserveEntries, hFind]
    rfl
  grind

theorem Node.RootGood.reserveEntries_length : (Of.reserveEntries root).length ≤ 240 := by
  rcases h.reserveEntries with ⟨-, hNil⟩ | ⟨n, -, -, hLt, hLen, -⟩
  · rw [hNil]
    simp
  · grind [ofMaxReserveMap]

end Root

section Reserved
variable {front reg body : List UInt8}

theorem slice_reserve_inside {pos len : Nat} (h : pos + len ≤ reg.length) :
    slice (front.length + pos) len (front ++ ((reg ++ zeros (256 - reg.length)) ++ body)) =
    slice pos len reg := by
  simp [slice_append_right, slice_append_left _ h]

theorem slice_reserve_behind {len : Nat} (h : reg.length + (8 + len) ≤ 256) :
    slice (front.length + (reg.length + 8)) len
      (front ++ ((reg ++ zeros (256 - reg.length)) ++ body)) = zeros len := by
  have hZeros : 8 + len ≤ (zeros (256 - reg.length)).length := by
    simp
    omega
  rw [slice_append_right, append_assoc, slice_append_right, slice_append_left _ hZeros,
    slice_zeros (by omega)]

end Reserved

theorem ofUnflattenReservemap_image {root : Node} {reserved children : List Node}
    (h : root.RootGood reserved children) {f : FdtHeader} (hf : HeaderOk (image root) f)
    (hTotal : 296 ≤ f.totalsize) : ofUnflattenReservemap (image root) = .ok reserved := by
  have hOff : load32 (image root) 16 = .ok 40 := rfl
  have hHeader := fdtHeaderBytes_length (imageHeader root)
  have hLength := h.reserveEntries_length
  have hSize := hf.size
  have hInside {pos len : Nat} (hIn : pos + len ≤ (reserveEntries root).length) :
      slice (40 + pos) len (image root) = slice pos len (reserveEntries root) := by
    have hSlice := @slice_reserve_inside (fdtHeaderBytes (imageHeader root)) (reserveEntries root)
      (imageBody root) pos len hIn
    rwa [hHeader] at hSlice
  have hBehind : ofBe (slice (40 + ((reserveEntries root).length + 8)) 8 (image root)) = 0 := by
    have hSlice := @slice_reserve_behind (fdtHeaderBytes (imageHeader root)) (reserveEntries root)
      (imageBody root) 8 (by omega)
    rw [hHeader] at hSlice
    rw [image, hSlice]
    decide
  rw [ofUnflattenReservemap, hOff, ok_bind]
  rcases h.reserveEntries with ⟨rfl, hNil⟩ | ⟨n, rfl, hPos, hLt, hLen, hAll⟩
  · rw [hNil] at hBehind
    rw [reservemapNumEntries_eq (n := 0) hf (by decide) (by omega) (fun i hi => by omega) hBehind,
      ok_bind, if_pos rfl]
  have hEntries : reservemapNumEntries (image root) ofMaxReserveMap 40 = .ok n := by
    refine reservemapNumEntries_eq hf hLt (by omega) (fun i hi => ?_) ?_
    · grind
    · grind
  have hWhole : slice (40 + 0) (16 * n) (image root) = slice 0 (16 * n) (reserveEntries root) :=
    hInside (by omega)
  rw [hEntries, ok_bind, if_neg (by omega), load_eq (by omega), hWhole, ← hLen, slice_zero_length]
  rfl

theorem imageBody_length (root : Node) :
    (imageBody root).length = root.structSize + 4 + (itemsStrings (nodeItems root)).length := by
  rw [imageBody, length_append, length_append, itemsBytes_length, be_length, ← Nat.add_assoc]
  rfl

theorem ofUnflattenDtb_image {root : Node} {reserved children : List Node}
    (h : root.RootGood reserved children)
    (hTotal : (imageHeader root).totalsize < 4294967296) :
    ofUnflattenDtb (image root) = .ok root := by
  have hBody := imageBody_length root
  have hReg := h.reserveEntries_length
  generalize hRegz : reserveEntries root ++ zeros (256 - (reserveEntries root).length) = regz
  have hRegzLen : regz.length = 256 := by grind [zeros_length]
  have hImage : image root = fdtHeaderBytes (imageHeader root) ++ (regz ++ imageBody root) := by
    rw [image, hRegz]
  have hSize : (imageHeader root).totalsize = 296 + root.structSize +
      4 + (itemsStrings (nodeItems root)).length := rfl
  have hNarrow : (imageHeader root).Narrow := by
    refine ⟨hTotal, ?_, ?_, ?_, ?_⟩ <;> dsimp only [imageHeader,
      structOfs, ofMaxReserveMap] <;> omega
  have hParse : fdtParseHeader (image root) = .ok (imageHeader root) := by
    have hRest : 40 + (regz ++ imageBody root).length = (imageHeader root).totalsize := by
      simp
      omega
    have hStructs : (imageHeader root).offDtStruct + (imageHeader root).sizeDtStruct ≤
        (imageHeader root).totalsize := by
      simp [imageHeader]
      omega
    have hStrings : (imageHeader root).offDtStrings + (imageHeader root).sizeDtStrings ≤
        (imageHeader root).totalsize := le_rfl
    rw [hImage, fdtParseHeader_front hNarrow, if_neg hRest.symm.le.not_gt, if_neg hStructs.not_gt,
      if_neg hStrings.not_gt]
  have hf := fdtParseHeader_ok hParse
  rw [ofUnflattenDtb, hParse, ok_bind, ofUnflattenReservemap_image h hf (by omega), ok_bind]
  have hFront : (fdtHeaderBytes (imageHeader root) ++ regz).length = 296 := by
    simp [fdtHeaderBytes_length, hRegzLen]
  have hItems : image root = (fdtHeaderBytes (imageHeader root) ++ regz) ++
      (itemsBytes 0 (nodeItems root) ++ (be 4 fdtEnd ++ itemsStrings (nodeItems root))) := by
    rw [hImage, imageBody]
    rfl
  have hStrings : image root = ((fdtHeaderBytes (imageHeader root) ++ regz) ++
      (itemsBytes 0 (nodeItems root) ++ be 4 fdtEnd)) ++
        ([] ++ itemsStrings (nodeItems root)) := by simp [hItems]
  have hStringsOff : (imageHeader root).offDtStrings =
      ((fdtHeaderBytes (imageHeader root) ++ regz) ++
      (itemsBytes 0 (nodeItems root) ++ be 4 fdtEnd)).length := by
    rw [length_append, hFront, length_append, itemsBytes_length, be_length, ← Nat.add_assoc]
    rfl
  have hFed := h.fed (imageHeader root).offDtStruct
  have hLimit : (imageHeader root).offDtStruct + (imageHeader root).sizeDtStruct < 4294967296 :=
    Nat.lt_of_le_of_lt hf.structs hTotal
  exact unflattenLoop_items hf hLimit hNarrow.sizeDtStrings h.readable hFront.symm (by omega) hItems
    (by rw [hFront]; exact le_rfl) hStrings hStringsOff rfl hFed

end Barebox.Of
