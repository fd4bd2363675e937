import Barebox.Of.FdtTrees

/-! Flattening a tree: what is written when all of it fits the buffers. -/
namespace Barebox.Of
open Bytes List Item

def writeItem (fdt : Fdt) : Item → Except Failure Fdt
  | .beginNode name => flattenBegin fdt name
  | .prop p => flattenProp fdt p
  | .endNode => flattenEnd fdt

theorem flattenProps_items (fdt : Fdt) (properties : List Property) :
    flattenProps fdt properties = (propItems properties).foldlM writeItem fdt := by
  induction properties generalizing fdt with
  | nil => rfl
  | cons p rest ih =>
    cases hReserved : isReservedName p.name with
    | true =>
      grind [flattenProps, propItems]
    | false =>
      rw [flattenProps, if_neg (by simp [hReserved]), propItems,
        filter_cons_of_pos (by simp [hReserved]), map_cons, foldlM_cons]
      exact congrArg (Except.bind _) (funext fun fdt' => ih fdt')

mutual

theorem flattenNode_items (fdt : Fdt) (node : Node) :
    flattenNode fdt node = (nodeItems node).foldlM writeItem fdt := by
  cases node with
  | mk name properties children =>
    rw [flattenNode, nodeItems, foldlM_cons]
    refine congrArg (Except.bind _) (funext fun fdt => ?_)
    rw [foldlM_append, flattenProps_items]
    refine congrArg (Except.bind _) (funext fun fdt => ?_)
    rw [foldlM_append, flattenChildren_items]
    refine congrArg (Except.bind _) (funext fun fdt => ?_)
    rw [foldlM_cons]
    change flattenEnd fdt = (flattenEnd fdt).bind pure
    cases flattenEnd fdt <;> rfl

theorem flattenChildren_items (fdt : Fdt) (children : List Node) :
    flattenChildren fdt children = (childItems children).foldlM writeItem fdt := by
  rcases children with _ | ⟨child, rest⟩
  · rw [flattenChildren, childItems]; rfl
  cases hReserved : isReservedName child.name with
  | true =>
    simp [flattenChildren, if_pos hReserved, childItems, flattenChildren_items fdt rest]
  | false =>
    rw [flattenChildren, if_neg (by simp [hReserved]), childItems, if_neg (by simp [hReserved]),
      foldlM_append, flattenNode_items]
    exact congrArg (Except.bind _) (funext fun fdt => flattenChildren_items fdt rest)

end

def Item.Fits (size ofs : Nat) : Item → Prop
  | .beginNode name => name.length ≤ 1022 ∧ ofs + (name.length + 5) ≤ growDt size ofs 0
  | .prop p => p.name.length ≤ 1022 ∧ ofs + 1024 ≤ growDt size ofs p.value.length ∧
      ofs + (p.value.length + 12) ≤ growDt size ofs p.value.length
  | .endNode => ofs + 4 ≤ size

def Item.sizeAfter (size ofs : Nat) : Item → Nat
  | .beginNode _ => growDt size ofs 0
  | .prop p => growDt size ofs p.value.length
  | .endNode => growDt size (ofs + 4) 0

def Roomy : Nat → Nat → List Item → Prop
  | size, ofs, [] => ofs + 4 ≤ size
  | size, ofs, item :: rest => item.Fits size ofs ∧ item.sizeAfter size ofs ≤ mallocMaxSize ∧
      Roomy (item.sizeAfter size ofs) (ofs + item.size) rest

structure SizeOk (size : Nat) : Prop where
  least : 65536 ≤ size
  aligned : size % 4 = 0

theorem growDt_ok {size : Nat} (h : SizeOk size) (ofs dtsize : Nat) :
    SizeOk (growDt size ofs dtsize) ∧ size ≤ growDt size ofs dtsize := by
  have hLeast := h.least
  have hAligned := h.aligned
  unfold growDt
  split
  · split
    · have hPow : size + dtsize ≤ 2 ^ Nat.clog 2 (size + dtsize) := Nat.le_pow_clog (by decide) _
      have hClog : 2 ≤ Nat.clog 2 (size + dtsize) := by
        by_contra hSmall
        have hLe : (2 : Nat) ^ Nat.clog 2 (size + dtsize) ≤ 2 ^ 2 :=
          Nat.pow_le_pow_right (by decide) (by omega)
        omega
      have hDvd : (2 : Nat) ^ 2 ∣ 2 ^ Nat.clog 2 (size + dtsize) := pow_dvd_pow 2 hClog
      rw [roundupPowOfTwo]
      exact ⟨⟨by omega, Nat.mod_eq_zero_of_dvd hDvd⟩, by omega⟩
    · exact ⟨⟨by omega, by omega⟩, by omega⟩
  · exact ⟨h, le_rfl⟩

theorem growDt_eq {size ofs : Nat} (hSize : size ≤ mallocMaxSize)
    (hOfs : ofs ≤ size) (dtsize : Nat) :
    growDt size ofs dtsize = if size < ofs + (1024 + dtsize) then
      if size * 2 ≤ dtsize then roundupPowOfTwo (size + dtsize) else size * 2 else size := by
  have hRoom : (size + 4294967296 - ofs) % 4294967296 = size - ofs := by
    rw [mallocMaxSize] at hSize
    omega
  rw [growDt, hRoom]
  exact if_congr (by omega) rfl rfl

theorem growDt_enough {size ofs : Nat} (hSize : size ≤ mallocMaxSize) (h : ofs + 1024 ≤ size) :
    growDt size ofs 0 = size := by rw [growDt_eq hSize (by omega), if_neg (by omega)]

structure StringsOk (strings : List UInt8) (strSize : Nat) : Prop where
  fits : strings.length ≤ strSize
  least : 65536 ≤ strSize
  most : strSize = 65536 ∨ strSize ≤ 2 * (strings.length + 1024)

variable {strings : List UInt8} {strSize : Nat} (h : StringsOk strings strSize)
include h

theorem growStrings_ok (hLen : strings.length ≤ mallocMaxSize) :
    StringsOk strings (growStrings strSize strings.length) ∧
      strings.length + 1024 ≤ growStrings strSize strings.length := by
  have hFits := h.fits
  have hLeast := h.least
  rw [mallocMaxSize] at hLen
  unfold growStrings
  split
  · rw [Nat.mod_eq_of_lt (by omega)]
    exact ⟨⟨by omega, by omega, by omega⟩, by omega⟩
  · exact ⟨h, by omega⟩

theorem StringsOk.append {more : List UInt8} (hFits : strings.length + more.length ≤ strSize) :
    StringsOk (strings ++ more) strSize := by
  have hLeast := h.least
  have hMost := h.most
  have hLen : (strings ++ more).length = strings.length + more.length := length_append
  refine ⟨hLen.trans_le hFits, hLeast, hMost.imp_right fun hTwice => hTwice.trans ?_⟩
  simp

omit h

def Fdt.holding (content : List UInt8) (size : Nat) (strings : List UInt8) (strSize : Nat) : Fdt :=
  ⟨content ++ zeros (size - content.length), content.length, strings, strSize⟩

theorem overwrite_middle (front old back data : List UInt8) (h : old.length = data.length) :
    overwrite front.length data (front ++ (old ++ back)) = front ++ (data ++ back) := by
  have hDrop : (front ++ (old ++ back)).drop (front.length + data.length) = back := by simp [h]
  simp [overwrite, hDrop]

theorem storeAt_end {content data : List UInt8} {n : Nat} (h : data.length ≤ n) :
    storeAt (content ++ zeros n) content.length data =
    .ok ((content ++ data) ++ zeros (n - data.length)) := by
  have hSplit : zeros n = zeros data.length ++ zeros (n - data.length) := by
    rw [← zeros_add, Nat.add_sub_cancel' h]
  rw [storeAt, if_pos (by rw [length_append, zeros_length]; omega)]
  nth_rewrite 1 [hSplit]
  simp [overwrite_middle _ _ _ _ (zeros_length _)]

theorem holding_append {content : List UInt8} (data : List UInt8)
    {n : Nat} (hMod : content.length % 4 = 0)
    (hRoom : content.length + data.length ≤ n) (hn : n % 4 = 0) :
    (content ++ data) ++ zeros (n - content.length - data.length) =
    (content ++ (data ++ padding data.length)) ++
        zeros (n - (content ++ (data ++ padding data.length)).length) := by
  have hAlign := le_align4 data.length
  have hPad : data.length + (padding data.length).length = align4 data.length := by
    rw [padding, zeros_length]
    omega
  have hTop : content.length + align4 data.length ≤ n := by
    unfold align4
    omega
  have hZeros : zeros (n - content.length - data.length) =
      padding data.length ++ zeros (n - (content.length + align4 data.length)) := by
    rw [padding, ← zeros_add]
    congr 1
    omega
  simp [hZeros, hPad]

section Filling
variable {content strings : List UInt8} {size strSize : Nat} (hContent : content.length ≤ size)
  (hSize : SizeOk size) (hStrings : StringsOk strings strSize)
    (hLen : strings.length ≤ mallocMaxSize)
include hContent hSize hStrings hLen

theorem fdtEnsureSpace_holding {dtsize : Nat}
    (hGrow : growDt size content.length dtsize ≤ mallocMaxSize) :
    fdtEnsureSpace (.holding content size strings strSize) dtsize =
      .ok (.holding content (growDt size content.length dtsize)
        strings (growStrings strSize strings.length)) := by
  obtain ⟨-, hRoom⟩ := growStrings_ok hStrings hLen
  obtain ⟨-, hMore⟩ := growDt_ok hSize content.length dtsize
  have hTotal : (Fdt.holding content size strings strSize).dt.length = size := by
    simp [Fdt.holding]
    omega
  have hNo : ¬(growStrings (Fdt.holding content size strings strSize).strSize
      (Fdt.holding content size strings strSize).strings.length = 0 ∨
      mallocMaxSize < growDt size (Fdt.holding content size strings strSize).dtNextofs dtsize) := by
    change ¬(growStrings strSize strings.length = 0 ∨
      mallocMaxSize < growDt size content.length dtsize)
    omega
  rw [fdtEnsureSpace, hTotal, if_neg hNo]
  have hZeros : zeros (size - content.length) ++ zeros (growDt size content.length dtsize - size) =
      zeros (growDt size content.length dtsize - content.length) := by
    rw [← zeros_add]
    congr 1
    omega
  simp [Fdt.holding, hZeros]

end Filling

theorem fdtEnsureSpace_same {fdt : Fdt} (hRoom : fdt.dtNextofs + 1024 ≤ fdt.dt.length)
    (hMax : fdt.dt.length ≤ mallocMaxSize) (hStrings : fdt.strings.length + 1024 ≤ fdt.strSize) :
    fdtEnsureSpace fdt 0 = .ok fdt := by
  have hGrow : growStrings fdt.strSize fdt.strings.length = fdt.strSize := by grind [growStrings]
  rw [fdtEnsureSpace, hGrow, growDt_enough hMax hRoom, if_neg (by omega), Nat.sub_self]
  exact congrArg (fun dt => Except.ok { fdt with dt := dt }) (append_nil _)

theorem lstrcpy_short {src : List UInt8} (h : src.length ≤ 1022) :
    lstrcpy src = (src ++ [0], src.length) := if_pos h

theorem dtAddString_room {fdt : Fdt} {str : List UInt8}
    (hRoom : fdt.dtNextofs + 1024 ≤ fdt.dt.length)
    (hMax : fdt.dt.length ≤ mallocMaxSize) (hStrings : fdt.strings.length + 1024 ≤ fdt.strSize)
    (hStr : str.length ≤ 1022) : dtAddString fdt str =
      .ok ({ fdt with strings := fdt.strings ++ (str ++ [0]) }, fdt.strings.length) := by
  have hLen : (str ++ [0]).length = str.length + 1 := by simp
  rw [dtAddString, fdtEnsureSpace_same hRoom hMax hStrings, lstrcpy_short hStr]
  dsimp only
  rw [if_neg (by rw [hLen]; omega), if_neg (by rw [enospc]; omega)]

theorem dtNextOfs_eq {ofs len : Nat} (hMod : ofs % 4 = 0) (hLt : ofs + len < 4294967296) :
    dtNextOfs ofs len = ofs + align4 len := by rw [dtNextOfs, Nat.mod_eq_of_lt hLt, align4_add hMod]

theorem padding_add {n : Nat} (h : n % 4 = 0) (m : Nat) : padding (n + m) = padding m := by
  rw [padding, padding, align4_add h]
  congr 1
  omega

section Writing
variable {content strings : List UInt8} {size strSize : Nat} (hMod : content.length % 4 = 0)
  (hContent : content.length ≤ size) (hSize : SizeOk size) (hStrings : StringsOk strings strSize)
  (hLen : strings.length ≤ mallocMaxSize)
include hMod hContent hSize hStrings hLen

theorem flattenBegin_holding {name : List UInt8}
    (hFits : (Item.beginNode name).Fits size content.length)
    (hMax : (Item.beginNode name).sizeAfter size content.length ≤ mallocMaxSize) :
    flattenBegin (.holding content size strings strSize) name =
      .ok (.holding (content ++ (Item.beginNode name).bytes strings.length)
        ((Item.beginNode name).sizeAfter size content.length) strings
          (growStrings strSize strings.length)) := by
  obtain ⟨hName, hRoom⟩ := hFits
  obtain ⟨hGrown, -⟩ := growDt_ok hSize content.length 0
  rw [sizeAfter] at hMax ⊢
  rw [flattenBegin, fdtEnsureSpace_holding hContent hSize hStrings hLen hMax, lstrcpy_short hName]
  generalize growDt size content.length 0 = size' at *
  have hData : (be 4 fdtBeginNode ++ (name ++ [0])).length = name.length + 5 := by simp; omega
  have hStore := @storeAt_end content (be 4 fdtBeginNode ++ (name ++ [0])) (size' - content.length)
    (by rw [hData]; omega)
  have hFill := @holding_append content (be 4 fdtBeginNode ++ (name ++ [0])) size' hMod
    (by rw [hData]; omega) hGrown.aligned
  have hBytes : (be 4 fdtBeginNode ++ (name ++ [0])) ++
      padding (be 4 fdtBeginNode ++ (name ++ [0])).length =
      (Item.beginNode name).bytes strings.length := by simp [hData, Item.bytes]
  rw [hFill, hBytes] at hStore
  have hOfs : dtNextOfs content.length (4 + name.length + 1) =
      (content ++ (Item.beginNode name).bytes strings.length).length := by
    rw [mallocMaxSize] at hMax
    rw [dtNextOfs_eq hMod (by omega), length_append, Item.bytes_length, Item.size]
    congr 2
    omega
  simp [Except.bind, Fdt.holding, hStore, Except.map, hOfs]

theorem flattenProp_holding {p : Property} (hFits : (prop p).Fits size content.length)
    (hMax : (prop p).sizeAfter size content.length ≤ mallocMaxSize) :
    flattenProp (.holding content size strings strSize) p =
    .ok (.holding (content ++ (prop p).bytes strings.length)
        ((prop p).sizeAfter size content.length) (strings ++ (prop p).string)
        (growStrings strSize strings.length)) := by
  obtain ⟨hName, hSlack, hRoom⟩ := hFits
  obtain ⟨hGrown, -⟩ := growDt_ok hSize content.length p.value.length
  obtain ⟨-, hStrRoom⟩ := growStrings_ok hStrings hLen
  rw [sizeAfter] at hMax ⊢
  rw [flattenProp, fdtEnsureSpace_holding hContent hSize hStrings hLen hMax]
  generalize growDt size content.length p.value.length = size' at *
  generalize growStrings strSize strings.length = strSize' at *
  -- the tag and the length, then the offset of the name and the value
  have hHead : (be 4 fdtProp ++ be 4 p.value.length).length = 8 := by simp
  have hTail : (be 4 strings.length ++ p.value).length = 4 + p.value.length := by simp
  have hBytes : ((be 4 fdtProp ++ be 4 p.value.length) ++ (be 4 strings.length ++ p.value)) ++
      padding (12 + p.value.length) = (prop p).bytes strings.length := by
    rw [padding_add rfl, bytes]
    rfl
  generalize be 4 fdtProp ++ be 4 p.value.length = head at *
  generalize hTailEq : be 4 strings.length ++ p.value = tail at *
  have hAll : (head ++ tail).length = 12 + p.value.length := by
    rw [length_append]
    omega
  have hFirst := @storeAt_end content head (size' - content.length) (by omega)
  have hSecond := @storeAt_end (content ++ head) tail (size' - content.length - head.length)
    (by omega)
  have hTotal : ((content ++ head) ++ zeros (size' - content.length - head.length)).length =
      size' := by
    simp
    omega
  have hFill := @holding_append content (head ++ tail) size' hMod (by omega) hGrown.aligned
  rw [hAll, hBytes] at hFill
  have hSecondZeros : size' - content.length - head.length - tail.length =
      size' - content.length - (12 + p.value.length) := by omega
  have hAt : (content ++ head).length = content.length + 8 := by rw [length_append, hHead]
  rw [hSecondZeros, append_assoc content head tail, hFill, hAt] at hSecond
  have hOfs : dtNextOfs content.length (12 + p.value.length) =
      (content ++ (prop p).bytes strings.length).length := by
    rw [mallocMaxSize] at hMax
    rw [dtNextOfs_eq hMod (by omega), length_append, Item.bytes_length, Item.size, Nat.add_comm 12]
  have hString := @dtAddString_room
    ⟨(content ++ head) ++ zeros (size' - content.length - head.length),
      content.length, strings, strSize'⟩ p.name
    (by rw [hTotal]; exact hSlack) (by rw [hTotal]; exact hMax) hStrRoom hName
  have hSame : (content ++ zeros (size' - content.length)).length = size' := by
    simp
    omega
  simp only [Except.bind, Fdt.holding, hFirst, hString]
  refine (if_neg (not_not_intro (hTotal.trans hSame.symm))).trans ?_
  rw [hTailEq, hSecond, Except.map, hOfs]
  rfl

omit hContent in
theorem flattenEnd_holding (hFits : endNode.Fits size content.length)
    (hMax : endNode.sizeAfter size content.length ≤ mallocMaxSize) :
    flattenEnd (.holding content size strings strSize) =
    .ok (.holding (content ++ endNode.bytes strings.length)
        (endNode.sizeAfter size content.length) strings (growStrings strSize strings.length)) := by
  rw [Item.Fits] at hFits
  rw [sizeAfter] at hMax ⊢
  have hData : (be 4 fdtEndNode).length = 4 := be_length _ _
  have hGrows := growDt_ok hSize (content.length + 4) 0
  have hStore := @storeAt_end content (be 4 fdtEndNode) (size - content.length)
    (by rw [hData]; omega)
  have hAfter : (content ++ be 4 fdtEndNode).length = content.length + 4 := by
    rw [length_append, hData]
  have hZeros : size - content.length - (be 4 fdtEndNode).length =
      size - (content ++ be 4 fdtEndNode).length := by
    rw [hData, hAfter]
    omega
  have hOfs : dtNextOfs content.length 4 = (content ++ be 4 fdtEndNode).length := by
    rw [mallocMaxSize] at hMax
    rw [dtNextOfs_eq hMod (by omega), hAfter]
    rfl
  rw [flattenEnd]
  simp only [Fdt.holding]
  rw [hStore, Except.bind, hZeros, hOfs]
  have hEnsure := @fdtEnsureSpace_holding (content ++ be 4 fdtEndNode) strings size strSize
    (by rw [hAfter]; exact hFits) hSize hStrings hLen 0 (by rw [hAfter]; exact hMax)
  rw [hAfter] at hEnsure
  exact hEnsure

end Writing

structure Held (content : List UInt8) (size : Nat) (strings : List UInt8) (strSize : Nat) :
    Prop where
  aligned : content.length % 4 = 0
  fits : content.length ≤ size
  size : SizeOk size
  strings : StringsOk strings strSize

section Items
variable {content strings : List UInt8} {size strSize : Nat} {item : Item}

theorem Item.Fits.size_le (h : item.Fits size content.length)
    (hHeld : Held content size strings strSize) :
    content.length + item.size ≤ item.sizeAfter size content.length := by
  have hAligned := hHeld.aligned
  cases item with
  | beginNode name =>
    obtain ⟨hSize, -⟩ := growDt_ok hHeld.size content.length 0
    have hMod := hSize.aligned
    obtain ⟨-, hRoom⟩ := h
    rw [Item.size, Item.sizeAfter, align4]
    omega
  | prop p =>
    obtain ⟨hSize, -⟩ := growDt_ok hHeld.size content.length p.value.length
    have hMod := hSize.aligned
    obtain ⟨-, -, hRoom⟩ := h
    rw [Item.size, Item.sizeAfter, align4]
    omega
  | endNode =>
    obtain ⟨-, hLe⟩ := growDt_ok hHeld.size (content.length + 4) 0
    exact Nat.le_trans h hLe

theorem Item.sizeAfter_ok (hSize : SizeOk size) (ofs : Nat) (item : Item) :
    SizeOk (item.sizeAfter size ofs) := by
  cases item with
  | beginNode name | prop p | endNode => exact (growDt_ok hSize _ _).1

def Item.Short : Item → Prop
  | .beginNode name => name.length ≤ 1022
  | .prop p => p.name.length ≤ 1022
  | .endNode => True

theorem Item.Fits.short {ofs : Nat} (h : item.Fits size ofs) : item.Short := by
  cases item with
  | beginNode name => exact h.1
  | prop p => exact h.1
  | endNode => trivial

theorem Item.Short.string_length (h : item.Short) : item.string.length ≤ 1023 := by
  cases item with
  | beginNode name | endNode => exact Nat.zero_le _
  | prop p =>
    rw [string, length_append]
    exact Nat.succ_le_succ h

variable (hHeld : Held content size strings strSize) (hLen : strings.length ≤ mallocMaxSize)
  (hFits : item.Fits size content.length)
    (hMax : item.sizeAfter size content.length ≤ mallocMaxSize)
include hHeld hLen hFits

theorem writeItem_held :
    Held (content ++ item.bytes strings.length) (item.sizeAfter size content.length)
    (strings ++ item.string) (growStrings strSize strings.length) := by
  obtain ⟨hStrings, hRoom⟩ := growStrings_ok hHeld.strings hLen
  have hLength : (content ++ item.bytes strings.length).length = content.length + item.size := by
    simp [bytes_length]
  have hMod := item.size_mod
  have hAligned := hHeld.aligned
  have hString := hFits.short.string_length
  refine ⟨by omega, ?_, sizeAfter_ok hHeld.size _ item, hStrings.append (by omega)⟩
  rw [hLength]
  exact hFits.size_le hHeld

include hMax

theorem writeItem_holding : writeItem (.holding content size strings strSize) item =
    .ok (.holding (content ++ item.bytes strings.length) (item.sizeAfter size content.length)
      (strings ++ item.string) (growStrings strSize strings.length)) := by
  cases item with
  | beginNode name =>
    have hWrite :=
      flattenBegin_holding hHeld.aligned hHeld.fits hHeld.size hHeld.strings hLen hFits hMax
    rw [show strings ++ (Item.beginNode name).string = strings from append_nil _]
    exact hWrite
  | prop p =>
      exact flattenProp_holding hHeld.aligned hHeld.fits hHeld.size hHeld.strings hLen hFits hMax
  | endNode =>
    have hWrite := flattenEnd_holding hHeld.aligned hHeld.size hHeld.strings hLen hFits hMax
    rw [show strings ++ endNode.string = strings from append_nil _]
    exact hWrite

end Items

theorem itemsStrings_cons (item : Item) (items : List Item) :
    itemsStrings (item :: items) = item.string ++ itemsStrings items := flatMap_cons

theorem foldlM_writeItem {items : List Item} {content strings : List UInt8} {size strSize : Nat}
    (hHeld : Held content size strings strSize)
    (hLen : (strings ++ itemsStrings items).length ≤ mallocMaxSize)
    (hRoomy : Roomy size content.length items) :
    ∃ size' strSize', items.foldlM writeItem (.holding content size strings strSize) =
        .ok (.holding (content ++ itemsBytes strings.length items)
          size' (strings ++ itemsStrings items) strSize') ∧
      (content ++ itemsBytes strings.length items).length + 4 ≤ size' := by
  induction items generalizing content strings size strSize with
  | nil =>
    refine ⟨size, strSize, ?_, ?_⟩
    · rw [itemsBytes, itemsStrings, flatMap_nil, append_nil, append_nil]
      rfl
    · rw [itemsBytes, append_nil]
      exact hRoomy
  | cons item rest ih =>
    obtain ⟨hFits, hMax, hRest⟩ := hRoomy
    rw [itemsStrings_cons, ← append_assoc] at hLen ⊢
    have hShort : strings.length ≤ mallocMaxSize := by grind
    have hNext := writeItem_held hHeld hShort hFits
    rw [foldlM_cons, writeItem_holding hHeld hShort hFits hMax]
    rw [← bytes_length strings.length, ← length_append] at hRest
    have hRun := ih hNext hLen hRest
    rw [itemsBytes, ← append_assoc, ← length_append]
    exact hRun

variable (root : Node)

def Node.structSize : Nat := ((nodeItems root).map size).sum

def imageHeader : FdtHeader :=
  ⟨structOfs + root.structSize + 4 + (itemsStrings (nodeItems root)).length,
    structOfs, root.structSize + 4,
    structOfs + root.structSize + 4, (itemsStrings (nodeItems root)).length⟩

def imageBody : List UInt8 :=
  itemsBytes 0 (nodeItems root) ++ (be 4 fdtEnd ++ itemsStrings (nodeItems root))

def image : List UInt8 :=
  fdtHeaderBytes (imageHeader root) ++
    ((reserveEntries root ++ zeros (256 - (reserveEntries root).length)) ++ imageBody root)

/-- There is room for all of a tree: every name is short enough to be copied, no item runs over
the buffer as it is enlarged, and the result is not larger than what can be allocated. -/
structure Node.Fits (root : Node) : Prop where
  roomy : Roomy 65536 structOfs (nodeItems root)
  total : (imageHeader root).totalsize ≤ mallocMaxSize

theorem itemsSize_mod (items : List Item) : (items.map size).sum % 4 = 0 := by
  induction items with
  | nil => rfl
  | cons item rest ih =>
    have hItem := item.size_mod
    simp
    omega

theorem fdtHeaderBytes_length (f : FdtHeader) : (fdtHeaderBytes f).length = 40 := by
  simp [fdtHeaderBytes]

theorem Fdt.start_eq : Fdt.start = .holding (zeros structOfs) 65536 [] 65536 := by
  rw [start, holding, zeros_length, ← zeros_add]
  rfl

theorem start_held : Held (zeros structOfs) 65536 [] 65536 :=
  ⟨by rw [zeros_length]; rfl, by rw [zeros_length]; decide, ⟨le_rfl, rfl⟩,
    ⟨Nat.zero_le _, le_rfl, .inl rfl⟩⟩

theorem storeAt_reserve {reg : List UInt8} (hReg : reg.length ≤ 256) (back : List UInt8) :
    storeAt (zeros structOfs ++ back) 40 reg =
    .ok (zeros 40 ++ ((reg ++ zeros (256 - reg.length)) ++ back)) := by
  have hZeros : zeros structOfs = zeros 40 ++ (zeros reg.length ++ zeros (256 - reg.length)) := by
    rw [← zeros_add, ← zeros_add]
    grind [structOfs, ofMaxReserveMap]
  have hIn : 40 + reg.length ≤ (zeros structOfs ++ back).length := by
    simp [structOfs, ofMaxReserveMap]
    omega
  have hFront := overwrite_middle (zeros 40) (zeros reg.length)
    (zeros (256 - reg.length) ++ back) reg (zeros_length _)
  grind [zeros_length, storeAt]

theorem storeAt_header {f : FdtHeader} (body back : List UInt8) :
    storeAt ((zeros 40 ++ body) ++ back) 0 (fdtHeaderBytes f) =
    .ok ((fdtHeaderBytes f ++ body) ++ back) := by
  have hLen := fdtHeaderBytes_length f
  rfl

theorem storeAt_strings (before strings : List UInt8) (n : Nat) :
    storeAt ((before ++ zeros n) ++
      zeros (before.length + strings.length - (before ++ zeros n).length))
        before.length strings = .ok ((before ++ strings) ++ zeros (n - strings.length)) := by
  have hZeros : zeros n ++ zeros (before.length + strings.length - (before ++ zeros n).length) =
      zeros (max n strings.length) := by
    rw [← zeros_add, length_append, zeros_length]
    congr 1
    omega
  have hLeft : max n strings.length - strings.length = n - strings.length := by omega
  rw [append_assoc, hZeros, storeAt_end (Nat.le_max_right _ _), hLeft]

theorem ok_bind {α β : Type} (a : α) (g : α → Except Failure β) : (Except.ok a).bind g = g a := rfl

theorem ofFlattenDtb_image {root : Node} (hFits : root.Fits)
    (hReg : (reserveEntries root).length ≤ 256) :
    ofFlattenDtb root = .ok (image root) := by
  have hTotal := hFits.total
  rw [imageHeader] at hTotal
  dsimp only at hTotal
  obtain ⟨size, strSize, hRun, hRoom⟩ := @foldlM_writeItem (nodeItems root) _ _ _ _ start_held
    (by rw [nil_append]; omega) (by rw [zeros_length]; exact hFits.roomy)
  rw [nil_append, length_nil] at hRun
  rw [length_nil] at hRoom
  have hItems : (itemsBytes 0 (nodeItems root)).length = root.structSize := itemsBytes_length 0 _
  have hContent : (zeros structOfs ++ itemsBytes 0 (nodeItems root)).length =
      structOfs + root.structSize := by
    simp [hItems]
  rw [hContent] at hRoom
  rw [ofFlattenDtb, flattenNode_items, Fdt.start_eq, hRun]
  have hMod : root.structSize % 4 = 0 := itemsSize_mod _
  have hNext : dtNextOfs (structOfs + root.structSize) 4 = structOfs + root.structSize + 4 := by
    rw [mallocMaxSize] at hTotal
    rw [dtNextOfs_eq (by rw [structOfs, ofMaxReserveMap]; omega) (by omega)]
    rfl
  rw [ok_bind]
  dsimp only [Fdt.holding]
  rw [append_assoc, storeAt_reserve hReg, ok_bind, hContent, hNext, image, imageBody, imageHeader]
  generalize hRegz : reserveEntries root ++ zeros (256 - (reserveEntries root).length) = regz
  have hRegzLen : regz.length = 256 := by grind [zeros_length]
  generalize itemsBytes 0 (nodeItems root) = items at *
  generalize itemsStrings (nodeItems root) = strings at *
  generalize root.structSize = total at *
  have hStruct : (zeros 40 ++ (regz ++ items)).length = structOfs + total := by
    rw [length_append, length_append, zeros_length, hRegzLen, hItems, ← Nat.add_assoc]
    rfl
  have hTag := @storeAt_end (zeros 40 ++ (regz ++ items)) (be 4 fdtEnd) (size - (structOfs + total))
    (by rw [be_length]; omega)
  have hBefore : (zeros 40 ++ (regz ++ items) ++ be 4 fdtEnd).length = structOfs + total + 4 := by
    rw [length_append, hStruct, be_length]
  have hStrings := storeAt_strings (zeros 40 ++ (regz ++ items) ++ be 4 fdtEnd) strings
    (size - (structOfs + total) - (be 4 fdtEnd).length)
  have hSizeDt : (structOfs + total + 4 + 4294967296 - structOfs) % 4294967296 = total + 4 := by
    rw [mallocMaxSize] at hTotal
    omega
  rw [hStruct] at hTag
  rw [hBefore] at hStrings
  rw [← append_assoc regz, ← append_assoc (zeros 40), hTag, ok_bind]
  rw [if_neg (by omega), hStrings, ok_bind, hSizeDt]
  have hBody : (zeros 40 ++ (regz ++ items) ++ be 4 fdtEnd) ++ strings =
      zeros 40 ++ (regz ++ (items ++ (be 4 fdtEnd ++ strings))) := by simp
  rw [hBody, storeAt_header]
  refine congrArg Except.ok (take_left' ?_)
  simp [fdtHeaderBytes_length, structOfs, ofMaxReserveMap]
  omega

end Barebox.Of
