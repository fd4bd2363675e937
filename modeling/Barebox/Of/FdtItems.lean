import Barebox.Of.Flatten

/-! The structure block of a flattened device tree as a list of items, and what the reader
makes of the bytes of such a list. -/
namespace Barebox.Of
open Bytes List Item Parse

def padding (n : Nat) : List UInt8 := zeros (align4 n - n)

def Item.string : Item → List UInt8
  | .prop p => p.name ++ [0]
  | _ => []

def Item.bytes (ofs : Nat) : Item → List UInt8
  | .beginNode name => be 4 fdtBeginNode ++ (name ++ 0 :: padding (name.length + 5))
  | .prop p =>
      be 4 fdtProp ++ (be 4 p.value.length ++ (be 4 ofs ++ (p.value ++ padding p.value.length)))
  | .endNode => be 4 fdtEndNode

def Item.size : Item → Nat
  | .beginNode name => align4 (name.length + 5)
  | .prop p => align4 (p.value.length + 12)
  | .endNode => 4

/-- All items, with the strings before them `ofs` bytes long. -/
def itemsBytes (ofs : Nat) : List Item → List UInt8
  | [] => []
  | item :: rest => item.bytes ofs ++ itemsBytes (ofs + item.string.length) rest

def itemsStrings (items : List Item) : List UInt8 := items.flatMap string

theorem le_align4 (n : Nat) : n ≤ align4 n := by
  unfold align4
  omega

theorem align4_mod (n : Nat) : align4 n % 4 = 0 := by simp [align4]

theorem align4_add {n : Nat} (h : n % 4 = 0) (m : Nat) : align4 (n + m) = n + align4 m := by
  unfold align4
  omega

theorem Item.bytes_length (ofs : Nat) (item : Item) : (item.bytes ofs).length = item.size := by
  cases item with
  | beginNode name =>
    have h := le_align4 (name.length + 5)
    simp [bytes, size, padding]
    omega
  | prop p =>
    have h := le_align4 p.value.length
    have hAdd : align4 (12 + p.value.length) = 12 + align4 p.value.length := align4_add rfl _
    simp [bytes, size, padding, Nat.add_comm p.value.length 12]
    omega
  | endNode => rfl

theorem Item.size_mod (item : Item) : item.size % 4 = 0 := by
  cases item with
  | beginNode name => exact align4_mod _
  | prop p => exact align4_mod _
  | endNode => rfl

theorem itemsBytes_length (ofs : Nat) (items : List Item) :
    (itemsBytes ofs items).length = (items.map size).sum := by
  induction items generalizing ofs with
  | nil => rfl
  | cons item rest ih => rw [itemsBytes, length_append, bytes_length, ih, map_cons, sum_cons]

section Reading
variable {blob front rest : List UInt8} {f : FdtHeader}

theorem load_middle {bytes : List UInt8} (h : blob = front ++ (bytes ++ rest)) :
    load blob front.length bytes.length = .ok bytes := by
  subst h
  rw [load_eq (by simp), slice_append_middle]

theorem load32_middle {n : Nat} (hn : n < 4294967296) (h : blob = front ++ (be 4 n ++ rest)) :
    load32 blob front.length = .ok n := by
  have hLoad := load_middle h
  rw [be_length] at hLoad
  rw [load32, hLoad]
  exact congrArg Except.ok (ofBe_be_of_lt hn)

variable {name : List UInt8} {size increment : Nat} {s' : Parse}

theorem strnlen_middle {maxlen : Nat} (hName : 0 ∉ name)
    (h : blob = front ++ (name ++ 0 :: rest)) (hMax : name.length < maxlen)
    (hIn : front.length + maxlen ≤ blob.length) :
    strnlen blob maxlen front.length = .ok name.length := by
  rw [strnlen_eq hIn]
  have hDrop : blob.drop front.length = name ++ 0 :: rest := by simp [h]
  obtain ⟨k, rfl⟩ : ∃ k, maxlen = name.length + (k + 1) := ⟨maxlen - name.length - 1, by omega⟩
  rw [slice, hDrop, take_length_add_append, take_succ_cons]
  exact congrArg (fun bytes => Except.ok bytes.length) (CString.untilZero_append ⟨name, hName⟩ _)

theorem dtStructAdvance_eq {dt : Nat} (hDt : dt % 4 = 0)
    (hIn : dt + align4 (size + increment) ≤ f.offDtStruct + f.sizeDtStruct)
    (hLimit : f.offDtStruct + f.sizeDtStruct < 4294967296) :
    dtStructAdvance f dt size increment = dt + align4 (size + increment) := by
  have hAlign := le_align4 (size + increment)
  grind [dtStructAdvance, align4]

theorem Parse.advance_eq {s : Parse} (hDt : s.dtStruct % 4 = 0) (hSize : 0 < size)
    (hIn : s.dtStruct + align4 (size + increment) ≤ f.offDtStruct + f.sizeDtStruct)
    (hLimit : f.offDtStruct + f.sizeDtStruct < 4294967296) :
    s.advance f size increment =
    .ok { s with dtStruct := s.dtStruct + align4 (size + increment) } := by
  have hAlign := le_align4 (size + increment)
  rw [advance, dtStructAdvance_eq hDt hIn hLimit, if_neg (by omega)]

theorem dtString_middle {strings before after : List UInt8} (hName : 0 ∉ name)
    (hStrings : blob = strings ++ (before ++ (name ++ 0 :: after)))
    (hOff : f.offDtStrings = strings.length)
    (hLen : f.sizeDtStrings = (before ++ (name ++ 0 :: after)).length) :
    dtString blob f before.length = .ok (some name) := by
  have hFront : (strings ++ before).length = f.offDtStrings + before.length := by simp [hOff]
  have hAt : blob = (strings ++ before) ++ (name ++ 0 :: after) := by simp [hStrings]
  have hTotal : blob.length = f.offDtStrings + f.sizeDtStrings := by simp [hStrings, hOff, hLen]
  simp only [length_append, length_cons] at hLen
  have hScan : strnlen blob (f.sizeDtStrings - before.length) (f.offDtStrings + before.length) =
      .ok name.length := by
    rw [← hFront]
    refine strnlen_middle hName hAt (by omega) ?_
    omega
  have hLoad : load blob (f.offDtStrings + before.length) name.length = .ok name := by
    rw [← hFront]
    exact load_middle hAt
  rw [dtString, if_neg (by omega), hScan]
  simp only [Except.bind, hLoad]
  rw [if_pos (by omega)]
  rfl

/-! The reader stands at the end of `front`, in the structure block. -/

variable {s : Parse} (hf : HeaderOk blob f) (hLimit : f.offDtStruct + f.sizeDtStruct < 4294967296)
  (hDt : s.dtStruct = front.length) (hMod : front.length % 4 = 0)
include hf hDt hMod

theorem unflattenTurn_tag {tag : Nat} (hTag : tag < 4294967296)
    (h : blob = front ++ (be 4 tag ++ rest))
    (hIn : front.length + 4 ≤ f.offDtStruct + f.sizeDtStruct) : unflattenTurn blob f s =
      if tag = fdtBeginNode then (beginNode blob f s).map .next else if tag = fdtEndNode then
        if s.inside = false then .error (.errno .einval) else (s.leave.advance f 4 0).map .next
      else if tag = fdtProp then (addProp blob f s).map .next
      else if tag = fdtNop then (s.advance f 4 0).map .next
      else if tag = fdtEnd then .ok (.done (s.node.plug s.parents))
      else .error (.errno .einval) := by
  have hStructs := hf.structs
  rw [unflattenTurn, dtPtrOk_eq hf, hDt, decide_eq_true ⟨hMod, by omega⟩, load32_middle hTag h]
  rfl

theorem unflattenTurn_finish (h : blob = front ++ (be 4 fdtEnd ++ rest))
    (hIn : front.length + 4 ≤ f.offDtStruct + f.sizeDtStruct) :
    unflattenTurn blob f s = .ok (.done (s.node.plug s.parents)) := by
  rw [unflattenTurn_tag hf hDt hMod (by decide) h hIn, if_neg (by decide), if_neg (by decide),
    if_neg (by decide), if_neg (by decide), if_pos rfl]

include hLimit

theorem unflattenTurn_begin (hName : 0 ∉ name)
    (h : blob = front ++ ((Item.beginNode name).bytes 0 ++ rest))
    (hIn : front.length + (Item.beginNode name).size ≤ f.offDtStruct + f.sizeDtStruct)
    (hFeed : s.feed (.beginNode name) = some s') :
    unflattenTurn blob f s =
    .ok (.next { s' with dtStruct := front.length + (Item.beginNode name).size }) := by
  have hSize := hf.size
  have hStructs := hf.structs
  have hAlign := le_align4 (name.length + 5)
  rw [Item.size] at hIn
  have hTag : blob = front ++
      (be 4 fdtBeginNode ++ ((name ++ 0 :: padding (name.length + 5)) ++ rest)) := by
    simp [h, bytes]
  have hFront : (front ++ be 4 fdtBeginNode).length = front.length + 4 := by simp
  have hAt : blob = (front ++ be 4 fdtBeginNode) ++
      (name ++ 0 :: (padding (name.length + 5) ++ rest)) := by
    rw [hTag]
    simp
  have hLen : strnlen blob (f.offDtStruct + f.sizeDtStruct - (s.dtStruct + 4)) (s.dtStruct + 4) =
      .ok name.length := by
    rw [hDt, ← hFront]
    exact strnlen_middle hName hAt (by omega) (by omega)
  have hLoad : load blob (s.dtStruct + 4) name.length = .ok name := by
    rw [hDt, ← hFront]
    exact load_middle hAt
  have hAdvance : s.advance f 5 name.length =
      .ok { s with dtStruct := s.dtStruct + align4 (5 + name.length) } := by
    refine advance_eq (by omega) (by decide) ?_ hLimit
    rw [hDt, Nat.add_comm 5]
    exact hIn
  rw [unflattenTurn_tag hf hDt hMod (by decide) hTag (by omega), if_pos rfl, beginNode]
  dsimp only
  rw [if_neg (by omega), hLen]
  simp only [Except.bind, hLoad, hAdvance]
  rw [if_neg (by omega)]
  rw [hDt, Nat.add_comm 5, size]
  dsimp only [feed] at hFeed
  split at hFeed
  · cases hFeed
  rw [if_neg (by assumption)]
  split at hFeed
  · rw [if_pos (by assumption)]
    split at hFeed <;> cases hFeed
    rw [if_neg (by assumption)]
    rfl
  rw [if_neg (by assumption)]
  split at hFeed <;> cases hFeed
  rw [if_neg (by assumption)]
  rfl

theorem unflattenTurn_end (h : blob = front ++ (endNode.bytes 0 ++ rest))
    (hIn : front.length + 4 ≤ f.offDtStruct + f.sizeDtStruct) (hFeed : s.feed .endNode = some s') :
    unflattenTurn blob f s = .ok (.next { s' with dtStruct := front.length + 4 }) := by
  rw [unflattenTurn_tag hf hDt hMod (by decide) h hIn, if_neg (by decide), if_pos rfl]
  dsimp only [feed] at hFeed
  split at hFeed <;> cases hFeed
  rw [if_neg (by assumption), advance_eq (by simp [hDt, hMod]) (by decide)
    (by rw [leave_dtStruct, hDt]; exact hIn) hLimit, leave_dtStruct, hDt]
  rfl

theorem unflattenTurn_prop {p : Property} {ofs : Nat} (hOfs : ofs < 4294967296)
    (hName : dtString blob f ofs = .ok (some p.name))
    (h : blob = front ++ ((prop p).bytes ofs ++ rest))
    (hIn : front.length + (prop p).size ≤ f.offDtStruct + f.sizeDtStruct)
    (hFeed : s.feed (.prop p) = some s') :
    unflattenTurn blob f s = .ok (.next { s' with dtStruct := front.length + (prop p).size }) := by
  have hStructs := hf.structs
  have hAlign := le_align4 (p.value.length + 12)
  rw [size] at hIn
  have hTag : blob = front ++ (be 4 fdtProp ++ (be 4 p.value.length ++ (be 4 ofs ++
      (p.value ++ (padding p.value.length ++ rest))))) := by
    rw [h, bytes]
    simp
  have hLen : load32 blob (s.dtStruct + 4) = .ok p.value.length := by
    have hAt : blob = (front ++ be 4 fdtProp) ++ (be 4 p.value.length ++ (be 4 ofs ++
        (p.value ++ (padding p.value.length ++ rest)))) := by simp [hTag]
    have hFront : (front ++ be 4 fdtProp).length = s.dtStruct + 4 := by simp [hDt]
    grind [load32_middle]
  have hNameoff : load32 blob (s.dtStruct + 8) = .ok ofs := by
    have hAt : blob = (front ++ (be 4 fdtProp ++ be 4 p.value.length)) ++ (be 4 ofs ++
        (p.value ++ (padding p.value.length ++ rest))) := by
      rw [hTag]
      simp
    have hFront : (front ++ (be 4 fdtProp ++ be 4 p.value.length)).length = s.dtStruct + 8 := by
      simp [hDt]
    rw [← hFront]
    exact load32_middle hOfs hAt
  have hValue : load blob (s.dtStruct + 12) p.value.length = .ok p.value := by
    have hAt : blob = (front ++ (be 4 fdtProp ++ (be 4 p.value.length ++ be 4 ofs))) ++
        (p.value ++ (padding p.value.length ++ rest)) := by
      rw [hTag]
      simp
    have hFront : (front ++ (be 4 fdtProp ++ (be 4 p.value.length ++ be 4 ofs))).length =
        s.dtStruct + 12 := by simp [hDt]
    rw [← hFront]
    exact load_middle hAt
  have hAdvance : s.advance f 12 p.value.length =
      .ok { s with dtStruct := s.dtStruct + align4 (12 + p.value.length) } := by
    refine advance_eq (by omega) (by decide) ?_ hLimit
    rw [hDt, Nat.add_comm 12]
    exact hIn
  rw [unflattenTurn_tag hf hDt hMod (by decide) hTag (by omega),
    if_neg (by decide), if_neg (by decide),
    if_pos rfl, addProp, dtPtrOk_eq hf, decide_eq_true ⟨by omega, by omega⟩, hLen, hNameoff]
  dsimp only [feed] at hFeed
  split at hFeed <;> cases hFeed
  simp only [Except.bind, hName, hAdvance, hValue, Except.map]
  rw [if_neg (by decide), if_neg (by assumption), hDt, Nat.add_comm 12, size]

end Reading

theorem Parse.feed_at {s s' : Parse} {item : Item} (h : s.feed item = some s') (dt : Nat) :
    feed { s with dtStruct := dt } item = some { s' with dtStruct := dt } := by
  cases item with
  | beginNode name =>
    dsimp only [feed] at h ⊢
    split at h
    · cases h
    rw [if_neg (by assumption)]
    split at h
    · rw [if_pos (by assumption)]
      split at h <;> cases h
      rw [if_neg (by assumption)]
    · rw [if_neg (by assumption)]
      split at h <;> cases h
      rw [if_neg (by assumption)]
  | prop p =>
    dsimp only [feed] at h ⊢
    split at h <;> cases h
    rw [if_neg (by assumption)]
  | endNode =>
    dsimp only [feed] at h ⊢
    split at h <;> cases h
    rw [if_neg (by assumption)]
    unfold leave
    cases s.parents <;> rfl

theorem foldlM_feed_at {items : List Item} {s s' : Parse} (h : items.foldlM feed s = some s')
    (dt : Nat) :
    items.foldlM feed { s with dtStruct := dt } = some { s' with dtStruct := dt } := by
  induction items generalizing s with
  | nil =>
    cases h
    rfl
  | cons item rest ih =>
    rw [foldlM_cons] at h ⊢
    cases hOne : s.feed item with
    | none =>
      rw [hOne] at h
      cases h
    | some mid =>
      rw [hOne] at h
      have hFeed : feed { s with dtStruct := dt } item = some { mid with dtStruct := dt } :=
        feed_at hOne dt
      grind

/-- Items the reader can take: no zero inside of a name. -/
def Item.Readable : Item → Prop
  | .beginNode name => 0 ∉ name
  | .prop p => 0 ∉ p.name
  | .endNode => True

/-- The reader goes through a list of items as `feed` does, and stops at the end of it. The
strings stand at the end of the input. -/
theorem unflattenLoop_items {blob strings before : List UInt8}
    {f : FdtHeader} (hf : HeaderOk blob f)
    (hLimit : f.offDtStruct + f.sizeDtStruct < 4294967296)
    (hStringsLimit : f.sizeDtStrings < 4294967296)
    {items : List Item} (hReadable : ∀ item ∈ items, item.Readable)
    {front rest : List UInt8} {s s' : Parse}
    (hDt : s.dtStruct = front.length) (hMod : front.length % 4 = 0)
    (h : blob = front ++ (itemsBytes before.length items ++ (be 4 fdtEnd ++ rest)))
    (hIn : front.length + ((items.map size).sum + 4) ≤ f.offDtStruct + f.sizeDtStruct)
    (hStrings : blob = strings ++ (before ++ itemsStrings items))
    (hOff : f.offDtStrings = strings.length)
    (hLen : f.sizeDtStrings = (before ++ itemsStrings items).length)
    (hFeed : items.foldlM feed s = some s') :
    unflattenLoop blob f s = .ok (s'.node.plug s'.parents) := by
  induction items generalizing s s' front before with
  | nil =>
    cases hFeed
    exact unflattenLoop_done (unflattenTurn_finish hf hDt hMod h hIn)
  | cons item items ih =>
    rw [foldlM_cons] at hFeed
    rcases hOne : s.feed item with _ | mid
    · rw [hOne] at hFeed
      cases hFeed
    rw [hOne] at hFeed
    rw [map_cons, sum_cons] at hIn
    have hAt : blob = front ++ (item.bytes before.length ++
        (itemsBytes (before.length + item.string.length) items ++
          (be 4 fdtEnd ++ rest))) := by simp [h, itemsBytes]
    have hHere : front.length + item.size ≤ f.offDtStruct + f.sizeDtStruct := by omega
    have hTurn : unflattenTurn blob f s =
        .ok (.next { mid with dtStruct := front.length + item.size }) := by
      have hRead := hReadable item (.head _)
      cases item with
      | beginNode name => exact unflattenTurn_begin hf hLimit hDt hMod hRead hAt hHere hOne
      | endNode => exact unflattenTurn_end hf hLimit hDt hMod hAt hHere hOne
      | prop p =>
        have hName : dtString blob f before.length = .ok (some p.name) := by
          have hSplit : before ++ itemsStrings (.prop p :: items) =
              before ++ (p.name ++ 0 :: itemsStrings items) := by
            simp [itemsStrings, string]
          rw [hSplit] at hStrings hLen
          exact dtString_middle hRead hStrings hOff hLen
        have hOfs : before.length < 4294967296 := by
          rw [length_append] at hLen
          omega
        exact unflattenTurn_prop hf hLimit hDt hMod hOfs hName hAt hHere hOne
    rw [unflattenLoop_next hTurn]
    have hNext : blob = (front ++ item.bytes before.length) ++
        (itemsBytes (before ++ item.string).length items ++ (be 4 fdtEnd ++ rest)) := by simp [hAt]
    have hRest : before ++ itemsStrings (item :: items) =
        (before ++ item.string) ++ itemsStrings items := by
      simp [itemsStrings]
    rw [hRest] at hStrings hLen
    have hFrontLen : (front ++ item.bytes before.length).length = front.length + item.size := by
      simp [bytes_length]
    have hItemMod := item.size_mod
    have hRun := foldlM_feed_at hFeed (front.length + item.size)
    have hLoop := ih (fun item' hItem => hReadable item' (.tail _ hItem)) hFrontLen.symm
      (by omega) hNext (by omega) hStrings hLen hRun
    exact hLoop

end Barebox.Of
