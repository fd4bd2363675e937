import Barebox.Of.Fdt

/-! Reading a flattened device tree stays within the input, comes to an end, and gives a tree
made of pieces of the input. -/
namespace Barebox.Of
open Bytes List

def NoFault {α : Type} (x : Except Failure α) : Prop := x ≠ .error .fault

section NoFault
variable {α β : Type}

theorem noFault_ok (a : α) : NoFault (.ok a : Except Failure α) := fun h => by cases h
theorem noFault_errno (e : Errno) : NoFault (.error (.errno e) : Except Failure α) :=
  fun h => by cases h

variable {x : Except Failure α}

theorem NoFault.bind {g : α → Except Failure β} (h : NoFault x)
    (hg : ∀ a, x = .ok a → NoFault (g a)) : NoFault (x.bind g) := by
  cases x with
  | error e => exact fun hFault => h (congrArg Except.error (Except.error.inj hFault))
  | ok a => exact hg a rfl

theorem NoFault.map (g : α → β) (h : NoFault x) : NoFault (x.map g) := by
  cases x with
  | error e => exact fun hFault => h (congrArg Except.error (Except.error.inj hFault))
  | ok a => exact noFault_ok (g a)

end NoFault

section Reads
variable {blob : List UInt8} {off len : Nat}

theorem load_eq (h : off + len ≤ blob.length) : load blob off len = .ok (slice off len blob) :=
  if_pos h

theorem load_noFault (h : off + len ≤ blob.length) : NoFault (load blob off len) := by
  rw [load_eq h]
  exact noFault_ok _

theorem load32_noFault (h : off + 4 ≤ blob.length) : NoFault (load32 blob off) :=
  (load_noFault h).map _

theorem load_inside {bytes : List UInt8} (h : load blob off len = .ok bytes) : bytes <:+: blob := by
  unfold load at h
  split at h
  · cases h
    exact (List.take_prefix _ _).isInfix.trans (drop_suffix _ _).isInfix
  · cases h

theorem slice_succ (h : off + (len + 1) ≤ blob.length) :
    ∃ b, slice off 1 blob = [b] ∧ slice off (len + 1) blob = b :: slice (off + 1) len blob := by
  have hLt : off < blob.length := by omega
  refine ⟨blob[off], ?_, ?_⟩
  · rw [slice, drop_eq_getElem_cons hLt, take_succ_cons, take_zero]
  · rw [slice, drop_eq_getElem_cons hLt, take_succ_cons, slice]

variable {maxlen : Nat} (h : off + maxlen ≤ blob.length)
include h

theorem strnlen_eq : strnlen blob maxlen off = .ok (untilZero (slice off maxlen blob)).length := by
  induction maxlen generalizing off with
  | zero => simp [strnlen, slice, untilZero]
  | succ maxlen ih =>
    obtain ⟨b, hByte, hSlice⟩ := slice_succ h
    rw [strnlen, load_eq (by omega), hByte, hSlice, untilZero]
    by_cases hb : b = 0
    · simp [Except.bind, hb]
    · have hRest : strnlen blob maxlen (off + 1) = _ := ih (by omega)
      simp [untilZero, Except.bind, hb, hRest, Except.map]

theorem strnlen_le {n : Nat} (hn : strnlen blob maxlen off = .ok n) : n ≤ maxlen := by
  rw [strnlen_eq h] at hn
  cases hn
  refine (List.takeWhile_prefix _).length_le.trans ?_
  simp [slice]

theorem strnlen_noFault : NoFault (strnlen blob maxlen off) := by
  rw [strnlen_eq h]
  exact noFault_ok _

end Reads

structure HeaderOk (blob : List UInt8) (f : FdtHeader) : Prop where
  long : 40 ≤ blob.length
  total : load32 blob 4 = .ok f.totalsize
  size : f.totalsize ≤ blob.length
  structs : f.offDtStruct + f.sizeDtStruct ≤ f.totalsize
  strings : f.offDtStrings + f.sizeDtStrings ≤ f.totalsize

theorem fdtParseHeader_noFault (blob : List UInt8) : NoFault (fdtParseHeader blob) := by
  unfold fdtParseHeader
  by_cases hLong : blob.length < 40
  · simp [if_pos hLong, noFault_errno]
  rw [if_neg hLong]
  refine (load32_noFault (by omega)).bind fun magic _ => ?_
  split
  · exact noFault_errno _
  refine (load32_noFault (by omega)).bind fun version _ => ?_
  split
  · exact noFault_errno _
  refine (load32_noFault (by omega)).bind fun totalsize _ => ?_
  refine (load32_noFault (by omega)).bind fun offDtStruct _ => ?_
  refine (load32_noFault (by omega)).bind fun sizeDtStruct _ => ?_
  refine (load32_noFault (by omega)).bind fun offDtStrings _ => ?_
  refine (load32_noFault (by omega)).bind fun sizeDtStrings _ => ?_
  split
  · exact noFault_errno _
  split
  · exact noFault_errno _
  split
  · exact noFault_errno _
  · exact noFault_ok _

theorem fdtParseHeader_ok {blob : List UInt8} {f : FdtHeader} (h : fdtParseHeader blob = .ok f) :
    HeaderOk blob f := by
  unfold fdtParseHeader at h
  by_cases hLong : blob.length < 40
  · rw [if_pos hLong] at h
    cases h
  rw [if_neg hLong] at h
  obtain ⟨magic, -, h⟩ := bind_eq_ok h
  split at h
  · cases h
  obtain ⟨version, -, h⟩ := bind_eq_ok h
  split at h
  · cases h
  obtain ⟨totalsize, hTotal, h⟩ := bind_eq_ok h
  obtain ⟨offDtStruct, -, h⟩ := bind_eq_ok h
  obtain ⟨sizeDtStruct, -, h⟩ := bind_eq_ok h
  obtain ⟨offDtStrings, -, h⟩ := bind_eq_ok h
  obtain ⟨sizeDtStrings, -, h⟩ := bind_eq_ok h
  split at h
  · cases h
  split at h
  · cases h
  split at h <;> cases h
  exact ⟨by omega, hTotal, by dsimp only; omega, by dsimp only; omega, by dsimp only; omega⟩

section Accepted
variable {blob : List UInt8} {f : FdtHeader} (hf : HeaderOk blob f)
include hf

theorem dtPtrOk_eq (off elemSize elemAlign : Nat) : dtPtrOk blob off elemSize elemAlign =
    .ok (decide (off % elemAlign = 0 ∧ off + elemSize ≤ f.totalsize)) := by
  rw [dtPtrOk, hf.total]
  rfl

theorem reservemapNumEntries_noFault (left r : Nat) :
    NoFault (reservemapNumEntries blob left r) := by
  induction left generalizing r with
  | zero =>
    rw [reservemapNumEntries, dtPtrOk_eq hf]
    exact noFault_errno _
  | succ left ih =>
    rw [reservemapNumEntries, dtPtrOk_eq hf]
    change NoFault (if _ then _ else _)
    split
    · rename_i hOk
      obtain ⟨-, hIn⟩ := of_decide_eq_true hOk
      have hSize := hf.size
      refine (load_noFault (by omega)).bind fun size _ => ?_
      split
      · exact noFault_ok _
      · exact (ih (r + 16)).map _
    · exact noFault_errno _

theorem reservemapNumEntries_spec {left r n : Nat} (h : reservemapNumEntries blob left r = .ok n) :
    n < left ∧ (n ≠ 0 → r + 16 * n ≤ f.totalsize) ∧ ∀ i < n,
    ofBe (slice (r + (16 * i + 8)) 8 blob) ≠ 0 := by
  have hSize := hf.size
  induction left generalizing r n with
  | zero =>
    rw [reservemapNumEntries, dtPtrOk_eq hf] at h
    cases h
  | succ left ih =>
    rw [reservemapNumEntries, dtPtrOk_eq hf] at h
    change (if _ then _ else _) = _ at h
    split at h
    · rename_i hOk
      obtain ⟨-, hIn⟩ := of_decide_eq_true hOk
      rw [load_eq (by omega)] at h
      change (if _ then _ else _) = _ at h
      split at h
      · cases h
        exact ⟨by omega, by omega, fun i hi => by omega⟩
      rename_i hNonzero
      obtain ⟨m, hRest, rfl⟩ := map_eq_ok h
      obtain ⟨hLt, hMore, hAll⟩ := ih hRest
      refine ⟨by omega, by omega, fun i hi => ?_⟩
      cases i with
      | zero => exact hNonzero
      | succ i =>
        have hOne := hAll i (by omega)
        rwa [show r + 16 + (16 * i + 8) = r + (16 * (i + 1) + 8) by omega] at hOne
    · cases h

theorem ofUnflattenReservemap_noFault : NoFault (ofUnflattenReservemap blob) := by
  have hLong := hf.long
  have hSize := hf.size
  refine (load32_noFault (by omega)).bind fun off _ => ?_
  refine (reservemapNumEntries_noFault hf _ off).bind fun n hn => ?_
  split
  · exact noFault_ok _
  · rename_i hZero
    have hIn := (reservemapNumEntries_spec hf hn).2.1 hZero
    exact (load_noFault (by omega)).map _

variable (s : Parse)

omit hf in
theorem advance_noFault (size increment : Nat) : NoFault (s.advance f size increment) := by
  unfold Parse.advance
  dsimp only
  split
  · exact noFault_errno _
  · exact noFault_ok _

theorem beginNode_noFault : NoFault (beginNode blob f s) := by
  have hSize := hf.size
  have hStructs := hf.structs
  unfold beginNode
  by_cases hMax : f.offDtStruct + f.sizeDtStruct ≤ s.dtStruct + 4
  · rw [if_pos hMax]
    exact noFault_errno _
  rw [if_neg hMax]
  have hIn : s.dtStruct + 4 + (f.offDtStruct + f.sizeDtStruct - (s.dtStruct + 4)) ≤
      blob.length := by omega
  refine (strnlen_noFault hIn).bind fun len hLen => ?_
  split
  · exact noFault_errno _
  refine (load_noFault (by omega)).bind fun name _ => (advance_noFault s _ _).bind fun s' _ => ?_
  split
  · exact noFault_errno _
  split
  all_goals
    split
    · exact noFault_errno _
    · exact noFault_ok _

theorem dtString_noFault (ofs : Nat) : NoFault (dtString blob f ofs) := by
  have hSize := hf.size
  have hStrings := hf.strings
  unfold dtString
  split
  · exact noFault_ok _
  refine (strnlen_noFault (by omega)).bind fun len _ => ?_
  split
  · exact (load_noFault (by omega)).map _
  · exact noFault_ok _

theorem addProp_noFault : NoFault (addProp blob f s) := by
  have hSize := hf.size
  have hStructs := hf.structs
  unfold addProp
  rw [dtPtrOk_eq hf]
  change NoFault (if _ then _ else _)
  split
  · exact noFault_errno _
  rename_i hOk
  obtain ⟨-, hIn⟩ := of_decide_eq_true (Bool.not_eq_false _ ▸ hOk)
  refine (load32_noFault (by omega)).bind fun len _ => ?_
  refine (load32_noFault (by omega)).bind fun ofs _ => ?_
  refine (dtString_noFault hf ofs).bind fun name _ => ?_
  rcases name with _ | name
  · exact noFault_errno _
  dsimp only
  split
  · exact noFault_errno _
  refine (advance_noFault s _ _).bind fun s' hAdvance => ?_
  obtain ⟨-, hLow, hHigh⟩ := Parse.advance_spec hAdvance
  exact (load_noFault (by omega)).map _

theorem unflattenTurn_noFault : NoFault (unflattenTurn blob f s) := by
  have hSize := hf.size
  unfold unflattenTurn
  rw [dtPtrOk_eq hf]
  change NoFault (if _ then _ else _)
  split
  · exact noFault_errno _
  rename_i hOk
  obtain ⟨-, hIn⟩ := of_decide_eq_true (Bool.not_eq_false _ ▸ hOk)
  refine (load32_noFault (by omega)).bind fun tag _ => ?_
  split
  · exact (beginNode_noFault hf s).map _
  split
  · split
    · exact noFault_errno _
    · exact (advance_noFault _ _ _).map _
  split
  · exact (addProp_noFault hf s).map _
  split
  · exact (advance_noFault _ _ _).map _
  split
  · exact noFault_ok _
  · exact noFault_errno _

/-- No turn reads outside of the blob. -/
theorem unflattenLoop_noFault : NoFault (unflattenLoop blob f s) := by
  refine unflattenLoop_induction (fun _ => True) NoFault (fun _ _ _ _ => trivial) ?_ ?_ trivial
  · intro s root _ _
    exact noFault_ok _
  · intro s e _ hTurn hFault
    cases hFault
    exact unflattenTurn_noFault hf s hTurn

end Accepted

theorem ofUnflattenDtb_noFault (blob : List UInt8) : NoFault (ofUnflattenDtb blob) := by
  refine (fdtParseHeader_noFault blob).bind fun f hf => ?_
  have hOk := fdtParseHeader_ok hf
  exact (ofUnflattenReservemap_noFault hOk).bind fun _ _ => unflattenLoop_noFault hOk _

/-- A tree whose names and values are pieces of the input, apart from the node that stands for
the reserve map: of that one, the value is. -/
inductive Node.Copied (blob : List UInt8) : Node → Prop where
  | memreserve {reg : List UInt8} : reg <:+: blob → Copied blob (memreserveNode reg)
  | mk {name : List UInt8} {properties : List Property} {children : List Node} : name <:+: blob →
      (∀ p ∈ properties, p.name <:+: blob ∧ p.value <:+: blob) → (∀ c ∈ children, Copied blob c) →
      Copied blob (.mk name properties children)

def Node.Open (blob : List UInt8) (node : Node) : Prop :=
  node.name <:+: blob ∧ (∀ p ∈ node.properties, p.name <:+: blob ∧ p.value <:+: blob) ∧
    ∀ c ∈ node.children, c.Copied blob

section Copied
variable {blob : List UInt8} {node : Node} (h : node.Open blob)
include h

theorem Node.Open.copied : node.Copied blob := by
  cases node with
  | mk name properties children => exact .mk h.1 h.2.1 h.2.2

theorem Node.Open.addProperty {p : Property} (hp : p.name <:+: blob ∧ p.value <:+: blob) :
    (node.addProperty p).Open blob := by
  cases node with
  | mk name properties children =>
    exact ⟨h.1, forall_mem_append.mpr ⟨h.2.1, forall_mem_singleton.mpr hp⟩, h.2.2⟩

theorem Node.Open.addChild {child : Node} (hChild : child.Copied blob) :
    (node.addChild child).Open blob := by
  cases node with
  | mk name properties children =>
    exact ⟨h.1, h.2.1, forall_mem_append.mpr ⟨h.2.2, forall_mem_singleton.mpr hChild⟩⟩

theorem Node.Open.plug {parents : List Node} (hParents : ∀ p ∈ parents, p.Open blob) :
    (node.plug parents).Open blob := by
  induction parents generalizing node with
  | nil => exact h
  | cons parent rest ih =>
    exact ih ((hParents parent (.head _)).addChild h.copied) fun p hp =>
      hParents p (.tail _ hp)

omit h

def Parse.Open (blob : List UInt8) (s : Parse) : Prop :=
  s.node.Open blob ∧ ∀ p ∈ s.parents, p.Open blob

theorem Parse.Open.leave {s : Parse} (h : s.Open blob) : s.leave.Open blob := by
  rcases hParents : s.parents with _ | ⟨parent, rest⟩
  · rw [Parse.leave, hParents]
    exact ⟨h.1, fun p hp => by cases hp⟩
  have hRest := h.2
  rw [hParents] at hRest
  rw [Parse.leave, hParents]
  exact ⟨(hRest parent (.head _)).addChild h.1.copied, fun p hp =>
    hRest p (.tail _ hp)⟩

variable {s s' : Parse} {f : FdtHeader}

theorem Parse.Open.advance {size increment : Nat} (h : s.Open blob)
    (hAdvance : s.advance f size increment = .ok s') : s'.Open blob := by
  rw [(Parse.advance_spec hAdvance).1]
  exact h

theorem dtString_inside {ofs : Nat} {name : List UInt8}
    (h : dtString blob f ofs = .ok (some name)) : name <:+: blob := by
  unfold dtString at h
  split at h
  · cases h
  obtain ⟨len, -, h⟩ := bind_eq_ok h
  split at h
  · obtain ⟨bytes, hLoad, hEq⟩ := map_eq_ok h
    cases hEq
    exact load_inside hLoad
  · cases h

def Item.Copied (blob : List UInt8) : Item → Prop
  | .beginNode name => name <:+: blob
  | .prop p => p.name <:+: blob ∧ p.value <:+: blob
  | .endNode => True

theorem Parse.Open.feed {s s' : Parse} {item : Item} (h : s.Open blob) (hItem : item.Copied blob)
    (hFeed : s.feed item = some s') : s'.Open blob := by
  cases item with
  | beginNode name =>
    dsimp only [Parse.feed] at hFeed
    split at hFeed
    · cases hFeed
    split at hFeed
    · split at hFeed <;> cases hFeed
      exact h
    split at hFeed <;> cases hFeed
    exact ⟨⟨hItem, (fun p hp => by cases hp), fun c hc => by cases hc⟩,
      forall_mem_cons.mpr ⟨h.1, h.2⟩⟩
  | prop p =>
    dsimp only [Parse.feed] at hFeed
    split at hFeed <;> cases hFeed
    exact ⟨h.1.addProperty hItem, h.2⟩
  | endNode =>
    dsimp only [Parse.feed] at hFeed
    split at hFeed <;> cases hFeed
    exact h.leave

theorem Parse.Open.turn (h : s.Open blob) (hTurn : Continues blob f s s') : s'.Open blob := by
  cases hTurn with
  | beginNode hStep =>
    obtain ⟨len, name, s₁, t, -, -, hName, -, hFeed, rfl⟩ := beginNode_spec hStep
    have hItem : Item.Copied blob (.beginNode name) := load_inside hName
    have hOpen := h.feed hItem hFeed
    exact hOpen
  | endNode _ hStep => exact h.leave.advance hStep
  | prop hStep =>
    obtain ⟨len, ofs, p, s₁, t, hName, hValue, -, hFeed, rfl⟩ := addProp_spec hStep
    have hItem : Item.Copied blob (.prop p) := ⟨dtString_inside hName, load_inside hValue⟩
    have hOpen := h.feed hItem hFeed
    exact hOpen
  | nop hStep => exact h.advance hStep

theorem ofUnflattenReservemap_copied {reserved : List Node}
    (h : ofUnflattenReservemap blob = .ok reserved) :
    ∀ c ∈ reserved, c.Copied blob := by
  obtain ⟨off, -, h⟩ := bind_eq_ok h
  obtain ⟨n, -, h⟩ := bind_eq_ok h
  split at h
  · cases h
    exact fun c hc => by cases hc
  obtain ⟨reg, hReg, rfl⟩ := map_eq_ok h
  intro c hc
  rw [mem_singleton.mp hc]
  exact .memreserve (load_inside hReg)

theorem ofUnflattenDtb_copied {tree : Node} (h : ofUnflattenDtb blob = .ok tree) :
    tree.Copied blob := by
  obtain ⟨f, -, h⟩ := bind_eq_ok h
  obtain ⟨reserved, hReserved, h⟩ := bind_eq_ok h
  have hStart : Parse.Open blob ⟨f.offDtStruct, 0, false, .mk [] [] reserved, []⟩ :=
    ⟨⟨List.nil_infix, fun p hp => (by cases hp), ofUnflattenReservemap_copied hReserved⟩,
      fun p hp => by cases hp⟩
  obtain ⟨s, hs, rfl⟩ := unflattenLoop_ok (Parse.Open blob) (fun s s' hs => hs.turn) hStart h
  exact (hs.1.plug hs.2).copied

end Copied

def reserveBlob : List UInt8 :=
  be 4 fdtMagic ++ be 4 88 ++ be 4 72 ++ be 4 88 ++ be 4 40 ++
    be 4 17 ++ be 4 16 ++ be 4 0 ++ be 4 0 ++
    be 4 16 ++ (be 8 4096 ++ be 8 4096) ++ zeros 16 ++ be 4 1 ++ be 4 0 ++ be 4 2 ++ be 4 9

def reserveTree : Node := .mk [] [] [memreserveNode (be 8 4096 ++ be 8 4096)]

theorem ofUnflattenDtb_reserveBlob : ofUnflattenDtb reserveBlob = .ok reserveTree := by
  have hBegin : unflattenTurn reserveBlob ⟨88, 72, 16, 88, 0⟩ ⟨72, 0, false, reserveTree, []⟩ =
      .ok (.next ⟨80, 1, true, reserveTree, []⟩) := rfl
  have hEnd : unflattenTurn reserveBlob ⟨88, 72, 16, 88, 0⟩ ⟨80, 1, true, reserveTree, []⟩ =
      .ok (.next ⟨84, 0, false, reserveTree, []⟩) := rfl
  exact (unflattenLoop_next hBegin).trans ((unflattenLoop_next hEnd).trans (unflattenLoop_done rfl))

end Barebox.Of
