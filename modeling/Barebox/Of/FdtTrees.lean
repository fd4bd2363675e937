import Barebox.Of.FdtItems

/-! The trees that reading a flattened device tree can give, and the items such a tree is
flattened to: fed to the reader, they give the tree again. -/
namespace Barebox.Of
open Bytes List Parse

def propItems (properties : List Property) : List Item :=
  (properties.filter fun p => !isReservedName p.name).map .prop

mutual

/-- The items `__of_flatten_dtb` writes for a node. -/
def nodeItems : Node → List Item
  | .mk name properties children =>
    .beginNode name :: (propItems properties ++ (childItems children ++ [.endNode]))

def childItems : List Node → List Item
  | [] => []
  | child :: rest => if isReservedName child.name then childItems rest
      else nodeItems child ++ childItems rest

end

structure Property.Good (p : Property) : Prop where
  allowed : isAllowedInputName p.name = true
  nonzero : 0 ∉ p.name

/-- A node below the root that the reader can give, with at most `n` levels. -/
inductive Node.Good : Nat → Node → Prop where
  | mk {n : Nat} {name : List UInt8} {properties : List Property} {children : List Node}
      (hName : name ≠ [])
      (hAllowed : isAllowedInputName name = true) (hZero : 0 ∉ name)
        (hProps : ∀ p ∈ properties, p.Good)
      (hChildren : ∀ c ∈ children, Good n c) : Good (n + 1) (.mk name properties children)

theorem not_reserved_of_allowed {name : List UInt8} (h : isAllowedInputName name = true) :
    isReservedName name = false := by
  simp only [isAllowedInputName, Bool.not_eq_true', decide_eq_true_eq] at h
  exact h.1

section Feed
variable {dt depth : Nat} {name : List UInt8} {kids parents : List Node}

theorem foldlM_propItems {properties : List Property} (h : ∀ p ∈ properties, p.Good)
    (before : List Property) :
    (propItems properties).foldlM feed ⟨dt, depth, true, .mk name before kids, parents⟩ =
      some ⟨dt, depth, true, .mk name (before ++ properties) kids, parents⟩ := by
  induction properties generalizing before with
  | nil =>
    rw [append_nil]
    rfl
  | cons p rest ih =>
    have hp := h p (.head _)
    have hItems : propItems (p :: rest) = .prop p :: propItems rest := by
      rw [propItems, filter_cons, if_pos (by rw [not_reserved_of_allowed hp.allowed]; rfl)]
      rfl
    have hFeed : feed ⟨dt, depth, true, .mk name before kids, parents⟩ (.prop p) =
        some ⟨dt, depth, true, .mk name (before ++ [p]) kids, parents⟩ := by
      dsimp only [feed]
      rw [if_neg (by simp [hp.allowed])]
      rfl
    have hRest := ih (fun q hq => h q (.tail _ hq)) (before ++ [p])
    grind

def Fed (n : Nat) (node : Node) : Prop :=
  ∀ dt depth name properties kids parents, depth + n ≤ fdtMaxDepth →
    (nodeItems node).foldlM feed ⟨dt, depth, true, .mk name properties kids, parents⟩ =
      some ⟨dt, depth, true, .mk name properties (kids ++ [node]), parents⟩

theorem foldlM_childItems {n : Nat} {children : List Node}
    (h : ∀ c ∈ children, isReservedName c.name = false ∧ Fed n c)
    (hDepth : depth + n ≤ fdtMaxDepth) (properties : List Property) (before : List Node) :
    (childItems children).foldlM feed ⟨dt, depth, true, .mk name properties before, parents⟩ =
      some ⟨dt, depth, true, .mk name properties (before ++ children), parents⟩ := by
  induction children generalizing before with
  | nil =>
    simp [childItems]
  | cons c rest ih =>
    obtain ⟨hReserved, hFed⟩ := h c (.head _)
    have hRest := ih (fun d hd => h d (.tail _ hd)) (before ++ [c])
    rw [childItems, if_neg (by simp [hReserved]), foldlM_append, hFed _ _ _ _ _ _ hDepth]
    rwa [append_assoc, singleton_append] at hRest

end Feed

theorem Node.Good.not_reserved {n : Nat} {node : Node} (h : node.Good n) :
    isReservedName node.name = false := by
  cases h with
  | mk hName hAllowed hZero hProps hChildren => exact not_reserved_of_allowed hAllowed

theorem Node.Good.fed {n : Nat} {node : Node} (h : node.Good n) : Fed n node := by
  induction h with
  | @mk n name properties children hName hAllowed hZero hProps hChildren ih =>
    intro dt depth parent siblingProps siblings parents hDepth
    have hBegin : feed ⟨dt, depth, true, .mk parent siblingProps siblings, parents⟩
        (.beginNode name) =
        some ⟨dt, depth + 1, true, .mk name [] [],
          .mk parent siblingProps siblings :: parents⟩ := by grind [feed]
    have hKids : ∀ c ∈ children, isReservedName c.name = false ∧ Fed n c := fun c hc =>
      ⟨(hChildren c hc).not_reserved, ih c hc⟩
    rw [nodeItems, foldlM_cons, hBegin]
    change (propItems properties ++ (childItems children ++ [Item.endNode])).foldlM feed
      ⟨dt, depth + 1, true, .mk name [] [], .mk parent siblingProps siblings :: parents⟩ = _
    rw [foldlM_append, foldlM_propItems hProps]
    change (childItems children ++ [Item.endNode]).foldlM feed
      ⟨dt, depth + 1, true, .mk name properties [], .mk parent siblingProps siblings :: parents⟩ = _
    rw [foldlM_append, foldlM_childItems hKids (by omega)]
    rfl

/-- The value of the reserve map node: between one and fifteen entries, none of size zero. -/
def ReserveOk (reg : List UInt8) (n : Nat) : Prop :=
  0 < n ∧ n < ofMaxReserveMap ∧ reg.length = 16 * n ∧ ∀ i < n, ofBe (slice (16 * i + 8) 8 reg) ≠ 0

def ReservedOk (reserved : List Node) : Prop :=
  reserved = [] ∨ ∃ reg n, reserved = [memreserveNode reg] ∧ ReserveOk reg n

structure Node.RootGood (root : Node) (reserved children : List Node) : Prop where
  eq : root = .mk [] root.properties (reserved ++ children)
  reserved : ReservedOk reserved
  properties : ∀ p ∈ root.properties, p.Good
  children : ∀ c ∈ children, c.Good 63

theorem childItems_reserved {reserved : List Node} (h : ReservedOk reserved)
    (children : List Node) :
    childItems (reserved ++ children) = childItems children := by
  rcases h with rfl | ⟨reg, n, rfl, -⟩
  · rfl
  · rfl

theorem Node.RootGood.fed {root : Node} {reserved children : List Node}
    (h : root.RootGood reserved children)
    (dt : Nat) : (nodeItems root).foldlM feed ⟨dt, 0, false, .mk [] [] reserved, []⟩ =
      some ⟨dt, 0, false, root, []⟩ := by
  have hKids : ∀ c ∈ children, isReservedName c.name = false ∧ Fed 63 c := fun c hc =>
    ⟨(h.children c hc).not_reserved, (h.children c hc).fed⟩
  have hProps := h.properties
  rw [h.eq, nodeItems, childItems_reserved h.reserved]
  generalize root.properties = properties at hProps
  change (propItems properties ++ (childItems children ++ [Item.endNode])).foldlM feed
    ⟨dt, 1, true, .mk [] [] reserved, []⟩ = _
  rw [foldlM_append, foldlM_propItems hProps]
  change (childItems children ++ [Item.endNode]).foldlM feed
    ⟨dt, 1, true, .mk [] properties reserved, []⟩ = _
  rw [foldlM_append, foldlM_childItems hKids (by decide)]
  rfl

/-- A node that is still open, whose children may have `n` levels. -/
structure Node.OpenAt (n : Nat) (node : Node) : Prop where
  name : node.name ≠ []
  allowed : isAllowedInputName node.name = true
  nonzero : 0 ∉ node.name
  properties : ∀ p ∈ node.properties, p.Good
  children : ∀ c ∈ node.children, c.Good n

/-- The open nodes, the current one first; there is room for 64 levels in all. -/
def StackGood (reserved : List Node) : Node → List Node → Prop
  | node, [] => ∃ children, node.RootGood reserved children
  | node, parent :: parents => node.OpenAt (62 - parents.length) ∧ StackGood reserved parent parents

section Stack
variable {reserved : List Node} {node : Node} {parents : List Node}

theorem Node.OpenAt.good {n : Nat} (h : node.OpenAt n) : node.Good (n + 1) := by
  cases node with
  | mk name properties children => exact .mk h.name h.allowed h.nonzero h.properties h.children

theorem Node.RootGood.addChild {children : List Node} {child : Node}
    (h : node.RootGood reserved children)
    (hChild : child.Good 63) : (node.addChild child).RootGood reserved (children ++ [child]) := by
  cases node with
  | mk name properties kids =>
    have hEq := h.eq
    cases hEq
    refine ⟨by rw [Node.addChild, ← append_assoc]; rfl, h.reserved, h.properties, ?_⟩
    exact forall_mem_append.mpr ⟨h.children, forall_mem_singleton.mpr hChild⟩

theorem Node.OpenAt.addChild {n : Nat} {child : Node} (h : node.OpenAt n) (hChild : child.Good n) :
    (node.addChild child).OpenAt n := by
  cases node with
  | mk name properties kids =>
    refine { h with children := ?_ }
    exact forall_mem_append.mpr ⟨h.children, forall_mem_singleton.mpr hChild⟩

theorem StackGood.close {parent : Node} (h : StackGood reserved node (parent :: parents))
    (hDepth : parents.length ≤ 62) : StackGood reserved (parent.addChild node) parents := by
  obtain ⟨hNode, hParent⟩ := h
  have hGood := hNode.good
  cases parents with
  | nil =>
    obtain ⟨children, hRoot⟩ := hParent
    exact ⟨children ++ [node], hRoot.addChild hGood⟩
  | cons next rest =>
    obtain ⟨hOpen, hRest⟩ := hParent
    rw [length_cons] at hDepth hGood
    rw [show 62 - (rest.length + 1) + 1 = 62 - rest.length by omega] at hGood
    exact ⟨hOpen.addChild hGood, hRest⟩

theorem StackGood.addProperty {p : Property} (h : StackGood reserved node parents) (hp : p.Good) :
    StackGood reserved (node.addProperty p) parents := by
  have hAdd : ∀ properties : List Property, (∀ q ∈ properties, q.Good) →
      ∀ q ∈ properties ++ [p], q.Good :=
    fun _ hProps => forall_mem_append.mpr ⟨hProps, forall_mem_singleton.mpr hp⟩
  cases parents with
  | nil =>
    obtain ⟨children, hRoot⟩ := h
    cases node with
    | mk name properties kids =>
      have hEq := hRoot.eq
      cases hEq
      exact ⟨children, rfl, hRoot.reserved, hAdd _ hRoot.properties, hRoot.children⟩
  | cons parent rest =>
    obtain ⟨hOpen, hRest⟩ := h
    cases node with
    | mk name properties kids =>
      exact ⟨{ hOpen with properties := hAdd _ hOpen.properties }, hRest⟩

theorem StackGood.plug (h : StackGood reserved node parents) (hDepth : parents.length ≤ 63) :
    ∃ children, (node.plug parents).RootGood reserved children := by
  induction parents generalizing node with
  | nil => exact h
  | cons parent rest ih =>
    rw [length_cons] at hDepth
    exact ih (h.close (by omega)) (by omega)

end Stack

/-- The invariant of the reader: the depth is the number of open nodes. -/
structure Parse.Good (reserved : List Node) (s : Parse) : Prop where
  stack : StackGood reserved s.node s.parents
  depth : s.depth ≤ fdtMaxDepth
  outside : s.inside = false → s.parents = [] ∧ s.depth = 0
  inside : s.inside = true → s.depth = s.parents.length + 1

section Invariant
variable {reserved : List Node} {s s' : Parse}

theorem Parse.Good.at (h : s.Good reserved) (dt : Nat) :
    Parse.Good reserved { s with dtStruct := dt } :=
  ⟨h.stack, h.depth, h.outside, h.inside⟩

theorem Parse.Good.start (h : ReservedOk reserved) (dt : Nat) :
    Parse.Good reserved ⟨dt, 0, false, .mk [] [] reserved, []⟩ := by
  refine ⟨⟨[], by rw [append_nil]; rfl, h, (fun p hp => by cases hp), fun c hc => by cases hc⟩,
    Nat.zero_le _, fun _ => ⟨rfl, rfl⟩, fun hNo => by cases hNo⟩

theorem Parse.Good.leave (h : s.Good reserved) (hInside : s.inside = true) :
    s.leave.Good reserved := by
  have hDepth := h.inside hInside
  have hMax := h.depth
  have hStack := h.stack
  unfold Parse.leave
  cases hParents : s.parents with
  | nil =>
    rw [hParents] at hDepth hStack
    rw [length_nil] at hDepth
    refine ⟨hStack, ?_, ?_, ?_⟩
    · dsimp only
      omega
    · intro _
      exact ⟨rfl, by dsimp only; omega⟩
    · intro hNo
      cases hNo
  | cons parent rest =>
    rw [hParents] at hDepth hStack
    rw [length_cons] at hDepth
    rw [fdtMaxDepth] at hMax
    refine ⟨hStack.close (by omega), ?_, ?_, ?_⟩
    · simp [fdtMaxDepth]
      omega
    · intro hNo
      rw [hInside] at hNo
      cases hNo
    · intro _
      dsimp only
      omega

theorem Parse.Good.feed {item : Item} (h : s.Good reserved) (hItem : item.Readable)
    (hFeed : s.feed item = some s') : s'.Good reserved := by
  cases item with
  | beginNode name =>
    dsimp only [Parse.feed] at hFeed
    split at hFeed
    · cases hFeed
    split at hFeed
    · rename_i hOut
      obtain ⟨hParents, hDepth⟩ := h.outside hOut
      split at hFeed <;> cases hFeed
      refine ⟨h.stack, ?_, ?_, ?_⟩
      · dsimp only
        omega
      · intro hNo
        cases hNo
      · intro _
        simp [hParents, hDepth]
    · rename_i hIn
      have hDepth := h.inside (by simpa using hIn)
      split at hFeed <;> cases hFeed
      rename_i hName
      have hAllowed : isAllowedInputName name = true := by simpa using fun hNo => hName (.inr hNo)
      have hOpen : (Node.mk name [] []).OpenAt (62 - s.parents.length) :=
        ⟨fun hNil => hName (.inl hNil), hAllowed, hItem, (fun p hp => by cases hp),
          fun c hc => by cases hc⟩
      refine ⟨⟨hOpen, h.stack⟩, ?_, ?_, ?_⟩
      · dsimp only
        omega
      · intro hNo
        exact absurd hNo hIn
      · intro _
        simp [hDepth]
  | prop p =>
    dsimp only [Parse.feed] at hFeed
    split at hFeed <;> cases hFeed
    rename_i hName
    have hp : p.Good := ⟨by simpa using fun hNo => hName (.inr hNo), hItem⟩
    exact ⟨h.stack.addProperty hp, h.depth, h.outside, h.inside⟩
  | endNode =>
    dsimp only [Parse.feed] at hFeed
    split at hFeed <;> cases hFeed
    rename_i hIn
    exact h.leave (by simpa using hIn)

theorem Parse.Good.parents_length (h : s.Good reserved) : s.parents.length ≤ 63 := by
  have hDepth := h.depth
  cases hInside : s.inside with
  | false => simp [(h.outside hInside).1]
  | true =>
    rw [h.inside hInside, fdtMaxDepth] at hDepth
    omega

end Invariant

section Reader
variable {blob : List UInt8} {f : FdtHeader} {name : List UInt8} {reserved : List Node}

theorem load_strnlen {off maxlen len : Nat} (hIn : off + maxlen ≤ blob.length)
    (hLen : strnlen blob maxlen off = .ok len) (hLoad : load blob off len = .ok name) :
    0 ∉ name := by
  have hLe := strnlen_le hIn hLen
  rw [strnlen_eq hIn] at hLen
  rw [load_eq (by omega)] at hLoad
  have hEq : name = untilZero (slice off maxlen blob) := by
    have hPrefix : untilZero (slice off maxlen blob) <+: slice off maxlen blob := takeWhile_prefix _
    have hTake := List.prefix_iff_eq_take.mp hPrefix
    have hShort : (slice off maxlen blob).take len = slice off len blob := by
      rw [slice, take_take, Nat.min_eq_left hLe, slice]
    grind
  rw [hEq]
  exact untilZero_nonzero _

variable (hf : HeaderOk blob f)
include hf

theorem dtString_nonzero {ofs : Nat} (h : dtString blob f ofs = .ok (some name)) : 0 ∉ name := by
  have hSize := hf.size
  have hStrings := hf.strings
  unfold dtString at h
  split at h
  · cases h
  obtain ⟨len, hLen, h⟩ := bind_eq_ok h
  split at h
  · obtain ⟨bytes, hLoad, hEq⟩ := map_eq_ok h
    cases hEq
    exact load_strnlen (by omega) hLen hLoad
  · cases h

theorem Parse.Good.turn {s s' : Parse} (h : s.Good reserved) (hTurn : Continues blob f s s') :
    s'.Good reserved := by
  have hSize := hf.size
  have hStructs := hf.structs
  cases hTurn with
  | beginNode hStep =>
    obtain ⟨len, name, s₁, t, hIn, hLen, hName, -, hFeed, rfl⟩ := beginNode_spec hStep
    have hItem : (Item.beginNode name).Readable := load_strnlen (by omega) hLen hName
    exact (h.feed hItem hFeed).at _
  | endNode hInside hStep =>
    rw [(advance_spec hStep).1]
    exact (h.leave (by simpa using hInside)).at _
  | prop hStep =>
    obtain ⟨len, ofs, p, s₁, t, hName, -, -, hFeed, rfl⟩ := addProp_spec hStep
    have hItem : (Item.prop p).Readable := dtString_nonzero hf hName
    exact (h.feed hItem hFeed).at _
  | nop hStep =>
    rw [(advance_spec hStep).1]
    exact h.at _

theorem ofUnflattenReservemap_ok (h : ofUnflattenReservemap blob = .ok reserved) :
    ReservedOk reserved := by
  obtain ⟨off, -, h⟩ := bind_eq_ok h
  obtain ⟨n, hn, h⟩ := bind_eq_ok h
  have hSize := hf.size
  split at h
  · cases h
    exact .inl rfl
  rename_i hZero
  obtain ⟨hLt, hIn, hAll⟩ := reservemapNumEntries_spec hf hn
  have hIn := hIn hZero
  rw [load_eq (by omega)] at h
  cases h
  refine .inr ⟨_, n, rfl, by omega, hLt, slice_length_of_le (by omega), fun i hi => ?_⟩
  rw [slice_slice (by omega)]
  exact hAll i hi

omit hf

theorem ofUnflattenDtb_good {tree : Node} (h : ofUnflattenDtb blob = .ok tree) :
    ∃ reserved children, tree.RootGood reserved children := by
  obtain ⟨f, hHeader, h⟩ := bind_eq_ok h
  have hf := fdtParseHeader_ok hHeader
  obtain ⟨reserved, hReserved, h⟩ := bind_eq_ok h
  have hOk := ofUnflattenReservemap_ok hf hReserved
  obtain ⟨s, hs, rfl⟩ :=
    unflattenLoop_ok (Parse.Good reserved) (fun s s' hs => hs.turn hf) (.start hOk _) h
  exact ⟨reserved, hs.stack.plug hs.parents_length⟩

end Reader
end Barebox.Of
