import Barebox.Resource.Iter

/-! `lookup_region`, and the regions of a parent as a partition of its addresses. -/
namespace Barebox.Resource
open Tiling List Item

/-- What `lookup_region` returns: a region of the iteration, or the buffer of the caller
with a copy of one. -/
inductive Found where
  | region (x : Item)
  | buffer (r : Region)
  deriving DecidableEq

/-- The loop of `lookup_region`. -/
def lookupIn (addr : Nat) (buffer : Bool) : List Item → Option Found
  | [] => none
  | x :: items =>
    if addr < x.region.start ∨ x.region.last < addr then lookupIn addr buffer items
    else if !regionIsGap x.region then some (.region x)
    else if buffer then some (.buffer x.region)
    else none

def lookupRegion (t : Tree) (parent addr : Nat) (buffer : Bool) : Option Found :=
  lookupIn addr buffer (resourceRegions t parent)

/-- The regions follow each other from the start of the parent to its end. Its children
are among them as they are and in their order, and of two neighbours one is a child. -/
structure Partition (t : Tree) (parent : Nat) (p : Region) (items : List Item) : Prop where
  tiles : Tiles lo hi p.start (p.last + 1) items
  children : items.filterMap id? = t.children parent
  unchanged : ∀ {id r}, .resource id r ∈ items → t.region id = some r
  gaps : items.IsChain fun a b => a.id?.isSome ∨ b.id?.isSome

section Gaps
variable {t : Tree} {parent : Nat} {p : Region} {items : List Item}

theorem gapBetween_ids (parent : Nat) (p : Region) (before after : Option Item) :
    (gapBetween parent p before after).filterMap id? = [] := by
  unfold gapBetween resourceIterGap
  split_ifs <;> simp [id?]

theorem itemsFrom_ids (parent : Nat) (p : Region) (before : Option Item) (children : List Item) :
    (itemsFrom parent p before children).filterMap id? = children.filterMap id? := by
  induction children generalizing before with
  | nil => exact gapBetween_ids parent p before none
  | cons child children ih => simp [itemsFrom, gapBetween_ids, ih, filterMap_cons]

theorem itemsFrom_gaps (parent : Nat) (p : Region) (before : Option Item) {children : List Item}
    (h : ∀ c ∈ children, c.id?.isSome) :
    (itemsFrom parent p before children).IsChain fun a b => a.id?.isSome ∨ b.id?.isSome := by
  induction children generalizing before with
  | nil =>
    unfold itemsFrom gapBetween
    split_ifs <;> simp
  | cons child children ih =>
    have hChild := h child (.head _)
    have hRest := ih (some child) fun c hc => h c (.tail _ hc)
    have hFrom : (child :: itemsFrom parent p (some child) children).IsChain fun a b =>
        a.id?.isSome ∨ b.id?.isSome :=
      isChain_cons.mpr ⟨fun y _ => .inl hChild, hRest⟩
    unfold itemsFrom gapBetween
    split_ifs
    · exact hFrom
    · exact isChain_cons.mpr ⟨fun y hy => .inr (by cases hy; exact hChild), hFrom⟩

theorem WellFormed.childItems_ids (h : WellFormed t) :
    (childItems t parent).filterMap id? = t.children parent := by
  have hLive : ∀ c ∈ t.children parent, (itemOf t c).bind id? = some c := by
    intro c hc
    obtain ⟨-, rc, -, hr, -⟩ := h.linked hc
    simp [itemOf, hr, id?]
  rw [childItems, filterMap_filterMap]
  exact (filterMap_congr hLive).trans (filterMap_some)

theorem WellFormed.partition (h : WellFormed t) (hp : t.region parent = some p) :
    Partition t parent p (allItems t parent p) := by
  have hSpread := h.allItems_spread hp
  refine ⟨hSpread.tiles, ?_, ?_, itemsFrom_gaps parent p none ?_⟩
  · rw [allItems, itemsFrom_ids, h.childItems_ids]
  · intro id r hMem
    rcases hSpread.kinds _ hMem with hChild | ⟨before, after, -, -, hGap, -⟩
    · obtain ⟨c, -, hc⟩ := mem_filterMap.mp hChild
      obtain ⟨r', hr', hEq⟩ := Option.map_eq_some_iff.mp hc
      cases hEq
      exact hr'
    · cases hGap
  · intro c hc
    obtain ⟨id, -, hId⟩ := mem_filterMap.mp hc
    obtain ⟨r, -, rfl⟩ := Option.map_eq_some_iff.mp hId
    rfl

variable {addr : Nat}

theorem lookupIn_eq {x : Item} (hx : x ∈ items) (hIn : x.lo ≤ addr ∧ addr ≤ x.hi)
    (hOnly : ∀ y ∈ items, y.lo ≤ addr → addr ≤ y.hi → y = x) (buffer : Bool) :
    lookupIn addr buffer items =
      if !regionIsGap x.region then some (.region x) else if buffer then some (.buffer x.region)
      else none := by
  induction items with
  | nil => cases hx
  | cons y items ih =>
    by_cases hOut : addr < y.region.start ∨ y.region.last < addr
    · rw [lookupIn, if_pos hOut]
      refine ih ?_ fun z hz => hOnly z (.tail _ hz)
      rcases mem_cons.mp hx with rfl | hx
      · unfold lo hi at hIn
        omega
      · exact hx
    · have hy : y = x := hOnly y (.head _) (by unfold lo; omega) (by unfold hi; omega)
      rw [lookupIn, if_neg hOut, hy]

theorem Partition.lookup (h : Partition t parent p items) (hStart : p.start ≤ addr)
    (hLast : addr ≤ p.last) :
    ∃ x ∈ items, (x.lo ≤ addr ∧ addr ≤ x.hi) ∧ (∀ y ∈ items, y.lo ≤ addr → addr ≤ y.hi → y = x) ∧
      ∀ buffer, lookupIn addr buffer items =
        if !regionIsGap x.region then some (.region x) else if buffer then some (.buffer x.region)
        else none := by
  obtain ⟨x, hx, hLo, hHi⟩ := h.tiles.exists_mem hStart (Nat.lt_succ_of_le hLast)
  have hOnly : ∀ y ∈ items, y.lo ≤ addr → addr ≤ y.hi → y = x := by
    intro y hy hLo' hHi'
    by_contra hNe
    have hApart := h.tiles.apart hy hx hNe
    omega
  exact ⟨x, hx, ⟨hLo, hHi⟩, hOnly, lookupIn_eq hx ⟨hLo, hHi⟩ hOnly⟩

theorem lookupIn_none (h : ∀ y ∈ items, addr < y.lo ∨ y.hi < addr) (buffer : Bool) :
    lookupIn addr buffer items = none := by
  induction items with
  | nil => rfl
  | cons y items ih =>
    have hOut : addr < y.region.start ∨ y.region.last < addr := h y (.head _)
    rw [lookupIn, if_pos hOut]
    exact ih fun z hz => h z (.tail _ hz)

theorem regions_of_gap (hp : t.region parent = some p) (hUnset : regionIsGap p = true) :
    resourceIterFirst t parent = none ∧ resourceIterLast t parent = none := by
  simp [resourceIterFirst, resourceIterLast, hp, hUnset]

end Gaps

/-- With a parent that is not marked as a gap, the iteration ends, its regions are a
partition of the parent, backwards they are the same ones in reverse, and
`lookup_region` finds the one region that holds an address. A parent that is marked
as a gap has no regions. -/
theorem gap_iteration_partition {t : Tree} {parent : Nat} {p : Region} (h : WellFormed t)
    (hp : t.region parent = some p) :
    (regionIsGap p = false →
      (∀ n, itemBound t parent ≤ n →
        walk (resourceIterNext t) n (resourceIterFirst t parent) = resourceRegions t parent ∧
        walk (resourceIterPrev t) n (resourceIterLast t parent) =
          (resourceRegions t parent).reverse) ∧
      Partition t parent p (resourceRegions t parent) ∧
      ∀ addr, (p.start ≤ addr ∧ addr ≤ p.last →
          ∃ x ∈ resourceRegions t parent, (x.lo ≤ addr ∧ addr ≤ x.hi) ∧
            (∀ y ∈ resourceRegions t parent, y.lo ≤ addr → addr ≤ y.hi → y = x) ∧
            ∀ buffer, lookupRegion t parent addr buffer =
              if !regionIsGap x.region then some (.region x)
              else if buffer then some (.buffer x.region) else none) ∧
        (addr < p.start ∨ p.last < addr → ∀ buffer, lookupRegion t parent addr buffer = none)) ∧
    (regionIsGap p = true →
      resourceIterFirst t parent = none ∧ resourceIterLast t parent = none ∧
        ∀ addr buffer, lookupRegion t parent addr buffer = none) := by
  refine ⟨fun hSet => ?_, fun hUnset => ?_⟩
  · have hAll := h.resourceRegions_eq hp hSet
    have hParts := h.partition hp
    rw [← hAll] at hParts
    refine ⟨fun n hn => ?_, hParts,
      fun addr => ⟨fun hIn => hParts.lookup hIn.1 hIn.2, fun hOut buffer => ?_⟩⟩
    · have hLong := (allItems_length t parent p).trans_le hn
      rw [hAll]
      exact ⟨h.walk_next hp hSet hLong, h.walk_prev hp hSet hLong⟩
    · refine lookupIn_none (fun y hy => ?_) buffer
      have hBounds := hParts.tiles.bounds hy
      omega
  · obtain ⟨hFirst, hLast⟩ := regions_of_gap hp hUnset
    have hNone : resourceRegions t parent = [] := by
      rw [resourceRegions, hFirst]
      rfl
    exact ⟨hFirst, hLast, fun addr buffer => by rw [lookupRegion, hNone]; rfl⟩

/-- A parent of ten bytes with a child at each end and one that touches the last one. -/
def threeChildren : Tree :=
  (((emptyRoot 0 9 []).link root [1] ⟨0, 1, [], 0, some root⟩).link root [1, 2]
    ⟨8, 9, [], 0, some root⟩).link root [1, 3, 2] ⟨5, 7, [], 0, some root⟩

theorem threeChildren_wellFormed : WellFormed threeChildren := by
  have hRoot : WellFormed (emptyRoot 0 9 []) := emptyRoot_wellFormed (by decide) (by decide)
  have hFirst : requestRegion (emptyRoot 0 9 []) root 0 1 [] 0 =
    some (.ok 1, (emptyRoot 0 9 []).link root [1] ⟨0, 1, [], 0, some root⟩) := rfl
  have hSecond := (requestRegion_spec hRoot hFirst).1
  have hThird := (requestRegion_spec hSecond
    (show requestRegion _ root 8 9 [] 0 = some (.ok 2, _) from rfl)).1
  exact (requestRegion_spec hThird
    (show requestRegion _ root 5 7 [] 0 = some (.ok 3, threeChildren) from rfl)).1

/-- The gap between the first two children is the only one, and is found for its addresses. -/
theorem gap_iteration_partition_children :
    (resourceRegions threeChildren root).map (fun x => (x.id?, x.lo, x.hi)) =
        [(some 1, 0, 1), (none, 2, 4), (some 3, 5, 7), (some 2, 8, 9)] ∧
      walk (resourceIterPrev threeChildren) 8 (resourceIterLast threeChildren root) =
        (resourceRegions threeChildren root).reverse ∧
      Partition threeChildren root ⟨0, 9, [], 0, none⟩ (resourceRegions threeChildren root) ∧
      ∃ x ∈ resourceRegions threeChildren root, (x.lo ≤ 3 ∧ 3 ≤ x.hi) ∧
        lookupRegion threeChildren root 3 true = some (.buffer x.region) := by
  have hRoot : threeChildren.region root = some ⟨0, 9, [], 0, none⟩ := rfl
  obtain ⟨hWalk, hParts, hLookup⟩ := (gap_iteration_partition threeChildren_wellFormed hRoot).1 rfl
  obtain ⟨x, hx, hIn, -, hFound⟩ := (hLookup 3).1 (by decide)
  refine ⟨by decide +kernel, (hWalk 8 (by decide)).2, hParts, x, hx, hIn, ?_⟩
  have hGap : ∀ y ∈ resourceRegions threeChildren root, y.lo ≤ 3 → 3 ≤ y.hi →
      regionIsGap y.region = true := by
    decide +kernel
  rw [hFound true, hGap x hx hIn.1 hIn.2]
  rfl

def unsetTree : Tree := (emptyRoot 0 9 []).setRegion root ⟨0, 9, [], ioresourceUnset, none⟩

theorem unsetTree_wellFormed : WellFormed unsetTree := by
  have hRoot : WellFormed (emptyRoot 0 9 []) := emptyRoot_wellFormed (by decide) (by decide)
  refine hRoot.setRegion rfl rfl (by decide) ?_ ?_ ?_ ?_
  · intro k rk hk
    cases hk
  · intro q rq hq
    cases hq
  · intro q a ra hSub
    cases hSub
  · intro q b rb hSub
    cases hSub

/-- It has no regions, although it is well-formed. -/
theorem gap_iteration_unset :
    WellFormed unsetTree ∧ unsetTree.region root = some ⟨0, 9, [], ioresourceUnset, none⟩ ∧
    ¬ Partition unsetTree root ⟨0, 9, [], ioresourceUnset, none⟩ (resourceRegions unsetTree root) :=
  ⟨unsetTree_wellFormed, rfl,
    fun h => by simpa [show resourceRegions unsetTree root = [] from rfl, Tiles] using h.tiles⟩

end Barebox.Resource
