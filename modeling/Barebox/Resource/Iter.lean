import Barebox.Data.Tiling
import Barebox.Resource.Invariant

/-! The iterators over the children of a resource and the gaps between them, and that
they visit intervals without holes from the start of the resource to its end. -/
namespace Barebox.Resource
open Tiling List Option Nat

def ioresourceUnset : Nat := 0x20000000

def regionIsGap (r : Region) : Bool := r.flags &&& ioresourceUnset ≠ 0

/-- What an iterator points to: a resource, or a gap with its links to the resources
around it. -/
inductive Item where
  | resource (id : Nat) (r : Region)
  | gap (r : Region) (prev next : Option Nat)
  deriving DecidableEq

namespace Item

def region : Item → Region
  | resource _ r => r
  | gap r _ _ => r

def id? : Item → Option Nat
  | resource id _ => some id
  | gap _ _ _ => none

end Item

variable (t : Tree) (parent : Nat) (p : Region)

/-- `resource_iter_gap`: the addresses between two neighbours, or up to an end of the parent. -/
def resourceIterGap (before after : Option Item) : Item :=
  .gap
    { start := match before with
        | some b => (b.region.last + 1) % 2 ^ 64
        | none => p.start
      last := match after with
        | some a => (a.region.start + maxAddress) % 2 ^ 64
        | none => p.last
      name := []
      flags := ioresourceUnset ||| p.flags
      parent := some parent }
    (before.bind Item.id?) (after.bind Item.id?)

def itemOf (id : Nat) : Option Item := (t.region id).map (.resource id)

def resourceIterFirst : Option Item :=
  match t.region parent with
  | none => none
  | some p =>
    if regionIsGap p then none
    else
      match (t.children parent).head?.bind (itemOf t) with
      | none => some (resourceIterGap parent p none none)
      | some child =>
        if p.start = child.region.start then some child
        else some (resourceIterGap parent p none (some child))

def resourceIterLast : Option Item :=
  match t.region parent with
  | none => none
  | some p =>
    if regionIsGap p then none
    else
      match (t.children parent).getLast?.bind (itemOf t) with
      | none => some (resourceIterGap parent p none none)
      | some child =>
        if p.last = child.region.last then some child
        else some (resourceIterGap parent p (some child) none)

def Item.nextSibling (ids : List Nat) : Item → Option Nat
  | resource id _ => Resource.nextSibling id ids
  | gap _ _ next => next

def Item.prevSibling (ids : List Nat) : Item → Option Nat
  | resource id _ => Resource.nextSibling id ids.reverse
  | gap _ prev _ => prev

/-- `resource_iter_next`: the next child if it is adjacent, else the gap in front of it. -/
def resourceIterNext (current : Item) : Option Item :=
  match current.region.parent with
  | none => none
  | some parent =>
    match t.region parent with
    | none => none
    | some p =>
      if current.region.last = p.last then none
      else
        match (current.nextSibling (t.children parent)).bind (itemOf t) with
        | none => some (resourceIterGap parent p (some current) none)
        | some next =>
          if resourceAdjacent current.region next.region then some next
          else some (resourceIterGap parent p (some current) (some next))

/-- `resource_iter_prev`, the mirror image of `resource_iter_next`. -/
def resourceIterPrev (current : Item) : Option Item :=
  match current.region.parent with
  | none => none
  | some parent =>
    match t.region parent with
    | none => none
    | some p =>
      if current.region.start = p.start then none
      else
        match (current.prevSibling (t.children parent)).bind (itemOf t) with
        | none => some (resourceIterGap parent p none (some current))
        | some prev =>
          if resourceAdjacent prev.region current.region then some prev
          else some (resourceIterGap parent p (some prev) (some current))

def itemBound : Nat := 2 * (t.children parent).length + 2

/-- What `for_each_resource_region` visits. -/
def resourceRegions : List Item :=
  walk (resourceIterNext t) (itemBound t parent) (resourceIterFirst t parent)

/-- What `for_each_resource_region_reverse` visits. -/
def resourceRegionsReverse : List Item :=
  walk (resourceIterPrev t) (itemBound t parent) (resourceIterLast t parent)

def gapStart (before : Option Item) : Nat := before.elim p.start fun b => b.region.last + 1

def gapStop (after : Option Item) : Nat := after.elim (p.last + 1) fun a => a.region.start

def gapBetween (before after : Option Item) : List Item :=
  if gapStart p before = gapStop p after then [] else [resourceIterGap parent p before after]

variable (parent : Nat)

theorem gapBetween_of_eq {p : Region} {before after : Option Item}
    (h : gapStart p before = gapStop p after) :
    gapBetween parent p before after = [] := if_pos h

theorem gapBetween_of_ne {p : Region} {before after : Option Item}
    (h : gapStart p before ≠ gapStop p after) :
    gapBetween parent p before after = [resourceIterGap parent p before after] := if_neg h

variable (p : Region) (before after : Option Item)

theorem gapBetween_head : (gapBetween parent p before after ++ after.toList).head? =
      if gapStart p before = gapStop p after then after
      else some (resourceIterGap parent p before after) := by
  rw [gapBetween]
  split_ifs
  · cases after <;> rfl
  · rfl

theorem gapBetween_getLast : (before.toList ++ gapBetween parent p before after).getLast? =
      if gapStart p before = gapStop p after then before
      else some (resourceIterGap parent p before after) := by
  rw [gapBetween]
  split_ifs
  · cases before <;> rfl
  · exact getLast?_concat

def itemsFrom (parent : Nat) (p : Region) : Option Item → List Item → List Item
  | before, [] => gapBetween parent p before none
  | before, child :: children => gapBetween parent p before (some child) ++
      child :: itemsFrom parent p (some child) children

def childItems (t : Tree) (parent : Nat) : List Item := (t.children parent).filterMap (itemOf t)

theorem resourceAdjacent_iff {a b : Region} (hSound : a.start ≤ a.last)
    (hLt : a.last < b.start) (hLe : b.start ≤ b.last)
    (hBound : b.last ≤ maxAddress) : resourceAdjacent a b = true ↔ a.last + 1 = b.start := by
  simp [resourceAdjacent]
  omega

section Neighbours
variable {t : Tree} {parent : Nat} {p : Region} {before after : Option Item}

def Linked (t : Tree) (a b : Item) : Prop :=
  resourceIterNext t a = some b ∧ resourceIterPrev t b = some a

structure IsChild (t : Tree) (parent : Nat) (p : Region) (c : Item) : Prop where
  item : c.id?.bind (itemOf t) = some c
  parent : c.region.parent = some parent
  start_le : p.start ≤ c.region.start
  sound : c.region.start ≤ c.region.last
  last_le : c.region.last ≤ p.last

structure Neighbours (t : Tree) (parent : Nat) (p : Region) (before after : Option Item) :
    Prop where
  live : t.region parent = some p
  sound : p.start ≤ p.last
  bound : p.last ≤ maxAddress
  front : ∀ b ∈ before, IsChild t parent p b ∧ b.nextSibling (t.children parent) =
    after.bind Item.id?
  back : ∀ a ∈ after, IsChild t parent p a ∧ a.prevSibling (t.children parent) =
    before.bind Item.id?
  sorted : ∀ b ∈ before, ∀ a ∈ after, b.region.last < a.region.start

namespace Neighbours
variable (h : Neighbours t parent p before after)
include h

theorem gapStart_le : gapStart p before ≤ gapStop p after := by
  have hSound := h.sound
  cases before with
  | none =>
    cases after with
    | none =>
      simp [gapStart, gapStop]
      omega
    | some a => exact (h.back a rfl).1.start_le
  | some b =>
    cases after with
    | none => exact succ_le_succ (h.front b rfl).1.last_le
    | some a => exact h.sorted b rfl a rfl

variable (hGap : gapStart p before ≠ gapStop p after)
include hGap in
theorem gap_region : (resourceIterGap parent p before after).region.start = gapStart p before ∧
      (resourceIterGap parent p before after).region.last + 1 = gapStop p after := by
  have hLe := h.gapStart_le
  have hBound := h.bound
  have hStop : gapStop p after ≤ maxAddress + 1 := by
    rcases after with _ | a
    · exact succ_le_succ h.bound
    have hChild := (h.back a rfl).1
    have hStart := hChild.sound
    have hLast := hChild.last_le
    simp [gapStop]
    omega
  have hMax : maxAddress + 1 = 2 ^ 64 := rfl
  constructor
  · cases before with
    | none => rfl
    | some b =>
      simp only [gapStart, Option.elim] at hLe hGap ⊢
      exact mod_eq_of_lt (by omega)
  · cases after with
    | none => rfl
    | some a =>
      simp only [gapStart, gapStop, Option.elim] at hLe hGap hStop ⊢
      have hPos : a.region.start + maxAddress = (a.region.start - 1) + 2 ^ 64 := by omega
      change (a.region.start + maxAddress) % 2 ^ 64 + 1 = a.region.start
      omega

theorem behind : (after.bind Item.id?).bind (itemOf t) = after := by
  cases after with
  | none => rfl
  | some a => exact (h.back a rfl).1.item

theorem ahead : (before.bind Item.id?).bind (itemOf t) = before := by
  cases before with
  | none => rfl
  | some b => exact (h.front b rfl).1.item

omit h

theorem next_child {b : Item} (h : Neighbours t parent p (some b) after) : resourceIterNext t b =
    if gapStart p (some b) = gapStop p after then after
    else some (resourceIterGap parent p (some b) after) := by
  obtain ⟨hChild, hNext⟩ := h.front b rfl
  have hBound := h.bound
  have hSound := hChild.sound
  simp only [resourceIterNext, hChild.parent, h.live, hNext, h.behind]
  rcases after with _ | a
  · exact if_congr succ_inj.symm rfl rfl
  have hLt := h.sorted b rfl a rfl
  have hAfter := (h.back a rfl).1
  have hStart := hAfter.sound
  have hLast := hAfter.last_le
  rw [if_neg (by omega)]
  exact if_congr (resourceAdjacent_iff hSound hLt hStart (hLast.trans hBound)) rfl rfl

theorem prev_child {a : Item} (h : Neighbours t parent p before (some a)) : resourceIterPrev t a =
    if gapStart p before = gapStop p (some a) then before
    else some (resourceIterGap parent p before (some a)) := by
  obtain ⟨hChild, hPrev⟩ := h.back a rfl
  have hBound := h.bound
  have hStart := hChild.sound
  have hLast := hChild.last_le
  simp only [resourceIterPrev, hChild.parent, h.live, hPrev, h.ahead]
  rcases before with _ | b
  · exact if_congr eq_comm rfl rfl
  have hLt := h.sorted b rfl a rfl
  have hBefore := (h.front b rfl).1
  have hLe := hBefore.start_le
  have hSound := hBefore.sound
  rw [if_neg (by omega)]
  exact if_congr (resourceAdjacent_iff hSound hLt hStart (hLast.trans hBound)) rfl rfl

variable (h : Neighbours t parent p before after)
include h
include hGap in
theorem next_gap : resourceIterNext t (resourceIterGap parent p before after) = after := by
  obtain ⟨hStart, hLast⟩ := h.gap_region hGap
  have hLe := h.gapStart_le
  have hNext : (resourceIterGap parent p before after).nextSibling (t.children parent) =
      after.bind Item.id? := rfl
  have hParent : (resourceIterGap parent p before after).region.parent = some parent := rfl
  have hBound := h.bound
  simp only [resourceIterNext, hParent, h.live, hNext, h.behind]
  rcases after with _ | a
  · exact if_pos (Nat.succ.inj hLast)
  have hAfter := (h.back a rfl).1
  have hSound := hAfter.sound
  have hEnd := hAfter.last_le
  simp only [gapStop, Option.elim] at hLast hLe hGap
  have hNotEnd : (resourceIterGap parent p before (some a)).region.last ≠ p.last := by omega
  have hAdjacent :=
    (resourceAdjacent_iff (by omega) (by omega) hSound (hEnd.trans hBound)).mpr hLast
  simp [if_neg hNotEnd, hAdjacent]

include hGap in
theorem prev_gap : resourceIterPrev t (resourceIterGap parent p before after) = before := by
  obtain ⟨hStart, hLast⟩ := h.gap_region hGap
  have hLe := h.gapStart_le
  have hPrev : (resourceIterGap parent p before after).prevSibling (t.children parent) =
      before.bind Item.id? := rfl
  have hParent : (resourceIterGap parent p before after).region.parent = some parent := rfl
  have hBound := h.bound
  simp only [resourceIterPrev, hParent, h.live, hPrev, h.ahead]
  rcases before with _ | b
  · exact if_pos hStart
  have hBefore := (h.front b rfl).1
  have hSound := hBefore.sound
  have hBegin := hBefore.start_le
  have hStop : gapStop p after ≤ p.last + 1 := by
    rcases after with _ | a
    · exact le_rfl
    have hAfter := (h.back a rfl).1
    have hStart := hAfter.sound
    have hEnd := hAfter.last_le
    simp [gapStop]
    omega
  simp only [gapStart, Option.elim] at hStart hLe hGap
  have hNotBegin : (resourceIterGap parent p (some b) after).region.start ≠ p.start := by omega
  have hAdjacent := (resourceAdjacent_iff hSound (by omega) (by omega) (by omega)).mpr hStart.symm
  simp [if_neg hNotBegin, hAdjacent]

theorem linked :
    (before.toList ++ (gapBetween parent p before after ++ after.toList)).IsChain (Linked t) := by
  by_cases hEq : gapStart p before = gapStop p after
  · rw [gapBetween_of_eq parent hEq]
    cases before with
    | none => cases after <;> simp
    | some b =>
      cases after with
      | none => simp
      | some a =>
        exact isChain_pair.mpr ⟨h.next_child.trans (if_pos hEq), h.prev_child.trans (if_pos hEq)⟩
  · rw [gapBetween_of_ne parent hEq]
    have hFront : ∀ b ∈ before, Linked t b (resourceIterGap parent p before after) := by
      rintro b rfl
      exact ⟨h.next_child.trans (if_neg hEq), h.prev_gap hEq⟩
    have hBack : ∀ a ∈ after, Linked t (resourceIterGap parent p before after) a := by
      rintro a rfl
      exact ⟨h.next_gap hEq, h.prev_child.trans (if_neg hEq)⟩
    cases before with
    | none =>
      cases after with
      | none => exact isChain_singleton _
      | some a => exact isChain_pair.mpr (hBack a rfl)
    | some b =>
      cases after with
      | none => exact isChain_pair.mpr (hFront b rfl)
      | some a => exact .cons_cons (hFront b rfl) (isChain_pair.mpr (hBack a rfl))

omit h

theorem prev_first (h : Neighbours t parent p none after) {x : Item}
    (hx : x ∈ (gapBetween parent p none after ++ after.toList).head?) :
    resourceIterPrev t x = none := by
  rw [gapBetween_head] at hx
  by_cases hEq : gapStart p none = gapStop p after
  · obtain rfl : after = some x := by rwa [if_pos hEq] at hx
    exact h.prev_child.trans (if_pos hEq)
  · rw [if_neg hEq] at hx
    cases hx
    exact h.prev_gap hEq

theorem next_last (h : Neighbours t parent p before none) {x : Item}
    (hx : x ∈ (before.toList ++ gapBetween parent p before none).getLast?) :
    resourceIterNext t x = none := by
  rw [gapBetween_getLast] at hx
  by_cases hEq : gapStart p before = gapStop p none
  · obtain rfl : before = some x := by rwa [if_pos hEq] at hx
    exact h.next_child.trans (if_pos hEq)
  · rw [if_neg hEq] at hx
    cases hx
    exact h.next_gap hEq

end Neighbours
end Neighbours

theorem nextSibling_append {front back : List Nat} {id : Nat} (h : id ∉ front) :
    nextSibling id (front ++ id :: back) = back.head? := by
  induction front with
  | nil => exact if_pos rfl
  | cons other front ih =>
    rw [mem_cons, not_or] at h
    grind [nextSibling]

section Items
variable {t : Tree} {parent : Nat} {p : Region} (h : WellFormed t) (hp : t.region parent = some p)
include h hp

theorem WellFormed.isChild {id : Nat} (hMem : id ∈ t.children parent) :
    ∃ r, itemOf t id = some (.resource id r) ∧ IsChild t parent p (.resource id r) := by
  obtain ⟨p', r, hp', hr, hParent, hStart, hLast⟩ := h.linked hMem
  rw [hp] at hp'
  cases hp'
  have hItem : itemOf t id = some (.resource id r) := by rw [itemOf, hr, map_some]
  exact ⟨r, hItem, hItem, hParent, hStart, (h.sound hr).1, hLast⟩

theorem WellFormed.id_head {ids : List Nat} (hIds : ∀ id ∈ ids, id ∈ t.children parent) :
    (ids.head?.bind (itemOf t)).bind Item.id? = ids.head? := by
  cases ids with
  | nil => rfl
  | cons id ids =>
    obtain ⟨r, hItem, -⟩ := h.isChild hp (hIds id (.head _))
    rw [head?_cons, bind_some, hItem]
    rfl

theorem WellFormed.neighbours {front back : List Nat} (hList : t.children parent = front ++ back) :
    Neighbours t parent p (front.getLast?.bind (itemOf t)) (back.head?.bind (itemOf t)) := by
  have hNodup := h.nodup parent
  rw [hList] at hNodup
  obtain ⟨hSound, hBound⟩ := h.sound hp
  have hLast : front.getLast? = front.reverse.head? := head?_reverse.symm
  have hFrontMem : ∀ id ∈ front.reverse, id ∈ t.children parent := fun id hMem => by grind
  have hBackMem : ∀ id ∈ back, id ∈ t.children parent := fun id hMem => by grind
  refine ⟨hp, hSound, hBound, ?_, ?_, ?_⟩
  · rw [hLast, h.id_head hp hBackMem]
    intro x hx
    obtain ⟨b, hb, hItem⟩ := bind_eq_some_iff.mp hx
    obtain ⟨rest, hRest⟩ := head?_eq_some_iff.mp hb
    have hFront : front = rest.reverse ++ [b] := by rw [← reverse_cons, ← hRest, reverse_reverse]
    obtain ⟨r, hItem', hChild⟩ := h.isChild hp (hFrontMem b (hRest ▸ (.head _)))
    rw [hItem] at hItem'
    cases hItem'
    refine ⟨hChild, ?_⟩
    rw [hFront, append_assoc, singleton_append, nodup_middle,
      nodup_cons, mem_append, not_or] at hNodup
    rw [hList, hFront, append_assoc, singleton_append]
    exact nextSibling_append hNodup.1.1
  · rw [hLast, h.id_head hp hFrontMem]
    intro x hx
    obtain ⟨a, ha, hItem⟩ := bind_eq_some_iff.mp hx
    obtain ⟨rest, rfl⟩ := head?_eq_some_iff.mp ha
    obtain ⟨r, hItem', hChild⟩ := h.isChild hp (hBackMem a (.head _))
    rw [hItem] at hItem'
    cases hItem'
    refine ⟨hChild, ?_⟩
    rw [nodup_middle, nodup_cons, mem_append, not_or] at hNodup
    have hReverse : (t.children parent).reverse = rest.reverse ++ a :: front.reverse := by
      simp [hList]
    change nextSibling a (t.children parent).reverse = _
    grind [nextSibling_append]
  · intro x hx y hy
    obtain ⟨b, hb, hItemB⟩ := bind_eq_some_iff.mp hx
    obtain ⟨a, ha, hItemA⟩ := bind_eq_some_iff.mp hy
    obtain ⟨rb, hb', hEqB⟩ := map_eq_some_iff.mp hItemB
    obtain ⟨ra, ha', hEqA⟩ := map_eq_some_iff.mp hItemA
    subst hEqB hEqA
    refine @WellFormed.sorted t h parent b a rb ra ?_ hb' ha'
    rw [hList]
    exact (singleton_sublist.mpr (mem_of_getLast? hb)).append
      (singleton_sublist.mpr (mem_of_head? ha))

omit h hp

def Item.lo (x : Item) : Nat := x.region.start

def Item.hi (x : Item) : Nat := x.region.last

variable {before after : Option Item} {last : Nat}

theorem Neighbours.tiles (h : Neighbours t parent p before after) :
    Tiles Item.lo Item.hi (gapStart p before) (gapStop p after)
    (gapBetween parent p before after) := by
  by_cases hEq : gapStart p before = gapStop p after
  · rw [gapBetween_of_eq parent hEq]
    exact hEq
  rw [gapBetween_of_ne parent hEq]
  obtain ⟨hStart, hLast⟩ := h.gap_region hEq
  have hLe := h.gapStart_le
  exact ⟨hStart, by rw [Item.lo, Item.hi]; omega, hLast⟩

def IsGap (t : Tree) (parent : Nat) (p : Region) (x : Item) : Prop :=
  ∃ before after, Neighbours t parent p before after ∧ gapStart p before ≠ gapStop p after ∧
    x = resourceIterGap parent p before after ∧ ∀ c ∈ after, c ∈ childItems t parent

/-- The items behind a child, or all of them, are linked, fill the parent to its end,
and end where the last child or the gap behind it ends. -/
structure Spread (t : Tree) (parent : Nat) (p : Region) (before : Option Item) (items : List Item) :
    Prop where
  linked : (before.toList ++ items).IsChain (Linked t)
  tiles : Tiles Item.lo Item.hi (gapStart p before) (p.last + 1) items
  last : (before.toList ++ items).getLast? =
    (((t.children parent).getLast?.bind (itemOf t)).toList ++
      gapBetween parent p ((t.children parent).getLast?.bind (itemOf t)) none).getLast?
  kinds : ∀ x ∈ items, x ∈ childItems t parent ∨ IsGap t parent p x

theorem Neighbours.isGap (h : Neighbours t parent p before after)
    {x : Item} (hx : x ∈ gapBetween parent p before after)
    (hAfter : ∀ c ∈ after, c ∈ childItems t parent) : IsGap t parent p x := by
  by_cases hEq : gapStart p before = gapStop p after
  · rw [gapBetween_of_eq parent hEq] at hx
    cases hx
  · rw [gapBetween_of_ne parent hEq, mem_singleton] at hx
    exact ⟨before, after, h, hEq, hx, hAfter⟩

include h hp in
theorem WellFormed.spread {front back : List Nat}
    (hList : t.children parent = front ++ back) : Spread t parent p (front.getLast?.bind (itemOf t))
      (itemsFrom parent p (front.getLast?.bind (itemOf t)) (back.filterMap (itemOf t))) := by
  induction back generalizing front with
  | nil =>
    have hEnd := h.neighbours hp hList
    refine ⟨?_, hEnd.tiles, ?_, fun x hx => .inr (hEnd.isGap hx fun c hc => by cases hc)⟩
    · have hLinked := hEnd.linked
      rwa [head?_nil, bind_none, toList_none, append_nil] at hLinked
    · rw [hList, append_nil]
      rfl
  | cons id back ih =>
    have hHere := h.neighbours hp hList
    obtain ⟨r, hItem, hChild⟩ := h.isChild hp (hList ▸ mem_append_right _ (.head _))
    have hRest := @ih (front ++ [id]) (by rw [hList, append_assoc, singleton_append])
    rw [getLast?_concat, bind_some, hItem] at hRest
    rw [head?_cons, bind_some, hItem] at hHere
    have hMem : Item.resource id r ∈ childItems t parent :=
      mem_filterMap.mpr ⟨id, hList ▸ mem_append_right _ mem_cons_self, hItem⟩
    rw [filterMap_cons_some hItem, itemsFrom]
    refine ⟨?_, ?_, ?_, ?_⟩
    · have hLinked := hHere.linked
      rw [toList_some, ← append_assoc] at hLinked
      rw [← append_assoc]
      exact isChain_split.mpr ⟨hLinked, hRest.linked⟩
    · exact hHere.tiles.append ⟨rfl, hChild.sound, hRest.tiles⟩
    · rw [← hRest.last, ← append_assoc, getLast?_append_cons]
      rfl
    intro x hx
    rcases mem_append.mp hx with hx | hx
    · refine .inr (hHere.isGap hx ?_)
      intro c hc
      cases hc
      exact hMem
    · rcases mem_cons.mp hx with rfl | hx
      · exact .inl hMem
      · exact hRest.kinds x hx

def allItems (t : Tree) (parent : Nat) (p : Region) : List Item :=
  itemsFrom parent p none (childItems t parent)

theorem gapBetween_length (parent : Nat) (p : Region) (before after : Option Item) :
    (gapBetween parent p before after).length ≤ 1 := by
  rw [gapBetween]
  split_ifs <;> simp

theorem itemsFrom_length (parent : Nat) (p : Region) (before : Option Item) (children : List Item) :
    (itemsFrom parent p before children).length ≤ 2 * children.length + 1 := by
  induction children generalizing before with
  | nil => exact gapBetween_length parent p before none
  | cons child children ih =>
    have hRest := ih (some child)
    have hGap := gapBetween_length parent p before (some child)
    simp [itemsFrom]
    omega

theorem allItems_length (t : Tree) (parent : Nat) (p : Region) :
    (allItems t parent p).length < itemBound t parent := by
  have hItems := itemsFrom_length parent p none (childItems t parent)
  have hChildren := length_filterMap_le (itemOf t) (t.children parent)
  grind [allItems, itemBound, childItems]

include h hp in
theorem WellFormed.allItems_spread : Spread t parent p none (allItems t parent p) :=
  @WellFormed.spread t parent p h hp []
    (t.children parent) rfl

theorem itemsFrom_head (parent : Nat) (p : Region) (children : List Item) :
    (itemsFrom parent p none children).head? =
      (gapBetween parent p none children.head? ++ children.head?.toList).head? := by
  cases children with
  | nil => simp [itemsFrom]
  | cons child children => simp [itemsFrom, head?_append]

include h hp in
theorem WellFormed.childItems_head :
    (childItems t parent).head? = (t.children parent).head?.bind (itemOf t) := by
  rw [childItems]
  cases hList : t.children parent with
  | nil => rfl
  | cons id ids =>
    obtain ⟨r, hItem, -⟩ := h.isChild hp (hList ▸ mem_cons_self)
    simp [hItem]

theorem gapStart_ne_gapStop {p : Region} (h : p.start ≤ p.last) :
    gapStart p none ≠ gapStop p none :=
  Nat.ne_of_lt (lt_succ_of_le h)

theorem Neighbours.resourceIterFirst_eq (h : Neighbours t parent p none after)
    (hFirst : (t.children parent).head?.bind (itemOf t) = after) (hSet : regionIsGap p = false) :
    resourceIterFirst t parent = (gapBetween parent p none after ++ after.toList).head? := by
  simp only [resourceIterFirst, h.live, hSet, hFirst, Bool.false_eq_true, if_false, gapBetween_head]
  cases after with
  | none => exact (if_neg (gapStart_ne_gapStop h.sound)).symm
  | some a => rfl

theorem Neighbours.resourceIterLast_eq (h : Neighbours t parent p before none)
    (hLast : (t.children parent).getLast?.bind (itemOf t) = before) (hSet : regionIsGap p = false) :
    resourceIterLast t parent = (before.toList ++ gapBetween parent p before none).getLast? := by
  simp only [resourceIterLast, h.live, hSet, hLast, Bool.false_eq_true,
    if_false, gapBetween_getLast]
  cases before with
  | none => exact (if_neg (gapStart_ne_gapStop h.sound)).symm
  | some b => exact if_congr (eq_comm.trans succ_inj.symm) rfl rfl

variable (h : WellFormed t) (hp : t.region parent = some p) (hSet : regionIsGap p = false)
include h hp hSet

theorem WellFormed.walk_next {n : Nat} (hn : (allItems t parent p).length < n) :
    walk (resourceIterNext t) n (resourceIterFirst t parent) = allItems t parent p := by
  have hSpread := h.allItems_spread hp
  have hStart := @WellFormed.neighbours t parent p h hp [] (t.children parent) rfl
  have hEnd := @WellFormed.neighbours t parent p h hp (t.children parent) [] (append_nil _).symm
  have hHead : resourceIterFirst t parent = (allItems t parent p).head? := by
    rw [hStart.resourceIterFirst_eq rfl hSet, allItems, itemsFrom_head, h.childItems_head hp]
  rw [hHead]
  refine walk_eq (hSpread.linked.imp fun _ _ hLink => hLink.1) (fun x hx => hEnd.next_last ?_) hn
  have hLast := hSpread.last
  grind

theorem WellFormed.resourceRegions_eq :
    resourceRegions t parent = allItems t parent p :=
  h.walk_next hp hSet (allItems_length t parent p)

theorem WellFormed.walk_prev {n : Nat} (hn : (allItems t parent p).length < n) :
    walk (resourceIterPrev t) n (resourceIterLast t parent) = (allItems t parent p).reverse := by
  have hSpread := h.allItems_spread hp
  have hStart := @WellFormed.neighbours t parent p h hp [] (t.children parent) rfl
  have hEnd := @WellFormed.neighbours t parent p h hp (t.children parent) [] (append_nil _).symm
  have hLast := hSpread.last
  rw [toList_none, nil_append] at hLast
  rw [hEnd.resourceIterLast_eq rfl hSet, ← hLast]
  have hLinked : (allItems t parent p).IsChain (Linked t) := hSpread.linked
  refine walk_reverse (hLinked.imp fun _ _ hLink => hLink.2) (fun x hx => hStart.prev_first ?_) hn
  rwa [allItems, itemsFrom_head, h.childItems_head hp] at hx

theorem WellFormed.resourceRegionsReverse_eq :
    resourceRegionsReverse t parent = (allItems t parent p).reverse :=
  h.walk_prev hp hSet (allItems_length t parent p)

omit h hp hSet

theorem mem_itemsFrom (parent : Nat) (p : Region) (before : Option Item)
    {children : List Item} {c : Item}
    (h : c ∈ children) : c ∈ itemsFrom parent p before children := by
  induction children generalizing before with
  | nil => cases h
  | cons child children ih =>
    rw [itemsFrom, mem_append, mem_cons]
    rcases mem_cons.mp h with rfl | h
    · exact .inr (.inl rfl)
    · exact .inr (.inr (ih _ h))

theorem IsGap.regionIsGap {x : Item} (h : IsGap t parent p x) : regionIsGap x.region = true := by
  obtain ⟨before, after, -, -, rfl, -⟩ := h
  have hBit : ((ioresourceUnset ||| p.flags) &&& ioresourceUnset).testBit 29 = true := by
    have hUnset : ioresourceUnset.testBit 29 = true := by decide
    simp [hUnset]
  refine decide_eq_true fun hZero => ?_
  change (ioresourceUnset ||| p.flags) &&& ioresourceUnset = 0 at hZero
  rw [hZero, zero_testBit] at hBit
  cases hBit

include h hp in
theorem WellFormed.exists_gap {first : Nat} (hLe : first ≤ last)
    (hStart : p.start ≤ first) (hLast : last ≤ p.last)
    (hFree : ∀ c ∈ childItems t parent, last < c.region.start ∨ c.region.last < first) :
    ∃ x ∈ allItems t parent p, IsGap t parent p x ∧ x.region.start ≤ first ∧
    last ≤ x.region.last := by
  have hSpread := h.allItems_spread hp
  obtain ⟨x, hx, hLo, hHi⟩ := hSpread.tiles.exists_mem hStart (lt_succ_of_le (hLe.trans hLast))
  rw [Item.lo] at hLo
  rw [Item.hi] at hHi
  rcases hSpread.kinds x hx with hChild | hGap
  · have hApart := hFree x hChild
    omega
  refine ⟨x, hx, hGap, hLo, ?_⟩
  obtain ⟨before, after, hNeighbours, hNe, rfl, hAfter⟩ := hGap
  obtain ⟨-, hEnd⟩ := hNeighbours.gap_region hNe
  cases after with
  | none =>
    grind [gapStop]
  | some a =>
    have hApart := hFree a (hAfter a rfl)
    have hSound := (hNeighbours.back a rfl).1.sound
    grind [gapStop]

theorem findPlace_of_free {start last : Nat} {ids : List Nat}
    (h : ∀ id ∈ ids, ∃ r, t.region id = some r ∧ (last < r.start ∨ r.last < start)) :
    ∃ front back, findPlace t start last ids = some (.ok (front, back)) := by
  induction ids with
  | nil => exact ⟨[], [], rfl⟩
  | cons id ids ih =>
    obtain ⟨r, hr, hApart⟩ := h id mem_cons_self
    obtain ⟨front, back, hRest⟩ := ih fun id hMem => h id (.tail _ hMem)
    simp only [findPlace, hr]
    by_cases hBehind : last < r.start
    · exact ⟨[], id :: ids, if_pos hBehind⟩
    · rw [if_neg hBehind, if_pos (hApart.resolve_left hBehind), hRest]
      exact ⟨id :: front, back, rfl⟩

/-- `__request_region` on a live parent never reads freed memory. -/
theorem WellFormed.findPlace_live (h : WellFormed t) {start last : Nat} {ids : List Nat}
    (hIds : ∀ id ∈ ids, id ∈ t.children parent) :
    ∃ place, findPlace t start last ids = some place := by
  induction ids with
  | nil => exact ⟨_, rfl⟩
  | cons id ids ih =>
    obtain ⟨-, r, -, hr, -⟩ := h.linked (hIds id (.head _))
    obtain ⟨place, hRest⟩ := ih fun id hMem => hIds id (.tail _ hMem)
    simp only [findPlace, hr, hRest]
    split_ifs
    · exact ⟨_, rfl⟩
    · exact ⟨_, rfl⟩
    · exact ⟨_, rfl⟩

include h hp in
/-- A request for a range succeeds if it lies in the parent and no child intersects it,
and changes nothing otherwise. -/
theorem WellFormed.requestRegion_cases {start flags : Nat} {name : List UInt8}
    (hLe : start ≤ last) :
    ((p.start ≤ start ∧ last ≤ p.last ∧ ∀ c ∈ childItems t parent,
      last < c.region.start ∨ c.region.last < start) ∧
        ∃ new t', requestRegion t parent start last name flags = some (.ok new, t')) ∨
      (¬(p.start ≤ start ∧ last ≤ p.last ∧ ∀ c ∈ childItems t parent,
        last < c.region.start ∨ c.region.last < start) ∧
        ∃ e, requestRegion t parent start last name flags = some (.error e, t)) := by
  simp only [requestRegion, hp, if_neg (Nat.not_lt.mpr hLe)]
  by_cases hOut : start < p.start ∨ p.last < last
  · rw [if_pos hOut]
    exact .inr ⟨fun hIn => by omega, _, rfl⟩
  rw [if_neg hOut]
  obtain ⟨place, hPlace⟩ := @WellFormed.findPlace_live t parent h start last (t.children parent)
    fun id hMem => hMem
  have hItem {id : Nat} {r : Region} (hMem : id ∈ t.children parent) (hr : t.region id = some r) :
      Item.resource id r ∈ childItems t parent :=
    mem_filterMap.mpr ⟨id, hMem, by rw [itemOf, hr, map_some]⟩
  cases place with
  | error e =>
    rw [hPlace]
    refine .inr ⟨fun hIn => ?_, e, rfl⟩
    obtain ⟨front, back, hOk⟩ :=
      @findPlace_of_free t start last (t.children parent) fun id hMem => by
      obtain ⟨-, r, -, hr, -⟩ := h.linked hMem
      exact ⟨r, hr, hIn.2.2 _ (hItem hMem hr)⟩
    rw [hPlace] at hOk
    cases hOk
  | ok pair =>
    obtain ⟨front, back⟩ := pair
    rw [hPlace]
    refine .inl ⟨⟨by omega, by omega, fun c hc => ?_⟩, _, _, rfl⟩
    obtain ⟨hList, hFront, hBack⟩ := findPlace_spec (fun a b ra rb hPair => h.sorted hPair)
      (fun hr => (h.sound hr).1) hPlace
    obtain ⟨id, hMem, hId⟩ := mem_filterMap.mp hc
    obtain ⟨r, hr, rfl⟩ := map_eq_some_iff.mp hId
    rw [hList, mem_append] at hMem
    rcases hMem with hMem | hMem
    · exact .inr (hFront id hMem r hr)
    · exact .inl (hBack id hMem r hr)

end Items
end Barebox.Resource
