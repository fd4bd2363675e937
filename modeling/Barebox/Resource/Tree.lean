import Barebox.Errno
import Barebox.Lib.ListSort
import Mathlib.Tactic.Ring

/-! Regions of the address space: a tree of resources, and the memory banks among
the regions of its root. A resource is named by a number that is never used again;
operations on a number whose resource was freed have no result. -/
namespace Barebox.Resource

/-- `~(resource_size_t)0`. -/
def maxAddress : Nat := 2 ^ 64 - 1

/-- `struct resource`, with `end` as `last`. -/
structure Region where
  start : Nat
  last : Nat
  name : List UInt8
  flags : Nat
  parent : Option Nat
  deriving DecidableEq

structure Tree where
  region : Nat → Option Region
  children : Nat → List Nat
  banks : List Nat
  next : Nat

def root : Nat := 0

def emptyRoot (start last : Nat) (name : List UInt8) : Tree where
  region := Function.update (fun _ => none) root (some ⟨start, last, name, 0, none⟩)
  children _ := []
  banks := []
  next := 1

namespace Tree

def setRegion (t : Tree) (id : Nat) (r : Region) : Tree :=
  { t with region := Function.update t.region id (some r) }

def link (t : Tree) (parent : Nat) (children : List Nat) (r : Region) : Tree :=
  { t with
    region := Function.update t.region t.next (some r)
    children := Function.update t.children parent children
    next := t.next + 1 }

def unlink (t : Tree) (parent id : Nat) : Tree :=
  { t with
    region := Function.update t.region id none
    children := Function.update t.children parent ((t.children parent).erase id) }

end Tree

/-- `start + size - 1`. -/
def lastOf (start size : Nat) : Nat := (start + size + maxAddress) % 2 ^ 64

abbrev Outcome (α : Type) := Option (α × Tree)

/-- The search for the place of a new region: the children in front of it and
those behind, or a conflict. -/
def findPlace (t : Tree) (start last : Nat) : List Nat → Option (Except Errno (List Nat × List Nat))
  | [] => some (.ok ([], []))
  | id :: ids =>
    match t.region id with
    | none => none
    | some r =>
      if last < r.start then some (.ok ([], id :: ids))
      else if r.last < start then
        (findPlace t start last ids).map fun place => place.map fun (front, back) =>
          (id :: front, back)
      else some (.error .ebusy)

variable (t : Tree)

/-- `__request_region`: a new child between its neighbours, or the conflict. -/
def requestRegion (parent start last : Nat) (name : List UInt8) (flags : Nat) :
    Outcome (Except Errno Nat) :=
  match t.region parent with
  | none => none
  | some p =>
    if last < start then some (.error .einval, t)
    else if start < p.start ∨ p.last < last then some (.error .einval, t)
    else
      match findPlace t start last (t.children parent) with
      | none => none
      | some (.error e) => some (.error e, t)
      | some (.ok (front, back)) =>
        some (.ok t.next, t.link parent (front ++ t.next :: back)
          ⟨start, last, name, flags, some parent⟩)

variable (name : List UInt8) (a b : Region) (id : Nat) (r : Region)

/-- `resource_size`, zero for all addresses. -/
def resourceSize : Nat := (r.last + 2 ^ 64 - r.start + 1) % 2 ^ 64

def nextSibling (id : Nat) : List Nat → Option Nat
  | [] => none
  | other :: ids => if other = id then ids.head? else nextSibling id ids

/-- The first part of `resize_region`: a smaller size. -/
def shrinkRegion (size : Nat) : Outcome (Except Errno Unit) :=
  match ((t.children id).getLast?).map t.region with
  | some none => none
  | some (some lastChild) =>
    if r.start + size - 1 < lastChild.last then some (.error .ebusy, t)
    else some (.ok (), t.setRegion id { r with last := r.start + size - 1 })
  | none => some (.ok (), t.setRegion id { r with last := r.start + size - 1 })

/-- The second part of `resize_region`: a larger size. -/
def growRegion (size : Nat) : Outcome (Except Errno Unit) :=
  match r.parent with
  | none => some (.error .einval, t)
  | some parent =>
    match t.region parent with
    | none => none
    | some p =>
      let newend := r.start + (size - 1)
      if maxAddress < newend then some (.error .einval, t)
      else if p.last < newend then some (.error .einval, t)
      else
        match (nextSibling id (t.children parent)).map t.region with
        | some none => none
        | some (some next) =>
          if next.start ≤ newend then some (.error .ebusy, t)
          else some (.ok (), t.setRegion id { r with last := newend })
        | none => some (.ok (), t.setRegion id { r with last := newend })

/-- `resize_region`: from the end only. -/
def resizeRegion (id size : Nat) : Outcome (Except Errno Unit) :=
  match t.region id with
  | none => none
  | some r =>
    if size = 0 then some (.error .einval, t)
    else if size = resourceSize r then some (.ok (), t)
    else if size < resourceSize r then shrinkRegion t id r size
    else growRegion t id r size

/-- `release_region`. The root is in no list. -/
def releaseRegion : Outcome (Except Errno Unit) :=
  match t.region id with
  | none => none
  | some r =>
    if t.children id ≠ [] then some (.error .ebusy, t)
    else
      match r.parent with
      | none => none
      | some parent => some (.ok (), t.unlink parent id)

/-- What `release_region_range` returns: the value of `WARN_ON`, or what the callback
returned. -/
inductive RangeResult where
  | done
  | warned
  | refused (ret : Int)
  deriving DecidableEq

/-- The four cases of `release_region_range` for a child that overlaps the range and
should be freed: remove it, trim its head or its tail, or split it. -/
def cutRegion (parent start last id : Nat) (r : Region) : Outcome Bool :=
  if start ≤ r.start ∧ r.last ≤ last then (releaseRegion t id).map fun (res, t) => (res.isOk, t)
  else if t.children id ≠ [] then some (false, t)
  else if start ≤ r.start then some (true, t.setRegion id { r with start := last + 1 })
  else if r.last ≤ last then some (true, t.setRegion id { r with last := start - 1 })
  else
    let right : Region := { r with start := last + 1, parent := some parent }
    let children := (t.children parent).flatMap fun c => if c = id then [id, t.next] else [c]
    some (true, (t.setRegion id { r with last := start - 1 }).link parent children right)

/-- One child in the loop of `release_region_range`: whether the call was without
error, or the negative result of the callback. -/
def releaseOne (parent start last : Nat) (shouldFree : Region → Int) (id : Nat) :
    Outcome (Except Int Bool) :=
  match t.region id with
  | none => none
  | some r =>
    if last < r.start ∨ r.last < start then some (.ok true, t)
    else if shouldFree r < 0 then some (.error (shouldFree r), t)
    else if shouldFree r = 0 then some (.ok true, t)
    else (cutRegion t parent start last id r).map fun (ok, t) => (.ok ok, t)

/-- The loop of `release_region_range` over the children. -/
def releaseAll (t : Tree) (parent start last : Nat) (shouldFree : Region → Int) :
    List Nat → Bool → Outcome RangeResult
  | [], clean => some (if clean then .done else .warned, t)
  | id :: ids, clean =>
    match releaseOne t parent start last shouldFree id with
    | none => none
    | some (.error ret, t) => some (.refused ret, t)
    | some (.ok ok, t) => releaseAll t parent start last shouldFree ids (clean && ok)

/-- `release_region_range`: each child in the range is removed, trimmed or split. -/
def releaseRegionRange (parent start size : Nat) (shouldFree : Region → Int) :
    Outcome RangeResult :=
  match t.region parent with
  | none => none
  | some p =>
    let last := lastOf start size
    if last < p.start ∨ p.last < start then some (.done, t)
    else releaseAll t parent start last shouldFree (t.children parent) true

def resourceAdjacent : Bool :=
  (a.last ≠ maxAddress && a.last + 1 = b.start) || (b.last ≠ maxAddress && b.last + 1 = a.start)

def mergedRegion : Region :=
  if a.start < b.start then { a with last := b.last, name } else { a with start := b.start, name }

/-- `__merge_regions`. It does not look at the result of releasing the second one. -/
def mergeRegions (a b : Nat) : Outcome (Except Errno Unit) :=
  match t.region a, t.region b with
  | some ra, some rb =>
    if !resourceAdjacent ra rb then some (.error .einval, t)
    else (releaseRegion (t.setRegion a (mergedRegion name ra rb)) b).map fun (_, t) => (.ok (), t)
  | _, _ => none

def ioresourceMem : Nat := 0x200

def resourceContains : Bool :=
  a.flags &&& 0x1f00 = b.flags &&& 0x1f00 && a.flags &&& 0x20000000 =
    0 && b.flags &&& 0x20000000 = 0 &&
    (a.start ≤ b.start && b.last ≤ a.last)

def growBy (bank : Nat) (name : List UInt8) (start last : Nat) : Outcome (Except Errno Unit) :=
  match requestRegion t root start last name 0 with
  | none => none
  | some (.error e, t) => some (.error e, t)
  | some (.ok new, t) => (mergeRegions t name bank new).map fun (_, t) => (.ok (), t)

/-- `barebox_grow_memory_bank`: what lies below the bank, then what lies above it. -/
def bareboxGrowMemoryBank (bank : Nat) (name : List UInt8) (newres : Region) :
    Outcome (Except Errno Unit) :=
  match t.region bank with
  | none => none
  | some b =>
    let below : Outcome (Except Errno Unit) :=
      if newres.start < b.start then growBy t bank name newres.start (b.start - 1)
      else some (.ok (), t)
    match below with
    | none => none
    | some (.error e, t) => some (.error e, t)
    | some (.ok _, t) =>
      if b.last < newres.last then growBy t bank name (b.last + 1) newres.last else some (.ok (), t)

/-- The loop over the banks: the bank that holds the new region, or one to grow. -/
def findBank (t : Tree) (newres : Region) : List Nat → Option (Option (Nat × Bool))
  | [] => some none
  | bank :: banks =>
    match t.region bank with
    | none => none
    | some b =>
      if resourceContains b newres then some (some (bank, true))
      else if resourceContains newres b then some (some (bank, false))
      else findBank t newres banks

def memoryBanksCompare (a b : Nat) : Int :=
  match t.region a, t.region b with
  | some ra, some rb => if ra.start < rb.start then -1 else if rb.start < ra.start then 1 else 0
  | _, _ => 0

/-- `barebox_add_memory_bank`: a range around a known bank makes that bank grow. -/
def bareboxAddMemoryBank (start size : Nat) : Outcome (Except Errno Unit) :=
  let last := lastOf start size
  let newres : Region := ⟨start, last, [], ioresourceMem, none⟩
  match findBank t newres t.banks with
  | none => none
  | some (some (_, true)) => some (.ok (), t)
  | some (some (bank, false)) => bareboxGrowMemoryBank t bank name newres
  | some none =>
    match requestRegion t root start last name 0 with
    | none => none
    | some (.error e, t) => some (.error e, t)
    | some (.ok new, t) =>
      match t.region new with
      | none => none
      | some r =>
        -- `IORESOURCE_MEM | IORESOURCE_TYPE_VALID`
        let t := t.setRegion new { r with flags := ioresourceMem ||| 0x800000 }
        some (.ok (), { t with banks := Lib.listAddSort (memoryBanksCompare t) new t.banks })

theorem exists_region {α : Type} {o : Option Region} {f : Region → Option α} {a : α}
    (h : (match o with | none => none | some r => f r) = some a) :
    ∃ r, o = some r ∧ f r = some a := by
  cases o with
  | none => cases h
  | some r => exact ⟨r, rfl, h⟩

end Barebox.Resource
