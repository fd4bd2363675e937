import Mathlib.Data.List.Chain

/-! Two facts about lists that describe a range: a list is what its links lead through,
forwards and backwards, and a list of intervals without holes still has none after all
bounds are rounded. -/
namespace Tiling
open List
variable {α : Type*}

/-- The elements that a link function leads through, at most the given number. -/
def walk (next : α → Option α) : Nat → Option α → List α
  | 0, _ => []
  | _ + 1, none => []
  | n + 1, some a => a :: walk next n (next a)

theorem walk_eq {next : α → Option α} {l : List α} (hLinked : l.IsChain fun a b => next a = some b)
    (hLast : ∀ a ∈ l.getLast?, next a = none) {n : Nat} (hLen : l.length < n) :
    walk next n l.head? = l := by
  induction l generalizing n with
  | nil =>
    obtain ⟨n, rfl⟩ := Nat.exists_eq_succ_of_ne_zero (Nat.ne_zero_of_lt hLen)
    rfl
  | cons a l ih =>
    obtain ⟨n, rfl⟩ := Nat.exists_eq_succ_of_ne_zero (Nat.ne_zero_of_lt hLen)
    have hNext : next a = l.head? := by
      cases l with
      | nil => exact hLast a rfl
      | cons b l => exact (isChain_cons_cons.mp hLinked).1
    rw [head?_cons, walk, hNext]
    congr 1
    refine ih hLinked.tail (fun b hb => hLast b ?_) (by simpa using hLen)
    cases l with
    | nil => cases hb
    | cons c l => simpa using hb

theorem walk_reverse {prev : α → Option α} {l : List α}
    (hLinked : l.IsChain fun a b => prev b = some a)
    (hFirst : ∀ a ∈ l.head?, prev a = none) {n : Nat} (hLen : l.length < n) :
    walk prev n l.getLast? = l.reverse := by
  have hWalk := @walk_eq α prev l.reverse (isChain_reverse.mpr hLinked)
    (by rw [getLast?_reverse]; exact hFirst) n (by rwa [length_reverse])
  rwa [head?_reverse] at hWalk

theorem apart_of_pairwise {lo hi : α → Nat} {l : List α} (h : l.Pairwise fun a b => hi a < lo b)
    {a b : α} (ha : a ∈ l)
    (hb : b ∈ l) (hNe : a ≠ b) : hi a < lo b ∨ hi b < lo a := by
  have hEither : l.Pairwise fun a b => hi a < lo b ∨ hi b < lo a := h.imp .inl
  have hSymm : Std.Symm fun a b : α => hi a < lo b ∨ hi b < lo a := ⟨fun _ _ => Or.symm⟩
  exact hEither.forall ha hb hNe

/-- The intervals from `lo` to `hi`, both included, follow each other from `start` up to
`stop`. -/
def Tiles (lo hi : α → Nat) : Nat → Nat → List α → Prop
  | start, stop, [] => start = stop
  | start, stop, a :: l => lo a = start ∧ lo a ≤ hi a ∧ Tiles lo hi (hi a + 1) stop l

namespace Tiles
variable {lo hi : α → Nat} {start stop : Nat} {l : List α} (h : Tiles lo hi start stop l)
include h

theorem start_le : start ≤ stop := by
  induction l generalizing start with
  | nil => exact h.le
  | cons a l ih =>
    obtain ⟨hLo, hLe, hRest⟩ := h
    have hStop := ih hRest
    omega

theorem bounds {a : α} (hMem : a ∈ l) : start ≤ lo a ∧ lo a ≤ hi a ∧ hi a < stop := by
  induction l generalizing start with
  | nil => cases hMem
  | cons b l ih =>
    obtain ⟨hLo, hLe, hRest⟩ := h
    rcases mem_cons.mp hMem with rfl | hMem
    · have hStop := hRest.start_le
      omega
    · have hBounds := ih hRest hMem
      omega

theorem pairwise : l.Pairwise fun a b => hi a < lo b := by
  induction l generalizing start with
  | nil => exact .nil
  | cons a l ih =>
    exact .cons (fun b hb => (h.2.2.bounds hb).1) (ih h.2.2)

theorem apart {a b : α} (ha : a ∈ l) (hb : b ∈ l) (hNe : a ≠ b) : hi a < lo b ∨ hi b < lo a :=
  apart_of_pairwise h.pairwise ha hb hNe

omit h

theorem append {mid : Nat} {l' : List α} (h : Tiles lo hi start mid l)
    (h' : Tiles lo hi mid stop l') :
    Tiles lo hi start stop (l ++ l') := by
  induction l generalizing start with
  | nil =>
    cases h
    exact h'
  | cons a l ih => exact ⟨h.1, h.2.1, ih h.2.2⟩

include h in
theorem flatMap {β : Type*} {lo' hi' : β → Nat} {parts : α → List β}
    (hParts : ∀ a ∈ l, Tiles lo' hi' (lo a) (hi a + 1) (parts a)) :
    Tiles lo' hi' start stop (l.flatMap parts) := by
  induction l generalizing start with
  | nil => exact h
  | cons a l ih =>
    obtain ⟨rfl, -, hRest⟩ := h
    exact (hParts a (.head _)).append (ih hRest fun b hb => hParts b (.tail _ hb))

theorem map {β : Type*} {lo' hi' : β → Nat} (f : α → β) (hLo : ∀ a, lo' (f a) = lo a)
    (hHi : ∀ a, hi' (f a) = hi a)
    (h : Tiles lo hi start stop l) : Tiles lo' hi' start stop (l.map f) := by
  induction l generalizing start with
  | nil => exact h
  | cons a l ih =>
    obtain ⟨hStart, hLe, hRest⟩ := h
    exact ⟨(hLo a).trans hStart, by rw [hLo, hHi]; exact hLe, by rw [hHi]; exact ih hRest⟩

include h in
theorem exists_rounded {f : Nat → Nat} {v : Nat} (hStart : f start ≤ v)
    (hStop : v < f stop) : ∃ a ∈ l, f (lo a) ≤ v ∧ v < f (hi a + 1) := by
  induction l generalizing start with
  | nil =>
    cases h
    omega
  | cons a l ih =>
    obtain ⟨rfl, -, hRest⟩ := h
    by_cases hHere : v < f (hi a + 1)
    · exact ⟨a, (.head _), hStart, hHere⟩
    · obtain ⟨b, hb, hBounds⟩ := ih hRest (Nat.le_of_not_lt hHere)
      exact ⟨b, .tail _ hb, hBounds⟩

include h in
theorem exists_mem {v : Nat} (hStart : start ≤ v) (hStop : v < stop) :
    ∃ a ∈ l, lo a ≤ v ∧ v ≤ hi a := by
  obtain ⟨a, ha, hLo, hHi⟩ := @exists_rounded α lo hi start stop l h id v hStart hStop
  exact ⟨a, ha, hLo, Nat.le_of_lt_succ hHi⟩

end Tiles
end Tiling
