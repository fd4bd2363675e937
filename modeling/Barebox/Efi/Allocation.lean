import Barebox.Efi.Memory

/-! When `efi_allocate_pages` finds pages. The search takes the topmost gap that has room
if the page in which it ends and the page of the limit are counted as a whole, and then
asks for the topmost pages of it. -/
namespace Barebox.Efi
open Barebox.Resource Tiling List

/-- Resources as the loader finds them: a well-formed tree with its banks, and no resource
that is marked as a gap. -/
structure Sdram (t : Tree) : Prop where
  wellFormed : WellFormed t
  live : ∀ bank ∈ t.banks, ∃ b, t.region bank = some b
  set : ∀ id r, t.region id = some r → regionIsGap r = false

def pageUp (a : Nat) : Nat := (a + 4095) / 4096

def countedEnd (m : Nat) (gap : Region) : Nat := min (pageUp (gap.last + 1)) (m / 4096 + 1)

def SeemsFit (npages m : Nat) (gap : Region) : Prop :=
  pageUp (gap.last + 1) < 2 ^ 52 ∧ pageUp gap.start + npages ≤ countedEnd m gap

instance (npages m : Nat) (gap : Region) : Decidable (SeemsFit npages m gap) :=
  inferInstanceAs (Decidable (_ ∧ _))

theorem efiPageAlign_div (a : Nat) : efiPageAlign a / 4096 = pageUp a % 2 ^ 52 := by
  simp only [efiPageAlign, pageUp]
  omega

theorem efiPageAlign_mod (a : Nat) : efiPageAlign (a % 2 ^ 64) = efiPageAlign a := by
  simp [efiPageAlign]

theorem gapPages_eq {npages m : Nat} {gap : Region} (hPages : 0 < npages)
    (hSound : gap.start ≤ gap.last)
    (hBound : gap.last ≤ maxAddress) : gapPages npages (m / 4096) gap =
      if SeemsFit npages m gap then some (countedEnd m gap - npages) else none := by
  have hMax : maxAddress + 1 = 2 ^ 64 := rfl
  have hUp : pageUp gap.start ≤ pageUp (gap.last + 1) := by
    simp only [pageUp]
    omega
  have hTop : pageUp (gap.last + 1) ≤ 2 ^ 52 := by
    simp only [pageUp]
    omega
  simp only [gapPages]
  rw [efiPageAlign_mod, efiPageAlign_div, efiPageAlign_div]
  by_cases hFit : SeemsFit npages m gap
  · rw [if_pos hFit]
    obtain ⟨hWrap, hRoom⟩ := hFit
    rw [countedEnd] at hRoom ⊢
    rw [Nat.mod_eq_of_lt hWrap, Nat.mod_eq_of_lt (hUp.trans_lt hWrap),
      if_neg (by omega), if_neg (by omega),
      if_neg (by omega)]
    congr 1
    omega
  · rw [if_neg hFit]
    by_cases hWrap : pageUp (gap.last + 1) < 2 ^ 52
    · have hRoom : ¬pageUp gap.start + npages ≤ countedEnd m gap := fun h => hFit ⟨hWrap, h⟩
      rw [countedEnd] at hRoom
      rw [Nat.mod_eq_of_lt hWrap, Nat.mod_eq_of_lt (hUp.trans_lt hWrap)]
      by_cases hNone : pageUp (gap.last + 1) = 0 ∨ pageUp (gap.last + 1) < pageUp gap.start
      · rw [if_pos hNone]
      rw [if_neg hNone]
      by_cases hLow : min (pageUp (gap.last + 1) - 1) (m / 4096) < pageUp gap.start
      · rw [if_pos hLow]
      · rw [if_neg hLow, if_pos (by omega)]
    · rw [if_pos (.inl (by omega))]

def bankGaps (t : Tree) : List Region :=
  t.banks.flatMap fun bank => ((resourceRegions t bank).map Item.region).filter regionIsGap

section Gaps
variable {t : Tree} {bank : Nat} {x : Item} {gap b : Region} (h : Sdram t)
include h

theorem Sdram.childItems_set (hx : x ∈ childItems t bank) : regionIsGap x.region = false := by
  obtain ⟨id, -, hItem⟩ := mem_filterMap.mp hx
  obtain ⟨r, hr, rfl⟩ := Option.map_eq_some_iff.mp hItem
  exact h.set id r hr

theorem Sdram.mem_bankGaps (hGap : gap ∈ bankGaps t) :
    ∃ bank ∈ t.banks, ∃ b, t.region bank = some b ∧ b.start ≤ gap.start ∧
    gap.start ≤ gap.last ∧ gap.last ≤ b.last ∧
      b.last ≤ maxAddress ∧ ∃ x ∈ allItems t bank b, IsGap t bank b x ∧ gap = x.region := by
  obtain ⟨bank, hBank, hMem⟩ := mem_flatMap.mp hGap
  obtain ⟨b, hb⟩ := h.live bank hBank
  rw [h.wellFormed.resourceRegions_eq hb (h.set bank b hb)] at hMem
  obtain ⟨hMem, hIsGap⟩ := mem_filter.mp hMem
  obtain ⟨x, hx, rfl⟩ := mem_map.mp hMem
  have hSpread := h.wellFormed.allItems_spread hb
  obtain ⟨hStart, hSound, hLast⟩ := hSpread.tiles.bounds hx
  refine ⟨bank, hBank, b, hb, hStart, hSound, Nat.le_of_lt_succ hLast,
    (h.wellFormed.sound hb).2, x, hx, ?_, rfl⟩
  refine (hSpread.kinds x hx).resolve_left fun hChild => ?_
  rw [h.childItems_set hChild] at hIsGap
  cases hIsGap

theorem Sdram.bankGaps_of_isGap (hBank : bank ∈ t.banks) (hb : t.region bank = some b)
    (hx : x ∈ allItems t bank b)
    (hGap : IsGap t bank b x) : x.region ∈ bankGaps t := by
  refine mem_flatMap.mpr ⟨bank, hBank, mem_filter.mpr ⟨?_, hGap.regionIsGap⟩⟩
  rw [h.wellFormed.resourceRegions_eq hb (h.set bank b hb)]
  exact mem_map_of_mem hx

theorem Sdram.banks_apart {bank' : Nat} {b' : Region} (hBank : bank ∈ t.banks)
    (hBank' : bank' ∈ t.banks)
    (hb : t.region bank = some b) (hb' : t.region bank' = some b') :
    bank = bank' ∨ b.last < b'.start ∨ b'.last < b.start := by
  by_cases hEq : bank = bank'
  · exact .inl hEq
  have hMem := h.wellFormed.listed hb (h.wellFormed.banked hBank hb)
  have hMem' := h.wellFormed.listed hb' (h.wellFormed.banked hBank' hb')
  rcases pair_sublist_total hMem hMem' hEq with hPair | hPair
  · exact .inr (.inl (h.wellFormed.sorted hPair hb hb'))
  · exact .inr (.inr (h.wellFormed.sorted hPair hb' hb))

def Free (t : Tree) (first last : Nat) : Prop :=
  ∀ bank ∈ t.banks, ∀ c ∈ childItems t bank, last < c.region.start ∨ c.region.last < first

instance (t : Tree) (first last : Nat) : Decidable (Free t first last) :=
  inferInstanceAs (Decidable (∀ bank ∈ t.banks, ∀ c ∈ childItems t bank, _ ∨ _))

/-- Free pages inside a bank, up to the limit. -/
def IsRun (t : Tree) (npages m page : Nat) : Prop :=
  (∃ bank ∈ t.banks, ∃ b, t.region bank = some b ∧ b.start ≤ 4096 * page ∧
    4096 * (page + npages) ≤ b.last + 1) ∧
    4096 * (page + npages) ≤ m + 1 ∧ Free t (4096 * page) (4096 * (page + npages) - 1)

theorem Sdram.free_of_gap (hGap : gap ∈ bankGaps t) {first last : Nat} (hStart : gap.start ≤ first)
    (hLast : last ≤ gap.last) : Free t first last := by
  obtain ⟨bank, hBank, b, hb, hLo, hSound, hHi, -, x, hx, hIsGap, rfl⟩ := h.mem_bankGaps hGap
  intro bank' hBank' c hc
  obtain ⟨b', hb'⟩ := h.live bank' hBank'
  have hSpread := h.wellFormed.allItems_spread hb'
  obtain ⟨hStart', hSound', hLast'⟩ := hSpread.tiles.bounds (mem_itemsFrom bank' b' none hc)
  rw [Item.lo] at hStart' hSound'
  rw [Item.hi] at hSound' hLast'
  rcases h.banks_apart hBank hBank' hb hb' with rfl | hApart
  · rw [hb] at hb'
    cases hb'
    have hNe : x ≠ c := by
      rintro rfl
      have hSet := h.childItems_set hc
      rw [hIsGap.regionIsGap] at hSet
      cases hSet
    have hApart := hSpread.tiles.apart hx (mem_itemsFrom bank b none hc) hNe
    grind [Item.lo, Item.hi]
  · grind [gapStart]

theorem Sdram.isRun_iff {npages m page : Nat} (hPages : 0 < npages) :
    IsRun t npages m page ↔ ∃ gap ∈ bankGaps t, gap.start ≤ 4096 * page ∧
    4096 * (page + npages) ≤ gap.last + 1 ∧
      4096 * (page + npages) ≤ m + 1 := by
  constructor
  · rintro ⟨⟨bank, hBank, b, hb, hStart, hLast⟩, hLimit, hFree⟩
    obtain ⟨x, hx, hGap, hLo, hHi⟩ :=
      h.wellFormed.exists_gap hb (by omega) hStart (by omega) (hFree bank hBank)
    exact ⟨x.region, h.bankGaps_of_isGap hBank hb hx hGap, hLo, by omega, hLimit⟩
  · rintro ⟨gap, hGap, hStart, hLast, hLimit⟩
    obtain ⟨bank, hBank, b, hb, hLo, -, hHi, -⟩ := h.mem_bankGaps hGap
    exact ⟨⟨bank, hBank, b, hb, hLo.trans hStart, by omega⟩,
      hLimit, h.free_of_gap hGap hStart (by omega)⟩

end Gaps

theorem findSome?_flatMap_reverse {α β γ : Type*} {l : List α}
    {f : α → Option γ} {parts : α → List β}
    {g : β → Option γ} (h : ∀ a ∈ l, f a = (parts a).reverse.findSome? g) :
    l.reverse.findSome? f = (l.flatMap parts).reverse.findSome? g := by
  induction l with
  | nil => rfl
  | cons a l ih =>
    simp [ih fun b hb => h b (.tail _ hb), h a (.head _)]

theorem findSome?_map_filter {α β γ : Type*} (l : List α) (f : α → β)
    (p : β → Bool) (g : β → Option γ) :
    (l.findSome? fun a => if p (f a) then g (f a) else none) =
    ((l.map f).filter p).findSome? g := by
  induction l with
  | nil => rfl
  | cons a l ih =>
    rw [map_cons]
    by_cases h : p (f a) = true
    · simp [filter_cons_of_pos h, findSome?_cons, if_pos h, ih]
    · simp [filter_cons_of_neg h, if_neg h, ih]

theorem findSome?_eq_map_find? {α β : Type*} {l : List α} {f : α → Option β}
    {p : α → Prop} [DecidablePred p] {g : α → β}
    (h : ∀ a ∈ l, f a = if p a then some (g a) else none) :
    l.findSome? f = (l.find? fun a => p a).map g := by
  induction l with
  | nil => rfl
  | cons a l ih =>
    have hRest := ih fun b hb => h b (.tail _ hb)
    rw [findSome?_cons, find?_cons, h a (.head _)]
    by_cases hp : p a
    · simp [hp]
    · simp [hp, hRest]

def chosenGap (t : Tree) (npages m : Nat) : Option Region :=
  (bankGaps t).reverse.find? fun gap => SeemsFit npages m gap

section Search
variable {t : Tree} {npages m : Nat}

/-- The gap that an allocation uses is one of the gaps and passes the test of its mode. -/
theorem chosenGap_spec {gap : Region} (h : chosenGap t npages m = some gap) :
    gap ∈ bankGaps t ∧ SeemsFit npages m gap := by
  have hFit := find?_some h
  exact ⟨mem_reverse.mp (mem_of_find?_eq_some h), of_decide_eq_true hFit⟩

theorem Sdram.bankPages_eq (h : Sdram t) (hPages : 0 < npages)
    {bank : Nat} (hBank : bank ∈ t.banks) :
    bankPages t npages (m / 4096) bank =
      (((resourceRegions t bank).map Item.region).filter regionIsGap).reverse.findSome?
        (gapPages npages (m / 4096)) := by
  obtain ⟨b, hb⟩ := h.live bank hBank
  have hSet := h.set bank b hb
  have hReverse : resourceRegionsReverse t bank = (resourceRegions t bank).reverse := by
    rw [h.wellFormed.resourceRegionsReverse_eq hb hSet, h.wellFormed.resourceRegions_eq hb hSet]
  simp only [bankPages, hb]
  rw [← filter_reverse, ← map_reverse, ← findSome?_map_filter, hReverse]
  split_ifs with hSkip
  · refine (findSome?_eq_none_iff.mpr fun x hx => ?_).symm
    rw [mem_reverse, h.wellFormed.resourceRegions_eq hb hSet] at hx
    obtain ⟨hStart, hSound, hLast⟩ := (h.wellFormed.allItems_spread hb).tiles.bounds hx
    have hBound := (h.wellFormed.sound hb).2
    simp only [gapStart, Option.elim, Item.lo, Item.hi] at hStart hSound hLast
    have hNot : ¬SeemsFit npages m x.region := by
      rintro ⟨-, hRoom⟩
      simp only [countedEnd, pageUp] at hRoom
      omega
    simp [gapPages_eq hPages hSound (by omega), if_neg hNot]
  · rfl

theorem Sdram.findPagesMax_eq (h : Sdram t) (hPages : 0 < npages) :
    t.banks.reverse.findSome? (bankPages t npages (m / 4096)) =
      (chosenGap t npages m).map fun gap => countedEnd m gap - npages := by
  rw [findSome?_flatMap_reverse fun bank hBank => h.bankPages_eq hPages hBank]
  refine findSome?_eq_map_find? fun gap hGap => ?_
  obtain ⟨-, -, b, -, -, hSound, hLast, hBound, -⟩ := h.mem_bankGaps (mem_reverse.mp hGap)
  exact gapPages_eq hPages hSound (hLast.trans hBound)

end Search

section Request
variable {t : Tree} {first last : Nat}

def Placed (t : Tree) (banks : List Nat) (first last : Nat) : Prop :=
  ∃ bank ∈ banks, ∃ b, t.region bank = some b ∧ b.start ≤ first ∧ last ≤ b.last ∧
    ∀ c ∈ childItems t bank, last < c.region.start ∨ c.region.last < first

theorem Sdram.requestSdramRegion_cases (h : Sdram t) (name : List UInt8)
    (hLe : first ≤ last) {banks : List Nat}
    (hBanks : ∀ bank ∈ banks, bank ∈ t.banks) :
    (Placed t banks first last ∧ ∃ res t',
      requestSdramRegion name first last banks t = some (some res, t')) ∨
      (¬Placed t banks first last ∧ requestSdramRegion name first last banks t = some (none,
        t)) := by
  induction banks with
  | nil =>
    refine .inr ⟨?_, rfl⟩
    rintro ⟨bank, hBank, -⟩
    cases hBank
  | cons bank banks ih =>
    obtain ⟨b, hb⟩ := h.live bank (hBanks bank (.head _))
    rcases h.wellFormed.requestRegion_cases hb hLe with ⟨hIn, new, t', hReq⟩ | ⟨hOut, e, hReq⟩
    · refine .inl ⟨⟨bank, (.head _), b, hb, hIn⟩, new, t', ?_⟩
      rw [requestSdramRegion, hReq]
    have hSame : Placed t (bank :: banks) first last ↔ Placed t banks first last := by
      constructor
      · rintro ⟨bank', hMem, b', hb', hIn⟩
        rcases mem_cons.mp hMem with rfl | hMem
        · rw [hb] at hb'
          cases hb'
          exact absurd hIn hOut
        · exact ⟨bank', hMem, b', hb', hIn⟩
      · rintro ⟨bank', hMem, hRest⟩
        exact ⟨bank', .tail _ hMem, hRest⟩
    grind [requestSdramRegion]

/-- The topmost pages of a gap that seems to have room are free if the last of them is
wholly inside the gap. -/
theorem Sdram.placed_iff (h : Sdram t) {npages m : Nat} (hPages : 0 < npages)
    {gap : Region} (hGap : gap ∈ bankGaps t)
    (hFit : SeemsFit npages m gap) :
    Placed t t.banks (4096 * (countedEnd m gap - npages)) (4096 * countedEnd m gap - 1) ↔
      4096 * countedEnd m gap ≤ gap.last + 1 := by
  obtain ⟨bank, hBank, b, hb, hLo, hSound, hHi, -, x, hx, hIsGap, rfl⟩ := h.mem_bankGaps hGap
  obtain ⟨hWrap, hRoom⟩ := hFit
  have hUp : x.region.start ≤ 4096 * pageUp x.region.start := by
    simp only [pageUp]
    omega
  have hEnd : 4096 * countedEnd m x.region ≤ 4096 * pageUp (x.region.last + 1) := by
    simp [countedEnd]
  have hDown : 4096 * pageUp (x.region.last + 1) < x.region.last + 1 + 4096 := by
    simp only [pageUp]
    omega
  constructor
  · rintro ⟨bank', hBank', b', hb', hStart', hLast', hFree⟩
    by_contra hOver
    have hSame : bank = bank' := by
      rcases h.banks_apart hBank hBank' hb hb' with hEq | hApart
      · exact hEq
      · omega
    subst hSame
    rw [hb] at hb'
    cases hb'
    obtain ⟨before, after, hNeighbours, hNe, rfl, hAfter⟩ := hIsGap
    obtain ⟨-, hStop⟩ := hNeighbours.gap_region hNe
    cases after with
    | none =>
      simp only [gapStop, Option.elim] at hStop
      omega
    | some a =>
      have hApart := hFree a (hAfter a rfl)
      have hChild := (hNeighbours.back a rfl).1.sound
      simp only [gapStop, Option.elim] at hStop
      omega
  · intro hWhole
    exact ⟨bank, hBank, b, hb, by omega, by omega,
      h.free_of_gap hGap (by omega) (by omega) bank hBank⟩

end Request

section Result
variable {l : Loader} {type : AllocateType} {memoryType : MemoryType} {npages memory m : Nat}
  {name : Option (List UInt8)}

def Searches (type : AllocateType) (memory m : Nat) : Prop :=
  (type = .anyPages ∧ m = maxAddress) ∨ (type = .maxAddress ∧ m = memory)

/-- Allocation succeeds where there is a run of free pages, and returns one. -/
def Exact (l : Loader) (type : AllocateType) (memoryType : MemoryType) (npages memory : Nat)
    (name : Option (List UInt8)) (m : Nat) : Prop :=
  ((∃ addr l', efiAllocatePages l type memoryType npages memory name = some (.ok addr, l')) ↔
      ∃ page, IsRun l.tree npages m page) ∧
    ∀ addr l', efiAllocatePages l type memoryType npages memory name = some (.ok addr, l') →
      addr % 4096 = 0 ∧ IsRun l.tree npages m (addr / 4096)

/-- Whole pages of the gap up to the limit suffice. -/
def Fits (npages m : Nat) (gap : Region) : Prop :=
  4096 * (pageUp gap.start + npages) ≤ min gap.last m + 1

/-- The last page that the search counts in the topmost gap that seems to have room is
wholly inside the gap and below the limit, or no gap has room and that page is not wholly
inside the gap. -/
def Reliable (t : Tree) (npages m : Nat) : Prop :=
  (∃ gap, chosenGap t npages m = some gap ∧ 4096 * countedEnd m gap ≤ min gap.last m + 1) ∨
    (∀ gap, chosenGap t npages m = some gap → gap.last + 1 < 4096 * countedEnd m gap) ∧
      ∀ gap ∈ bankGaps t, ¬Fits npages m gap

theorem Sdram.exists_isRun_iff {t : Tree} (h : Sdram t) (hPages : 0 < npages) :
    (∃ page, IsRun t npages m page) ↔ ∃ gap ∈ bankGaps t, Fits npages m gap := by
  constructor
  · rintro ⟨page, hRun⟩
    obtain ⟨gap, hGap, hStart, hLast, hLimit⟩ := (h.isRun_iff hPages).mp hRun
    refine ⟨gap, hGap, ?_⟩
    simp only [Fits, pageUp]
    omega
  · rintro ⟨gap, hGap, hFits⟩
    simp only [Fits] at hFits
    refine ⟨pageUp gap.start, (h.isRun_iff hPages).mpr ⟨gap, hGap, ?_, by omega, by omega⟩⟩
    simp only [pageUp]
    omega

/-- Where all resources begin and end with a page, and no bank at the end of the address space, a
limit at the end of a page makes the search reliable: what it counts is what there is. -/
theorem Sdram.reliable_of_aligned {t : Tree} (h : Sdram t)
    (hAligned : ∀ id r, t.region id = some r → r.start % 4096 = 0 ∧ (r.last + 1) % 4096 = 0)
    (hBelow : ∀ bank ∈ t.banks, ∀ b, t.region bank = some b → b.last < maxAddress)
    (hLimit : (m + 1) % 4096 = 0) : Reliable t npages m := by
  have hEnd (gap : Region) (hGap : gap ∈ bankGaps t) :
      (gap.last + 1) % 4096 = 0 ∧ gap.last < maxAddress := by
    obtain ⟨bank, hBank, b, hb, -, -, hHi, -, x, -, hIsGap, rfl⟩ := h.mem_bankGaps hGap
    refine ⟨?_, hHi.trans_lt (hBelow bank hBank b hb)⟩
    obtain ⟨before, after, hNeighbours, hNe, rfl, hAfter⟩ := hIsGap
    obtain ⟨-, hStop⟩ := hNeighbours.gap_region hNe
    rw [hStop]
    cases after with
    | none => exact (hAligned bank b hb).2
    | some a =>
      obtain ⟨id, -, hItem⟩ := mem_filterMap.mp (hAfter a rfl)
      obtain ⟨r, hr, rfl⟩ := Option.map_eq_some_iff.mp hItem
      exact (hAligned id r hr).1
  have hMax : maxAddress = 18446744073709551615 := rfl
  cases hChosen : chosenGap t npages m with
  | some gap =>
    have hGap := hEnd gap (chosenGap_spec hChosen).1
    refine .inl ⟨gap, hChosen, ?_⟩
    simp only [countedEnd, pageUp]
    omega
  | none =>
    refine .inr ⟨fun gap hSome => ?_, fun gap hGap hFits => ?_⟩
    · rw [hChosen] at hSome
      cases hSome
    have hLast := hEnd gap hGap
    refine find?_eq_none.mp hChosen gap (mem_reverse.mpr hGap) (decide_eq_true ⟨?_, ?_⟩)
    · simp only [pageUp]
      omega
    · simp only [Fits, countedEnd, pageUp] at hFits ⊢
      omega

variable (h : Sdram l.tree) (hPages : 0 < npages) (hType : Searches type memory m)
include h hPages hType

theorem requestedAddress_eq :
    requestedAddress l.tree type npages memory =
    ((chosenGap l.tree npages m).elim (.error .outOfResources) fun gap =>
        .ok ((countedEnd m gap - npages) * 4096 % 2 ^ 64)) := by
  have hSearch : findPagesMax l.tree npages (m / 4096) =
      (chosenGap l.tree npages m).elim (.error .outOfResources) fun gap =>
        .ok (countedEnd m gap - npages) := by
    rw [findPagesMax, h.findPagesMax_eq hPages]
    cases chosenGap l.tree npages m with
    | none => rfl
    | some gap => rfl
  rcases hType with ⟨rfl, rfl⟩ | ⟨rfl, rfl⟩
  · rw [requestedAddress, hSearch]
    cases chosenGap l.tree npages maxAddress with
    | none => rfl
    | some gap => rfl
  rw [requestedAddress, hSearch]
  cases chosenGap l.tree npages m with
  | none => rfl
  | some gap => rfl

/-- The topmost pages of the chosen gap are allocated, or nothing if the last of them is
not wholly inside the gap. -/
theorem efiAllocatePages_some (hAttrs : efiMemoryTypeDefaultAttrs memoryType ≠ 0) {gap : Region}
    (hChosen : chosenGap l.tree npages m = some gap) :
    (4096 * countedEnd m gap ≤ gap.last + 1 ∧ ∃ l',
      efiAllocatePages l type memoryType npages memory name =
        some (.ok (4096 * (countedEnd m gap - npages)), l')) ∨
      (gap.last + 1 < 4096 * countedEnd m gap ∧ ∃ l',
        efiAllocatePages l type memoryType npages memory name =
        some (.error .outOfResources, l')) := by
  obtain ⟨hGap, hFit⟩ := chosenGap_spec hChosen
  have hPlaced := h.placed_iff hPages hGap hFit
  obtain ⟨hWrap, hRoom⟩ := hFit
  have hEnd : countedEnd m gap ≤ pageUp (gap.last + 1) := Nat.min_le_left _ _
  have hAddr : (countedEnd m gap - npages) * 4096 % 2 ^ 64 =
      4096 * (countedEnd m gap - npages) := by omega
  have hLast : lastOf (4096 * (countedEnd m gap - npages)) (npages * 4096 % 2 ^ 64) =
      4096 * countedEnd m gap - 1 := by
    have hMax : maxAddress = 18446744073709551615 := rfl
    rw [lastOf]
    omega
  have hAddress := requestedAddress_eq h hPages hType
  rw [hChosen, Option.elim, hAddr] at hAddress
  have hCases :=
    h.requestSdramRegion_cases (allocationName ((l.memoryMapKey + 1) % 2 ^ 64) memoryType name)
    (by omega : 4096 * (countedEnd m gap - npages) ≤ 4096 * countedEnd m gap - 1)
      fun bank hMem => hMem
  simp only [efiAllocatePages, if_neg hPages.ne', hAddress, if_neg hAttrs, hLast]
  rcases hCases with ⟨hIn, res, t', hReq⟩ | ⟨hOut, hReq⟩
  · rw [hReq]
    exact .inl ⟨hPlaced.mp hIn, _, rfl⟩
  · rw [hReq]
    exact .inr ⟨Nat.lt_of_not_le (mt hPlaced.mpr hOut), _, rfl⟩

omit h hPages hType

/-- Allocation is exact for those resources and limits for which the search is reliable.
It is not where the topmost gap that seems to have room ends inside a page, or where the
limit lies inside the last page that is taken. -/
theorem efiAllocatePages_exact_iff (h : Sdram l.tree) (hPages : 0 < npages)
    (hType : Searches type memory m)
    (hAttrs : efiMemoryTypeDefaultAttrs memoryType ≠ 0) :
    Exact l type memoryType npages memory name m ↔ Reliable l.tree npages m := by
  rcases hChosen : chosenGap l.tree npages m with _ | gap
  · have hAddress := requestedAddress_eq h hPages hType
    simp [Exact, Reliable, efiAllocatePages, if_neg hPages.ne',
      hAddress, hChosen, h.exists_isRun_iff hPages]
  obtain ⟨hGap, hFit⟩ := chosenGap_spec hChosen
  rcases @efiAllocatePages_some l type memoryType npages memory m name h hPages hType hAttrs gap
    hChosen with
    ⟨hWhole, l', hOk⟩ | ⟨hPart, l', hFail⟩
  · -- The pages are free, so that only the limit matters.
    have hRun : IsRun l.tree npages m (countedEnd m gap - npages) ↔
        4096 * countedEnd m gap ≤ m + 1 := by
      have hSum : countedEnd m gap - npages + npages = countedEnd m gap := by
        have hRoom := hFit.2
        omega
      constructor
      · intro hRun
        have hLimit := hRun.2.1
        rwa [hSum] at hLimit
      intro hLimit
      refine (h.isRun_iff hPages).mpr ⟨gap, hGap, ?_, by rwa [hSum], by rwa [hSum]⟩
      have hRoom := hFit.2
      grind [pageUp]
    constructor
    · rintro ⟨-, hSound⟩
      have hIsRun := (hSound _ _ hOk).2
      rw [Nat.mul_div_cancel_left _ (by decide), hRun] at hIsRun
      exact .inl ⟨gap, hChosen, by omega⟩
    intro hReliable
    have hLimit : 4096 * countedEnd m gap ≤ m + 1 := by
      rcases hReliable with ⟨gap', hChosen', hLe⟩ | ⟨hNone, -⟩
      · rw [hChosen] at hChosen'
        cases hChosen'
        omega
      · have hLt := hNone gap hChosen
        omega
    refine ⟨⟨fun _ => ⟨_, hRun.mpr hLimit⟩, fun _ => ⟨_, _, hOk⟩⟩, fun addr l₂ hAddr => ?_⟩
    rw [hOk] at hAddr
    cases hAddr
    rw [Nat.mul_div_cancel_left _ (by decide), hRun]
    exact ⟨Nat.mul_mod_right _ _, hLimit⟩
  · -- The request fails, which is right if there are no pages.
    have hExact : Exact l type memoryType npages memory name m ↔
        ∀ gap ∈ bankGaps l.tree, ¬Fits npages m gap := by
      simp [Exact, hFail, h.exists_isRun_iff hPages]
    rw [hExact]
    constructor
    · intro hNone
      refine .inr ⟨fun gap' hChosen' => ?_, hNone⟩
      rw [hChosen] at hChosen'
      cases hChosen'
      exact hPart
    · rintro (⟨gap', hChosen', hLe⟩ | ⟨-, hNone⟩)
      · rw [hChosen] at hChosen'
        cases hChosen'
        omega
      · exact hNone

end Result

def loaderAfter (calls : List Call) : Loader where
  tree := (runCalls calls (emptyRoot 0 maxAddress [])).getD (emptyRoot 0 maxAddress [])
  typeAttrs _ := ⟨.conventional, memattrsRwx, false⟩
  memoryMapKey := 0

theorem loaderAfter_wellFormed {calls : List Call} (hProper : ∀ call ∈ calls, call.Proper)
    (hSound : SoundCalls calls (emptyRoot 0 maxAddress [])) :
    WellFormed (loaderAfter calls).tree := by
  have hEmpty : WellFormed (emptyRoot 0 maxAddress []) :=
    emptyRoot_wellFormed (Nat.zero_le _) le_rfl
  simp only [loaderAfter]
  cases hRun : runCalls calls (emptyRoot 0 maxAddress []) with
  | none => exact hEmpty
  | some t => exact runCalls_wellFormed hEmpty hProper hSound hRun

theorem Sdram.of_small {t : Tree} (h : WellFormed t)
    (hLive : ∀ bank ∈ t.banks, (t.region bank).isSome = true)
    (hSet : ∀ id < t.next, (t.region id).all fun r => !regionIsGap r) : Sdram t := by
  refine ⟨h, fun bank hBank => Option.isSome_iff_exists.mp (hLive bank hBank), fun id r hr => ?_⟩
  have hAll := hSet id (h.lt_next hr)
  grind

def unalignedCalls : List Call :=
  [.addBank [] 0x10000 0x10000, .request 1 0x1f800 0x1ffff [] ioresourceMem]

def alignedCalls : List Call :=
  [.addBank [] 0x10000 0x10000, .request 1 0x14000 0x15fff [] ioresourceMem]

theorem bankAndRegion_sdram {name name' : List UInt8} {start size parent first last flags : Nat}
    (hLive : ∀ bank ∈ (loaderAfter [.addBank name start size,
      .request parent first last name' flags]).tree.banks,
      ((loaderAfter [.addBank name start size, .request parent first last name' flags]).tree.region
        bank).isSome = true)
    (hSet : ∀ id < (loaderAfter [.addBank name start size,
      .request parent first last name' flags]).tree.next,
      ((loaderAfter [.addBank name start size,
        .request parent first last name' flags]).tree.region id).all
        fun r => !regionIsGap r) :
    Sdram (loaderAfter [.addBank name start size,
      .request parent first last name' flags]).tree := by
  refine .of_small (loaderAfter_wellFormed ?_ ⟨trivial,
    fun _ _ => ⟨trivial, fun _ _ => trivial⟩⟩) hLive hSet
  simp [Call.Proper]

theorem efiAllocatePages_exact_aligned :
    Exact (loaderAfter alignedCalls) .anyPages .loaderData 3 0 none maxAddress := by
  refine (efiAllocatePages_exact_iff
    (bankAndRegion_sdram (by decide +kernel) (by decide +kernel))
      (by decide) (.inl ⟨rfl, rfl⟩) (by decide)).mpr ?_
  refine .inl ⟨⟨0x16000, 0x1ffff, [], ioresourceUnset ||| ioresourceMem ||| 0x800000,
    some 1⟩, ?_, ?_⟩
  · decide +kernel
  · decide +kernel

/-- Nothing is found although fifteen pages are free, and a page above the limit is
returned. -/
theorem efiAllocatePages_inexact :
    (Sdram (loaderAfter unalignedCalls).tree ∧ Sdram (loaderAfter alignedCalls).tree) ∧
    (efiAllocatePages (loaderAfter unalignedCalls) .anyPages .loaderData 1 0 none).map Prod.fst =
        some (.error .outOfResources) ∧ IsRun (loaderAfter unalignedCalls).tree 1 maxAddress 0x10 ∧
    (efiAllocatePages (loaderAfter alignedCalls) .maxAddress .loaderData 1 0x11000
      none).map Prod.fst =
        some (.ok 0x11000) ∧ ¬IsRun (loaderAfter alignedCalls).tree 1 0x11000 0x11 := by
  refine ⟨⟨?_, ?_⟩, by decide +kernel, ⟨⟨1, by decide +kernel,
    ⟨0x10000, 0x1ffff, [], ioresourceMem ||| 0x800000, some 0⟩, ?_, by
      decide, by decide⟩, by decide, ?_⟩,
    by decide +kernel, ?_⟩
  · exact bankAndRegion_sdram (by decide +kernel) (by decide +kernel)
  · exact bankAndRegion_sdram (by decide +kernel) (by decide +kernel)
  · decide +kernel
  · decide +kernel
  · rintro ⟨-, hLimit, -⟩
    omega

end Barebox.Efi
