import Barebox.Efi.Allocation

/-! The memory map describes every page of the banks once. A page belongs to the region
that its first byte lies in, so that a page of free memory may be used in part. -/
namespace Barebox.Efi
open Barebox.Resource Tiling List

/-- Banks as the memory map expects them: of whole pages and in order. -/
structure MapBanks (t : Tree) : Prop extends Sdram t where
  aligned : ∀ bank ∈ t.banks, ∀ b, t.region bank = some b →
    b.start % 4096 = 0 ∧ (b.last + 1) % 4096 = 0
  ordered : t.banks.Pairwise fun bank bank' =>
    ∀ b b', t.region bank = some b → t.region bank' = some b' → b.last < b'.start

theorem MapBanks.of_single {t : Tree} (h : Sdram t) {bank : Nat}
    {b : Region} (hBanks : t.banks = [bank])
    (hb : t.region bank = some b) (hStart : b.start % 4096 = 0) (hLast : (b.last + 1) % 4096 = 0) :
    MapBanks t := by
  refine ⟨h, fun bank' hBank' b' hb' => ?_, ?_⟩
  · rw [hBanks, mem_singleton] at hBank'
    subst hBank'
    rw [hb] at hb'
    cases hb'
    exact ⟨hStart, hLast⟩
  · simp [hBanks]

def itemLo (x : Nat × Item) : Nat := x.2.lo

def itemHi (x : Nat × Item) : Nat := x.2.hi

def bankItems (t : Tree) (bank : Nat) : List (Nat × Item) :=
  (resourceRegions t bank).flatMap (regionItems t bank)

section Items
variable {t : Tree} {bank : Nat} {b : Region}

theorem Sdram.regionItems_tiles (h : Sdram t) (hb : t.region bank = some b)
    {x : Item} (hx : x ∈ allItems t bank b) :
    Tiles itemLo itemHi x.lo (x.hi + 1) (regionItems t bank x) := by
  have hBounds := (h.wellFormed.allItems_spread hb).tiles.bounds hx
  have hSingle : Tiles itemLo itemHi x.lo (x.hi + 1) [(bank, x)] := ⟨rfl, hBounds.2.1, rfl⟩
  cases x with
  | gap r prev next => exact hSingle
  | resource id r =>
    rw [regionItems]
    split_ifs with hLeaf
    · exact hSingle
    have hr : t.region id = some r := by
      rcases (h.wellFormed.allItems_spread hb).kinds _ hx with hChild | ⟨_, _, -, -, hEq, -⟩
      · obtain ⟨id', -, hItem⟩ := mem_filterMap.mp hChild
        obtain ⟨r', hr', hEq⟩ := Option.map_eq_some_iff.mp hItem
        cases hEq
        exact hr'
      · cases hEq
    rw [h.wellFormed.resourceRegions_eq hr (h.set id r hr)]
    exact (h.wellFormed.allItems_spread hr).tiles.map _ (fun _ => rfl) fun _ => rfl

theorem Sdram.bankItems_tiles (h : Sdram t) (hb : t.region bank = some b) :
    Tiles itemLo itemHi b.start (b.last + 1) (bankItems t bank) := by
  rw [bankItems, h.wellFormed.resourceRegions_eq hb (h.set bank b hb)]
  exact (h.wellFormed.allItems_spread hb).tiles.flatMap fun x hx => h.regionItems_tiles hb hx

theorem mapItems_eq (t : Tree) : mapItems t = t.banks.flatMap (bankItems t) := rfl

theorem MapBanks.mem_mapItems (h : MapBanks t) {x : Nat × Item} (hx : x ∈ mapItems t) :
    ∃ bank ∈ t.banks, ∃ b, t.region bank = some b ∧ x ∈ bankItems t bank ∧
    b.start ≤ itemLo x ∧ itemLo x ≤ itemHi x ∧
      itemHi x ≤ b.last ∧ b.last ≤ maxAddress := by
  obtain ⟨bank, hBank, hMem⟩ := mem_flatMap.mp hx
  obtain ⟨b, hb⟩ := h.live bank hBank
  obtain ⟨hStart, hLe, hLast⟩ := (h.bankItems_tiles hb).bounds hMem
  exact ⟨bank, hBank, b, hb, hMem, hStart, hLe, Nat.le_of_lt_succ hLast, (h.wellFormed.sound hb).2⟩

theorem MapBanks.mapItems_pairwise (h : MapBanks t) :
    (mapItems t).Pairwise fun x y => itemHi x < itemLo y := by
  rw [mapItems_eq, pairwise_flatMap]
  constructor
  · intro bank hBank
    obtain ⟨b, hb⟩ := h.live bank hBank
    exact (h.bankItems_tiles hb).pairwise
  refine h.ordered.imp_of_mem fun {bank bank'} hBank hBank' hLt x hx y hy => ?_
  obtain ⟨b, hb⟩ := h.live bank hBank
  obtain ⟨b', hb'⟩ := h.live bank' hBank'
  have hxBounds := (h.bankItems_tiles hb).bounds hx
  have hyBounds := (h.bankItems_tiles hb').bounds hy
  have hApart := hLt b b' hb hb'
  omega

theorem regionItems_length (t : Tree) (bank : Nat) (x : Item) :
    (regionItems t bank x).length = regionEntries t x := by
  cases x with
  | gap r prev next => rfl
  | resource id r =>
    rw [regionItems, regionEntries]
    split_ifs
    · rfl
    · rw [length_map]

theorem mapItems_length (t : Tree) : (mapItems t).length = mapEntries t := by
  simp [mapItems, regionItems_length, mapEntries]

end Items

theorem efiPageAlign_eq (a : Nat) : efiPageAlign a = 4096 * (pageUp a % 2 ^ 52) := by
  simp only [efiPageAlign, pageUp]
  omega

theorem npages_eq {first last : Nat} (hLe : first ≤ last) :
    efiSizeInPages ((4096 * (last % 2 ^ 52) + 2 ^ 64 - 4096 * (first % 2 ^ 52)) % 2 ^ 64) =
    (last - first) % 2 ^ 52 := by
  simp only [efiSizeInPages]
  omega

/-- A region is described by the pages that start in it. There is no descriptor if there
are none, or if they are all pages. -/
theorem efiMemoryDescFromRes_cases (ta : TypeAttrs) {r : Region} (hSound : r.start ≤ r.last)
    (hBound : r.last ≤ maxAddress) : (efiMemoryDescFromRes ta r = none ∧
        (pageUp r.start = pageUp (r.last + 1) ∨ (r.start = 0 ∧ maxAddress - 4095 ≤ r.last))) ∨
      (¬(r.start = 0 ∧ maxAddress - 4095 ≤ r.last) ∧ ∃ d, efiMemoryDescFromRes ta r = some d ∧
        d.physStart = 4096 * pageUp r.start ∧ 0 < d.npages ∧
        pageUp r.start + d.npages = pageUp (r.last + 1)) := by
  have hMax : maxAddress = 18446744073709551615 := rfl
  have hUp : pageUp r.start ≤ pageUp (r.last + 1) := by
    simp only [pageUp]
    omega
  have hTop : pageUp (r.last + 1) ≤ 2 ^ 52 := by
    simp only [pageUp]
    omega
  have hAll : (r.start = 0 ∧ maxAddress - 4095 ≤ r.last) ↔
      pageUp (r.last + 1) - pageUp r.start = 2 ^ 52 := by
    simp only [pageUp]
    omega
  simp only [efiMemoryDescFromRes]
  rw [efiPageAlign_mod, efiPageAlign_eq, efiPageAlign_eq, npages_eq hUp, hAll]
  by_cases hZero : (pageUp (r.last + 1) - pageUp r.start) % 2 ^ 52 = 0
  · rw [if_pos hZero]
    exact .inl ⟨rfl, by omega⟩
  rw [if_neg hZero]
  refine .inr ⟨by omega, ?_⟩
  have hFirst : pageUp r.start % 2 ^ 52 = pageUp r.start := Nat.mod_eq_of_lt (by omega)
  have hPages : (pageUp (r.last + 1) - pageUp r.start) % 2 ^ 52 =
      pageUp (r.last + 1) - pageUp r.start :=
    Nat.mod_eq_of_lt (by omega)
  rw [hPages] at hZero
  rw [hFirst, hPages]
  by_cases hValid : r.flags &&& ioresourceTypeValid ≠ 0
  · rw [if_pos hValid]
    exact ⟨_, rfl, rfl, by dsimp only; omega, by dsimp only; omega⟩
  · rw [if_neg hValid]
    exact ⟨_, rfl, rfl, by dsimp only; omega, by dsimp only; omega⟩

def itemDesc (l : Loader) (x : Nat × Item) : Option MemoryDesc :=
  efiMemoryDescFromRes (l.itemAttrs x.1 x.2) x.2.region

def mapDescs (l : Loader) : List MemoryDesc := (mapItems l.tree).filterMap (itemDesc l)

def MemoryDesc.Describes (d : MemoryDesc) (page : Nat) : Prop :=
  d.physStart ≤ 4096 * page ∧ 4096 * page < d.physStart + 4096 * d.npages

def Touches (page : Nat) (r : Region) : Prop := r.start ≤ 4096 * page + 4095 ∧ 4096 * page ≤ r.last

/-- The descriptors describe whole pages in order, every page of the banks, and no page of
a region as free. There are no more of them than were counted. -/
structure MapSound (l : Loader) (descs : List MemoryDesc) : Prop where
  pages : ∀ d ∈ descs, d.physStart % 4096 = 0 ∧ 1 ≤ d.npages
  sorted : descs.Pairwise fun d d' => d.physStart + 4096 * d.npages ≤ d'.physStart
  covers : ∀ bank ∈ l.tree.banks, ∀ b, l.tree.region bank = some b → ∀ page, b.start ≤ 4096 * page →
    4096 * page + 4095 ≤ b.last → ∃ d ∈ descs, d.Describes page
  free : ∀ bank ∈ l.tree.banks, ∀ gap ∈ resourceRegions l.tree bank, regionIsGap gap.region = true →
    ∀ d, itemDesc l (bank, gap) = some d → d ∈ descs ∧ ∀ page, d.Describes page →
      ∀ bank' ∈ l.tree.banks, ∀ c ∈ childItems l.tree bank', ¬Touches page c.region
  counted : descs.length ≤ mapEntries l.tree

def PagesUsed (t : Tree) : Prop :=
  ∀ bank ∈ t.banks, ∀ c ∈ childItems t bank, ∃ c' ∈ childItems t bank,
    c'.region.start ≤ c.region.start / 4096 * 4096 ∧ c.region.start / 4096 * 4096 ≤ c'.region.last

instance (t : Tree) : Decidable (PagesUsed t) :=
  inferInstanceAs (Decidable (∀ bank ∈ t.banks, ∀ c ∈ childItems t bank,
    ∃ c' ∈ childItems t bank, _ ∧ _))

def NotAllPages (t : Tree) : Prop :=
  ∀ x ∈ mapItems t, ¬(x.2.region.start = 0 ∧ maxAddress - 4095 ≤ x.2.region.last)

instance (t : Tree) :
    Decidable (NotAllPages t) := inferInstanceAs (Decidable (∀ x ∈ mapItems t, ¬(_ ∧ _)))

section Sound
variable {l : Loader} {x : Nat × Item} {d : MemoryDesc} {bank page : Nat}
    {b : Region} {gap c : Item}
  (h : MapBanks l.tree)
include h

theorem MapBanks.itemDesc_cases (hx : x ∈ mapItems l.tree) :
    (itemDesc l x = none ∧ (pageUp x.2.region.start = pageUp (x.2.region.last + 1) ∨
        (x.2.region.start = 0 ∧ maxAddress - 4095 ≤ x.2.region.last))) ∨
      (¬(x.2.region.start = 0 ∧ maxAddress - 4095 ≤ x.2.region.last) ∧ ∃ d, itemDesc l x = some d ∧
        d.physStart = 4096 * pageUp x.2.region.start ∧ 0 < d.npages ∧
        pageUp x.2.region.start + d.npages = pageUp (x.2.region.last + 1)) := by
  obtain ⟨_, -, _, -, -, -, hLe, hLast, hBound⟩ := h.mem_mapItems hx
  exact efiMemoryDescFromRes_cases _ hLe (hLast.trans hBound)

theorem MapBanks.itemDesc_some (hx : x ∈ mapItems l.tree) (hd : itemDesc l x = some d) :
    d.physStart = 4096 * pageUp x.2.region.start ∧ 0 < d.npages ∧
      pageUp x.2.region.start + d.npages = pageUp (x.2.region.last + 1) := by
  rcases h.itemDesc_cases hx with ⟨hNone, -⟩ | ⟨-, d', hSome, hPages⟩
  · rw [hd] at hNone
    cases hNone
  · rw [hd] at hSome
    cases hSome
    exact hPages

theorem MapBanks.mapDescs_pages (hd : d ∈ mapDescs l) : d.physStart % 4096 = 0 ∧ 1 ≤ d.npages := by
  obtain ⟨x, hx, hDesc⟩ := mem_filterMap.mp hd
  obtain ⟨hStart, hPages, -⟩ := h.itemDesc_some hx hDesc
  exact ⟨by rw [hStart, Nat.mul_mod_right], hPages⟩

theorem MapBanks.mapDescs_sorted :
    (mapDescs l).Pairwise fun d d' => d.physStart + 4096 * d.npages ≤ d'.physStart := by
  rw [mapDescs, pairwise_filterMap]
  refine h.mapItems_pairwise.imp_of_mem fun {x y} hx hy hLt d hd d' hd' => ?_
  obtain ⟨hStart, -, hEnd⟩ := h.itemDesc_some hx hd
  obtain ⟨hStart', -, -⟩ := h.itemDesc_some hy hd'
  have hUp : pageUp (x.2.region.last + 1) ≤ pageUp y.2.region.start := by
    grind [itemHi, itemLo, Item.lo, Item.hi, pageUp]
  omega

omit h

theorem mapDescs_length (l : Loader) : (mapDescs l).length ≤ mapEntries l.tree := by
  rw [← mapItems_length]
  exact length_filterMap_le _ _

variable (h : MapBanks l.tree)
include h

theorem MapBanks.covers (hAll : NotAllPages l.tree) (hBank : bank ∈ l.tree.banks)
    (hb : l.tree.region bank = some b)
    (hStart : b.start ≤ 4096 * page) (hLast : 4096 * page + 4095 ≤ b.last) :
    ∃ d ∈ mapDescs l, d.Describes page := by
  have hTiles := h.bankItems_tiles hb
  obtain ⟨x, hx, hLo, hHi⟩ := @Tiles.exists_rounded _ _ _ _ _ _ hTiles pageUp page
    (by simp only [pageUp]; omega) (by simp only [pageUp]; omega)
  have hMem : x ∈ mapItems l.tree := mem_flatMap.mpr ⟨bank, hBank, hx⟩
  have hLo' : pageUp x.2.region.start ≤ page := hLo
  have hHi' : page < pageUp (x.2.region.last + 1) := hHi
  rcases h.itemDesc_cases hMem with ⟨-, hEq | hWhole⟩ | ⟨-, d, hDesc, hPhys, -, hEnd⟩
  · omega
  · exact absurd hWhole (hAll x hMem)
  · refine ⟨d, mem_filterMap.mpr ⟨x, hMem, hDesc⟩, ?_⟩
    rw [MemoryDesc.Describes, hPhys]
    omega

theorem MapBanks.notAllPages_of_covers
    (hCovers : ∀ bank ∈ l.tree.banks, ∀ b, l.tree.region bank = some b → ∀ page,
      b.start ≤ 4096 * page → 4096 * page + 4095 ≤ b.last → ∃ d ∈ mapDescs l, d.Describes page) :
    NotAllPages l.tree := by
  intro x hx hWhole
  have hMax : maxAddress = 18446744073709551615 := rfl
  obtain ⟨bank, hBank, b, hb, hMem, hStart, -, hLast, -⟩ := h.mem_mapItems hx
  simp only [itemLo, itemHi, Item.lo, Item.hi] at hStart hLast
  obtain ⟨d, hd, hDescribes⟩ := hCovers bank hBank b hb 0 (by omega) (by omega)
  obtain ⟨y, hy, hDesc⟩ := mem_filterMap.mp hd
  obtain ⟨hPhys, -, -⟩ := h.itemDesc_some hy hDesc
  obtain ⟨-, -, _, -, -, -, hLe, -, -⟩ := h.mem_mapItems hy
  have hZero : y.2.region.start = 0 := by
    have hPhysZero := hDescribes.1
    grind [pageUp]
  have hSame : x = y := by
    by_contra hNe
    have hApart := apart_of_pairwise h.mapItems_pairwise hx hy hNe
    grind [itemLo, Item.lo]
  subst hSame
  rcases h.itemDesc_cases hx with ⟨hNone, -⟩ | ⟨hNot, -⟩
  · rw [hDesc] at hNone
    cases hNone
  · exact hNot hWhole

theorem MapBanks.gap_mem (hBank : bank ∈ l.tree.banks) (hGap : gap ∈ resourceRegions l.tree bank)
    (hUnset : regionIsGap gap.region = true) :
    (bank, gap) ∈ mapItems l.tree ∧ ∃ b, l.tree.region bank = some b ∧
    gap ∈ allItems l.tree bank b ∧
      IsGap l.tree bank b gap := by
  obtain ⟨b, hb⟩ := h.live bank hBank
  have hAll := hGap
  rw [h.wellFormed.resourceRegions_eq hb (h.set bank b hb)] at hAll
  have hIsGap : IsGap l.tree bank b gap := by
    refine ((h.wellFormed.allItems_spread hb).kinds gap hAll).resolve_left fun hChild => ?_
    rw [h.childItems_set hChild] at hUnset
    cases hUnset
  refine ⟨mem_flatMap.mpr ⟨bank, hBank, mem_flatMap.mpr ⟨gap, hGap, ?_⟩⟩, b, hb, hAll, hIsGap⟩
  obtain ⟨_, _, -, -, rfl, -⟩ := hIsGap
  exact mem_singleton.mpr rfl

theorem MapBanks.child_apart (hb : l.tree.region bank = some b)
    (hAll : gap ∈ allItems l.tree bank b)
    (hGap : IsGap l.tree bank b gap) (hc : c ∈ childItems l.tree bank) :
    gap.region.last < c.region.start ∨ c.region.last < gap.region.start := by
  have hNe : gap ≠ c := by
    rintro rfl
    have hSet := h.childItems_set hc
    rw [hGap.regionIsGap] at hSet
    cases hSet
  exact (h.wellFormed.allItems_spread hb).tiles.apart hAll (mem_itemsFrom bank b none hc) hNe

theorem MapBanks.child_bounds (hb : l.tree.region bank = some b) (hc : c ∈ childItems l.tree bank) :
    b.start ≤ c.region.start ∧ c.region.start ≤ c.region.last ∧ c.region.last ≤ b.last := by
  obtain ⟨hStart, hLe, hLast⟩ :=
    (h.wellFormed.allItems_spread hb).tiles.bounds (mem_itemsFrom bank b none hc)
  exact ⟨hStart, hLe, Nat.le_of_lt_succ hLast⟩

/-- A page that starts in a gap has no byte of a region, if every region starts in a page
that starts in a region. -/
theorem MapBanks.free_of_pagesUsed (hUsed : PagesUsed l.tree) (hBank : bank ∈ l.tree.banks)
    (hb : l.tree.region bank = some b) (hAll : gap ∈ allItems l.tree bank b)
    (hGap : IsGap l.tree bank b gap)
    (hFirst : gap.region.start ≤ 4096 * page) (hLast : 4096 * page ≤ gap.region.last) {bank' : Nat}
    (hBank' : bank' ∈ l.tree.banks) (hc : c ∈ childItems l.tree bank') :
    ¬Touches page c.region := by
  rintro ⟨hStart, hEnd⟩
  obtain ⟨b', hb'⟩ := h.live bank' hBank'
  obtain ⟨hLo, hSound, hHi⟩ := h.child_bounds hb' hc
  obtain ⟨hGapStart, -, hGapLast⟩ := (h.wellFormed.allItems_spread hb).tiles.bounds hAll
  simp only [gapStart, Option.elim, Item.lo, Item.hi] at hGapStart hGapLast
  have hSame : bank = bank' := by
    have hAligned := h.aligned bank hBank b hb
    have hAligned' := h.aligned bank' hBank' b' hb'
    rcases h.banks_apart hBank hBank' hb hb' with hEq | hApart
    · exact hEq
    · omega
  subst hSame
  rw [hb] at hb'
  cases hb'
  have hApart := h.child_apart hb hAll hGap hc
  obtain ⟨c', hc', hFrom, hTo⟩ := hUsed bank hBank c hc
  have hApart' := h.child_apart hb hAll hGap hc'
  omega

/-- If no page that is described as free has a byte of a region, every region starts in a
page that starts in a region. -/
theorem MapBanks.pagesUsed_of_free (hAll : NotAllPages l.tree)
    (hFree : ∀ bank ∈ l.tree.banks, ∀ gap ∈ resourceRegions l.tree bank,
      regionIsGap gap.region = true → ∀ d, itemDesc l (bank, gap) = some d → d ∈ mapDescs l ∧
      ∀ page, d.Describes page → ∀ bank' ∈ l.tree.banks, ∀ c ∈ childItems l.tree bank',
      ¬Touches page c.region) :
    PagesUsed l.tree := by
  intro bank hBank c hc
  obtain ⟨b, hb⟩ := h.live bank hBank
  obtain ⟨hLo, hSound, hHi⟩ := h.child_bounds hb hc
  have hAligned := h.aligned bank hBank b hb
  have hSpread := h.wellFormed.allItems_spread hb
  obtain ⟨x, hx, hFrom, hTo⟩ :=
    @Tiles.exists_mem _ _ _ _ _ _ hSpread.tiles (c.region.start / 4096 * 4096)
    (by simp only [gapStart, Option.elim]; omega) (by omega)
  rcases hSpread.kinds x hx with hChild | hGap
  · exact ⟨x, hChild, hFrom, hTo⟩
  exfalso
  have hMem : x ∈ resourceRegions l.tree bank := by
    rwa [h.wellFormed.resourceRegions_eq hb (h.set bank b hb)]
  obtain ⟨hItem, -⟩ := h.gap_mem hBank hMem hGap.regionIsGap
  have hFrom' : x.region.start ≤ c.region.start / 4096 * 4096 := hFrom
  have hTo' : c.region.start / 4096 * 4096 ≤ x.region.last := hTo
  have hPages : pageUp x.region.start ≤ c.region.start / 4096 ∧
      c.region.start / 4096 < pageUp (x.region.last + 1) := by
    simp only [pageUp]
    omega
  rcases h.itemDesc_cases hItem with ⟨-, hEq | hWhole⟩ | ⟨-, d, hDesc, hPhys, -, hEnd⟩
  · dsimp only at hEq
    omega
  · exact hAll _ hItem hWhole
  dsimp only at hPhys hEnd
  refine (hFree bank hBank x hMem hGap.regionIsGap d hDesc).2
    (c.region.start / 4096) ?_ bank hBank c hc ?_
  · rw [MemoryDesc.Describes]
    omega
  · rw [Touches]
    omega

end Sound

/-- A memory map is sound just if every region of a bank starts in a page whose first byte
belongs to a region, and no item has all pages. -/
theorem efiGetMemoryMap_sound_iff {l : Loader} (h : MapBanks l.tree)
    {size key : Nat} {descs : List MemoryDesc}
    {returned : Option Nat}
    (hMap : efiGetMemoryMap l (some size) true = (.ok (descs, key), returned)) :
    MapSound l descs ↔ PagesUsed l.tree ∧ NotAllPages l.tree := by
  have hDescs : descs = mapDescs l := by
    simp only [efiGetMemoryMap, Bool.not_true, Bool.false_eq_true, if_false] at hMap
    split_ifs at hMap
    · cases hMap
    · simp only [Prod.mk.injEq, Except.ok.injEq] at hMap
      exact hMap.1.1.symm
  subst hDescs
  constructor
  · intro hSound
    have hAll := h.notAllPages_of_covers hSound.covers
    exact ⟨h.pagesUsed_of_free hAll hSound.free, hAll⟩
  rintro ⟨hUsed, hAll⟩
  refine ⟨fun d hd => h.mapDescs_pages hd, h.mapDescs_sorted,
    fun bank hBank b hb page hStart hLast => h.covers hAll hBank hb hStart hLast,
      ?_, mapDescs_length l⟩
  intro bank hBank gap hGap hUnset d hDesc
  obtain ⟨hItem, b, hb, hMem, hIsGap⟩ := h.gap_mem hBank hGap hUnset
  refine ⟨mem_filterMap.mpr ⟨_, hItem, hDesc⟩, fun page hPage bank' hBank' c hc => ?_⟩
  obtain ⟨hPhys, -, hEnd⟩ := h.itemDesc_some hItem hDesc
  obtain ⟨hFirst, hLast⟩ := hPage
  refine h.free_of_pagesUsed hUsed hBank hb hMem hIsGap ?_ ?_ hBank' hc
  · grind [pageUp]
  · grind [pageUp]

theorem unaligned_mapBanks : MapBanks (loaderAfter unalignedCalls).tree := by
  have hSdram : Sdram (loaderAfter unalignedCalls).tree :=
    bankAndRegion_sdram (by decide +kernel) (by decide +kernel)
  exact @MapBanks.of_single _ hSdram 1 ⟨0x10000, 0x1ffff, [], ioresourceMem ||| 0x800000, some 0⟩
    (by decide +kernel)
    (by decide +kernel) (by decide) (by decide)

theorem aligned_mapBanks : MapBanks (loaderAfter alignedCalls).tree := by
  have hSdram : Sdram (loaderAfter alignedCalls).tree :=
    bankAndRegion_sdram (by decide +kernel) (by decide +kernel)
  exact @MapBanks.of_single _ hSdram 1 ⟨0x10000, 0x1ffff, [], ioresourceMem ||| 0x800000, some 0⟩
    (by decide +kernel)
    (by decide +kernel) (by decide) (by decide)

theorem efiGetMemoryMap_sound_aligned :
    ∃ descs, efiGetMemoryMap (loaderAfter alignedCalls)
    (some 120) true = (.ok (descs, 0), some 120) ∧
      MapSound (loaderAfter alignedCalls) descs := by
  let descs : List MemoryDesc :=
    [⟨.conventional, 0x10000, 0x10000, 4, 8⟩, ⟨.reserved, 0x14000, 0x14000, 2, 8⟩,
    ⟨.conventional, 0x16000, 0x16000, 10, 8⟩]
  have hMap : efiGetMemoryMap (loaderAfter alignedCalls) (some 120) true =
      (.ok (descs, 0), some 120) := by decide +kernel
  exact ⟨descs, hMap, (efiGetMemoryMap_sound_iff aligned_mapBanks hMap).mpr ⟨by decide +kernel,
    by decide +kernel⟩⟩

/-- The last page of the bank is described as free although half of it belongs to a
region. -/
theorem efiGetMemoryMap_unsound : ∃ descs, MapBanks (loaderAfter unalignedCalls).tree ∧
      efiGetMemoryMap (loaderAfter unalignedCalls) (some 80) true = (.ok (descs, 0), some 40) ∧
      ¬MapSound (loaderAfter unalignedCalls) descs := by
  let desc : MemoryDesc := ⟨.conventional, 0x10000, 0x10000, 16, 8⟩
  refine ⟨[desc], unaligned_mapBanks, by decide +kernel, fun hSound => ?_⟩
  let gap : Item := .gap ⟨0x10000, 0x1f7ff, [], ioresourceUnset ||| (ioresourceMem ||| 0x800000),
    some 1⟩ none (some 2)
  let c : Item := .resource 2 ⟨0x1f800, 0x1ffff, [], ioresourceMem, some 1⟩
  have hFree :=
    (hSound.free 1 (by decide +kernel) gap (by decide +kernel)
      (by decide) desc (by decide +kernel)).2
  exact hFree 0x1f (by constructor <;> decide) 1 (by decide +kernel) c
    (by decide +kernel) (by constructor <;> decide)

end Barebox.Efi
