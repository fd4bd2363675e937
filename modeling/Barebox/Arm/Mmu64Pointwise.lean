import Barebox.Arm.Mmu64Remap

/-! Page tables that `mmu_early_enable` and any remaps after it have built, and what one more remap
does to their translation. -/
namespace Barebox.Arm64
open RadixTable List

variable {attr el ttb virt phys size : Nat} {mapType : MapType} {m m' : Mmu}

theorem attributes_of (hBits : attr = entry (attr / 2 ^ 48) 0 (attr % 4096))
    (hHi : attr / 2 ^ 48 < 2 ^ 16)
    (hType : attr % 4096 % 4 = 0) : Attributes attr :=
  ⟨attr / 2 ^ 48, attr % 4096, hBits, hHi, Nat.mod_lt _ (by decide), hType⟩

theorem getPteAttrs_attributes {el attr : Nat} {mapType : MapType}
    (h : getPteAttrs el mapType = some attr) :
    Attributes attr ∧ attr % 4 = 0 ∧ (accessFlag attr = true ↔ mapType ≠ .fault) := by
  have hXn : attrsXn el = pteBlockUxn ∨ attrsXn el = pteBlockUxn ||| pteBlockPxn := by
    rw [attrsXn]
    split
    · exact .inl rfl
    · exact .inr rfl
  have hAll : ∀ xn ∈ [pteBlockUxn, pteBlockUxn ||| pteBlockPxn],
      ∀ attr ∈ [xn ||| cachedMem, xn ||| uncachedMem,
      xn ||| memAllocWritecombine, cachedMem ||| pteBlockRo,
        xn ||| cachedMem ||| pteBlockRo, cachedMem],
      attr = entry (attr / 2 ^ 48) 0 (attr % 4096) ∧ attr / 2 ^ 48 < 2 ^ 16 ∧
        attr % 4096 % 4 = 0 ∧ attr % 4 = 0 ∧
        accessFlag attr = true := by decide
  have hMem : attrsXn el ∈ [pteBlockUxn, pteBlockUxn ||| pteBlockPxn] := by
    rcases hXn with hXn | hXn
    · simp [hXn]
    · simp [hXn]
  have hOne {attr : Nat} (hAttr : attr ∈ [attrsXn el ||| cachedMem, attrsXn el ||| uncachedMem,
      attrsXn el ||| memAllocWritecombine, cachedMem ||| pteBlockRo,
        attrsXn el ||| cachedMem ||| pteBlockRo, cachedMem])
      (hType : mapType ≠ .fault) : Attributes attr ∧ attr % 4 = 0 ∧
        (accessFlag attr = true ↔ mapType ≠ .fault) := by
    obtain ⟨hBits, hHi, hLow, hFour, hFlag⟩ := hAll _ hMem attr hAttr
    exact ⟨attributes_of hBits hHi hLow, hFour, fun _ => hType, fun _ => hFlag⟩
  cases mapType with
  | fault =>
    injection h with h
    subst h
    exact ⟨⟨0, 0, rfl, by decide, by decide, rfl⟩, rfl, by decide⟩
  | unknown => cases h
  | uncached | cached | code | cachedRo | writecombine | cachedRwx =>
    injection h with h
    exact hOne (by simp [h]) (by decide)

theorem getPteAttrs_some (el : Nat) (h : mapType ≠ .unknown) :
    ∃ attr, getPteAttrs el mapType = some attr := by
  cases mapType with
  | unknown => exact absurd rfl h
  | _ => exact ⟨_, rfl⟩

variable (hType : getPteAttrs el mapType = some attr) (hSpace : InSpace virt phys (pageAlign size))
include hType hSpace

theorem archRemapRange_eq : archRemapRange el ttb m virt phys size mapType =
      (remapLoop ttb attr (pageAlign size / pageSize) virt phys (pageAlign size) m).elim
        (.error .bug) .ok := by
  have hFour := (getPteAttrs_attributes hType).2.1
  have hAligned : (isAligned virt pageSize : Prop) ∧ (isAligned phys pageSize : Prop) := by
    rw [isAligned, isAligned, beq_iff_eq, beq_iff_eq]
    exact ⟨hSpace.virt_aligned, hSpace.phys_aligned⟩
  rw [archRemapRange, hType]
  dsimp only
  rw [if_pos hAligned, hFour, Nat.sub_zero]
  cases remapLoop ttb attr (pageAlign size / pageSize) virt phys (pageAlign size) m with
  | none => rfl
  | some m => rfl

/-- A remap changes the translation of the pages of its range, unless the tables run out. -/
theorem archRemapRange_step (hTables : Tables ttb m) :
    (m.supply.length < 3 * (pageAlign size / 4096) ∧
      archRemapRange el ttb m virt phys size mapType = .error .bug) ∨
      ∃ m', archRemapRange el ttb m virt phys size mapType = .ok m' ∧ Tables ttb m' ∧
        m.supply.length ≤ m'.supply.length + 3 * (pageAlign size / 4096) ∧ ∀ page < 2 ^ 36,
          (virt / 4096 ≤ page → page < (virt + pageAlign size) / 4096 →
            m'.translate ttb page = mappedPage attr virt phys page) ∧
          ((page < virt / 4096 ∨ (virt + pageAlign size) / 4096 ≤ page) →
            m'.translate ttb page = m.translate ttb page) := by
  have hAttr := (getPteAttrs_attributes hType).1
  rw [archRemapRange_eq hType hSpace]
  have hTurns : pageAlign size ≤ 4096 * (pageAlign size / pageSize) := by
    have hSize := hSpace.size_aligned
    rw [pageSize]
    omega
  rcases remapLoop_step hAttr hSpace hTurns hTables with ⟨hShort, hNone⟩ |
      ⟨m', hRun, hTables', hLength, hPages⟩
  · rw [hNone]
    exact .inl ⟨hShort, rfl⟩
  · grind

omit hType hSpace
include hSpace in
theorem archRemapRange_tables (hTables : Tables ttb m)
    (hRun : archRemapRange el ttb m virt phys size mapType = .ok m') : Tables ttb m' := by
  rcases hType : getPteAttrs el mapType with _ | attr
  · rw [archRemapRange, hType] at hRun
    cases hRun
  rcases archRemapRange_step hType hSpace hTables with ⟨-, hBug⟩ | ⟨m1, hOk, hTables1, -, -⟩
  · rw [hBug] at hRun
    cases hRun
  · rw [hOk] at hRun
    injection hRun with hRun
    grind

theorem clear_tables (hNodup : m.supply.Nodup) (hPlace : ∀ x ∈ m.supply, x % 4096 = 0 ∧ x < 2 ^ 48)
    (hTtb : ttb ∉ m.supply) : Tables ttb (m.clear ttb) := by
  have hZero (i : Nat) : (m.clear ttb).mem ttb i = 0 := if_pos rfl
  have hNone (i : Nat) : getLevelTable ((m.clear ttb).mem ttb i) = none := by
    rw [hZero]
    rfl
  refine ⟨fun i _ => ⟨fun _ => ?_, fun g hg => ?_⟩, hNodup, hPlace, fun x hx hIn => ?_⟩
  · rw [hZero]
    exact ⟨by decide, by decide, fun _ hFlag => by cases hFlag⟩
  · rw [hNone] at hg
    cases hg
  rcases inTree_succ hIn with rfl | ⟨j, -, g, hg, -⟩
  · exact hTtb hx
  · rw [hNone] at hg
    cases hg

theorem remapLoop_done (ttb attr turns addr phys : Nat) (m : Mmu) :
    remapLoop ttb attr turns addr phys 0 m = some m := by
  cases turns with
  | zero => rfl
  | succ turns => rfl

def firstBlock (el idx : Nat) : Nat :=
  idx * l0XlatSize ||| ((attrsXn el ||| uncachedMem) ||| pteTypeBlock)

theorem firstBlock_eq {el idx : Nat} (hIdx : idx < 2) :
    ∃ hi lo, firstBlock el idx = entry hi (idx * 512 ^ 3) lo ∧
    hi < 2 ^ 16 ∧ lo < 4096 ∧ lo % 4 = 1 := by
  obtain ⟨hi, lo, hBits, hHi, hLo, hZero⟩ :=
    (@getPteAttrs_attributes el (attrsXn el ||| uncachedMem) .uncached rfl).1.bits
  refine ⟨hi, lo + 1, ?_, hHi, by omega, by omega⟩
  have hAddr : idx * l0XlatSize = idx * 512 ^ 3 * 4096 := by
    rw [l0XlatSize]
    omega
  rw [firstBlock, hBits, pteTypeBlock, entry_or_type hZero (by decide),
    hAddr, or_entry (by omega) (by omega)]

theorem earlyBlock_eq {idx : Nat} (m : Mmu) (hIdx : idx < 2) (hXlat : size = l0XlatSize) :
    archRemapRange el ttb m (idx * size) (idx * size) size .uncached =
    .ok (m.setPte ttb idx (firstBlock el idx)) := by
  have hFour := (@getPteAttrs_attributes el (attrsXn el ||| uncachedMem) .uncached rfl).2.1
  have hPow : size = 4096 * 512 ^ 3 := by rw [hXlat]; decide
  have hMod : idx * size % (4096 * 512 ^ 3) = 0 := by simp [hPow]
  have hPage : (isAligned (idx * size) pageSize : Prop) := by
    simp [isAligned, pageSize]
    omega
  have hBlock : BlockAligned (idx * size) (idx * size) size 3 := ⟨by rw [hPow], hMod, hMod⟩
  have hIndex : index entries 3 (idx * size / 4096) = idx := by
    rw [index, stride_entries, entries, hPow]
    omega
  have hSize : pageAlign size = size := by
    rw [pageAlign]
    omega
  obtain ⟨turns, hTurns⟩ :=
    Nat.exists_eq_succ_of_ne_zero (show size / pageSize ≠ 0 by rw [hXlat]; decide)
  have hLevels : remapLevels (attrsXn el ||| uncachedMem) (idx * size) (idx * size) size 4 0 ttb m =
      some (m.setPte ttb idx (firstBlock el idx), 4096 * 512 ^ 3) := by
    have hRun := @remapLevels_block (attrsXn el ||| uncachedMem) _ _ _ 3 ttb m
      (Nat.le_refl 3) hBlock
    rw [hIndex] at hRun
    rw [firstBlock, ← hXlat]
    exact hRun
  have hNonzero : ¬ size = 0 := by omega
  have hRest : size - 4096 * 512 ^ 3 = 0 := by omega
  rw [archRemapRange, getPteAttrs]
  dsimp only
  rw [if_pos ⟨hPage, hPage⟩, hFour, Nat.sub_zero, hSize, hTurns,
    remapLoop, if_neg hNonzero, hLevels]
  grind [remapLoop_done]

theorem earlySplit_tables {el ttb idx : Nat} {m : Mmu} (hIdx : idx < 2) (hTables : Tables ttb m) :
    (m.supply = [] ∧ (m.setPte ttb idx (firstBlock el idx)).splitBlock ttb idx 0 = none) ∨
      ∃ m', (m.setPte ttb idx (firstBlock el idx)).splitBlock ttb idx 0 = some m' ∧ Tables ttb m' ∧
        m.supply.length ≤ m'.supply.length + 1 := by
  obtain ⟨hi, lo, hFirst, hHi, hLo, hType⟩ := @firstBlock_eq el idx hIdx
  have hHere : (m.setPte ttb idx (firstBlock el idx)).mem ttb idx =
      entry hi (idx * 512 ^ 3) lo := by
    rw [← hFirst]
    exact if_pos ⟨rfl, rfl⟩
  have hNot : pteType (entry hi (idx * 512 ^ 3) lo) ≠ pteTypeTable := by
    rw [pteType_entry, hType]
    decide
  by_cases hEmpty : m.supply = []
  · refine .inl ⟨hEmpty, ?_⟩
    grind [Mmu.splitBlock, Mmu.setPte]
  obtain ⟨newTable, supply, hNew⟩ := exists_cons_of_ne_nil hEmpty
  have hHead : newTable ∈ m.supply := by rw [hNew]; exact .head _
  obtain ⟨hPlace, hPlace'⟩ := hTables.supply.place newTable hHead
  have hFresh := hTables.supply.fresh newTable hHead
  have hNe : ttb ≠ newTable := fun hEq => hFresh (by rw [← hEq]; exact .root _ ttb)
  have hPage : idx * 512 ^ 3 < 2 ^ 36 := by omega
  obtain ⟨m', hSplit, hSupply, hMem⟩ :=
    @splitBlock_mem (m.setPte ttb idx (firstBlock el idx)) ttb idx 0 newTable supply
    (by rw [hHere]; exact hNot) hNew hPlace' (by rw [hHere]; exact entry_lt hHi hPage hLo)
  have hOther (t i : Nat) (h : ¬ (t = ttb ∧ i = idx)) (h' : t ≠ newTable) : m'.mem t i =
      m.mem t i := by
    rw [hMem, if_neg h, if_neg (fun hEq => h' hEq.1)]
    exact if_neg h
  have hLink : getLevelTable (m'.mem ttb idx) = some newTable := by
    rw [hMem, if_pos ⟨rfl, rfl⟩]
    exact getLevelTable_table hPlace hPlace'
  have hEntry (j : Nat) (hj : j < 512) : ∃ page, m'.mem newTable j = entry hi page lo ∧
      page < 2 ^ 36 ∧ page % 512 ^ 2 = 0 := by
    obtain ⟨hIn, hAligned, hSum⟩ :=
      @split_sum 2 hi (idx * 512 ^ 3) lo j (by decide) hHi hPage hLo (Nat.mul_mod_left _ _) hj
    refine ⟨_, ?_, hIn, hAligned⟩
    grind
  obtain ⟨-, hRewrites⟩ :=
    Rewrites.graft hTables.wellFormed hFresh (fun j hj => hOther ttb j (fun hEq => hj hEq.2) hNe)
    (fun x hx hx' => funext fun i => hOther x i (fun hEq => hx hEq.1) hx') hLink
    (fun j hj => by
      obtain ⟨page, hEq, hLt, hAligned⟩ := hEntry j hj
      rw [hEq]
      refine ⟨entry_lt hHi hLt hLo, ?_, fun _ _ => ⟨by decide, ?_⟩⟩
      · rw [pteAddr_entry hLt hLo, Nat.mul_div_cancel _ (by decide)]
        exact hAligned
      · rw [pteType_entry, hType]
        rfl)
    (fun _ j hj => by
      obtain ⟨page, hEq, -, -⟩ := hEntry j hj
      rw [hEq, getLevelTable, pteType_entry, hType]
      rfl)
  have hStep : Step m m' 3 ttb 1 [newTable] := by
    refine ⟨by rw [hSupply, hNew]; rfl, Nat.le_refl 1, ?_⟩
    simp [hRewrites]
  exact .inr ⟨m', hSplit, ⟨hStep.rewrites.wellFormed, hStep.supplied hTables.supply⟩,
    hStep.supply_length⟩

/-- Each turn takes at most one table; without one left the loop ends in a panic. -/
theorem earlyInitRange_step {el ttb size count idx : Nat} {m : Mmu}
    (hXlat : size = l0XlatSize) (hIdx : idx + count ≤ 2)
    (hTables : Tables ttb m) :
    (m.supply.length < count ∧ earlyInitRange el ttb size count idx m = .error .bug) ∨
      ∃ m', earlyInitRange el ttb size count idx m = .ok m' ∧
      Tables ttb m' ∧ m.supply.length ≤ m'.supply.length + count := by
  induction count generalizing idx m with
  | zero => exact .inr ⟨m, rfl, hTables, le_rfl⟩
  | succ count ih =>
    rw [earlyInitRange, earlyBlock_eq m (by omega) hXlat]
    dsimp only
    rcases @earlySplit_tables el ttb idx m (by omega) hTables with
        ⟨hEmpty, hNone⟩ | ⟨m1, hSplit, hTables1, hLength⟩
    · simp [hNone, hEmpty]
    rw [hSplit]
    rcases ih (show idx + 1 + count ≤ 2 by omega) hTables1 with
        ⟨hShort, hBug⟩ | ⟨m', hRun, hTables', hLength'⟩
    · exact .inl ⟨by omega, hBug⟩
    · exact .inr ⟨m', hRun, hTables', by omega⟩

theorem earlyRemapRanges_tables {ranges : List Range}
    (hSpace : ∀ r ∈ ranges, InSpace r.start r.start (pageAlign r.size)) (hTables : Tables ttb m)
    (hRun : earlyRemapRanges el ttb ranges m = .ok m') : Tables ttb m' := by
  induction ranges generalizing m with
  | nil =>
    injection hRun with hRun
    grind
  | cons r ranges ih =>
    rw [earlyRemapRanges] at hRun
    cases hFirst : archRemapRange el ttb m r.start r.start r.size r.mapType with
    | error e =>
      rw [hFirst] at hRun
      cases hRun
    | ok m1 =>
      rw [hFirst] at hRun
      exact ih (fun r' hr' => hSpace r' (.tail _ hr'))
        (archRemapRange_tables (hSpace r (.head _)) hTables hFirst) hRun

theorem earlyRemapRanges_ok {el ttb pages : Nat} {ranges : List Range} {m : Mmu}
    (hType : ∀ r ∈ ranges, r.mapType ≠ .unknown)
    (hPages : ∀ r ∈ ranges, pageAlign r.size / 4096 ≤ pages)
    (hSpace : ∀ r ∈ ranges, InSpace r.start r.start (pageAlign r.size)) (hTables : Tables ttb m)
    (hRoom : ranges.length * (3 * pages) ≤ m.supply.length) :
    ∃ m', earlyRemapRanges el ttb ranges m = .ok m' ∧
      m.supply.length ≤ m'.supply.length + ranges.length * (3 * pages) := by
  induction ranges generalizing m with
  | nil => exact ⟨m, rfl, Nat.le_add_right _ _⟩
  | cons r ranges ih =>
    obtain ⟨attr, hAttr⟩ := getPteAttrs_some el (hType r (.head _))
    have hPage := hPages r (.head _)
    rw [length_cons, Nat.add_mul, Nat.one_mul] at hRoom ⊢
    rcases archRemapRange_step hAttr (hSpace r (.head _)) hTables with
        ⟨hShort, -⟩ | ⟨m1, hRun, hTables1, hLength, -⟩
    · omega
    obtain ⟨m', hRest, hLength'⟩ :=
      ih (fun r' hr' => hType r' (.tail _ hr')) (fun r' hr' => hPages r' (.tail _ hr'))
      (fun r' hr' => hSpace r' (.tail _ hr')) hTables1 (by omega)
    refine ⟨m', ?_, by omega⟩
    simp [earlyRemapRanges, hRun, hRest]

/-- The memory and its parts that `mmu_early_enable` maps. -/
structure Layout where
  membase : Nat
  memsize : Nat
  opteeMembase : Nat
  opteeSize : Nat
  stext : Nat
  textSize : Nat

def Layout.ranges (l : Layout) : List Range :=
  [⟨l.membase, l.memsize, .cachedRwx⟩, ⟨l.opteeMembase, l.opteeSize, .fault⟩,
    ⟨l.stext / pageSize * pageSize, pageAlign l.textSize, .cachedRwx⟩]

/-- The tables that `mmu_early_enable` builds, from free tables of whole pages, and those that
remaps make of them. Every remap is one of less than 512 GiB inside of the address space. -/
inductive Built (el ttb : Nat) : Mmu → Prop
  | early {m m' : Mmu} (l : Layout) (hNodup : m.supply.Nodup)
      (hPlace : ∀ x ∈ m.supply, x % 4096 = 0 ∧ x < 2 ^ 48)
      (hTtb : ttb ∉ m.supply) (hSpace : ∀ r ∈ l.ranges, InSpace r.start r.start (pageAlign r.size))
      (hRun : mmuEarlyEnable el ttb m l.membase l.memsize l.opteeMembase
        l.opteeSize l.stext l.textSize = .ok m') :
      Built el ttb m'
  | remap {m m' : Mmu} {virt phys size : Nat} {mapType : MapType} (hBuilt : Built el ttb m)
      (hSpace : InSpace virt phys (pageAlign size))
        (hRun : archRemapRange el ttb m virt phys size mapType = .ok m') :
      Built el ttb m'

theorem built_tables (h : Built el ttb m) : Tables ttb m := by
  induction h with
  | early l hNodup hPlace hTtb hSpace hRun =>
    rw [mmuEarlyEnable] at hRun
    rcases @earlyInitRange_step el ttb l0XlatSize 2 0 _ rfl (by omega)
        (clear_tables hNodup hPlace hTtb) with
      ⟨-, hBug⟩ | ⟨m1, hInit, hTables, -⟩
    · rw [hBug] at hRun
      cases hRun
    · rw [hInit] at hRun
      exact earlyRemapRanges_tables hSpace hTables hRun
  | remap _ hSpace hRun ih => exact archRemapRange_tables hSpace ih hRun

theorem mmuEarlyEnable_ok {el ttb pages : Nat} {l : Layout} {m : Mmu} (hNodup : m.supply.Nodup)
    (hPlace : ∀ x ∈ m.supply, x % 4096 = 0 ∧ x < 2 ^ 48) (hTtb : ttb ∉ m.supply)
    (hSpace : ∀ r ∈ l.ranges, InSpace r.start r.start (pageAlign r.size))
    (hPages : ∀ r ∈ l.ranges, pageAlign r.size / 4096 ≤ pages)
    (hRoom : 2 + 3 * (3 * pages) ≤ m.supply.length) :
    ∃ m', mmuEarlyEnable el ttb m l.membase l.memsize l.opteeMembase l.opteeSize l.stext
        l.textSize = .ok m' ∧
      m.supply.length ≤ m'.supply.length + (2 + 3 * (3 * pages)) := by
  rcases @earlyInitRange_step el ttb l0XlatSize 2 0 _ rfl (by omega)
      (clear_tables hNodup hPlace hTtb) with
    ⟨hShort, -⟩ | ⟨m1, hInit, hTables, hLength⟩
  · have hSame : (m.clear ttb).supply.length = m.supply.length := rfl
    omega
  have hSame : (m.clear ttb).supply.length = m.supply.length := rfl
  have hType : ∀ r ∈ l.ranges, r.mapType ≠ .unknown := by simp [Layout.ranges]
  have hThree : l.ranges.length = 3 := rfl
  obtain ⟨m', hRun, hLength'⟩ :=
    @earlyRemapRanges_ok el ttb pages l.ranges m1 hType hPages hSpace hTables
    (by rw [hThree]; omega)
  rw [hThree] at hLength'
  refine ⟨m', ?_, by omega⟩
  rw [mmuEarlyEnable, hInit]
  exact hRun

def smallLayout : Layout := ⟨0x40000000, 4096, 0x50000000, 4096, 0x40000000, 4096⟩

def freshMmu : Mmu := ⟨fun _ _ => 0, (range 20).map fun i => 4096 * (i + 1)⟩

/-- Below the memory of the layout, the first 1 GiB is one block that maps each page to itself. -/
theorem smallLayout_ok : ∃ m, Built 1 0 m ∧ 9 ≤ m.supply.length ∧
    m.translate 0 510 = some (510, attrsXn 1 ||| uncachedMem) := by
  have hPlace : ∀ x ∈ freshMmu.supply, x % 4096 = 0 ∧ x < 2 ^ 48 := by
    intro x hx
    obtain ⟨i, hi, rfl⟩ := mem_map.mp hx
    have hLt := mem_range.mp hi
    omega
  have hNodup : freshMmu.supply.Nodup := by decide
  have hTtb : 0 ∉ freshMmu.supply := by decide
  have hLength : freshMmu.supply.length = 20 := by decide
  have hSpace : ∀ r ∈ smallLayout.ranges, InSpace r.start r.start (pageAlign r.size) := by
    simp only [Layout.ranges, mem_cons, not_mem_nil, or_false, forall_eq_or_imp, forall_eq]
    exact ⟨by constructor <;> decide, by constructor <;> decide, by constructor <;> decide⟩
  obtain ⟨m, hRun, hRest⟩ := @mmuEarlyEnable_ok 1 0 1 smallLayout freshMmu hNodup hPlace hTtb hSpace
    (by decide) (by omega)
  have hPage : (mmuEarlyEnable 1 0 freshMmu smallLayout.membase smallLayout.memsize
      smallLayout.opteeMembase smallLayout.opteeSize smallLayout.stext
      smallLayout.textSize).toOption.bind (·.translate 0 510) =
        some (510, attrsXn 1 ||| uncachedMem) := by
    decide +kernel
  rw [hRun] at hPage
  exact ⟨m, .early smallLayout hNodup hPlace hTtb hSpace hRun, by omega, hPage⟩

end Barebox.Arm64
