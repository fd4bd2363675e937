import Barebox.Arm.Mmu64Entries

/-! Remapping a range of pages changes the translation of these pages and of no other one. Splitting
a block writes a table that translates as the block did, and everything else happens in the tree
below the entry for the address. -/
namespace Barebox.Arm64
open RadixTable Nat

theorem two_pow_level2shift {h : Nat} (hh : h ≤ 3) : 2 ^ level2shift (3 - h) = 4096 * 512 ^ h := by
  rw [level2shift, show 3 - (3 - h) = h by omega, Nat.pow_add, Nat.pow_mul]

theorem granularity_eq {h : Nat} (hh : h < 3) : granularity (3 - h) = 4096 * 512 ^ h := by
  rw [granularity, two_pow_level2shift (by omega)]
  have hLe : 512 ^ h ≤ 512 ^ 2 := Nat.pow_le_pow_right (by decide) (by omega)
  exact mod_eq_of_lt (lt_of_le_of_lt (Nat.mul_le_mul_left 4096 hLe) (by decide))

theorem idx_eq {h : Nat} (hh : h ≤ 3) (addr : Nat) :
    (addr &&& level2mask (3 - h)) >>> level2shift (3 - h) = index entries h (addr / 4096) := by
  rw [level2mask, shiftRight_and_distrib, shiftLeft_shiftRight,
    show (511 : Nat) = 2 ^ 9 - 1 from rfl,
    and_two_pow_sub_one_eq_mod, shiftRight_eq_div_pow, two_pow_level2shift hh,
      ← Nat.div_div_eq_div_mul, index,
    stride_entries]
  rfl

theorem index_lt (h q : Nat) : index entries h q < 512 := mod_lt _ (entries_pos h)

theorem mod_pow_succ (h q : Nat) :
    q % 512 ^ (h + 1) = index entries h q * 512 ^ h + q % 512 ^ h := by
  rw [index, stride_entries, entries, Nat.pow_succ, mod_mul, Nat.mul_comm (512 ^ h), Nat.add_comm]

theorem split_sum {h hi page lo j : Nat} (hh : h < 3) (hHi : hi < 2 ^ 16)
    (hPage : page < 2 ^ 36) (hLo : lo < 4096)
    (hAligned : page % 512 ^ (h + 1) = 0) (hj : j < 512) :
    page + j * 512 ^ h < 2 ^ 36 ∧ (page + j * 512 ^ h) % 512 ^ h = 0 ∧
      (entry hi page lo + j * granularity (3 - h)) % 2 ^ 64 = entry hi (page + j * 512 ^ h) lo := by
  have hPow : 0 < 512 ^ h := Nat.pow_pos (by decide)
  have hInside : page + j * 512 ^ h < 2 ^ 36 := by
    obtain ⟨c, hc⟩ := dvd_of_mod_eq_zero hAligned
    have hTop : 2 ^ 36 = 512 ^ (h + 1) * 512 ^ (3 - h) := by
      rw [← Nat.pow_add, show h + 1 + (3 - h) = 4 by omega]
      rfl
    have hIn : c < 512 ^ (3 - h) := by
      rw [hc, hTop] at hPage
      exact Nat.lt_of_mul_lt_mul_left hPage
    have hNext : j * 512 ^ h < 512 ^ (h + 1) := by
      rw [Nat.pow_succ, Nat.mul_comm (512 ^ h)]
      exact Nat.mul_lt_mul_of_pos_right hj hPow
    calc page + j * 512 ^ h < 512 ^ (h + 1) * c + 512 ^ (h + 1) := by rw [← hc]; omega
      _ = 512 ^ (h + 1) * (c + 1) := by ring
      _ ≤ 2 ^ 36 := by rw [hTop]; exact Nat.mul_le_mul_left _ hIn
  refine ⟨hInside, ?_, ?_⟩
  · have hDvd : 512 ^ h ∣ page :=
      Nat.dvd_trans (Nat.pow_dvd_pow 512 (le_succ h)) (dvd_of_mod_eq_zero hAligned)
    exact mod_eq_zero_of_dvd (Nat.dvd_add hDvd (Nat.dvd_mul_left _ _))
  have hAdd : entry hi page lo + j * (4096 * 512 ^ h) = entry hi (page + j * 512 ^ h) lo := by
    rw [entry, entry]
    ring
  rw [granularity_eq hh, hAdd, mod_eq_of_lt (entry_lt hHi hInside hLo)]

theorem split_entry {h old j : Nat} (hh : h < 3) (hGood : Good (h + 1) old)
    (hNot : pteType old ≠ pteTypeTable)
    (hj : j < 512) {e : Nat}
    (he : e = (old + j * granularity (3 - h)) % 2 ^ 64 |||
      (if 3 - h = 3 then pteTypeTable else 0)) :
    Good h e ∧ (h ≠ 0 → getLevelTable e = none) ∧
      ∀ q, index entries h q = j → translateEntry h e q = translateEntry (h + 1) old q := by
  obtain ⟨hi, page, lo, rfl, hHi, hPage, hLo⟩ := entry_cases hGood.lt
  have hAligned : page % 512 ^ (h + 1) = 0 := by
    have hOld := hGood.aligned
    rwa [pteAddr_entry hPage hLo, Nat.mul_div_cancel _ (by decide)] at hOld
  have hType : lo % 4 ≠ 3 := by rwa [pteType_entry] at hNot
  obtain ⟨hPage', hAligned', hSum⟩ := @split_sum h hi page lo j hh hHi hPage hLo hAligned hj
  obtain ⟨lo', hLo', hAttr, hFlag, hType', hEntry⟩ : ∃ lo', lo' < 4096 ∧
      lo' / 4 = lo / 4 ∧ lo' / 1024 = lo / 1024 ∧
      (if h = 0 then lo' % 4 = 3 else lo' = lo) ∧ e = entry hi (page + j * 512 ^ h) lo' := by
    rw [hSum] at he
    by_cases hZero : h = 0
    · grind [pteTypeTable, entry_or_three]
    · grind
  subst hEntry
  have hOldFlag : accessFlag (entry hi page lo) = true ↔ lo / 1024 % 2 = 1 := by
    simp [accessFlag_entry]
  have hBlock : lo / 1024 % 2 = 1 → h + 1 < 3 ∧ lo % 4 = 1 := by
    intro hOn
    have hOld := hGood.flag (succ_ne_zero h) (hOldFlag.mpr hOn)
    rwa [pteType_entry] at hOld
  refine ⟨⟨entry_lt hHi hPage' hLo', ?_, fun hZero hOn => ?_⟩, fun hZero => ?_, fun q hq => ?_⟩
  · rw [pteAddr_entry hPage' hLo', Nat.mul_div_cancel _ (by decide)]
    exact hAligned'
  · rw [if_neg hZero] at hType'
    rw [accessFlag_entry, beq_iff_eq, hFlag] at hOn
    rw [pteType_entry, hType']
    exact ⟨hh, (hBlock hOn).2⟩
  · rw [if_neg hZero] at hType'
    rw [getLevelTable, pteType_entry, hType']
    exact if_neg hType
  by_cases hOn : lo / 1024 % 2 = 1
  · obtain ⟨hUp, hOne⟩ := hBlock hOn
    have hNew : lo' % 4 = if h = 0 then 3 else 1 := by
      by_cases hZero : h = 0
      · rw [if_pos hZero] at hType' ⊢
        exact hType'
      · rw [if_neg hZero] at hType' ⊢
        rw [hType', hOne]
    simp [translateEntry_block hh hPage' hLo' hAligned' hNew q,
      translateEntry_block hUp hPage hLo hAligned (by rw [if_neg (succ_ne_zero h)]; exact hOne) q,
        hFlag, hAttr, mod_pow_succ, hq, Nat.add_assoc]
  · have hOff (k page lo : Nat) (hNo : lo / 1024 % 2 ≠ 1) : translateEntry k (entry hi page lo) q =
        none := by
      simp [translateEntry, accessFlag_entry, hNo]
    rw [hOff _ _ _ (by rw [hFlag]; exact hOn), hOff _ _ _ hOn]

/-- What `alloc_pte` will return: tables that are not in use. -/
structure Supply (m : Mmu) (h table : Nat) : Prop where
  nodup : m.supply.Nodup
  place : ∀ x ∈ m.supply, x % 4096 = 0 ∧ x < 2 ^ 48
  fresh : ∀ x ∈ m.supply, ¬ InTree entries getLevelTable m.mem h table x

structure Step (m m' : Mmu) (h table count : Nat) (taken : List Nat) : Prop where
  supply : m.supply = taken ++ m'.supply
  length : taken.length ≤ count
  rewrites : Rewrites entries getLevelTable Good m.mem m'.mem h table {x | x ∈ taken}

variable {m m' : Mmu} {h table count : Nat} {taken : List Nat}
    (hStep : Step m m' h table count taken)
include hStep

theorem Step.supplied (hSupply : Supply m h table) : Supply m' h table := by
  have hNodup := hSupply.nodup
  rw [hStep.supply] at hNodup
  have hMem {x : Nat} (hx : x ∈ m'.supply) : x ∈ m.supply := by grind [hStep.supply]
  refine ⟨(List.nodup_append.mp hNodup).2.1, fun x hx => hSupply.place x (hMem hx),
    fun x hx hIn => ?_⟩
  rcases hStep.rewrites.inside x hIn with hIn | hIn
  · exact hSupply.fresh x (hMem hx) hIn
  · exact (List.nodup_append.mp hNodup).2.2 x hIn x hx rfl

theorem Step.trans {m'' : Mmu} {count' : Nat} {taken' : List Nat}
    (hStep' : Step m' m'' h table count' taken') :
    Step m m'' h table (count + count') (taken ++ taken') := by
  refine ⟨?_, ?_, ?_⟩
  · simp [hStep.supply, hStep'.supply]
  · rw [List.length_append]
    exact Nat.add_le_add hStep.length hStep'.length
  · have hUnion : {x | x ∈ taken ++ taken'} = {x | x ∈ taken} ∪ {x | x ∈ taken'} :=
      Set.ext fun x => by simp
    rw [hUnion]
    exact hStep.rewrites.trans hStep'.rewrites

theorem Step.supply_length : m.supply.length ≤ m'.supply.length + count := by
  have hLength := hStep.length
  simp [hStep.supply]
  omega

omit hStep

/-- What a split writes: the new table, and the link to it. -/
theorem splitBlock_mem {m : Mmu} {table idx level newTable : Nat} {supply : List Nat}
    (hNot : pteType (m.mem table idx) ≠ pteTypeTable) (hNew : m.supply = newTable :: supply)
    (hLt : newTable < 2 ^ 48)
    (hOld : m.mem table idx < 2 ^ 64) :
    ∃ m', m.splitBlock table idx level = some m' ∧ m'.supply = supply ∧
      ∀ t i, m'.mem t i = if t = table ∧ i = idx then newTable ||| pteTypeTable
      else if t = newTable ∧ i < 512 then
          (m.mem table idx + i * granularity (level + 1)) % 2 ^ 64 |||
            (if level + 1 = 3 then pteTypeTable else 0)
        else m.mem t i := by
  have hSplit : m.splitBlock table idx level = some
      ((Mmu.setPteRange { m with supply := supply } (level + 1) newTable 0 (m.mem table idx) 512
        (if level + 1 = 3 then pteTypeTable
          else 0)).setPteRange level table idx newTable 1 pteTypeTable) := by
    rw [Mmu.splitBlock, if_neg hNot, hNew]
  refine ⟨_, hSplit, ?_, fun t i => ?_⟩
  · simp [Mmu.setPteRange_supply]
  rw [Mmu.setPteRange_mem _ _ _ _ _ _ _ (by omega), Mmu.setPteRange_mem _ _ _ _ _ _ _ hOld]
  by_cases hHere : t = table ∧ i = idx
  · grind
  · simp [if_neg hHere]
    omega

/-- A block entry becomes a table of the same mappings. -/
theorem splitBlock_step {m : Mmu} {h table : Nat} (hh : h < 3)
    (hWell : WellFormed entries getLevelTable Good m.mem (h + 1) table)
    (hSupply : Supply m (h + 1) table)
    {idx : Nat} (hIdx : idx < 512) : (m.supply = [] ∧ m.splitBlock table idx (3 - (h + 1)) = none) ∨
      ∃ m' taken g, m.splitBlock table idx (3 - (h + 1)) = some m' ∧
      Step m m' (h + 1) table 1 taken ∧
        getLevelTable (m'.mem table idx) = some g ∧
        ∀ q, translateAt m'.mem (h + 1) table q = translateAt m.mem (h + 1) table q := by
  by_cases hTable : pteType (m.mem table idx) = pteTypeTable
  · refine .inr ⟨m, [], _, ?_, ⟨rfl, Nat.zero_le _, ?_⟩, if_pos hTable, fun q => rfl⟩
    · rw [Mmu.splitBlock, if_pos hTable]
    · rw [show {x | x ∈ ([] : List Nat)} = (∅ : Set Nat) from Set.ext fun x => by simp]
      exact Rewrites.refl hWell
  by_cases hRoom : m.supply = []
  · refine .inl ⟨hRoom, ?_⟩
    rw [Mmu.splitBlock, if_neg hTable, hRoom]
  obtain ⟨newTable, supply, hNew⟩ := List.exists_cons_of_ne_nil hRoom
  have hHead : newTable ∈ m.supply := by rw [hNew]; exact .head _
  obtain ⟨hPlace, hPlace'⟩ := hSupply.place newTable hHead
  have hFresh := hSupply.fresh newTable hHead
  have hNe : table ≠ newTable := fun hEq => hFresh (by rw [← hEq]; exact .root _ table)
  have hNone : getLevelTable (m.mem table idx) = none := if_neg hTable
  have hGood : Good (h + 1) (m.mem table idx) := (hWell idx hIdx).1 hNone
  obtain ⟨m', hSplit, hSupply', hMem⟩ :=
    @splitBlock_mem m table idx (3 - (h + 1)) newTable supply hTable hNew hPlace' hGood.lt
  rw [show 3 - (h + 1) + 1 = 3 - h by omega] at hMem
  have hLink : getLevelTable (m'.mem table idx) = some newTable := by
    rw [hMem, if_pos ⟨rfl, rfl⟩]
    exact getLevelTable_table hPlace hPlace'
  have hEntries {j : Nat} (hj : j < 512) :=
    @split_entry h (m.mem table idx) j hh hGood hTable hj (m'.mem newTable j)
    (by rw [hMem, if_neg (fun hEq => hNe hEq.1.symm), if_pos ⟨rfl, hj⟩])
  obtain ⟨hBeside, hRewrites⟩ := Rewrites.graft hWell hFresh
    (fun j hj => by rw [hMem, if_neg (fun hEq => hj hEq.2), if_neg (fun hEq => hNe hEq.1)])
    (fun x hx hx' => by
      funext i
      rw [hMem, if_neg (fun hEq => hx hEq.1), if_neg (fun hEq => hx' hEq.1)])
    hLink (fun j hj => (hEntries hj).1) (fun hZero j hj => (hEntries hj).2.1 hZero)
  refine .inr ⟨m', [newTable], newTable, hSplit, ⟨by rw [hSupply', hNew]; rfl, le_rfl, ?_⟩,
    hLink, fun q => ?_⟩
  · simp [hRewrites]
  rw [translateAt, translateAt]
  by_cases hq : index entries (h + 1) q = idx
  · have hOld : lookup entries getLevelTable m.mem (h + 1) table q =
        (h + 1, m.mem table (index entries (h + 1) q)) :=
      lookup_succ_none (by rw [hq]; exact hNone)
    have hNewLink : lookup entries getLevelTable m'.mem (h + 1) table q =
        lookup entries getLevelTable m'.mem h newTable q :=
      lookup_succ_link (by rw [hq]; exact hLink)
    have hLeaf : lookup entries getLevelTable m'.mem h newTable q =
        (h, m'.mem newTable (index entries h q)) := by
      cases h with
      | zero => rfl
      | succ h => exact lookup_succ_none ((hEntries (index_lt (h + 1) q)).2.1 (succ_ne_zero h))
    rw [hNewLink, hOld, hLeaf, hq]
    exact (hEntries (index_lt h q)).2.2 q rfl
  · rw [lookup_replace hBeside entries_pos hq]

structure Attributes (attr : Nat) : Prop where
  bits : ∃ hi lo, attr = entry hi 0 lo ∧ hi < 2 ^ 16 ∧ lo < 4096 ∧ lo % 4 = 0

def mapped (attr phys size q : Nat) : Option (Nat × Nat) :=
  if accessFlag attr then some (phys / 4096 + q % size, attr) else none

theorem block_entry {attr phys h : Nat} (hAttr : Attributes attr)
    (hh : h < 3) (hPhys : phys < 2 ^ 48)
    (hAligned : phys % (4096 * 512 ^ h) = 0) {e : Nat}
    (he : e = phys ||| (attr ||| (if h = 0 then pteTypePage else pteTypeBlock))) :
    Good h e ∧ (h ≠ 0 → getLevelTable e = none) ∧ ∀ q,
    translateEntry h e q = mapped attr phys (512 ^ h) q := by
  obtain ⟨hi, lo, rfl, hHi, hLo, hZero⟩ := hAttr.bits
  have hDvd := dvd_of_mod_eq_zero hAligned
  have hPage : phys / 4096 * 4096 = phys :=
    Nat.div_mul_cancel (Nat.dvd_trans (Nat.dvd_mul_right _ _) hDvd)
  have hPageLt : phys / 4096 < 2 ^ 36 := by omega
  have hBlock : phys / 4096 % 512 ^ h = 0 := by
    obtain ⟨c, rfl⟩ := hDvd
    rw [Nat.mul_assoc, Nat.mul_div_cancel_left _ (by decide)]
    exact mul_mod_right _ _
  obtain ⟨type, hType⟩ : ∃ type, type = if h = 0 then 3 else 1 := ⟨_, rfl⟩
  have hTypeLt : type < 4 := by
    rw [hType]
    split <;> decide
  have hOr : entry hi 0 lo ||| type = entry hi 0 (lo + type) := entry_or_type hZero hTypeLt
  have hEntry : e = entry hi (phys / 4096) (lo + type) := by
    rw [he, ← or_entry hPageLt (show lo + type < 4096 by omega), hPage, ← hOr, hType]
    rfl
  have hLo' : lo + type < 4096 := by omega
  have hMod : (lo + type) % 4 = if h = 0 then 3 else 1 := by omega
  rw [hEntry]
  refine ⟨⟨entry_lt hHi hPageLt hLo', ?_, fun hNe _ => ⟨hh, ?_⟩⟩, fun hNe => ?_, fun q => ?_⟩
  · rw [pteAddr_entry hPageLt hLo', Nat.mul_div_cancel _ (by decide)]
    exact hBlock
  · rw [pteType_entry, hMod, if_neg hNe]
    rfl
  · rw [getLevelTable, pteType_entry, hMod, if_neg hNe]
    rfl
  have hFlag : (lo + type) / 1024 = lo / 1024 := by omega
  have hFour : (lo + type) / 4 * 4 = lo := by omega
  have hBits : hi * 2 ^ 48 + (lo + type) / 4 * 4 = entry hi 0 lo := by
    rw [hFour, entry, Nat.zero_mul, Nat.add_zero]
  rw [translateEntry_block hh hPageLt hLo' hBlock hMod, mapped, accessFlag_entry, hFlag, hBits]
  simp

/-- Writing an entry for a block: the pages below the entry are mapped, and no other one changes. -/
theorem mapBlock_step {attr addr phys h table : Nat} {m : Mmu}
    (hAttr : Attributes attr) (hh : h < 3) (hPhys : phys < 2 ^ 48)
    (hAligned : phys % (4096 * 512 ^ h) = 0)
    (hWell : WellFormed entries getLevelTable Good m.mem h table) {m' : Mmu}
    (hm' : m' = m.setPteRange (3 - h) table (index entries h (addr / 4096)) phys 1
      (attr ||| (if h = 0 then pteTypePage else pteTypeBlock))) : Step m m' h table h [] ∧
      ∀ q, (SameEntries entries h h q (addr / 4096) →
        translateAt m'.mem h table q = mapped attr phys (512 ^ h) q) ∧
        (¬ SameEntries entries h h q (addr / 4096) →
          translateAt m'.mem h table q = translateAt m.mem h table q) := by
  have hMem (t i : Nat) : m'.mem t i = if t = table ∧ i = index entries h (addr / 4096) then
      phys ||| (attr ||| (if h = 0 then pteTypePage else pteTypeBlock)) else m.mem t i := by
    rw [hm', Mmu.setPteRange_mem _ _ _ _ _ _ _ (by omega)]
    by_cases hHere : t = table ∧ i = index entries h (addr / 4096)
    · grind
    · grind
  have hTable (j : Nat) (hj : j ≠ index entries h (addr / 4096)) : m'.mem table j =
      m.mem table j := by
    rw [hMem, if_neg (fun hEq => hj hEq.2)]
  have hRest (x : Nat) (hx : x ≠ table) : m'.mem x = m.mem x := by
    funext i
    grind
  obtain ⟨hGood, hLink, hMapped⟩ := block_entry hAttr hh hPhys hAligned
    (show m'.mem table (index entries h (addr / 4096)) = _ by rw [hMem, if_pos ⟨rfl, rfl⟩])
  have hNone : {x | x ∈ ([] : List Nat)} = (∅ : Set Nat) := Set.ext fun x => by simp
  have hSupply : m.supply = [] ++ m'.supply := by rw [hm', Mmu.setPteRange_supply, List.nil_append]
  cases h with
  | zero =>
    refine ⟨⟨hSupply, Nat.le_refl 0, ?_⟩, fun q => ?_⟩
    · rw [hNone]
      exact Rewrites.write_zero hWell hTable hRest hGood
    rw [sameEntries_self]
    refine ⟨fun hq => ?_, fun hq => ?_⟩
    · rw [← hMapped q, ← hq]
      rfl
    · simp [translateAt, lookup, hTable _ hq]
  | succ h =>
    obtain ⟨hBeside, hRewrites⟩ := Rewrites.write hWell hTable hRest (hLink (succ_ne_zero h)) hGood
    refine ⟨⟨hSupply, Nat.zero_le _, ?_⟩, fun q => ?_⟩
    · simp [hRewrites]
    rw [sameEntries_self]
    refine ⟨fun hq => ?_, fun hq => ?_⟩
    · have hFound : lookup entries getLevelTable m'.mem (h + 1) table q =
          (h + 1, m'.mem table (index entries (h + 1) q)) :=
        lookup_succ_none (by rw [hq]; exact hLink (succ_ne_zero h))
      rw [translateAt, hFound, ← hMapped q, hq]
    · simp [translateAt, lookup_replace hBeside entries_pos hq]

def BlockAligned (addr phys size h : Nat) : Prop :=
  4096 * 512 ^ h ≤ size ∧ addr % (4096 * 512 ^ h) = 0 ∧ phys % (4096 * 512 ^ h) = 0

section Levels
variable {attr addr phys size h table : Nat} {m : Mmu}

theorem blockAligned_iff (hh : h ≤ 3) :
    (2 ^ level2shift (3 - h) ≤ size ∧ isAligned addr (2 ^ level2shift (3 - h)) ∧
      isAligned phys (2 ^ level2shift (3 - h))) ↔
      BlockAligned addr phys size h := by simp [two_pow_level2shift hh, BlockAligned, isAligned]

theorem remapLevels_block (hh : h ≤ 3) (hBlock : BlockAligned addr phys size h) :
    remapLevels attr addr phys size (h + 1) (3 - h) table m =
      some (m.setPteRange (3 - h) table (index entries h (addr / 4096)) phys 1
        (attr ||| (if h = 0 then pteTypePage else pteTypeBlock)), 4096 * 512 ^ h) := by
  have hType : (3 - h = 3) = (h = 0) := by
    simp
    omega
  rw [remapLevels, if_pos ((blockAligned_iff hh).mpr hBlock), idx_eq hh, two_pow_level2shift hh]
  simp only [hType]

theorem remapLevels_split (hh : h + 1 ≤ 3) (hBlock : ¬ BlockAligned addr phys size (h + 1))
    {m' : Mmu} {g : Nat}
    (hSplit : m.splitBlock table (index entries (h + 1) (addr / 4096)) (3 - (h + 1)) = some m')
    (hLink : getLevelTable (m'.mem table (index entries (h + 1) (addr / 4096))) = some g) :
    remapLevels attr addr phys size (h + 1 + 1) (3 - (h + 1)) table m =
      remapLevels attr addr phys size (h + 1) (3 - h) g m' := by
  rw [remapLevels, if_neg (fun hAligned => hBlock ((blockAligned_iff hh).mp hAligned)),
    idx_eq hh, hSplit]
  grind

end Levels

variable {attr addr phys size : Nat} {m : Mmu}

/-- The loop over the levels maps a block that starts at the address, and nothing else, unless the
tables run out. -/
theorem remapLevels_step (hAttr : Attributes attr) (hAddr : addr % 4096 = 0)
    (hPhys : phys % 4096 = 0)
    (hSize : size % 4096 = 0) (hPos : 0 < size) (hLt : size < 2 ^ 39)
    (hEnd : phys + size ≤ 2 ^ 48) {h : Nat}
    (hh : h ≤ 3) {table : Nat} (hWell : WellFormed entries getLevelTable Good m.mem h table)
    (hSupply : Supply m h table) :
    (m.supply.length < h ∧ remapLevels attr addr phys size (h + 1) (3 - h) table m = none) ∨
      ∃ m' k taken, remapLevels attr addr phys size (h + 1)
      (3 - h) table m = some (m', 4096 * 512 ^ k) ∧ k ≤ h ∧
        BlockAligned addr phys size k ∧ Step m m' h table h taken ∧
        ∀ q, (SameEntries entries k h q (addr / 4096) →
          translateAt m'.mem h table q = mapped attr phys (512 ^ k) q) ∧
          (¬ SameEntries entries k h q (addr / 4096) →
            translateAt m'.mem h table q = translateAt m.mem h table q) := by
  induction h generalizing table m with
  | zero =>
    have hBlock : BlockAligned addr phys size 0 := ⟨by omega, hAddr, hPhys⟩
    obtain ⟨hStep, hTranslate⟩ :=
      @mapBlock_step attr addr phys 0 table m hAttr (by decide) (by omega) hBlock.2.2 hWell _ rfl
    exact .inr ⟨_, 0, [], remapLevels_block hh hBlock, Nat.le_refl 0, hBlock, hStep, hTranslate⟩
  | succ h ih =>
    by_cases hBlock : BlockAligned addr phys size (h + 1)
    · have hLow : h + 1 < 3 := by
        by_contra hTop
        have hSmall := hBlock.1
        grind
      obtain ⟨hStep, hTranslate⟩ :=
        @mapBlock_step attr addr phys (h + 1) table m hAttr hLow (by omega) hBlock.2.2 hWell _ rfl
      exact .inr ⟨_, h + 1, [], remapLevels_block hh hBlock, le_rfl, hBlock, hStep, hTranslate⟩
    have hIdx := index_lt (h + 1) (addr / 4096)
    rcases splitBlock_step (by omega) hWell hSupply hIdx with
        ⟨hEmpty, hSplit⟩ | ⟨m1, taken1, g, hSplit, hStep1, hLink, hSame⟩
    · refine .inl ⟨by rw [hEmpty]; exact succ_pos h, ?_⟩
      rw [remapLevels, if_neg (fun hAligned => hBlock ((blockAligned_iff hh).mp hAligned)),
        idx_eq hh, hSplit]
    have hWell1 := hStep1.rewrites.wellFormed
    have hSupply1 := hStep1.supplied hSupply
    -- the tree below the entry is a part of the whole one
    have hBelow : ∀ x, InTree entries getLevelTable m1.mem h g x →
        InTree entries getLevelTable m1.mem (h + 1) table x :=
      fun x hx => .child hIdx hLink hx
    have hSupplyBelow : Supply m1 h g :=
      ⟨hSupply1.nodup, hSupply1.place, fun x hx hIn => hSupply1.fresh x hx (hBelow x hIn)⟩
    have hRun := @remapLevels_split attr addr phys size h table m hh hBlock m1 g hSplit hLink
    rcases ih (by omega) ((hWell1 _ hIdx).2 g hLink).1 hSupplyBelow with
      ⟨hShort, hNone⟩ | ⟨m', k, taken2, hBlocks, hk, hAligned, hStep2, hTranslate⟩
    · have hLength := hStep1.supply_length
      exact .inl ⟨by omega, hRun.trans hNone⟩
    have hFresh2 : ∀ x ∈ {x | x ∈ taken2},
        ¬ InTree entries getLevelTable m1.mem (h + 1) table x := by
      intro x hx
      refine hSupply1.fresh x ?_
      rw [hStep2.supply]
      exact List.mem_append_left _ hx
    obtain ⟨hRoot, hBeside, hRewrites⟩ := Rewrites.descend hWell1 hIdx hLink hStep2.rewrites hFresh2
    have hStep : Step m m' (h + 1) table (1 + h) (taken1 ++ taken2) :=
      hStep1.trans ⟨hStep2.supply, hStep2.length, hRewrites⟩
    rw [Nat.add_comm 1 h] at hStep
    refine .inr ⟨m', k, taken1 ++ taken2, hRun.trans hBlocks,
      by omega, hAligned, hStep, fun q => ?_⟩
    · rw [sameEntries_succ hk]
      by_cases hq : index entries (h + 1) q = index entries (h + 1) (addr / 4096)
      · have hOld : translateAt m1.mem (h + 1) table q = translateAt m1.mem h g q := by
          rw [translateAt, translateAt, lookup_succ_link (by rw [hq]; exact hLink)]
        have hNew : translateAt m'.mem (h + 1) table q = translateAt m'.mem h g q := by
          rw [translateAt, translateAt, lookup_succ_link (by rw [hRoot, hq]; exact hLink)]
        grind
      · refine ⟨fun hIn => absurd hIn.1 hq, fun _ => ?_⟩
        rw [← hSame q, translateAt, translateAt, lookup_replace hBeside entries_pos hq]

def mappedPage (attr virt phys page : Nat) : Option (Nat × Nat) :=
  if accessFlag attr then some (phys / 4096 + (page - virt / 4096), attr) else none

theorem sameEntries_block {k page first : Nat} (hk : k ≤ 3) (hPage : page < 2 ^ 36)
    (hFirst : first < 2 ^ 36)
    (hAligned : first % 512 ^ k = 0) :
    (SameEntries entries k 3 page first ↔ first ≤ page ∧ page < first + 512 ^ k) ∧
      (first ≤ page → page < first + 512 ^ k → page % 512 ^ k = page - first) := by
  have hStride : stride entries (3 + 1) = 2 ^ 36 := rfl
  rw [sameEntries_iff (by omega) (by rw [hStride]; exact hPage) (by rw [hStride]; exact hFirst),
    stride_entries]
  obtain ⟨c, rfl⟩ := dvd_of_mod_eq_zero hAligned
  have hPos : 0 < 512 ^ k := Nat.pow_pos (by decide)
  have hParts := div_add_mod page (512 ^ k)
  have hMod := mod_lt page hPos
  generalize 512 ^ k = b at *
  rw [Nat.mul_div_cancel_left _ hPos]
  refine ⟨⟨fun hEq => ?_, fun ⟨hLow, hHigh⟩ => ?_⟩, fun hLow hHigh => ?_⟩
  · grind
  · refine Nat.div_eq_of_lt_le ?_ ?_
    · grind
    · grind
  · obtain ⟨d, rfl⟩ := Nat.exists_eq_add_of_le hLow
    rw [mul_add_mod, mod_eq_of_lt (by omega)]
    omega

structure Tables (ttb : Nat) (m : Mmu) : Prop where
  wellFormed : WellFormed entries getLevelTable Good m.mem 3 ttb
  supply : Supply m 3 ttb

structure InSpace (virt phys size : Nat) : Prop where
  virt_aligned : virt % 4096 = 0
  phys_aligned : phys % 4096 = 0
  size_aligned : size % 4096 = 0
  size_lt : size < 2 ^ 39
  virt_end : virt + size ≤ 2 ^ 48
  phys_end : phys + size ≤ 2 ^ 48

/-- The loop maps the pages of the range one block after the other, unless the tables run out. -/
theorem remapLoop_step {ttb : Nat} (hAttr : Attributes attr)
    {turns : Nat} (hSpace : InSpace addr phys size)
    (hTurns : size ≤ 4096 * turns) (hTables : Tables ttb m) :
    (m.supply.length < 3 * (size / 4096) ∧ remapLoop ttb attr turns addr phys size m = none) ∨
      ∃ m', remapLoop ttb attr turns addr phys size m = some m' ∧ Tables ttb m' ∧
        m.supply.length ≤ m'.supply.length + 3 * (size / 4096) ∧ ∀ page < 2 ^ 36,
          (addr / 4096 ≤ page → page < (addr + size) / 4096 →
            m'.translate ttb page = mappedPage attr addr phys page) ∧
          ((page < addr / 4096 ∨ (addr + size) / 4096 ≤ page) →
            m'.translate ttb page = m.translate ttb page) := by
  induction turns generalizing addr phys size m with
  | zero =>
    obtain rfl : size = 0 := by omega
    exact .inr ⟨m, if_pos rfl, hTables, by omega, fun page _ => ⟨fun _ _ => by omega, fun _ => rfl⟩⟩
  | succ turns ih =>
    by_cases hZero : size = 0
    · subst hZero
      exact .inr ⟨m, if_pos rfl, hTables, by omega,
        fun page _ => ⟨fun _ _ => by omega, fun _ => rfl⟩⟩
    obtain ⟨hVirt, hPhys, hSize, hLt, hVirtEnd, hPhysEnd⟩ := hSpace
    rw [remapLoop, if_neg hZero]
    rcases remapLevels_step hAttr hVirt hPhys hSize (by omega) hLt hPhysEnd
        (Nat.le_refl 3) hTables.wellFormed
      hTables.supply with ⟨hShort, hNone⟩ | ⟨m1, k, taken, hRun, hk, hBlock, hStep, hTranslate⟩
    · rw [hNone]
      exact .inl ⟨by omega, rfl⟩
    rw [hRun]
    obtain ⟨hFits, hAddrBlock, hPhysBlock⟩ := hBlock
    have hPow : 0 < 512 ^ k := Nat.pow_pos (by decide)
    have hFirst : addr / 4096 % 512 ^ k = 0 := by
      obtain ⟨c, hc⟩ := dvd_of_mod_eq_zero hAddrBlock
      rw [hc, Nat.mul_assoc, Nat.mul_div_cancel_left _ (by decide)]
      exact mul_mod_right _ _
    have hTables1 : Tables ttb m1 := ⟨hStep.rewrites.wellFormed, hStep.supplied hTables.supply⟩
    have hLength := hStep.supply_length
    have hHere (page : Nat) (hPage : page < 2 ^ 36) :
        (addr / 4096 ≤ page → page < addr / 4096 + 512 ^ k →
          m1.translate ttb page = mappedPage attr addr phys page) ∧
          ((page < addr / 4096 ∨ addr / 4096 + 512 ^ k ≤ page) →
            m1.translate ttb page = m.translate ttb page) := by
      obtain ⟨hSame, hMod⟩ := sameEntries_block hk hPage (by omega) hFirst
      refine ⟨fun hLow hHigh => ?_, fun hOut => (hTranslate page).2 fun hIn => ?_⟩
      · rw [mappedPage, ← hMod hLow hHigh]
        exact (hTranslate page).1 (hSame.mpr ⟨hLow, hHigh⟩)
      · have hBoth := hSame.mp hIn
        omega
    generalize 512 ^ k = b at hFits hPow hHere
    have hNext : InSpace (addr + 4096 * b) (phys + 4096 * b) (size - 4096 * b) :=
      ⟨by omega, by omega, by omega, by omega, by omega, by omega⟩
    have hStop : (addr + 4096 * b + (size - 4096 * b)) / 4096 = (addr + size) / 4096 := by
      congr 1
      omega
    have hStart : (addr + 4096 * b) / 4096 = addr / 4096 + b := by omega
    have hMapped (page : Nat) (hLow : addr / 4096 + b ≤ page) :
        mappedPage attr (addr + 4096 * b) (phys + 4096 * b) page =
          mappedPage attr addr phys page := by
      rw [mappedPage, mappedPage, hStart,
        show (phys + 4096 * b) / 4096 + (page - (addr / 4096 + b)) =
          phys / 4096 + (page - addr / 4096) by omega]
    have hLess : (size - 4096 * b) / 4096 + 1 ≤ size / 4096 := by omega
    rcases ih hNext (by omega) hTables1 with ⟨hShort, hNone⟩ |
        ⟨m', hRest, hTables', hLength', hPages⟩
    · exact .inl ⟨by omega, hNone⟩
    refine .inr ⟨m', hRest, hTables', by omega, fun page hPage => ?_⟩
    obtain ⟨hIn, hOut⟩ := hPages page hPage
    rw [hStop, hStart] at hIn hOut
    obtain ⟨hIn1, hOut1⟩ := hHere page hPage
    refine ⟨fun hLow hHigh => ?_, fun hOutside => ?_⟩
    · by_cases hBlockPage : page < addr / 4096 + b
      · rw [hOut (.inl hBlockPage)]
        exact hIn1 hLow hBlockPage
      · rw [← hMapped page (by omega)]
        exact hIn (by omega) hHigh
    · grind

end Barebox.Arm64
