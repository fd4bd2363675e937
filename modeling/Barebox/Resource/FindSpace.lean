import Barebox.Resource.Invariant

/-! The largest part of a memory bank that is not requested, `memory_bank_find_space` of
`common/memory.c`. -/
namespace Barebox.Resource
open List

/-- The address behind a region, zero behind the last address. -/
def behind (r : Region) : Nat := (r.start + resourceSize r) % 2 ^ 64

/-- The loop of `memory_bank_find_space` and the gap behind `last`. The result is what the
two output parameters are set to. -/
def largestSpace (b last : Region) :
    List Region → Nat → Nat → Option (Nat × Nat) → Option (Nat × Nat)
  | [], _, maxfree, ret =>
    let size := (b.start + resourceSize b + 2 ^ 64 - behind last) % 2 ^ 64
    if maxfree < size then some (behind last, b.last) else ret
  | child :: children, freeptr, maxfree, ret =>
    let size := (child.start + 2 ^ 64 - freeptr) % 2 ^ 64
    if maxfree < size then
      largestSpace b last children (behind child) size
        (some (freeptr, (child.start + maxAddress) % 2 ^ 64))
    else largestSpace b last children (behind child) maxfree ret

/-- `memory_bank_find_space`: a bank without children is free as a whole. -/
def memoryBankFindSpace (b : Region) (children : List Region) : Option (Nat × Nat) :=
  match children.getLast? with
  | none => some (b.start, b.last)
  | some last => largestSpace b last children b.start 0 none

def childRegions (t : Tree) (id : Nat) : List Region := (t.children id).filterMap t.region

def memoryBankFirstFindSpace (t : Tree) : Option (Except Errno Unit × Option (Nat × Nat)) :=
  match t.banks with
  | [] => some (.error .enoent, none)
  | bank :: _ => (t.region bank).map fun b => (.ok (), memoryBankFindSpace b (childRegions t bank))

/-- The range has no byte of a child. -/
def FreeRange (lo stop : Nat) (children : List Region) (first last : Nat) : Prop :=
  lo ≤ first ∧ first ≤ last ∧ last < stop ∧ ∀ r ∈ children, last < r.start ∨ r.last < first

/-- The ranges with a property have at most `size` bytes, and `ret` is one with as many. -/
structure Largest (P : Nat → Nat → Prop) (size : Nat) (ret : Option (Nat × Nat)) : Prop where
  bound : ∀ {first last}, P first last → first ≤ last ∧ last + 1 - first ≤ size
  unset : ret = none → size = 0
  reached : ∀ {first last}, ret = some (first, last) → P first last ∧ last + 1 - first = size

/-- The children follow each other between the two addresses. -/
def Apart (lo stop : Nat) : List Region → Prop
  | [] => lo ≤ stop
  | c :: children => lo ≤ c.start ∧ c.start ≤ c.last ∧ Apart (c.last + 1) stop children

section Scan
variable {b last : Region} {children : List Region} {lo stop size first last' : Nat}
    {ret : Option (Nat × Nat)}
  {P Q : Nat → Nat → Prop}

theorem Largest.congr (h : Largest P size ret) (hIff : ∀ first last, Q first last ↔ P first last) :
    Largest Q size ret := by
  obtain rfl : Q = P := funext fun first => funext fun last => propext (hIff first last)
  exact h

theorem Largest.empty : Largest (fun _ _ => False) 0 none := ⟨nofun, fun _ => rfl, nofun⟩

theorem Largest.gap (h : Largest P size ret) (lo stop : Nat) :
    Largest (fun first last => P first last ∨ lo ≤ first ∧ first ≤ last ∧ last < stop)
      (if size < stop - lo then stop - lo else size)
      (if size < stop - lo then some (lo, stop - 1) else ret) := by
  have hBound := @h.bound
  split_ifs with hMore
  · refine ⟨?_, nofun, ?_⟩
    · rintro first last (hOld | hNew)
      · have hOld' := hBound hOld
        omega
      · omega
    · rintro first last ⟨⟩
      exact ⟨.inr (by omega), by omega⟩
  · refine ⟨?_, h.unset, fun hRet => (h.reached hRet).imp_left .inl⟩
    rintro first last (hOld | hNew)
    · exact hBound hOld
    · omega

theorem Apart.le (h : Apart lo stop children) : lo ≤ stop := by
  induction children generalizing lo with
  | nil => exact h
  | cons c children ih =>
    have hStop := ih h.2.2
    have hStart := h.1
    have hLast := h.2.1
    omega

theorem Apart.mem (h : Apart lo stop children) {r : Region} (hr : r ∈ children) :
    lo ≤ r.start ∧ r.last < stop := by
  induction children generalizing lo with
  | nil => cases hr
  | cons c children ih =>
    obtain ⟨hStart, hLast, hRest⟩ := h
    rcases mem_cons.mp hr with rfl | hr
    · exact ⟨hStart, hRest.le⟩
    · have hIn := ih hRest hr
      omega

/-- A free range lies in front of the first child or behind it. -/
theorem Apart.freeRange_cons {c : Region} (h : Apart lo stop (c :: children)) :
    FreeRange lo stop (c :: children) first last' ↔
      (lo ≤ first ∧ first ≤ last' ∧ last' < c.start) ∨
      FreeRange (c.last + 1) stop children first last' := by
  obtain ⟨hStart, hLast, hRest⟩ := h
  have hStop := hRest.le
  simp only [FreeRange, List.forall_mem_cons]
  constructor
  · rintro ⟨hFirst, hLe, hLt, hFront | hBehind, hOther⟩
    · exact .inl ⟨hFirst, hLe, hFront⟩
    · exact .inr ⟨hBehind, hLe, hLt, hOther⟩
  rintro (⟨hFirst, hLe, hFront⟩ | ⟨hFirst, hLe, hLt, hOther⟩)
  · refine ⟨hFirst, hLe, by omega, .inl hFront, fun r hr => .inl ?_⟩
    have hIn := hRest.mem hr
    omega
  · exact ⟨by omega, hLe, hLt, .inr hFirst, hOther⟩

theorem behind_eq {r : Region} (hSound : r.start ≤ r.last ∧ r.last ≤ maxAddress) :
    behind r = (r.last + 1) % 2 ^ 64 := by
  simp only [behind, resourceSize, maxAddress] at *
  omega

theorem largestSpace_largest (hb : b.start ≤ b.last ∧ b.last ≤ maxAddress)
    (hLast : last.start ≤ last.last ∧ last.last ≤ maxAddress)
    (hApart : Apart lo (b.last + 1) children)
    (hEnd : children = [] → lo = last.last + 1)
    (hList : children ≠ [] → children.getLast? = some last)
    (h : Largest P size ret) :
    ∃ size', Largest (fun first last => P first last ∨
      FreeRange lo (b.last + 1) children first last) size'
      (largestSpace b last children (lo % 2 ^ 64) size ret) := by
  induction children generalizing lo size ret P with
  | nil =>
    have hLo : lo ≤ b.last + 1 := hApart
    have hBehind : behind last = lo % 2 ^ 64 := hEnd rfl ▸ behind_eq hLast
    have hSize : (b.start + resourceSize b + 2 ^ 64 - behind last) % 2 ^ 64 = b.last + 1 - lo := by
      have hLo' := hEnd rfl
      simp only [hBehind, resourceSize, maxAddress] at *
      omega
    have hRun : largestSpace b last [] (lo % 2 ^ 64) size ret =
        if size < b.last + 1 - lo then some (lo, b.last) else ret := by
      rw [largestSpace, hSize]
      split_ifs
      · rw [hBehind, Nat.mod_eq_of_lt (by unfold maxAddress at hb; omega)]
      · rfl
    rw [hRun]
    exact ⟨_, (h.gap lo (b.last + 1)).congr (by simp [FreeRange])⟩
  | cons c children ih =>
    have hCons {first last} := @Apart.freeRange_cons children lo (b.last + 1) first last c hApart
    obtain ⟨hStart, hSound, hRest⟩ := hApart
    have hStop := hRest.le
    have hBehind : behind c = (c.last + 1) % 2 ^ 64 := behind_eq ⟨hSound, by omega⟩
    have hSize : (c.start + 2 ^ 64 - lo % 2 ^ 64) % 2 ^ 64 = c.start - lo := by
      unfold maxAddress at hb
      omega
    have hRun : largestSpace b last (c :: children) (lo % 2 ^ 64) size ret =
        largestSpace b last children ((c.last + 1) % 2 ^ 64)
          (if size < c.start - lo then c.start - lo else size)
          (if size < c.start - lo then some (lo, c.start - 1) else ret) := by
      rw [largestSpace, hSize, hBehind]
      split_ifs
      · have hFree : lo % 2 ^ 64 = lo ∧ (c.start + maxAddress) % 2 ^ 64 = c.start - 1 := by
          unfold maxAddress at *
          omega
        rw [hFree.1, hFree.2]
      · rfl
    have hEnd' : children = [] → c.last + 1 = last.last + 1 := by
      rintro rfl
      cases hList (by simp)
      rfl
    have hList' : children ≠ [] → children.getLast? = some last := by
      intro hNe
      rw [← hList (by simp), getLast?_cons_of_ne_nil hNe]
    obtain ⟨size', hLargest⟩ := ih hRest hEnd' hList' (h.gap lo c.start)
    refine ⟨size', hRun ▸ hLargest.congr fun first last => ?_⟩
    rw [hCons, or_assoc]

end Scan

section Banks
variable {t : Tree} {id bank : Nat} {b r : Region}

theorem WellFormed.apart (h : WellFormed t) {ids : List Nat}
    (hIds : ids.Sublist (t.children id)) {lo stop : Nat}
    (hLe : lo ≤ stop)
    (hIn : ∀ c ∈ ids, ∀ rc, t.region c = some rc → lo ≤ rc.start ∧ rc.last < stop) :
    Apart lo stop (ids.filterMap t.region) := by
  induction ids generalizing lo with
  | nil => exact hLe
  | cons c ids ih =>
    obtain ⟨-, rc, -, hc, -⟩ := h.linked (hIds.subset (.head _))
    obtain ⟨hStart, hStop⟩ := hIn c (.head _) rc hc
    rw [filterMap_cons_some hc]
    refine ⟨hStart, (h.sound hc).1, ih (sublist_of_cons_sublist hIds) hStop fun d hd rd hRd => ?_⟩
    have hPair : [c, d].Sublist (t.children id) :=
      ((singleton_sublist.mpr hd).cons_cons c).trans hIds
    exact ⟨h.sorted hPair hc hRd, (hIn d (.tail _ hd) rd hRd).2⟩

theorem Largest.isSome_iff {lo stop size : Nat} {children : List Region} {ret : Option (Nat × Nat)}
    (h : Largest (FreeRange lo stop children) size ret) :
    ret.isSome = true ↔ ∃ a, FreeRange lo stop children a a := by
  refine ⟨fun hSome => ?_, fun ⟨a, ha⟩ => ?_⟩
  · obtain ⟨⟨first, last⟩, hRet⟩ := Option.isSome_iff_exists.mp hSome
    obtain ⟨hFirst, hLe, hLt, hOther⟩ := (h.reached hRet).1
    exact ⟨first, hFirst, le_rfl, by omega, fun r hr => (hOther r hr).imp_left (by omega)⟩
  cases hRet : ret with
  | some range => rfl
  | none =>
    have hOne := h.bound ha
    have hNone := h.unset hRet
    omega

theorem WellFormed.largest (h : WellFormed t) (hb : t.region bank = some b) :
    ∃ size, Largest (FreeRange b.start (b.last + 1) (childRegions t bank)) size
      (memoryBankFindSpace b (childRegions t bank)) := by
  have hSound := h.sound hb
  have hApart : Apart b.start (b.last + 1) (childRegions t bank) :=
    h.apart (Sublist.refl _) (by omega) fun c hc rc hRc => by
      have hIn := h.bounds_of_mem hc hb hRc
      omega
  unfold memoryBankFindSpace
  cases hLast : (childRegions t bank).getLast? with
  | none =>
    rw [getLast?_eq_none_iff.mp hLast]
    have hWhole := Largest.empty.gap b.start (b.last + 1)
    rw [if_pos (by omega), if_pos (by omega)] at hWhole
    exact ⟨_, hWhole.congr (by simp [FreeRange])⟩
  | some last =>
    have hMem := mem_of_getLast? hLast
    obtain ⟨c, -, hc⟩ := mem_filterMap.mp hMem
    obtain ⟨size, hLargest⟩ := largestSpace_largest hSound (h.sound hc) hApart
      (fun hNil => absurd (hNil ▸ hMem) not_mem_nil) (fun _ => hLast) Largest.empty
    rw [Nat.mod_eq_of_lt (by unfold maxAddress at hSound; omega)] at hLargest
    exact ⟨size, hLargest.congr (by simp)⟩

end Banks

/-- What is found in a bank is its largest free range. The first bank is the only one that is
looked at, so the outputs are set if and only if there is none or it has a free byte. -/
theorem memoryBankFirstFindSpace_set_iff {t : Tree} (h : WellFormed t)
    (hLive : ∀ bank ∈ t.banks, (t.region bank).isSome) :
    ((∀ bank b, t.region bank = some b → ∃ size,
      Largest (FreeRange b.start (b.last + 1) (childRegions t bank)) size
        (memoryBankFindSpace b (childRegions t bank))) ∧
      ∃ ret, memoryBankFirstFindSpace t = some ret ∧ (ret.1 = .ok () → ret.2.isSome = true)) ↔
    ∀ bank b, t.banks.head? = some bank → t.region bank = some b →
      ∃ a, FreeRange b.start (b.last + 1) (childRegions t bank) a a := by
  rw [and_iff_right fun bank b hb => h.largest hb]
  unfold memoryBankFirstFindSpace
  rcases hBanks : t.banks with _ | ⟨bank, banks⟩
  · exact iff_of_true ⟨_, rfl, nofun⟩ nofun
  obtain ⟨b, hb⟩ := Option.isSome_iff_exists.mp (hLive bank (hBanks ▸ (.head _)))
  obtain ⟨size, hLargest⟩ := h.largest hb
  have hOne := hLargest.isSome_iff
  simp only [hb, Option.map_some]
  constructor
  · rintro ⟨_, ⟨⟩, hSet⟩ _ _ ⟨⟩ hb'
    cases hb.symm.trans hb'
    exact hOne.mp (hSet rfl)
  · intro hFree
    exact ⟨_, rfl, fun _ => hOne.mpr (hFree bank b rfl hb)⟩

def bankOfTen : Tree :=
  { (emptyRoot 0 maxAddress []).link root [1] ⟨0, 9, [], 0, some root⟩ with banks := [1] }

theorem bankOfTen_wellFormed : WellFormed bankOfTen := by
  have hRoot : WellFormed (emptyRoot 0 maxAddress []) := emptyRoot_wellFormed (Nat.zero_le _) le_rfl
  have hRequest : requestRegion (emptyRoot 0 maxAddress []) root 0 9 [] 0 =
    some (.ok 1, { bankOfTen with banks := [] }) := rfl
  exact (requestRegion_spec hRoot hRequest).1.addBank rfl rfl fun _ _ => 0

/-- The same bank with two requested regions. -/
def sharedBank : Tree :=
  (bankOfTen.link 1 [2] ⟨1, 2, [], 0, some 1⟩).link 1 [2, 3] ⟨6, 8, [], 0, some 1⟩

theorem sharedBank_wellFormed : WellFormed sharedBank := by
  have hFirst : requestRegion bankOfTen 1 1 2 [] 0 =
    some (.ok 2, bankOfTen.link 1 [2] ⟨1, 2, [], 0, some 1⟩) := rfl
  have hSecond : requestRegion (bankOfTen.link 1 [2] ⟨1, 2, [], 0, some 1⟩) 1 6 8 [] 0 =
    some (.ok 3, sharedBank) := rfl
  exact (requestRegion_spec (requestRegion_spec bankOfTen_wellFormed hFirst).1 hSecond).1

/-- Of the three free ranges of that bank, the middle one is the largest and is found. -/
theorem memoryBankFirstFindSpace_set_iff_shared :
    memoryBankFirstFindSpace sharedBank = some (.ok (), some (3, 5)) ∧
      ∀ first last, FreeRange 0 10 (childRegions sharedBank 1) first last →
      last - first ≤ 5 - 3 := by
  have hFree : ∀ bank b, sharedBank.banks.head? = some bank → sharedBank.region bank = some b →
      ∃ a, FreeRange b.start (b.last + 1) (childRegions sharedBank bank) a a := by
    rintro _ _ ⟨⟩ ⟨⟩
    exact ⟨4, by decide, le_rfl, by decide, by decide⟩
  obtain ⟨hLargest, -⟩ :=
    (memoryBankFirstFindSpace_set_iff sharedBank_wellFormed (by decide)).mpr hFree
  obtain ⟨size, hSize⟩ := hLargest 1 _ rfl
  have hFound : memoryBankFindSpace ⟨0, 9, [], 0, some root⟩ (childRegions sharedBank 1) =
      some (3, 5) := by
    decide +kernel
  refine ⟨by decide +kernel, fun first last hRange => ?_⟩
  have hReached := (hSize.reached hFound).2
  have hBound := hSize.bound hRange
  omega

def filledBank : Tree := bankOfTen.link 1 [2] ⟨0, 9, [], 0, some 1⟩

theorem memoryBankFirstFindSpace_unset :
    WellFormed filledBank ∧ memoryBankFirstFindSpace filledBank = some (.ok (), none) := by
  have hRequest : requestRegion bankOfTen 1 0 9 [] 0 = some (.ok 2, filledBank) := rfl
  exact ⟨(requestRegion_spec bankOfTen_wellFormed hRequest).1, by decide +kernel⟩

end Barebox.Resource
