import Barebox.Resource.Invariant

/-! What `release_region_range` leaves of the children of a resource. -/
namespace Barebox.Resource
open List Function

/-- The fields `type`, `attrs` and `runtime` of a resource. No function on the tree
writes them. -/
structure Marks where
  type : Nat
  attrs : Nat
  runtime : Bool
  deriving DecidableEq

/-- The fields as `xzalloc` leaves them. -/
def Marks.zero : Marks := ⟨0, 0, false⟩

def Covers (t : Tree) (parent id : Nat) (r : Region) (a : Nat) : Prop :=
  id ∈ t.children parent ∧ t.region id = some r ∧ r.start ≤ a ∧ a ≤ r.last

/-- The children cover what they covered outside of the range, and what covers an
address is marked like what covered it before. -/
structure FreedExactly (marks : Nat → Marks) (t t' : Tree) (parent start last : Nat) : Prop where
  covered : ∀ a, (∃ id r, Covers t' parent id r a) ↔ (∃ id r, Covers t parent id r a) ∧
    ¬ (start ≤ a ∧ a ≤ last)
  kept : ∀ {a id r id' r'}, Covers t parent id r a → Covers t' parent id' r' a →
    r'.name = r.name ∧ r'.flags = r.flags ∧ marks id' = marks id

def Inside (start last : Nat) (r : Region) : Prop := r.start < start ∧ last < r.last

/-- What is left of a child: a part of it, in its own resource or in a new one. -/
structure Piece (t : Tree) (start last id : Nat) (r : Region) (id' : Nat) (r' : Region) : Prop where
  within : r.start ≤ r'.start ∧ r'.last ≤ r.last
  same : r'.name = r.name ∧ r'.flags = r.flags
  origin : id' = id ∨ t.next ≤ id' ∧ Inside start last r

structure Cutting (t₀ t : Tree) (parent start last : Nat) (ahead : List Nat) : Prop where
  next : t₀.next ≤ t.next
  pieces : ∀ {id' r'}, id' ∈ t.children parent → t.region id' = some r' →
    ∃ id r, id ∈ t₀.children parent ∧ t₀.region id = some r ∧ Piece t₀ start last id r id' r'
  outside : ∀ {id r a}, Covers t₀ parent id r a → ¬ (start ≤ a ∧ a ≤ last) →
    ∃ id' r', Covers t parent id' r' a
  freed : ∀ {id' r' a}, Covers t parent id' r' a → start ≤ a → a ≤ last → id' ∈ ahead
  same : ∀ {id}, id ∈ ahead → id ∈ t₀.children parent ∧ id ∈ t.children parent ∧
    t.region id = t₀.region id ∧ t.children id = []
  split : ∀ {id r}, id ∈ t₀.children parent → id ∉ ahead → t₀.region id = some r →
    Inside start last r →
    ∃ id' r', t₀.next ≤ id' ∧ Covers t parent id' r' r.last

theorem WellFormed.lt_next_of_mem {t : Tree} (h : WellFormed t)
    {p c : Nat} (hc : c ∈ t.children p) : c < t.next := by
  obtain ⟨-, rc, -, hrc, -⟩ := h.linked hc
  exact h.lt_next hrc

theorem WellFormed.ne_of_mem {t : Tree} (h : WellFormed t) {p c : Nat} (hc : c ∈ t.children p) :
    c ≠ p := by
  obtain ⟨-, rc, -, hrc, hParent, -⟩ := h.linked hc
  exact (h.older hrc hParent).ne'

section Loop
variable {t₀ t t' : Tree} {parent start last id : Nat} {ids : List Nat}
    {r : Region} (h₀ : WellFormed t₀)
  (hTree : WellFormed t) (h : Cutting t₀ t parent start last (id :: ids)) (hNew : id ∉ ids)
  (hr : t.region id = some r)
include h₀ hTree h hNew hr

theorem Cutting.replace (hNext : t.next ≤ t'.next)
    (hOther : ∀ c ≠ id, c < t.next → (c ∈ t'.children parent ↔ c ∈ t.children parent) ∧
      t'.region c = t.region c ∧
      (c ≠ parent → t'.children c = t.children c))
    (hPiece : ∀ {id' r'}, id' = id ∨ t.next ≤ id' → id' ∈ t'.children parent →
      t'.region id' = some r' →
      Piece t₀ start last id r id' r' ∧ ∀ a, start ≤ a → a ≤ last → ¬ (r'.start ≤ a ∧ a ≤ r'.last))
    (hLeft : ∀ a, r.start ≤ a → a ≤ r.last → ¬ (start ≤ a ∧ a ≤ last) →
      ∃ id' r', Covers t' parent id' r' a ∧ (Inside start last r → last < a → t₀.next ≤ id')) :
    Cutting t₀ t' parent start last ids := by
  have hKeep {id' r' a} (hNe : id' ≠ id) (hc : Covers t parent id' r' a) :
      Covers t' parent id' r' a := by
    obtain ⟨hMem, hReg, hIn⟩ := hc
    obtain ⟨hMem', hReg', -⟩ := hOther id' hNe (hTree.lt_next_of_mem hMem)
    exact ⟨hMem'.mpr hMem, hReg'.trans hReg, hIn⟩
  have hBack {id' r'} (hMem : id' ∈ t'.children parent) (hReg : t'.region id' = some r') :
      (id' = id ∨ t.next ≤ id') ∨ id' ≠ id ∧ id' ∈ t.children parent ∧ t.region id' = some r' := by
    by_cases hOwn : id' = id ∨ t.next ≤ id'
    · exact .inl hOwn
    · push Not at hOwn
      obtain ⟨hMem', hReg', -⟩ := hOther id' hOwn.1 hOwn.2
      exact .inr ⟨hOwn.1, hMem'.mp hMem, hReg'.symm.trans hReg⟩
  obtain ⟨hMem₀, -, hReg, -⟩ := h.same (.head _)
  have hr₀ : t₀.region id = some r := hReg.symm.trans hr
  refine ⟨h.next.trans hNext, ?_, ?_, ?_, ?_, ?_⟩
  · intro id' r' hMem' hReg'
    rcases hBack hMem' hReg' with hOwn | ⟨-, hOld, hOldReg⟩
    · exact ⟨id, r, hMem₀, hr₀, (hPiece hOwn hMem' hReg').1⟩
    · exact h.pieces hOld hOldReg
  · intro c rc a hc hOut
    obtain ⟨id', r', hCovers⟩ := h.outside hc hOut
    by_cases hOwn : id' = id
    · subst hOwn
      have hEq : r' = r := Option.some.inj (hCovers.2.1.symm.trans hr)
      subst hEq
      obtain ⟨id'', r'', hPart, -⟩ := hLeft a hCovers.2.2.1 hCovers.2.2.2 hOut
      exact ⟨id'', r'', hPart⟩
    · exact ⟨id', r', hKeep hOwn hCovers⟩
  · intro id' r' a hc hStart hLast
    rcases hBack hc.1 hc.2.1 with hOwn | ⟨hNe, hOld, hOldReg⟩
    · exact absurd hc.2.2 ((hPiece hOwn hc.1 hc.2.1).2 a hStart hLast)
    · exact (mem_cons.mp (h.freed ⟨hOld, hOldReg, hc.2.2⟩ hStart hLast)).resolve_left hNe
  · intro c hc
    obtain ⟨hc₀, hcMem, hcReg, hcKids⟩ := h.same (.tail _ hc)
    have hNe : c ≠ id := fun hEq => hNew (hEq ▸ hc)
    obtain ⟨hMem', hReg', hKids'⟩ := hOther c hNe (hTree.lt_next_of_mem hcMem)
    exact ⟨hc₀, hMem'.mpr hcMem, hReg'.trans hcReg, (hKids' (hTree.ne_of_mem hcMem)).trans hcKids⟩
  · intro c rc hc hAhead hcReg hInside
    by_cases hOwn : c = id
    · subst hOwn
      cases hcReg.symm.trans hr₀
      obtain ⟨id', r', hPart, hFresh⟩ :=
        hLeft r.last (h₀.sound hr₀).1 le_rfl (by unfold Inside at hInside; omega)
      exact ⟨id', r', hFresh hInside hInside.2, hPart⟩
    · obtain ⟨id', r', hFresh, hPart⟩ := h.split hc (by simp [hOwn, hAhead]) hcReg hInside
      have hOld := h₀.lt_next hr₀
      exact ⟨id', r', hFresh, hKeep (by omega) hPart⟩

theorem Cutting.setRegion {r' : Region} (hWithin : r.start ≤ r'.start ∧ r'.last ≤ r.last)
    (hSame : r'.name = r.name ∧ r'.flags = r.flags) (hInside : ¬ Inside start last r)
    (hLeft : ∀ a, r'.start ≤ a ∧ a ≤ r'.last ↔ (r.start ≤ a ∧ a ≤ r.last) ∧
      ¬ (start ≤ a ∧ a ≤ last)) :
    Cutting t₀ (t.setRegion id r') parent start last ids := by
  obtain ⟨-, hMem, -⟩ := h.same (.head _)
  have hOwn : (t.setRegion id r').region id = some r' := update_self ..
  refine h.replace h₀ hTree hNew hr le_rfl
    (fun c hNe _ => ⟨Iff.rfl, update_of_ne hNe _ _, fun _ => rfl⟩) ?_ ?_
  · intro id' r'' hEither hMem' hReg'
    obtain rfl : id' = id := hEither.resolve_right (Nat.not_le.mpr (hTree.lt_next_of_mem hMem'))
    cases hOwn.symm.trans hReg'
    exact ⟨⟨hWithin, hSame, .inl rfl⟩, fun a hStart hLast hIn =>
      ((hLeft a).mp hIn).2 ⟨hStart, hLast⟩⟩
  · intro a hStart hLast hOut
    exact ⟨id, r', ⟨hMem, hOwn, (hLeft a).mpr ⟨⟨hStart, hLast⟩, hOut⟩⟩,
      fun hIn => absurd hIn hInside⟩

theorem Cutting.unlink (hCovered : start ≤ r.start ∧ r.last ≤ last) :
    Cutting t₀ (t.unlink parent id) parent start last ids := by
  have hErase (c : Nat) : c ∈ (t.unlink parent id).children parent ↔
      c ≠ id ∧ c ∈ t.children parent := by
    simp [Tree.unlink, (hTree.nodup parent).mem_erase_iff]
  refine h.replace h₀ hTree hNew hr le_rfl
    (fun c hNe _ => ⟨by simp [hErase, hNe], update_of_ne hNe _ _,
    fun hOther => update_of_ne hOther _ _⟩) ?_ ?_
  · intro id' r' hEither hMem'
    obtain ⟨hNe, hOld⟩ := (hErase id').mp hMem'
    exact absurd (hTree.lt_next_of_mem hOld) (Nat.not_lt.mpr (hEither.resolve_left hNe))
  · intro a hStart hLast hOut
    exact absurd ⟨hCovered.1.trans hStart, hLast.trans hCovered.2⟩ hOut

theorem Cutting.split_child (hInside : Inside start last r) (hRange : start ≤ last) :
    Cutting t₀ ((t.setRegion id { r with last := start - 1 }).link parent
      ((t.children parent).flatMap fun c => if c = id then [id, t.next] else [c])
      { r with start := last + 1, parent := some parent }) parent start last ids := by
  obtain ⟨-, hMem, -⟩ := h.same (.head _)
  have hId := hTree.lt_next hr
  generalize hSplit : (t.setRegion id { r with last := start - 1 }).link parent
    ((t.children parent).flatMap fun c => if c = id then [id, t.next] else [c])
    { r with start := last + 1, parent := some parent } = t'
  have hList (c : Nat) : c ∈ t'.children parent ↔ c ∈ t.children parent ∨ c = t.next := by
    subst hSplit
    simp only [Tree.link, Tree.setRegion, update_self, mem_flatMap]
    constructor
    · rintro ⟨d, hd, hc⟩
      split_ifs at hc with hEq
      · subst hEq
        rcases mem_pair.mp hc with rfl | rfl
        · exact .inl hd
        · exact .inr rfl
      · exact .inl (mem_singleton.mp hc ▸ hd)
    · rintro (hc | rfl)
      · exact ⟨c, hc, by split_ifs with hEq <;> simp [hEq]⟩
      · exact ⟨id, hMem, by simp⟩
  have hLeftReg : t'.region id = some { r with last := start - 1 } := by
    subst hSplit
    simp [Tree.link, Tree.setRegion, hId.ne]
  have hRightReg : t'.region t.next = some { r with start := last + 1, parent := some parent } := by
    subst hSplit
    simp [Tree.link, Tree.setRegion]
  unfold Inside at hInside
  refine h.replace h₀ hTree hNew hr (by subst hSplit; exact Nat.le_succ _)
    (fun c hNe hc => ⟨?_, ?_, fun hOther => ?_⟩)
    ?_ ?_
  · simp [hList, hc.ne]
  · subst hSplit
    simp [Tree.link, Tree.setRegion, hNe, hc.ne]
  · subst hSplit
    exact update_of_ne hOther _ _
  · intro id' r' hEither hMem' hReg'
    have hNext := h.next
    rcases hEither with rfl | hFresh
    · cases hLeftReg.symm.trans hReg'
      exact ⟨⟨⟨le_rfl, by dsimp only; omega⟩, ⟨rfl, rfl⟩, .inl rfl⟩,
        fun a _ _ => by dsimp only; omega⟩
    obtain rfl : id' = t.next := ((hList id').mp hMem').resolve_left fun hOld => by
      have hLt := hTree.lt_next_of_mem hOld
      omega
    cases hRightReg.symm.trans hReg'
    exact ⟨⟨⟨by dsimp only; omega, le_rfl⟩, ⟨rfl, rfl⟩, .inr ⟨hNext, hInside⟩⟩,
      fun a _ _ => by dsimp only; omega⟩
  · intro a hStart hLast hOut
    by_cases hLow : a < start
    · exact ⟨id, _, ⟨(hList id).mpr (.inl hMem), hLeftReg, hStart, by dsimp only; omega⟩,
        fun _ _ => by omega⟩
    · exact ⟨t.next, _, ⟨(hList _).mpr (.inr rfl), hRightReg, by dsimp only; omega, hLast⟩,
        fun _ _ => h.next⟩

omit h₀ hTree h hNew hr
include h₀ hTree h hNew in
/-- One child: what is in the range is gone, the rest of it stays. -/
theorem Cutting.step {shouldFree : Region → Int} (hRange : start ≤ last)
    (hFree : ∀ r, 0 < shouldFree r) :
    ∃ t', releaseOne t parent start last shouldFree id = some (.ok true, t') ∧
      WellFormed t' ∧ Cutting t₀ t' parent start last ids := by
  obtain ⟨-, hMem, -, hKids⟩ := h.same (.head _)
  obtain ⟨-, r, -, hr, hParent, -⟩ := hTree.linked hMem
  have hCut : ∃ t', releaseOne t parent start last shouldFree id = some (.ok true, t') ∧
      Cutting t₀ t' parent start last ids := by
    simp only [releaseOne, hr, (hFree r).not_gt, (hFree r).ne', if_false]
    split_ifs with hApart
    · have hSelf : t.setRegion id r = t := by rw [Tree.setRegion, update_eq_self_iff.mpr hr.symm]
      refine ⟨t, rfl, hSelf ▸ h.setRegion h₀ hTree hNew hr
        ⟨le_rfl, le_rfl⟩ ⟨rfl, rfl⟩ ?_ fun a => ?_⟩
      · unfold Inside
        omega
      · omega
    unfold cutRegion
    by_cases hCovered : start ≤ r.start ∧ r.last ≤ last
    · refine ⟨_, ?_, h.unlink h₀ hTree hNew hr hCovered⟩
      simp [hCovered, releaseRegion, hr, hKids, hParent, Except.isOk, Except.toBool]
    simp only [if_neg hCovered, hKids, ne_eq, not_true_eq_false, if_false]
    by_cases hHead : start ≤ r.start
    · rw [if_pos hHead]
      refine ⟨_, rfl, h.setRegion h₀ hTree hNew hr ⟨by dsimp only; omega,
        le_rfl⟩ ⟨rfl, rfl⟩ ?_ fun a => ?_⟩
      · unfold Inside
        omega
      · dsimp only
        omega
    rw [if_neg hHead]
    by_cases hTail : r.last ≤ last
    · rw [if_pos hTail]
      refine ⟨_, rfl, h.setRegion h₀ hTree hNew hr ⟨le_rfl, by dsimp only; omega⟩
        ⟨rfl, rfl⟩ ?_ fun a => ?_⟩
      · unfold Inside
        omega
      · dsimp only
        omega
    · rw [if_neg hTail]
      exact ⟨_, rfl, h.split_child h₀ hTree hNew hr ⟨by omega, by omega⟩ hRange⟩
  obtain ⟨t', hOne, hNext⟩ := hCut
  exact ⟨t', hOne, (releaseOne_wellFormed hTree hRange hMem hOne).1, hNext⟩

include h₀ hTree in
/-- By induction on the children still to be cut. -/
theorem Cutting.run {shouldFree : Region → Int}
    (h : Cutting t₀ t parent start last ids) (hNodup : ids.Nodup)
    (hRange : start ≤ last) (hFree : ∀ r, 0 < shouldFree r) :
    ∃ t', releaseAll t parent start last shouldFree ids true = some (.done, t') ∧
    Cutting t₀ t' parent start last [] := by
  induction ids generalizing t with
  | nil => exact ⟨t, rfl, h⟩
  | cons id ids ih =>
    obtain ⟨hNew, hRest⟩ := nodup_cons.mp hNodup
    obtain ⟨t', hOne, hTree', hNext⟩ := h.step h₀ hTree hNew hRange hFree
    simp only [releaseAll, hOne, Bool.and_true]
    exact ih hTree' hNext hRest

end Loop

section Range
variable {t t' : Tree} {parent start last : Nat} {p : Region} {marks : Nat → Marks}

theorem WellFormed.covers_unique (h : WellFormed t) {a id id' : Nat}
    {r r' : Region} (hc : Covers t parent id r a)
    (hc' : Covers t parent id' r' a) : id' = id := by
  by_contra hNe
  rcases pair_sublist_total hc.1 hc'.1 (Ne.symm hNe) with hPair | hPair
  · have hLt := h.sorted hPair hc.2.1 hc'.2.1
    have hIn := hc.2.2
    have hIn' := hc'.2.2
    omega
  have hLt := h.sorted hPair hc'.2.1 hc.2.1
  have hIn := hc.2.2
  have hIn' := hc'.2.2
  omega

/-- After the loop, the range is free; the marks are right unless a child with marks
was split. -/
theorem Cutting.freedExactly_iff (h₀ : WellFormed t) (h : Cutting t t' parent start last [])
    (hFresh : ∀ id, t.next ≤ id → marks id = .zero) : FreedExactly marks t t' parent start last ↔
      ∀ id r, id ∈ t.children parent → t.region id = some r →
      Inside start last r → marks id = .zero := by
  constructor
  · intro hExact id r hMem hr hInside
    obtain ⟨id', r', hNew, hCovers⟩ := h.split hMem not_mem_nil hr hInside
    have hOwn : Covers t parent id r r.last := ⟨hMem, hr, (h₀.sound hr).1, le_rfl⟩
    rw [← (hExact.kept hOwn hCovers).2.2, hFresh id' hNew]
  intro hPlain
  have hOrigin {a id' r'} (hc : Covers t' parent id' r' a) :
      ∃ id r, Covers t parent id r a ∧ Piece t start last id r id' r' := by
    obtain ⟨id, r, hMem, hr, hPiece⟩ := h.pieces hc.1 hc.2.1
    have hIn := hc.2.2
    have hWithin := hPiece.within
    exact ⟨id, r, ⟨hMem, hr, by omega, by omega⟩, hPiece⟩
  refine ⟨fun a => ⟨?_, ?_⟩, ?_⟩
  · rintro ⟨id', r', hc⟩
    obtain ⟨id, r, hOld, -⟩ := hOrigin hc
    exact ⟨⟨id, r, hOld⟩, fun hIn => not_mem_nil (h.freed hc hIn.1 hIn.2)⟩
  · rintro ⟨⟨id, r, hc⟩, hOut⟩
    exact h.outside hc hOut
  intro a id r id' r' hc hc'
  obtain ⟨o, ro, hOld, hPiece⟩ := hOrigin hc'
  obtain rfl := h₀.covers_unique hc hOld
  cases hc.2.1.symm.trans hOld.2.1
  refine ⟨hPiece.same.1, hPiece.same.2, ?_⟩
  rcases hPiece.origin with rfl | ⟨hNew, hInside⟩
  · rfl
  · rw [hFresh id' hNew, hPlain o r hOld.1 hOld.2.1 hInside]

theorem Cutting.whole (hLeaf : ∀ c ∈ t.children parent, t.children c = []) :
    Cutting t t parent start last (t.children parent) where
  next := le_rfl
  pieces hMem hr := ⟨_, _, hMem, hr, ⟨⟨le_rfl, le_rfl⟩, ⟨rfl, rfl⟩, .inl rfl⟩⟩
  outside hc _ := ⟨_, _, hc⟩
  freed hc _ _ := hc.1
  same hMem := ⟨hMem, hMem, rfl, hLeaf _ hMem⟩
  split hMem hNot := absurd hMem hNot

end Range

def threePages : Tree := (emptyRoot 0 maxAddress []).link root [1] ⟨0, 12287, [], 0, some root⟩

/-- Three regions in a row, requested one after the other. -/
def threeRegions : Tree :=
  (((emptyRoot 0 maxAddress []).link root [1] ⟨0, 4999, [], 0, some root⟩).link root [1, 2]
    ⟨5000, 6999, [], 0, some root⟩).link root [1, 2, 3] ⟨7000, 12287, [], 0, some root⟩

theorem threeRegions_wellFormed : WellFormed threeRegions := by
  have hRoot : WellFormed (emptyRoot 0 maxAddress []) := emptyRoot_wellFormed (Nat.zero_le _) le_rfl
  have hFirst : requestRegion (emptyRoot 0 maxAddress []) root 0 4999 [] 0 = some (.ok 1, _) := rfl
  have hSecond : requestRegion ((emptyRoot 0 maxAddress []).link root [1]
      ⟨0, 4999, [], 0, some root⟩) root 5000
      6999 [] 0 = some (.ok 2, _) := rfl
  have hThird : requestRegion
      (((emptyRoot 0 maxAddress []).link root [1] ⟨0, 4999, [], 0, some root⟩).link root
      [1, 2] ⟨5000, 6999, [], 0, some root⟩) root 7000 12287 [] 0 =
        some (.ok 3, threeRegions) := rfl
  exact (requestRegion_spec (requestRegion_spec (requestRegion_spec hRoot hFirst).1 hSecond).1
    hThird).1

end Barebox.Resource
