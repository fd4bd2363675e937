import Mathlib.Data.List.Perm.Basic

/-! Lists that are kept sorted by insertion. -/
namespace Barebox.Lib
open List

universe u

variable {α : Type u} {compare : α → α → Int}

/-- `list_add_sort`: a new entry goes in front of the first one that does not
compare below it, or to the end. -/
def listAddSort (compare : α → α → Int) (new : α) : List α → List α
  | [] => [new]
  | pos :: rest =>
    if compare pos new < 0 then pos :: listAddSort compare new rest else new :: pos :: rest

theorem listAddSort_perm (new : α) (l : List α) : (listAddSort compare new l).Perm (new :: l) := by
  induction l with
  | nil => exact List.Perm.refl _
  | cons pos rest ih =>
    rw [listAddSort]
    split_ifs
    · exact (ih.cons pos).trans (List.Perm.swap new pos rest)
    · rfl

/-- An order survives an insertion if the comparison with the new entry tells on
which side of it an entry belongs. -/
theorem listAddSort_pairwise {R : α → α → Prop} (hTrans : ∀ a b c, R a b → R b c → R a c)
    {new : α} {l : List α} (hSorted : l.Pairwise R)
    (hBelow : ∀ pos ∈ l, compare pos new < 0 → R pos new)
    (hAbove : ∀ pos ∈ l, ¬compare pos new < 0 → R new pos) :
    (listAddSort compare new l).Pairwise R := by
  induction l with
  | nil => exact pairwise_singleton R new
  | cons pos rest ih =>
    obtain ⟨hFirst, hRest⟩ := pairwise_cons.mp hSorted
    rw [listAddSort]
    split_ifs with hCompare
    · have hTail := ih hRest (fun p hp => hBelow p (.tail _ hp)) (fun p hp => hAbove p (.tail _ hp))
      refine pairwise_cons.mpr ⟨fun p hp => ?_, hTail⟩
      rcases mem_cons.mp ((listAddSort_perm new rest).mem_iff.mp hp) with rfl | hp
      · exact hBelow pos (.head _) hCompare
      · exact hFirst p hp
    · have hNew := hAbove pos (.head _) hCompare
      exact pairwise_cons.mpr
        ⟨forall_mem_cons.mpr ⟨hNew, fun p hp => hTrans new pos p hNew (hFirst p hp)⟩, hSorted⟩

theorem listAddSort_sublist (new : α) (l : List α) : l <+ listAddSort compare new l := by
  induction l with
  | nil => exact nil_sublist _
  | cons pos rest ih =>
    rw [listAddSort]
    split_ifs
    · exact ih.cons_cons pos
    · exact sublist_cons_self new _

/-- The entries of `order` are added one after the other. -/
def listAddAll (compare : α → α → Int) (order l : List α) : List α :=
  order.foldl (fun l new => listAddSort compare new l) l

theorem listAddAll_perm (order l : List α) : listAddAll compare order l ~ l ++ order := by
  induction order generalizing l with
  | nil => simp [listAddAll]
  | cons new rest ih =>
    exact (ih _).trans (((listAddSort_perm new l).append_right rest).trans perm_middle.symm)

theorem listAddAll_sublist (order l : List α) : l <+ listAddAll compare order l := by
  induction order generalizing l with
  | nil => exact Sublist.refl _
  | cons new rest ih => exact (listAddSort_sublist new l).trans (ih _)

section Order
variable {R : α → α → Prop} {entries : List α} (hTrans : ∀ a b c, R a b → R b c → R a c)
    (hIrrefl : ∀ a, ¬R a a)
  (hNodup : entries.Nodup) (hTotal : ∀ a ∈ entries, ∀ b ∈ entries, a ≠ b → R a b ∨ R b a)
include hTrans hNodup hTotal in
theorem listAddAll_pairwise
    (hCompare : ∀ a ∈ entries, ∀ b ∈ entries, R a b → compare a b < 0 ∧ ¬compare b a < 0)
    {order l : List α} (hPerm : l ++ order ~ entries) (hSorted : l.Pairwise R) :
    (listAddAll compare order l).Pairwise R := by
  induction order generalizing l with
  | nil => exact hSorted
  | cons new rest ih =>
    have hNew : new ∈ entries := hPerm.subset (by simp)
    have hOld (pos) (h : pos ∈ l) : pos ∈ entries ∧ (R pos new ∨ R new pos) := by
      have hPos : pos ∈ entries := hPerm.subset (by simp [h])
      have hNe : pos ≠ new := (nodup_append.mp (hPerm.nodup_iff.mpr hNodup)).2.2 pos h new (by simp)
      exact ⟨hPos, hTotal pos hPos new hNew hNe⟩
    refine ih ((((listAddSort_perm new l).append_right rest).trans perm_middle.symm).trans hPerm)
      (listAddSort_pairwise hTrans hSorted (fun pos h hBelow => ?_) (fun pos h hAbove => ?_))
    · obtain ⟨hPos, hR | hR⟩ := hOld pos h
      · exact hR
      · exact absurd hBelow (hCompare new hNew pos hPos hR).2
    · obtain ⟨hPos, hR | hR⟩ := hOld pos h
      · exact absurd (hCompare pos hPos new hNew hR).1 hAbove
      · exact hR

include hTrans hIrrefl in
theorem compare_of_sorted {a b : α} {rest : List α} (hR : R a b)
    (hTo : (listAddAll compare (a :: b :: rest) []).Pairwise R)
    (hFrom : (listAddAll compare (b :: a :: rest) []).Pairwise R) :
    compare a b < 0 ∧ ¬compare b a < 0 := by
  have hNot : ¬R b a := fun h => hIrrefl a (hTrans a b a hR h)
  -- what is added later does not change the order of the two
  have hFirst := hTo.sublist (listAddAll_sublist rest (listAddSort compare b [a]))
  have hSecond := hFrom.sublist (listAddAll_sublist rest (listAddSort compare a [b]))
  simp only [listAddSort] at hFirst hSecond
  constructor
  · by_contra hCompare
    simp [hCompare, hNot] at hFirst
  · intro hCompare
    simp [hCompare, hNot] at hSecond

include hTrans hIrrefl hNodup hTotal in
/-- Every order of insertion gives the same sorted list exactly if the comparison of any
two entries tells their order, from both sides. -/
theorem listAddAll_unique_iff :
    (∃ sorted, Pairwise R sorted ∧ ∀ order, order ~ entries →
      listAddAll compare order [] = sorted) ↔
      ∀ a ∈ entries, ∀ b ∈ entries, R a b → compare a b < 0 ∧ ¬compare b a < 0 := by
  constructor
  · rintro ⟨sorted, hSorted, hAll⟩ a ha b hb hR
    classical
    have hNe : b ≠ a := fun h => hIrrefl a (h ▸ hR)
    have hPerm : entries ~ a :: b :: (entries.erase a).erase b :=
      (perm_cons_erase ha).trans ((perm_cons_erase ((mem_erase_of_ne hNe).mpr hb)).cons a)
    have hTo := hAll _ hPerm.symm ▸ hSorted
    have hFrom := hAll _ ((Perm.swap a b _).trans hPerm.symm) ▸ hSorted
    exact compare_of_sorted hTrans hIrrefl hR hTo hFrom
  · intro hCompare
    have hSorted order (h : order ~ entries) : (listAddAll compare order []).Pairwise R :=
      listAddAll_pairwise hTrans hNodup hTotal hCompare h .nil
    refine ⟨_, hSorted entries (Perm.refl _), fun order h => ?_⟩
    refine Perm.eq_of_pairwise (fun a b _ _ hab hba => absurd (hTrans a b a hab hba) (hIrrefl a))
      (hSorted order h)
      (hSorted entries (Perm.refl _)) ?_
    exact (listAddAll_perm order []).trans (h.trans (listAddAll_perm entries []).symm)

end Order
end Barebox.Lib
