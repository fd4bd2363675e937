import Barebox.Resource.Tree
import Mathlib.Data.List.Nodup

/-! Well-formed resource trees, and the three edits that every operation is made
of: changing the bounds of a resource, linking a new one, and unlinking one. -/
namespace Barebox.Resource
open List Function

theorem pair_sublist_insert {α : Type*} {front back : List α}
    {x a b : α} (h : [a, b].Sublist (front ++ x :: back)) :
    [a, b].Sublist (front ++ back) ∨ (a = x ∧ b ∈ back) ∨ (b = x ∧ a ∈ front) := by
  induction front with
  | nil =>
    rcases sublist_cons_iff.mp h with h | ⟨rest, hEq, h⟩
    · exact .inl h
    · cases hEq
      exact .inr (.inl ⟨rfl, singleton_sublist.mp h⟩)
  | cons y front ih =>
    rw [cons_append] at h
    rcases sublist_cons_iff.mp h with h | ⟨rest, hEq, h⟩
    · rcases ih h with h | h | ⟨hb, ha⟩
      · exact .inl (h.cons y)
      · exact .inr (.inl h)
      · exact .inr (.inr ⟨hb, mem_cons_of_mem y ha⟩)
    cases hEq
    have hMem := singleton_sublist.mp h
    simp only [mem_append, mem_cons] at hMem
    rcases hMem with hFront | rfl | hBack
    · exact .inl (Sublist.cons_cons a (singleton_sublist.mpr (mem_append_left _ hFront)))
    · exact .inr (.inr ⟨rfl, (.head _)⟩)
    · exact .inl (Sublist.cons_cons a (singleton_sublist.mpr (mem_append_right _ hBack)))

theorem pair_sublist_total {α : Type*} {l : List α} {a b : α}
    (ha : a ∈ l) (hb : b ∈ l) (hNe : a ≠ b) :
    [a, b].Sublist l ∨ [b, a].Sublist l := by
  obtain ⟨front, back, rfl⟩ := append_of_mem ha
  simp only [mem_append, mem_cons] at hb
  rcases hb with hb | rfl | hb
  · exact .inr ((singleton_sublist.mpr hb).append (singleton_sublist.mpr (.head _)))
  · exact absurd rfl hNe
  · exact .inl ((Sublist.cons_cons a (singleton_sublist.mpr hb)).trans (sublist_append_right _ _))

/-- A resource after one was written: that one, or one that was there before. -/
theorem region_update {f : Nat → Option Region} {id k : Nat}
    {r rk : Region} (h : update f id (some r) k = some rk) :
    (k = id ∧ rk = r) ∨ (k ≠ id ∧ f k = some rk) := by
  by_cases hk : k = id
  · subst hk
    rw [update_self] at h
    exact .inl ⟨rfl, (Option.some.inj h).symm⟩
  · exact .inr ⟨hk, (update_of_ne hk _ _).symm.trans h⟩

theorem region_of_unlink {t : Tree} {p id k : Nat} {rk : Region}
    (h : (t.unlink p id).region k = some rk) :
    k ≠ id ∧ t.region k = some rk := by
  by_cases hk : k = id
  · simp [hk, Tree.unlink] at h
  · exact ⟨hk, (update_of_ne hk _ _).symm.trans h⟩

theorem unlink_children_sublist (t : Tree) (p id q : Nat) :
    (t.unlink p id).children q <+ t.children q := by
  by_cases hq : q = p
  · simp [hq, Tree.unlink, erase_sublist]
  · simp [Tree.unlink, update_of_ne hq]

/-- The children of every resource are linked to it, lie inside it and follow each
other without overlap. The resources of the banks are children of the root. -/
structure WellFormed (t : Tree) : Prop where
  sound : ∀ {id r}, t.region id = some r → r.start ≤ r.last ∧ r.last ≤ maxAddress
  linked : ∀ {p c}, c ∈ t.children p → ∃ rp rc, t.region p = some rp ∧ t.region c = some rc ∧
    rc.parent = some p ∧ rp.start ≤ rc.start ∧ rc.last ≤ rp.last
  listed : ∀ {c rc p}, t.region c = some rc → rc.parent = some p → c ∈ t.children p
  older : ∀ {c rc p}, t.region c = some rc → rc.parent = some p → p < c
  sorted : ∀ {p a b ra rb}, [a, b].Sublist (t.children p) → t.region a = some ra →
    t.region b = some rb →
    ra.last < rb.start
  fresh : ∀ {id}, t.next ≤ id → t.region id = none
  banked : ∀ {b rb}, b ∈ t.banks → t.region b = some rb → rb.parent = some root
  bankAge : ∀ {b}, b ∈ t.banks → b < t.next

namespace WellFormed
variable {t : Tree} {id p : Nat} {r r' rp : Region} (h : WellFormed t)
include h

theorem parent_of_mem {c : Nat} {rc : Region} (hMem : c ∈ t.children p)
    (hc : t.region c = some rc) :
    rc.parent = some p := by
  obtain ⟨-, rc', -, hc', hParent, -⟩ := h.linked hMem
  rw [hc] at hc'
  cases hc'
  exact hParent

theorem bounds_of_mem {c : Nat} {rc : Region} (hMem : c ∈ t.children p) (hp : t.region p = some rp)
    (hc : t.region c = some rc) : rp.start ≤ rc.start ∧ rc.last ≤ rp.last := by
  obtain ⟨rp', rc', hp', hc', -, hIn⟩ := h.linked hMem
  rw [hp] at hp'
  rw [hc] at hc'
  cases hp'
  cases hc'
  exact hIn

theorem nodup (p : Nat) : (t.children p).Nodup := by
  rw [nodup_iff_sublist]
  intro a hPair
  obtain ⟨-, ra, -, ha, -⟩ := h.linked (hPair.subset (.head _))
  have hLt := h.sorted hPair ha ha
  have hSound := h.sound ha
  omega

theorem children_of_none (hNone : t.region p = none) : t.children p = [] := by
  refine eq_nil_iff_forall_not_mem.mpr fun c hc => ?_
  obtain ⟨_, _, hp, -⟩ := h.linked hc
  rw [hNone] at hp
  cases hp

theorem children_next : t.children t.next = [] := h.children_of_none (h.fresh le_rfl)

variable (hr : t.region id = some r)
include hr

theorem lt_next : id < t.next := by
  by_contra hLe
  rw [h.fresh (Nat.le_of_not_lt hLe)] at hr
  cases hr

theorem setRegion (hParent : r'.parent = r.parent)
    (hSound : r'.start ≤ r'.last ∧ r'.last ≤ maxAddress)
    (hKids : ∀ k rk, k ∈ t.children id → t.region k = some rk →
      r'.start ≤ rk.start ∧ rk.last ≤ r'.last)
    (hUp : ∀ p rp, r.parent = some p → t.region p = some rp →
      rp.start ≤ r'.start ∧ r'.last ≤ rp.last)
    (hBefore : ∀ p a ra, [a, id].Sublist (t.children p) → t.region a = some ra → ra.last < r'.start)
    (hAfter : ∀ p b rb, [id, b].Sublist (t.children p) → t.region b = some rb →
      r'.last < rb.start) :
    WellFormed (t.setRegion id r') := by
  have hSelf : (t.setRegion id r').region id = some r' := update_self _ _ _
  have hOther : ∀ {k}, k ≠ id → (t.setRegion id r').region k = t.region k := fun hk =>
    update_of_ne hk _ _
  -- A resource of the new tree has a counterpart in the old one with the same parent.
  have hOld : ∀ {k rk}, (t.setRegion id r').region k = some rk →
      ∃ rk', t.region k = some rk' ∧ rk.parent = rk'.parent := by
    intro k rk hk
    obtain ⟨rfl, rfl⟩ | ⟨-, hk⟩ := region_update hk
    · exact ⟨r, hr, hParent⟩
    · exact ⟨rk, hk, rfl⟩
  refine ⟨?_, ?_, ?_, ?_, ?_, ?_, ?_, h.bankAge⟩
  · intro k rk hk
    obtain ⟨rfl, rfl⟩ | ⟨-, hk⟩ := region_update hk
    · exact hSound
    · exact h.sound hk
  · intro p c hMem
    obtain ⟨rp, rc, hp, hc, hLink, hIn⟩ := h.linked hMem
    have hNe : c ≠ p := Nat.ne_of_gt (h.older hc hLink)
    by_cases hcId : c = id
    · subst hcId
      have hpId := hNe.symm
      rw [hr] at hc
      cases hc
      exact ⟨rp, r', (hOther hpId).trans hp, hSelf, hParent.trans hLink, hUp p rp hLink hp⟩
    · by_cases hpId : p = id
      · subst hpId
        exact ⟨r', rc, hSelf, (hOther hcId).trans hc, hLink, hKids c rc hMem hc⟩
      · exact ⟨rp, rc, (hOther hpId).trans hp, (hOther hcId).trans hc, hLink, hIn⟩
  · intro c rc p hc hp
    obtain ⟨rc', hc', hSame⟩ := hOld hc
    exact h.listed hc' (hSame ▸ hp)
  · intro c rc p hc hp
    obtain ⟨rc', hc', hSame⟩ := hOld hc
    exact h.older hc' (hSame ▸ hp)
  · intro p a b ra rb hPair ha hb
    obtain ⟨rfl, rfl⟩ | ⟨-, hOldA⟩ := region_update ha
    · obtain ⟨rfl, -⟩ | ⟨-, hOldB⟩ := region_update hb
      · exact absurd hPair (nodup_iff_sublist.mp (h.nodup p) b)
      · exact hAfter p b rb hPair hOldB
    · obtain ⟨rfl, rfl⟩ | ⟨-, hOldB⟩ := region_update hb
      · exact hBefore p a ra hPair hOldA
      · exact h.sorted hPair hOldA hOldB
  · intro k hk
    rw [hOther (Nat.ne_of_gt (Nat.lt_of_lt_of_le (h.lt_next hr) hk))]
    exact h.fresh hk
  · intro b rb hMem hb
    obtain ⟨rb', hb', hSame⟩ := hOld hb
    exact hSame ▸ h.banked hMem hb'

theorem shrink (hParent : r'.parent = r.parent)
    (hBounds : r.start ≤ r'.start ∧ r'.start ≤ r'.last ∧ r'.last ≤ r.last)
    (hKids : ∀ k rk, k ∈ t.children id → t.region k = some rk →
      r'.start ≤ rk.start ∧ rk.last ≤ r'.last) :
    WellFormed (t.setRegion id r') := by
  have hSound := h.sound hr
  refine h.setRegion hr hParent ⟨hBounds.2.1, by omega⟩ hKids ?_ ?_ ?_
  · intro p rp hp hRp
    have hIn := h.bounds_of_mem (h.listed hr hp) hRp hr
    omega
  · intro p a ra hPair ha
    have hLt := h.sorted hPair ha hr
    omega
  · intro p b rb hPair hb
    have hLt := h.sorted hPair hr hb
    omega

theorem unlink (hParent : r.parent = some p) (hKids : t.children id = []) :
    WellFormed (t.unlink p id) := by
  have hOther : ∀ {k}, k ≠ id → (t.unlink p id).region k = t.region k := fun hk =>
    update_of_ne hk _ _
  have hList : (t.unlink p id).children p = (t.children p).erase id := update_self _ _ _
  have hLists : ∀ {q}, q ≠ p → (t.unlink p id).children q = t.children q := fun hq =>
    update_of_ne hq _ _
  have hSub := unlink_children_sublist t p id
  have hKept : ∀ {q c}, c ∈ (t.unlink p id).children q → c ≠ id := by
    rintro q c hc rfl
    by_cases hq : q = p
    · subst hq
      rw [hList] at hc
      exact (h.nodup q).not_mem_erase hc
    · have hq' := h.parent_of_mem ((hSub q).subset hc) hr
      grind
  refine ⟨fun hk => h.sound (region_of_unlink hk).2, ?_, ?_,
    fun hc => h.older (region_of_unlink hc).2, ?_, ?_, ?_, h.bankAge⟩
  · intro q c hMem
    have hMem' := (hSub q).subset hMem
    obtain ⟨rq, rc, hq, hc, hLink, hIn⟩ := h.linked hMem'
    have hqId : q ≠ id := by
      rintro rfl
      rw [hKids] at hMem'
      cases hMem'
    exact ⟨rq, rc, (hOther hqId).trans hq, (hOther (hKept hMem)).trans hc, hLink, hIn⟩
  · intro c rc q hc hq
    obtain ⟨hNe, hc⟩ := region_of_unlink hc
    have hMem := h.listed hc hq
    by_cases hqp : q = p
    · grind
    · rwa [hLists hqp]
  · intro q a b ra rb hPair ha hb
    exact h.sorted (hPair.trans (hSub q)) (region_of_unlink ha).2 (region_of_unlink hb).2
  · intro k hk
    rw [hOther (Nat.ne_of_gt (Nat.lt_of_lt_of_le (h.lt_next hr) hk))]
    exact h.fresh hk
  · exact fun hMem hb => h.banked hMem (region_of_unlink hb).2

omit hr

theorem link (hp : t.region p = some rp) {front back : List Nat}
    (hList : t.children p = front ++ back)
    (hParent : r.parent = some p)
    (hBounds : rp.start ≤ r.start ∧ r.start ≤ r.last ∧ r.last ≤ rp.last)
    (hFront : ∀ a ∈ front, ∀ ra, t.region a = some ra → ra.last < r.start)
    (hBack : ∀ b ∈ back, ∀ rb, t.region b = some rb → r.last < rb.start) :
    WellFormed (t.link p (front ++ t.next :: back) r) := by
  have hSelf : (t.link p (front ++ t.next :: back) r).region t.next = some r := update_self _ _ _
  have hOther : ∀ {k}, k ≠ t.next → (t.link p (front ++ t.next :: back) r).region k = t.region k :=
    fun hk =>
    update_of_ne hk _ _
  have hChildren : (t.link p (front ++ t.next :: back) r).children p = front ++ t.next :: back :=
    update_self _ _ _
  have hLists : ∀ {q}, q ≠ p → (t.link p (front ++ t.next :: back) r).children q = t.children q :=
    fun hq =>
    update_of_ne hq _ _
  have hpLt := h.lt_next hp
  have hOld : ∀ {q c}, c ∈ t.children q → c ≠ t.next := by
    intro q c hMem
    obtain ⟨_, _, -, hc, -⟩ := h.linked hMem
    exact Nat.ne_of_lt (h.lt_next hc)
  have hParentSound := h.sound hp
  have hMemOf : ∀ {c}, c ∈ front ++ t.next :: back → c = t.next ∨ c ∈ t.children p := by
    intro c hc
    simp only [hList, mem_append, mem_cons] at hc ⊢
    tauto
  refine ⟨?_, ?_, ?_, ?_, ?_, ?_, ?_, fun hb => Nat.lt_succ_of_lt (h.bankAge hb)⟩
  · intro k rk hk
    obtain ⟨rfl, rfl⟩ | ⟨-, hk⟩ := region_update hk
    · exact ⟨hBounds.2.1, by omega⟩
    · exact h.sound hk
  · intro q c hMem
    have hOldLink : c ∈ t.children q → ∃ rq rc, (t.link p (front ++ t.next :: back) r).region q =
        some rq ∧
        (t.link p (front ++ t.next :: back) r).region c = some rc ∧
        rc.parent = some q ∧ rq.start ≤ rc.start ∧ rc.last ≤ rq.last := by
      intro hMem
      obtain ⟨rq, rc, hq, hc, hLink⟩ := h.linked hMem
      exact ⟨rq, rc, (hOther (Nat.ne_of_lt (h.lt_next hq))).trans hq,
        (hOther (Nat.ne_of_lt (h.lt_next hc))).trans hc, hLink⟩
    by_cases hq : q = p
    · subst hq
      rw [hChildren] at hMem
      rcases hMemOf hMem with rfl | hMem
      · exact ⟨rp, r, (hOther (Nat.ne_of_lt hpLt)).trans hp, hSelf, hParent, hBounds.1, hBounds.2.2⟩
      · exact hOldLink hMem
    · exact hOldLink (hLists hq ▸ hMem)
  · intro c rc q hc hq
    obtain ⟨rfl, rfl⟩ | ⟨-, hc⟩ := region_update hc
    · rw [hParent] at hq
      cases hq
      simp [hChildren]
    have hMem := h.listed hc hq
    by_cases hqp : q = p
    · subst hqp
      rw [hList] at hMem
      rw [hChildren]
      simp only [mem_append, mem_cons] at hMem ⊢
      tauto
    · rwa [hLists hqp]
  · intro c rc q hc hq
    obtain ⟨rfl, rfl⟩ | ⟨-, hc⟩ := region_update hc
    · rw [hParent] at hq
      cases hq
      exact hpLt
    · exact h.older hc hq
  · intro q a b ra rb hPair ha hb
    have hOldSorted : [a, b].Sublist (t.children q) → ra.last < rb.start := by
      intro hPair
      have haNe := hOld (hPair.subset (.head _))
      have hbNe := hOld (hPair.subset (.tail _ (.head _)))
      exact h.sorted hPair (hOther haNe ▸ ha) (hOther hbNe ▸ hb)
    by_cases hq : q = p
    · subst hq
      rw [hChildren] at hPair
      have hIn : ∀ {c}, c ∈ front ∨ c ∈ back → c ≠ t.next := fun hc =>
        hOld (q := q) (hList ▸ mem_append.mpr hc)
      rcases pair_sublist_insert hPair with hPair | ⟨rfl, hMem⟩ | ⟨rfl, hMem⟩
      · exact hOldSorted (hList ▸ hPair)
      · rw [hSelf] at ha
        cases ha
        exact hBack b hMem rb (hOther (hIn (.inr hMem)) ▸ hb)
      · rw [hSelf] at hb
        cases hb
        exact hFront a hMem ra (hOther (hIn (.inl hMem)) ▸ ha)
    · exact hOldSorted (hLists hq ▸ hPair)
  · intro k hk
    rw [hOther (Nat.ne_of_gt hk)]
    exact h.fresh (Nat.le_of_lt hk)
  · intro b rb hMem hb
    exact h.banked hMem (hOther (Nat.ne_of_lt (h.bankAge hMem)) ▸ hb)

theorem merge {a b : Nat} {ra rb m : Region} (ha : t.region a = some ra) (hb : t.region b = some rb)
    (hpa : ra.parent = some p) (hpb : rb.parent = some p) (hKids : t.children b = [])
    (hParent : m.parent = ra.parent)
    (hBounds : (ra.last + 1 = rb.start ∧ m.start = ra.start ∧ m.last = rb.last) ∨
      (rb.last + 1 = ra.start ∧ m.start = rb.start ∧ m.last = ra.last)) :
    WellFormed ((t.setRegion a m).unlink p b) := by
  have hSa := h.sound ha
  have hSb := h.sound hb
  have hNe : a ≠ b := by
    rintro rfl
    rw [ha] at hb
    cases hb
    omega
  have hSwap : (t.setRegion a m).unlink p b = (t.unlink p b).setRegion a m := by
    simp only [Tree.setRegion, Tree.unlink, update_comm hNe]
  have hUnlinked := h.unlink hb hpb hKids
  have hSub := unlink_children_sublist t p b
  have haIn := h.listed ha hpa
  have hbIn := h.listed hb hpb
  -- The freed child does not overlap another child of its parent.
  have hApart : ∀ q x rx, x ∈ t.children q → a ∈ t.children q → (t.unlink p b).region x = some rx →
      t.region x = some rx ∧ rx.start ≤ rx.last ∧ (rx.last < rb.start ∨ rb.last < rx.start) := by
    intro q x rx hx haq hRx
    obtain ⟨hxNe, hRx⟩ := region_of_unlink hRx
    obtain rfl : p = q := Option.some.inj (hpa.symm.trans (h.parent_of_mem haq ha))
    refine ⟨hRx, (h.sound hRx).1, ?_⟩
    rcases pair_sublist_total hx hbIn hxNe with hOrder | hOrder
    · exact .inl (h.sorted hOrder hRx hb)
    · exact .inr (h.sorted hOrder hb hRx)
  rw [hSwap]
  refine hUnlinked.setRegion (r := ra) ?_ hParent ⟨by omega, by omega⟩ ?_ ?_ ?_ ?_
  · simp only [Tree.unlink, update_of_ne hNe, ha]
  · intro k rk hk hRk
    have hIn := h.bounds_of_mem ((hSub a).subset hk) ha (region_of_unlink hRk).2
    omega
  · intro q rq hq hRq
    rw [hpa] at hq
    cases hq
    have hInA := h.bounds_of_mem haIn (region_of_unlink hRq).2 ha
    have hInB := h.bounds_of_mem hbIn (region_of_unlink hRq).2 hb
    omega
  · intro q x rx hPair hRx
    have hPair := hPair.trans (hSub q)
    obtain ⟨hRx, hSx, hB⟩ :=
      hApart q x rx (hPair.subset (.head _)) (hPair.subset (.tail _ (.head _))) hRx
    have hLt := h.sorted hPair hRx ha
    omega
  · intro q x rx hPair hRx
    have hPair := hPair.trans (hSub q)
    obtain ⟨hRx, hSx, hB⟩ :=
      hApart q x rx (hPair.subset (.tail _ (.head _))) (hPair.subset (.head _)) hRx
    have hLt := h.sorted hPair ha hRx
    omega

end WellFormed
end Barebox.Resource
