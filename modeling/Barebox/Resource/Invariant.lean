import Barebox.Resource.Edits

/-! Every operation on resources keeps the tree well-formed, except merging with a
resource that has children and resizing a resource of all addresses. -/
namespace Barebox.Resource
open List Function Option

inductive Call where
  | request (parent start last : Nat) (name : List UInt8) (flags : Nat)
  | resize (id size : Nat)
  | release (id : Nat)
  | releaseRange (parent start size : Nat) (shouldFree : Region → Int)
  | merge (name : List UInt8) (a b : Nat)
  | addBank (name : List UInt8) (start size : Nat)

def Call.apply (t : Tree) : Call → Option Tree
  | .request parent start last name flags =>
      (requestRegion t parent start last name flags).map Prod.snd
  | .resize id size => (resizeRegion t id size).map Prod.snd
  | .release id => (releaseRegion t id).map Prod.snd
  | .releaseRange parent start size shouldFree =>
      (releaseRegionRange t parent start size shouldFree).map Prod.snd
  | .merge name a b => (mergeRegions t name a b).map Prod.snd
  | .addBank name start size => (bareboxAddMemoryBank t name start size).map Prod.snd

/-- The range of the call is not empty and does not wrap. -/
def Call.Proper : Call → Prop
  | .releaseRange _ start size _ => 0 < size ∧ start + size - 1 ≤ maxAddress
  | _ => True

/-- A merge of adjacent resources is one of siblings, the second of which has no children. A
resource of all addresses below another one, the size of which wraps to zero, is not made smaller
than its children. Merges and resizes that are refused with `-EINVAL` may be any. -/
def Call.Sound (t : Tree) : Call → Prop
  | .resize id size => ∀ r, t.region id = some r → resourceSize r = 0 → size ≠ 0 →
      r.parent ≠ none → ∀ k ∈ t.children id, ∀ rk, t.region k = some rk → rk.last < size
  | .merge _ a b => ∀ ra rb, t.region a = some ra → t.region b = some rb →
      resourceAdjacent ra rb = true → ra.parent = rb.parent ∧ t.children b = []
  | _ => True

def runCalls : List Call → Tree → Option Tree
  | [], t => some t
  | call :: calls, t => (call.apply t).bind (runCalls calls)

def SoundCalls : List Call → Tree → Prop
  | [], _ => True
  | call :: calls, t => call.Sound t ∧ ∀ t', call.apply t = some t' → SoundCalls calls t'

/-- Children are not empty, inside their parent, sorted and apart. -/
def Ordered (t : Tree) : Prop :=
  ∀ p rp, t.region p = some rp → (∀ c ∈ t.children p, ∃ rc, t.region c = some rc ∧
      rc.start ≤ rc.last ∧ rp.start ≤ rc.start ∧ rc.last ≤ rp.last) ∧
    (t.children p).Pairwise fun a b =>
      ∀ ra rb, t.region a = some ra → t.region b = some rb → ra.last < rb.start

theorem WellFormed.ordered {t : Tree} (h : WellFormed t) : Ordered t := by
  intro p rp hp
  constructor
  · intro c hc
    obtain ⟨rp', rc, hp', hRc, -, hIn⟩ := h.linked hc
    rw [hp] at hp'
    cases hp'
    exact ⟨rc, hRc, (h.sound hRc).1, hIn⟩
  · exact pairwise_iff_forall_sublist.mpr fun hPair ra rb ha hb => h.sorted hPair ha hb

theorem emptyRoot_wellFormed {start last : Nat} {name : List UInt8} (hBounds : start ≤ last)
    (hMax : last ≤ maxAddress) : WellFormed (emptyRoot start last name) := by
  have hRegion : ∀ {id r}, (emptyRoot start last name).region id = some r →
      id = root ∧ r = ⟨start, last, name, 0, none⟩ := by
    intro id r hr
    obtain hRoot | ⟨-, hNone⟩ := region_update (f := fun _ => none) hr
    · exact hRoot
    · cases hNone
  refine ⟨?_, nofun, ?_, ?_, nofun, ?_, nofun, nofun⟩
  · intro id r hr
    obtain ⟨-, rfl⟩ := hRegion hr
    exact ⟨hBounds, hMax⟩
  · intro c rc p hc hp
    obtain ⟨-, rfl⟩ := hRegion hc
    cases hp
  · intro c rc p hc hp
    obtain ⟨-, rfl⟩ := hRegion hc
    cases hp
  · intro id hId
    have hNe : id ≠ root := Nat.ne_of_gt hId
    simp only [emptyRoot, update_of_ne hNe]

theorem flatMap_insert {front back : List Nat} {x y : Nat} (hNodup : (front ++ x :: back).Nodup) :
    ((front ++ x :: back).flatMap fun c => if c = x then [x, y] else [c]) =
    (front ++ [x]) ++ y :: back := by
  have hKeep : ∀ l : List Nat, x ∉ l → (l.flatMap fun c => if c = x then [x, y] else [c]) = l := by
    intro l hl
    induction l with
    | nil => rfl
    | cons c l ih =>
      grind
  grind

section Operations
variable {t t' : Tree} {id parent : Nat} {start last b size a bank : Nat}
    {ids : List Nat} {name : List UInt8}
  {res : Except Errno Unit} {r newres : Region} {shouldFree : Region → Int}

/-- The new region lies between the children in front and those behind. -/
theorem findPlace_spec {front back : List Nat}
    (hLive : ∀ a b ra rb, [a, b].Sublist ids → t.region a = some ra →
      t.region b = some rb → ra.last < rb.start)
    (hSound : ∀ {id r}, t.region id = some r → r.start ≤ r.last)
    (hPlace : findPlace t start last ids = some (.ok (front, back))) :
    ids = front ++ back ∧ (∀ a ∈ front, ∀ ra, t.region a = some ra → ra.last < start) ∧
      ∀ b ∈ back, ∀ rb, t.region b = some rb → last < rb.start := by
  induction ids generalizing front back with
  | nil =>
    cases hPlace
    exact ⟨rfl, nofun, nofun⟩
  | cons c ids ih =>
    rw [findPlace] at hPlace
    obtain ⟨r, hc, hPlace⟩ := exists_region hPlace
    split_ifs at hPlace with hBehind hFront
    · cases hPlace
      refine ⟨rfl, nofun, fun b hb rb hRb => ?_⟩
      rcases mem_cons.mp hb with rfl | hb
      · rw [hc] at hRb
        cases hRb
        exact hBehind
      · have hLt := hLive c b r rb (List.Sublist.cons_cons c (singleton_sublist.mpr hb)) hc hRb
        have hLe := hSound hc
        omega
    · rcases hRest : findPlace t start last ids with _ | place
      · rw [hRest] at hPlace
        cases hPlace
      rw [hRest] at hPlace
      rcases place with e | pair
      · cases hPlace
      cases hPlace
      obtain ⟨hIds, hBefore, hAfter⟩ :=
        ih (fun a b ra rb hPair => hLive a b ra rb (hPair.cons c)) hRest
      refine ⟨by rw [hIds, cons_append], ?_, hAfter⟩
      intro a ha ra hRa
      rcases mem_cons.mp ha with rfl | ha
      · rw [hc] at hRa
        cases hRa
        exact hFront
      · exact hBefore a ha ra hRa
    · cases hPlace

/-- The tree stays well formed and gets one child, or nothing changes. -/
theorem requestRegion_spec (h : WellFormed t) {flags : Nat}
    {res : Except Errno Nat}
    (hReq : requestRegion t parent start last name flags = some (res, t')) :
    WellFormed t' ∧ t'.banks = t.banks ∧ (∀ e, res = .error e → t' = t) ∧
      ∀ new, res = .ok new → new = t.next ∧ t'.next = t.next + 1 ∧ t'.children new = [] ∧
        t'.region new = some ⟨start, last, name, flags, some parent⟩ ∧
        ∀ k ≠ new, t'.region k = t.region k := by
  obtain ⟨p, hp, hReq⟩ := exists_region hReq
  split_ifs at hReq with hEmpty hOut
  · cases hReq
    exact ⟨h, rfl, fun _ _ => rfl, nofun⟩
  · cases hReq
    exact ⟨h, rfl, fun _ _ => rfl, nofun⟩
  rcases hPlace : findPlace t start last (t.children parent) with _ | place
  · rw [hPlace] at hReq
    cases hReq
  rw [hPlace] at hReq
  rcases place with e | pair
  · cases hReq
    exact ⟨h, rfl, fun _ _ => rfl, nofun⟩
  obtain ⟨front, back⟩ := pair
  cases hReq
  obtain ⟨hList, hFront, hBack⟩ := findPlace_spec
    (fun a b ra rb hPair => h.sorted hPair) (fun hr => (h.sound hr).1) hPlace
  refine ⟨h.link hp hList rfl ⟨by dsimp only; omega, by dsimp only; omega, by dsimp only; omega⟩
    hFront hBack, rfl, nofun, fun new hNew => ?_⟩
  cases hNew
  have hNe : t.next ≠ parent := Nat.ne_of_gt (h.lt_next hp)
  refine ⟨rfl, rfl, ?_, update_self _ _ _, fun k hk => update_of_ne hk _ _⟩
  exact (update_of_ne hNe _ _).trans h.children_next

theorem nextSibling_spec (hNodup : ids.Nodup) (hPair : [id, b].Sublist ids) :
    ∃ next, nextSibling id ids = some next ∧ (b = next ∨ [next, b].Sublist ids) := by
  induction ids with
  | nil => cases hPair
  | cons other ids ih =>
    obtain ⟨hNew, hRest⟩ := nodup_cons.mp hNodup
    by_cases hEq : other = id
    · subst hEq
      rw [nextSibling, if_pos rfl]
      have hb : b ∈ ids := by
        rcases sublist_cons_iff.mp hPair with hPair | ⟨rest, hCons, hRest⟩
        · exact absurd (hPair.subset (.head _)) hNew
        · cases hCons
          exact singleton_sublist.mp hRest
      cases ids with
      | nil => cases hb
      | cons next ids =>
        refine ⟨next, rfl, ?_⟩
        rcases mem_cons.mp hb with rfl | hb
        · exact .inl rfl
        · exact .inr ((List.Sublist.cons_cons next (singleton_sublist.mpr hb)).cons other)
    · rw [nextSibling, if_neg hEq]
      have hTail : [id, b].Sublist ids := by
        rcases sublist_cons_iff.mp hPair with hPair | ⟨rest, hCons, -⟩
        · exact hPair
        · cases hCons
          exact absurd rfl hEq
      obtain ⟨next, hNext, hBehind⟩ := ih hRest hTail
      exact ⟨next, hNext, hBehind.imp_right fun hSub => hSub.cons other⟩

theorem releaseRegion_wellFormed (h : WellFormed t)
    (hRelease : releaseRegion t id = some (res, t')) :
    WellFormed t' ∧ t'.banks = t.banks ∧ ∀ q c, c ≠ id → c ∈ t.children q → c ∈ t'.children q := by
  obtain ⟨r, hr, hRelease⟩ := exists_region hRelease
  split_ifs at hRelease with hKids
  · cases hRelease
    exact ⟨h, rfl, fun _ _ _ hMem => hMem⟩
  have hKids : t.children id = [] := not_not.mp hKids
  rcases hParent : r.parent with _ | p
  · rw [hParent] at hRelease
    cases hRelease
  rw [hParent] at hRelease
  cases hRelease
  refine ⟨h.unlink hr hParent hKids, rfl, fun q c hNe hMem => ?_⟩
  by_cases hq : q = p
  · subst hq
    have hList : (t.unlink q id).children q = (t.children q).erase id := update_self _ _ _
    grind
  · have hList : (t.unlink p id).children q = t.children q := update_of_ne hq _ _
    rwa [hList]

theorem resourceSize_eq (hSound : r.start ≤ r.last ∧ r.last ≤ maxAddress)
    (hSize : resourceSize r ≠ 0) : resourceSize r = r.last - r.start + 1 := by
  unfold resourceSize maxAddress at *
  omega

variable (h : WellFormed t)
include h

theorem lastChild_spec {c : Nat} {rc : Region} (hLast : (t.children id).getLast? = some c)
    (hc : t.region c = some rc) :
    ∀ k rk, k ∈ t.children id → t.region k = some rk → rk.last ≤ rc.last := by
  intro k rk hk hRk
  by_cases hEq : k = c
  · subst hEq
    rw [hc] at hRk
    cases hRk
    exact le_rfl
  have hList : t.children id = (t.children id).dropLast ++ [c] := by
    rw [dropLast_append_getLast? c hLast]
  have hPair : [k, c].Sublist (t.children id) := by
    rw [hList] at hk ⊢
    rcases mem_append.mp hk with hk | hk
    · exact (singleton_sublist.mpr hk).append (List.Sublist.refl _)
    · exact absurd (mem_singleton.mp hk) hEq
  have hLt := h.sorted hPair hRk hc
  have hSound := h.sound hc
  omega

variable (hr : t.region id = some r)
include hr in
theorem shrinkRegion_wellFormed (hSize : 0 < size ∧ r.start + size - 1 ≤ r.last)
    (hShrink : shrinkRegion t id r size = some (res, t')) : WellFormed t' := by
  have hKeep : (∀ k rk, k ∈ t.children id → t.region k = some rk → rk.last ≤ r.start + size - 1) →
      WellFormed (t.setRegion id { r with last := r.start + size - 1 }) := by
    intro hKids
    refine h.shrink hr rfl ⟨le_rfl, by dsimp only; omega, by dsimp only; omega⟩ ?_
    intro k rk hk hRk
    exact ⟨(h.bounds_of_mem hk hr hRk).1, hKids k rk hk hRk⟩
  unfold shrinkRegion at hShrink
  cases hLast : (t.children id).getLast? with
  | none =>
    rw [hLast] at hShrink
    cases hShrink
    refine hKeep fun k rk hk => ?_
    rw [getLast?_eq_none_iff.mp hLast] at hk
    cases hk
  | some c =>
    rw [hLast, map_some] at hShrink
    rcases hc : t.region c with _ | rc
    · rw [hc] at hShrink
      cases hShrink
    rw [hc] at hShrink
    dsimp only at hShrink
    split_ifs at hShrink with hTooSmall
    · cases hShrink
      exact h
    cases hShrink
    refine hKeep fun k rk hk hRk => ?_
    have hLe := lastChild_spec h hLast hc k rk hk hRk
    omega

include hr in
theorem growRegion_wellFormed
    (hKids : ∀ k rk, k ∈ t.children id → t.region k = some rk → rk.last ≤ r.start + (size - 1))
    (hGrow : growRegion t id r size = some (res, t')) : WellFormed t' := by
  unfold growRegion at hGrow
  rcases hParent : r.parent with _ | p
  · rw [hParent] at hGrow
    cases hGrow
    exact h
  rw [hParent] at hGrow
  dsimp only at hGrow
  obtain ⟨rp, hp, hGrow⟩ := exists_region hGrow
  have hMem := h.listed hr hParent
  have hIn := h.bounds_of_mem hMem hp hr
  split_ifs at hGrow with hWrap hOut
  · cases hGrow
    exact h
  · cases hGrow
    exact h
  have hKeep : (∀ b rb, [id, b].Sublist (t.children p) → t.region b = some rb →
      r.start + (size - 1) < rb.start) →
      WellFormed (t.setRegion id { r with last := r.start + (size - 1), parent := some p }) := by
    intro hAfter
    refine h.setRegion hr hParent.symm ⟨by dsimp only; omega, by dsimp only; omega⟩ ?_ ?_ ?_ ?_
    · exact fun k rk hk hRk => ⟨(h.bounds_of_mem hk hr hRk).1, hKids k rk hk hRk⟩
    · intro q rq hq hRq
      rw [hParent] at hq
      cases hq
      rw [hp] at hRq
      cases hRq
      exact ⟨hIn.1, by dsimp only; omega⟩
    · intro q a ra hPair ha
      have hLt := h.sorted hPair ha hr
      exact hLt
    · intro q b rb hPair hb
      have hq := h.parent_of_mem (hPair.subset (.head _)) hr
      rw [hParent] at hq
      cases hq
      exact hAfter b rb hPair hb
  cases hNext : nextSibling id (t.children p) with
  | none =>
    rw [hNext] at hGrow
    cases hGrow
    refine hKeep fun b rb hPair => ?_
    obtain ⟨next, hSome, -⟩ := nextSibling_spec (h.nodup p) hPair
    rw [hNext] at hSome
    cases hSome
  | some next =>
    rw [hNext, map_some] at hGrow
    rcases hRn : t.region next with _ | rn
    · rw [hRn] at hGrow
      cases hGrow
    rw [hRn] at hGrow
    dsimp only at hGrow
    split_ifs at hGrow with hTouch
    · cases hGrow
      exact h
    cases hGrow
    refine hKeep fun b rb hPair hb => ?_
    obtain ⟨next', hSome, hBehind⟩ := nextSibling_spec (h.nodup p) hPair
    rw [hNext] at hSome
    cases hSome
    rcases hBehind with rfl | hBehind
    · rw [hRn] at hb
      cases hb
      omega
    · have hLt := h.sorted hBehind hRn hb
      have hSound := h.sound hRn
      omega

theorem resizeRegion_wellFormed (hSound : (Call.resize id size).Sound t)
    (hResize : resizeRegion t id size = some (res, t')) : WellFormed t' := by
  obtain ⟨r, hr, hResize⟩ := exists_region hResize
  have hBounds := h.sound hr
  split_ifs at hResize with hZero hSame hLess
  · cases hResize
    exact h
  · cases hResize
    exact h
  · have hSize := resourceSize_eq hBounds (Nat.ne_of_gt (Nat.lt_of_le_of_lt (Nat.zero_le _) hLess))
    exact shrinkRegion_wellFormed h hr ⟨Nat.pos_of_ne_zero hZero, by omega⟩ hResize
  by_cases hRoot : r.parent = none
  · rw [growRegion, hRoot] at hResize
    cases hResize
    exact h
  refine growRegion_wellFormed h hr (fun k rk hk hRk => ?_) hResize
  by_cases hFull : resourceSize r = 0
  · have hLt := hSound r hr hFull hZero hRoot k hk rk hRk
    omega
  · have hSize := resourceSize_eq hBounds hFull
    have hIn := h.bounds_of_mem hk hr hRk
    omega

include hr in
theorem WellFormed.split {rp : Region} (hp : t.region parent = some rp)
    (hMem : id ∈ t.children parent)
    (hKids : t.children id = []) (hCut : r.start < start ∧ start ≤ last ∧ last < r.last) :
    WellFormed ((t.setRegion id { r with last := start - 1 }).link parent
      ((t.children parent).flatMap fun c => if c = id then [id, t.next] else [c])
      { r with start := last + 1, parent := some parent }) := by
  have hParent := h.parent_of_mem hMem hr
  have hIn := h.bounds_of_mem hMem hp hr
  have hLeft : WellFormed (t.setRegion id { r with last := start - 1 }) := by
    refine h.shrink hr rfl ⟨le_rfl, by dsimp only; omega, by dsimp only; omega⟩ ?_
    grind
  have hNe : parent ≠ id := Nat.ne_of_lt (h.older hr hParent)
  obtain ⟨front, back, hList⟩ := append_of_mem hMem
  have hSplit : ((t.children parent).flatMap fun c => if c = id then [id, t.next] else [c]) =
      (front ++ [id]) ++ t.next :: back := by
    have hNodup := h.nodup parent
    rw [hList] at hNodup ⊢
    exact flatMap_insert hNodup
  have hp' : (t.setRegion id { r with last := start - 1 }).region parent = some rp :=
    (update_of_ne hNe _ _).trans hp
  rw [hSplit]
  refine hLeft.link hp' (by rw [append_assoc]; exact hList) rfl
    ⟨by dsimp only; omega, by dsimp only; omega, hIn.2⟩ ?_ ?_
  · intro a ha ra hRa
    obtain ⟨rfl, rfl⟩ | ⟨haNe, hRa⟩ := region_update hRa
    · dsimp only
      omega
    have hPair : [a, id].Sublist (t.children parent) := by
      rw [hList]
      exact (singleton_sublist.mpr (by simpa [haNe] using ha)).append
        (singleton_sublist.mpr (.head _))
    have hLt := h.sorted hPair hRa hr
    dsimp only
    omega
  · intro b hb rb hRb
    have hPair : [id, b].Sublist (t.children parent) := by
      rw [hList]
      exact (List.Sublist.cons_cons id (singleton_sublist.mpr hb)).trans (sublist_append_right _ _)
    obtain ⟨rfl, -⟩ | ⟨-, hRb⟩ := region_update hRb
    · exact absurd hPair (nodup_iff_sublist.mp (h.nodup parent) b)
    · have hLt := h.sorted hPair hr hRb
      exact hLt

include hr in
theorem cutRegion_wellFormed (hMem : id ∈ t.children parent) (hRange : start ≤ last)
    (hOverlap : r.start ≤ last ∧ start ≤ r.last) {ok : Bool}
    (hCut : cutRegion t parent start last id r = some (ok, t')) :
    WellFormed t' ∧ ∀ c ≠ id, c ∈ t.children parent → c ∈ t'.children parent := by
  unfold cutRegion at hCut
  by_cases hCovered : start ≤ r.start ∧ r.last ≤ last
  · rw [if_pos hCovered] at hCut
    obtain ⟨⟨res, t₁⟩, hRelease, hEq⟩ := map_eq_some_iff.mp hCut
    cases hEq
    obtain ⟨hWell, -, hKept⟩ := releaseRegion_wellFormed h hRelease
    exact ⟨hWell, fun c hc => hKept parent c hc⟩
  rw [if_neg hCovered] at hCut
  by_cases hKids : t.children id = []
  swap
  · rw [if_pos hKids] at hCut
    cases hCut
    exact ⟨h, fun _ _ hc => hc⟩
  rw [if_neg (not_not.mpr hKids)] at hCut
  have hNoKids : ∀ r' : Region, ∀ k rk, k ∈ t.children id → t.region k = some rk →
      r'.start ≤ rk.start ∧ rk.last ≤ r'.last := by simp [hKids]
  by_cases hHead : start ≤ r.start
  · rw [if_pos hHead] at hCut
    cases hCut
    exact ⟨h.shrink hr rfl ⟨by dsimp only; omega, by dsimp only; omega, le_rfl⟩ (hNoKids _),
      fun _ _ hc => hc⟩
  rw [if_neg hHead] at hCut
  by_cases hTail : r.last ≤ last
  · rw [if_pos hTail] at hCut
    cases hCut
    exact ⟨h.shrink hr rfl ⟨le_rfl, by dsimp only; omega, by dsimp only; omega⟩ (hNoKids _),
      fun _ _ hc => hc⟩
  rw [if_neg hTail] at hCut
  cases hCut
  obtain ⟨rp, -, hp, -⟩ := h.linked hMem
  refine ⟨h.split hr hp hMem hKids ⟨by omega, hRange, by omega⟩, fun c hNe hc => ?_⟩
  simp only [Tree.link, update_self]
  exact mem_flatMap.mpr ⟨c, hc, by rw [if_neg hNe]; exact mem_singleton_self c⟩

theorem releaseOne_wellFormed (hRange : start ≤ last) (hMem : id ∈ t.children parent)
    {res : Except Int Bool}
    (hOne : releaseOne t parent start last shouldFree id = some (res, t')) :
    WellFormed t' ∧ ∀ c ≠ id, c ∈ t.children parent → c ∈ t'.children parent := by
  obtain ⟨-, r, -, hr, -⟩ := h.linked hMem
  unfold releaseOne at hOne
  rw [hr] at hOne
  dsimp only at hOne
  split_ifs at hOne with hApart hNeg hZero
  · cases hOne
    exact ⟨h, fun _ _ hc => hc⟩
  · cases hOne
    exact ⟨h, fun _ _ hc => hc⟩
  · cases hOne
    exact ⟨h, fun _ _ hc => hc⟩
  · obtain ⟨⟨ok, t₁⟩, hCut, hEq⟩ := map_eq_some_iff.mp hOne
    cases hEq
    exact cutRegion_wellFormed h hr hMem hRange (by omega) hCut

omit h

theorem releaseAll_wellFormed (hRange : start ≤ last) {clean : Bool}
    {res : RangeResult} (h : WellFormed t)
    (hMem : ∀ c ∈ ids, c ∈ t.children parent) (hNodup : ids.Nodup)
    (hAll : releaseAll t parent start last shouldFree ids clean = some (res, t')) :
    WellFormed t' := by
  induction ids generalizing t clean with
  | nil =>
    cases hAll
    exact h
  | cons id ids ih =>
    rw [releaseAll] at hAll
    rcases hOne : releaseOne t parent start last shouldFree id with _ | ⟨_ | ok, t₁⟩ <;>
        rw [hOne] at hAll
    · cases hAll
    · cases hAll
      exact (releaseOne_wellFormed h hRange (hMem id (.head _)) hOne).1
    obtain ⟨hWell, hKept⟩ := releaseOne_wellFormed h hRange (hMem id (.head _)) hOne
    obtain ⟨hNew, hRest⟩ := nodup_cons.mp hNodup
    refine ih hWell (fun c hc => hKept c ?_ (hMem c (mem_cons_of_mem id hc))) hRest hAll
    rintro rfl
    exact hNew hc

theorem releaseRegionRange_wellFormed (h : WellFormed t)
    (hProper : 0 < size ∧ start + size - 1 ≤ maxAddress) {res : RangeResult}
    (hRelease : releaseRegionRange t parent start size shouldFree = some (res, t')) :
    WellFormed t' := by
  have hRange : start ≤ lastOf start size := by
    unfold lastOf maxAddress at *
    omega
  obtain ⟨p, hp, hRelease⟩ := exists_region hRelease
  dsimp only at hRelease
  split_ifs at hRelease
  · cases hRelease
    exact h
  · exact releaseAll_wellFormed hRange h (fun _ => id) (h.nodup parent) hRelease

theorem releaseRegion_after_set {m rb : Region} (hNe : b ≠ a) (hb : t.region b = some rb)
    (hKids : t.children b = []) : releaseRegion (t.setRegion a m) b = match rb.parent with
      | none => none
      | some p => some (.ok (), (t.setRegion a m).unlink p b) := by
  have hb' : (t.setRegion a m).region b = some rb := (update_of_ne hNe _ _).trans hb
  unfold releaseRegion
  rw [hb']
  exact if_neg (not_not.mpr hKids)

theorem mergeRegions_wellFormed (h : WellFormed t) (hSound : (Call.merge name a b).Sound t)
    (hMerge : mergeRegions t name a b = some (res, t')) : WellFormed t' ∧ t'.banks = t.banks := by
  unfold mergeRegions at hMerge
  rcases ha : t.region a with _ | ra
  · rw [ha] at hMerge
    cases hMerge
  rcases hb : t.region b with _ | rb
  · rw [ha, hb] at hMerge
    cases hMerge
  rw [ha, hb] at hMerge
  dsimp only at hMerge
  split_ifs at hMerge with hApart
  · cases hMerge
    exact ⟨h, rfl⟩
  rw [Bool.not_eq_true, Bool.not_eq_false'] at hApart
  obtain ⟨hSame, hKids⟩ := hSound ra rb ha hb hApart
  have hAdjacent : ra.last + 1 = rb.start ∨ rb.last + 1 = ra.start := by
    simp only [resourceAdjacent, Bool.or_eq_true, Bool.and_eq_true, decide_eq_true_iff] at hApart
    exact hApart.imp And.right And.right
  have hSa := h.sound ha
  have hSb := h.sound hb
  have hNe : b ≠ a := by
    rintro rfl
    rw [ha] at hb
    cases hb
    omega
  rw [releaseRegion_after_set hNe hb hKids] at hMerge
  rcases hpb : rb.parent with _ | p
  · rw [hpb] at hMerge
    cases hMerge
  rw [hpb] at hMerge
  cases hMerge
  refine ⟨h.merge ha hb (hSame.trans hpb) hpb hKids ?_ ?_, rfl⟩
  · rw [mergedRegion]
    split_ifs <;> rfl
  rw [mergedRegion]
  split_ifs with hOrder
  · exact .inl ⟨by omega, rfl, rfl⟩
  · exact .inr ⟨by omega, rfl, rfl⟩

theorem growBy_wellFormed (h : WellFormed t) (hBank : bank ∈ t.banks)
    (hGrow : growBy t bank name start last = some (res, t')) :
    WellFormed t' ∧ t'.banks = t.banks := by
  unfold growBy at hGrow
  rcases hReq : requestRegion t root start last name 0 with _ | ⟨_ | new, t₁⟩ <;> rw [hReq] at hGrow
  · cases hGrow
  · cases hGrow
    obtain ⟨hWell, hBanks, -⟩ := requestRegion_spec h hReq
    exact ⟨hWell, hBanks⟩
  obtain ⟨hWell, hBanks, -, hNew⟩ := requestRegion_spec h hReq
  obtain ⟨-, -, hKids, hRegion, -⟩ := hNew new rfl
  dsimp only at hGrow
  rcases hMerge : mergeRegions t₁ name bank new with _ | ⟨r₂, t₂⟩ <;> rw [hMerge] at hGrow
  · cases hGrow
  cases hGrow
  have hMerged := mergeRegions_wellFormed hWell (fun ra rb ha hb _ => ?_) hMerge
  · exact ⟨hMerged.1, hMerged.2.trans hBanks⟩
  · rw [hRegion] at hb
    cases hb
    exact ⟨hWell.banked (hBanks ▸ hBank) ha, hKids⟩

theorem bareboxGrowMemoryBank_wellFormed (h : WellFormed t) (hBank : bank ∈ t.banks)
    (hGrow : bareboxGrowMemoryBank t bank name newres = some (res, t')) : WellFormed t' := by
  have hBelow : ∀ {below t₁ start last},
      (if newres.start < start then growBy t bank name newres.start last
      else some (.ok (), t)) = some (below, t₁) → WellFormed t₁ ∧ t₁.banks = t.banks := by
    intro below t₁ start last hBelow
    split_ifs at hBelow
    · exact growBy_wellFormed h hBank hBelow
    · cases hBelow
      exact ⟨h, rfl⟩
  obtain ⟨b, hb, hGrow⟩ := exists_region hGrow
  rcases hFirst : (if newres.start < b.start then growBy t bank name newres.start (b.start - 1)
    else some (.ok (), t)) with _ | ⟨_ | _, t₁⟩ <;> rw [hFirst] at hGrow
  · cases hGrow
  · cases hGrow
    exact (hBelow hFirst).1
  obtain ⟨hWell, hBanks⟩ := hBelow hFirst
  dsimp only at hGrow
  split_ifs at hGrow
  · exact (growBy_wellFormed hWell (hBanks ▸ hBank) hGrow).1
  · cases hGrow
    exact hWell

theorem findBank_mem {banks : List Nat} {holds : Bool}
    (hFind : findBank t newres banks = some (some (bank, holds))) : bank ∈ banks := by
  induction banks with
  | nil => cases hFind
  | cons b banks ih =>
    rw [findBank] at hFind
    obtain ⟨rb, hb, hFind⟩ := exists_region hFind
    split_ifs at hFind
    · cases hFind
      exact (.head _)
    · cases hFind
      exact (.head _)
    · exact .tail _ (ih hFind)

variable (h : WellFormed t)
include h

theorem WellFormed.addBank {new : Nat} (hr : t.region new = some r) (hParent : r.parent = some root)
    (compare : Nat → Nat → Int) :
    WellFormed { t with banks := Lib.listAddSort compare new t.banks } := by
  have hMem : ∀ {b}, b ∈ Lib.listAddSort compare new t.banks → b = new ∨ b ∈ t.banks := fun hb =>
    mem_cons.mp ((Lib.listAddSort_perm new t.banks).mem_iff.mp hb)
  refine { h with banked := ?_, bankAge := ?_ }
  · intro b rb hb hRb
    rcases hMem hb with rfl | hb
    · exact (Option.some.inj (hr.symm.trans hRb)) ▸ hParent
    · exact h.banked hb hRb
  intro b hb
  rcases hMem hb with rfl | hb
  · exact h.lt_next hr
  · exact h.bankAge hb

theorem bareboxAddMemoryBank_wellFormed
    (hAdd : bareboxAddMemoryBank t name start size = some (res, t')) :
    WellFormed t' := by
  unfold bareboxAddMemoryBank at hAdd
  dsimp only at hAdd
  rcases hFind : findBank t ⟨start, lastOf start size, [], ioresourceMem, none⟩ t.banks with
    _ | _ | ⟨bank, _ | _⟩ <;> rw [hFind] at hAdd
  · cases hAdd
  · dsimp only at hAdd
    rcases hReq : requestRegion t root start (lastOf start size) name 0 with _ | ⟨_ | new, t₁⟩ <;>
      rw [hReq] at hAdd
    · cases hAdd
    · cases hAdd
      exact (requestRegion_spec h hReq).1
    obtain ⟨hWell, -, -, hNew⟩ := requestRegion_spec h hReq
    obtain ⟨-, -, hKids, hRegion, -⟩ := hNew new rfl
    dsimp only at hAdd
    rw [hRegion] at hAdd
    cases hAdd
    have hSound := hWell.sound hRegion
    have hTyped : WellFormed (t₁.setRegion new
        ⟨start, lastOf start size, name, ioresourceMem ||| 0x800000, some root⟩) := by
      refine hWell.shrink hRegion rfl ⟨le_rfl, hSound.1, le_rfl⟩ ?_
      rw [hKids]
      exact nofun
    exact hTyped.addBank (update_self _ _ _) rfl _
  · exact bareboxGrowMemoryBank_wellFormed h (findBank_mem hFind) hAdd
  · cases hAdd
    exact h

theorem Call.apply_wellFormed {call : Call} (hProper : call.Proper) (hSound : call.Sound t)
    (hApply : call.apply t = some t') : WellFormed t' := by
  cases call with
  | request parent start last name flags =>
    obtain ⟨⟨res, t₁⟩, hReq, rfl⟩ := map_eq_some_iff.mp hApply
    exact (requestRegion_spec h hReq).1
  | resize id size =>
    obtain ⟨⟨res, t₁⟩, hResize, rfl⟩ := map_eq_some_iff.mp hApply
    exact resizeRegion_wellFormed h hSound hResize
  | release id =>
    obtain ⟨⟨res, t₁⟩, hRelease, rfl⟩ := map_eq_some_iff.mp hApply
    exact (releaseRegion_wellFormed h hRelease).1
  | releaseRange parent start size shouldFree =>
    obtain ⟨⟨res, t₁⟩, hRelease, rfl⟩ := map_eq_some_iff.mp hApply
    exact releaseRegionRange_wellFormed h hProper hRelease
  | merge name a b =>
    obtain ⟨⟨res, t₁⟩, hMerge, rfl⟩ := map_eq_some_iff.mp hApply
    exact (mergeRegions_wellFormed h hSound hMerge).1
  | addBank name start size =>
    obtain ⟨⟨res, t₁⟩, hAdd, rfl⟩ := map_eq_some_iff.mp hApply
    exact bareboxAddMemoryBank_wellFormed h hAdd

theorem runCalls_wellFormed {calls : List Call} (hProper : ∀ call ∈ calls, call.Proper)
    (hSound : SoundCalls calls t)
    (hRun : runCalls calls t = some t') : WellFormed t' := by
  induction calls generalizing t with
  | nil =>
    cases hRun
    exact h
  | cons call calls ih =>
    obtain ⟨t₁, hApply, hRest⟩ := bind_eq_some_iff.mp hRun
    have hNext := call.apply_wellFormed h (hProper call (.head _)) hSound.1 hApply
    exact ih hNext (fun c hc => hProper c (.tail _ hc)) (hSound.2 t₁ hApply) hRest

end Operations

/-- After every sequence of calls on an empty root, the children of every resource are
sorted, disjoint, not empty and inside it, provided that merges which are not refused are of
siblings, the second without children, and a resource of all addresses is not cut below its
children. -/
theorem resource_tree_ordered {start last : Nat} (name : List UInt8) (hBounds : start ≤ last)
    (hMax : last ≤ maxAddress) (calls : List Call) (hProper : ∀ call ∈ calls, call.Proper)
    (hSound : SoundCalls calls (emptyRoot start last name)) (t : Tree)
    (hRun : runCalls calls (emptyRoot start last name) = some t) : Ordered t :=
  (runCalls_wellFormed (emptyRoot_wellFormed hBounds hMax) hProper hSound hRun).ordered

def mergeCalls : List Call := [.request 0 0 9 [] 0, .request 0 10 19 [] 0, .merge [] 1 2]

theorem resource_tree_ordered_sample :
    ∃ t, runCalls mergeCalls (emptyRoot 0 maxAddress []) = some t ∧
    t.children 0 = [1] ∧ Ordered t := by
  refine ⟨_, rfl, rfl, resource_tree_ordered [] (Nat.zero_le _) le_rfl mergeCalls ?_ ?_ _ rfl⟩
  · intro call hCall
    simp only [mergeCalls, mem_cons, not_mem_nil, or_false] at hCall
    rcases hCall with rfl | rfl | rfl <;> trivial
  refine ⟨trivial, fun t₁ h₁ => ?_⟩
  cases h₁
  refine ⟨trivial, fun t₂ h₂ => ?_⟩
  cases h₂
  refine ⟨fun ra rb ha hb _ => ?_, fun t₃ _ => trivial⟩
  cases ha
  cases hb
  exact ⟨rfl, rfl⟩

def busyMerge : List Call :=
  [.request 0 0 9 [] 0, .request 0 10 19 [] 0, .request 2 10 11 [] 0, .merge [] 1 2]

def cutAll : List Call := [.request 0 0 maxAddress [] 0, .request 1 4096 8191 [] 0, .resize 1 16]

def boundsAfter (calls : List Call) (id : Nat) : Option (List (Option (Nat × Nat))) :=
  (runCalls calls (emptyRoot 0 maxAddress [])).map fun t =>
    (t.children id).map fun c => (t.region c).map fun r => (r.start, r.last)

/-- A merge with a region that has a child leaves overlapping regions, and a region of
all addresses is cut in front of its child. -/
theorem resource_tree_breaks : boundsAfter busyMerge 0 = some [some (0, 19), some (10, 19)] ∧
      boundsAfter cutAll 0 = some [some (0, 15)] ∧ boundsAfter cutAll 1 =
      some [some (4096, 8191)] := by
  decide +kernel

end Barebox.Resource
