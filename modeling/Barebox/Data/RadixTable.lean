import Mathlib.Tactic.Ring

/-! Trees of tables in memory. A table is known by its address and has entries; above the lowest
level an entry may link to a table one level down. Levels are counted from the bottom. What the
entries mean is left open: `P` is asked of every entry that is not a link. -/
namespace RadixTable
open Nat
variable {E : Type}

abbrev Memory (E : Type) := Nat → Nat → E

section Definitions
variable (fan : Nat → Nat) (link : E → Option Nat) (P : Nat → E → Prop)

def stride : Nat → Nat
  | 0 => 1
  | n + 1 => fan n * stride n

def index (n q : Nat) : Nat := q / stride fan n % fan n

inductive InTree (mem : Memory E) : Nat → Nat → Nat → Prop
  | root (n f : Nat) : InTree mem n f f
  | child {n f g x i : Nat} (hi : i < fan (n + 1)) (hLink : link (mem f i) = some g)
      (hIn : InTree mem n g x) :
      InTree mem (n + 1) f x

def WellFormed (mem : Memory E) : Nat → Nat → Prop
  | 0, f => ∀ i < fan 0, P 0 (mem f i)
  | n + 1, f => ∀ i < fan (n + 1), (link (mem f i) = none → P (n + 1) (mem f i)) ∧
      ∀ g, link (mem f i) = some g → WellFormed mem n g ∧ ¬ InTree fan link mem n g f ∧
        ∀ j < fan (n + 1), j ≠ i → ∀ g', link (mem f j) = some g' → ∀ x, InTree fan link mem n g x →
          ¬ InTree fan link mem n g' x

/-- Where a walk for an item ends: the level and the entry. -/
def lookup (mem : Memory E) : Nat → Nat → Nat → Nat × E
  | 0, f, q => (0, mem f (index fan 0 q))
  | n + 1, f, q =>
    match link (mem f (index fan (n + 1) q)) with
    | some g => lookup mem n g q
    | none => (n + 1, mem f (index fan (n + 1) q))

/-- One memory is another one with the tree below a table changed: outside of the tree and of some
new tables nothing differs, and the tree has grown by new tables only. -/
structure Rewrites (mem mem' : Memory E) (n f : Nat) (fresh : Set Nat) : Prop where
  frame : ∀ x, ¬ InTree fan link mem n f x → x ∉ fresh → mem' x = mem x
  inside : ∀ x, InTree fan link mem' n f x → InTree fan link mem n f x ∨ x ∈ fresh
  wellFormed : WellFormed fan link P mem' n f

def SameEntries (low high q p : Nat) : Prop :=
  ∀ k, low ≤ k → k ≤ high → index fan k q = index fan k p

end Definitions

variable {fan : Nat → Nat} {link : E → Option Nat} {P : Nat → E → Prop}
    {mem mem' : Memory E} {n f i : Nat}
  {q x low : Nat}

theorem lookup_succ_link {g : Nat} (h : link (mem f (index fan (n + 1) q)) = some g) :
    lookup fan link mem (n + 1) f q = lookup fan link mem n g q := by rw [lookup, h]

theorem lookup_succ_none (h : link (mem f (index fan (n + 1) q)) = none) :
    lookup fan link mem (n + 1) f q = (n + 1, mem f (index fan (n + 1) q)) := by rw [lookup, h]

theorem inTree_zero (h : InTree fan link mem 0 f x) : x = f := by
  cases h with
  | root => rfl

theorem inTree_succ (h : InTree fan link mem (n + 1) f x) :
    x = f ∨ ∃ j < fan (n + 1), ∃ g, link (mem f j) = some g ∧ InTree fan link mem n g x := by
  cases h with
  | root => exact .inl rfl
  | child hi hLink hIn => exact .inr ⟨_, hi, _, hLink, hIn⟩

theorem stride_dvd {low k : Nat} (h : low ≤ k) : stride fan low ∣ stride fan k := by
  induction k with
  | zero =>
    obtain rfl := le_zero.mp h
    rfl
  | succ k ih =>
    rcases Nat.eq_or_lt_of_le h with rfl | h
    · rfl
    · exact Nat.dvd_mul_left_of_dvd (ih (Nat.lt_succ_iff.mp h)) _

theorem div_stride (n q : Nat) :
    q / stride fan n = fan n * (q / stride fan (n + 1)) + index fan n q := by
  have hUp : q / stride fan (n + 1) = q / stride fan n / fan n := by
    rw [stride, Nat.mul_comm, Nat.div_div_eq_div_mul]
  simp [hUp, index, div_add_mod]

/-- Two items of a tree belong to the same entry of a level if they belong to the same entries from
there on up. -/
theorem sameEntries_iff {high p : Nat} (hLow : low ≤ high + 1) (hq : q < stride fan (high + 1))
    (hp : p < stride fan (high + 1)) :
    SameEntries fan low high q p ↔ q / stride fan low = p / stride fan low := by
  refine ⟨fun h => ?_, fun h k hk _ => ?_⟩
  · obtain ⟨d, hd⟩ := Nat.exists_eq_add_of_le hLow
    induction d generalizing low with
    | zero =>
      obtain rfl : low = high + 1 := by omega
      rw [div_eq_of_lt hq, div_eq_of_lt hp]
    | succ d ih =>
      rw [div_stride low q, div_stride low p, h low le_rfl (by omega),
        ih (by omega) (fun k hk hk' => h k (by omega) hk') (by omega)]
  · obtain ⟨c, hc⟩ := @stride_dvd fan low k hk
    rw [index, index, hc, ← Nat.div_div_eq_div_mul, ← Nat.div_div_eq_div_mul, h]

theorem sameEntries_self (n q p : Nat) :
    SameEntries fan n n q p ↔ index fan n q = index fan n p := by
  refine ⟨fun h => h n (Nat.le_refl n) (Nat.le_refl n), fun h k hk hk' => ?_⟩
  rw [Nat.le_antisymm hk' hk]
  exact h

theorem sameEntries_succ {n : Nat} (hLow : low ≤ n) (q p : Nat) :
    SameEntries fan low (n + 1) q p ↔ index fan (n + 1) q = index fan (n + 1) p ∧
    SameEntries fan low n q p := by
  refine ⟨fun h => ⟨h (n + 1) (by omega) le_rfl, fun k hk hk' => h k hk (by omega)⟩,
    fun ⟨hTop, h⟩ k hk hk' => ?_⟩
  rcases Nat.eq_or_lt_of_le hk' with rfl | hk'
  · exact hTop
  · exact h k hk (by omega)

theorem inTree_congr (hSame : ∀ x, InTree fan link mem n f x → mem' x = mem x) (x : Nat) :
    InTree fan link mem' n f x ↔ InTree fan link mem n f x := by
  induction n generalizing f with
  | zero =>
    refine ⟨fun h => ?_, fun h => ?_⟩
    all_goals
      rw [inTree_zero h]
      exact .root 0 f
  | succ n ih =>
    have hRoot : mem' f = mem f := hSame f (.root _ f)
    have hChild {j g : Nat} (hj : j < fan (n + 1)) (hLink : link (mem f j) = some g) :
        InTree fan link mem' n g x ↔ InTree fan link mem n g x :=
      ih fun y hy => hSame y (.child hj hLink hy)
    refine ⟨fun h => ?_, fun h => ?_⟩
    · rcases inTree_succ h with rfl | ⟨j, hj, g, hLink, hIn⟩
      · exact .root _ _
      · rw [hRoot] at hLink
        exact .child hj hLink ((hChild hj hLink).mp hIn)
    rcases inTree_succ h with rfl | ⟨j, hj, g, hLink, hIn⟩
    · exact .root _ _
    · refine .child hj ?_ ((hChild hj hLink).mpr hIn)
      simp [hRoot, hLink]

variable (hSame : ∀ x, InTree fan link mem n f x → mem' x = mem x)
include hSame

theorem wellFormed_congr (h : WellFormed fan link P mem n f) : WellFormed fan link P mem' n f := by
  induction n generalizing f with
  | zero =>
    intro i hi
    rw [hSame f (.root _ f)]
    exact h i hi
  | succ n ih =>
    have hRoot : mem' f = mem f := hSame f (.root _ f)
    have hChild {j g : Nat} (hj : j < fan (n + 1)) (hLink : link (mem f j) = some g) (x : Nat) :
        InTree fan link mem' n g x ↔ InTree fan link mem n g x :=
      inTree_congr (fun y hy => hSame y (.child hj hLink hy)) x
    intro i hi
    obtain ⟨hEntry, hLinks⟩ := h i hi
    rw [hRoot]
    refine ⟨hEntry, fun g hg => ?_⟩
    obtain ⟨hWell, hNot, hApart⟩ := hLinks g hg
    refine ⟨ih (fun y hy => hSame y (.child hi hg hy)) hWell,
      fun hIn => hNot ((hChild hi hg f).mp hIn),
      fun j hj hNe g' hg' x hx hx' => ?_⟩
    exact hApart j hj hNe g' hg' x ((hChild hi hg x).mp hx) ((hChild hj hg' x).mp hx')

theorem lookup_congr (hFan : ∀ k, 0 < fan k) (q : Nat) :
    lookup fan link mem' n f q = lookup fan link mem n f q := by
  have hRoot : mem' f = mem f := hSame f (.root _ f)
  induction n generalizing f with
  | zero => rw [lookup, lookup, hRoot]
  | succ n ih =>
    cases hLink : link (mem f (index fan (n + 1) q)) with
    | none => rw [lookup_succ_none (by rw [hRoot]; exact hLink), lookup_succ_none hLink, hRoot]
    | some g =>
      have hIndex : index fan (n + 1) q < fan (n + 1) := mod_lt _ (hFan _)
      rw [lookup_succ_link (by rw [hRoot]; exact hLink), lookup_succ_link hLink]
      exact ih (fun x hx => hSame x (.child hIndex hLink hx))
        (hSame g (.child hIndex hLink (.root _ g)))

omit hSame

structure Beside (fan : Nat → Nat) (link : E → Option Nat) (mem mem' : Memory E) (n f i : Nat) :
    Prop where
  entries : ∀ j < fan (n + 1), j ≠ i → mem' f j = mem f j
  trees : ∀ j < fan (n + 1), j ≠ i → ∀ g, link (mem f j) = some g →
    ∀ x, InTree fan link mem n g x → mem' x = mem x

structure Separate (fan : Nat → Nat) (link : E → Option Nat)
    (P : Nat → E → Prop) (mem mem' : Memory E) (n f i : Nat) :
    Prop where
  entry : link (mem' f i) = none → P (n + 1) (mem' f i)
  tree : ∀ g, link (mem' f i) = some g → WellFormed fan link P mem' n g ∧
    ¬ InTree fan link mem' n g f ∧
    ∀ j < fan (n + 1), j ≠ i → ∀ g', link (mem f j) = some g' → ∀ x, InTree fan link mem' n g x →
      ¬ InTree fan link mem n g' x

theorem wellFormed_replace (h : WellFormed fan link P mem (n + 1) f)
    (hBeside : Beside fan link mem mem' n f i)
    (hSeparate : Separate fan link P mem mem' n f i) : WellFormed fan link P mem' (n + 1) f := by
  have hOther {j g : Nat} (hj : j < fan (n + 1)) (hNe : j ≠ i)
      (hg : link (mem f j) = some g) (x : Nat) :
      InTree fan link mem' n g x ↔ InTree fan link mem n g x :=
    inTree_congr (hBeside.trees j hj hNe g hg) x
  intro j hj
  by_cases hEq : j = i
  · subst hEq
    refine ⟨hSeparate.entry, fun g hg => ?_⟩
    obtain ⟨hWell, hNot, hApart⟩ := hSeparate.tree g hg
    refine ⟨hWell, hNot, fun k hk hNe g' hg' x hx hx' => ?_⟩
    rw [hBeside.entries k hk hNe] at hg'
    exact hApart k hk hNe g' hg' x hx ((hOther hk hNe hg' x).mp hx')
  obtain ⟨hEntry, hLinks⟩ := h j hj
  rw [hBeside.entries j hj hEq]
  refine ⟨hEntry, fun g hg => ?_⟩
  obtain ⟨hWell, hNot, hApart⟩ := hLinks g hg
  refine ⟨wellFormed_congr (hBeside.trees j hj hEq g hg) hWell,
    fun hIn => hNot ((hOther hj hEq hg f).mp hIn),
    fun k hk hNe g' hg' x hx hx' => ?_⟩
  have hOld := (hOther hj hEq hg x).mp hx
  by_cases hki : k = i
  · subst hki
    exact (hSeparate.tree g' hg').2.2 j hj hEq g hg x hx' hOld
  · rw [hBeside.entries k hk hki] at hg'
    exact hApart k hk hNe g' hg' x hOld ((hOther hk hki hg' x).mp hx')

theorem inTree_replace (hBeside : Beside fan link mem mem' n f i)
    (h : InTree fan link mem' (n + 1) f x) :
    InTree fan link mem (n + 1) f x ∨ ∃ g, link (mem' f i) = some g ∧
    InTree fan link mem' n g x := by
  rcases inTree_succ h with rfl | ⟨j, hj, g, hLink, hIn⟩
  · exact .inl (.root _ _)
  by_cases hEq : j = i
  · grind
  · rw [hBeside.entries j hj hEq] at hLink
    exact .inl (.child hj hLink ((inTree_congr (hBeside.trees j hj hEq g hLink) x).mp hIn))

theorem lookup_replace (hBeside : Beside fan link mem mem' n f i) (hFan : ∀ k, 0 < fan k)
    (hq : index fan (n + 1) q ≠ i) :
    lookup fan link mem' (n + 1) f q = lookup fan link mem (n + 1) f q := by
  have hIndex : index fan (n + 1) q < fan (n + 1) := mod_lt _ (hFan _)
  have hEntry := hBeside.entries _ hIndex hq
  cases hLink : link (mem f (index fan (n + 1) q)) with
  | none => rw [lookup_succ_none (by rw [hEntry]; exact hLink), lookup_succ_none hLink, hEntry]
  | some g =>
    rw [lookup_succ_link (by rw [hEntry]; exact hLink), lookup_succ_link hLink]
    exact lookup_congr (hBeside.trees _ hIndex hq g hLink) hFan q

namespace Rewrites

theorem refl (h : WellFormed fan link P mem n f) : Rewrites fan link P mem mem n f ∅ :=
  ⟨fun _ _ _ => rfl, fun _ hx => .inl hx, h⟩

theorem trans {mem'' : Memory E} {fresh fresh' : Set Nat}
    (h : Rewrites fan link P mem mem' n f fresh)
    (h' : Rewrites fan link P mem' mem'' n f fresh') :
    Rewrites fan link P mem mem'' n f (fresh ∪ fresh') := by
  refine ⟨fun x hx hFresh => ?_, fun x hx => ?_, h'.wellFormed⟩
  · rw [Set.mem_union, not_or] at hFresh
    have hOut : ¬ InTree fan link mem' n f x := fun hIn => (h.inside x hIn).elim hx hFresh.1
    rw [h'.frame x hOut hFresh.2, h.frame x hx hFresh.1]
  · rcases h'.inside x hx with hx | hx
    · exact (h.inside x hx).imp id .inl
    · exact .inr (.inr hx)

variable (h : WellFormed fan link P mem (n + 1) f)
include h in
theorem write (hTable : ∀ j, j ≠ i → mem' f j = mem f j)
    (hRest : ∀ x, x ≠ f → mem' x = mem x) (hLink : link (mem' f i) = none)
    (hEntry : P (n + 1) (mem' f i)) :
    Beside fan link mem mem' n f i ∧ Rewrites fan link P mem mem' (n + 1) f ∅ := by
  have hBeside : Beside fan link mem mem' n f i := by
    refine ⟨fun j _ hj => hTable j hj, fun j hj _ g hg x hx => hRest x fun hEq => ?_⟩
    subst hEq
    exact ((h j hj).2 g hg).2.1 hx
  refine ⟨hBeside, fun x hx _ => hRest x fun hEq => hx ?_, fun x hx => ?_, ?_⟩
  · rw [hEq]
    exact .root _ f
  · rcases inTree_replace hBeside hx with hx | ⟨g, hg, -⟩
    · exact .inl hx
    · rw [hLink] at hg
      cases hg
  · refine wellFormed_replace h hBeside ⟨fun _ => hEntry, fun g hg => ?_⟩
    rw [hLink] at hg
    cases hg

theorem write_zero (h : WellFormed fan link P mem 0 f) (hTable : ∀ j, j ≠ i → mem' f j = mem f j)
    (hRest : ∀ x, x ≠ f → mem' x = mem x) (hEntry : P 0 (mem' f i)) :
    Rewrites fan link P mem mem' 0 f ∅ := by
  refine ⟨fun x hx _ => hRest x fun hEq => hx ?_, fun x hx => .inl ?_, fun j hj => ?_⟩
  · rw [hEq]
    exact .root 0 f
  · rw [inTree_zero hx]
    exact .root 0 f
  by_cases hEq : j = i
  · simp [hEq, hEntry]
  · rw [hTable j hEq]
    exact h j hj

include h in
theorem graft {g : Nat} (hNew : ¬ InTree fan link mem (n + 1) f g)
    (hTable : ∀ j, j ≠ i → mem' f j = mem f j)
    (hRest : ∀ x, x ≠ f → x ≠ g → mem' x = mem x) (hLink : link (mem' f i) = some g)
    (hEntries : ∀ j < fan n, P n (mem' g j))
    (hNoLinks : n ≠ 0 → ∀ j < fan n, link (mem' g j) = none) :
    Beside fan link mem mem' n f i ∧ Rewrites fan link P mem mem' (n + 1) f {g} := by
  have hfg : f ≠ g := fun hEq => hNew (by rw [← hEq]; exact .root _ f)
  have hBeside : Beside fan link mem mem' n f i := by
    refine ⟨fun j _ hj => hTable j hj, fun j hj _ g' hg' x hx =>
      hRest x (fun hEq => ?_) fun hEq => ?_⟩
    · subst hEq
      exact ((h j hj).2 g' hg').2.1 hx
    · subst hEq
      exact hNew (.child hj hg' hx)
  have hOnly : ∀ x, InTree fan link mem' n g x → x = g := by
    intro x hx
    cases n with
    | zero => exact inTree_zero hx
    | succ n =>
      rcases inTree_succ hx with hx | ⟨j, hj, g', hg', -⟩
      · exact hx
      · rw [hNoLinks (succ_ne_zero n) j hj] at hg'
        cases hg'
  have hWell : WellFormed fan link P mem' n g := by
    cases n with
    | zero => exact hEntries
    | succ n =>
      intro j hj
      refine ⟨fun _ => hEntries j hj, fun g' hg' => ?_⟩
      rw [hNoLinks (succ_ne_zero n) j hj] at hg'
      cases hg'
  refine ⟨hBeside, fun x hx hFresh => hRest x (fun hEq => hx ?_) hFresh, fun x hx => ?_, ?_⟩
  · rw [hEq]
    exact .root _ f
  · rcases inTree_replace hBeside hx with hx | ⟨g', hg', hx⟩
    · exact .inl hx
    · rw [hLink] at hg'
      injection hg' with hg'
      grind
  refine wellFormed_replace h hBeside ⟨fun hNone => ?_, fun g' hg' => ?_⟩
  · rw [hLink] at hNone
    cases hNone
  rw [hLink] at hg'
  injection hg' with hg'
  subst hg'
  refine ⟨hWell, fun hIn => hfg (hOnly f hIn), fun j hj _ g' hg' x hx hx' => hNew ?_⟩
  rw [← hOnly x hx]
  exact .child hj hg' hx'

include h in
theorem descend {g : Nat} {fresh : Set Nat} (hi : i < fan (n + 1)) (hLink : link (mem f i) = some g)
    (hBelow : Rewrites fan link P mem mem' n g fresh)
    (hFresh : ∀ x ∈ fresh, ¬ InTree fan link mem (n + 1) f x) :
    mem' f = mem f ∧ Beside fan link mem mem' n f i ∧
    Rewrites fan link P mem mem' (n + 1) f fresh := by
  obtain ⟨-, hNot, hApart⟩ := (h i hi).2 g hLink
  have hRoot : mem' f = mem f := hBelow.frame f hNot fun hIn => hFresh f hIn (.root _ f)
  have hBeside : Beside fan link mem mem' n f i := by
    refine ⟨fun j _ _ => congrFun hRoot j, fun j hj hNe g' hg' x hx =>
      hBelow.frame x (fun hIn => ?_) fun hIn => ?_⟩
    · exact hApart j hj hNe g' hg' x hIn hx
    · exact hFresh x hIn (.child hj hg' hx)
  refine ⟨hRoot, hBeside, fun x hx hOut =>
    hBelow.frame x (fun hIn => hx (.child hi hLink hIn)) hOut, fun x hx => ?_, ?_⟩
  · rcases inTree_replace hBeside hx with hx | ⟨g', hg', hx⟩
    · exact .inl hx
    rw [hRoot, hLink] at hg'
    injection hg' with hg'
    subst hg'
    exact (hBelow.inside x hx).imp (fun hIn => .child hi hLink hIn) id
  refine wellFormed_replace h hBeside ⟨fun hNone => ?_, fun g' hg' => ?_⟩
  · rw [hRoot, hLink] at hNone
    cases hNone
  rw [hRoot, hLink] at hg'
  injection hg' with hg'
  subst hg'
  refine ⟨hBelow.wellFormed, fun hIn => ?_, fun j hj hNe g' hg' x hx hx' => ?_⟩
  · exact (hBelow.inside f hIn).elim hNot fun hIn => hFresh f hIn (.root _ f)
  · rcases hBelow.inside x hx with hx | hx
    · exact hApart j hj hNe g' hg' x hx hx'
    · exact hFresh x hx (.child hj hg' hx')

end Rewrites
end RadixTable
