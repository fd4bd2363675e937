import Mathlib.Data.Finset.Card
import Mathlib.Logic.Relation
import Mathlib.Data.List.Infix
import Mathlib.Data.Int.ModEq

/-! Slices, known by numbers, and their dependencies. -/
namespace Barebox.Slice
open Relation List Function

abbrev Counters := Nat → Int

/-- The list `slices`, and the dependencies and the counter of each slice. -/
structure Slices where
  slices : List Nat := []
  deps : Nat → List Nat := fun _ => []
  acquired : Counters := fun _ => 0

/-- `__slice_acquire`, with a counter of 32 bits. -/
def add (n acquired : Int) : Int := max 0 ((acquired + n).bmod (2 ^ 32))

inductive Call where
  | init (s : Nat)
  | dependsOn (s dep : Nat)
  | acquire (s : Nat)
  | release (s : Nat)
  | exit (s : Nat)

/-- What each call of the slice interface does to the counters and the dependencies. -/
def Slices.call (t : Slices) : Call → Slices
  | .init s => { t with slices := t.slices ++ [s], deps := update t.deps s [] }
  | .dependsOn s dep => { t with deps := update t.deps s (t.deps s ++ [dep]) }
  | .acquire s => { t with acquired := update t.acquired s (add 1 (t.acquired s)) }
  | .release s => { t with acquired := update t.acquired s (add (-1) (t.acquired s)) }
  | .exit s =>
    let slices := t.slices.erase s
    { t with
      slices
      deps := fun i => if i = s then [] else if i ∈ slices then (t.deps i).filter (· ≠ s)
        else t.deps i }

def run (calls : List Call) : Slices := calls.foldl Slices.call {}

/-- The loop over dependencies: it ends with the first one in use. -/
def anyAcquired (test : Nat → Counters → Option (Bool × Counters)) :
    List Nat → Counters → Option (Bool × Counters)
  | [], acquired => some (false, acquired)
  | dep :: deps, acquired =>
    (test dep acquired).bind fun (used, acquired) => if used then some (true, acquired)
      else anyAcquired test deps acquired

/-- `slice_acquired` with the counters it leaves. A mark that is met again is a panic. -/
def sliceAcquired (deps : Nat → List Nat) : (fuel s : Nat) → Counters → Option (Bool × Counters)
  | 0, _, _ => none
  | fuel + 1, s, acquired =>
    if 0 < acquired s then some (true, acquired)
    else if acquired s < 0 then none
    else
      (anyAcquired (sliceAcquired deps fuel) (deps s) (update acquired s (-1))).map
        fun (used, acquired) => (used, update acquired s 0)

def Dep (deps : Nat → List Nat) (s d : Nat) : Prop := d ∈ deps s

/-- Some slice at or below `s` is in use. -/
def Used (deps : Nat → List Nat) (acquired : Counters) (s : Nat) : Prop :=
  ∃ d, ReflTransGen (Dep deps) s d ∧ 0 < acquired d

variable {deps : Nat → List Nat} {acquired : Counters} {s d n : Nat}

theorem used_iff : Used deps acquired s ↔ 0 < acquired s ∨ ∃ d ∈ deps s, Used deps acquired d := by
  constructor
  · rintro ⟨d, hReach, hUsed⟩
    rcases hReach.cases_head with rfl | ⟨c, hDep, hRest⟩
    · exact .inl hUsed
    · exact .inr ⟨c, hDep, d, hRest, hUsed⟩
  · rintro (hUsed | ⟨c, hDep, d, hReach, hUsed⟩)
    · exact ⟨s, .refl, hUsed⟩
    · exact ⟨d, .head hDep hReach, hUsed⟩

theorem anyAcquired_eq {test : Nat → Counters → Option (Bool × Counters)}
    {used : Nat → Prop} {ds : List Nat}
    (h : ∀ d ∈ ds, ∃ r, test d acquired = some (r, acquired) ∧ (r = true ↔ used d)) :
    ∃ r, anyAcquired test ds acquired = some (r, acquired) ∧ (r = true ↔ ∃ d ∈ ds, used d) := by
  induction ds with
  | nil => exact ⟨false, rfl, by simp⟩
  | cons d ds ih =>
    obtain ⟨r, hTest, hUsed⟩ := h d (.head _)
    rw [anyAcquired, hTest]
    cases r with
    | true => exact ⟨true, rfl, by simp [← hUsed]⟩
    | false =>
      obtain ⟨r, hRest, hIff⟩ := ih fun d hd => h d (.tail _ hd)
      exact ⟨r, hRest, by simp [hIff, ← hUsed]⟩

/-- The recursion goes through with counters that are marked only above the slice, for as many
levels as there are slices below it. -/
theorem sliceAcquired_eq (hAcyclic : ∀ s, ¬TransGen (Dep deps) s s)
    {fuel : Nat} {below : Finset Nat}
    (hBelow : ∀ d, TransGen (Dep deps) s d → d ∈ below) (hFuel : below.card < fuel)
    (hMarks : ∀ d, ReflTransGen (Dep deps) s d → 0 ≤ acquired d) :
    ∃ r, sliceAcquired deps fuel s acquired = some (r, acquired) ∧
    (r = true ↔ Used deps acquired s) := by
  induction fuel generalizing s acquired below with
  | zero => exact absurd hFuel (Nat.not_lt_zero _)
  | succ fuel ih =>
    rw [sliceAcquired, used_iff]
    by_cases hPos : 0 < acquired s
    · exact ⟨true, if_pos hPos, by simp [hPos]⟩
    have hZero : acquired s = 0 := le_antisymm (not_lt.mp hPos) (hMarks s .refl)
    -- the mark is not below the slice
    have hSame {d x} (hDep : Dep deps s d) (hReach : ReflTransGen (Dep deps) d x) :
        update acquired s (-1) x = acquired x :=
      update_of_ne (fun hEq : x = s => hAcyclic s (.head' hDep (hEq ▸ hReach))) _ _
    obtain ⟨r, hLoop, hIff⟩ := @anyAcquired_eq (update acquired s (-1)) (sliceAcquired deps fuel)
      (Used deps acquired) (deps s) fun d hDep => by
        have hLess : (below.erase d).card < fuel := by
          have := Finset.card_erase_lt_of_mem (hBelow d (.single hDep))
          omega
        obtain ⟨r, hTest, hIff⟩ := @ih (update acquired s (-1)) d (below.erase d)
          (fun x hx => Finset.mem_erase.mpr ⟨fun h => hAcyclic d (h ▸ hx),
            hBelow x (.head hDep hx)⟩) hLess
          (fun x hx => by rw [hSame hDep hx]; exact hMarks x (.head hDep hx))
        refine ⟨r, hTest, hIff.trans (exists_congr fun x => and_congr_right fun hx => ?_)⟩
        rw [hSame hDep hx]
    refine ⟨r, ?_, hIff.trans (or_iff_right hPos).symm⟩
    rw [if_neg hPos, hZero, if_neg (lt_irrefl 0), hLoop]
    simp [← hZero]

/-- The slice that a call names last. -/
def Call.last : Call → Nat
  | .init d | .dependsOn _ d | .acquire d | .release d | .exit d => d

def Call.change : Call → Nat → Int
  | .acquire i, s => if i = s then 1 else 0
  | .release i, s => if i = s then -1 else 0
  | _, _ => 0

/-- How much more often a slice was acquired than released. -/
def outstanding (calls : List Call) (s : Nat) : Int := (calls.map (·.change s)).sum

/-- No slice is released more often than acquired, or held 2^31 times. -/
def Balanced (calls : List Call) : Prop :=
  ∀ p, p <+: calls → ∀ s, 0 ≤ outstanding p s ∧ outstanding p s < 2 ^ 31

variable {t : Slices} {c : Call} {calls : List Call}

theorem run_concat : run (calls ++ [c]) = (run calls).call c := by simp [run]

theorem call_acquired (h : 0 ≤ t.acquired s + c.change s ∧ t.acquired s + c.change s < 2 ^ 31) :
    (t.call c).acquired s = t.acquired s + c.change s := by
  have hAdd {n : Int} (h : 0 ≤ t.acquired s + n ∧ t.acquired s + n < 2 ^ 31) :
      add n (t.acquired s) = t.acquired s + n := by
    rw [add, Int.bmod_eq_of_le (by omega) (by omega)]
    omega
  cases c with
  | init | dependsOn | exit => exact (Int.add_zero _).symm
  | acquire i | release i =>
    by_cases hi : i = s
    · subst hi
      simp only [Call.change, if_true] at h ⊢
      exact (update_self ..).trans (hAdd h)
    · simp [Slices.call, Call.change, hi, Ne.symm hi]

/-- Over a run of balanced calls the counter of a slice is the number of open acquisitions. -/
theorem acquired_run (h : Balanced calls) (s : Nat) :
    (run calls).acquired s = outstanding calls s := by
  induction calls using List.reverseRecOn with
  | nil => rfl
  | append_singleton calls c ih =>
    have hNow := ih fun p hp => h p (hp.trans (prefix_append _ _))
    have hNext := h _ (prefix_refl _) s
    have hSum : outstanding (calls ++ [c]) s = outstanding calls s + c.change s := by
      simp [outstanding]
    rw [hSum, ← hNow] at hNext ⊢
    rw [run_concat]
    exact call_acquired hNext

theorem mem_deps (h : d ∈ (run calls).deps s) : .dependsOn s d ∈ calls := by
  induction calls using List.reverseRecOn with
  | nil => exact absurd h not_mem_nil
  | append_singleton calls c ih =>
    rw [run_concat] at h
    have hStep : d ∈ (run calls).deps s ∨ c = .dependsOn s d := by
      cases c <;> simp only [Slices.call, update_apply] at h <;> grind
    rcases hStep with h | rfl
    · exact mem_append_left _ (ih h)
    · exact mem_concat_self

/-- After any calls, `slice_acquired` tells whether something at or below the slice is held, and
leaves the counters as they were. A poller that goes on only when it returns false thus never runs
while a slice below its own is in use. -/
theorem sliceAcquired_iff (h : Balanced calls)
    (hAcyclic : ∀ s, ¬TransGen (Dep (run calls).deps) s s) (s : Nat) :
    ∃ fuel r, sliceAcquired (run calls).deps fuel s (run calls).acquired =
        some (r, (run calls).acquired) ∧
      (r = true ↔ ∃ d, ReflTransGen (Dep (run calls).deps) s d ∧ 0 < outstanding calls d) ∧
      (r = false → ∀ d, ReflTransGen (Dep (run calls).deps) s d → outstanding calls d = 0) := by
  have hBelow d (hd : TransGen (Dep (run calls).deps) s d) :
      d ∈ (calls.map Call.last).toFinset := by
    obtain ⟨c, -, hDep⟩ := TransGen.tail'_iff.mp hd
    exact mem_toFinset.mpr (mem_map.mpr ⟨_, mem_deps hDep, rfl⟩)
  obtain ⟨r, hEq, hIff⟩ := sliceAcquired_eq hAcyclic hBelow (Nat.lt_succ_self _)
    fun d _ => acquired_run h d ▸ (h _ (prefix_refl _) d).1
  simp only [Used, acquired_run h] at hIff
  refine ⟨_, r, hEq, hIff, fun hFalse d hd => ?_⟩
  have hNot : ¬0 < outstanding calls d := fun hHeld => by simp [hIff.mpr ⟨d, hd, hHeld⟩] at hFalse
  have hNonneg := (h _ (prefix_refl _) d).1
  omega

/-- Slice 0 depends on 1 and 2, and both of them on 3, which is held. -/
def diamond : List Call :=
  [.init 0, .init 1, .init 2, .init 3, .dependsOn 0 1, .dependsOn 0 2,
    .dependsOn 1 3, .dependsOn 2 3, .acquire 3]

theorem diamond_balanced : Balanced diamond := by
  intro p hp s
  have hMem : p ∈ diamond.inits := (mem_inits p diamond).mpr hp
  have hCount : outstanding p s = 0 ∨ outstanding p s = 1 := by
    simp only [diamond, inits, map_cons, map_nil, mem_cons, not_mem_nil, or_false] at hMem
    rcases hMem with rfl | rfl | rfl | rfl | rfl | rfl | rfl | rfl | rfl | rfl <;>
      simp [outstanding, Call.change]
    exact ne_or_eq 3 s
  omega

theorem diamond_deps {s d : Nat} (h : Dep (run diamond).deps s d) : s < d := by
  have hMem := mem_deps h
  simp [diamond] at hMem
  omega

/-- The slice at the top of the diamond is in use because the one at its bottom is. -/
theorem sliceAcquired_diamond :
    ∃ fuel, sliceAcquired (run diamond).deps fuel 0 (run diamond).acquired =
    some (true, (run diamond).acquired) := by
  have hRank {s d} (h : TransGen (Dep (run diamond).deps) s d) : s < d := by
    induction h with
    | single h => exact diamond_deps h
    | tail _ h ih => exact ih.trans (diamond_deps h)
  obtain ⟨fuel, r, hEq, hIff, -⟩ :=
    sliceAcquired_iff diamond_balanced (fun s h => (hRank h).false) 0
  have hPath : ReflTransGen (Dep (run diamond).deps) 0 3 :=
    .tail (.single (show 1 ∈ (run diamond).deps 0 by decide))
      (show 3 ∈ (run diamond).deps 1 by decide)
  exact ⟨fuel, (hIff.mpr ⟨3, hPath, by decide⟩) ▸ hEq⟩

theorem outstanding_replicate :
    outstanding (replicate n (.acquire 0)) s = if 0 = s then (n : Int) else 0 := by
  simp [outstanding, Call.change]

theorem balanced_replicate (h : n < 2 ^ 31) : Balanced (replicate n (.acquire 0)) := by
  intro p hp s
  obtain ⟨hLe, hp⟩ := prefix_replicate_iff.mp hp
  rw [hp, outstanding_replicate]
  split <;> omega

theorem not_dep_replicate : ¬Dep (run (replicate n (.acquire 0))).deps s d :=
  fun h => nomatch eq_of_mem_replicate (mem_deps h)

theorem acquired_replicate (h : n < 2 ^ 31) :
    (run (replicate (n + 1) (.acquire 0))).acquired 0 = add 1 n := by
  simp only [replicate_succ', run_concat, Slices.call, update_self,
    acquired_run (balanced_replicate h), outstanding_replicate,
    if_true]

/-- The counter of a slice that is held 2^31 times is zero again. -/
theorem sliceAcquired_wraps :
    0 < outstanding (replicate (2 ^ 31) (.acquire 0)) 0 ∧
      (sliceAcquired (run (replicate (2 ^ 31) (.acquire 0))).deps 1 0
        (run (replicate (2 ^ 31) (.acquire 0))).acquired).map
        Prod.fst = some false := by
  have hDeps : (run (replicate (2 ^ 31) (.acquire 0))).deps 0 = [] :=
    eq_nil_iff_forall_not_mem.mpr fun _ => not_dep_replicate
  have hZero : (run (replicate (2 ^ 31) (.acquire 0))).acquired 0 = 0 := by
    rw [show 2 ^ 31 = 2 ^ 31 - 1 + 1 by rfl, acquired_replicate (by decide)]
    decide
  refine ⟨by rw [outstanding_replicate]; decide, ?_⟩
  rw [sliceAcquired, hZero, hDeps]
  rfl

end Barebox.Slice
