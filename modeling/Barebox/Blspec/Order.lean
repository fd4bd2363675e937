import Mathlib.Data.List.ReduceOption
import Mathlib.Data.List.Sort
import Barebox.Lib.ListSort

/-! The order of boot loader specification entries. `blspec_compare` is compared with
the order the specification asks for. `strverscmp` is a parameter: any total
preorder of strings. -/
namespace Barebox.Blspec
open List Std Barebox.Lib

/-- A string without its terminator. -/
abbrev Text := List UInt8

/-- What the comparison reads of a `struct blspec_entry`: the path of the configuration
file, the cached sort-key and two variables. -/
structure BlspecEntry where
  path : Text
  sortkey : Option Text
  machineId : Option Text
  version : Option Text
  terminated : ∀ s ∈ [some path, sortkey, machineId, version].reduceOption, 0 ∉ s := by decide
  deriving DecidableEq

/-- The loop of `strcmp`: the difference of the first bytes that are not the same, the
terminators included. -/
def firstDifference : Text → Text → Int
  | [], [] => 0
  | [], y :: _ => 0 - y.toNat
  | x :: _, [] => x.toNat
  | x :: xs, y :: ys => if x = y then firstDifference xs ys else x.toNat - y.toNat

/-- The generic `strcmp`, which keeps the difference in a `signed char`. -/
def strcmp (cs ct : Text) : Int := (firstDifference cs ct).bmod 256

def strcmpPtr : Option Text → Option Text → Int
  | some a, some b => strcmp a b
  | none, none => 0
  | none, some _ => -1
  | some _, none => 1

/-- The value of `compare3`. -/
def compare3 : Ordering → Int
  | .lt => -1
  | .eq => 0
  | .gt => 1

variable (strverscmp : Text → Text → Ordering) (a b : BlspecEntry) (s t : Text)

/-- `strverscmp` reads a missing version as the empty string. -/
def blspecCompare : Int :=
  match a.sortkey, b.sortkey with
  | some k, some l =>
    if strcmp k l ≠ 0 then strcmp k l
    else if strcmpPtr a.machineId b.machineId ≠ 0 then strcmpPtr a.machineId b.machineId
    else -compare3 (strverscmp (a.version.getD []) (b.version.getD []))
  | some _, none => -1
  | none, some _ => 1
  | none, none => -compare3 (strverscmp a.path b.path)

/-- `bootentries_add_entry_sorted` for one entry after the other. -/
def addEntriesSorted (entries : List BlspecEntry) : List BlspecEntry :=
  listAddAll (blspecCompare strverscmp) entries []

/-! The order of the specification. -/

def conf : Text := [46, 99, 111, 110, 102]

/-- The file name of an entry without `.conf`. -/
def BlspecEntry.name (e : BlspecEntry) : Text :=
  let file := (e.path.reverse.takeWhile (· ≠ 47)).reverse
  if conf <:+ file then file.take (file.length - conf.length) else file

/-- The machine-id and the version only count next to a sort-key. -/
def BlspecEntry.keyed (e : BlspecEntry) (value : Option Text) : Option Text :=
  e.sortkey.bind fun _ => value

def newerFirst (key : BlspecEntry → Text) (a b : BlspecEntry) : Ordering :=
  strverscmp (key b) (key a)

def specification : BlspecEntry → BlspecEntry → Ordering :=
  compareLex (compareOn (·.sortkey.isNone)) <|
    compareLex (compareOn (·.sortkey)) <|
    compareLex (compareOn fun e => e.keyed e.machineId) <|
    compareLex (newerFirst strverscmp fun e => (e.keyed e.version).getD []) <|
    newerFirst strverscmp (·.name)

def Before : Prop := specification strverscmp a b = .lt

instance [TransCmp strverscmp] (key : BlspecEntry → Text) :
    TransCmp (newerFirst strverscmp key) where
  eq_swap {_ _} := @OrientedCmp.eq_swap _ strverscmp _ _ _
  isLE_trans hab hbc := @TransCmp.isLE_trans _ strverscmp _ _ _ _ hbc hab

instance [TransCmp strverscmp] : TransCmp (specification strverscmp) :=
  inferInstanceAs (TransCmp (compareLex _ _))

/-- Strings whose first bytes that are not the same are at most 127 apart. -/
def Near (s t : Option Text) : Prop := ∀ x ∈ s, ∀ y ∈ t, (firstDifference x y).natAbs ≤ 127

/-- What the fields of two entries have to satisfy for `blspec_compare` to order them. -/
def Regular : Prop :=
  match a.sortkey, b.sortkey with
  | some k, some l =>
    Near (some k) (some l) ∧ (some k = some l → Near a.machineId b.machineId ∧
      (a.machineId = b.machineId → strverscmp (a.version.getD []) (b.version.getD []) ≠ .eq))
  | none, none => strverscmp a.path b.path = strverscmp a.name b.name
  | _, _ => True

variable {strverscmp}

theorem firstDifference_bounds : -255 ≤ firstDifference s t ∧ firstDifference s t ≤ 255 := by
  fun_induction firstDifference s t with
  | case1 => decide
  | case4 x xs ys ih => exact ih
  | case2 y | case3 x | case5 x xs y ys hNe => grind [UInt8.toNat_lt]

/-- The order of strings is the sign of their first difference. -/
theorem firstDifference_lt {s t : Text} (hs : 0 ∉ s) (ht : 0 ∉ t) :
    (firstDifference s t < 0 ↔ compare s t = .lt) ∧ (firstDifference s t = 0 ↔ s = t) := by
  fun_induction firstDifference s t with
  | case1 => decide
  | case2 y ys =>
    have hy : y.toNat ≠ 0 := fun h => ht (by simp [← UInt8.toNat_inj, h])
    simp [hy]; omega
  | case3 x xs =>
    have hx : x.toNat ≠ 0 := fun h => hs (by simp [← UInt8.toNat_inj, h])
    simp [hx]
  | case4 x xs ys ih =>
    have hRest := ih (fun h => hs (.tail _ h)) (fun h => ht (.tail _ h))
    simpa [List.compare_cons_cons] using hRest
  | case5 x xs y ys hNe =>
    have hDiff : x.toNat ≠ y.toNat := fun h => hNe (UInt8.toNat_inj.mp h)
    simp [List.compare_cons_cons, Ordering.then_eq_lt, Std.compare_eq_lt,
      UInt8.lt_iff_toNat_lt, hNe]
    omega

theorem firstDifference_swap : firstDifference t s = -firstDifference s t := by
  fun_induction firstDifference s t <;> grind [firstDifference]

theorem strcmp_eq_zero {s t : Text} (hs : 0 ∉ s) (ht : 0 ∉ t) : strcmp s t = 0 ↔ s = t := by
  have hBounds := firstDifference_bounds s t
  rw [← (firstDifference_lt hs ht).2, strcmp, Int.bmod_def]
  omega

variable {m n : Option Text} (hm : ∀ s ∈ m, 0 ∉ s) (hn : ∀ t ∈ n, 0 ∉ t)
include hm hn

theorem strcmpPtr_eq_zero : strcmpPtr m n = 0 ↔ m = n := by
  cases m with
  | none => cases n <;> simp [strcmpPtr]
  | some s =>
    cases n with
    | none => simp [strcmpPtr]
    | some t => simpa [strcmpPtr] using strcmp_eq_zero (hm s rfl) (hn t rfl)

/-- `strcmp` orders two strings, and not the other way around as well, exactly if they
are near. -/
theorem near_iff (h : compare m n = .lt) : Near m n ↔ strcmpPtr m n < 0 ∧ ¬strcmpPtr n m < 0 := by
  rcases m with _ | s
  · cases n <;> simp_all [strcmpPtr, Near]
  cases n with
  | none => cases h
  | some t =>
    have hBounds := firstDifference_bounds s t
    have hNeg := (firstDifference_lt (hm s rfl) (hn t rfl)).1.mpr h
    simp only [Near, Option.mem_some, forall_eq', strcmpPtr,
      strcmp, firstDifference_swap s t, Int.bmod_def]
    omega

/-- One level of the comparison: what comes behind only counts if the strings are the
same. -/
theorem level_iff {rest : Ordering}
    (h : (compare m n).then rest = .lt) {P : Prop} {x y : Int}
    (hRest : rest = .lt → (P ↔ x < 0 ∧ ¬y < 0)) :
    Near m n ∧ (m = n → P) ↔ (if strcmpPtr m n ≠ 0 then strcmpPtr m n else x) < 0 ∧
      ¬(if strcmpPtr n m ≠ 0 then strcmpPtr n m else y) < 0 := by
  by_cases hEq : m = n
  · subst hEq
    have hZero := (strcmpPtr_eq_zero hm hm).mpr rfl
    have hNear : Near m m := by
      intro s hs t ht
      have hSwap := firstDifference_swap s s
      rw [Option.mem_unique ht hs]
      omega
    rw [hZero, if_neg (not_not.mpr rfl), if_neg (not_not.mpr rfl), ← hRest (by simpa using h)]
    exact ⟨fun hP => hP.2 rfl, fun hP => ⟨hNear, fun _ => hP⟩⟩
  · have hLt : compare m n = .lt := by
      rcases Ordering.then_eq_lt.mp h with h | ⟨h, -⟩
      · exact h
      · exact absurd (by simpa using h) hEq
    rw [if_pos (mt (strcmpPtr_eq_zero hm hn).mp hEq),
      if_pos (mt (strcmpPtr_eq_zero hn hm).mp (Ne.symm hEq)),
      ← near_iff hm hn hLt]
    exact and_iff_left fun h => absurd h hEq

omit hm hn
variable [TransCmp strverscmp]

variable (strverscmp) in
/-- Versions and paths compare in decreasing order. -/
theorem compare3_neg_iff :
    -compare3 (strverscmp s t) < 0 ∧ ¬-compare3 (strverscmp t s) < 0 ↔ strverscmp s t = .gt := by
  rw [@OrientedCmp.eq_swap _ strverscmp _ t s]
  cases strverscmp s t <;> decide

/-- Two entries in the order of the specification compare so in both directions exactly
if their fields are regular. -/
theorem regular_iff {a b : BlspecEntry} (h : Before strverscmp a b) :
    Regular strverscmp a b ↔ blspecCompare strverscmp a b < 0 ∧
    ¬blspecCompare strverscmp b a < 0 := by
  simp only [Before, specification, compareLex, compareOn, BlspecEntry.keyed, newerFirst] at h
  unfold Regular blspecCompare
  cases ha : a.sortkey with
  | none =>
    cases hb : b.sortkey with
    | none =>
      have hName : strverscmp b.name a.name = .lt := by
        simpa [ha, hb, @ReflCmp.compare_self _ strverscmp] using h
      rw [OrientedCmp.gt_iff_lt.mpr hName]
      exact (compare3_neg_iff strverscmp a.path b.path).symm
    | some l =>
      rw [ha, hb] at h
      cases h
  | some k =>
    rcases hb : b.sortkey with _ | l
    · simp
    simp only [ha, hb, Option.isNone_some, compare_self, Ordering.eq_then, Option.bind_some] at h
    have hText (e : BlspecEntry) : (∀ s ∈ e.sortkey, 0 ∉ s) ∧ ∀ s ∈ e.machineId, 0 ∉ s := by
      constructor <;> exact fun s hs => e.terminated s (by simp_all [reduceOption_mem_iff])
    refine level_iff (ha ▸ (hText a).1) (hb ▸ (hText b).1) h fun h =>
      level_iff (hText a).2 (hText b).2 h fun h => ?_
    rw [compare3_neg_iff]
    rcases Ordering.then_eq_lt.mp h with hLt | ⟨hEq, -⟩
    · simp [OrientedCmp.gt_iff_lt.mpr hLt]
    · simp [OrientedCmp.eq_comm.mp hEq]

theorem before_or_before {a b : BlspecEntry} (h : strverscmp a.name b.name ≠ .eq) :
    Before strverscmp a b ∨ Before strverscmp b a := by
  cases hSpec : specification strverscmp a b with
  | lt => exact .inl hSpec
  | gt => exact .inr (OrientedCmp.gt_iff_lt.mp hSpec)
  | eq =>
    simp only [specification, compareLex, newerFirst, Ordering.then_eq_eq] at hSpec
    exact absurd (OrientedCmp.eq_comm.mp hSpec.2.2.2.2) h

/-- Whatever the order in which entries are found, they end up in the one list the
specification asks for, exactly if any two of them are regular. -/
theorem addEntriesSorted_iff {entries : List BlspecEntry} (hPaths : (entries.map (·.path)).Nodup)
    (hNames : ∀ a ∈ entries, ∀ b ∈ entries, a ≠ b → strverscmp a.name b.name ≠ .eq) :
    (∃ sorted, Pairwise (Before strverscmp) sorted ∧
        ∀ order, order ~ entries → addEntriesSorted strverscmp order = sorted) ↔
      ∀ a ∈ entries, ∀ b ∈ entries, Before strverscmp a b → Regular strverscmp a b := by
  have hIrrefl (a : BlspecEntry) : ¬Before strverscmp a a := by
    simp [Before, ReflCmp.compare_self]
  have hUnique := @listAddAll_unique_iff _ (blspecCompare strverscmp) _ _
    (fun a b c => TransCmp.lt_trans) hIrrefl
    hPaths.of_map fun a ha b hb hNe => before_or_before (hNames a ha b hb hNe)
  refine hUnique.trans ⟨fun h a ha b hb hBefore => ?_, fun h a ha b hb hBefore => ?_⟩
  · exact (regular_iff hBefore).mpr (h a ha b hb hBefore)
  · exact (regular_iff hBefore).mp (h a ha b hb hBefore)

/-- The entries of two files with a one-letter name and the same fields. -/
def twin (second : Bool) : BlspecEntry where
  path := (if second then 98 else 97) :: conf
  sortkey := some [107]
  machineId := none
  version := none
  terminated := by cases second <;> decide

theorem addEntriesSorted_iff_keyless :
    ∃ sorted, Pairwise (Before compare) sorted ∧ ∀ order,
      order ~ [twin false, { twin true with sortkey := none, terminated := by decide }] →
        addEntriesSorted compare order = sorted :=
  (addEntriesSorted_iff (by decide) (by decide)).mpr
    (by simp [Regular, twin, Before, ReflCmp.compare_self])

/-- The file name does not decide: the entry found last comes first. -/
theorem addEntriesSorted_twins :
    compare (twin false).name (twin true).name = .lt ∧
      addEntriesSorted compare [twin false, twin true] = [twin true, twin false] ∧
      addEntriesSorted compare [twin true, twin false] = [twin false, twin true] := by
  decide

end Barebox.Blspec
