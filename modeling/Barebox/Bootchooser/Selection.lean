import Barebox.Bootchooser.Chooser

/-! Which target is chosen. The list of targets is sorted once, by the
priorities that are read when the bootchooser is made. Later changes of the
priorities leave the order of the list as it is, and the first target that is
acceptable is taken. -/
namespace Barebox.Bootchooser
open Bytes Lib List

def Target.key (t : Target) : Nat × List UInt8 := (t.id, t.name)

/-- The order of a list of targets that was built when the targets had the
priorities: higher priorities first, equal ones in the order of the ids. -/
def Ahead (priority : List UInt8 → UInt32) (a b : Nat × List UInt8) : Prop :=
  priority b.2 < priority a.2 ∨ priority a.2 = priority b.2 ∧ a.1 < b.1

variable {priority : List UInt8 → UInt32} {a b : Nat × List UInt8} {f : Target → Target}

theorem Ahead.trans {c : Nat × List UInt8}
    (hab : Ahead priority a b) (hbc : Ahead priority b c) : Ahead priority a c := by
  simp only [Ahead, UInt32.lt_iff_toNat_lt, ← UInt32.toNat_inj] at *
  omega

theorem Ahead.asymm (hab : Ahead priority a b) : ¬Ahead priority b a := by grind [Ahead]

theorem map_key_map (hf : ∀ t, (f t).key = t.key) (targets : List Target) :
    (targets.map f).map Target.key = targets.map Target.key := by grind [map_congr_left]

theorem map_key_update (hf : ∀ t, (f t).key = t.key) (id : Nat) (targets : List Target) :
    (updateTarget id f targets).map Target.key = targets.map Target.key := by
  refine map_key_map (fun t => ?_) targets
  split_ifs
  · exact hf t
  · rfl

variable {targets : List Target}

theorem listAddSort_ahead {new : Target} (hNew : new.priority = priority new.name)
    (hIds : ∀ t ∈ targets, t.id < new.id)
    (hRead : ∀ t ∈ targets, t.priority = priority t.name)
    (hSorted : (targets.map Target.key).Pairwise (Ahead priority)) :
    ((listAddSort bootchooserTargetCompare new targets).map Target.key).Pairwise
      (Ahead priority) := by
  rw [pairwise_map] at hSorted ⊢
  refine listAddSort_pairwise (fun a b c hab hbc => hab.trans hbc) hSorted
    (fun t ht hBelow => ?_) (fun t ht hAbove => ?_)
  · rw [bootchooserTargetCompare] at hBelow
    split_ifs at hBelow with hLe
    · rw [hRead t ht, hNew, UInt32.le_iff_toNat_le] at hLe
      rcases hLe.lt_or_eq with hLt | hEq
      · exact .inl (UInt32.lt_iff_toNat_lt.mpr hLt)
      · exact .inr ⟨(UInt32.toNat_inj.mp hEq).symm, hIds t ht⟩
    · exact absurd hBelow (by decide)
  · rw [bootchooserTargetCompare] at hAbove
    split_ifs at hAbove with hLe
    · exact absurd (by decide) hAbove
    · rw [hRead t ht, hNew, UInt32.le_iff_toNat_le, not_le] at hLe
      exact .inl (UInt32.lt_iff_toNat_lt.mpr hLe)

section
variable {ε : Type} (ops : EnvOps ε) (cfg : Config) (env : ε)

def readPriority (name : List UInt8) : UInt32 := (bootchooserTargetNew ops cfg env name 0).priority

variable (name : List UInt8) (id : Nat)

@[simp] theorem bootchooserTargetNew_id :
    (bootchooserTargetNew ops cfg env name id).id = id := by rfl

theorem foldl_listAddSort_targets (names : List (List UInt8)) (next : Nat) (targets : List Target)
    (hIds : ∀ t ∈ targets, t.id < next)
    (hRead : ∀ t ∈ targets, t.priority = readPriority ops cfg env t.name)
    (hSorted : (targets.map Target.key).Pairwise (Ahead (readPriority ops cfg env))) :
    let built := (names.zipIdx next).foldl (fun targets entry =>
      listAddSort bootchooserTargetCompare
        (bootchooserTargetNew ops cfg env entry.1 entry.2) targets) targets
    (built.map Target.key).Pairwise (Ahead (readPriority ops cfg env)) ∧
      built.Perm (targets ++ (names.zipIdx next).map
        fun entry => bootchooserTargetNew ops cfg env entry.1 entry.2) := by
  induction names generalizing next targets with
  | nil => exact ⟨hSorted, by simp⟩
  | cons name rest ih =>
    simp only [zipIdx_cons, foldl_cons, map_cons]
    have hId := bootchooserTargetNew_id ops cfg env name next
    have hPriority : (bootchooserTargetNew ops cfg env name next).priority =
        readPriority ops cfg env (bootchooserTargetNew ops cfg env name next).name := by rfl
    generalize bootchooserTargetNew ops cfg env name next = new at hId hPriority ⊢
    have hPerm : (listAddSort bootchooserTargetCompare new targets).Perm (new :: targets) :=
      listAddSort_perm new targets
    have hNext := ih (next + 1) (listAddSort bootchooserTargetCompare new targets) ?_ ?_
      (listAddSort_ahead hPriority (hId ▸ hIds) hRead hSorted)
    · exact ⟨hNext.1, hNext.2.trans ((hPerm.append_right _).trans perm_middle.symm)⟩
    · intro t ht
      rcases mem_cons.mp (hPerm.mem_iff.mp ht) with rfl | ht
      · exact hId ▸ Nat.lt_succ_self t.id
      · exact (hIds t ht).trans (Nat.lt_succ_self next)
    intro t ht
    rcases mem_cons.mp (hPerm.mem_iff.mp ht) with rfl | ht
    · exact hPriority
    · exact hRead t ht

theorem buildTargets_sorted :
    ((buildTargets ops cfg env).map Target.key).Pairwise (Ahead (readPriority ops cfg env)) :=
  (foldl_listAddSort_targets ops cfg env (targetNames cfg) 1 [] (by simp) (by simp) Pairwise.nil).1

theorem buildTargets_perm : (buildTargets ops cfg env).Perm (((targetNames cfg).zipIdx 1).map
      fun entry => bootchooserTargetNew ops cfg env entry.1 entry.2) :=
  (foldl_listAddSort_targets ops cfg env (targetNames cfg) 1 [] (by simp) (by simp) Pairwise.nil).2

def targetKeys : List (Nat × List UInt8) := ((targetNames cfg).zipIdx 1).map Prod.swap

theorem buildTargets_keys : ((buildTargets ops cfg env).map Target.key).Perm (targetKeys cfg) := by
  have h := (buildTargets_perm ops cfg env).map Target.key
  rwa [map_map] at h

theorem targetKeys_ids_nodup : ((targetKeys cfg).map Prod.fst).Nodup := by
  have hIds : (targetKeys cfg).map Prod.fst = range' 1 (targetNames cfg).length := by
    rw [targetKeys, map_map, ← zipIdx_map_snd 1 (targetNames cfg)]
    rfl
  rw [hIds]
  exact nodup_range'

end

section Keys
variable {cfg : Config} {targets : List Target}

theorem resetPrioritiesOn_keys :
    (resetPrioritiesOn cfg targets).map Target.key = targets.map Target.key := by
  rw [resetPrioritiesOn]
  split_ifs
  · exact map_key_map (f := bootchooserTargetSetPriority (-1)) (fun _ => rfl) targets
  · rfl

theorem bootchooserResetAttempts_keys :
    (bootchooserResetAttempts targets).map Target.key = targets.map Target.key := by
  refine map_key_map (fun t => ?_) targets
  split_ifs <;> rfl

theorem resetAttemptsOnce_keys {option : ResetAttempts} {source : ResetSource} {resetted : Bool} :
    (resetAttemptsOnce cfg option source (targets, resetted)).1.map Target.key =
    targets.map Target.key := by
  rw [resetAttemptsOnce]
  split_ifs
  · exact bootchooserResetAttempts_keys
  · rfl

theorem resetAttemptsOn_keys :
    (resetAttemptsOn cfg targets).map Target.key = targets.map Target.key := by
  rw [resetAttemptsOn]
  split_ifs
  · exact bootchooserResetAttempts_keys
  · rfl

theorem settleTargets_keys {successful : Bool} {lastChosen : Option Nat} :
    (settleTargets cfg successful lastChosen targets).map Target.key = targets.map Target.key := by
  have hDisable (l : List Target) : (if cfg.disableOnZeroAttempts then
      l.map fun t => if t.remainingAttempts = 0 then bootchooserTargetDisable t else t
      else l).map Target.key = l.map Target.key := by
    split_ifs
    · refine map_key_map (fun t => ?_) l
      split_ifs <;> rfl
    · rfl
  unfold settleTargets
  rw [hDisable]
  cases lastChosen with
  | none => rfl
  | some id =>
    cases successful with
    | false => rfl
    | true =>
      exact map_key_update (f := bootchooserTargetSetAttempts (-1)) (fun _ => rfl) id targets

theorem chooseTarget_keys (bc : Chooser) (target : Target) :
    (chooseTarget bc target).targets.map Target.key = bc.targets.map Target.key := by
  rw [chooseTarget]
  split_ifs
  · rfl
  · apply map_key_update
    exact fun _ => rfl

end Keys

section
variable {ε : Type} {ops : EnvOps ε} {cfg : Config} {env : ε}
    {resetted successful resetted' : Bool} {bc : Chooser}
  (h : bootchooserNew ops cfg resetted successful env = .ok (bc, resetted'))
include h

theorem bootchooserNew_ok :
    ∃ targets, targets.map Target.key = (buildTargets ops cfg env).map Target.key ∧
      targets = resetAttemptsOn cfg (resetAttemptsOnce cfg .srcRst .rst (resetAttemptsOnce cfg
        .powerOn .por (resetPrioritiesOn cfg (buildTargets ops cfg env), resetted))).1 ∧
      bc.lastChosen = readLastChosen ops cfg env targets ∧
      bc.targets = settleTargets cfg successful bc.lastChosen targets ∧
      bc.state = decide (cfg.statePrefix ≠ []) ∧ bc.statePrefix = chooserPrefix cfg ∧
      bc.refs = 1 ∧ bc.attemptsLocked = (cfg.attemptsLocked ||
        (getenvU32 ops env (chooserPrefix cfg) (ascii "attempts_locked")).any (· ≠ 0)) := by
  simp only [bootchooserNew] at h
  by_cases hState : cfg.statePrefix ≠ [] ∧
    ¬(cfg.configState ∧ ops.stateByName env (cfg.statePrefix.takeWhile (· ≠ 46)))
  · rw [if_pos hState] at h
    cases h
  rw [if_neg hState] at h
  by_cases hNames : targetNames cfg = []
  · rw [if_pos hNames] at h
    cases h
  rw [if_neg hNames] at h
  cases h
  refine ⟨_, ?_, rfl, rfl, rfl, rfl, rfl, rfl, rfl⟩
  grind [resetAttemptsOn_keys, resetAttemptsOnce_keys, resetPrioritiesOn_keys]

theorem bootchooserNew_keys :
    bc.targets.map Target.key = (buildTargets ops cfg env).map Target.key := by
  obtain ⟨targets, hKeys, -, -, hTargets, -⟩ := bootchooserNew_ok h
  rw [hTargets, settleTargets_keys, hKeys]

end

inductive Call where
  | setPriority (id : Nat) (priority : Int32)
  | setAttempts (id : Nat) (attempts : Int32)
  | getTarget

section
variable {ε : Type} (ops : EnvOps ε) (s : Chooser × ε)

def applyCall : Call → Chooser × ε
  | .setPriority id priority =>
    ({ s.1 with targets := updateTarget id (bootchooserTargetSetPriority priority) s.1.targets },
      s.2)
  | .setAttempts id attempts =>
    ({ s.1 with targets := updateTarget id (bootchooserTargetSetAttempts attempts) s.1.targets },
      s.2)
  | .getTarget => (bootchooserGetTarget ops s.1 s.2).2

def applyCalls (calls : List Call) : Chooser × ε := calls.foldl (applyCall ops) s

theorem bootchooserGetTarget_keys (bc : Chooser) (env : ε) :
    (bootchooserGetTarget ops bc env).2.1.targets.map Target.key = bc.targets.map Target.key := by
  rw [bootchooserGetTarget]
  cases bc.targets.find? bootchooserTargetOk with
  | none => rfl
  | some target => exact chooseTarget_keys bc target

theorem applyCall_keys (call : Call) :
    (applyCall ops s call).1.targets.map Target.key = s.1.targets.map Target.key := by
  cases call with
  | setPriority id priority =>
    exact map_key_update (f := bootchooserTargetSetPriority priority) (fun _ => rfl) id s.1.targets
  | setAttempts id attempts =>
    exact map_key_update (f := bootchooserTargetSetAttempts attempts) (fun _ => rfl) id s.1.targets
  | getTarget => exact bootchooserGetTarget_keys ops s.1 s.2

theorem applyCalls_keys (calls : List Call) :
    (applyCalls ops s calls).1.targets.map Target.key = s.1.targets.map Target.key := by
  induction calls generalizing s with
  | nil => rfl
  | cons call rest ih => exact (ih (applyCall ops s call)).trans (applyCall_keys ops s call)

def Acceptable (t : Target) : Prop := 0 < t.priority ∧ 0 < t.remainingAttempts

theorem bootchooserTargetOk_iff (t : Target) : bootchooserTargetOk t = true ↔ Acceptable t := by
  simp [bootchooserTargetOk, Acceptable, UInt32.pos_iff_ne_zero]

/-- The target that is chosen is acceptable and has the highest priority among
the acceptable ones, and there is an error only if there is none. -/
def ChoosesBest (bc : Chooser) (env : ε) : Prop :=
  match (bootchooserGetTarget ops bc env).1 with
  | .ok target => target ∈ bc.targets ∧ Acceptable target ∧
      ∀ t ∈ bc.targets, Acceptable t → t.priority ≤ target.priority
  | .error e => e = .enoent ∧ ∀ t ∈ bc.targets, ¬Acceptable t

/-- No acceptable target has a higher priority than the acceptable target that
comes first by the priorities at the time the list was built. -/
def OrderHolds (priority : List UInt8 → UInt32) (targets : List Target) : Prop :=
  ∀ a ∈ targets, Acceptable a →
    (∀ t ∈ targets, Acceptable t → t.id = a.id ∨ Ahead priority a.key t.key) →
    ∀ b ∈ targets, Acceptable b → b.priority ≤ a.priority

end

/-- In a list that is sorted by other priorities, the first acceptable target is
the only one that is ahead of all acceptable ones. -/
theorem find?_ahead {target : Target} (hSorted : (targets.map Target.key).Pairwise (Ahead priority))
    (hFind : targets.find? bootchooserTargetOk = some target) :
    ∀ t ∈ targets, Acceptable t → t = target ∨ Ahead priority target.key t.key := by
  intro t ht hAcceptable
  obtain ⟨-, before, after, rfl, hBefore⟩ := find?_eq_some_iff_append.mp hFind
  rw [pairwise_map, pairwise_append] at hSorted
  rcases mem_append.mp ht with ht | ht
  · have hNot := hBefore t ht
    rw [(bootchooserTargetOk_iff t).mpr hAcceptable] at hNot
    cases hNot
  · rcases mem_cons.mp ht with rfl | ht
    · exact .inl rfl
    · exact .inr ((pairwise_cons.mp hSorted.2.1).1 t ht)

theorem choosesBest_iff {ε : Type} (ops : EnvOps ε) {bc : Chooser}
    (hSorted : (bc.targets.map Target.key).Pairwise (Ahead priority))
    (hIds : (bc.targets.map Target.id).Nodup)
    (env : ε) : ChoosesBest ops bc env ↔ OrderHolds priority bc.targets := by
  rw [ChoosesBest, bootchooserGetTarget]
  rcases hFind : bc.targets.find? bootchooserTargetOk with _ | target
  · have hNone : ∀ t ∈ bc.targets, ¬Acceptable t := fun t ht hAcceptable =>
      find?_eq_none.mp hFind t ht ((bootchooserTargetOk_iff t).mpr hAcceptable)
    exact iff_of_true ⟨rfl, hNone⟩ fun a ha hAcceptable => absurd hAcceptable (hNone a ha)
  have hMem := mem_of_find?_eq_some hFind
  have hTarget := (bootchooserTargetOk_iff target).mp (find?_some hFind)
  have hAhead := find?_ahead hSorted hFind
  constructor
  · rintro ⟨-, -, hBest⟩ a ha hAcceptable hFirst
    have hEq : a = target := by
      rcases hAhead a ha hAcceptable with rfl | hTargetFirst
      · rfl
      · rcases hFirst target hMem hTarget with hId | hAFirst
        · exact (inj_on_of_nodup_map hIds hMem ha hId).symm
        · exact absurd hAFirst hTargetFirst.asymm
    exact hEq ▸ hBest
  · intro hOrder
    refine ⟨hMem, hTarget, hOrder target hMem hTarget fun t ht hAcceptable => ?_⟩
    exact (hAhead t ht hAcceptable).imp_left (congrArg Target.id)

/-- For every bootchooser that `bootchooser_get` makes and whatever is called on
it, the next target is the best one exactly if the priorities at the time the
list was built still put an acceptable target of the highest priority first. -/
theorem bootchooserGetTarget_best_iff {ε : Type} (ops : EnvOps ε) (cfg : Config)
    (resetted successful resetted' : Bool) (env : ε) (bc : Chooser)
    (hGet : bootchooserNew ops cfg resetted successful env = .ok (bc, resetted'))
    (calls : List Call) :
    let s := applyCalls ops (bc, env) calls
    ChoosesBest ops s.1 s.2 ↔ OrderHolds (readPriority ops cfg env) s.1.targets := by
  intro s
  have hKeys : s.1.targets.map Target.key = (buildTargets ops cfg env).map Target.key :=
    (applyCalls_keys ops (bc, env) calls).trans (bootchooserNew_keys hGet)
  refine choosesBest_iff ops ?_ ?_ s.2
  · simp [hKeys, buildTargets_sorted]
  have hIds := (((buildTargets_keys ops cfg env).map Prod.fst).nodup_iff).mpr
    (targetKeys_ids_nodup cfg)
  rw [← hKeys, map_map] at hIds
  exact hIds

def emptyEnv : EnvOps Unit where
  getenv _ _ := none
  setenv _ _ _ := (.error .enodev, ())
  nvvarAdd _ _ _ := (.error .enosys, ())
  stateByName _ _ := false
  stateSave _ := (.ok (), ())
  nvvarSave _ := (.ok (), ())

def twoTargets : Config where
  availableTargets := [97, 32, 98]

def freshTarget (id : Nat) (name : UInt8) : Target := ⟨1, 3, id, [name], 3, 1, [name]⟩

def freshChooser : Chooser where
  targets := [freshTarget 1 97, freshTarget 2 98]
  state := false
  statePrefix := ascii "nv.bootchooser"
  attemptsLocked := false

/-- The first target has no attempts left, so the second one is the best. -/
theorem bootchooserGetTarget_best_iff_second :
    bootchooserNew emptyEnv twoTargets false false () = .ok (freshChooser, false) ∧
      ChoosesBest emptyEnv (applyCalls emptyEnv (freshChooser, ()) [.setAttempts 1 0]).1 () := by
  refine ⟨rfl,
    (bootchooserGetTarget_best_iff emptyEnv twoTargets false false false () freshChooser rfl
    [.setAttempts 1 0]).mpr ?_⟩
  intro a ha hAcceptable _ b hb hOther
  have hAll : ∀ t ∈ (applyCalls emptyEnv (freshChooser, ()) [.setAttempts 1 0]).1.targets,
      t.priority = 1 := by
    decide
  rw [hAll a ha, hAll b hb]
  exact UInt32.le_refl 1

/-- After the priority of the second target was raised, the first target is
still chosen. -/
theorem bootchooserGetTarget_lower_priority :
    bootchooserNew emptyEnv twoTargets false false () = .ok (freshChooser, false) ∧
      (let s := applyCalls emptyEnv (freshChooser, ()) [.setPriority 2 2]
      (bootchooserGetTarget emptyEnv s.1 s.2).1 = .ok (freshTarget 1 97) ∧
        { freshTarget 2 98 with priority := 2 } ∈ s.1.targets ∧ ¬ChoosesBest emptyEnv s.1 s.2) := by
  refine ⟨rfl, rfl, by decide, ?_⟩
  rintro ⟨-, -, hBest⟩
  have hLe := hBest { freshTarget 2 98 with priority := 2 } (by decide) ⟨by decide, by decide⟩
  exact absurd hLe (by decide)

end Barebox.Bootchooser
