import Barebox.Bootchooser.StateEnvironment

/-! Saving a bootchooser and getting it again. -/
namespace Barebox.Bootchooser
open Bytes Lib State List

structure OptionsOff (cfg : Config) : Prop where
  priorities : ∀ option, cfg.resetPriorities option = false
  attempts : ∀ option, cfg.resetAttempts option = false
  disable : cfg.disableOnZeroAttempts = false

def Target.row (t : Target) : (Nat × List UInt8) × UInt32 × UInt32 :=
  (t.key, t.priority, t.remainingAttempts)

section
variable {ε : Type} (ops : EnvOps ε) (cfg : Config) (env : ε)

def readAttempts (name : List UInt8) : UInt32 :=
  (bootchooserTargetNew ops cfg env name 0).remainingAttempts

theorem buildTargets_rows (t : Target) (ht : t ∈ buildTargets ops cfg env) :
    t.row = (t.key, readPriority ops cfg env t.name, readAttempts ops cfg env t.name) := by
  obtain ⟨entry, -, rfl⟩ := mem_map.mp ((buildTargets_perm ops cfg env).mem_iff.mp ht)
  rfl

variable (targets : List Target)

def ValuesRead : Prop :=
  ∀ t ∈ targets, t.priority = readPriority ops cfg env t.name ∧
    t.remainingAttempts = readAttempts ops cfg env t.name

/-- A list has the rows of a new list if it has its keys in the same order and
the values that are read. -/
theorem rows_eq_iff : (buildTargets ops cfg env).map Target.row = targets.map Target.row ↔
      (buildTargets ops cfg env).map Target.key = targets.map Target.key ∧
      ValuesRead ops cfg env targets := by
  constructor
  · intro hRows
    refine ⟨?_, fun t ht => ?_⟩
    · have hKeys := congrArg (List.map Prod.fst) hRows
      rw [map_map, map_map] at hKeys
      exact hKeys
    obtain ⟨t', ht', hRow⟩ := mem_map.mp (hRows ▸ mem_map_of_mem (f := Target.row) ht)
    have hRead := (buildTargets_rows ops cfg env t' ht').symm.trans hRow
    have hName : t'.name = t.name := congrArg (fun row => row.1.2) hRead
    exact ⟨hName ▸ (congrArg (fun row => row.2.1) hRead).symm,
      hName ▸ (congrArg (fun row => row.2.2) hRead).symm⟩
  · rintro ⟨hKeys, hValues⟩
    let row : Nat × List UInt8 → (Nat × List UInt8) × UInt32 × UInt32 := fun k =>
      (k, readPriority ops cfg env k.2, readAttempts ops cfg env k.2)
    have hNew : (buildTargets ops cfg env).map Target.row =
        ((buildTargets ops cfg env).map Target.key).map row := by
      rw [map_map]
      exact map_congr_left fun t ht => buildTargets_rows ops cfg env t ht
    have hOld : targets.map Target.row = (targets.map Target.key).map row := by
      rw [map_map]
      refine map_congr_left fun t ht => ?_
      rw [Target.row, (hValues t ht).1, (hValues t ht).2]
      rfl
    rw [hNew, hOld, hKeys]

def InOrder : Prop :=
  targets.Pairwise fun a b =>
    b.priority < a.priority ∨ a.priority = b.priority ∧ a.id < b.id

variable {ops cfg env} in
theorem keys_eq_iff {targets : List Target} (hKeys : (targets.map Target.key).Perm (targetKeys cfg))
    (hValues : ValuesRead ops cfg env targets) :
    (buildTargets ops cfg env).map Target.key = targets.map Target.key ↔ InOrder targets := by
  have hAhead : InOrder targets ↔
      (targets.map Target.key).Pairwise (Ahead (readPriority ops cfg env)) := by
    rw [InOrder, pairwise_map]
    refine Pairwise.iff_of_mem fun {a b} ha hb => ?_
    rw [(hValues a ha).1, (hValues b hb).1]
    rfl
  rw [hAhead]
  constructor
  · intro hEq
    grind [buildTargets_sorted]
  · intro hSorted
    exact Perm.eq_of_pairwise (fun a b _ _ hab hba => absurd hba hab.asymm)
      (buildTargets_sorted ops cfg env) hSorted ((buildTargets_keys ops cfg env).trans hKeys.symm)

end

section
variable {ε : Type} {ops : EnvOps ε} {cfg : Config} {env : ε}

theorem readLastChosen_eq (targets : List Target) : readLastChosen ops cfg env targets =
      (readU32 ops env (lastChosenName (chooserPrefix cfg))).bind fun id =>
        if 0 < id ∧ id.toNat ∈ targets.map Target.id then some id.toNat else none := by
  have hById (id : UInt32) : (bootchooserTargetById targets id).map Target.id =
      if id.toNat ∈ targets.map Target.id then some id.toNat else none := by
    rw [bootchooserTargetById]
    cases hFind : targets.find? (·.id = id.toNat) with
    | none =>
      have hNot : id.toNat ∉ targets.map Target.id := by
        intro hMem
        obtain ⟨t, ht, hId⟩ := mem_map.mp hMem
        exact find?_eq_none.mp hFind t ht (by simpa using hId)
      grind
    | some t =>
      have hId : t.id = id.toNat := by simpa using find?_some hFind
      have hMem := mem_map_of_mem (f := Target.id) (mem_of_find?_eq_some hFind)
      grind
  have hRead : getenvU32 ops env (chooserPrefix cfg) (ascii "last_chosen") =
      readU32 ops env (lastChosenName (chooserPrefix cfg)) := rfl
  rw [readLastChosen, hRead]
  cases readU32 ops env (lastChosenName (chooserPrefix cfg)) with
  | none => rfl
  | some id =>
    simp only [Option.bind_some, hById]
    by_cases hPos : 0 < id
    · simp [hPos]
    · simp [hPos]

theorem bootchooserNew_off (hOff : OptionsOff cfg) (hNames : targetNames cfg ≠ [])
    (hOpen : cfg.statePrefix ≠ [] →
      cfg.configState ∧ ops.stateByName env (cfg.statePrefix.takeWhile (· ≠ 46)))
        (resetted : Bool) :
    ∃ bc, bootchooserNew ops cfg resetted false env = .ok (bc, resetted) ∧
    bc.targets = buildTargets ops cfg env ∧
      bc.lastChosen = readLastChosen ops cfg env (buildTargets ops cfg env) := by
  have hState : ¬(cfg.statePrefix ≠ [] ∧
      ¬(cfg.configState ∧ ops.stateByName env (cfg.statePrefix.takeWhile (· ≠ 46)))) :=
    fun h => h.2 (hOpen h.1)
  have hOnce (option : ResetAttempts) (source : ResetSource) (s : List Target × Bool) :
      resetAttemptsOnce cfg option source s = s := by simp [resetAttemptsOnce, hOff.attempts]
  have hPriorities (targets : List Target) : resetPrioritiesOn cfg targets = targets := by
    simp [resetPrioritiesOn, hOff.priorities]
  have hAttempts (targets : List Target) : resetAttemptsOn cfg targets = targets := by
    simp [resetAttemptsOn, hOff.attempts]
  have hSettle (lastChosen : Option Nat) (targets : List Target) :
      settleTargets cfg false lastChosen targets = targets := by
    cases lastChosen <;> simp [settleTargets, hOff.disable]
  simp only [bootchooserNew, if_neg hState, if_neg hNames, hOnce, hPriorities, hAttempts, hSettle]
  exact ⟨_, rfl, rfl, rfl⟩

variable {t : Target} (h : Recorded ops (chooserPrefix cfg) env t)
include h

theorem Recorded.read :
    readPriority ops cfg env t.name = printedValue t.priority ∧ readAttempts ops cfg env t.name =
        if printedValue t.remainingAttempts ≠ 0 ∧ printedValue t.priority = 0 then 0
        else printedValue t.remainingAttempts := by
  have hAttempts : getenvU32 ops env (dotted (chooserPrefix cfg) t.name)
      (ascii "remaining_attempts") = some (printedValue t.remainingAttempts) := h.1
  have hPriority : getenvU32 ops env (dotted (chooserPrefix cfg) t.name) (ascii "priority") =
      some (printedValue t.priority) := h.2
  simp [readPriority, readAttempts, bootchooserTargetNew, hAttempts, hPriority]

theorem Recorded.values_iff (hDisabled : t.priority = 0 → t.remainingAttempts = 0) :
    (t.priority = readPriority ops cfg env t.name ∧ t.remainingAttempts =
      readAttempts ops cfg env t.name) ↔
      t.priority.toNat < 2 ^ 31 ∧ t.remainingAttempts.toNat < 2 ^ 31 := by
  obtain ⟨hPriority, hAttempts⟩ := h.read
  rw [hPriority, hAttempts, ← printedValue_eq_iff, ← printedValue_eq_iff]
  constructor
  · rintro ⟨hSame, hRest⟩
    refine ⟨hSame.symm, ?_⟩
    by_cases hZero : t.priority = 0
    · rw [hDisabled hZero]
      rfl
    · grind
  · rintro ⟨hSame, hRest⟩
    refine ⟨hSame.symm, ?_⟩
    grind

omit h

theorem ValuesRead.agree {targets : List Target} (h : ValuesRead ops cfg env targets) :
    Agree targets := by
  intro a ha b hb hName
  simp [(h a ha).1, (h b hb).1, (h a ha).2, (h b hb).2, hName]

variable {bc : Chooser}

/-- A new bootchooser has the targets that were saved. -/
def Restored (ops : EnvOps ε) (cfg : Config) (resetted : Bool) (bc : Chooser) (env : ε) : Prop :=
  ∃ bc' resetted', bootchooserNew ops cfg resetted false env = .ok (bc', resetted') ∧
    bc'.lastChosen = bc.lastChosen ∧ bc'.targets.map Target.row = bc.targets.map Target.row

/-- What a bootchooser must be like to survive being saved: its numbers can be
printed as signed numbers, targets with the same name have the same values, the
list is in the order of the present priorities, and if no target was chosen
last, then the environment names none either. -/
structure Survives (ops : EnvOps ε) (cfg : Config) (env : ε) (bc : Chooser) : Prop where
  small : ∀ t ∈ bc.targets, t.priority.toNat < 2 ^ 31 ∧ t.remainingAttempts.toNat < 2 ^ 31
  agree : Agree bc.targets
  order : InOrder bc.targets
  lastChosen : bc.lastChosen = none → readLastChosen ops cfg env bc.targets = none

theorem Belongs.id_bounds (hBelongs : Belongs cfg bc) {id : Nat}
    (hId : id ∈ bc.targets.map Target.id) : 1 ≤ id ∧ id ≤ (targetNames cfg).length := by
  obtain ⟨t, ht, rfl⟩ := mem_map.mp hId
  exact mem_targetKeys_id (hBelongs.keys.mem_iff.mp (mem_map_of_mem ht))

theorem Saved.readLastChosen_eq {env' : ε} (hSaved : Saved ops bc env env')
    (hBelongs : Belongs cfg bc) (hCount : (targetNames cfg).length < 2 ^ 31) :
    readLastChosen ops cfg env' bc.targets =
    bc.lastChosen.or (readLastChosen ops cfg env bc.targets) := by
  rw [Bootchooser.readLastChosen_eq, Bootchooser.readLastChosen_eq, ← hBelongs.path]
  rcases hLast : bc.lastChosen with _ | id
  · simp [readU32, hSaved.noLastChosen hLast]
  have hMem := hBelongs.lastChosen id hLast
  have hBounds := hBelongs.id_bounds hMem
  have hNat : (UInt32.ofNat id).toNat = id :=
    UInt32.toNat_ofNat_of_lt' (by simp only [UInt32.size]; omega)
  have hPrinted : printedValue (UInt32.ofNat id) = UInt32.ofNat id := by
    rw [printedValue_eq_iff, hNat]
    omega
  have hPos : 0 < UInt32.ofNat id := by
    rw [UInt32.lt_iff_toNat_lt, hNat]
    exact hBounds.1
  rw [hSaved.lastChosen id hLast, hPrinted, Option.bind_some, hNat, if_pos ⟨hPos, hMem⟩]
  rfl

theorem restored_iff {Good : ε → Prop} (hStores : Stores ops bc.state (savedNames cfg) Good)
    (hBelongs : Belongs cfg bc) (hOff : OptionsOff cfg) (hNames : targetNames cfg ≠ [])
    (hCount : (targetNames cfg).length < 2 ^ 31)
    (hDisabled : ∀ t ∈ bc.targets, t.priority = 0 → t.remainingAttempts = 0) (hGood : Good env)
    (hOpen : cfg.statePrefix ≠ [] → cfg.configState ∧
      ops.stateByName (bootchooserSave ops bc env).2 (cfg.statePrefix.takeWhile (· ≠ 46)))
        (resetted : Bool) :
    Restored ops cfg resetted bc (bootchooserSave ops bc env).2 ↔ Survives ops cfg env bc := by
  obtain ⟨bc', hNew, hTargets, hLast⟩ := bootchooserNew_off hOff hNames hOpen resetted
  have hIds (hKeys : (buildTargets ops cfg (bootchooserSave ops bc env).2).map Target.key =
      bc.targets.map Target.key) :
      readLastChosen ops cfg (bootchooserSave ops bc env).2
        (buildTargets ops cfg (bootchooserSave ops bc env).2) =
      readLastChosen ops cfg (bootchooserSave ops bc env).2 bc.targets := by
    have hSame := congrArg (List.map Prod.fst) hKeys
    rw [map_map, map_map] at hSame
    rw [readLastChosen_eq, readLastChosen_eq]
    exact congrArg _ (by funext id; rw [show (buildTargets ops cfg
      (bootchooserSave ops bc env).2).map Target.id = bc.targets.map Target.id from hSame])
  constructor
  · rintro ⟨bc₁, resetted₁, hNew₁, hLast₁, hRows⟩
    cases hNew.symm.trans hNew₁
    rw [hTargets] at hRows
    obtain ⟨hKeys, hValues⟩ := (rows_eq_iff ops cfg _ bc.targets).mp hRows
    have hSaved := bootchooserSave_saved hStores hBelongs hValues.agree hGood
    refine ⟨fun t ht => ?_, hValues.agree, (keys_eq_iff hBelongs.keys hValues).mp hKeys,
      fun hNone => ?_⟩
    · have hRecorded := hSaved.targets t ht
      rw [hBelongs.path] at hRecorded
      exact (hRecorded.values_iff (hDisabled t ht)).mp (hValues t ht)
    · have hAfter := hSaved.readLastChosen_eq hBelongs hCount
      grind
  · intro hSurvives
    have hSaved := bootchooserSave_saved hStores hBelongs hSurvives.agree hGood
    have hValues : ValuesRead ops cfg (bootchooserSave ops bc env).2 bc.targets := fun t ht => by
      have hRecorded := hSaved.targets t ht
      rw [hBelongs.path] at hRecorded
      exact (hRecorded.values_iff (hDisabled t ht)).mpr (hSurvives.small t ht)
    have hKeys := (keys_eq_iff hBelongs.keys hValues).mpr hSurvives.order
    refine ⟨bc', resetted, hNew, ?_, ?_⟩
    · rw [hLast, hIds hKeys, hSaved.readLastChosen_eq hBelongs hCount]
      cases hOld : bc.lastChosen with
      | none => exact hSurvives.lastChosen hOld
      | some id => rfl
    · rw [hTargets]
      exact (rows_eq_iff ops cfg _ bc.targets).mpr ⟨hKeys, hValues⟩

end

/-- Saving a bootchooser to a state of `uint32` variables and getting it again
restores it exactly if it survives `%d`, shared names and the new order. -/
theorem bootchooserSave_restores_iff (write : StateObject → Except Errno Unit) (cfg : Config)
    (bc : Chooser) (env : StateEnv) (resetted : Bool)
    (hState : cfg.statePrefix ≠ [] ∧ cfg.configState = true)
    (hVars : Uint32Variables (cfg.statePrefix.takeWhile (· ≠ 46)) (savedNames cfg) env)
    (hBelongs : Belongs cfg bc) (hNames : targetNames cfg ≠ [])
    (hCount : (targetNames cfg).length < 2 ^ 31) (hOff : OptionsOff cfg)
    (hDisabled : ∀ t ∈ bc.targets, t.priority = 0 → t.remainingAttempts = 0) :
    Restored (stateEnvOps write) cfg resetted bc (bootchooserSave (stateEnvOps write) bc env).2 ↔
      Survives (stateEnvOps write) cfg env bc := by
  have hUsed : bc.state = true := by grind [hBelongs.state]
  have hStores := stateEnvOps_stores write (cfg.statePrefix.takeWhile (· ≠ 46)) hVars.noEquals
  rw [← hUsed] at hStores
  refine restored_iff hStores hBelongs hOff hNames hCount hDisabled hVars (fun _ => ?_) resetted
  have hDevice := (bootchooserSave_good hStores hBelongs hVars).device
  exact ⟨hState.2, decide_eq_true hDevice.symm⟩

def sampleConfig : Config where
  availableTargets := [97]
  statePrefix := [115]

def sampleVariable (name : List UInt8) (start value : UInt32) : Variable :=
  ⟨name, start, .uint32 value 0⟩

def sampleEnv : StateEnv where
  name := [115]
  state :=
    { node := .mk [] [] []
      magic := 0
      vars := [sampleVariable (ascii "last_chosen") 0 0,
        sampleVariable (ascii "a.remaining_attempts") 4 3, sampleVariable (ascii "a.priority") 8 1]
      dirty := false }
  globals := []

def sampleChooser (priority : UInt32) : Chooser where
  targets := [⟨priority, 3, 1, [97], 3, 1, [97]⟩]
  state := true
  statePrefix := [115]
  attemptsLocked := false

theorem sampleEnv_variables : Uint32Variables [115] (savedNames sampleConfig) sampleEnv where
  device := rfl
  noDot := by decide
  noEquals := by decide
  found := by
    have hNames : savedNames sampleConfig = [dotted [115] (ascii "last_chosen"),
        dotted [115] (ascii "a.remaining_attempts"), dotted [115] (ascii "a.priority")] := by decide
    rw [hNames]
    simp only [mem_cons, not_mem_nil, or_false, forall_eq_or_imp, forall_eq]
    exact ⟨⟨_, _, _, _, rfl, rfl, rfl⟩, ⟨_, _, _, _, rfl, rfl, rfl⟩, ⟨_, _, _, _, rfl, rfl, rfl⟩⟩

theorem sampleChooser_belongs (priority : UInt32) :
    Belongs sampleConfig (sampleChooser priority) where
  state := rfl
  path := rfl
  keys := Perm.refl _
  lastChosen := by simp [sampleChooser]

def pairConfig : Config where
  availableTargets := [97, 32, 98]
  statePrefix := [115]

/-- A state with the default attempts and priorities of two targets. -/
def pairEnv : StateEnv where
  name := [115]
  state :=
    { node := .mk [] [] []
      magic := 0
      vars := [sampleVariable (ascii "last_chosen") 0 0,
        sampleVariable (ascii "a.remaining_attempts") 4 3, sampleVariable (ascii "a.priority") 8 1,
        sampleVariable (ascii "b.remaining_attempts") 12 3,
          sampleVariable (ascii "b.priority") 16 1]
      dirty := false }
  globals := []

/-- The second target was given the higher priority, and both have used up attempts. -/
def pairChooser : Chooser where
  targets := [⟨21, 1, 2, [98], 3, 1, [98]⟩, ⟨20, 2, 1, [97], 3, 1, [97]⟩]
  state := true
  statePrefix := [115]
  attemptsLocked := false

theorem pairEnv_variables : Uint32Variables [115] (savedNames pairConfig) pairEnv where
  device := rfl
  noDot := by decide
  noEquals := by decide
  found := by
    have hNames : savedNames pairConfig = [dotted [115] (ascii "last_chosen"),
        dotted [115] (ascii "a.remaining_attempts"), dotted [115] (ascii "a.priority"),
        dotted [115] (ascii "b.remaining_attempts"), dotted [115] (ascii "b.priority")] := by decide
    rw [hNames]
    simp only [mem_cons, not_mem_nil, or_false, forall_eq_or_imp, forall_eq]
    exact ⟨⟨_, _, _, _, rfl, rfl, rfl⟩, ⟨_, _, _, _, rfl, rfl, rfl⟩, ⟨_, _, _, _, rfl, rfl, rfl⟩,
      ⟨_, _, _, _, rfl, rfl, rfl⟩, ⟨_, _, _, _, rfl, rfl, rfl⟩⟩

theorem pairChooser_belongs : Belongs pairConfig pairChooser where
  state := rfl
  path := rfl
  keys := by decide
  lastChosen := by simp [pairChooser]

/-- New attempts and priorities of two targets come back, with the targets in the new order. -/
theorem bootchooserSave_restores_iff_pair :
    Restored (stateEnvOps fun _ => .ok ()) pairConfig false pairChooser
      (bootchooserSave (stateEnvOps fun _ => .ok ()) pairChooser pairEnv).2 := by
  refine (bootchooserSave_restores_iff (fun _ => .ok ()) pairConfig pairChooser pairEnv
    false ⟨by decide, rfl⟩ pairEnv_variables pairChooser_belongs (by decide) (by decide)
    ⟨fun _ => rfl, fun _ => rfl, rfl⟩ (by decide)).mpr ⟨by decide, ?_, ?_, fun _ => ?_⟩
  · unfold Agree
    decide
  · unfold InOrder
    decide
  · rfl

/-- A priority of `2 ^ 31` is printed as a negative number and does not come
back. -/
theorem bootchooserSave_loses_priority : Uint32Variables [115] (savedNames sampleConfig) sampleEnv ∧
      Belongs sampleConfig (sampleChooser (2 ^ 31)) ∧
      ¬Restored (stateEnvOps fun _ => .ok ()) sampleConfig false (sampleChooser (2 ^ 31))
        (bootchooserSave (stateEnvOps fun _ => .ok ()) (sampleChooser (2 ^ 31)) sampleEnv).2 := by
  refine ⟨sampleEnv_variables, sampleChooser_belongs _, fun hRestored => ?_⟩
  have hGood := sampleEnv_variables
  have hBelongs := sampleChooser_belongs (2 ^ 31)
  have hStores : Stores _ (sampleChooser (2 ^ 31)).state _ _ :=
    stateEnvOps_stores (fun _ => .ok ()) [115] hGood.noEquals
  have hDevice := (bootchooserSave_good hStores hBelongs hGood).device
  have hSurvives := (restored_iff hStores hBelongs ⟨fun _ => rfl, fun _ => rfl, rfl⟩ (by decide)
    (by decide) (by decide) hGood (fun _ => ⟨rfl, decide_eq_true hDevice.symm⟩) false).mp hRestored
  exact absurd (hSurvives.small _ (.head _)).1 (by decide)

end Barebox.Bootchooser
