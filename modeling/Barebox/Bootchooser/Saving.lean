import Barebox.Bootchooser.Selection

/-! What can be read after a bootchooser was saved. The numbers are written
with `%d` and read as unsigned numbers, so the upper half of them is lost. -/
namespace Barebox.Bootchooser
open Bytes Lib List

def attemptsName (path name : List UInt8) : List UInt8 :=
  dotted (dotted path name) (ascii "remaining_attempts")

def priorityName (path name : List UInt8) : List UInt8 :=
  dotted (dotted path name) (ascii "priority")

def lastChosenName (path : List UInt8) : List UInt8 := dotted path (ascii "last_chosen")

def savedNames (cfg : Config) : List (List UInt8) :=
  let path := chooserPrefix cfg
  lastChosenName path :: (targetNames cfg).flatMap fun name =>
    [attemptsName path name, priorityName path name]

variable {name path path' name' : List UInt8} {k : Nat × List UInt8}

theorem dotted_getLast? (path : List UInt8) (h : name ≠ []) :
    (dotted path name).getLast? = name.getLast? := by
  rw [dotted, getLast?_append_cons, getLast?_cons]
  cases hLast : name.getLast? with
  | none => exact absurd (getLast?_eq_none_iff.mp hLast) h
  | some c => rfl

theorem dotted_ne (h : name ≠ []) (h' : name' ≠ [])
    (hLast : name.getLast? ≠ name'.getLast?) : dotted path name ≠ dotted path' name' := by
  intro hEq
  have hSame := congrArg List.getLast? hEq
  rw [dotted_getLast? path h, dotted_getLast? path' h'] at hSame
  exact hLast hSame

theorem attemptsName_ne_priorityName (path name name' : List UInt8) :
    attemptsName path name ≠ priorityName path name' :=
  dotted_ne (by decide) (by decide) (by decide)

theorem attemptsName_ne_lastChosenName (path name : List UInt8) :
    attemptsName path name ≠ lastChosenName path :=
  dotted_ne (by decide) (by decide) (by decide)

theorem priorityName_ne_lastChosenName (path name : List UInt8) :
    priorityName path name ≠ lastChosenName path :=
  dotted_ne (by decide) (by decide) (by decide)

theorem dotted_inj (h : dotted path name = dotted path' name) : path = path' :=
  append_cancel_right h

theorem dotted_inj_right (h : dotted path name = dotted path name') : name = name' :=
  tail_eq_of_cons_eq (append_cancel_left h)

theorem attemptsName_inj (h : attemptsName path name = attemptsName path name') : name = name' :=
  dotted_inj_right (dotted_inj h)

theorem priorityName_inj (h : priorityName path name = priorityName path name') : name = name' :=
  dotted_inj_right (dotted_inj h)

variable {cfg : Config} (h : name ∈ targetNames cfg)
include h

theorem attemptsName_mem : attemptsName (chooserPrefix cfg) name ∈ savedNames cfg :=
  .tail _ (mem_flatMap.mpr ⟨name, h, by simp⟩)

theorem priorityName_mem : priorityName (chooserPrefix cfg) name ∈ savedNames cfg :=
  .tail _ (mem_flatMap.mpr ⟨name, h, by simp⟩)

omit h

section
variable {ε : Type} (ops : EnvOps ε)

def readU32 (env : ε) (name : List UInt8) : Option UInt32 := (ops.getenv env name).map strtoU32

def setVariable (state : Bool) (env : ε) (name val : List UInt8) : Except Errno Unit × ε :=
  if state then ops.setenv env name val else ops.nvvarAdd env name val

/-- A number that is written to one of the variables can be read from it, and
nothing else changes. Saving changes no variable. -/
structure Stores (state : Bool) (names : List (List UInt8)) (Good : ε → Prop) : Prop where
  noEquals : ∀ name ∈ names, 61 ∉ name
  set : ∀ env, Good env → ∀ name ∈ names, ∀ v,
    (setVariable ops state env name (formatSigned v)).1 = .ok () ∧
    Good (setVariable ops state env name (formatSigned v)).2 ∧
    readU32 ops (setVariable ops state env name (formatSigned v)).2 name = some (printedValue v) ∧
    ∀ other ≠ name, ops.getenv (setVariable ops state env name (formatSigned v)).2 other =
      ops.getenv env other
  save : ∀ env, Good env → Good (if state then ops.stateSave env else ops.nvvarSave env).2 ∧
    ∀ name, ops.getenv (if state then ops.stateSave env else ops.nvvarSave env).2 name =
      ops.getenv env name

structure Belongs (cfg : Config) (bc : Chooser) : Prop where
  state : bc.state = decide (cfg.statePrefix ≠ [])
  path : bc.statePrefix = chooserPrefix cfg
  keys : (bc.targets.map Target.key).Perm (targetKeys cfg)
  lastChosen : ∀ id, bc.lastChosen = some id → id ∈ bc.targets.map Target.id

def Agree (targets : List Target) : Prop :=
  ∀ a ∈ targets, ∀ b ∈ targets, a.name = b.name → a.priority = b.priority ∧
    a.remainingAttempts = b.remainingAttempts

end

theorem mem_targetNames_of_key {cfg : Config} (h : k ∈ targetKeys cfg) : k.2 ∈ targetNames cfg := by
  obtain ⟨entry, hEntry, rfl⟩ := mem_map.mp h
  exact fst_mem_of_mem_zipIdx hEntry

theorem mem_targetKeys_id {cfg : Config} (h : k ∈ targetKeys cfg) :
    1 ≤ k.1 ∧ k.1 ≤ (targetNames cfg).length := by
  obtain ⟨entry, hEntry, rfl⟩ := mem_map.mp h
  have hLe := le_snd_of_mem_zipIdx hEntry
  have hLt := snd_lt_add_of_mem_zipIdx hEntry
  exact ⟨hLe, by simp; omega⟩

section
variable {cfg : Config} {bc : Chooser}

theorem Belongs.name_mem (h : Belongs cfg bc) {t : Target} (ht : t ∈ bc.targets) :
    t.name ∈ targetNames cfg :=
  mem_targetNames_of_key (h.keys.mem_iff.mp (mem_map_of_mem ht))

theorem Belongs.ids_nodup (h : Belongs cfg bc) : (bc.targets.map Target.id).Nodup := by
  have hIds := ((h.keys.map Prod.fst).nodup_iff).mpr (targetKeys_ids_nodup cfg)
  rwa [map_map] at hIds

end

section
variable {ε : Type} {ops : EnvOps ε} {cfg : Config} {bc : Chooser}
    {Good : ε → Prop} {env : ε} {path : List UInt8}

theorem saveVariable_stores {names : List (List UInt8)} (hStores : Stores ops bc.state names Good)
    (hGood : Good env) {name : List UInt8} (hName : dotted path name ∈ names)
    (v : UInt32) : (saveVariable ops bc env path name v).1 = .ok () ∧
    Good (saveVariable ops bc env path name v).2 ∧
    readU32 ops (saveVariable ops bc env path name v).2 (dotted path name) = some (printedValue v) ∧
    ∀ other ≠ dotted path name, ops.getenv (saveVariable ops bc env path name v).2 other =
    ops.getenv env other := by
  rw [saveVariable, bcSetenv, parseAssignment_append (hStores.noEquals _ hName)]
  by_cases hSame : ops.getenv env (dotted path name) = some (formatSigned v)
  · simp only [hSame, if_true]
    refine ⟨trivial, hGood, ?_, fun _ _ => trivial⟩
    simp [readU32, hSame, strtoU32_formatSigned]
  · simp only [hSame, if_false]
    exact hStores.set env hGood _ hName v

def Recorded (ops : EnvOps ε) (path : List UInt8) (env : ε) (t : Target) : Prop :=
  readU32 ops env (attemptsName path t.name) = some (printedValue t.remainingAttempts) ∧
    readU32 ops env (priorityName path t.name) = some (printedValue t.priority)

theorem Recorded.congr {env' : ε} {t : Target} (h : Recorded ops path env t)
    (hAttempts : ops.getenv env' (attemptsName path t.name) =
      ops.getenv env (attemptsName path t.name))
    (hPriority : ops.getenv env' (priorityName path t.name) =
      ops.getenv env
        (priorityName path t.name)) : Recorded ops path env' t := by grind [Recorded, readU32]

variable (hStores : Stores ops bc.state (savedNames cfg) Good)
include hStores

theorem saveTargets_stores (hPath : bc.statePrefix = chooserPrefix cfg) (targets : List Target)
    (hNames : ∀ t ∈ targets, t.name ∈ targetNames cfg) (hGood : Good env) :
    (saveTargets ops bc targets env).1 = .ok () ∧ Good (saveTargets ops bc targets env).2 ∧
    (Agree targets → ∀ t ∈ targets,
      Recorded ops bc.statePrefix (saveTargets ops bc targets env).2 t) ∧
    ∀ other, (∀ t ∈ targets, other ≠ attemptsName bc.statePrefix t.name ∧
      other ≠ priorityName bc.statePrefix t.name) →
      ops.getenv (saveTargets ops bc targets env).2 other = ops.getenv env other := by
  induction targets generalizing env with
  | nil => exact ⟨rfl, hGood, fun _ => by simp, fun _ _ => rfl⟩
  | cons target rest ih =>
    have hMem := hNames target (.head _)
    have hAttemptsMem : dotted (dotted bc.statePrefix target.name) (ascii "remaining_attempts") ∈
        savedNames cfg := hPath ▸ attemptsName_mem hMem
    have hPriorityMem : dotted (dotted bc.statePrefix target.name) (ascii "priority") ∈
        savedNames cfg := hPath ▸ priorityName_mem hMem
    have hFirst := saveVariable_stores hStores hGood hAttemptsMem target.remainingAttempts
    rw [saveTargets]
    generalize saveVariable ops bc env _ _ target.remainingAttempts = first at hFirst ⊢
    obtain ⟨ret, env₁⟩ := first
    obtain ⟨rfl, hGood₁, hRead₁, hOther₁⟩ := hFirst
    have hSecond := saveVariable_stores hStores hGood₁ hPriorityMem target.priority
    simp only
    generalize saveVariable ops bc env₁ _ _ target.priority = second at hSecond ⊢
    obtain ⟨ret, env₂⟩ := second
    obtain ⟨rfl, hGood₂, hRead₂, hOther₂⟩ := hSecond
    obtain ⟨hOk, hGood', hRecords, hOther⟩ := ih (fun t ht => hNames t (.tail _ ht)) hGood₂
    have hTarget : Recorded ops bc.statePrefix env₂ target := by
      refine ⟨?_, hRead₂⟩
      rw [readU32, hOther₂ _ (attemptsName_ne_priorityName _ _ _)]
      exact hRead₁
    refine ⟨hOk, hGood', fun hAgree t ht => ?_, fun other hNe => ?_⟩
    · have hRest := hRecords fun a ha b hb =>
        hAgree a (.tail _ ha) b (.tail _ hb)
      rcases mem_cons.mp ht with rfl | ht
      · by_cases hShared : ∃ u ∈ rest, u.name = t.name
        · obtain ⟨u, hu, hName⟩ := hShared
          have hSame := hAgree u (.tail _ hu) t (.head _) hName
          have hRecorded := hRest u hu
          rwa [Recorded, hName, hSame.1, hSame.2] at hRecorded
        push Not at hShared
        refine hTarget.congr (hOther _ fun u hu => ⟨fun h => ?_, ?_⟩)
          (hOther _ fun u hu => ⟨?_, fun h => ?_⟩)
        · exact hShared u hu (attemptsName_inj h).symm
        · exact attemptsName_ne_priorityName _ _ _
        · exact (attemptsName_ne_priorityName _ _ _).symm
        · exact hShared u hu (priorityName_inj h).symm
      · exact hRest t ht
    · have hHere := hNe target (.head _)
      simp [hOther other fun t ht => hNe t (.tail _ ht), hOther₂ other hHere.2,
        hOther₁ other hHere.1]

theorem saveLastChosen_stores (hPath : bc.statePrefix = chooserPrefix cfg) (hGood : Good env) :
    Good (saveLastChosen ops bc env) ∧
    (∀ id, bc.lastChosen = some id →
      readU32 ops (saveLastChosen ops bc env) (lastChosenName bc.statePrefix) =
        some (printedValue (.ofNat id))) ∧
          (bc.lastChosen = none → saveLastChosen ops bc env = env) ∧
    ∀ other ≠ lastChosenName bc.statePrefix, ops.getenv (saveLastChosen ops bc env) other =
    ops.getenv env other := by
  rw [saveLastChosen]
  rcases hLast : bc.lastChosen with _ | id
  · exact ⟨hGood, by simp, fun _ => rfl, fun _ _ => rfl⟩
  have hMem : dotted bc.statePrefix (ascii "last_chosen") ∈ savedNames cfg := hPath ▸ (.head _)
  obtain ⟨-, hGood', hRead, hOther⟩ := saveVariable_stores hStores hGood hMem (UInt32.ofNat id)
  refine ⟨hGood', fun id' h => ?_, by simp, hOther⟩
  cases h
  exact hRead

structure Saved (ops : EnvOps ε) (bc : Chooser) (env env' : ε) : Prop where
  targets : ∀ t ∈ bc.targets, Recorded ops bc.statePrefix env' t
  lastChosen : ∀ id, bc.lastChosen = some id →
    readU32 ops env' (lastChosenName bc.statePrefix) = some (printedValue (.ofNat id))
  noLastChosen : bc.lastChosen = none → ops.getenv env' (lastChosenName bc.statePrefix) =
      ops.getenv env (lastChosenName bc.statePrefix)
  other : ∀ name, name ≠ lastChosenName bc.statePrefix →
    (∀ t ∈ bc.targets, name ≠ attemptsName bc.statePrefix t.name ∧
      name ≠ priorityName bc.statePrefix t.name) → ops.getenv env' name = ops.getenv env name

theorem bootchooserSave_eq (hBelongs : Belongs cfg bc) (hGood : Good env) :
    bootchooserSave ops bc env =
      if bc.state then ops.stateSave (saveTargets ops bc bc.targets (saveLastChosen ops bc env)).2
      else ops.nvvarSave (saveTargets ops bc bc.targets (saveLastChosen ops bc env)).2 := by
  have hGood₁ := (saveLastChosen_stores hStores hBelongs.path hGood).1
  have hOk :=
    (saveTargets_stores hStores hBelongs.path bc.targets
      (fun t ht => hBelongs.name_mem ht) hGood₁).1
  rw [bootchooserSave]
  generalize saveTargets ops bc bc.targets (saveLastChosen ops bc env) = saved at *
  obtain ⟨ret, env'⟩ := saved
  cases hOk
  rfl

theorem bootchooserSave_good (hBelongs : Belongs cfg bc) (hGood : Good env) :
    Good (bootchooserSave ops bc env).2 := by
  have hGood₁ := (saveLastChosen_stores hStores hBelongs.path hGood).1
  have hGood₂ :=
    (saveTargets_stores hStores hBelongs.path bc.targets
      (fun t ht => hBelongs.name_mem ht) hGood₁).2.1
  rw [bootchooserSave_eq hStores hBelongs hGood]
  exact (hStores.save _ hGood₂).1

theorem bootchooserSave_saved (hBelongs : Belongs cfg bc) (hAgree : Agree bc.targets)
    (hGood : Good env) :
    Saved ops bc env (bootchooserSave ops bc env).2 := by
  obtain ⟨hGood₁, hLast, hNone, hOther₁⟩ := saveLastChosen_stores hStores hBelongs.path hGood
  obtain ⟨-, hGood₂, hTargets, hOther₂⟩ := saveTargets_stores hStores hBelongs.path bc.targets
    (fun t ht => hBelongs.name_mem ht) hGood₁
  rw [bootchooserSave_eq hStores hBelongs hGood]
  generalize saveLastChosen ops bc env = env₁ at *
  generalize (saveTargets ops bc bc.targets env₁).2 = env₂ at *
  have hSave := (hStores.save env₂ hGood₂).2
  have hLastOther : ops.getenv env₂ (lastChosenName bc.statePrefix) =
      ops.getenv env₁ (lastChosenName bc.statePrefix) :=
    hOther₂ _ fun t _ => ⟨(attemptsName_ne_lastChosenName _ _).symm,
      (priorityName_ne_lastChosenName _ _).symm⟩
  refine ⟨fun t ht => (hTargets hAgree t ht).congr (hSave _) (hSave _), fun id h => ?_,
    fun h => ?_, fun name hName hNe => ?_⟩
  · grind [readU32]
  · rw [hSave, hLastOther, hNone h]
  · rw [hSave, hOther₂ name hNe, hOther₁ name hName]

end
end Barebox.Bootchooser
