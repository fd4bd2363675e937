import Barebox.Bootchooser.Boot
import Barebox.Bootchooser.RoundTrip

/-! Accounting for boot attempts. Every target that is handed to the boot code
was paid for with one of its attempts, and the payment was saved before. -/
namespace Barebox.Bootchooser
open Bytes Lib State List

def Target.spend (t : Target) : Target := { t with remainingAttempts := t.remainingAttempts - 1 }

theorem Target.spend_attempts {t : Target} (h : Acceptable t) :
    t.spend.remainingAttempts.toNat + 1 = t.remainingAttempts.toNat := by
  have hPos : 1 ≤ t.remainingAttempts.toNat := UInt32.lt_iff_toNat_lt.mp h.2
  have hLe : (1 : UInt32) ≤ t.remainingAttempts := UInt32.le_iff_toNat_le.mpr hPos
  rw [Target.spend, UInt32.toNat_sub_of_le _ _ hLe]
  exact Nat.sub_add_cancel hPos

variable {f : Target → Target} {targets : List Target}

theorem updateTarget_of_not_mem {id : Nat} (h : id ∉ targets.map Target.id) :
    updateTarget id f targets = targets := by
  induction targets with
  | nil => rfl
  | cons t rest ih =>
    have hHead : ¬t.id = id := fun hEq => h (hEq ▸ (.head _))
    have hRest := ih fun hMem => h (.tail _ hMem)
    grind [updateTarget]

theorem attemptsLeft_spend {target : Target}
    (hIds : (targets.map Target.id).Nodup) (hMem : target ∈ targets) (h : Acceptable target) :
    attemptsLeft (updateTarget target.id Target.spend targets) + 1 = attemptsLeft targets := by
  induction targets with
  | nil => cases hMem
  | cons t rest ih =>
    rw [map_cons, nodup_cons] at hIds
    have hEnabled : ¬target.priority = 0 := UInt32.pos_iff_ne_zero.mp h.1
    rcases mem_cons.mp hMem with rfl | hMem
    · have hRest := updateTarget_of_not_mem (f := Target.spend) hIds.1
      have hSpend := Target.spend_attempts h
      rw [updateTarget] at hRest ⊢
      rw [map_cons, if_pos rfl, hRest]
      simp only [attemptsLeft, map_cons, sum_cons, Target.spend, if_neg hEnabled] at hSpend ⊢
      omega
    · have hNe : ¬t.id = target.id := fun hEq => hIds.1 (hEq ▸ mem_map_of_mem hMem)
      have hRest := ih hIds.2 hMem
      simp only [attemptsLeft, updateTarget, map_cons, if_neg hNe, sum_cons] at hRest ⊢
      omega

section
variable {ε : Type} (ops : EnvOps ε)

theorem bootchooserGetTarget_cases (bc : Chooser) (env : ε) :
    bootchooserGetTarget ops bc env = (.error .enoent, bc, env) ∨
      ∃ target ∈ bc.targets, Acceptable target ∧ bootchooserGetTarget ops bc env =
        (.ok target, chooseTarget bc target,
          (bootchooserSave ops (chooseTarget bc target) env).2) := by
  rw [bootchooserGetTarget]
  cases hFind : bc.targets.find? bootchooserTargetOk with
  | none => exact .inl rfl
  | some target =>
    exact .inr ⟨target, mem_of_find?_eq_some hFind,
      (bootchooserTargetOk_iff target).mp (find?_some hFind), rfl⟩

theorem chooseTarget_unlocked {bc : Chooser} (hLocked : bc.attemptsLocked = false)
    (target : Target) :
    (chooseTarget bc target).targets = updateTarget target.id Target.spend bc.targets := by
  simp only [chooseTarget, hLocked]
  rfl

theorem bootchooserBoot_stops (retry : Bool) {iterations : Nat} {s : BootState ε}
    (hIds : (s.bc.targets.map Target.id).Nodup) (hLocked : s.bc.attemptsLocked = false)
    (hEnough : attemptsLeft s.bc.targets < iterations) (results : Nat → BootResult) :
    (bootchooserBoot ops retry iterations results s).1 ≠ .running := by
  induction iterations generalizing s results with
  | zero => cases hEnough
  | succ iterations ih =>
    rw [bootchooserBoot, bootchooserBootOne]
    rcases bootchooserGetTarget_cases ops s.bc s.env with hNone | ⟨target, hMem, hAcceptable, hSome⟩
    · simp [hNone]
    rw [hSome]
    have hSpent := attemptsLeft_spend hIds hMem hAcceptable
    rw [← chooseTarget_unlocked hLocked] at hSpent
    have hNextIds : ((chooseTarget s.bc target).targets.map Target.id).Nodup := by
      have hKeys := congrArg (List.map Prod.fst) (chooseTarget_keys s.bc target)
      rw [map_map, map_map] at hKeys
      exact (congrArg Nodup hKeys).mpr hIds
    have hNext (successful : Bool) (env : ε) :=
      ih (s := ⟨chooseTarget s.bc target, env, successful⟩)
      hNextIds hLocked (by simp only; omega) fun i => results (i + 1)
    rcases retry with _ | _
    · cases results 0 <;> simp
    cases results 0 with
    | nothing => exact hNext _ _
    | booted => simp
    | failed e => exact hNext _ _
    | lost => simp

end

def Lowers (before after : List Target) : Prop :=
  ∀ t ∈ after, ∃ u ∈ before, u.key = t.key ∧ t.remainingAttempts.toNat ≤ u.remainingAttempts.toNat

theorem Lowers.refl (targets : List Target) : Lowers targets targets :=
  fun t ht => ⟨t, ht, rfl, le_refl _⟩

theorem Lowers.trans {l₁ l₂ l₃ : List Target} (h₁ : Lowers l₁ l₂) (h₂ : Lowers l₂ l₃) :
    Lowers l₁ l₃ := by
  intro t ht
  obtain ⟨u, hu, hKey, hLe⟩ := h₂ t ht
  obtain ⟨v, hv, hKey', hLe'⟩ := h₁ u hu
  exact ⟨v, hv, hKey'.trans hKey, hLe.trans hLe'⟩

theorem lowers_map (hKey : ∀ t, (f t).key = t.key)
    (hLe : ∀ t, (f t).remainingAttempts.toNat ≤ t.remainingAttempts.toNat) (targets : List Target) :
    Lowers targets (targets.map f) := by
  intro t ht
  obtain ⟨u, hu, rfl⟩ := mem_map.mp ht
  exact ⟨u, hu, (hKey u).symm, hLe u⟩

theorem resetPrioritiesOn_lowers (cfg : Config) (targets : List Target) :
    Lowers targets (resetPrioritiesOn cfg targets) := by
  rw [resetPrioritiesOn]
  split_ifs
  · exact lowers_map (f := bootchooserTargetSetPriority (-1)) (fun _ => rfl) (fun _ => le_refl _) _
  · exact Lowers.refl _

theorem settleTargets_lowers (cfg : Config) (lastChosen : Option Nat) (targets : List Target) :
    Lowers targets (settleTargets cfg false lastChosen targets) := by
  have hDisable : Lowers targets (if cfg.disableOnZeroAttempts then
      targets.map fun t => if t.remainingAttempts = 0 then bootchooserTargetDisable t else t
      else targets) := by
    split_ifs
    · refine lowers_map (fun t => ?_) (fun t => ?_) targets
      · split_ifs <;> rfl
      · split_ifs
        · exact Nat.zero_le _
        · exact le_refl _
    · exact Lowers.refl _
  cases lastChosen with
  | none => exact hDisable
  | some id => exact hDisable

section
variable {ε : Type} {ops : EnvOps ε} {cfg : Config} {env : ε}
    {resetted resetted' : Bool} {bc : Chooser}

theorem bootchooserNew_attempts (hReset : ∀ option, cfg.resetAttempts option = false)
    (h : bootchooserNew ops cfg resetted false env = .ok (bc, resetted')) :
    ∀ t ∈ bc.targets, t.remainingAttempts.toNat ≤ (readAttempts ops cfg env t.name).toNat := by
  obtain ⟨targets, -, hTargets, -, hSettled, -⟩ := bootchooserNew_ok h
  have hOnce (option : ResetAttempts) (source : ResetSource) (s : List Target × Bool) :
      resetAttemptsOnce cfg option source s = s := by simp [resetAttemptsOnce, hReset]
  have hAttempts (targets : List Target) : resetAttemptsOn cfg targets = targets := by
    simp [resetAttemptsOn, hReset]
  rw [hOnce, hOnce, hAttempts] at hTargets
  have hLowers : Lowers (buildTargets ops cfg env) bc.targets := by
    rw [hSettled, hTargets]
    exact (resetPrioritiesOn_lowers cfg _).trans (settleTargets_lowers cfg _ _)
  intro t ht
  obtain ⟨u, hu, hKey, hLe⟩ := hLowers t ht
  have hRow := buildTargets_rows ops cfg env u hu
  have hRead : u.remainingAttempts = readAttempts ops cfg env u.name :=
    congrArg (fun row => row.2.2) hRow
  have hName : u.name = t.name := congrArg Prod.snd hKey
  rwa [hRead, hName] at hLe

theorem bootchooserNew_belongs {successful : Bool}
    (h : bootchooserNew ops cfg resetted successful env = .ok (bc, resetted')) :
    Belongs cfg bc := by
  obtain ⟨targets, hKeys, -, hLast, hTargets, hState, hPath, -⟩ := bootchooserNew_ok h
  have hSame : bc.targets.map Target.key = targets.map Target.key := by
    rw [hTargets, settleTargets_keys]
  refine ⟨hState, hPath, ?_, fun id hId => ?_⟩
  · simp [hSame, hKeys, buildTargets_keys]
  have hIds := congrArg (List.map Prod.fst) hSame
  rw [map_map, map_map] at hIds
  have hIds : bc.targets.map Target.id = targets.map Target.id := hIds
  rw [hLast, readLastChosen_eq, Option.bind_eq_some_iff] at hId
  obtain ⟨v, -, hFound⟩ := hId
  split_ifs at hFound with hIn
  cases hFound
  rw [hIds]
  exact hIn.2

theorem Belongs.agree (h : Belongs cfg bc) (hNames : (targetNames cfg).Nodup) :
    Agree bc.targets := by
  have hKeyNames : ((targetKeys cfg).map Prod.snd) = targetNames cfg := by
    rw [targetKeys, map_map]
    exact zipIdx_map_fst 1 (targetNames cfg)
  have hNodup := ((h.keys.map Prod.snd).nodup_iff).mpr (hKeyNames ▸ hNames)
  rw [map_map] at hNodup
  intro a ha b hb hName
  have hEq : a = b := inj_on_of_nodup_map hNodup ha hb hName
  exact hEq ▸ ⟨rfl, rfl⟩

end

section Ledger
variable {ε : Type} (ops : EnvOps ε) (cfg : Config) (Good : ε → Prop) (init : List UInt8 → Nat)

def handedOver (log : List (Handover (Persistent ε))) (id : Nat) : Nat :=
  log.countP (·.target.id = id)

structure EnvAccount (log : List (Handover (Persistent ε))) (env : ε) : Prop where
  good : Good env
  unlocked :
    (getenvU32 ops env (chooserPrefix cfg) (ascii "attempts_locked")).any (· ≠ 0) = false
  paid : ∀ k ∈ targetKeys cfg, handedOver log k.1 + (readAttempts ops cfg env k.2).toNat ≤ init k.2

structure ChooserAccount (log : List (Handover (Persistent ε))) (bc : Chooser) : Prop where
  belongs : Belongs cfg bc
  unlocked : bc.attemptsLocked = false
  paid : ∀ t ∈ bc.targets, handedOver log t.id + t.remainingAttempts.toNat ≤ init t.name

structure Ledger (log : List (Handover (Persistent ε))) (env : Persistent ε)
    (bootchooser : Option Chooser) : Prop where
  live : EnvAccount ops cfg Good init log env.live
  stored : EnvAccount ops cfg Good init log env.stored
  chooser : ∀ bc, bootchooser = some bc → ChooserAccount cfg init log bc

/-- The attempt was stored before the target was booted. -/
def Prepaid (h : Handover (Persistent ε)) : Prop :=
  h.target.key ∈ targetKeys cfg ∧ 0 < h.target.remainingAttempts ∧
    readU32 ops h.env.stored (attemptsName (chooserPrefix cfg) h.target.name) =
      some (printedValue (h.target.remainingAttempts - 1))

end Ledger

section
variable {ε : Type} {ops : EnvOps ε} {cfg : Config} {Good : ε → Prop} {init : List UInt8 → Nat}
  {log : List (Handover (Persistent ε))} {env : Persistent ε} {bc : Chooser}

theorem persistentOps_stores {state : Bool} {names : List (List UInt8)}
    (h : Stores ops state names Good) :
    Stores (persistentOps ops) state names fun env => Good env.live where
  noEquals := h.noEquals
  set env hGood name hName v := by
    have hSet := h.set env.live hGood name hName v
    cases state with
    | false => exact hSet
    | true => exact hSet
  save env hGood := by
    have hSave := h.save env.live hGood
    cases state with
    | false => exact hSave
    | true => exact hSave

theorem readAttempts_persistent (name : List UInt8) :
    readAttempts (persistentOps ops) cfg env name = readAttempts ops cfg env.live name := by rfl

theorem Belongs.exists_target (h : Belongs cfg bc) {k : Nat × List UInt8}
    (hk : k ∈ targetKeys cfg) : ∃ t ∈ bc.targets, t.key = k :=
  mem_map.mp (h.keys.mem_iff.mpr hk)

theorem ChooserAccount.save (h : ChooserAccount cfg init log bc)
    (hStores : Stores ops (decide (cfg.statePrefix ≠ [])) (savedNames cfg) Good)
    (hNames : (targetNames cfg).Nodup) (hLive : Good env.live) (hUnlocked :
      (getenvU32 ops env.live (chooserPrefix cfg) (ascii "attempts_locked")).any (· ≠ 0) = false) :
    (bootchooserSave (persistentOps ops) bc env).2.stored =
    (bootchooserSave (persistentOps ops) bc env).2.live ∧
      EnvAccount ops cfg Good init log (bootchooserSave (persistentOps ops) bc env).2.live ∧
      ∀ t ∈ bc.targets, readU32 ops (bootchooserSave (persistentOps ops) bc env).2.live
        (attemptsName (chooserPrefix cfg) t.name) = some (printedValue t.remainingAttempts) := by
  rw [← h.belongs.state] at hStores
  have hLifted := persistentOps_stores hStores
  have hLive : (fun env : Persistent ε => Good env.live) env := hLive
  have hGood := bootchooserSave_good hLifted h.belongs hLive
  have hSaved := bootchooserSave_saved hLifted h.belongs (h.belongs.agree hNames) hLive
  have hStored : (bootchooserSave (persistentOps ops) bc env).2.stored =
      (bootchooserSave (persistentOps ops) bc env).2.live := by
    rw [bootchooserSave_eq hLifted h.belongs hLive]
    split_ifs <;> rfl
  generalize (bootchooserSave (persistentOps ops) bc env).2 = env' at *
  refine ⟨hStored, ⟨hGood, ?_, fun k hk => ?_⟩, fun t ht => ?_⟩
  · have hOther := hSaved.other (dotted bc.statePrefix (ascii "attempts_locked"))
      (dotted_ne (by decide) (by decide) (by decide)) fun t _ =>
        ⟨dotted_ne (by decide) (by decide) (by decide),
          dotted_ne (by decide) (by decide) (by decide)⟩
    rw [h.belongs.path] at hOther
    have hOther : ops.getenv env'.live (dotted (chooserPrefix cfg) (ascii "attempts_locked")) =
      ops.getenv env.live (dotted (chooserPrefix cfg) (ascii "attempts_locked")) := hOther
    grind [getenvU32]
  · obtain ⟨t, ht, rfl⟩ := h.belongs.exists_target hk
    have hRecorded := hSaved.targets t ht
    rw [h.belongs.path] at hRecorded
    have hRead := hRecorded.read.2
    rw [readAttempts_persistent] at hRead
    have hPaid := h.paid t ht
    have hPrinted := printedValue_le t.remainingAttempts
    have hLe : (readAttempts ops cfg env'.live t.name).toNat ≤ t.remainingAttempts.toNat := by
      rw [hRead]
      split_ifs
      · exact Nat.zero_le _
      · exact hPrinted
    simp only [Target.key]
    omega
  · have hRecorded := (hSaved.targets t ht).1
    rw [h.belongs.path] at hRecorded
    exact hRecorded

theorem ChooserAccount.choose (h : ChooserAccount cfg init log bc) {target : Target}
    (hMem : target ∈ bc.targets) (hAcceptable : Acceptable target) (env' : Persistent ε) :
    ChooserAccount cfg init (log ++ [⟨target, env'⟩]) (chooseTarget bc target) := by
  have hTargets := chooseTarget_unlocked h.unlocked target
  refine ⟨⟨h.belongs.state, h.belongs.path, ?_, fun id hId => ?_⟩, h.unlocked, fun t ht => ?_⟩
  · simp [chooseTarget_keys, h.belongs.keys]
  · cases hId
    have hKeys := congrArg (List.map Prod.fst) (chooseTarget_keys bc target)
    rw [map_map, map_map] at hKeys
    exact (congrArg (target.id ∈ ·) hKeys).mpr (mem_map_of_mem hMem)
  rw [hTargets] at ht
  obtain ⟨u, hu, rfl⟩ := mem_map.mp ht
  have hPaid := h.paid u hu
  rw [handedOver] at hPaid ⊢
  rw [countP_append, countP_singleton]
  by_cases hId : u.id = target.id
  · have hEq : u = target := inj_on_of_nodup_map h.belongs.ids_nodup hu hMem hId
    subst hEq
    have hSpend := Target.spend_attempts hAcceptable
    simp only [if_true, Target.spend, decide_true] at hSpend ⊢
    omega
  · have hNe : ¬target.id = u.id := fun hEq => hId hEq.symm
    grind

variable {s : BootState (Persistent ε)} {w : World (Persistent ε)}
  (hStores : Stores ops (decide (cfg.statePrefix ≠ [])) (savedNames cfg) Good)
    (hNames : (targetNames cfg).Nodup)
  (h : Ledger ops cfg Good init log s.env (some s.bc)) (hMark : s.successful = false)
include hStores hNames h hMark

theorem Ledger.bootOne (result : BootResult) :
    let one := bootchooserBootOne (persistentOps ops) result s
    Ledger ops cfg Good init (log ++ one.2.2.1) one.2.2.2.env (some one.2.2.2.bc) ∧
      one.2.2.2.successful = false ∧ ∀ handover ∈ one.2.2.1, Prepaid ops cfg handover := by
  have hChooser := h.chooser s.bc rfl
  rw [bootchooserBootOne]
  rcases bootchooserGetTarget_cases (persistentOps ops) s.bc s.env with
    hNone | ⟨target, hMem, hAcceptable, hSome⟩
  · grind
  rw [hSome]
  have hChosen := hChooser.choose hMem hAcceptable
    (bootchooserSave (persistentOps ops) (chooseTarget s.bc target) s.env).2
  obtain ⟨hStored, hLive, hRead⟩ := hChosen.save hStores hNames h.live.good h.live.unlocked
  generalize (bootchooserSave (persistentOps ops) (chooseTarget s.bc target) s.env).2 = env' at *
  have hLedger : Ledger ops cfg Good init (log ++ [⟨target, env'⟩]) env'
      (some (chooseTarget s.bc target)) := by
    refine ⟨hLive, hStored ▸ hLive, fun bc hEq => ?_⟩
    cases hEq
    exact hChosen
  have hPrepaid : Prepaid ops cfg ⟨target, env'⟩ := by
    have hSpent : target.spend ∈ (chooseTarget s.bc target).targets := by
      rw [chooseTarget_unlocked hChooser.unlocked]
      exact mem_map.mpr ⟨target, hMem, if_pos rfl⟩
    refine ⟨hChooser.belongs.keys.mem_iff.mp (mem_map_of_mem hMem), hAcceptable.2, ?_⟩
    rw [hStored]
    exact hRead target.spend hSpent
  have hAll : ∀ handover ∈ [Handover.mk target env'], Prepaid ops cfg handover := by
    simpa using hPrepaid
  cases result with
  | nothing => exact ⟨hLedger, hMark, hAll⟩
  | booted | failed e | lost => exact ⟨hLedger, rfl, hAll⟩

theorem Ledger.boot (retry : Bool) (iterations : Nat) (results : Nat → BootResult) :
    let run := bootchooserBoot (persistentOps ops) retry iterations results s
    Ledger ops cfg Good init (log ++ run.2.1) run.2.2.env (some run.2.2.bc) ∧
      run.2.2.successful = false ∧ ∀ handover ∈ run.2.1, Prepaid ops cfg handover := by
  induction iterations generalizing s log results with
  | zero => exact ⟨by simpa [bootchooserBoot] using h, hMark, by simp [bootchooserBoot]⟩
  | succ iterations ih =>
    have hOne := Ledger.bootOne hStores hNames h hMark (results 0)
    rw [bootchooserBoot]
    generalize bootchooserBootOne (persistentOps ops) (results 0) s = one at hOne ⊢
    obtain ⟨ended, tryagain, handed, s'⟩ := one
    obtain ⟨hLedger, hMark', hPrepaid⟩ := hOne
    by_cases hAgain : retry ∧ tryagain
    · obtain ⟨hRest, hRestMark, hRestPrepaid⟩ := ih hLedger hMark' fun i => results (i + 1)
      simp only [if_pos hAgain]
      rw [append_assoc] at hRest
      exact ⟨hRest, hRestMark, forall_mem_append.mpr ⟨hPrepaid, hRestPrepaid⟩⟩
    · simp only [if_neg hAgain]
      exact ⟨hLedger, hMark', hPrepaid⟩

omit hStores hNames h hMark

theorem Ledger.get (hReset : ∀ option, cfg.resetAttempts option = false)
    (hLocked : cfg.attemptsLocked = false)
    (h : Ledger ops cfg Good init log w.env w.bootchooser) (hMark : w.successful = false) :
    let w' := (bootchooserGet (persistentOps ops) cfg w).2
    Ledger ops cfg Good init log w'.env w'.bootchooser ∧ w'.successful = false := by
  rw [bootchooserGet]
  cases hBc : w.bootchooser with
  | some bc =>
    refine ⟨⟨h.live, h.stored, fun bc' hEq => ?_⟩, hMark⟩
    cases hEq
    obtain ⟨hBelongs, hUnlocked, hPaid⟩ := h.chooser bc hBc
    exact ⟨{ hBelongs with }, hUnlocked, hPaid⟩
  | none =>
    rw [hMark]
    rcases hNew : bootchooserNew (persistentOps ops) cfg w.resetted false w.env with e | made
    · exact ⟨h, hMark⟩
    obtain ⟨bc, resetted⟩ := made
    refine ⟨⟨h.live, h.stored, fun bc' hEq => ?_⟩, rfl⟩
    cases hEq
    have hBelongs := bootchooserNew_belongs hNew
    obtain ⟨-, -, -, -, -, -, -, -, hLock⟩ := bootchooserNew_ok hNew
    refine ⟨hBelongs, ?_, fun t ht => ?_⟩
    · rw [hLock, hLocked]
      exact h.live.unlocked
    have hLe := bootchooserNew_attempts hReset hNew t ht
    rw [readAttempts_persistent] at hLe
    have hPaid := h.live.paid t.key (hBelongs.keys.mem_iff.mp (mem_map_of_mem ht))
    grind [Target.key]

include hStores hNames in
theorem Ledger.put (h : Ledger ops cfg Good init log w.env (some bc)) :
    let w' := (bootchooserPut (persistentOps ops) bc w).2
    Ledger ops cfg Good init log w'.env w'.bootchooser ∧ w'.successful = w.successful := by
  obtain ⟨hBelongs, hUnlocked, hPaid⟩ := h.chooser bc rfl
  have hReleased : ChooserAccount cfg init log { bc with refs := bc.refs - 1 } :=
    ⟨{ hBelongs with }, hUnlocked, hPaid⟩
  simp only [bootchooserPut]
  split_ifs with hRefs
  · refine ⟨⟨h.live, h.stored, fun bc' hEq => ?_⟩, rfl⟩
    cases hEq
    exact hReleased
  · obtain ⟨hStored, hLive, -⟩ := hReleased.save hStores hNames h.live.good h.live.unlocked
    exact ⟨⟨hLive, hStored ▸ hLive, fun bc' hEq => by cases hEq⟩, rfl⟩

variable (hStores : Stores ops (decide (cfg.statePrefix ≠ [])) (savedNames cfg) Good)
  (hNames : (targetNames cfg).Nodup) (hReset : ∀ option, cfg.resetAttempts option = false)
  (hLocked : cfg.attemptsLocked = false)
include hStores hNames hReset hLocked

/-- Each event keeps the ledger, and every boot in it is paid for beforehand. -/
theorem Ledger.step (h : Ledger ops cfg Good init log w.env w.bootchooser)
    (hMark : w.successful = false)
    (event : Event) :
    let next := worldStep ops cfg w event
    Ledger ops cfg Good init (log ++ next.1) next.2.env next.2.bootchooser ∧
      next.2.successful = false ∧ ∀ handover ∈ next.1, Prepaid ops cfg handover := by
  cases event with
  | get =>
    obtain ⟨hLedger, hMark'⟩ := Ledger.get hReset hLocked h hMark
    exact ⟨by simpa [worldStep] using hLedger, hMark', by simp [worldStep]⟩
  | boot retry iterations results =>
    cases hBc : w.bootchooser with
    | none => exact ⟨by simpa [worldStep, hBc] using h, by simpa [worldStep, hBc] using hMark,
        by simp [worldStep, hBc]⟩
    | some bc =>
      rw [hBc] at h
      have hRun :=
        Ledger.boot hStores hNames (s := ⟨bc, w.env, w.successful⟩) h hMark retry iterations results
      simpa only [worldStep, hBc] using hRun
  | put =>
    cases hBc : w.bootchooser with
    | none => exact ⟨by simpa [worldStep, hBc] using h, by simpa [worldStep, hBc] using hMark,
        by simp [worldStep, hBc]⟩
    | some bc =>
      rw [hBc] at h
      obtain ⟨hLedger, hMark'⟩ := Ledger.put hStores hNames h
      grind [worldStep]
  | powerCycle =>
    simp only [worldStep, append_nil]
    exact ⟨⟨h.stored, h.stored, fun bc hEq => by cases hEq⟩, trivial, by simp⟩

/-- By induction on the events. -/
theorem Ledger.run (h : Ledger ops cfg Good init log w.env w.bootchooser)
    (hMark : w.successful = false)
    (events : List Event) :
    let last := runWorld ops cfg w events
    Ledger ops cfg Good init (log ++ last.1) last.2.env last.2.bootchooser ∧
      last.2.successful = false ∧ ∀ handover ∈ last.1, Prepaid ops cfg handover := by
  induction events generalizing w log with
  | nil => exact ⟨by simpa [runWorld] using h, hMark, by simp [runWorld]⟩
  | cons event rest ih =>
    obtain ⟨hLedger, hMark', hPrepaid⟩ := Ledger.step hStores hNames hReset hLocked h hMark event
    obtain ⟨hRest, hRestMark, hRestPrepaid⟩ := ih hLedger hMark'
    simp only [runWorld]
    rw [append_assoc] at hRest
    exact ⟨hRest, hRestMark, forall_mem_append.mpr ⟨hPrepaid, hRestPrepaid⟩⟩

end

/-- From any environment that was just loaded and whatever happens, no target is
handed over more often than it had attempts, each time its counter was stored
before, and `bootchooser_boot` makes at most one iteration more than there are
attempts left. -/
theorem bootAttempts_accounted {ε : Type} (ops : EnvOps ε) (cfg : Config) (Good : ε → Prop)
    (hStores : Stores ops (decide (cfg.statePrefix ≠ [])) (savedNames cfg) Good)
    (hNames : (targetNames cfg).Nodup) (hReset : ∀ option, cfg.resetAttempts option = false)
    (hLocked : cfg.attemptsLocked = false) (env : ε) (hGood : Good env) (hUnlocked :
      (getenvU32 ops env (chooserPrefix cfg) (ascii "attempts_locked")).any (· ≠ 0) = false)
        (events : List Event) :
    let (log, w) := runWorld ops cfg { env := ⟨env, env⟩ } events
    (∀ k ∈ targetKeys cfg, handedOver log k.1 ≤ (readAttempts ops cfg env k.2).toNat) ∧
      (∀ handover ∈ log, Prepaid ops cfg handover) ∧
      ∀ bc, w.bootchooser = some bc → ∀ results, (bootchooserBoot (persistentOps ops) true
        (attemptsLeft bc.targets + 1) results ⟨bc, w.env, w.successful⟩).1 ≠ .running := by
  have hAccount : EnvAccount ops cfg Good (fun name => (readAttempts ops cfg env name).toNat) []
      env := ⟨hGood, hUnlocked, fun k _ => by simp [handedOver]⟩
  have hStart : Ledger ops cfg Good (fun name => (readAttempts ops cfg env name).toNat) []
      ⟨env, env⟩ none := ⟨hAccount, hAccount, fun bc hEq => by cases hEq⟩
  obtain ⟨hLedger, -, hPrepaid⟩ := Ledger.run hStores hNames hReset hLocked
    (w := { env := ⟨env, env⟩ }) hStart rfl events
  refine ⟨fun k hk => ?_, hPrepaid, fun bc hBc results => ?_⟩
  · have hPaid := hLedger.live.paid k hk
    grind
  · obtain ⟨hBelongs, hBcUnlocked, -⟩ := hLedger.chooser bc hBc
    exact bootchooserBoot_stops _ true hBelongs.ids_nodup hBcUnlocked (Nat.lt_succ_self _) results

theorem bootAttempts_accounted_sample :
    let (log, w) := runWorld (stateEnvOps fun _ => .ok ()) sampleConfig
      { env := ⟨sampleEnv, sampleEnv⟩ } [.get, .boot true 2 fun _ => .failed .einval,
        .powerCycle, .get]
    (∀ k ∈ targetKeys sampleConfig, handedOver log k.1 ≤
        (readAttempts (stateEnvOps fun _ => .ok ()) sampleConfig sampleEnv k.2).toNat) ∧
      (∀ handover ∈ log, Prepaid (stateEnvOps fun _ => .ok ()) sampleConfig handover) ∧
      ∀ bc, w.bootchooser = some bc → ∀ results,
        (bootchooserBoot (persistentOps (stateEnvOps fun _ => .ok ())) true
          (attemptsLeft bc.targets + 1) results ⟨bc, w.env, w.successful⟩).1 ≠ .running :=
  bootAttempts_accounted (stateEnvOps fun _ => .ok ()) sampleConfig _
    (stateEnvOps_stores (fun _ => .ok ()) [115] sampleEnv_variables.noEquals) (by decide)
    (fun _ => rfl) rfl sampleEnv sampleEnv_variables (by decide)
    [.get, .boot true 2 fun _ => .failed .einval, .powerCycle, .get]

/-- With three attempts left and boots that fail, the loop is not done after three
iterations: a fourth one is needed to find that no target is left. -/
theorem bootchooserBoot_one_more :
    Belongs sampleConfig (sampleChooser 1) ∧ attemptsLeft (sampleChooser 1).targets = 3 ∧
      (bootchooserBoot (persistentOps (stateEnvOps fun _ => .ok ())) true 3
        (fun _ => .failed .einval) ⟨sampleChooser 1, ⟨sampleEnv, sampleEnv⟩, false⟩).1 =
          .running := by
  exact ⟨sampleChooser_belongs 1, rfl, rfl⟩

end Barebox.Bootchooser
