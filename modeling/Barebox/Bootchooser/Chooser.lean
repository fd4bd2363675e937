import Barebox.Bootchooser.Environment
import Barebox.Lib.ListSort
import Mathlib

/-! The bootchooser: its targets with their priorities and attempts, how they
are read from the environment and saved there, and how one of them is chosen
and booted. A pointer to a target is the id of the target. -/
namespace Barebox.Bootchooser
open Bytes Lib

/-- `struct bootchooser_target`. The two prefixes follow from the name. -/
structure Target where
  priority : UInt32
  remainingAttempts : UInt32
  id : Nat
  name : List UInt8
  defaultAttempts : UInt32
  defaultPriority : UInt32
  boot : List UInt8
  deriving DecidableEq

/-- `struct bootchooser`. Of the state only its presence matters. -/
structure Chooser where
  targets : List Target
  lastChosen : Option Nat := none
  state : Bool
  statePrefix : List UInt8
  refs : Nat := 1
  attemptsLocked : Bool
  deriving DecidableEq

inductive ResetAttempts where
  | powerOn | allZero | srcRst
  deriving DecidableEq

inductive ResetPriorities where
  | allZero
  deriving DecidableEq

inductive ResetSource where
  | ukwn | por | rst | wdg | wke | jtag | therm | ext | brownout
  deriving DecidableEq

/-- The global variables of bootchooser that do not change while it runs, and
what the machine and the build provide. -/
structure Config where
  availableTargets : List UInt8
  statePrefix : List UInt8 := []
  globalDefaultAttempts : UInt32 := 3
  globalDefaultPriority : UInt32 := 1
  disableOnZeroAttempts : Bool := false
  attemptsLocked : Bool := false
  resetAttempts : ResetAttempts → Bool := fun _ => false
  resetPriorities : ResetPriorities → Bool := fun _ => false
  resetSource : ResetSource := .ukwn
  configState : Bool := true

def bootchooserTargetOk (target : Target) : Bool :=
  target.priority ≠ 0 && target.remainingAttempts ≠ 0

/-- The order of the target list: of two targets with one priority the new one goes behind. -/
def bootchooserTargetCompare (a b : Target) : Int := if b.priority ≤ a.priority then -1 else 1

def bootchooserTargetDisable (target : Target) : Target :=
  { target with priority := 0, remainingAttempts := 0 }

def bootchooserTargetSetAttempts (attempts : Int32) (target : Target) : Target :=
  { target with
    remainingAttempts := if 0 ≤ attempts then attempts.toUInt32 else target.defaultAttempts }

def bootchooserTargetSetPriority (priority : Int32) (target : Target) : Target :=
  { target with priority := if 0 ≤ priority then priority.toUInt32 else target.defaultPriority }

def updateTarget (id : Nat) (f : Target → Target) (targets : List Target) : List Target :=
  targets.map fun t => if t.id = id then f t else t

variable (targets : List Target)

def bootchooserResetAttempts : List Target :=
  targets.map fun t => if t.priority ≠ 0 then bootchooserTargetSetAttempts (-1) t else t

def bootchooserResetPriorities : List Target := targets.map (bootchooserTargetSetPriority (-1))

def bootchooserTargetById (id : UInt32) : Option Target := targets.find? (·.id = id.toNat)

/-- The names of the targets, as the loop around `strsep` finds them. An empty
name ends the list. -/
def targetNames (cfg : Config) : List (List UInt8) :=
  (cfg.availableTargets.splitOn 32).takeWhile (· ≠ [])

def chooserPrefix (cfg : Config) : List UInt8 :=
  if cfg.statePrefix = [] then ascii "nv.bootchooser" else cfg.statePrefix

section
variable {ε : Type} (ops : EnvOps ε) (cfg : Config) (bc : Chooser) (env : ε)

/-- `bootchooser_target_new`: each value has a default of its own and a global one. -/
def bootchooserTargetNew (name : List UInt8) (id : Nat) : Target :=
  let path := dotted (ascii "global.bootchooser") name
  let statePath := dotted (chooserPrefix cfg) name
  let defaultPriority :=
    (getenvU32 ops env path (ascii "default_priority")).getD cfg.globalDefaultPriority
  let defaultAttempts :=
    (getenvU32 ops env path (ascii "default_attempts")).getD cfg.globalDefaultAttempts
  let priority := (getenvU32 ops env statePath (ascii "priority")).getD defaultPriority
  let attempts := (getenvU32 ops env statePath (ascii "remaining_attempts")).getD defaultAttempts
  { priority
    remainingAttempts := if attempts ≠ 0 ∧ priority = 0 then 0 else attempts
    id, name, defaultAttempts, defaultPriority
    boot := (ops.getenv env (dotted path (ascii "boot"))).getD name }

/-- The loop of `bootchooser_get` over the names of the targets. -/
def buildTargets : List Target :=
  ((targetNames cfg).zipIdx 1).foldl (fun targets entry =>
    listAddSort bootchooserTargetCompare (bootchooserTargetNew ops cfg env entry.1 entry.2) targets)
      []

/-- The reset of the priorities. The sum is an `int`. -/
def resetPrioritiesOn (targets : List Target) : List Target :=
  if cfg.resetPriorities .allZero ∧ (targets.map Target.priority).sum = 0 then
    bootchooserResetPriorities targets
  else targets

/-- One of the two resets of the attempts that are made only once after a start:
the targets and `attempts_resetted`. -/
def resetAttemptsOnce (option : ResetAttempts) (source : ResetSource) :
    List Target × Bool → List Target × Bool
  | (targets, resetted) =>
    if cfg.resetAttempts option ∧ cfg.resetSource = source ∧ ¬resetted then
      (bootchooserResetAttempts targets, true)
    else (targets, resetted)

/-- The reset of the attempts when none is left. The sum is an `int`. -/
def resetAttemptsOn (targets : List Target) : List Target :=
  if cfg.resetAttempts .allZero ∧ (targets.map Target.remainingAttempts).sum = 0 then
    bootchooserResetAttempts targets
  else targets

def readLastChosen (targets : List Target) : Option Nat :=
  match getenvU32 ops env (chooserPrefix cfg) (ascii "last_chosen") with
  | some id => if 0 < id then (bootchooserTargetById targets id).map Target.id else none
  | none => none

/-- The last two changes to the targets: the attempts after a successful boot,
and the targets without attempts. -/
def settleTargets (successful : Bool) (lastChosen : Option Nat) (targets : List Target) :
    List Target :=
  let targets :=
    match lastChosen with
    | some id => if successful then updateTarget id (bootchooserTargetSetAttempts (-1)) targets
        else targets
    | none => targets
  if cfg.disableOnZeroAttempts then
    targets.map fun t => if t.remainingAttempts = 0 then bootchooserTargetDisable t else t
  else targets

/-- `bootchooser_get` when there is no bootchooser yet, with `attempts_resetted`
before and afterwards. -/
def bootchooserNew (resetted successful : Bool) (env : ε) : Except Errno (Chooser × Bool) :=
  if cfg.statePrefix ≠ [] ∧
      ¬(cfg.configState ∧ ops.stateByName env (cfg.statePrefix.takeWhile (· ≠ 46))) then
    .error .enodev
  else if targetNames cfg = [] then .error .einval
  else
    let locked := (getenvU32 ops env (chooserPrefix cfg) (ascii "attempts_locked")).any (· ≠ 0)
    let (targets, resetted) := resetAttemptsOnce cfg .srcRst .rst
        (resetAttemptsOnce cfg .powerOn .por (resetPrioritiesOn cfg (buildTargets ops cfg env),
          resetted))
    let targets := resetAttemptsOn cfg targets
    let lastChosen := readLastChosen ops cfg env targets
    .ok ({ targets := settleTargets cfg successful lastChosen targets
           lastChosen
           state := cfg.statePrefix ≠ []
           statePrefix := chooserPrefix cfg
           attemptsLocked := cfg.attemptsLocked || locked }, resetted)

/-- One assignment of `bootchooser_save`. -/
def saveVariable (path name : List UInt8) (v : UInt32) : Except Errno Unit × ε :=
  bcSetenv ops bc.state env (dotted path name ++ 61 :: formatSigned v)

/-- The loop of `bootchooser_save`. -/
def saveTargets (bc : Chooser) : List Target → ε → Except Errno Unit × ε
  | [], env => (.ok (), env)
  | target :: rest, env =>
    let path := dotted bc.statePrefix target.name
    match saveVariable ops bc env path (ascii "remaining_attempts") target.remainingAttempts with
    | (.error e, env) => (.error e, env)
    | (.ok (), env) =>
      match saveVariable ops bc env path (ascii "priority") target.priority with
      | (.error e, env) => (.error e, env)
      | (.ok (), env) => saveTargets bc rest env

/-- The assignment of `last_chosen`, whose result is not looked at. -/
def saveLastChosen : ε :=
  match bc.lastChosen with
  | some id => (saveVariable ops bc env bc.statePrefix (ascii "last_chosen") (.ofNat id)).2
  | none => env

/-- `bootchooser_save`: the target chosen last, the values of every target, then the backend. -/
def bootchooserSave : Except Errno Unit × ε :=
  match saveTargets ops bc bc.targets (saveLastChosen ops bc env) with
  | (.error e, env) => (.error e, env)
  | (.ok (), env) => if bc.state then ops.stateSave env else ops.nvvarSave env

/-- What `bootchooser_get_target` does to the bootchooser when it chooses a
target. -/
def chooseTarget (target : Target) : Chooser :=
  { bc with
    targets :=
      if bc.attemptsLocked then bc.targets
      else updateTarget target.id
        (fun t => { t with remainingAttempts := t.remainingAttempts - 1 }) bc.targets
    lastChosen := some target.id }

/-- `bootchooser_get_target`: the target as it was found, the bootchooser and
the environment. The result of saving is not looked at. -/
def bootchooserGetTarget : Except Errno Target × Chooser × ε :=
  match bc.targets.find? bootchooserTargetOk with
  | none => (.error .enoent, bc, env)
  | some target =>
    let bc := chooseTarget bc target
    (.ok target, bc, (bootchooserSave ops bc env).2)

end
end Barebox.Bootchooser
