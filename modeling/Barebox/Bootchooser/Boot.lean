import Barebox.Bootchooser.Chooser

/-! Booting with a bootchooser, and the bootchooser that all callers share.
Booting a target may come back to bootchooser before it returns. -/
namespace Barebox.Bootchooser

/-- What becomes of a target after it was handed to the boot code: there is
nothing to boot, one of its entries returned without an error, all entries
failed, or the boot code never returned. -/
inductive BootResult where
  | nothing
  | booted
  | failed (e : Errno)
  | lost
  deriving DecidableEq

/-- A target that was chosen, as it was before, and the environment at the time
it is handed to the boot code. -/
structure Handover (ε : Type) where
  target : Target
  env : ε

/-- How a call of `bootchooser_boot` ends. It is still running when it has made
as many iterations as were looked at. -/
inductive BootEnd where
  | returned (ret : Except Errno Unit)
  | lost
  | running

/-- A bootchooser in use, with `last_boot_successful`. -/
structure BootState (ε : Type) where
  bc : Chooser
  env : ε
  successful : Bool

structure World (ε : Type) where
  env : ε
  bootchooser : Option Chooser := none
  resetted : Bool := false
  successful : Bool := false

section
variable {ε : Type} (ops : EnvOps ε)

/-- `bootchooser_boot_one`: how it ends, `tryagain`, and the target that was
handed over. -/
def bootchooserBootOne (result : BootResult) (s : BootState ε) :
    BootEnd × Bool × List (Handover ε) × BootState ε :=
  match bootchooserGetTarget ops s.bc s.env with
  | (.error e, bc, env) => (.returned (.error e), false, [], { s with bc, env })
  | (.ok target, bc, env) =>
    let handed := [⟨target, env⟩]
    match result with
    | .nothing => (.returned (.error .enodev), true, handed, { s with bc, env })
    | .booted => (.returned (.ok ()), false, handed, ⟨bc, env, false⟩)
    | .failed e => (.returned (.error e), true, handed, ⟨bc, env, false⟩)
    | .lost => (.lost, false, handed, ⟨bc, env, false⟩)

/-- At most so many iterations of `bootchooser_boot`, with the result of each. -/
def bootchooserBoot (retry : Bool) :
    Nat → (Nat → BootResult) → BootState ε → BootEnd × List (Handover ε) × BootState ε
  | 0, _, s => (.running, [], s)
  | iterations + 1, results, s =>
    match bootchooserBootOne ops (results 0) s with
    | (ended, tryagain, handed, s) =>
      if retry ∧ tryagain then
        let (ended, more, s) := bootchooserBoot retry iterations (fun i => results (i + 1)) s
        (ended, handed ++ more, s)
      else (ended, handed, s)

variable (cfg : Config)

def bootchooserGet (w : World ε) : Except Errno Chooser × World ε :=
  match w.bootchooser with
  | some bc =>
    let bc := { bc with refs := bc.refs + 1 }
    (.ok bc, { w with bootchooser := some bc })
  | none =>
    match bootchooserNew ops cfg w.resetted w.successful w.env with
    | .error e => (.error e, w)
    | .ok (bc, resetted) => (.ok bc, { w with bootchooser := some bc, resetted })

/-- `bootchooser_put`. Without references the bootchooser is saved and freed. -/
def bootchooserPut (bc : Chooser) (w : World ε) : Except Errno Unit × World ε :=
  let bc := { bc with refs := bc.refs - 1 }
  if bc.refs ≠ 0 then (.ok (), { w with bootchooser := some bc })
  else
    let (ret, env) := bootchooserSave ops bc w.env
    (ret, { w with env, bootchooser := none })

end

structure Persistent (ε : Type) where
  live : ε
  stored : ε

def persistentOps {ε : Type} (ops : EnvOps ε) : EnvOps (Persistent ε) where
  getenv env := ops.getenv env.live
  setenv env name val :=
    let (ret, live) := ops.setenv env.live name val
    (ret, { env with live })
  nvvarAdd env name val :=
    let (ret, live) := ops.nvvarAdd env.live name val
    (ret, { env with live })
  stateByName env := ops.stateByName env.live
  stateSave env := (.ok (), ⟨(ops.stateSave env.live).2, (ops.stateSave env.live).2⟩)
  nvvarSave env := (.ok (), ⟨(ops.nvvarSave env.live).2, (ops.nvvarSave env.live).2⟩)

/-- What happens to a machine. `bootchooser_entry_boot` gets a bootchooser, boots
and puts it back; when the boot code of a target enters bootchooser again, the
iterations of the outer call are two boots with other events in between. -/
inductive Event where
  | get
  | boot (retry : Bool) (iterations : Nat) (results : Nat → BootResult)
  | put
  | powerCycle

section
variable {ε : Type} (ops : EnvOps ε) (cfg : Config)

/-- One event: the targets that are handed over, and the machine afterwards. A
power cycle may come at any time and leaves nothing but what was saved. -/
def worldStep (w : World (Persistent ε)) :
    Event → List (Handover (Persistent ε)) × World (Persistent ε)
  | .get => ([], (bootchooserGet (persistentOps ops) cfg w).2)
  | .boot retry iterations results =>
    match w.bootchooser with
    | none => ([], w)
    | some bc =>
      let (_, handed, s) := bootchooserBoot (persistentOps ops) retry iterations results
        ⟨bc, w.env, w.successful⟩
      (handed, { w with env := s.env, bootchooser := some s.bc, successful := s.successful })
  | .put =>
    match w.bootchooser with
    | none => ([], w)
    | some bc => ([], (bootchooserPut (persistentOps ops) bc w).2)
  | .powerCycle => ([], { env := ⟨w.env.stored, w.env.stored⟩ })

def runWorld (w : World (Persistent ε)) :
    List Event → List (Handover (Persistent ε)) × World (Persistent ε)
  | [] => ([], w)
  | event :: rest =>
    let (handed, w) := worldStep ops cfg w event
    let (more, w) := runWorld w rest
    (handed ++ more, w)

end

def attemptsLeft (targets : List Target) : Nat :=
  (targets.map fun t => if t.priority = 0 then 0 else t.remainingAttempts.toNat).sum

end Barebox.Bootchooser
