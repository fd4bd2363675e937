import Barebox.Bootchooser.Saving
import Barebox.State.Params

/-! The environment with a state, whose variables are parameters of a device.
Every variable that bootchooser uses has a dot in its name, so only parameters
are looked at. There are no nv variables in this build. -/
namespace Barebox.Bootchooser
open Bytes Lib State List

structure StateEnv where
  name : List UInt8
  state : StateObject
  globals : List (List UInt8 × List UInt8)

def splits : List UInt8 → List (List UInt8 × List UInt8)
  | [] => []
  | c :: rest =>
    let more := (splits rest).map fun split => (c :: split.1, split.2)
    if c = 46 then ([], rest) :: more else more

variable {name other : List UInt8}

theorem mem_splits {split : List UInt8 × List UInt8} (h : split ∈ splits name) :
    name = dotted split.1 split.2 := by
  induction name generalizing split with
  | nil => cases h
  | cons c rest ih =>
    have hMore (h : split ∈ (splits rest).map fun split => (c :: split.1, split.2)) :
        c :: rest = dotted split.1 split.2 := by
      obtain ⟨inner, hInner, rfl⟩ := mem_map.mp h
      exact congrArg (c :: ·) (ih hInner)
    rw [splits] at h
    split_ifs at h with hDot
    · rcases mem_cons.mp h with rfl | h
      · exact congrArg (· :: rest) hDot
      · exact hMore h
    · exact hMore h

theorem splits_dotted {dev : List UInt8} (h : 46 ∉ dev) (var : List UInt8) :
    ∃ more, splits (dotted dev var) = (dev, var) :: more := by
  induction dev with
  | nil => exact ⟨_, rfl⟩
  | cons c rest ih =>
    obtain ⟨more, hMore⟩ := ih (fun hMem => h (.tail _ hMem))
    have hDot : ¬c = 46 := fun hEq => h (hEq ▸ (.head _))
    refine ⟨more.map fun split => (c :: split.1, split.2), ?_⟩
    grind [dotted, splits]

namespace StateEnv
variable (env : StateEnv)

/-- `dev_get_param` on a device, if it exists. -/
def devGetParam (dev var : List UInt8) : Option (List UInt8) :=
  if dev = env.name then (stateGetParam env.state var).1
  else if dev = ascii "global" then (env.globals.find? (·.1 = var)).map Prod.snd
  else none

def devGetenv (name : List UInt8) : Option (List UInt8) :=
  (splits name).findSome? fun split => env.devGetParam split.1 split.2

def hasParam (dev var : List UInt8) : Bool :=
  if dev = env.name then (stateFindVar env.state.vars var).isSome || var ∈ stateParams
  else dev = ascii "global" && env.globals.any (·.1 = var)

/-- `dev_set_param` on a parameter that exists. -/
def devSetParam (dev var val : List UInt8) : Except Errno Unit × StateEnv :=
  if dev = env.name then
    let (ret, state) := stateSetParam env.state var (some (.ofBuffer val))
    (ret, { env with state })
  else
    (.ok (), { env with globals := env.globals.map fun p => if p.1 = var then (var, val) else p })

def devSetenv (name val : List UInt8) : Except Errno Unit × StateEnv :=
  match (splits name).find? fun split => env.hasParam split.1 split.2 with
  | none => (.error .enodev, env)
  | some split => env.devSetParam split.1 split.2 val

end StateEnv

/-- The environment with a state. Writing the state to its backend is a
parameter; a state that was written is not dirty. -/
def stateEnvOps (write : StateObject → Except Errno Unit) : EnvOps StateEnv where
  getenv := StateEnv.devGetenv
  setenv := StateEnv.devSetenv
  nvvarAdd env _ _ := (.error .enosys, env)
  stateByName env name := name = env.name
  stateSave env :=
    if env.state.dirty then
      match write env.state with
      | .error e => (.error e, env)
      | .ok () => (.ok (), { env with state := { env.state with dirty := false } })
    else (.ok (), env)
  nvvarSave env := (.ok (), env)

theorem stateFindVar_setData {vars : List Variable} {sv : Variable}
    (hFind : stateFindVar vars name = some sv)
    (data : VariableData) : stateFindVar (setData name data vars) name = some { sv with data } := by
  induction vars with
  | nil => cases hFind
  | cons head rest ih =>
    rw [stateFindVar, find?_cons] at hFind
    rw [setData]
    by_cases hName : head.name = name
    · simp only [hName, decide_true] at hFind
      cases hFind
      simp [stateFindVar, hName]
    · grind [stateFindVar]

theorem stateFindVar_setData_of_ne (h : other ≠ name) (data : VariableData) (vars : List Variable) :
    stateFindVar (setData name data vars) other = stateFindVar vars other := by
  induction vars with
  | nil => rfl
  | cons head rest ih =>
    rw [setData]
    split_ifs with hName
    · have hOther : ¬name = other := fun hEq => h hEq.symm
      simp [stateFindVar, hName, hOther]
    · grind [stateFindVar]

theorem stateGetParam_text (st : StateObject) (var : List UInt8) :
    (stateGetParam st var).1 = (stateFindVar st.vars var).map fun sv => (paramGet sv.data).1 := by
  rw [stateGetParam]
  cases stateFindVar st.vars var with
  | none => rfl
  | some sv => rfl

theorem formatSigned_nonzero (v : UInt32) : 0 ∉ formatSigned v := by
  have hDigit : ∀ d < 10, digitChar d ≠ 0 := by decide
  have hDecimal (n : Nat) : 0 ∉ decimal n := by
    rw [decimal]
    split_ifs
    · decide
    · intro h
      obtain ⟨d, hd, hZero⟩ := mem_map.mp (mem_reverse.mp h)
      exact hDigit d (Nat.digits_lt_base (by decide) hd) hZero
  rw [formatSigned]
  split_ifs
  · exact hDecimal _
  · exact fun h => (mem_cons.mp h).elim (by decide) (hDecimal _)

/-- The state is the device, and it has the variables, each of them an `uint32`.
The names come from device tree nodes and have no equals sign. -/
structure Uint32Variables (dev : List UInt8) (names : List (List UInt8)) (env : StateEnv) :
    Prop where
  device : env.name = dev
  noDot : 46 ∉ env.name
  noEquals : ∀ name ∈ names, 61 ∉ name
  found : ∀ name ∈ names, ∃ var sv v d, name = dotted env.name var ∧
    stateFindVar env.state.vars var = some sv ∧ sv.data = .uint32 v d

section
variable {write : StateObject → Except Errno Unit} {names : List (List UInt8)} {env : StateEnv}
  {var : List UInt8} {sv : Variable} {v d : UInt32}

theorem devGetenv_uint32 (env : StateEnv) (hDevice : 46 ∉ env.name)
    (hFind : stateFindVar env.state.vars var = some sv)
    (hData : sv.data = .uint32 v d) :
    env.devGetenv (dotted env.name var) = some (formatUnsigned v) := by
  obtain ⟨more, hSplits⟩ := splits_dotted hDevice var
  simp [StateEnv.devGetenv, hSplits, StateEnv.devGetParam, stateGetParam_text,
    hFind, hData, paramGet]

theorem devSetenv_uint32 (hDevice : 46 ∉ env.name)
    (hFind : stateFindVar env.state.vars var = some sv) (hData : sv.data = .uint32 v d)
    (w : UInt32) :
    env.devSetenv (dotted env.name var) (formatSigned w) =
    (.ok (), { env with state := { env.state with
        vars := setData var (.uint32 (printedValue w) d) env.state.vars, dirty := true } }) := by
  obtain ⟨more, hSplits⟩ := splits_dotted hDevice var
  have hText : (CString.ofBuffer (formatSigned w)).bytes = formatSigned w :=
    takeWhile_eq_self_iff.mpr fun c hc => by
      simpa using fun hZero : c = 0 => formatSigned_nonzero w (hZero ▸ hc)
  have hHas : env.hasParam env.name var = true := by simp [StateEnv.hasParam, hFind]
  rw [StateEnv.devSetenv, hSplits, find?_cons]
  simp only [hHas, StateEnv.devSetParam, if_true, stateSetParam, hFind, hData, paramSet, hText]
  rw [← strtoU32_formatSigned]
  rfl

theorem findSome?_congr_of_mem {α β : Type} {f g : α → Option β} {l : List α}
    (h : ∀ a ∈ l, f a = g a) : l.findSome? f = l.findSome? g := by
  induction l with
  | nil => rfl
  | cons a rest ih =>
    simp [findSome?_cons, h a (.head _), ih fun b hb => h b (.tail _ hb)]

theorem devGetenv_setData (hOther : other ≠ dotted env.name var) (data : VariableData) :
    StateEnv.devGetenv { env with state := { env.state with
      vars := setData var data env.state.vars, dirty := true } } other = env.devGetenv other := by
  refine findSome?_congr_of_mem fun split hSplit => ?_
  have hName := mem_splits hSplit
  rw [StateEnv.devGetParam, StateEnv.devGetParam]
  by_cases hDev : split.1 = env.name
  · have hVar : split.2 ≠ var := fun hEq => hOther (by rw [hName, hDev, hEq])
    simp [stateGetParam_text, stateFindVar_setData_of_ne hVar]
  · simp [hDev]

theorem stateEnvOps_stores (write : StateObject → Except Errno Unit) (dev : List UInt8)
    (hEquals : ∀ name ∈ names, 61 ∉ name) :
    Stores (stateEnvOps write) true names (Uint32Variables dev names) where
  noEquals := hEquals
  set env hGood name hName w := by
    obtain ⟨var, sv, v, d, rfl, hFind, hData⟩ := hGood.found name hName
    have hSet : setVariable (stateEnvOps write) true env (dotted env.name var) (formatSigned w) =
        _ := devSetenv_uint32 hGood.noDot hFind hData w
    rw [hSet]
    have hFind' := stateFindVar_setData hFind (.uint32 (printedValue w) d)
    refine ⟨rfl, ⟨hGood.device, hGood.noDot, hEquals, fun name hName => ?_⟩,
      ?_, fun other hOther => ?_⟩
    · obtain ⟨var', sv', v', d', rfl, hFindOther, hDataOther⟩ := hGood.found name hName
      by_cases hEq : var' = var
      · grind
      · exact ⟨var', sv', v', d', rfl, (stateFindVar_setData_of_ne hEq _ _).trans hFindOther,
          hDataOther⟩
    · have hGet := devGetenv_uint32 { env with state := { env.state with
        vars := setData var (.uint32 (printedValue w) d) env.state.vars, dirty := true } }
        hGood.noDot hFind' rfl
      exact (congrArg (Option.map strtoU32) hGet).trans (congrArg some (strtoU32_formatUnsigned _))
    · exact devGetenv_setData hOther _
  save env hGood := by
    simp only [stateEnvOps, if_true]
    by_cases hDirty : env.state.dirty = true
    · rw [if_pos hDirty]
      cases write env.state with
      | error e => exact ⟨hGood, fun _ => rfl⟩
      | ok done =>
        refine ⟨{ hGood with noEquals := hEquals }, fun name => ?_⟩
        simp only [StateEnv.devGetenv, StateEnv.devGetParam, stateGetParam_text]
    · rw [if_neg hDirty]
      exact ⟨hGood, fun _ => rfl⟩

end
end Barebox.Bootchooser
