import Barebox.State.Convert

/-! What holds for the variables of every state that was created from a device
tree node: they are sorted, bounded in size, and named uniquely after the
entries they come from. -/
namespace Barebox.State
open Bytes Of List Option
variable {raw raw' : List UInt8} {props : List Property} {into : CString → TextPointer}
    {d d' : TextPointer}
    {ret : Except Errno Unit} {vtype : VariableType} {taken : Bool}
    {vars vars' : List Variable} {e : Entry}
    {node : Node} {st : StateObject}

theorem stateStringCopyToRaw_length {size : Nat} {src : CString}
    (h : stateStringCopyToRaw size src = .ok raw) : raw.length = size := by
  unfold stateStringCopyToRaw at h
  split_ifs at h with hLong
  cases h
  simp
  omega

variable (h : stateStringImport props into d raw = some (ret, d', raw'))
include h

theorem stateStringImport_length : raw'.length = raw.length := by
  obtain ⟨text, -, h⟩ := map_eq_some_iff.mp h
  split_ifs at h
  · cases h
    rfl
  rcases hValue : (propertyReadString props propValue).toOption.or text with _ | s
  · rw [hValue] at h
    cases h
    rfl
  rw [hValue] at h
  cases hCopy : stateStringCopyToRaw raw.length s with
  | error e =>
    simp only [hCopy] at h
    cases h
    rfl
  | ok copy =>
    simp only [hCopy] at h
    cases h
    exact stateStringCopyToRaw_length hCopy

omit h

theorem importData_type_size {d d' : VariableData}
    (h : importData props vtype into d = some (ret, d')) :
    d'.type = d.type ∧ d'.size = d.size := by
  cases d with
  | string value dflt raw =>
    cases vtype with
    | string =>
      obtain ⟨⟨ret', dflt', raw'⟩, hImport, hEq⟩ := map_eq_some_iff.mp h
      cases hEq
      exact ⟨rfl, stateStringImport_length hImport⟩
    | _ => cases h
  | mac value dflt =>
    cases vtype with
    | mac =>
      cases h
      exact ⟨rfl, rfl⟩
    | _ => cases h
  | _ =>
    cases vtype with
    | enum32 =>
      simp only [importData, Option.some.injEq] at h
      split at h <;> cases h <;> exact ⟨rfl, rfl⟩
    | uint8 | uint32 =>
      cases h
      exact ⟨rfl, rfl⟩
    | _ => cases h

theorem createData_ok {d : VariableData} (h : createData vtype props taken = .ok d) :
    taken = false ∧ d.type = vtype ∧ d.size ≤ 4096 := by
  have hParam : ∀ d' : VariableData, (if taken = true then Except.error Errno.eexist
      else Except.ok d') = .ok d → taken = false ∧ d' = d := by
    intro d' hEq
    cases taken with
    | true => cases hEq
    | false => exact ⟨rfl, Except.ok.inj hEq⟩
  cases vtype with
  | enum32 =>
    simp only [createData] at h
    cases hNames : propertyReadStrings props propNames with
    | error e =>
      rw [hNames] at h
      cases h
    | ok names =>
      rw [hNames] at h
      obtain ⟨hTaken, rfl⟩ := hParam _ h
      exact ⟨hTaken, rfl, by simp [VariableData.size]⟩
  | string =>
    simp only [createData] at h
    rcases hReg : propertyReadU32Array props propReg 2 with e | startSize
    · rw [hReg] at h
      cases h
    rw [hReg] at h
    dsimp only at h
    by_cases hSize : 4096 < (startSize.getD 1 0).toNat
    · rw [if_pos hSize] at h
      cases h
    · rw [if_neg hSize] at h
      obtain ⟨hTaken, rfl⟩ := hParam _ h
      exact ⟨hTaken, rfl, by simpa [VariableData.size] using hSize⟩
  | _ =>
    obtain ⟨hTaken, rfl⟩ := hParam _ h
    exact ⟨hTaken, rfl, by decide⟩

theorem createVariable_cases (h : createVariable vars e = some (.ok vars')) :
    (entryType e = .ok none ∧ vars' = vars) ∨ ∃ (vtype : VariableType)
    (start : UInt32) (d data : VariableData),
      entryType e = .ok (some vtype) ∧ stateFindVar vars e.name = none ∧
      createData vtype e.properties false = .ok d ∧
      importData e.properties vtype .live d = some (.ok (), data) ∧
      (∃ startSize, propertyReadU32Array e.properties propReg 2 = .ok startSize ∧
        start = startSize.getD 0 0 ∧ (startSize.getD 1 0).toNat = d.size) ∧
      vars' = stateAddVar vars ⟨e.name, start, data⟩ := by
  unfold createVariable at h
  rcases hType : entryType e with err | vtype
  · rw [hType] at h
    cases h
  rw [hType] at h
  rcases vtype with _ | vtype
  · cases h
    exact .inl ⟨rfl, rfl⟩
  dsimp only at h
  cases hData : createData vtype e.properties
    (decide (e.name ∈ stateParams) || (stateFindVar vars e.name).isSome) with
  | error err =>
    rw [hData] at h
    cases h
  | ok data =>
    rcases hReg : propertyReadU32Array e.properties propReg 2 with err | startSize
    · rw [hData, hReg] at h
      cases h
    rw [hData, hReg] at h
    dsimp only at h
    by_cases hSize : (startSize.getD 1 0).toNat ≠ data.size
    · rw [if_pos hSize] at h
      cases h
    rw [if_neg hSize] at h
    rcases hImport : importData e.properties vtype .live data with _ | result
    · rw [hImport] at h
      cases h
    obtain ⟨ret, data'⟩ := result
    rw [hImport] at h
    rcases ret with err | u
    · cases h
    cases h
    have hTaken := (createData_ok hData).1
    rw [hTaken] at hData
    rw [Bool.or_eq_false_iff, isSome_eq_false_iff, isNone_iff_eq_none] at hTaken
    exact .inr ⟨vtype, _, data, data', rfl, hTaken.2, hData,
      hImport, ⟨startSize, rfl, rfl, not_not.mp hSize⟩, rfl⟩

theorem createVariables_cons {rest : List Entry}
    (h : createVariables vars (e :: rest) = some (.ok vars')) :
    ∃ mid, createVariable vars e = some (.ok mid) ∧ createVariables mid rest =
    some (.ok vars') := by
  rw [createVariables] at h
  rcases hOne : createVariable vars e with _ | result
  · rw [hOne] at h
    cases h
  cases result with
  | error err =>
    rw [hOne] at h
    cases h
  | ok mid =>
    grind

structure WellLaid (vars : List Variable) : Prop where
  sorted : vars.Pairwise (fun a b => a.start ≤ b.start)
  small : ∀ sv ∈ vars, sv.size ≤ 4096
  unique : (vars.map Variable.name).Nodup

theorem stateFindVar_eq_none {name : List UInt8} :
    stateFindVar vars name = none ↔ name ∉ vars.map Variable.name := by
  simp [stateFindVar]

theorem WellLaid.add (h : WellLaid vars) (sv : Variable)
    (hSize : sv.size ≤ 4096) (hNew : stateFindVar vars sv.name = none) :
    WellLaid (stateAddVar vars sv) := by
  have hPerm := perm_orderedInsert (fun a b : Variable => a.start ≤ b.start) sv vars
  refine ⟨h.sorted.orderedInsert sv vars, ?_, ?_⟩
  · intro v hv
    rcases mem_cons.mp (hPerm.mem_iff.mp hv) with rfl | hv
    · exact hSize
    · exact h.small v hv
  · rw [stateAddVar, (hPerm.map Variable.name).nodup_iff, map_cons, nodup_cons]
    exact ⟨stateFindVar_eq_none.mp hNew, h.unique⟩

theorem WellLaid.createVariables (h : WellLaid vars)
    {entries : List Entry} (hCreate : createVariables vars entries = some (.ok vars')) :
    WellLaid vars' := by
  induction entries generalizing vars with
  | nil =>
    cases hCreate
    exact h
  | cons e rest ih =>
    obtain ⟨mid, hOne, hRest⟩ := createVariables_cons hCreate
    obtain ⟨-, rfl⟩ | ⟨vtype, start, d, data, -, hNew, hData, hImport, -, rfl⟩ :=
      createVariable_cases hOne
    · exact ih h hRest
    · have hSize : data.size ≤ 4096 :=
        (importData_type_size hImport).2.le.trans (createData_ok hData).2.2
      exact ih (h.add ⟨e.name, start, data⟩ hSize hNew) hRest

theorem stateCreate_ok (h : stateCreate node = some (.ok st)) :
    createVariables [] (nodesEntries [] node.children) = some (.ok st.vars) ∧
      conflictFree st.vars = true ∧ st.node = node ∧ st.dirty = true := by
  unfold stateCreate at h
  rcases hMagic : propertyReadU32 node.properties propMagic with err | magic
  · rw [hMagic] at h
    cases h
  rw [hMagic] at h
  rcases hVars : createVariables [] (nodesEntries [] node.children) with _ | result
  · rw [hVars] at h
    cases h
  rw [hVars] at h
  rcases result with err | vars
  · cases h
  dsimp only at h
  by_cases hFree : conflictFree vars = true
  · rw [if_pos hFree] at h
    cases h
    exact ⟨rfl, hFree, rfl, rfl⟩
  · rw [if_neg hFree] at h
    cases h

theorem wellLaid_of_stateCreate (h : stateCreate node = some (.ok st)) : WellLaid st.vars :=
  WellLaid.createVariables ⟨List.Pairwise.nil, by simp, nodup_nil⟩ (stateCreate_ok h).1

end Barebox.State
