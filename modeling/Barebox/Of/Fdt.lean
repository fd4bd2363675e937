import Barebox.Of.Node

/-! `drivers/of/fdt.c`, reading: a flattened device tree becomes a tree of nodes. Every read
of the input is made through `load`, which faults behind its end. The input is aligned to four
bytes, so that a pointer into it is aligned as its offset is; its size is an `int`. -/
namespace Barebox.Of
open Bytes

/-- Why there is no result: an error code, or an access outside of a buffer. -/
inductive Failure where
  | errno (e : Errno)
  | fault
  deriving DecidableEq

variable (blob : List UInt8) (f : FdtHeader) (s : Parse)

def load (off len : Nat) : Except Failure (List UInt8) :=
  if off + len ≤ blob.length then .ok (slice off len blob) else .error .fault

def load32 (off : Nat) : Except Failure Nat := (load blob off 4).map ofBe

/-- `strnlen`, one byte after the other. -/
def strnlen (blob : List UInt8) : Nat → Nat → Except Failure Nat
  | 0, _ => .ok 0
  | maxlen + 1, off =>
    (load blob off 1).bind fun byte =>
      if byte = [0] then .ok 0 else (strnlen blob maxlen (off + 1)).map (· + 1)

def fdtMagic : Nat := 0xd00dfeed
def fdtBeginNode : Nat := 1
def fdtEndNode : Nat := 2
def fdtProp : Nat := 3
def fdtNop : Nat := 4
def fdtEnd : Nat := 9
def fdtMaxDepth : Nat := 64
def ofMaxReserveMap : Nat := 16

/-- The fields of `struct fdt_header` that `fdt_parse_header` gives out. -/
structure FdtHeader where
  totalsize : Nat
  offDtStruct : Nat
  sizeDtStruct : Nat
  offDtStrings : Nat
  sizeDtStrings : Nat
  deriving DecidableEq

/-- `__dt_ptr_ok`: aligned, and inside the total size of the header. -/
def dtPtrOk (off elemSize elemAlign : Nat) : Except Failure Bool :=
  (load32 blob 4).map fun totalsize => off % elemAlign = 0 ∧ off + elemSize ≤ totalsize

/-- `dt_struct_advance`, in 32 bits. Zero stands for an overflow. -/
def dtStructAdvance (dt size increment : Nat) : Nat :=
  if 4294967296 ≤ dt + size then 0
  else if 4294967296 ≤ dt + size + increment then 0
  else
    let dt := (dt + size + increment + 3) % 4294967296 / 4 * 4
    if (f.offDtStruct + f.sizeDtStruct) % 4294967296 < dt then 0 else dt

/-- `dt_string`: a string that does not end inside the block is none. -/
def dtString (ofs : Nat) : Except Failure (Option (List UInt8)) :=
  if f.sizeDtStrings < ofs then .ok none
  else
    (strnlen blob (f.sizeDtStrings - ofs) (f.offDtStrings + ofs)).bind fun len =>
      if len < f.sizeDtStrings - ofs then (load blob (f.offDtStrings + ofs) len).map some
      else .ok none

def isReservedName (name : List UInt8) : Bool := name.head? = some 36

def isAllowedInputName (name : List UInt8) : Bool := !isReservedName name ∧ 47 ∉ name

/-- `of_reservemap_num_entries` from an entry on, with the number of those that may still
come. -/
def reservemapNumEntries (blob : List UInt8) : Nat → Nat → Except Failure Nat
  | left, r =>
    (dtPtrOk blob r 16 1).bind fun ok =>
      match left with
      | 0 => .error (.errno .einval)
      | left + 1 =>
        if ok then
          (load blob (r + 8) 8).bind fun size =>
            if ofBe size = 0 then .ok 0 else (reservemapNumEntries blob left (r + 16)).map (· + 1)
        else .error (.errno .espipe)

def memreserveName : List UInt8 := ascii "$memreserve"
def regName : List UInt8 := ascii "reg"

/-- The node `of_unflatten_reservemap` makes. -/
def memreserveNode (reg : List UInt8) : Node := .mk memreserveName [⟨regName, reg⟩] []

/-- `of_unflatten_reservemap`: the children the root starts with. -/
def ofUnflattenReservemap : Except Failure (List Node) :=
  (load32 blob 16).bind fun off =>
    (reservemapNumEntries blob ofMaxReserveMap off).bind fun n =>
      if n = 0 then .ok [] else (load blob off (16 * n)).map fun reg => [memreserveNode reg]

def fdtParseHeader : Except Failure FdtHeader :=
  if blob.length < 40 then .error (.errno .einval)
  else
    (load32 blob 0).bind fun magic =>
      if magic ≠ fdtMagic then .error (.errno .einval)
      else
        (load32 blob 20).bind fun version =>
          if version ≠ 17 then .error (.errno .einval)
          else
            (load32 blob 4).bind fun totalsize =>
            (load32 blob 8).bind fun offDtStruct =>
            (load32 blob 36).bind fun sizeDtStruct =>
            (load32 blob 12).bind fun offDtStrings =>
            (load32 blob 32).bind fun sizeDtStrings =>
              if blob.length < totalsize then .error (.errno .einval)
              else if totalsize < offDtStruct + sizeDtStruct then .error (.errno .espipe)
              else if totalsize < offDtStrings + sizeDtStrings then .error (.errno .espipe)
              else .ok ⟨totalsize, offDtStruct, sizeDtStruct, offDtStrings, sizeDtStrings⟩

def Node.addProperty : Node → Property → Node
  | .mk name properties children, p => .mk name (properties ++ [p]) children

def Node.addChild : Node → Node → Node
  | .mk name properties children, child => .mk name properties (children ++ [child])

def Node.plug (node : Node) : List Node → Node
  | [] => node
  | parent :: parents => (parent.addChild node).plug parents

/-- The variables of `__of_unflatten_dtb`: the current node with the nodes above it. Outside of
the root node, where `node` is `NULL`, the root is kept as the current one. -/
structure Parse where
  dtStruct : Nat
  depth : Nat
  inside : Bool
  node : Node
  parents : List Node

inductive Turn where
  | next (s : Parse)
  | done (root : Node)

/-- The result of `dt_struct_advance` becomes the offset of the next turn. -/
def Parse.advance (f : FdtHeader) (size increment : Nat) : Except Failure Parse :=
  let dt := dtStructAdvance f s.dtStruct size increment
  if dt = 0 then .error (.errno .espipe) else .ok { s with dtStruct := dt }

def beginNode : Except Failure Parse :=
  if f.offDtStruct + f.sizeDtStruct ≤ s.dtStruct + 4 then .error (.errno .espipe)
  else
    let maxlen := f.offDtStruct + f.sizeDtStruct - (s.dtStruct + 4)
    (strnlen blob maxlen (s.dtStruct + 4)).bind fun len =>
      if maxlen ≤ len then .error (.errno .espipe)
      else
        (load blob (s.dtStruct + 4) len).bind fun name =>
        (s.advance f 5 len).bind fun s =>
          if fdtMaxDepth < s.depth + 1 then .error (.errno .einval)
          else if s.inside = false then
            if name ≠ [] then .error (.errno .einval)
            else .ok { s with depth := s.depth + 1, inside := true }
          else if name = [] ∨ isAllowedInputName name = false then .error (.errno .einval)
          else .ok { s with
            depth := s.depth + 1
            node := .mk name [] []
            parents := s.node :: s.parents }

/-- `node = node->parent`. -/
def Parse.leave : Parse :=
  match s.parents with
  | [] => { s with depth := s.depth - 1, inside := false }
  | parent :: parents =>
    { s with depth := s.depth - 1, node := parent.addChild s.node, parents := parents }

/-- `FDT_PROP`. -/
def addProp : Except Failure Parse :=
  (dtPtrOk blob s.dtStruct 12 4).bind fun ok =>
    if ok = false then .error (.errno .espipe)
    else
      (load32 blob (s.dtStruct + 4)).bind fun len =>
      (load32 blob (s.dtStruct + 8)).bind fun nameoff =>
      (dtString blob f nameoff).bind fun name =>
        match name with
        | none => .error (.errno .espipe)
        | some name =>
          if s.inside = false ∨ isAllowedInputName name = false then .error (.errno .espipe)
          else
            (s.advance f 12 len).bind fun s' =>
            (load blob (s.dtStruct + 12) len).map fun value =>
              { s' with node := s.node.addProperty ⟨name, value⟩ }

/-- One turn of the loop of `__of_unflatten_dtb`. -/
def unflattenTurn : Except Failure Turn :=
  (dtPtrOk blob s.dtStruct 4 4).bind fun ok =>
    if ok = false then .error (.errno .espipe)
    else
      (load32 blob s.dtStruct).bind fun tag =>
        if tag = fdtBeginNode then (beginNode blob f s).map .next
        else if tag = fdtEndNode then
          if s.inside = false then .error (.errno .einval) else (s.leave.advance f 4 0).map .next
        else if tag = fdtProp then (addProp blob f s).map .next
        else if tag = fdtNop then (s.advance f 4 0).map .next
        else if tag = fdtEnd then .ok (.done (s.node.plug s.parents))
        else .error (.errno .einval)

inductive Item where
  | beginNode (name : List UInt8)
  | prop (p : Property)
  | endNode

def Parse.feed : Item → Option Parse
  | .beginNode name =>
    if fdtMaxDepth < s.depth + 1 then none
    else if s.inside = false then
      if name ≠ [] then none else some { s with depth := s.depth + 1, inside := true }
    else if name = [] ∨ isAllowedInputName name = false then none
    else
      some { s with depth := s.depth + 1, node := .mk name [] [], parents := s.node :: s.parents }
  | .prop p =>
    if s.inside = false ∨ isAllowedInputName p.name = false then none
    else some { s with node := s.node.addProperty p }
  | .endNode => if s.inside = false then none else some s.leave

variable {size increment : Nat} {s' : Parse} {α β : Type} {x : Except Failure α}
    {f : FdtHeader} {s : Parse}
  {blob : List UInt8}

/-- An offset that is not 0 lies behind the tag and inside the structure block. -/
theorem dtStructAdvance_spec {dt : Nat} (h : dtStructAdvance f dt size increment ≠ 0) :
    dt + size + increment ≤ dtStructAdvance f dt size increment ∧
      dtStructAdvance f dt size increment ≤ (f.offDtStruct + f.sizeDtStruct) % 4294967296 := by
  unfold dtStructAdvance at h ⊢
  dsimp only at h ⊢
  split at h
  · exact absurd rfl h
  split at h
  · exact absurd rfl h
  split at h
  · exact absurd rfl h
  grind

theorem Parse.advance_spec (h : s.advance f size increment = .ok s') :
    s' = { s with dtStruct := s'.dtStruct } ∧ s.dtStruct + size + increment ≤ s'.dtStruct ∧
      s'.dtStruct ≤ (f.offDtStruct + f.sizeDtStruct) % 4294967296 := by
  unfold advance at h
  by_cases hZero : dtStructAdvance f s.dtStruct size increment = 0
  · rw [if_pos hZero] at h
    cases h
  · rw [if_neg hZero] at h
    cases h
    exact ⟨rfl, dtStructAdvance_spec hZero⟩

theorem bind_eq_ok {g : α → Except Failure β} {b : β} (h : x.bind g = .ok b) :
    ∃ a, x = .ok a ∧ g a = .ok b := by
  cases x with
  | error e => cases h
  | ok a => exact ⟨a, rfl, h⟩

theorem map_eq_ok {g : α → β} {b : β} (h : x.map g = .ok b) : ∃ a, x = .ok a ∧ g a = b := by
  cases x with
  | error e => cases h
  | ok a => exact ⟨a, rfl, Except.ok.inj h⟩

theorem beginNode_spec (h : beginNode blob f s = .ok s') :
    ∃ len name s₁ t, s.dtStruct + 4 < f.offDtStruct + f.sizeDtStruct ∧
      strnlen blob (f.offDtStruct + f.sizeDtStruct - (s.dtStruct + 4)) (s.dtStruct + 4) = .ok len ∧
      load blob (s.dtStruct + 4) len = .ok name ∧ s.advance f 5 len = .ok s₁ ∧
      s.feed (.beginNode name) = some t ∧ s' = { t with dtStruct := s₁.dtStruct } := by
  unfold beginNode at h
  by_cases hMax : f.offDtStruct + f.sizeDtStruct ≤ s.dtStruct + 4
  · rw [if_pos hMax] at h
    cases h
  rw [if_neg hMax] at h
  obtain ⟨len, hLen, h⟩ := bind_eq_ok h
  split at h
  · cases h
  obtain ⟨name, hName, h⟩ := bind_eq_ok h
  obtain ⟨s₁, hAdvance, h⟩ := bind_eq_ok h
  obtain ⟨dt, rfl⟩ : ∃ dt, s₁ = { s with dtStruct := dt } := ⟨_, (Parse.advance_spec hAdvance).1⟩
  have hFeed : ∃ t, s.feed (.beginNode name) = some t ∧ s' = { t with dtStruct := dt } := by
    dsimp only [Parse.feed]
    split at h
    · cases h
    rw [if_neg (by assumption)]
    split at h
    · rw [if_pos (by assumption)]
      split at h <;> cases h
      simp [if_neg (by assumption)]
    · rw [if_neg (by assumption)]
      split at h <;> cases h
      simp [if_neg (by assumption)]
  obtain ⟨t, hFeed, hEq⟩ := hFeed
  exact ⟨len, name, _, t, by omega, hLen, hName, hAdvance, hFeed, hEq⟩

theorem addProp_spec (h : addProp blob f s = .ok s') :
    ∃ len ofs p s₁ t, dtString blob f ofs = .ok (some p.name) ∧
      load blob (s.dtStruct + 12) len = .ok p.value ∧ s.advance f 12 len = .ok s₁ ∧
      s.feed (.prop p) = some t ∧ s' = { t with dtStruct := s₁.dtStruct } := by
  obtain ⟨ok, -, h⟩ := bind_eq_ok h
  split at h
  · cases h
  obtain ⟨len, -, h⟩ := bind_eq_ok h
  obtain ⟨ofs, -, h⟩ := bind_eq_ok h
  obtain ⟨name, hName, h⟩ := bind_eq_ok h
  rcases name with _ | name
  · cases h
  dsimp only at h
  split at h
  · cases h
  obtain ⟨s₁, hAdvance, h⟩ := bind_eq_ok h
  obtain ⟨value, hValue, rfl⟩ := map_eq_ok h
  obtain ⟨dt, rfl⟩ : ∃ dt, s₁ = { s with dtStruct := dt } := ⟨_, (Parse.advance_spec hAdvance).1⟩
  refine ⟨len, ofs, ⟨name, value⟩, _, { s with node := s.node.addProperty ⟨name, value⟩ },
    hName, hValue,
    hAdvance, ?_, rfl⟩
  simp [Parse.feed, if_neg (by assumption)]

inductive Continues (blob : List UInt8) (f : FdtHeader) (s s' : Parse) : Prop where
  | beginNode (h : beginNode blob f s = .ok s')
  | endNode (hInside : s.inside ≠ false) (h : s.leave.advance f 4 0 = .ok s')
  | prop (h : addProp blob f s = .ok s')
  | nop (h : s.advance f 4 0 = .ok s')

/-- What one turn of the loop does: it feeds a tag to the parser, or ends with the tree. -/
theorem unflattenTurn_spec {t : Turn} (h : unflattenTurn blob f s = .ok t) :
    (∃ s', t = .next s' ∧ Continues blob f s s') ∨ t = .done (s.node.plug s.parents) := by
  obtain ⟨ok, -, h⟩ := bind_eq_ok h
  split at h
  · cases h
  obtain ⟨tag, -, h⟩ := bind_eq_ok h
  split at h
  · obtain ⟨s', hStep, rfl⟩ := map_eq_ok h
    exact .inl ⟨s', rfl, .beginNode hStep⟩
  split at h
  · split at h
    · cases h
    · obtain ⟨s', hStep, rfl⟩ := map_eq_ok h
      exact .inl ⟨s', rfl, .endNode (by assumption) hStep⟩
  split at h
  · obtain ⟨s', hStep, rfl⟩ := map_eq_ok h
    exact .inl ⟨s', rfl, .prop hStep⟩
  split at h
  · obtain ⟨s', hStep, rfl⟩ := map_eq_ok h
    exact .inl ⟨s', rfl, .nop hStep⟩
  split at h <;> cases h
  exact .inr rfl

@[simp] theorem Parse.leave_dtStruct (s : Parse) : s.leave.dtStruct = s.dtStruct := by
  unfold leave
  split <;> rfl

theorem Continues.dtStruct_lt (h : Continues blob f s s') : s.dtStruct < s'.dtStruct ∧
      s'.dtStruct ≤ (f.offDtStruct + f.sizeDtStruct) % 4294967296 := by
  cases h with
  | beginNode h =>
    obtain ⟨len, name, s₁, t, -, -, -, hAdvance, -, rfl⟩ := beginNode_spec h
    obtain ⟨-, hLow, hHigh⟩ := Parse.advance_spec hAdvance
    exact ⟨by dsimp only; omega, hHigh⟩
  | endNode _ h =>
    obtain ⟨-, hLow, hHigh⟩ := Parse.advance_spec h
    grind [Parse.leave_dtStruct]
  | prop h =>
    obtain ⟨len, ofs, p, s₁, t, -, -, hAdvance, -, rfl⟩ := addProp_spec h
    obtain ⟨-, hLow, hHigh⟩ := Parse.advance_spec hAdvance
    exact ⟨by dsimp only; omega, hHigh⟩
  | nop h =>
    obtain ⟨-, hLow, hHigh⟩ := Parse.advance_spec h
    exact ⟨by omega, hHigh⟩

variable {blob : List UInt8} {f : FdtHeader} {s : Parse}
    (h : unflattenTurn blob f s = .ok (.next s'))
include h

theorem unflattenTurn_next : Continues blob f s s' := by
  rcases unflattenTurn_spec h with ⟨t, hEq, hNext⟩ | hEq
  · cases hEq
    exact hNext
  · cases hEq

theorem unflattenTurn_decreasing : 4294967296 - s'.dtStruct < 4294967296 - s.dtStruct := by
  obtain ⟨hLow, hHigh⟩ := (unflattenTurn_next h).dtStruct_lt
  omega

omit h

/-- The loop over the tags; the offset into the structure block grows in every turn. -/
def unflattenLoop (blob : List UInt8) (f : FdtHeader) (s : Parse) : Except Failure Node :=
  match _h : unflattenTurn blob f s with
  | .error e => .error e
  | .ok (.done root) => .ok root
  | .ok (.next s') => unflattenLoop blob f s'
termination_by 4294967296 - s.dtStruct
decreasing_by exact unflattenTurn_decreasing _h

/-- `__of_unflatten_dtb`: the header, the reserve map, then the loop over the tags. -/
def ofUnflattenDtb (blob : List UInt8) : Except Failure Node :=
  (fdtParseHeader blob).bind fun f =>
    (ofUnflattenReservemap blob).bind fun reserved =>
      unflattenLoop blob f ⟨f.offDtStruct, 0, false, .mk [] [] reserved, []⟩

section Loop
variable {blob : List UInt8} {f : FdtHeader} {s : Parse}

theorem unflattenLoop_error {e : Failure} (h : unflattenTurn blob f s = .error e) :
    unflattenLoop blob f s = .error e := by
  rw [unflattenLoop]
  split <;> simp_all

theorem unflattenLoop_done {root : Node} (h : unflattenTurn blob f s = .ok (.done root)) :
    unflattenLoop blob f s = .ok root := by
  rw [unflattenLoop]
  split <;> simp_all

theorem unflattenLoop_next (h : unflattenTurn blob f s = .ok (.next s')) :
    unflattenLoop blob f s = unflattenLoop blob f s' := by
  rw [unflattenLoop]
  split <;> simp_all

/-- The invariant rule of the loop. -/
theorem unflattenLoop_induction (motive : Parse → Prop) (result : Except Failure Node → Prop)
    (hNext : ∀ s s', motive s → unflattenTurn blob f s = .ok (.next s') → motive s')
    (hDone : ∀ s root, motive s → unflattenTurn blob f s = .ok (.done root) → result (.ok root))
    (hError : ∀ s e, motive s → unflattenTurn blob f s = .error e → result (.error e))
    (h : motive s) : result (unflattenLoop blob f s) := by
  induction hMeasure : 4294967296 - s.dtStruct using Nat.strong_induction_on generalizing s with
  | _ n ih =>
    rcases hTurn : unflattenTurn blob f s with e | t
    · rw [unflattenLoop_error hTurn]
      exact hError s e h hTurn
    cases t with
    | done root =>
      rw [unflattenLoop_done hTurn]
      exact hDone s root h hTurn
    | next s' =>
      rw [unflattenLoop_next hTurn]
      refine ih _ ?_ (hNext s s' h hTurn) rfl
      rw [← hMeasure]
      exact unflattenTurn_decreasing hTurn

/-- What every turn keeps holds where the tree is taken. -/
theorem unflattenLoop_ok (P : Parse → Prop) (hNext : ∀ s s', P s → Continues blob f s s' → P s')
    (h : P s)
    {tree : Node} (hLoop : unflattenLoop blob f s = .ok tree) :
    ∃ s, P s ∧ tree = s.node.plug s.parents := by
  revert hLoop
  refine unflattenLoop_induction P (fun r => r = .ok tree → ∃ s, P s ∧ tree = s.node.plug s.parents)
    (fun s s' hs hTurn => hNext s s' hs (unflattenTurn_next hTurn)) ?_ ?_ h
  · intro s root hs hTurn hEq
    cases hEq
    rcases unflattenTurn_spec hTurn with ⟨s', hNo, -⟩ | hDone
    · cases hNo
    · cases hDone
      exact ⟨s, hs, rfl⟩
  · intro s e _ _ hEq
    cases hEq

end Loop
end Barebox.Of
