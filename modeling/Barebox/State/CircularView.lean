import Barebox.State.CircularPersistence

/-! A circular bucket seen from the format. What a read hands to the format is
a function of the log and of the cached length; the log itself is the sequence
of the records of some payloads, after a power cut with a part of one more. -/
namespace Barebox.State
open Bytes Flash List Nat
variable {g : Geometry}

def logView (g : Geometry) (last : Nat) (log : List UInt8) : Option (List UInt8) :=
  if log = [] then none
  else if last = 0 then
    if g.maxSize = metaSize then none else some (log.take (g.maxSize - metaSize))
  else if log.length < last ∨ ¬g.writesize ∣ last then none
  else some ((slice (log.length - last) last log).take (last - metaSize))

theorem HoldsLog.read_view {c : BucketCircular g} {used : List UInt8} (h : HoldsLog c used) :
    match logView g c.lastWrittenLength used with
    | none => ∃ e, (bucketCircularRead c).1 = .error e
    | some content => ∃ buf, (bucketCircularRead c).1 = .ok buf content.length ∧
        buf.take content.length = content := by
  unfold logView
  split_ifs with hUsed hLast hMax hBad
  · subst hUsed
    exact ⟨_, by rw [bucketCircularRead_empty h.area]⟩
  · exact ⟨_, by rw [h.read_old_none hUsed hLast hMax]⟩
  · have hEight := g.eight_le_writesize.trans g.writesize_le_maxSize
    have hPos : 0 < min used.length (g.maxSize - metaSize) := by
      have := length_pos_iff.mpr hUsed
      grind [metaSize]
    refine ⟨used.take (min used.length (g.maxSize - metaSize)), ?_, ?_⟩
    · simp [h.read_old hLast hPos, Nat.min_comm]
    · simp [take_take]
  · exact ⟨_, by rw [h.read_invalid hUsed hLast hBad]⟩
  · push Not at hBad
    have hLen : ((slice (used.length - c.lastWrittenLength) c.lastWrittenLength used).take
        (c.lastWrittenLength - metaSize)).length = c.lastWrittenLength - metaSize := by
      simp [slice_length]
      omega
    exact ⟨_, by rw [h.read_record hLast hBad.1 hBad.2, hLen], by rw [hLen]⟩

def records (g : Geometry) (ps : List (List UInt8)) : List UInt8 := ps.flatMap (circularRecord g)

def payloadsKept (g : Geometry) (ps : List (List UInt8)) (p : List UInt8) : List (List UInt8) :=
  if g.maxSize ≤ (records g ps).length + recordLength g p.length then [] else ps

def logPayloads (g : Geometry) (history : List (List UInt8)) : List (List UInt8) :=
  history.foldl (fun ps p => payloadsKept g ps p ++ [p]) []

variable (ps : List (List UInt8)) (p : List UInt8)

theorem records_kept : records g (payloadsKept g ps p) = logKept g (records g ps) p := by
  unfold payloadsKept logKept
  split_ifs <;> rfl

theorem records_append : records g (ps ++ [p]) = records g ps ++ circularRecord g p := by
  simp [records]

theorem records_kept_append :
    records g (payloadsKept g ps p ++ [p]) = logAppend g (records g ps) p := by
  rw [records_append, records_kept, logAppend]

variable {ps : List (List UInt8)} {p q record : List UInt8} {writesize m : Nat}

theorem mem_of_mem_payloadsKept (h : q ∈ payloadsKept g ps p) : q ∈ ps := by
  unfold payloadsKept at h
  split_ifs at h
  · exact absurd h not_mem_nil
  · exact h

@[simp] theorem logPayloads_append (history : List (List UInt8)) (p : List UInt8) :
    logPayloads g (history ++ [p]) = payloadsKept g (logPayloads g history) p ++ [p] := by
  simp [logPayloads]

theorem mem_of_mem_logPayloads {history : List (List UInt8)} (h : q ∈ logPayloads g history) :
    q ∈ history := by
  induction history using reverseRecOn with
  | nil => exact h
  | append_singleton history p ih =>
    rw [logPayloads_append, mem_append] at h
    rcases h with h | h
    · exact mem_append_left _ (ih (mem_of_mem_payloadsKept h))
    · exact mem_append_right _ h

theorem records_eq_nil (hFit : ∀ p ∈ ps, Fits g p) : records g ps = [] ↔ ps = [] := by
  constructor
  · intro h
    cases ps with
    | nil => rfl
    | cons p rest =>
      have hLen := (hFit p (.head _)).record_length
      have hPos := recordLength_pos g p.length
      have hNil : circularRecord g p = [] := (append_eq_nil_iff.mp h).1
      grind
  · rintro rfl
    rfl

theorem writesize_dvd_records (hFit : ∀ p ∈ ps, Fits g p) :
    g.writesize ∣ (records g ps).length := by
  induction ps with
  | nil => exact Nat.dvd_zero _
  | cons p rest ih =>
    have hRest := ih (fun q hq => hFit q (.tail _ hq))
    rw [show records g (p :: rest) = circularRecord g p ++ records g rest from rfl,
      length_append, (hFit p (.head _)).record_length]
    exact Nat.dvd_add (writesize_dvd_recordLength g p.length) hRest

theorem prefix_circularRecord (g : Geometry) (p : List UInt8) : p <+: circularRecord g p :=
  List.prefix_append _ _

/-- A new start takes `log` for the used part of the block. -/
structure Recovers (block : Block g.maxSize) (log : List UInt8) : Prop where
  bytes : block.bytes = log ++ blanks (g.maxSize - log.length)
  length_le : log.length ≤ g.maxSize
  aligned : g.writesize ∣ g.maxSize - log.length
  lastPage : LastPage g.writesize log log.length

variable {block : Block g.maxSize}

theorem Recovers.records {ps : List (List UInt8)}
    (hPages : g.writesize ∣ g.maxSize) (hFit : ∀ p ∈ ps, Fits g p)
    (hLe : (records g ps).length ≤ g.maxSize)
    (hBytes : block.bytes = State.records g ps ++
      blanks (g.maxSize - (State.records g ps).length)) :
    Recovers block (State.records g ps) := by
  refine ⟨hBytes, hLe, Nat.dvd_sub hPages (writesize_dvd_records hFit), ?_⟩
  cases ps using reverseRecOn with
  | nil => exact .inl g.writesize_pos
  | append_singleton ps p =>
    rw [records_append]
    exact (hFit p (by simp)).lastPage _

/-- The number of pages up to the last one, among the first `m` of the record,
that is not erased: the later ones cannot be told from free pages. -/
def visiblePages (writesize : Nat) (record : List UInt8) : Nat → Nat
  | 0 => 0
  | m + 1 =>
    if blank (slice (m * writesize) writesize record) then visiblePages writesize record m
    else m + 1

theorem visiblePages_le (writesize : Nat) (record : List UInt8) (m : Nat) :
    visiblePages writesize record m ≤ m := by
  induction m with
  | zero => exact le_rfl
  | succ m ih =>
    unfold visiblePages
    split_ifs
    · exact ih.trans (le_succ _)
    · rfl

/-- What can be seen of the first `m` pages of a record. -/
def visiblePart (writesize : Nat) (record : List UInt8) (m : Nat) : List UInt8 :=
  record.take (visiblePages writesize record m * writesize)

theorem take_eq_visiblePart (hm : m * writesize ≤ record.length) :
    record.take (m * writesize) = visiblePart writesize record m ++
      blanks (m * writesize - (visiblePart writesize record m).length) := by
  induction m with
  | zero => simp [visiblePart, visiblePages, blanks]
  | succ m ih =>
    rw [succ_mul] at hm
    have ih := ih (by omega)
    have hPage : (slice (m * writesize) writesize record).length = writesize :=
      slice_length_of_le hm
    have hSplit : record.take ((m + 1) * writesize) =
        record.take (m * writesize) ++ slice (m * writesize) writesize record := by
          rw [succ_mul, take_add, slice]
    have hSeen : (visiblePart writesize record m).length ≤ m * writesize := by grind [length_take]
    by_cases hBlank : blank (slice (m * writesize) writesize record) = true
    · have hSame : visiblePart writesize record (m + 1) = visiblePart writesize record m := by
        simp [visiblePart, visiblePages, hBlank]
      rw [hSplit, ih, hSame, blank_iff.mp hBlank, hPage, append_assoc, ← blanks_add, succ_mul]
      congr 2
      omega
    · have hAll : visiblePart writesize record (m + 1) = record.take ((m + 1) * writesize) := by
        simp [visiblePart, visiblePages, hBlank]
      rw [hAll, length_take, Nat.min_eq_left (by rw [succ_mul]; exact hm), Nat.sub_self]
      simp [blanks]

/-- What can be seen is empty or ends in a page that is not erased. -/
theorem visiblePart_lastPage (hw : 0 < writesize)
    (hm : m * writesize ≤ record.length) (hSeen : visiblePart writesize record m ≠ []) :
    ∃ q, (visiblePart writesize record m).length = q * writesize + writesize ∧
      blank (slice (q * writesize) writesize (visiblePart writesize record m)) = false := by
  induction m with
  | zero => simp [visiblePart, visiblePages] at hSeen
  | succ m ih =>
    rw [succ_mul] at hm
    by_cases hBlank : blank (slice (m * writesize) writesize record) = true
    · have hSame : visiblePart writesize record (m + 1) = visiblePart writesize record m := by
        simp [visiblePart, visiblePages, hBlank]
      grind
    have hAll : visiblePart writesize record (m + 1) = record.take (m * writesize + writesize) := by
      simp [visiblePart, visiblePages, hBlank, succ_mul]
    refine ⟨m, ?_, ?_⟩
    · simp [hAll, Nat.min_eq_left hm]
    have hPage : slice (m * writesize) writesize (record.take (m * writesize + writesize)) =
        slice (m * writesize) writesize record := by simp [slice, drop_take]
    grind

theorem Recovers.torn (hPages : g.writesize ∣ g.maxSize) (hFit : ∀ q ∈ ps, Fits g q)
    (fit : Fits g p)
    (hRoom : (State.records g ps).length + recordLength g p.length ≤ g.maxSize)
    (hm : m * g.writesize ≤ recordLength g p.length)
    (hBytes : block.bytes = State.records g ps ++ ((circularRecord g p).take (m * g.writesize) ++
      blanks (g.maxSize - (State.records g ps).length - m * g.writesize))) :
    Recovers block (State.records g ps ++ visiblePart g.writesize (circularRecord g p) m) := by
  have hm' : m * g.writesize ≤ (circularRecord g p).length := by rw [fit.record_length]; exact hm
  have hSeen : (visiblePart g.writesize (circularRecord g p) m).length ≤ m * g.writesize := by
    rw [visiblePart, length_take]
    exact (Nat.min_le_left _ _).trans (Nat.mul_le_mul_right _ (visiblePages_le _ _ _))
  have hAll : block.bytes =
      (State.records g ps ++ visiblePart g.writesize (circularRecord g p) m) ++
        blanks (g.maxSize -
          (State.records g ps ++ visiblePart g.writesize (circularRecord g p) m).length) := by
    rw [hBytes, take_eq_visiblePart hm', append_assoc, append_assoc, ← blanks_add, length_append]
    congr 3
    omega
  by_cases hNone : visiblePart g.writesize (circularRecord g p) m = []
  · grind [Recovers.records]
  obtain ⟨q, hLen, hPage⟩ := visiblePart_lastPage g.writesize_pos hm' hNone
  refine ⟨hAll, by simp; omega, ?_, .inr ?_⟩
  · rw [length_append, hLen, ← Nat.sub_sub, ← succ_mul]
    exact Nat.dvd_sub (Nat.dvd_sub hPages (writesize_dvd_records hFit)) (Nat.dvd_mul_left _ _)
  · rw [length_append, hLen, ← Nat.add_assoc, Nat.add_sub_cancel, slice_append_right]
    exact hPage

theorem foundLength_append {front tail : List UInt8} (hPage : g.writesize ≤ tail.length) :
    foundLength g (front ++ tail) = foundLength g tail := by
  have hEight := g.eight_le_writesize
  have hMeta : metaAt (front ++ tail) (front ++ tail).length = metaAt tail tail.length := by
    simp only [metaAt, metaSize, length_append]
    rw [Nat.add_sub_assoc (by omega), Nat.add_sub_assoc (by omega),
      slice_append_right, slice_append_right]
  have hFront : g.writesize ≤ (front ++ tail).length := by
    simp
    omega
  simp only [foundLength, hMeta, hPage, hFront, true_and]

end Barebox.State
