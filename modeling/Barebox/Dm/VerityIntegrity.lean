import Barebox.Dm.VerityGeometry

/-! What a successful read of a verity target says about the data when the devices below it answer
as they like. Only the number of a hash block is remembered as trusted, and only the last block is
kept: the data is authentic as long as a trusted block does not change when it is read again, and a
read that fails does not change the block in the buffer. -/
namespace Barebox.Dm
open Bytes List
variable {ρ : Type}

def lastRead (h : Nat) : List HashRead → Option (List UInt8)
  | [] => none
  | r :: reads =>
    match r.reply with
    | .done bytes => if r.number = h then some bytes else lastRead h reads
    | .failed _ _ => lastRead h reads

def HashRead.bytes? (r : HashRead) : Option (List UInt8) :=
  match r.reply with
  | .done bytes => some bytes
  | .failed _ _ => none

def blocksRead (reads : List HashRead) : List (List UInt8) := reads.filterMap HashRead.bytes?

/-- A trusted block reads as before, and a failed read leaves the buffer. -/
def HashRead.Steady (r : HashRead) (earlier : List HashRead) : Prop :=
  match r.reply with
  | .done bytes => r.trusted = true → lastRead r.number earlier = some bytes
  | .failed left _ => left = r.before

inductive Steady : List HashRead → Prop
  | nil : Steady []
  | cons {r : HashRead} {reads : List HashRead} (hRead : r.Steady reads)
      (hRest : Steady reads) : Steady (r :: reads)

variable {reads reads' : List HashRead} {h : Nat} {bytes : List UInt8} {r : HashRead}

theorem steady_cons : Steady (r :: reads) ↔ r.Steady reads ∧ Steady reads :=
  ⟨fun h => by cases h with | cons hRead hRest => exact ⟨hRead, hRest⟩, fun h => .cons h.1 h.2⟩

instance HashRead.decidableSteady (earlier : List HashRead) :
    (r : HashRead) → Decidable (r.Steady earlier)
  | ⟨number, trusted, _, .done bytes⟩ =>
      inferInstanceAs (Decidable (trusted = true → lastRead number earlier = some bytes))
  | ⟨_, _, before, .failed left _⟩ => inferInstanceAs (Decidable (left = before))

instance decidableSteady : (reads : List HashRead) → Decidable (Steady reads)
  | [] => .isTrue .nil
  | _ :: reads =>
    have := decidableSteady reads
    decidable_of_iff _ steady_cons.symm

theorem Steady.suffix (h : Steady reads') (hSuffix : reads <:+ reads') : Steady reads := by
  obtain ⟨newer, rfl⟩ := hSuffix
  induction newer with
  | nil => exact h
  | cons r newer ih => exact ih (steady_cons.mp h).2

theorem lastRead_cons_of_ne (hNe : r.number ≠ h) (reads : List HashRead) :
    lastRead h (r :: reads) = lastRead h reads := by
  rw [lastRead]
  cases r.reply with
  | done bytes => exact if_neg hNe
  | failed left e => rfl

theorem lastRead_cons_failed {left : List UInt8} {e : Errno} (hReply : r.reply = .failed left e)
    (reads : List HashRead) : lastRead h (r :: reads) = lastRead h reads := by rw [lastRead, hReply]

theorem lastRead_cons_done (hReply : r.reply = .done bytes) (reads : List HashRead) :
    lastRead r.number (r :: reads) = some bytes := by simp [lastRead, hReply]

/-- A read that is steady does not change what a trusted block reads as. -/
theorem lastRead_cons_steady (hSteady : r.Steady reads)
    (hTrusted : r.number = h → r.trusted = true) :
    lastRead h (r :: reads) = lastRead h reads := by
  by_cases hEq : r.number = h
  · cases hReply : r.reply with
    | done bytes =>
      rw [HashRead.Steady, hReply] at hSteady
      grind [lastRead_cons_done]
    | failed left e => exact lastRead_cons_failed hReply reads
  · exact lastRead_cons_of_ne hEq reads

theorem lastRead_mem (hLast : lastRead h reads = some bytes) : bytes ∈ blocksRead reads := by
  induction reads with
  | nil => cases hLast
  | cons r reads ih =>
    rw [blocksRead, filterMap_cons]
    cases hReply : r.reply with
    | done read =>
      rw [lastRead, hReply] at hLast
      simp only [HashRead.bytes?, hReply]
      by_cases hEq : r.number = h
      · simp only [hEq, if_true] at hLast
        injection hLast with hLast
        simp [hLast]
      · simp only [hEq, if_false] at hLast
        exact .tail _ (ih hLast)
    | failed left e =>
      simp only [HashRead.bytes?, hReply]
      rw [lastRead_cons_failed hReply] at hLast
      exact ih hLast

theorem blocksRead_subset (h : reads <:+ reads') : blocksRead reads ⊆ blocksRead reads' :=
  (h.sublist.filterMap _).subset

namespace Verity

/-- The blocks are a path from a digest at a position of a level up to the root digest, `n` levels
higher. -/
def Chain (v : Verity) (d : List UInt8) (n q : Nat) (path : List (List UInt8)) : Prop :=
  HashPath.Leads v.digest v.expected v.rootDigest d
    (HashPath.digits (2 ^ v.hashPerBlockBits) n q) path

theorem Chain.cons {v : Verity} {d b : List UInt8} {n dblock l : Nat} {path : List (List UInt8)}
    (hSlot : v.expected (v.indexAtLevel dblock l) b = d)
    (h : v.Chain (v.digest b) n (v.positionAtLevel dblock (l + 1)) path) :
    v.Chain d (n + 1) (v.positionAtLevel dblock l) (b :: path) := by
  rw [Chain, digits_succ]
  exact ⟨hSlot, h⟩

/-- The last bytes read for the hash block of a level above a data block are authenticated by
blocks that were read. -/
def Verified (v : Verity) (reads : List HashRead) (dblock l : Nat) : Prop :=
  ∃ b path, lastRead (v.hblockAtLevel dblock l) reads = some b ∧ path ⊆ blocksRead reads ∧
    v.Chain (v.digest b) (v.levels - (l + 1)) (v.positionAtLevel dblock (l + 1)) path

theorem Verified.mono {v : Verity} {reads reads' : List HashRead}
    {dblock l : Nat} (h : v.Verified reads dblock l)
    (hSuffix : reads <:+ reads')
    (hLast : lastRead (v.hblockAtLevel dblock l) reads' =
      lastRead (v.hblockAtLevel dblock l) reads) :
    v.Verified reads' dblock l := by
  obtain ⟨b, path, hb, hPath, hChain⟩ := h
  exact ⟨b, path, hLast.trans hb, List.Subset.trans hPath (blocksRead_subset hSuffix), hChain⟩

end Verity

/-- What holds between two calls: the buffer is the last read of its block, and the trusted blocks
are authenticated. -/
structure Verify.Sound (v : Verity) (w : Verify ρ) : Prop where
  length : w.trusted.length = v.hdev.num
  buffer : w.block < v.hdev.num → lastRead w.block w.reads = some w.data
  trusted : ∀ h, w.trusted[h]? = some true →
    ∃ dblock < v.dataBlocks, ∃ l < v.levels, v.hblockAtLevel dblock l = h ∧
      v.Verified w.reads dblock l

theorem Verity.initial_sound (v : Verity) (garbage : List UInt8) (io : ρ) :
    (v.initial garbage io).Sound v := by
  refine ⟨length_replicate, fun hLt => absurd hLt (Nat.lt_irrefl _), fun h hTrusted => ?_⟩
  rw [Verity.initial] at hTrusted
  have hMem := mem_of_getElem? hTrusted
  cases (mem_replicate.mp hMem).2

variable {s : Storage ρ} {w w' : Verify ρ} {r : Except Failure Unit}
    (hSet : setHblock s w h = (r, w'))
include hSet

theorem setHblock_cases : (w.block = h ∧ r = .ok () ∧ w' = w) ∨
      ∃ io read, read.number = h ∧ read.trusted = w.trusted.getD h false ∧ read.before = w.data ∧
        ((∃ left e, read.reply = .failed left e ∧ r = .error (.errno e) ∧
            w' = { w with data := left, io := io, reads := read :: w.reads }) ∨
          ∃ bytes, read.reply = .done bytes ∧ r = .ok () ∧
            w' = { w with data := bytes, block := h, io := io, reads := read :: w.reads }) := by
  rw [setHblock] at hSet
  split at hSet
  next hEq =>
    cases hSet
    exact .inl ⟨hEq, rfl, rfl⟩
  · refine .inr ⟨(s.readHash w.io w.data h).2,
      ⟨h, w.trusted.getD h false, w.data, (s.readHash w.io w.data h).1⟩,
      rfl, rfl, rfl, ?_⟩
    generalize s.readHash w.io w.data h = answer at hSet
    obtain ⟨reply, io⟩ := answer
    cases reply with
    | failed left e =>
      cases hSet
      exact .inl ⟨left, e, rfl, rfl, rfl⟩
    | done bytes =>
      cases hSet
      exact .inr ⟨bytes, rfl, rfl, rfl⟩

theorem setHblock_reads : w.reads <:+ w'.reads := by
  obtain ⟨-, -, rfl⟩ | ⟨io, read, -, -, -, ⟨left, e, -, -, rfl⟩ | ⟨bytes, -, -, rfl⟩⟩ :=
    setHblock_cases hSet
  · exact suffix_refl _
  · exact suffix_cons _ _
  · exact suffix_cons _ _

omit hSet
variable {s : Storage ρ} {w w' : Verify ρ}

theorem setHblock_others {h' : Nat} {r : Except Failure Unit}
    (hNe : h ≠ h') (hSet : setHblock s w h = (r, w')) :
    lastRead h' w'.reads = lastRead h' w.reads := by
  obtain ⟨-, -, rfl⟩ | ⟨io, read, rfl, -, -, ⟨left, e, -, -, rfl⟩ | ⟨bytes, -, -, rfl⟩⟩ :=
    setHblock_cases hSet
  · rfl
  all_goals exact lastRead_cons_of_ne hNe _

theorem setHblock_ok (hSet : setHblock s w h = (.ok (), w')) : w'.block = h := by
  obtain ⟨hEq, -, rfl⟩ | ⟨io, read, -, -, -, ⟨left, e, -, hNo, -⟩ | ⟨bytes, -, -, rfl⟩⟩ :=
    setHblock_cases hSet
  · exact hEq
  · cases hNo
  · rfl

theorem trusted_cons {v : Verity} (hSound : w.Sound v) {r : HashRead} (hSteady : r.Steady w.reads)
    (hTrusted : r.trusted = w.trusted.getD r.number false) (h : Nat)
    (hh : w.trusted[h]? = some true) :
    ∃ dblock < v.dataBlocks, ∃ l < v.levels, v.hblockAtLevel dblock l = h ∧
    v.Verified (r :: w.reads) dblock l := by
  obtain ⟨dblock, hIn, l, hl, rfl, hVerified⟩ := hSound.trusted h hh
  refine ⟨dblock, hIn, l, hl, rfl,
    hVerified.mono (suffix_cons _ _) (lastRead_cons_steady hSteady fun hEq => ?_)⟩
  simp [hTrusted, hEq, hh]

/-- Reading a hash block keeps the buffer and the trusted blocks sound. -/
theorem setHblock_sound {v : Verity} {r : Except Failure Unit}
    (hSound : w.Sound v) (hSet : setHblock s w h = (r, w'))
    (hSteady : Steady w'.reads) : w'.Sound v := by
  obtain ⟨-, -, rfl⟩ | ⟨io, read, rfl, hTrusted, hBefore,
      ⟨left, e, hReply, -, rfl⟩ | ⟨bytes, hReply, -, rfl⟩⟩ :=
    setHblock_cases hSet
  · exact hSound
  · have hLeft : left = w.data := by
      have hRead := (steady_cons.mp hSteady).1
      grind [HashRead.Steady]
    refine ⟨hSound.length, fun hLt => ?_, trusted_cons hSound (steady_cons.mp hSteady).1 hTrusted⟩
    exact (lastRead_cons_failed hReply _).trans
      ((hSound.buffer hLt).trans (congrArg some hLeft.symm))
  · exact ⟨hSound.length, fun _ => lastRead_cons_done hReply _,
      trusted_cons hSound (steady_cons.mp hSteady).1 hTrusted⟩

section Ascending
variable {v : Verity} {s : Storage ρ} {dblock : Nat}

/-- The rule for the walk up the tree: what each read of a hash block keeps, the walk keeps. -/
theorem ascend_keeps {P : Verify ρ → Prop} {left level : Nat}
    {d : List UInt8} {w w' : Verify ρ} {r : Except Failure Nat}
    (hStep : ∀ k w r w', level ≤ k → k < level + left →
      setHblock s w (v.hblockAtLevel dblock k) = (r, w') → P w → P w')
    (hw : P w) (h : ascend v s dblock left level d w = (r, w')) : P w' := by
  induction left generalizing level d w with
  | zero =>
    cases h
    exact hw
  | succ left ih =>
    rw [ascend] at h
    cases hSet : setHblock s w (v.hblockAtLevel dblock level) with
    | mk r1 w1 =>
      have hFirst : P w1 := hStep level w r1 w1 (le_refl _) (by omega) hSet hw
      rw [hSet] at h
      rcases r1 with e | _
      · cases h
        exact hFirst
      dsimp only at h
      split at h
      · cases h
        exact hFirst
      split at h
      · cases h
        exact hFirst
      · cases h
        exact hFirst
      · exact ih (fun k w r w' hk hk' => hStep k w r w' (by omega) (by omega)) hFirst h

variable {left level : Nat} {d : List UInt8} {w w' : Verify ρ} {r : Except Failure Nat}

theorem ascend_reads (h : ascend v s dblock left level d w = (r, w')) : w.reads <:+ w'.reads :=
  @ascend_keeps ρ v s dblock (fun x => w.reads <:+ x.reads) left level d w w' r
    (fun _ _ _ _ _ _ hSet hx => hx.trans (setHblock_reads hSet)) (suffix_refl _) h

variable (hv : v.Laid) (hIn : dblock < v.dataBlocks) (hLeft : level + left = v.levels)
include hv hIn hLeft

theorem ascend_below {l : Nat} (hl : l < level) (h : ascend v s dblock left level d w = (r, w')) :
    lastRead (v.hblockAtLevel dblock l) w'.reads = lastRead (v.hblockAtLevel dblock l) w.reads := by
  refine @ascend_keeps ρ v s dblock
    (fun x => lastRead (v.hblockAtLevel dblock l) x.reads =
      lastRead (v.hblockAtLevel dblock l) w.reads) left level d w w' r
    (fun k x r x' hk hk' hSet hx => (setHblock_others (fun hEq => ?_) hSet).trans hx) rfl h
  have hSame := (hv.hblockAtLevel_inj hIn hIn (by omega) (by omega) hEq).1
  omega

/-- A loop that ends well has found a path from the digest, and all blocks below the level at which
it ended are authenticated. -/
theorem ascend_sound (hSound : w.Sound v) (h : ascend v s dblock left level d w = (r, w'))
    (hSteady : Steady w'.reads) :
    w'.Sound v ∧ ∀ stop, r = .ok stop → stop ≤ v.levels ∧
      (∃ path, path ⊆ blocksRead w'.reads ∧ v.Chain d left (v.positionAtLevel dblock level) path) ∧
      ∀ l, level ≤ l → l < stop → v.Verified w'.reads dblock l := by
  induction left generalizing level d w with
  | zero =>
    rw [ascend] at h
    cases h
    refine ⟨hSound, fun stop hOk => ?_⟩
    split at hOk
    next hRoot =>
      cases hOk
      exact ⟨by omega, ⟨[], nil_subset _, hRoot⟩, fun l hl hl' => by omega⟩
    · cases hOk
  | succ left ih =>
    rw [ascend] at h
    cases hSet : setHblock s w (v.hblockAtLevel dblock level) with
    | mk r1 w1 =>
      rw [hSet] at h
      have hLt : v.hblockAtLevel dblock level < v.hdev.num := hv.hblockAtLevel_lt hIn (by omega)
      rcases r1 with e | _
      · cases h
        exact ⟨setHblock_sound hSound hSet hSteady, fun stop hOk => by cases hOk⟩
      dsimp only at h
      have hBlock := setHblock_ok hSet
      split at h
      · cases h
        exact ⟨setHblock_sound hSound hSet hSteady, fun stop hOk => by cases hOk⟩
      next hSlot =>
        have hSlot := not_not.mp hSlot
        split at h
        · cases h
          exact ⟨setHblock_sound hSound hSet hSteady, fun stop hOk => by cases hOk⟩
        next hTrusted =>
          cases h
          have hSound1 := setHblock_sound hSound hSet hSteady
          refine ⟨hSound1, fun stop hOk => ?_⟩
          cases hOk
          refine ⟨by omega, ?_, fun l hl hl' => by omega⟩
          -- the trusted block is the one of this level, and its last read is in the buffer
          obtain ⟨dblock', hIn', l, hl, hEq, b, path, hLast, hPath, hChain⟩ :=
            hSound1.trusted _ hTrusted
          obtain ⟨rfl, hPos⟩ := hv.hblockAtLevel_inj hIn' hIn hl (by omega) hEq
          rw [hEq, ← hBlock, hSound1.buffer (by rw [hBlock]; exact hLt)] at hLast
          injection hLast with hLast
          rw [hPos, ← hLast, show v.levels - (l + 1) = left by omega] at hChain
          refine ⟨w'.data :: path, ?_, hChain.cons hSlot⟩
          refine cons_subset.mpr ⟨lastRead_mem (hSound1.buffer ?_), hPath⟩
          omega
        · have hSound1 := setHblock_sound hSound hSet (hSteady.suffix (ascend_reads h))
          obtain ⟨hSound', hStop⟩ := ih (by omega) hSound1 h
          refine ⟨hSound', fun stop hOk => ?_⟩
          obtain ⟨hLe, ⟨path, hPath, hChain⟩, hVerified⟩ := hStop stop hOk
          have hBuffer : lastRead (v.hblockAtLevel dblock level) w'.reads = some w1.data := by
            rw [ascend_below hv hIn (by omega) (Nat.lt_succ_self level) h, ← hBlock]
            exact hSound1.buffer (by rw [hBlock]; exact hLt)
          refine ⟨hLe, ⟨w1.data :: path, cons_subset.mpr ⟨lastRead_mem hBuffer, hPath⟩,
            hChain.cons hSlot⟩,
            fun l hl hl' => ?_⟩
          rcases Nat.eq_or_lt_of_le hl with rfl | hl
          · refine ⟨w1.data, path, hBuffer, hPath, ?_⟩
            rw [show v.levels - (level + 1) = left by omega]
            exact hChain
          · exact hVerified l hl hl'

end Ascending

section Verifying
variable {v : Verity} {s : Storage ρ} {w w' : Verify ρ} {buf : List UInt8} {dblock bs n block : Nat}
  {r : Except Failure Unit}

theorem verityVerify_reads (h : verityVerify v s w buf dblock = (r, w')) :
    w.reads <:+ w'.reads := by
  rw [verityVerify] at h
  cases hAscend : ascend v s dblock v.levels 0 (v.digest buf) w with
  | mk r1 w1 =>
    have hReads := ascend_reads hAscend
    rw [hAscend] at h
    cases r1 with
    | error e | ok stop =>
      cases h
      exact hReads

/-- After a verified block the trusted set is sound, and a chain of digests leads to the root. -/
theorem verityVerify_sound (hv : v.Laid) (hIn : dblock < v.dataBlocks) (hSound : w.Sound v)
    (h : verityVerify v s w buf dblock = (r, w')) (hSteady : Steady w'.reads) :
    w'.Sound v ∧ (r = .ok () → ∃ path, path ⊆ blocksRead w'.reads ∧
      v.Chain (v.digest buf) v.levels dblock path) := by
  rw [verityVerify] at h
  cases hAscend : ascend v s dblock v.levels 0 (v.digest buf) w with
  | mk r1 w1 =>
    rw [hAscend] at h
    rcases r1 with e | stop
    · cases h
      exact ⟨(ascend_sound hv hIn (Nat.zero_add _) hSound hAscend hSteady).1,
        fun hOk => by cases hOk⟩
    cases h
    obtain ⟨hSound1, hStop⟩ := ascend_sound hv hIn (Nat.zero_add _) hSound hAscend hSteady
    obtain ⟨hLe, hPath, hVerified⟩ := hStop stop rfl
    rw [Verity.positionAtLevel_zero] at hPath
    refine ⟨⟨(markAsTrusted_length _ _ _ _).trans hSound1.length,
      hSound1.buffer, fun h hMarked => ?_⟩, fun _ => hPath⟩
    rcases markAsTrusted_get hMarked with hOld | ⟨l, hl, rfl⟩
    · exact hSound1.trusted h hOld
    · exact ⟨dblock, hIn, l, by omega, rfl, hVerified l (Nat.zero_le l) hl⟩

theorem verityVerifyRange_reads (h : verityVerifyRange v s bs n w buf block = (r, w')) :
    w.reads <:+ w'.reads := by
  induction n generalizing w buf block with
  | zero =>
    cases h
    exact suffix_refl _
  | succ n ih =>
    rw [verityVerifyRange] at h
    cases hOne : verityVerify v s w (buf.take bs) block with
    | mk r1 w1 =>
      have hReads := verityVerify_reads hOne
      rw [hOne] at h
      cases r1 with
      | error e =>
        cases h
        exact hReads
      | ok _ => exact hReads.trans (ih h)

/-- The loop over the blocks of a request. -/
theorem verityVerifyRange_sound (hv : v.Laid) (hIn : block + n ≤ v.dataBlocks) (hSound : w.Sound v)
    (h : verityVerifyRange v s bs n w buf block = (r, w')) (hSteady : Steady w'.reads) :
    w'.Sound v ∧ (r = .ok () → ∀ i < n, ∃ path, path ⊆ blocksRead w'.reads ∧
      v.Chain (v.digest (slice (i * bs) bs buf)) v.levels (block + i) path) := by
  induction n generalizing w buf block with
  | zero =>
    cases h
    exact ⟨hSound, fun _ i hi => absurd hi (Nat.not_lt_zero i)⟩
  | succ n ih =>
    rw [verityVerifyRange] at h
    cases hOne : verityVerify v s w (buf.take bs) block with
    | mk r1 w1 =>
      rw [hOne] at h
      rcases r1 with e | _
      · cases h
        exact ⟨(verityVerify_sound hv (by omega) hSound hOne hSteady).1, fun hOk => by cases hOk⟩
      have hSuffix := verityVerifyRange_reads h
      obtain ⟨hSound1, hFirst⟩ :=
        verityVerify_sound hv (by omega) hSound hOne (hSteady.suffix hSuffix)
      obtain ⟨hSound', hRest⟩ := ih (by omega) hSound1 h
      refine ⟨hSound', fun hOk i hi => ?_⟩
      cases i with
      | zero =>
        obtain ⟨path, hPath, hChain⟩ := hFirst rfl
        refine ⟨path, List.Subset.trans hPath (blocksRead_subset hSuffix), ?_⟩
        rwa [Nat.zero_mul]
      | succ i =>
        obtain ⟨path, hPath, hChain⟩ := hRest hOk i (by omega)
        refine ⟨path, hPath, ?_⟩
        grind [slice, drop_drop]

end Verifying

/-- A data block is authenticated: blocks of the set lead from its digest to the root digest, and
no other blocks of the set lead there from its place. -/
def Verity.Authenticated (v : Verity) (S : Set (List UInt8))
    (dblock : Nat) (bytes : List UInt8) : Prop :=
  ∃ path, (∀ b ∈ path, b ∈ S) ∧ v.Chain (v.digest bytes) v.levels dblock path ∧
    ∀ bytes' path', (∀ b ∈ path', b ∈ S) → v.Chain (v.digest bytes') v.levels dblock path' →
      path' = path ∧ v.digest bytes' = v.digest bytes

def Verity.Delivers (v : Verity) (S : Set (List UInt8)) (block num : Nat)
    (out : List UInt8) : Prop :=
  ∃ c ∈ v.ddev, ∃ buf, out = slice (preBlocks c block * 512) (num * 512) buf ∧
    ∀ i < blockCount c block num,
      v.Authenticated S (firstBlock c block + i) (slice (i * 2 ^ c.bits) (2 ^ c.bits) buf)

section Reading
variable {v : Verity} {s : Storage ρ} {w w' : Verify ρ} {block num : Nat}
    {r : Except Failure (List UInt8)}

/-- A read fails, with or without having looked at hash blocks, or delivers blocks that were
accepted. -/
theorem verityRead_cases (h : verityRead v s w block num = (r, w')) :
    (∃ io e, r = .error e ∧ w' = { w with io := io }) ∨
      ∃ c ∈ v.ddev, ∃ io buf r', verityVerifyRange v s (2 ^ c.bits)
      (blockCount c block num) { w with io := io } buf
          (firstBlock c block) = (r', w') ∧
        r = r'.map fun _ => slice (preBlocks c block * 512) (num * 512) buf := by
  rw [verityRead] at h
  rcases hDev : v.ddev with _ | c
  · rw [hDev] at h
    cases h
    exact .inl ⟨w.io, _, rfl, rfl⟩
  rw [hDev] at h
  dsimp only at h
  cases hData : s.readData w.io (firstBlock c block) (blockCount c block num) with
  | mk answer io =>
    rw [hData] at h
    rcases answer with e | buf
    · cases h
      exact .inl ⟨io, _, rfl, rfl⟩
    dsimp only at h
    cases hRange : verityVerifyRange v s (2 ^ c.bits)
      (blockCount c block num) { w with io := io } buf
        (firstBlock c block) with
    | mk r' w1 =>
      rw [hRange] at h
      refine .inr ⟨c, rfl, io, buf, r', ?_⟩
      cases r' with
      | error e | ok _ =>
        cases h
        exact ⟨hRange, rfl⟩

theorem verityRead_reads (h : verityRead v s w block num = (r, w')) : w.reads <:+ w'.reads := by
  obtain ⟨io, e, -, rfl⟩ | ⟨c, -, io, buf, r', hRange, -⟩ := verityRead_cases h
  · exact suffix_refl _
  · have hReads := verityVerifyRange_reads hRange
    exact hReads

theorem verityRead_sound (hv : v.Laid)
    (hIn : v.InRange block num) (hSound : w.Sound v) (h : verityRead v s w block num = (r, w'))
    (hSteady : Steady w'.reads) :
    w'.Sound v ∧ ∀ out, r = .ok out → ∀ S :
    Set (List UInt8), Set.InjOn v.digest S → (∀ b ∈ blocksRead w'.reads, b ∈ S) →
      v.Delivers S block num out := by
  obtain ⟨io, e, rfl, rfl⟩ | ⟨c, hDev, io, buf, r', hRange, rfl⟩ := verityRead_cases h
  · exact ⟨{ hSound with }, fun out hOk => by cases hOk⟩
  have hBuffer : ({ w with io := io } : Verify ρ).Sound v := { hSound with }
  obtain ⟨hSound', hBlocks⟩ :=
    verityVerifyRange_sound hv (blocks_in_range hDev hIn) hBuffer hRange hSteady
  refine ⟨hSound', fun out hOk S hInj hRead => ?_⟩
  rcases r' with e | _
  · cases hOk
  injection hOk with hOk
  refine ⟨c, hDev, buf, hOk.symm, fun i hi => ?_⟩
  obtain ⟨path, hPath, hChain⟩ := hBlocks rfl i hi
  have hIn : ∀ b ∈ path, b ∈ S := fun b hb => hRead b (hPath hb)
  exact ⟨path, hIn, hChain, fun bytes' path' hIn' hChain' => hChain'.unique hInj hChain hIn' hIn⟩

end Reading

section Runs
variable {v : Verity} {s : Storage ρ}

theorem verityRun_reads (calls : List (Nat × Nat)) (w : Verify ρ) :
    w.reads <:+ (verityRun v s calls w).2.reads := by
  induction calls generalizing w with
  | nil => exact suffix_refl _
  | cons call calls ih => exact (verityRead_reads (Prod.mk.eta).symm).trans (ih _)

/-- Over a run of requests each one delivers authenticated data. -/
theorem verityRun_sound (hv : v.Laid) (calls : List (Nat × Nat)) {w : Verify ρ} (hSound : w.Sound v)
    (hIn : ∀ call ∈ calls, v.InRange call.1 call.2)
    (hSteady : Steady (verityRun v s calls w).2.reads) (S : Set (List UInt8))
    (hInj : Set.InjOn v.digest S)
    (hRead : ∀ b ∈ blocksRead (verityRun v s calls w).2.reads, b ∈ S) :
    ∀ pair ∈ calls.zip (verityRun v s calls w).1, ∀ out, pair.2 = .ok out →
    v.Delivers S pair.1.1 pair.1.2 out := by
  induction calls generalizing w with
  | nil => exact fun pair hPair => by cases hPair
  | cons call calls ih =>
    have hFirst : verityRead v s w call.1 call.2 = _ := (Prod.mk.eta).symm
    have hSuffix := verityRun_reads (v := v) (s := s) calls (verityRead v s w call.1 call.2).2
    obtain ⟨hSound1, hOne⟩ :=
      verityRead_sound hv (hIn call (.head _)) hSound hFirst (hSteady.suffix hSuffix)
    exact forall_mem_cons.mpr ⟨fun out hOk => hOne out hOk S hInj fun b hb =>
      hRead b (blocksRead_subset hSuffix hb),
      ih hSound1 (fun c hc => hIn c (.tail _ hc)) hSteady hRead⟩

end Runs

theorem sumDigest_length (bytes : List UInt8) : [bytes.foldl (· + ·) 0].length = 1 := rfl

def sumDigest : Digest :=
  { length := 1, sum := fun bytes => [bytes.foldl (· + ·) 0], length_pos := Nat.one_pos,
    sum_length := sumDigest_length }

def sector (a b : UInt8) : List UInt8 := a :: b :: replicate 510 0

def twoLevelArgs : VerityArgs :=
  { dataSize := 262656, hashSize := 2048, dataBlockSize := 512, hashBlockSize := 512,
    numBlocks := 513, hashStart := 1,
    digestAlgo := sumDigest, rootDigest := [16], salt := [] }

def twoLevels : Verity :=
  { ddev := some { size := 262656, start := 0, num := 513, bits := 9 },
    hdev := { size := 2048, start := 1, num := 3, bits := 9 },
    digestAlgo := sumDigest, rootDigest := [16], salt := [],
    hashPerBlockBits := 9, hashLevelBlock := [1, 0] }

theorem twoLevels_created : verityCreate twoLevelArgs = .ok twoLevels := rfl

def scripted (data : Nat → List UInt8) : Storage (List Reply) :=
  { readHash := fun io buf _ =>
      match io with
      | [] => (.failed buf .eio, [])
      | reply :: rest => (reply, rest)
    readData := fun io first n => (.ok ((range n).flatMap fun i => data (first + i)), io) }

def twoCalls : List (Nat × Nat) := [(0, 1), (512, 1)]

def honestData : Storage (List Reply) := scripted fun i => if i = 0 then sector 0 0 else sector 0 4

def honestReplies : List Reply :=
  [.done (sector 0 7), .done (sector 7 9), .done (sector 4 5), .done (sector 7 9)]

def honestRun : List (Except Failure (List UInt8)) × Verify (List Reply) :=
  verityRun twoLevels honestData twoCalls (twoLevels.initial [] honestReplies)

def treeBlocks : List (List UInt8) := [sector 0 7, sector 7 9, sector 4 5]

theorem treeBlocks_injOn : Set.InjOn twoLevels.digest {b | b ∈ treeBlocks} := by
  have hApart : ∀ a ∈ treeBlocks, ∀ b ∈ treeBlocks, twoLevels.digest a = twoLevels.digest b →
      a = b := by decide +kernel
  exact fun a ha b hb => hApart a ha b hb

theorem twoCalls_in_range : ∀ call ∈ twoCalls, twoLevels.InRange call.1 call.2 := by
  intro call hCall c hc
  cases hc
  revert call
  decide

/-- The last data block is forged, with the hash block above it; the block above that is trusted
since the first read, and is forged when it is read again. -/
def forgedRun : List (Except Failure (List UInt8)) × Verify (List Reply) :=
  verityRun twoLevels (scripted fun i => if i = 0 then sector 0 0 else sector 1 0) twoCalls
    (twoLevels.initial [] [.done (sector 0 7), .done (sector 7 9),
      .done (sector 1 2), .done (sector 5 3)])

end Barebox.Dm
