import Barebox.Mtd.Info

/-! Erasing: `mtd_op_erase` of `drivers/mtd/core.c` and `nand_bb_erase` of
`drivers/mtd/nand/nand-bb.c`. The result is the list of ranges given to the driver, each with
its address and its length. The device is one that can be written to and erased, and no
operation of the driver fails. -/
namespace Barebox.Mtd
open Rounding MtdInfo List Nat
variable (mtd : MtdInfo) (count offset : Nat) (x esize : Nat)

/-- `mtd_find_erase_region`: the end of a region counts as inside. -/
def mtdFindEraseRegion (offset : Nat) : Option EraseRegion :=
  mtd.eraseregions.find? fun e => ¬offset > e.offset + e.erasesize * e.numblocks

def mtdEraseRound (up : Bool) : Nat :=
  if x % esize = 0 then x else (if up then x + esize else x) - x % esize

def mtdEraseRoundUp : Nat := mtdEraseRound x esize true

def mtdEraseRoundDown : Nat := mtdEraseRound x esize false

/-- `mtd_erase_align`: the start is rounded in its region, the length in that of the end. -/
def mtdEraseAlign : Except Errno (Nat × Nat) :=
  if mtd.eraseregions = [] then
    let ofs := mtdEraseRoundDown offset mtd.erasesize
    .ok (mtdEraseRoundUp (count + (offset - ofs)) mtd.erasesize, ofs)
  else
    match mtdFindEraseRegion mtd offset with
    | none => .error .einval
    | some e =>
      let ofs := mtdEraseRoundDown offset e.erasesize
      let count := count + (offset - ofs)
      match mtdFindEraseRegion mtd (offset + count) with
      | none => .error .einval
      | some e => .ok (mtdEraseRoundUp count e.erasesize, ofs)

/-- `mtd_erase`: the calls that reach the driver. -/
def mtdErase (addr len : Nat) : Except Errno (List (Nat × Nat)) :=
  if mtd.size ≤ addr ∨ mtd.size - addr < len then .error .einval
  else if len = 0 then .ok []
  else .ok [(addr, len)]

/-- The loop of `mtd_op_erase` on a device with bad blocks. -/
def eraseBlocks (mtd : MtdInfo) (count addr : Nat) : Except Errno (List (Nat × Nat)) :=
  if count = 0 then .ok []
  else
    let rest := eraseBlocks mtd (count - min count mtd.erasesize) (addr + mtd.erasesize)
    if mtd.allowErasebad = false ∧ mtdBlockIsbad mtd addr then rest
    else (mtdErase mtd addr mtd.erasesize).bind fun done => rest.map fun more => done ++ more
termination_by count
decreasing_by
  have := mtd.erasesize_pos
  omega

/-- `mtd_op_erase`: bad blocks are skipped one by one where the device can have some. -/
def mtdOpErase : Except Errno (List (Nat × Nat)) :=
  (mtdEraseAlign mtd count offset).bind fun (count, offset) =>
    match mtd.blockIsbad with
    | none => mtdErase mtd offset count
    | some _ => eraseBlocks mtd count offset

/-- The loop of `nand_bb_erase`. The count is a signed number. -/
def bbEraseLoop (mtd : MtdInfo) (count : Int) (offset : Nat) : Except Errno (List (Nat × Nat)) :=
  if count = 0 then .ok []
  else if mtd.size < offset + mtd.erasesize then .ok []
  else if mtdBlockIsbad mtd offset then bbEraseLoop mtd count (offset + mtd.erasesize)
  else
    (mtdErase mtd offset mtd.erasesize).bind fun done =>
      (bbEraseLoop mtd (count - mtd.erasesize) (offset + mtd.erasesize)).map fun more =>
        done ++ more
termination_by mtd.size - offset
decreasing_by
  all_goals
    have hPos := mtd.erasesize_pos
    omega

/-- `nand_bb_erase`: only from the start of the device. -/
def nandBbErase (count : Int) (offset : Nat) : Except Errno (List (Nat × Nat)) :=
  if offset ≠ 0 then .error .einval else bbEraseLoop mtd count offset

def Erased (calls : List (Nat × Nat)) (a : Nat) : Prop :=
  ∃ call ∈ calls, call.1 ≤ a ∧ a < call.1 + call.2

/-- The blocks that the range touches are erased, and no others. -/
def ErasesExactly : Prop :=
  ∃ calls, mtdOpErase mtd count offset = .ok calls ∧ ∀ a, Erased calls a ↔
    mtd.Covered count offset a

def UniformFits : Prop :=
  (count = 0 → mtd.erasesize ∣ offset ∨
    (mtd.allowErasebad = false ∧ mtdBlockIsbad mtd (mtd.blockStart offset) = true)) ∧
  (mtd.allowErasebad = true → ∀ x, offset ≤ x → x < offset + count →
    mtdBlockIsbad mtd (mtd.blockStart x) = false)

/-- When it does so on one with regions: the sizes it rounds with are those of the regions that
the code finds. -/
def RegionsFit : Prop :=
  ∃ e e', mtdFindEraseRegion mtd offset = some e ∧
    mtdFindEraseRegion mtd (offset + (count + offset % e.erasesize)) = some e' ∧
    (count = 0 → e.erasesize ∣ offset) ∧
    (0 < count → offset % e.erasesize = offset - mtd.blockStart offset ∧
      e'.erasesize ∣ mtd.blockEnd (offset + count - 1) - mtd.blockStart offset ∧
      mtd.blockEnd (offset + count - 1) < offset + count + e'.erasesize)

theorem mtdEraseRoundDown_eq : mtdEraseRoundDown x esize = roundDown x esize := by
  unfold mtdEraseRoundDown mtdEraseRound roundDown
  split
  · omega
  · rfl

theorem mtdEraseRoundUp_eq : mtdEraseRoundUp x esize = roundUp x esize := rfl

theorem erased_nil (a : Nat) : ¬Erased [] a := by
  rintro ⟨call, hNo, -⟩
  cases hNo

theorem erased_singleton (addr len a : Nat) :
    Erased [(addr, len)] a ↔ addr ≤ a ∧ a < addr + len := by
  constructor
  · rintro ⟨call, hCall, hIn⟩
    grind
  · exact fun hIn => ⟨_, mem_singleton_self _, hIn⟩

theorem erased_append (calls more : List (Nat × Nat)) (a : Nat) :
    Erased (calls ++ more) a ↔ Erased calls a ∨ Erased more a := by
  simp only [Erased, mem_append, or_and_right, exists_or]

theorem mtdErase_ok {mtd : MtdInfo} {addr len : Nat} (hAddr : addr < mtd.size)
    (hLen : addr + len ≤ mtd.size) :
    ∃ calls, mtdErase mtd addr len = .ok calls ∧ ∀ a, Erased calls a ↔
    addr ≤ a ∧ a < addr + len := by
  rw [mtdErase, if_neg (by omega)]
  split
  · rename_i hZero
    exact ⟨[], rfl, fun a => iff_of_false (erased_nil a) (by omega)⟩
  · exact ⟨[(addr, len)], rfl, erased_singleton addr len⟩

theorem mtdOpErase_aligned {mtd : MtdInfo} {count offset count' offset' : Nat}
    (h : mtdEraseAlign mtd count offset = .ok (count', offset')) : mtdOpErase mtd count offset =
      if mtd.blockIsbad.isNone then mtdErase mtd offset' count'
      else eraseBlocks mtd count' offset' := by
  rw [mtdOpErase, h]
  cases hBad : mtd.blockIsbad with
  | none => rfl
  | some isbad => rfl

def Skipped (addr : Nat) : Prop := mtd.allowErasebad = false ∧ mtdBlockIsbad mtd addr = true

section Uniform
variable {mtd : MtdInfo}

/-- Block by block: all but the bad ones that may not be erased. -/
theorem eraseBlocks_spec {addr n : Nat} (hAddr : mtd.erasesize ∣ addr)
    (hIn : addr + mtd.erasesize * n ≤ mtd.size) :
    ∃ calls, eraseBlocks mtd (mtd.erasesize * n) addr = .ok calls ∧
      ∀ a, Erased calls a ↔ addr ≤ a ∧ a < addr + mtd.erasesize * n ∧
      ¬Skipped mtd (roundDown a mtd.erasesize) := by
  have hPos := mtd.erasesize_pos
  induction n generalizing addr with
  | zero =>
    rw [eraseBlocks, Nat.mul_zero, if_pos rfl]
    exact ⟨[], rfl, fun a => iff_of_false (erased_nil a) (by omega)⟩
  | succ n ih =>
    rw [mul_succ] at hIn
    have hNext : mtd.erasesize * (n + 1) - min (mtd.erasesize * (n + 1)) mtd.erasesize =
        mtd.erasesize * n := by
      simp [mul_succ]
    obtain ⟨more, hMore, hMoreIff⟩ := ih (Nat.dvd_add hAddr (dvd_refl _)) (by omega)
    have hFirst (a : Nat) : addr ≤ a ∧ a < addr + mtd.erasesize ↔
        roundDown a mtd.erasesize = addr := by
      rw [roundDown_eq_iff hPos]
      exact ⟨fun h => ⟨hAddr, h⟩, fun h => h.2⟩
    rw [eraseBlocks, if_neg (by rw [mul_succ]; omega)]
    dsimp only
    rw [hNext, hMore, mul_succ]
    split
    · rename_i hSkip
      refine ⟨more, rfl, fun a => (hMoreIff a).trans ?_⟩
      constructor
      · rintro ⟨hLow, hHigh, hNot⟩
        exact ⟨by omega, by omega, hNot⟩
      rintro ⟨hLow, hHigh, hNot⟩
      refine ⟨?_, by omega, hNot⟩
      by_contra hBefore
      rw [(hFirst a).mp ⟨hLow, by omega⟩] at hNot
      exact hNot hSkip
    · rename_i hSkip
      obtain ⟨done, hDone, hDoneIff⟩ := @mtdErase_ok mtd addr mtd.erasesize (by omega) (by omega)
      rw [hDone]
      refine ⟨done ++ more, rfl, fun a => ?_⟩
      rw [erased_append, hDoneIff, hMoreIff]
      constructor
      · rintro (hIn' | ⟨hLow, hHigh, hNot⟩)
        · rw [(hFirst a).mp hIn']
          exact ⟨hIn'.1, by omega, hSkip⟩
        · exact ⟨by omega, by omega, hNot⟩
      rintro ⟨hLow, hHigh, hNot⟩
      rcases Nat.lt_or_ge a (addr + mtd.erasesize) with hBefore | hFrom
      · exact .inl ⟨hLow, hBefore⟩
      · exact .inr ⟨hFrom, by omega, hNot⟩

variable {count offset : Nat} (hUniform : mtd.eraseregions = [])
include hUniform

/-- What the operation erases: the blocks from the one the range starts in to the one it ends
in, without those it passes over. -/
theorem mtdOpErase_uniform (hIn : offset + count ≤ mtd.size) (hOffset : offset < mtd.size) :
    ∃ calls, mtdOpErase mtd count offset = .ok calls ∧ ∀ a, Erased calls a ↔
    roundDown offset mtd.erasesize ≤ a ∧
      a < roundUp (offset + count) mtd.erasesize ∧ ¬Skipped mtd (roundDown a mtd.erasesize) := by
  have hPos := mtd.erasesize_pos
  obtain ⟨k, hk⟩ := dvd_roundDown offset mtd.erasesize
  have hDown := roundDown_le offset mtd.erasesize
  obtain ⟨⟨j, hj⟩, hUp, hNear⟩ := (roundUp_eq_iff (n := offset + count) hPos).mp rfl
  obtain ⟨n, hn⟩ := mtd.uniform hUniform
  -- the rounded end is the end of a block of the device
  have hEnd : roundUp (offset + count) mtd.erasesize ≤ mtd.size := by
    rw [hj, hn]
    refine Nat.mul_le_mul_left _ ?_
    have hLt : j < n + 1 := Nat.lt_of_mul_lt_mul_left (a := mtd.erasesize) (by rw [mul_succ]; omega)
    omega
  have hkj : k ≤ j :=
    Nat.le_of_mul_le_mul_left (by omega : mtd.erasesize * k ≤ mtd.erasesize * j) hPos
  have hCount : mtdEraseRoundUp
      (count + (offset - mtdEraseRoundDown offset mtd.erasesize)) mtd.erasesize =
      mtd.erasesize * (j - k) := by
    rw [mtdEraseRoundDown_eq, mtdEraseRoundUp_eq, roundUp_eq_iff hPos, Nat.mul_sub]
    exact ⟨Nat.dvd_sub (Nat.dvd_mul_right _ _) (Nat.dvd_mul_right _ _), by omega, by omega⟩
  have hSpan : roundDown offset mtd.erasesize + mtd.erasesize * (j - k) =
      roundUp (offset + count) mtd.erasesize := by
    rw [hk, hj, Nat.mul_sub]
    have hMul := Nat.mul_le_mul_left mtd.erasesize hkj
    omega
  have hAlign : mtdEraseAlign mtd count offset =
      .ok (mtd.erasesize * (j - k), roundDown offset mtd.erasesize) := by
    grind [mtdEraseAlign, mtdEraseRoundDown_eq]
  rw [mtdOpErase_aligned hAlign, ← hSpan]
  cases hBad : mtd.blockIsbad with
  | none =>
    obtain ⟨calls, hCalls, hIff⟩ := @mtdErase_ok mtd (roundDown offset mtd.erasesize)
      (mtd.erasesize * (j - k)) (by omega) (by omega)
    have hNone (x : Nat) : ¬Skipped mtd x := by
      rintro ⟨-, hNo⟩
      rw [mtdBlockIsbad, hBad] at hNo
      cases hNo
    refine ⟨calls, hCalls, fun a => (hIff a).trans ?_⟩
    exact ⟨fun h => ⟨h.1, h.2, hNone _⟩, fun h => ⟨h.1, h.2.1⟩⟩
  | some isbad => exact eraseBlocks_spec (dvd_roundDown _ _) (by omega)

/-- An empty range: only an offset inside a block makes it touch that block. -/
theorem uniform_empty (offset : Nat) :
    (∀ a, ¬(roundDown offset mtd.erasesize ≤ a ∧ a < roundUp offset mtd.erasesize ∧
        ¬Skipped mtd (roundDown a mtd.erasesize))) ↔
      mtd.erasesize ∣ offset ∨ Skipped mtd (mtd.blockStart offset) := by
  have hPos := mtd.erasesize_pos
  rw [blockStart_uniform hUniform]
  constructor
  · intro hNone
    by_contra hNot
    obtain ⟨hAligned, hKept⟩ := not_or.mp hNot
    obtain ⟨-, hUp, -⟩ := (roundUp_eq_iff (n := offset) hPos).mp rfl
    have hLess : roundDown offset mtd.erasesize < offset := by
      refine Nat.lt_of_le_of_ne (roundDown_le _ _) fun hEq => hAligned ?_
      grind [dvd_roundDown]
    refine hNone (roundDown offset mtd.erasesize) ⟨le_rfl, by omega, ?_⟩
    rw [roundDown_self (dvd_roundDown _ _)]
    exact hKept
  · rintro (hAligned | hSkip) a ⟨hLow, hHigh, hKept⟩
    · rw [roundDown_self hAligned] at hLow
      rw [roundUp_self hAligned] at hHigh
      omega
    have hUp := roundUp_le_roundDown_add offset hPos
    have hSame : roundDown a mtd.erasesize = roundDown offset mtd.erasesize :=
      (roundDown_eq_iff hPos).mpr ⟨dvd_roundDown _ _, hLow, by omega⟩
    grind

/-- A range that is not empty: bad blocks must not be erased. -/
theorem uniform_nonempty (hCount : 0 < count) (hIn : offset + count ≤ mtd.size) :
    (∀ a, (roundDown offset mtd.erasesize ≤ a ∧ a < roundUp (offset + count) mtd.erasesize ∧
        ¬Skipped mtd (roundDown a mtd.erasesize)) ↔ mtd.Covered count offset a) ↔
      (mtd.allowErasebad = true → ∀ x, offset ≤ x → x < offset + count →
        mtdBlockIsbad mtd (mtd.blockStart x) = false) := by
  have hPos := mtd.erasesize_pos
  have hStart (x : Nat) : roundDown x mtd.erasesize = mtd.blockStart x :=
    (blockStart_uniform hUniform x).symm
  have hEnd : roundUp (offset + count) mtd.erasesize = mtd.blockEnd (offset + count - 1) := by
    rw [blockEnd_uniform hUniform, roundUp_eq_iff hPos]
    have hLow := roundDown_le (offset + count - 1) mtd.erasesize
    have hHigh := lt_roundDown_add (n := offset + count - 1) hPos
    exact ⟨Nat.dvd_add (dvd_roundDown _ _) (dvd_refl _), by omega, by omega⟩
  simp only [hStart, hEnd, mtd.covered_iff hCount hIn]
  constructor
  · intro hSame hAllow x hLow hHigh
    obtain ⟨hxLow, hxHigh, -⟩ := mtd.block_spec (by omega : x < mtd.size)
    have hSpan := (mtd.overlap_iff hCount hIn x).mp ⟨x, hLow, hHigh, hxLow, hxHigh⟩
    refine ((hSame x).mp ⟨hSpan.1, hSpan.2, ?_⟩).2.2
    rintro ⟨hNo, -⟩
    rw [hAllow] at hNo
    cases hNo
  · intro hAllow a
    constructor
    · rintro ⟨hLow, hHigh, hKept⟩
      refine ⟨hLow, hHigh, ?_⟩
      cases hErase : mtd.allowErasebad with
      | false => simpa [Skipped, hErase] using hKept
      | true =>
        obtain ⟨x, hxLow, hxHigh, hxStart, hxEnd⟩ :=
          (mtd.overlap_iff hCount hIn a).mpr ⟨hLow, hHigh⟩
        rw [(block_same (by omega) hxStart hxEnd).1]
        exact hAllow hErase x hxLow hxHigh
    · rintro ⟨hLow, hHigh, hGood⟩
      refine ⟨hLow, hHigh, ?_⟩
      rintro ⟨-, hBad⟩
      rw [hGood] at hBad
      cases hBad

theorem erasesExactly_uniform (hIn : offset + count ≤ mtd.size) (hOffset : offset < mtd.size) :
    ErasesExactly mtd count offset ↔ UniformFits mtd count offset := by
  obtain ⟨calls, hCalls, hIff⟩ := mtdOpErase_uniform hUniform hIn hOffset
  have hExact : ErasesExactly mtd count offset ↔ ∀ a, (roundDown offset mtd.erasesize ≤ a ∧
      a < roundUp (offset + count) mtd.erasesize ∧ ¬Skipped mtd (roundDown a mtd.erasesize)) ↔
      mtd.Covered count offset a := by
    constructor
    · rintro ⟨calls', hCalls', hExact⟩ a
      rw [hCalls] at hCalls'
      cases hCalls'
      exact (hIff a).symm.trans (hExact a)
    · exact fun hExact => ⟨calls, hCalls, fun a => (hIff a).trans (hExact a)⟩
  rw [hExact, UniformFits]
  rcases Nat.eq_zero_or_pos count with rfl | hCount
  · rw [Nat.add_zero]
    simp only [iff_false_intro (mtd.not_covered_empty offset _), iff_false]
    rw [uniform_empty hUniform]
    exact ⟨fun h => ⟨fun _ => h, fun _ x hLow hHigh => by omega⟩, fun h => h.1 trivial⟩
  · rw [uniform_nonempty hUniform hCount hIn]
    exact ⟨fun h => ⟨fun hNo => by omega, h⟩, fun h => h.2⟩

end Uniform

section Regions
variable {mtd : MtdInfo} {start stop offset addr len esize esize' count : Nat}
    {regions : List EraseRegion}

theorem Consecutive.erasesize_pos (h : Consecutive start stop regions) :
    ∀ e ∈ regions, 0 < e.erasesize := by
  induction regions generalizing start with
  | nil => exact fun e hNo => by cases hNo
  | cons first rest ih =>
    obtain ⟨-, hPos, -, hRest⟩ := h
    exact forall_mem_cons.mpr ⟨hPos, ih hRest⟩

theorem mtdFindEraseRegion_some (h : Consecutive start stop regions)
    (hNe : regions ≠ []) (hOffset : offset ≤ stop) :
    ∃ e, regions.find? (fun e => ¬offset > e.offset + e.erasesize * e.numblocks) = some e := by
  induction regions generalizing start with
  | nil => exact absurd rfl hNe
  | cons first rest ih =>
    obtain ⟨-, -, -, hRest⟩ := h
    by_cases hIn : offset ≤ first.offset + first.erasesize * first.numblocks
    · exact ⟨first, find?_cons_of_pos (by simpa using hIn)⟩
    rw [find?_cons_of_neg (by simpa using hIn)]
    refine ih hRest ?_
    rintro rfl
    have hStop : first.stop = stop := hRest
    grind [EraseRegion.stop]

/-- One call to the driver erases exactly a range if it is given that range. -/
theorem mtdErase_exactly {low high : Nat} (hLow : low < high) (hHigh : high ≤ mtd.size) :
    (∃ calls, mtdErase mtd addr len = .ok calls ∧ ∀ a, Erased calls a ↔ low ≤ a ∧ a < high) ↔
      addr = low ∧ addr + len = high := by
  constructor
  · rintro ⟨calls, hCalls, hIff⟩
    unfold mtdErase at hCalls
    split at hCalls
    · cases hCalls
    split at hCalls
    · cases hCalls
      exact absurd ((hIff low).mpr ⟨le_rfl, hLow⟩) (erased_nil low)
    cases hCalls
    have hSame (a : Nat) : addr ≤ a ∧ a < addr + len ↔ low ≤ a ∧ a < high :=
      (erased_singleton addr len a).symm.trans (hIff a)
    have hFirst := (hSame low).mpr ⟨le_rfl, hLow⟩
    have hStart := (hSame addr).mp ⟨le_rfl, by omega⟩
    have hLast := (hSame (high - 1)).mpr ⟨by omega, by omega⟩
    have hEnd := (hSame (addr + len - 1)).mp ⟨by omega, by omega⟩
    omega
  · rintro ⟨rfl, rfl⟩
    exact mtdErase_ok (by omega) hHigh

theorem mtdErase_nothing (hAddr : addr < mtd.size) :
    (∃ calls, mtdErase mtd addr len = .ok calls ∧ ∀ a, ¬Erased calls a) ↔ len = 0 := by
  constructor
  · rintro ⟨calls, hCalls, hNone⟩
    unfold mtdErase at hCalls
    split at hCalls
    · cases hCalls
    split at hCalls
    · assumption
    · cases hCalls
      exact absurd ((erased_singleton addr len addr).mpr ⟨le_rfl, by omega⟩) (hNone addr)
  · rintro rfl
    rw [mtdErase, if_neg (by omega), if_pos rfl]
    exact ⟨[], rfl, erased_nil⟩

/-- A call with a range that is rounded with two sizes erases nothing if the offset needs no
rounding. -/
theorem regions_empty (hSize : 0 < esize') (hOffset : offset < mtd.size) :
    (∃ calls, mtdErase mtd (roundDown offset esize) (roundUp (0 + offset % esize) esize') =
      .ok calls ∧
        ∀ a, Erased calls a ↔ mtd.Covered 0 offset a) ↔ esize ∣ offset := by
  have hDown := roundDown_le offset esize
  have hNone : (∃ calls,
      mtdErase mtd (roundDown offset esize) (roundUp (0 + offset % esize) esize') = .ok calls ∧
      ∀ a, Erased calls a ↔ mtd.Covered 0 offset a) ↔
      ∃ calls, mtdErase mtd (roundDown offset esize) (roundUp (0 + offset % esize) esize') =
        .ok calls ∧
        ∀ a, ¬Erased calls a :=
    exists_congr fun calls => and_congr_right fun _ => forall_congr' fun a =>
      iff_false_right (mtd.not_covered_empty offset a)
  rw [hNone, mtdErase_nothing (by omega), Nat.zero_add, roundUp_eq_iff hSize]
  constructor
  · rintro ⟨-, hZero, -⟩
    exact dvd_of_mod_eq_zero (by omega)
  · intro hAligned
    exact ⟨dvd_zero _, by omega, by omega⟩

/-- It erases the blocks of a range that is not empty if both ends are rounded to the ends of
their blocks. -/
theorem regions_nonempty (hBad : mtd.blockIsbad = none) (hSize : 0 < esize')
    (hCount : 0 < count) (hIn : offset + count ≤ mtd.size) :
    (∃ calls, mtdErase mtd (roundDown offset esize) (roundUp (count + offset % esize) esize') =
      .ok calls ∧
        ∀ a, Erased calls a ↔ mtd.Covered count offset a) ↔
          offset % esize = offset - mtd.blockStart offset ∧
        esize' ∣ mtd.blockEnd (offset + count - 1) - mtd.blockStart offset ∧
        mtd.blockEnd (offset + count - 1) < offset + count + esize' := by
  have hMod := mod_le offset esize
  obtain ⟨hStart, -, -⟩ := mtd.block_spec (by omega : offset < mtd.size)
  obtain ⟨hLastStart, hLastEnd, hEnd⟩ := mtd.block_spec (by omega : offset + count - 1 < mtd.size)
  have hGood (a : Nat) : mtdBlockIsbad mtd a = false := by rw [mtdBlockIsbad, hBad]
  simp only [mtd.covered_iff hCount hIn, hGood, and_true]
  rw [mtdErase_exactly (by omega) hEnd]
  have hOfs : roundDown offset esize = mtd.blockStart offset ↔
      offset % esize = offset - mtd.blockStart offset := by
    unfold roundDown
    omega
  constructor
  · rintro ⟨hAddr, hLen⟩
    have hRest := hOfs.mp hAddr
    have hRound : roundUp (count + offset % esize) esize' =
        mtd.blockEnd (offset + count - 1) - mtd.blockStart offset := by omega
    obtain ⟨hDvd, -, hNear⟩ := (roundUp_eq_iff hSize).mp hRound
    exact ⟨hRest, hDvd, by omega⟩
  · rintro ⟨hRest, hDvd, hNear⟩
    have hRound : roundUp (count + offset % esize) esize' =
        mtd.blockEnd (offset + count - 1) - mtd.blockStart offset :=
      (roundUp_eq_iff hSize).mpr ⟨hDvd, by omega, by omega⟩
    have hAddr := hOfs.mpr hRest
    exact ⟨hAddr, by omega⟩

theorem mtdEraseAlign_regions (hRegions : mtd.eraseregions ≠ [])
    {count offset : Nat} {e : EraseRegion}
    (hFirst : mtdFindEraseRegion mtd offset = some e) : mtdEraseAlign mtd count offset =
      match mtdFindEraseRegion mtd (offset + (count + offset % e.erasesize)) with
      | none => .error .einval
      | some e' => .ok (roundUp (count + offset % e.erasesize) e'.erasesize,
        roundDown offset e.erasesize) := by
  have hMod := mod_le offset e.erasesize
  have hRest : offset - mtdEraseRoundDown offset e.erasesize = offset % e.erasesize := by
    rw [mtdEraseRoundDown_eq, roundDown]
    omega
  rw [mtdEraseAlign, if_neg hRegions, hFirst]
  dsimp only
  rw [hRest, mtdEraseRoundDown_eq]
  rfl

theorem erasesExactly_regions (hRegions : mtd.eraseregions ≠ []) (hIn : offset + count ≤ mtd.size)
    (hOffset : offset < mtd.size) :
    ErasesExactly mtd count offset ↔ RegionsFit mtd count offset := by
  have hPos := (mtd.consecutive hRegions).erasesize_pos
  have hBad := mtd.regions_good hRegions
  obtain ⟨e, hFirst⟩ := mtdFindEraseRegion_some (mtd.consecutive hRegions) hRegions hOffset.le
  change mtdFindEraseRegion mtd offset = some e at hFirst
  have hAlign := @mtdEraseAlign_regions mtd hRegions count offset e hFirst
  cases hLast : mtdFindEraseRegion mtd (offset + (count + offset % e.erasesize)) with
  | none =>
    rw [hLast] at hAlign
    refine iff_of_false ?_ ?_
    · rintro ⟨calls, hCalls, -⟩
      rw [mtdOpErase, hAlign] at hCalls
      cases hCalls
    rintro ⟨e₁, e₂, he₁, he₂, -⟩
    rw [hFirst] at he₁
    cases he₁
    rw [hLast] at he₂
    cases he₂
  | some e' =>
    rw [hLast] at hAlign
    have hSize := hPos e' (mem_of_find?_eq_some hLast)
    have hOp : mtdOpErase mtd count offset = mtdErase mtd (roundDown offset e.erasesize)
        (roundUp (count + offset % e.erasesize) e'.erasesize) := by
          simp [mtdOpErase_aligned hAlign, hBad]
    have hFit : RegionsFit mtd count offset ↔ (count = 0 → e.erasesize ∣ offset) ∧
        (0 < count → offset % e.erasesize = offset - mtd.blockStart offset ∧
          e'.erasesize ∣ mtd.blockEnd (offset + count - 1) - mtd.blockStart offset ∧
          mtd.blockEnd (offset + count - 1) < offset + count + e'.erasesize) := by
      constructor
      · rintro ⟨e₁, e₂, he₁, he₂, hRest⟩
        rw [hFirst] at he₁
        cases he₁
        rw [hLast] at he₂
        cases he₂
        exact hRest
      · exact fun hRest => ⟨e, e', hFirst, hLast, hRest⟩
    rw [hFit, ErasesExactly, hOp]
    rcases Nat.eq_zero_or_pos count with rfl | hCount
    · rw [regions_empty hSize hOffset]
      exact ⟨fun h => ⟨fun _ => h, fun hNo => by omega⟩, fun h => h.1 rfl⟩
    · rw [regions_nonempty hBad hSize hCount hIn]
      exact ⟨fun h => ⟨fun hNo => by omega, fun _ => h⟩, fun h => h.2 hCount⟩

end Regions

def blockCalls (mtd : MtdInfo) (blocks : List Nat) : List (Nat × Nat) :=
  blocks.map fun addr => (addr, mtd.erasesize)

section BadBlocks
variable {mtd : MtdInfo} {k n : Nat} {count : Int}

theorem bbEraseLoop_end (hn : mtd.size = mtd.erasesize * k) (count : Int) :
    bbEraseLoop mtd count (mtd.erasesize * k) = .ok [] := by
  have hPos := mtd.erasesize_pos
  rw [bbEraseLoop, hn, if_pos (by omega : mtd.erasesize * k < mtd.erasesize * k + mtd.erasesize),
    ite_self]

theorem bbEraseLoop_turn (hn : mtd.size = mtd.erasesize * (k + (n + 1)))
    (hCount : count ≠ 0) {bad good : List Nat}
    (hBad : bbEraseLoop mtd count (mtd.erasesize * (k + 1)) = .ok (blockCalls mtd bad))
    (hGood : bbEraseLoop mtd (count - mtd.erasesize) (mtd.erasesize * (k + 1)) =
      .ok (blockCalls mtd good)) :
    bbEraseLoop mtd count (mtd.erasesize * k) = .ok (blockCalls mtd
      (if mtdBlockIsbad mtd (mtd.erasesize * k) = false then mtd.erasesize * k :: good
        else bad)) := by
  have hPos := mtd.erasesize_pos
  rw [mul_succ] at hBad hGood
  have hSize : mtd.erasesize * k + mtd.erasesize ≤ mtd.size := by grind
  have hCall : mtdErase mtd (mtd.erasesize * k) mtd.erasesize =
      .ok [(mtd.erasesize * k, mtd.erasesize)] := by
    rw [mtdErase, if_neg (by omega), if_neg (by omega)]
  rw [bbEraseLoop, if_neg hCount, if_neg (by omega), hBad, hGood, hCall]
  cases mtdBlockIsbad mtd (mtd.erasesize * k) with
  | false => rfl
  | true => rfl

/-- A count of whole blocks erases as many good ones. -/
theorem bbEraseLoop_multiple (hn : mtd.size = mtd.erasesize * (k + n)) (m : Nat) :
    bbEraseLoop mtd ((mtd.erasesize * m : Nat) : Int) (mtd.erasesize * k) =
      .ok (blockCalls mtd ((goodFrom mtd k n).take m)) := by
  have hPos := mtd.erasesize_pos
  induction n generalizing k m with
  | zero =>
    have hNil : goodFrom mtd k 0 = [] := rfl
    rw [hNil, take_nil]
    exact bbEraseLoop_end hn _
  | succ n ih =>
    have hNext : mtd.size = mtd.erasesize * (k + 1 + n) := by
      rw [hn, Nat.add_right_comm, Nat.add_assoc]
    rcases m with _ | m
    · rw [bbEraseLoop, Nat.mul_zero, if_pos Int.natCast_zero, take_zero]
      rfl
    have hNonzero : ((mtd.erasesize * (m + 1) : Nat) : Int) ≠ 0 := by
      rw [mul_succ]
      omega
    have hLess : ((mtd.erasesize * (m + 1) : Nat) : Int) - mtd.erasesize =
        ((mtd.erasesize * m : Nat) : Int) := by
      simp [mul_succ]
    have hGood := ih hNext m
    rw [← hLess] at hGood
    rw [bbEraseLoop_turn hn hNonzero (ih hNext (m + 1)) hGood, goodFrom_succ]
    split
    · rfl
    · rfl

/-- Any other count never comes to 0: every good block is erased. -/
theorem bbEraseLoop_other (hn : mtd.size = mtd.erasesize * (k + n))
    (hCount : ¬(mtd.erasesize : Int) ∣ count) :
    bbEraseLoop mtd count (mtd.erasesize * k) = .ok (blockCalls mtd (goodFrom mtd k n)) := by
  induction n generalizing k count with
  | zero => exact bbEraseLoop_end hn _
  | succ n ih =>
    have hNext : mtd.size = mtd.erasesize * (k + 1 + n) := by
      rw [hn, Nat.add_right_comm, Nat.add_assoc]
    have hNonzero : count ≠ 0 := by
      rintro rfl
      exact hCount (dvd_zero _)
    have hLess : ¬(mtd.erasesize : Int) ∣ count - mtd.erasesize := fun hDvd =>
      hCount (by simpa using Int.dvd_add hDvd (Int.dvd_refl _))
    rw [bbEraseLoop_turn hn hNonzero (ih hNext hCount) (ih hNext hLess), goodFrom_succ]

def blocksFor (mtd : MtdInfo) (count : Nat) : Nat := (count + mtd.erasesize - 1) / mtd.erasesize

theorem nandBbErase_iff (hUniform : mtd.eraseregions = []) (count : Nat) :
    nandBbErase mtd count 0 = .ok (blockCalls mtd ((goodBlocks mtd).take (blocksFor mtd count))) ↔
      mtd.erasesize ∣ count ∨ (goodBlocks mtd).length ≤ blocksFor mtd count := by
  have hPos := mtd.erasesize_pos
  have hn : mtd.size = mtd.erasesize * (0 + mtd.size / mtd.erasesize) := by
    simp [Nat.mul_div_cancel' (mtd.uniform hUniform)]
  rw [nandBbErase, if_neg (not_not_intro rfl)]
  by_cases hDvd : mtd.erasesize ∣ count
  · obtain ⟨m, rfl⟩ := hDvd
    have hBlocks : blocksFor mtd (mtd.erasesize * m) = m := by
      rw [blocksFor, Nat.add_sub_assoc hPos, mul_add_div hPos,
        div_eq_of_lt (by omega), Nat.add_zero]
    have hLoop := bbEraseLoop_multiple hn m
    rw [Nat.mul_zero] at hLoop
    rw [hLoop, hBlocks]
    exact iff_of_true rfl (.inl (Nat.dvd_mul_right _ _))
  · have hLoop := bbEraseLoop_other hn
      (fun h => hDvd (Int.natCast_dvd_natCast.mp h) : ¬(mtd.erasesize : Int) ∣ (count : Int))
    rw [Nat.mul_zero] at hLoop
    rw [hLoop]
    change Except.ok (blockCalls mtd (goodBlocks mtd)) = _ ↔ _
    constructor
    · intro hSame
      right
      have hLen := congrArg List.length (Except.ok.inj hSame)
      grind [blockCalls]
    · rintro (hNo | hFew)
      · exact absurd hNo hDvd
      · rw [take_of_length_le hFew]

end BadBlocks

/-- The erase operation of the character device erases exactly the good blocks that overlap the
range under the first condition; that of the bad block aware device erases exactly the first good
blocks under the second. -/
theorem erase_exactly_iff (mtd : MtdInfo) {count offset : Nat} (hIn : offset + count ≤ mtd.size)
    (hOffset : offset < mtd.size) : (ErasesExactly mtd count offset ↔
      (mtd.eraseregions = [] ∧ UniformFits mtd count offset) ∨
        (mtd.eraseregions ≠ [] ∧ RegionsFit mtd count offset)) ∧
          (mtd.eraseregions = [] → ∀ bytes : Nat,
      (nandBbErase mtd bytes 0 =
        .ok (blockCalls mtd ((goodBlocks mtd).take (blocksFor mtd bytes))) ↔
        mtd.erasesize ∣ bytes ∨ (goodBlocks mtd).length ≤ blocksFor mtd bytes)) := by
  refine ⟨?_, fun hUniform bytes => nandBbErase_iff hUniform bytes⟩
  by_cases hUniform : mtd.eraseregions = []
  · rw [erasesExactly_uniform hUniform hIn hOffset]
    exact ⟨fun h => .inl ⟨hUniform, h⟩, fun h => h.elim (·.2) fun hNo => absurd hUniform hNo.1⟩
  · rw [erasesExactly_regions hUniform hIn hOffset]
    exact ⟨fun h => .inr ⟨hUniform, h⟩, fun h => h.elim (fun hNo => absurd hNo.1 hUniform) (·.2)⟩

def smallNand : MtdInfo where
  size := 524288
  erasesize := 131072
  eraseregions := []
  blockIsbad := some fun addr => addr = 131072
  allowErasebad := false
  erasesize_pos := by decide
  uniform := fun _ => by decide
  consecutive := fun h => absurd rfl h
  regions_good := fun h => absurd rfl h

theorem erase_exactly_nand : ErasesExactly smallNand 131072 65536 ∧
    nandBbErase smallNand 131072 0 =
    .ok (blockCalls smallNand ((goodBlocks smallNand).take 1)) := by
  obtain ⟨hOp, hBb⟩ := @erase_exactly_iff smallNand 131072 65536 (by decide) (by decide)
  refine ⟨hOp.mpr (.inl ⟨rfl, (fun hNo => by cases hNo), fun hNo => by cases hNo⟩), ?_⟩
  exact (hBb rfl 131072).mpr (.inl (Nat.dvd_refl _))

theorem bootBlockNor_consecutive : Consecutive 0 524288 [⟨0, 8192, 8⟩, ⟨65536, 65536, 7⟩] :=
  ⟨rfl, by decide, by decide, rfl, by decide, by decide, rfl⟩

def bootBlockNor : MtdInfo where
  size := 524288
  erasesize := 65536
  eraseregions := [⟨0, 8192, 8⟩, ⟨65536, 65536, 7⟩]
  blockIsbad := none
  allowErasebad := false
  erasesize_pos := by decide
  uniform := fun h => absurd h (cons_ne_nil _ _)
  consecutive := fun _ => bootBlockNor_consecutive
  regions_good := fun _ => rfl

/-- One byte of the bad block aware device: every good block is erased. All but the first half
of the first block of the NOR flash: nothing is. -/
theorem erase_not_exactly :
    nandBbErase smallNand 1 0 = .ok [(0, 131072), (262144, 131072), (393216, 131072)] ∧
    blocksFor smallNand 1 = 1 ∧ mtdOpErase bootBlockNor (524288 - 4096) 4096 = .error .einval := by
  have hAlign : mtdEraseAlign bootBlockNor (524288 - 4096) 4096 = .error .einval := by
    decide +kernel
  refine ⟨?_, by decide, by rw [mtdOpErase, hAlign]; rfl⟩
  have hOther : ¬(smallNand.erasesize : Int) ∣ ((1 : Nat) : Int) := by decide
  have hLoop := bbEraseLoop_other (k := 0) (n := 4)
    (by decide : smallNand.size = smallNand.erasesize * (0 + 4)) hOther
  have hGood : goodFrom smallNand 0 4 = [0, 262144, 393216] := by decide +kernel
  rw [hGood, Nat.mul_zero] at hLoop
  rw [nandBbErase, if_neg (not_not_intro rfl)]
  exact hLoop

end Barebox.Mtd
