import Barebox.Tftp.Client

/-! Sixteen-bit block numbers and the cache of blocks that came too early, for
blocks whose true numbers lie close together: the cache is then an ordered list
without duplicates. -/
namespace Barebox.Tftp
open Bytes Barebox.Lib List UInt16
variable (file : List UInt8)

def fileBlock (b n : Nat) : List UInt8 := slice ((n - 1) * b) b file

def blockCount (b : Nat) : Nat := file.length / b + 1

def firstBlocks (b k : Nat) : List UInt8 := (range k).flatMap fun i => fileBlock file b (i + 1)

section Blocks
variable {file : List UInt8} {b : Nat}

theorem fileBlock_length_le (file : List UInt8) (b n : Nat) : (fileBlock file b n).length ≤ b := by
  rw [fileBlock, slice_length]
  simp

theorem fileBlock_full {k : Nat} (h : k + 1 ≤ file.length / b) :
    (fileBlock file b (k + 1)).length = b := by
  have hLe : (k + 1) * b ≤ file.length :=
    Nat.le_trans (Nat.mul_le_mul_right b h) (Nat.div_mul_le_self _ _)
  rw [Nat.succ_mul] at hLe
  simp [fileBlock, slice_length_of_le hLe]

theorem fileBlock_short {k : Nat} (hb : 0 < b) (h : file.length / b ≤ k) :
    (fileBlock file b (k + 1)).length < b := by
  have hLt := Nat.lt_mul_of_div_lt (Nat.lt_succ_of_le h) hb
  grind [fileBlock, slice_length]

theorem firstBlocks_succ (file : List UInt8) (b k : Nat) :
    firstBlocks file b (k + 1) = firstBlocks file b k ++ fileBlock file b (k + 1) := by
  simp [firstBlocks, range_succ]

theorem firstBlocks_length {k : Nat} (h : k ≤ file.length / b) :
    (firstBlocks file b k).length = k * b := by
  induction k with
  | zero => simp [firstBlocks]
  | succ k ih =>
    simp [firstBlocks_succ, ih (by omega), fileBlock_full h, Nat.succ_mul]

end Blocks

theorem UInt16.ofNat_inj_of_near {m n : Nat} (h : m < n + 2 ^ 16) (h' : n < m + 2 ^ 16) :
    ofNat m = ofNat n ↔ m = n := by
  constructor
  · intro hEq
    have hNat := congrArg toNat hEq
    grind [toNat_ofNat']
  · rintro rfl
    rfl

/-- For numbers that are close, the comparison of their low sixteen bits is the
comparison of the numbers. -/
theorem isBlockBefore_ofNat {m n : Nat} (h : m < n + 2 ^ 15) (h' : n < m + 2 ^ 15) :
    isBlockBefore (ofNat m) (ofNat n) = decide (m < n) := by
  have hInt : ((ofNat n - ofNat m).toInt16).toInt = (n : Int) - m := by
    change (if 2 * (ofNat n - ofNat m).toNat < 2 ^ 16 then
      ((ofNat n - ofNat m).toNat : Int)
      else ((ofNat n - ofNat m).toNat : Int) - ((2 ^ 16 : Nat) : Int)) = _
    simp only [UInt16.toNat_sub, UInt16.toNat_ofNat']
    split <;> omega
  rw [isBlockBefore, decide_eq_decide, Int16.lt_iff_toInt_lt, hInt]
  simp

def cacheEntry (file : List UInt8) (b n : Nat) : TftpBlock := ⟨ofNat n, fileBlock file b n⟩

/-- The cache stays the sorted list of blocks of the file, with the new one among them. -/
theorem tftpWindowCacheInsert_spec {file : List UInt8} {b n : Nat} {ms : List Nat} (hb : b < 2 ^ 16)
    (hSorted : ms.Pairwise (· < ·)) (hNear : ∀ m ∈ ms, m < n + 2 ^ 15 ∧ n < m + 2 ^ 15) :
    ∃ ms' : List Nat, tftpWindowCacheInsert (ofNat n) (fileBlock file b n)
      (ms.map (cacheEntry file b)) =
        ms'.map (cacheEntry file b) ∧ ms'.Pairwise (· < ·) ∧ ∀ m, m ∈ ms' ↔ m = n ∨ m ∈ ms := by
  have hData : (fileBlock file b n).take ((fileBlock file b n).length % 2 ^ 16) =
      fileBlock file b n := by
    have hLe := fileBlock_length_le file b n
    rw [Nat.mod_eq_of_lt (by omega), take_length]
  induction ms with
  | nil =>
    refine ⟨[n], ?_, pairwise_singleton _ _, fun x => by simp⟩
    rw [map_nil, tftpWindowCacheInsert, hData]
    rfl
  | cons m ms ih =>
    obtain ⟨hLt, hLt'⟩ := hNear m (.head _)
    have hId : (cacheEntry file b m).id = ofNat m := rfl
    simp only [map_cons, tftpWindowCacheInsert]
    rw [hId, isBlockBefore_ofNat hLt hLt']
    rcases Nat.lt_trichotomy m n with hBefore | rfl | hAfter
    · obtain ⟨ms', hInsert, hSorted', hMem⟩ := ih hSorted.of_cons fun x hx =>
        hNear x (mem_cons_of_mem m hx)
      have hNe : ofNat m ≠ ofNat n := by
        rw [Ne, UInt16.ofNat_inj_of_near (by omega) (by omega)]
        omega
      rw [if_neg hNe, if_pos (by simpa using hBefore), hInsert]
      refine ⟨m :: ms', rfl, pairwise_cons.mpr ⟨fun x hx => ?_, hSorted'⟩, fun x => ?_⟩
      · rcases (hMem x).mp hx with rfl | hOld
        · exact hBefore
        · exact rel_of_pairwise_cons hSorted hOld
      · simp [hMem x, or_left_comm]
    · rw [if_pos rfl]
      exact ⟨m :: ms, rfl, hSorted, fun x => by simp⟩
    · have hNe : ofNat m ≠ ofNat n := by
        rw [Ne, UInt16.ofNat_inj_of_near (by omega) (by omega)]
        omega
      rw [if_neg hNe, if_neg (by simpa using Nat.le_of_lt hAfter), hData]
      exact ⟨n :: m :: ms, rfl, pairwise_cons.mpr ⟨forall_mem_cons.mpr
        ⟨hAfter, fun x hOld => Nat.lt_trans hAfter (rel_of_pairwise_cons hSorted hOld)⟩,
        hSorted⟩, fun x =>
          by simp⟩

structure Cached (file : List UInt8) (b k : Nat) (ms : List Nat) (priv : FilePriv) : Prop where
  cache : priv.cache = ms.map (cacheEntry file b)
  sorted : ms.Pairwise (· < ·)
  near : ∀ m ∈ ms, m < k + 2 ^ 14 ∧ k < m + 2 ^ 14

/-! `P k priv` is preserved by putting the next block, for the blocks that are
allowed; then a whole packet preserves it, with all that it takes from the cache. -/
section Rule
variable {file : List UInt8} {b : Nat} (P : Nat → FilePriv → Prop) (Allowed : Nat → Prop)
  (hLast : ∀ k priv, P k priv → priv.state = .rdata → priv.lastBlock = ofNat k)
  (hPut : ∀ k priv, P k priv → priv.state = .rdata → Allowed (k + 1) →
    P (k + 1) (tftpPutData priv (ofNat (k + 1)) (fileBlock file b (k + 1))))
  (hCache : ∀ k priv cache, P k priv → P k { priv with cache := cache })
include hLast hPut hCache
variable {ms : List Nat} {k : Nat} {priv : FilePriv}

theorem applyBlocks_rule (hP : P k priv) (hSorted : ms.Pairwise (· < ·))
    (hNear : ∀ m ∈ ms, m < k + 2 ^ 14 ∧ k < m + 2 ^ 14 + 1) (hAllowed : ∀ m ∈ ms, Allowed m) :
    ∃ k' ms', P k' (applyBlocks priv (ms.map (cacheEntry file b))) ∧ (∀ m ∈ ms', Allowed m) ∧
      ((applyBlocks priv (ms.map (cacheEntry file b))).state = .rdata →
        Cached file b k' ms' (applyBlocks priv (ms.map (cacheEntry file b)))) := by
  induction ms generalizing k priv with
  | nil => exact ⟨k, [], hCache k priv [] hP, by simp, fun _ => ⟨rfl, by simp, by simp⟩⟩
  | cons m ms ih =>
    have hSorted' := hSorted.of_cons
    have hAllowed' := fun x hx => hAllowed x (mem_cons_of_mem m hx)
    obtain ⟨hLt, hLt'⟩ := hNear m (.head _)
    simp only [map_cons, applyBlocks]
    by_cases hState : priv.state = .rdata
    · have hId : (cacheEntry file b m).id = ofNat m := rfl
      have hSucc : priv.lastBlock + 1 = ofNat (k + 1) := by simp [hLast k priv hP hState]
      rw [if_neg (not_not_intro hState), hId, hSucc, isBlockBefore_ofNat (by omega) (by omega)]
      rcases Nat.lt_trichotomy m (k + 1) with hBefore | rfl | hAfter
      · rw [if_pos (by simpa using hBefore)]
        exact ih hP hSorted' (fun x hx => hNear x (mem_cons_of_mem m hx)) hAllowed'
      · rw [if_neg (by simp), if_neg (by simp)]
        refine ih (hPut k priv hP hState (hAllowed _ (.head _))) hSorted' (fun x hx => ?_) hAllowed'
        have hGt := rel_of_pairwise_cons hSorted hx
        have hUpper := (hNear x (.tail _ hx)).1
        omega
      have hNe : ofNat m ≠ ofNat (k + 1) := by
        rw [Ne, UInt16.ofNat_inj_of_near (by omega) (by omega)]
        omega
      rw [if_neg (by simpa using Nat.le_of_lt hAfter), if_pos hNe]
      refine ⟨k, m :: ms, hCache k priv _ hP, hAllowed, fun _ => ⟨rfl, hSorted, fun x hx => ?_⟩⟩
      have hGe : m ≤ x := by
        rcases mem_cons.mp hx with rfl | hTail
        · rfl
        · exact Nat.le_of_lt (rel_of_pairwise_cons hSorted hTail)
      have hUpper := (hNear x hx).1
      omega
    · rw [if_pos hState]
      exact ⟨k, [], hCache k priv _ hP, by simp, fun h => absurd h hState⟩

theorem tftpHandleData_rule {n : Nat} (hb : b < 2 ^ 16)
    (hState : priv.state = .rdata) (hP : P k priv) (hCached : Cached file b k ms priv)
    (hAllowed : ∀ m ∈ ms, Allowed m) (hNew : Allowed n) (hNear : n < k + 2 ^ 14 ∧ k < n + 2 ^ 14) :
    ∃ k' ms', P k' (tftpHandleData priv (ofNat n) (fileBlock file b n)) ∧ (∀ m ∈ ms', Allowed m) ∧
      ((tftpHandleData priv (ofNat n) (fileBlock file b n)).state = .rdata →
        Cached file b k' ms' (tftpHandleData priv (ofNat n) (fileBlock file b n))) := by
  have hSucc : priv.lastBlock + 1 = ofNat (k + 1) := by simp [hLast k priv hP hState]
  unfold tftpHandleData
  rw [hSucc]
  by_cases hNext : n = k + 1
  · subst hNext
    rw [if_pos rfl, tftpApplyWindowCache, (tftpPutData_frame _ _ _).1, hCached.cache]
    refine applyBlocks_rule P Allowed hLast hPut hCache (hPut k priv hP hState hNew) hCached.sorted
      (fun m hm => ?_) hAllowed
    have hOld := hCached.near m hm
    omega
  have hNe : ofNat (k + 1) ≠ ofNat n := by
    rw [Ne, UInt16.ofNat_inj_of_near (by omega) (by omega)]
    omega
  rw [if_neg hNe]
  split
  · exact ⟨k, ms, hP, hAllowed, fun _ => hCached⟩
  have hSpan : ∀ m ∈ ms, m < n + 2 ^ 15 ∧ n < m + 2 ^ 15 := fun m hm => by
    have hOld := hCached.near m hm
    omega
  obtain ⟨ms', hInsert, hSorted, hMem⟩ := tftpWindowCacheInsert_spec hb hCached.sorted hSpan
  refine ⟨k, ms', hCache k priv _ hP, fun m hm => ?_, fun _ => ⟨?_, hSorted, fun m hm => ?_⟩⟩
  · rcases (hMem m).mp hm with rfl | hOld
    · exact hNew
    · exact hAllowed m hOld
  · rw [hCached.cache, hInsert]
  · rcases (hMem m).mp hm with rfl | hOld
    · exact hNear
    · exact hCached.near m hOld

end Rule
end Barebox.Tftp
