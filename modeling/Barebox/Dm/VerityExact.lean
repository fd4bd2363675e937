import Barebox.Dm.VerityGeometry

/-! A verity target above devices that never change and never fail. A data block is accepted if and
only if the blocks on the hash device above it are a path to the root digest; for a digest without
collisions that makes them the blocks of the tree over the original data. -/
namespace Barebox.Dm
open Bytes List Nat

/-- `dm_cdev_read` on a device with the given content. What lies behind its end is missing. -/
def dmCdevRead (c : DmCdev) (content buf : List UInt8) (block n : Nat) : Reply :=
  let count := n * 2 ^ c.bits % 2 ^ 64
  let bytes := slice ((c.start + block) % 2 ^ 64 * 2 ^ c.bits % 2 ^ 64) count content
  if bytes.length < count then .failed (overwrite 0 bytes buf) .eio else .done bytes

def DmCdev.Holds (c : DmCdev) (content : List UInt8) : Prop :=
  (c.start + c.num) * 2 ^ c.bits ≤ content.length ∧ content.length < 2 ^ 64

def DmCdev.blocks (c : DmCdev) (content : List UInt8) (block n : Nat) : List UInt8 :=
  slice ((c.start + block) * 2 ^ c.bits) (n * 2 ^ c.bits) content

variable {c : DmCdev} {block n i dmSize base size : Nat} {args : VerityArgs} {t : DmTarget}

theorem dmCdevRead_inside {content : List UInt8} (hHolds : c.Holds content)
    (hIn : block + n ≤ c.num) (buf : List UInt8) :
    dmCdevRead c content buf block n = .done (c.blocks content block n) := by
  obtain ⟨hRoom, hLt⟩ := hHolds
  have hPos : 0 < 2 ^ c.bits := Nat.two_pow_pos _
  have hEnd : (c.start + block) * 2 ^ c.bits + n * 2 ^ c.bits ≤ (c.start + c.num) * 2 ^ c.bits := by
    rw [← Nat.add_mul]
    exact Nat.mul_le_mul_right _ (by omega)
  have hStart : c.start + block ≤ (c.start + block) * 2 ^ c.bits := Nat.le_mul_of_pos_right _ hPos
  rw [dmCdevRead, mod_eq_of_lt (a := n * 2 ^ c.bits) (by omega),
    mod_eq_of_lt (a := c.start + block) (by omega),
    mod_eq_of_lt (a := (c.start + block) * 2 ^ c.bits) (by omega)]
  refine if_neg ?_
  rw [slice_length_of_le (by omega)]
  exact Nat.lt_irrefl _

theorem DmCdev.slice_blocks (c : DmCdev) (content : List UInt8) (hi : i < n) :
    slice (i * 2 ^ c.bits) (2 ^ c.bits) (c.blocks content block n) =
    c.blocks content (block + i) 1 := by
  have hFit : i * 2 ^ c.bits + 2 ^ c.bits ≤ n * 2 ^ c.bits := by
    rw [← succ_mul]
    exact Nat.mul_le_mul_right _ hi
  simp [blocks, slice_slice hFit, Nat.add_mul, Nat.add_assoc]

namespace Verity
variable (v : Verity) (ddata hdata : List UInt8)

def fixedStorage : Storage Unit :=
  { readHash := fun _ buf h => (dmCdevRead v.hdev hdata buf h 1, ())
    readData := fun _ first n =>
      (match v.ddev with
        | none => .error .eio
        | some c =>
          match dmCdevRead c ddata [] first n with
          | .done bytes => .ok bytes
          | .failed _ e => .error e, ()) }

def hashBlock (h : Nat) : List UInt8 := v.hdev.blocks hdata h 1

/-- The blocks on the hash device above a data block, `left` levels from a level on. -/
def devicePath (dblock : Nat) : Nat → Nat → List (List UInt8)
  | 0, _ => []
  | left + 1, level => v.hashBlock hdata (v.hblockAtLevel dblock level) ::
      devicePath dblock left (level + 1)

def Path (d : List UInt8) (left level dblock : Nat) : Prop :=
  HashPath.Leads v.digest v.expected v.rootDigest d
    (HashPath.digits (2 ^ v.hashPerBlockBits) left (v.positionAtLevel dblock level))
      (v.devicePath hdata dblock left level)

variable {v hdata}

theorem path_zero (d : List UInt8) (level dblock : Nat) :
    v.Path hdata d 0 level dblock ↔ d = v.rootDigest := Iff.rfl

theorem path_succ (d : List UInt8) (left level dblock : Nat) :
    v.Path hdata d (left + 1) level dblock ↔
      v.expected (v.indexAtLevel dblock level)
      (v.hashBlock hdata (v.hblockAtLevel dblock level)) = d ∧
        v.Path hdata (v.digest (v.hashBlock hdata (v.hblockAtLevel dblock level))) left
          (level + 1) dblock := by
  rw [Path, digits_succ]
  exact Iff.rfl

theorem path_congr {d : List UInt8} {left level dblock dblock' : Nat}
    (hSame : v.positionAtLevel dblock level = v.positionAtLevel dblock' level) :
    v.Path hdata d left level dblock ↔ v.Path hdata d left level dblock' := by
  induction left generalizing d level with
  | zero => exact Iff.rfl
  | succ left ih =>
    have hUp : v.positionAtLevel dblock (level + 1) = v.positionAtLevel dblock' (level + 1) := by
      simp [positionAtLevel_succ, hSame]
    simp [path_succ, indexAtLevel_eq, hblockAtLevel_eq, hSame, hUp, ih hUp]

end Verity

/-- What holds between two calls: the buffer has the content of its block, and trusted blocks lie on
paths to the root digest. -/
structure Verify.Exact (v : Verity) (hdata : List UInt8) (w : Verify Unit) : Prop where
  length : w.trusted.length = v.hdev.num
  buffer : w.block < v.hdev.num → w.data = v.hashBlock hdata w.block
  trusted : ∀ h, w.trusted[h]? = some true → ∃ dblock < v.dataBlocks,
    ∃ l < v.levels, v.hblockAtLevel dblock l = h ∧
    v.Path hdata (v.digest (v.hashBlock hdata h)) (v.levels - (l + 1)) (l + 1) dblock

theorem Verity.initial_exact (v : Verity) (hdata garbage : List UInt8) :
    (v.initial garbage ()).Exact v hdata := by
  refine ⟨length_replicate, fun hLt => absurd hLt (Nat.lt_irrefl _), fun h hTrusted => ?_⟩
  rw [Verity.initial] at hTrusted
  have hMem := mem_of_getElem? hTrusted
  cases (mem_replicate.mp hMem).2

section Verification
variable {v : Verity} {ddata hdata : List UInt8}

theorem setHblock_exact (hHash : v.hdev.Holds hdata) {w : Verify Unit}
    (hExact : w.Exact v hdata) {h : Nat}
    (hLt : h < v.hdev.num) :
    ∃ w', setHblock (v.fixedStorage ddata hdata) w h = (.ok (), w') ∧
    w'.Exact v hdata ∧ w'.trusted = w.trusted ∧
      w'.data = v.hashBlock hdata h := by
  by_cases hEq : w.block = h
  · subst hEq
    exact ⟨w, if_pos rfl, hExact, rfl, hExact.buffer hLt⟩
  have hRead : (v.fixedStorage ddata hdata).readHash w.io w.data h =
      (.done (v.hashBlock hdata h), ()) :=
    Prod.ext (dmCdevRead_inside hHash hLt w.data) rfl
  have hSet : setHblock (v.fixedStorage ddata hdata) w h = (.ok (), { w with
        data := v.hashBlock hdata h, block := h, io := (),
        reads := ⟨h, w.trusted.getD h false, w.data, .done (v.hashBlock hdata h)⟩ ::
          w.reads }) := by
    rw [setHblock, if_neg hEq, hRead]
  exact ⟨_, hSet, ⟨hExact.length, fun _ => rfl, hExact.trusted⟩, rfl, rfl⟩

variable (hv : v.Laid) (hHash : v.hdev.Holds hdata)
include hv hHash

/-- The loop ends well if and only if the blocks on the device are a path from the digest; all
blocks below the level where it ends lie on that path. Otherwise the answer is `EINVAL`. -/
theorem ascend_exact {dblock : Nat} (hIn : dblock < v.dataBlocks)
    {left level : Nat} (hLeft : level + left = v.levels)
    {d : List UInt8} {w : Verify Unit} (hExact : w.Exact v hdata) :
    ∃ r w', ascend v (v.fixedStorage ddata hdata) dblock left level d w = (r, w') ∧
    w'.Exact v hdata ∧
      ((v.Path hdata d left level dblock ∧ ∃ stop, r = .ok stop ∧ stop ≤ v.levels ∧ ∀ l,
        level ≤ l → l < stop →
            v.Path hdata (v.digest (v.hashBlock hdata (v.hblockAtLevel dblock l)))
            (v.levels - (l + 1)) (l + 1) dblock) ∨
        (¬ v.Path hdata d left level dblock ∧ r = .error (.errno .einval))) := by
  induction left generalizing level d w with
  | zero =>
    refine ⟨_, _, rfl, hExact, ?_⟩
    rw [Verity.path_zero]
    by_cases hRoot : d = v.rootDigest
    · exact .inl ⟨hRoot, level, if_pos hRoot, by omega, fun l hl hl' => by omega⟩
    · exact .inr ⟨hRoot, if_neg hRoot⟩
  | succ left ih =>
    have hLt : v.hblockAtLevel dblock level < v.hdev.num := hv.hblockAtLevel_lt hIn (by omega)
    obtain ⟨w1, hSet, hExact1, hTrusted1, hData⟩ :=
      @setHblock_exact v ddata hdata hHash w hExact _ hLt
    rw [ascend, hSet, Verity.path_succ]
    dsimp only
    rw [hData]
    by_cases hSlot : v.expected (v.indexAtLevel dblock level)
      (v.hashBlock hdata (v.hblockAtLevel dblock level)) = d
    · rw [if_neg (not_not.mpr hSlot)]
      have hBit : v.hblockAtLevel dblock level < w1.trusted.length := by
        rw [hExact1.length]; exact hLt
      rcases hGet : w1.trusted[v.hblockAtLevel dblock level]? with _ | bit
      · exact absurd (List.getElem?_eq_none_iff.mp hGet) (by omega)
      cases bit with
      | true =>
        obtain ⟨dblock', hIn', l, hl, hEq, hPath⟩ := hExact1.trusted _ hGet
        obtain ⟨rfl, hPos⟩ := hv.hblockAtLevel_inj hIn' hIn hl (by omega) hEq
        rw [Verity.path_congr hPos, show v.levels - (l + 1) = left by omega] at hPath
        exact ⟨_, _, rfl, hExact1, .inl ⟨⟨hSlot, hPath⟩, l, rfl,
          by omega, fun k hk hk' => by omega⟩⟩
      | false =>
        obtain ⟨r, w', hRun, hExact', hResult⟩ :=
          @ih (level + 1) (by omega)
            (v.digest (v.hashBlock hdata (v.hblockAtLevel dblock level))) w1 hExact1
        refine ⟨r, w', hRun, hExact', ?_⟩
        rcases hResult with ⟨hPath, stop, hOk, hStop, hBelow⟩ | ⟨hNo, hErr⟩
        · refine .inl ⟨⟨hSlot, hPath⟩, stop, hOk, hStop, fun l hl hl' => ?_⟩
          rcases Nat.eq_or_lt_of_le hl with rfl | hl
          · simp [show v.levels - (level + 1) = left by omega, hPath]
          · exact hBelow l hl hl'
        · exact .inr ⟨fun hBoth => hNo hBoth.2, hErr⟩
    · rw [if_pos hSlot]
      exact ⟨_, _, rfl, hExact1, .inr ⟨fun hBoth => hSlot hBoth.1, rfl⟩⟩

/-- One data block: it is accepted if and only if the device has a path from its digest. -/
theorem verityVerify_exact {dblock : Nat} (hIn : dblock < v.dataBlocks)
    (buf : List UInt8) {w : Verify Unit}
    (hExact : w.Exact v hdata) :
    ∃ r w', verityVerify v (v.fixedStorage ddata hdata) w buf dblock = (r, w') ∧ w'.Exact v hdata ∧
      ((v.Path hdata (v.digest buf) v.levels 0 dblock ∧ r = .ok ()) ∨
        (¬ v.Path hdata (v.digest buf) v.levels 0 dblock ∧ r = .error (.errno .einval))) := by
  obtain ⟨r, w1, hRun, hExact1, hResult⟩ :=
    @ascend_exact v ddata hdata hv hHash dblock hIn v.levels 0
      (Nat.zero_add _) (v.digest buf) w hExact
  rw [verityVerify, hRun]
  rcases hResult with ⟨hPath, stop, rfl, hStop, hBelow⟩ | ⟨hNo, rfl⟩
  · refine ⟨_, _, rfl, ⟨(markAsTrusted_length _ _ _ _).trans hExact1.length,
      hExact1.buffer, fun h hMarked => ?_⟩,
      .inl ⟨hPath, rfl⟩⟩
    rcases markAsTrusted_get hMarked with hOld | ⟨l, hl, rfl⟩
    · exact hExact1.trusted h hOld
    · exact ⟨dblock, hIn, l, by omega, rfl, hBelow l (Nat.zero_le l) hl⟩
  · exact ⟨_, _, rfl, hExact1, .inr ⟨hNo, rfl⟩⟩

/-- A range of data blocks is accepted if and only if every one of them is. -/
theorem verityVerifyRange_exact {bs n block : Nat} (hIn : block + n ≤ v.dataBlocks)
    {buf : List UInt8}
    {w : Verify Unit} (hExact : w.Exact v hdata) :
    ∃ r w', verityVerifyRange v (v.fixedStorage ddata hdata) bs n w buf block = (r, w') ∧
    w'.Exact v hdata ∧
      (((∀ i < n, v.Path hdata (v.digest (slice (i * bs) bs buf)) v.levels 0 (block + i)) ∧
        r = .ok ()) ∨
        ((¬ ∀ i < n, v.Path hdata (v.digest (slice (i * bs) bs buf)) v.levels 0 (block + i)) ∧
          r = .error (.errno .einval))) := by
  induction n generalizing w buf block with
  | zero => exact ⟨_, _, rfl, hExact, .inl ⟨fun i hi => absurd hi (Nat.not_lt_zero i), rfl⟩⟩
  | succ n ih =>
    have hFirst : slice (0 * bs) bs buf = buf.take bs := by rw [Nat.zero_mul]; rfl
    have hNext (i : Nat) : slice ((i + 1) * bs) bs buf = slice (i * bs) bs (buf.drop bs) := by
      simp [slice, Nat.add_mul, Nat.add_comm]
    obtain ⟨r1, w1, hOne, hExact1, hResult⟩ :=
      @verityVerify_exact v ddata hdata hv hHash block (by omega) (buf.take bs) w hExact
    rw [verityVerifyRange, hOne]
    rcases hResult with ⟨hPath, rfl⟩ | ⟨hNo, rfl⟩
    · obtain ⟨r, w', hRest, hExact', hResult⟩ := @ih (block + 1) (by omega) (buf.drop bs) w1 hExact1
      refine ⟨r, w', hRest, hExact', ?_⟩
      have hAll : (∀ i < n + 1,
          v.Path hdata (v.digest (slice (i * bs) bs buf)) v.levels 0 (block + i)) ↔
          ∀ i < n, v.Path hdata (v.digest (slice (i * bs) bs (buf.drop bs))) v.levels 0
            (block + 1 + i) := by
        refine ⟨fun h i hi => ?_, fun h i hi => ?_⟩
        · grind
        cases i with
        | zero => rwa [hFirst]
        | succ i =>
          grind
      rw [hAll]
      exact hResult
    · refine ⟨_, _, rfl, hExact1, .inr ⟨fun hAll => hNo ?_, rfl⟩⟩
      have hZero := hAll 0 (succ_pos n)
      rwa [hFirst] at hZero

omit hv hHash
variable {w : Verify Unit} {c : DmCdev}

theorem slice_request (hBits : sectorShift ≤ c.bits) (content : List UInt8) (block num : Nat) :
    slice (preBlocks c block * 512) (num * 512)
    (c.blocks content (firstBlock c block) (blockCount c block num)) =
      slice (c.start * 2 ^ c.bits + block * 512) (num * 512) content := by
  have hSize : 2 ^ c.bits = 2 ^ (c.bits - sectorShift) * 512 := by
    rw [show (512 : Nat) = 2 ^ sectorShift from rfl, ← Nat.pow_add, Nat.sub_add_cancel hBits]
  have hFit : preBlocks c block * 512 + num * 512 ≤ blockCount c block num * 2 ^ c.bits := by
    rw [← Nat.add_mul, hSize, ← Nat.mul_assoc]
    exact Nat.mul_le_mul_right _ (blockCount_covers c block num).1
  rw [DmCdev.blocks, slice_slice hFit]
  congr 1
  have hParts := div_add_mod block (2 ^ (c.bits - sectorShift))
  rw [firstBlock_eq, preBlocks_eq, hSize]
  generalize 2 ^ (c.bits - sectorShift) = m at hParts
  calc (c.start + block / m) * (m * 512) + block % m * 512
      = c.start * (m * 512) + (m * (block / m) + block % m) * 512 := by ring
    _ = c.start * (m * 512) + block * 512 := by rw [hParts]

variable (hv : v.Laid) (hHash : v.hdev.Holds hdata) (hDev : v.ddev = some c)
    (hBits : sectorShift ≤ c.bits)
    (hData : c.Holds ddata)
include hv hHash hDev hBits hData

/-- A request inside of the data blocks is answered with the content of the device if and only if
all data blocks it touches are accepted, and with `EINVAL` otherwise. -/
theorem verityRead_exact {block num : Nat} (hIn : v.InRange block num) (hExact : w.Exact v hdata) :
    ∃ r w', verityRead v (v.fixedStorage ddata hdata) w block num = (r, w') ∧ w'.Exact v hdata ∧
      (((∀ i < blockCount c block num,
        v.Path hdata (v.digest (c.blocks ddata (firstBlock c block + i) 1)) v.levels 0
            (firstBlock c block + i)) ∧
              r = .ok (slice (c.start * 2 ^ c.bits + block * 512) (num * 512) ddata)) ∨
        ((¬ ∀ i < blockCount c block num,
          v.Path hdata (v.digest (c.blocks ddata (firstBlock c block + i) 1)) v.levels 0
            (firstBlock c block + i)) ∧ r = .error (.errno .einval))) := by
  have hRange := blocks_in_range hDev hIn
  have hNum : v.dataBlocks = c.num := by rw [Verity.dataBlocks, hDev]; rfl
  have hBuf : (v.fixedStorage ddata hdata).readData w.io (firstBlock c block)
      (blockCount c block num) =
      (.ok (c.blocks ddata (firstBlock c block) (blockCount c block num)), ()) := by
    rw [Verity.fixedStorage]
    dsimp only
    rw [hDev]
    dsimp only
    rw [dmCdevRead_inside hData (by omega)]
  obtain ⟨r, w', hRun, hExact', hResult⟩ :=
    @verityVerifyRange_exact v ddata hdata hv hHash (2 ^ c.bits)
    (blockCount c block num) (firstBlock c block) hRange
      (c.blocks ddata (firstBlock c block) (blockCount c block num))
    { w with io := () } { hExact with }
  have hAll : (∀ i < blockCount c block num,
      v.Path hdata (v.digest (slice (i * 2 ^ c.bits) (2 ^ c.bits)
        (c.blocks ddata (firstBlock c block) (blockCount c block num)))) v.levels 0
          (firstBlock c block + i)) ↔
      ∀ i < blockCount c block num,
        v.Path hdata (v.digest (c.blocks ddata (firstBlock c block + i) 1)) v.levels 0
        (firstBlock c block + i) :=
    forall₂_congr fun i hi => by rw [c.slice_blocks ddata hi]
  rw [hAll] at hResult
  rw [verityRead, hDev]
  dsimp only
  rw [hBuf]
  dsimp only
  rw [hRun]
  rcases hResult with ⟨hPath, rfl⟩ | ⟨hNo, rfl⟩
  · refine ⟨_, _, rfl, hExact', .inl ⟨hPath, ?_⟩⟩
    rw [slice_request hBits]
  · exact ⟨_, _, rfl, hExact', .inr ⟨hNo, rfl⟩⟩

theorem verityRun_exact (calls : List (Nat × Nat)) (hIn : ∀ call ∈ calls, v.InRange call.1 call.2)
    (hExact : w.Exact v hdata) :
    (verityRun v (v.fixedStorage ddata hdata) calls w).2.Exact v hdata := by
  induction calls generalizing w with
  | nil => exact hExact
  | cons call calls ih =>
    obtain ⟨r, w', hRun, hExact', -⟩ :=
      verityRead_exact hv hHash hDev hBits hData (hIn call (.head _)) hExact
    grind [verityRun]

end Verification

theorem slice_flatMap {len k : Nat} {piece : Nat → List UInt8}
    (hLen : ∀ i, (piece i).length = n) (hi : i < k)
    (hle : len ≤ n) : slice (i * n) len ((range k).flatMap piece) = (piece i).take len := by
  obtain ⟨k, rfl⟩ : ∃ m, k = i + (m + 1) := ⟨k - i - 1, by omega⟩
  have hFront : ((range i).flatMap piece).length = i * n := by
    simp [map_congr_left (fun j _ => hLen j)]
  rw [range_add, flatMap_append, ← hFront, ← Nat.add_zero ((range i).flatMap piece).length,
    slice_append_right, range_succ_eq_map, map_cons, flatMap_cons, slice, drop_zero, Nat.add_zero,
    take_append_of_le_length (by rw [hLen]; exact hle)]

namespace Verity
variable (v : Verity)

/-- A hash block: its digests, each padded with zeros. -/
def packDigests (entries : Nat → Option (List UInt8)) : List UInt8 :=
  (range (2 ^ v.hashPerBlockBits)).flatMap fun i =>
    ((entries i).getD [] ++ zeros (2 ^ (v.hdev.bits - v.hashPerBlockBits))).take
      (2 ^ (v.hdev.bits - v.hashPerBlockBits))

def treeBlock (orig : Nat → List UInt8) (l q : Nat) : List UInt8 :=
  HashPath.block v.digest v.packDigests (2 ^ v.hashPerBlockBits) v.dataBlocks
    (fun i => v.digest (orig i)) l q

def treeRoot (orig : Nat → List UInt8) : List UInt8 :=
  HashPath.entry v.digest v.packDigests (2 ^ v.hashPerBlockBits) v.dataBlocks
    (fun i => v.digest (orig i)) v.levels 0

variable {v}

theorem Laid.digest_fits (hv : v.Laid) :
    v.digestAlgo.length ≤ 2 ^ (v.hdev.bits - v.hashPerBlockBits) := by
  have hBits : v.hashPerBlockBits ≤ v.hdev.bits := by
    refine (Nat.pow_le_pow_iff_right (Nat.le_refl 2)).mp ?_
    exact le_trans (Nat.le_mul_of_pos_left _ v.digestAlgo.length_pos) hv.slots
  refine Nat.le_of_mul_le_mul_right ?_ (Nat.two_pow_pos v.hashPerBlockBits)
  rw [← Nat.pow_add, Nat.sub_add_cancel hBits]
  exact hv.slots

theorem expected_packDigests (hv : v.Laid) (entries : Nat → Option (List UInt8))
    (i : Nat) (d : List UInt8)
    (hi : i < 2 ^ v.hashPerBlockBits) (hEntry : entries i = some d)
    (hLen : d.length = v.digestAlgo.length) :
    v.expected i (v.packDigests entries) = d := by
  have hFits := hv.digest_fits
  rw [expected, packDigests, shiftLeft_eq, slice_flatMap (fun j => ?_) hi hFits]
  · grind
  · simp

theorem digest_length (b : List UInt8) : (v.digest b).length = v.digestAlgo.length :=
  v.digestAlgo.sum_length _

def treePath (v : Verity) (orig : Nat → List UInt8) (dblock left level : Nat) : List (List UInt8) :=
  HashPath.blocksAbove v.digest v.packDigests (2 ^ v.hashPerBlockBits) v.dataBlocks
    (fun i => v.digest (orig i)) left level
    (v.positionAtLevel dblock level)

theorem treePath_succ (orig : Nat → List UInt8) (dblock left level : Nat) :
    v.treePath orig dblock (left + 1) level =
      v.treeBlock orig level (v.positionAtLevel dblock (level + 1)) ::
      v.treePath orig dblock left (level + 1) := by
  rw [treePath, HashPath.blocksAbove, ← positionAtLevel_succ]
  rfl

variable {dblock left level : Nat} {hdata b : List UInt8} {orig : Nat → List UInt8}

theorem treePath_leads (hv : v.Laid) (orig : Nat → List UInt8) (hIn : dblock < v.dataBlocks) :
    HashPath.Leads v.digest v.expected (v.treeRoot orig) (v.digest (orig dblock))
      (HashPath.digits (2 ^ v.hashPerBlockBits) v.levels dblock)
      (v.treePath orig dblock v.levels 0) := by
  have hLeads := @HashPath.blocksAbove_leads _ _ v.digest v.packDigests
    (2 ^ v.hashPerBlockBits) v.dataBlocks
    (fun i => v.digest (orig i)) v.expected (fun d => d.length = v.digestAlgo.length)
      (expected_packDigests hv)
    digest_length (fun q => digest_length (orig q))
      (Nat.two_pow_pos v.hashPerBlockBits) v.levels 0 dblock
    (by rw [Nat.pow_zero, Nat.mul_one]; exact hIn)
  have hTop : dblock / (2 ^ v.hashPerBlockBits) ^ v.levels = 0 := by
    rw [← Nat.pow_mul, Nat.mul_comm]
    exact div_eq_of_lt (lt_of_lt_of_le hIn hv.top)
  rw [hTop, Nat.zero_add] at hLeads
  rw [treePath, positionAtLevel_zero]
  exact hLeads

theorem devicePath_eq_iff {hdata : List UInt8} (orig : Nat → List UInt8) (dblock left level : Nat) :
    v.devicePath hdata dblock left level = v.treePath orig dblock left level ↔
    ∀ l, level ≤ l → l < level + left →
        v.hashBlock hdata (v.hblockAtLevel dblock l) =
        v.treeBlock orig l (v.positionAtLevel dblock (l + 1)) := by
  induction left generalizing level with
  | zero => exact ⟨fun _ l hl hl' => by omega, fun _ => rfl⟩
  | succ left ih =>
    rw [devicePath, treePath_succ, List.cons.injEq, ih]
    refine ⟨fun ⟨hHead, hTail⟩ l hl hl' => ?_,
      fun h => ⟨h level (le_refl _) (by omega), fun l hl hl' => h l (by omega) (by omega)⟩⟩
    rcases Nat.eq_or_lt_of_le hl with rfl | hl
    · exact hHead
    · exact hTail l hl (by omega)

/-- The blocks that occur: those of the devices, and those of the tree with its data. -/
def Occurs (v : Verity) (c : DmCdev) (ddata hdata : List UInt8)
    (orig : Nat → List UInt8) (b : List UInt8) : Prop :=
  ∃ i < v.dataBlocks, b = c.blocks ddata i 1 ∨ b = orig i ∨
    ∃ l < v.levels, b = v.hashBlock hdata (v.hblockAtLevel i l) ∨
      b = v.treeBlock orig l (v.positionAtLevel i (l + 1))

theorem devicePath_mem (h : b ∈ v.devicePath hdata dblock left level) :
    ∃ l < level + left, b = v.hashBlock hdata (v.hblockAtLevel dblock l) := by
  induction left generalizing level with
  | zero => cases h
  | succ left ih =>
    rcases mem_cons.mp h with rfl | h
    · exact ⟨level, by omega, rfl⟩
    · obtain ⟨l, hl, hb⟩ := ih h
      exact ⟨l, by omega, hb⟩

theorem treePath_mem (h : b ∈ v.treePath orig dblock left level) :
    ∃ l < level + left, b = v.treeBlock orig l (v.positionAtLevel dblock (l + 1)) := by
  induction left generalizing level with
  | zero => cases h
  | succ left ih =>
    rw [treePath_succ] at h
    rcases mem_cons.mp h with rfl | h
    · exact ⟨level, by omega, rfl⟩
    · obtain ⟨l, hl, hb⟩ := ih h
      exact ⟨l, by omega, hb⟩

/-- The device has a path from a data block to the root of a tree if and only if it has the data
block and the hash blocks of the tree. -/
theorem path_iff_tree (hv : v.Laid) {c : DmCdev} {ddata : List UInt8}
    (hRoot : v.rootDigest = v.treeRoot orig)
    (hInj : Set.InjOn v.digest {b | v.Occurs c ddata hdata orig b})
    (hIn : dblock < v.dataBlocks) :
    v.Path hdata (v.digest (c.blocks ddata dblock 1)) v.levels 0 dblock ↔
      c.blocks ddata dblock 1 = orig dblock ∧ ∀ l < v.levels,
        v.hashBlock hdata (v.hblockAtLevel dblock l) =
        v.treeBlock orig l (v.positionAtLevel dblock (l + 1)) := by
  have hTree := treePath_leads hv orig hIn
  have hPaths := @devicePath_eq_iff v hdata orig dblock v.levels 0
  rw [Path, positionAtLevel_zero, hRoot]
  refine ⟨fun hPath => ?_, fun ⟨hData, hBlocks⟩ => ?_⟩
  · have hDevice : ∀ b ∈ v.devicePath hdata dblock v.levels 0, v.Occurs c ddata hdata orig b := by
      intro b hb
      obtain ⟨l, hl, hEq⟩ := devicePath_mem hb
      exact ⟨dblock, hIn, .inr (.inr ⟨l, by omega, .inl hEq⟩)⟩
    have hOwn : ∀ b ∈ v.treePath orig dblock v.levels 0, v.Occurs c ddata hdata orig b := by
      intro b hb
      obtain ⟨l, hl, hEq⟩ := treePath_mem hb
      exact ⟨dblock, hIn, .inr (.inr ⟨l, by omega, .inr hEq⟩)⟩
    obtain ⟨hSame, hDigest⟩ := hPath.unique hInj hTree hDevice hOwn
    refine ⟨hInj ⟨dblock, hIn, .inl rfl⟩ ⟨dblock, hIn, .inr (.inl rfl)⟩ hDigest, fun l hl => ?_⟩
    exact hPaths.mp hSame l (Nat.zero_le l) (by omega)
  · simp [hData, hPaths.mpr fun l _ hl => hBlocks l (by omega), hTree]

end Verity

/-- The row describes its data: the blocks have a size of a power of two, at least a sector, and
the target is not longer than they are. -/
structure VerityArgs.Covers (args : VerityArgs) (size : Nat) : Prop where
  power : ∃ k, sectorShift ≤ k ∧ args.dataBlockSize = 2 ^ k
  length : size * 512 ≤ args.numBlocks * args.dataBlockSize

theorem dmParseRow_ok
    (h : dmParseRow dmSize base size args = some t) :
    verityCreate args = .ok t.verity ∧ t.size = size := by
  rw [dmParseRow] at h
  split at h
  · cases h
  split at h
  · cases h
  cases hCreate : verityCreate args with
  | error e => rw [hCreate] at h; cases h
  | ok v =>
    rw [hCreate] at h
    injection h with h
    grind

theorem VerityArgs.Covers.ddev {args : VerityArgs} {size : Nat}
    (hCovers : args.Covers size) {v : Verity}
    (h : verityCreate args = .ok v) :
    ∃ c, v.ddev = some c ∧ sectorShift ≤ c.bits ∧ c.start = 0 ∧
    c.num = args.numBlocks ∧ args.dataBlockSize = 2 ^ c.bits := by
  obtain ⟨hOpen, -⟩ := verityCreate_ok h
  obtain ⟨k, hk, hPow⟩ := hCovers.power
  have hSize : ¬ (args.dataBlockSize = 0 ∨ args.dataBlockSize &&& (args.dataBlockSize - 1) ≠
      0) := by simp [hPow]
  have hLog : Nat.log2 args.dataBlockSize = k := by rw [hPow]; exact log2_two_pow
  rw [dmCdevOpen, if_neg hSize, hLog, if_neg (by omega)] at hOpen
  split at hOpen
  · cases hOpen
  split at hOpen
  · cases hOpen
  · injection hOpen with hOpen
    exact ⟨_, hOpen.symm, hk, rfl, rfl, hPow⟩

/-- Block `i` has a byte of the request. -/
def Touches (blockSize block num i : Nat) : Prop :=
  i * blockSize < (block + num) * 512 ∧ block * 512 < (i + 1) * blockSize

theorem touches_iff (hBits : sectorShift ≤ c.bits) (block num i : Nat) :
    Touches (2 ^ c.bits) block num i ↔ firstBlock c block ≤ i ∧
    i < firstBlock c block + blockCount c block num := by
  have hSize : 2 ^ c.bits = 2 ^ (c.bits - sectorShift) * 512 := by
    rw [show (512 : Nat) = 2 ^ sectorShift from rfl, ← Nat.pow_add, Nat.sub_add_cancel hBits]
  obtain ⟨hCover, hTight⟩ := blockCount_covers c block num
  have hParts := div_add_mod block (2 ^ (c.bits - sectorShift))
  have hm : 0 < 2 ^ (c.bits - sectorShift) := Nat.two_pow_pos _
  rw [Touches, hSize, ← Nat.mul_assoc, ← Nat.mul_assoc, Nat.mul_lt_mul_right (by decide),
    Nat.mul_lt_mul_right (by decide)]
  rw [preBlocks_eq] at hCover hTight
  rw [firstBlock_eq]
  generalize blockCount c block num = count at *
  generalize 2 ^ (c.bits - sectorShift) = m at *
  have hEnd : block + num ≤ (block / m + count) * m ∧
      (block / m + count) * m < block + num + m := by
    rw [Nat.add_mul, Nat.mul_comm (block / m)]
    omega
  refine ⟨fun ⟨hStart, hStop⟩ => ⟨?_, ?_⟩, fun ⟨hStart, hStop⟩ => ⟨?_, ?_⟩⟩
  · exact Nat.lt_succ_iff.mp ((Nat.div_lt_iff_lt_mul hm).mpr hStop)
  · exact Nat.lt_of_mul_lt_mul_right (lt_of_lt_of_le hStart hEnd.1)
  · have hNext := Nat.mul_le_mul_right m (succ_le_of_lt hStop)
    rw [succ_mul] at hNext
    omega
  · exact (Nat.div_lt_iff_lt_mul hm).mp (lt_succ_of_le hStart)

theorem markDigest_length (bytes : List UInt8) : ((bytes.headD 0 + 10) :: zeros 63).length = 64 :=
  rfl
theorem wideDigest_length (bytes : List UInt8) : (bytes.headD 0 :: zeros 63).length = 64 := rfl
theorem sixtyFour_pos : 0 < 64 := by decide

/-- A digest that tells blocks apart by their first byte. -/
def markDigest : Digest :=
  { length := 64, sum := fun bytes => (bytes.headD 0 + 10) :: zeros 63, length_pos := sixtyFour_pos,
    sum_length := markDigest_length }

def numberedSectors : VerityArgs :=
  { dataSize := 4608, hashSize := 2048, dataBlockSize := 512, hashBlockSize := 512,
    numBlocks := 9, hashStart := 1,
    digestAlgo := markDigest, rootDigest := 31 :: zeros 63, salt := [] }

def nineBlocks : Verity :=
  { ddev := some { size := 4608, start := 0, num := 9, bits := 9 },
    hdev := { size := 2048, start := 1, num := 3, bits := 9 },
    digestAlgo := markDigest, rootDigest := 31 :: zeros 63, salt := [], hashPerBlockBits := 3,
    hashLevelBlock := [1, 0] }

def nineTarget : DmTarget := { base := 0, size := 9, verity := nineBlocks }

theorem nineTarget_parsed : dmParseRow 0 0 9 numberedSectors = some nineTarget := rfl

/-- Data blocks that differ in their first byte. -/
def numbered (i : Nat) : List UInt8 := UInt8.ofNat (i + 1) :: zeros 511

def nineData : List UInt8 := (range 9).flatMap numbered

/-- Behind its first block, the hash device has the tree from its top block on. -/
def nineHashes : List UInt8 :=
  zeros 512 ++ nineBlocks.treeBlock numbered 1 0 ++ nineBlocks.treeBlock numbered 0 0 ++
    nineBlocks.treeBlock numbered 0 1

def nineOccurring : List (List UInt8) :=
  (range 9).map numbered ++
    [nineBlocks.treeBlock numbered 0 0, nineBlocks.treeBlock numbered 0 1,
      nineBlocks.treeBlock numbered 1 0]

theorem nineOccurring_distinct :
    ∀ a ∈ nineOccurring, ∀ b ∈ nineOccurring, nineBlocks.digest a = nineBlocks.digest b →
    a = b := by
  decide +kernel

theorem nineBlocks_data : ∀ i < 9, slice (i * 512) 512 nineData = numbered i := by decide +kernel

theorem nineBlocks_hashes :
    ∀ i < 9, ∀ l < 2, nineBlocks.hashBlock nineHashes (nineBlocks.hblockAtLevel i l) =
      nineBlocks.treeBlock numbered l (nineBlocks.positionAtLevel i (l + 1)) ∧
    nineBlocks.treeBlock numbered l (nineBlocks.positionAtLevel i (l + 1)) ∈ nineOccurring := by
  decide +kernel

theorem nineBlocks_occur {b : List UInt8}
    (h : nineBlocks.Occurs { size := 4608, start := 0, num := 9, bits := 9 } nineData nineHashes
      numbered b) :
    b ∈ nineOccurring := by
  have hNumbered : ∀ i < 9, numbered i ∈ nineOccurring := by decide +kernel
  have hBlocks : ∀ i < 9, (DmCdev.mk 4608 0 9 9).blocks nineData i 1 ∈ nineOccurring := by
    decide +kernel
  obtain ⟨i, hi, rfl | rfl | ⟨l, hl, rfl | rfl⟩⟩ := h
  · exact hBlocks i hi
  · exact hNumbered i hi
  · rw [(nineBlocks_hashes i hi l hl).1]
    exact (nineBlocks_hashes i hi l hl).2
  · exact (nineBlocks_hashes i hi l hl).2

def wideDigest : Digest :=
  { length := 64, sum := fun bytes => bytes.headD 0 :: zeros 63, length_pos := sixtyFour_pos,
    sum_length := wideDigest_length }

def nineSectors (numBlocks : Nat) : VerityArgs :=
  { dataSize := 4608, hashSize := 2048, dataBlockSize := 512, hashBlockSize := 512,
    numBlocks := numBlocks, hashStart := 1,
    digestAlgo := wideDigest, rootDigest := zeros 64, salt := [] }

def twoBlocks : Verity :=
  { ddev := some { size := 4608, start := 0, num := 2, bits := 9 },
    hdev := { size := 2048, start := 1, num := 1, bits := 9 },
    digestAlgo := wideDigest, rootDigest := zeros 64, salt := [],
    hashPerBlockBits := 3, hashLevelBlock := [0] }

end Barebox.Dm
