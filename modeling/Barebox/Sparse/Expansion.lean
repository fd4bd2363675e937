import Barebox.Data.Memory
import Barebox.Sparse.Image

/-! What a sparse image stands for, and that reading it piece by piece writes exactly
that, for images in which no checksum chunk and, behind the first data chunk, no empty
data chunk is followed by another chunk. -/
namespace Barebox.Sparse
open Bytes List Memory SparseHeader

inductive Body where
  | raw (blocks : Nat) (data : List UInt8)
  | fill (blocks : Nat) (value : List UInt8)
  | dontCare (blocks : Nat)
  | crc32 (value : List UInt8)
  deriving DecidableEq

namespace Body

def chunkType : Body → Nat
  | raw _ _ => chunkTypeRaw
  | fill _ _ => chunkTypeFill
  | dontCare _ => chunkTypeDontCare
  | crc32 _ => chunkTypeCrc32

def blocks : Body → Nat
  | raw n _ => n
  | fill n _ => n
  | dontCare n => n
  | crc32 _ => 0

def payload : Body → List UInt8
  | raw _ data => data
  | fill _ value => value
  | dontCare _ => []
  | crc32 value => value

def Fits (blkSz : Nat) : Body → Prop
  | raw n data => data.length = blkSz * n
  | fill _ value => value.length = 4
  | dontCare _ => True
  | crc32 value => value.length = 4

instance (blkSz : Nat) : (body : Body) → Decidable (body.Fits blkSz)
  | raw n data => inferInstanceAs (Decidable (data.length = blkSz * n))
  | fill _ value => inferInstanceAs (Decidable (value.length = 4))
  | dontCare _ => inferInstanceAs (Decidable True)
  | crc32 value => inferInstanceAs (Decidable (value.length = 4))

def content (blkSz : Nat) : Body → List UInt8
  | raw _ data => data
  | fill n value => repeated (blkSz * n / 4) value
  | dontCare _ => []
  | crc32 _ => []

end Body

structure Chunk where
  reserved : Nat
  extra : List UInt8
  body : Body
  deriving DecidableEq

structure Chunk.Fits (blkSz chunkHdrSz : Nat) (c : Chunk) : Prop where
  body : c.body.Fits blkSz
  header : ChunkHeader.size + c.extra.length = chunkHdrSz
  blocks : c.body.blocks < 4294967296
  total : chunkHdrSz + c.body.payload.length < 4294967296

def Chunk.encode (chunkHdrSz : Nat) (c : Chunk) : List UInt8 :=
  (le 2 c.body.chunkType ++
    (le 2 c.reserved ++ (le 4 c.body.blocks ++ le 4 (chunkHdrSz + c.body.payload.length)))) ++
    (c.extra ++ c.body.payload)

def encodeChunks (chunkHdrSz : Nat) (cs : List Chunk) : List UInt8 :=
  cs.flatMap (Chunk.encode chunkHdrSz)

def blocks (cs : List Chunk) : Nat := (cs.map fun c => c.body.blocks).sum

/-- The reference: chunk by chunk, an area without content keeps its bytes. -/
def expand (blkSz : Nat) : Nat → List Chunk → Memory → Memory
  | _, [], out => out
  | pos, c :: cs, out =>
      expand blkSz (pos + blkSz * c.body.blocks) cs (store pos (c.body.content blkSz) out)

structure Image where
  minorVersion : Nat
  imageChecksum : Nat
  extra : List UInt8
  chunkHdrSz : Nat
  blkSz : Nat
  chunks : List Chunk
  fileHdrSz_lt : size + extra.length < 65536
  chunkHdrSz_le : ChunkHeader.size ≤ chunkHdrSz
  chunkHdrSz_lt : chunkHdrSz < 65536
  blkSz_pos : 0 < blkSz
  blkSz_lt : blkSz < 4294967296
  blkSz_words : blkSz % 4 = 0
  totalBlks_lt : blocks chunks < 4294967296
  totalChunks_lt : chunks.length < 4294967296
  fits : ∀ c ∈ chunks, c.Fits blkSz chunkHdrSz

namespace Image

def header (img : Image) : SparseHeader :=
  ⟨size + img.extra.length, img.chunkHdrSz, img.blkSz, blocks img.chunks, img.chunks.length⟩

def encodeHeader (img : Image) : List UInt8 :=
  le 4 0xed26ff3a ++
    (le 2 1 ++
      (le 2 img.minorVersion ++ (le 2 img.header.fileHdrSz ++ (le 2 img.header.chunkHdrSz ++
    (le 4 img.header.blkSz ++
      (le 4 img.header.totalBlks ++ (le 4 img.header.totalChunks ++ le 4 img.imageChecksum)))))))

def encode (img : Image) : List UInt8 :=
  img.encodeHeader ++ (img.extra ++ encodeChunks img.chunkHdrSz img.chunks)

def expand (img : Image) (out : Memory) : Memory := Sparse.expand img.blkSz 0 img.chunks out

end Image

def writes (pieces : List (Nat × List UInt8)) (out : Memory) : Memory :=
  pieces.foldl (fun out piece => store piece.1 piece.2 out) out

/-- The chunks that `sparse_seek` gets past. Its handling of a checksum chunk leaves the
checksum to be read as the next header, and an empty data chunk that it finds for a read
makes that read deliver nothing. The first data chunk is found for `sparse_image_open`. -/
def readable : (opening : Bool) → List Chunk → Bool
  | _, [] => true
  | opening, ⟨_, _, .raw n _⟩ :: cs | opening, ⟨_, _, .fill n _⟩ :: cs =>
    if n = 0 && !opening then cs.isEmpty else readable false cs
  | opening, ⟨_, _, .dontCare _⟩ :: cs => readable opening cs
  | _, ⟨_, _, .crc32 _⟩ :: cs => cs.isEmpty

structure File.Ahead (f : File) (bytes : List UInt8) : Prop where
  pos_le : f.pos ≤ f.data.length
  drop : f.data.drop f.pos = bytes

variable {f : File} {bytes rest back data buf todo : List UInt8}
    {c : Chunk} {blkSz n reads pos a : Nat}
    {si' : SparseImage} {cs : List Chunk} {effect : Memory → Memory}

theorem File.Ahead.skip (h : f.Ahead (bytes ++ rest)) :
    f.pos + bytes.length ≤ f.data.length ∧
    File.Ahead { f with pos := f.pos + bytes.length } rest := by
  have hLen := congrArg List.length h.drop
  have hLe := h.pos_le
  simp only [length_drop, length_append] at hLen
  refine ⟨by omega, ⟨?_, ?_⟩⟩
  · dsimp only
    omega
  · dsimp only
    rw [← drop_drop, h.drop, drop_left]

theorem readFull_ahead (h : f.Ahead (bytes ++ rest)) (hShort : bytes.length < 2147483648) :
    readFull f bytes.length = .ok (bytes, { f with pos := f.pos + bytes.length }) := by
  have hSlice : slice f.pos bytes.length f.data = bytes := by simp [slice, h.drop]
  rw [readFull, hSlice]
  exact if_neg (by omega)

theorem lseek_ahead {f : File} {bytes rest : List UInt8} (h : f.Ahead (bytes ++ rest)) :
    lseek f (f.pos + (bytes.length : Nat)) = .ok { f with pos := f.pos + bytes.length } := by
  have hLe := h.skip.1
  rw [lseek, if_neg (by omega)]
  congr 2

theorem chunkHeader_encode {chunkType reserved blocks total : Nat} (hType : chunkType < 65536)
    (hBlocks : blocks < 4294967296) (hTotal : total < 4294967296) :
    ChunkHeader.ofBytes (le 2 chunkType ++ (le 2 reserved ++ (le 4 blocks ++ le 4 total))) =
      ⟨chunkType, blocks, total⟩ := by
  have h : ChunkHeader.ofBytes (le 2 chunkType ++ (le 2 reserved ++ (le 4 blocks ++ le 4 total))) =
      ⟨ofLe (le 2 chunkType), ofLe (le 4 blocks), ofLe (le 4 total)⟩ := rfl
  rw [h, ofLe_le_of_lt (by omega), ofLe_le_of_lt (by omega), ofLe_le_of_lt (by omega)]

theorem Body.chunkType_lt (body : Body) : body.chunkType < 65536 := by
  cases body <;> simp [Body.chunkType, chunkTypeRaw, chunkTypeFill,
    chunkTypeDontCare, chunkTypeCrc32]

theorem Image.header_encode (img : Image) (rest : List UInt8) :
    ofBytes (slice 0 size (img.encodeHeader ++ rest)) = img.header := by
  have h : ofBytes (slice 0 size (img.encodeHeader ++ rest)) =
      ⟨ofLe (le 2 img.header.fileHdrSz), ofLe (le 2 img.header.chunkHdrSz),
        ofLe (le 4 img.header.blkSz),
        ofLe (le 4 img.header.totalBlks), ofLe (le 4 img.header.totalChunks)⟩ := rfl
  rw [h, ofLe_le_of_lt img.fileHdrSz_lt, ofLe_le_of_lt img.chunkHdrSz_lt,
    ofLe_le_of_lt img.blkSz_lt,
    ofLe_le_of_lt img.totalBlks_lt, ofLe_le_of_lt img.totalChunks_lt]

inductive Loaded (si : SparseImage) : List UInt8 → List UInt8 → Prop where
  | raw {todo rest : List UInt8} (hType : si.chunk.chunkType = chunkTypeRaw)
      (hFile : si.file.Ahead (todo ++ rest)) :
      Loaded si todo rest
  | fill {rest : List UInt8} (n : Nat) (hType : si.chunk.chunkType = chunkTypeFill)
      (hValue : si.fillVal.length = 4)
      (hFile : si.file.Ahead rest) : Loaded si (repeated n si.fillVal) rest

/-- The context has `todo` left of the current chunk and the chunks `cs` behind it. -/
structure Reading (si : SparseImage) (todo : List UInt8) (cs : List Chunk) : Prop where
  words : si.sparse.blkSz % 4 = 0
  blkSz_pos : 0 < si.sparse.blkSz
  fits : ∀ c ∈ cs, c.Fits si.sparse.blkSz si.sparse.chunkHdrSz
  left : si.sparse.totalChunks = si.processedChunks + cs.length
  remaining : si.remaining = todo.length
  room : si.pos + todo.length + si.sparse.blkSz * blocks cs < 18446744073709551616

def behind (back : List UInt8) (si : SparseImage) (cs : List Chunk) : List UInt8 :=
  encodeChunks si.sparse.chunkHdrSz cs ++ back

variable {si : SparseImage}

theorem Loaded.ahead_of_nil (h : Loaded si [] rest) : si.file.Ahead rest := by
  generalize hTodo : [] = todo at h
  cases h with
  | raw _ hFile =>
    grind
  | fill _ _ _ hFile => exact hFile

def SparseImage.entered (si : SparseImage) (c : Chunk) (file : File) : SparseImage :=
  { si with
    file := file
    processedChunks := si.processedChunks + 1
    chunk := ⟨c.body.chunkType, c.body.blocks, si.sparse.chunkHdrSz + c.body.payload.length⟩ }

theorem SparseImage.payload_entered (file : File)
    (h : c.Fits si.sparse.blkSz si.sparse.chunkHdrSz) :
    (si.entered c file).payload = c.body.payload.length := by
  have hTotal := h.total
  simp only [SparseImage.payload, SparseImage.entered]
  omega

theorem readChunkHeader_ahead (hFits : c.Fits si.sparse.blkSz si.sparse.chunkHdrSz)
    (h : si.file.Ahead (c.encode si.sparse.chunkHdrSz ++ rest)) :
    ∃ file, readChunkHeader si = .ok (si.entered c file) ∧ file.Ahead (c.body.payload ++ rest) := by
  have hHeader := @chunkHeader_encode _ c.reserved _ _ c.body.chunkType_lt hFits.blocks hFits.total
  rw [Chunk.encode] at h
  generalize hBytes : le 2 c.body.chunkType ++ (le 2 c.reserved ++ (le 4 c.body.blocks ++
    le 4 (si.sparse.chunkHdrSz + c.body.payload.length))) = bytes at h hHeader
  have hLen : bytes.length = ChunkHeader.size := by
    rw [← hBytes]
    simp [ChunkHeader.size]
  simp only [append_assoc] at h
  have hRead := readFull_ahead h (by rw [hLen]; decide)
  have hSkip := h.skip.2
  have hSize := hFits.header
  rw [hLen] at hRead hSkip
  simp only [readChunkHeader, hRead, hLen, lt_self_iff_false, if_false, hHeader]
  split
  next hLarger =>
    have hExtra : si.sparse.chunkHdrSz - ChunkHeader.size = c.extra.length := by omega
    have hSeek := lseek_ahead hSkip
    rw [hExtra, hSeek]
    exact ⟨_, rfl, hSkip.skip.2⟩
  next hSame =>
    have hNone : c.extra = [] := eq_nil_of_length_eq_zero (by omega)
    rw [hNone] at hSkip
    exact ⟨_, rfl, hSkip⟩

theorem repeated_length (n : Nat) (bytes : List UInt8) :
    (repeated n bytes).length = n * bytes.length := by
  simp [repeated]

theorem repeated_add (m n : Nat) (bytes : List UInt8) :
    repeated (m + n) bytes = repeated m bytes ++ repeated n bytes := by
  grind [repeated, replicate_add]

variable {value : List UInt8} {opening : Bool} {file : File}

theorem fill_length (hWords : blkSz % 4 = 0) (hValue : value.length = 4) :
    (repeated (blkSz * n / 4) value).length = blkSz * n := by
  have hFour : blkSz * n % 4 = 0 := by simp [Nat.mul_mod, hWords]
  rw [repeated_length, hValue]
  omega

theorem behind_cons (back : List UInt8) (si : SparseImage) (c : Chunk) (cs : List Chunk) :
    behind back si (c :: cs) = c.encode si.sparse.chunkHdrSz ++ behind back si cs := by
  simp [behind, encodeChunks]

theorem blocks_cons (c : Chunk) (cs : List Chunk) :
    blocks (c :: cs) = c.body.blocks + blocks cs := by simp [blocks]

def work (blkSz : Nat) (todo : List UInt8) (cs : List Chunk) : Nat :=
  todo.length + blkSz * blocks cs + cs.length

/-- What `sparse_seek` comes to in front of some chunks: the end of the image, or a chunk
with data. -/
inductive Sought (back : List UInt8) (opening : Bool) (si : SparseImage) (cs : List Chunk) :
    Except Int (Bool × SparseImage) → Prop where
  | ended (si' : SparseImage) (hReading : Reading si' [] []) (hSparse : si'.sparse = si.sparse)
      (hExpand : ∀ out, expand si.sparse.blkSz si.pos cs out = out) : Sought back opening si cs
        (.ok (false, si'))
  | found (si' : SparseImage) (todo : List UInt8) (cs' : List Chunk)
      (hReading : Reading si' todo cs')
      (hLoaded : Loaded si' todo (behind back si' cs')) (hSparse : si'.sparse = si.sparse)
      (hReadable : readable false cs' = true) (hEmpty : opening = false → todo = [] → cs' = [])
      (hWork : work si.sparse.blkSz todo cs' < work si.sparse.blkSz [] cs)
      (hExpand : ∀ out, expand si.sparse.blkSz si.pos cs out =
        expand si.sparse.blkSz (si'.pos + todo.length) cs' (store si'.pos todo out))
      (hFrom : ∀ P : List UInt8 → Prop, (∀ c ∈ cs, P (c.body.content si.sparse.blkSz)) →
        P todo ∧ ∀ c ∈ cs', P (c.body.content si.sparse.blkSz)) :
      Sought back opening si cs (.ok (true, si'))

theorem Reading.enter (si' : SparseImage) {todo : List UInt8} {c : Chunk} {cs : List Chunk}
    (h : Reading si [] (c :: cs)) (hSparse : si'.sparse = si.sparse)
    (hPos : si'.pos + todo.length = si.pos + si.sparse.blkSz * c.body.blocks)
    (hProcessed : si'.processedChunks = si.processedChunks + 1)
    (hRemaining : si'.remaining = todo.length) :
    Reading si' todo cs := by
  have hRoom := h.room
  have hLeft := h.left
  rw [blocks_cons, Nat.mul_add, length_nil] at hRoom
  rw [length_cons] at hLeft
  refine ⟨?_, ?_, ?_, ?_, hRemaining, ?_⟩
  · simp [hSparse, h.words]
  · simp [hSparse, h.blkSz_pos]
  · rw [hSparse]
    exact fun c' hMem => h.fits c' (.tail _ hMem)
  all_goals
    simp [hSparse]
    omega

theorem Reading.found {back : List UInt8} {si' : SparseImage} {c : Chunk} {cs : List Chunk}
    (hReading : Reading si [] (c :: cs)) (hSparse : si'.sparse = si.sparse)
    (hPos : si'.pos = si.pos)
    (hProcessed : si'.processedChunks = si.processedChunks + 1)
    (hLen : (c.body.content si.sparse.blkSz).length = si.sparse.blkSz * c.body.blocks)
    (hRemaining : si'.remaining = si.sparse.blkSz * c.body.blocks)
    (hLoaded : Loaded si' (c.body.content si.sparse.blkSz) (behind back si' cs))
    (hReadable : (if c.body.blocks = 0 && !opening then cs.isEmpty else readable false cs) = true) :
    Sought back opening si (c :: cs) (.ok (true, si')) := by
  have hEnter := hReading.enter si' hSparse (by rw [hPos, hLen]) hProcessed
    (hRemaining.trans hLen.symm)
  refine .found si' _ cs hEnter hLoaded hSparse ?_ ?_ ?_ ?_ fun P hP =>
    ⟨hP c (.head _), fun c' hMem => hP c' (.tail _ hMem)⟩
  · split at hReadable
    next => rw [List.isEmpty_iff.mp hReadable, readable]
    next => exact hReadable
  · intro hOpening hNil
    rw [hNil, length_nil] at hLen
    have hZero : c.body.blocks = 0 := by
      rcases Nat.mul_eq_zero.mp hLen.symm with hBlk | hBlocks
      · exact absurd hBlk hReading.blkSz_pos.ne'
      · exact hBlocks
    grind
  · simp [work, blocks_cons, hLen, Nat.mul_add]
  · intro out
    rw [expand, hLen, hPos]

section Kinds
variable {si entered : SparseImage} {left : Nat} (hEnter : readChunkHeader si = .ok entered)
include hEnter

theorem sparseSeekFrom_raw (hType : entered.chunk.chunkType = chunkTypeRaw)
    (hPayload : entered.payload = entered.chunkDataSz) :
    sparseSeekFrom (left + 1) si = .ok (true, { entered with remaining := entered.payload }) := by
  simp only [sparseSeekFrom, hEnter, hType, if_true, hPayload, ne_eq, not_true_eq_false, if_false]

theorem sparseSeekFrom_fill (hType : entered.chunk.chunkType = chunkTypeFill)
    (hPayload : entered.payload = 4)
    (hLen : value.length = 4) (hRead : readFull entered.file 4 = .ok (value, file)) :
    sparseSeekFrom (left + 1) si =
      .ok (true,
        { entered with file := file, fillVal := value, remaining := entered.chunkDataSz }) := by
  have hRaw : chunkTypeFill ≠ chunkTypeRaw := by decide
  simp [sparseSeekFrom, hEnter, hType, if_neg hRaw, hPayload, hRead, hLen]

theorem sparseSeekFrom_dontCare (hType : entered.chunk.chunkType = chunkTypeDontCare) :
    sparseSeekFrom (left + 1) si = sparseSeekFrom left (entered.advance entered.chunkDataSz) := by
  have hRaw : chunkTypeDontCare ≠ chunkTypeRaw := by decide
  have hFill : chunkTypeDontCare ≠ chunkTypeFill := by decide
  simp [sparseSeekFrom, hEnter, hType, if_neg hRaw, if_neg hFill]

theorem sparseSeekFrom_crc32 (hType : entered.chunk.chunkType = chunkTypeCrc32)
    (hPayload : entered.payload = 4)
    (hSeek : lseek entered.file (entered.file.pos + loff entered.chunkDataSz) = .ok file) :
    sparseSeekFrom (left + 1) si = sparseSeekFrom left { entered with file := file } := by
  have hRaw : chunkTypeCrc32 ≠ chunkTypeRaw := by decide
  have hFill : chunkTypeCrc32 ≠ chunkTypeFill := by decide
  have hDontCare : chunkTypeCrc32 ≠ chunkTypeDontCare := by decide
  simp [sparseSeekFrom, hEnter, hType, if_neg hRaw, if_neg hFill, if_neg hDontCare, hPayload, hSeek]

end Kinds

variable {si : SparseImage}

theorem Sought.pass (si' : SparseImage) {result : Except Int (Bool × SparseImage)}
    (hSparse : si'.sparse = si.sparse)
    (hPos : si'.pos = si.pos + si.sparse.blkSz * c.body.blocks)
    (hContent : c.body.content si.sparse.blkSz = [])
    (h : Sought back opening si' cs result) : Sought back opening si (c :: cs) result := by
  have hExpand (out : Memory) : expand si.sparse.blkSz si.pos (c :: cs) out =
      expand si'.sparse.blkSz si'.pos cs out := by rw [expand, hContent, store_nil, hSparse, hPos]
  cases h with
  | ended si₂ hReading hSparse' hExpand' =>
    exact .ended si₂ hReading (hSparse'.trans hSparse) fun out => (hExpand out).trans (hExpand' out)
  | found si₂ todo cs₂ hReading hLoaded hSparse' hReadable hEmpty hWork hExpand' hFrom =>
    rw [hSparse] at hFrom
    refine .found si₂ todo cs₂ hReading hLoaded (hSparse'.trans hSparse) hReadable hEmpty ?_ ?_
      fun P hP => hFrom P fun c' hMem => hP c' (.tail _ hMem)
    · rw [hSparse] at hWork
      refine hWork.trans ?_
      simp [work, blocks_cons, Nat.mul_add]
      omega
    · intro out
      rw [hExpand, hExpand', hSparse]

theorem sparseSeekFrom_sought (back : List UInt8) (opening : Bool)
    (cs : List Chunk) (si : SparseImage)
    (hReading : Reading si [] cs) (hFile : si.file.Ahead (behind back si cs))
    (hReadable : readable opening cs = true) :
    Sought back opening si cs (sparseSeekFrom cs.length si) := by
  induction cs generalizing si with
  | nil => exact .ended si hReading rfl fun out => rfl
  | cons c cs ih =>
    have hFits := hReading.fits c (.head _)
    rw [behind_cons] at hFile
    obtain ⟨file, hEnter, hAhead⟩ := readChunkHeader_ahead hFits hFile
    have hPayload := SparseImage.payload_entered file hFits
    rw [length_cons]
    obtain ⟨reserved, extra, body⟩ := c
    cases body with
    | raw n data =>
      have hLen : data.length = si.sparse.blkSz * n := hFits.body
      rw [sparseSeekFrom_raw hEnter rfl (hPayload.trans hLen)]
      exact hReading.found rfl rfl rfl hLen (hPayload.trans hLen) (.raw rfl hAhead) hReadable
    | fill n value =>
      have hValue : value.length = 4 := hFits.body
      have hRead := readFull_ahead hAhead (hValue.trans_lt (by decide))
      have hBehind := hAhead.skip.2
      rw [Body.payload, hValue] at hRead hBehind
      rw [sparseSeekFrom_fill hEnter rfl (hPayload.trans hValue) hValue hRead]
      exact hReading.found rfl rfl rfl (fill_length hReading.words hValue) rfl
        (.fill _ rfl hValue hBehind) hReadable
    | dontCare n =>
      have hRoom := hReading.room
      rw [blocks_cons, Nat.mul_add, length_nil] at hRoom
      have hPos : (si.pos + si.sparse.blkSz * n) % 2 ^ 64 = si.pos + si.sparse.blkSz * n :=
        Nat.mod_eq_of_lt (by simp only [Body.blocks] at hRoom; omega)
      let passed := (si.entered ⟨reserved, extra, .dontCare n⟩ file).advance (si.sparse.blkSz * n)
      rw [sparseSeekFrom_dontCare hEnter rfl]
      exact (ih passed (hReading.enter passed rfl hPos rfl hReading.remaining)
        hAhead hReadable).pass passed rfl hPos rfl
    | crc32 value =>
      have hLast : cs = [] := List.isEmpty_iff.mp hReadable
      subst hLast
      have hSeek := @lseek_ahead file [] _ hAhead
      let passed := si.entered ⟨reserved, extra, .crc32 value⟩ file
      rw [sparseSeekFrom_crc32 hEnter rfl (hPayload.trans hFits.body) hSeek]
      exact (Sought.ended _ (hReading.enter passed rfl rfl rfl hReading.remaining) rfl fun out =>
        rfl).pass passed rfl rfl rfl

/-- A read delivers `data` of the current chunk and leaves `left` of it. -/
structure Delivered (si si' : SparseImage) (data left rest : List UInt8) : Prop where
  loaded : Loaded si' left rest
  sparse : si'.sparse = si.sparse
  processed : si'.processedChunks = si.processedChunks
  remaining : si'.remaining = left.length
  pos : si'.pos = si.pos + data.length

theorem Delivered.of_loaded {left : List UInt8} (hRemaining : si.remaining = (data ++ left).length)
    (hRoom : si.pos + (data ++ left).length < 2 ^ 64)
    (hLoaded : Loaded
      { si.advance data.length with remaining := si.remaining - data.length, file := file }
      left rest) :
    Delivered si
      { si.advance data.length with remaining := si.remaining - data.length, file := file }
      data left rest := by
  rw [length_append] at hRemaining hRoom
  refine ⟨hLoaded, rfl, rfl, ?_, Nat.mod_eq_of_lt (by omega)⟩
  dsimp only
  omega

theorem deliver_raw {left : List UInt8} (hType : si.chunk.chunkType = chunkTypeRaw)
    (hFile : si.file.Ahead (data ++ left ++ rest))
    (hNow : data.length = min si.remaining buf.length)
    (hRemaining : si.remaining = (data ++ left).length)
    (hRoom : si.pos + (data ++ left).length < 2 ^ 64)
    (hShort : min si.remaining buf.length < 2147483648) :
    ∃ si', deliver si buf = .ok ((si.pos, data), si') ∧ Delivered si si' data left rest := by
  rw [append_assoc] at hFile
  have hRead := readFull_ahead hFile (by omega)
  simp only [deliver, hType, if_true, ← hNow, hRead, lt_self_iff_false, if_false]
  exact ⟨_, rfl, .of_loaded hRemaining hRoom (.raw hType hFile.skip.2)⟩

theorem deliver_fill {k : Nat} (hType : si.chunk.chunkType = chunkTypeFill)
    (hValue : si.fillVal.length = 4)
    (hFile : si.file.Ahead rest) (hNow : k * 4 = min si.remaining buf.length)
    (hRemaining : si.remaining = (repeated k si.fillVal ++ repeated n si.fillVal).length)
    (hRoom : si.pos + (repeated k si.fillVal ++ repeated n si.fillVal).length < 2 ^ 64)
    (hShort : min si.remaining buf.length < 2147483648) :
    ∃ si', deliver si buf = .ok ((si.pos, repeated k si.fillVal), si') ∧
      Delivered si si' (repeated k si.fillVal) (repeated n si.fillVal) rest := by
  have hRaw : chunkTypeFill ≠ chunkTypeRaw := by decide
  have hLen : (repeated k si.fillVal).length = k * 4 := by rw [repeated_length, hValue]
  have hFill : fillBuffer si.fillVal (k * 4) buf = repeated k si.fillVal := by
    have hWords : min (k * 4 / 4) 2147483648 = k := by omega
    have hNone : (buf.take (k * 4)).drop (k * 4) = [] := by simp
    rw [fillBuffer, hWords, hLen, hNone, append_nil]
  simp only [deliver, hType, if_neg hRaw, if_true, ← hNow, Nat.mul_mod_left,
    ne_eq, not_true_eq_false, if_false, hFill]
  rw [← hLen]
  exact ⟨_, rfl, .of_loaded hRemaining hRoom (.fill n hType hValue hFile)⟩

theorem deliver_loaded (hLoaded : Loaded si todo rest) (hRemaining : si.remaining = todo.length)
    (hRoom : si.pos + todo.length < 2 ^ 64) (hWords : buf.length % 4 = 0)
    (hShort : min todo.length buf.length < 2147483648) :
    ∃ data left si', todo = data ++ left ∧ data.length = min todo.length buf.length ∧
      deliver si buf = .ok ((si.pos, data), si') ∧ Delivered si si' data left rest := by
  rw [← hRemaining] at hShort
  cases hLoaded with
  | raw hType hFile =>
    obtain ⟨data, left, rfl, hNow⟩ : ∃ data left, todo = data ++ left ∧
        data.length = min todo.length buf.length :=
      ⟨todo.take buf.length, todo.drop buf.length, (take_append_drop _ _).symm, by
        rw [length_take, Nat.min_comm]⟩
    obtain ⟨si', hDeliver, hDelivered⟩ :=
      deliver_raw hType hFile (hRemaining ▸ hNow) hRemaining hRoom hShort
    exact ⟨data, left, si', rfl, hNow, hDeliver, hDelivered⟩
  | fill n hType hValue hFile =>
    obtain ⟨k, left, rfl, hNow⟩ : ∃ k left, n = k + left ∧ k * 4 = min (n * 4) buf.length :=
      ⟨min n (buf.length / 4), n - min n (buf.length / 4), by omega, by omega⟩
    have hLen (m : Nat) : (repeated m si.fillVal).length = m * 4 := by rw [repeated_length, hValue]
    have hTotal := hLen (k + left)
    rw [repeated_add] at hRemaining hRoom hTotal
    obtain ⟨si', hDeliver, hDelivered⟩ :=
      deliver_fill hType hValue hFile
        (hNow.trans (by rw [hRemaining, hTotal])) hRemaining hRoom hShort
    refine ⟨_, _, si', repeated_add _ _ _, ?_, hDeliver, hDelivered⟩
    rw [hLen, hLen, hNow]

/-- Reading to the end takes at most the given number of reads, reports the end with
every chunk processed, and the pieces have the given effect on an output. -/
def Expands (reads : Nat) (si : SparseImage) (buf : List UInt8) (effect : Memory → Memory) : Prop :=
  ∃ pieces si', readAll reads si buf = some (.ok (pieces, si')) ∧
    (si'.processedChunks = si.sparse.totalChunks ∧ si'.remaining = 0) ∧
      ∀ out, writes pieces out = effect out

theorem Expands.last (hRead : sparseImageRead si buf = .ok ((pos, []), si'))
    (hSparse : si'.sparse = si.sparse)
    (hReading : Reading si' [] []) (hEffect : ∀ out, effect out = out) :
    Expands (reads + 1) si buf effect := by
  refine ⟨[], si', ?_, ⟨hSparse ▸ hReading.left.symm, hReading.remaining⟩,
    fun out => (hEffect out).symm⟩
  simp only [readAll, hRead, if_true]

theorem Expands.piece {effect' : Memory → Memory}
    (hRead : sparseImageRead si buf = .ok ((pos, data), si'))
    (hSparse : si'.sparse = si.sparse) (hData : data ≠ [])
    (hRest : Expands reads si' (data ++ buf.drop data.length) effect')
    (hEffect : ∀ out, effect out = effect' (store pos data out)) :
    Expands (reads + 1) si buf effect := by
  obtain ⟨pieces, last, hAll, hEnd, hWrites⟩ := hRest
  refine ⟨(pos, data) :: pieces, last, ?_, hSparse ▸ hEnd, ?_⟩
  · simp only [readAll, hRead, if_neg hData, hAll]
  · intro out
    rw [hEffect, ← hWrites]
    rfl

/-- The state between two reads: at the end, or in a chunk. -/
def Standing (back : List UInt8) (si : SparseImage) (todo : List UInt8) (cs : List Chunk) : Prop :=
  (todo = [] ∧ cs = []) ∨ Loaded si todo (behind back si cs)

theorem Expands.of_loaded {found : SparseImage} (hWords : buf.length % 4 = 0)
    (hPos : 0 < buf.length)
    (hShort : min todo.length buf.length < 2147483648)
    (hRead : sparseImageRead si buf = deliver found buf)
    (hFound : found.sparse = si.sparse) (hReading : Reading found todo cs)
    (hLoaded : Loaded found todo (behind back found cs)) (hEmpty : todo = [] → cs = [])
    (hEffect : ∀ out, effect out =
      expand found.sparse.blkSz (found.pos + todo.length) cs (store found.pos todo out))
    (hWork : work found.sparse.blkSz todo cs ≤ reads)
    (ih : ∀ (si : SparseImage) (todo buf' : List UInt8), si.sparse = found.sparse →
      min todo.length buf.length < 2147483648 → work si.sparse.blkSz todo cs < reads →
      Reading si todo cs → Standing back si todo cs → buf'.length = buf.length →
      Expands reads si buf' fun out =>
      expand si.sparse.blkSz (si.pos + todo.length) cs (store si.pos todo out)) :
    Expands (reads + 1) si buf effect := by
  have hRoom := hReading.room
  obtain ⟨data, left, si', rfl, hLen, hDeliver, hDelivered⟩ :=
    deliver_loaded hLoaded hReading.remaining (by omega) hWords hShort
  have hSparse := hDelivered.sparse
  have hProcessed := hDelivered.processed
  have hReading' : Reading si' left cs := by
    refine ⟨hSparse ▸ hReading.words, hSparse ▸ hReading.blkSz_pos, hSparse ▸ hReading.fits, ?_,
      hDelivered.remaining, ?_⟩
    · simp [hSparse, hProcessed, hReading.left]
    · grind [hDelivered.pos]
  rw [length_append] at hLen
  by_cases hData : data = []
  · subst hData
    have hLeft : left = [] := eq_nil_of_length_eq_zero (by simp only [length_nil] at hLen; omega)
    subst hLeft
    have hCs := hEmpty rfl
    subst hCs
    refine Expands.last (hRead.trans hDeliver) (hSparse.trans hFound) hReading' fun out => ?_
    rw [hEffect]
    exact store_nil _ _
  · have hDataPos := length_pos_iff.mpr hData
    refine Expands.piece (hRead.trans hDeliver) (hSparse.trans hFound) hData
      (ih si' left _ hSparse (by rw [length_append] at hShort; omega) ?_ hReading' (.inr ?_) ?_)
      fun out => ?_
    · grind [work]
    · have hBehind : behind back si' cs = behind back found cs := by rw [behind, hSparse, behind]
      simp [hBehind, hDelivered.loaded]
    · simp
      omega
    · simp [hEffect, store_append, hSparse, hDelivered.pos, Nat.add_assoc]

theorem readAll_expands (back : List UInt8) {size : Nat} (hWords : size % 4 = 0) (hPos : 0 < size)
    (reads : Nat) (si : SparseImage) (todo buf : List UInt8) (cs : List Chunk)
    (hShort : min todo.length size < 2147483648)
    (hChunks : ∀ c ∈ cs, min (c.body.content si.sparse.blkSz).length size < 2147483648)
    (hWork : work si.sparse.blkSz todo cs < reads) (hReading : Reading si todo cs)
    (hReadable : readable false cs = true)
    (hStanding : Standing back si todo cs) (hBuf : buf.length = size) :
    Expands reads si buf fun out =>
    expand si.sparse.blkSz (si.pos + todo.length) cs (store si.pos todo out) := by
  induction reads generalizing si todo buf cs with
  | zero => omega
  | succ reads ih =>
    subst hBuf
    by_cases hTodo : todo = []
    · subst hTodo
      have hNone : si.remaining = 0 := hReading.remaining
      have hLeft : si.sparse.totalChunks - si.processedChunks = cs.length := by
        have hTotal := hReading.left
        omega
      have hStart (out : Memory) : expand si.sparse.blkSz (si.pos + ([] : List UInt8).length) cs
          (store si.pos [] out) = expand si.sparse.blkSz si.pos cs out := by simp [store_nil]
      have hSought : Sought back false si cs (sparseSeek si) := by
        rw [sparseSeek, hLeft]
        rcases hStanding with ⟨_, rfl⟩ | hLoaded
        · exact .ended si hReading rfl fun out => rfl
        · exact sparseSeekFrom_sought back false cs si hReading hLoaded.ahead_of_nil hReadable
      generalize hSeek : sparseSeek si = result at hSought
      cases hSought with
      | ended si' hReading' hSparse hExpand =>
        have hRead : sparseImageRead si buf = .ok ((0, []), si') := by
          simp [sparseImageRead, hNone, hSeek]
        exact Expands.last hRead hSparse hReading' fun out => (hStart out).trans (hExpand out)
      | found si' todo cs' hReading' hLoaded hSparse hReadable' hEmpty hLess hExpand hFrom =>
        have hRead : sparseImageRead si buf = deliver si' buf := by
          simp [sparseImageRead, hNone, hSeek]
        obtain ⟨hTodo, hRest⟩ := hFrom (min ·.length buf.length < 2147483648) hChunks
        refine Expands.of_loaded hWords hPos hTodo hRead hSparse hReading' hLoaded
          (hEmpty rfl) (fun out => ?_) ?_
          fun si₂ todo₂ buf₂ hSparse₂ hShort₂ hWork₂ hReading₂ hStanding₂ hBuf₂ => ?_
        · rw [hStart, hExpand, hSparse]
        · rw [hSparse]
          omega
        · rw [← hSparse, ← hSparse₂] at hRest
          exact ih si₂ todo₂ buf₂ cs' hShort₂ hRest hWork₂ hReading₂ hReadable' hStanding₂ hBuf₂
    · have hLoaded : Loaded si todo (behind back si cs) := hStanding.resolve_left fun h => hTodo h.1
      have hSome : si.remaining ≠ 0 := by grind [hReading.remaining]
      have hRead : sparseImageRead si buf = deliver si buf := if_neg hSome
      refine Expands.of_loaded hWords hPos hShort hRead rfl hReading hLoaded
        (fun h => absurd h hTodo) (fun out => rfl)
        (by omega) fun si' todo' buf' hSparse' hShort' hWork' hReading' hStanding' hBuf' => ?_
      rw [← hSparse'] at hChunks
      exact ih si' todo' buf' cs hShort' hChunks hWork' hReading' hReadable hStanding' hBuf'

variable (img : Image)

theorem sparseImageOpen_encode (back : List UInt8) :
    ∃ file, file.Ahead (encodeChunks img.chunkHdrSz img.chunks ++ back) ∧
      ∀ found si, sparseSeek ⟨file, img.header, 0, ⟨0, 0, 0⟩, 0, 0, zeros 4⟩ = .ok (found, si) →
        sparseImageOpen (img.encode ++ back) = .ok si := by
  have hData : img.encode ++ back =
      img.encodeHeader ++ (img.extra ++ (encodeChunks img.chunkHdrSz img.chunks ++ back)) := by
        simp [Image.encode]
  have hSize : img.encodeHeader.length = size := rfl
  have hStart : File.Ahead ⟨img.encode ++ back, 0⟩
      (img.encodeHeader ++ (img.extra ++ (encodeChunks img.chunkHdrSz img.chunks ++ back))) :=
    ⟨Nat.zero_le _, hData⟩
  have hBehind := hStart.skip.2
  have hMin : min size (img.encode ++ back).length = size := rfl
  have hHeader : ofBytes (slice 0 size (img.encode ++ back)) = img.header := by
    rw [hData, img.header_encode]
  rw [hSize, Nat.zero_add] at hBehind
  simp only [sparseImageOpen, hHeader, hMin]
  split
  next hLarger =>
    have hSeek := lseek_ahead hBehind
    have hPos : (size : Int) + (img.extra.length : Nat) = (img.header.fileHdrSz : Nat) := rfl
    rw [hPos] at hSeek
    rw [hSeek]
    exact ⟨_, hBehind.skip.2, fun found si h => by simp only [h]⟩
  next hSame =>
    have hNone : img.extra = [] := eq_nil_of_length_eq_zero (by
      simp only [Image.header] at hSame
      omega)
    grind

theorem Body.content_length_le (hWords : blkSz % 4 = 0) {body : Body} (h : body.Fits blkSz) :
    (body.content blkSz).length ≤ blkSz * body.blocks := by
  cases body with
  | raw n data => exact h.le
  | fill n value => exact (fill_length hWords h).le
  | dontCare n | crc32 value => exact Nat.zero_le _

theorem expand_of_lt (cs : List Chunk) (out : Memory) (h : a < pos) :
    expand blkSz pos cs out a = out a := by
  induction cs generalizing pos out with
  | nil => rfl
  | cons c cs ih =>
    rw [expand, ih _ (by omega)]
    exact store_of_not_mem _ (by omega)

theorem expand_area (hWords : blkSz % 4 = 0) {front rest : List Chunk} (out : Memory)
    (hFits : ∀ c ∈ front, c.body.Fits blkSz) (hContent : c.body.content blkSz = [])
    (h : pos + blkSz * blocks front ≤ a)
    (hEnd : a < pos + blkSz * blocks front + blkSz * c.body.blocks) :
    expand blkSz pos (front ++ c :: rest) out a = out a := by
  induction front generalizing pos out with
  | nil =>
    have hZero : blocks [] = 0 := rfl
    rw [hZero] at hEnd
    rw [nil_append, expand, hContent, store_nil]
    exact expand_of_lt _ _ (by omega)
  | cons c' front ih =>
    have hLe := Body.content_length_le hWords (hFits c' (.head _))
    rw [blocks_cons, Nat.mul_add] at h hEnd
    rw [cons_append, expand, ih _ (fun c hMem => hFits c (.tail _ hMem)) (by omega) (by omega)]
    exact store_of_not_mem _ (by omega)

theorem Image.reading (file : File) :
    Reading ⟨file, img.header, 0, ⟨0, 0, 0⟩, 0, 0, zeros 4⟩ [] img.chunks := by
  refine ⟨img.blkSz_words, img.blkSz_pos, img.fits, (Nat.zero_add _).symm, rfl, ?_⟩
  have hLe : img.blkSz * blocks img.chunks ≤ 4294967295 * 4294967295 :=
    Nat.mul_le_mul (Nat.le_of_lt_succ img.blkSz_lt) (Nat.le_of_lt_succ img.totalBlks_lt)
  simp [Image.header]
  omega

theorem Image.expands (back : List UInt8) (hReadable : readable true img.chunks = true) :
    ∃ si reads, sparseImageOpen (img.encode ++ back) = .ok si ∧
    si.sparse = img.header ∧ ∀ buf n, 0 < buf.length →
      buf.length % 4 = 0 →
      (∀ c ∈ img.chunks, min (c.body.content img.blkSz).length buf.length < 2147483648) →
      reads ≤ n → Expands n si buf img.expand := by
  obtain ⟨file, hFile, hOpen⟩ := sparseImageOpen_encode img back
  have hReading := img.reading file
  have hSought := sparseSeekFrom_sought back true img.chunks _ hReading hFile hReadable
  generalize hSeek : sparseSeekFrom img.chunks.length
    ⟨file, img.header, 0, ⟨0, 0, 0⟩, 0, 0, zeros 4⟩ = result at hSought
  cases hSought with
  | ended si hReading' hSparse hExpand =>
    refine ⟨si, 1 + work si.sparse.blkSz [] [], hOpen _ si hSeek,
      hSparse, fun buf n hPos hWords hShort hReads => ?_⟩
    have hEmpty := readAll_expands back hWords hPos n si [] buf [] (by simp) (by simp)
      (by omega) hReading' rfl (.inl ⟨rfl, rfl⟩) rfl
    obtain ⟨pieces, si', hAll, hEnd, hWrites⟩ := hEmpty
    refine ⟨pieces, si', hAll, hEnd, fun out => (hWrites out).trans ?_⟩
    exact (store_nil _ out).trans (hExpand out).symm
  | found si todo cs hReading' hLoaded hSparse hReadable' hEmpty hWork hExpand hFrom =>
    refine ⟨si, 1 + work si.sparse.blkSz todo cs, hOpen _ si hSeek,
      hSparse, fun buf n hPos hWords hShort hReads => ?_⟩
    obtain ⟨hTodo, hChunks⟩ := hFrom (min ·.length buf.length < 2147483648) hShort
    rw [← hSparse] at hChunks
    have hRest := readAll_expands back hWords hPos n si todo buf cs hTodo hChunks
      (by omega) hReading' hReadable' (.inr hLoaded) rfl
    obtain ⟨pieces, si', hAll, hEnd, hWrites⟩ := hRest
    refine ⟨pieces, si', hAll, hEnd, fun out => (hWrites out).trans ?_⟩
    rw [hSparse]
    exact (hExpand out).symm

/-- Reading a well-formed image into a buffer, again and again until nothing is
delivered, writes exactly what the image stands for; the areas that are not cared for
keep their bytes, and the end is not reported before the last chunk. The image must not
have a checksum chunk in front of another chunk, nor, behind its first data chunk, an
empty data chunk in front of another chunk, and no single read may deliver two gigabytes. -/
theorem sparse_expansion (back buf : List UInt8) (hPos : 0 < buf.length)
    (hWords : buf.length % 4 = 0)
    (hShort : ∀ c ∈ img.chunks, min (c.body.content img.blkSz).length buf.length < 2147483648)
    (hReadable : readable true img.chunks = true) :
    ∃ si reads, sparseImageOpen (img.encode ++ back) = .ok si ∧ ∀ n, reads ≤ n →
      ∃ pieces si', readAll n si buf = some (.ok (pieces, si')) ∧
        (si'.processedChunks = img.chunks.length ∧ si'.remaining = 0) ∧
        (∀ out, writes pieces out = img.expand out) ∧
        ∀ front c rest blks, img.chunks = front ++ c :: rest → c.body = .dontCare blks →
          ∀ out a, img.blkSz * blocks front ≤ a → a < img.blkSz * blocks front + img.blkSz * blks →
            writes pieces out a = out a := by
  obtain ⟨si, reads, hOpen, hSparse, hExpands⟩ := img.expands back hReadable
  refine ⟨si, reads, hOpen, fun n hReads => ?_⟩
  obtain ⟨pieces, si', hAll, hEnd, hWrites⟩ := hExpands buf n hPos hWords hShort hReads
  rw [hSparse] at hEnd
  refine ⟨pieces, si', hAll, hEnd, hWrites, fun front c rest blks hChunks hBody out a hLe hLt => ?_⟩
  have hFits (c' : Chunk) (hMem : c' ∈ front) : c'.body.Fits img.blkSz :=
    (img.fits c' (by rw [hChunks]; exact mem_append_left _ hMem)).body
  rw [hWrites, Image.expand, hChunks]
  refine expand_area img.blkSz_words out hFits ?_ (by omega) ?_
  · rw [hBody, Body.content]
  · rw [hBody, Body.blocks]
    omega

def plainImage (chunks : List Chunk) (hBlks : blocks chunks < 4294967296)
    (hChunks : chunks.length < 4294967296)
    (hFits : ∀ c ∈ chunks, c.Fits 4 12) : Image where
  minorVersion := 0
  imageChecksum := 0
  extra := []
  chunkHdrSz := 12
  blkSz := 4
  chunks := chunks
  fileHdrSz_lt := by decide
  chunkHdrSz_le := by decide
  chunkHdrSz_lt := by decide
  blkSz_pos := by decide
  blkSz_lt := by decide
  blkSz_words := by decide
  totalBlks_lt := hBlks
  totalChunks_lt := hChunks
  fits := hFits

theorem Chunk.fits_iff (blkSz chunkHdrSz : Nat) (c : Chunk) :
    c.Fits blkSz chunkHdrSz ↔ c.body.Fits blkSz ∧ ChunkHeader.size + c.extra.length = chunkHdrSz ∧
      c.body.blocks < 4294967296 ∧ chunkHdrSz + c.body.payload.length < 4294967296 :=
  ⟨fun h => ⟨h.body, h.header, h.blocks, h.total⟩, fun h => ⟨h.1, h.2.1, h.2.2.1, h.2.2.2⟩⟩

instance (blkSz chunkHdrSz : Nat) (c : Chunk) : Decidable (c.Fits blkSz chunkHdrSz) :=
  decidable_of_iff' _ (Chunk.fits_iff blkSz chunkHdrSz c)

def mixedChunks : List Chunk :=
  [⟨0, [], .raw 0 []⟩, ⟨0, [], .raw 2 [1, 2, 3, 4, 5, 6, 7, 8]⟩,
    ⟨0, [], .dontCare 3⟩, ⟨0, [], .fill 2 [9, 9, 9, 9]⟩,
    ⟨0, [], .crc32 [1, 2, 3, 4]⟩]

theorem sparse_expansion_mixed :
    ∃ img : Image, img.chunks = mixedChunks ∧ readable true img.chunks = true ∧
      ∃ si reads, sparseImageOpen (img.encode ++ []) = .ok si ∧ ∀ n, reads ≤ n →
        ∃ pieces si', readAll n si (zeros 4) = some (.ok (pieces, si')) ∧
          (si'.processedChunks = img.chunks.length ∧ si'.remaining = 0) ∧
          (∀ out, writes pieces out = img.expand out) ∧
          ∀ front c rest blks, img.chunks = front ++ c :: rest → c.body = .dontCare blks →
            ∀ out a, img.blkSz * blocks front ≤ a →
            a < img.blkSz * blocks front + img.blkSz * blks →
              writes pieces out a = out a := by
  refine ⟨plainImage mixedChunks (by decide) (by decide) (by decide), rfl, by decide, ?_⟩
  exact sparse_expansion _ [] (zeros 4) (by decide) (by decide) (by decide) (by decide)

/-- A chunk with an empty fill between two others: the second read delivers nothing. -/
def emptyFillChunks : List Chunk :=
  [⟨0, [], .raw 1 [1, 2, 3, 4]⟩, ⟨0, [], .fill 0 [9, 9, 9, 9]⟩, ⟨0, [], .raw 1 [5, 6, 7, 8]⟩]

def checksumChunks : List Chunk := [⟨0, [], .crc32 [1, 2, 3, 4]⟩, ⟨0, [], .raw 1 [1, 2, 3, 4]⟩]

/-- The end is reported before the last chunk, and an image with a checksum in front of
its data cannot be opened. -/
theorem sparse_expansion_fails :
    (∃ img : Image, img.chunks = emptyFillChunks ∧ ∃ si si', sparseImageOpen img.encode = .ok si ∧
      readAll 2 si (zeros 4) = some (.ok ([(0, [1, 2, 3, 4])], si')) ∧
      si'.processedChunks < img.chunks.length ∧
      writes [(0, [1, 2, 3, 4])] (fun _ => 0) 4 ≠ img.expand (fun _ => 0) 4) ∧
    ∃ img : Image, img.chunks = checksumChunks ∧ sparseImageOpen img.encode = .error einval := by
  constructor
  · let img := plainImage emptyFillChunks (by decide) (by decide) (by decide)
    refine ⟨img, rfl, ⟨⟨img.encode, 40⟩, img.header, 1, ⟨chunkTypeRaw, 1, 16⟩, 0, 4, zeros 4⟩,
      ⟨⟨img.encode, 60⟩, img.header, 2, ⟨chunkTypeFill, 0, 16⟩, 4, 0, [9, 9, 9, 9]⟩, ?_, ?_, ?_, ?_⟩
    · decide +kernel
    · decide +kernel
    · decide
    · decide +kernel
  · exact ⟨plainImage checksumChunks (by decide) (by decide) (by decide), rfl, by decide⟩

end Barebox.Sparse
