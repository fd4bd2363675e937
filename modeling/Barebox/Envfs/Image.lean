import Barebox.Envfs.Files
import Barebox.Lib.Crc32

/-! `common/environment.c` and `common/envfs-core.c`: the image an environment is saved in.
A file of the default environment that is gone is stored as a link to its own name. The host
is little-endian. -/
namespace Barebox.Envfs
open Bytes Lib List

def envfsMagic : Nat := 0x798fba79
def envfsInodeMagic : Nat := 0x67a8c78d
def envfsInodeEndMagic : Nat := 0x68a8c78d
def envfsMajor : UInt8 := 1
def envfsMinor : UInt8 := 0

variable (flags : Nat) (vfs : Vfs)

def forceBuiltIn : Bool := flags.testBit 0

def noOverwrite : Bool := flags.testBit 0

/-- `S_IRWXU | S_IRWXG | S_IRWXO`. -/
def modeFile : Nat := 0o777

/-- The same with `S_IFLNK`. -/
def modeLink : Nat := 0o120777

def isLnk (mode : Nat) : Bool := mode / 4096 % 16 = 10

def pad4 (n : Nat) : Nat := (n + 3) / 4 * 4

structure Entry where
  name : Path
  mode : Nat
  data : List UInt8
  deriving DecidableEq

/-- `compare_file` on what the two paths lead to: zero, that is, both are files and have the
same bytes. -/
def compareFile : Found → Found → Bool
  | .file a, .file b => a = b
  | _, _ => false

/-- `readlink` into a buffer of one byte more than the `st_size` of the link: `strncpy`, which
fills up with zeros and leaves out the terminator where it does not fit. -/
def readlink (target : List UInt8) : List UInt8 :=
  (target ++ zeros (vfs.linkSize target + 1)).take (vfs.linkSize target + 1)

/-- What `file_action` stores for a file or link. -/
def leafEntry (p : Path) : Leaf → Entry
  | .file data => ⟨p, modeFile, data⟩
  | .link target => ⟨p, modeLink, readlink vfs target⟩

/-- `file_action` on a path of the environment; `tmp` has the default environment. -/
def fileAction (vfs tmp : Vfs) (defaults env : View) (p : Path) (l : Leaf) : Option Entry :=
  if compareFile (tmp.lookup defaults p) (vfs.lookup env p) then none else some (leafEntry vfs p l)

def removeEntry (p : Path) : Entry := ⟨p, modeLink, basename p ++ [0]⟩

/-- `file_remove_action` on a path of the default environment. -/
def fileRemoveAction (env : View) (p : Path) : Option Entry :=
  if vfs.lookup env p = .nothing then some (removeEntry p) else none

/-- The list `envfs_save` has collected. Each entry was put at its head. -/
def collect (vfs tmp : Vfs) (defaults env : Files) : List Entry :=
  ((env.leaves.entries.filterMap fun x => fileAction vfs tmp defaults.view env.view x.1 x.2) ++
    (defaults.leaves.entries.filterMap fun x => fileRemoveAction vfs env.view x.1)).reverse

def entrySize (e : Entry) : Nat := pad4 e.data.length + 12 + pad4 (e.name.length + 1) + 8

/-- `envfs_save_inode`, into a buffer of zeros. -/
def envfsSaveInode (e : Entry) : List UInt8 :=
  le 4 envfsInodeMagic ++ (le 4 e.data.length ++ (le 4 (pad4 (e.name.length + 1) + 8) ++
    ((e.name ++ zeros (pad4 (e.name.length + 1) - e.name.length)) ++
      (le 4 envfsInodeEndMagic ++ (le 4 e.mode ++
        (e.data ++ zeros (pad4 e.data.length - e.data.length)))))))

/-- `struct envfs_super` up to its checksum. -/
def superFields (body : List UInt8) : List UInt8 :=
  le 4 envfsMagic ++ (le 4 0 ++ (le 4 (crc32 0 body).toNat ++ (le 4 body.length ++
    ([envfsMajor, envfsMinor] ++ (le 2 0 ++ le 4 flags)))))

def superBytes (body : List UInt8) : List UInt8 :=
  superFields flags body ++ le 4 (crc32 0 (superFields flags body)).toNat

def imageBody (entries : List Entry) : List UInt8 := entries.flatMap envfsSaveInode

/-- `envfs_save` as far as the image it writes. The size is an `int`: there is no image of two
gigabytes. -/
def envfsSave (vfs tmp : Vfs) (flags : Nat) (defaults env : Files) : Option (List UInt8) :=
  let entries := if forceBuiltIn flags then [] else collect vfs tmp defaults env
  if (entries.map entrySize).sum + 28 < 2147483648 then
    some (superBytes flags (imageBody entries) ++ imageBody entries)
  else none

def load (buf : List UInt8) (off len : Nat) : Except Stop (List UInt8) :=
  if off + len ≤ buf.length then .ok (slice off len buf) else .error .fault

/-- `envfs_check_super`, with the version and the size it finds. -/
def envfsCheckSuper (buf : List UInt8) : Except Stop (Nat × Nat) :=
  (load buf 0 28).bind fun super =>
    if ofLe (slice 0 4 super) ≠ envfsMagic then .error (.error .eio)
    else if (crc32 0 (super.take 24)).toNat ≠ ofLe (slice 24 4 super) then .error (.error .eio)
    else .ok (ofLe (slice 16 1 super), ofLe (slice 12 4 super))

/-- `envfs_check_data` on the bytes behind the superblock. -/
def envfsCheckData (buf : List UInt8) (size : Nat) : Except Stop (List UInt8) :=
  (load buf 8 4).bind fun crc =>
    (load buf 28 size).bind fun data =>
      if (crc32 0 data).toNat ≠ ofLe crc then .error (.error .eio) else .ok data

/-- The magic and the mode in `struct envfs_inode_end`, which images below version 1 do not have. -/
def inodeEnd (major : Nat) (buf : List UInt8) (off : Nat) : Except Stop (Nat × Nat) :=
  if major < 1 then .ok (envfsInodeEndMagic, modeFile)
  else (load buf off 8).bind fun fields => .ok (ofLe (slice 0 4 fields), ofLe (slice 4 4 fields))

/-- One turn of `envfs_load_data_pass` up to the test for a dry run, with the bytes that are
left for the next turn. `strnlen` and `memchr` may look at all the bytes they are given. -/
def readInode (major : Nat) (buf : List UInt8) : Except Stop (Entry × List UInt8) :=
  if buf.length < 12 then .error (.error .einval)
  else
    (load buf 0 12).bind fun inode =>
      let inodeSize := ofLe (slice 4 4 inode)
      let headerlen := ofLe (slice 8 4 inode)
      let size := buf.length - 12
      if ofLe (slice 0 4 inode) ≠ envfsInodeMagic then .error (.error .eio)
      else if size / 4 * 4 < headerlen then .error (.error .einval)
      else if (size - pad4 headerlen) / 4 * 4 < inodeSize then .error (.error .einval)
      else
        (load buf 12 headerlen).bind fun header =>
          let name := untilZero header
          if name.length = headerlen then .error (.error .einval)
          else if 1 ≤ major ∧ headerlen < pad4 (name.length + 1) + 8 then .error (.error .einval)
          else
            (inodeEnd major buf (12 + pad4 (name.length + 1))).bind fun (endMagic, mode) =>
              if endMagic ≠ envfsInodeEndMagic then .error (.error .eio)
              else
                (load buf (12 + pad4 headerlen) inodeSize).bind fun data =>
                  if isLnk mode ∧ 0 ∉ data then .error (.error .einval)
                  else .ok (⟨name, mode, data⟩, buf.drop (12 + pad4 headerlen + pad4 inodeSize))

/-- A file operation that fails leaves the files as they are. -/
def orKeep (files : Files) (result : Except Stop Files) : Except (Stop × Files) Files :=
  result.mapError fun stop => (stop, files)

/-- The file operations of one turn of `envfs_load_data_pass`, with the files that are there when
it stops. -/
def loadEntry (flags : Nat) (files : Files) (e : Entry) : Except (Stop × Files) Files :=
  let files := files.makeDirectory e.name
  let found := vfs.lookup files.view e.name
  if found ≠ .nothing ∧ noOverwrite flags then .ok files
  else if isLnk e.mode then
    if untilZero e.data = basename e.name then orKeep files (files.unlink e.name)
    else if found ≠ .nothing then
      (orKeep files (files.unlink e.name)).bind fun files =>
        orKeep files (files.symlink (untilZero e.data) e.name)
    else orKeep files (files.symlink (untilZero e.data) e.name)
  else orKeep files (files.openWrite vfs e.name e.data)

variable {rest body : List UInt8} {e : Entry} {dryrun : Bool} {files files' : Files}

@[simp] theorem orKeep_ok {result : Except Stop Files} :
    orKeep files result = .ok files' ↔ result = .ok files' := by
  cases result <;> simp [orKeep, Except.mapError]

theorem load_of_le {buf : List UInt8} {off len : Nat} (h : off + len ≤ buf.length) :
    load buf off len = .ok (slice off len buf) := if_pos h

theorem ok_bind {α β : Type} (a : α) (f : α → Except Stop β) : (Except.ok a).bind f = f a := rfl

/-- A turn reads inside of its buffer: it finds a format error, or an inode and fewer bytes. -/
theorem readInode_cases (major : Nat) (buf : List UInt8) :
    (∃ e, readInode major buf = .error (.error e)) ∨
      ∃ e rest, readInode major buf = .ok (e, rest) ∧ rest.length < buf.length := by
  unfold readInode
  by_cases hLen : buf.length < 12
  · exact .inl ⟨_, if_pos hLen⟩
  rw [if_neg hLen, load_of_le (by omega), ok_bind]
  generalize slice 0 12 buf = inode
  dsimp only
  split
  · exact .inl ⟨_, rfl⟩
  split
  · exact .inl ⟨_, rfl⟩
  split
  · exact .inl ⟨_, rfl⟩
  rename_i hMagic hHeader hSize
  rw [load_of_le (by omega), ok_bind]
  generalize untilZero (slice 12 (ofLe (slice 8 4 inode)) buf) = name
  split
  · exact .inl ⟨_, rfl⟩
  split
  · exact .inl ⟨_, rfl⟩
  rename_i hName hRoom
  have hEnd : ∃ fields, inodeEnd major buf (12 + pad4 (name.length + 1)) = .ok fields := by
    unfold inodeEnd
    split
    · exact ⟨_, rfl⟩
    · rw [load_of_le (by omega)]
      exact ⟨_, rfl⟩
  obtain ⟨⟨endMagic, mode⟩, hFields⟩ := hEnd
  rw [hFields, ok_bind]
  dsimp only
  split
  · exact .inl ⟨_, rfl⟩
  rw [load_of_le (by unfold pad4 at hSize ⊢; omega), ok_bind]
  split
  · exact .inl ⟨_, rfl⟩
  · refine .inr ⟨_, _, rfl, ?_⟩
    rw [length_drop]
    omega

theorem readInode_rest {major : Nat} {buf : List UInt8}
    (h : readInode major buf = .ok (e, rest)) : rest.length < buf.length := by
  rcases readInode_cases major buf with ⟨e', hError⟩ | ⟨e', rest', hOk, hLt⟩
  · rw [hError] at h
    cases h
  · rw [hOk] at h
    cases h
    exact hLt

/-- A pass over the inodes. An error comes with the files that are there by then. -/
def envfsLoadDataPass (vfs : Vfs) (major flags : Nat) (dryrun : Bool) (files : Files)
    (buf : List UInt8) : Except (Stop × Files) Files :=
  if buf = [] then .ok (if dryrun then files else files.removeEmptyDirs)
  else
    match _h : readInode major buf with
    | .error stop => .error (stop, files)
    | .ok (e, rest) =>
      (if dryrun then .ok files else loadEntry vfs flags files e).bind fun files =>
        envfsLoadDataPass vfs major flags dryrun files rest
termination_by buf.length
decreasing_by exact readInode_rest _h

/-- `envfs_load_data`: the whole image is looked at before anything is changed. -/
def envfsLoadData (vfs : Vfs) (major flags : Nat) (files : Files) (buf : List UInt8) :
    Except (Stop × Files) Files :=
  (envfsLoadDataPass vfs major flags true files buf).bind fun files =>
    envfsLoadDataPass vfs major flags false files buf

/-- `envfs_load_from_buf`: the size of the super block must fit into the buffer. -/
def envfsLoadFromBuf (vfs : Vfs) (flags : Nat) (files : Files) (buf : List UInt8) :
    Except (Stop × Files) Files :=
  if 2147483648 ≤ buf.length ∨ buf.length < 28 then .error (.error .einval, files)
  else
    match envfsCheckSuper buf with
    | .error stop => .error (stop, files)
    | .ok (major, size) =>
      if buf.length - 28 < size then .error (.error .einval, files)
      else
        match envfsCheckData buf size with
        | .error stop => .error (stop, files)
        | .ok data => envfsLoadData vfs major flags files data

theorem le_pad4 (n : Nat) : n ≤ pad4 n := by
  unfold pad4
  omega

theorem pad4_mod (n : Nat) : pad4 n / 4 * 4 = pad4 n := by
  unfold pad4
  omega

@[simp] theorem pad4_pad4_add (n m : Nat) : pad4 (pad4 n + m * 4) = pad4 n + m * 4 := by
  unfold pad4
  omega

@[simp] theorem envfsSaveInode_length (e : Entry) : (envfsSaveInode e).length = entrySize e := by
  have hData := le_pad4 e.data.length
  have hName := le_pad4 (e.name.length + 1)
  simp only [envfsSaveInode, entrySize, length_append, le_length, zeros_length]
  omega

theorem imageBody_length (entries : List Entry) :
    (imageBody entries).length = (entries.map entrySize).sum := by
  simp [imageBody]

structure Entry.Storable (e : Entry) : Prop where
  name : 0 ∉ e.name
  mode : e.mode < 4294967296
  size : entrySize e < 4294967296

def nameField (name : Path) : List UInt8 := name ++ zeros (pad4 (name.length + 1) - name.length)

@[simp] theorem nameField_length (name : Path) :
    (nameField name).length = pad4 (name.length + 1) := by
  have h := le_pad4 (name.length + 1)
  simp [nameField]
  omega

theorem untilZero_nameField {name : Path} (h : 0 ∉ name) (rest : List UInt8) :
    untilZero (nameField name ++ rest) = name := by
  have hPad := le_pad4 (name.length + 1)
  obtain ⟨k, hk⟩ : ∃ k, pad4 (name.length + 1) - name.length = k + 1 :=
    ⟨pad4 (name.length + 1) - name.length - 1, by omega⟩
  rw [nameField, hk, zeros, replicate_succ, append_assoc]
  exact CString.untilZero_append ⟨name, h⟩ _

def afterHeader (e : Entry) (rest : List UInt8) : List UInt8 :=
  nameField e.name ++ (le 4 envfsInodeEndMagic ++ (le 4 e.mode ++
    ((e.data ++ zeros (pad4 e.data.length - e.data.length)) ++ rest)))

theorem envfsSaveInode_append (e : Entry) (rest : List UInt8) :
    envfsSaveInode e ++ rest = le 4 envfsInodeMagic ++ (le 4 e.data.length ++
      (le 4 (pad4 (e.name.length + 1) + 8) ++
        afterHeader e rest)) := by simp [envfsSaveInode, afterHeader, nameField]

theorem afterHeader_length (e : Entry) (rest : List UInt8) :
    (afterHeader e rest).length = pad4 (e.name.length + 1) +
    8 + pad4 e.data.length + rest.length := by
  have h := le_pad4 e.data.length
  simp [afterHeader]
  omega

theorem drop_afterHeader (e : Entry) (rest : List UInt8) :
    (afterHeader e rest).drop (pad4 (e.name.length + 1) + 8) =
      (e.data ++ zeros (pad4 e.data.length - e.data.length)) ++ rest := by
  rw [afterHeader, ← append_assoc, ← append_assoc]
  refine drop_left' ?_
  simp

theorem readInode_saveInode (h : e.Storable) (hRest : rest.length % 4 = 0) :
    readInode envfsMajor.toNat (envfsSaveInode e ++ rest) =
      if isLnk e.mode ∧ 0 ∉ e.data then .error (.error .einval) else .ok (e, rest) := by
  have hFits := h.size
  have hDataPad := le_pad4 e.data.length
  have hNamePad := le_pad4 (e.name.length + 1)
  unfold entrySize at hFits
  have hLen := afterHeader_length e rest
  have hDrop : (envfsSaveInode e ++ rest).drop 12 = afterHeader e rest := by
    rw [envfsSaveInode_append, ← append_assoc, ← append_assoc]
    exact drop_left' (by simp only [length_append, le_length])
  have hTotal : (envfsSaveInode e ++ rest).length = 12 + (afterHeader e rest).length := by
    rw [← hDrop, length_drop, length_append, envfsSaveInode_length, entrySize]
    omega
  have hInner (off len : Nat) :
      slice (12 + off) len (envfsSaveInode e ++ rest) = slice off len (afterHeader e rest) := by
    rw [slice, ← drop_drop, hDrop, slice]
  have hName : untilZero (slice 12 (pad4 (e.name.length + 1) + 8) (envfsSaveInode e ++ rest)) =
      e.name := by
    have hFirst := hInner 0 (pad4 (e.name.length + 1) + 8)
    rw [Nat.add_zero] at hFirst
    rw [hFirst, slice, drop_zero, afterHeader, ← nameField_length, take_length_add_append]
    exact untilZero_nameField h.name _
  have hData : slice (12 + (pad4 (e.name.length + 1) + 8)) e.data.length
      (envfsSaveInode e ++ rest) = e.data := by
    rw [hInner, slice]
    simp [drop_afterHeader]
  have hNext : (envfsSaveInode e ++ rest).drop
      (12 + (pad4 (e.name.length + 1) + 8) + pad4 e.data.length) = rest := by
    rw [← drop_drop, ← drop_drop, hDrop, drop_afterHeader]
    refine drop_left' ?_
    simp
    omega
  have hEnd : slice 0 4 (slice (12 + pad4 (e.name.length + 1)) 8 (envfsSaveInode e ++ rest)) =
        le 4 envfsInodeEndMagic ∧
      slice 4 4 (slice (12 + pad4 (e.name.length + 1)) 8 (envfsSaveInode e ++ rest)) =
        le 4 e.mode := by
    have hRight := slice_append_right (nameField e.name) (le 4 envfsInodeEndMagic ++ (le 4 e.mode ++
      ((e.data ++ zeros (pad4 e.data.length - e.data.length)) ++ rest))) 0 8
    rw [nameField_length, Nat.add_zero] at hRight
    rw [hInner, afterHeader, hRight]
    exact ⟨rfl, rfl⟩
  have hMagic : ofLe (le 4 envfsInodeMagic) = envfsInodeMagic := ofLe_le_of_lt (by decide)
  have hEndMagic : ofLe (le 4 envfsInodeEndMagic) = envfsInodeEndMagic := ofLe_le_of_lt (by decide)
  have hModeValue : ofLe (le 4 e.mode) = e.mode := ofLe_le_of_lt h.mode
  have hSize : ofLe (le 4 e.data.length) = e.data.length :=
    ofLe_le_of_lt (show e.data.length < 4294967296 by omega)
  have hHeader : ofLe (le 4 (pad4 (e.name.length + 1) + 8)) = pad4 (e.name.length + 1) + 8 :=
    ofLe_le_of_lt (show pad4 (e.name.length + 1) + 8 < 4294967296 by omega)
  have hFull : pad4 (pad4 (e.name.length + 1) + 8) = pad4 (e.name.length + 1) + 8 :=
    pad4_pad4_add _ 2
  have h0 : slice 0 4 (slice 0 12 (envfsSaveInode e ++ rest)) = le 4 envfsInodeMagic := rfl
  have h4 : slice 4 4 (slice 0 12 (envfsSaveInode e ++ rest)) = le 4 e.data.length := rfl
  have h8 : slice 8 4 (slice 0 12 (envfsSaveInode e ++ rest)) =
      le 4 (pad4 (e.name.length + 1) + 8) := rfl
  have hMajor : ¬envfsMajor.toNat < 1 := by decide
  have hAligned := pad4_mod (e.name.length + 1)
  have hAligned' := pad4_mod e.data.length
  unfold readInode inodeEnd
  rw [if_neg (by omega), load_of_le (by omega), ok_bind]
  simp only [h0, h4, h8, hMagic, hSize, hHeader]
  rw [if_neg (not_not_intro rfl), if_neg (by omega), if_neg (by rw [hFull]; omega),
    load_of_le (by omega), ok_bind]
  simp only [hName]
  rw [if_neg (by omega), if_neg (by omega), if_neg hMajor, load_of_le (by omega), ok_bind, ok_bind]
  simp only [hEnd.1, hEnd.2, hEndMagic, hModeValue, hFull]
  rw [if_neg (not_not_intro rfl), load_of_le (by omega), ok_bind]
  simp only [hData, hNext]

theorem imageBody_cons (e : Entry) (rest : List Entry) :
    imageBody (e :: rest) = envfsSaveInode e ++ imageBody rest :=
  flatMap_cons

theorem imageBody_mod (entries : List Entry) : (imageBody entries).length % 4 = 0 := by
  induction entries with
  | nil => rfl
  | cons e rest ih =>
    have hEntry : entrySize e % 4 = 0 := by
      unfold entrySize pad4
      omega
    simp [imageBody_cons]
    omega

/-- Whether the reader finds the terminator of a link. -/
def Entry.terminated (e : Entry) : Prop := isLnk e.mode → 0 ∈ e.data

theorem envfsLoadDataPass_nil (vfs : Vfs) (major flags : Nat) (dryrun : Bool) (files : Files) :
    envfsLoadDataPass vfs major flags dryrun files [] =
    .ok (if dryrun then files else files.removeEmptyDirs) := by
  simp [envfsLoadDataPass]

variable {vfs : Vfs} {flags : Nat}

/-- One turn of the loop over the inodes. -/
theorem envfsLoadDataPass_step {major : Nat} {buf : List UInt8} (hBuf : buf ≠ []) :
    envfsLoadDataPass vfs major flags dryrun files buf = match readInode major buf with
      | .error stop => .error (stop, files)
      | .ok (e, rest) =>
        (if dryrun then .ok files else loadEntry vfs flags files e).bind fun files =>
          envfsLoadDataPass vfs major flags dryrun files rest := by
  rw [envfsLoadDataPass, if_neg hBuf]
  split
  all_goals
    rename_i hRead
    rw [hRead]

theorem envfsSaveInode_ne_nil (e : Entry) (rest : List UInt8) : envfsSaveInode e ++ rest ≠ [] := by
  intro hNil
  have hLen := congrArg List.length hNil
  grind [envfsSaveInode_length, entrySize]

theorem envfsLoadDataPass_cons (h : e.Storable) (hTerm : e.terminated)
    (hRest : rest.length % 4 = 0) :
    envfsLoadDataPass vfs envfsMajor.toNat flags dryrun files (envfsSaveInode e ++ rest) =
      (if dryrun then .ok files else loadEntry vfs flags files e).bind fun files =>
        envfsLoadDataPass vfs envfsMajor.toNat flags dryrun files rest := by
  have hRead := readInode_saveInode h hRest
  rw [if_neg (by rintro ⟨hLnk, hZero⟩; exact hZero (hTerm hLnk))] at hRead
  rw [envfsLoadDataPass_step (envfsSaveInode_ne_nil e rest), hRead]

theorem envfsLoadDataPass_malformed (h : e.Storable) (hTerm : ¬e.terminated)
    (hRest : rest.length % 4 = 0) :
    envfsLoadDataPass vfs envfsMajor.toNat flags dryrun files (envfsSaveInode e ++ rest) =
      .error (.error .einval, files) := by
  have hRead := readInode_saveInode h hRest
  rw [if_pos (by simpa [Entry.terminated] using hTerm)] at hRead
  rw [envfsLoadDataPass_step (envfsSaveInode_ne_nil e rest), hRead]

def loadEntries (vfs : Vfs) (flags : Nat) (files : Files) (entries : List Entry) :
    Except (Stop × Files) Files :=
  entries.foldlM (loadEntry vfs flags) files

section Body
variable {vfs : Vfs} {flags : Nat} {entries : List Entry} (hStored : ∀ e ∈ entries, e.Storable)
include hStored

theorem envfsLoadDataPass_dryrun (hTerm : ∀ e ∈ entries, e.terminated) (files : Files) :
    envfsLoadDataPass vfs envfsMajor.toNat flags true files (imageBody entries) = .ok files := by
  induction entries with
  | nil => exact envfsLoadDataPass_nil _ _ _ _ _
  | cons e rest ih =>
    rw [imageBody_cons,
      envfsLoadDataPass_cons (hStored e (.head _)) (hTerm e (.head _)) (imageBody_mod rest)]
    exact ih (fun e' h => hStored e' (.tail _ h)) fun e' h => hTerm e' (.tail _ h)

theorem envfsLoadDataPass_unterminated {bad : Entry} (hBad : bad ∈ entries)
    (hTerm : ¬bad.terminated) (files : Files) :
    ∃ e, envfsLoadDataPass vfs envfsMajor.toNat flags true files (imageBody entries) =
      .error (.error e, files) := by
  induction entries with
  | nil => cases hBad
  | cons e rest ih =>
    rw [imageBody_cons]
    by_cases hEntry : e.terminated
    · rw [envfsLoadDataPass_cons (hStored e (.head _)) hEntry (imageBody_mod rest)]
      rcases mem_cons.mp hBad with rfl | hRest
      · exact absurd hEntry hTerm
      · exact ih (fun e' h => hStored e' (.tail _ h)) hRest
    · exact ⟨.einval, envfsLoadDataPass_malformed (hStored e (.head _)) hEntry (imageBody_mod rest)⟩

theorem envfsLoadDataPass_body (hTerm : ∀ e ∈ entries, e.terminated) (files : Files) :
    envfsLoadDataPass vfs envfsMajor.toNat flags false files (imageBody entries) =
      (loadEntries vfs flags files entries).map Files.removeEmptyDirs := by
  induction entries generalizing files with
  | nil => exact envfsLoadDataPass_nil _ _ _ _ _
  | cons e rest ih =>
    rw [imageBody_cons, envfsLoadDataPass_cons (hStored e (.head _))
      (hTerm e (.head _)) (imageBody_mod rest), loadEntries, foldlM_cons]
    cases hLoad : loadEntry vfs flags files e with
    | error stop => rfl
    | ok files' =>
      exact ih (fun e' h => hStored e' (.tail _ h)) (fun e' h => hTerm e' (.tail _ h)) files'

end Body

variable (flags : Nat)

theorem superFields_length (body : List UInt8) : (superFields flags body).length = 24 := by
  simp [superFields]
theorem superBytes_length (body : List UInt8) : (superBytes flags body).length = 28 := rfl

theorem crc32_toNat_le (bytes : List UInt8) :
    ofLe (le 4 (crc32 0 bytes).toNat) = (crc32 0 bytes).toNat :=
  ofLe_le_of_lt (crc32 0 bytes).toNat_lt

theorem envfsCheckSuper_image (hSize : body.length < 4294967296) (rest : List UInt8) :
    envfsCheckSuper (superBytes flags body ++ rest) = .ok (envfsMajor.toNat, body.length) := by
  have hLoad : load (superBytes flags body ++ rest) 0 28 = .ok (superBytes flags body) :=
    (load_of_le (by rw [length_append, superBytes_length]; omega)).trans rfl
  have hTake : (superBytes flags body).take 24 = superFields flags body := rfl
  have hSum : slice 24 4 (superBytes flags body) =
      le 4 (crc32 0 (superFields flags body)).toNat := by
    have hRight := slice_append_right (superFields flags body)
      (le 4 (crc32 0 (superFields flags body)).toNat) 0 4
    rwa [superFields_length] at hRight
  have h0 : slice 0 4 (superBytes flags body) = le 4 envfsMagic := rfl
  have h12 : slice 12 4 (superBytes flags body) = le 4 body.length := rfl
  have h16 : slice 16 1 (superBytes flags body) = [envfsMajor] := rfl
  have hMagic : ofLe (le 4 envfsMagic) = envfsMagic := ofLe_le_of_lt (by decide)
  have hLen : ofLe (le 4 body.length) = body.length :=
    ofLe_le_of_lt (show body.length < 4294967296 from hSize)
  rw [envfsCheckSuper, hLoad, ok_bind, h0, hMagic, if_neg (not_not_intro rfl), hTake, hSum,
    crc32_toNat_le, if_neg (not_not_intro rfl), h12, h16, hLen]
  rfl

theorem slice_image (body : List UInt8) :
    slice 28 body.length (superBytes flags body ++ body) = body := by
  have hMiddle := slice_append_middle (superBytes flags body) body []
  rwa [superBytes_length, append_nil] at hMiddle

theorem envfsCheckData_image (body : List UInt8) :
    envfsCheckData (superBytes flags body ++ body) body.length = .ok body := by
  have hLen : (superBytes flags body ++ body).length = 28 + body.length := by
    rw [length_append, superBytes_length]
  have h8 : slice 8 4 (superBytes flags body ++ body) = le 4 (crc32 0 body).toNat := rfl
  rw [envfsCheckData, load_of_le (by omega), ok_bind, load_of_le (by omega),
    ok_bind, slice_image, h8,
    crc32_toNat_le, if_neg (not_not_intro rfl)]

theorem envfsLoadFromBuf_image (vfs : Vfs) (loadFlags flags : Nat) (files : Files)
    (hSize : body.length + 28 < 2147483648) :
    envfsLoadFromBuf vfs loadFlags files (superBytes flags body ++ body) =
      envfsLoadData vfs envfsMajor.toNat loadFlags files body := by
  have hLen : (superBytes flags body ++ body).length = body.length + 28 := rfl
  rw [envfsLoadFromBuf, hLen, if_neg (by omega), envfsCheckSuper_image flags (by omega)]
  dsimp only
  rw [if_neg (by omega), envfsCheckData_image]

end Barebox.Envfs
