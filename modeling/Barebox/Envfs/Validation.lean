import Barebox.Envfs.RoundTrip

/-! Which buffers `envfs_load_from_buf` takes: what it reads of them, and that the dry run finds
every format error before a file is touched. -/
namespace Barebox.Envfs
open Bytes List

/-- The inodes in front of the first format error, and that error. -/
def inodes (major : Nat) (buf : List UInt8) : List Entry × Option Stop :=
  if buf = [] then ([], none)
  else
    match _h : readInode major buf with
    | .error stop => ([], some stop)
    | .ok (e, rest) => (e :: (inodes major rest).1, (inodes major rest).2)
termination_by buf.length
decreasing_by all_goals exact readInode_rest _h

/-- The same for a whole image. -/
def imageInodes (buf : List UInt8) : List Entry × Option Stop :=
  if 2147483648 ≤ buf.length ∨ buf.length < 28 then ([], some (.error .einval))
  else
    match envfsCheckSuper buf with
    | .error stop => ([], some stop)
    | .ok (major, size) =>
      if buf.length - 28 < size then ([], some (.error .einval))
      else
        match envfsCheckData buf size with
        | .error stop => ([], some stop)
        | .ok data => inodes major data

/-- A result that is reached if there is no format error; an error finds the given files. -/
def behind (error : Option Stop) (files : Files) (result : Except (Stop × Files) Files) :
    Except (Stop × Files) Files :=
  error.elim result fun stop => .error (stop, files)

variable {dst vfs tmp : Vfs} {major loadFlags flags : Nat} {buf : List UInt8} (files : Files)

theorem inodes_ne_fault (major : Nat) (buf : List UInt8) : (inodes major buf).2 ≠ some .fault := by
  fun_induction inodes major buf with
  | case1 => nofun
  | case2 buf hBuf stop hRead =>
    rcases readInode_cases major buf with ⟨e, hError⟩ | ⟨e, rest, hOk, -⟩
    · rw [hError] at hRead
      cases hRead
      nofun
    · rw [hOk] at hRead
      cases hRead
  | case3 buf hBuf e rest hRead ih => exact ih

/-- Whatever the bytes of an image are, no byte outside of it is read. -/
theorem imageInodes_ne_fault (buf : List UInt8) : (imageInodes buf).2 ≠ some .fault := by
  unfold imageInodes
  split
  · intro h
    cases h
  rename_i hLen
  rw [envfsCheckSuper, load_of_le (by omega), ok_bind]
  generalize slice 0 28 buf = super
  split_ifs with hMagic hCrc
  · intro h
    cases h
  · intro h
    cases h
  · dsimp only
    split
    · intro h
      cases h
    rename_i hSize
    rw [envfsCheckData, load_of_le (by omega), ok_bind, load_of_le (by omega), ok_bind]
    split_ifs with hSum
    · intro h
      cases h
    · exact inodes_ne_fault _ _

theorem envfsLoadDataPass_dryrun_eq :
    envfsLoadDataPass dst major loadFlags true files buf =
      behind (inodes major buf).2 files (.ok files) := by
  fun_induction inodes major buf with
  | case1 => exact envfsLoadDataPass_nil _ _ _ _ _
  | case2 buf hBuf e hRead =>
    rw [envfsLoadDataPass_step hBuf, hRead]
    rfl
  | case3 buf hBuf e rest hRead ih =>
    rw [envfsLoadDataPass_step hBuf, hRead]
    exact ih

theorem envfsLoadDataPass_eq : envfsLoadDataPass dst major loadFlags false files buf =
    (loadEntries dst loadFlags files (inodes major buf).1).bind fun files =>
      behind (inodes major buf).2 files (.ok files.removeEmptyDirs) := by
  fun_induction inodes major buf generalizing files with
  | case1 => exact envfsLoadDataPass_nil _ _ _ _ _
  | case2 buf hBuf e hRead =>
    rw [envfsLoadDataPass_step hBuf, hRead]
    rfl
  | case3 buf hBuf e rest hRead ih =>
    rw [envfsLoadDataPass_step hBuf, hRead]
    dsimp only
    rw [loadEntries, foldlM_cons]
    cases hLoad : loadEntry dst loadFlags files e with
    | error stop => rfl
    | ok files' => exact ih files'

theorem loadEntry_ne_fault (e : Entry) (left : Files) :
    loadEntry dst loadFlags files e ≠ .error (.fault, left) := by
  have hUnlink (f : Files) : f.unlink e.name ≠ .error .fault := by
    unfold Files.unlink
    split <;> nofun
  have hSymlink (f : Files) (target : List UInt8) : f.symlink target e.name ≠ .error .fault := by
    unfold Files.symlink
    split
    · nofun
    · nofun
    · split <;> nofun
  have hOpen (f : Files) : f.openWrite dst e.name e.data ≠ .error .fault := by
    unfold Files.openWrite
    repeat' split
    all_goals nofun
  have hKeep (f : Files) {r : Except Stop Files} (h : r ≠ .error .fault) :
      orKeep f r ≠ .error (.fault, left) := by
    rcases r with stop | f'
    · exact fun hEq => h (by cases hEq; rfl)
    · nofun
  unfold loadEntry
  dsimp only
  split_ifs
  · nofun
  · exact hKeep _ (hUnlink _)
  · cases hMid : (files.makeDirectory e.name).unlink e.name with
    | error stop => exact fun hEq => hUnlink _ (hMid.trans (by cases hEq; rfl))
    | ok mid => exact hKeep mid (hSymlink mid _)
  · exact hKeep _ (hSymlink _ _)
  · exact hKeep _ (hOpen _)

theorem loadEntries_ne_fault (entries : List Entry) (left : Files) :
    loadEntries dst loadFlags files entries ≠ .error (.fault, left) := by
  induction entries generalizing files with
  | nil => nofun
  | cons e entries ih =>
    rw [loadEntries, foldlM_cons]
    cases hLoad : loadEntry dst loadFlags files e with
    | error stop => exact fun hEq =>
        loadEntry_ne_fault files e left (hLoad.trans (by cases hEq; rfl))
    | ok files' => exact ih files'

/-- Either there is a format error, and the files are as they were, or all inodes are loaded. -/
theorem envfsLoadFromBuf_eq : envfsLoadFromBuf dst loadFlags files buf =
    behind (imageInodes buf).2 files
      ((loadEntries dst loadFlags files (imageInodes buf).1).map Files.removeEmptyDirs) := by
  rw [envfsLoadFromBuf, imageInodes]
  split
  · rfl
  rcases envfsCheckSuper buf with e | ⟨major, size⟩
  · rfl
  dsimp only
  split
  · rfl
  rcases envfsCheckData buf size with e | data
  · rfl
  dsimp only
  rw [envfsLoadData, envfsLoadDataPass_dryrun_eq]
  cases hError : (inodes major data).2 with
  | some e => rfl
  | none =>
    refine (envfsLoadDataPass_eq files).trans ?_
    rw [hError]
    cases loadEntries dst loadFlags files (inodes major data).1 <;> rfl

theorem envfsLoadFromBuf_ne_fault (left : Files) :
    envfsLoadFromBuf dst loadFlags files buf ≠ .error (.fault, left) := by
  rw [envfsLoadFromBuf_eq]
  cases hError : (imageInodes buf).2 with
  | some stop => exact fun hEq => imageInodes_ne_fault buf (by cases hEq; exact hError)
  | none =>
    have hEntries := @loadEntries_ne_fault dst loadFlags files (imageInodes buf).1 left
    cases hLoad : loadEntries dst loadFlags files (imageInodes buf).1 with
    | error stop => exact fun hEq => hEntries (hLoad.trans (by cases hEq; rfl))
    | ok files' => nofun

theorem imageInodes_image {body : List UInt8} (hSize : body.length + 28 < 2147483648) :
    imageInodes (superBytes flags body ++ body) = inodes envfsMajor.toNat body := by
  have hLen : (superBytes flags body ++ body).length = body.length + 28 := rfl
  rw [imageInodes, hLen, if_neg (by omega), envfsCheckSuper_image flags (by omega)]
  dsimp only
  rw [if_neg (by omega), envfsCheckData_image]

variable {entries : List Entry} {defaults env : Tree}

theorem inodes_body_iff (hStored : ∀ e ∈ entries, e.Storable) :
    (inodes envfsMajor.toNat (imageBody entries)).2 = none ↔ ∀ e ∈ entries, e.terminated := by
  have hPass := @envfsLoadDataPass_dryrun_eq ⟨fun _ _ => .nothing, length⟩ envfsMajor.toNat 0
    (imageBody entries)
    Tree.empty.toFiles
  constructor
  · intro hNone e he
    by_contra hBad
    obtain ⟨stop, hStop⟩ := envfsLoadDataPass_unterminated hStored he hBad Tree.empty.toFiles
    rw [hStop, hNone] at hPass
    cases hPass
  · intro hTerm
    rw [envfsLoadDataPass_dryrun hStored hTerm] at hPass
    cases hError : (inodes envfsMajor.toNat (imageBody entries)).2 with
    | none => rfl
    | some e =>
      rw [hError] at hPass
      cases hPass

/-- The links in an image have at least the length of their target as their size. -/
def LinksWhole (vfs tmp : Vfs) (flags : Nat) (defaults env : Tree) : Prop :=
  forceBuiltIn flags = false → ((collect vfs tmp defaults.toFiles env.toFiles).map entrySize).sum +
    28 < 2147483648 →
      ∀ p target, env.view.leaf p = some (.link target) →
        sameContent vfs tmp defaults.toFiles env.toFiles p = false →
          target.length ≤ vfs.linkSize target

theorem envfsSave_accepted_iff :
    (∀ image, envfsSave vfs tmp flags defaults.toFiles env.toFiles = some image →
    (imageInodes image).2 = none) ↔ LinksWhole vfs tmp flags defaults env := by
  cases hFlags : forceBuiltIn flags with
  | true =>
    refine iff_of_true (fun image hSave => ?_) (by simp [LinksWhole, hFlags])
    simp only [envfsSave, hFlags, if_true] at hSave
    cases hSave
    exact (congrArg Prod.snd (imageInodes_image (by decide))).trans
      ((inodes_body_iff (forall_mem_nil _)).mpr (forall_mem_nil _))
  | false =>
    rw [envfsSave_eq hFlags, LinksWhole]
    by_cases hRoom : ((collect vfs tmp defaults.toFiles env.toFiles).map entrySize).sum + 28 <
      2147483648
    · have hSize : (imageBody (collect vfs tmp defaults.toFiles env.toFiles)).length + 28 <
          2147483648 := by
        rw [imageBody_length]
        exact hRoom
      simp only [hRoom, if_true, Option.some.injEq, forall_eq', imageInodes_image hSize,
        inodes_body_iff (collect_storable hRoom), hFlags, forall_const]
      refine ⟨fun hTerm p target hLeaf hSame => ?_, collect_terminated⟩
      rw [← zero_mem_readlink (env.targets p target hLeaf)]
      refine hTerm (leafEntry vfs p (.link target)) ?_ isLnk_modeLink
      rw [collect_eq]
      exact mem_append_right _ (mem_kept.mpr ⟨p, .link target, hLeaf, hSame, rfl⟩)
    · simp [hRoom]

/-- No load of an image leaves it. The dry run changes nothing and finds the format error, if there
is one, that the second pass would meet behind the inodes in front of it; so an image with a format
error leaves the files as they were. What `envfs_save` writes has no format error exactly if the
links are whole. -/
theorem envfs_validation_iff (vfs tmp : Vfs) (flags : Nat) (defaults env : Tree) :
    ((∀ buf dst loadFlags files,
        (∀ left, envfsLoadFromBuf dst loadFlags files buf ≠ .error (.fault, left)) ∧
        envfsLoadFromBuf dst loadFlags files buf = behind (imageInodes buf).2 files
          ((loadEntries dst loadFlags files (imageInodes buf).1).map Files.removeEmptyDirs)) ∧
      (∀ dst major loadFlags files buf,
        envfsLoadDataPass dst major loadFlags true files buf =
          behind (inodes major buf).2 files (.ok files) ∧
        envfsLoadDataPass dst major loadFlags false files buf =
          (loadEntries dst loadFlags files (inodes major buf).1).bind fun files =>
            behind (inodes major buf).2 files (.ok files.removeEmptyDirs)) ∧
      ∀ image, envfsSave vfs tmp flags defaults.toFiles env.toFiles = some image →
        (imageInodes image).2 = none) ↔
    LinksWhole vfs tmp flags defaults env := by
  rw [← envfsSave_accepted_iff]
  refine ⟨fun h => h.2.2, fun hSaved => ⟨fun buf dst loadFlags files => ?_,
    fun dst major loadFlags files buf => ?_, hSaved⟩⟩
  · exact ⟨envfsLoadFromBuf_ne_fault files, envfsLoadFromBuf_eq files⟩
  · exact ⟨envfsLoadDataPass_dryrun_eq files, envfsLoadDataPass_eq files⟩

/-- On a file system like `fs/ramfs.c`, whose links have the size zero, a link is saved in an image
that is refused. -/
theorem envfsSave_refused :
    ¬∀ image, envfsSave ⟨fun _ _ => .nothing, fun _ => 0⟩ ⟨fun _ _ => .nothing, fun _ => 0⟩ 0
    Tree.empty.toFiles linkX.toFiles = some image → (imageInodes image).2 = none := by
  rw [envfsSave_accepted_iff]
  intro hWhole
  have hLink := hWhole rfl (by decide +kernel) pathX [121] rfl rfl
  cases hLink

end Barebox.Envfs
