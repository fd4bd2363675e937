import Barebox.Data.CString
import Barebox.Errno
import Mathlib.Data.List.AList

/-! The directory an environment is kept in, with the operations of `fs/fs.c` that
`common/envfs-core.c` performs on it. Paths start at that directory. Where a symbolic link
leads is not computed: it depends on the rest of the file system, and is a parameter. An
operation that a link would take to another place than the path it was given has no result. -/
namespace Barebox.Envfs
open Bytes

/-- The name of a file relative to the directory, as in `/boot/default`. -/
abbrev Path := List UInt8

def slash : UInt8 := 47

/-- `kbasename`: what stands behind the last slash. -/
def basename (p : Path) : List UInt8 := (p.reverse.takeWhile (· ≠ slash)).reverse

def ancestors (p : Path) : List Path := p.inits.filter fun d => d ≠ [] ∧ d ++ [slash] <+: p

inductive Leaf where
  | file (data : List UInt8)
  | link (target : List UInt8)
  deriving DecidableEq

structure Files where
  leaves : AList fun _ : Path => Leaf
  dirs : List Path

@[ext] structure View where
  leaf : Path → Option Leaf
  dir : Path → Bool

def Files.view (files : Files) : View where
  leaf p := files.leaves.lookup p
  dir p := files.dirs.contains p

inductive Found where
  | nothing
  | directory
  | file (data : List UInt8)
  deriving DecidableEq

/-- What is not known about the file system: where a path ends that is a link or runs
through one, and the `st_size` of a link. -/
structure Vfs where
  follow : View → Path → Found
  linkSize : List UInt8 → Nat

def View.set (w : View) (p : Path) (l : Option Leaf) : View where
  leaf := Function.update w.leaf p l
  dir := w.dir

def View.makeDirectory (w : View) (p : Path) : View where
  leaf := w.leaf
  dir d := w.dir d || (ancestors p).contains d

def View.above (w : View) (p : Path) : Option Leaf := (ancestors p).findSome? w.leaf

/-- `filename_lookup` with `LOOKUP_FOLLOW`, as `stat` and `open` use it. -/
def Vfs.lookup (vfs : Vfs) (w : View) (p : Path) : Found :=
  match w.above p with
  | some (.file _) => .nothing
  | some (.link _) => vfs.follow w p
  | none =>
    match w.leaf p with
    | some (.file data) => .file data
    | some (.link _) => vfs.follow w p
    | none => if w.dir p then .directory else .nothing

/-- Why there is no resulting directory: an error was returned, a link led elsewhere, or a byte
outside of the image was read. -/
inductive Stop where
  | error (e : Errno)
  | strayed
  | fault
  deriving DecidableEq

/-- `make_directory` on the directory of a path. It ends at the first thing that is not a
directory. -/
def Files.makeDirectory (files : Files) (p : Path) : Files :=
  { files with dirs := files.dirs ++ (ancestors p).takeWhile fun d => (files.view.leaf d).isNone }

/-- `unlink`, the result of which nobody looks at. -/
def Files.unlink (files : Files) (p : Path) : Except Stop Files :=
  match files.view.above p with
  | some (.file _) => .ok files
  | some (.link _) => .error .strayed
  | none => .ok { files with leaves := files.leaves.erase p }

/-- `symlink`, an error of which is only printed. -/
def Files.symlink (files : Files) (target : List UInt8) (p : Path) : Except Stop Files :=
  match files.view.above p with
  | some (.file _) => .ok files
  | some (.link _) => .error .strayed
  | none =>
    if (files.view.leaf p).isSome ∨ files.view.dir p then .ok files
    else .ok { files with leaves := files.leaves.insert p (.link target) }

/-- `open` with `O_WRONLY | O_CREAT | O_TRUNC`, and `write` of the whole content. -/
def Files.openWrite (vfs : Vfs) (files : Files) (p : Path) (data : List UInt8) :
    Except Stop Files :=
  match files.view.above p with
  | some (.file _) => .error (.error .enotdir)
  | some (.link _) => .error .strayed
  | none =>
    match files.view.leaf p with
    | some (.link _) =>
      match vfs.follow files.view p with
      | .nothing => .error (.error .enoent)
      | .directory => .error (.error .eisdir)
      | .file _ => .error .strayed
    | some (.file _) => .ok { files with leaves := files.leaves.insert p (.file data) }
    | none =>
      if files.view.dir p then .error (.error .eisdir)
      else .ok { files with leaves := files.leaves.insert p (.file data) }

/-- `recursive_action` with `dir_remove_action`, depth first: the directories without a file
or link in them go. -/
def Files.removeEmptyDirs (files : Files) : Files :=
  { files with
    dirs := files.dirs.filter fun d => files.leaves.keys.any fun p => (ancestors p).contains d }

structure Files.Changes (files files' : Files) (p : Path) : Prop where
  leaf : ∀ q, q ≠ p → files'.view.leaf q = files.view.leaf q
  dir : files'.view.dir = files.view.dir

namespace Files
variable {files files' : Files} {p : Path}

theorem Changes.refl (files : Files) (p : Path) : files.Changes files p := ⟨fun _ _ => rfl, rfl⟩

theorem Changes.trans {files'' : Files} (h : files.Changes files' p)
    (h' : files'.Changes files'' p) :
    files.Changes files'' p :=
  ⟨fun q hq => (h'.leaf q hq).trans (h.leaf q hq), h'.dir.trans h.dir⟩

theorem changes_insert (files : Files) (p : Path) (l : Leaf) :
    files.Changes { files with leaves := files.leaves.insert p l } p :=
  ⟨fun _ hq => AList.lookup_insert_ne hq, rfl⟩

theorem changes_erase (files : Files) (p : Path) :
    files.Changes { files with leaves := files.leaves.erase p } p :=
  ⟨fun _ hq => AList.lookup_erase_ne hq, rfl⟩

theorem changes_unlink (h : files.unlink p = .ok files') : files.Changes files' p := by
  unfold unlink at h
  split at h
  · cases h
    exact Changes.refl _ _
  · cases h
  · cases h
    exact changes_erase files p

variable {target data : List UInt8} {vfs : Vfs}

theorem changes_symlink (h : files.symlink target p = .ok files') : files.Changes files' p := by
  unfold symlink at h
  split at h
  · cases h
    exact Changes.refl _ _
  · cases h
  · split at h <;> cases h
    · exact Changes.refl _ _
    · exact changes_insert files p _

theorem symlink_dir (h : files.symlink target p = .ok files')
    (hDir : files.view.dir p = true) (hLeaf : files.view.leaf p = none) :
    files'.view.leaf p = none := by
  unfold symlink at h
  split at h
  · cases h
    exact hLeaf
  · cases h
  · rw [if_pos (.inr hDir)] at h
    cases h
    exact hLeaf

theorem unlink_absent (h : files.unlink p = .ok files') (hLeaf : files.view.leaf p = none) :
    files'.view.leaf p = none := by
  unfold unlink at h
  split at h <;> cases h
  · exact hLeaf
  · exact AList.lookup_erase _ _

theorem changes_openWrite (h : files.openWrite vfs p data = .ok files') :
    files.Changes files' p := by
  unfold openWrite at h
  split at h
  · cases h
  · cases h
  split at h
  · split at h <;> cases h
  · cases h
    exact changes_insert files p _
  · split at h <;> cases h
    exact changes_insert files p _

@[simp] theorem makeDirectory_leaf (files : Files) (p : Path) :
    (files.makeDirectory p).view.leaf = files.view.leaf :=
  rfl

theorem openWrite_dir (hDir : files.view.dir p = true)
    (hLeaf : files.view.leaf p = none) : files.openWrite vfs p data ≠ .ok files' := by
  unfold openWrite
  rw [hLeaf]
  rw [if_pos hDir]
  split <;> exact fun h => by cases h

/-- What is behind a link does not become a file at the path of the link. -/
theorem openWrite_link (hLeaf : files.view.leaf p = some (.link target)) :
    files.openWrite vfs p data ≠ .ok files' := by
  unfold openWrite
  rw [hLeaf]
  dsimp only
  split
  · exact fun h => by cases h
  · exact fun h => by cases h
  · split <;> exact fun h => by cases h

theorem makeDirectory_dir (files : Files) (p d : Path) (h : files.view.dir d = true) :
    (files.makeDirectory p).view.dir d = true := by
  simp only [view, List.contains_eq_mem, decide_eq_true_eq] at h ⊢
  exact List.mem_append_left _ h

@[simp] theorem removeEmptyDirs_leaf (files : Files) :
    files.removeEmptyDirs.view.leaf = files.view.leaf := rfl

end Files

theorem View.above_eq_none {w : View} {p : Path} (h : ∀ a ∈ ancestors p, w.leaf a = none) :
    w.above p = none :=
  List.findSome?_eq_none_iff.mpr h

@[simp] theorem View.set_self (w : View) (p : Path) (l : Option Leaf) : (w.set p l).leaf p = l :=
  Function.update_self _ _ _

theorem View.set_of_ne (w : View) {p q : Path} (h : q ≠ p) (l : Option Leaf) :
    (w.set p l).leaf q = w.leaf q :=
  Function.update_of_ne h _ _

theorem Files.view_insert (files : Files) (p : Path) (l : Leaf) :
    ({ files with leaves := files.leaves.insert p l } : Files).view =
    files.view.set p (some l) := by
  ext1
  · funext q
    by_cases hq : q = p
    · subst q
      rw [View.set_self]
      exact AList.lookup_insert _
    · rw [View.set_of_ne _ hq]
      exact AList.lookup_insert_ne hq
  · rfl

theorem Files.view_erase (files : Files) (p : Path) :
    ({ files with leaves := files.leaves.erase p } : Files).view = files.view.set p none := by
  ext1
  · funext q
    by_cases hq : q = p
    · subst q
      rw [View.set_self]
      exact AList.lookup_erase _ _
    · rw [View.set_of_ne _ hq]
      exact AList.lookup_erase_ne hq
  · rfl

section Clear
variable {files : Files} {p : Path}

theorem Files.makeDirectory_view (h : ∀ a ∈ ancestors p, files.view.leaf a = none) :
    (files.makeDirectory p).view = files.view.makeDirectory p := by
  have hAll : (ancestors p).takeWhile (fun d => (files.view.leaf d).isNone) = ancestors p :=
    List.takeWhile_eq_self_iff.mpr fun a ha => by rw [h a ha]; rfl
  ext1
  · rfl
  funext d
  simp only [makeDirectory, view, View.makeDirectory] at hAll ⊢
  rw [hAll]
  simp

variable (h : files.view.above p = none)
include h

theorem Files.unlink_clear :
    files.unlink p = .ok { files with leaves := files.leaves.erase p } := by rw [unlink, h]

theorem Files.symlink_taken {l : Leaf} (hLeaf : files.view.leaf p = some l) (target : List UInt8) :
    files.symlink target p = .ok files := by simp [symlink, h, hLeaf]

theorem Files.symlink_free (hLeaf : files.view.leaf p = none)
    (hDir : files.view.dir p = false) (target : List UInt8) :
    files.symlink target p = .ok { files with leaves := files.leaves.insert p (.link target) } := by
  simp [symlink, h, hLeaf, hDir]

theorem Files.openWrite_clear {vfs : Vfs}
    (hLeaf : ∀ target, files.view.leaf p ≠ some (.link target))
    (hDir : files.view.dir p = false) (data : List UInt8) :
    files.openWrite vfs p data =
    .ok { files with leaves := files.leaves.insert p (.file data) } := by
  rw [openWrite, h]
  cases hl : files.view.leaf p with
  | none => simp [hDir]
  | some l =>
    cases l with
    | file old => rfl
    | link target => exact absurd hl (hLeaf target)

end Clear
end Barebox.Envfs
