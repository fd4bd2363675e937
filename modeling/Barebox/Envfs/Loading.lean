import Barebox.Envfs.Image

/-! What loading an image does to a directory, entry by entry: the effect each entry is meant
to have, and when it has it. -/
namespace Barebox.Envfs
open Bytes List Files

structure Tree extends Files where
  parents : ∀ p ∈ leaves, ∀ a ∈ ancestors p, a ∈ dirs
  closed : ∀ d ∈ dirs, ∀ a ∈ ancestors d, a ∈ dirs
  apart : ∀ p ∈ leaves, p ∉ dirs
  names : ∀ p ∈ leaves, 0 ∉ p
  targets : ∀ p target, leaves.lookup p = some (.link target) → 0 ∉ target

def Entry.leaf (e : Entry) : Option Leaf :=
  if isLnk e.mode then
    if untilZero e.data = basename e.name then none else some (.link (untilZero e.data))
  else some (.file e.data)

def View.put (w : View) (e : Entry) : View := (w.makeDirectory e.name).set e.name e.leaf

/-- An entry takes the place of what is there: it is no file over a link, and no link over one
with another target that dangles. -/
def Lands (vfs : Vfs) (w : View) (e : Entry) : Prop :=
  if isLnk e.mode then
    untilZero e.data ≠ basename e.name → ∀ old, w.leaf e.name = some (.link old) →
      old ≠ untilZero e.data →
        vfs.lookup (w.makeDirectory e.name) e.name ≠ .nothing
  else ∀ target, w.leaf e.name ≠ some (.link target)

section Step
variable {vfs : Vfs} {flags : Nat} {files files' : Files} {e : Entry}
    (h : loadEntry vfs flags files e = .ok files')
include h

theorem loadEntry_changes : (files.makeDirectory e.name).Changes files' e.name := by
  unfold loadEntry at h
  dsimp only at h
  split at h
  · cases h
    exact Files.Changes.refl _ _
  split at h
  · split at h
    · exact changes_unlink (orKeep_ok.mp h)
    split at h
    · cases hUnlink : (files.makeDirectory e.name).unlink e.name with
      | error stop =>
        rw [hUnlink] at h
        cases h
      | ok mid =>
        rw [hUnlink] at h
        exact (changes_unlink hUnlink).trans (changes_symlink (orKeep_ok.mp h))
    · exact changes_symlink (orKeep_ok.mp h)
  · exact changes_openWrite (orKeep_ok.mp h)

theorem loadEntry_leaf {q : Path} (hq : q ≠ e.name) : files'.view.leaf q = files.view.leaf q :=
  (loadEntry_changes h).leaf q hq

omit h
variable {d p : Path}
include h in
theorem loadEntry_dir (hDir : files.view.dir d = true) (hLeaf : files.view.leaf d = none) :
    files'.view.dir d = true ∧ files'.view.leaf d = none := by
  have hDir' := makeDirectory_dir files e.name d hDir
  refine ⟨by rwa [(loadEntry_changes h).dir], ?_⟩
  by_cases hd : d = e.name
  · subst d
    unfold loadEntry at h
    dsimp only at h
    split at h
    · cases h
      exact hLeaf
    split at h
    · split at h
      · exact unlink_absent (orKeep_ok.mp h) hLeaf
      split at h
      · cases hMid : (files.makeDirectory e.name).unlink e.name with
        | error stop =>
          rw [hMid] at h
          cases h
        | ok mid =>
          rw [hMid] at h
          refine symlink_dir (orKeep_ok.mp h) ?_ (unlink_absent hMid hLeaf)
          rwa [(changes_unlink hMid).dir]
      · exact symlink_dir (orKeep_ok.mp h) hDir' hLeaf
    · exact absurd (orKeep_ok.mp h) (openWrite_dir hDir' hLeaf)
  · rw [loadEntry_leaf h hd, hLeaf]

variable (hFlags : noOverwrite flags = false)
include hFlags

theorem loadEntry_eq (files : Files) (e : Entry) (made : Files)
    (hMade : files.makeDirectory e.name = made) : loadEntry vfs flags files e =
    if isLnk e.mode then
      if untilZero e.data = basename e.name then orKeep made (made.unlink e.name)
      else if vfs.lookup made.view e.name ≠ .nothing then
        (orKeep made (made.unlink e.name)).bind fun mid =>
          orKeep mid (mid.symlink (untilZero e.data) e.name)
      else orKeep made (made.symlink (untilZero e.data) e.name)
    else orKeep made (made.openWrite vfs e.name e.data) := by
  subst hMade
  rw [loadEntry]
  simp [hFlags]

end Step

structure Within (defaults env : Tree) (w : View) : Prop where
  leafDirs : ∀ p ∈ defaults.leaves, p ∉ env.dirs
  dirLeaves : ∀ p ∈ env.leaves, p ∉ defaults.dirs
  leaf : ∀ p l, w.leaf p = some l → p ∈ defaults.leaves ∨ p ∈ env.leaves
  dir : ∀ d, w.dir d = true → d ∈ defaults.dirs ∨ d ∈ env.dirs

namespace Within
variable {defaults env : Tree} {w : View} (h : Within defaults env w)
include h
variable (hp : p ∈ defaults.leaves ∨ p ∈ env.leaves)
include hp in
theorem not_dir : p ∉ defaults.dirs ∧ p ∉ env.dirs := by
  rcases hp with hp | hp
  · exact ⟨defaults.apart p hp, h.leafDirs p hp⟩
  · exact ⟨h.dirLeaves p hp, env.apart p hp⟩

omit h in
include hp in
theorem parent {a : Path} (ha : a ∈ ancestors p) : a ∈ defaults.dirs ∨ a ∈ env.dirs :=
  hp.imp (fun hp => defaults.parents p hp a ha) fun hp => env.parents p hp a ha

include hp in
theorem dir_eq_false : w.dir p = false := by
  obtain ⟨hDefaults, hEnv⟩ := h.not_dir hp
  rw [← Bool.not_eq_true]
  intro hDir
  rcases h.dir p hDir with hd | hd
  · exact hDefaults hd
  · exact hEnv hd

include hp in
theorem clear : ∀ a ∈ ancestors p, w.leaf a = none := by
  intro a ha
  cases hLeaf : w.leaf a with
  | none => rfl
  | some l =>
    obtain ⟨hDefaults, hEnv⟩ := h.not_dir (h.leaf a l hLeaf)
    rcases Within.parent hp ha with hd | hd
    · exact absurd hd hDefaults
    · exact absurd hd hEnv

end Within

section Colliding
variable {defaults env : Tree} {vfs : Vfs} {flags : Nat} {files files' : Files} {e : Entry}
  (h : Within defaults env files.view) (hName : e.name ∈ defaults.leaves ∨ e.name ∈ env.leaves)
include h hName

theorem Within.makeDirectory : Within defaults env (files.makeDirectory e.name).view := by
  refine { h with dir := ?_ }
  intro d hd
  rw [makeDirectory_view (h.clear hName)] at hd
  rcases Bool.or_eq_true_iff.mp hd with hd | hd
  · exact h.dir d hd
  · exact Within.parent hName (contains_iff_mem.mp hd)

theorem Within.loadEntry (hLoad : loadEntry vfs flags files e = .ok files') :
    Within defaults env files'.view := by
  have hMade := h.makeDirectory hName
  have hChanges := loadEntry_changes hLoad
  refine ⟨h.leafDirs, h.dirLeaves, ?_, ?_⟩
  · intro p l hLeaf
    by_cases hp : p = e.name
    · rwa [hp]
    · rw [hChanges.leaf p hp] at hLeaf
      exact hMade.leaf p l hLeaf
  · intro d hd
    grind [hChanges.dir, hMade.dir]

omit h hName

theorem loadEntry_put (hFlags : noOverwrite flags = false) (h : Within defaults env files.view)
    (hName : e.name ∈ defaults.leaves ∨ e.name ∈ env.leaves) (hLands : Lands vfs files.view e) :
    ∃ files', loadEntry vfs flags files e = .ok files' ∧ files'.view = files.view.put e := by
  have hMade := h.makeDirectory hName
  have hView := makeDirectory_view (h.clear hName)
  have hAbove := View.above_eq_none (hMade.clear hName)
  have hDir := hMade.dir_eq_false hName
  rw [loadEntry_eq hFlags _ _ _ rfl]
  have hPut : files.view.put e = (files.makeDirectory e.name).view.set e.name e.leaf := by
    rw [hView]
    rfl
  have hLeafEq := makeDirectory_leaf files e.name
  unfold Lands at hLands
  rw [← hView, ← hLeafEq] at hLands
  rw [hPut]
  generalize files.makeDirectory e.name = made at *
  unfold Entry.leaf
  by_cases hLnk : isLnk e.mode = true
  · rw [if_pos hLnk] at hLands ⊢
    rw [if_pos hLnk]
    by_cases hBase : untilZero e.data = basename e.name
    · rw [if_pos hBase, if_pos hBase, unlink_clear hAbove]
      exact ⟨_, rfl, view_erase made e.name⟩
    rw [if_neg hBase, if_neg hBase]
    by_cases hFound : vfs.lookup made.view e.name ≠ .nothing
    · have hErased := view_erase made e.name
      rw [if_pos hFound, unlink_clear hAbove]
      refine ⟨_, orKeep_ok.mpr (symlink_free ?_ ?_ ?_ _), ?_⟩
      · refine View.above_eq_none fun a ha => ?_
        rw [hErased]
        by_cases haName : a = e.name
        · simp [haName]
        · exact (Function.update_of_ne haName _ _).trans (hMade.clear hName a ha)
      · exact AList.lookup_erase _ _
      · exact hDir
      · rw [view_insert, hErased]
        simp [View.set]
    rw [if_neg hFound]
    rcases hLeaf : made.view.leaf e.name with _ | l
    · exact ⟨_, orKeep_ok.mpr (symlink_free hAbove hLeaf hDir _), view_insert made e.name _⟩
    refine ⟨made, orKeep_ok.mpr (symlink_taken hAbove hLeaf _), ?_⟩
    have hSame : l = .link (untilZero e.data) := by
      cases l with
      | file data =>
        refine absurd ?_ hFound
        simp [Vfs.lookup, hAbove, hLeaf]
      | link old =>
        by_cases hOld : old = untilZero e.data
        · rw [hOld]
        · exact absurd (hLands hBase old hLeaf hOld) hFound
    rw [← hSame, ← hLeaf, View.set, Function.update_eq_self]
  · rw [if_neg hLnk] at hLands ⊢
    rw [if_neg hLnk, openWrite_clear hAbove hLands hDir]
    exact ⟨_, rfl, view_insert made e.name _⟩

theorem loadEntry_lands (hFlags : noOverwrite flags = false) (h : Within defaults env files.view)
    (hName : e.name ∈ defaults.leaves ∨ e.name ∈ env.leaves)
    (hLoad : loadEntry vfs flags files e = .ok files')
    (hLeaf : files'.view.leaf e.name = e.leaf) : Lands vfs files.view e := by
  have hMade := h.makeDirectory hName
  have hAbove := View.above_eq_none (hMade.clear hName)
  rw [loadEntry_eq hFlags _ _ _ rfl] at hLoad
  unfold Lands
  rw [← makeDirectory_view (h.clear hName)]
  by_cases hLnk : isLnk e.mode = true
  · rw [if_pos hLnk]
    rw [if_pos hLnk] at hLoad
    intro hBase old hOld hNe hNothing
    rw [if_neg hBase, if_neg (not_not_intro hNothing), symlink_taken hAbove hOld] at hLoad
    cases hLoad
    rw [Entry.leaf, if_pos hLnk, if_neg hBase, makeDirectory_leaf, hOld] at hLeaf
    cases hLeaf
    exact hNe rfl
  · rw [if_neg hLnk]
    rw [if_neg hLnk] at hLoad
    intro target hTarget
    have hLink : (files.makeDirectory e.name).view.leaf e.name = some (.link target) := hTarget
    exact openWrite_link hLink (orKeep_ok.mp hLoad)

end Colliding

def View.putAll (w : View) (entries : List Entry) : View := entries.foldl View.put w

theorem View.put_self (w : View) (e : Entry) : (w.put e).leaf e.name = e.leaf := View.set_self _ _ _
theorem View.put_of_ne (w : View) (e : Entry) (h : p ≠ e.name) : (w.put e).leaf p = w.leaf p :=
  View.set_of_ne _ h _

variable {entries : List Entry}

theorem View.putAll_of_absent (h : ∀ e ∈ entries, p ≠ e.name) (w : View) :
    (w.putAll entries).leaf p = w.leaf p := by
  induction entries generalizing w with
  | nil => rfl
  | cons e rest ih =>
    exact (ih (fun e' he' => h e' (.tail _ he')) (w.put e)).trans (w.put_of_ne e (h e (.head _)))

theorem View.putAll_of_mem (hNodup : (entries.map Entry.name).Nodup)
    {e : Entry} (h : e ∈ entries) (w : View) :
    (w.putAll entries).leaf e.name = e.leaf := by
  induction entries generalizing w with
  | nil => cases h
  | cons head rest ih =>
    obtain ⟨hHead, hRest⟩ := nodup_cons.mp hNodup
    rcases mem_cons.mp h with rfl | h
    · have hAbsent : ∀ e' ∈ rest, e.name ≠ e'.name := fun e' he' hName =>
        hHead (hName ▸ mem_map_of_mem he')
      exact (putAll_of_absent hAbsent (w.put e)).trans (w.put_self e)
    · exact ih hRest h (w.put head)

theorem View.putAll_none (hNone : ∀ e ∈ entries, e.leaf = none) {w : View} {l : Leaf}
    (h : (w.putAll entries).leaf p = some l) : w.leaf p = some l := by
  induction entries generalizing w with
  | nil => exact h
  | cons e rest ih =>
    have hPut := ih (fun e' he' => hNone e' (.tail _ he')) h
    by_cases hp : p = e.name
    · subst p
      rw [View.put_self, hNone e (.head _)] at hPut
      cases hPut
    · rwa [View.put_of_ne w e hp] at hPut

section Run
variable {defaults env : Tree} {vfs : Vfs} {flags : Nat} {files final : Files}
    {entries : List Entry} {e : Entry}
  {front back : List Entry}

theorem loadEntries_cons {rest : List Entry}
    (h : loadEntries vfs flags files (e :: rest) = .ok final) :
    ∃ mid, loadEntry vfs flags files e = .ok mid ∧ loadEntries vfs flags mid rest = .ok final := by
  rw [loadEntries, foldlM_cons] at h
  cases hStep : loadEntry vfs flags files e with
  | error stop =>
    rw [hStep] at h
    cases h
  | ok mid =>
    rw [hStep] at h
    exact ⟨mid, rfl, h⟩

theorem loadEntries_append (h : loadEntries vfs flags files (front ++ back) = .ok final) :
    ∃ mid, loadEntries vfs flags files front = .ok mid ∧
    loadEntries vfs flags mid back = .ok final := by
  rw [loadEntries, foldlM_append] at h
  cases hFront : List.foldlM (loadEntry vfs flags) files front with
  | error stop =>
    rw [hFront] at h
    cases h
  | ok mid =>
    rw [hFront] at h
    exact ⟨mid, hFront, h⟩

/-- A path the image does not mention keeps what it has. -/
theorem loadEntries_leaf (hAbsent : ∀ e ∈ entries, p ≠ e.name)
    (h : loadEntries vfs flags files entries = .ok final) :
    final.view.leaf p = files.view.leaf p := by
  induction entries generalizing files with
  | nil =>
    cases h
    rfl
  | cons e rest ih =>
    obtain ⟨mid, hStep, hRest⟩ := loadEntries_cons h
    simp [ih (fun e' he' => hAbsent e' (.tail _ he')) hRest,
      loadEntry_leaf hStep (hAbsent e (.head _))]

theorem loadEntries_dir (h : loadEntries vfs flags files entries = .ok final)
    (hDir : files.view.dir d = true) (hLeaf : files.view.leaf d = none) :
    final.view.leaf d = none := by
  induction entries generalizing files with
  | nil =>
    cases h
    exact hLeaf
  | cons e rest ih =>
    obtain ⟨mid, hStep, hRest⟩ := loadEntries_cons h
    obtain ⟨hDir', hLeaf'⟩ := loadEntry_dir hStep hDir hLeaf
    exact ih hRest hDir' hLeaf'

variable (hNames : ∀ e ∈ entries, e.name ∈ defaults.leaves ∨ e.name ∈ env.leaves)
include hNames

theorem Within.loadEntries (h : Within defaults env files.view)
    (hLoad : loadEntries vfs flags files entries = .ok final) : Within defaults env final.view := by
  induction entries generalizing files with
  | nil =>
    cases hLoad
    exact h
  | cons e rest ih =>
    obtain ⟨mid, hStep, hRest⟩ := loadEntries_cons hLoad
    exact ih (fun e' he' => hNames e' (.tail _ he')) (h.loadEntry (hNames e (.head _)) hStep) hRest

theorem loadEntries_put (hFlags : noOverwrite flags = false)
    (hWithin : Within defaults env files.view)
    (hLands : ∀ front e back, entries = front ++ e :: back →
      Lands vfs (files.view.putAll front) e) :
    ∃ final, loadEntries vfs flags files entries = .ok final ∧
    final.view = files.view.putAll entries := by
  induction entries generalizing files with
  | nil => exact ⟨files, rfl, rfl⟩
  | cons e rest ih =>
    have hName := hNames e (.head _)
    obtain ⟨mid, hStep, hMid⟩ := loadEntry_put hFlags hWithin hName (hLands [] e rest rfl)
    obtain ⟨final, hRest, hFinal⟩ : ∃ final, loadEntries vfs flags mid rest = .ok final ∧
        final.view = mid.view.putAll rest :=
      ih (fun e' he' => hNames e' (.tail _ he')) (hWithin.loadEntry hName hStep)
        (fun front e' back hSplit => by
          rw [hMid]
          exact hLands (e :: front) e' back (by simp [hSplit]))
    refine ⟨final, ?_, ?_⟩
    · rw [loadEntries, foldlM_cons, hStep]
      exact hRest
    · rw [hFinal, hMid]
      rfl

theorem loadEntries_lands (hFlags : noOverwrite flags = false)
    (hNodup : (entries.map Entry.name).Nodup)
    (hWithin : Within defaults env files.view) (h : loadEntries vfs flags files entries = .ok final)
    (hLeaf : ∀ e ∈ entries, final.view.leaf e.name = e.leaf)
    (hSplit : entries = front ++ e :: back) : Lands vfs (files.view.putAll front) e := by
  induction entries generalizing files front with
  | nil => cases front <;> cases hSplit
  | cons head rest ih =>
    obtain ⟨hHead, hRest⟩ := nodup_cons.mp hNodup
    obtain ⟨mid, hStep, hLoad⟩ := loadEntries_cons h
    have hName := hNames head (.head _)
    have hKept : final.view.leaf head.name = mid.view.leaf head.name :=
      loadEntries_leaf (fun e' he' hEq => hHead (hEq ▸ mem_map_of_mem he')) hLoad
    have hLands := loadEntry_lands hFlags hWithin hName hStep
      (hKept.symm.trans (hLeaf head (.head _)))
    rcases front with _ | ⟨first, front⟩
    · cases hSplit
      exact hLands
    cases hSplit
    obtain ⟨mid', hStep', hMid⟩ := loadEntry_put hFlags hWithin hName hLands
    rw [hStep] at hStep'
    cases hStep'
    have hTail : Lands vfs (mid.view.putAll front) e :=
      ih (fun e' he' => hNames e' (.tail _ he')) hRest
        (hWithin.loadEntry hName hStep) hLoad (fun e' he' => hLeaf e' (.tail _ he')) rfl
    rwa [hMid] at hTail

end Run
end Barebox.Envfs
