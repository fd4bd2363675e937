import Barebox.Envfs.Loading

/-! Saving an environment relative to the default one and loading the image onto a copy of
the default environment: when the environment comes back. -/
namespace Barebox.Envfs
open Bytes List Option AList View

variable (vfs tmp : Vfs) (defaults env : Files)

def kept : List Entry :=
  (env.leaves.entries.filterMap fun x => fileAction vfs tmp defaults.view env.view x.1 x.2).reverse

def removals (vfs : Vfs) (defaults env : Files) : List Entry :=
  (defaults.leaves.entries.filterMap fun x => fileRemoveAction vfs env.view x.1).reverse

theorem collect_eq :
    collect vfs tmp defaults env = removals vfs defaults env ++ kept vfs tmp defaults env :=
  reverse_append

def sameContent (p : Path) : Bool :=
  compareFile (tmp.lookup defaults.view p) (vfs.lookup env.view p)

section Entries
variable {vfs tmp : Vfs} {defaults env : Files} {e : Entry} {front back : List Entry}

theorem mem_kept : e ∈ kept vfs tmp defaults env ↔
    ∃ p l, env.leaves.lookup p = some l ∧ sameContent vfs tmp defaults env p = false ∧
    e = leafEntry vfs p l := by
  simp only [kept, mem_reverse, mem_filterMap, fileAction, sameContent]
  constructor
  · rintro ⟨⟨p, l⟩, hMem, hAction⟩
    by_cases hSame : compareFile (tmp.lookup defaults.view p) (vfs.lookup env.view p) = true
    · grind
    · simp only [hSame, Bool.false_eq_true, if_false, Option.some.injEq] at hAction
      exact ⟨p, l, mem_lookup_iff.mpr hMem, by simpa using hSame, hAction.symm⟩
  · rintro ⟨p, l, hLeaf, hSame, rfl⟩
    refine ⟨⟨p, l⟩, mem_lookup_iff.mp hLeaf, ?_⟩
    simp [hSame]

theorem mem_removals : e ∈ removals vfs defaults env ↔
    ∃ p ∈ defaults.leaves, vfs.lookup env.view p = .nothing ∧ e = removeEntry p := by
  simp only [removals, mem_reverse, mem_filterMap, fileRemoveAction]
  constructor
  · rintro ⟨⟨p, l⟩, hMem, hAction⟩
    by_cases hNothing : vfs.lookup env.view p = .nothing
    · simp only [hNothing, if_true, Option.some.injEq] at hAction
      exact ⟨p, mem_keys.mpr (mem_map_of_mem hMem), hNothing, hAction.symm⟩
    · grind
  · rintro ⟨p, hMem, hNothing, rfl⟩
    obtain ⟨l, hLeaf⟩ := isSome_iff_exists.mp (lookup_isSome.mpr hMem)
    refine ⟨⟨p, l⟩, mem_lookup_iff.mp hLeaf, ?_⟩
    simp [hNothing]

theorem leafEntry_name (vfs : Vfs) (p : Path) (l : Leaf) : (leafEntry vfs p l).name = p := by
  cases l <;> rfl

theorem map_filterMap_sublist {α β γ : Type} {f : α → Option β} {g : β → γ} {h : α → γ}
    (hf : ∀ x y, f x = some y → g y = h x) (l : List α) :
    ((l.filterMap f).map g).Sublist (l.map h) := by
  induction l with
  | nil => exact List.Sublist.refl _
  | cons x rest ih =>
    cases hx : f x with
    | none =>
      simp [filterMap_cons_none hx, ih.cons]
    | some y =>
      simp [filterMap_cons_some hx, hf x y hx, ih.cons_cons]

theorem kept_nodup (vfs tmp : Vfs) (defaults env : Files) :
    ((kept vfs tmp defaults env).map Entry.name).Nodup := by
  rw [kept, map_reverse, nodup_reverse]
  refine (map_filterMap_sublist (h := Sigma.fst) ?_ _).nodup env.leaves.keys_nodup
  intro x e hAction
  unfold fileAction at hAction
  split at hAction
  · cases hAction
  · cases hAction
    exact leafEntry_name _ _ _

theorem removals_nodup (vfs : Vfs) (defaults env : Files) :
    ((removals vfs defaults env).map Entry.name).Nodup := by
  rw [removals, map_reverse, nodup_reverse]
  refine (map_filterMap_sublist (h := Sigma.fst) ?_ _).nodup defaults.leaves.keys_nodup
  intro x e hAction
  unfold fileRemoveAction at hAction
  split at hAction <;> cases hAction
  rfl

variable (h : kept vfs tmp defaults env = front ++ e :: back)
include h

theorem kept_front : ∀ e' ∈ front, e.name ≠ e'.name := by
  intro e' he' hName
  have hNodup := kept_nodup vfs tmp defaults env
  grind

theorem kept_back : ∀ e' ∈ back, e.name ≠ e'.name := by
  intro e' he' hName
  have hNodup := kept_nodup vfs tmp defaults env
  grind

end Entries

theorem isLnk_modeLink : isLnk modeLink = true := by decide
theorem isLnk_modeFile : isLnk modeFile = false := by decide

variable {p q : Path} {l : Leaf}

theorem basename_nonzero (h : 0 ∉ p) : 0 ∉ basename p := by
  intro hMem
  exact h (mem_reverse.mp (takeWhile_subset _ (mem_reverse.mp hMem)))

theorem removeEntry_leaf (h : 0 ∉ p) : (removeEntry p).leaf = none := by
  have hUntil : untilZero (basename p ++ [0]) = basename p :=
    CString.untilZero_append ⟨basename p, basename_nonzero h⟩ []
  simp [removeEntry, Entry.leaf, isLnk_modeLink, hUntil]

theorem leafEntry_file (vfs : Vfs) (p : Path) (data : List UInt8) :
    (leafEntry vfs p (.file data)).leaf = some (.file data) := by
  simp [leafEntry, Entry.leaf, isLnk_modeFile]

section Links
variable {vfs : Vfs} {target : List UInt8} (h : 0 ∉ target)
    (hSize : target.length ≤ vfs.linkSize target)
include hSize in
theorem readlink_of_le :
    readlink vfs target = target ++ 0 :: zeros (vfs.linkSize target - target.length) := by
  have hLen : vfs.linkSize target + 1 = target.length +
      (vfs.linkSize target - target.length + 1) := by omega
  have hTake : (zeros (vfs.linkSize target + 1)).take (vfs.linkSize target - target.length + 1) =
      zeros (vfs.linkSize target - target.length + 1) := by simp [zeros]
  rw [readlink]
  nth_rewrite 1 [hLen]
  rw [take_length_add_append, hTake]
  rfl

include h
include hSize in
theorem untilZero_readlink : untilZero (readlink vfs target) = target := by
  rw [readlink_of_le hSize]
  exact CString.untilZero_append ⟨target, h⟩ _

theorem zero_mem_readlink : 0 ∈ readlink vfs target ↔ target.length ≤ vfs.linkSize target := by
  constructor
  · intro hMem
    by_contra hSize
    grind [readlink]
  · intro hSize
    simp [readlink_of_le hSize]

include hSize in
theorem leafEntry_link (p : Path) :
    (leafEntry vfs p (.link target)).leaf = if target = basename p then none
    else some (.link target) := by
  simp [leafEntry, Entry.leaf, isLnk_modeLink, untilZero_readlink h hSize]

end Links

/-- Loading the image of the environment onto the default environment gives every path what it
has in the environment. The three directories may lie in different file systems. -/
def Restores (vfs tmp dst : Vfs) (flags loadFlags : Nat) (defaults env : Tree) : Prop :=
  ∃ image files, envfsSave vfs tmp flags defaults.toFiles env.toFiles = some image ∧
    envfsLoadFromBuf dst loadFlags defaults.toFiles image = .ok files ∧
    ∀ p, files.view.leaf p = env.view.leaf p

def viewBefore (vfs : Vfs) (defaults env : Tree) (front : List Entry) : View :=
  (defaults.view.putAll (removals vfs defaults.toFiles env.toFiles)).putAll front

structure Compatible (vfs tmp dst : Vfs) (defaults env : Tree) : Prop where
  /-- The image has less than two gigabytes. -/
  room : ((collect vfs tmp defaults.toFiles env.toFiles).map entrySize).sum + 28 < 2147483648
  /-- No file or link of one environment is a directory of the other. -/
  leafDirs : ∀ p ∈ defaults.leaves, p ∉ env.dirs
  dirLeaves : ∀ p ∈ env.leaves, p ∉ defaults.dirs
  /-- No file takes the place of a link. -/
  files : ∀ p data target, env.view.leaf p = some (.file data) →
    defaults.view.leaf p ≠ some (.link target)
  /-- A link through which the same bytes are read as before is the same link. -/
  dropped : ∀ p target, env.view.leaf p = some (.link target) →
    sameContent vfs tmp defaults.toFiles env.toFiles p = true →
      defaults.view.leaf p = some (.link target)
  /-- Any other link has the length of its target as its size and another name than its target. -/
  whole : ∀ p target, env.view.leaf p = some (.link target) →
    sameContent vfs tmp defaults.toFiles env.toFiles p = false →
    target.length ≤ vfs.linkSize target ∧ target ≠ basename p
  /-- A link with another target is not found dangling when it is replaced. -/
  replaced : ∀ front p target back old,
    kept vfs tmp defaults.toFiles env.toFiles = front ++ leafEntry vfs p (.link target) :: back →
    env.view.leaf p = some (.link target) →
    (viewBefore vfs defaults env front).leaf p = some (.link old) → old ≠ target →
    dst.lookup ((viewBefore vfs defaults env front).makeDirectory p) p ≠ .nothing

section Trees
variable {vfs tmp dst : Vfs} {defaults env : Tree} {p : Path}
    {t : Tree} {l : Leaf} {front back : List Entry}
  {e : Entry}

theorem Tree.clear (t : Tree) (hp : p ∈ t.leaves ∨ p ∈ t.dirs) : t.view.above p = none := by
  refine above_eq_none fun a ha => ?_
  have hDir : a ∈ t.dirs := hp.elim (fun hp => t.parents p hp a ha) fun hp => t.closed p hp a ha
  by_contra hLeaf
  exact t.apart a (lookup_isSome.mp (isSome_iff_ne_none.mpr hLeaf)) hDir

theorem Tree.mem_of_leaf (h : t.view.leaf p = some l) : p ∈ t.leaves :=
  lookup_isSome.mp (isSome_iff_exists.mpr ⟨l, h⟩)

theorem Tree.lookup_file {data : List UInt8} (h : t.view.leaf p = some (.file data))
    (vfs : Vfs) : vfs.lookup t.view p = .file data := by
  rw [Vfs.lookup, t.clear (.inl (Tree.mem_of_leaf h)), h]

theorem Tree.lookup_dir (h : p ∈ t.dirs) (vfs : Vfs) : vfs.lookup t.view p = .directory := by
  have hLeaf : t.view.leaf p = none := by
    by_contra hLeaf
    exact t.apart p (lookup_isSome.mp (isSome_iff_ne_none.mpr hLeaf)) h
  have hDir : t.view.dir p = true := contains_iff_mem.mpr h
  rw [Vfs.lookup, t.clear (.inr h), hLeaf]
  exact if_pos hDir

theorem Tree.within (defaults env : Tree) (hLeafDirs : ∀ p ∈ defaults.leaves, p ∉ env.dirs)
    (hDirLeaves : ∀ p ∈ env.leaves, p ∉ defaults.dirs) : Within defaults env defaults.view :=
  ⟨hLeafDirs, hDirLeaves, fun _ _ h => .inl (Tree.mem_of_leaf h),
    fun _ h => .inl (contains_iff_mem.mp h)⟩

theorem removals_names : ∀ e ∈ removals vfs defaults.toFiles env.toFiles,
    e.name ∈ defaults.leaves ∨ e.name ∈ env.leaves := by
  intro e he
  obtain ⟨p, hp, -, rfl⟩ := mem_removals.mp he
  exact .inl hp

theorem kept_names : ∀ e ∈ kept vfs tmp defaults.toFiles env.toFiles,
    e.name ∈ defaults.leaves ∨ e.name ∈ env.leaves := by
  intro e he
  obtain ⟨p, l, hLeaf, -, rfl⟩ := mem_kept.mp he
  rw [leafEntry_name]
  exact .inr (Tree.mem_of_leaf hLeaf)

theorem removals_leaf : ∀ e ∈ removals vfs defaults.toFiles env.toFiles, e.leaf = none := by
  intro e he
  obtain ⟨p, hp, -, rfl⟩ := mem_removals.mp he
  exact removeEntry_leaf (defaults.names p hp)

/-- A path that leads somewhere in the environment is not removed. -/
theorem not_removed (h : vfs.lookup env.view p ≠ .nothing) :
    ∀ e ∈ removals vfs defaults.toFiles env.toFiles, p ≠ e.name := by
  rintro e he rfl
  obtain ⟨p, -, hNothing, rfl⟩ := mem_removals.mp he
  exact h hNothing

theorem not_kept (h : ∀ l, env.view.leaf p = some l →
    sameContent vfs tmp defaults.toFiles env.toFiles p = true) :
    ∀ e ∈ kept vfs tmp defaults.toFiles env.toFiles, p ≠ e.name := by
  rintro e he rfl
  obtain ⟨p, l, hLeaf, hSame, rfl⟩ := mem_kept.mp he
  rw [leafEntry_name] at h
  rw [h l hLeaf] at hSame
  cases hSame

theorem sameContent_found (h : sameContent vfs tmp defaults.toFiles env.toFiles p = true) :
    ∃ data, tmp.lookup defaults.view p = .file data ∧ vfs.lookup env.view p = .file data := by
  unfold sameContent at h
  cases hDefaults : tmp.lookup defaults.view p with
  | nothing | directory => simp [hDefaults, compareFile] at h
  | file data =>
    cases hEnv : vfs.lookup env.view p with
    | nothing | directory => simp [hDefaults, hEnv, compareFile] at h
    | file data' =>
      have hData : data = data' := by simpa [hDefaults, hEnv, compareFile] using h
      exact ⟨data, rfl, hData ▸ rfl⟩

theorem removals_lands (w : View) :
    ∀ e ∈ removals vfs defaults.toFiles env.toFiles, Lands dst w e := by
  intro e he
  obtain ⟨p, hp, -, rfl⟩ := mem_removals.mp he
  have hUntil : untilZero (basename p ++ [0]) = basename p :=
    CString.untilZero_append ⟨basename p, basename_nonzero (defaults.names p hp)⟩ []
  rw [Lands, removeEntry, if_pos isLnk_modeLink]
  exact fun hNe => absurd hUntil hNe

theorem collect_storable
    (hRoom : ((collect vfs tmp defaults.toFiles env.toFiles).map entrySize).sum + 28 < 2147483648) :
    ∀ e ∈ collect vfs tmp defaults.toFiles env.toFiles, e.Storable := by
  intro e he
  have hSize : entrySize e < 4294967296 := by
    obtain ⟨front, back, hSplit⟩ := append_of_mem he
    grind
  rw [collect_eq, mem_append] at he
  rcases he with he | he
  · obtain ⟨p, hp, -, rfl⟩ := mem_removals.mp he
    exact ⟨defaults.names p hp, (by decide : modeLink < 4294967296), hSize⟩
  obtain ⟨p, l, hLeaf, -, rfl⟩ := mem_kept.mp he
  refine ⟨?_, ?_, hSize⟩
  · rw [leafEntry_name]
    exact env.names p (Tree.mem_of_leaf hLeaf)
  · cases l with
    | file data => exact (by decide : modeFile < 4294967296)
    | link target => exact (by decide : modeLink < 4294967296)

theorem collect_terminated (hWhole : ∀ p target, env.view.leaf p = some (.link target) →
      sameContent vfs tmp defaults.toFiles env.toFiles p = false →
      target.length ≤ vfs.linkSize target) :
    ∀ e ∈ collect vfs tmp defaults.toFiles env.toFiles, e.terminated := by
  intro e he hLnk
  rw [collect_eq, mem_append] at he
  rcases he with he | he
  · obtain ⟨p, -, -, rfl⟩ := mem_removals.mp he
    exact mem_append_right _ (.head _)
  obtain ⟨p, l, hLeaf, hSame, rfl⟩ := mem_kept.mp he
  cases l with
  | file data => exact absurd (isLnk_modeFile.symm.trans hLnk) Bool.false_ne_true
  | link target =>
    exact (zero_mem_readlink (env.targets p target hLeaf)).mpr (hWhole p target hLeaf hSame)

theorem kept_leaf (hWhole : ∀ p target, env.view.leaf p = some (.link target) →
      sameContent vfs tmp defaults.toFiles env.toFiles p = false →
      target.length ≤ vfs.linkSize target ∧ target ≠ basename p)
    (hLeaf : env.view.leaf p = some l)
    (hSame : sameContent vfs tmp defaults.toFiles env.toFiles p = false) :
    (leafEntry vfs p l).leaf = some l := by
  cases l with
  | file data => exact leafEntry_file vfs p data
  | link target =>
    obtain ⟨hSize, hBase⟩ := hWhole p target hLeaf hSame
    rw [leafEntry_link (env.targets p target hLeaf) hSize, if_neg hBase]

variable (hSplit : kept vfs tmp defaults.toFiles env.toFiles = front ++ e :: back)
include hSplit in
/-- Only the default environment has something at a path before its entry is loaded. -/
theorem viewBefore_leaf
    (h : (viewBefore vfs defaults env front).leaf e.name = some l) :
    defaults.view.leaf e.name = some l := by
  rw [viewBefore, putAll_of_absent (kept_front hSplit)] at h
  exact putAll_none removals_leaf h

variable (c : Compatible vfs tmp dst defaults env)
include c
include hSplit in
theorem Compatible.lands : Lands dst (viewBefore vfs defaults env front) e := by
  have hMem : e ∈ kept vfs tmp defaults.toFiles env.toFiles := by simp [hSplit]
  obtain ⟨p, l, hLeaf, hSame, rfl⟩ := mem_kept.mp hMem
  cases l with
  | file data =>
    rw [Lands, leafEntry, if_neg (Bool.eq_false_iff.mp isLnk_modeFile)]
    intro target hTarget
    exact c.files p data target hLeaf (viewBefore_leaf hSplit hTarget)
  | link target =>
    obtain ⟨hSize, -⟩ := c.whole p target hLeaf hSame
    have hUntil := untilZero_readlink (env.targets p target hLeaf) hSize
    rw [Lands, leafEntry, if_pos isLnk_modeLink, hUntil]
    exact fun _ old hOld hNe => c.replaced front p target back old hSplit hLeaf hOld hNe

theorem Compatible.dropped_leaf (hLeaf : env.view.leaf p = some l)
    (hSame : sameContent vfs tmp defaults.toFiles env.toFiles p = true) :
    defaults.view.leaf p = some l := by
  cases l with
  | link target => exact c.dropped p target hLeaf hSame
  | file data =>
    have hWithin := defaults.within env c.leafDirs c.dirLeaves
    obtain ⟨data', hDefaults, hEnv⟩ := sameContent_found hSame
    rw [Tree.lookup_file hLeaf] at hEnv
    cases hEnv
    rw [Vfs.lookup, above_eq_none (hWithin.clear (.inr (Tree.mem_of_leaf hLeaf)))] at hDefaults
    rcases hOld : defaults.view.leaf p with _ | old
    · rw [hOld] at hDefaults
      dsimp only at hDefaults
      split at hDefaults <;> cases hDefaults
    cases old with
    | link target => exact absurd hOld (c.files p data target hLeaf)
    | file old =>
      rw [hOld] at hDefaults
      cases hDefaults
      rfl

theorem Compatible.removed (hLeaf : env.view.leaf p = none) (hp : p ∈ defaults.leaves) :
    vfs.lookup env.view p = .nothing := by
  have hAbove : env.view.above p = none := by
    refine above_eq_none fun a ha => ?_
    by_contra hSome
    exact c.dirLeaves a (lookup_isSome.mp (isSome_iff_ne_none.mpr hSome))
      (defaults.parents p hp a ha)
  have hDir : ¬env.view.dir p = true := fun h => c.leafDirs p hp (contains_iff_mem.mp h)
  rw [Vfs.lookup, hAbove, hLeaf]
  exact if_neg hDir

theorem Compatible.putAll_leaf (p : Path) :
    (viewBefore vfs defaults env (kept vfs tmp defaults.toFiles env.toFiles)).leaf p =
    env.view.leaf p := by
  rw [viewBefore]
  cases hLeaf : env.view.leaf p with
  | some l =>
    cases hSame : sameContent vfs tmp defaults.toFiles env.toFiles p with
    | false =>
      have hMem : leafEntry vfs p l ∈ kept vfs tmp defaults.toFiles env.toFiles :=
        mem_kept.mpr ⟨p, l, hLeaf, hSame, rfl⟩
      have hPut := putAll_of_mem (kept_nodup _ _ _ _) hMem
        (defaults.view.putAll (removals vfs defaults.toFiles env.toFiles))
      rwa [leafEntry_name, kept_leaf c.whole hLeaf hSame] at hPut
    | true =>
      obtain ⟨data, -, hEnv⟩ := sameContent_found hSame
      simp [putAll_of_absent (not_kept fun _ _ => hSame),
        putAll_of_absent (not_removed (by rw [hEnv]; exact fun h => by cases h)),
          c.dropped_leaf hLeaf hSame]
  | none =>
    rw [putAll_of_absent (not_kept fun l hl => by rw [hLeaf] at hl; cases hl)]
    by_cases hp : p ∈ defaults.leaves
    · have hMem : removeEntry p ∈ removals vfs defaults.toFiles env.toFiles :=
        mem_removals.mpr ⟨p, hp, c.removed hLeaf hp, rfl⟩
      exact (putAll_of_mem (removals_nodup _ _ _) hMem defaults.view).trans (removals_leaf _ hMem)
    · by_contra hSome
      obtain ⟨l, hl⟩ := ne_none_iff_exists'.mp hSome
      exact hp (Tree.mem_of_leaf (putAll_none removals_leaf hl))

omit c

theorem loadEntries_removals (vfs dst : Vfs) {loadFlags : Nat}
    (hLoad : noOverwrite loadFlags = false)
    (hWithin : Within defaults env defaults.view) :
    ∃ mid, loadEntries dst loadFlags defaults.toFiles (removals vfs defaults.toFiles env.toFiles) =
    .ok mid ∧
      mid.view = defaults.view.putAll (removals vfs defaults.toFiles env.toFiles) :=
  loadEntries_put removals_names hLoad hWithin fun front e back hSplit =>
    removals_lands _ e (by rw [hSplit]; exact mem_append_right _ (.head _))

section Flags
variable {flags loadFlags : Nat} (hFlags : forceBuiltIn flags = false)
    (hLoad : noOverwrite loadFlags = false)
include hFlags

theorem envfsSave_eq : envfsSave vfs tmp flags defaults.toFiles env.toFiles =
    if ((collect vfs tmp defaults.toFiles env.toFiles).map entrySize).sum + 28 < 2147483648 then
      some (superBytes flags (imageBody (collect vfs tmp defaults.toFiles env.toFiles)) ++
        imageBody (collect vfs tmp defaults.toFiles env.toFiles))
          else none := by simp [envfsSave, hFlags]

include hLoad

theorem restores_of_compatible (c : Compatible vfs tmp dst defaults env) :
    Restores vfs tmp dst flags loadFlags defaults env := by
  have hWithin := defaults.within env c.leafDirs c.dirLeaves
  have hStored := collect_storable c.room
  have hTerm := collect_terminated fun p target hLeaf hSame => (c.whole p target hLeaf hSame).1
  have hSize : (imageBody (collect vfs tmp defaults.toFiles env.toFiles)).length + 28 <
      2147483648 := by
    rw [imageBody_length]
    exact c.room
  obtain ⟨mid, hRemoved, hMid⟩ := loadEntries_removals vfs dst hLoad hWithin
  obtain ⟨final, hKept, hFinal⟩ : ∃ final, loadEntries dst loadFlags mid
      (kept vfs tmp defaults.toFiles env.toFiles) = .ok final ∧ final.view = mid.view.putAll _ :=
    loadEntries_put kept_names hLoad (hWithin.loadEntries removals_names hRemoved)
      fun front e back hSplit => by
      rw [hMid]
      exact c.lands hSplit
  have hAll : loadEntries dst loadFlags defaults.toFiles
      (collect vfs tmp defaults.toFiles env.toFiles) =
      .ok final := by
    rw [collect_eq, loadEntries, foldlM_append]
    rw [loadEntries] at hRemoved
    rw [hRemoved]
    exact hKept
  refine ⟨_, final.removeEmptyDirs, (envfsSave_eq hFlags).trans (if_pos c.room), ?_, ?_⟩
  · rw [envfsLoadFromBuf_image _ _ _ _ hSize, envfsLoadData, envfsLoadDataPass_dryrun hStored hTerm]
    exact (envfsLoadDataPass_body hStored hTerm _).trans (by rw [hAll]; rfl)
  · intro p
    rw [Files.removeEmptyDirs_leaf, hFinal, hMid]
    exact c.putAll_leaf p

omit hLoad in
theorem Restores.loaded (h : Restores vfs tmp dst flags loadFlags defaults env) :
    ((collect vfs tmp defaults.toFiles env.toFiles).map entrySize).sum + 28 < 2147483648 ∧
    (∀ e ∈ collect vfs tmp defaults.toFiles env.toFiles, e.terminated) ∧
    ∃ final, loadEntries dst loadFlags defaults.toFiles
      (collect vfs tmp defaults.toFiles env.toFiles) =
      .ok final ∧ ∀ p, final.view.leaf p = env.view.leaf p := by
  obtain ⟨image, files, hSave, hBuf, hFiles⟩ := h
  rw [envfsSave_eq hFlags] at hSave
  by_cases hRoom : ((collect vfs tmp defaults.toFiles env.toFiles).map entrySize).sum + 28 <
    2147483648
  · rw [if_pos hRoom] at hSave
    cases hSave
    have hStored := collect_storable hRoom
    have hSize : (imageBody (collect vfs tmp defaults.toFiles env.toFiles)).length + 28 <
        2147483648 := by
      simp [imageBody_length, hRoom]
    rw [envfsLoadFromBuf_image _ _ _ _ hSize, envfsLoadData] at hBuf
    have hTerm : ∀ e ∈ collect vfs tmp defaults.toFiles env.toFiles, e.terminated := by
      intro e he
      by_contra hBad
      obtain ⟨stop, hStop⟩ :=
        @envfsLoadDataPass_unterminated dst loadFlags _ hStored e he hBad defaults.toFiles
      rw [hStop] at hBuf
      cases hBuf
    rw [envfsLoadDataPass_dryrun hStored hTerm] at hBuf
    have hPass := (envfsLoadDataPass_body hStored hTerm _).symm.trans hBuf
    cases hEntries : loadEntries dst loadFlags defaults.toFiles
      (collect vfs tmp defaults.toFiles env.toFiles) with
    | error stop =>
      rw [hEntries] at hPass
      cases hPass
    | ok final =>
      rw [hEntries] at hPass
      cases hPass
      exact ⟨hRoom, hTerm, final, rfl, hFiles⟩
  · rw [if_neg hRoom] at hSave
    cases hSave

end Flags

section Succeeded
variable {loadFlags : Nat} {final : Files}
  (hEntries : loadEntries dst loadFlags defaults.toFiles
    (collect vfs tmp defaults.toFiles env.toFiles) =
    .ok final) (hFinal : ∀ p, final.view.leaf p = env.view.leaf p)
include hEntries hFinal
variable {p : Path} {target : List UInt8}

/-- What the image does not mention is the same in both environments. -/
theorem leaf_eq_of_unmentioned (hKept : ∀ e ∈ kept vfs tmp defaults.toFiles env.toFiles, p ≠ e.name)
    (hRemoved : ∀ e ∈ removals vfs defaults.toFiles env.toFiles, p ≠ e.name) :
    defaults.view.leaf p = env.view.leaf p := by
  rw [← hFinal p]
  refine (loadEntries_leaf ?_ hEntries).symm
  intro e he
  rw [collect_eq, mem_append] at he
  exact he.elim (hRemoved e) (hKept e)

theorem leafDirs_of_loaded : ∀ p ∈ defaults.leaves, p ∉ env.dirs := by
  intro p hp hDir
  have hNone : env.view.leaf p = none := by
    by_contra hSome
    exact env.apart p (lookup_isSome.mp (isSome_iff_ne_none.mpr hSome)) hDir
  have hSame :=
    leaf_eq_of_unmentioned hEntries hFinal (not_kept fun l hl => by rw [hNone] at hl; cases hl)
    (not_removed (by rw [Tree.lookup_dir hDir]; exact fun h => by cases h))
  rw [hNone] at hSame
  exact isSome_iff_ne_none.mp (lookup_isSome.mpr hp) hSame

theorem dirLeaves_of_loaded : ∀ p ∈ env.leaves, p ∉ defaults.dirs := by
  intro p hp hDir
  have hNone : defaults.view.leaf p = none := by
    by_contra hSome
    exact defaults.apart p (lookup_isSome.mp (isSome_iff_ne_none.mpr hSome)) hDir
  have hGone := loadEntries_dir hEntries (contains_iff_mem.mpr hDir) hNone
  rw [hFinal p] at hGone
  exact isSome_iff_ne_none.mp (lookup_isSome.mpr hp) hGone

theorem dropped_of_loaded (hSame : sameContent vfs tmp defaults.toFiles env.toFiles p = true) :
    defaults.view.leaf p = env.view.leaf p := by
  obtain ⟨data, -, hEnv⟩ := sameContent_found hSame
  exact leaf_eq_of_unmentioned hEntries hFinal (not_kept fun _ _ => hSame)
    (not_removed (by rw [hEnv]; exact fun h => by cases h))

variable (hLoad : noOverwrite loadFlags = false)
include hLoad

theorem kept_of_loaded : ∃ mid, Within defaults env mid.view ∧
    mid.view = defaults.view.putAll (removals vfs defaults.toFiles env.toFiles) ∧
    loadEntries dst loadFlags mid (kept vfs tmp defaults.toFiles env.toFiles) = .ok final := by
  have hWithin := defaults.within env (leafDirs_of_loaded hEntries hFinal)
    (dirLeaves_of_loaded hEntries hFinal)
  rw [collect_eq] at hEntries
  obtain ⟨mid, hRemoved, hKept⟩ := loadEntries_append hEntries
  obtain ⟨mid', hPut, hView⟩ := loadEntries_removals vfs dst hLoad hWithin
  rw [hRemoved] at hPut
  cases hPut
  exact ⟨mid, hWithin.loadEntries removals_names hRemoved, hView, hKept⟩

theorem ne_basename_of_loaded (hLeaf : env.view.leaf p = some (.link target))
    (hSame : sameContent vfs tmp defaults.toFiles env.toFiles p = false)
    (hSize : target.length ≤ vfs.linkSize target) : target ≠ basename p := by
  intro hBase
  obtain ⟨mid, hWithin, -, hKept⟩ := kept_of_loaded hEntries hFinal hLoad
  obtain ⟨front, back, hSplit⟩ := append_of_mem (mem_kept.mpr ⟨p, .link target, hLeaf, hSame, rfl⟩ :
      leafEntry vfs p (.link target) ∈ kept vfs tmp defaults.toFiles env.toFiles)
  have hNames : ∀ e ∈ front ++ leafEntry vfs p (.link target) :: back,
      e.name ∈ defaults.leaves ∨ e.name ∈ env.leaves := hSplit ▸ kept_names
  have hBack := kept_back hSplit
  rw [hSplit] at hKept
  obtain ⟨before, hFront, hRest⟩ := loadEntries_append hKept
  obtain ⟨after, hStep, hAfter⟩ := loadEntries_cons hRest
  have hBefore := hWithin.loadEntries (fun e he => hNames e (mem_append_left _ he)) hFront
  have hUntil := untilZero_readlink (env.targets p target hLeaf) hSize
  have hLands : Lands dst before.view (leafEntry vfs p (.link target)) := by
    rw [Lands, leafEntry, if_pos isLnk_modeLink]
    exact fun hNe => absurd (hUntil.trans hBase) hNe
  obtain ⟨after', hPut, hView⟩ :=
    loadEntry_put hLoad hBefore (hNames _ (mem_append_right _ (.head _))) hLands
  rw [hStep] at hPut
  cases hPut
  have hGone : final.view.leaf p = none := by
    have hKeep := loadEntries_leaf hBack hAfter
    rw [hView, put_self, leafEntry_link (env.targets p target hLeaf) hSize,
      if_pos hBase, leafEntry_name] at hKeep
    exact hKeep
  rw [hFinal p, hLeaf] at hGone
  cases hGone

variable
    (hWhole : ∀ p target, env.view.leaf p = some (.link target) →
      sameContent vfs tmp defaults.toFiles env.toFiles p = false →
      target.length ≤ vfs.linkSize target ∧ target ≠ basename p)

include hWhole

theorem lands_of_loaded {front back : List Entry} {e : Entry}
    (hSplit : kept vfs tmp defaults.toFiles env.toFiles = front ++ e :: back) :
    Lands dst (viewBefore vfs defaults env front) e := by
  obtain ⟨mid, hWithin, hView, hKept⟩ := kept_of_loaded hEntries hFinal hLoad
  have hLands := loadEntries_lands kept_names hLoad (kept_nodup _ _ _ _) hWithin hKept (by
    intro e' he'
    obtain ⟨p, l, hLeaf, hSame, rfl⟩ := mem_kept.mp he'
    rw [kept_leaf hWhole hLeaf hSame, leafEntry_name, hFinal p]
    exact hLeaf) hSplit
  rwa [hView] at hLands

theorem files_of_loaded {data : List UInt8} (hLeaf : env.view.leaf p = some (.file data)) :
    defaults.view.leaf p ≠ some (.link target) := by
  intro hLink
  cases hSame : sameContent vfs tmp defaults.toFiles env.toFiles p with
  | true =>
    have hEq := dropped_of_loaded hEntries hFinal hSame
    rw [hLink, hLeaf] at hEq
    cases hEq
  | false =>
    obtain ⟨front, back, hSplit⟩ := append_of_mem (mem_kept.mpr ⟨p, .file data, hLeaf, hSame, rfl⟩ :
        leafEntry vfs p (.file data) ∈ kept vfs tmp defaults.toFiles env.toFiles)
    have hLands := lands_of_loaded hEntries hFinal hLoad hWhole hSplit
    rw [Lands, leafEntry, if_neg (Bool.eq_false_iff.mp isLnk_modeFile)] at hLands
    refine hLands target ?_
    have hFound : vfs.lookup env.view p ≠ .nothing := by simp [Tree.lookup_file hLeaf]
    change (viewBefore vfs defaults env front).leaf (leafEntry vfs p (.file data)).name = _
    rw [viewBefore, putAll_of_absent (kept_front hSplit), leafEntry_name,
      putAll_of_absent (not_removed hFound), hLink]

end Succeeded

theorem compatible_of_restores {flags loadFlags : Nat} (hFlags : forceBuiltIn flags = false)
    (hLoad : noOverwrite loadFlags = false)
    (h : Restores vfs tmp dst flags loadFlags defaults env) :
    Compatible vfs tmp dst defaults env := by
  obtain ⟨hRoom, hTerm, final, hEntries, hFinal⟩ := h.loaded hFlags
  have hWhole : ∀ p target, env.view.leaf p = some (.link target) →
      sameContent vfs tmp defaults.toFiles env.toFiles p = false →
      target.length ≤ vfs.linkSize target ∧ target ≠ basename p := by
    intro p target hLeaf hSame
    have hMem : leafEntry vfs p (.link target) ∈ collect vfs tmp defaults.toFiles env.toFiles := by
      rw [collect_eq]
      exact mem_append_right _ (mem_kept.mpr ⟨p, .link target, hLeaf, hSame, rfl⟩)
    have hSize := (zero_mem_readlink (env.targets p target hLeaf)).mp (hTerm _ hMem isLnk_modeLink)
    exact ⟨hSize, ne_basename_of_loaded hEntries hFinal hLoad hLeaf hSame hSize⟩
  refine ⟨hRoom, leafDirs_of_loaded hEntries hFinal, dirLeaves_of_loaded hEntries hFinal,
    ?_, ?_, hWhole, ?_⟩
  · intro p data target hLeaf
    exact files_of_loaded hEntries hFinal hLoad hWhole hLeaf
  · intro p target hLeaf hSame
    exact (dropped_of_loaded hEntries hFinal hSame).trans hLeaf
  intro front p target back old hSplit hLeaf hOld hNe
  have hLands := lands_of_loaded hEntries hFinal hLoad hWhole hSplit
  have hMem : leafEntry vfs p (.link target) ∈ kept vfs tmp defaults.toFiles env.toFiles := by
    simp [hSplit]
  obtain ⟨p', l, -, hSame, hEntry⟩ := mem_kept.mp hMem
  have hName : p = p' := by rw [← leafEntry_name vfs p (.link target), hEntry, leafEntry_name]
  subst hName
  obtain ⟨hSize, hBase⟩ := hWhole p target hLeaf hSame
  have hUntil := untilZero_readlink (env.targets p target hLeaf) hSize
  rw [Lands, leafEntry, if_pos isLnk_modeLink, hUntil] at hLands
  exact hLands hBase old hOld hNe

end Trees

/-- An environment comes back from its image exactly if it is compatible with the default one. -/
theorem envfs_round_trip (vfs tmp dst : Vfs) (defaults env : Tree) {flags loadFlags : Nat}
    (hFlags : forceBuiltIn flags = false) (hLoad : noOverwrite loadFlags = false) :
    Restores vfs tmp dst flags loadFlags defaults env ↔ Compatible vfs tmp dst defaults env :=
  ⟨compatible_of_restores hFlags hLoad, restores_of_compatible hFlags hLoad⟩

theorem eq_of_mem_singleton (h : q ∈ singleton (β := fun _ : Path => Leaf) p l) : q = p := by
  simpa using AList.mem_keys.mp h

theorem eq_of_lookup_singleton {l' : Leaf}
    (h : (singleton (β := fun _ : Path => Leaf) p l).lookup q = some l') : q = p ∧ l' = l := by
  have hMem := mem_lookup_iff.mp h
  rw [singleton_entries, mem_singleton] at hMem
  cases hMem
  exact ⟨rfl, rfl⟩

def Tree.single (p : Path) (l : Leaf) (hTop : ancestors p = []) (hName : 0 ∉ p)
    (hTarget : ∀ target, l = .link target → 0 ∉ target) : Tree where
  leaves := singleton p l
  dirs := []
  parents q hq a ha := by
    rw [eq_of_mem_singleton hq, hTop] at ha
    cases ha
  closed d hd := by cases hd
  apart q _ hq := by cases hq
  names q hq := eq_of_mem_singleton hq ▸ hName
  targets q target hq := hTarget target (eq_of_lookup_singleton hq).2.symm

def Tree.empty : Tree where
  leaves := ∅
  dirs := []
  parents _ hq := by cases hq
  closed d hd := by cases hd
  apart _ _ hq := by cases hq
  names _ hq := by cases hq
  targets _ _ hq := by cases hq

def pathX : Path := [47, 120]

def fileX : Tree := .single pathX (.file [7]) (by decide) (by decide) (fun _ h => by cases h)

def linkX : Tree :=
  .single pathX (.link [121]) (by decide) (by decide) (fun _ h => by cases h; decide)

def dangling : Vfs := ⟨fun _ _ => .nothing, List.length⟩

/-- A link in the place of a file comes back where links have their length as size. -/
theorem envfs_round_trip_link : Restores dangling dangling dangling 0 0 fileX linkX := by
  have hSame : sameContent dangling dangling fileX.toFiles linkX.toFiles pathX = false := by
    decide +kernel
  refine (envfs_round_trip dangling dangling dangling fileX linkX rfl rfl).mpr
    ⟨by decide +kernel, (fun _ _ h => by cases h), (fun _ _ h => by cases h), ?_, ?_, ?_, ?_⟩
  · intro p data target hLeaf
    cases (eq_of_lookup_singleton hLeaf).2
  · intro p target hLeaf hSame'
    rw [(eq_of_lookup_singleton hLeaf).1, hSame] at hSame'
    cases hSame'
  · intro p target hLeaf _
    obtain ⟨rfl, hTarget⟩ := eq_of_lookup_singleton hLeaf
    cases hTarget
    decide
  · intro front p target back old hSplit _ hOld _
    have hFront := viewBefore_leaf hSplit hOld
    cases (eq_of_lookup_singleton hFront).2

/-- On a file system that reports a size of zero for its links, as `fs/ramfs.c` does, the image
of an environment with a new link cannot be read. On any file system, a file in the place of a
link of the default environment does not come back. -/
theorem envfs_round_trip_fails : (∀ vfs tmp dst : Vfs, (∀ target, vfs.linkSize target = 0) →
      ¬Restores vfs tmp dst 0 0 Tree.empty linkX) ∧
        ∀ vfs tmp dst : Vfs, ¬Restores vfs tmp dst 0 0 linkX fileX := by
  constructor
  · intro vfs tmp dst hSize h
    have c := compatible_of_restores rfl rfl h
    have hSame : sameContent vfs tmp Tree.empty.toFiles linkX.toFiles pathX = false := rfl
    obtain ⟨hLen, -⟩ := c.whole pathX [121] rfl hSame
    grind
  · intro vfs tmp dst h
    exact (compatible_of_restores rfl rfl h).files pathX [7] [121] rfl rfl

end Barebox.Envfs
