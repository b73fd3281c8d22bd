import RocketDb.Lib.TwoWayMerge
import RocketDb.Version.Levels
import Mathlib.Data.List.Nodup
import Mathlib.Data.Prod.Lex
import Mathlib.Logic.Function.Basic

/-! # Version edits and the builder (`db/version_edit.h`, `VersionSet::Builder`)

An edit lists files to delete and files to add. The builder collects edits level by level and merges the added
files into those of the base version, by smallest key.

* **`applyEdit`** — the version that `LogAndApply` installs; `mem_applyEdit` says which files it holds.
* **`sortedLevel_applyEdit`** — its levels `≥ 1` are sorted as soon as their files are pairwise disjoint. -/

namespace RocketDb

open Function KeyOrder List TwoWayMerge

/-- `VersionEdit`; a field that is not set is `none`. -/
structure VersionEdit where
  comparator : Option Slice := none
  logNumber : Option ℕ := none
  prevLogNumber : Option ℕ := none
  nextFileNumber : Option ℕ := none
  lastSequence : Option ℕ := none
  compactPointers : List (ℕ × InternalKey) := []
  deletedFiles : List (ℕ × ℕ) := []
  newFiles : List (ℕ × FileMetaData) := []
  deriving DecidableEq, Repr

/-- `BySmallestKey`: by smallest key, then by number. -/
def bySmallestKey (ucmp : Comparator) (f g : FileMetaData) : Bool :=
  match internalCompare ucmp f.smallest g.smallest with
  | .lt => true
  | .gt => false
  | .eq => decide (f.number < g.number)

/-- Insertion into a `FileSet`, a `std::set` ordered by `BySmallestKey`: an equivalent file that is
already there stays. -/
def insertFile (ucmp : Comparator) (f : FileMetaData) : List FileMetaData → List FileMetaData
  | [] => [f]
  | g :: gs =>
    if bySmallestKey ucmp f g then f :: g :: gs
    else if bySmallestKey ucmp g f then g :: insertFile ucmp f gs
    else g :: gs

/-- `Builder::LevelState`: numbers of deleted files, and added files in order. -/
structure LevelState where
  deletedFiles : List ℕ
  addedFiles : List FileMetaData

/-- A builder without edits. -/
def emptyBuilder : ℕ → LevelState := fun _ => ⟨[], []⟩

/-- Record a deletion. -/
def deleteFile (b : ℕ → LevelState) (d : ℕ × ℕ) : ℕ → LevelState :=
  Function.update b d.1 ⟨d.2 :: (b d.1).deletedFiles, (b d.1).addedFiles⟩

/-- Record an added file, which takes back a deletion of its number. -/
def addFile (ucmp : Comparator) (b : ℕ → LevelState) (a : ℕ × FileMetaData) : ℕ → LevelState :=
  Function.update b a.1
    ⟨(b a.1).deletedFiles.filter (· ≠ a.2.number), insertFile ucmp a.2 (b a.1).addedFiles⟩

/-- `Builder::Apply`: deletions first, then additions. -/
def builderApply (ucmp : Comparator) (b : ℕ → LevelState) (edit : VersionEdit) : ℕ → LevelState :=
  edit.newFiles.foldl (addFile ucmp) (edit.deletedFiles.foldl deleteFile b)

/-- `Builder::SaveTo`: before each added file the base files up to its upper bound, without the
deleted files. -/
def builderSaveTo (ucmp : Comparator) (base : Version) (b : ℕ → LevelState) : Version :=
  ⟨fun level =>
    if level < kNumLevels then
      (twoWayMerge (fun x a => !bySmallestKey ucmp a x) (base.files level)
        (b level).addedFiles).filter fun f => decide (f.number ∉ (b level).deletedFiles)
    else []⟩

/-- **The version that `LogAndApply` installs.** -/
def applyEdit (ucmp : Comparator) (v : Version) (edit : VersionEdit) : Version :=
  builderSaveTo ucmp v (builderApply ucmp emptyBuilder edit)

/-! ## The order of files -/

variable {ucmp : Comparator} {f g h : FileMetaData} {files : List FileMetaData}

/-- The key `BySmallestKey` sorts by. -/
def FileMetaData.sortKey (ucmp : Comparator) (f : FileMetaData) : Versioned ucmp.compare ×ₗ ℕ :=
  toLex (f.smallest.rank ucmp, f.number)

theorem bySmallestKey_iff : bySmallestKey ucmp f g = true ↔ f.sortKey ucmp < g.sortKey ucmp := by
  rw [FileMetaData.sortKey, FileMetaData.sortKey, Prod.Lex.toLex_lt_toLex, bySmallestKey]
  cases hc : internalCompare ucmp f.smallest g.smallest with
  | lt => simp [internalCompare_eq_lt.mp hc]
  | gt =>
    have hgt := internalCompare_eq_gt.mp hc
    simp [hgt.not_gt, hgt.ne']
  | eq => simp [internalCompare_eq_eq.mp hc]

theorem not_bySmallestKey_iff :
    (!bySmallestKey ucmp g f) = true ↔ f.sortKey ucmp ≤ g.sortKey ucmp := by
  grind [bySmallestKey_iff]

theorem smallest_le_of_sortKey_le (hfg : f.sortKey ucmp ≤ g.sortKey ucmp) :
    f.smallest.rank ucmp ≤ g.smallest.rank ucmp := by
  rcases Prod.Lex.toLex_le_toLex.mp hfg with h | h
  · exact h.le
  · exact h.1.le

/-- Files in the order of `BySmallestKey`. -/
def FilesInOrder (ucmp : Comparator) (files : List FileMetaData) : Prop :=
  files.Pairwise fun f g => f.sortKey ucmp ≤ g.sortKey ucmp

theorem SortedLevel.filesInOrder (hs : SortedLevel ucmp files) : FilesInOrder ucmp files :=
  hs.rank_lt.imp_of_mem fun hf _ hlt =>
    Prod.Lex.toLex_le_toLex.mpr (Or.inl ((hs.rank_le hf).trans_lt hlt))

/-- A file with a new number is added. -/
theorem insertFile_perm (hnum : ∀ g ∈ files, g.number ≠ f.number) :
    (insertFile ucmp f files).Perm (f :: files) := by
  induction files with
  | nil => exact List.Perm.refl _
  | cons g gs ih =>
    rw [insertFile]
    split_ifs with h₁ h₂
    · exact List.Perm.refl _
    · grind
    · -- equivalent files have equal numbers
      rw [bySmallestKey_iff, not_lt] at h₁ h₂
      have heq : f.sortKey ucmp = g.sortKey ucmp := le_antisymm h₂ h₁
      have hn : f.number = g.number := congrArg (fun p => (ofLex p).2) heq
      exact absurd hn.symm (hnum g mem_cons_self)

theorem mem_insertFile (hh : h ∈ insertFile ucmp f files) : h = f ∨ h ∈ files := by
  induction files with
  | nil => simpa [insertFile] using hh
  | cons g gs ih =>
    grind [insertFile]

/-- The added files stay in order. -/
theorem FilesInOrder.insertFile (hfiles : FilesInOrder ucmp files) (f : FileMetaData) :
    FilesInOrder ucmp (insertFile ucmp f files) := by
  induction files with
  | nil => exact pairwise_singleton _ _
  | cons g gs ih =>
    obtain ⟨hg, hgs⟩ := pairwise_cons.mp hfiles
    rw [RocketDb.insertFile]
    split_ifs with h₁ h₂
    · rw [bySmallestKey_iff] at h₁
      refine pairwise_cons.mpr ⟨fun x hx => ?_, hfiles⟩
      grind
    · rw [bySmallestKey_iff] at h₂
      refine pairwise_cons.mpr ⟨fun x hx => ?_, ih hgs⟩
      grind [mem_insertFile]
    · exact hfiles

/-! ## The state of the builder after an edit -/

variable {b : ℕ → LevelState} {level n : ℕ} {edit : VersionEdit} {v : Version}

theorem foldl_deleteFile (ds : List (ℕ × ℕ)) :
    ((ds.foldl deleteFile b) level).addedFiles = (b level).addedFiles ∧
      (n ∈ ((ds.foldl deleteFile b) level).deletedFiles ↔
        n ∈ (b level).deletedFiles ∨ (level, n) ∈ ds) := by
  induction ds generalizing b with
  | nil => simp
  | cons d ds ih =>
    obtain ⟨hadd, hdel⟩ := ih (b := deleteFile b d)
    rw [foldl_cons, hadd, hdel]
    unfold deleteFile
    grind

/-- The added files of one level. -/
def filesAt (level : ℕ) (as : List (ℕ × FileMetaData)) : List FileMetaData :=
  (as.filter fun a => a.1 = level).map Prod.snd

theorem mem_filesAt {as : List (ℕ × FileMetaData)} : f ∈ filesAt level as ↔ (level, f) ∈ as := by
  simp [filesAt]

/-- Added files of one level have different numbers. -/
def DistinctNumbers (as : List (ℕ × FileMetaData)) : Prop :=
  ∀ level, ((filesAt level as).map FileMetaData.number).Nodup

theorem foldl_addFile_deleted (as : List (ℕ × FileMetaData)) :
    n ∈ ((as.foldl (addFile ucmp) b) level).deletedFiles ↔
      n ∈ (b level).deletedFiles ∧ ∀ f, (level, f) ∈ as → f.number ≠ n := by
  induction as generalizing b with
  | nil => simp
  | cons a as ih =>
    rw [foldl_cons, ih]
    unfold addFile
    grind

theorem foldl_addFile_perm (ucmp : Comparator) (as : List (ℕ × FileMetaData))
    (hd : (((b level).addedFiles ++ filesAt level as).map FileMetaData.number).Nodup) :
    ((as.foldl (addFile ucmp) b) level).addedFiles.Perm
      ((b level).addedFiles ++ filesAt level as) := by
  induction as generalizing b with
  | nil => simp [filesAt]
  | cons a as ih =>
    rw [foldl_cons]
    rcases eq_or_ne a.1 level with rfl | hne
    · have hcons : filesAt a.1 (a :: as) = a.2 :: filesAt a.1 as := by simp [filesAt]
      rw [hcons] at hd ⊢
      have hmid : ((b a.1).addedFiles ++ a.2 :: filesAt a.1 as).Perm
          (a.2 :: (b a.1).addedFiles ++ filesAt a.1 as) := perm_middle
      have hnum : ∀ g ∈ (b a.1).addedFiles, g.number ≠ a.2.number := by
        grind
      have hins : (addFile ucmp b a a.1).addedFiles.Perm (a.2 :: (b a.1).addedFiles) := by
        rw [addFile, update_self]
        exact insertFile_perm hnum
      have hall := (hins.append_right (filesAt a.1 as)).trans hmid.symm
      grind
    · have hskip : filesAt level (a :: as) = filesAt level as := by simp [filesAt, hne]
      have heq : addFile ucmp b a level = b level := update_of_ne (Ne.symm hne) _ _
      grind

theorem foldl_addFile_inOrder (as : List (ℕ × FileMetaData))
    (hb : FilesInOrder ucmp (b level).addedFiles) :
    FilesInOrder ucmp ((as.foldl (addFile ucmp) b) level).addedFiles := by
  induction as generalizing b with
  | nil => exact hb
  | cons a as ih =>
    refine ih ?_
    unfold addFile
    rcases eq_or_ne level a.1 with rfl | hne
    · rw [update_self]
      exact hb.insertFile a.2
    · rwa [update_of_ne hne]

/-! ## The version after an edit -/

/-- A deletion of `n` in `level` that no added file takes back. -/
def VersionEdit.Deletes (edit : VersionEdit) (level n : ℕ) : Prop :=
  (level, n) ∈ edit.deletedFiles ∧ ∀ f, (level, f) ∈ edit.newFiles → f.number ≠ n

theorem mem_deletedFiles_builderApply :
    n ∈ (builderApply ucmp emptyBuilder edit level).deletedFiles ↔ edit.Deletes level n := by
  rw [builderApply, foldl_addFile_deleted, (foldl_deleteFile edit.deletedFiles).2]
  simp [emptyBuilder, VersionEdit.Deletes]

theorem addedFiles_builderApply_perm (ucmp : Comparator) (hd : DistinctNumbers edit.newFiles)
    (level : ℕ) :
    (builderApply ucmp emptyBuilder edit level).addedFiles.Perm (filesAt level edit.newFiles) := by
  have hnil : ((edit.deletedFiles.foldl deleteFile emptyBuilder) level).addedFiles = [] :=
    (foldl_deleteFile (n := 0) edit.deletedFiles).1
  have hperm := foldl_addFile_perm ucmp edit.newFiles
    (show (((edit.deletedFiles.foldl deleteFile emptyBuilder) level).addedFiles ++
      filesAt level edit.newFiles |>.map FileMetaData.number).Nodup by rw [hnil]; exact hd level)
  rwa [hnil, nil_append] at hperm

/-- **The files of the new version**: old and added files without the deleted ones. -/
theorem mem_applyEdit (hd : DistinctNumbers edit.newFiles) (hlevel : level < kNumLevels) :
    f ∈ (applyEdit ucmp v edit).files level ↔
      (f ∈ v.files level ∨ (level, f) ∈ edit.newFiles) ∧ ¬ edit.Deletes level f.number := by
  grind [applyEdit, builderSaveTo, twoWayMerge_eq, mem_merge, addedFiles_builderApply_perm,
    mem_filesAt, mem_deletedFiles_builderApply]

theorem mem_foldl_addFile (as : List (ℕ × FileMetaData))
    (h : f ∈ ((as.foldl (addFile ucmp) b) level).addedFiles) :
    f ∈ (b level).addedFiles ∨ (level, f) ∈ as := by
  induction as generalizing b with
  | nil => exact Or.inl h
  | cons a as ih =>
    rcases ih h with h | h
    · rcases eq_or_ne a.1 level with rfl | hne
      · rw [addFile, update_self] at h
        grind [mem_insertFile]
      · rw [addFile, update_of_ne hne.symm] at h
        exact Or.inl h
    · exact Or.inr (mem_cons_of_mem a h)

/-- The files of the new version are old or added. -/
theorem mem_of_mem_applyEdit (h : f ∈ (applyEdit ucmp v edit).files level) :
    f ∈ v.files level ∨ (level, f) ∈ edit.newFiles := by
  simp only [applyEdit, builderSaveTo] at h
  split_ifs at h
  · rw [mem_filter, twoWayMerge_eq, mem_merge] at h
    refine h.1.imp_right fun hadded => ?_
    have hnil : ((edit.deletedFiles.foldl deleteFile emptyBuilder) level).addedFiles = [] :=
      (foldl_deleteFile (n := 0) edit.deletedFiles).1
    rcases mem_foldl_addFile edit.newFiles hadded with hf | hf
    · rw [hnil] at hf
      cases hf
    · exact hf
  · cases h

/-- In a level without added files the new version keeps files of the old one, in their order. -/
theorem applyEdit_files_sublist (hnew : ∀ f, (level, f) ∉ edit.newFiles) :
    ((applyEdit ucmp v edit).files level).Sublist (v.files level) := by
  have hnil : (builderApply ucmp emptyBuilder edit level).addedFiles = [] := by
    refine eq_nil_iff_forall_not_mem.mpr fun f hf => ?_
    rcases mem_foldl_addFile edit.newFiles hf with hf | hf
    · rw [(foldl_deleteFile (n := 0) edit.deletedFiles).1] at hf
      cases hf
    · exact hnew f hf
  grind [applyEdit, builderSaveTo, twoWayMerge_eq, merge_right, filter_sublist]

/-- A deleted file that no added file brings back is not in the new version. -/
theorem not_mem_applyEdit_of_deletes (h : edit.Deletes level f.number) :
    f ∉ (applyEdit ucmp v edit).files level := by
  intro hf
  simp only [applyEdit, builderSaveTo] at hf
  split_ifs at hf
  · have hkept := (mem_filter.mp hf).2
    rw [decide_eq_true_iff, mem_deletedFiles_builderApply] at hkept
    exact hkept h
  · cases hf

theorem nodup_applyEdit (hd : DistinctNumbers edit.newFiles) (hv : (v.files level).Nodup)
    (hfresh : ∀ f, (level, f) ∈ edit.newFiles → f ∉ v.files level) :
    ((applyEdit ucmp v edit).files level).Nodup := by
  simp only [applyEdit, builderSaveTo, twoWayMerge_eq]
  split_ifs with hlevel
  · refine List.Nodup.filter _ ((merge_perm_append _).nodup_iff.mpr ?_)
    have hperm := addedFiles_builderApply_perm ucmp hd level
    rw [nodup_append]
    refine ⟨hv, hperm.nodup_iff.mpr (hd level).of_map, fun x hx y hy hxy => ?_⟩
    exact hfresh y (mem_filesAt.mp (hperm.mem_iff.mp hy)) (hxy ▸ hx)
  · exact nodup_nil

theorem applyEdit_files_of_le (hlevel : kNumLevels ≤ level) :
    (applyEdit ucmp v edit).files level = [] := by
  simp only [applyEdit, builderSaveTo, if_neg hlevel.not_gt]

theorem filesInOrder_applyEdit (hv : FilesInOrder ucmp (v.files level)) :
    FilesInOrder ucmp ((applyEdit ucmp v edit).files level) := by
  rcases Nat.lt_or_ge level kNumLevels with hlevel | hlevel
  · have hadded : FilesInOrder ucmp (builderApply ucmp emptyBuilder edit level).addedFiles := by
      refine foldl_addFile_inOrder _ ?_
      rw [(foldl_deleteFile (n := 0) edit.deletedFiles).1]
      exact List.Pairwise.nil
    simp only [applyEdit, builderSaveTo, hlevel, if_true, twoWayMerge_eq]
    refine List.Pairwise.filter _ ?_
    have hle : ∀ x y, (!bySmallestKey ucmp y x) = true ↔ x.sortKey ucmp ≤ y.sortKey ucmp :=
      fun x y => not_bySmallestKey_iff
    have hmerge := @pairwise_merge _ (fun x a => !bySmallestKey ucmp a x)
      (fun x y z hxy hyz => (hle x z).mpr (((hle x y).mp hxy).trans ((hle y z).mp hyz)))
      (fun x y => by
        rw [Bool.or_eq_true, hle, hle]
        exact le_total _ _)
      (v.files level) (builderApply ucmp emptyBuilder edit level).addedFiles
      (hv.imp fun h => (hle _ _).mpr h) (hadded.imp fun h => (hle _ _).mpr h)
    exact hmerge.imp fun h => (hle _ _).mp h
  · rw [applyEdit_files_of_le hlevel]
    exact List.Pairwise.nil

/-- The key ranges of two files do not touch. -/
def FileMetaData.Disjoint (ucmp : Comparator) (f g : FileMetaData) : Prop :=
  f.largest.rank ucmp < g.smallest.rank ucmp ∨ g.largest.rank ucmp < f.smallest.rank ucmp

theorem FileMetaData.Disjoint.symm (hfg : f.Disjoint ucmp g) : g.Disjoint ucmp f := Or.symm hfg

theorem SortedLevel.disjoint (hs : SortedLevel ucmp files) (hf : f ∈ files) (hg : g ∈ files)
    (hne : f ≠ g) : f.Disjoint ucmp g := by
  have : Std.Symm (FileMetaData.Disjoint ucmp) := ⟨fun _ _ h => h.symm⟩
  have hp : files.Pairwise (FileMetaData.Disjoint ucmp) := hs.rank_lt.imp Or.inl
  exact hp.forall hf hg hne

/-- Disjoint files in order are a sorted level. -/
theorem sortedLevel_of_disjoint (hord : ∀ f ∈ files, f.Ordered ucmp)
    (hsort : FilesInOrder ucmp files) (hnd : files.Nodup)
    (hdisj : ∀ f ∈ files, ∀ g ∈ files, f ≠ g → f.Disjoint ucmp g) : SortedLevel ucmp files := by
  refine ⟨hord, List.Pairwise.imp_of_mem (fun {f g} hf hg hfg => ?_) (hsort.and hnd)⟩
  obtain ⟨hle, hne⟩ := hfg
  rw [internalCompare_eq_lt]
  rcases hdisj f hf g hg hne with h | h
  · exact h
  · have hg' := FileMetaData.ordered_iff.mp (hord g hg)
    exact absurd (smallest_le_of_sortKey_le hle) (hg'.trans_lt h).not_ge

/-- **The merged level is sorted** as soon as its files are pairwise disjoint. -/
theorem sortedLevel_applyEdit (hd : DistinctNumbers edit.newFiles)
    (hv : SortedLevel ucmp (v.files level))
    (hfresh : ∀ f, (level, f) ∈ edit.newFiles → f ∉ v.files level)
    (hord : ∀ f ∈ (applyEdit ucmp v edit).files level, f.Ordered ucmp)
    (hdisj : ∀ f ∈ (applyEdit ucmp v edit).files level,
      ∀ g ∈ (applyEdit ucmp v edit).files level, f ≠ g → f.Disjoint ucmp g) :
    SortedLevel ucmp ((applyEdit ucmp v edit).files level) :=
  sortedLevel_of_disjoint hord (filesInOrder_applyEdit hv.filesInOrder)
    (nodup_applyEdit hd hv.nodup hfresh) hdisj

end RocketDb
