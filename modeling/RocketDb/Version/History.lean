import RocketDb.Version.Builder

/-! # A history of edits in one builder

`LogAndApply` merges one edit into the current version; `Recover` collects all edits of a MANIFEST in one
builder. In the builder a file that was added and deleted later is still there, and is left out at the end; a
file that moved to another level is there twice.

* **`VersionEdit.Legal`** — edits that the two treat alike: an added file is new, or comes from a higher
  level.
* **`Represents`** — the edits of a history in one builder stand for a version; a legal edit keeps this up,
  and a history may start over from a snapshot. -/

namespace RocketDb

open List

/-- The numbers of the files that an edit adds. -/
def VersionEdit.numbers (e : VersionEdit) : List ℕ := e.newFiles.map fun a => a.2.number

/-- The numbers of the files that the edits of a history have added. -/
def usedNumbers (edits : List VersionEdit) : List ℕ := edits.flatMap VersionEdit.numbers

/-- **A legal edit**: it adds every file once. A file is new, or is moved here from a smaller level. -/
structure VersionEdit.Legal (v : Version) (used : List ℕ) (e : VersionEdit) : Prop where
  once : e.numbers.Nodup
  origin : ∀ level f, (level, f) ∈ e.newFiles → f.number ∉ used ∨
    ∃ m < level, f ∈ v.files m ∧ (m, f.number) ∈ e.deletedFiles

/-- All edits of a history in one builder. -/
def builderOf (ucmp : Comparator) (edits : List VersionEdit) : ℕ → LevelState :=
  edits.foldl (builderApply ucmp) emptyBuilder

/-- **The edits in one builder stand for a version.** -/
structure Represents (ucmp : Comparator) (edits : List VersionEdit) (v : Version) : Prop where
  inOrder : ∀ level, FilesInOrder ucmp (builderOf ucmp edits level).addedFiles
  distinct : ∀ level, ((builderOf ucmp edits level).addedFiles.map FileMetaData.number).Nodup
  files : ∀ level < kNumLevels, v.files level =
    (builderOf ucmp edits level).addedFiles.filter fun f =>
      decide (f.number ∉ (builderOf ucmp edits level).deletedFiles)
  noMore : ∀ level, kNumLevels ≤ level → v.files level = []
  origin : ∀ level, ∀ f ∈ (builderOf ucmp edits level).addedFiles, ∃ e ∈ edits, (level, f) ∈ e.newFiles
  /-- A file has never been in a level below its own. -/
  deepest : ∀ level m, level < m → ∀ f ∈ v.files level, ∀ g ∈ (builderOf ucmp edits m).addedFiles,
    g.number ≠ f.number

variable {ucmp : Comparator} {edits : List VersionEdit} {v : Version} {e : VersionEdit}
  {f g : FileMetaData} {level m n : ℕ}

theorem builderOf_append (ucmp : Comparator) (edits more : List VersionEdit) :
    builderOf ucmp (edits ++ more) = more.foldl (builderApply ucmp) (builderOf ucmp edits) :=
  foldl_append

theorem mem_usedNumbers_append {more : List VersionEdit} :
    n ∈ usedNumbers (edits ++ more) ↔ n ∈ usedNumbers edits ∨ n ∈ usedNumbers more := by
  rw [usedNumbers, flatMap_append, mem_append]
  rfl

theorem VersionEdit.mem_numbers : n ∈ e.numbers ↔ ∃ level f, (level, f) ∈ e.newFiles ∧ f.number = n := by
  simp [numbers]

/-- Files in order are determined by their set. -/
theorem eq_of_filesInOrder {fs gs : List FileMetaData} (hfs : FilesInOrder ucmp fs)
    (hgs : FilesInOrder ucmp gs) (hfnum : (fs.map FileMetaData.number).Nodup) (hgnd : gs.Nodup)
    (hmem : ∀ f, f ∈ fs ↔ f ∈ gs) : fs = gs := by
  refine Perm.eq_of_pairwise (fun f g hf hg hfg hgf => ?_) hfs hgs
    ((perm_ext_iff_of_nodup hfnum.of_map hgnd).mpr hmem)
  have hkey : f.sortKey ucmp = g.sortKey ucmp := le_antisymm hfg hgf
  have hnum : f.number = g.number := congrArg (fun p => (ofLex p).2) hkey
  exact inj_on_of_nodup_map hfnum hf ((hmem g).mpr hg) hnum

namespace VersionEdit.Legal

variable {used : List ℕ}

theorem eq_of_number (h : e.Legal v used) (hf : (level, f) ∈ e.newFiles) (hg : (m, g) ∈ e.newFiles)
    (hnum : f.number = g.number) : level = m ∧ f = g :=
  Prod.mk.inj (inj_on_of_nodup_map h.once hf hg hnum)

theorem distinctNumbers (h : e.Legal v used) : DistinctNumbers e.newFiles := by
  intro level
  refine List.Nodup.sublist ?_ h.once
  have hsub : (e.newFiles.filter fun a => a.1 = level).Sublist e.newFiles := filter_sublist
  rw [filesAt, map_map]
  exact hsub.map _

end VersionEdit.Legal

theorem mem_usedNumbers (he : e ∈ edits) (hf : (level, f) ∈ e.newFiles) :
    f.number ∈ usedNumbers edits :=
  mem_flatMap.mpr ⟨e, he, VersionEdit.mem_numbers.mpr ⟨level, f, hf, rfl⟩⟩

namespace Represents

section

variable (h : Represents ucmp edits v)

include h

theorem used (hf : f ∈ (builderOf ucmp edits level).addedFiles) :
    f.number ∈ usedNumbers edits := by
  grind [Represents, mem_usedNumbers]

theorem mem_added (hf : f ∈ v.files level) :
    f ∈ (builderOf ucmp edits level).addedFiles := by
  grind [Represents]

/-- `SaveTo` gives the version back. -/
theorem saveTo (level : ℕ) :
    (builderSaveTo ucmp .empty (builderOf ucmp edits)).files level = v.files level := by
  rw [builderSaveTo]
  rcases Nat.lt_or_ge level kNumLevels with hlevel | hlevel
  · simp only [if_pos hlevel, TwoWayMerge.twoWayMerge_eq, Version.empty, nil_merge, h.files level hlevel]
  · simp only [if_neg hlevel.not_gt, h.noMore level hlevel]

/-- A legal edit takes new numbers. -/
theorem number_ne (he : e.Legal v (usedNumbers edits)) (hf : (level, f) ∈ e.newFiles)
    (hg : g ∈ (builderOf ucmp edits level).addedFiles) :
    g.number ≠ f.number := by
  rcases he.origin level f hf with hfresh | ⟨m, hm, hfm, -⟩
  · intro hnum
    exact hfresh (hnum ▸ h.used hg)
  · exact h.deepest m level hm f hfm g hg

end

theorem builderOf_concat : builderOf ucmp (edits ++ [e]) =
    e.newFiles.foldl (addFile ucmp) (e.deletedFiles.foldl deleteFile (builderOf ucmp edits)) := by
  rw [builderOf_append]
  rfl

theorem added_perm (h : Represents ucmp edits v) (he : e.Legal v (usedNumbers edits)) (level : ℕ) :
    ((builderOf ucmp edits level).addedFiles ++ filesAt level e.newFiles |>.map
      FileMetaData.number).Nodup ∧
    (builderOf ucmp (edits ++ [e]) level).addedFiles.Perm
      ((builderOf ucmp edits level).addedFiles ++ filesAt level e.newFiles) := by
  have hnd : ((builderOf ucmp edits level).addedFiles ++ filesAt level e.newFiles |>.map
      FileMetaData.number).Nodup := by
    rw [map_append, nodup_append]
    refine ⟨h.distinct level, he.distinctNumbers level, ?_⟩
    intro a ha b hb
    obtain ⟨g, hg, rfl⟩ := mem_map.mp ha
    obtain ⟨f, hf, rfl⟩ := mem_map.mp hb
    exact h.number_ne he (mem_filesAt.mp hf) hg
  have hsame : ((e.deletedFiles.foldl deleteFile (builderOf ucmp edits)) level).addedFiles =
      (builderOf ucmp edits level).addedFiles := (foldl_deleteFile (n := 0) e.deletedFiles).1
  refine ⟨hnd, ?_⟩
  rw [builderOf_concat, ← hsame]
  exact foldl_addFile_perm ucmp e.newFiles (by rwa [hsame])

theorem mem_added_concat (h : Represents ucmp edits v) (he : e.Legal v (usedNumbers edits)) :
    f ∈ (builderOf ucmp (edits ++ [e]) level).addedFiles ↔
      f ∈ (builderOf ucmp edits level).addedFiles ∨ (level, f) ∈ e.newFiles := by
  rw [(h.added_perm he level).2.mem_iff, mem_append, mem_filesAt]

/-- What an edit adds is not deleted any more. -/
theorem mem_deleted_concat : n ∈ (builderOf ucmp (edits ++ [e]) level).deletedFiles ↔
    (n ∈ (builderOf ucmp edits level).deletedFiles ∨ (level, n) ∈ e.deletedFiles) ∧
      ∀ f, (level, f) ∈ e.newFiles → f.number ≠ n := by
  rw [builderOf_concat, foldl_addFile_deleted, (foldl_deleteFile e.deletedFiles).2]

section

variable (h : Represents ucmp edits v) (he : e.Legal v (usedNumbers edits))

include h he

/-- The files after one more edit. -/
theorem mem_next (hlevel : level < kNumLevels) :
    f ∈ (applyEdit ucmp v e).files level ↔
      f ∈ (builderOf ucmp (edits ++ [e]) level).addedFiles ∧
        f.number ∉ (builderOf ucmp (edits ++ [e]) level).deletedFiles := by
  rw [mem_applyEdit he.distinctNumbers hlevel, h.mem_added_concat he, mem_deleted_concat,
    h.files level hlevel, mem_filter, decide_eq_true_iff, VersionEdit.Deletes]
  constructor
  · grind
  · rintro ⟨hf | hf, hdel⟩
    · -- a deletion that is taken back would give the number to a second file
      refine ⟨Or.inl ⟨hf, fun hold => hdel ⟨Or.inl hold, fun g hg => ?_⟩⟩,
        fun hx => hdel ⟨Or.inr hx.1, hx.2⟩⟩
      exact (h.number_ne he hg hf).symm
    · exact ⟨Or.inr hf, fun hx => hx.2 f hf rfl⟩

/-- A file that moved down is not in the level above. -/
theorem deepest_next (hlm : level < m) (hlevel : level < kNumLevels)
    (hf : f ∈ (applyEdit ucmp v e).files level) (hg : g ∈ (builderOf ucmp (edits ++ [e]) m).addedFiles) :
    g.number ≠ f.number := by
  intro hnum
  obtain ⟨hf, hdel⟩ := (mem_applyEdit he.distinctNumbers hlevel).mp hf
  rcases (h.mem_added_concat he).mp hg with hg | hg
  · rcases hf with hf | hf
    · exact h.deepest level m hlm f hf g hg hnum
    · rcases he.origin level f hf with hfresh | ⟨i, hi, hfi, -⟩
      · exact hfresh (hnum ▸ h.used hg)
      · exact h.deepest i m (hi.trans hlm) f hfi g hg hnum
  · rcases hf with hf | hf
    · rcases he.origin m g hg with hfresh | ⟨i, hi, hgi, hdeleted⟩
      · exact hfresh (hnum ▸ h.used (h.mem_added hf))
      · rcases Nat.lt_trichotomy i level with hil | rfl | hil
        · grind [Represents]
        · -- the move deletes the file here, and the edit adds its number only once
          refine hdel ⟨hnum ▸ hdeleted, fun f' hf' hnum' => ?_⟩
          exact hlm.ne (he.eq_of_number hf' hg (hnum'.trans hnum.symm)).1
        · grind [Represents]
    · exact hlm.ne' (he.eq_of_number hg hf hnum).1

/-- **A legal edit, applied to the version and collected in the builder.** -/
theorem applyEdit :
    Represents ucmp (edits ++ [e]) (applyEdit ucmp v e) := by
  have hinOrder (level : ℕ) : FilesInOrder ucmp (builderOf ucmp (edits ++ [e]) level).addedFiles := by
    rw [builderOf_concat]
    refine foldl_addFile_inOrder _ ?_
    rw [(foldl_deleteFile (n := 0) e.deletedFiles).1]
    exact h.inOrder level
  have hdistinct (level : ℕ) :
      ((builderOf ucmp (edits ++ [e]) level).addedFiles.map FileMetaData.number).Nodup := by
    obtain ⟨hnd, hperm⟩ := h.added_perm he level
    exact (hperm.map _).nodup_iff.mpr hnd
  refine ⟨hinOrder, hdistinct, fun level hlevel => ?_, fun level hlevel => ?_, fun level f hf => ?_, ?_⟩
  · -- both lists hold the same files, in order
    have hold : FilesInOrder ucmp (v.files level) := by
      rw [h.files level hlevel]
      exact (h.inOrder level).filter _
    have hnodup : (v.files level).Nodup := by
      rw [h.files level hlevel]
      exact (h.distinct level).of_map.filter _
    refine (eq_of_filesInOrder ((hinOrder level).filter _) (filesInOrder_applyEdit hold)
      (((filter_sublist.map _).nodup (hdistinct level))) ?_ fun f => ?_).symm
    · refine nodup_applyEdit he.distinctNumbers hnodup fun f hf hold => ?_
      exact h.number_ne he hf (h.mem_added hold) rfl
    · rw [mem_filter, decide_eq_true_iff]
      exact (h.mem_next he hlevel).symm
  · exact applyEdit_files_of_le hlevel
  · rcases (h.mem_added_concat he).mp hf with hf | hf
    · grind [Represents]
    · grind
  · intro level m hlm f hf g hg
    rcases Nat.lt_or_ge level kNumLevels with hlevel | hlevel
    · exact h.deepest_next he hlm hlevel hf hg
    · grind [applyEdit_files_of_le]

end

end Represents

/-! ## Starting over -/

/-- The files of a version, as an edit lists them. -/
def Version.listing (v : Version) : List (ℕ × FileMetaData) :=
  (List.range kNumLevels).flatMap fun level => (v.files level).map fun f => (level, f)

theorem mem_listing : (level, f) ∈ v.listing ↔ level < kNumLevels ∧ f ∈ v.files level := by
  simp [Version.listing]

theorem represents_nil (ucmp : Comparator) : Represents ucmp [] .empty where
  inOrder _ := List.Pairwise.nil
  distinct _ := nodup_nil
  files _ _ := rfl
  noMore _ _ := rfl
  origin _ _ hf := absurd hf not_mem_nil
  deepest _ _ _ _ hf := absurd hf not_mem_nil

/-- Levels, numbers and order of a version that a history stands for. -/
structure Version.Listable (ucmp : Comparator) (v : Version) : Prop where
  inOrder : ∀ level, FilesInOrder ucmp (v.files level)
  distinct : ∀ level, ((v.files level).map FileMetaData.number).Nodup
  noMore : ∀ level, kNumLevels ≤ level → v.files level = []
  apart : ∀ level m, level < m → ∀ f ∈ v.files level, ∀ g ∈ v.files m, g.number ≠ f.number

theorem Represents.listable (h : Represents ucmp edits v) : v.Listable ucmp where
  inOrder level := by
    rcases Nat.lt_or_ge level kNumLevels with hlevel | hlevel
    · rw [h.files level hlevel]
      exact (h.inOrder level).filter _
    · rw [h.noMore level hlevel]
      exact List.Pairwise.nil
  distinct level := by
    grind [Represents]
  noMore := h.noMore
  apart level m hlm f hf g hg := h.deepest level m hlm f hf g (h.mem_added hg)

namespace Version.Listable

theorem number_inj (h : v.Listable ucmp) (hf : f ∈ v.files level) (hg : g ∈ v.files m)
    (hnum : f.number = g.number) : level = m ∧ f = g := by
  grind [Listable, inj_on_of_nodup_map]

/-- A snapshot is a legal first edit. -/
theorem legal_listing (h : v.Listable ucmp) (he : e.newFiles = v.listing) : e.Legal .empty [] where
  once := by
    have hnd : e.newFiles.Nodup := by
      rw [he, Version.listing, nodup_flatMap]
      refine ⟨fun level _ => (h.distinct level).of_map.map fun f g hfg => (Prod.mk.inj hfg).2, ?_⟩
      refine nodup_range.imp fun {level m} hne => ?_
      refine disjoint_left.mpr ?_
      grind
    refine (nodup_map_iff_inj_on hnd).mpr ?_
    rintro ⟨level, f⟩ hf ⟨m, g⟩ hg hnum
    rw [he] at hf hg
    obtain ⟨rfl, rfl⟩ := h.number_inj (mem_listing.mp hf).2 (mem_listing.mp hg).2 hnum
    rfl
  origin _ _ _ := Or.inl not_mem_nil

end Version.Listable

/-- **A snapshot stands for the version.** -/
theorem represents_snapshot (h : v.Listable ucmp) (hnew : e.newFiles = v.listing)
    (hdeleted : e.deletedFiles = []) : Represents ucmp [e] v := by
  have hlegal := h.legal_listing hnew
  have hfirst : Represents ucmp [e] (applyEdit ucmp .empty e) :=
    (represents_nil ucmp).applyEdit hlegal
  have hfiles (level : ℕ) : (applyEdit ucmp .empty e).files level = v.files level := by
    rcases Nat.lt_or_ge level kNumLevels with hlevel | hlevel
    · refine eq_of_filesInOrder (hfirst.listable.inOrder level) (h.inOrder level)
        (hfirst.listable.distinct level) (h.distinct level).of_map fun f => ?_
      rw [mem_applyEdit hlegal.distinctNumbers hlevel, VersionEdit.Deletes, hdeleted, hnew, mem_listing]
      simp [Version.empty, hlevel]
    · rw [applyEdit_files_of_le hlevel, h.noMore level hlevel]
  rwa [Version.ext (funext hfiles)] at hfirst

end RocketDb
