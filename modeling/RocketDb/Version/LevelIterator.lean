import RocketDb.Iterator.TwoLevelCursor
import RocketDb.Table.BlockCursor
import RocketDb.Version.Files

/-! # Iterators over tables and levels (`db/version_set.cc`, `table/two_level_iterator.cc`)

A two-level iterator is put over an index of one of two kinds: a table's index block, or the list of the files
of a level. Both find their place by bisection, which needs index keys in order.

* **`levelFileNumIterator`** — the files of a level as an index; the largest keys are the index keys.
* **`newConcatenatingIterator`** — the two-level iterator over the tables of a level.
* **`twoLevel_isCursor`** — over either index, with index keys in order that separate neighbouring blocks, the
  two-level iterator shows the blocks one after another. -/

namespace RocketDb

open Transition List TwoLevelIterator

/-! ## The files of a level -/

/-- What `Version::LevelFileNumIterator` shows for a file: its largest key, its number and its size. -/
def levelEntry (f : FileMetaData) : Slice × Slice :=
  (f.largest.encode, encodeFixed64 (.ofNat f.number) ++ encodeFixed64 (.ofNat f.fileSize))

/-- A new `LevelFileNumIterator`, by `index_`, a 32-bit number. -/
def newLevelFileNumIterator (flist : List FileMetaData) : ℕ := flist.length % 2 ^ 32

/-- `Version::LevelFileNumIterator`. -/
def levelFileNumIterator (ucmp : Comparator) (flist : List FileMetaData) : Iterator ℕ where
  call index
    | .seek target => some (findFile ucmp flist (InternalKey.ofSlice target) % 2 ^ 32)
    | .seekToFirst => some 0
    | .seekToLast => some (if flist.isEmpty then 0 else (flist.length - 1) % 2 ^ 32)
    | .next => if index < flist.length then some ((index + 1) % 2 ^ 32) else none
    | .prev =>
      if index < flist.length then
        some (if index = 0 then flist.length % 2 ^ 32 else index - 1)
      else none
  valid index := decide (index < flist.length)
  key index := ((flist[index]?).map fun f => (levelEntry f).1).getD []
  value index := ((flist[index]?).map fun f => (levelEntry f).2).getD []
  status _ := .ok

/-- `GetFileIterator`. The table cache's `NewIterator` may depend on how often it was called before. -/
def getFileIterator {δ : Type*} (newIterator : ℕ → UInt64 → UInt64 → δ) (n : ℕ) (fileValue : Slice) :
    Status ⊕ δ :=
  if fileValue.length ≠ 16 then
    .inl (.corruption (ascii "FileReader invoked with unexpected value") [])
  else .inr (newIterator n (decodeFixed64 fileValue) (decodeFixed64 (fileValue.drop 8)))

/-- `Version::NewConcatenatingIterator` for the files of one level. -/
def newConcatenatingIterator (δ : Type*) (ucmp : Comparator) (flist : List FileMetaData) :
    TwoLevelIterator ℕ (Status ⊕ δ) :=
  .new (levelFileNumIterator ucmp flist) (newLevelFileNumIterator flist)

variable {ucmp : Comparator} {flist : List FileMetaData}

/-- `FindFile` on a sorted level seeks among the largest keys. -/
theorem SortedLevel.findFile_eq_seek (h : SortedLevel ucmp flist) (target : Slice) :
    findFile ucmp flist (InternalKey.ofSlice target) =
      Cursor.seek (flist.map levelEntry) fun x =>
        (internalKeyComparator ucmp).compare x.1 target != .lt := by
  rw [findFile_eq_findIdx h, Cursor.seek, findIdx_map]
  simp [Function.comp_def, levelEntry, InternalKey.ofSlice_encode]

/-- **The file-number iterator is a cursor** over the largest keys of a sorted level. -/
theorem SortedLevel.isCursor_levelFileNumIterator (h : SortedLevel ucmp flist)
    (hlen : flist.length < 2 ^ 32) :
    (levelFileNumIterator ucmp flist).IsCursor (internalKeyComparator ucmp) (flist.map levelEntry)
      (newLevelFileNumIterator flist) flist.length := by
  refine Iterator.isCursor_of_rel (R := fun s i => s = i ∧ i ≤ flist.length) ?_ ?_
    ⟨Nat.mod_eq_of_lt hlen, le_rfl⟩
  · rintro i _ ⟨rfl, -⟩
    by_cases hi : i < flist.length <;> simp [Iterator.shows, levelFileNumIterator, hi]
  · rintro i _ c ⟨rfl, hi⟩
    cases c with
    | seek target =>
      have hle := Cursor.seek_le_length (flist.map levelEntry) fun x =>
        (internalKeyComparator ucmp).compare x.1 target != .lt
      rw [length_map] at hle
      refine .some ⟨?_, hle⟩
      rw [h.findFile_eq_seek, Nat.mod_eq_of_lt (hle.trans_lt hlen)]
    | seekToFirst => exact .some ⟨rfl, Nat.zero_le _⟩
    | seekToLast =>
      refine .some ⟨?_, by simp [Cursor.seekToLast]⟩
      grind [Cursor.seekToLast]
    | next =>
      simp only [levelFileNumIterator, mapCursorCall, length_map]
      split_ifs with hlt
      · exact .some ⟨Nat.mod_eq_of_lt (by omega), by omega⟩
      · exact .none
    | prev =>
      simp only [levelFileNumIterator, mapCursorCall, length_map]
      split_ifs with hlt hzero
      · rw [Cursor.prev, if_pos hzero, Nat.mod_eq_of_lt hlen, length_map]
        exact .some ⟨rfl, le_rfl⟩
      · rw [Cursor.prev, if_neg hzero]
        exact .some ⟨rfl, by omega⟩
      · exact .none

/-- What `GetFileIterator` finds behind a value, by what the table cache finds for a number and a size. -/
def fileBlocks (tables : UInt64 → UInt64 → Option (List (Slice × Slice))) (fileValue : Slice) :
    Option (List (Slice × Slice)) :=
  if fileValue.length ≠ 16 then none
  else tables (decodeFixed64 fileValue) (decodeFixed64 (fileValue.drop 8))

/-- The value of a file in the index holds its number and its size. -/
theorem levelEntry_value (f : FileMetaData) :
    (levelEntry f).2.length = 16 ∧ decodeFixed64 (levelEntry f).2 = .ofNat f.number ∧
      decodeFixed64 ((levelEntry f).2.drop 8) = .ofNat f.fileSize := by
  have hsize := decodeFixed64_encodeFixed64 (.ofNat f.fileSize) []
  grind [levelEntry, length_encodeFixed64, decodeFixed64_encodeFixed64]

theorem fileBlocks_levelEntry (tables : UInt64 → UInt64 → Option (List (Slice × Slice)))
    (f : FileMetaData) :
    fileBlocks tables (levelEntry f).2 = tables (.ofNat f.number) (.ofNat f.fileSize) := by
  grind [levelEntry_value, fileBlocks]

theorem getFileIterator_levelEntry {δ : Type*} (newIterator : ℕ → UInt64 → UInt64 → δ) (n : ℕ)
    (f : FileMetaData) :
    getFileIterator newIterator n (levelEntry f).2 =
      .inr (newIterator n (.ofNat f.number) (.ofNat f.fileSize)) := by
  grind [levelEntry_value, getFileIterator]

/-! ## The result -/

/-- **A level is shown as its tables one after another**: in a sorted level whose tables keep within the
bounds of their files, the largest keys separate the tables. -/
theorem newConcatenatingIterator_shows {δ : Type*} {data : Iterator δ} {newIterator : ℕ → UInt64 → UInt64 → δ}
    {tables : UInt64 → UInt64 → Option (List (Slice × Slice))} {fuel : ℕ}
    (hlevel : SortedLevel ucmp flist) (hlen : flist.length < 2 ^ 32) (hfuel : flist.length < fuel)
    (hopen : ∀ n, ∀ f ∈ flist, ∃ j, data.IsCursor (internalKeyComparator ucmp)
      ((tables (.ofNat f.number) (.ofNat f.fileSize)).getD [])
      (newIterator n (.ofNat f.number) (.ofNat f.fileSize)) j)
    (hfail : ∀ n number size, tables number size = none → data.Failed (newIterator n number size))
    (hbounds : ∀ f ∈ flist, ∀ e ∈ (tables (.ofNat f.number) (.ofNat f.fileSize)).getD [],
      f.smallest.rank ucmp ≤ (InternalKey.ofSlice e.1).rank ucmp ∧
        (InternalKey.ofSlice e.1).rank ucmp ≤ f.largest.rank ucmp) :
    ShowsBlocks (levelFileNumIterator ucmp flist) (emptyIterator.sum data) (internalKeyComparator ucmp)
      (fileBlocks tables) (flist.map levelEntry) (getFileIterator newIterator) fuel
      (newConcatenatingIterator δ ucmp flist) := by
  have hopens : OpensBlocks (emptyIterator.sum data) (internalKeyComparator ucmp) (fileBlocks tables)
      (flist.map levelEntry) (getFileIterator newIterator) := by
    constructor
    · intro n x hx
      obtain ⟨f, hf, rfl⟩ := mem_map.mp hx
      obtain ⟨j, hj⟩ := hopen n f hf
      refine ⟨j, ?_⟩
      rw [blockEntries, fileBlocks_levelEntry, getFileIterator_levelEntry]
      exact hj.inr
    · intro n handle hnone
      rw [fileBlocks] at hnone
      rw [getFileIterator]
      split_ifs at hnone ⊢ with hsize
      · exact emptyIterator_failed rfl |>.embed (f := Sum.inl) (fun _ _ => rfl) fun _ => rfl
      · exact (hfail n _ _ hnone).embed (f := Sum.inr) (fun _ _ => rfl) fun _ => rfl
  refine hopens.showsBlocks (hlevel.isCursor_levelFileNumIterator hlen) ⟨?_, ?_⟩ (by simpa using hfuel)
  · intro x hx e he
    obtain ⟨f, hf, rfl⟩ := mem_map.mp hx
    rw [blockEntries, fileBlocks_levelEntry] at he
    rw [internalKeyComparator_compare, levelEntry, InternalKey.ofSlice_encode]
    exact internalCompare_ne_gt.mpr (hbounds f hf e he).2
  · refine pairwise_map.mpr (hlevel.rank_lt.imp_of_mem fun {f g} _ hg hlt e he => ?_)
    rw [blockEntries, fileBlocks_levelEntry] at he
    rw [internalKeyComparator_compare, levelEntry, InternalKey.ofSlice_encode]
    exact internalCompare_eq_lt.mpr (hlt.trans_le (hbounds g hg e he).1)

end RocketDb
