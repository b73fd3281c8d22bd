import RocketDb.Format.Table
import RocketDb.Lib.BinarySearch
import Mathlib.Order.WithBot

/-! # The files of a level and range queries on them (`db/version_set.cc`)

In level 0 files may overlap; in the deeper levels they are sorted and disjoint in internal-key order
(`SortedLevel`).

* **`findFile`** — the binary search for the file that may hold a key;
* **`someFileOverlapsRange`** — does any file meet a range of user keys;
* **`getOverlappingInputs`** — the files that meet a range, with the restart rule of level 0.

They are specified by the classes of user keys, with `⊥` and `⊤` for the missing ends of a range. -/

namespace RocketDb

open KeyOrder List

/-! ## The queries -/

/-- `FindFile`: the index of the first file whose largest key is at or after `key`. -/
def findFile (ucmp : Comparator) (files : List FileMetaData) (key : InternalKey) : ℕ :=
  BinarySearch.lowerBound (fun f => internalCompare ucmp f.largest key != .lt) files

/-- `AfterFile`: the user key is after every key of the file. -/
def afterFile (ucmp : Comparator) (userKey : Option Slice) (f : FileMetaData) : Bool :=
  match userKey with
  | none => false
  | some u => ucmp.compare u f.largest.userKey == .gt

/-- `BeforeFile`: the user key is before every key of the file. -/
def beforeFile (ucmp : Comparator) (userKey : Option Slice) (f : FileMetaData) : Bool :=
  match userKey with
  | none => false
  | some u => ucmp.compare u f.smallest.userKey == .lt

/-- `SomeFileOverlapsRange`: a scan of the files, or one binary search when they are disjoint and
sorted. -/
def someFileOverlapsRange (ucmp : Comparator) (disjointSortedFiles : Bool)
    (files : List FileMetaData) (smallestUserKey largestUserKey : Option Slice) : Bool :=
  if disjointSortedFiles then
    let index :=
      match smallestUserKey with
      | none => 0
      | some u => findFile ucmp files (.ofParts u kMaxSequenceNumber kValueTypeForSeek)
    match files[index]? with
    | none => false
    | some f => !beforeFile ucmp largestUserKey f
  else
    files.any fun f => !(afterFile ucmp smallestUserKey f || beforeFile ucmp largestUserKey f)

/-- One pass of `GetOverlappingInputs` either finishes or asks for a restart with a wider range. -/
inductive OverlapScan where
  | done (inputs : List FileMetaData)
  | restart (userBegin userEnd : Option Slice)

/-- The file starts before the begin of the range. -/
def startsBefore (ucmp : Comparator) (userBegin : Option Slice) (f : FileMetaData) : Bool :=
  match userBegin with
  | none => false
  | some b => ucmp.compare f.smallest.userKey b == .lt

/-- The file ends after the end of the range. -/
def endsAfter (ucmp : Comparator) (userEnd : Option Slice) (f : FileMetaData) : Bool :=
  match userEnd with
  | none => false
  | some e => ucmp.compare f.largest.userKey e == .gt

/-- The file is completely before the range. -/
def endsBefore (ucmp : Comparator) (userBegin : Option Slice) (f : FileMetaData) : Bool :=
  match userBegin with
  | none => false
  | some b => ucmp.compare f.largest.userKey b == .lt

/-- The file is completely after the range. -/
def startsAfter (ucmp : Comparator) (userEnd : Option Slice) (f : FileMetaData) : Bool :=
  match userEnd with
  | none => false
  | some e => ucmp.compare f.smallest.userKey e == .gt

/-- One pass of the loop of `GetOverlappingInputs`. In level 0 a file that sticks out of the range
widens it, and the pass starts over. -/
def overlapScan (ucmp : Comparator) (level : ℕ) (userBegin userEnd : Option Slice)
    (inputs : List FileMetaData) : List FileMetaData → OverlapScan
  | [] => .done inputs
  | f :: files =>
    if endsBefore ucmp userBegin f then overlapScan ucmp level userBegin userEnd inputs files
    else if startsAfter ucmp userEnd f then
      overlapScan ucmp level userBegin userEnd inputs files
    else if level = 0 ∧ startsBefore ucmp userBegin f = true then
      .restart (some f.smallest.userKey) userEnd
    else if level = 0 ∧ endsAfter ucmp userEnd f = true then
      .restart userBegin (some f.largest.userKey)
    else overlapScan ucmp level userBegin userEnd (inputs ++ [f]) files

/-- The passes of `GetOverlappingInputs`. -/
def overlapPasses (ucmp : Comparator) (level : ℕ) (files : List FileMetaData) :
    ℕ → Option Slice → Option Slice → List FileMetaData
  | 0, _, _ => []
  | fuel + 1, userBegin, userEnd =>
    match overlapScan ucmp level userBegin userEnd [] files with
    | .done inputs => inputs
    | .restart b e => overlapPasses ucmp level files fuel b e

/-- **`GetOverlappingInputs`**: the files of the level that meet the range of user keys. Every restart
moves one end of the range to the end of a file, so there are at most two for each file. -/
def getOverlappingInputs (ucmp : Comparator) (level : ℕ) (files : List FileMetaData)
    (rangeBegin rangeEnd : Option InternalKey) : List FileMetaData :=
  overlapPasses ucmp level files (2 * files.length + 1) (rangeBegin.map InternalKey.userKey)
    (rangeEnd.map InternalKey.userKey)

/-! ## Files and ranges as intervals of classes -/

/-- The file's bounds are in order. -/
def FileMetaData.Ordered (ucmp : Comparator) (f : FileMetaData) : Prop :=
  internalCompare ucmp f.smallest f.largest ≠ .gt

instance (ucmp : Comparator) (f : FileMetaData) : Decidable (f.Ordered ucmp) :=
  inferInstanceAs (Decidable (_ ≠ _))

/-- The files of a level `≥ 1`: each file's bounds are in order, and each file ends before the next
one starts, in internal-key order. -/
def SortedLevel (ucmp : Comparator) (files : List FileMetaData) : Prop :=
  (∀ f ∈ files, f.Ordered ucmp) ∧
    files.Pairwise fun f g => internalCompare ucmp f.largest g.smallest = .lt

instance (ucmp : Comparator) (files : List FileMetaData) : Decidable (SortedLevel ucmp files) :=
  inferInstanceAs (Decidable (_ ∧ _))

/-- The class of the first user key of a file. -/
abbrev FileMetaData.lo (ucmp : Comparator) (f : FileMetaData) : Class ucmp.compare :=
  userClass ucmp f.smallest.userKey

/-- The class of the last user key of a file. -/
abbrev FileMetaData.hi (ucmp : Comparator) (f : FileMetaData) : Class ucmp.compare :=
  userClass ucmp f.largest.userKey

/-- The begin of a range, `⊥` if there is none. -/
def beginClass (ucmp : Comparator) (b : Option Slice) : WithBot (Class ucmp.compare) :=
  b.map (userClass ucmp)

/-- The end of a range, `⊤` if there is none. -/
def endClass (ucmp : Comparator) (e : Option Slice) : WithTop (Class ucmp.compare) :=
  e.map (userClass ucmp)

variable {ucmp : Comparator} {f g : FileMetaData} {files inputs : List FileMetaData}
  {b e : Option Slice} {level : ℕ} {b' e' : Option Slice} {taken : Set FileMetaData} {α : Type*}
  {r : List FileMetaData} {p q : α → Bool} {l : List α}

theorem FileMetaData.ordered_iff :
    f.Ordered ucmp ↔ f.smallest.rank ucmp ≤ f.largest.rank ucmp := internalCompare_ne_gt

/-- The file's range of user keys contains the key, as `ForEachOverlapping` tests it. -/
def FileMetaData.covers (ucmp : Comparator) (userKey : Slice) (f : FileMetaData) : Bool :=
  ucmp.compare userKey f.smallest.userKey != .lt && ucmp.compare userKey f.largest.userKey != .gt

theorem FileMetaData.covers_iff {u : Slice} :
    f.covers ucmp u = true ↔ f.lo ucmp ≤ userClass ucmp u ∧ userClass ucmp u ≤ f.hi ucmp := by
  rw [covers, Bool.and_eq_true, bne_iff_ne, bne_iff_ne, cls_le_iff_ne_lt, cls_le_iff]

theorem FileMetaData.Ordered.lo_le_hi (h : f.Ordered ucmp) : f.lo ucmp ≤ f.hi ucmp :=
  userClass_le_of_rank_le (FileMetaData.ordered_iff.mp h)

theorem endsBefore_iff : endsBefore ucmp b f = true ↔ (f.hi ucmp : WithBot _) < beginClass ucmp b := by
  cases b with
  | none => exact ⟨fun h => by simp [endsBefore] at h, fun h => absurd h not_lt_bot⟩
  | some x =>
    rw [endsBefore, beq_iff_eq, ← cls_lt_iff]
    exact WithBot.coe_lt_coe.symm

theorem startsAfter_iff :
    startsAfter ucmp e f = true ↔ endClass ucmp e < (f.lo ucmp : WithTop _) := by
  cases e with
  | none => exact ⟨fun h => by simp [startsAfter] at h, fun h => absurd h not_top_lt⟩
  | some x =>
    rw [startsAfter, beq_iff_eq, ← cls_lt_iff_gt]
    exact WithTop.coe_lt_coe.symm

theorem startsBefore_iff :
    startsBefore ucmp b f = true ↔ (f.lo ucmp : WithBot _) < beginClass ucmp b := by
  cases b with
  | none => exact ⟨fun h => by simp [startsBefore] at h, fun h => absurd h not_lt_bot⟩
  | some x =>
    rw [startsBefore, beq_iff_eq, ← cls_lt_iff]
    exact WithBot.coe_lt_coe.symm

theorem endsAfter_iff :
    endsAfter ucmp e f = true ↔ endClass ucmp e < (f.hi ucmp : WithTop _) := by
  cases e with
  | none => exact ⟨fun h => by simp [endsAfter] at h, fun h => absurd h not_top_lt⟩
  | some x =>
    rw [endsAfter, beq_iff_eq, ← cls_lt_iff_gt]
    exact WithTop.coe_lt_coe.symm

/-- The file meets the range. -/
def Meets (ucmp : Comparator) (b e : Option Slice) (f : FileMetaData) : Prop :=
  beginClass ucmp b ≤ (f.hi ucmp : WithBot _) ∧ (f.lo ucmp : WithTop _) ≤ endClass ucmp e

/-- The file lies within the range. -/
def Within (ucmp : Comparator) (b e : Option Slice) (f : FileMetaData) : Prop :=
  beginClass ucmp b ≤ (f.lo ucmp : WithBot _) ∧ (f.hi ucmp : WithTop _) ≤ endClass ucmp e

/-- A file meets a range if it neither ends before it nor starts after it. -/
theorem meets_iff :
    Meets ucmp b e f ↔ endsBefore ucmp b f = false ∧ startsAfter ucmp e f = false := by
  grind [Meets, endsBefore_iff, startsAfter_iff]

/-! ## The files that meet a range -/

/-- A pass that finishes has collected the files that meet the range; in level 0 they lie within
it. -/
theorem overlapScan_done (h : overlapScan ucmp level b e inputs files = .done r) :
    r = inputs ++ files.filter (fun f => !endsBefore ucmp b f && !startsAfter ucmp e f) ∧
      (level = 0 → ∀ f ∈ files, Meets ucmp b e f →
        startsBefore ucmp b f = false ∧ endsAfter ucmp e f = false) := by
  induction files generalizing inputs with
  | nil =>
    cases h
    simp
  | cons f files ih =>
    rw [overlapScan] at h
    split_ifs at h with h₁ h₂ h₃ h₄
    · obtain ⟨hr, hin⟩ := ih h
      refine ⟨by simp [hr, h₁], fun hl g hg hm => ?_⟩
      rcases mem_cons.mp hg with rfl | hg
      · exact absurd (meets_iff.mp hm).1 (by simp [h₁])
      · exact hin hl g hg hm
    · obtain ⟨hr, hin⟩ := ih h
      refine ⟨by simp [hr, h₂], fun hl g hg hm => ?_⟩
      rcases mem_cons.mp hg with rfl | hg
      · exact absurd (meets_iff.mp hm).2 (by simp [h₂])
      · exact hin hl g hg hm
    · grind

/-- A pass starts over when a file of level 0 sticks out of the range. -/
theorem overlapScan_restart (h : overlapScan ucmp level b e inputs files = .restart b' e') :
    level = 0 ∧ ∃ f ∈ files, Meets ucmp b e f ∧
      (startsBefore ucmp b f = true ∧ b' = some f.smallest.userKey ∧ e' = e ∨
        endsAfter ucmp e f = true ∧ b' = b ∧ e' = some f.largest.userKey) := by
  induction files generalizing inputs with
  | nil => cases h
  | cons f files ih =>
    have hrest : ∀ {inputs}, overlapScan ucmp level b e inputs files = .restart b' e' →
        level = 0 ∧ ∃ g ∈ f :: files, Meets ucmp b e g ∧
          (startsBefore ucmp b g = true ∧ b' = some g.smallest.userKey ∧ e' = e ∨
            endsAfter ucmp e g = true ∧ b' = b ∧ e' = some g.largest.userKey) := by
      grind
    rw [overlapScan] at h
    split_ifs at h with h₁ h₂ h₃ h₄
    · exact hrest h
    · exact hrest h
    · cases h
      exact ⟨h₃.1, f, mem_cons_self, meets_iff.mpr ⟨by simpa using h₁, by simpa using h₂⟩,
        Or.inl ⟨h₃.2, rfl, rfl⟩⟩
    · cases h
      exact ⟨h₄.1, f, mem_cons_self, meets_iff.mpr ⟨by simpa using h₁, by simpa using h₂⟩,
        Or.inr ⟨h₄.2, rfl, rfl⟩⟩
    · exact hrest h

theorem countP_lt_countP {a : α} (ha : a ∈ l) (hpq : ∀ x, p x = true → q x = true) (hp : p a = false)
    (hq : q a = true) :
    l.countP p < l.countP q := by
  obtain ⟨l₁, l₂, rfl⟩ := append_of_mem ha
  have h₁ : l₁.countP p ≤ l₁.countP q := countP_mono_left fun x _ => hpq x
  have h₂ : l₂.countP p ≤ l₂.countP q := countP_mono_left fun x _ => hpq x
  grind

/-- How many ends of files stick out of a range. -/
def sticksOut (ucmp : Comparator) (b e : Option Slice) (files : List FileMetaData) : ℕ :=
  files.countP (startsBefore ucmp b) + files.countP (endsAfter ucmp e)

/-- Each time fewer files stick out. -/
theorem sticksOut_lt_of_restart (h : overlapScan ucmp level b e inputs files = .restart b' e') :
    sticksOut ucmp b' e' files < sticksOut ucmp b e files := by
  obtain ⟨-, f, hf, -, ⟨hout, rfl, rfl⟩ | ⟨hout, rfl, rfl⟩⟩ := overlapScan_restart h
  · have hlt : files.countP (startsBefore ucmp (some f.smallest.userKey)) <
        files.countP (startsBefore ucmp b) := by
      refine countP_lt_countP hf (fun g hg => ?_) ?_ hout
      · rw [startsBefore_iff] at hg hout ⊢
        exact hg.trans hout
      · rw [← Bool.not_eq_true, startsBefore_iff]
        exact lt_irrefl _
    exact Nat.add_lt_add_right hlt _
  · have hlt : files.countP (endsAfter ucmp (some f.largest.userKey)) <
        files.countP (endsAfter ucmp e) := by
      refine countP_lt_countP hf (fun g hg => ?_) ?_ hout
      · rw [endsAfter_iff] at hg hout ⊢
        exact hout.trans hg
      · rw [← Bool.not_eq_true, endsAfter_iff]
        exact lt_irrefl _
    exact Nat.add_lt_add_left hlt _

/-- **What the passes compute**: the files that meet a range at least as wide, in level 0 one that no
such file sticks out of, elsewhere the given range itself. -/
theorem overlapPasses_spec {fuel : ℕ} (hfuel : sticksOut ucmp b e files < fuel) :
    ∃ b' e', beginClass ucmp b' ≤ beginClass ucmp b ∧ endClass ucmp e ≤ endClass ucmp e' ∧
      overlapPasses ucmp level files fuel b e =
        files.filter (fun f => !endsBefore ucmp b' f && !startsAfter ucmp e' f) ∧
      (level = 0 → ∀ f ∈ files, Meets ucmp b' e' f → Within ucmp b' e' f) ∧
      (level ≠ 0 → b' = b ∧ e' = e) := by
  induction fuel generalizing b e with
  | zero => exact absurd hfuel (Nat.not_lt_zero _)
  | succ fuel ih =>
    rw [overlapPasses]
    cases hscan : overlapScan ucmp level b e [] files with
    | done r =>
      obtain ⟨hr, hin⟩ := overlapScan_done hscan
      refine ⟨b, e, le_rfl, le_rfl, by simpa using hr, fun hl f hf hm => ?_, fun _ => ⟨rfl, rfl⟩⟩
      obtain ⟨h₁, h₂⟩ := hin hl f hf hm
      rw [← Bool.not_eq_true, startsBefore_iff, not_lt] at h₁
      rw [← Bool.not_eq_true, endsAfter_iff, not_lt] at h₂
      exact ⟨h₁, h₂⟩
    | restart b₁ e₁ =>
      have hlt := sticksOut_lt_of_restart hscan
      obtain ⟨b', e', hb, he, hres, hin, hne⟩ :=
        ih (show sticksOut ucmp b₁ e₁ files < fuel by omega)
      obtain ⟨hl, f, -, -, ⟨hout, rfl, rfl⟩ | ⟨hout, rfl, rfl⟩⟩ := overlapScan_restart hscan
      · rw [startsBefore_iff] at hout
        exact ⟨b', e', hb.trans hout.le, he, hres, hin, fun h => absurd hl h⟩
      · rw [endsAfter_iff] at hout
        exact ⟨b', e', hb, hout.le.trans he, hres, hin, fun h => absurd hl h⟩

/-! ## The passes end -/

/-- The passes from a range come to an end with a result. This is the loop of the source, with no
bound on the number of passes. -/
inductive OverlapReturns (ucmp : Comparator) (level : ℕ) (files : List FileMetaData) :
    Option Slice → Option Slice → List FileMetaData → Prop
  | done {b e : Option Slice} {r : List FileMetaData}
      (h : overlapScan ucmp level b e [] files = .done r) : OverlapReturns ucmp level files b e r
  | restart {b e b' e' : Option Slice} {r : List FileMetaData}
      (h : overlapScan ucmp level b e [] files = .restart b' e')
      (hrest : OverlapReturns ucmp level files b' e' r) : OverlapReturns ucmp level files b e r

theorem OverlapReturns.unique {r r' : List FileMetaData}
    (h : OverlapReturns ucmp level files b e r) (h' : OverlapReturns ucmp level files b e r') :
    r = r' := by
  induction h with
  | done h =>
    cases h' with
    | done h' => exact OverlapScan.done.inj (h.symm.trans h')
    | restart h' _ => exact OverlapScan.noConfusion (h.symm.trans h')
  | restart h _ ih =>
    cases h' with
    | done h' => exact OverlapScan.noConfusion (h.symm.trans h')
    | restart h' hrest =>
      grind

/-- With more passes than ends that stick out, the bounded loop is the loop. -/
theorem overlapPasses_returns {fuel : ℕ} (hfuel : sticksOut ucmp b e files < fuel) :
    OverlapReturns ucmp level files b e (overlapPasses ucmp level files fuel b e) := by
  induction fuel generalizing b e with
  | zero => exact absurd hfuel (Nat.not_lt_zero _)
  | succ fuel ih =>
    rw [overlapPasses]
    cases hscan : overlapScan ucmp level b e [] files with
    | done r => exact .done hscan
    | restart b' e' =>
      have hlt := sticksOut_lt_of_restart hscan
      exact .restart hscan (ih (show sticksOut ucmp b' e' files < fuel by omega))

/-- At most two ends of each file stick out, so the passes of `getOverlappingInputs` suffice. -/
theorem sticksOut_lt (ucmp : Comparator) (b e : Option Slice) (files : List FileMetaData) :
    sticksOut ucmp b e files < 2 * files.length + 1 := by
  grind [sticksOut]

/-! ## The least closed set of level 0 -/

/-- The file meets the range whose given ends are widened by the files taken. A missing end stays
missing: it is met by every file. -/
def MeetsWidened (ucmp : Comparator) (b e : Option Slice) (taken : Set FileMetaData)
    (f : FileMetaData) : Prop :=
  (beginClass ucmp b ≤ (f.hi ucmp : WithBot _) ∨ ∃ g ∈ taken, g.lo ucmp ≤ f.hi ucmp) ∧
    ((f.lo ucmp : WithTop _) ≤ endClass ucmp e ∨ ∃ g ∈ taken, f.lo ucmp ≤ g.hi ucmp)

/-- Every file that meets the range widened by the files taken is taken. -/
def OverlapClosed (ucmp : Comparator) (b e : Option Slice) (files : List FileMetaData)
    (taken : Set FileMetaData) : Prop :=
  ∀ f ∈ files, MeetsWidened ucmp b e taken f → f ∈ taken

/-- A file that meets the widened range meets the range or a file that was taken. -/
theorem Meets.widened (hm : Meets ucmp b' e' f)
    (hb : beginClass ucmp b' = beginClass ucmp b ∨
      ∃ g ∈ taken, beginClass ucmp b' = (g.lo ucmp : WithBot _))
    (he : endClass ucmp e' = endClass ucmp e ∨
      ∃ g ∈ taken, endClass ucmp e' = (g.hi ucmp : WithTop _)) :
    MeetsWidened ucmp b e taken f := by
  constructor
  · rcases hb with hb | ⟨g, hg, hb⟩
    · exact Or.inl (hb ▸ hm.1)
    · exact Or.inr ⟨g, hg, WithBot.coe_le_coe.mp (hb ▸ hm.1)⟩
  · rcases he with he | ⟨g, hg, he⟩
    · exact Or.inl (he ▸ hm.2)
    · exact Or.inr ⟨g, hg, WithTop.coe_le_coe.mp (he ▸ hm.2)⟩

/-- **The passes take only what every closed set takes.** Over the restarts each end of the range is
the given one or the end of a file of the closed set. -/
theorem OverlapReturns.subset_closed {b₀ e₀ : Option Slice}
    (hclosed : OverlapClosed ucmp b₀ e₀ files taken)
    (h : OverlapReturns ucmp level files b e r)
    (hb : beginClass ucmp b = beginClass ucmp b₀ ∨
      ∃ g ∈ taken, beginClass ucmp b = (g.lo ucmp : WithBot _))
    (he : endClass ucmp e = endClass ucmp e₀ ∨
      ∃ g ∈ taken, endClass ucmp e = (g.hi ucmp : WithTop _)) :
    ∀ f ∈ r, f ∈ taken := by
  induction h with
  | done h =>
    intro f hf
    obtain ⟨rfl, -⟩ := overlapScan_done h
    rw [nil_append, mem_filter] at hf
    exact hclosed f hf.1 ((meets_iff.mpr (by simpa using hf.2)).widened hb he)
  | restart h _ ih =>
    obtain ⟨-, f, hf, hm, hcase⟩ := overlapScan_restart h
    have hmem : f ∈ taken := hclosed f hf (hm.widened hb he)
    rcases hcase with ⟨-, rfl, rfl⟩ | ⟨-, rfl, rfl⟩
    · exact ih (Or.inr ⟨f, hmem, rfl⟩) he
    · exact ih hb (Or.inr ⟨f, hmem, rfl⟩)

variable {kb ke : Option InternalKey}

/-- The answer is the set of files that meet some wider range. -/
theorem getOverlappingInputs_spec (ucmp : Comparator) (level : ℕ) (files : List FileMetaData)
    (kb ke : Option InternalKey) :
    ∃ b' e', beginClass ucmp b' ≤ beginClass ucmp (kb.map InternalKey.userKey) ∧
      endClass ucmp (ke.map InternalKey.userKey) ≤ endClass ucmp e' ∧
      getOverlappingInputs ucmp level files kb ke =
        files.filter (fun f => !endsBefore ucmp b' f && !startsAfter ucmp e' f) ∧
      (level = 0 → ∀ f ∈ files, Meets ucmp b' e' f → Within ucmp b' e' f) ∧
      (level ≠ 0 → b' = kb.map InternalKey.userKey ∧ e' = ke.map InternalKey.userKey) :=
  overlapPasses_spec (sticksOut_lt _ _ _ _)

theorem mem_filter_meets :
    f ∈ files.filter (fun f => !endsBefore ucmp b f && !startsAfter ucmp e f) ↔
      f ∈ files ∧ Meets ucmp b e f := by
  rw [mem_filter, meets_iff]
  simp

theorem getOverlappingInputs_sublist :
    (getOverlappingInputs ucmp level files kb ke).Sublist files := by
  obtain ⟨b', e', -, -, hres, -⟩ := getOverlappingInputs_spec ucmp level files kb ke
  rw [hres]
  exact filter_sublist

/-- It contains every file that meets the range. -/
theorem mem_getOverlappingInputs_of_meets (hf : f ∈ files)
    (hm : Meets ucmp (kb.map InternalKey.userKey) (ke.map InternalKey.userKey) f) :
    f ∈ getOverlappingInputs ucmp level files kb ke := by
  obtain ⟨b', e', hb, he, hres, -⟩ := getOverlappingInputs_spec ucmp level files kb ke
  rw [hres, mem_filter_meets]
  exact ⟨hf, hb.trans hm.1, hm.2.trans he⟩

/-- **Selection in a level `≥ 1`**: exactly the files that meet the range. -/
theorem mem_getOverlappingInputs (hl : level ≠ 0) :
    f ∈ getOverlappingInputs ucmp level files kb ke ↔
      f ∈ files ∧ Meets ucmp (kb.map InternalKey.userKey) (ke.map InternalKey.userKey) f := by
  obtain ⟨b', e', -, -, hres, -, hne⟩ := getOverlappingInputs_spec ucmp level files kb ke
  obtain ⟨rfl, rfl⟩ := hne hl
  rw [hres, mem_filter_meets]

/-- **Selection in level 0 is closed**: a file that meets the hull of the selected files is
selected. -/
theorem getOverlappingInputs_closed {f₁ f₂ : FileMetaData}
    (h₁ : f₁ ∈ getOverlappingInputs ucmp 0 files kb ke)
    (h₂ : f₂ ∈ getOverlappingInputs ucmp 0 files kb ke) (hg : g ∈ files)
    (hlo : f₁.lo ucmp ≤ g.hi ucmp) (hhi : g.lo ucmp ≤ f₂.hi ucmp) :
    g ∈ getOverlappingInputs ucmp 0 files kb ke := by
  obtain ⟨b', e', -, -, hres, hin, -⟩ := getOverlappingInputs_spec ucmp 0 files kb ke
  rw [hres, mem_filter_meets] at h₁ h₂ ⊢
  have hw₁ := hin rfl f₁ h₁.1 h₁.2
  have hw₂ := hin rfl f₂ h₂.1 h₂.2
  exact ⟨hg, hw₁.1.trans (WithBot.coe_le_coe.mpr hlo), (WithTop.coe_le_coe.mpr hhi).trans hw₂.2⟩

theorem filter_eq_filter_mem [DecidableEq α] (p : α → Bool) (l : List α) :
    l.filter p = l.filter fun a => decide (a ∈ l.filter p) := by
  grind [filter_congr]

/-- In level 0 the selection is closed under widening the given range by its own files. -/
theorem overlapClosed_getOverlappingInputs :
    OverlapClosed ucmp (kb.map InternalKey.userKey) (ke.map InternalKey.userKey) files
      {f | f ∈ getOverlappingInputs ucmp 0 files kb ke} := by
  intro g hg hm
  obtain ⟨b', e', hb, he, hres, hin, -⟩ := getOverlappingInputs_spec ucmp 0 files kb ke
  change g ∈ getOverlappingInputs ucmp 0 files kb ke
  rw [hres, mem_filter_meets]
  have hwithin : ∀ f ∈ getOverlappingInputs ucmp 0 files kb ke, Within ucmp b' e' f := by
    grind [mem_filter_meets]
  refine ⟨hg, ?_, ?_⟩
  · rcases hm.1 with h | ⟨f, hf, h⟩
    · exact hb.trans h
    · exact (hwithin f hf).1.trans (WithBot.coe_le_coe.mpr h)
  · rcases hm.2 with h | ⟨f, hf, h⟩
    · exact h.trans he
    · exact (WithTop.coe_le_coe.mpr h).trans (hwithin f hf).2

/-- **`GetOverlappingInputs`** ends for every level, list of files and range, and returns each
selected file once and in the order of the list: in a level `≥ 1` the files that meet the range, in
level 0 the least closed set. -/
theorem getOverlappingInputs_least (ucmp : Comparator) (level : ℕ) (files : List FileMetaData)
    (kb ke : Option InternalKey) :
    let b := kb.map InternalKey.userKey
    let e := ke.map InternalKey.userKey
    let r := getOverlappingInputs ucmp level files kb ke
    (∀ r', OverlapReturns ucmp level files b e r' ↔ r' = r) ∧
      r = files.filter (fun f => decide (f ∈ r)) ∧
      (level ≠ 0 → ∀ f, f ∈ r ↔ f ∈ files ∧ Meets ucmp b e f) ∧
      (level = 0 → OverlapClosed ucmp b e files {f | f ∈ r} ∧
        ∀ taken, OverlapClosed ucmp b e files taken → {f | f ∈ r} ⊆ taken) := by
  intro b e r
  have hret : OverlapReturns ucmp level files b e r :=
    overlapPasses_returns (sticksOut_lt ucmp b e files)
  refine ⟨fun r' => ⟨fun h => h.unique hret, fun h => h ▸ hret⟩, ?_,
    fun hl f => mem_getOverlappingInputs hl, ?_⟩
  · obtain ⟨b', e', -, -, hres, -⟩ := getOverlappingInputs_spec ucmp level files kb ke
    rw [show r = _ from hres]
    exact filter_eq_filter_mem _ _
  · rintro rfl
    exact ⟨overlapClosed_getOverlappingInputs, fun taken hclosed =>
      hret.subset_closed hclosed (Or.inl rfl) (Or.inl rfl)⟩

/-! ## Binary search in a sorted level -/

section

variable (h : SortedLevel ucmp files)

include h

/-- The files of a sorted level follow each other. -/
theorem SortedLevel.rank_lt :
    files.Pairwise fun f g => f.largest.rank ucmp < g.smallest.rank ucmp :=
  h.2.imp internalCompare_eq_lt.mp

theorem SortedLevel.rank_le (hf : f ∈ files) :
    f.smallest.rank ucmp ≤ f.largest.rank ucmp :=
  FileMetaData.ordered_iff.mp (h.1 f hf)

theorem SortedLevel.lo_le_hi (hf : f ∈ files) :
    f.lo ucmp ≤ f.hi ucmp :=
  (h.1 f hf).lo_le_hi

theorem SortedLevel.largest_lt :
    files.Pairwise fun f g => f.largest.rank ucmp < g.largest.rank ucmp :=
  h.rank_lt.imp_of_mem fun _ hg hlt => hlt.trans_le (h.rank_le hg)

theorem SortedLevel.nodup : files.Nodup := by
  refine h.largest_lt.imp fun hlt heq => ?_
  rw [heq] at hlt
  exact lt_irrefl _ hlt

/-- **`FindFile` is linear search** in a sorted level. -/
theorem findFile_eq_findIdx (key : InternalKey) :
    findFile ucmp files key =
      files.findIdx fun f => internalCompare ucmp f.largest key != .lt := by
  refine BinarySearch.lowerBound_eq_findIdx (h.largest_lt.imp fun {f g} hlt hf => ?_)
  grind [internalCompare_ne_lt]

/-- `FindFile` finds the first file that does not end before the key. -/
theorem getElem?_findFile (key : InternalKey) :
    files[findFile ucmp files key]? =
      files.find? fun f => internalCompare ucmp f.largest key != .lt := by
  rw [findFile_eq_findIdx h, find?_eq_getElem?_findIdx]

end

/-- The boundary keys of the file carry value types. -/
def FileMetaData.Parsable (f : FileMetaData) : Prop :=
  f.smallest.tag.toNat % 256 ≤ 1 ∧ f.largest.tag.toNat % 256 ≤ 1

instance (f : FileMetaData) : Decidable f.Parsable := inferInstanceAs (Decidable (_ ∧ _))

theorem find?_congr_of_mem (h : ∀ a ∈ l, p a = q a) : l.find? p = l.find? q := by
  induction l with
  | nil => rfl
  | cons a l ih =>
    grind

/-- Searching for the first possible version of a user key finds the first file that ends at or
after it. -/
theorem find?_seekKey (hpars : ∀ f ∈ files, f.Parsable) (u : Slice) :
    files.find? (fun f => internalCompare ucmp f.largest
        (.ofParts u kMaxSequenceNumber kValueTypeForSeek) != .lt) =
      files.find? fun f => !endsBefore ucmp (some u) f := by
  refine find?_congr_of_mem fun f hf => ?_
  rw [Bool.eq_iff_iff, bne_iff_ne, internalCompare_ne_lt, rank_seekKey_le_iff (hpars f hf).2,
    Bool.not_eq_true', ← Bool.not_eq_true, endsBefore_iff, not_lt]
  exact WithBot.coe_le_coe.symm

theorem afterFile_eq_endsBefore : afterFile ucmp b f = endsBefore ucmp b f := by
  cases b with
  | none => rfl
  | some u =>
    rw [Bool.eq_iff_iff, afterFile, endsBefore, beq_iff_eq, beq_iff_eq, ← cls_lt_iff, ← cls_lt_iff_gt]

theorem beforeFile_eq_startsAfter : beforeFile ucmp e f = startsAfter ucmp e f := by
  cases e with
  | none => rfl
  | some u =>
    rw [Bool.eq_iff_iff, beforeFile, startsAfter, beq_iff_eq, beq_iff_eq, ← cls_lt_iff, ← cls_lt_iff_gt]

/-- **The overlap test** is exact, by scan and by binary search. -/
theorem someFileOverlapsRange_iff {disjoint : Bool} (hpars : ∀ f ∈ files, f.Parsable)
    (hsort : disjoint = true → SortedLevel ucmp files) :
    someFileOverlapsRange ucmp disjoint files b e = true ↔ ∃ f ∈ files, Meets ucmp b e f := by
  cases disjoint with
  | false =>
    simp only [someFileOverlapsRange, Bool.false_eq_true, if_false, any_eq_true,
      afterFile_eq_endsBefore, beforeFile_eq_startsAfter, meets_iff]
    simp
  | true =>
    have hlevel := hsort rfl
    -- both forms of the index give the first file that is not before the range
    have hidx : someFileOverlapsRange ucmp true files b e =
        match files.find? (fun f => !endsBefore ucmp b f) with
        | none => false
        | some f => !startsAfter ucmp e f := by
      simp only [someFileOverlapsRange, if_true, beforeFile_eq_startsAfter]
      cases b with
      | none => cases files <;> simp [endsBefore]
      | some u => rw [← find?_seekKey hpars u, ← getElem?_findFile hlevel]
    rw [hidx]
    cases hfind : files.find? (fun f => !endsBefore ucmp b f) with
    | none =>
      refine ⟨fun h => absurd h Bool.false_ne_true, ?_⟩
      rintro ⟨f, hf, hm⟩
      exact absurd (meets_iff.mp hm).1 (by simpa using find?_eq_none.mp hfind f hf)
    | some f =>
      obtain ⟨hfb, as, bs, rfl, hbefore⟩ := find?_eq_some_iff_append.mp hfind
      simp only [Bool.not_eq_true'] at hfb
      constructor
      · intro hfe
        exact ⟨f, by simp, meets_iff.mpr ⟨hfb, by simpa using hfe⟩⟩
      · rintro ⟨g, hg, hm⟩
        rw [Bool.not_eq_true', ← Bool.not_eq_true, startsAfter_iff, not_lt]
        -- files before `f` are before the range; `g` starts at or after `f` does
        rcases mem_append.mp hg with hg | hg
        · exact absurd (meets_iff.mp hm).1 (by simpa using hbefore g hg)
        · rcases mem_cons.mp hg with rfl | hg
          · exact hm.2
          · have hfg := (pairwise_cons.mp
              (pairwise_append.mp hlevel.rank_lt).2.1).1 g hg
            have hle : f.lo ucmp ≤ g.lo ucmp :=
              (hlevel.lo_le_hi (by simp)).trans (userClass_le_of_rank_le hfg.le)
            exact (WithTop.coe_le_coe.mpr hle).trans hm.2

/-! ## Ranges of user keys -/

/-- The user key lies between the bounds of the file. -/
def FileMetaData.Covers (ucmp : Comparator) (f : FileMetaData) (u : Slice) : Prop :=
  ucmp.compare f.smallest.userKey u ≠ .gt ∧ ucmp.compare u f.largest.userKey ≠ .gt

/-- The user key lies in the closed range; a missing bound does not bind. -/
def InRange (ucmp : Comparator) (b e : Option Slice) (u : Slice) : Prop :=
  (∀ x ∈ b, ucmp.compare x u ≠ .gt) ∧ ∀ x ∈ e, ucmp.compare u x ≠ .gt

/-- The bounds are in order, if both are there. -/
def OrderedBounds (ucmp : Comparator) (b e : Option Slice) : Prop :=
  ∀ x ∈ b, ∀ y ∈ e, ucmp.compare x y ≠ .gt

theorem beginClass_le_iff {u : Slice} :
    beginClass ucmp b ≤ (userClass ucmp u : WithBot _) ↔ ∀ x ∈ b, ucmp.compare x u ≠ .gt := by
  cases b with
  | none => exact ⟨fun _ x hx => absurd hx (by simp), fun _ => bot_le⟩
  | some x =>
    rw [show beginClass ucmp (some x) = (userClass ucmp x : WithBot _) from rfl,
      WithBot.coe_le_coe, cls_le_iff]
    simp

theorem le_endClass_iff {u : Slice} :
    (userClass ucmp u : WithTop _) ≤ endClass ucmp e ↔ ∀ x ∈ e, ucmp.compare u x ≠ .gt := by
  cases e with
  | none => exact ⟨fun _ x hx => absurd hx (by simp), fun _ => le_top⟩
  | some x =>
    rw [show endClass ucmp (some x) = (userClass ucmp x : WithTop _) from rfl,
      WithTop.coe_le_coe, cls_le_iff]
    simp

/-- **A file meets a range** exactly when they share a user key. The common key is the later of the two
left ends. -/
theorem meets_iff_exists (hf : f.Ordered ucmp) (hbe : OrderedBounds ucmp b e) :
    Meets ucmp b e f ↔ ∃ u, f.Covers ucmp u ∧ InRange ucmp b e u := by
  rw [Meets, beginClass_le_iff, le_endClass_iff]
  constructor
  · rintro ⟨hb, he⟩
    by_cases hlow : ∀ x ∈ b, ucmp.compare x f.smallest.userKey ≠ .gt
    · exact ⟨f.smallest.userKey, ⟨ucmp.compare_self_ne_gt _, cls_le_iff.mp hf.lo_le_hi⟩, hlow, he⟩
    · simp only [not_forall] at hlow
      obtain ⟨x, hx, hgt⟩ := hlow
      have hfx : userClass ucmp f.smallest.userKey ≤ userClass ucmp x :=
        (cls_lt_iff_gt.mpr (not_not.mp hgt)).le
      refine ⟨x, ⟨cls_le_iff.mp hfx, hb x hx⟩, fun x' hx' => ?_, hbe x hx⟩
      grind [Option.mem_unique]
  · rintro ⟨u, ⟨hlo, hhi⟩, hb, he⟩
    refine ⟨fun x hx => ?_, fun x hx => ?_⟩
    · exact cls_le_iff.mp ((cls_le_iff.mpr (hb x hx)).trans (cls_le_iff.mpr hhi))
    · exact cls_le_iff.mp ((cls_le_iff.mpr hlo).trans (cls_le_iff.mpr (he x hx)))

/-- A file from `a` to `b` whose last key carries the tag `2 ^ 64 - 1`, which no value type has. -/
def oddTagFile : FileMetaData := ⟨1, 100, .ofParts [97] 9 .kTypeValue, ⟨[98], 0xffffffffffffffff⟩⟩

end RocketDb
