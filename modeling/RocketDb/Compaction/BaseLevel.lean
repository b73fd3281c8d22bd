import RocketDb.Compaction.DropRule
import RocketDb.Compaction.Pick
import Mathlib.Logic.Function.Basic

/-! # `Compaction::IsBaseLevelForKey`

A deletion may be dropped when no file below the output level covers its user key. The source keeps one
pointer into each of those levels and only moves it forward, which is right for keys in increasing order.

* **`noFileCovers`** — the test without the pointers; `isBaseLevelForKey_calls` says that the answers are its.
* **`dropLoop_eq_keptEntries`** — over sorted inputs the drop loop does the same with either. -/

namespace RocketDb

open KeyOrder List

/-- Advance a level's pointer past the files before the user key; the file it stops at may cover the
key. -/
def coveringScan (ucmp : Comparator) (userKey : Slice) : List FileMetaData → ℕ → Bool × ℕ
  | [], ptr => (false, ptr)
  | f :: files, ptr =>
    if ucmp.compare userKey f.largest.userKey ≠ .gt then
      (ucmp.compare userKey f.smallest.userKey != .lt, ptr)
    else coveringScan ucmp userKey files (ptr + 1)

/-- The loop of `IsBaseLevelForKey` over the levels, with its early exit. -/
def isBaseLoop (ucmp : Comparator) (v : Version) (userKey : Slice) :
    List ℕ → (ℕ → ℕ) → Bool × (ℕ → ℕ)
  | [], levelPtrs => (true, levelPtrs)
  | level :: levels, levelPtrs =>
    let (covered, ptr) :=
      coveringScan ucmp userKey ((v.files level).drop (levelPtrs level)) (levelPtrs level)
    let levelPtrs := Function.update levelPtrs level ptr
    if covered then (false, levelPtrs) else isBaseLoop ucmp v userKey levels levelPtrs

/-- The levels below the output level of a compaction of `level`. -/
def levelsBelow (level : ℕ) : List ℕ := (List.range kNumLevels).drop (level + 2)

/-- **`IsBaseLevelForKey`** with the pointers `level_ptrs_`. -/
def isBaseLevelForKey (ucmp : Comparator) (v : Version) (level : ℕ) (levelPtrs : ℕ → ℕ)
    (userKey : Slice) : Bool × (ℕ → ℕ) :=
  isBaseLoop ucmp v userKey (levelsBelow level) levelPtrs

/-- No file of a level below the output level covers the key. -/
def noFileCovers (ucmp : Comparator) (v : Version) (level : ℕ) (userKey : Slice) : Bool :=
  (levelsBelow level).all fun l => (v.files l).all fun f => !f.covers ucmp userKey

variable {ucmp : Comparator} {v : Version} {u w : Slice} {f : FileMetaData}
  {files : List FileMetaData} {level : ℕ} {ptrs : ℕ → ℕ}

theorem mem_levelsBelow {l : ℕ} : l ∈ levelsBelow level ↔ level + 2 ≤ l ∧ l < kNumLevels := by
  rw [levelsBelow, mem_drop_iff_getElem]
  simp only [length_range, getElem_range, kNumLevels]
  constructor
  · rintro ⟨i, hi, rfl⟩
    omega
  · rintro ⟨h₁, h₂⟩
    exact ⟨l - (level + 2), by omega, by omega⟩

/-- The files before position `n` end before the key. -/
def EndBefore (ucmp : Comparator) (u : Slice) (n : ℕ) (files : List FileMetaData) : Prop :=
  ∀ f ∈ files.take n, f.hi ucmp < userClass ucmp u

/-- **One level.** The scan finds out whether any file of the level covers the key, and stops where
all files before end before it. -/
theorem coveringScan_spec (hsort : SortedLevel ucmp files) {ptr : ℕ}
    (hptr : EndBefore ucmp u ptr files) :
    (coveringScan ucmp u (files.drop ptr) ptr).1 = files.any (FileMetaData.covers ucmp u) ∧
      EndBefore ucmp u (coveringScan ucmp u (files.drop ptr) ptr).2 files := by
  have hbefore : ∀ g : FileMetaData, g.hi ucmp < userClass ucmp u → g.covers ucmp u = false := by
    grind [FileMetaData.covers_iff]
  induction hrest : files.drop ptr generalizing ptr with
  | nil =>
    refine ⟨?_, hptr⟩
    have hall : files.take ptr = files := by
      rw [take_of_length_le (drop_eq_nil_iff.mp hrest)]
    simp only [coveringScan]
    symm
    rw [← Bool.not_eq_true, any_eq_true]
    rintro ⟨g, hg, hc⟩
    rw [hbefore g (hptr g (by rw [hall]; exact hg))] at hc
    cases hc
  | cons f rest ih =>
    rw [coveringScan]
    have hsplit : files = files.take ptr ++ f :: rest := by
      rw [← hrest, take_append_drop]
    split_ifs with hle
    · rw [Ne, ← Ne, ← cls_le_iff] at hle
      refine ⟨?_, hptr⟩
      -- files before the pointer end before the key, files after `f` start at or after its end
      have hpre : (files.take ptr).any (FileMetaData.covers ucmp u) = false := by
        rw [← Bool.not_eq_true, any_eq_true]
        rintro ⟨g, hg, hc⟩
        rw [hbefore g (hptr g hg)] at hc
        cases hc
      have hcov : (ucmp.compare u f.smallest.userKey != .lt) = f.covers ucmp u := by
        rw [Bool.eq_iff_iff, FileMetaData.covers_iff, bne_iff_ne, ← cls_le_iff_ne_lt]
        exact ⟨fun h => ⟨h, hle⟩, fun h => h.1⟩
      have hpost : ∀ g ∈ rest, g.covers ucmp u = true → f.covers ucmp u = true := by
        intro g hg hc
        rw [FileMetaData.covers_iff] at hc ⊢
        rw [hsplit] at hsort
        have hfg := (pairwise_cons.mp (pairwise_append.mp hsort.rank_lt).2.1).1 g hg
        have hf := hsort.lo_le_hi (show f ∈ files.take ptr ++ f :: rest by simp)
        have hfg' : f.hi ucmp ≤ g.lo ucmp := userClass_le_of_rank_le hfg.le
        exact ⟨hf.trans (hfg'.trans hc.1), hle⟩
      rw [hcov]
      conv_rhs => rw [hsplit]
      rw [any_append, hpre, Bool.false_or, any_cons]
      cases hf : f.covers ucmp u with
      | true => rfl
      | false =>
        grind
    · rw [not_not, ← cls_lt_iff_gt] at hle
      refine ih ?_ ?_
      · intro g hg
        have hlen : ptr < files.length := by
          grind
        rw [take_add_one, mem_append] at hg
        rcases hg with hg | hg
        · exact hptr g hg
        · grind
      · rw [← drop_drop, hrest]
        rfl

/-- Every pointer has passed only files that end before the key. -/
def PtrsBefore (ucmp : Comparator) (v : Version) (ptrs : ℕ → ℕ) (u : Slice) : Prop :=
  ∀ l, EndBefore ucmp u (ptrs l) (v.files l)

theorem PtrsBefore.mono (h : PtrsBefore ucmp v ptrs u)
    (hle : userClass ucmp u ≤ userClass ucmp w) : PtrsBefore ucmp v ptrs w :=
  fun l f hf => (h l f hf).trans_le hle

theorem isBaseLoop_spec {levels : List ℕ} (hsort : ∀ l ∈ levels, SortedLevel ucmp (v.files l))
    (h : PtrsBefore ucmp v ptrs u) :
    (isBaseLoop ucmp v u levels ptrs).1 =
        levels.all (fun l => (v.files l).all fun f => !f.covers ucmp u) ∧
      PtrsBefore ucmp v (isBaseLoop ucmp v u levels ptrs).2 u := by
  induction levels generalizing ptrs with
  | nil => exact ⟨rfl, h⟩
  | cons l levels ih =>
    obtain ⟨hcov, hend⟩ := coveringScan_spec (hsort l mem_cons_self) (h l)
    rw [isBaseLoop, all_cons, ← not_any_eq_all_not, ← hcov]
    cases hscan : coveringScan ucmp u ((v.files l).drop (ptrs l)) (ptrs l) with
    | mk covered ptr =>
      rw [hscan] at hend
      have hnext : PtrsBefore ucmp v (Function.update ptrs l ptr) u := by
        intro k
        rcases eq_or_ne k l with rfl | hne
        · rw [Function.update_self]
          exact hend
        · rw [Function.update_of_ne hne]
          exact h k
      grind

/-- **The pointers compute the pure test**, and stay right for the key asked about. -/
theorem isBaseLevelForKey_spec (level : ℕ) (hsort : ∀ l, 1 ≤ l → SortedLevel ucmp (v.files l))
    (h : PtrsBefore ucmp v ptrs u) :
    (isBaseLevelForKey ucmp v level ptrs u).1 = noFileCovers ucmp v level u ∧
      PtrsBefore ucmp v (isBaseLevelForKey ucmp v level ptrs u).2 u :=
  isBaseLoop_spec (fun l hl => hsort l (by have := (mem_levelsBelow.mp hl).1; omega)) h

theorem noFileCovers_iff :
    noFileCovers ucmp v level u = true ↔ ∀ l, level + 2 ≤ l → l < kNumLevels →
      ∀ f ∈ v.files l, ¬ (f.lo ucmp ≤ userClass ucmp u ∧ userClass ucmp u ≤ f.hi ucmp) := by
  grind [noFileCovers, mem_levelsBelow, FileMetaData.covers_iff]

theorem ptrsBefore_zero (ucmp : Comparator) (v : Version) (u : Slice) :
    PtrsBefore ucmp v (fun _ => 0) u := by
  intro l f hf
  simp at hf

/-- The answers to a sequence of calls of `IsBaseLevelForKey`, which share the pointers. -/
def baseLevelAnswers (ucmp : Comparator) (v : Version) (level : ℕ) :
    (ℕ → ℕ) → List Slice → List Bool
  | _, [] => []
  | levelPtrs, userKey :: keys =>
    let (answer, levelPtrs) := isBaseLevelForKey ucmp v level levelPtrs userKey
    answer :: baseLevelAnswers ucmp v level levelPtrs keys

theorem baseLevelAnswers_eq (level : ℕ) (hsort : ∀ l, 1 ≤ l → SortedLevel ucmp (v.files l))
    {keys : List Slice} (hkeys : keys.Pairwise fun u w => ucmp.compare u w ≠ .gt)
    (h : ∀ u ∈ keys, PtrsBefore ucmp v ptrs u) :
    baseLevelAnswers ucmp v level ptrs keys = keys.map (noFileCovers ucmp v level) := by
  induction keys generalizing ptrs with
  | nil => rfl
  | cons u keys ih =>
    obtain ⟨hle, hrest⟩ := pairwise_cons.mp hkeys
    obtain ⟨hanswer, hptrs⟩ := isBaseLevelForKey_spec level hsort (h u mem_cons_self)
    have hnext := ih hrest fun w hw => hptrs.mono (cls_le_iff.mpr (hle w hw))
    rw [baseLevelAnswers, map_cons, ← hanswer, ← hnext]

/-- **`IsBaseLevelForKey` over a whole compaction.** Asked about keys that do not decrease, each call
answers whether no file of a level below the output level covers its key, which is what it would
answer with fresh pointers. -/
theorem isBaseLevelForKey_calls (ucmp : Comparator) (v : Version) (level : ℕ)
    (hsort : ∀ l, 1 ≤ l → SortedLevel ucmp (v.files l)) (keys : List Slice)
    (hkeys : keys.Pairwise fun u w => ucmp.compare u w ≠ .gt) :
    (baseLevelAnswers ucmp v level (fun _ => 0) keys).length = keys.length ∧
      ∀ i (hi : i < keys.length),
        ((baseLevelAnswers ucmp v level (fun _ => 0) keys)[i]? = some true ↔
          ∀ l, level + 2 ≤ l → l < kNumLevels → ∀ f ∈ v.files l,
            ¬ (ucmp.compare f.smallest.userKey keys[i] ≠ .gt ∧
              ucmp.compare keys[i] f.largest.userKey ≠ .gt)) ∧
        (baseLevelAnswers ucmp v level (fun _ => 0) keys)[i]? =
          some (isBaseLevelForKey ucmp v level (fun _ => 0) keys[i]).1 := by
  have heq := baseLevelAnswers_eq level hsort hkeys fun u _ => ptrsBefore_zero ucmp v u
  grind [noFileCovers_iff, isBaseLevelForKey_spec, ptrsBefore_zero, cls_le_iff]

/-- One file `b`–`d` in level 3. -/
def oneFileVersion : Version :=
  ⟨fun level =>
    if level = 3 then
      [⟨9, 10, .ofParts (ascii "b") 4 .kTypeValue, .ofParts (ascii "d") 2 .kTypeValue⟩]
    else []⟩

/-- Asked about `a`, `c`, `c` and `e` in a compaction of level 1, the file covers `c` only. -/
theorem isBaseLevelForKey_calls_oneFile :
    let keys := [ascii "a", ascii "c", ascii "c", ascii "e"]
    baseLevelAnswers bytewiseComparator oneFileVersion 1 (fun _ => 0) keys =
        [true, false, false, true] ∧
      ∀ i (hi : i < keys.length),
        (baseLevelAnswers bytewiseComparator oneFileVersion 1 (fun _ => 0) keys)[i]? =
          some (isBaseLevelForKey bytewiseComparator oneFileVersion 1 (fun _ => 0) keys[i]).1 := by
  intro keys
  have hsort : ∀ l, 1 ≤ l → SortedLevel bytewiseComparator (oneFileVersion.files l) := by
    intro l _
    unfold oneFileVersion
    simp only
    split_ifs
    · decide
    · exact ⟨by simp, List.Pairwise.nil⟩
  have h := isBaseLevelForKey_calls bytewiseComparator oneFileVersion 1 hsort keys (by decide)
  exact ⟨by decide, fun i hi => (h.2 i hi).2⟩

/-- The loop state with the pointers forgotten. -/
def DropState.forget {σ : Type} (st : DropState σ) : DropState Unit :=
  ⟨st.currentUserKey, st.lastSequenceForKey, ()⟩

theorem DropState.forget_enterKey {σ : Type} (ucmp : Comparator) (st : DropState σ) (u : Slice) :
    (st.enterKey ucmp u).forget = st.forget.enterKey ucmp u ∧
      (st.enterKey ucmp u).levelPtrs = st.levelPtrs := by
  grind [enterKey, forget]

theorem dropStep_forget (snap level : ℕ) {st : DropState (ℕ → ℕ)} {k : InternalKey}
    (hsort : ∀ l, 1 ≤ l → SortedLevel ucmp (v.files l))
    (h : PtrsBefore ucmp v st.levelPtrs k.userKey) :
    let r := dropStep ucmp snap (isBaseLevelForKey ucmp v level) st k
    let p := dropStep ucmp snap (pureBase (noFileCovers ucmp v level)) st.forget k
    r.1 = p.1 ∧ r.2.forget = p.2 ∧ PtrsBefore ucmp v r.2.levelPtrs k.userKey := by
  simp only [dropStep]
  cases hparse : parseInternalKey k with
  | none => exact ⟨rfl, rfl, h⟩
  | some p =>
    obtain ⟨u, q, t⟩ := p
    obtain ⟨rfl, -, -⟩ := parseInternalKey_eq_some.mp hparse
    obtain ⟨hforget, hptrs⟩ := st.forget_enterKey ucmp k.userKey
    rw [← hptrs] at h
    have hcur : (st.enterKey ucmp k.userKey).currentUserKey =
        (st.forget.enterKey ucmp k.userKey).currentUserKey := by
      rw [← hforget]; rfl
    have hlast : (st.forget.enterKey ucmp k.userKey).lastSequenceForKey =
        (st.enterKey ucmp k.userKey).lastSequenceForKey := by
      rw [← hforget]; rfl
    have hb := isBaseLevelForKey_spec level hsort h
    have hstate : DropState.mk (st.enterKey ucmp k.userKey).currentUserKey q () =
        DropState.mk (st.forget.enterKey ucmp k.userKey).currentUserKey q () := by
      rw [hcur]
    simp only [hlast]
    split_ifs with h₁ h₂
    · exact ⟨rfl, hstate, h⟩
    · exact ⟨hb.1, hstate, hb.2⟩
    · exact ⟨rfl, hstate, h⟩

/-- **The drop loop with pointers** keeps what the loop with the pure test keeps, over sorted
inputs. -/
theorem dropLoop_eq_keptEntries {snap : ℕ} {es : List Entry} (hes : SortedEntries ucmp es)
    (hsort : ∀ l, 1 ≤ l → SortedLevel ucmp (v.files l)) :
    dropLoop ucmp snap (isBaseLevelForKey ucmp v level) (DropState.init fun _ => 0) es =
      keptEntries ucmp snap (noFileCovers ucmp v level) es := by
  suffices hgen : ∀ st : DropState (ℕ → ℕ),
      (∀ e ∈ es, PtrsBefore ucmp v st.levelPtrs e.key.userKey) →
      dropLoop ucmp snap (isBaseLevelForKey ucmp v level) st es =
        dropLoop ucmp snap (pureBase (noFileCovers ucmp v level)) st.forget es from
    hgen _ fun e _ l f hf => by simp [DropState.init] at hf
  induction es with
  | nil => exact fun st _ => rfl
  | cons e es ih =>
    intro st hst
    obtain ⟨hfirst, hrest⟩ := pairwise_cons.mp hes.rank_lt
    obtain ⟨hdrop, hforget, hptrs⟩ := dropStep_forget snap level hsort
      (hst e mem_cons_self)
    have hnext := ih (sortedEntries_iff.mpr hrest)
      (dropStep ucmp snap (isBaseLevelForKey ucmp v level) st e.key).2
      fun x hx => hptrs.mono (userClass_le_of_rank_le (hfirst x hx).le)
    rw [hforget] at hnext
    simp only [dropLoop, Predecessor.loop] at hnext ⊢
    rw [hdrop, hnext]

end RocketDb
