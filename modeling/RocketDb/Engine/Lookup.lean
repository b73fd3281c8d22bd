import RocketDb.Engine.Steps

/-! # `DBImpl::Get` finds the newest entry

A read visits the memtables, the files of level 0 from the newest to the oldest and one file of each deeper
level, and stops at the first that knows the key. With newer entries above older ones this is the newest
visible entry of the database (**`dbGet_eq_readAt`**), although the binary search of a level may skip older
versions. -/

namespace RocketDb

open KeyOrder Newest List

variable {cfg : Config} {ucmp : Comparator} {l : Layout} {u : Slice} {s : ℕ} {f g : FileMetaData}
  {e : Entry} {key : InternalKey} {v : Version} {level : ℕ} {es : List Entry}

/-! ## The files that are visited -/

theorem forEachOverlapping_eq (ucmp : Comparator) (v : Version) (u : Slice) (key : InternalKey) :
    forEachOverlapping ucmp v u key = level0Files ucmp v u ++
      ((List.range kNumLevels).drop 1).flatMap (deepFile ucmp v u key) := by
  rw [forEachOverlapping, overlappingFiles, map_append, map_flatMap, map_map]
  simp only [map_map, Function.comp_def, map_id']

theorem mem_level0Files : f ∈ level0Files ucmp v u ↔
    f ∈ v.files 0 ∧ f.lo ucmp ≤ userClass ucmp u ∧ userClass ucmp u ≤ f.hi ucmp := by
  rw [level0Files, mem_insertionSort, mem_filter, FileMetaData.covers_iff]

theorem mem_deepFile :
    f ∈ deepFile ucmp v u key level ↔
      (v.files level)[findFile ucmp (v.files level) key]? = some f ∧
        f.lo ucmp ≤ userClass ucmp u := by
  rw [deepFile]
  cases (v.files level)[findFile ucmp (v.files level) key]? with
  | none => simp
  | some g =>
    simp only [Option.some.injEq]
    split_ifs with h
    · refine iff_of_false not_mem_nil ?_
      rintro ⟨rfl, hle⟩
      exact cls_le_iff_ne_lt.mp hle h
    · rw [mem_singleton]
      refine ⟨?_, fun h => h.1.symm⟩
      rintro rfl
      exact ⟨rfl, cls_le_iff_ne_lt.mpr h⟩

theorem mem_of_deepFile (h : f ∈ deepFile ucmp v u key level) : f ∈ v.files level :=
  mem_of_getElem? (mem_deepFile.mp h).1

/-- At most one file of a deeper level is visited. -/
theorem deepFile_subsingleton {R : FileMetaData → FileMetaData → Prop} :
    (deepFile ucmp v u key level).Pairwise R := by
  grind [deepFile]

theorem mem_overlappingFiles {x : ℕ × FileMetaData} (h : x ∈ overlappingFiles ucmp v u key) :
    x.1 < kNumLevels ∧ x.2 ∈ v.files x.1 := by
  rcases mem_append.mp h with h | h
  · obtain ⟨f, hf, rfl⟩ := mem_map.mp h
    exact ⟨Nat.zero_lt_succ _, (mem_level0Files.mp hf).1⟩
  · grind [mem_of_deepFile]

theorem Layout.Ok.visited_pairwise (hl : l.Ok ucmp) (hr : l.Recent ucmp) (key : InternalKey) :
    (forEachOverlapping ucmp l.version u key).Pairwise fun f g =>
      Older ucmp (l.tables g.number) (l.tables f.number) := by
  have hdeep : ∀ {i f}, i ∈ (List.range kNumLevels).drop 1 →
      f ∈ deepFile ucmp l.version u key i → 1 ≤ i ∧ l.Has (.file i f) := by
    intro i f hi hf
    refine ⟨?_, mem_of_deepFile hf⟩
    simp_all
  rw [forEachOverlapping_eq, pairwise_append, pairwise_flatMap]
  refine ⟨?_, ⟨fun i _ => deepFile_subsingleton, ?_⟩, ?_⟩
  · -- level 0: sorted by number, and no number occurs twice
    have hsorted : (level0Files ucmp l.version u).Pairwise fun a b => b.number ≤ a.number :=
      pairwise_insertionSort _ _
    have hnd : (level0Files ucmp l.version u).Nodup :=
      (perm_insertionSort _ _).nodup_iff.mpr ((hl.nodup 0).filter _)
    refine (hsorted.and hnd).imp_of_mem fun {f g} hf hg hfg => ?_
    have hf := (mem_level0Files.mp hf).1
    have hg := (mem_level0Files.mp hg).1
    have hne : g.number ≠ f.number := fun heq => hfg.2 (hl.numbers 0 0 g hg f hf heq).2.symm
    exact hr (.file 0 f) (.file 0 g) hf hg (Or.inr ⟨rfl, rfl, lt_of_le_of_ne hfg.1 hne⟩)
  · have hlt : ((List.range kNumLevels).drop 1).Pairwise (· < ·) := by decide
    refine hlt.imp_of_mem fun {i j} hi hj hij f hf g hg => ?_
    exact hr (.file i f) (.file j g) (hdeep hi hf).2 (hdeep hj hg).2 (Or.inl hij)
  · intro f hf g hg
    obtain ⟨j, hj, hgj⟩ := mem_flatMap.mp hg
    exact hr (.file 0 f) (.file j g) (mem_level0Files.mp hf).1 (hdeep hj hgj).2
      (Or.inl (hdeep hj hgj).1)

/-- **The newest entry is visited**: a file of a deeper level before the one that holds it would hold
a newer one. -/
theorem Layout.Ok.newest_visited (hl : l.Ok ucmp) (hs : s ≤ kMaxSequenceNumber)
    (hnew : newestVisible ucmp l.all u s = some e) {i : ℕ} (hf : f ∈ l.version.files i)
    (he : e ∈ l.tables f.number) : f ∈ forEachOverlapping ucmp l.version u (lookupKey u s) := by
  obtain ⟨hpars, hcls, hseq⟩ := visible_iff.mp (vis_of_newest hnew)
  have hmem := (hl.bounds i f hf).class_mem (hl.sorted (.file i f) hf) he
  rw [hcls] at hmem
  rw [forEachOverlapping_eq, mem_append]
  rcases Nat.eq_zero_or_pos i with rfl | hpos
  · exact Or.inl (mem_level0Files.mpr ⟨hf, hmem⟩)
  · refine Or.inr (mem_flatMap.mpr ⟨i, ?_, mem_deepFile.mpr ⟨?_, hmem.1⟩⟩)
    · have hlt : i < kNumLevels := by
        grind [deep]
      have : ∀ i < kNumLevels, 1 ≤ i → i ∈ (List.range kNumLevels).drop 1 := by decide
      exact this i hlt hpos
    · have hkey : (lookupKey u s).rank ucmp ≤ e.key.rank ucmp :=
        (rank_lookupKey_le_iff hs hpars).mpr (Or.inr ⟨hcls.symm, hseq⟩)
      have hsort := hl.levels i hpos
      have hfe := (hl.bounds i f hf).rank_le (hl.sorted (.file i f) hf) he
      rw [getElem?_findFile hsort, find?_eq_some_iff_append]
      refine ⟨by rw [bne_iff_ne, internalCompare_ne_lt]; exact hkey.trans hfe.2, ?_⟩
      obtain ⟨pre, post, hsplit⟩ := append_of_mem hf
      refine ⟨pre, post, hsplit, fun g hg => ?_⟩
      have hgf : g.largest.rank ucmp < f.smallest.rank ucmp := by
        have hlt := hsort.rank_lt
        grind
      have hgmem : g ∈ l.version.files i := hsplit ▸ mem_append_left _ hg
      by_contra hge
      simp only [Bool.not_eq_true', Bool.not_eq_false, bne_iff_ne, internalCompare_ne_lt] at hge
      -- the last entry of `g` would be visible and newer
      obtain ⟨-, y, hy, hyk⟩ := (hl.bounds i g hgmem).exists_mem
      have hypars := hl.parsable (.file i g) hgmem y hy
      have hye : y.key.rank ucmp < e.key.rank ucmp := hyk ▸ hgf.trans_le hfe.1
      rw [← hyk] at hge
      have hyvis : userClass ucmp y.key.userKey = userClass ucmp u ∧ y.key.sequence ≤ s := by
        rcases (rank_lookupKey_le_iff hs hypars).mp hge with hlt | ⟨heq, hle⟩
        · have := userClass_le_of_rank_le hye.le
          grind
        · exact ⟨heq.symm, hle⟩
      have hle := ver_le_of_newest hnew (hl.mem_all.mpr ⟨.file i g, hgmem, hy⟩)
        (visible_iff.mpr ⟨hypars, hyvis⟩)
      rcases rank_lt_iff.mp hye with hlt | ⟨-, hlt⟩
      · rw [hyvis.1, hcls] at hlt
        exact lt_irrefl _ hlt
      · exact absurd hlt (not_lt.mpr hle)

/-! ## The search -/

/-- The lists a read visits, in order. -/
def Layout.visited (ucmp : Comparator) (l : Layout) (u : Slice) (s : ℕ) : List (List Entry) :=
  l.mem :: l.imm ::
    (forEachOverlapping ucmp l.version u (lookupKey u s)).map fun f => l.tables f.number

theorem exists_level_of_visited (hf : f ∈ forEachOverlapping ucmp v u key) : ∃ i, f ∈ v.files i := by
  obtain ⟨x, hx, rfl⟩ := mem_map.mp hf
  exact ⟨x.1, (mem_overlappingFiles hx).2⟩

theorem place_of_visited (hes : es ∈ l.visited ucmp u s) : es = [] ∨ ∃ p, l.Has p ∧ l.entries p = es := by
  by_cases hnil : es = []
  · exact Or.inl hnil
  · refine Or.inr ?_
    rcases mem_cons.mp hes with rfl | hes
    · exact ⟨.mem, hnil, rfl⟩
    · rcases mem_cons.mp hes with rfl | hes
      · exact ⟨.imm, hnil, rfl⟩
      · obtain ⟨f, hf, rfl⟩ := mem_map.mp hes
        obtain ⟨i, hi⟩ := exists_level_of_visited hf
        exact ⟨.file i f, hi, rfl⟩

theorem Layout.Ok.visited_sorted (hl : l.Ok ucmp) (hes : es ∈ l.visited ucmp u s) :
    SortedEntries ucmp es ∧ ∀ e ∈ es, e.parsable = true := by
  rcases place_of_visited hes with rfl | ⟨p, hp, rfl⟩
  · exact ⟨List.Pairwise.nil, by simp⟩
  · exact ⟨hl.sorted p hp, hl.parsable p hp⟩

theorem Layout.Ok.visited_older (hl : l.Ok ucmp) (hr : l.Recent ucmp) :
    (l.visited ucmp u s).Pairwise fun es fs => Older ucmp fs es := by
  have hlevel : ∀ f ∈ forEachOverlapping ucmp l.version u (lookupKey u s), ∃ i,
      l.Has (.file i f) := fun f hf => exists_level_of_visited hf
  refine pairwise_cons.mpr ⟨fun fs hfs b hb a ha => ?_, pairwise_cons.mpr
    ⟨fun fs hfs b hb a ha => ?_, pairwise_map.mpr (hl.visited_pairwise hr _)⟩⟩
  · rcases mem_cons.mp hfs with rfl | hfs
    · exact hr .mem .imm (ne_nil_of_mem ha) (ne_nil_of_mem hb) trivial b hb a ha
    · obtain ⟨f, hf, rfl⟩ := mem_map.mp hfs
      obtain ⟨i, hi⟩ := hlevel f hf
      exact hr .mem (.file i f) (ne_nil_of_mem ha) hi trivial b hb a ha
  · obtain ⟨f, hf, rfl⟩ := mem_map.mp hfs
    obtain ⟨i, hi⟩ := hlevel f hf
    exact hr .imm (.file i f) (ne_nil_of_mem ha) hi trivial b hb a ha

/-- **The first list that knows the key** holds the newest entry of the whole layout. -/
theorem Layout.Ok.findSome?_visited (hl : l.Ok ucmp) (hr : l.Recent ucmp)
    (hs : s ≤ kMaxSequenceNumber) :
    (l.visited ucmp u s).findSome? (fun es => newestVisible ucmp es u s) =
      newestVisible ucmp l.all u s := by
  have hflat : (l.visited ucmp u s).findSome? (fun es => newestVisible ucmp es u s) =
      newestVisible ucmp (l.visited ucmp u s).flatten u s := by
    refine findSome?_newest (fun es hes => (hl.visited_sorted hes).1.distinct u s) ?_
    refine (hl.visited_older hr).imp fun {es fs} hold a ha b hb hva hvb => ?_
    exact hold.version_lt hb ha ((visible_iff.mp hvb).2.1.trans (visible_iff.mp hva).2.1.symm)
  rw [hflat]
  refine newest_eq_of_keeps (hl.distinct u s) (fun a ha => ?_) fun x hx => ?_
  · obtain ⟨es, hes, haes⟩ := mem_flatten.mp ha
    rcases place_of_visited hes with rfl | ⟨p, hp, rfl⟩
    · exact absurd haes not_mem_nil
    · exact hl.mem_all.mpr ⟨p, hp, haes⟩
  · obtain ⟨p, hp, hxp⟩ := hl.mem_all.mp (mem_of_newest hx)
    refine mem_flatten.mpr ⟨l.entries p, ?_, hxp⟩
    cases p with
    | mem => exact mem_cons_self
    | imm => exact mem_cons_of_mem _ mem_cons_self
    | file i f =>
      refine mem_cons_of_mem _ (mem_cons_of_mem _ (mem_map.mpr ⟨f, ?_, rfl⟩))
      exact hl.newest_visited hs hx hp hxp

theorem searchFiles_eq {tables : ℕ → List Entry} (hs : s ≤ kMaxSequenceNumber)
    (files : List FileMetaData)
    (hfiles : ∀ f ∈ files, SortedEntries ucmp (tables f.number) ∧
      ∀ e ∈ tables f.number, e.parsable = true) :
    searchFiles ucmp tables u s files = SaverState.ofEntry
      ((files.map fun f => tables f.number).findSome? fun es => newestVisible ucmp es u s) := by
  induction files with
  | nil => rfl
  | cons f files ih =>
    grind [searchFiles, lookupEntries_eq, SaverState.ofEntry]

theorem result_ofEntry (o : Option Entry) :
    (SaverState.ofEntry o).result = .ofOption (o.bind Entry.read) := by
  cases o with
  | none => rfl
  | some x =>
    rw [Option.bind_some, SaverState.ofEntry, Entry.read]
    split_ifs <;> rfl

theorem memTableGet_imm {e : Engine} (hl : e.layout.Ok ucmp) (hs : s ≤ kMaxSequenceNumber) :
    e.imm.bind (memTableGet ucmp u s) = (newestVisible ucmp e.layout.imm u s).map Entry.read := by
  have hvisited : e.layout.imm ∈ e.layout.visited ucmp u s :=
    mem_cons_of_mem _ mem_cons_self
  obtain ⟨hsort, hpars⟩ := hl.visited_sorted hvisited
  rw [← memTableGet_eq hsort hpars hs]
  cases h : e.imm with
  | none =>
    simp only [Engine.layout, h, Option.getD_none, Option.bind_none]
    rfl
  | some mem => simp only [Engine.layout, h, Option.getD_some, Option.bind_some]

/-- **`DBImpl::Get` reads the newest visible entry** of all entries in the database. -/
theorem dbGet_eq_readAt {e : Engine} (hl : e.layout.Ok cfg.comparator)
    (hr : e.layout.Recent cfg.comparator) (hs : s ≤ kMaxSequenceNumber) :
    dbGet cfg e u s = .ofOption (readAt cfg.comparator e.layout.all u s) := by
  have hmem : memTableGet cfg.comparator u s e.mem =
      (newestVisible cfg.comparator e.layout.mem u s).map Entry.read := by
    have hvisited : e.layout.mem ∈ e.layout.visited cfg.comparator u s := mem_cons_self
    obtain ⟨hsort, hpars⟩ := hl.visited_sorted hvisited
    exact memTableGet_eq hsort hpars hs
  have hfiles : versionGet cfg.comparator e.current e.store.tables u s = SaverState.ofEntry
      (((forEachOverlapping cfg.comparator e.layout.version u (lookupKey u s)).map fun f =>
        e.layout.tables f.number).findSome? fun es => newestVisible cfg.comparator es u s) :=
    searchFiles_eq hs _ fun f hf => hl.visited_sorted
      (mem_cons_of_mem _ (mem_cons_of_mem _ (mem_map_of_mem hf)))
  rw [dbGet, hmem, memTableGet_imm hl hs, readAt, ← hl.findSome?_visited hr hs, Layout.visited,
    findSome?_cons, findSome?_cons, hfiles]
  grind [result_ofEntry]

end RocketDb
