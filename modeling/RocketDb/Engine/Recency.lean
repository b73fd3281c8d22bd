import RocketDb.Engine.CompactionJob

/-! # Recency and reads across the background jobs

The jobs keep newer entries above older ones, and what they drop cannot be seen above the bound they were
given.

* **`JobRecent`** — while a compaction runs, everything but its inputs is newer than them, or in the deeper
  levels it looked at. `Selected.jobRecent`: so at the start, if the inputs leave no older versions behind.
* **`recent_of_inputs`**, **`JobOk.readAt_install`** — the end of the compaction. -/

namespace RocketDb

open KeyOrder Newest

variable {cfg : Config} {ucmp : Comparator} {l l' : Layout} {f g : FileMetaData} {e : Entry}
  {c : Compaction} {outs : List FileMetaData} {job : FlushJob} {u : Slice} {s : ℕ}

/-! ## Flush -/

theorem FlushJob.recent (hl : l.Ok cfg.comparator) (hr : l.Recent cfg.comparator)
    (hbase : job.base = l.version)
    (hnum : ∀ i, ∀ f ∈ l.version.files i, f.number < job.number) :
    (l.flushed cfg job).Recent cfg.comparator := by
  have hmove := move hl hnum
  have himm : ∀ f ∈ job.files cfg l.imm, l.Has .imm ∧
      ∀ a ∈ (l.flushed cfg job).tables f.number, a ∈ l.entries .imm := fun f hf => by
    rw [job.tables_flushed cfg l hf]
    exact ⟨(mem_files hf).2, fun a ha => (prunedEntries_sublist l.imm).subset ha⟩
  refine hmove.recent hr (fun _ f hf g hg => ?_) ?_ ?_
  · rw [(mem_files hf).1, (mem_files hg).1]
  · rintro (_ | _ | ⟨i, g⟩) hp hstay f hf habove
    · exact (hr .mem .imm hp (himm f hf).1 trivial).mono (himm f hf).2 fun _ ha => ha
    · exact absurd rfl hstay
    · rcases habove with hlt | ⟨-, -, hlt⟩
      · exact older_of_class_lt (clear hl hbase hf hlt.le (by omega) hp).symm
          (hl.bounds i g hp) (hmove.bounds f hf) (hl.sorted (.file i g) hp) (hmove.sorted f hf)
      · have hnumber : f.number = job.number := by
          rw [(mem_files hf).1, number_output]
        exact absurd (hnum i g hp) (by omega)
  · rintro (_ | _ | ⟨i, g⟩) hp _ f hf hbelow
    · cases hbelow
    · cases hbelow
    · exact (hr .imm (.file i g) (himm f hf).1 hp trivial).mono (fun _ hb => hb) (himm f hf).2

theorem FlushJob.readAt_flushed (hl : l.Ok cfg.comparator) (hbase : job.base = l.version)
    (hnum : ∀ i, ∀ f ∈ l.version.files i, f.number < job.number)
    (hs : job.smallestSnapshot ≤ s) :
    readAt cfg.comparator (l.flushed cfg job).all u s = readAt cfg.comparator l.all u s := by
  have hmove := move hl hnum
  have hok := flushed_ok hl hbase hnum
  refine readAt_eq_of_loss (hl.distinct u s) (fun a ha => hmove.mem_all hl hok ha) fun x hx => ?_
  refine Or.inl (hok.mem_all.mpr ?_)
  obtain ⟨p, hp, hxp⟩ := hl.mem_all.mp (mem_of_newest hx)
  by_cases himm : p = .imm
  · subst himm
    have hf := job.output_mem_files cfg hp
    have hnew : newestVisible cfg.comparator l.imm u s = some x := by
      refine (newest_eq_some_iff ((hl.sorted .imm hp).distinct u s)).mpr
        ⟨hxp, vis_of_newest hx, fun a ha hv => ?_⟩
      exact ver_le_of_newest hx (hl.mem_all.mpr ⟨.imm, hp, ha⟩) hv
    refine ⟨.file _ _, (hmove.has_iff _).mpr (Or.inr ⟨_, hf, rfl⟩), ?_⟩
    change x ∈ (l.flushed cfg job).tables _
    rw [job.tables_flushed cfg l hf]
    exact newest_mem_prunedEntries (hl.sorted .imm hp) hs hnew
  · grind [Move]

/-! ## What is newer than the inputs of a compaction -/

/-- Everything but the inputs is newer than them, or lies in the levels below the outputs. -/
def JobRecent (ucmp : Comparator) (l : Layout) (c : Compaction) : Prop :=
  ∀ p, l.Has p → ¬ c.IsInput p → Older ucmp (inputEntries ucmp l.tables c) (l.entries p) ∨
    ∃ i f, p = .file i f ∧ c.level + 2 ≤ i ∧ f ∈ c.inputVersion.files i

theorem Compaction.Listed.place_of_input (h : c.Listed l.version)
    (he : e ∈ inputEntries ucmp l.tables c) :
    ∃ i f, (i = c.level ∧ f ∈ c.inputs0 ∨ i = c.level + 1 ∧ f ∈ c.inputs1) ∧
      f ∈ l.version.files i ∧ e ∈ l.tables f.number := by
  obtain ⟨f, hf, hef⟩ := mem_inputEntries.mp he
  obtain ⟨i, hi, hhas⟩ := h.exists_place hf
  exact ⟨i, f, hi, hhas, hef⟩

theorem mem_inputEntries_of_place {p : Place} (hp : c.IsInput p) (he : e ∈ l.entries p) :
    e ∈ inputEntries ucmp l.tables c := by
  cases p with
  | mem => cases hp
  | imm => cases hp
  | file i f =>
    refine mem_inputEntries.mpr ⟨f, ?_, he⟩
    rcases hp with ⟨-, hf⟩ | ⟨-, hf⟩
    · exact List.mem_append_left _ hf
    · exact List.mem_append_right _ hf

/-- **Clean boundaries**: in a sorted level, a file left out holds no older version of a key of a file
taken along. -/
theorem older_of_clean {i : ℕ} (hl : l.Ok ucmp) (hi : 1 ≤ i) {inputs : List FileMetaData}
    (hclean : CleanBoundary ucmp (l.version.files i) inputs) (hf : f ∈ l.version.files i)
    (hfin : f ∈ inputs) (hg : g ∈ l.version.files i) (hout : g ∉ inputs) :
    Older ucmp (l.tables f.number) (l.tables g.number) := by
  intro b hb a ha hcmp
  have hcls := cls_eq_iff.mpr hcmp
  have hfb := (hl.bounds i f hf).rank_le (hl.sorted (.file i f) hf) hb
  have hga := (hl.bounds i g hg).rank_le (hl.sorted (.file i g) hg) ha
  rcases (hl.levels i hi).disjoint hf hg fun heq => hout (heq ▸ hfin) with hfg | hgf
  · -- `g` comes right after `f` and starts with the same user key
    exfalso
    refine hclean g hg hout f hfin ⟨internalCompare_eq_gt.mpr hfg, cls_eq_iff.mp ?_⟩
    refine le_antisymm ?_ (userClass_le_of_rank_le hfg.le)
    calc userClass ucmp g.smallest.userKey
        ≤ userClass ucmp a.key.userKey := userClass_le_of_rank_le hga.1
      _ = userClass ucmp b.key.userKey := hcls.symm
      _ ≤ userClass ucmp f.largest.userKey := userClass_le_of_rank_le hfb.2
  · have hlt : a.key.rank ucmp < b.key.rank ucmp := hga.2.trans_lt (hgf.trans_le hfb.1)
    rcases rank_lt_iff.mp hlt with hlt | ⟨-, hlt⟩
    · exact absurd hcls hlt.ne'
    · exact UInt64.lt_iff_toNat_lt.mpr hlt

theorem older_of_not_meetsHull {i j : ℕ} (hl : l.Ok ucmp) {inputs : List FileMetaData}
    (hmiss : ¬ MeetsHull ucmp inputs g) (hf : f ∈ l.version.files i) (hfin : f ∈ inputs)
    (hg : g ∈ l.version.files j) : Older ucmp (l.tables f.number) (l.tables g.number) :=
  older_of_class_lt ((not_meetsHull_iff.mp hmiss).imp (fun h => h f hfin) fun h => h f hfin).symm
    (hl.bounds j g hg) (hl.bounds i f hf) (hl.sorted (.file j g) hg) (hl.sorted (.file i f) hf)

/-- **At the start of a compaction** that leaves no older versions behind, everything else is newer
than its inputs or below its outputs. -/
theorem Selected.jobRecent (h : Selected ucmp l.version c.level c.inputs0 c.inputs1)
    (hbase : c.inputVersion = l.version) (hl : l.Ok ucmp) (hr : l.Recent ucmp)
    (hclean : CleanBoundaries ucmp l.version c.level (c.inputs0, c.inputs1)) :
    JobRecent ucmp l c := by
  intro p hp hstay
  -- it is enough to compare with one input file at a time
  have hfile : (∀ i f, (i = c.level ∧ f ∈ c.inputs0 ∨ i = c.level + 1 ∧ f ∈ c.inputs1) →
      f ∈ l.version.files i → Older ucmp (l.tables f.number) (l.entries p)) →
      Older ucmp (inputEntries ucmp l.tables c) (l.entries p) := by
    intro hall b hb
    obtain ⟨i, f, hif, hf, hbf⟩ := h.listed.place_of_input hb
    exact hall i f hif hf b hbf
  cases p with
  | mem => exact Or.inl (hfile fun i f _ hf => hr .mem (.file i f) hp hf trivial)
  | imm => exact Or.inl (hfile fun i f _ hf => hr .imm (.file i f) hp hf trivial)
  | file j g =>
    rcases Nat.lt_or_ge (c.level + 1) j with hj | hj
    · exact Or.inr ⟨j, g, rfl, hj, hbase ▸ hp⟩
    refine Or.inl (hfile fun i f hif hf => ?_)
    rcases Nat.lt_or_ge j i with hji | hji
    · exact hr (.file j g) (.file i f) hp hf (Or.inl hji)
    rcases hif with ⟨rfl, hfin⟩ | ⟨rfl, hfin⟩
    · rcases Nat.eq_or_lt_of_le hji with rfl | hji
      · have hout : g ∉ c.inputs0 := fun hg => hstay (Or.inl ⟨rfl, hg⟩)
        rcases Nat.eq_zero_or_pos c.level with hzero | hpos
        · refine older_of_not_meetsHull hl (fun hm => hout ?_) hf hfin hp
          have hp' : g ∈ l.version.files c.level := hp
          rw [hzero] at hp'
          exact h.closed hzero g hp' hm
        · exact older_of_clean hl hpos (hclean.1 hpos) hf hfin hp hout
      · obtain rfl : j = c.level + 1 := by omega
        have hout : g ∉ c.inputs1 := fun hg => hstay (Or.inr ⟨rfl, hg⟩)
        exact older_of_not_meetsHull hl (fun hm => hout ((h.mem1 g).mpr ⟨hp, hm⟩)) hf hfin hp
    · obtain rfl : j = c.level + 1 := by omega
      have hout : g ∉ c.inputs1 := fun hg => hstay (Or.inr ⟨rfl, hg⟩)
      exact older_of_clean hl (by omega) hclean.2 hf hfin hp hout

/-! ## The end of a compaction -/

theorem recent_of_inputs (m : Move ucmp l l' c.IsInput (c.level + 1) outs) (hr : l.Recent ucmp)
    (hjob : JobRecent ucmp l c) : l'.Recent ucmp := by
  refine m.recent hr (fun h => absurd h (Nat.succ_ne_zero _)) ?_ ?_
  · intro p hp hstay f hf habove b hb
    obtain ⟨q, hq, -, hbq⟩ := m.source f hf b hb
    rcases hjob p hp hstay with hnewer | ⟨i, g, rfl, hi, -⟩
    · exact hnewer b (mem_inputEntries_of_place hq hbq)
    · rcases habove with hlt | ⟨-, hzero, -⟩
      · omega
      · omega
  · rintro (_ | _ | ⟨j, g⟩) hp _ f hf hbelow b hb a ha
    · cases hbelow
    · cases hbelow
    · obtain ⟨q, hq, hhas, haq⟩ := m.source f hf a ha
      have hlt : c.level + 1 < j := by
        rcases hbelow with hlt | ⟨hzero, -⟩
        · exact hlt
        · omega
      cases q with
      | mem => cases hq
      | imm => cases hq
      | file i x =>
        have hij : i < j := by
          rcases hq with ⟨rfl, -⟩ | ⟨rfl, -⟩ <;> omega
        exact hr (.file i x) (.file j g) hhas hp (Or.inl hij) b hb a haq

variable {store : TableStore} {cs : CompactionState}

theorem newestVisible_inputs (hl : l.Ok ucmp) (hc : c.Listed l.version)
    (hsort : SortedEntries ucmp (inputEntries ucmp l.tables c)) {x : Entry}
    (hx : newestVisible ucmp l.all u s = some x) (hin : x ∈ inputEntries ucmp l.tables c) :
    newestVisible ucmp (inputEntries ucmp l.tables c) u s = some x := by
  refine (newest_eq_some_iff (hsort.distinct u s)).mpr ⟨hin, vis_of_newest hx, fun a ha hv => ?_⟩
  obtain ⟨i, f, -, hf, haf⟩ := hc.place_of_input ha
  exact ver_le_of_newest hx (hl.mem_all.mpr ⟨.file i f, hf, haf⟩) hv

/-- **After a tombstone was dropped** nothing visible of its key is left. -/
theorem JobOk.invisible_of_dropped (h : JobOk ucmp l.version store cs) (hl : l.Ok ucmp)
    (ht : store.tables = l.tables) (hb : cs.builder = none) (hin : cs.input = [])
    (hrec : JobRecent ucmp l cs.compaction) (hsnap : cs.smallestSnapshot < kMaxSequenceNumber)
    {x y : Entry} (hx : newestVisible ucmp l.all u s = some x)
    (hxin : x ∈ inputEntries ucmp l.tables cs.compaction) (hle : x.key.sequence ≤ cs.smallestSnapshot)
    (hbase : noFileCovers ucmp cs.compaction.inputVersion cs.compaction.level x.key.userKey = true)
    (hxout : ∀ f ∈ cs.outputs, x ∉ l.tables f.number)
    (hy : y ∈ (l.install ucmp cs.edit).all) : visible ucmp u s y = false := by
  have hmove := h.move hl ht hb hin
  have hok := h.install_ok hl ht hb hin
  by_contra hvis
  have hvis : visible ucmp u s y = true := by simpa using hvis
  have hyall := hmove.mem_all hl hok hy
  have hver : y.version ≤ x.version := ver_le_of_newest hx hyall hvis
  have hcls : userClass ucmp x.key.userKey = userClass ucmp y.key.userKey :=
    (visible_iff.mp (vis_of_newest hx)).2.1.trans (visible_iff.mp hvis).2.1.symm
  obtain ⟨p, hp, hyp⟩ := hok.mem_all.mp hy
  rcases (hmove.has_iff p).mp hp with ⟨hp, hstay⟩ | ⟨f, hf, rfl⟩
  · rw [hmove.kept p hp hstay] at hyp
    rcases hrec p hp hstay with hnewer | ⟨i, g, rfl, hi, hg⟩
    · exact absurd (hnewer.version_lt hxin hyp hcls) (not_lt.mpr hver)
    · -- a file of a deeper level would cover the key
      have hlt : i < kNumLevels := by
        by_contra hge
        have hp' : g ∈ l.version.files i := hp
        grind [Layout.Ok.deep]
      have hmem := (hl.bounds i g hp).class_mem (hl.sorted (.file i g) hp) hyp
      rw [← hcls] at hmem
      rw [noFileCovers, List.all_eq_true] at hbase
      have hall := List.all_eq_true.mp (hbase i (mem_levelsBelow.mpr ⟨hi, hlt⟩)) g hg
      rw [FileMetaData.covers_iff.mpr hmem] at hall
      cases hall
  · -- an older version in the outputs would follow an unparsable key
    have hykept : y ∈ keptEntries ucmp cs.smallestSnapshot
        (noFileCovers ucmp cs.compaction.inputVersion cs.compaction.level)
        (inputEntries ucmp l.tables cs.compaction) := by
      rw [← ht, ← h.flatMap_outputs hb hin, ht]
      exact List.mem_flatMap.mpr ⟨f, hf, hyp⟩
    have hne : y ≠ x := fun heq => hxout f hf (heq ▸ hyp)
    have hlt : y.version < x.version := lt_of_le_of_ne hver fun heq =>
      hne (hl.distinct u s y hyall x (mem_of_newest hx) hvis (vis_of_newest hx) heq)
    obtain ⟨z, hz, hzpars⟩ := unparsable_before_of_kept (ht ▸ h.sorted) hsnap hxin hcls.symm hlt
      hle (visible_iff.mp hvis).1 hykept
    obtain ⟨i, g, -, hg, hzg⟩ := h.listed.place_of_input (hz.subset List.mem_cons_self)
    rw [hl.parsable (.file i g) hg z hzg] at hzpars
    cases hzpars

theorem JobOk.readAt_install (h : JobOk ucmp l.version store cs) (hl : l.Ok ucmp)
    (ht : store.tables = l.tables) (hb : cs.builder = none) (hin : cs.input = [])
    (hrec : JobRecent ucmp l cs.compaction) (hsnap : cs.smallestSnapshot < kMaxSequenceNumber)
    (hs : cs.smallestSnapshot ≤ s) :
    readAt ucmp (l.install ucmp cs.edit).all u s = readAt ucmp l.all u s := by
  have hmove := h.move hl ht hb hin
  have hok := h.install_ok hl ht hb hin
  refine readAt_eq_of_loss (hl.distinct u s) (fun a ha => hmove.mem_all hl hok ha) fun x hx => ?_
  obtain ⟨p, hp, hxp⟩ := hl.mem_all.mp (mem_of_newest hx)
  by_cases hinput : cs.compaction.IsInput p
  · have hxin : x ∈ inputEntries ucmp l.tables cs.compaction :=
      mem_inputEntries_of_place hinput hxp
    have hsort : SortedEntries ucmp (inputEntries ucmp l.tables cs.compaction) := ht ▸ h.sorted
    by_cases hkept : ∃ f ∈ cs.outputs, x ∈ l.tables f.number
    · obtain ⟨f, hf, hxf⟩ := hkept
      exact Or.inl (hok.mem_all.mpr
        ⟨.file _ f, (hmove.has_iff _).mpr (Or.inr ⟨f, hf, rfl⟩), hxf⟩)
    · have hxout : ∀ f ∈ cs.outputs, x ∉ l.tables f.number := fun f hf hxf => hkept ⟨f, hf, hxf⟩
      have hdrop : x ∉ keptEntries ucmp cs.smallestSnapshot
          (noFileCovers ucmp cs.compaction.inputVersion cs.compaction.level)
          (inputEntries ucmp l.tables cs.compaction) := by
        rw [← ht, ← h.flatMap_outputs hb hin, ht]
        grind
      obtain ⟨hdel, hle, hbase⟩ := deletion_of_newest_dropped hsort hsnap hs
        (newestVisible_inputs hl h.listed hsort hx hxin) hdrop
      exact Or.inr ⟨hdel, fun y hy =>
        h.invisible_of_dropped hl ht hb hin hrec hsnap hx hxin hle hbase hxout hy⟩
  · exact Or.inl (hok.mem_all.mpr ⟨p, (hmove.has_iff p).mpr (Or.inl ⟨hp, hinput⟩),
      (hmove.kept p hp hinput).symm ▸ hxp⟩)

theorem Selected.readAt_move (h : Selected ucmp l.version c.level c.inputs0 c.inputs1)
    (hl : l.Ok ucmp) (hlevel : c.level + 1 < kNumLevels)
    (htriv : ∃ f, c.inputs0 = [f] ∧ c.inputs1 = []) :
    readAt ucmp (l.install ucmp c.moveEdit).all u s = readAt ucmp l.all u s := by
  have hmove := h.move hl hlevel htriv
  have hok := h.move_ok hl hlevel htriv
  refine readAt_congr_mem (hl.distinct u s) fun a => ⟨hmove.mem_all hl hok, fun ha => ?_⟩
  obtain ⟨p, hp, hap⟩ := hl.mem_all.mp ha
  refine hok.mem_all.mpr ?_
  by_cases hinput : c.IsInput p
  · cases p with
    | mem => cases hinput
    | imm => cases hinput
    | file i f =>
      obtain ⟨-, -, hnil⟩ := htriv
      have hf : f ∈ c.inputs0 := by
        rcases hinput with ⟨-, hf⟩ | ⟨-, hf⟩
        · exact hf
        · exact absurd (hnil ▸ hf) List.not_mem_nil
      exact ⟨.file (c.level + 1) f, (hmove.has_iff _).mpr (Or.inr ⟨f, hf, rfl⟩), hap⟩
  · grind [Move]

end RocketDb
