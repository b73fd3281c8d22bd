import RocketDb.Iterator.DBIter

/-! # What the calls of the iterator do to its sampler

Only `ParseKey` touches the sampler. If its generator is not caught and the draws suffice for every entry,
then each `ParseKey` of a call returns, and the generator is not caught after the call either
(**`Sampling.compute`**). -/

namespace RocketDb

variable {ucmp : Comparator} {es : List Entry} {s maxSkip draws : ℕ} {it it' : DBIter} {e : Entry}

/-- Every `ParseKey` has returned, and the generator is not caught. -/
def DBIter.Sampling (it : DBIter) : Prop := ∃ t, it.sampler = some t ∧ t.rnd.Live

/-- **A `ParseKey` of a live generator returns** and leaves it live. -/
theorem live_bind_parseKey (hdraws : DrawsSuffice es draws) (t : Option ReadSampler) :
    ∀ e ∈ es, (∃ t', t = some t' ∧ t'.rnd.Live) →
      ∃ t', (t.bind fun t => t.parseKey draws e) = some t' ∧ t'.rnd.Live := by
  rintro e he ⟨t', rfl, hlive⟩
  exact ReadSampler.parseKey_returns hlive (hdraws e he)

namespace DBIter.Sampling

/-- The iterator starts with a live generator, unless its seed is one of the stuck ones. -/
theorem new (es : List Entry) {seed : UInt32} (h : (seed &&& 0x7fffffff).toNat ∉ stuckSeeds) :
    (DBIter.new es seed).Sampling :=
  ⟨_, rfl, ReadSampler.live_new h⟩

/-- Only the sampler counts. -/
theorem congr (h : it.Sampling) (heq : it'.sampler = it.sampler) : it'.Sampling := by
  rwa [DBIter.Sampling, heq]

theorem isSome (h : it.Sampling) : it.sampler.isSome = true := by
  obtain ⟨t, ht, -⟩ := h
  rw [ht, Option.isSome_some]

/-- `ParseKey` returns. -/
theorem parseKey (h : it.Sampling) (hdraws : DrawsSuffice es draws) (he : es[it.pos]? = some e) :
    (it.parseKey draws e).Sampling :=
  live_bind_parseKey hdraws it.sampler e (List.mem_of_getElem? he) h

end DBIter.Sampling

open DBIter

/-! ## Forward -/

theorem sampler_advance (it : DBIter) (st : NextLoop) (e : Entry) (u : Slice) :
    (advance ucmp es s maxSkip it st e u).1.sampler = it.sampler := by
  simp only [advance]
  split_ifs <;> rfl

theorem sampler_findNextStep (ucmp : Comparator) (es : List Entry) (s maxSkip : ℕ) (it : DBIter)
    (st : NextLoop) (e : Entry) :
    match findNextStep ucmp es s maxSkip it st e with
    | .inl it' => it'.sampler = it.sampler
    | .inr r => r.1.sampler = it.sampler := by
  rw [findNextStep]
  cases parseInternalKey e.key with
  | none => rfl
  | some ikey =>
    simp only
    cases ikey.type with
    | kTypeDeletion =>
      split_ifs <;> exact sampler_advance _ _ e ikey.userKey
    | kTypeValue =>
      simp only
      split_ifs
      · exact sampler_advance _ _ e ikey.userKey
      · rfl
      · exact sampler_advance _ _ e ikey.userKey

/-- **The forward search keeps what every `ParseKey` keeps**: it parses the entry at the cursor in each of its
rounds, and does nothing else to the sampler. -/
theorem findNextLoop_sampler {P : Option ReadSampler → Prop}
    (hP : ∀ t, ∀ e ∈ es, P t → P (t.bind fun t => t.parseKey draws e)) (fuel : ℕ) :
    ∀ (it : DBIter) (st : NextLoop), P it.sampler →
      findNextLoop ucmp es s maxSkip draws fuel it st = some it' → P it'.sampler := by
  induction fuel with
  | zero =>
    intro it st _ hrun
    cases hrun
  | succ fuel ih =>
    intro it st h hrun
    rw [findNextLoop] at hrun
    cases he : es[it.pos]? with
    | none =>
      grind
    | some e =>
      have hparsed := hP it.sampler e (List.mem_of_getElem? he) h
      grind [sampler_findNextStep, parseKey]

/-- **A call whose first `ParseKey` hangs does not return.** -/
theorem DBIter.call_seekToFirst_hangs (ucmp : Comparator) (s maxSkip : ℕ) {seed : UInt32}
    (h : (ReadSampler.new seed).parseKey draws e = none) :
    (DBIter.new [e] seed).call ucmp [e] s maxSkip draws .seekToFirst = none := by
  rw [DBIter.call, Option.filter_eq_none_iff]
  intro it' hit' hsome
  have hstuck : it'.sampler = none := by
    let it₀ : DBIter := { DBIter.new [e] seed with direction := .kForward, savedValue := [], pos := 0 }
    have hit₀ : (it₀.parseKey draws e).sampler = none := h
    change findNextLoop ucmp [e] s maxSkip draws 2 it₀ (.init false) = some it' at hit'
    have hstep := sampler_findNextStep ucmp [e] s maxSkip (it₀.parseKey draws e) (.init false) e
    rw [findNextLoop, show [e][it₀.pos]? = some e from rfl] at hit'
    simp only at hit'
    cases hr : findNextStep ucmp [e] s maxSkip (it₀.parseKey draws e) (.init false) e with
    | inl it₁ =>
      grind
    | inr r =>
      simp only [hr] at hit' hstep
      refine findNextLoop_sampler (P := fun t => t = none) ?_ 1 r.1 r.2 (hstep.trans hit₀) hit'
      rintro _ _ _ rfl
      rfl
  rw [hstuck] at hsome
  cases hsome

/-! ## Backward -/

theorem DBIter.Sampling.saveSnapshotValue (ucmp : Comparator) (s : ℕ) (h : it.Sampling)
    (hdraws : DrawsSuffice es draws) (u : Slice) :
    (saveSnapshotValue ucmp es s draws it u).2.Sampling := by
  have hsought : Sampling { it with pos := seekTarget ucmp es (.ofParts u s kValueTypeForSeek) } :=
    h.congr rfl
  rw [RocketDb.saveSnapshotValue]
  simp only
  cases he : es[seekTarget ucmp es (.ofParts u s kValueTypeForSeek)]? with
  | none => exact hsought
  | some e =>
    have hparsed := hsought.parseKey hdraws he
    simp only
    cases parseInternalKey e.key with
    | none => exact hparsed.congr rfl
    | some ikey =>
      simp only
      split_ifs
      · exact hparsed.congr rfl
      · exact hparsed

theorem DBIter.Sampling.findValueForCurrentKeyUsingSeek (h : it.Sampling)
    (hdraws : DrawsSuffice es draws) (u : Slice) :
    (findValueForCurrentKeyUsingSeek ucmp es s draws it u).2.Sampling := by
  have hsaved := h.saveSnapshotValue ucmp s hdraws u
  rw [RocketDb.findValueForCurrentKeyUsingSeek]
  simp only
  split_ifs
  · exact hsaved.congr rfl
  · exact hsaved.congr rfl
  · exact hsaved

theorem sampler_stepBack (ucmp : Comparator) (es : List Entry) (s : ℕ) (it : DBIter) (st : PrevLoop)
    (e : Entry) (ikey : ParsedInternalKey) :
    match stepBack ucmp es s it st e ikey with
    | .inl r => r.1.sampler = it.sampler
    | .inr r => r.1.sampler = it.sampler := by
  grind [stepBack]

theorem DBIter.Sampling.findPrevStep (ucmp : Comparator) (s maxSkip : ℕ) (h : it.Sampling)
    (hdraws : DrawsSuffice es draws) (st : PrevLoop) (e : Entry) :
    match findPrevStep ucmp es s maxSkip draws it st e with
    | .inl r => r.1.Sampling
    | .inr r => r.1.Sampling := by
  have hback (st : PrevLoop) (ikey : ParsedInternalKey) :
      match stepBack ucmp es s it st e ikey with
      | .inl r => r.1.Sampling
      | .inr r => r.1.Sampling := by
    have hsame := sampler_stepBack ucmp es s it st e ikey
    split <;> simp_all only <;> exact h.congr hsame
  rw [RocketDb.findPrevStep]
  cases parseInternalKey e.key with
  | none => exact h.congr rfl
  | some ikey =>
    simp only
    generalize (if (st.enterKey ucmp ikey.userKey).skipped < maxSkip
      then (st.enterKey ucmp ikey.userKey).skipped + 1
      else (st.enterKey ucmp ikey.userKey).skipped) = skipped
    split_ifs
    · exact hback _ ikey
    · exact h
    · exact h.findValueForCurrentKeyUsingSeek hdraws _
    · exact h.findValueForCurrentKeyUsingSeek hdraws _
    · exact h.findValueForCurrentKeyUsingSeek hdraws _
    · exact hback _ ikey

theorem sampler_finishPrev (it : DBIter) (type : ValueType) : (finishPrev it type).sampler = it.sampler := by
  cases type <;> rfl

/-- The backward search does so too, and once more where it seeks. -/
theorem DBIter.Sampling.findPrevLoop (hdraws : DrawsSuffice es draws) (fuel : ℕ) :
    ∀ (it : DBIter) (st : PrevLoop), it.Sampling →
      findPrevLoop ucmp es s maxSkip draws fuel it st = some it' → it'.Sampling := by
  induction fuel with
  | zero =>
    intro it st _ hrun
    cases hrun
  | succ fuel ih =>
    intro it st h hrun
    rw [RocketDb.findPrevLoop] at hrun
    cases he : es[it.pos]? with
    | none =>
      simp only [he, Option.some.injEq] at hrun
      exact h.congr (by rw [← hrun, sampler_finishPrev])
    | some e =>
      have hstep := (h.parseKey hdraws he).findPrevStep ucmp s maxSkip hdraws st e
      simp only [he] at hrun
      cases hr : RocketDb.findPrevStep ucmp es s maxSkip draws (it.parseKey draws e) st e with
      | inl r =>
        simp only [hr, Option.some.injEq] at hrun hstep
        exact hstep.congr (by rw [← hrun, sampler_finishPrev])
      | inr r =>
        grind

theorem sampler_leaveKeyLoop (fuel : ℕ) :
    ∀ (it : DBIter) (skipped : ℕ), leaveKeyLoop ucmp es maxSkip fuel it skipped = some it' →
      it'.sampler = it.sampler := by
  induction fuel with
  | zero =>
    intro it skipped hrun
    cases hrun
  | succ fuel ih =>
    grind [leaveKeyLoop]

/-! ## The calls -/

/-- **Every call leaves a live generator.** -/
theorem DBIter.Sampling.compute (h : it.Sampling) (hdraws : DrawsSuffice es draws) (c : IterCall)
    (hcall : it.compute ucmp es s maxSkip draws c = some it') : it'.Sampling := by
  have hforward {it₁ : DBIter} {skipping : Bool}
      (hrun : findNextUserEntry ucmp es s maxSkip draws skipping it₁ = some it')
      (hsame : it₁.sampler = it.sampler) : it'.Sampling :=
    findNextLoop_sampler (P := fun t => ∃ t', t = some t' ∧ t'.rnd.Live) (live_bind_parseKey hdraws) _ it₁ _
      (h.congr hsame) hrun
  have hbackward {it₁ : DBIter} (hrun : findPrevUserEntry ucmp es s maxSkip draws it₁ = some it')
      (hsame : it₁.sampler = it.sampler) : it'.Sampling :=
    Sampling.findPrevLoop hdraws _ it₁ _ (h.congr hsame) hrun
  have hunchanged {it₁ : DBIter} (hrun : some it₁ = some it') (hsame : it₁.sampler = it.sampler) :
      it'.Sampling := h.congr (by rw [← Option.some.inj hrun, hsame])
  cases c with
  | seek target =>
    grind [DBIter.compute, DBIter.seek]
  | seekToFirst =>
    grind [DBIter.compute, DBIter.seekToFirst]
  | seekToLast => exact hbackward hcall rfl
  | next =>
    have hfrom (it₁ : DBIter) (hsame : it₁.sampler = it.sampler)
        (hrun : (if it₁.pos < es.length then findNextUserEntry ucmp es s maxSkip draws true it₁
          else some { it₁ with valid := false, savedKey := [] }) = some it') : it'.Sampling := by
      grind
    rw [DBIter.compute] at hcall
    split_ifs at hcall with hvalid
    exact hfrom _ (by cases it.direction <;> rfl) hcall
  | prev =>
    simp only [DBIter.compute, DBIter.prev] at hcall
    split_ifs at hcall
    cases hdir : it.direction with
    | kReverse =>
      simp only [hdir] at hcall
      exact hbackward hcall rfl
    | kForward =>
      simp only [hdir] at hcall
      split at hcall
      · cases hcall
      · rename_i it₁ hleave
        have hsame := sampler_leaveKeyLoop _ _ _ hleave
        grind

end RocketDb
