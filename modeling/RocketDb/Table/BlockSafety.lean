import RocketDb.Table.Block

/-! # Block iterators over arbitrary bytes

Nothing is assumed about the contents of a block here.

* **`Wraps`** — the 32-bit sum of the lengths of an entry fits into the entry area although they do not.
* **`Malformed`** — the entry at an offset cannot be read as one that continues a key.
* **`Block.Scanned`** — the offsets that a scan from a restart point reaches.
* **`blockIter_confined`** — in a block without such sums at these offsets the iterator stays inside the entry
  area, every call returns, and a malformed entry ends in `Corruption`. `blockIter_escapes` is a block of 16
  bytes with one. -/

namespace RocketDb

open Transition

/-! ## Decoding -/

variable {area p : Slice} {offset : ℕ} {h : EntryHeader} {e : DecodedEntry}

/-- The 32-bit sum of the lengths of the entry fits into the area though their sum does not. -/
def Wraps (area : Slice) (offset : ℕ) : Prop :=
  ∃ h, decodeHeader (area.drop offset) = some h ∧
    2 ^ 32 ≤ h.nonShared.toNat + h.valueLength.toNat ∧
    h.nonShared.toNat + h.valueLength.toNat - 2 ^ 32 ≤ h.rest.length

/-- **The entry cannot be read** as one that continues a key of the given length: it has no lengths, or it
is longer than the area, or it shares more than there is. -/
def Malformed (area : Slice) (offset keyLength : ℕ) : Prop :=
  ∀ h, decodeHeader (area.drop offset) = some h →
    h.rest.length < h.nonShared.toNat + h.valueLength.toNat ∨ keyLength < h.shared.toNat

/-- `DecodeEntry` accepts what fits by its 32-bit sum. -/
theorem decodeEntry_eq_some : decodeEntry area offset = some e ↔
    ∃ h, decodeHeader (area.drop offset) = some h ∧
      ¬ UInt32.ofNat h.rest.length < h.nonShared + h.valueLength ∧
      e = ⟨h.shared, h.nonShared, h.valueLength, area.length - h.rest.length⟩ := by
  rw [decodeEntry, decodeLengths_eq]
  cases hd : decodeHeader (area.drop offset) with
  | none => simp
  | some h =>
    dsimp only
    split_ifs with hlt
    · constructor
      · intro he
        cases he
      · rintro ⟨h', hh, hnot, -⟩
        cases hh
        exact absurd hlt hnot
    · constructor
      · intro he
        exact ⟨h, rfl, hlt, (Option.some.inj he).symm⟩
      · rintro ⟨h', hh, -, rfl⟩
        cases hh
        rfl

/-- The check of `DecodeEntry`, on numbers: the sum of the lengths is taken modulo `2 ^ 32`. -/
theorem not_ofNat_lt_iff {n : ℕ} (hn : n < 2 ^ 32) (a b : UInt32) :
    ¬ UInt32.ofNat n < a + b ↔ (a.toNat + b.toNat) % 2 ^ 32 ≤ n := by
  rw [UInt32.lt_iff_toNat_lt, UInt32.toNat_add, UInt32.toNat_ofNat', Nat.mod_eq_of_lt hn, not_lt]

theorem rest_bounds (hd : decodeHeader (area.drop offset) = some h) :
    offset + 3 + h.rest.length ≤ area.length := by
  have := length_decodeHeader hd
  rw [List.length_drop] at this
  omega

section

variable (harea : area.length < 2 ^ 32) (hwrap : ¬ Wraps area offset)

include harea hwrap

/-- **A pointer is returned for what fits**, if nothing wraps. -/
theorem decodeEntry_eq_some_iff :
    decodeEntry area offset = some e ↔
      ∃ h, decodeHeader (area.drop offset) = some h ∧
        h.nonShared.toNat + h.valueLength.toNat ≤ h.rest.length ∧
        e = ⟨h.shared, h.nonShared, h.valueLength, area.length - h.rest.length⟩ := by
  rw [decodeEntry_eq_some]
  refine exists_congr fun h => and_congr_right fun hd => and_congr_left fun _ => ?_
  have hrest := rest_bounds hd
  rw [not_ofNat_lt_iff (by omega)]
  have hnot : ¬ (2 ^ 32 ≤ h.nonShared.toNat + h.valueLength.toNat ∧
      h.nonShared.toNat + h.valueLength.toNat - 2 ^ 32 ≤ h.rest.length) := fun hw => hwrap ⟨h, hd, hw⟩
  have hns := h.nonShared.toNat_lt
  have hvl := h.valueLength.toNat_lt
  omega

/-- What it accepts is inside of the area, if the sum does not wrap. -/
theorem decodeEntry_inside (he : decodeEntry area offset = some e) :
    offset + 3 ≤ e.p ∧ e.p + e.nonShared.toNat + e.valueLength.toNat ≤ area.length := by
  obtain ⟨h, hd, hfit, rfl⟩ := (decodeEntry_eq_some_iff harea hwrap).mp he
  have hrest := rest_bounds hd
  dsimp only
  omega

theorem not_malformed_of_decodeEntry (he : decodeEntry area offset = some e) {n : ℕ}
    (hshared : e.shared.toNat ≤ n) :
    ¬ Malformed area offset n := by
  obtain ⟨h, hd, hfit, rfl⟩ := (decodeEntry_eq_some_iff harea hwrap).mp he
  intro hbad
  rcases hbad h hd with hlong | hmuch
  · exact absurd hfit (not_le.mpr hlong)
  · exact absurd hshared (not_le.mpr hmuch)

end

/-! ## States of the iterator -/

/-- The extent ends at or before `n`. -/
def Extent.Within (x : Extent) (n : ℕ) : Prop := x.ptr + x.size ≤ n

instance (x : Extent) (n : ℕ) : Decidable (x.Within n) := inferInstanceAs (Decidable (_ ≤ _))

namespace Block

variable {b : Block} {it it' : BlockIter} {fuel n r : ℕ} {cmp : Comparator} {target : Slice}

/-- **A scan from a restart point reaches the offset**, with a key of the given length: it starts there
without a key, and goes from one entry that can be read to the next. -/
inductive Scanned (b : Block) : ℕ → ℕ → Prop where
  | restart (index : ℕ) (hindex : index < b.numRestarts) : b.Scanned (b.getRestartPoint index) 0
  | next {offset keyLength : ℕ} {h : EntryHeader} (hscan : b.Scanned offset keyLength)
      (hd : decodeHeader (b.entryArea.drop offset) = some h)
      (hfit : h.nonShared.toNat + h.valueLength.toNat ≤ h.rest.length)
        (hshared : h.shared.toNat ≤ keyLength) :
      b.Scanned (b.entryArea.length - h.rest.length + h.nonShared.toNat + h.valueLength.toNat)
        (h.shared.toNat + h.nonShared.toNat)

/-- The entries that the last call has decoded were reached by such scans. -/
def Visited (b : Block) (it : BlockIter) : Prop := ∀ x ∈ it.decoded, b.Scanned x.1 x.2

/-- No entry that the last call has decoded is malformed. -/
def Clean (b : Block) (it : BlockIter) : Prop := ∀ x ∈ it.decoded, ¬ Malformed b.entryArea x.1 x.2

/-- **The iterator stands on an entry**, which is inside the entry area. -/
structure Reading (b : Block) (it : BlockIter) : Prop where
  current_lt : it.current < b.restartOffset
  restartIndex_lt : it.restartIndex < b.numRestarts
  key_after : it.current + 3 ≤ it.keyDelta.ptr
  value_after : it.value.ptr = it.keyDelta.ptr + it.keyDelta.size
  value_inside : it.value.ptr + it.value.size ≤ b.restartOffset
  scanned : b.Scanned (nextEntryOffset it) it.key.length
  visited : b.Visited it
  clean : b.Clean it

/-- **The iterator is not valid**; if a malformed entry was met its status says so. -/
structure Stopped (b : Block) (it : BlockIter) : Prop where
  current_eq : it.current = b.restartOffset
  visited : b.Visited it
  reported : b.Clean it ∨ it.status = .corruption (ascii "bad entry in block") []

/-- What is asked of a block: no entry that a scan reaches wraps. -/
structure Sound (b : Block) : Prop where
  restartOffset_lt : b.restartOffset < 2 ^ 32
  restartOffset_le : b.restartOffset ≤ b.data.length
  numRestarts_pos : 0 < b.numRestarts
  numRestarts_le : b.numRestarts ≤ 2 ^ 31
  noWraps : ∀ offset keyLength, b.Scanned offset keyLength → ¬ Wraps b.entryArea offset

theorem Sound.length_entryArea (hb : b.Sound) : b.entryArea.length = b.restartOffset := by
  rw [entryArea, List.length_take, min_eq_left hb.restartOffset_le]

theorem Sound.entryArea_lt (hb : b.Sound) : b.entryArea.length < 2 ^ 32 := by
  rw [hb.length_entryArea]
  exact hb.restartOffset_lt

theorem stopped_invalidate (hvisited : b.Visited it) (h : b.Clean it) : b.Stopped (b.invalidate it) :=
  ⟨rfl, hvisited, .inl h⟩

theorem stopped_corruptionError (hvisited : b.Visited it) : b.Stopped (b.corruptionError it) :=
  ⟨rfl, hvisited, .inr rfl⟩

/-- An entry that a scan reaches may be decoded. -/
theorem Visited.note (h : b.Visited it) {offset keyLength : ℕ} (hscan : b.Scanned offset keyLength) :
    b.Visited (it.note offset keyLength) := by
  intro x hx
  rcases List.mem_append.mp hx with hx | hx
  · exact h x hx
  · rw [List.mem_singleton.mp hx]
    exact hscan

theorem Clean.note (h : b.Clean it) {offset keyLength : ℕ}
    (hnot : ¬ Malformed b.entryArea offset keyLength) : b.Clean (it.note offset keyLength) := by
  intro x hx
  rcases List.mem_append.mp hx with hx | hx
  · exact h x hx
  · rw [List.mem_singleton.mp hx]
    exact hnot

/-! ## The loops -/

/-- The restart index is moved up inside of the block. -/
theorem advanceRestart_some (current : ℕ) (hr : r < b.numRestarts) (hfuel : b.numRestarts ≤ r + fuel) :
    ∃ r', b.advanceRestart current fuel r = some r' ∧ r' < b.numRestarts := by
  induction fuel generalizing r with
  | zero => omega
  | succ fuel ih =>
    grind [advanceRestart]

/-- Where a scan starts. -/
theorem scanned_seekToRestartPoint (it : BlockIter) (hr : r < b.numRestarts) :
    b.Scanned (nextEntryOffset (b.seekToRestartPoint r it)) (b.seekToRestartPoint r it).key.length := by
  have hmod : nextEntryOffset (b.seekToRestartPoint r it) = b.getRestartPoint r :=
    Nat.mod_eq_of_lt (UInt32.toNat_lt _)
  rw [hmod]
  exact .restart r hr

/-- **`ParseNextKey` at an offset that a scan reaches** reads an entry inside the area, or stops. -/
theorem parseNextKey_safe (hb : b.Sound) (hscan : b.Scanned (nextEntryOffset it) it.key.length)
    (hvisited : b.Visited it) (hclean : b.Clean it) (hr : it.restartIndex < b.numRestarts)
    (hfuel : b.numRestarts ≤ fuel) :
    (∃ it', b.parseNextKey fuel it = some (true, it') ∧ b.Reading it' ∧
        nextEntryOffset it < nextEntryOffset it' ∧ nextEntryOffset it' ≤ b.restartOffset) ∨
      ∃ it', b.parseNextKey fuel it = some (false, it') ∧ b.Stopped it' := by
  have hwrap := hb.noWraps _ _ hscan
  rw [parseNextKey]
  split_ifs with hend
  · exact .inr ⟨_, rfl, stopped_invalidate hvisited hclean⟩
  · cases he : decodeEntry b.entryArea (nextEntryOffset it) with
    | none => exact .inr ⟨_, rfl, stopped_corruptionError (hvisited.note hscan)⟩
    | some e =>
      dsimp only
      split_ifs with hshared
      · exact .inr ⟨_, rfl, stopped_corruptionError (hvisited.note hscan)⟩
      · obtain ⟨r', hr', hlt⟩ :=
          advanceRestart_some (nextEntryOffset it) hr (hfuel.trans (Nat.le_add_left _ _))
        obtain ⟨hp, hin⟩ := decodeEntry_inside hb.entryArea_lt hwrap he
        rw [hb.length_entryArea] at hin
        have hnot := not_malformed_of_decodeEntry hb.entryArea_lt hwrap he (not_lt.mp hshared)
        rw [hr']
        have hnext : nextEntryOffset (b.readEntry (nextEntryOffset it) e r' it) =
            e.p + e.nonShared.toNat + e.valueLength.toNat :=
          Nat.mod_eq_of_lt (hin.trans_lt hb.restartOffset_lt)
        -- the new key is a part of the old one and the bytes that are stored
        have hkey : (b.readEntry (nextEntryOffset it) e r' it).key.length =
            e.shared.toNat + e.nonShared.toNat := by
          have hdata := hb.restartOffset_le
          grind [readEntry, bytesAt]
        have hreading : b.Reading (b.readEntry (nextEntryOffset it) e r' it) := by
          refine ⟨not_le.mp hend, hlt, hp, rfl, hin, ?_, hvisited.note hscan, hclean.note hnot⟩
          rw [hnext, hkey]
          obtain ⟨h, hd, hfit, rfl⟩ := (decodeEntry_eq_some_iff hb.entryArea_lt hwrap).mp he
          exact hscan.next hd hfit (not_lt.mp hshared)
        grind

/-- **The loops end**: each entry is further on in the area. -/
theorem scanWhile_safe (hb : b.Sound) (cond : BlockIter → Bool)
    (hscan : b.Scanned (nextEntryOffset it) it.key.length) (hvisited : b.Visited it) (hclean : b.Clean it)
    (hr : it.restartIndex < b.numRestarts) (hfuel : b.numRestarts ≤ fuel)
    (hn : b.restartOffset < nextEntryOffset it + n) (hpos : 0 < n) :
    ∃ it', b.scanWhile fuel cond n it = some it' ∧ (b.Reading it' ∨ b.Stopped it') := by
  induction n generalizing it with
  | zero => omega
  | succ n ih =>
    rw [scanWhile]
    rcases parseNextKey_safe hb hscan hvisited hclean hr hfuel with
      ⟨it', hp, hread, hgrow, hle⟩ | ⟨it', hp, hstop⟩
    · grind [Reading]
    · grind

theorem restartBefore_some (original : ℕ) (hr : r < b.numRestarts) (hfuel : r < fuel) :
    b.restartBefore original fuel r = some none ∨
      ∃ r', b.restartBefore original fuel r = some (some r') ∧ r' < b.numRestarts := by
  induction fuel generalizing r with
  | zero => omega
  | succ fuel ih =>
    grind [restartBefore]

/-- The states differ only in the entries decoded. -/
def SamePlace (it it' : BlockIter) : Prop := ∃ decoded, it' = { it with decoded := decoded }

theorem SamePlace.note (h : SamePlace it it') (offset keyLength : ℕ) :
    SamePlace it (it'.note offset keyLength) := by
  obtain ⟨decoded, rfl⟩ := h
  exact ⟨_, rfl⟩

/-- **The binary search ends** at a restart point, or at a malformed entry. -/
theorem searchRestart_safe (hb : b.Sound) (cmp : Comparator) (target : Slice) {it₀ : BlockIter}
    {left right : ℕ}
    (hplace : SamePlace it₀ it) (hvisited : b.Visited it) (hclean : b.Clean it) (hlr : left ≤ right)
    (hright : right < b.numRestarts) (hfuel : right < left + fuel) :
    (∃ it' l, b.searchRestart cmp target fuel left right it = some (it', some l) ∧
        l < b.numRestarts ∧ b.Visited it' ∧ b.Clean it' ∧ SamePlace it₀ it') ∨
      ∃ it', b.searchRestart cmp target fuel left right it = some (it', none) ∧ b.Stopped it' := by
  induction fuel generalizing left right it with
  | zero => omega
  | succ fuel ih =>
    rw [searchRestart]
    split_ifs with hlt
    · -- the sum of the ends does not wrap
      have hle := hb.numRestarts_le
      have hmid : (left + right + 1) % 2 ^ 32 / 2 = (left + right + 1) / 2 := by
        rw [Nat.mod_eq_of_lt (by omega)]
      have hprev : ((left + right + 1) / 2 + (2 ^ 32 - 1)) % 2 ^ 32 = (left + right + 1) / 2 - 1 := by
        omega
      simp only [hmid, hprev]
      have hscan : b.Scanned (b.getRestartPoint ((left + right + 1) / 2)) 0 := .restart _ (by omega)
      have hvisited' := hvisited.note hscan
      cases he : decodeEntry b.entryArea (b.getRestartPoint ((left + right + 1) / 2)) with
      | none => exact .inr ⟨_, rfl, stopped_corruptionError hvisited'⟩
      | some e =>
        have hnot (hshared : ¬ e.shared ≠ 0) := not_malformed_of_decodeEntry hb.entryArea_lt
          (hb.noWraps _ _ hscan) he (n := 0) (by simp [not_not.mp hshared])
        dsimp only
        split_ifs with hshared hcmp
        · exact .inr ⟨_, rfl, stopped_corruptionError hvisited'⟩
        · exact ih (hplace.note _ _) hvisited' (hclean.note (hnot hshared)) (by omega) hright (by omega)
        · exact ih (hplace.note _ _) hvisited' (hclean.note (hnot hshared)) (by omega) (by omega) (by omega)
    · grind

/-! ## The calls -/

/-- The state stands on an entry or has stopped. -/
def Safe (b : Block) (it : BlockIter) : Prop := b.Reading it ∨ b.Stopped it

/-- Enough fuel for the loops over a block. -/
def EnoughFuel (b : Block) (fuel : ℕ) : Prop := b.numRestarts ≤ fuel ∧ b.restartOffset < fuel

/-- The scan of `Seek`. -/
theorem seekFrom_safe (hb : b.Sound) (hfuel : b.EnoughFuel fuel) (hvisited : b.Visited it)
    (hclean : b.Clean it) {order : Option Ordering} {left right : ℕ} (hlr : left ≤ right)
    (hright : right < b.numRestarts) (horder : order = some .lt → b.Reading it) :
    ∃ it', b.seekFrom cmp fuel target order left right it = some it' ∧ b.Safe it' := by
  rw [seekFrom]
  have hlt : right < left + fuel := hright.trans_le (hfuel.1.trans (Nat.le_add_left _ _))
  have hlong := hfuel.2
  rcases searchRestart_safe hb cmp target ⟨it.decoded, rfl⟩ hvisited hclean hlr hright hlt with
    ⟨it', l, hs, hl, hvisited', hclean', decoded, rfl⟩ | ⟨it', hs, hstop⟩
  · rw [hs]
    dsimp only
    split_ifs with hskip
    · have hread := horder hskip.2
      exact scanWhile_safe hb _ hread.scanned hvisited' hclean' hread.restartIndex_lt hfuel.1 (by omega)
        (by omega)
    · exact scanWhile_safe hb _ (scanned_seekToRestartPoint _ hl) hvisited' hclean' hl hfuel.1 (by omega)
        (by omega)
  · rw [hs]
    exact ⟨it', rfl, .inr hstop⟩

theorem Stopped.valid (h : b.Stopped it) : b.valid it = false := by
  rw [Block.valid, h.current_eq, decide_eq_false (lt_irrefl _)]

theorem Safe.reading (h : b.Safe it) (hv : b.valid it = true) : b.Reading it := by
  rcases h with hread | hstop
  · exact hread
  · rw [hstop.valid] at hv
    cases hv

/-- A call starts with nothing decoded. -/
theorem visited_begin (it : BlockIter) : b.Visited { it with decoded := [] } := by
  intro x hx
  cases hx

theorem clean_begin (it : BlockIter) : b.Clean { it with decoded := [] } := fun x hx => by cases hx

theorem Reading.begin (h : b.Reading it) : b.Reading { it with decoded := [] } :=
  { h with visited := visited_begin it, clean := clean_begin it }

theorem parseNextKey_snd_safe (hb : b.Sound) (hscan : b.Scanned (nextEntryOffset it) it.key.length)
    (hvisited : b.Visited it) (hclean : b.Clean it) (hr : it.restartIndex < b.numRestarts)
    (hfuel : b.numRestarts ≤ fuel) :
    ∃ it', (b.parseNextKey fuel it).map Prod.snd = some it' ∧ b.Safe it' := by
  rcases parseNextKey_safe hb hscan hvisited hclean hr hfuel with ⟨it', hp, hread, -⟩ | ⟨it', hp, hstop⟩
  · exact ⟨it', by rw [hp]; rfl, .inl hread⟩
  · exact ⟨it', by rw [hp]; rfl, .inr hstop⟩

/-- `Seek`, from any safe state. -/
theorem Safe.seek (h : b.Safe it) (hb : b.Sound) (hfuel : b.EnoughFuel fuel) (hvisited : b.Visited it)
    (hclean : b.Clean it) :
    ∃ it', b.seek cmp fuel target it = some it' ∧ b.Safe it' := by
  have hpos := hb.numRestarts_pos
  rw [Block.seek]
  split_ifs with hv
  · have hread := h.reading hv
    have hlt := hread.restartIndex_lt
    cases cmp.compare it.key target with
    | lt => exact seekFrom_safe hb hfuel hvisited hclean (by omega) (by omega) fun _ => hread
    | eq => exact ⟨it, rfl, h⟩
    | gt => exact seekFrom_safe hb hfuel hvisited hclean (Nat.zero_le _) hlt fun hlt => by cases hlt
  · exact seekFrom_safe hb hfuel hvisited hclean (Nat.zero_le _) (by omega) fun hlt => by cases hlt

/-- `Prev`, from an entry. -/
theorem Reading.prev (h : b.Reading it) (hb : b.Sound) (hfuel : b.EnoughFuel fuel) :
    ∃ it', b.prev fuel it = some it' ∧ b.Safe it' := by
  rw [Block.prev]
  rcases restartBefore_some it.current h.restartIndex_lt (h.restartIndex_lt.trans_le hfuel.1) with
    hnone | ⟨r, hr, hlt⟩
  · rw [hnone]
    exact ⟨_, rfl, .inr (stopped_invalidate h.visited h.clean)⟩
  · rw [hr]
    exact scanWhile_safe hb _ (scanned_seekToRestartPoint it hlt) h.visited h.clean hlt hfuel.1
      (hfuel.2.trans_le (Nat.le_add_left _ _))
      (Nat.zero_lt_of_lt hfuel.2)

/-- **Every call that is allowed returns in a safe state.** -/
theorem Safe.call (h : b.Safe it) (hb : b.Sound) (hfuel : b.EnoughFuel fuel) (c : IterCall)
    (hallowed : c.needsValid = true → b.valid it = true) :
    ∃ it', (b.iter cmp fuel).call it c = some it' ∧ b.Safe it' := by
  have hpos := hb.numRestarts_pos
  have hvisited : b.Visited { it with decoded := [] } := visited_begin it
  have hclean : b.Clean { it with decoded := [] } := clean_begin it
  have hbegin : b.Safe { it with decoded := [] } :=
    h.imp Reading.begin fun hstop => ⟨hstop.current_eq, hvisited, .inl hclean⟩
  cases c with
  | seek target => exact hbegin.seek hb hfuel hvisited hclean
  | seekToFirst =>
    exact parseNextKey_snd_safe hb (scanned_seekToRestartPoint _ hpos) hvisited hclean hpos hfuel.1
  | seekToLast =>
    have hlast := Nat.sub_one_lt_of_lt hpos
    exact scanWhile_safe hb _ (scanned_seekToRestartPoint _ hlast) hvisited hclean hlast hfuel.1
      (hfuel.2.trans_le (Nat.le_add_left _ _)) (Nat.zero_lt_of_lt hfuel.2)
  | next =>
    have hread := (h.reading (hallowed rfl)).begin
    rw [iter_call_next (hallowed rfl)]
    exact parseNextKey_snd_safe hb hread.scanned hvisited hclean hread.restartIndex_lt hfuel.1
  | prev =>
    have hread := (h.reading (hallowed rfl)).begin
    rw [iter_call_prev (hallowed rfl)]
    exact hread.prev hb hfuel

theorem valid_of_call {c : IterCall} (hc : (b.iter cmp fuel).call it c = some it')
    (hneeds : c.needsValid = true) : b.valid it = true := by
  grind [iter_call_of_invalid]

/-- So does every run. -/
theorem Sound.run_safe (hb : b.Sound) (hfuel : b.EnoughFuel fuel) {calls : List IterCall}
    (hrun : run (b.iter cmp fuel).call b.newIter calls = some it) : b.Safe it := by
  have hinit : b.Safe b.newIter := .inr ⟨rfl, visited_begin b.newIter, .inl (clean_begin b.newIter)⟩
  refine run_invariant (fun s c s' hs hc => ?_) hinit hrun
  obtain ⟨s'', hs'', hsafe⟩ := hs.call hb hfuel c (valid_of_call hc)
  rw [hs''] at hc
  cases hc
  exact hsafe

theorem Safe.visited (h : b.Safe it) : b.Visited it := h.elim Reading.visited Stopped.visited

/-- What a safe state says of the key, the value and the status. -/
theorem Safe.confined (h : b.Safe it) :
    (b.valid it = true → it.keyDelta.Within b.restartOffset ∧ it.value.Within b.restartOffset) ∧
      ((∃ x ∈ it.decoded, Malformed b.entryArea x.1 x.2) →
        b.valid it = false ∧ it.status = .corruption (ascii "bad entry in block") []) := by
  refine ⟨fun hv => ?_, ?_⟩
  · have hread := h.reading hv
    grind [Reading, Extent.Within]
  · rintro ⟨x, hx, hbad⟩
    rcases h with hread | hstop
    · exact absurd hbad (hread.clean x hx)
    · rcases hstop.reported with hclean | hstatus
      · exact absurd hbad (hclean x hx)
      · exact ⟨hstop.valid, hstatus⟩

end Block

/-! ## The result -/

variable {contents : Slice} {fuel : ℕ} {cmp : Comparator}

theorem Block.restartOffset_new (contents : Slice) :
    (Block.new contents).data = contents ∧ (Block.new contents).restartOffset < 2 ^ 32 ∧
      (Block.new contents).restartOffset ≤ contents.length := by
  grind [new]

theorem Block.numRestarts_new (h : ¬ (Block.new contents).size < 4) :
    (Block.new contents).numRestarts * 4 + 4 ≤ contents.length := by
  rw [new] at h ⊢
  dsimp only at h ⊢
  split_ifs at h ⊢ with hshort hmany
  · exact absurd (Nat.zero_lt_succ 3) h
  · exact absurd (Nat.zero_lt_succ 3) h
  · change (numRestarts ⟨contents, contents.length, 0⟩) * 4 + 4 ≤ contents.length
    omega

/-- **The iterator stays inside the entry area.** In a block with at most `2 ^ 31` restart points, in which no
entry that a scan from a restart point reaches wraps: only such entries are decoded, and `DecodeEntry` gives
only what fits; in every state of every run the stored part of the current key and the current value are in
the entry area; every call that is allowed returns; and a call that has met a malformed entry ends with an
iterator that is not valid and reports `Corruption`. -/
theorem blockIter_confined (cmp : Comparator) (contents : Slice) (fuel : ℕ)
    (hfuel : contents.length < fuel) (hrestarts : (Block.new contents).numRestarts ≤ 2 ^ 31)
    (hwrap : ∀ offset keyLength, (Block.new contents).Scanned offset keyLength →
      ¬ Wraps (Block.new contents).entryArea offset) :
    (∀ offset keyLength e, (Block.new contents).Scanned offset keyLength →
      decodeEntry (Block.new contents).entryArea offset = some e → e.nonShared.toNat + e.valueLength.toNat ≤
        (Block.new contents).entryArea.length - e.p) ∧
    ∀ calls s, run ((Block.new contents).iterator cmp fuel).call (Block.new contents).newIterator calls =
        some s →
      (∀ c, (c.needsValid = true → ((Block.new contents).iterator cmp fuel).valid s = true) →
        (((Block.new contents).iterator cmp fuel).call s c).isSome = true) ∧
      ∀ it, s = .inr it →
        (∀ x ∈ it.decoded, (Block.new contents).Scanned x.1 x.2) ∧
        ((Block.new contents).valid it = true →
          it.keyDelta.Within (Block.new contents).restartOffset ∧
            it.value.Within (Block.new contents).restartOffset) ∧
        ((∃ x ∈ it.decoded, Malformed (Block.new contents).entryArea x.1 x.2) →
          (Block.new contents).valid it = false ∧
            it.status = .corruption (ascii "bad entry in block") []) := by
  obtain ⟨hdata, hlt, hle⟩ := Block.restartOffset_new contents
  have hlen : (Block.new contents).entryArea.length < 2 ^ 32 :=
    (List.length_take_le _ _).trans_lt hlt
  constructor
  · intro offset keyLength e hscan he
    have := decodeEntry_inside hlen (hwrap offset keyLength hscan) he
    omega
  · intro calls s hrun
    by_cases hkind : (Block.new contents).size < 4 ∨ (Block.new contents).numRestarts = 0
    · -- there is no `Block::Iter`
      obtain ⟨st, hnew⟩ : ∃ st, (Block.new contents).newIterator = .inl st := by
        grind [Block.newIterator]
      rw [hnew, Block.iterator, run_embed (f := Sum.inl) fun _ _ => rfl] at hrun
      obtain ⟨st', -, rfl⟩ := Option.map_eq_some_iff.mp hrun
      refine ⟨fun c hc => ?_, fun it hit => by cases hit⟩
      cases c with
      | seek target => rfl
      | seekToFirst => rfl
      | seekToLast => rfl
      | next => cases hc rfl
      | prev => cases hc rfl
    · obtain ⟨hsize, hzero⟩ := not_or.mp hkind
      have hnew : (Block.new contents).newIterator = .inr (Block.new contents).newIter := by
        rw [Block.newIterator, if_neg hsize, if_neg hzero]
      have hnum := Block.numRestarts_new hsize
      have hb : (Block.new contents).Sound :=
        ⟨hlt, hdata.symm ▸ hle, Nat.pos_of_ne_zero hzero, hrestarts, hwrap⟩
      have henough : (Block.new contents).EnoughFuel fuel := ⟨by omega, by omega⟩
      rw [hnew, Block.iterator, run_embed (f := Sum.inr) fun _ _ => rfl] at hrun
      obtain ⟨it, hit, rfl⟩ := Option.map_eq_some_iff.mp hrun
      have hsafe := hb.run_safe henough hit
      refine ⟨fun c hc => ?_, ?_⟩
      · obtain ⟨it', hcall, -⟩ := hsafe.call hb henough c hc
        exact Option.isSome_map.trans (Option.isSome_iff_exists.mpr ⟨it', hcall⟩)
      · rintro _ ⟨⟩
        exact ⟨hsafe.visited, hsafe.confined⟩

/-- A block with one entry, whose value has the bytes of an entry that would wrap. No scan gets there. -/
theorem blockIter_confined_single :
    let b := Block.new [0, 1, 8, 107, 0, 1, 255, 255, 255, 255, 15, 97, 0, 0, 0, 0, 1, 0, 0, 0]
    Wraps b.entryArea 4 ∧
    ∀ calls s, run (b.iterator bytewiseComparator 21).call b.newIterator calls = some s →
      ∀ it, s = .inr it → b.valid it = true → it.keyDelta.Within 12 ∧ it.value.Within 12 := by
  intro b
  -- a scan stands at the start of the entry or at the end of the area
  have hscan : ∀ offset keyLength, b.Scanned offset keyLength → offset = 0 ∨ offset = 12 := by
    intro offset keyLength h
    induction h with
    | restart index hindex =>
      obtain rfl : index = 0 := Nat.lt_one_iff.mp (hindex.trans_eq (by decide))
      exact .inl (by decide)
    | next _ hd hfit _ ih =>
      rcases ih with rfl | rfl
      · cases hd
        exact .inr (by decide)
      · cases hd
  have hwrap : ∀ offset keyLength, b.Scanned offset keyLength → ¬ Wraps b.entryArea offset := by
    rintro offset keyLength h ⟨header, hd, hsum, -⟩
    rcases hscan offset keyLength h with rfl | rfl
    · cases hd
      exact absurd hsum (by decide)
    · cases hd
  refine ⟨⟨_, rfl, by decide, by decide⟩, fun calls s hrun it hit hv => ?_⟩
  have hconfined := (blockIter_confined bytewiseComparator
    [0, 1, 8, 107, 0, 1, 255, 255, 255, 255, 15, 97, 0, 0, 0, 0, 1, 0, 0, 0] 21 (by decide) (by decide)
    hwrap).2 calls s hrun
  exact (hconfined.2 it hit).2.1 hv

/-- **Lengths that wrap lead out of the block.** The lengths 1 and `2 ^ 32 - 1` add up to 0 as 32-bit
numbers; the value of the first entry then ends far behind the 16 bytes of the block. -/
theorem blockIter_escapes :
    let b := Block.new [0, 1, 255, 255, 255, 255, 15, 97, 0, 0, 0, 0, 1, 0, 0, 0]
    ∃ it, run (b.iterator bytewiseComparator 17).call b.newIterator [.seekToFirst] = some (.inr it) ∧
      b.restartOffset = 8 ∧ b.valid it = true ∧ it.value = ⟨8, 2 ^ 32 - 1⟩ ∧
      ¬ it.value.Within b.restartOffset := by
  refine ⟨⟨0, 0, [97], ⟨8, 2 ^ 32 - 1⟩, .ok, ⟨7, 1⟩, [(0, 0)]⟩, ?_, ?_, ?_, ?_, ?_⟩ <;> decide

end RocketDb
