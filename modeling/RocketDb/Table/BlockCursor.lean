import RocketDb.Table.BlockBuilder
import RocketDb.Table.BlockSafety

/-! # A block that was built is a cursor over its entries

A block with a layout (`BlockLayout`) is all that is needed; the builder writes one.

* **`Block.Opened`** — the constructor has found the entry area and the restart points of a layout.
* **`Block.Ready`**, **`Block.OnCell`** — the iterator is about to read cell `i`, or stands on it.
* **`buildBlock_isCursor`** — all calls show what they show on a cursor over the entries that were added. -/

namespace RocketDb

open Transition List

/-! ## Reading cells -/

section

variable {cells : List BlockCell} {restarts : List ℕ} {c : BlockCell} {i k : ℕ} {rest : Slice}

/-- Cells are not empty, so their starts are in their order. -/
theorem start_lt_start_iff (hk : k ≤ cells.length) :
    Segments.start BlockCell.encode cells i < Segments.start BlockCell.encode cells k ↔ i < k := by
  constructor
  · intro h
    by_contra hle
    exact absurd (Segments.start_mono (not_lt.mp hle)) (not_le.mpr h)
  · intro h
    exact Segments.start_lt_start (fun c _ => c.encode_ne_nil) h (h.trans_le hk)

/-- A key is not longer than what was written up to its cell. -/
theorem BlockLayout.length_key_le (h : BlockLayout cells restarts) (hc : cells[i]? = some c) :
    c.key.length ≤ Segments.start BlockCell.encode cells (i + 1) := by
  induction i generalizing c with
  | zero =>
    grind [BlockLayout, Segments.start_succ, BlockCell.encode]
  | succ i ih =>
    have hcont := h.continues (i + 1) c hc
    grind [BlockCell.Continues, lastKey_succ, Segments.start_succ, BlockCell.encode]

/-- The header of a cell is read back, if its numbers fit into 32 bits. -/
theorem decodeHeader_header (hshared : c.shared < 2 ^ 32) (hns : c.key.length - c.shared < 2 ^ 32)
    (hvl : c.value.length < 2 ^ 32) (rest : Slice) :
    decodeHeader (c.header ++ rest) =
      some ⟨.ofNat c.shared, .ofNat (c.key.length - c.shared), .ofNat c.value.length, rest⟩ := by
  rw [BlockCell.header, putVarint64_eq_putVarint32 hshared, putVarint64_eq_putVarint32 hns,
    putVarint64_eq_putVarint32 hvl, append_assoc, append_assoc, decodeHeader,
    getVarint32_putVarint32]
  dsimp only
  rw [getVarint32_putVarint32]
  dsimp only
  rw [getVarint32_putVarint32]

theorem toNat_ofNat_of_lt {n : ℕ} (h : n < 2 ^ 32) : (UInt32.ofNat n).toNat = n := by
  rw [UInt32.toNat_ofNat', Nat.mod_eq_of_lt h]

/-- **A cell is decoded** where it starts. -/
theorem BlockLayout.decodeEntry_start (h : BlockLayout cells restarts) (hc : cells[i]? = some c)
    (hlen : (cells.flatMap BlockCell.encode).length < 2 ^ 32) :
    ∃ e, decodeEntry (cells.flatMap BlockCell.encode) (Segments.start BlockCell.encode cells i) = some e ∧
      e.shared.toNat = c.shared ∧ e.nonShared.toNat = c.key.length - c.shared ∧
      e.valueLength.toNat = c.value.length ∧
      e.p = Segments.start BlockCell.encode cells i + c.header.length := by
  have hstart := Segments.start_succ (f := BlockCell.encode) hc
  have hle := Segments.start_le_length BlockCell.encode cells (i + 1)
  have hkey := h.length_key_le hc
  have hshared := (h.continues i c hc).shared_le
  have hcell : c.encode.length = c.header.length + (c.key.length - c.shared) + c.value.length := by
    simp [BlockCell.encode, Nat.add_assoc]
  have hns : c.key.length - c.shared < 2 ^ 32 := by omega
  have hvl : c.value.length < 2 ^ 32 := by omega
  have hdrop := Segments.drop_start_of_getElem? (f := BlockCell.encode) hc
  have hd : decodeHeader ((cells.flatMap BlockCell.encode).drop
      (Segments.start BlockCell.encode cells i)) = some ⟨.ofNat c.shared,
        .ofNat (c.key.length - c.shared), .ofNat c.value.length,
        c.key.drop c.shared ++ c.value ++ (cells.drop (i + 1)).flatMap BlockCell.encode⟩ := by
    grind [BlockCell.encode, decodeHeader_header]
  have hrest : (c.key.drop c.shared ++ c.value ++
      (cells.drop (i + 1)).flatMap BlockCell.encode).length +
        (Segments.start BlockCell.encode cells i + c.header.length) =
      (cells.flatMap BlockCell.encode).length := by
    grind [length_append]
  refine ⟨_, decodeEntry_eq_some.mpr ⟨_, hd, ?_, rfl⟩, toNat_ofNat_of_lt (by omega),
    toNat_ofNat_of_lt hns, toNat_ofNat_of_lt hvl, ?_⟩
  · grind [not_ofNat_lt_iff, toNat_ofNat_of_lt]
  · dsimp only
    omega

end

/-! ## The block of a layout -/

namespace Block

variable {b : Block} {cells : List BlockCell} {restarts : List ℕ} {c : BlockCell} {it it' : BlockIter}
  {i j k r fuel n g : ℕ} {cmp : Comparator} {target : Slice}

/-- **The block has the layout**: entry area, restart points and their number are found. -/
structure Opened (b : Block) (cells : List BlockCell) (restarts : List ℕ) : Prop where
  layout : BlockLayout cells restarts
  size_ge : ¬ b.size < 4
  entryArea_eq : b.entryArea = cells.flatMap BlockCell.encode
  restartOffset_eq : b.restartOffset = (cells.flatMap BlockCell.encode).length
  restartOffset_lt : b.restartOffset < 2 ^ 32
  numRestarts_eq : b.numRestarts = restarts.length
  numRestarts_le : restarts.length ≤ 2 ^ 31
  restartPoint_eq : ∀ (j r : ℕ), restarts[j]? = some r →
    b.getRestartPoint j = Segments.start BlockCell.encode cells r

/-- **The constructor finds the layout** of contents shorter than 4 GiB. -/
theorem opened_new (h : BlockLayout cells restarts)
    (hlen : (layoutBytes cells restarts).length < 2 ^ 32) :
    Opened (Block.new (layoutBytes cells restarts)) cells restarts := by
  obtain ⟨area, harea⟩ : ∃ area, area = cells.flatMap BlockCell.encode := ⟨_, rfl⟩
  obtain ⟨points, hpoints⟩ : ∃ points, points = restarts.flatMap
      (fun r => encodeFixed32 (.ofNat (Segments.start BlockCell.encode cells r))) := ⟨_, rfl⟩
  have hplen : points.length = restarts.length * 4 := by
    simp_all
  have hbytes : layoutBytes cells restarts =
      area ++ points ++ encodeFixed32 (.ofNat restarts.length) := by
    rw [layoutBytes, harea, hpoints]
  have htotal : (layoutBytes cells restarts).length = area.length + restarts.length * 4 + 4 := by
    grind [length_encodeFixed32]
  -- the number of restart points stands in the last four bytes
  have hnum : Block.numRestarts ⟨layoutBytes cells restarts, (layoutBytes cells restarts).length, 0⟩ =
      restarts.length := by
    have hdrop : (layoutBytes cells restarts).drop ((layoutBytes cells restarts).length - 4) =
        encodeFixed32 (.ofNat restarts.length) ++ [] := by
      grind
    rw [Block.numRestarts, hdrop, decodeFixed32_encodeFixed32, toNat_ofNat_of_lt (by omega)]
  have hnew : Block.new (layoutBytes cells restarts) =
      ⟨layoutBytes cells restarts, (layoutBytes cells restarts).length, area.length⟩ := by
    rw [Block.new]
    grind
  rw [hnew]
  refine ⟨h, ?_, ?_, ?_, ?_, hnum, by omega, fun j r hr => ?_⟩
  · dsimp only
    omega
  · rw [Block.entryArea, hbytes, append_assoc, take_left, harea]
  · rw [harea]
  · dsimp only
    omega
  · -- the restart points stand behind the entry area, four bytes each
    have hj := (List.getElem?_eq_some_iff.mp hr).1
    have hle := Segments.start_le_length BlockCell.encode cells r
    have hdrop : (layoutBytes cells restarts).drop (area.length + j * 4) =
        (restarts.flatMap fun r =>
          encodeFixed32 (.ofNat (Segments.start BlockCell.encode cells r))).drop (j * 4) ++
            encodeFixed32 (.ofNat restarts.length) := by
      grind [drop_length_add_append]
    have hstart : j * 4 = Segments.start
        (fun r => encodeFixed32 (.ofNat (Segments.start BlockCell.encode cells r))) restarts j :=
      (Segments.start_eq_mul (fun _ _ => length_encodeFixed32 _) hj.le).symm
    rw [Block.getRestartPoint]
    dsimp only
    rw [hdrop, hstart, Segments.drop_start_of_getElem? hr, append_assoc,
      decodeFixed32_encodeFixed32, toNat_ofNat_of_lt (by rw [← harea] at hle; omega)]

/-- The bytes of an extent of the entry area. -/
theorem bytesAt_eq {x : Extent} (h : x.Within b.restartOffset) :
    b.bytesAt x = (b.entryArea.drop x.ptr).take x.size := by
  grind [Extent.Within, bytesAt, entryArea, drop_take]

namespace Opened

variable (ho : Opened b cells restarts)

include ho

theorem restart_mem (hr : restarts[j]? = some r) : j < b.numRestarts := by
  grind [Opened]

theorem exists_restart (hj : j < b.numRestarts) : ∃ r, restarts[j]? = some r := by
  rw [ho.numRestarts_eq] at hj
  exact ⟨_, getElem?_eq_getElem hj⟩

theorem numRestarts_pos : 0 < b.numRestarts := ho.restart_mem ho.layout.restart_zero

theorem start_le (i : ℕ) : Segments.start BlockCell.encode cells i ≤ b.restartOffset := by
  rw [ho.restartOffset_eq]
  exact Segments.start_le_length _ _ _

theorem start_length : Segments.start BlockCell.encode cells cells.length = b.restartOffset := by
  rw [Segments.start_of_le le_rfl, ho.restartOffset_eq]

theorem start_lt (hc : cells[i]? = some c) :
    Segments.start BlockCell.encode cells i < b.restartOffset := by
  rw [← ho.start_length]
  exact (start_lt_start_iff le_rfl).mpr (List.getElem?_eq_some_iff.mp hc).1

omit ho in
/-- The next cell starts where the value ends. -/
theorem start_succ_eq (hc : cells[i]? = some c) :
    Segments.start BlockCell.encode cells (i + 1) = Segments.start BlockCell.encode cells i +
      c.header.length + (c.key.length - c.shared) + c.value.length := by
  grind [Segments.start_succ, BlockCell.encode]

section

variable (hc : cells[i]? = some c)

include hc

theorem drop_header :
    b.entryArea.drop (Segments.start BlockCell.encode cells i + c.header.length) =
      c.key.drop c.shared ++ (c.value ++ (cells.drop (i + 1)).flatMap BlockCell.encode) := by
  rw [ho.entryArea_eq, ← drop_drop, Segments.drop_start_of_getElem? hc, BlockCell.encode,
    append_assoc, drop_left, append_assoc]

/-- The stored part of the key of a cell. -/
theorem bytesAt_key :
    b.bytesAt ⟨Segments.start BlockCell.encode cells i + c.header.length, c.key.length - c.shared⟩ =
      c.key.drop c.shared := by
  have hend := ho.start_le (i + 1)
  rw [start_succ_eq hc] at hend
  rw [bytesAt_eq (by rw [Extent.Within]; dsimp only; omega)]
  dsimp only
  rw [ho.drop_header hc]
  exact take_left' (length_drop ..)

/-- The value of a cell. -/
theorem bytesAt_value :
    b.bytesAt ⟨Segments.start BlockCell.encode cells i + c.header.length + (c.key.length - c.shared),
      c.value.length⟩ = c.value := by
  have hend := ho.start_le (i + 1)
  rw [start_succ_eq hc] at hend
  rw [bytesAt_eq (by rw [Extent.Within]; dsimp only; omega)]
  dsimp only
  rw [← drop_drop, ho.drop_header hc, drop_left' (length_drop ..), take_left]

/-- **`DecodeEntry` at the start of a cell** finds its numbers and its key. -/
theorem decodeEntry_start :
    ∃ e, decodeEntry b.entryArea (Segments.start BlockCell.encode cells i) = some e ∧
      e.shared.toNat = c.shared ∧ e.nonShared.toNat = c.key.length - c.shared ∧
      e.valueLength.toNat = c.value.length ∧
      e.p = Segments.start BlockCell.encode cells i + c.header.length := by
  rw [ho.entryArea_eq]
  exact ho.layout.decodeEntry_start hc (ho.restartOffset_eq ▸ ho.restartOffset_lt)

end

end Opened

/-! ## Where the iterator is -/

/-- **The iterator is about to read cell `i`.** -/
structure Ready (cells : List BlockCell) (restarts : List ℕ) (it : BlockIter) (i : ℕ) : Prop where
  offset : nextEntryOffset it = Segments.start BlockCell.encode cells i
  continues : ∀ c : BlockCell, cells[i]? = some c → c.Continues it.key
  restart : ∃ r, restarts[it.restartIndex]? = some r ∧ r ≤ i

/-- **The iterator stands on cell `i`.** The restart point it knows is at the cell or before. -/
structure OnCell (b : Block) (cells : List BlockCell) (restarts : List ℕ) (it : BlockIter) (i : ℕ)
    (c : BlockCell) : Prop where
  cell : cells[i]? = some c
  current : it.current = Segments.start BlockCell.encode cells i
  key : it.key = c.key
  value : b.bytesAt it.value = c.value
  offset : nextEntryOffset it = Segments.start BlockCell.encode cells (i + 1)
  restart : ∃ r, restarts[it.restartIndex]? = some r ∧ r ≤ i

/-- **The iterator is at position `g`**: on a cell, or not valid at the end. -/
def At (b : Block) (cells : List BlockCell) (restarts : List ℕ) (it : BlockIter) (g : ℕ) : Prop :=
  (∃ c, OnCell b cells restarts it g c) ∨ g = cells.length ∧ it.current = b.restartOffset

section

variable (ho : Opened b cells restarts)

include ho

/-- From a cell the next one can be read. -/
theorem OnCell.ready (h : OnCell b cells restarts it i c) :
    Ready cells restarts it (i + 1) where
  offset := h.offset
  continues d hd := by
    rw [h.key, ← lastKey_succ h.cell]
    exact ho.layout.continues (i + 1) d hd
  restart := by
    grind [OnCell]

/-- A restart point can be read, whatever was read before. -/
theorem ready_seekToRestartPoint (hr : restarts[j]? = some r)
    (it : BlockIter) : Ready cells restarts (b.seekToRestartPoint j it) r where
  offset := by
    have hlt := (ho.start_le r).trans_lt ho.restartOffset_lt
    grind [nextEntryOffset, seekToRestartPoint, Opened]
  continues c hc :=
    BlockCell.continues_of_shared (ho.layout.shared_eq r (mem_of_getElem? hr) c hc) _
  restart := ⟨r, hr, le_rfl⟩

/-- The restart index stays at a restart point that is not after the cell. -/
theorem advanceRestart_spec
    (hr : ∃ r, restarts[j]? = some r ∧ r ≤ i) (hfuel : b.numRestarts ≤ j + fuel) :
    ∃ j', b.advanceRestart (Segments.start BlockCell.encode cells i) fuel j = some j' ∧
      ∃ r, restarts[j']? = some r ∧ r ≤ i := by
  induction fuel generalizing j with
  | zero =>
    grind [Opened]
  | succ fuel ih =>
    rw [advanceRestart]
    split_ifs with hmore
    · obtain ⟨r, hr'⟩ := ho.exists_restart hmore.1
      have hlt := hmore.2
      rw [ho.restartPoint_eq _ _ hr'] at hlt
      -- the restart point starts before the cell, so it is a cell before
      have hri : r ≤ i := by
        by_contra hgt
        exact absurd (Segments.start_mono (not_le.mp hgt).le) (not_le.mpr hlt)
      exact ih ⟨r, hr', hri⟩ (by omega)
    · exact ⟨j, rfl, hr⟩

/-- `ParseNextKey` reads the cell that it is ready for. -/
theorem Ready.parseNextKey (h : Ready cells restarts it i)
    (hfuel : b.numRestarts ≤ fuel) (hc : cells[i]? = some c) :
    ∃ it', b.parseNextKey fuel it = some (true, it') ∧ OnCell b cells restarts it' i c := by
  obtain ⟨e, he, hshared, hns, hvl, hp⟩ := ho.decodeEntry_start hc
  have hcont := h.continues c hc
  obtain ⟨j, hj, hrestart⟩ :=
    advanceRestart_spec ho h.restart (hfuel.trans (Nat.le_add_left _ it.restartIndex))
  have hend := (ho.start_le (i + 1)).trans_lt ho.restartOffset_lt
  refine ⟨b.readEntry (Segments.start BlockCell.encode cells i) e j it, ?_, hc, rfl, ?_, ?_, ?_, hrestart⟩
  · rw [Block.parseNextKey, h.offset]
    rw [if_neg (not_le.mpr (ho.start_lt hc)), he]
    grind [BlockCell.Continues]
  · rw [readEntry]
    dsimp only
    rw [hshared, hns, hp, ho.bytesAt_key hc, hcont.key_eq]
  · rw [readEntry]
    dsimp only
    rw [hns, hp, hvl, ho.bytesAt_value hc]
  · grind [nextEntryOffset, readEntry, Opened.start_succ_eq]

/-- After the last cell `ParseNextKey` marks the iterator as not valid. -/
theorem Ready.parseNextKey_end (h : Ready cells restarts it i)
    (hc : cells[i]? = none) (fuel : ℕ) :
    ∃ it', b.parseNextKey fuel it = some (false, it') ∧ it'.current = b.restartOffset := by
  refine ⟨b.invalidate it, ?_, rfl⟩
  grind [Block.parseNextKey, Ready, Segments.start_of_le, Opened]

/-- **The loops** read cells as long as the condition holds; it is given as one on the position. -/
theorem Ready.scanWhile (hfuel : b.numRestarts ≤ fuel)
    {cond : BlockIter → Bool} {P : ℕ → Prop}
    (hcond : ∀ it k c, OnCell b cells restarts it k c → (cond it = true ↔ P k))
    (hP : ∀ k, k < g → P k) (hg : g < cells.length → ¬ P g) (hlen : g ≤ cells.length)
    (h : Ready cells restarts it i) (hi : i ≤ g) (hn : cells.length < i + n) :
    ∃ it', b.scanWhile fuel cond n it = some it' ∧ At b cells restarts it' g := by
  induction n generalizing it i with
  | zero => omega
  | succ n ih =>
    rw [Block.scanWhile]
    cases hc : cells[i]? with
    | none =>
      obtain ⟨it', hp, hend⟩ := h.parseNextKey_end ho hc fuel
      have hig : g = cells.length := by
        have := List.getElem?_eq_none_iff.mp hc
        omega
      rw [hp]
      exact ⟨it', if_neg (by simp), .inr ⟨hig, hend⟩⟩
    | some c =>
      obtain ⟨it', hp, hon⟩ := h.parseNextKey ho hfuel hc
      rw [hp]
      dsimp only
      have hlt := (List.getElem?_eq_some_iff.mp hc).1
      rcases Nat.lt_or_eq_of_le hi with hig | rfl
      · rw [if_pos ⟨rfl, (hcond it' i c hon).mpr (hP i hig)⟩]
        exact ih (hon.ready ho) hig (by omega)
      · rw [if_neg fun hboth => hg hlt ((hcond it' i c hon).mp hboth.2)]
        exact ⟨it', rfl, .inl ⟨c, hon⟩⟩

end

/-! ## The calls -/

/-- The entries of the cells. -/
abbrev entriesOf (cells : List BlockCell) : List (Slice × Slice) := cells.map BlockCell.entry

/-- The keys of the cells increase. -/
def Increasing (cmp : Comparator) (cells : List BlockCell) : Prop :=
  cells.Pairwise fun c d => cmp.compare c.key d.key = .lt

/-- All cells before `i` are before the target. -/
def Before (cmp : Comparator) (cells : List BlockCell) (target : Slice) (i : ℕ) : Prop :=
  ∀ k (d : BlockCell), k < i → cells[k]? = some d → cmp.compare d.key target = .lt

/-- All cells up to one that is not after the target are before it. -/
theorem Increasing.before (hsort : Increasing cmp cells) (hc : cells[i]? = some c)
    (hlt : cmp.compare c.key target ≠ .gt) : Before cmp cells target i := by
  intro k d hk hd
  obtain ⟨hi, rfl⟩ := List.getElem?_eq_some_iff.mp hc
  obtain ⟨hk', rfl⟩ := List.getElem?_eq_some_iff.mp hd
  exact Comparator.lt_of_lt_of_le (pairwise_iff_getElem.mp hsort k i hk' hi hk) hlt

theorem Before.mono (h : Before cmp cells target k) (hi : i ≤ k) : Before cmp cells target i :=
  fun l d hl hd => h l d (hl.trans_le hi) hd

theorem Before.succ (h : Before cmp cells target i) (hc : cells[i]? = some c)
    (hlt : cmp.compare c.key target = .lt) : Before cmp cells target (i + 1) := by
  intro k d hk hd
  rcases Nat.lt_or_eq_of_le (Nat.le_of_lt_succ hk) with hk | rfl
  · exact h k d hk hd
  · grind

/-- The position that `Seek` is to find. -/
abbrev seekPos (cmp : Comparator) (cells : List BlockCell) (target : Slice) : ℕ :=
  Cursor.seek (entriesOf cells) fun e => cmp.compare e.1 target != .lt

theorem seekPos_le (cmp : Comparator) (cells : List BlockCell) (target : Slice) :
    seekPos cmp cells target ≤ cells.length := by
  grind [Cursor.seek_le_length]

theorem before_seekPos (cmp : Comparator) (cells : List BlockCell) (target : Slice) :
    Before cmp cells target (seekPos cmp cells target) := by
  intro k d hk hd
  have hentry : (entriesOf cells)[k]? = some d.entry := by
    rw [getElem?_map, hd]
    rfl
  have := Cursor.not_of_lt_seek hk hentry
  rwa [bne_eq_false_iff_eq] at this

/-- The cell that is sought is not before the target. -/
theorem not_lt_seekPos (hc : cells[seekPos cmp cells target]? = some c) :
    cmp.compare c.key target ≠ .lt := by
  have hentry : (entriesOf cells)[seekPos cmp cells target]? = some c.entry := by
    rw [getElem?_map, hc]
    rfl
  have := Cursor.of_seek hentry
  rwa [bne_iff_ne] at this

/-- No position before which all cells are smaller lies behind the one that is sought. -/
theorem Before.le_seekPos (h : Before cmp cells target i) (hi : i ≤ cells.length) :
    i ≤ seekPos cmp cells target := by
  by_contra hlt
  have hk : seekPos cmp cells target < cells.length := (not_le.mp hlt).trans_le hi
  have hc : cells[seekPos cmp cells target]? = some cells[seekPos cmp cells target] :=
    getElem?_eq_getElem hk
  exact not_lt_seekPos hc (h _ _ (not_le.mp hlt) hc)

section

variable (ho : Opened b cells restarts)

include ho

/-- **The binary search** ends at a restart point that has only cells before the target before it. -/
theorem searchRestart_spec (hsort : Increasing cmp cells)
    {it₀ : BlockIter} {left right : ℕ} (hplace : SamePlace it₀ it)
    (hleft : ∃ r, restarts[left]? = some r ∧ Before cmp cells target r) (hlr : left ≤ right)
    (hright : right < b.numRestarts) (hfuel : right < left + fuel) :
    ∃ it' l, b.searchRestart cmp target fuel left right it = some (it', some l) ∧
      SamePlace it₀ it' ∧ ∃ r, restarts[l]? = some r ∧ Before cmp cells target r := by
  induction fuel generalizing left right it with
  | zero => omega
  | succ fuel ih =>
    rw [searchRestart]
    split_ifs with hlt
    · have hnum := ho.numRestarts_le
      have heq := ho.numRestarts_eq
      have hmid : (left + right + 1) % 2 ^ 32 / 2 = (left + right + 1) / 2 := by
        rw [Nat.mod_eq_of_lt (by omega)]
      have hprev : ((left + right + 1) / 2 + (2 ^ 32 - 1)) % 2 ^ 32 = (left + right + 1) / 2 - 1 := by
        omega
      simp only [hmid, hprev]
      -- the cell at the restart point in the middle stores its whole key
      obtain ⟨r, hr⟩ := ho.exists_restart (j := (left + right + 1) / 2) (by omega)
      obtain ⟨c, hc⟩ : ∃ c, cells[r]? = some c :=
        ⟨_, getElem?_eq_getElem (ho.layout.restart_lt _ r (by omega) hr)⟩
      have hzero := ho.layout.shared_eq r (mem_of_getElem? hr) c hc
      obtain ⟨e, he, hshared, hns, -, hp⟩ := ho.decodeEntry_start hc
      have hkey : b.bytesAt ⟨e.p, e.nonShared.toNat⟩ = c.key := by
        rw [hp, hns, ho.bytesAt_key hc, hzero, drop_zero]
      have hshared' : ¬ e.shared ≠ 0 := by
        rw [not_not, ← UInt32.toNat_inj, hshared, hzero]
        rfl
      rw [ho.restartPoint_eq _ r hr, he]
      dsimp only
      rw [if_neg hshared', hkey]
      split_ifs with hcmp
      · have hbefore : Before cmp cells target r :=
          hsort.before hc (by rw [hcmp]; decide)
        exact ih (hplace.note _ _) ⟨r, hr, hbefore⟩ (by omega) hright (by omega)
      · exact ih (hplace.note _ _) hleft (by omega) (by omega) (by omega)
    · exact ⟨it, left, rfl, hplace, hleft⟩

/-- The last loop of `Seek`, from a place at or before the target. -/
theorem Opened.scan_seek (hfuel : b.numRestarts ≤ fuel)
    (hlen : cells.length < fuel) (h : Ready cells restarts it i)
    (hbefore : Before cmp cells target i) (hi : i ≤ cells.length) :
    ∃ it', b.scanWhile fuel (fun it => cmp.compare it.key target == .lt) fuel it = some it' ∧
      At b cells restarts it' (seekPos cmp cells target) := by
  refine Ready.scanWhile (P := fun k => ∀ c : BlockCell, cells[k]? = some c →
    cmp.compare c.key target = .lt) ho hfuel ?_ ?_ ?_ (seekPos_le cmp cells target) h
    (hbefore.le_seekPos hi) (by omega)
  · intro it k c hon
    grind [OnCell]
  · intro k hk c hc
    exact before_seekPos cmp cells target k c hk hc
  · intro hg hall
    have hc := getElem?_eq_getElem hg
    exact not_lt_seekPos hc (hall _ hc)

/-- `Seek` from a restart point, or from the current cell if that is nearer. -/
theorem seekFrom_spec (hsort : Increasing cmp cells)
    (hfuel : b.numRestarts ≤ fuel) (hlen : cells.length < fuel) {order : Option Ordering}
    {left right : ℕ} (hleft : ∃ r, restarts[left]? = some r ∧ Before cmp cells target r)
    (hlr : left ≤ right) (hright : right < b.numRestarts)
    (horder : order = some .lt → ∃ i c, OnCell b cells restarts it i c ∧
      cmp.compare c.key target = .lt) :
    ∃ it', b.seekFrom cmp fuel target order left right it = some it' ∧
      At b cells restarts it' (seekPos cmp cells target) := by
  have hlt : right < left + fuel := hright.trans_le (hfuel.trans (Nat.le_add_left _ _))
  obtain ⟨it', l, hs, ⟨decoded, rfl⟩, r, hr, hbefore⟩ :=
    searchRestart_spec ho hsort ⟨it.decoded, rfl⟩ hleft hlr hright hlt
  rw [seekFrom, hs]
  dsimp only
  split_ifs with hskip
  · -- the cells up to the current one are before the target
    obtain ⟨i, c, hon, hclt⟩ := horder hskip.2
    have hon' : OnCell b cells restarts { it with decoded := decoded } i c := { hon with }
    have hbefore' := (hsort.before hon.cell (by rw [hclt]; decide)).succ hon.cell hclt
    exact ho.scan_seek hfuel hlen (hon'.ready ho) hbefore' (List.getElem?_eq_some_iff.mp hon.cell).1
  · exact ho.scan_seek hfuel hlen (ready_seekToRestartPoint ho hr _) hbefore
      (ho.layout.restart_le (mem_of_getElem? hr))

theorem OnCell.valid (h : OnCell b cells restarts it i c) :
    b.valid it = true :=
  decide_eq_true (h.current ▸ ho.start_lt h.cell)

/-- `Seek` ends at the first cell that is not before the target. -/
theorem At.seek (h : At b cells restarts it g)
    (hsort : Increasing cmp cells) (hfuel : b.numRestarts ≤ fuel) (hlen : cells.length < fuel) :
    ∃ it', b.seek cmp fuel target it = some it' ∧
      At b cells restarts it' (seekPos cmp cells target) := by
  have hpos := ho.numRestarts_pos
  have hzero : ∃ r, restarts[0]? = some r ∧ Before cmp cells target r :=
    ⟨0, ho.layout.restart_zero, fun k _ hk => absurd hk (Nat.not_lt_zero k)⟩
  rw [Block.seek]
  rcases h with ⟨c, hon⟩ | ⟨-, hend⟩
  · rw [if_pos (hon.valid ho), hon.key]
    obtain ⟨r, hr, hri⟩ := hon.restart
    have hlt := ho.restart_mem hr
    cases hcmp : cmp.compare c.key target with
    | lt =>
      have hbefore := (hsort.before hon.cell (by rw [hcmp]; decide)).mono hri
      exact seekFrom_spec ho hsort hfuel hlen ⟨r, hr, hbefore⟩ (by omega) (by omega)
        fun _ => ⟨g, c, hon, hcmp⟩
    | eq =>
      -- the iterator stays where it is
      have hge : g ≤ seekPos cmp cells target :=
        (hsort.before hon.cell (by rw [hcmp]; decide)).le_seekPos
          (List.getElem?_eq_some_iff.mp hon.cell).1.le
      have hle : seekPos cmp cells target ≤ g := by
        by_contra hgt
        have := before_seekPos cmp cells target g c (not_le.mp hgt) hon.cell
        rw [hcmp] at this
        cases this
      exact ⟨it, rfl, le_antisymm hle hge ▸ .inl ⟨c, hon⟩⟩
    | gt =>
      exact seekFrom_spec ho hsort hfuel hlen hzero (Nat.zero_le _) hlt fun hlt => by cases hlt
  · have hinv : ¬ b.valid it = true := by
      grind [valid]
    rw [if_neg hinv]
    exact seekFrom_spec ho hsort hfuel hlen hzero (Nat.zero_le _) (by omega) fun hlt => by cases hlt

/-- After a read the iterator is at the cell, or at the end. -/
theorem Ready.at (h : Ready cells restarts it i)
    (hfuel : b.numRestarts ≤ fuel) (hi : i ≤ cells.length) :
    ∃ it', (b.parseNextKey fuel it).map Prod.snd = some it' ∧ At b cells restarts it' i := by
  cases hc : cells[i]? with
  | none =>
    obtain ⟨it', hp, hend⟩ := h.parseNextKey_end ho hc fuel
    have hig : i = cells.length := le_antisymm hi (List.getElem?_eq_none_iff.mp hc)
    exact ⟨it', by rw [hp]; rfl, .inr ⟨hig, hend⟩⟩
  | some c =>
    obtain ⟨it', hp, hon⟩ := h.parseNextKey ho hfuel hc
    exact ⟨it', by rw [hp]; rfl, .inl ⟨c, hon⟩⟩

/-- The loops of `Prev` and `SeekToLast` stop at the cell before the given one. -/
theorem Opened.scan_until (hfuel : b.numRestarts ≤ fuel)
    (hlen : cells.length < fuel) (h : Ready cells restarts it i) {last : ℕ} (hi : i < last)
    (hlast : last ≤ cells.length) :
    ∃ it', b.scanWhile fuel
        (fun it => nextEntryOffset it < Segments.start BlockCell.encode cells last) fuel it = some it' ∧
      At b cells restarts it' (last - 1) := by
  refine Ready.scanWhile (P := fun k => k + 1 < last) ho hfuel ?_ ?_ ?_ (by omega) h (by omega)
    (by omega)
  · intro it k c hon
    rw [decide_eq_true_iff, hon.offset]
    exact start_lt_start_iff hlast
  · intro k hk
    omega
  · intro _ hk
    omega

theorem Opened.seekToLast (hfuel : b.numRestarts ≤ fuel)
    (hlen : cells.length < fuel) (it : BlockIter) :
    ∃ it', b.seekToLast fuel it = some it' ∧
      At b cells restarts it' (Cursor.seekToLast (entriesOf cells)) := by
  have hpos := ho.numRestarts_pos
  obtain ⟨r, hr⟩ := ho.exists_restart (j := b.numRestarts - 1) (by omega)
  have hready := ready_seekToRestartPoint ho hr it
  rw [Block.seekToLast, Cursor.seekToLast, length_map, ← ho.start_length]
  rcases Nat.eq_zero_or_pos cells.length with hzero | hsome
  · -- there are no cells: the first one read is the end
    have hle := ho.layout.restart_le (mem_of_getElem? hr)
    obtain ⟨it', hp, hend⟩ := hready.parseNextKey_end ho (getElem?_eq_none (by omega)) fuel
    obtain ⟨n, rfl⟩ : ∃ n, fuel = n + 1 := ⟨fuel - 1, by omega⟩
    refine ⟨it', ?_, .inr ⟨by omega, hend⟩⟩
    rw [Block.scanWhile, hp]
    exact if_neg (by simp)
  · have hlt : r < cells.length := by
      rcases Nat.eq_zero_or_pos (b.numRestarts - 1) with hfirst | hlater
      · grind [Opened, BlockLayout.restart_zero]
      · exact ho.layout.restart_lt _ r hlater hr
    exact ho.scan_until hfuel hlen hready hlt le_rfl

/-- The first loop of `Prev` finds a restart point before the cell, unless it is the first. -/
theorem restartBefore_spec (hi : i < cells.length)
    (hr : restarts[j]? = some r) (hfuel : j < fuel) :
    i = 0 ∧ b.restartBefore (Segments.start BlockCell.encode cells i) fuel j = some none ∨
      ∃ j' r', b.restartBefore (Segments.start BlockCell.encode cells i) fuel j = some (some j') ∧
        restarts[j']? = some r' ∧ r' < i := by
  induction fuel generalizing j r with
  | zero => omega
  | succ fuel ih =>
    rw [restartBefore, ho.restartPoint_eq j r hr]
    split_ifs with hafter hzero
    · refine .inl ⟨?_, rfl⟩
      rw [hzero, ho.layout.restart_zero] at hr
      have hr0 := Option.some.inj hr
      rw [← hr0] at hafter
      by_contra hne
      exact absurd ((start_lt_start_iff hi.le).mpr (Nat.pos_of_ne_zero hne)) (not_lt.mpr hafter)
    · grind
    · grind [start_lt_start_iff]

/-- `Prev` goes back to a restart point and reads up to the cell before. -/
theorem OnCell.prev (h : OnCell b cells restarts it i c)
    (hfuel : b.numRestarts ≤ fuel) (hlen : cells.length < fuel) :
    ∃ it', b.prev fuel it = some it' ∧
      At b cells restarts it' (Cursor.prev (entriesOf cells) i) := by
  have hi := (List.getElem?_eq_some_iff.mp h.cell).1
  obtain ⟨r, hr, -⟩ := h.restart
  rw [Block.prev, h.current, Cursor.prev]
  rcases restartBefore_spec ho hi hr ((ho.restart_mem hr).trans_le hfuel) with
    ⟨rfl, hnone⟩ | ⟨j, r', hj, hr', hlt⟩
  · rw [hnone, if_pos rfl]
    exact ⟨_, rfl, .inr ⟨length_map _, rfl⟩⟩
  · rw [hj, if_neg (by omega)]
    exact ho.scan_until hfuel hlen (ready_seekToRestartPoint ho hr' it) hlt hi.le

/-- What the iterator shows is the entry at its position. -/
theorem At.shows_eq (h : At b cells restarts it g) :
    (b.iter cmp fuel).shows it = (entriesOf cells)[g]? := by
  rw [Iterator.shows, getElem?_map]
  change (if b.valid it then some (it.key, b.bytesAt it.value) else none) = _
  rcases h with ⟨c, hon⟩ | ⟨rfl, hend⟩
  · rw [if_pos (hon.valid ho), hon.key, hon.value, hon.cell]
    rfl
  · grind [valid]

end

theorem OnCell.begin (h : OnCell b cells restarts it i c) :
    OnCell b cells restarts { it with decoded := [] } i c := { h with }

theorem At.begin (h : At b cells restarts it g) : At b cells restarts { it with decoded := [] } g := by
  rcases h with ⟨c, hon⟩ | hend
  · exact .inl ⟨c, hon.begin⟩
  · exact .inr hend

/-- **Every call** moves the iterator as it moves a cursor. -/
theorem At.call (h : At b cells restarts it g) (ho : Opened b cells restarts)
    (hsort : Increasing cmp cells) (hfuel : b.numRestarts ≤ fuel) (hlen : cells.length < fuel)
    (c : IterCall) :
    Option.Rel (At b cells restarts) ((b.iter cmp fuel).call it c)
      (mapCursorCall cmp (entriesOf cells) g c) := by
  have hsome : ∀ {r : Option BlockIter} {g : ℕ},
      (∃ it', r = some it' ∧ At b cells restarts it' g) → Option.Rel (At b cells restarts) r (some g) := by
    rintro _ g ⟨it', rfl, hat⟩
    exact .some hat
  have hmap : (entriesOf cells).length = cells.length := length_map _
  have hready := ready_seekToRestartPoint ho ho.layout.restart_zero { it with decoded := [] }
  cases c with
  | seek target => exact hsome (h.begin.seek ho hsort hfuel hlen)
  | seekToFirst => exact hsome (hready.at ho hfuel (Nat.zero_le _))
  | seekToLast => exact hsome (ho.seekToLast hfuel hlen _)
  | next =>
    rw [mapCursorCall, hmap]
    rcases h with ⟨c, hon⟩ | ⟨rfl, hend⟩
    · have hg := (List.getElem?_eq_some_iff.mp hon.cell).1
      rw [if_pos hg, iter_call_next (hon.valid ho)]
      exact hsome ((hon.begin.ready ho).at ho hfuel hg)
    · rw [if_neg (lt_irrefl _), iter_call_of_invalid (by rw [valid, hend]; simp) rfl]
      exact .none
  | prev =>
    rw [mapCursorCall, hmap]
    rcases h with ⟨c, hon⟩ | ⟨rfl, hend⟩
    · rw [if_pos (List.getElem?_eq_some_iff.mp hon.cell).1, iter_call_prev (hon.valid ho)]
      exact hsome (hon.begin.prev ho hfuel hlen)
    · rw [if_neg (lt_irrefl _), iter_call_of_invalid (by rw [valid, hend]; simp) rfl]
      exact .none

/-- So a block of a layout is a cursor over the entries of its cells. -/
theorem Opened.isCursor (ho : Opened b cells restarts) (hsort : Increasing cmp cells)
    (hfuel : b.numRestarts ≤ fuel) (hlen : cells.length < fuel) :
    (b.iterator cmp fuel).IsCursor cmp (entriesOf cells) b.newIterator cells.length := by
  have hnew : b.newIterator = .inr b.newIter := by
    rw [newIterator, if_neg ho.size_ge, if_neg (Nat.pos_iff_ne_zero.mp ho.numRestarts_pos)]
  rw [hnew]
  have hat : At b cells restarts b.newIter cells.length := .inr ⟨rfl, rfl⟩
  exact (Iterator.isCursor_of_rel (fun _ _ => At.shows_eq ho)
    (fun _ _ c h => At.call h ho hsort hfuel hlen c) hat).inr

end Block

/-! ## The result -/

theorem isCursor_newIterator_buildBlock {cmp : Comparator} {interval fuel : ℕ} {es : List (Slice × Slice)}
    (hsort : es.Pairwise fun x y => cmp.compare x.1 y.1 = .lt)
    (hsize : (buildBlock interval es).length < 2 ^ 32)
    (hfuel : (buildBlock interval es).length < fuel) :
    ((Block.new (buildBlock interval es)).iterator cmp fuel).IsCursor cmp es
      (Block.new (buildBlock interval es)).newIterator es.length := by
  obtain ⟨cells, restarts, rfl, hlayout, hbytes⟩ := buildBlock_eq es
  rw [hbytes] at hsize hfuel ⊢
  have ho := Block.opened_new hlayout hsize
  have hnum := Block.numRestarts_new ho.size_ge
  have hcells : cells.length ≤ (cells.flatMap BlockCell.encode).length :=
    Segments.length_le_length_flatMap fun c _ => c.encode_ne_nil
  have hle := (Block.restartOffset_new (layoutBytes cells restarts)).2.2
  have heq := ho.restartOffset_eq
  rw [length_map]
  exact ho.isCursor (pairwise_map.mp hsort) (by omega) (by omega)

/-- **A block is a cursor over the entries it was built from.** For strictly increasing keys, any restart
interval and contents below 4 GiB, every sequence of calls shows what it shows on a cursor over the list; so
`Seek` shows the first entry that is not before the target, from any position and from a new iterator. -/
theorem buildBlock_isCursor (cmp : Comparator) (interval : ℕ) (es : List (Slice × Slice)) (fuel : ℕ)
    (hsort : es.Pairwise fun x y => cmp.compare x.1 y.1 = .lt)
    (hsize : (buildBlock interval es).length < 2 ^ 32)
    (hfuel : (buildBlock interval es).length < fuel) :
    ((Block.new (buildBlock interval es)).iterator cmp fuel).IsCursor cmp es
        (Block.new (buildBlock interval es)).newIterator es.length ∧
      ∀ calls s target,
        run ((Block.new (buildBlock interval es)).iterator cmp fuel).call
          (Block.new (buildBlock interval es)).newIterator calls = some s →
        ∃ s' s₀,
          ((Block.new (buildBlock interval es)).iterator cmp fuel).call s (.seek target) = some s' ∧
          ((Block.new (buildBlock interval es)).iterator cmp fuel).call
            (Block.new (buildBlock interval es)).newIterator (.seek target) = some s₀ ∧
          ((Block.new (buildBlock interval es)).iterator cmp fuel).shows s' =
            es.find? (fun e => cmp.compare e.1 target != .lt) ∧
          ((Block.new (buildBlock interval es)).iterator cmp fuel).shows s₀ =
            es.find? fun e => cmp.compare e.1 target != .lt := by
  have hcursor := isCursor_newIterator_buildBlock hsort hsize hfuel
  refine ⟨hcursor, fun calls s target hrun => ?_⟩
  obtain ⟨j, hj⟩ := hcursor.of_run hrun
  obtain ⟨s', hs', hshows⟩ := hj.seek_shows target
  obtain ⟨s₀, hs₀, hshows₀⟩ := hcursor.seek_shows target
  exact ⟨s', s₀, hs', hs₀, hshows, hshows₀⟩

/-- Four keys with a common start and two restart points: forward, back over the restart point, and a
`Seek` from there. -/
theorem buildBlock_isCursor_shared :
    let es : List (Slice × Slice) := [([1, 1], [7]), ([1, 2], []), ([1, 2, 3], [8]), ([2], [])]
    let b := Block.new (buildBlock 2 es)
    (run (b.iterator bytewiseComparator 64).call b.newIterator
        [.seek [1, 2], .next, .prev, .prev, .seek [1, 2, 1]]).map
      (b.iterator bytewiseComparator 64).shows = some (some ([1, 2, 3], [8])) := by
  intro es b
  have hlen : (buildBlock 2 es).length < 64 := by decide
  have h := buildBlock_isCursor bytewiseComparator 2 es 64 (by decide) (by omega) (by omega)
  exact (h.1 _).trans (by decide)

end RocketDb
