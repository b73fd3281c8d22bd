import RocketDb.Engine.State
import RocketDb.Format.InternalComparator
import RocketDb.Iterator.Interface
import RocketDb.MemTable.SkipList

/-! # Memtables (`db/memtable.cc`)

A memtable is a skip list of byte strings: an entry is the internal key and the value, each after its length.
A length is written with 32 bits, so an entry is read back if its parts are shorter than `2 ^ 32` bytes
(`MemAdd.Fits`); a longer key is lost (`memTable_cuts_long_key`).

* **`MemTable.Holds`** — the entries of a memtable, in the order in which they were added.
* **`memTable_run`** — what `Get` and the iterator find after any additions. -/

namespace RocketDb

open KeyOrder Newest SkipChains Transition List

/-! ## The source -/

/-- `GetLengthPrefixedSlice` of `memtable.cc`: the slice and what follows it. -/
def getLengthPrefixedData (data : Slice) : Slice × Slice :=
  match getVarint32 data with
  | none => ([], [])
  | some (len, p) => (p.take len.toNat, p.drop len.toNat)

/-- `MemTable::KeyComparator`. -/
def memKeyCompare (ucmp : Comparator) (aptr bptr : Slice) : Ordering :=
  (internalKeyComparator ucmp).compare (getLengthPrefixedData aptr).1 (getLengthPrefixedData bptr).1

/-- `EncodeKey`. -/
def encodeKey (target : Slice) : Slice := putVarint32 (.ofNat target.length) ++ target

/-- `MemTable`. -/
abbrev MemTable : Type := SkipList Slice

/-- The buffer that `MemTable::Add` fills. -/
def memEntry (s : ℕ) (type : ValueType) (key value : Slice) : Slice :=
  putVarint32 (.ofNat (key.length + 8)) ++ key ++ encodeFixed64 (packSequenceAndType s type) ++
    putVarint32 (.ofNat value.length) ++ value

/-- `LookupKey::memtable_key`. -/
def lookupMemKey (userKey : Slice) (s : ℕ) : Slice :=
  putVarint32 (.ofNat (userKey.length + 8)) ++ userKey ++ encodeFixed64
    (packSequenceAndType s kValueTypeForSeek)

namespace MemTable

/-- `MemTable::Add`, for the height that the skip list draws. -/
def add (ucmp : Comparator) (mem : MemTable) (s : ℕ) (type : ValueType) (key value : Slice) (height : ℕ) :
    Option MemTable :=
  mem.insert (memKeyCompare ucmp) (memEntry s type key value) height

/-- The part of `MemTable::Get` that looks at an entry: `none` for false, else the value or the status. -/
def getEntry (ucmp : Comparator) (userKey : Slice) (entry : Slice) : Option (Except Status Slice) :=
  match getVarint32 entry with
  | none => none
  | some (keyLength, keyPtr) =>
    if ucmp.compare (keyPtr.take (keyLength - 8).toNat) userKey = .eq then
      let tag := decodeFixed64 (keyPtr.drop (keyLength - 8).toNat)
      if tag &&& 0xff = 1 then some (.ok (getLengthPrefixedData (keyPtr.drop keyLength.toNat)).1)
      else if tag &&& 0xff = 0 then some (.error (.notFound [] []))
      else none
    else none

/-- `MemTable::Get`. -/
def get (ucmp : Comparator) (mem : MemTable) (userKey : Slice) (s : ℕ) :
    Option (Option (Except Status Slice)) :=
  match mem.findGreaterOrEqual (memKeyCompare ucmp) (lookupMemKey userKey s) with
  | none => none
  | some (_, none) => some none
  | some (_, some j) => mem.nodes[j]?.map fun node => getEntry ucmp userKey node.key

/-- `MemTableIterator` over a memtable; the state is `node_`. That a search which ends at `head_` makes it
`nullptr` is in the choice of `none` for both. -/
def iterator (ucmp : Comparator) (mem : MemTable) : Iterator (Option ℕ) where
  call node
    | .seek target => (mem.findGreaterOrEqual (memKeyCompare ucmp) (encodeKey target)).map Prod.snd
    | .seekToFirst => mem.next none 0
    | .seekToLast => mem.findLast
    | .next =>
      match node with
      | none => none
      | some j => mem.next (some j) 0
    | .prev =>
      match node.bind fun j => mem.nodes[j]? with
      | none => none
      | some node => mem.findLessThan (memKeyCompare ucmp) node.key
  valid node := node.isSome
  key node := ((node.bind fun j => mem.nodes[j]?).map fun node => (getLengthPrefixedData node.key).1).getD []
  value node := ((node.bind fun j => mem.nodes[j]?).map fun node =>
    (getLengthPrefixedData (getLengthPrefixedData node.key).2).1).getD []
  status _ := .ok

end MemTable

/-! ## Reading entries back -/

variable {ucmp : Comparator}

theorem getLengthPrefixedData_append {value : Slice} (h : value.length < 2 ^ 32) (rest : Slice) :
    getLengthPrefixedData (putVarint32 (.ofNat value.length) ++ value ++ rest) = (value, rest) := by
  grind [UInt32.toNat_ofNat_of_lt', getLengthPrefixedData, getVarint32_putVarint32]

instance transCmp_memKeyCompare : Std.TransCmp (memKeyCompare ucmp) where
  eq_swap := (internalKeyComparator ucmp).oriented _ _
  isLE_trans := (internalKeyComparator ucmp).transitive _ _ _

/-- The buffer of an entry. -/
def Entry.memBytes (e : Entry) : Slice :=
  putVarint32 (.ofNat e.key.encode.length) ++ e.key.encode ++ (putVarint32 (.ofNat e.value.length) ++ e.value)

theorem memEntry_eq (s : ℕ) (type : ValueType) (key value : Slice) :
    memEntry s type key value = (Entry.ofParts key s type value).memBytes := by
  rw [memEntry, Entry.memBytes, InternalKey.length_encode]
  simp only [Entry.ofParts, InternalKey.ofParts, InternalKey.encode, append_assoc]

theorem lookupMemKey_eq (userKey : Slice) (s : ℕ) :
    lookupMemKey userKey s = encodeKey (lookupKey userKey s).encode := by
  rw [lookupMemKey, encodeKey, InternalKey.length_encode]
  simp only [lookupKey, InternalKey.ofParts, InternalKey.encode, append_assoc]

/-- The answer of `Get` that an entry stands for. -/
def memAnswer (e : Entry) : Except Status Slice := if e.isValue then .ok e.value else .error (.notFound [] [])

/-- What `Get` reads from an entry. -/
theorem getEntry_memBytes {e : Entry} (hkey : e.key.encode.length < 2 ^ 32) (hp : e.parsable = true)
    (userKey : Slice) :
    MemTable.getEntry ucmp userKey e.memBytes =
      if ucmp.compare e.key.userKey userKey = .eq then
        some (if e.isValue then .ok (getLengthPrefixedData (putVarint32 (.ofNat e.value.length) ++ e.value)).1
          else .error (.notFound [] []))
      else none := by
  have hlen : (UInt32.ofNat e.key.encode.length).toNat = e.key.encode.length := UInt32.toNat_ofNat_of_lt' hkey
  have height : (8 : UInt32).toNat = 8 := rfl
  have hsub : (UInt32.ofNat e.key.encode.length - 8).toNat = e.key.userKey.length := by
    grind [UInt32.toNat_sub_of_le, UInt32.le_iff_toNat_le, InternalKey.length_encode]
  have huser (rest : Slice) : (e.key.encode ++ rest).take e.key.userKey.length = e.key.userKey := by
    rw [InternalKey.encode, append_assoc, take_left]
  have htag (rest : Slice) : decodeFixed64 ((e.key.encode ++ rest).drop e.key.userKey.length) =
      e.key.tag := by
    rw [InternalKey.encode, append_assoc, drop_left, decodeFixed64_encodeFixed64]
  have htype (n : UInt64) : e.key.tag &&& 0xff = n ↔ e.key.tag.toNat % 256 = n.toNat := by
    rw [← UInt64.toNat_inj, toNat_and_255]
  rw [MemTable.getEntry, Entry.memBytes, append_assoc, getVarint32_putVarint32]
  simp only [hsub, huser, htag, hlen, drop_left]
  by_cases hvalue : e.isValue = true
  · rw [if_pos hvalue, if_pos ((htype 1).mpr (Entry.isValue_iff.mp hvalue))]
  · have hdeletion := Entry.isDeletion_iff.mp ((Entry.isDeletion_or_isValue hp).resolve_right hvalue)
    simp_all

/-- An entry whose parts are not too long. -/
structure Entry.Short (e : Entry) : Prop where
  key : e.key.encode.length < 2 ^ 32
  value : e.value.length < 2 ^ 32

namespace Entry.Short

variable {e e' : Entry}

theorem memKey (h : e.Short) : (getLengthPrefixedData e.memBytes).1 = e.key.encode := by
  rw [memBytes, getLengthPrefixedData_append h.key]

theorem memValue (h : e.Short) : (getLengthPrefixedData (getLengthPrefixedData e.memBytes).2).1 =
    e.value := by
  rw [memBytes, getLengthPrefixedData_append h.key]
  have := getLengthPrefixedData_append h.value []
  rw [append_nil] at this
  rw [this]

/-- The comparison of buffers is that of keys. -/
theorem memKeyCompare_eq (h : e.Short) (h' : e'.Short) :
    memKeyCompare ucmp e.memBytes e'.memBytes = internalCompare ucmp e.key e'.key := by
  rw [memKeyCompare, h.memKey, h'.memKey, internalKeyComparator_compare, InternalKey.ofSlice_encode,
    InternalKey.ofSlice_encode]

theorem memKeyCompare_encodeKey (h : e.Short) {target : Slice} (ht : target.length < 2 ^ 32) :
    memKeyCompare ucmp (encodeKey target) e.memBytes =
      (internalKeyComparator ucmp).compare target e.key.encode := by
  have htarget := getLengthPrefixedData_append ht []
  rw [append_nil] at htarget
  rw [memKeyCompare, h.memKey, encodeKey, htarget]

theorem getEntry_eq (h : e.Short) (hp : e.parsable = true) (userKey : Slice) :
    MemTable.getEntry ucmp userKey e.memBytes =
      if ucmp.compare e.key.userKey userKey = .eq then some (memAnswer e) else none := by
  have hvalue := getLengthPrefixedData_append h.value []
  rw [append_nil] at hvalue
  rw [getEntry_memBytes h.key hp, hvalue, memAnswer]

end Entry.Short

/-! ## The entries of a memtable -/

/-- The entry of a node, given the entries in the order in which they were added. -/
def entryAt (added : List Entry) (j : ℕ) : Entry := added.getD j ⟨⟨[], 0⟩, []⟩

theorem map_entryAt_range (added : List Entry) : (List.range added.length).map (entryAt added) = added := by
  refine ext_getElem (by simp) fun i hi hi' => ?_
  grind [entryAt]

/-- **The entries of a memtable**: nodes are numbered in the order of the additions and listed in that of the
keys. -/
structure MemTable.Holds (ucmp : Comparator) (mem : MemTable) (added : List Entry) (chain : List ℕ) :
    Prop where
  list : SkipList.Holds (memKeyCompare ucmp) mem chain
  keys : mem.shape.map Prod.fst = added.map Entry.memBytes
  short : ∀ e ∈ added, e.Short
  parsable : ∀ e ∈ added, e.parsable = true

namespace MemTable.Holds

variable {mem : MemTable} {added : List Entry} {chain : List ℕ} {i j : ℕ} (h : Holds ucmp mem added chain)

include h

theorem length_added : added.length = mem.shape.length := by
  rw [← length_map Entry.memBytes, ← h.keys, length_map]

theorem entryAt_mem (hj : j ∈ chain) : entryAt added j ∈ added := by
  have hlt := h.list.mem_chain_iff.mp hj
  rw [← h.length_added] at hlt
  grind [entryAt]

theorem shape_eq (hj : j ∈ chain) {n : Slice × ℕ} (hn : n ∈ mem.shape[j]?) :
    n.1 = (entryAt added j).memBytes := by
  have hlt := h.list.mem_chain_iff.mp hj
  rw [← h.length_added] at hlt
  have hkey := congrArg (fun l => l[j]?) h.keys
  grind [entryAt]

theorem exists_node (hj : j ∈ chain) : ∃ node, mem.nodes[j]? = some node ∧ node.key =
    (entryAt added j).memBytes := by
  have hlt := h.list.mem_chain_iff.mp hj
  rw [SkipList.length_shape] at hlt
  have hshape : mem.shape[j]? = some (mem.nodes[j].key, mem.nodes[j].next.length) := by
    grind [SkipList.shape]
  exact ⟨mem.nodes[j], getElem?_eq_getElem hlt, h.shape_eq hj hshape⟩

theorem test_eq (hj : j ∈ chain) (p : Slice → Bool) : mem.test p j = p (entryAt added j).memBytes := by
  obtain ⟨node, hnode, hkey⟩ := h.exists_node hj
  rw [SkipList.test, hnode, Option.any_some, hkey]

theorem perm_entries : (chain.map (entryAt added)).Perm added := by
  have hperm := h.list.perm.map (entryAt added)
  rwa [← h.length_added, map_entryAt_range] at hperm

/-- The chain is in the order of internal keys. -/
theorem sorted_entries : SortedEntries ucmp (chain.map (entryAt added)) := by
  rw [SortedEntries, pairwise_map]
  refine h.list.sorted.imp_of_mem fun {i j} hi hj hbefore => ?_
  obtain ⟨m, hm, n, hn, hlt⟩ := hbefore
  rwa [h.shape_eq hi hm, h.shape_eq hj hn,
    (h.short _ (h.entryAt_mem hi)).memKeyCompare_eq (h.short _ (h.entryAt_mem hj))] at hlt

theorem not_passed_eq {target : Slice} (ht : target.length < 2 ^ 32) (hj : j ∈ chain) :
    (!mem.test (fun k => memKeyCompare ucmp (encodeKey target) k == .gt) j) =
      ((internalKeyComparator ucmp).compare (entryAt added j).key.encode target != .lt) := by
  rw [h.test_eq hj, (h.short _ (h.entryAt_mem hj)).memKeyCompare_encodeKey ht,
    (internalKeyComparator ucmp).oriented]
  cases (internalKeyComparator ucmp).compare (entryAt added j).key.encode target <;> rfl

/-- A search finds the first entry that is not before the target. -/
theorem findGreaterOrEqual_eq {target : Slice} (ht : target.length < 2 ^ 32) :
    (mem.findGreaterOrEqual (memKeyCompare ucmp) (encodeKey target)).map Prod.snd =
      some (chain.find? fun j => (internalKeyComparator ucmp).compare (entryAt added j).key.encode target !=
        .lt) := by
  rw [h.list.findGreaterOrEqual_eq, find?_congr fun j hj => h.not_passed_eq ht hj]

/-- **`Get` finds the newest entry that it may see.** -/
theorem get_eq {u : Slice} {s : ℕ} (hu : u.length + 8 < 2 ^ 32) (hs : s ≤ kMaxSequenceNumber) :
    mem.get ucmp u s = some ((newestVisible ucmp added u s).map memAnswer) := by
  have htarget : (lookupKey u s).encode.length < 2 ^ 32 := by rwa [InternalKey.length_encode]
  have hnewest : newestVisible ucmp added u s = newestVisible ucmp (chain.map (entryAt added)) u s :=
    newest_congr (h.sorted_entries.distinct u s) fun e _ => h.perm_entries.mem_iff.symm
  have hpars : ∀ e ∈ chain.map (entryAt added), e.parsable = true := fun e he =>
    h.parsable e (h.perm_entries.mem_iff.mp he)
  have hseek : seekEntry ucmp (lookupKey u s) (chain.map (entryAt added)) =
      (chain.find? fun j => (internalKeyComparator ucmp).compare (entryAt added j).key.encode
        (lookupKey u s).encode != .lt).map
        (entryAt added) := by
    rw [seekEntry, find?_map]
    simp only [internalKeyComparator_compare, InternalKey.ofSlice_encode]
    rfl
  obtain ⟨⟨prev, x⟩, hfind, hx⟩ := Option.map_eq_some_iff.mp (h.findGreaterOrEqual_eq htarget)
  rw [hnewest, newestVisible_eq_seekEntry h.sorted_entries hpars hs, hseek, MemTable.get, lookupMemKey_eq,
    hfind]
  simp only at hx
  rw [← hx]
  cases x with
  | none => rfl
  | some j =>
    have hj : j ∈ chain := mem_of_find?_eq_some hx.symm
    obtain ⟨node, hnode, hkey⟩ := h.exists_node hj
    simp only [hnode, Option.map_some, hkey]
    rw [(h.short _ (h.entryAt_mem hj)).getEntry_eq (h.parsable _ (h.entryAt_mem hj))]
    grind

/-! ## The iterator -/

theorem shows_eq (i : ℕ) : (MemTable.iterator ucmp mem).shows chain[i]? =
    ((chain.map (entryAt added)).map fun e => (e.key.encode, e.value))[i]? := by
  rw [getElem?_map, getElem?_map]
  cases hi : chain[i]? with
  | none => rfl
  | some j =>
    have hj : j ∈ chain := mem_of_getElem? hi
    obtain ⟨node, hnode, hkey⟩ := h.exists_node hj
    have hshort := h.short _ (h.entryAt_mem hj)
    simp only [Iterator.shows, MemTable.iterator, Option.isSome_some, if_true, Option.bind_some, hnode,
      Option.map_some, Option.getD_some, hkey, hshort.memKey, hshort.memValue]

/-- **One call of the iterator** is one of a cursor over the entries, if a target to search for is not too
long. -/
theorem iterator_call {c : IterCall} (hc : ∀ target, c = .seek target → target.length < 2 ^ 32) :
    Option.Rel (fun node i => node = chain[i]?) ((MemTable.iterator ucmp mem).call chain[i]? c)
      (mapCursorCall (internalKeyComparator ucmp)
        ((chain.map (entryAt added)).map fun e => (e.key.encode, e.value)) i c) := by
  have hlen : ((chain.map (entryAt added)).map fun e => (e.key.encode, e.value)).length = chain.length := by
    rw [length_map, length_map]
  cases c with
  | seek target =>
    simp only [MemTable.iterator, mapCursorCall]
    rw [h.findGreaterOrEqual_eq (hc target rfl), Cursor.seek, map_map, findIdx_map,
      find?_eq_getElem?_findIdx]
    exact .some rfl
  | seekToFirst =>
    simp only [MemTable.iterator, mapCursorCall]
    have hnext := h.list.next_zero (nil_append chain).symm
    rw [getLast?_nil] at hnext
    rw [hnext, head?_eq_getElem?]
    exact .some rfl
  | seekToLast =>
    simp only [MemTable.iterator, mapCursorCall]
    rw [h.list.findLast_eq, Cursor.seekToLast, hlen, getLast?_eq_getElem?]
    exact .some rfl
  | next =>
    simp only [MemTable.iterator, mapCursorCall, hlen]
    by_cases hi : i < chain.length
    · have hsplit : chain = chain.take i ++ [chain[i]] ++ chain.drop (i + 1) := by
        simp_all
      have hnext := h.list.next_zero hsplit
      rw [getLast?_concat, head?_drop] at hnext
      rw [if_pos hi, getElem?_eq_getElem hi]
      simp only
      rw [hnext]
      exact .some rfl
    · rw [if_neg hi, getElem?_eq_none (Nat.le_of_not_lt hi)]
      exact .none
  | prev =>
    simp only [MemTable.iterator, mapCursorCall, hlen]
    by_cases hi : i < chain.length
    · have hsplit : chain = chain.take i ++ chain[i] :: chain.drop (i + 1) := by
        rw [← drop_eq_getElem_cons hi, take_append_drop]
      obtain ⟨node, hnode, -⟩ := h.exists_node (getElem_mem hi)
      rw [if_pos hi, getElem?_eq_getElem hi, Option.bind_some, hnode]
      simp only
      rw [h.list.findLessThan_node hsplit hnode]
      refine .some ?_
      grind [Cursor.prev]
    · rw [if_neg hi, getElem?_eq_none (Nat.le_of_not_lt hi)]
      exact .none

/-- **The iterator is a cursor over the entries.** -/
theorem iterator_run {calls : List IterCall}
    (hcalls : ∀ target, IterCall.seek target ∈ calls → target.length < 2 ^ 32) :
    (run (MemTable.iterator ucmp mem).call none calls).map (MemTable.iterator ucmp mem).shows =
      (run (mapCursorCall (internalKeyComparator ucmp)
        ((chain.map (entryAt added)).map fun e => (e.key.encode, e.value))) chain.length calls).map
        fun i => ((chain.map (entryAt added)).map fun e => (e.key.encode, e.value))[i]? := by
  have hstep (node : Option ℕ) (i : ℕ) (c : IterCall) (hc : c ∈ calls) (hnode : node = chain[i]?) :=
    hnode ▸ h.iterator_call (c := c) (i := i) fun target ht => hcalls target (ht ▸ hc)
  have hshow (node : Option ℕ) (i : ℕ) (hnode : node = chain[i]?) := hnode ▸ h.shows_eq i
  exact run_map_eq_of_mem hstep hshow (getElem?_eq_none (Nat.le_refl _)).symm

end MemTable.Holds

/-! ## Additions -/

/-- A call of `MemTable::Add`, with the height that is drawn. -/
structure MemAdd where
  sequence : ℕ
  type : ValueType
  key : Slice
  value : Slice
  height : ℕ

namespace MemAdd

/-- The entry that is added. -/
def entry (a : MemAdd) : Entry := .ofParts a.key a.sequence a.type a.value

/-- The lengths and the sequence number have room in an entry. -/
structure Fits (a : MemAdd) : Prop where
  key : a.key.length + 8 < 2 ^ 32
  value : a.value.length < 2 ^ 32
  sequence : a.sequence ≤ kMaxSequenceNumber

/-- The addition to a memtable. -/
def apply (ucmp : Comparator) (mem : MemTable) (a : MemAdd) : Option MemTable :=
  mem.add ucmp a.sequence a.type a.key a.value a.height

variable {a b : MemAdd}

theorem Fits.short (h : a.Fits) : a.entry.Short :=
  ⟨by rw [InternalKey.length_encode]; exact h.key, h.value⟩

theorem parsable_entry (h : a.sequence ≤ kMaxSequenceNumber) : a.entry.parsable = true := by
  rw [Entry.parsable, entry, Entry.ofParts, parseInternalKey_ofParts h]
  rfl

/-- Different versions have different keys. -/
theorem Fits.memKeyCompare_ne (ha : a.Fits) (hb : b.Fits)
    (hne : ucmp.compare a.key b.key = .eq → a.sequence ≠ b.sequence) :
    memKeyCompare ucmp a.entry.memBytes b.entry.memBytes ≠ .eq := by
  rw [ha.short.memKeyCompare_eq hb.short]
  intro heq
  have hrank := internalCompare_eq_eq.mp heq
  have htag : a.entry.key.tag.toNat = b.entry.key.tag.toNat ∧
      userClass ucmp a.entry.key.userKey = userClass ucmp b.entry.key.userKey := by
    rcases rank_le_iff.mp hrank.le with hab | ⟨hab, hle⟩
    · rcases rank_le_iff.mp hrank.ge with hba | ⟨hba, -⟩
      · exact absurd (hab.trans hba) (lt_irrefl _)
      · exact absurd hba hab.ne'
    · rcases rank_le_iff.mp hrank.ge with hba | ⟨-, hge⟩
      · exact absurd hab hba.ne'
      · exact ⟨Nat.le_antisymm hge hle, hab⟩
  have hsequence : a.entry.key.sequence = b.entry.key.sequence := by
    rw [InternalKey.sequence, InternalKey.sequence, htag.1]
  rw [entry, entry, Entry.ofParts, Entry.ofParts, InternalKey.sequence_ofParts ha.sequence,
    InternalKey.sequence_ofParts hb.sequence] at hsequence
  exact hne (cls_eq_iff.mp htag.2) hsequence

end MemAdd

section Runs

variable {adds : List MemAdd}

/-- **Additions keep the invariant.** -/
theorem holds_adds (hfits : ∀ a ∈ adds, a.Fits)
    (hheights : ∀ a ∈ adds, 1 ≤ a.height ∧ a.height ≤ kMaxHeight)
    (hdistinct : adds.Pairwise fun a b => ucmp.compare a.key b.key = .eq → a.sequence ≠ b.sequence) :
    ∃ mem chain, run (MemAdd.apply ucmp) .new adds = some mem ∧
      MemTable.Holds ucmp mem (adds.map MemAdd.entry) chain := by
  induction adds using List.reverseRecOn with
  | nil =>
    exact ⟨_, [], rfl, SkipList.holds_new, rfl, fun e he => absurd he not_mem_nil,
      fun e he => absurd he not_mem_nil⟩
  | append_singleton adds a ih =>
    obtain ⟨hbefore, -, hnew⟩ := pairwise_append.mp hdistinct
    obtain ⟨mem, chain, hrun, h⟩ := ih (fun b hb => hfits b (mem_append_left _ hb))
      (fun b hb => hheights b (mem_append_left _ hb)) hbefore
    have ha : a ∈ adds ++ [a] := mem_append_right _ mem_cons_self
    have hkey : ∀ n ∈ mem.shape, memKeyCompare ucmp a.entry.memBytes n.1 ≠ .eq := by
      intro n hn
      have hmem := mem_map_of_mem (f := Prod.fst) hn
      rw [h.keys, map_map] at hmem
      obtain ⟨b, hb, hbn⟩ := mem_map.mp hmem
      rw [← hbn]
      refine (hfits a ha).memKeyCompare_ne (hfits b (mem_append_left _ hb)) fun heq hs => ?_
      exact hnew b hb a mem_cons_self (Std.OrientedCmp.eq_symm heq) hs.symm
    obtain ⟨mem', chain', hinsert, hlist, hshape, -⟩ :=
      h.list.insert hkey (hheights a ha).1 (hheights a ha).2
    rw [MemAdd.entry, ← memEntry_eq] at hinsert
    refine ⟨mem', chain', run_concat_eq_some.mpr ⟨mem, hrun, hinsert⟩, hlist, ?_, ?_, ?_⟩
    · rw [hshape, map_append, h.keys, map_append, map_append]
      rfl
    · intro e he
      obtain ⟨b, hb, rfl⟩ := mem_map.mp he
      exact (hfits b hb).short
    · intro e he
      obtain ⟨b, hb, rfl⟩ := mem_map.mp he
      exact MemAdd.parsable_entry (hfits b hb).sequence

/-- **A memtable after any additions** of different versions: `Get` answers with the newest entry of the key
that is visible, and the iterator is a cursor over the entries in the order of internal keys. -/
theorem memTable_run (ucmp : Comparator) (adds : List MemAdd) (hfits : ∀ a ∈ adds, a.Fits)
    (hheights : ∀ a ∈ adds, 1 ≤ a.height ∧ a.height ≤ kMaxHeight)
    (hdistinct : adds.Pairwise fun a b => ucmp.compare a.key b.key = .eq → a.sequence ≠ b.sequence) :
    ∃ mem, run (MemAdd.apply ucmp) .new adds = some mem ∧
      (∀ (u : Slice) (s : ℕ), u.length + 8 < 2 ^ 32 → s ≤ kMaxSequenceNumber →
        mem.get ucmp u s = some ((newestVisible ucmp (adds.map MemAdd.entry) u s).map memAnswer)) ∧
      ∃ es, es.Perm (adds.map MemAdd.entry) ∧ SortedEntries ucmp es ∧
        ∀ calls : List IterCall, (∀ target, .seek target ∈ calls → target.length < 2 ^ 32) →
          (run (mem.iterator ucmp).call none calls).map (mem.iterator ucmp).shows =
            (run (mapCursorCall (internalKeyComparator ucmp) (es.map fun e => (e.key.encode, e.value)))
              es.length calls).map fun i => (es.map fun e => (e.key.encode, e.value))[i]? := by
  obtain ⟨mem, chain, hrun, h⟩ := holds_adds hfits hheights hdistinct
  refine ⟨mem, hrun, fun u s hu hs => h.get_eq hu hs, _, h.perm_entries, h.sorted_entries,
    fun calls hcalls => ?_⟩
  rw [length_map]
  exact h.iterator_run hcalls

/-- Two versions of a key and another key: the older version is read at a sequence number between them. -/
theorem memTable_run_versions : ∃ mem, run (MemAdd.apply bytewiseComparator) .new
      [⟨5, .kTypeDeletion, ascii "a", [], 2⟩, ⟨2, .kTypeValue, ascii "a", ascii "x", 1⟩,
        ⟨3, .kTypeValue, ascii "b", ascii "y", 4⟩] = some mem ∧
      mem.get bytewiseComparator (ascii "a") 4 = some (some (.ok (ascii "x"))) := by
  obtain ⟨mem, hrun, hget, -⟩ := memTable_run bytewiseComparator
    [⟨5, .kTypeDeletion, ascii "a", [], 2⟩, ⟨2, .kTypeValue, ascii "a", ascii "x", 1⟩,
      ⟨3, .kTypeValue, ascii "b", ascii "y", 4⟩]
    (by simp only [forall_mem_cons]; exact
      ⟨⟨by decide, by decide, by decide⟩, ⟨by decide, by decide, by decide⟩,
      ⟨by decide, by decide, by decide⟩, by simp⟩) (by decide) (by decide)
  exact ⟨mem, hrun, (hget _ _ (by decide) (by decide)).trans (by decide)⟩

/-! ## Keys that are too long -/

/-- The length of such a key is read as 0. -/
theorem getLengthPrefixedData_memEntry_long {key : Slice} (hlen : key.length = 2 ^ 32 - 8) (s : ℕ)
    (type : ValueType) (value : Slice) : ∃ rest, getLengthPrefixedData (memEntry s type key value) =
      ([], key ++ rest) := by
  have hzero : (UInt32.ofNat (2 ^ 32 - 8 + 8)).toNat = 0 := by decide
  simp only [memEntry, append_assoc]
  rw [getLengthPrefixedData, getVarint32_putVarint32, hlen]
  simp only [hzero, take_zero, drop_zero]
  exact ⟨_, rfl⟩

/-- **A key of `2 ^ 32 - 8` bytes is lost**: the length of its internal key is written as 0, and the iterator
shows an empty key, and for a value what the first bytes of the key say. -/
theorem memTable_cuts_long_key : ∃ mem, run (MemAdd.apply bytewiseComparator) .new
      [⟨1, .kTypeValue, List.replicate (2 ^ 32 - 8) 0, [7], 1⟩] = some mem ∧
    (run (mem.iterator bytewiseComparator).call none [.seekToFirst]).map
      (mem.iterator bytewiseComparator).shows = some (some ([], [])) := by
  obtain ⟨key, hkey⟩ : ∃ key : Slice, List.replicate (2 ^ 32 - 8) 0 = 0 :: key := ⟨_, replicate_succ⟩
  have hlen : (0 :: key).length = 2 ^ 32 - 8 := by rw [← hkey, length_replicate]
  rw [hkey]
  obtain ⟨rest, hread⟩ := getLengthPrefixedData_memEntry_long hlen 1 .kTypeValue [7]
  generalize hentry : memEntry 1 .kTypeValue (0 :: key) [7] = entry at hread
  refine ⟨⟨some 0 :: List.replicate 11 none, [⟨entry, [none]⟩], 1⟩, ?_, ?_⟩
  · rw [← hentry]
    rfl
  · have hvalue : (getLengthPrefixedData (0 :: (key ++ rest))).1 = [] := rfl
    refine congrArg (fun x => some (some x)) (Prod.ext ?_ ?_)
    · change (getLengthPrefixedData entry).1 = []
      rw [hread]
    · change (getLengthPrefixedData (getLengthPrefixedData entry).2).1 = []
      rw [hread]
      exact hvalue

end Runs

end RocketDb
