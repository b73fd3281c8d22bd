import RocketDb.Lib.Transition
import RocketDb.Util.HandleTable
import Mathlib.Data.List.Perm.Basic

/-! # The LRU cache (`LRUCache`, `util/cache.cc`)

One shard of the cache. An entry is referenced by the cache, as long as `in_cache` is set, and by every handle
not released. Entries that nobody else references are on the list `lru_`, oldest first; those in use are on
`in_use_`. When the last reference goes, the entry's deleter runs and the entry is freed.

* **`LRUCache.step`** — the operations of a caller, with the handles it holds.
* **`LRUCache.Ok`** — the invariant. In the middle of an operation an entry may be out of the table but still
  `in_cache` (`pending`), or have a reference that nobody holds any more (`owed`).
* **`LRUCache.invariant_of_run`** — what holds after every run. -/

namespace RocketDb

open Function List

variable {V : Type}

/-- What happens to the entry of a key. -/
inductive CacheEvent (V : Type) where
  | inserted (e : LRUHandle V)
  | erased (key : Slice)
  | evicted (key : Slice)

/-- The key an event is about. -/
def CacheEvent.key : CacheEvent V → Slice
  | .inserted e => e.key
  | .erased key => key
  | .evicted key => key

/-- The entry of the key after the event. -/
def CacheEvent.entry : CacheEvent V → Option (LRUHandle V)
  | .inserted e => some e
  | .erased _ => none
  | .evicted _ => none

/-- The entry most recently inserted for a key, if it was not erased or evicted since. The events are
listed from the last to the first. -/
def latest (key : Slice) : List (CacheEvent V) → Option (LRUHandle V)
  | [] => none
  | event :: events => if event.key = key then event.entry else latest key events

/-- `LRUCache`, with the reference counts and flags of its entries by `id`. The last four fields are
not in the source: the entries created so far, the handles that callers have acquired and not released,
the runs of deleters, and the events. -/
structure LRUCache (V : Type) where
  capacity : UInt64
  usage : UInt64
  lru : List (LRUHandle V)
  inUse : List (LRUHandle V)
  table : HandleTable V
  refs : ℕ → UInt32
  inCache : ℕ → Bool
  created : List (LRUHandle V)
  handles : List (LRUHandle V)
  deleted : List (LRUHandle V)
  events : List (CacheEvent V)

/-- A new cache. -/
def LRUCache.new (capacity : UInt64) : LRUCache V :=
  ⟨capacity, 0, [], [], .new, fun _ => 0, fun _ => false, [], [], [], []⟩

/-- `LRU_Remove`: unlink the entry from the list it is on. -/
def LRUCache.lruRemove (c : LRUCache V) (e : LRUHandle V) : LRUCache V :=
  { c with
    lru := c.lru.filter fun x => decide (x.id ≠ e.id)
    inUse := c.inUse.filter fun x => decide (x.id ≠ e.id) }

/-- `Ref`. -/
def LRUCache.ref (c : LRUCache V) (e : LRUHandle V) : LRUCache V :=
  let c :=
    if c.refs e.id = 1 ∧ c.inCache e.id = true then
      { c.lruRemove e with inUse := (c.lruRemove e).inUse ++ [e] }
    else c
  { c with refs := Function.update c.refs e.id (c.refs e.id + 1) }

/-- `Unref`: the last reference runs the deleter. -/
def LRUCache.unref (c : LRUCache V) (e : LRUHandle V) : LRUCache V :=
  let c := { c with refs := Function.update c.refs e.id (c.refs e.id - 1) }
  if c.refs e.id = 0 then { c with deleted := c.deleted ++ [e] }
  else if c.inCache e.id = true ∧ c.refs e.id = 1 then
    { c.lruRemove e with lru := (c.lruRemove e).lru ++ [e] }
  else c

/-- `FinishErase`, for an entry that was taken out of the table. -/
def LRUCache.finishErase (c : LRUCache V) : Option (LRUHandle V) → LRUCache V
  | none => c
  | some e =>
    ({ c.lruRemove e with
        inCache := Function.update c.inCache e.id false
        usage := c.usage - e.charge } : LRUCache V).unref e

/-- `FinishErase(table_.Remove(key, hash))`, recorded as `event`. -/
def LRUCache.removeKey (c : LRUCache V) (key : Slice) (hash : UInt32) (event : CacheEvent V) :
    LRUCache V :=
  let (e, table) := c.table.remove key hash
  ({ c with table := table, events := event :: c.events } : LRUCache V).finishErase e

/-- The eviction loops of `Insert` and `Prune`: remove the oldest entry of `lru_` while `more` says so.
Every round takes one entry off the list. -/
def LRUCache.evictLoop (more : LRUCache V → Bool) : ℕ → LRUCache V → LRUCache V
  | 0, c => c
  | fuel + 1, c =>
    match c.lru with
    | [] => c
    | old :: _ =>
      if more c then
        evictLoop more fuel (c.removeKey old.key old.hash (.evicted old.key))
      else c

/-- The entry that `Insert` allocates, with a reference for the handle it returns. -/
def LRUCache.allocate (c : LRUCache V) (e : LRUHandle V) : LRUCache V :=
  { c with
    created := c.created ++ [e]
    handles := c.handles ++ [e]
    refs := Function.update c.refs e.id 1
    inCache := Function.update c.inCache e.id false }

/-- The part of `Insert` that puts the new entry into the cache. -/
def LRUCache.addToCache (c : LRUCache V) (e : LRUHandle V) : LRUCache V :=
  let (old, table) := c.table.insert e
  ({ c with
      refs := Function.update c.refs e.id (c.refs e.id + 1)
      inCache := Function.update c.inCache e.id true
      inUse := c.inUse ++ [e]
      usage := c.usage + e.charge
      table := table
      events := .inserted e :: c.events } : LRUCache V).finishErase old

/-- **`Insert`**. With capacity 0 the entry is not put into the cache. -/
def LRUCache.insert (c : LRUCache V) (key : Slice) (hash : UInt32) (value : V) (charge : UInt64) :
    LRUCache V :=
  let e : LRUHandle V := ⟨c.created.length, key, hash, value, charge⟩
  let c := c.allocate e
  let c := if 0 < c.capacity then c.addToCache e else { c with events := .inserted e :: c.events }
  c.evictLoop (fun c => decide (c.capacity < c.usage)) c.lru.length

/-- **`Lookup`**. -/
def LRUCache.lookup (c : LRUCache V) (key : Slice) (hash : UInt32) : LRUCache V :=
  match c.table.lookup key hash with
  | none => c
  | some e => ({ c with handles := c.handles ++ [e] } : LRUCache V).ref e

/-- **`Prune`**. -/
def LRUCache.prune (c : LRUCache V) : LRUCache V := c.evictLoop (fun _ => true) c.lru.length

/-- What a caller can do. A handle is released by its place among those held, so each at most once. -/
inductive CacheOp (V : Type) where
  | insert (key : Slice) (value : V) (charge : UInt64)
  | lookup (key : Slice)
  | release (handle : ℕ)
  | erase (key : Slice)
  | prune

/-- One operation. The hash of a key is a function of it, as in `SharedLRUCache`. -/
def LRUCache.step (hashOf : Slice → UInt32) (c : LRUCache V) : CacheOp V → Option (LRUCache V)
  | .insert key value charge => some (c.insert key (hashOf key) value charge)
  | .lookup key => some (c.lookup key (hashOf key))
  | .release i =>
    match c.handles[i]? with
    | none => none
    | some h => some (({ c with handles := c.handles.eraseIdx i } : LRUCache V).unref h)
  | .erase key => some (c.removeKey key (hashOf key) (.erased key))
  | .prune => some c.prune

/-- The sum of the charges of the entries in the cache. -/
def LRUCache.chargeSum (c : LRUCache V) : ℕ :=
  ((c.created.filter fun e => c.inCache e.id).map fun e => e.charge.toNat).sum

/-- How many handles to an entry are held. -/
def LRUCache.held (c : LRUCache V) (e : LRUHandle V) : ℕ :=
  c.handles.countP fun h => decide (h.id = e.id)

/-! ## The invariant -/

/-- The invariant of the table, of `usage_` and of the history. `pending` is in the cache but not in
the table any more. -/
structure LRUCache.TableInv (hashOf : Slice → UInt32) (c : LRUCache V)
    (pending : Option (LRUHandle V)) : Prop where
  ids : c.created.map LRUHandle.id = List.range c.created.length
  hash_eq : ∀ e ∈ c.created, e.hash = hashOf e.key
  table_ok : c.table.Ok
  elems_le : c.table.elems ≤ c.table.length
  has_iff : ∀ e, c.table.Has e ↔ e ∈ c.created ∧ c.inCache e.id = true ∧ pending ≠ some e
  pending_mem : ∀ p, pending = some p → p ∈ c.created ∧ c.inCache p.id = true
  handles_mem : ∀ h ∈ c.handles, h ∈ c.created
  usage_eq : c.usage.toNat = c.chargeSum
  latest_eq : 0 < c.capacity → ∀ key, c.table.lookup key (hashOf key) = latest key c.events
  empty : c.capacity = 0 → ∀ e, ¬ c.table.Has e

/-- The entries of the cache are on the list that their reference count asks for. -/
structure LRUCache.ListsInv (c : LRUCache V) : Prop where
  lru_iff : ∀ e, e ∈ c.lru ↔ e ∈ c.created ∧ c.inCache e.id = true ∧ (c.refs e.id).toNat = 1
  inUse_iff : ∀ e, e ∈ c.inUse ↔ e ∈ c.created ∧ c.inCache e.id = true ∧ 2 ≤ (c.refs e.id).toNat
  lru_nodup : c.lru.Nodup
  inUse_nodup : c.inUse.Nodup

/-- Deleters have run for the entries without references, once each. -/
structure LRUCache.DeletedInv (c : LRUCache V) : Prop where
  deleted_iff : ∀ e, e ∈ c.deleted ↔ e ∈ c.created ∧ (c.refs e.id).toNat = 0
  deleted_nodup : c.deleted.Nodup

/-- One reference more, for the entry `owed`. -/
def owes (owed : Option (LRUHandle V)) (e : LRUHandle V) : ℕ :=
  if owed.map LRUHandle.id = some e.id then 1 else 0

/-- The references of an entry are the handles held and the cache's own, and one more if it is
`owed`. -/
def LRUCache.CountsInv (c : LRUCache V) (owed : Option (LRUHandle V)) : Prop :=
  ∀ e ∈ c.created, (c.refs e.id).toNat = c.held e + (c.inCache e.id).toNat + owes owed e

/-- The whole invariant, also in the middle of an operation. -/
structure LRUCache.Ok (hashOf : Slice → UInt32) (c : LRUCache V)
    (pending owed : Option (LRUHandle V)) : Prop extends c.TableInv hashOf pending, c.ListsInv,
    c.DeletedInv where
  counts : c.CountsInv owed

variable {hashOf : Slice → UInt32} {c : LRUCache V} {e x : LRUHandle V} {r : UInt32}
  {pending owed : Option (LRUHandle V)}

@[simp] theorem owes_none (e : LRUHandle V) : owes none e = 0 := rfl

@[simp] theorem owes_self (e : LRUHandle V) : owes (some e) e = 1 := if_pos rfl

theorem owes_of_ne (hne : x.id ≠ e.id) : owes (some e) x = 0 :=
  if_neg fun h => hne (Option.some_inj.mp h).symm

/-- No two entries have the same id. -/
theorem LRUCache.TableInv.nodup_ids (h : c.TableInv hashOf pending) :
    (c.created.map LRUHandle.id).Nodup := by
  rw [h.ids]
  exact nodup_range

theorem LRUCache.TableInv.injective (h : c.TableInv hashOf pending) :
    Set.InjOn LRUHandle.id {x | x ∈ c.created} :=
  fun _ hx _ hy hid => inj_on_of_nodup_map h.nodup_ids hx hy hid

theorem LRUCache.TableInv.id_lt (h : c.TableInv hashOf pending) (hx : x ∈ c.created) :
    x.id < c.created.length := by
  grind [mem_map_of_mem, TableInv]

theorem mem_filter_id_ne {l : List (LRUHandle V)} :
    x ∈ l.filter (fun y => decide (y.id ≠ e.id)) ↔ x ∈ l ∧ x.id ≠ e.id := by
  simp

theorem nodup_append_singleton {l : List (LRUHandle V)} (hl : l.Nodup) (he : e ∉ l) :
    (l ++ [e]).Nodup := by
  grind

/-! ### A change at one entry

An operation changes the flag and the reference count of one entry at a time. The invariant says of every
entry by itself on which list it is and how it is counted, so only this entry has to be looked at. -/

/-- The list holds the entries with such a flag and reference count, each once. -/
def LRUCache.Lists (c : LRUCache V) (p : Bool → ℕ → Prop) (l : List (LRUHandle V)) : Prop :=
  l.Nodup ∧ ∀ y, y ∈ l ↔ y ∈ c.created ∧ p (c.inCache y.id) (c.refs y.id).toNat

/-- An entry of the cache that nobody else references. -/
def OnLru (inCache : Bool) (refs : ℕ) : Prop := inCache = true ∧ refs = 1

/-- An entry of the cache that is in use. -/
def OnInUse (inCache : Bool) (refs : ℕ) : Prop := inCache = true ∧ 2 ≤ refs

/-- An entry whose deleter has run. -/
def Freed (_inCache : Bool) (refs : ℕ) : Prop := refs = 0

theorem LRUCache.ListsInv.lists_lru (h : c.ListsInv) : c.Lists OnLru c.lru := ⟨h.lru_nodup, h.lru_iff⟩

theorem LRUCache.ListsInv.lists_inUse (h : c.ListsInv) : c.Lists OnInUse c.inUse :=
  ⟨h.inUse_nodup, h.inUse_iff⟩

theorem LRUCache.DeletedInv.lists_deleted (h : c.DeletedInv) : c.Lists Freed c.deleted :=
  ⟨h.deleted_nodup, h.deleted_iff⟩

/-- The invariant, from what each list holds. -/
theorem LRUCache.Ok.of_lists (htable : c.TableInv hashOf pending) (hlru : c.Lists OnLru c.lru)
    (huse : c.Lists OnInUse c.inUse) (hdel : c.Lists Freed c.deleted) (hcounts : c.CountsInv owed) :
    c.Ok hashOf pending owed :=
  { htable with
    lru_iff := hlru.2, lru_nodup := hlru.1, inUse_iff := huse.2, inUse_nodup := huse.1
    deleted_iff := hdel.2, deleted_nodup := hdel.1, counts := hcounts }

/-- `c'` is `c` with another flag or reference count for `e`, which may be new. -/
structure LRUCache.ChangedAt (c c' : LRUCache V) (e : LRUHandle V) : Prop where
  created : ∀ y, y ∈ c'.created ↔ y ∈ c.created ∨ y = e
  injective : Set.InjOn LRUHandle.id {x | x ∈ c'.created}
  refs : ∀ i, i ≠ e.id → c'.refs i = c.refs i
  inCache : ∀ i, i ≠ e.id → c'.inCache i = c.inCache i

section ChangedAt

variable {c' : LRUCache V} {p : Bool → ℕ → Prop} {l l' : List (LRUHandle V)}

/-- A change that leaves the references and marks of the others alone is one at a single entry. -/
theorem LRUCache.TableInv.changedAt (h : c.TableInv hashOf pending) (he : e ∈ c.created)
    (hcreated : c'.created = c.created) (hrefs : ∀ i, i ≠ e.id → c'.refs i = c.refs i)
    (hcache : ∀ i, i ≠ e.id → c'.inCache i = c.inCache i) : c.ChangedAt c' e where
  created y := by
    grind
  injective := hcreated ▸ h.injective
  refs := hrefs
  inCache := hcache

section

variable (h : c.ChangedAt c' e)

include h

theorem LRUCache.ChangedAt.id_ne (hx : x ∈ c.created) (hne : x ≠ e) :
    x.id ≠ e.id :=
  fun hid => hne (h.injective ((h.created x).mpr (Or.inl hx)) ((h.created e).mpr (Or.inr rfl)) hid)

/-- A list after a change at one entry: the others stay, and the entry is on it if it should be. -/
theorem LRUCache.ChangedAt.lists (hl : c.Lists p l) (hnodup : l'.Nodup) (hsub : ∀ y ∈ l', y ∈ l ∨ y = e)
    (hother : ∀ y ∈ l, y.id ≠ e.id → y ∈ l') (hself : e ∈ l' ↔ p (c'.inCache e.id) (c'.refs e.id).toNat) :
    c'.Lists p l' := by
  refine ⟨hnodup, fun y => ?_⟩
  rw [h.created]
  by_cases hye : y = e
  · grind
  · rw [or_iff_left hye]
    constructor
    · intro hy
      obtain ⟨hmem, hp⟩ := (hl.2 y).mp ((hsub y hy).resolve_right hye)
      have hid := h.id_ne hmem hye
      exact ⟨hmem, by rwa [h.inCache _ hid, h.refs _ hid]⟩
    · rintro ⟨hmem, hp⟩
      have hid := h.id_ne hmem hye
      rw [h.inCache _ hid, h.refs _ hid] at hp
      exact hother y ((hl.2 y).mpr ⟨hmem, hp⟩) hid

/-- The entry stays on the list, or off it. -/
theorem LRUCache.ChangedAt.lists_same (hl : c.Lists p l)
    (hself : (e ∈ c.created ∧ p (c.inCache e.id) (c.refs e.id).toNat) ↔
      p (c'.inCache e.id) (c'.refs e.id).toNat) : c'.Lists p l :=
  h.lists hl hl.1 (fun _ hy => Or.inl hy) (fun _ hy _ => hy) ((hl.2 e).trans hself)

/-- The entry comes onto the list. -/
theorem LRUCache.ChangedAt.lists_append (hl : c.Lists p l) (he : e ∉ l)
    (hp : p (c'.inCache e.id) (c'.refs e.id).toNat) : c'.Lists p (l ++ [e]) := by
  refine h.lists hl (nodup_append_singleton hl.1 he) (fun y hy => ?_)
    (fun y hy _ => mem_append_left _ hy) (iff_of_true ?_ hp)
  · rwa [mem_append, mem_singleton] at hy
  · exact mem_append_right _ (mem_singleton_self e)

/-- The entry is taken off the list. -/
theorem LRUCache.ChangedAt.lists_filter (hl : c.Lists p l) (hp : ¬ p (c'.inCache e.id) (c'.refs e.id).toNat) :
    c'.Lists p (l.filter fun y => decide (y.id ≠ e.id)) :=
  h.lists hl (hl.1.filter _) (fun _ hy => Or.inl (mem_filter_id_ne.mp hy).1)
    (fun _ hy hid => mem_filter_id_ne.mpr ⟨hy, hid⟩)
    (iff_of_false (fun he => (mem_filter_id_ne.mp he).2 rfl) hp)

/-- The entry moves to the end of the list. -/
theorem LRUCache.ChangedAt.lists_moved (hl : c.Lists p l) (hp : p (c'.inCache e.id) (c'.refs e.id).toNat) :
    c'.Lists p (l.filter (fun y => decide (y.id ≠ e.id)) ++ [e]) := by
  refine h.lists hl (nodup_append_singleton (hl.1.filter _) fun he => (mem_filter_id_ne.mp he).2 rfl)
    (fun y hy => ?_) (fun y hy hid => mem_append_left _ (mem_filter_id_ne.mpr ⟨hy, hid⟩))
    (iff_of_true (mem_append_right _ (mem_singleton_self e)) hp)
  grind

/-- References still count handles and the cache, if they do so for the entry. -/
theorem LRUCache.ChangedAt.counts {owed' : Option (LRUHandle V)} (hcounts : c.CountsInv owed)
    (hother : ∀ y, y.id ≠ e.id → c'.held y + owes owed' y = c.held y + owes owed y)
    (hself : (c'.refs e.id).toNat = c'.held e + (c'.inCache e.id).toNat + owes owed' e) :
    c'.CountsInv owed' := by
  intro y hy
  by_cases hye : y = e
  · rw [hye, hself]
  · have hmem := ((h.created y).mp hy).resolve_right hye
    have hid := h.id_ne hmem hye
    have hcount := hcounts y hmem
    grind [ChangedAt]

end

end ChangedAt

theorem LRUCache.held_append (hhandles : c.handles = l ++ [e]) (y : LRUHandle V) :
    c.held y = (l.countP fun h => decide (h.id = y.id)) + if e.id = y.id then 1 else 0 := by
  simp [held, hhandles, countP_append, countP_cons]

/-! ### `Unref` -/

/-- The cache with another reference count for one entry. -/
def LRUCache.setRefs (c : LRUCache V) (e : LRUHandle V) (r : UInt32) : LRUCache V :=
  { c with refs := Function.update c.refs e.id r }

theorem LRUCache.setRefs_refs_self : (c.setRefs e r).refs e.id = r := Function.update_self _ _ _

/-- `Unref`: the last reference deletes, the last but one moves an entry of the cache to `lru_`. -/
theorem LRUCache.unref_eq (c : LRUCache V) (e : LRUHandle V) :
    c.unref e =
      if c.refs e.id - 1 = 0 then
        { c.setRefs e (c.refs e.id - 1) with deleted := c.deleted ++ [e] }
      else if c.inCache e.id = true ∧ c.refs e.id - 1 = 1 then
        { c.setRefs e (c.refs e.id - 1) with
          lru := c.lru.filter (fun x => decide (x.id ≠ e.id)) ++ [e]
          inUse := c.inUse.filter fun x => decide (x.id ≠ e.id) }
      else c.setRefs e (c.refs e.id - 1) := by
  unfold unref
  simp only [update_self]
  rfl

/-- **`Unref` pays the reference that is owed.** If it was the last one the deleter runs; if only the
cache's own is left the entry moves to `lru_`. -/
theorem LRUCache.Ok.unref (h : c.Ok hashOf none (some e)) (he : e ∈ c.created) :
    (c.unref e).Ok hashOf none none := by
  have href := h.counts e he
  rw [owes_self] at href
  obtain ⟨r, hr⟩ : ∃ r, r = c.refs e.id - 1 := ⟨_, rfl⟩
  have hrn : r.toNat + 1 = (c.refs e.id).toNat := by
    rw [hr, UInt32.toNat_sub_of_le _ _ (UInt32.le_iff_toNat_le.mpr (Nat.succ_le_of_lt (by omega)))]
    change _ - 1 + 1 = _
    omega
  have hat : c.ChangedAt (c.setRefs e r) e :=
    h.changedAt he rfl (fun i hi => update_of_ne hi _ _) fun _ _ => rfl
  have hself : (c.setRefs e r).refs e.id = r := setRefs_refs_self
  have hcounts : (c.setRefs e r).CountsInv none := by
    refine hat.counts h.counts (fun y hid => by rw [owes_of_ne hid]; rfl) ?_
    change _ = c.held e + (c.inCache e.id).toNat + 0
    rw [hself]
    omega
  have hdel : r.toNat ≠ 0 → (c.setRefs e r).Lists Freed c.deleted := fun hr0 => by
    refine hat.lists_same h.lists_deleted (iff_of_false (fun hp => ?_) ?_)
    · exact absurd (hrn.trans hp.2) (Nat.succ_ne_zero _)
    · rwa [hself]
  rw [unref_eq, ← hr]
  split_ifs with hzero hone
  · have hr0 : r.toNat = 0 := by rw [hzero]; rfl
    -- the cache has no reference, so the entry is on no list
    have hout : ¬ c.inCache e.id = true := by
      grind
    refine .of_lists { h.toTableInv with }
      (hat.lists_same h.lists_lru (iff_of_false (fun hp => hout hp.2.1) fun hp => hout hp.1))
      (hat.lists_same h.lists_inUse (iff_of_false (fun hp => hout hp.2.1) fun hp => hout hp.1))
      (hat.lists_append h.lists_deleted (fun hmem => ?_) ?_) hcounts
    · have := ((h.deleted_iff e).mp hmem).2
      omega
    · rwa [hself]
  · have hr1 : r.toNat = 1 := by rw [hone.2]; rfl
    refine .of_lists { h.toTableInv with } (hat.lists_moved h.lists_lru ⟨hone.1, by rwa [hself]⟩)
      (hat.lists_filter h.lists_inUse fun hp => ?_) (hdel (by omega)) hcounts
    have := hself ▸ hp.2
    omega
  · have hr0 : r.toNat ≠ 0 := fun h0 => hzero (UInt32.toNat_inj.mp h0)
    have hmid : c.inCache e.id = true → 2 ≤ r.toNat := by
      intro hin
      have hr1 : r.toNat ≠ 1 := fun h1 => hone ⟨hin, UInt32.toNat_inj.mp h1⟩
      omega
    refine .of_lists { h.toTableInv with } (hat.lists_same h.lists_lru (iff_of_false ?_ ?_))
      (hat.lists_same h.lists_inUse ⟨?_, ?_⟩) (hdel hr0) hcounts
    · rintro ⟨-, hin, hp⟩
      have := hmid hin
      omega
    · rintro ⟨hin, hp⟩
      have := hmid hin
      rw [hself] at hp
      omega
    · exact fun hp => ⟨hp.2.1, by rw [hself]; exact hmid hp.2.1⟩
    · exact fun hp => ⟨he, hp.1, by have := hmid hp.1; omega⟩

/-! ### `Ref` -/

/-- **`Ref`** for a handle that a caller gets to an entry of the cache. The entry leaves `lru_` if
nobody had a handle to it. -/
theorem LRUCache.Ok.acquire (h : c.Ok hashOf none none) (he : e ∈ c.created)
    (hin : c.inCache e.id = true) (hlt : (c.refs e.id).toNat + 1 < 2 ^ 32) :
    (({ c with handles := c.handles ++ [e] } : LRUCache V).ref e).Ok hashOf none none := by
  have href := h.counts e he
  rw [owes_none, hin, Bool.toNat_true] at href
  -- the cache with the handle and the new count
  obtain ⟨c', hc'⟩ : ∃ c' : LRUCache V,
      c' = { c with handles := c.handles ++ [e], refs := update c.refs e.id (c.refs e.id + 1) } :=
    ⟨_, rfl⟩
  have hat : c.ChangedAt c' e := by
    subst hc'
    exact h.changedAt he rfl (fun i hi => update_of_ne hi _ _) fun _ _ => rfl
  have hself : (c'.refs e.id).toNat = (c.refs e.id).toNat + 1 ∧ c'.inCache e.id = true := by
    simp_all
  have hheld := held_append (c := c') (by rw [hc'])
  have hcounts : c'.CountsInv none := by
    refine hat.counts h.counts (fun y hid => ?_) ?_
    · rw [hheld, if_neg hid.symm]
      rfl
    · rw [hheld, if_pos rfl, hself.1, hself.2, href]
      rfl
  have htable : c'.TableInv hashOf none := by
    subst hc'
    refine { h.toTableInv with handles_mem := fun y hy => ?_ }
    rcases mem_append.mp hy with hy | hy
    · exact h.handles_mem y hy
    · rwa [mem_singleton.mp hy]
  have hdel : c'.Lists Freed c.deleted :=
    hat.lists_same h.lists_deleted (iff_of_false (fun hp => by have := hp.2; rw [Freed] at this; omega)
      (by rw [Freed]; omega))
  unfold ref
  simp only
  split_ifs with hone
  · have h1 : (c.refs e.id).toNat = 1 := by rw [hone.1]; rfl
    have hlru := hat.lists_filter h.lists_lru fun hp => by have := hp.2; omega
    have huse := hat.lists_moved h.lists_inUse ⟨hself.2, by omega⟩
    subst hc'
    exact .of_lists { htable with } hlru huse hdel hcounts
  · have h1 : (c.refs e.id).toNat ≠ 1 := fun h1 => hone ⟨UInt32.toNat_inj.mp h1, hin⟩
    have hlru := hat.lists_same h.lists_lru
      (iff_of_false (fun hp => h1 hp.2.2) fun hp => by have := hp.2; omega)
    have huse := hat.lists_same h.lists_inUse (iff_of_true ⟨he, hin, by omega⟩ ⟨hself.2, by omega⟩)
    subst hc'
    exact .of_lists htable hlru huse hdel hcounts

/-! ### `FinishErase` -/

/-- Taking one entry out of a sum over the entries of the cache. -/
theorem LRUCache.TableInv.sum_update (h : c.TableInv hashOf pending) (he : e ∈ c.created) {f : ℕ → Bool}
    (hin : f e.id = true) :
    ((c.created.filter fun x => Function.update f e.id false x.id).map fun x => x.charge.toNat).sum +
        e.charge.toNat =
      ((c.created.filter fun x => f x.id).map fun x => x.charge.toNat).sum := by
  have hother : ∀ l' : List (LRUHandle V), (∀ x ∈ l', x.id ≠ e.id) →
      l'.filter (fun x => update f e.id false x.id) = l'.filter fun x => f x.id :=
    fun l' hl' => filter_congr fun x hx => by rw [update_of_ne (hl' x hx)]
  obtain ⟨l₁, l₂, hl⟩ := append_of_mem he
  have hne : ∀ x ∈ l₁ ++ l₂, x.id ≠ e.id := by
    have hids := h.nodup_ids
    grind
  grind

/-- `FinishErase` gives back the reference of the cache. -/
theorem LRUCache.Ok.finishErase (h : c.Ok hashOf pending none) :
    (c.finishErase pending).Ok hashOf none none := by
  cases pending with
  | none => exact h
  | some e =>
    obtain ⟨he, hin⟩ := h.pending_mem e rfl
    have hsum := h.sum_update he hin
    have hcount := h.counts e he
    rw [owes_none, hin, Bool.toNat_true] at hcount
    refine unref (e := e) ?_ he
    obtain ⟨c', hc'⟩ : ∃ c' : LRUCache V, c' = { c.lruRemove e with
        inCache := update c.inCache e.id false, usage := c.usage - e.charge } := ⟨_, rfl⟩
    rw [← hc']
    have hat : c.ChangedAt c' e := by
      rw [hc']
      exact h.changedAt he rfl (fun _ _ => rfl) fun i hi => update_of_ne hi _ _
    have hout : c'.inCache e.id = false := by
      rw [hc']
      exact update_self _ _ _
    have hlru := hat.lists_filter h.lists_lru fun hp => by rw [hout] at hp; cases hp.1
    have huse := hat.lists_filter h.lists_inUse fun hp => by rw [hout] at hp; cases hp.1
    have hdel := hat.lists_same h.lists_deleted (by rw [hc']; exact and_iff_right he)
    have hcounts : c'.CountsInv (some e) := by
      refine hat.counts h.counts (fun y hid => ?_) ?_
      · rw [owes_of_ne hid, hc']
        rfl
      · rw [hout, owes_self, hc']
        exact hcount
    -- an entry of the table is another one
    have hhas : ∀ y, c.table.Has y ↔ y ∈ c.created ∧ c'.inCache y.id = true ∧ none ≠ some y := by
      intro y
      refine (h.has_iff y).trans (and_congr_right fun hy => ?_)
      by_cases hye : y = e
      · rw [hye, hout]
        simp
      · rw [hat.inCache _ (hat.id_ne hy hye)]
        simp [Ne.symm hye]
    subst hc'
    refine .of_lists { h.toTableInv with has_iff := hhas, pending_mem := nofun, usage_eq := ?_ }
      hlru huse hdel hcounts
    have husage := h.usage_eq
    change (c.usage - e.charge).toNat =
      ((c.created.filter fun x => update c.inCache e.id false x.id).map
        fun x => x.charge.toNat).sum
    grind [chargeSum, UInt64.toNat_sub_of_le, UInt64.le_iff_toNat_le]

/-! ### Removal and eviction -/

/-- `Erase`, and the removal of an entry that is replaced or evicted, keep the invariant. -/
theorem LRUCache.Ok.removeKey (h : c.Ok hashOf none none) {key : Slice} {event : CacheEvent V}
    (hkey : event.key = key) (hentry : event.entry = none) :
    (c.removeKey key (hashOf key) event).Ok hashOf none none := by
  obtain ⟨hfst, hok, hhas⟩ := h.table_ok.remove_spec key (hashOf key)
  have hle := HandleTable.remove_elems_le h.elems_le key (hashOf key)
  unfold LRUCache.removeKey
  obtain ⟨⟨old, table⟩, hr⟩ : ∃ r, c.table.remove key (hashOf key) = r := ⟨_, rfl⟩
  rw [hr] at hfst hok hhas hle ⊢
  simp only at hfst hok hhas hle ⊢
  refine finishErase
    { ids := h.ids, hash_eq := h.hash_eq, table_ok := hok, elems_le := hle
      has_iff := fun y => ?_
      pending_mem := fun p hp => ?_
      handles_mem := h.handles_mem, usage_eq := h.usage_eq
      latest_eq := fun hpos key' => ?_
      empty := fun hzero y hy => h.empty hzero y ((hhas y).mp hy).1
      lru_iff := h.lru_iff, inUse_iff := h.inUse_iff, lru_nodup := h.lru_nodup
      inUse_nodup := h.inUse_nodup, deleted_iff := h.deleted_iff
      deleted_nodup := h.deleted_nodup, counts := h.counts }
  · change table.Has y ↔ y ∈ c.created ∧ c.inCache y.id = true ∧ ¬ old = some y
    rw [hhas, hfst, h.table_ok.lookup_eq_some, ← LRUHandle.tag_eq_iff, h.has_iff]
    tauto
  · rw [hfst] at hp
    have hmem := (h.has_iff p).mp (h.table_ok.lookup_eq_some.mp hp).1
    exact ⟨hmem.1, hmem.2.1⟩
  · rw [latest, hkey, hentry]
    split_ifs with heq
    · grind [HandleTable.Ok.lookup_eq_none]
    · rw [← h.latest_eq hpos key']
      refine hok.lookup_congr h.table_ok fun y hy _ => ?_
      rw [hhas]
      exact and_iff_left fun htag => heq ((LRUHandle.tag_eq_iff.mp htag).1.symm.trans hy)

/-- An eviction takes the entry off `lru_`. -/
theorem LRUCache.Ok.removeKey_lru (h : c.Ok hashOf none none) (he : e ∈ c.lru)
    (event : CacheEvent V) :
    (c.removeKey e.key e.hash event).lru = c.lru.filter fun x => decide (x.id ≠ e.id) := by
  obtain ⟨hmem, hin, hone⟩ := (h.lru_iff e).mp he
  have hfind : (c.table.remove e.key e.hash).1 = some e := by
    rw [(h.table_ok.remove_spec e.key e.hash).1, h.table_ok.lookup_eq_some]
    exact ⟨(h.has_iff e).mpr ⟨hmem, hin, by simp⟩, rfl, rfl⟩
  have hrefs : c.refs e.id = 1 := UInt32.toNat_inj.mp hone
  unfold LRUCache.removeKey
  simp only [hfind]
  rw [LRUCache.finishErase, unref_eq, if_pos]
  · rfl
  · change c.refs e.id - 1 = 0
    rw [hrefs]
    rfl

/-- **The eviction loops** keep the invariant and end because they need not go on, or with `lru_`
empty. -/
theorem LRUCache.Ok.evictLoop (more : LRUCache V → Bool) {fuel : ℕ} :
    ∀ {c : LRUCache V}, c.Ok hashOf none none → c.lru.length ≤ fuel →
      (c.evictLoop more fuel).Ok hashOf none none ∧
        (more (c.evictLoop more fuel) = false ∨ (c.evictLoop more fuel).lru = []) := by
  induction fuel with
  | zero =>
    intro c h hlen
    exact ⟨h, Or.inr (length_eq_zero_iff.mp (Nat.le_zero.mp hlen))⟩
  | succ fuel ih =>
    intro c h hlen
    rw [LRUCache.evictLoop]
    cases hlru : c.lru with
    | nil => exact ⟨h, Or.inr hlru⟩
    | cons old rest =>
      simp only
      split_ifs with hmore
      · have hold : old ∈ c.lru := by rw [hlru]; exact mem_cons_self
        have hhash := h.hash_eq old ((h.lru_iff old).mp hold).1
        have hnext : (c.removeKey old.key old.hash (.evicted old.key)).Ok hashOf none none := by
          rw [hhash]
          exact h.removeKey rfl rfl
        have hshort : (c.removeKey old.key old.hash (.evicted old.key)).lru.length ≤ fuel := by
          rw [h.removeKey_lru hold, hlru, filter_cons_of_neg (by simp)]
          grind
        exact ih hnext hshort
      · exact ⟨h, Or.inl (by simpa using hmore)⟩

/-! ### `Insert` -/

section

variable (h : c.Ok hashOf none none)

include h

/-- The new entry belongs to the caller alone. -/
theorem LRUCache.Ok.allocate (hid : e.id = c.created.length) (hhash : e.hash = hashOf e.key) :
    (c.allocate e).Ok hashOf none none := by
  have hne : ∀ y ∈ c.created, y.id ≠ e.id := fun y hy heq => by
    have := h.id_lt hy
    omega
  have hnew : e ∉ c.created := fun he => hne e he rfl
  have hids : (c.created ++ [e]).map LRUHandle.id = List.range (c.created ++ [e]).length := by
    rw [map_append, h.ids, length_append, length_singleton, range_succ, map_singleton, hid]
  have hcache : ∀ y ∈ c.created, update c.inCache e.id false y.id = c.inCache y.id :=
    fun y hy => update_of_ne (hne y hy) _ _
  have hnodup : ((c.created ++ [e]).map LRUHandle.id).Nodup := by
    rw [hids]
    exact nodup_range
  have hat : c.ChangedAt (c.allocate e) e :=
    { created := fun y => mem_append.trans (or_congr_right mem_singleton)
      injective := fun _ hx _ hy => inj_on_of_nodup_map hnodup hx hy
      refs := fun i hi => update_of_ne hi _ _
      inCache := fun i hi => update_of_ne hi _ _ }
  have hself : (c.allocate e).refs e.id = 1 ∧ (c.allocate e).inCache e.id = false :=
    ⟨update_self _ _ _, update_self _ _ _⟩
  have hheld := held_append (c := c.allocate e) (l := c.handles) rfl
  have hheld₀ : c.held e = 0 := by
    rw [held, countP_eq_zero]
    intro y hy
    simpa using hne y (h.handles_mem y hy)
  refine .of_lists
    { h.toTableInv with
      ids := hids, hash_eq := fun y hy => ?_, has_iff := fun y => ?_, pending_mem := nofun
      handles_mem := fun y hy => ?_, usage_eq := ?_ }
    (hat.lists_same h.lists_lru (iff_of_false (fun hp => hnew hp.1) fun hp => ?_))
    (hat.lists_same h.lists_inUse (iff_of_false (fun hp => hnew hp.1) fun hp => ?_))
    (hat.lists_same h.lists_deleted (iff_of_false (fun hp => hnew hp.1) fun hp => ?_))
    (hat.counts h.counts (fun y hy => ?_) ?_)
  · rcases (hat.created y).mp hy with hy | rfl
    · exact h.hash_eq y hy
    · exact hhash
  · refine (h.has_iff y).trans ?_
    grind [ChangedAt]
  · rcases mem_append.mp hy with hy | hy
    · exact mem_append_left _ (h.handles_mem y hy)
    · exact mem_append_right _ hy
  · change c.usage.toNat = (((c.created ++ [e]).filter
      fun x => update c.inCache e.id false x.id).map _).sum
    rw [filter_append, filter_cons_of_neg (by simp), filter_nil, append_nil,
      filter_congr fun x hx => hcache x hx]
    exact h.usage_eq
  · rw [hself.2] at hp
    cases hp.1
  · rw [hself.2] at hp
    cases hp.1
  · rw [hself.1] at hp
    cases hp
  · rw [hheld, if_neg hy.symm]
    rfl
  · rw [hheld, if_pos rfl, hself.1, hself.2]
    change 1 = c.held e + 1 + 0 + 0
    omega

/-- **The new entry enters the cache.** It is in use by the caller, and an older entry with its key is
taken out. -/
theorem LRUCache.Ok.addToCache (hpos : 0 < c.capacity) (he : e ∈ c.created) (hout : c.inCache e.id = false)
    (hone : c.refs e.id = 1) (hcharge : c.chargeSum + e.charge.toNat < 2 ^ 64)
    (helems : c.table.elems < 2 ^ 31) :
    (c.addToCache e).Ok hashOf none none := by
  have hhash := h.hash_eq e he
  have hcount := h.counts e he
  rw [hout, hone, owes_none] at hcount
  obtain ⟨hfst, hok, hhas⟩ := h.table_ok.insert_spec e
  have hle := HandleTable.insert_elems_le h.elems_le helems e
  unfold LRUCache.addToCache
  obtain ⟨⟨old, table⟩, hr⟩ : ∃ r, c.table.insert e = r := ⟨_, rfl⟩
  rw [hr] at hfst hok hhas hle ⊢
  simp only at hfst hok hhas hle ⊢
  obtain ⟨c', hc'⟩ : ∃ c' : LRUCache V, c' = { c with
      refs := update c.refs e.id (c.refs e.id + 1)
      inCache := update c.inCache e.id true
      inUse := c.inUse ++ [e], usage := c.usage + e.charge, table := table
      events := .inserted e :: c.events } := ⟨_, rfl⟩
  rw [← hc']
  have hat : c.ChangedAt c' e := by
    rw [hc']
    exact h.changedAt he rfl (fun i hi => update_of_ne hi _ _)
      fun i hi => update_of_ne hi _ _
  have hself : (c'.refs e.id).toNat = 2 ∧ c'.inCache e.id = true := by
    simp_all
  have hcache : ∀ y ∈ c.created, c'.inCache y.id = true ↔ y = e ∨ c.inCache y.id = true := by
    intro y hy
    by_cases hye : y = e
    · rw [hye, hself.2]
      simp
    · rw [hat.inCache _ (hat.id_ne hy hye), or_iff_right hye]
  -- the entry that is replaced was in the cache, so it is another one
  have hold : ∀ p, old = some p → c.table.Has p ∧ p.tag = e.tag := by
    intro p hp
    rw [hfst, h.table_ok.lookup_eq_some] at hp
    exact ⟨hp.1, LRUHandle.tag_eq_iff.mpr hp.2⟩
  have hhas_ne : ∀ y, c.table.Has y → y ≠ e := by
    rintro y hy rfl
    rw [((h.has_iff y).mp hy).2.1] at hout
    cases hout
  have hsum := h.sum_update he (update_self e.id true c.inCache)
  rw [update_idem, show update c.inCache e.id false = c.inCache from
    by rw [← hout]; exact update_eq_self _ _] at hsum
  have hlru := hat.lists_same h.lists_lru
    (iff_of_false (fun hp => by rw [hout] at hp; cases hp.2.1) fun hp => by have := hp.2; omega)
  have huse := hat.lists_append h.lists_inUse
    (fun hmem => by have := ((h.inUse_iff e).mp hmem).2.1; rw [hout] at this; cases this)
    ⟨hself.2, hself.1.ge⟩
  have hdel := hat.lists_same h.lists_deleted
    (iff_of_false (fun hp => by rw [hone] at hp; cases hp.2) fun hp => by rw [hself.1] at hp; cases hp)
  have hcounts : c'.CountsInv none := by
    refine hat.counts h.counts (fun y _ => by rw [hc']; rfl) ?_
    rw [hself.1, hself.2, hc', owes_none, Bool.toNat_true]
    change 1 = c.held e + 0 + 0 at hcount
    change 2 = c.held e + 1 + 0
    omega
  have htable : c'.TableInv hashOf old := by
    refine
      { ids := by rw [hc']; exact h.ids, hash_eq := by rw [hc']; exact h.hash_eq
        table_ok := by rw [hc']; exact hok, elems_le := by rw [hc']; exact hle
        handles_mem := by rw [hc']; exact h.handles_mem
        has_iff := fun y => ?_, pending_mem := fun p hp => ?_, usage_eq := ?_, latest_eq := fun _ key => ?_
        empty := fun hzero => by rw [hc'] at hzero; exact absurd hzero (UInt64.pos_iff_ne_zero.mp hpos) }
    · have hrest : c'.table.Has y ↔ y = e ∨ c.table.Has y ∧ y.tag ≠ e.tag := by
        rw [hc']
        exact hhas y
      have hmem : y ∈ c'.created ↔ y ∈ c.created := by rw [hc']
      rw [hrest, hmem]
      constructor
      · rintro (rfl | ⟨hy, htag⟩)
        · grind
        · obtain ⟨hy₁, hy₂, -⟩ := (h.has_iff y).mp hy
          grind
      · rintro ⟨hy, hy₁, hy₂⟩
        refine ((hcache y hy).mp hy₁).imp_right fun hy₁ => ?_
        have hyh : c.table.Has y := (h.has_iff y).mpr ⟨hy, hy₁, by simp⟩
        refine ⟨hyh, fun htag => hy₂ ?_⟩
        rw [hfst, h.table_ok.lookup_eq_some]
        exact ⟨hyh, LRUHandle.tag_eq_iff.mp htag⟩
    · obtain ⟨hp₁, hp₂, -⟩ := (h.has_iff p).mp (hold p hp).1
      grind
    · have husage := h.usage_eq
      rw [hc']
      grind [UInt64.toNat_add, chargeSum]
    · rw [hc']
      change table.lookup key (hashOf key) = if e.key = key then some e else latest key c.events
      split_ifs with heq
      · grind [HandleTable.Ok.lookup_eq_some]
      · rw [← h.latest_eq hpos key]
        refine hok.lookup_congr h.table_ok fun y hy _ => ?_
        rw [hhas]
        constructor
        · grind
        · refine fun hy' => Or.inr ⟨hy', fun htag => heq ?_⟩
          exact (LRUHandle.tag_eq_iff.mp htag).1.symm.trans hy
  subst hc'
  exact .finishErase (.of_lists htable hlru huse hdel hcounts)

/-- **`Insert`** keeps the invariant and ends within the capacity, or with nothing left to evict. -/
theorem LRUCache.Ok.insert (key : Slice) (value : V) (charge : UInt64)
    (hcharge : c.chargeSum + charge.toNat < 2 ^ 64) (helems : c.table.elems < 2 ^ 31) :
    (c.insert key (hashOf key) value charge).Ok hashOf none none ∧
      ((c.insert key (hashOf key) value charge).usage ≤
          (c.insert key (hashOf key) value charge).capacity ∨
        (c.insert key (hashOf key) value charge).lru = []) := by
  obtain ⟨e, he⟩ : ∃ e : LRUHandle V, e = ⟨c.created.length, key, hashOf key, value, charge⟩ :=
    ⟨_, rfl⟩
  have halloc : (c.allocate e).Ok hashOf none none := h.allocate (by rw [he]) (by rw [he])
  have hsum : (c.allocate e).chargeSum = c.chargeSum := by
    rw [← h.usage_eq, ← halloc.usage_eq]
    rfl
  have hadd : (if 0 < (c.allocate e).capacity then (c.allocate e).addToCache e
      else { c.allocate e with events := .inserted e :: (c.allocate e).events }).Ok hashOf none none := by
    split_ifs with hpos
    · refine halloc.addToCache hpos (mem_append_right _ (mem_singleton_self e))
        (update_self _ _ _) (update_self _ _ _) ?_ helems
      rw [hsum, he]
      exact hcharge
    · exact { halloc with latest_eq := fun h => absurd h hpos }
  grind [evictLoop, LRUCache.insert]

/-! ### `Release` -/

/-- A caller gives up a handle: its reference is owed. -/
theorem LRUCache.Ok.giveUp {i : ℕ} (hi : c.handles[i]? = some e) :
    ({ c with handles := c.handles.eraseIdx i } : LRUCache V).Ok hashOf none (some e) ∧
      e ∈ c.created := by
  obtain ⟨hlt, hget⟩ := List.getElem?_eq_some_iff.mp hi
  have hmem : e ∈ c.handles := mem_of_getElem? hi
  have hperm : (e :: c.handles.eraseIdx i).Perm c.handles := by
    rw [← hget]
    exact getElem_cons_eraseIdx_perm hlt
  have he : e ∈ c.created := h.handles_mem e hmem
  refine ⟨{ h with handles_mem := ?_, counts := ?_ }, he⟩
  · exact fun y hy => h.handles_mem y (mem_of_mem_eraseIdx hy)
  · intro y hy
    have hcount := h.counts y hy
    have hheld : c.held y = ({ c with handles := c.handles.eraseIdx i } : LRUCache V).held y +
        owes (some e) y := by
      rw [held, held, ← hperm.countP_eq, countP_cons, owes]
      simp
    grind [owes_none]

end

/-! ## Runs -/

/-- The machine integers hold what the operation does: `size_t usage_` the sum of the charges,
`uint32_t elems_` the number of entries and `uint32_t refs` the references of an entry. -/
def CacheOp.Fits (hashOf : Slice → UInt32) (c : LRUCache V) : CacheOp V → Prop
  | .insert _ _ charge => c.chargeSum + charge.toNat < 2 ^ 64 ∧ c.table.elems < 2 ^ 31
  | .lookup key =>
    ∀ e, c.table.lookup key (hashOf key) = some e → (c.refs e.id).toNat + 1 < 2 ^ 32
  | .release _ => True
  | .erase _ => True
  | .prune => True

/-- **Every call keeps the invariant**, as long as the machine integers do not wrap. -/
theorem LRUCache.Ok.step {op : CacheOp V} {c' : LRUCache V} (h : c.Ok hashOf none none)
    (hfits : op.Fits hashOf c) (hstep : c.step hashOf op = some c') :
    c'.Ok hashOf none none := by
  cases op with
  | insert key value charge =>
    cases hstep
    exact (h.insert key value charge hfits.1 hfits.2).1
  | lookup key =>
    cases hstep
    unfold LRUCache.lookup
    cases hl : c.table.lookup key (hashOf key) with
    | none => exact h
    | some e =>
      obtain ⟨he, hin, -⟩ := (h.has_iff e).mp (h.table_ok.lookup_eq_some.mp hl).1
      exact h.acquire he hin (hfits e hl)
  | release i =>
    rw [LRUCache.step] at hstep
    split at hstep
    · cases hstep
    · rename_i e hi
      cases hstep
      obtain ⟨howed, he⟩ := h.giveUp hi
      exact howed.unref he
  | erase key =>
    cases hstep
    exact h.removeKey rfl rfl
  | prune =>
    cases hstep
    exact (evictLoop (fun _ => true) h le_rfl).1

theorem LRUCache.ok_new (hashOf : Slice → UInt32) (capacity : UInt64) :
    (LRUCache.new capacity : LRUCache V).Ok hashOf none none := by
  obtain ⟨hok, hnone⟩ := HandleTable.new_spec (V := V)
  exact
    { ids := rfl, hash_eq := by simp [new], table_ok := hok
      elems_le := Nat.zero_le _
      has_iff := fun e => ⟨fun he => absurd he (hnone e), fun he => by cases he.1⟩
      pending_mem := fun p hp => by cases hp
      handles_mem := by simp [new], usage_eq := rfl
      latest_eq := fun _ key => hok.lookup_eq_none.mpr fun e he => absurd he (hnone e)
      empty := fun _ => hnone
      lru_iff := by simp [new], inUse_iff := by simp [new]
      lru_nodup := nodup_nil, inUse_nodup := nodup_nil
      deleted_iff := by simp [new], deleted_nodup := nodup_nil
      counts := by simp [new, LRUCache.CountsInv] }

/-- What holds of a shard between operations. -/
structure LRUCache.Invariant (hashOf : Slice → UInt32) (c : LRUCache V) : Prop where
  /-- The table of a shard with capacity finds the entry most recently inserted for a key and not erased or
  evicted since, and no other. -/
  lookup_eq : 0 < c.capacity → ∀ key, c.table.lookup key (hashOf key) = latest key c.events
  /-- A shard without capacity keeps nothing. -/
  lookup_none : c.capacity = 0 → ∀ key, c.table.lookup key (hashOf key) = none
  /-- An entry is in the cache iff it is in the table. -/
  inCache_iff : ∀ e ∈ c.created, c.inCache e.id = true ↔ c.table.lookup e.key e.hash = some e
  /-- An entry of the cache is on exactly one list. -/
  lists : ∀ e ∈ c.created, c.inCache e.id = true →
    (c.refs e.id = 1 ∧ e ∈ c.lru ∧ e ∉ c.inUse) ∨ (2 ≤ c.refs e.id ∧ e ∈ c.inUse ∧ e ∉ c.lru)
  /-- Only entries of the cache are on the lists, each once. -/
  listed : (c.lru ++ c.inUse).Nodup ∧ ∀ e ∈ c.lru ++ c.inUse, e ∈ c.created ∧ c.inCache e.id = true
  /-- `usage_` is the sum of the charges of the entries in the cache. -/
  usage_eq : c.usage.toNat = c.chargeSum
  /-- The deleter has run for exactly the entries that neither the cache nor a caller refers to. -/
  deleted_iff : ∀ e ∈ c.created, e ∈ c.deleted ↔ c.inCache e.id = false ∧ c.held e = 0
  /-- No deleter has run twice. -/
  deleted_nodup : c.deleted.Nodup

theorem LRUCache.Ok.invariant (h : c.Ok hashOf none none) : c.Invariant hashOf where
  lookup_eq := h.latest_eq
  lookup_none hzero key := h.table_ok.lookup_eq_none.mpr fun e he => absurd he (h.empty hzero e)
  inCache_iff e he := by
    rw [h.table_ok.lookup_eq_some, h.has_iff]
    simp [he]
  lists e he hin := by
    have hcount := h.counts e he
    rw [owes_none, hin, Bool.toNat_true] at hcount
    rcases Nat.lt_or_ge 1 (c.refs e.id).toNat with hlt | hle
    · refine Or.inr ⟨UInt32.le_iff_toNat_le.mpr hlt, (h.inUse_iff e).mpr ⟨he, hin, hlt⟩, ?_⟩
      intro hlru
      have := ((h.lru_iff e).mp hlru).2.2
      omega
    · have hone : (c.refs e.id).toNat = 1 := by omega
      refine Or.inl ⟨UInt32.toNat_inj.mp hone, (h.lru_iff e).mpr ⟨he, hin, hone⟩, ?_⟩
      intro huse
      have := ((h.inUse_iff e).mp huse).2.2
      omega
  listed := by
    refine ⟨nodup_append.mpr ⟨h.lru_nodup, h.inUse_nodup, fun x hx y hy hxy => ?_⟩,
      fun e he => ?_⟩
    · subst hxy
      have h₁ := ((h.lru_iff x).mp hx).2.2
      have h₂ := ((h.inUse_iff x).mp hy).2.2
      omega
    · rcases mem_append.mp he with he | he
      · exact ⟨((h.lru_iff e).mp he).1, ((h.lru_iff e).mp he).2.1⟩
      · exact ⟨((h.inUse_iff e).mp he).1, ((h.inUse_iff e).mp he).2.1⟩
  usage_eq := h.usage_eq
  deleted_iff e he := by
    have hcount := h.counts e he
    rw [owes_none] at hcount
    rw [h.deleted_iff]
    grind
  deleted_nodup := h.deleted_nodup

/-- **The invariant of the cache.** For every capacity and every sequence of operations in which the
machine integers do not wrap: after each operation the table, the lists, the usage and the deleters are
as they should be, and an `Insert` ends within the capacity or with `lru_` empty. -/
theorem LRUCache.invariant_of_run (hashOf : Slice → UInt32) (capacity : UInt64)
    (ops : List (CacheOp V)) (c : LRUCache V)
    (hgood : Transition.Along (LRUCache.step hashOf) (fun c op => op.Fits hashOf c)
      (.new capacity) ops)
    (hrun : Transition.run (LRUCache.step hashOf) (.new capacity) ops = some c) :
    c.Invariant hashOf ∧
      ∀ key value charge, (CacheOp.insert key value charge).Fits hashOf c →
        (c.insert key (hashOf key) value charge).usage ≤
            (c.insert key (hashOf key) value charge).capacity ∨
          (c.insert key (hashOf key) value charge).lru = [] := by
  have hstep : ∀ (c : LRUCache V) op c', c.Ok hashOf none none → op.Fits hashOf c →
      c.step hashOf op = some c' → c'.Ok hashOf none none :=
    fun _ _ _ h hfits hstep => h.step hfits hstep
  have hok := Transition.run_induction hstep (ok_new hashOf capacity) hgood hrun
  exact ⟨hok.invariant, fun key value charge hfits =>
    (hok.insert key value charge hfits.1 hfits.2).2⟩

/-- A hash function for examples. -/
def lengthHash (key : Slice) : UInt32 := UInt32.ofNat key.length

/-- Insert `a`, look it up, release both handles, insert `a` again, and evict the first by a large
entry `b`. -/
def evictionRun : List (CacheOp ℕ) :=
  [.insert (ascii "a") 1 4, .lookup (ascii "a"), .release 0, .release 0, .insert (ascii "a") 2 4,
    .release 0, .insert (ascii "b") 3 8, .erase (ascii "b"), .prune]

instance CacheOp.decidableFits (hashOf : Slice → UInt32) (c : LRUCache V) (op : CacheOp V) :
    Decidable (op.Fits hashOf c) :=
  match op with
  | .insert _ _ _ => inferInstanceAs (Decidable (_ ∧ _))
  | .lookup key =>
    match h : c.table.lookup key (hashOf key) with
    | none => isTrue fun e he => by rw [h] at he; cases he
    | some e => decidable_of_iff ((c.refs e.id).toNat + 1 < 2 ^ 32)
        ⟨fun hlt x hx => by rw [h] at hx; cases hx; exact hlt, fun hall => hall e h⟩
  | .release _ => isTrue trivial
  | .erase _ => isTrue trivial
  | .prune => isTrue trivial

/-- The run deletes both entries of `a`, in order, and keeps `b` for its holder. -/
theorem LRUCache.invariant_of_evictionRun :
    ∃ c, Transition.run (LRUCache.step lengthHash) (.new 10) evictionRun = some c ∧
      c.deleted.map LRUHandle.value = [1, 2] ∧ c.handles.map LRUHandle.value = [3] ∧
      c.Invariant lengthHash := by
  obtain ⟨c, hrun, hdel, hheld⟩ :
      ∃ c, Transition.run (step lengthHash) (.new 10) evictionRun = some c ∧
        c.deleted.map LRUHandle.value = [1, 2] ∧ c.handles.map LRUHandle.value = [3] :=
    Transition.reaches_of_any (by decide +kernel)
  exact ⟨c, hrun, hdel, hheld,
    (invariant_of_run lengthHash 10 evictionRun c (by decide +kernel) hrun).1⟩

/-- **`usage_` wraps**: two entries with charges `2 ^ 64 - 1` and 1, both in use, give a usage of 0. -/
theorem LRUCache.usage_wraps :
    ∃ c, Transition.run (LRUCache.step lengthHash) (.new 10)
        [.insert (ascii "a") 1 (UInt64.ofNat (2 ^ 64 - 1)), .insert (ascii "b") 2 1] = some c ∧
      c.usage = 0 ∧ c.chargeSum = 2 ^ 64 :=
  Transition.reaches_of_any (by decide +kernel)

end RocketDb
