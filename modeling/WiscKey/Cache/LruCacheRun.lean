import WiscKey.Cache.LruCacheSpec

/-!
# Runs of the LRU cache

The users of a shard call its functions in any order. Each handle that `Insert` or `Lookup` gives
them is held until they release it.
-/

namespace WiscKey

/-- The calls of a shard. -/
inductive CacheCall
  | insert (key : Bytes) (value charge deleter : UInt64)
  | lookup (key : Bytes)
  | release (n : Nat)
  | erase (key : Bytes)
  | prune
  deriving DecidableEq, Repr

/-- A shard with the handles that are not yet released, each as often as it was given. -/
structure Shard where
  cache : LRUCache
  held : List Nat

/-- What a call does; `hash` is the hash function of the users. -/
def CacheCall.run (hash : Bytes → Nat) (s : Shard) : CacheCall → Option Shard
  | insert key value charge deleter => do
    let (c, n) ← s.cache.insert key (hash key) value charge deleter
    return ⟨c, n :: s.held⟩
  | lookup key => do
    let (c, r) ← s.cache.lookup key (hash key)
    return ⟨c, r.toList ++ s.held⟩
  | release n => do
    let c ← s.cache.release n
    return ⟨c, s.held.erase n⟩
  | erase key => do
    let c ← s.cache.erase key (hash key)
    return ⟨c, s.held⟩
  | prune => do
    let c ← s.cache.prune
    return ⟨c, s.held⟩

/-- A handle is released by one who holds it. -/
def CacheCall.Allowed (s : Shard) : CacheCall → Prop
  | release n => n ∈ s.held
  | _ => True

instance (s : Shard) : (call : CacheCall) → Decidable (call.Allowed s)
  | .release n => inferInstanceAs (Decidable (n ∈ s.held))
  | .insert .. | .lookup _ | .erase _ | .prune => inferInstanceAs (Decidable True)

/-- One more reference of any handle fits into its 32 bits. -/
def Shard.Fits (s : Shard) : Prop := ∀ n, s.held.count n + 2 < 2 ^ 32

/-- The states that calls lead to from an empty shard. -/
inductive Shard.Reachable (hash : Bytes → Nat) (capacity : Nat) : Shard → Prop
  | new : Reachable hash capacity ⟨.new capacity, []⟩
  | call {s s' : Shard} (call : CacheCall) (h : Reachable hash capacity s) (hfits : s.Fits)
      (hallowed : call.Allowed s) (hrun : call.run hash s = some s') : Reachable hash capacity s'

/-- What holds of a shard whose two lists are given. -/
structure Shard.Inv (s : Shard) (lru inUse : List Nat) : Prop where
  rings : Rings s.cache lru inUse
  cached : ∀ n, n ∈ s.cache.table.members ↔ ∃ e, s.cache.handles n = some e ∧ e.inCache = true
  onePerKey : s.cache.table.members.Nodup ∧ ∀ n ∈ s.cache.table.members,
    ∀ m ∈ s.cache.table.members, ∀ e f, s.cache.handles n = some e → s.cache.handles m = some f →
      e.key = f.key → n = m
  onLru : ∀ n, n ∈ lru ↔ ∃ e, s.cache.handles n = some e ∧ e.inCache = true ∧ e.refs = 1
  onInUse : ∀ n, n ∈ inUse ↔ ∃ e, s.cache.handles n = some e ∧ e.inCache = true ∧ 2 ≤ e.refs
  refs : ∀ n e, s.cache.handles n = some e → 0 < e.refs ∧
    e.refs = s.held.count n + e.inCache.toNat
  usage : s.cache.usage = (s.cache.table.members.map (chargeOf s.cache.handles)).sum % 2 ^ 64
  deletedOnce : (s.cache.deleted.map Prod.fst).Nodup
  deletedRefs : ∀ d ∈ s.cache.deleted, d.2.refs = 0
  deleted : ∀ n, n ∈ s.cache.deleted.map Prod.fst ↔
    n < s.cache.allocated ∧ n ∉ s.held ∧ n ∉ s.cache.table.members
  gone : ∀ n, s.cache.handles n = none ↔
    s.cache.allocated ≤ n ∨ n ∈ s.cache.deleted.map Prod.fst

/-- Whatever is inserted next, the usage fits after it or all handles in the cache are in use. -/
def Shard.Evicts (hash : Bytes → Nat) (s : Shard) : Prop :=
  ∀ key value charge deleter c n, s.cache.insert key (hash key) value charge deleter = some (c, n) →
    c.usage ≤ c.capacity ∨ c.next .lru = .lru

/-- Every call returns, unless the table has 2^31 handles. -/
def Shard.Progresses (hash : Bytes → Nat) (s : Shard) : Prop :=
  s.Fits → s.cache.table.members.length < 2 ^ 31 →
    ∀ call : CacheCall, call.Allowed s → ∃ s', call.run hash s = some s'

variable {hash : Bytes → Nat} {capacity : Nat} {s s' : Shard} {lru inUse : List Nat}

/-- A call keeps the invariant, and returns unless the table is too large. -/
theorem ShardOk.run (ok : ShardOk hash s.cache s.held lru inUse) (hfits : s.Fits) (call : CacheCall)
    (hallowed : call.Allowed s) :
    (call.run hash s = none ∧ 2 ^ 31 ≤ s.cache.table.elems) ∨ ∃ s' lru' inUse',
      call.run hash s = some s' ∧ ShardOk hash s'.cache s'.held lru' inUse' := by
  cases call with
  | insert key value charge deleter =>
    rcases ok.insert key value charge deleter with
      ⟨hinsert, hmany⟩ | ⟨c', lru', inUse', hinsert, hok, -⟩
    · exact .inl ⟨by rw [CacheCall.run, hinsert]; rfl, hmany⟩
    · exact .inr ⟨_, lru', inUse', by rw [CacheCall.run, hinsert]; rfl, hok⟩
  | lookup key =>
    obtain ⟨c', r, lru', inUse', hlookup, hok, -⟩ := ok.lookup key (hash key) hfits
    exact .inr ⟨_, lru', inUse', by rw [CacheCall.run, hlookup]; rfl, hok⟩
  | release n =>
    obtain ⟨c', lru', inUse', hrelease, hok⟩ := ok.release hallowed
    exact .inr ⟨_, lru', inUse', by rw [CacheCall.run, hrelease]; rfl, hok⟩
  | erase key =>
    obtain ⟨c', lru', inUse', herase, hok⟩ := ok.erase key (hash key)
    exact .inr ⟨_, lru', inUse', by rw [CacheCall.run, herase]; rfl, hok⟩
  | prune =>
    obtain ⟨c', hprune, hok⟩ := ok.prune
    exact .inr ⟨_, [], inUse, by rw [CacheCall.run, hprune]; rfl, hok⟩

theorem Shard.Reachable.ok (h : Shard.Reachable hash capacity s) :
    ∃ lru inUse, ShardOk hash s.cache s.held lru inUse := by
  induction h with
  | new => exact ⟨[], [], shardOk_new hash capacity⟩
  | call call _ hfits hallowed hrun ih =>
    obtain ⟨lru, inUse, ok⟩ := ih
    rcases ok.run hfits call hallowed with ⟨hnone, -⟩ | ⟨s', lru', inUse', hrun', hok⟩
    · cases hnone.symm.trans hrun
    · rw [Option.some.inj (hrun.symm.trans hrun')]
      exact ⟨lru', inUse', hok⟩

/-- The invariant of the proofs says what is known of a shard. -/
theorem ShardOk.inv (ok : ShardOk hash s.cache s.held lru inUse) : s.Inv lru inUse := by
  have hmember : ∀ n, n ∈ s.cache.table.members ↔
      ∃ e, s.cache.handles n = some e ∧ e.inCache = true := by
    intro n
    rw [ok.members.mem_iff]
    constructor
    · intro hn
      obtain ⟨e, he, hcached, -⟩ := ok.cache.listed_live hn
      exact ⟨e, he, hcached⟩
    · rintro ⟨e, he, hcached⟩
      exact ((ok.cache.each n).live he).listed hcached
  have hdeleted : ∀ n, n ∈ s.cache.deleted.map Prod.fst ↔
      s.cache.handles n = none ∧ n < s.cache.allocated := by
    intro n
    cases hn : s.cache.handles n with
    | none => simpa using ((ok.cache.each n).gone hn).deleted
    | some e => simpa using ((ok.cache.each n).live hn).notDeleted
  refine ⟨ok.cache.rings, hmember, ⟨ok.table.nodup, ?_⟩, ?_, ?_, ?_, ?_, ok.cache.deletedNodup,
    ok.cache.deletedRefs, ?_, ?_⟩
  · intro n hn m hm e f he hf hkey
    have hhash : e.hash = f.hash := by
      rw [((ok.cache.each n).live he).hashed, ((ok.cache.each m).live hf).hashed, hkey]
    exact ok.table.unique n hn m hm e.key e.hash ⟨e, he, rfl, rfl⟩ ⟨f, hf, hhash.symm, hkey.symm⟩
  · intro n
    constructor
    · intro hn
      obtain ⟨e, he, -, hlive⟩ := ok.cache.listed_live (List.mem_append_left inUse hn)
      exact ⟨e, he, hlive.onLru.mp hn⟩
    · rintro ⟨e, he, hone⟩
      exact ((ok.cache.each n).live he).onLru.mpr hone
  · intro n
    constructor
    · intro hn
      obtain ⟨e, he, -, hlive⟩ := ok.cache.listed_live (List.mem_append_right lru hn)
      exact ⟨e, he, hlive.onInUse.mp hn⟩
    · rintro ⟨e, he, htwo⟩
      exact ((ok.cache.each n).live he).onInUse.mpr htwo
  · intro n e he
    have hlive := (ok.cache.each n).live he
    exact ⟨hlive.pos, hlive.refs⟩
  · rw [ok.cache.usage, usageOf, (ok.members.map _).sum_eq]
  · intro n
    rw [hdeleted]
    constructor
    · rintro ⟨hnone, hlt⟩
      refine ⟨hlt, ((ok.cache.each n).gone hnone).notHeld, fun hn => ?_⟩
      obtain ⟨e, he, -⟩ := (hmember n).mp hn
      cases he.symm.trans hnone
    · rintro ⟨hlt, hheld, hn⟩
      refine ⟨?_, hlt⟩
      cases he : s.cache.handles n with
      | none => rfl
      | some e =>
        -- the handle would have no references
        have hlive := (ok.cache.each n).live he
        have hcached : e.inCache = false :=
          Bool.eq_false_iff.mpr fun hcached => hn ((hmember n).mpr ⟨e, he, hcached⟩)
        have hrefs := hlive.refs
        rw [List.count_eq_zero.mpr hheld, hcached, Bool.toNat_false] at hrefs
        exact absurd hlive.pos (by omega)
  · intro n
    rw [hdeleted]
    constructor
    · intro hnone
      exact (Nat.lt_or_ge n s.cache.allocated).elim (fun hlt => .inr ⟨hnone, hlt⟩) .inl
    · rintro (hle | ⟨hnone, -⟩)
      · cases he : s.cache.handles n with
        | none => rfl
        | some e => exact absurd ((ok.cache.each n).live he).allocated (Nat.not_lt_of_le hle)
      · exact hnone

theorem ShardOk.evicts (ok : ShardOk hash s.cache s.held lru inUse) : s.Evicts hash := by
  intro key value charge deleter c n hinsert
  rcases ok.insert key value charge deleter with
    ⟨hnone, -⟩ | ⟨c', lru', inUse', hinsert', hok, hend⟩
  · cases hnone.symm.trans hinsert
  · obtain ⟨rfl, -⟩ := Prod.mk.inj (Option.some.inj (hinsert.symm.trans hinsert'))
    refine (Nat.lt_or_ge c.capacity c.usage).elim (fun hlt => .inr ?_) .inl
    have hnext := hok.cache.rings.next_lru
    rw [hend hlt] at hnext
    exact hnext

theorem ShardOk.progresses (ok : ShardOk hash s.cache s.held lru inUse) : s.Progresses hash := by
  intro hfits hfew call hallowed
  rcases ok.run hfits call hallowed with ⟨-, hmany⟩ | ⟨s', -, -, hrun, -⟩
  · rw [ok.table.elems] at hmany
    exact absurd hfew (Nat.not_lt_of_le hmany)
  · exact ⟨s', hrun⟩

/-- A shard after one more call, if it returns. -/
def Shard.after (hash : Bytes → Nat) (s : Shard) (call : CacheCall) : Shard :=
  (call.run hash s).getD s

theorem Shard.Reachable.after (h : Shard.Reachable hash capacity s) (call : CacheCall)
    (hfits : s.Fits) (hallowed : call.Allowed s) (hrun : (call.run hash s).isSome = true) :
    Shard.Reachable hash capacity (s.after hash call) := by
  obtain ⟨s', hs'⟩ := Option.isSome_iff_exists.mp hrun
  refine h.call call hfits hallowed ?_
  rw [Shard.after, hs', Option.getD_some]

theorem fits_of_length {l : List Nat} (hl : l.length ≤ 2) (n : Nat) : l.count n + 2 < 2 ^ 32 := by
  have hcount := List.count_le_length (a := n) (l := l)
  omega

/-- An entry that is held. -/
def oneEntry (charge : UInt64) : Shard :=
  (Shard.mk (.new 1) []).after List.length (.insert [1] 0 charge 0)

/-- Two entries that are held. -/
def twoEntries (charge : UInt64) : Shard :=
  (oneEntry charge).after List.length (.insert [2, 2] 0 charge 0)

theorem oneEntry_reachable (charge : UInt64)
    (hrun : ((CacheCall.insert [1] 0 charge 0).run List.length ⟨.new 1, []⟩).isSome = true) :
    Shard.Reachable List.length 1 (oneEntry charge) :=
  Shard.Reachable.new.after _ (fits_of_length (Nat.zero_le _)) True.intro hrun

/-- After any calls the counts, the lists, the table, the usage and the deleters are right. -/
theorem lruCache_invariant (hash : Bytes → Nat) (capacity : Nat) {s : Shard}
    (h : Shard.Reachable hash capacity s) :
    (∃ lru inUse, s.Inv lru inUse) ∧ s.Evicts hash ∧ s.Progresses hash := by
  obtain ⟨lru, inUse, ok⟩ := h.ok
  exact ⟨⟨lru, inUse, ok.inv⟩, ok.evicts, ok.progresses⟩

/-- The entry is overwritten, and both handles of its key are released. -/
def overwrittenEntry : Shard :=
  (((oneEntry 1).after List.length (.insert [1] 7 1 0)).after List.length (.release 0)).after
    List.length (.release 1)

/-- Another entry takes the whole capacity. -/
def evictedEntry : Shard :=
  overwrittenEntry.after List.length (.insert [2, 2] 0 1 0)

theorem evictedEntry_reachable : Shard.Reachable List.length 1 evictedEntry := by
  have hone := oneEntry_reachable 1 (by decide +kernel)
  have htwo := hone.after (.insert [1] 7 1 0) (fits_of_length (by decide +kernel))
    True.intro (by decide +kernel)
  have hfirst := htwo.after (.release 0) (fits_of_length (by decide +kernel))
    (by decide +kernel) (by decide +kernel)
  have hboth := hfirst.after (.release 1) (fits_of_length (by decide +kernel))
    (by decide +kernel) (by decide +kernel)
  exact hboth.after _ (fits_of_length (by decide +kernel)) True.intro (by decide +kernel)

/-- The first handle is deleted when it is released, the second is evicted by the third. -/
theorem lruCache_invariant_evictedEntry :
    (evictedEntry.cache.deleted.map Prod.fst = [0, 1] ∧ evictedEntry.held = [2] ∧
      evictedEntry.cache.usage = 1) ∧
    (∃ lru inUse, evictedEntry.Inv lru inUse) ∧ evictedEntry.Evicts List.length ∧
      evictedEntry.Progresses List.length :=
  ⟨by decide +kernel, lruCache_invariant _ 1 evictedEntry_reachable⟩

/-- Two entries with a charge of 2^63 each are counted as nothing. -/
theorem usage_overflows : ∃ s, Shard.Reachable List.length 1 s ∧
    (s.cache.table.members.map (chargeOf s.cache.handles)).sum = 2 ^ 64 ∧ s.cache.usage = 0 := by
  have hone := oneEntry_reachable (2 ^ 63) (by decide +kernel)
  refine ⟨twoEntries (2 ^ 63), hone.after _ (fits_of_length ?_) True.intro ?_, ?_, ?_⟩
  · decide +kernel
  · decide +kernel
  · decide +kernel
  · decide +kernel

end WiscKey
