import WiscKey.Cache.LruCacheOps
import Mathlib.Data.List.Perm.Subperm

/-!
# The LRU cache with its table

The members of the table are the handles on the two lists. Every function of the cache keeps this
and the invariant, and returns; but a table of 2^31 handles does not find a length when it grows.
-/

namespace WiscKey

variable {hash : Bytes → Nat} {c c' : LRUCache} {held lru inUse rest : List Nat} {n : Nat}
  {e : LRUHandle} {t : HandleTable} {key : Bytes} {h : Nat}

/-- The invariant of the cache with its table. -/
structure ShardOk (hash : Bytes → Nat) (c : LRUCache) (held lru inUse : List Nat) : Prop where
  cache : CacheOk hash c held lru inUse
  table : TableOk c.handles c.table
  members : c.table.members.Perm (lru ++ inUse)

theorem shardOk_new (hash : Bytes → Nat) (capacity : Nat) :
    ShardOk hash (.new capacity) [] [] [] := by
  refine ⟨⟨⟨⟨rfl, rfl, ?_⟩, ⟨rfl, rfl, ?_⟩, .nil⟩, fun n => handleOk_none rfl ?_, rfl, .nil, ?_⟩,
    tableOk_new _, .refl _⟩
  · exact List.nodup_singleton _
  · exact List.nodup_singleton _
  · refine ⟨List.not_mem_nil, List.not_mem_nil, List.not_mem_nil, ?_⟩
    exact iff_of_false List.not_mem_nil (Nat.not_lt_zero n)
  · exact fun d hd => absurd hd List.not_mem_nil

/-- The invariant of the handles is not about the table. -/
theorem CacheOk.setTable (ok : CacheOk hash c held lru inUse) (t : HandleTable) :
    CacheOk hash { c with table := t } held lru inUse :=
  ⟨ok.rings.congr rfl rfl, fun n => (ok.each n).congr rfl rfl Iff.rfl Iff.rfl Iff.rfl Iff.rfl,
    ok.usage, ok.deletedNodup, ok.deletedRefs⟩

/-- The handle that a table gave up is erased from the cache. -/
theorem CacheOk.finishErase_table (ok : CacheOk hash c held lru inUse)
    (htable : TableOk c.handles t) (hperm : (lru ++ inUse).Perm (n :: rest))
    (hmembers : t.members.Perm rest) :
    ∃ c', ({ c with table := t } : LRUCache).finishErase (some n) = some (c', true) ∧
      ShardOk hash c' held (lru.erase n) (inUse.erase n) ∧ c'.capacity = c.capacity ∧
      c'.allocated = c.allocated := by
  have hn : n ∈ lru ++ inUse := hperm.mem_iff.mpr List.mem_cons_self
  obtain ⟨c', hfinish, hok, hframe⟩ := (ok.setTable t).finishErase hn
  refine ⟨c', hfinish, ⟨hok, ?_, ?_⟩, hframe.capacity, hframe.allocated⟩
  · rw [hframe.table]
    refine htable.congr fun m hm e he => ⟨e, ?_, rfl, rfl⟩
    rw [hframe.others m ?_]
    · exact he
    · rintro rfl
      exact (List.nodup_cons.mp (hperm.nodup ok.rings.nodup)).1 (hmembers.mem_iff.mp hm)
  · rw [hframe.table]
    exact hmembers.trans (hperm.symm.trans (ok.rings.perm_erase hn)).cons_inv

/-- Removing a key and a hash: the handle that has them goes, if there is one. -/
theorem ShardOk.remove (ok : ShardOk hash c held lru inUse) (key : Bytes) (h : Nat) :
    (∃ n t c', n ∈ lru ++ inUse ∧ Named c.handles key h n ∧
        c.table.remove c.handles key h = some (t, some n) ∧
        ({ c with table := t } : LRUCache).finishErase (some n) = some (c', true) ∧
        ShardOk hash c' held (lru.erase n) (inUse.erase n) ∧ c'.capacity = c.capacity ∧
        c'.allocated = c.allocated) ∨
      ((∀ n ∈ lru ++ inUse, ¬ Named c.handles key h n) ∧
        c.table.remove c.handles key h = some (c.table, none)) := by
  rcases HandleTable.remove_spec ok.table key h with
    ⟨n, rest, t, hperm, hnamed, hremove, htable, hrest⟩ | ⟨hnone, hremove⟩
  · have hlists := ok.members.symm.trans hperm
    obtain ⟨c', hfinish, hok, hcapacity, hallocated⟩ :=
      ok.cache.finishErase_table htable hlists hrest
    exact .inl ⟨n, t, c', hlists.mem_iff.mpr List.mem_cons_self, hnamed, hremove, hfinish, hok,
      hcapacity, hallocated⟩
  · exact .inr ⟨fun n hn => hnone n (ok.members.mem_iff.mpr hn), hremove⟩

/-- `Erase`. -/
theorem ShardOk.erase (ok : ShardOk hash c held lru inUse) (key : Bytes) (h : Nat) :
    ∃ c' lru' inUse', c.erase key h = some c' ∧ ShardOk hash c' held lru' inUse' := by
  rw [LRUCache.erase]
  rcases ok.remove key h with ⟨n, t, c', -, -, hremove, hfinish, hok, -⟩ | ⟨-, hremove⟩
  · refine ⟨c', _, _, ?_, hok⟩
    simp only [Option.bind_eq_bind, hremove, Option.bind_some, hfinish, Option.pure_def]
  · refine ⟨c, lru, inUse, ?_, ok⟩
    simp only [Option.bind_eq_bind, hremove, Option.bind_some, LRUCache.finishErase,
      Option.pure_def]

/-- What an operation on one handle leaves of the table. -/
theorem ShardOk.frame {held' lru' inUse' : List Nat} (ok : ShardOk hash c held lru inUse)
    (hok : CacheOk hash c' held' lru' inUse') (hperm : (lru' ++ inUse').Perm (lru ++ inUse))
    (hframe : CacheFrame c c' n) (hlive : n ∈ lru ++ inUse → ∃ e, c'.handles n = some e) :
    ShardOk hash c' held' lru' inUse' := by
  refine ⟨hok, ?_, ?_⟩
  · rw [hframe.table]
    refine ok.table.congr fun m hm e he => ?_
    by_cases hmn : m = n
    · subst hmn
      obtain ⟨e', he'⟩ := hlive (ok.members.mem_iff.mp hm)
      obtain ⟨hhash, hkey, -⟩ := hframe.names e he e' he'
      exact ⟨e', he', hhash, hkey⟩
    · exact ⟨e, (hframe.others m hmn).trans he, rfl, rfl⟩
  · rw [hframe.table]
    exact ok.members.trans hperm.symm

/-- `Lookup` takes a reference to the handle that has the key. -/
theorem ShardOk.lookup (ok : ShardOk hash c held lru inUse) (key : Bytes) (h : Nat)
    (hfits : ∀ n, held.count n + 2 < 2 ^ 32) :
    ∃ c' r lru' inUse', c.lookup key h = some (c', r) ∧
      ShardOk hash c' (r.toList ++ held) lru' inUse' ∧
      (∀ n ∈ r, n ∈ lru ++ inUse ∧ Named c.handles key h n) ∧
      (r = none → ∀ n ∈ lru ++ inUse, ¬ Named c.handles key h n) := by
  rw [LRUCache.lookup]
  rcases HandleTable.lookup_spec ok.table key h with ⟨n, hn, hnamed, hlookup⟩ | ⟨hnone, hlookup⟩
  · have hlisted := ok.members.mem_iff.mp hn
    obtain ⟨c', lru', inUse', href, hok, hperm, hframe, hlive⟩ := ok.cache.ref hlisted (hfits n)
    refine ⟨c', some n, lru', inUse', ?_, ok.frame hok hperm hframe fun _ => hlive, ?_, ?_⟩
    · simp only [Option.bind_eq_bind, hlookup, Option.bind_some, href, Option.pure_def]
    · rintro m ⟨⟩
      exact ⟨hlisted, hnamed⟩
    · exact fun heq => (nomatch heq)
  · refine ⟨c, none, lru, inUse, ?_, ok, fun n hn => (nomatch hn), fun _ n hn => ?_⟩
    · simp only [Option.bind_eq_bind, hlookup, Option.bind_some, Option.pure_def]
    · exact hnone n (ok.members.mem_iff.mpr hn)

/-- `Release` of a handle that is held. -/
theorem ShardOk.release (ok : ShardOk hash c held lru inUse) (hn : n ∈ held) :
    ∃ c' lru' inUse', c.release n = some c' ∧ ShardOk hash c' (held.erase n) lru' inUse' := by
  obtain ⟨c', lru', inUse', hrelease, hok, hperm, hframe, hlive⟩ := ok.cache.release hn
  exact ⟨c', lru', inUse', hrelease, ok.frame hok hperm hframe hlive⟩

/-- The oldest handle that is not in use is erased. -/
theorem ShardOk.eraseOldest (ok : ShardOk hash c held (n :: lru) inUse) :
    ∃ c', c.eraseOldest = some c' ∧ ShardOk hash c' held lru inUse ∧ c'.capacity = c.capacity ∧
      c'.allocated = c.allocated := by
  have hmem : n ∈ n :: lru ++ inUse := List.mem_append_left _ List.mem_cons_self
  obtain ⟨e, he, -, hlive⟩ := ok.cache.listed_live hmem
  have hone := (hlive.onLru.mp List.mem_cons_self).2
  have hself : Named c.handles e.key e.hash n := ⟨e, he, rfl, rfl⟩
  have hnot : n ∉ inUse := fun hmem' =>
    (List.nodup_append.mp ok.cache.rings.nodup).2.2 n List.mem_cons_self n hmem' rfl
  rcases ok.remove e.key e.hash with
    ⟨m, t, c', hm, hnamed, hremove, hfinish, hok, hcapacity, hallocated⟩ | ⟨hnone, -⟩
  · obtain rfl : n = m := ok.table.unique n (ok.members.mem_iff.mpr hmem) m
      (ok.members.mem_iff.mpr hm) _ _ hself hnamed
    rw [List.erase_cons_head, List.erase_of_not_mem hnot] at hok
    refine ⟨c', ?_, hok, hcapacity, hallocated⟩
    have hnext : c.next .lru = .handle n := ok.cache.rings.next_lru
    rw [LRUCache.eraseOldest, hnext]
    simp only [Option.bind_eq_bind, he, Option.bind_some, if_pos hone, hremove, hfinish,
      Option.pure_def, if_true]
  · exact absurd hself (hnone n hmem)

/-- The loop ends where its condition fails, or where all handles are in use. -/
theorem ShardOk.eraseWhile (p : LRUCache → Bool) {fuel : Nat} (ok : ShardOk hash c held lru inUse)
    (hfuel : lru.length < fuel) :
    ∃ c' lru', LRUCache.eraseWhile p fuel c = some c' ∧ ShardOk hash c' held lru' inUse ∧
      (p c' = true → lru' = []) ∧ c'.capacity = c.capacity := by
  induction fuel generalizing c lru with
  | zero => exact absurd hfuel (Nat.not_lt_zero _)
  | succ fuel ih =>
    have hnext := ok.cache.rings.next_lru
    rw [LRUCache.eraseWhile]
    cases lru with
    | nil =>
      rw [if_neg fun hcond => hcond.2 hnext]
      exact ⟨c, [], rfl, ok, fun _ => rfl, rfl⟩
    | cons n lru =>
      by_cases hp : p c = true
      · have hmore : c.next .lru ≠ .lru := by
          rw [hnext]
          exact fun heq => (nomatch heq)
        obtain ⟨c', herase, hok, hcapacity, -⟩ := ok.eraseOldest
        obtain ⟨c'', lru', hrest, hok', hend, hcapacity'⟩ := ih hok (Nat.lt_of_succ_lt_succ hfuel)
        refine ⟨c'', lru', ?_, hok', hend, hcapacity'.trans hcapacity⟩
        rw [if_pos ⟨hp, hmore⟩, herase]
        exact hrest
      · rw [if_neg fun hcond => hp hcond.1]
        exact ⟨c, n :: lru, rfl, ok, fun hp' => absurd hp' hp, rfl⟩

/-- There are no more handles than were allocated. -/
theorem CacheOk.length_lru_le (ok : CacheOk hash c held lru inUse) : lru.length ≤ c.allocated := by
  have hnodup := (List.nodup_append.mp ok.rings.nodup).1
  have hsub : lru ⊆ List.range c.allocated := by
    intro n hn
    obtain ⟨e, -, -, hlive⟩ := ok.listed_live (List.mem_append_left inUse hn)
    exact List.mem_range.mpr hlive.allocated
  have hle := (hnodup.subperm hsub).length_le
  rwa [List.length_range] at hle

/-- `Prune`. -/
theorem ShardOk.prune (ok : ShardOk hash c held lru inUse) :
    ∃ c', c.prune = some c' ∧ ShardOk hash c' held [] inUse := by
  obtain ⟨c', lru', hprune, hok, hend, -⟩ :=
    ok.eraseWhile (fun _ => true) (Nat.lt_succ_of_le ok.cache.length_lru_le)
  rw [hend rfl] at hok
  exact ⟨c', hprune, hok⟩

/-!
## Insertion into the LRU cache

A new handle has a reference of its user. With capacity it joins the cache, where it takes the place
of the handle with its key; then the oldest handles go until the usage fits.
-/

/-- The next handle is not there yet. -/
theorem CacheOk.fresh (ok : CacheOk hash c held lru inUse) : c.handles c.allocated = none := by
  cases he : c.handles c.allocated with
  | none => rfl
  | some e => exact absurd ((ok.each _).live he).allocated (Nat.lt_irrefl _)

/-- Every handle on the lists is there, so the next one is not among them. -/
theorem CacheOk.ne_allocated (ok : CacheOk hash c held lru inUse) (hn : n ∈ lru ++ inUse) :
    n ≠ c.allocated := by
  obtain ⟨e, -, -, hlive⟩ := ok.listed_live hn
  exact Nat.ne_of_lt hlive.allocated

/-- A new handle is of its user alone. -/
theorem ShardOk.allocate (ok : ShardOk hash c held lru inUse) (hone : e.refs = 1)
    (hcached : e.inCache = false) (hhash : e.hash = hash e.key) :
    ShardOk hash { c.setHandle c.allocated (some e) with allocated := c.allocated + 1 }
      (c.allocated :: held) lru inUse := by
  have hgone := (ok.cache.each _).gone ok.cache.fresh
  have hhandles : ∀ m, m ≠ c.allocated →
      Function.update c.handles c.allocated (some e) m = c.handles m :=
    fun m hm => Function.update_of_ne hm ..
  refine ⟨ok.cache.change c.allocated (ok.cache.rings.congr rfl rfl) ?_ hhandles
    (fun m hm => List.count_cons_of_ne (Ne.symm hm)) (fun m _ => Iff.rfl) (fun m _ => Iff.rfl)
    (fun m hm => ?_) (.inl rfl) ?_, ?_, ok.members⟩
  · refine handleOk_some (Function.update_self ..) ⟨?_, ?_, hhash, ?_, ?_, Nat.lt_succ_self _, ?_⟩
    · rw [List.count_cons_self, List.count_eq_zero.mpr hgone.notHeld, hone, hcached]
      rfl
    · rw [hone]
      exact Nat.one_pos
    · simp [hgone.notLru, hcached]
    · simp [hgone.notInUse, hcached]
    · exact fun hmem => Nat.lt_irrefl _ (hgone.deleted.mp hmem)
  · dsimp only
    omega
  · refine ok.cache.usage.trans (usageOf_congr (.refl _) fun m hm => ?_).symm
    rw [chargeOf, chargeOf, ← hhandles m (ok.cache.ne_allocated hm)]
    rfl
  · refine ok.table.congr fun m hm f hf => ⟨f, ?_, rfl, rfl⟩
    exact (hhandles m (ok.cache.ne_allocated (ok.members.mem_iff.mp hm))).trans hf

/-- What is done to the cache in front of the insertion into its table. -/
structure Joined (c c' : LRUCache) (n : Nat) (e : LRUHandle) : Prop where
  rings : ∀ {lru inUse}, Rings c lru inUse → n ∉ lru ++ inUse → Rings c' lru (inUse ++ [n])
  handles : c'.handles =
    Function.update c.handles n (some { e with refs := e.refs + 1, inCache := true })
  usage : c'.usage = (c.usage + e.charge.toNat) % 2 ^ 64
  deleted : c'.deleted = c.deleted
  allocated : c'.allocated = c.allocated
  table : c'.table = c.table
  capacity : c'.capacity = c.capacity

theorem insertCached_eq (c : LRUCache) (n : Nat) (e : LRUHandle) : ∃ c', Joined c c' n e ∧
    c.insertCached n e = (c'.table.insert c'.handles n).bind fun r =>
      (({ c' with table := r.1 } : LRUCache).finishErase r.2).map Prod.fst := by
  refine ⟨{ ((c.setHandle n (some { e with refs := e.refs + 1, inCache := true })).lruAppend .inUse
    (.handle n)) with usage := (c.usage + e.charge.toNat) % 2 ^ 64 },
    ⟨fun h hn => (h.append_inUse hn).congr rfl rfl, rfl, rfl, rfl, rfl, rfl, rfl⟩, ?_⟩
  rw [LRUCache.insertCached]
  simp only [Option.bind_eq_bind, Option.pure_def, Option.map_eq_bind]
  rfl

/-- The usage with the charge of a handle. -/
theorem usageOf_append {handles : Handles} {l : List Nat} (hn : handles n = some e) :
    usageOf handles (l ++ [n]) = (usageOf handles l + e.charge.toNat) % 2 ^ 64 := by
  rw [usageOf, usageOf, List.map_append, List.sum_append, List.map_singleton, List.sum_singleton,
    chargeOf, hn, Nat.mod_add_mod]
  rfl

/-- A handle of its user alone joins the cache. -/
theorem CacheOk.join (ok : CacheOk hash c held lru inUse) (he : c.handles n = some e)
    (hcached : e.inCache = false) (hone : e.refs = 1) (h : Joined c c' n e) :
    CacheOk hash c' held lru (inUse ++ [n]) := by
  have hlive := (ok.each n).live he
  obtain ⟨hlru, hinUse⟩ := hlive.not_listed hcached
  have hrefs := hlive.refs
  rw [hcached, Bool.toNat_false] at hrefs
  have hself : c'.handles n = some { e with refs := e.refs + 1, inCache := true } := by
    rw [h.handles, Function.update_self]
  have hrest : ∀ m, m ≠ n → c'.handles m = c.handles m := by
    intro m hm
    rw [h.handles, Function.update_of_ne hm]
  refine ok.change n (h.rings ok.rings ?_) ?_ hrest (fun m _ => rfl) (fun m _ => Iff.rfl)
    (fun m hm => ?_) (fun m _ => ?_) (.inl h.deleted) ?_
  · simp [hlru, hinUse]
  · refine handleOk_some hself ⟨?_, Nat.succ_pos _, hlive.hashed, ?_, ?_, ?_, ?_⟩
    · rw [Bool.toNat_true]
      dsimp only
      omega
    · simp [hlru, hone]
    · simp [hone]
    · rw [h.allocated]
      exact hlive.allocated
    · rw [h.deleted]
      exact hlive.notDeleted
  · simp [hm]
  · rw [h.allocated]
  · rw [← List.append_assoc, usageOf_append hself, h.usage, ok.usage]
    refine congrArg (fun u => (u + e.charge.toNat) % 2 ^ 64) (usageOf_congr (.refl _) ?_).symm
    intro m hm
    have hmn : m ≠ n := by
      rintro rfl
      exact (List.mem_append.mp hm).elim hlru hinUse
    rw [chargeOf, chargeOf, hrest m hmn]

/-- The part of `Insert` for a cache with capacity. -/
theorem ShardOk.insertCached (ok : ShardOk hash c held lru inUse) (he : c.handles n = some e)
    (hcached : e.inCache = false) (hone : e.refs = 1) :
    (c.insertCached n e = none ∧ 2 ^ 31 ≤ c.table.elems) ∨
      ∃ c' lru' inUse', c.insertCached n e = some c' ∧ ShardOk hash c' held lru' inUse' ∧
        c'.capacity = c.capacity := by
  obtain ⟨c₁, hjoined, heq⟩ := insertCached_eq c n e
  have hok := ok.cache.join he hcached hone hjoined
  have hself : c₁.handles n = some { e with refs := e.refs + 1, inCache := true } := by
    rw [hjoined.handles, Function.update_self]
  obtain ⟨hlru, hinUse⟩ := ((ok.cache.each n).live he).not_listed hcached
  have hfresh : n ∉ c₁.table.members := by
    rw [hjoined.table, ok.members.mem_iff]
    simp [hlru, hinUse]
  have htable : TableOk c₁.handles c₁.table := by
    rw [hjoined.table] at hfresh ⊢
    refine ok.table.congr fun m hm f hf => ⟨f, ?_, rfl, rfl⟩
    rw [hjoined.handles, Function.update_of_ne ?_]
    · exact hf
    · rintro rfl
      exact hfresh hm
  have hmembers : c₁.table.members.Perm (lru ++ inUse) := by
    rw [hjoined.table]
    exact ok.members
  have happend : (lru ++ (inUse ++ [n])).Perm (n :: (lru ++ inUse)) := by
    rw [← List.append_assoc]
    exact List.perm_append_singleton n _
  rcases HandleTable.insert_spec htable hself hfresh with
    ⟨old, rest, t, hperm, -, hinsert, htable', hrest⟩ |
      ⟨-, ⟨hinsert, hmany⟩ | ⟨t, hinsert, htable', hrest⟩⟩
  · -- the handle with the key goes
    have hlists : (lru ++ (inUse ++ [n])).Perm (old :: n :: rest) :=
      happend.trans (((hmembers.symm.trans hperm).cons n).trans (.swap old n rest))
    obtain ⟨c', hfinish, hok', hcapacity, -⟩ := hok.finishErase_table htable' hlists hrest
    refine .inr ⟨c', _, _, ?_, hok', hcapacity.trans hjoined.capacity⟩
    rw [heq, hinsert, Option.bind_some, hfinish]
    rfl
  · rw [hjoined.table] at hmany
    exact .inl ⟨by rw [heq, hinsert, Option.bind_none], hmany⟩
  · refine .inr ⟨{ c₁ with table := t }, lru, inUse ++ [n], ?_, ⟨hok.setTable t, htable', ?_⟩,
      hjoined.capacity⟩
    · rw [heq, hinsert]
      rfl
    · exact hrest.trans ((hmembers.cons n).trans happend.symm)

/-- `Insert`. -/
theorem ShardOk.insert (ok : ShardOk hash c held lru inUse) (key : Bytes)
    (value charge deleter : UInt64) :
    (c.insert key (hash key) value charge deleter = none ∧ 2 ^ 31 ≤ c.table.elems) ∨
      ∃ c' lru' inUse', c.insert key (hash key) value charge deleter = some (c', c.allocated) ∧
        ShardOk hash c' (c.allocated :: held) lru' inUse' ∧
        (c'.capacity < c'.usage → lru' = []) := by
  have hallocate := ok.allocate (e := ⟨value, deleter, charge, key, hash key, false, 1⟩) rfl rfl rfl
  have hself : Function.update c.handles c.allocated
      (some ⟨value, deleter, charge, key, hash key, false, 1⟩) c.allocated =
        some ⟨value, deleter, charge, key, hash key, false, 1⟩ := Function.update_self ..
  have hevict : ∀ {c₁ lru₁ inUse₁}, ShardOk hash c₁ (c.allocated :: held) lru₁ inUse₁ →
      ∃ c' lru' inUse', LRUCache.eraseWhile (fun c => c.capacity < c.usage) (c₁.allocated + 1) c₁ =
        some c' ∧ ShardOk hash c' (c.allocated :: held) lru' inUse' ∧
        (c'.capacity < c'.usage → lru' = []) := by
    intro c₁ lru₁ inUse₁ hok
    obtain ⟨c', lru', hwhile, hok', hend, -⟩ := hok.eraseWhile (fun c => c.capacity < c.usage)
      (Nat.lt_succ_of_le hok.cache.length_lru_le)
    exact ⟨c', lru', inUse₁, hwhile, hok', fun hlt => hend (decide_eq_true hlt)⟩
  rw [LRUCache.insert]
  simp only [Option.bind_eq_bind, Option.pure_def]
  by_cases hcapacity : 0 < c.capacity
  · rcases hallocate.insertCached hself rfl rfl with
      ⟨hinsert, hmany⟩ | ⟨c₁, lru₁, inUse₁, hinsert, hok, -⟩
    · refine .inl ⟨?_, hmany⟩
      rw [if_pos (by exact hcapacity), hinsert, Option.bind_none]
    · obtain ⟨c', lru', inUse', hwhile, hok', hend⟩ := hevict hok
      refine .inr ⟨c', lru', inUse', ?_, hok', hend⟩
      rw [if_pos (by exact hcapacity), hinsert, Option.bind_some, hwhile, Option.bind_some]
  · obtain ⟨c', lru', inUse', hwhile, hok', hend⟩ := hevict hallocate
    refine .inr ⟨c', lru', inUse', ?_, hok', hend⟩
    rw [if_neg (by exact hcapacity), Option.bind_some, hwhile, Option.bind_some]

end WiscKey
