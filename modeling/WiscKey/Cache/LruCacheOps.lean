import WiscKey.Cache.LruCacheInvariant

/-!
# The operations of the LRU cache

`Ref`, `Unref` and `FinishErase` change one handle and the lists that it is on. The other functions
put them together with those of the table.
-/

namespace WiscKey

variable {hash : Bytes → Nat} {c c' : LRUCache} {held held' lru lru' inUse inUse' : List Nat}
  {n : Nat} {e : LRUHandle}

/-- An operation that changes one handle. -/
theorem CacheOk.change (ok : CacheOk hash c held lru inUse) (n : Nat)
    (hrings : Rings c' lru' inUse') (hn : HandleOk hash c' held' lru' inUse' n)
    (hhandles : ∀ m, m ≠ n → c'.handles m = c.handles m)
    (hheld : ∀ m, m ≠ n → held'.count m = held.count m)
    (hlru : ∀ m, m ≠ n → (m ∈ lru' ↔ m ∈ lru)) (hinUse : ∀ m, m ≠ n → (m ∈ inUse' ↔ m ∈ inUse))
    (hallocated : ∀ m, m ≠ n → (m < c'.allocated ↔ m < c.allocated))
    (hdeleted : c'.deleted = c.deleted ∨ ∃ e, e.refs = 0 ∧ n ∉ c.deleted.map Prod.fst ∧
      c'.deleted = c.deleted ++ [(n, e)])
    (husage : c'.usage = usageOf c'.handles (lru' ++ inUse')) :
    CacheOk hash c' held' lru' inUse' := by
  have hmem : ∀ m, m ≠ n → (m ∈ c'.deleted.map Prod.fst ↔ m ∈ c.deleted.map Prod.fst) := by
    intro m hm
    rcases hdeleted with heq | ⟨e, -, -, heq⟩
    · rw [heq]
    · rw [heq]
      simp [hm]
  refine ⟨hrings, fun m => ?_, husage, ?_, ?_⟩
  · by_cases hm : m = n
    · rw [hm]
      exact hn
    · exact (ok.each m).congr (hhandles m hm) (hheld m hm) (hlru m hm) (hinUse m hm)
        (hallocated m hm) (hmem m hm)
  · rcases hdeleted with heq | ⟨e, -, hnew, heq⟩
    · rw [heq]
      exact ok.deletedNodup
    · rw [heq, List.map_append]
      exact ok.deletedNodup.append (List.nodup_singleton n) (by simpa using hnew)
  · rcases hdeleted with heq | ⟨e, hrefs, -, heq⟩
    · rw [heq]
      exact ok.deletedRefs
    · rw [heq]
      intro d hd
      rcases List.mem_append.mp hd with hd | hd
      · exact ok.deletedRefs d hd
      · rw [List.mem_singleton.mp hd]
        exact hrefs

/-- What the operations on one handle leave alone. -/
structure CacheFrame (c c' : LRUCache) (n : Nat) : Prop where
  table : c'.table = c.table
  capacity : c'.capacity = c.capacity
  allocated : c'.allocated = c.allocated
  others : ∀ m, m ≠ n → c'.handles m = c.handles m
  names : ∀ e, c.handles n = some e → ∀ e', c'.handles n = some e' →
    e'.hash = e.hash ∧ e'.key = e.key ∧ e'.charge = e.charge

section Moves

/-- A handle moves to the end of a list. -/
theorem CacheOk.rings_toInUse (ok : CacheOk hash c held lru inUse) (hn : n ∈ lru ++ inUse) :
    Rings ((c.lruRemove (.handle n)).lruAppend .inUse (.handle n)) (lru.erase n)
      (inUse.erase n ++ [n]) := by
  refine (ok.rings.remove hn).append_inUse ?_
  have hnodup := List.nodup_append.mp ok.rings.nodup
  rw [List.mem_append, not_or]
  exact ⟨hnodup.1.not_mem_erase, hnodup.2.1.not_mem_erase⟩

theorem CacheOk.rings_toLru (ok : CacheOk hash c held lru inUse) (hn : n ∈ lru ++ inUse) :
    Rings ((c.lruRemove (.handle n)).lruAppend .lru (.handle n)) (lru.erase n ++ [n])
      (inUse.erase n) := by
  refine (ok.rings.remove hn).append_lru ?_
  have hnodup := List.nodup_append.mp ok.rings.nodup
  rw [List.mem_append, not_or]
  exact ⟨hnodup.1.not_mem_erase, hnodup.2.1.not_mem_erase⟩

theorem mem_toEnd {l : List Nat} {m : Nat} (hm : m ≠ n) : m ∈ l.erase n ++ [n] ↔ m ∈ l := by
  rw [List.mem_append, List.mem_singleton, List.mem_erase_of_ne hm]
  exact or_iff_left hm

/-- The handles of both lists, one of them first. -/
theorem Rings.perm_erase (h : Rings c lru inUse) (hn : n ∈ lru ++ inUse) :
    (lru ++ inUse).Perm (n :: (lru.erase n ++ inUse.erase n)) := by
  have hdisjoint := (List.nodup_append.mp h.nodup).2.2
  rcases List.mem_append.mp hn with hn | hn
  · rw [List.erase_of_not_mem (l := inUse) fun hmem => hdisjoint n hn n hmem rfl]
    exact (List.perm_cons_erase hn).append_right inUse
  · rw [List.erase_of_not_mem (l := lru) fun hmem => hdisjoint n hmem n hn rfl]
    exact ((List.perm_cons_erase hn).append_left lru).trans List.perm_middle

end Moves

theorem chargeOf_update {handles : Handles} {e' : LRUHandle} (hn : handles n = some e)
    (hcharge : e'.charge = e.charge) (m : Nat) :
    chargeOf (Function.update handles n (some e')) m = chargeOf handles m := by
  by_cases hm : m = n
  · rw [hm, chargeOf, chargeOf, Function.update_self, hn]
    exact congrArg UInt64.toNat hcharge
  · rw [chargeOf, chargeOf, Function.update_of_ne hm]

/-- Without a change of charges and members the usage stays. -/
theorem CacheOk.usage_update {e' : LRUHandle} (ok : CacheOk hash c held lru inUse)
    (hn : c.handles n = some e) (hhandles : c'.handles = Function.update c.handles n (some e'))
    (husage : c'.usage = c.usage) (hcharge : e'.charge = e.charge)
    (hperm : (lru' ++ inUse').Perm (lru ++ inUse)) :
    c'.usage = usageOf c'.handles (lru' ++ inUse') := by
  rw [husage, ok.usage, hhandles]
  exact (usageOf_congr hperm fun m _ => chargeOf_update hn hcharge m).symm

/-- A handle is written without a change of its name and charge. -/
theorem cacheFrame_update {e' : LRUHandle} (hn : c.handles n = some e)
    (htable : c'.table = c.table) (hcapacity : c'.capacity = c.capacity)
    (hallocated : c'.allocated = c.allocated)
    (hhandles : c'.handles = Function.update c.handles n (some e'))
    (hnames : e'.hash = e.hash ∧ e'.key = e.key ∧ e'.charge = e.charge) : CacheFrame c c' n := by
  refine ⟨htable, hcapacity, hallocated, fun m hm => ?_, fun f hf f' hf' => ?_⟩
  · rw [hhandles, Function.update_of_ne hm]
  · rw [hhandles, Function.update_self] at hf'
    obtain rfl := Option.some.inj (hn.symm.trans hf)
    obtain rfl := Option.some.inj hf'
    exact hnames

/-- `Ref` of a handle in the cache. -/
theorem CacheOk.ref (ok : CacheOk hash c held lru inUse) (hn : n ∈ lru ++ inUse)
    (hfits : held.count n + 2 < 2 ^ 32) : ∃ c' lru' inUse',
      c.ref n = some c' ∧ CacheOk hash c' (n :: held) lru' inUse' ∧
        (lru' ++ inUse').Perm (lru ++ inUse) ∧ CacheFrame c c' n ∧
        ∃ e, c'.handles n = some e := by
  obtain ⟨e, he, hcached, hlive⟩ := ok.listed_live hn
  have hrefs := hlive.refs
  rw [hcached, Bool.toNat_true] at hrefs
  have hmod : (e.refs + 1) % 2 ^ 32 = e.refs + 1 := Nat.mod_eq_of_lt (by omega)
  have hcount : ∀ m, m ≠ n → (n :: held).count m = held.count m :=
    fun m hm => List.count_cons_of_ne (Ne.symm hm)
  have hnodup := List.nodup_append.mp ok.rings.nodup
  rw [LRUCache.ref, he]
  simp only [Option.bind_eq_bind, Option.bind_some, Option.pure_def, hmod, hcached, and_true]
  by_cases hone : e.refs = 1
  · -- the handle was not in use
    have hperm := ok.rings.perm_erase hn
    have hperm' : (lru.erase n ++ (inUse.erase n ++ [n])).Perm (lru ++ inUse) := by
      rw [← List.append_assoc]
      exact (List.perm_append_singleton n _).trans hperm.symm
    rw [if_pos hone]
    refine ⟨_, _, _, rfl, ok.change n ((ok.rings_toInUse hn).congr rfl rfl) ?_
      (fun m hm => Function.update_of_ne hm ..) hcount (fun m hm => List.mem_erase_of_ne hm)
      (fun m hm => mem_toEnd hm) (fun m _ => Iff.rfl) (.inl rfl)
      (ok.usage_update he rfl rfl rfl hperm'), hperm',
      cacheFrame_update he rfl rfl rfl rfl ⟨rfl, rfl, rfl⟩, _, Function.update_self ..⟩
    · refine handleOk_some (Function.update_self ..) ⟨?_, Nat.succ_pos _, hlive.hashed, ?_, ?_,
        hlive.allocated, hlive.notDeleted⟩
      · rw [List.count_cons_self, hrefs]
        rfl
      · simp [hnodup.1.not_mem_erase, hone]
      · simp [hone]
  · have hnot : n ∉ lru := fun hmem => hone (hlive.onLru.mp hmem).2
    have hinUse : n ∈ inUse := (List.mem_append.mp hn).resolve_left hnot
    have htwo := (hlive.onInUse.mp hinUse).2
    rw [if_neg hone]
    refine ⟨_, lru, inUse, rfl, ok.change n (ok.rings.congr rfl rfl) ?_
      (fun m hm => Function.update_of_ne hm ..) hcount (fun m _ => Iff.rfl) (fun m _ => Iff.rfl)
      (fun m _ => Iff.rfl) (.inl rfl) (ok.usage_update he rfl rfl rfl (.refl _)), .refl _,
      cacheFrame_update he rfl rfl rfl rfl ⟨rfl, rfl, rfl⟩, _, Function.update_self ..⟩
    · refine handleOk_some (Function.update_self ..) ⟨?_, Nat.succ_pos _, hlive.hashed, ?_, ?_,
        hlive.allocated, hlive.notDeleted⟩
      · rw [List.count_cons_self, hrefs]
        rfl
      · simp [hnot]
        omega
      · simp [hinUse]
        omega

/-- `Release` of a handle that is held. -/
theorem CacheOk.release (ok : CacheOk hash c held lru inUse) (hn : n ∈ held) :
    ∃ c' lru' inUse', c.release n = some c' ∧ CacheOk hash c' (held.erase n) lru' inUse' ∧
      (lru' ++ inUse').Perm (lru ++ inUse) ∧ CacheFrame c c' n ∧
      (n ∈ lru ++ inUse → ∃ e, c'.handles n = some e) := by
  obtain ⟨e, he, hlive⟩ := ok.held_live hn
  have hrefs := hlive.refs
  have hheld : 0 < held.count n := List.count_pos_iff.mpr hn
  have hcount : ∀ m, m ≠ n → (held.erase n).count m = held.count m :=
    fun m hm => List.count_erase_of_ne hm
  have hself : (held.erase n).count n = held.count n - 1 := List.count_erase_self
  have hnodup := List.nodup_append.mp ok.rings.nodup
  have hne : e.refs ≠ 0 := Nat.ne_of_gt hlive.pos
  rw [LRUCache.release, LRUCache.unref, he]
  simp only [Option.bind_eq_bind, Option.bind_some, Option.pure_def, if_neg hne]
  by_cases hlast : e.refs - 1 = 0
  · -- the last reference
    have hcached : e.inCache = false := by
      cases hcached : e.inCache with
      | false => rfl
      | true =>
        rw [hcached, Bool.toNat_true] at hrefs
        omega
    obtain ⟨hlru, hinUse⟩ := hlive.not_listed hcached
    rw [hcached, Bool.toNat_false] at hrefs
    rw [if_pos hlast, hcached, if_neg Bool.false_ne_true]
    refine ⟨_, lru, inUse, rfl, ok.change n (ok.rings.congr rfl rfl) ?_ ?_ hcount
      (fun m _ => Iff.rfl) (fun m _ => Iff.rfl) (fun m _ => Iff.rfl)
      (.inr ⟨_, hlast, hlive.notDeleted, rfl⟩) ?_, .refl _, ?_, ?_⟩
    · refine handleOk_none (Function.update_self ..) ⟨?_, hlru, hinUse, ?_⟩
      · rw [← List.count_eq_zero, hself]
        omega
      · simp [LRUCache.setHandle, hlive.allocated]
    · intro m hm
      simp only [LRUCache.setHandle, Function.update_of_ne hm]
    · refine ok.usage.trans (usageOf_congr (.refl _) fun m hm => ?_).symm
      have hmn : m ≠ n := by
        rintro rfl
        exact (List.mem_append.mp hm).elim hlru hinUse
      simp only [chargeOf, LRUCache.setHandle, Function.update_of_ne hmn]
    · refine ⟨rfl, rfl, rfl, fun m hm => ?_, fun f hf f' hf' => ?_⟩
      · simp only [LRUCache.setHandle, Function.update_of_ne hm]
      · simp only [LRUCache.setHandle, Function.update_self] at hf'
        exact nomatch hf'
    · exact fun hmem => absurd hmem (by simp [hlru, hinUse])
  · rw [if_neg hlast]
    by_cases hidle : e.inCache = true ∧ e.refs - 1 = 1
    · -- the handle is no longer in use
      obtain ⟨hcached, hone⟩ := hidle
      rw [hcached, Bool.toNat_true] at hrefs
      have hmem : n ∈ lru ++ inUse := hlive.listed hcached
      have hperm := ok.rings.perm_erase hmem
      have hperm' : (lru.erase n ++ [n] ++ inUse.erase n).Perm (lru ++ inUse) := by
        rw [List.append_assoc]
        exact List.perm_middle.trans hperm.symm
      rw [if_pos ⟨hcached, hone⟩]
      refine ⟨_, _, _, rfl, ok.change n ((ok.rings_toLru hmem).congr rfl rfl) ?_
        (fun m hm => Function.update_of_ne hm ..) hcount (fun m hm => mem_toEnd hm)
        (fun m hm => List.mem_erase_of_ne hm) (fun m _ => Iff.rfl) (.inl rfl)
        (ok.usage_update he rfl rfl rfl hperm'), hperm',
        cacheFrame_update he rfl rfl rfl rfl ⟨rfl, rfl, rfl⟩, fun _ => ⟨_, Function.update_self ..⟩⟩
      refine handleOk_some (Function.update_self ..) ⟨?_, Nat.pos_of_ne_zero hlast, hlive.hashed,
        ?_, ?_, hlive.allocated, hlive.notDeleted⟩
      · rw [hself, hcached, Bool.toNat_true]
        dsimp only
        omega
      · simp [hcached, hone]
      · simp [hnodup.2.1.not_mem_erase, hone]
    · rw [if_neg hidle]
      refine ⟨_, lru, inUse, rfl, ok.change n (ok.rings.congr rfl rfl) ?_
        (fun m hm => Function.update_of_ne hm ..) hcount (fun m _ => Iff.rfl) (fun m _ => Iff.rfl)
        (fun m _ => Iff.rfl) (.inl rfl) (ok.usage_update he rfl rfl rfl (.refl _)), .refl _,
        cacheFrame_update he rfl rfl rfl rfl ⟨rfl, rfl, rfl⟩, fun _ => ⟨_, Function.update_self ..⟩⟩
      refine handleOk_some (Function.update_self ..) ⟨?_, Nat.pos_of_ne_zero hlast, hlive.hashed,
        ?_, ?_, hlive.allocated, hlive.notDeleted⟩
      · rw [hself]
        dsimp only
        omega
      · rw [hlive.onLru]
        exact ⟨fun h => absurd h.2 (by omega), fun h => absurd h hidle⟩
      · rw [hlive.onInUse]
        dsimp only
        refine and_congr_right fun hcached => ?_
        have hone : e.refs - 1 ≠ 1 := fun hone => hidle ⟨hcached, hone⟩
        omega

/-- `Unref` of a handle that is not in the cache. -/
theorem unref_uncached (he : c.handles n = some e) (hcached : e.inCache = false)
    (hpos : e.refs ≠ 0) : c.unref n = some (if e.refs - 1 = 0 then
      { c with
        handles := Function.update c.handles n none
        deleted := c.deleted ++ [(n, { e with refs := e.refs - 1 })] }
    else c.setHandle n (some { e with refs := e.refs - 1 })) := by
  rw [LRUCache.unref, he]
  simp only [Option.bind_eq_bind, Option.bind_some, Option.pure_def, if_neg hpos]
  split
  · simp [LRUCache.setHandle, hcached]
  · simp [hcached]

/-- The usage without the charge of a handle. -/
theorem CacheOk.usage_erase (ok : CacheOk hash c held lru inUse) (hn : n ∈ lru ++ inUse)
    (he : c.handles n = some e) : (c.usage + 2 ^ 64 - e.charge.toNat) % 2 ^ 64 =
      usageOf c.handles (lru.erase n ++ inUse.erase n) := by
  have hsum : ((lru ++ inUse).map (chargeOf c.handles)).sum =
      e.charge.toNat + ((lru.erase n ++ inUse.erase n).map (chargeOf c.handles)).sum := by
    rw [((ok.rings.perm_erase hn).map _).sum_eq, List.map_cons, List.sum_cons, chargeOf, he]
    rfl
  have hlt := e.charge.toNat_lt
  rw [ok.usage, usageOf, usageOf, hsum]
  omega

theorem finishErase_eq (he : c.handles n = some e) (hcached : e.inCache = true) :
    c.finishErase (some n) = (({ (c.lruRemove (.handle n)).setHandle n
      (some { e with inCache := false }) with
        usage := (c.usage + 2 ^ 64 - e.charge.toNat) % 2 ^ 64 } : LRUCache).unref n).map
          fun c => (c, true) := by
  rw [LRUCache.finishErase, he, Option.map_eq_bind]
  simp only [Option.bind_eq_bind, Option.bind_some, Option.pure_def, hcached, if_true]
  rfl

/-- What is done to the cache in front of `Unref` in `FinishErase`. -/
structure Uncached (c c' : LRUCache) (n : Nat) (e : LRUHandle) (lru inUse : List Nat) : Prop where
  rings : Rings c' (lru.erase n) (inUse.erase n)
  handles : c'.handles = Function.update c.handles n (some { e with inCache := false })
  usage : c'.usage = usageOf c.handles (lru.erase n ++ inUse.erase n)
  deleted : c'.deleted = c.deleted
  allocated : c'.allocated = c.allocated
  table : c'.table = c.table
  capacity : c'.capacity = c.capacity

/-- The cache gives up its reference to a handle. -/
theorem CacheOk.unref (ok : CacheOk hash c held lru inUse)
    (hlive : LiveOk hash c held lru inUse n e) (he : c.handles n = some e)
    (hcached : e.inCache = true) (h : Uncached c c' n e lru inUse) :
    ∃ c'', c'.unref n = some c'' ∧ CacheOk hash c'' held (lru.erase n) (inUse.erase n) ∧
      CacheFrame c c'' n := by
  have hrefs := hlive.refs
  rw [hcached, Bool.toNat_true] at hrefs
  have hnodup := List.nodup_append.mp ok.rings.nodup
  have hself : c'.handles n = some { e with inCache := false } := by
    rw [h.handles, Function.update_self]
  have hothers : ∀ handles : Handles, (∀ m, m ≠ n → handles m = c.handles m) →
      c'.usage = usageOf handles (lru.erase n ++ inUse.erase n) := by
    intro handles hhandles
    refine h.usage.trans (usageOf_congr (.refl _) fun m hm => ?_).symm
    have hmn : m ≠ n := by
      rintro rfl
      rcases List.mem_append.mp hm with hm | hm
      · exact hnodup.1.not_mem_erase hm
      · exact hnodup.2.1.not_mem_erase hm
    rw [chargeOf, chargeOf, hhandles m hmn]
  have hrest : ∀ m, m ≠ n → c'.handles m = c.handles m := by
    intro m hm
    rw [h.handles, Function.update_of_ne hm]
  have hlru : ∀ m, m ≠ n → (m ∈ lru.erase n ↔ m ∈ lru) := fun m hm => List.mem_erase_of_ne hm
  have hinUse : ∀ m, m ≠ n → (m ∈ inUse.erase n ↔ m ∈ inUse) :=
    fun m hm => List.mem_erase_of_ne hm
  rw [unref_uncached hself rfl (Nat.ne_of_gt hlive.pos)]
  by_cases hlast : e.refs - 1 = 0
  · -- no handle is held
    rw [if_pos hlast]
    have hhandles : ∀ m, m ≠ n → Function.update c'.handles n none m = c.handles m := by
      intro m hm
      rw [Function.update_of_ne hm, hrest m hm]
    refine ⟨_, rfl, ok.change n (h.rings.congr rfl rfl) ?_ hhandles (fun m _ => rfl) hlru hinUse
      (fun m _ => by rw [h.allocated]) (.inr ⟨_, hlast, hlive.notDeleted, by rw [h.deleted]⟩)
      (hothers _ hhandles), h.table, h.capacity, h.allocated, hhandles, fun f hf f' hf' => ?_⟩
    · refine handleOk_none (Function.update_self ..) ⟨?_, hnodup.1.not_mem_erase,
        hnodup.2.1.not_mem_erase, ?_⟩
      · rw [← List.count_eq_zero]
        omega
      · rw [h.deleted, h.allocated]
        simp [hlive.allocated]
    · have hnone : Function.update c'.handles n none n = none := Function.update_self ..
      exact nomatch hnone.symm.trans hf'
  · rw [if_neg hlast]
    have hhandles : ∀ (e' : LRUHandle) m, m ≠ n →
        Function.update c'.handles n (some e') m = c.handles m := by
      intro e' m hm
      rw [Function.update_of_ne hm, hrest m hm]
    refine ⟨_, rfl, ok.change n (h.rings.congr rfl rfl) ?_ (hhandles _) (fun m _ => rfl) hlru hinUse
      (fun m _ => by rw [LRUCache.setHandle, h.allocated]) (.inl h.deleted)
      (hothers _ (hhandles _)), @cacheFrame_update c _ n e
        { e with inCache := false, refs := e.refs - 1 } he h.table h.capacity h.allocated ?_
        ⟨rfl, rfl, rfl⟩⟩
    · refine handleOk_some (Function.update_self ..) ⟨?_, Nat.pos_of_ne_zero hlast, hlive.hashed,
        ?_, ?_, ?_, ?_⟩
      · rw [Bool.toNat_false]
        dsimp only
        omega
      · simp [hnodup.1.not_mem_erase]
      · simp [hnodup.2.1.not_mem_erase]
      · rw [LRUCache.setHandle, h.allocated]
        exact hlive.allocated
      · rw [LRUCache.setHandle, h.deleted]
        exact hlive.notDeleted
    · rw [LRUCache.setHandle, h.handles, Function.update_idem]

/-- `FinishErase` of a handle in the cache. -/
theorem CacheOk.finishErase (ok : CacheOk hash c held lru inUse) (hn : n ∈ lru ++ inUse) :
    ∃ c', c.finishErase (some n) = some (c', true) ∧
      CacheOk hash c' held (lru.erase n) (inUse.erase n) ∧ CacheFrame c c' n := by
  obtain ⟨e, he, hcached, hlive⟩ := ok.listed_live hn
  have huncached : Uncached c { (c.lruRemove (.handle n)).setHandle n
      (some { e with inCache := false }) with
        usage := (c.usage + 2 ^ 64 - e.charge.toNat) % 2 ^ 64 } n e lru inUse :=
    ⟨(ok.rings.remove hn).congr rfl rfl, rfl, ok.usage_erase hn he, rfl, rfl, rfl, rfl⟩
  obtain ⟨c', hunref, hok, hframe⟩ := ok.unref hlive he hcached huncached
  refine ⟨c', ?_, hok, hframe⟩
  rw [finishErase_eq he hcached, hunref]
  rfl

end WiscKey
