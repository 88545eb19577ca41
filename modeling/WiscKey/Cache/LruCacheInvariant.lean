import WiscKey.Cache.LruCache
import WiscKey.Cache.HandleTableSpec
import WiscKey.Library.Ring
import Mathlib.Algebra.BigOperators.Group.List.Basic

/-!
# The invariant of the LRU cache

Every handle that is there counts its references, and those in the cache are on the list that their
references tell. An operation changes one handle; the others stay as they are.
-/

namespace WiscKey

/-- The two circular lists, which have no handles in common. -/
structure Rings (c : LRUCache) (lru inUse : List Nat) : Prop where
  lruRing : Ring c.next c.prev .lru (lru.map .handle)
  inUseRing : Ring c.next c.prev .inUse (inUse.map .handle)
  nodup : (lru ++ inUse).Nodup

namespace Rings

variable {c c' : LRUCache} {lru inUse : List Nat} {n : Nat}

theorem handle_mem {l : List Nat} : ListNode.handle n ∈ l.map ListNode.handle ↔ n ∈ l := by
  rw [List.mem_map]
  exact ⟨fun ⟨m, hm, he⟩ => ListNode.handle.inj he ▸ hm, fun hn => ⟨n, hn, rfl⟩⟩

theorem congr (h : Rings c lru inUse) (hnext : c'.next = c.next) (hprev : c'.prev = c.prev) :
    Rings c' lru inUse := by
  refine ⟨?_, ?_, h.nodup⟩
  · rw [hnext, hprev]
    exact h.lruRing
  · rw [hnext, hprev]
    exact h.inUseRing

/-- One list loses a member, and the other, which has none of its neighbours, stays. -/
theorem ring_remove {head head' : ListNode} {l l' : List ListNode} {a : ListNode}
    (h : Ring c.next c.prev head l) (h' : Ring c.next c.prev head' l') (ha : a ∈ l)
    (hdisjoint : ∀ b ∈ head :: l, b ∉ head' :: l') :
    Ring (c.lruRemove a).next (c.lruRemove a).prev head (l.erase a) ∧
      Ring (c.lruRemove a).next (c.lruRemove a).prev head' l' := by
  obtain ⟨front, back, hsplit⟩ := List.append_of_mem ha
  subst hsplit
  have hsub : ∀ b ∈ head :: (front ++ back), b ∈ head :: (front ++ a :: back) := by
    intro b hb
    simp only [List.mem_cons, List.mem_append] at hb ⊢
    tauto
  have hne : c.next a ≠ a := h.ne_of_mem h.next_mem
  have hprev : Function.update c.prev (c.next a) (c.prev a) a = c.prev a :=
    Function.update_of_ne hne.symm ..
  have hfront : a ∉ front := fun hmem => h.ne_of_mem (List.mem_cons_of_mem _
    (List.mem_append_left back hmem)) rfl
  rw [List.erase_append_right _ hfront, List.erase_cons_head]
  simp only [LRUCache.lruRemove, hprev]
  have hother : ∀ {x b}, x ∈ head :: (front ++ back) → b ∈ head' :: l' → b ≠ x := by
    rintro x _ hx hb rfl
    exact hdisjoint _ (hsub _ hx) hb
  exact ⟨h.remove, h'.congr (fun b hb => Function.update_of_ne (hother h.prev_mem hb) ..)
    fun b hb => Function.update_of_ne (hother h.next_mem hb) ..⟩

/-- One list gets a member that neither had. -/
theorem ring_append {head head' : ListNode} {l l' : List ListNode} {a : ListNode}
    (h : Ring c.next c.prev head l) (h' : Ring c.next c.prev head' l') (ha : a ∉ head :: l)
    (ha' : a ∉ head' :: l') (hdisjoint : ∀ b ∈ head :: l, b ∉ head' :: l') :
    Ring (c.lruAppend head a).next (c.lruAppend head a).prev head (l ++ [a]) ∧
      Ring (c.lruAppend head a).next (c.lruAppend head a).prev head' l' := by
  have hprev_mem : c.prev head ∈ head :: l := by
    rw [h.prev_head]
    cases hl : l.reverse with
    | nil => exact List.mem_cons_self
    | cons b back =>
      refine List.mem_cons_of_mem _ (List.mem_reverse.mp ?_)
      rw [hl]
      exact List.mem_cons_self
  have hne : c.prev head ≠ a := fun he => ha (he ▸ hprev_mem)
  have hnext : Function.update (Function.update c.next a head) (c.prev head) a a = head := by
    rw [Function.update_of_ne hne.symm, Function.update_self]
  simp only [LRUCache.lruAppend, Function.update_self, hnext]
  have hother : ∀ {x b}, x ∈ head :: l → b ∈ head' :: l' → b ≠ x := by
    rintro x _ hx hb rfl
    exact hdisjoint _ hx hb
  have hself : ∀ {b}, b ∈ head' :: l' → b ≠ a := by
    rintro _ hb rfl
    exact ha' hb
  refine ⟨h.append ha, h'.congr (fun b hb => ?_) fun b hb => ?_⟩
  · rw [Function.update_of_ne (hother hprev_mem hb), Function.update_of_ne (hself hb)]
  · rw [Function.update_of_ne (hother List.mem_cons_self hb), Function.update_of_ne (hself hb)]

theorem disjoint (h : Rings c lru inUse) :
    ∀ b ∈ ListNode.lru :: lru.map .handle, b ∉ ListNode.inUse :: inUse.map .handle := by
  intro b hb hb'
  rcases List.mem_cons.mp hb with rfl | hb
  · simp at hb'
  · obtain ⟨n, hn, rfl⟩ := List.mem_map.mp hb
    rcases List.mem_cons.mp hb' with he | hb'
    · exact nomatch he
    · exact (List.nodup_append.mp h.nodup).2.2 n hn n (handle_mem.mp hb') rfl

theorem disjoint' (h : Rings c lru inUse) :
    ∀ b ∈ ListNode.inUse :: inUse.map .handle, b ∉ ListNode.lru :: lru.map .handle :=
  fun b hb hb' => h.disjoint b hb' hb

theorem map_erase (l : List Nat) (n : Nat) :
    (l.map ListNode.handle).erase (.handle n) = (l.erase n).map .handle :=
  (List.map_erase (fun _ _ he => ListNode.handle.inj he) l).symm

/-- `LRU_Remove` takes a handle off the list that it is on. -/
theorem remove (h : Rings c lru inUse) (hn : n ∈ lru ++ inUse) :
    Rings (c.lruRemove (.handle n)) (lru.erase n) (inUse.erase n) := by
  have hdisjoint := (List.nodup_append.mp h.nodup).2.2
  have hnodup : (lru.erase n ++ inUse.erase n).Nodup :=
    h.nodup.sublist ((List.erase_sublist).append (List.erase_sublist))
  rcases List.mem_append.mp hn with hn | hn
  · obtain ⟨hlru, hinUse⟩ := ring_remove h.lruRing h.inUseRing (handle_mem.mpr hn) h.disjoint
    rw [map_erase] at hlru
    rw [List.erase_of_not_mem fun hmem => hdisjoint n hn n hmem rfl] at hnodup ⊢
    exact ⟨hlru, hinUse, hnodup⟩
  · obtain ⟨hinUse, hlru⟩ := ring_remove h.inUseRing h.lruRing (handle_mem.mpr hn) h.disjoint'
    rw [map_erase] at hinUse
    rw [List.erase_of_not_mem (l := lru) fun hmem => hdisjoint n hmem n hn rfl] at hnodup ⊢
    exact ⟨hlru, hinUse, hnodup⟩

theorem handle_not_mem {l : List Nat} (hn : n ∉ l) :
    ListNode.handle n ∉ ListNode.lru :: l.map .handle ∧
      ListNode.handle n ∉ ListNode.inUse :: l.map .handle := by
  constructor <;>
  · intro hmem
    rcases List.mem_cons.mp hmem with he | hmem
    · exact nomatch he
    · exact hn (handle_mem.mp hmem)

/-- `LRU_Append` puts a handle that is on no list onto one of them. -/
theorem append_lru (h : Rings c lru inUse) (hn : n ∉ lru ++ inUse) :
    Rings (c.lruAppend .lru (.handle n)) (lru ++ [n]) inUse := by
  rw [List.mem_append, not_or] at hn
  obtain ⟨hlru, hinUse⟩ := ring_append h.lruRing h.inUseRing (handle_not_mem hn.1).1
    (handle_not_mem hn.2).2 h.disjoint
  refine ⟨by rw [List.map_append]; exact hlru, hinUse, ?_⟩
  rw [List.append_assoc]
  exact List.perm_middle.nodup_iff.mpr (List.nodup_cons.mpr ⟨by simp [hn], h.nodup⟩)

theorem append_inUse (h : Rings c lru inUse) (hn : n ∉ lru ++ inUse) :
    Rings (c.lruAppend .inUse (.handle n)) lru (inUse ++ [n]) := by
  have hnodup := h.nodup.append (List.nodup_singleton n) (by simpa using hn)
  rw [List.append_assoc] at hnodup
  rw [List.mem_append, not_or] at hn
  obtain ⟨hinUse, hlru⟩ := ring_append h.inUseRing h.lruRing (handle_not_mem hn.2).2
    (handle_not_mem hn.1).1 h.disjoint'
  exact ⟨hlru, by rw [List.map_append]; exact hinUse, hnodup⟩

/-- The oldest handle on the list of those that are not in use. -/
theorem next_lru (h : Rings c lru inUse) :
    c.next .lru = (lru.head?.map ListNode.handle).getD .lru := by
  rw [h.lruRing.next_head]
  cases lru <;> rfl

end Rings

/-- What is known of a handle that is there. -/
structure LiveOk (hash : Bytes → Nat) (c : LRUCache) (held lru inUse : List Nat) (n : Nat)
    (e : LRUHandle) : Prop where
  refs : e.refs = held.count n + e.inCache.toNat
  pos : 0 < e.refs
  hashed : e.hash = hash e.key
  onLru : n ∈ lru ↔ e.inCache = true ∧ e.refs = 1
  onInUse : n ∈ inUse ↔ e.inCache = true ∧ 2 ≤ e.refs
  allocated : n < c.allocated
  notDeleted : n ∉ c.deleted.map Prod.fst

/-- What is known of a handle that is not there. -/
structure GoneOk (c : LRUCache) (held lru inUse : List Nat) (n : Nat) : Prop where
  notHeld : n ∉ held
  notLru : n ∉ lru
  notInUse : n ∉ inUse
  deleted : n ∈ c.deleted.map Prod.fst ↔ n < c.allocated

/-- The invariant of a handle. -/
def HandleOk (hash : Bytes → Nat) (c : LRUCache) (held lru inUse : List Nat) (n : Nat) : Prop :=
  match c.handles n with
  | some e => LiveOk hash c held lru inUse n e
  | none => GoneOk c held lru inUse n

/-- The charge of a handle. -/
def chargeOf (handles : Handles) (n : Nat) : Nat := ((handles n).map fun e => e.charge.toNat).getD 0

/-- The sum of the charges of handles, as it is kept in 64 bits. -/
def usageOf (handles : Handles) (l : List Nat) : Nat := (l.map (chargeOf handles)).sum % 2 ^ 64

/-- The invariant of the cache, less that of its table. -/
structure CacheOk (hash : Bytes → Nat) (c : LRUCache) (held lru inUse : List Nat) : Prop where
  rings : Rings c lru inUse
  each : ∀ n, HandleOk hash c held lru inUse n
  usage : c.usage = usageOf c.handles (lru ++ inUse)
  deletedNodup : (c.deleted.map Prod.fst).Nodup
  deletedRefs : ∀ d ∈ c.deleted, d.2.refs = 0

section Invariant

variable {hash : Bytes → Nat} {c c' : LRUCache} {held held' lru lru' inUse inUse' l l' : List Nat}
  {n : Nat} {e : LRUHandle} {handles handles' : Handles}

theorem usageOf_congr (hperm : l'.Perm l)
    (hcharge : ∀ m ∈ l, chargeOf handles' m = chargeOf handles m) :
    usageOf handles' l' = usageOf handles l := by
  rw [usageOf, usageOf, (hperm.map _).sum_eq, List.map_congr_left hcharge]

theorem HandleOk.live (h : HandleOk hash c held lru inUse n) (hn : c.handles n = some e) :
    LiveOk hash c held lru inUse n e := by
  rw [HandleOk, hn] at h
  exact h

theorem HandleOk.gone (h : HandleOk hash c held lru inUse n) (hn : c.handles n = none) :
    GoneOk c held lru inUse n := by
  rw [HandleOk, hn] at h
  exact h

theorem handleOk_some (hn : c.handles n = some e) (h : LiveOk hash c held lru inUse n e) :
    HandleOk hash c held lru inUse n := by
  rw [HandleOk, hn]
  exact h

theorem handleOk_none (hn : c.handles n = none) (h : GoneOk c held lru inUse n) :
    HandleOk hash c held lru inUse n := by
  rw [HandleOk, hn]
  exact h

/-- A handle that an operation leaves alone. -/
theorem HandleOk.congr (h : HandleOk hash c held lru inUse n)
    (hhandles : c'.handles n = c.handles n) (hheld : held'.count n = held.count n)
    (hlru : n ∈ lru' ↔ n ∈ lru) (hinUse : n ∈ inUse' ↔ n ∈ inUse)
    (hallocated : n < c'.allocated ↔ n < c.allocated)
    (hdeleted : n ∈ c'.deleted.map Prod.fst ↔ n ∈ c.deleted.map Prod.fst) :
    HandleOk hash c' held' lru' inUse' n := by
  cases hn : c.handles n with
  | some e =>
    have hlive := h.live hn
    exact handleOk_some (hhandles.trans hn) ⟨hheld ▸ hlive.refs, hlive.pos, hlive.hashed,
      hlru.trans hlive.onLru, hinUse.trans hlive.onInUse, hallocated.mpr hlive.allocated,
      fun hmem => hlive.notDeleted (hdeleted.mp hmem)⟩
  | none =>
    have hgone := h.gone hn
    refine handleOk_none (hhandles.trans hn) ⟨?_, fun hmem => hgone.notLru (hlru.mp hmem),
      fun hmem => hgone.notInUse (hinUse.mp hmem),
      hdeleted.trans (hgone.deleted.trans hallocated.symm)⟩
    rw [← List.count_eq_zero, hheld, List.count_eq_zero]
    exact hgone.notHeld

/-- A handle that is held is there. -/
theorem CacheOk.held_live (ok : CacheOk hash c held lru inUse) (hn : n ∈ held) :
    ∃ e, c.handles n = some e ∧ LiveOk hash c held lru inUse n e := by
  cases he : c.handles n with
  | none => exact absurd hn ((ok.each n).gone he).notHeld
  | some e => exact ⟨e, rfl, (ok.each n).live he⟩

/-- A handle on one of the lists is in the cache. -/
theorem CacheOk.listed_live (ok : CacheOk hash c held lru inUse) (hn : n ∈ lru ++ inUse) :
    ∃ e, c.handles n = some e ∧ e.inCache = true ∧ LiveOk hash c held lru inUse n e := by
  cases he : c.handles n with
  | none =>
    have hgone := (ok.each n).gone he
    rcases List.mem_append.mp hn with hn | hn
    · exact absurd hn hgone.notLru
    · exact absurd hn hgone.notInUse
  | some e =>
    have hlive := (ok.each n).live he
    refine ⟨e, rfl, ?_, hlive⟩
    rcases List.mem_append.mp hn with hn | hn
    · exact (hlive.onLru.mp hn).1
    · exact (hlive.onInUse.mp hn).1

/-- A handle in the cache is on one of the lists. -/
theorem LiveOk.listed (h : LiveOk hash c held lru inUse n e) (hcached : e.inCache = true) :
    n ∈ lru ++ inUse := by
  have hpos := h.pos
  rw [List.mem_append, h.onLru, h.onInUse]
  by_cases hone : e.refs = 1
  · exact .inl ⟨hcached, hone⟩
  · exact .inr ⟨hcached, by omega⟩

/-- A handle that is not in the cache is on no list. -/
theorem LiveOk.not_listed (h : LiveOk hash c held lru inUse n e) (hcached : e.inCache = false) :
    n ∉ lru ∧ n ∉ inUse := by
  rw [h.onLru, h.onInUse, hcached]
  exact ⟨fun h => Bool.false_ne_true h.1, fun h => Bool.false_ne_true h.1⟩

end Invariant

end WiscKey
