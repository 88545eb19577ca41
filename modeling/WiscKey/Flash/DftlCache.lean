import WiscKey.Flash.DftlLeak
import WiscKey.Flash.LruListInvariant

/-!
# The cached mapping table and the offsets in the mapping table

Every cluster remembers its element of the LRU list. Hits and insertions keep the offsets and
the list together. An eviction does not tell the evicted cluster, and a collection looks for the
copied clusters at position -1, in front of the list.
-/

namespace WiscKey.Flash

/-- The keys in the list, from the head on. -/
def LRUListD.contents (l : LRUListD) : List Int :=
  (followLinks l.nexts l.len.toNat l.head).map l.keys

/-- The offsets in the table and the list, as the table has them. -/
structure CacheRep (used unused : List Int) (l : LRUListD) (offset : Int → Int) : Prop where
  rep : LruRep used unused l
  key_nonneg : ∀ p ∈ used, 0 ≤ l.keys p
  listed : ∀ p ∈ used, offset (l.keys p) = p
  offset : ∀ c, offset c ≠ dftlPointToNull → offset c ∈ used ∧ l.keys (offset c) = c

/-- The offsets say which clusters are in the list, and where. -/
def CoherentWith (l : LRUListD) (offset : Int → Int) : Prop :=
  ∀ c, 0 ≤ c → (offset c ≠ dftlPointToNull ↔ c ∈ l.contents) ∧
    (offset c ≠ dftlPointToNull → (l.element (offset c)).key = c)

variable {used unused : List Int} {l : LRUListD} {offset : Int → Int} {c pos : Int}

theorem LruRep.contents_eq (h : LruRep used unused l) : l.contents = used.map l.keys := by
  unfold LRUListD.contents
  rw [h.len, Int.toNat_natCast, followLinks_linked h.threaded.next h.threaded.head]

/-- An element in use has a position that is not null. -/
theorem CacheRep.ne_null (h : CacheRep used unused l offset) (hpos : pos ∈ used) :
    pos ≠ dftlPointToNull := by
  have hnonneg := h.rep.nonneg pos (List.mem_append_left _ hpos)
  unfold dftlPointToNull
  omega

theorem CacheRep.coherent (h : CacheRep used unused l offset) : CoherentWith l offset := by
  intro c _
  refine ⟨?_, fun hc => (h.offset c hc).2⟩
  rw [h.rep.contents_eq, List.mem_map]
  constructor
  · intro hc
    exact ⟨offset c, h.offset c hc⟩
  · rintro ⟨p, hp, rfl⟩
    rw [h.listed p hp]
    exact h.ne_null hp

/-- A hit moves the cluster's element to the head. -/
theorem CacheRep.move (h : CacheRep used unused l offset) (hc : offset c ≠ dftlPointToNull) :
    ∃ used', CacheRep used' unused (l.moveElemenetToTheHeadofLRUListD c (offset c)) offset ∧
      (l.moveElemenetToTheHeadofLRUListD c (offset c)).head = offset c := by
  obtain ⟨hmem, hkey⟩ := h.offset c hc
  obtain ⟨used', hrep, hperm, hhead, hkeys⟩ := h.rep.move hmem hkey
  refine ⟨used', ⟨hrep, ?_, ?_, ?_⟩, hhead⟩
  · intro p hp
    rw [hkeys]
    exact h.key_nonneg p (hperm.mem_iff.mp hp)
  · intro p hp
    rw [hkeys]
    exact h.listed p (hperm.mem_iff.mp hp)
  · intro c' hc'
    rw [hkeys, hperm.mem_iff]
    exact h.offset c' hc'

theorem CacheRep.setDirty (h : CacheRep used unused l offset) (key pos : Int) :
    CacheRep used unused (l.setElementDirtyD key pos) offset := by
  obtain ⟨hrep, hkeys, -⟩ := h.rep.setDirty key pos
  refine ⟨hrep, ?_, ?_, ?_⟩
  · rw [hkeys]
    exact h.key_nonneg
  · rw [hkeys]
    exact h.listed
  · rw [hkeys]
    exact h.offset

/-- A miss takes an unused element. -/
theorem CacheRep.insert (h : CacheRep used (unused ++ [pos]) l offset) (hc : 0 ≤ c)
    (hnull : offset c = dftlPointToNull) :
    ∃ l', l.putElementToTheHeadOfLRUListD c = some (pos, l') ∧
      CacheRep (pos :: used) unused l' (Function.update offset c pos) := by
  obtain ⟨l', hput, hrep, hkeys⟩ := h.rep.insert c
  have hother : ∀ p ∈ used, p ≠ pos := by
    intro p hp heq
    have hnodup := List.nodup_cons.mp (List.nodup_append.mp hrep.nodup).1
    exact hnodup.1 (heq ▸ hp)
  have hnew : ∀ p ∈ used, l.keys p ≠ c := by
    intro p hp heq
    have hlisted := h.listed p hp
    rw [heq, hnull] at hlisted
    exact h.ne_null hp hlisted.symm
  refine ⟨l', hput, hrep, ?_, ?_, ?_⟩
  · intro p hp
    rw [hkeys]
    rcases List.mem_cons.mp hp with rfl | hp
    · rw [Function.update_self]
      exact hc
    · rw [Function.update_of_ne (hother p hp)]
      exact h.key_nonneg p hp
  · intro p hp
    rw [hkeys]
    rcases List.mem_cons.mp hp with rfl | hp
    · rw [Function.update_self, Function.update_self]
    · rw [Function.update_of_ne (hother p hp), Function.update_of_ne (hnew p hp)]
      exact h.listed p hp
  · intro c' hc'
    rw [hkeys]
    by_cases hcc : c' = c
    · subst c'
      rw [Function.update_self, Function.update_self]
      exact ⟨List.mem_cons_self, rfl⟩
    · rw [Function.update_of_ne hcc] at hc' ⊢
      obtain ⟨hmem, hkey⟩ := h.offset c' hc'
      rw [Function.update_of_ne (hother _ hmem)]
      exact ⟨List.mem_cons_of_mem _ hmem, hkey⟩

section Eviction

variable {key : Int}

theorem putFree_first (h : l.freeLen = 0) : (l.putElementToFreeElementListD pos).freeLen = 1 ∧
    (l.putElementToFreeElementListD pos).freeTail = pos ∧
    (l.putElementToFreeElementListD pos).len = l.len := by
  unfold LRUListD.putElementToFreeElementListD
  simp only [h]
  exact ⟨rfl, rfl, rfl⟩

/-- The tail of a full list becomes its only unused element. -/
theorem removeTail_full {timeWritePage time : Int} (hlen : l.len ≠ 0) (hfree : l.freeLen = 0) :
    ∃ k l' time', l.removeTheTailElemenetFromLRUListD timeWritePage time = some (k, l', time') ∧
      l'.len = l.len - 1 ∧ l'.freeLen = 1 ∧ l'.freeTail = l.tail := by
  unfold LRUListD.removeTheTailElemenetFromLRUListD
  rw [if_neg hlen]
  refine ⟨_, _, _, rfl, ?_⟩
  simp only
  split
  · obtain ⟨hone, htail, hlen'⟩ := @putFree_first
      (({ l with len := l.len - 1, tail := (l.element l.tail).previous } : LRUListD).setNext
        (l.element l.tail).previous lruElementPointToNull) l.tail hfree
    exact ⟨hlen', hone, htail⟩
  · obtain ⟨hone, htail, hlen'⟩ := @putFree_first { l with len := l.len - 1 } l.tail hfree
    exact ⟨hlen', hone, htail⟩

/-- The only unused element is taken. -/
theorem putElement_one (hfree : l.freeLen = 1) :
    ∃ l', l.putElementToTheHeadOfLRUListD key = some (l.freeTail, l') ∧ l'.len = l.len + 1 := by
  unfold LRUListD.putElementToTheHeadOfLRUListD LRUListD.getElementFromFreeElementListD
  simp only [hfree]
  split
  · rename_i heq
    cases heq
  · rename_i pos l₁ heq
    obtain ⟨rfl, rfl⟩ := Prod.mk.inj (Option.some.inj heq)
    split
    · exact ⟨_, rfl, rfl⟩
    · exact ⟨_, rfl, rfl⟩

theorem putElement_none (hfree : l.freeLen = 0) : l.putElementToTheHeadOfLRUListD key = none := by
  unfold LRUListD.putElementToTheHeadOfLRUListD LRUListD.getElementFromFreeElementListD
  rw [if_pos hfree]

/-- Inserting into a full list takes two rounds and the element of the tail. -/
theorem putElemenet_full {timeWritePage time : Int} {fuel : Nat} (hlen : l.len ≠ 0)
    (hfree : l.freeLen = 0) :
    ∃ l' time', l.putElemenetToLRUListD timeWritePage key (fuel + 2) time =
      some (l.tail, l', time') ∧ l'.len = l.len := by
  obtain ⟨k, l₁, time₁, hremove, hlen₁, hfree₁, htail₁⟩ :=
    @removeTail_full l timeWritePage time hlen hfree
  obtain ⟨l₂, hput₂, hlen₂⟩ := @putElement_one l₁ key hfree₁
  refine ⟨l₂, time₁, ?_, by omega⟩
  unfold LRUListD.putElemenetToLRUListD
  rw [putElement_none hfree, hremove]
  simp only
  unfold LRUListD.putElemenetToLRUListD
  rw [hput₂, htail₁]

/-- Inserting into a full list evicts its tail. -/
theorem LruRep.evict (h : LruRep used [] l) {timeWritePage time time' : Int} {fuel : Nat}
    {l' : LRUListD}
    (hput : l.putElemenetToLRUListD timeWritePage key fuel time = some (pos, l', time')) :
    used ≠ [] ∧ pos = l.tail ∧ l'.len = l.len := by
  have hfree : l.freeLen = 0 := h.freeLen
  have hlen := h.len
  have hne : used ≠ [] := by
    rintro rfl
    have hremove : ∀ time, l.removeTheTailElemenetFromLRUListD timeWritePage time = none :=
      fun time => if_pos hlen
    induction fuel generalizing time with
    | zero => cases hput
    | succ fuel ih =>
      unfold LRUListD.putElemenetToLRUListD at hput
      rw [putElement_none hfree, hremove] at hput
      exact ih hput
  have hpos := List.length_pos_of_ne_nil hne
  refine ⟨hne, ?_⟩
  cases fuel with
  | zero => cases hput
  | succ fuel =>
    cases fuel with
    | zero =>
      unfold LRUListD.putElemenetToLRUListD at hput
      rw [putElement_none hfree] at hput
      simp only at hput
      split at hput
      · cases hput
      · cases hput
    | succ fuel =>
      obtain ⟨l₁, time₁, hput₁, hlen₁⟩ :=
        @putElemenet_full l key timeWritePage time fuel (by omega) hfree
      rw [hput₁] at hput
      simp only [Option.some.injEq, Prod.mk.injEq] at hput
      obtain ⟨rfl, rfl, -⟩ := hput
      exact ⟨rfl, hlen₁⟩

/-- The tail of a list that is not empty. -/
theorem LruRep.tail_nonneg (h : LruRep used unused l) (hne : used ≠ []) : 0 ≤ l.tail := by
  obtain ⟨last, hlast⟩ := Option.isSome_iff_exists.mp (List.getLast?_isSome.mpr hne)
  rw [h.threaded.tail last hlast]
  exact h.nonneg last (List.mem_append_left _ (List.mem_of_getLast? hlast))

end Eviction

/-- The evicted cluster keeps its offset: there are more offsets than elements. -/
theorem CacheRep.evict_incoherent (h : CacheRep used unused l offset) (hc : 0 ≤ c)
    (hnull : offset c = dftlPointToNull) {l' : LRUListD} (hlen : l'.len = l.len) (hpos : 0 ≤ pos) :
    ¬ CoherentWith l' (Function.update offset c pos) := by
  intro hcoherent
  have hnew : c ∉ used.map l.keys := by
    intro hm
    obtain ⟨p, hp, rfl⟩ := List.mem_map.mp hm
    rw [h.listed p hp] at hnull
    exact h.ne_null hp hnull
  have hnodup : (c :: used.map l.keys).Nodup := by
    refine List.nodup_cons.mpr ⟨hnew, ?_⟩
    refine (List.nodup_append.mp h.rep.nodup).1.map_on fun p hp q hq heq => ?_
    rw [← h.listed p hp, heq, h.listed q hq]
  have hsub : c :: used.map l.keys ⊆ l'.contents := by
    intro c' hm
    rcases List.mem_cons.mp hm with rfl | hm
    · refine (hcoherent c' hc).1.mp ?_
      rw [Function.update_self]
      unfold dftlPointToNull
      omega
    · obtain ⟨p, hp, rfl⟩ := List.mem_map.mp hm
      refine (hcoherent _ (h.key_nonneg p hp)).1.mp ?_
      have hne : l.keys p ≠ c := fun he => hnew (he ▸ hm)
      rw [Function.update_of_ne hne, h.listed p hp]
      exact h.ne_null hp
  have hle := (List.subperm_of_subset hnodup hsub).length_le
  have hwalk : ∀ n p, (followLinks l'.nexts n p).length = n := by
    intro n
    induction n with
    | zero => exact fun _ => rfl
    | succ n ih => exact fun p => congrArg Nat.succ (ih _)
  have hlen₀ := h.rep.len
  unfold LRUListD.contents at hle
  rw [List.length_cons, List.length_map, List.length_map, hwalk, hlen, hlen₀] at hle
  simp only [Int.toNat_natCast] at hle
  omega

section Layer

variable {g : Geometry} {t : Timing} {data : Finset Int} {free : List Int} {s s' : Dftl}
  {fuel : Nat}

/-- The offsets of the clusters in the list. -/
def offsets (s : Dftl) (c : Int) : Int := (s.dftlTable c).lruOffset

/-- A cluster has an offset if and only if the list contains it, and then its element is at that
offset. -/
def CacheCoherent (s : Dftl) : Prop := CoherentWith s.cmtLRUList (offsets s)

/-- The mapping of the call is in the list, is not looked for, or finds an unused element. -/
def HasRoom (s : Dftl) : DftlCall → Prop
  | .write c => (s.dftlTable c).lruOffset ≠ dftlPointToNull ∨ 0 < s.cmtLRUList.freeLen
  | .read c => (s.dftlTable c).lruOffset ≠ dftlPointToNull ∨
      (s.dftlTable c).block = dftlPointToNull ∨ 0 < s.cmtLRUList.freeLen

instance (s : Dftl) : DecidablePred (HasRoom s)
  | .write _ => inferInstanceAs (Decidable (_ ∨ _))
  | .read _ => inferInstanceAs (Decidable (_ ∨ _))

/-- The condition on a call under which it evicts nothing and its collection leaves the list
alone. -/
def KeepsCache (g : Geometry) (s : Dftl) (call : DftlCall) : Prop :=
  HasRoom s call ∧ match call with
    | .write _ => Quiet g s
    | .read _ => True

theorem setLruOffset_offsets (s : Dftl) (c offset : Int) :
    offsets (setLruOffset s c offset) = Function.update (offsets s) c offset := by
  ext c'
  by_cases hcc : c' = c
  · subst c'
    simp [offsets, setLruOffset]
  · simp [offsets, setLruOffset, hcc]

/-- What inserting a mapping does to the list and the offsets. -/
def MappingInserted (t : Timing) (fuel : Nat) (s : Dftl) (c time : Int) (l : LRUListD) (pos : Int) :
    Prop :=
  ∃ time', s.cmtLRUList.putElemenetToLRUListD t.timeWritePage c fuel time = some (pos, l, time')

theorem insertMapping_inserted {time time' pos : Int}
    (hok : insertMapping t fuel s c time = .ok (pos, s', time')) :
    MappingInserted t fuel s c time s'.cmtLRUList pos ∧ offsets s' = offsets s := by
  unfold insertMapping at hok
  split at hok
  · cases hok
  · rename_i pos' l' time'' hput
    simp only [Except.ok.injEq, Prod.mk.injEq] at hok
    obtain ⟨rfl, rfl, rfl⟩ := hok
    exact ⟨⟨_, hput⟩, rfl⟩

/-- The list and the offsets after a hit. -/
def ListHit (s : Dftl) (c : Int) (s' : Dftl) : Prop :=
  ∃ l, (l = s.cmtLRUList.moveElemenetToTheHeadofLRUListD c (offsets s c) ∨
      l = (s.cmtLRUList.moveElemenetToTheHeadofLRUListD c (offsets s c)).setElementDirtyD c
        (offsets s c)) ∧
    s'.cmtLRUList = l ∧ offsets s' = Function.update (offsets s) c l.head

/-- The list and the offsets after a miss. -/
def ListMiss (t : Timing) (fuel : Nat) (s : Dftl) (c : Int) (s' : Dftl) : Prop :=
  ∃ time l pos, MappingInserted t fuel s c time l pos ∧
    (s'.cmtLRUList = l ∨ s'.cmtLRUList = l.setElementDirtyD c pos) ∧
    offsets s' = Function.update (offsets s) c pos

theorem cacheForWrite_list (hok : cacheForWrite t fuel s c = .ok s') :
    (offsets s c ≠ dftlPointToNull ∧ ListHit s c s') ∨
      (offsets s c = dftlPointToNull ∧ ListMiss t fuel s c s') := by
  unfold cacheForWrite at hok
  simp only at hok
  split at hok
  · rename_i hhit
    obtain rfl := Except.ok.inj hok
    exact .inl ⟨hhit, _, .inr rfl, rfl, setLruOffset_offsets _ _ _⟩
  · rename_i hmiss
    cases hins : insertMapping t fuel s c s.accessStatistics.totalWriteRequestTime with
    | error e =>
      rw [hins] at hok
      cases hok
    | ok r =>
      obtain ⟨pos, s₁, time⟩ := r
      obtain ⟨hinserted, hoffsets⟩ := insertMapping_inserted hins
      rw [hins, ok_bind] at hok
      simp only at hok
      refine .inr ⟨not_not.mp hmiss, _, _, pos, hinserted, ?_⟩
      rw [← hoffsets]
      split at hok
      · obtain rfl := Except.ok.inj hok
        exact ⟨.inr rfl, setLruOffset_offsets _ _ _⟩
      · obtain rfl := Except.ok.inj hok
        exact ⟨.inr rfl, setLruOffset_offsets _ _ _⟩

theorem dftlReadOneCluster_list {found : Bool}
    (hok : dftlReadOneCluster t fuel s c = .ok (found, s')) :
    (offsets s c ≠ dftlPointToNull ∧ ListHit s c s') ∨
      (offsets s c = dftlPointToNull ∧ (s.dftlTable c).block ≠ dftlPointToNull ∧
        ListMiss t fuel s c s') ∨ s' = s := by
  unfold dftlReadOneCluster at hok
  simp only at hok
  split at hok
  · rename_i hhit
    simp only [Except.ok.injEq, Prod.mk.injEq] at hok
    obtain ⟨-, rfl⟩ := hok
    exact .inl ⟨hhit, _, .inl rfl, rfl, setLruOffset_offsets _ _ _⟩
  · rename_i hmiss
    split at hok
    · rename_i hmapped
      cases hins : insertMapping t fuel s c s.accessStatistics.totalReadRequestTime with
      | error e =>
        rw [hins] at hok
        cases hok
      | ok r =>
        obtain ⟨pos, s₁, time⟩ := r
        obtain ⟨hinserted, hoffsets⟩ := insertMapping_inserted hins
        rw [hins, ok_bind] at hok
        simp only [Except.ok.injEq, Prod.mk.injEq] at hok
        obtain ⟨-, rfl⟩ := hok
        refine .inr (.inl ⟨not_not.mp hmiss, hmapped, _, _, pos, hinserted, .inl rfl, ?_⟩)
        rw [← hoffsets]
        exact setLruOffset_offsets _ _ _
    · simp only [Except.ok.injEq, Prod.mk.injEq] at hok
      exact .inr (.inr hok.2.symm)

/-- A hit keeps the list and the offsets together. -/
theorem CacheRep.hit (h : CacheRep used unused s.cmtLRUList (offsets s))
    (hc : offsets s c ≠ dftlPointToNull) (hhit : ListHit s c s') :
    ∃ used', CacheRep used' unused s'.cmtLRUList (offsets s') := by
  obtain ⟨used', hmoved, hhead⟩ := h.move hc
  obtain ⟨l, hl, hlist, hoffsets⟩ := hhit
  have hsame : l.head = offsets s c ∧ CacheRep used' unused l (offsets s) := by
    rcases hl with rfl | rfl
    · exact ⟨hhead, hmoved⟩
    · obtain ⟨-, -, hhead'⟩ := hmoved.rep.setDirty c (offsets s c)
      exact ⟨hhead'.trans hhead, hmoved.setDirty c (offsets s c)⟩
  rw [hsame.1, Function.update_eq_self] at hoffsets
  rw [hlist, hoffsets]
  exact ⟨used', hsame.2⟩

/-- A miss that finds an unused element keeps the list and the offsets together. -/
theorem CacheRep.miss (h : CacheRep used unused s.cmtLRUList (offsets s)) (hc : 0 ≤ c)
    (hnull : offsets s c = dftlPointToNull) (hfree : 0 < s.cmtLRUList.freeLen)
    (hmiss : ListMiss t fuel s c s') :
    ∃ pos rest, unused = rest ++ [pos] ∧
      CacheRep (pos :: used) rest s'.cmtLRUList (offsets s') := by
  have hne : unused ≠ [] := by
    rintro rfl
    have hlen : s.cmtLRUList.freeLen = 0 := h.rep.freeLen
    omega
  obtain ⟨rest, last, rfl⟩ := (List.eq_nil_or_concat unused).resolve_left hne
  rw [List.concat_eq_append] at *
  obtain ⟨l', hput, hinserted⟩ := h.insert hc hnull
  obtain ⟨time, l, pos, ⟨time', hput'⟩, hlist, hoffsets⟩ := hmiss
  cases fuel with
  | zero => cases hput'
  | succ fuel =>
    unfold LRUListD.putElemenetToLRUListD at hput'
    rw [hput] at hput'
    simp only [Option.some.injEq, Prod.mk.injEq] at hput'
    obtain ⟨rfl, rfl, -⟩ := hput'
    refine ⟨last, rest, rfl, ?_⟩
    rw [hoffsets]
    rcases hlist with hlist | hlist
    · rw [hlist]
      exact hinserted
    · rw [hlist]
      exact hinserted.setDirty c last

/-- The list and the offsets after a write whose collection leaves the list alone. -/
theorem DftlSettled.write_list (h : DftlSettled g data free s) (hc : 0 ≤ c) (hquiet : Quiet g s)
    (hok : dftlWriteOneCluster g t fuel s c = .ok s') :
    (offsets s c ≠ dftlPointToNull ∧ ListHit s c s') ∨
      (offsets s c = dftlPointToNull ∧ ListMiss t fuel s c s') := by
  obtain ⟨s₁, s₂, s₃, hok₁, hok₂, hok₃, rfl⟩ := dftlWriteOneCluster_ok hok
  obtain ⟨free₁, h₁⟩ := h.ready.replaceFullDataBlk h.blocks hok₁
  have hlist := h₁.list hquiet
  have hoffsets : offsets s₁ = offsets s := funext h₁.keeps.lruOffset
  have hcached₁ : (s₁.dftlTable c).lruOffset ≠ dftlPointToNull →
      (s₁.dftlTable c).block ≠ dftlPointToNull := by
    intro hoff
    rw [h₁.keeps.lruOffset] at hoff
    rw [Ne, h₁.keeps.stored]
    exact h.cached c hoff
  have h₂ := cacheForWrite_cached hcached₁ hok₂
  obtain ⟨rfl, -⟩ := h₁.ready.programCached h.blocks hc h₁.room h₂ hok₃
  have hlast : offsets (countWrite t (dftlProgrammed s₂ c)) = offsets s₂ := by
    ext c'
    by_cases hcc : c' = c
    · subst c'
      simp [offsets, countWrite, dftlProgrammed]
    · simp [offsets, countWrite, dftlProgrammed, hcc]
  have hlast' : (countWrite t (dftlProgrammed s₂ c)).cmtLRUList = s₂.cmtLRUList := rfl
  have hresult := cacheForWrite_list hok₂
  unfold ListHit ListMiss MappingInserted at hresult ⊢
  rw [hlast, hlast']
  rw [hlist, hoffsets] at hresult
  exact hresult

/-- A call that evicts nothing, and whose collection leaves the list alone, keeps the list and
the offsets together. -/
theorem DftlSettled.cache_step (h : DftlSettled g data free s)
    (hcache : CacheRep used unused s.cmtLRUList (offsets s)) {call : DftlCall}
    (hc : 0 ≤ call.clusterID) (hkeeps : KeepsCache g s call)
    (hok : DftlReturns g t s call s') :
    ∃ used' unused', CacheRep used' unused' s'.cmtLRUList (offsets s') := by
  cases call with
  | read c =>
    obtain ⟨fuel, found, hok⟩ := hok
    rcases dftlReadOneCluster_list hok with ⟨hnull, hhit⟩ | ⟨hnull, hmapped, hmiss⟩ | rfl
    · obtain ⟨used', h'⟩ := hcache.hit hnull hhit
      exact ⟨used', unused, h'⟩
    · have hfree := (hkeeps.1.resolve_left (not_not.mpr hnull)).resolve_left hmapped
      obtain ⟨pos, rest, -, h'⟩ := hcache.miss hc hnull hfree hmiss
      exact ⟨pos :: used, rest, h'⟩
    · exact ⟨used, unused, hcache⟩
  | write c =>
    obtain ⟨fuel, hok⟩ := hok
    rcases h.write_list hc hkeeps.2 hok with ⟨hnull, hhit⟩ | ⟨hnull, hmiss⟩
    · obtain ⟨used', h'⟩ := hcache.hit hnull hhit
      exact ⟨used', unused, h'⟩
    · have hfree := hkeeps.1.resolve_left (not_not.mpr hnull)
      obtain ⟨pos, rest, -, h'⟩ := hcache.miss hc hnull hfree hmiss
      exact ⟨pos :: used, rest, h'⟩

/-- An initialised list is empty, and no cluster has an offset. -/
theorem DftlOpened.cache {memory : Int → LRUElementD} {sramSize : Int}
    (h : DftlOpened g memory sramSize data free s) :
    CacheRep [] ((List.range (listLengths g sramSize).1.toNat).map fun i : Nat => (i : Int))
      s.cmtLRUList (offsets s) := by
  rw [h.list]
  refine ⟨createLRUListD_rep memory h.length_nonneg, by simp, by simp, ?_⟩
  intro c hc
  simp [offsets, h.table] at hc

/-- Along a run that evicts nothing, and whose collections leave the list alone, the list and the
offsets stay together. -/
theorem DftlSettled.cache_run {calls : List DftlCall} (h : DftlSettled g data free s)
    (hcache : CacheRep used unused s.cmtLRUList (offsets s))
    (hrun : Run (StepWhen (DftlReturns g t) (KeepsCache g)) s calls s')
    (hcalls : ∀ call ∈ calls, 0 ≤ call.clusterID) : CacheCoherent s' := by
  induction hrun generalizing free used unused with
  | nil => exact hcache.coherent
  | cons head tail ih =>
    have hc := hcalls _ List.mem_cons_self
    obtain ⟨free₁, h₁, -⟩ := h.step hc head.2
    obtain ⟨used₁, unused₁, hcache₁⟩ := h.cache_step hcache hc head.1 head.2
    exact ih h₁ hcache₁ fun call hm => hcalls call (List.mem_cons_of_mem _ hm)

/-- From the initialisation on, the offsets say which clusters are in the list, and where, in
every state of a run that evicts nothing and whose collections leave the list alone. -/
theorem dftlRun_coherent {draws : Draws} {sramSize : Int} {memory : Int → LRUElementD}
    {calls : List DftlCall} (hinit : DftlInitialised g t draws sramSize memory s)
    (hrun : Run (StepWhen (DftlReturns g t) (KeepsCache g)) s calls s')
    (hcalls : ∀ call ∈ calls, 0 ≤ call.clusterID) : CacheCoherent s' := by
  obtain ⟨data, free, hopened⟩ := hinit.opened
  exact hopened.settled.cache_run hopened.cache hrun hcalls

/-- A write whose collection leaves the list alone, and that finds no unused element for its
mapping, evicts a cluster that keeps its offset. -/
theorem DftlSettled.evict_incoherent (h : DftlSettled g data free s)
    (hcache : CacheRep used [] s.cmtLRUList (offsets s)) (hc : 0 ≤ c) (hquiet : Quiet g s)
    (hnull : offsets s c = dftlPointToNull) (hok : DftlReturns g t s (.write c) s') :
    ¬ CacheCoherent s' := by
  obtain ⟨fuel, hok⟩ := hok
  rcases h.write_list hc hquiet hok with ⟨hhit, -⟩ | ⟨-, hmiss⟩
  · exact absurd hnull hhit
  · obtain ⟨time, l, pos, ⟨time', hput⟩, hlist, hoffsets⟩ := hmiss
    obtain ⟨hne, rfl, hlen⟩ := hcache.rep.evict hput
    unfold CacheCoherent
    rw [hoffsets]
    refine hcache.evict_incoherent hc hnull ?_ (hcache.rep.tail_nonneg hne)
    rcases hlist with hlist | hlist
    · rw [hlist]
      exact hlen
    · rw [hlist]
      unfold LRUListD.setElementDirtyD
      split
      · exact hlen
      · exact hlen

/-- A write to a current block with room returns, if its mapping gets an element. -/
theorem DftlSettled.write_returns (h : DftlSettled g data free s)
    (hroom : s.currentDataBlkPageNum < g.maxPage) (hnull : offsets s c = dftlPointToNull)
    (hput : ∃ l pos, MappingInserted t fuel s c s.accessStatistics.totalWriteRequestTime l pos) :
    ∃ s', dftlWriteOneCluster g t fuel s c = .ok s' ∧
      s'.currentDataBlkPageNum = s.currentDataBlkPageNum + 1 := by
  obtain ⟨l, pos, time', hput⟩ := hput
  have hins : insertMapping t fuel s c s.accessStatistics.totalWriteRequestTime =
      .ok (pos, { s with cmtLRUList := l }, time') := by
    unfold insertMapping
    rw [hput]
  obtain ⟨s₁, hcache⟩ : ∃ s₁, cacheForWrite t fuel s c = .ok s₁ := by
    unfold cacheForWrite
    simp only
    rw [if_neg (show ¬ (s.dftlTable c).lruOffset ≠ dftlPointToNull from not_not.mpr hnull), hins,
      ok_bind]
    simp only
    split
    · exact ⟨_, rfl⟩
    · exact ⟨_, rfl⟩
  have h₁ := cacheForWrite_cached (fun hoff => absurd hnull hoff) hcache
  refine ⟨countWrite t (dftlProgrammed s₁ c), ?_, ?_⟩
  · unfold dftlWriteOneCluster replaceFullDataBlk
    rw [if_neg (by omega), ok_bind, hcache, ok_bind, dftlProgram_ok]
    · rfl
    · rw [h₁.block]
      exact h.blocks h.ready.current.mem_data
  · change s₁.currentDataBlkPageNum + 1 = _
    rw [h₁.page]

/-- A current block with room needs no collection. -/
theorem quiet_of_room (hroom : s.currentDataBlkPageNum < g.maxPage) : Quiet g s :=
  fun hcollects => absurd hcollects.1 (not_le.mpr hroom)

/-- The first clusters, written one after the other. -/
def firstWrites (n : Nat) : List DftlCall := (List.range n).map fun i : Nat => .write i

/-- Writing the first clusters fills the list, as far as it and the current block reach. -/
theorem DftlOpened.fill {memory : Int → LRUElementD} {sramSize : Int}
    (h : DftlOpened g memory sramSize data free s) {n : Nat} (hn : n ≤ (listLengths g sramSize).1)
    (hpage : n ≤ g.maxPage) :
    ∃ s' free' used' unused', DftlRun g t s (firstWrites n) s' ∧ DftlSettled g data free' s' ∧
      CacheRep used' unused' s'.cmtLRUList (offsets s') ∧
      used'.length = n ∧ (unused'.length + n : Int) = (listLengths g sramSize).1 ∧
      s'.currentDataBlkPageNum = n ∧ ∀ c : Int, n ≤ c → offsets s' c = dftlPointToNull := by
  induction n with
  | zero =>
    refine ⟨s, free, _, _, .nil s, h.settled, h.cache, rfl, ?_, h.page, ?_⟩
    · have hlen := h.length_nonneg
      rw [List.length_map, List.length_range]
      push_cast
      omega
    · intro c _
      simp [offsets, h.table]
  | succ n ih =>
    obtain ⟨s₁, free₁, used₁, unused₁, hrun, h₁, hcache, hused, hlen, hpage₁, hnew⟩ :=
      ih (by omega) (by omega)
    have hroom : s₁.currentDataBlkPageNum < g.maxPage := by omega
    have hnull := hnew n le_rfl
    have hc : (0 : Int) ≤ n := Int.natCast_nonneg n
    have hfree : 0 < s₁.cmtLRUList.freeLen := by
      rw [hcache.rep.freeLen]
      push_cast at hn
      omega
    obtain ⟨l, pos, hput⟩ : ∃ l pos,
        s₁.cmtLRUList.putElementToTheHeadOfLRUListD n = some (pos, l) := by
      have hne : unused₁ ≠ [] := by
        rintro rfl
        rw [hcache.rep.freeLen] at hfree
        exact absurd hfree (by decide)
      obtain ⟨rest, last, rfl⟩ := (List.eq_nil_or_concat unused₁).resolve_left hne
      rw [List.concat_eq_append] at hcache
      obtain ⟨l, hput, -⟩ := hcache.insert hc hnull
      exact ⟨l, last, hput⟩
    have hinserted : ∃ l pos, MappingInserted t 1 s₁ n
        s₁.accessStatistics.totalWriteRequestTime l pos := by
      refine ⟨l, pos, s₁.accessStatistics.totalWriteRequestTime, ?_⟩
      unfold LRUListD.putElemenetToLRUListD
      rw [hput]
    obtain ⟨s₂, hok, hpage₂⟩ := h₁.write_returns hroom hnull hinserted
    have hreturns : DftlReturns g t s₁ (.write n) s₂ := ⟨1, hok⟩
    obtain ⟨free₂, h₂, -⟩ := h₁.step (show 0 ≤ (DftlCall.write n).clusterID from hc) hreturns
    rcases h₁.write_list hc (quiet_of_room hroom) hok with ⟨hhit, -⟩ | ⟨-, hmiss⟩
    · exact absurd hnull hhit
    · obtain ⟨pos', rest, rfl, hcache₂⟩ := hcache.miss hc hnull hfree hmiss
      obtain ⟨time, l', pos'', -, -, hoffsets⟩ := hmiss
      refine ⟨s₂, free₂, _, rest, ?_, h₂, hcache₂, congrArg Nat.succ hused, ?_, ?_, ?_⟩
      · unfold firstWrites
        rw [List.range_succ, List.map_append]
        exact hrun.concat hreturns
      · rw [List.length_append, List.length_singleton] at hlen
        push_cast at hlen ⊢
        omega
      · rw [hpage₂, hpage₁]
        push_cast
        rfl
      · intro c hc'
        push_cast at hc'
        rw [hoffsets, Function.update_of_ne (by omega)]
        exact hnew c (by omega)

/-- One more write than the list has elements evicts a cluster. -/
theorem DftlOpened.overfill {memory : Int → LRUElementD} {sramSize : Int}
    (h : DftlOpened g memory sramSize data free s) {n : Nat} (hn : n = (listLengths g sramSize).1)
    (hpos : 0 < n) (hpage : n < g.maxPage) :
    ∃ s', DftlRun g t s (firstWrites (n + 1)) s' ∧ ¬ CacheCoherent s' := by
  obtain ⟨s₁, free₁, used₁, unused₁, hrun, h₁, hcache, hused, hlen, hpage₁, hnew⟩ :=
    h.fill (t := t) hn.le hpage.le
  have hroom : s₁.currentDataBlkPageNum < g.maxPage := by omega
  have hnull := hnew n le_rfl
  have hc : (0 : Int) ≤ n := Int.natCast_nonneg n
  obtain rfl : unused₁ = [] := List.eq_nil_of_length_eq_zero (by omega)
  have hcached₀ : s₁.cmtLRUList.len ≠ 0 := by
    rw [hcache.rep.len]
    omega
  obtain ⟨l, time', hput, -⟩ := @putElemenet_full s₁.cmtLRUList n t.timeWritePage
    s₁.accessStatistics.totalWriteRequestTime 0 hcached₀ hcache.rep.freeLen
  obtain ⟨s₂, hok, -⟩ := h₁.write_returns hroom hnull ⟨l, _, time', hput⟩
  have hreturns : DftlReturns g t s₁ (.write n) s₂ := ⟨2, hok⟩
  refine ⟨s₂, ?_, h₁.evict_incoherent hcache hc (quiet_of_room hroom) hnull hreturns⟩
  unfold firstWrites
  rw [List.range_succ, List.map_append]
  exact hrun.concat hreturns

/-- A collection leaves the list alone while the cluster in front of it is not cached. -/
theorem keepsCache_of_front {call : DftlCall} (h : HasRoom s call ∧
    (s.dftlTable (s.cmtLRUList.element (-1)).key).lruOffset = dftlPointToNull) :
    KeepsCache g s call := by
  refine ⟨h.1, ?_⟩
  cases call with
  | read c => trivial
  | write c =>
    rintro - victims page - v - ⟨p, -, -, -, hcached⟩
    exact hcached h.2

/-- A run with inserted mappings, a read and writes that hit, and a collection that copies two
cached clusters. -/
theorem dftlRun_coherent_small : ∃ s s' : Dftl,
    DftlInitialised smallGeometry smallTiming noneBad 1 clearedMemory s ∧
      Run (StepWhen (DftlReturns smallGeometry smallTiming) (KeepsCache smallGeometry)) s
        [.write 1, .write 2, .read 1, .write 3, .write 4, .write 1, .write 3, .write 5, .read 2] s' ∧
      s'.hitCnt = 4 ∧ s'.accessStatistics.totalBlockEraseCount = 2 ∧
      s'.accessStatistics.totalLivePageCopyings = 2 ∧ CacheCoherent s' := by
  obtain ⟨s, s', hinit, hchecked, hcounts⟩ := @exists_checkedRun smallGeometry smallTiming 9 noneBad
    1 clearedMemory
    [.write 1, .write 2, .read 1, .write 3, .write 4, .write 1, .write 3, .write 5, .read 2]
    (fun s call _ => decide (HasRoom s call ∧
      (s.dftlTable (s.cmtLRUList.element (-1)).key).lruOffset = dftlPointToNull))
    (fun s' => decide (s'.hitCnt = 4 ∧ s'.accessStatistics.totalBlockEraseCount = 2 ∧
      s'.accessStatistics.totalLivePageCopyings = 2)) (by decide +kernel)
  have hrun := hchecked.mono fun s call s' hstep =>
    (⟨keepsCache_of_front (of_decide_eq_true hstep.2), hstep.1⟩ :
      StepWhen (DftlReturns smallGeometry smallTiming) (KeepsCache smallGeometry) s call s')
  obtain ⟨hhits, herased, hcopied⟩ := of_decide_eq_true hcounts
  exact ⟨s, s', hinit, hrun, hhits, herased, hcopied, dftlRun_coherent hinit hrun (by decide)⟩

/-- One megabyte of SRAM has room for 131071 mappings; the next one evicts the first, which keeps
its offset. -/
theorem dftlRun_evicts : ∃ s s' : Dftl,
    DftlInitialised longBlocks smallTiming noneBad 1 clearedMemory s ∧
      DftlRun longBlocks smallTiming s (firstWrites 131072) s' ∧ ¬ CacheCoherent s' := by
  obtain ⟨s, -, hinit, -⟩ := @exists_dftlRun longBlocks smallTiming 3 noneBad 1 clearedMemory []
    (fun _ => true) (by decide +kernel)
  obtain ⟨data, free, hopened⟩ := hinit.opened
  have hlength : ((131071 : Nat) : Int) = (listLengths longBlocks 1).1 := by decide +kernel
  have hpages : 131071 < longBlocks.maxPage := by decide +kernel
  obtain ⟨s', hrun, hincoherent⟩ :=
    hopened.overfill (t := smallTiming) hlength (Nat.succ_pos _) hpages
  exact ⟨s, s', hinit, hrun, hincoherent⟩

end Layer

end WiscKey.Flash
