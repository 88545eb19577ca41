import WiscKey.Flash.LruList
import WiscKey.Flash.LruListOps
import WiscKey.Library.Runs

/-!
# Runs of the LRU list

The list of the striping layer behaves as a list of keys, the one used last in front. It is
documented to move a key that it has already, and inserts it once more. The list of the cached
mapping table tells the keys that were written from the others, as long as no key is put into a
slot that still carries the flag of an earlier one.
-/

namespace WiscKey.Flash

variable {capacity fuel : Nat} {used unused l₁ l₂ : List Int} {l l' : LRUListD} {pos key : Int}

/-- The positions of the list, from the head on. -/
def LRUListD.members (l : LRUListD) : List Int := followLinks l.nexts l.len.toNat l.head

theorem LruRep.members_eq (h : LruRep used unused l) : l.members = used := by
  unfold LRUListD.members
  rw [h.len, Int.toNat_natCast, followLinks_linked h.threaded.next h.threaded.head]

/-- The search goes through the positions of the list. -/
theorem findElementD_eq (n : Nat) (ptr : Int) : l.findElementD key n ptr =
    (followLinks l.nexts n ptr).find? fun p => l.keys p = key := by
  induction n generalizing ptr with
  | zero => rfl
  | succ n ih =>
    unfold LRUListD.findElementD followLinks
    rw [List.find?_cons]
    by_cases hkey : (l.element ptr).key = key
    · have hd : decide (l.keys ptr = key) = true := decide_eq_true hkey
      rw [if_pos hkey, hd]
    · have hd : decide (l.keys ptr = key) = false := decide_eq_false hkey
      rw [if_neg hkey, hd]
      exact ih _

/-- The position that is found is the first one with the key. -/
theorem LruRep.found (h : LruRep used unused l) (hfind : l.isElemenetInLRUListD key = some pos) :
    ∃ l₁ l₂, used = l₁ ++ pos :: l₂ ∧ l.keys pos = key ∧ ∀ p ∈ l₁, l.keys p ≠ key := by
  unfold LRUListD.isElemenetInLRUListD at hfind
  rw [findElementD_eq] at hfind
  change l.members.find? _ = _ at hfind
  rw [h.members_eq, List.find?_eq_some_iff_append] at hfind
  obtain ⟨hkey, l₁, l₂, hused, hfirst⟩ := hfind
  exact ⟨l₁, l₂, hused, by simpa using hkey, fun p hp => by simpa using hfirst p hp⟩

/-- A key of the list is found. -/
theorem LruRep.finds (h : LruRep used unused l) (hkey : key ∈ used.map l.keys) :
    ∃ pos, l.isElemenetInLRUListD key = some pos := by
  unfold LRUListD.isElemenetInLRUListD
  rw [findElementD_eq]
  change ∃ pos, l.members.find? _ = some pos
  rw [h.members_eq]
  obtain ⟨p, hp, hk⟩ := List.mem_map.mp hkey
  refine Option.isSome_iff_exists.mp (List.find?_isSome.mpr ⟨p, hp, ?_⟩)
  simpa using hk

/-- Writing the key of another slot leaves the entries alone. -/
theorem entries_update (hnot : pos ∉ used) (hkeys : l'.keys = Function.update l.keys pos key)
    (hdirties : l'.dirties = l.dirties) : used.map l'.entry = used.map l.entry := by
  refine List.map_congr_left fun p hp => ?_
  have hne : p ≠ pos := fun he => hnot (he ▸ hp)
  simp only [LRUListD.entry, hkeys, hdirties, Function.update_of_ne hne]

/-- The slot that an insertion takes: an unused one, or that of the evicted key. -/
def LRUListD.insertSlot (l : LRUListD) : Option Int :=
  if l.freeLen ≠ 0 then some l.freeTail else if l.len ≠ 0 then some l.tail else none

/-- The time with the write back of the last entry, if it is dirty. -/
def writeBackTime (timeWritePage time : Int) (entries : List (Int × Bool)) : Int :=
  if entries.getLast?.any Prod.snd then time + timeWritePage else time

theorem LruWhole.length_add (h : LruWhole capacity used unused l) :
    used.length + unused.length = capacity := by
  have hlen := h.slots.length_eq
  simpa [lruSlots] using hlen

/-- What an insertion into a list with an unused slot does. -/
theorem LruWhole.put_unused (h : LruWhole capacity used (unused ++ [pos]) l)
    (timeWritePage key time : Int) (fuel : Nat) :
    ∃ l', l.putElemenetToLRUListD timeWritePage key (fuel + 1) time = some (pos, l', time) ∧
      LruWhole capacity (pos :: used) unused l' ∧ l'.keys = Function.update l.keys pos key ∧
      l'.dirties = l.dirties := by
  obtain ⟨l', hput, hrest⟩ := h.insertHead key
  refine ⟨l', ?_, hrest⟩
  unfold LRUListD.putElemenetToLRUListD
  rw [hput]

/-- What an insertion into a full list does. -/
theorem LruWhole.put_full (h : LruWhole capacity (used ++ [pos]) [] l)
    (timeWritePage key time : Int) (fuel : Nat) :
    ∃ l', l.putElemenetToLRUListD timeWritePage key (fuel + 2) time =
        some (pos, l', if l.dirties pos then time + timeWritePage else time) ∧
      LruWhole capacity (pos :: used) [] l' ∧ l'.keys = Function.update l.keys pos key ∧
      l'.dirties = l.dirties := by
  obtain ⟨l₁, hremove, h₁, hkeys₁, hdirties₁⟩ := h.removeTail timeWritePage time
  obtain ⟨l₂, hput, h₂, hkeys₂, hdirties₂⟩ :=
    @LruWhole.put_unused _ _ [] _ _ h₁ timeWritePage key
      (if l.dirties pos then time + timeWritePage else time) fuel
  refine ⟨l₂, ?_, h₂, ?_, hdirties₂.trans hdirties₁⟩
  · rw [LRUListD.putElemenetToLRUListD, putElement_none h.rep.freeLen, hremove]
    exact hput
  · rw [hkeys₂, hkeys₁, Function.update_idem]

/-- What an insertion does: the entry is pushed, with the flag of the slot that it takes. -/
theorem LruWhole.put (h : LruWhole capacity used unused l) {timeWritePage time time' : Int}
    (hput : l.putElemenetToLRUListD timeWritePage key fuel time = some (pos, l', time')) :
    l.insertSlot = some pos ∧ l'.dirties = l.dirties ∧
      (∃ rest unused', LruWhole capacity (pos :: rest) unused' l' ∧ rest ⊆ used ∧
        (pos :: rest).map l'.entry =
          Recency.push capacity (key, l.dirties pos) (used.map l.entry)) ∧
      time' = if l.freeLen = 0 then writeBackTime timeWritePage time (used.map l.entry)
        else time := by
  have hadd := h.length_add
  have hfreeLen := h.rep.freeLen
  have hlen := h.rep.len
  rcases List.eq_nil_or_concat unused with rfl | ⟨unused, p, rfl⟩
  · have hzero : l.freeLen = 0 := hfreeLen
    have hne := (h.rep.evict hput).1
    obtain ⟨used, p, rfl⟩ := (List.eq_nil_or_concat used).resolve_left hne
    rw [List.concat_eq_append] at *
    have htail : l.tail = p := h.rep.threaded.tail p (by simp)
    obtain ⟨hnot, -, -⟩ := h.split
    rw [List.append_nil, List.append_nil] at hnot
    rw [List.length_append, List.length_singleton, List.length_nil] at hadd
    rw [List.length_append, List.length_singleton] at hlen
    cases fuel with
    | zero => cases hput
    | succ fuel =>
      cases fuel with
      | zero =>
        obtain ⟨l₂, hremove, -⟩ := h.removeTail timeWritePage time
        rw [LRUListD.putElemenetToLRUListD, putElement_none hzero, hremove] at hput
        cases hput
      | succ fuel =>
        obtain ⟨l₁, hput₁, h₁, hkeys, hdirties⟩ := h.put_full timeWritePage key time fuel
        rw [hput₁] at hput
        simp only [Option.some.injEq, Prod.mk.injEq] at hput
        obtain ⟨rfl, rfl, rfl⟩ := hput
        refine ⟨?_, hdirties, ⟨used, [], h₁, List.subset_append_left _ _, ?_⟩, ?_⟩
        · rw [LRUListD.insertSlot, if_neg (not_not.mpr hzero), if_pos (by omega), htail]
        · have hfull : capacity ≤ ((used ++ [p]).map l.entry).length := by
            rw [List.length_map, List.length_append, List.length_singleton]
            omega
          rw [Recency.push_of_full hfull, List.map_cons, entries_update hnot hkeys hdirties]
          simp only [LRUListD.entry, hkeys, hdirties, Function.update_self, List.map_append,
            List.map_cons, List.map_nil, List.dropLast_concat]
        · rw [if_pos hzero, writeBackTime, List.map_append, List.map_singleton,
            List.getLast?_concat]
          rfl
  · rw [List.concat_eq_append] at *
    rw [List.length_append, List.length_singleton] at hadd hfreeLen
    have hsome : l.freeLen ≠ 0 := by omega
    have htail : l.freeTail = p := h.rep.freeTail p (by simp)
    cases fuel with
    | zero => cases hput
    | succ fuel =>
      obtain ⟨l₁, hput₁, h₁, hkeys, hdirties⟩ := h.put_unused timeWritePage key time fuel
      rw [hput₁] at hput
      simp only [Option.some.injEq, Prod.mk.injEq] at hput
      obtain ⟨rfl, rfl, rfl⟩ := hput
      have hnot := (List.nodup_cons.mp (List.nodup_append.mp h₁.rep.nodup).1).1
      refine ⟨?_, hdirties, ⟨used, unused, h₁, List.Subset.refl _, ?_⟩, ?_⟩
      · rw [LRUListD.insertSlot, if_pos hsome, htail]
      · rw [Recency.push_of_lt (by rw [List.length_map]; omega), List.map_cons,
          entries_update hnot hkeys hdirties]
        simp only [LRUListD.entry, hkeys, hdirties, Function.update_self]
      · rw [if_neg hsome]

/-- The entries whose key comes first after the others. -/
theorem entries_split (hkey : l.keys pos = key) (hfirst : ∀ p ∈ l₁, l.keys p ≠ key) :
    Recency.discard Prod.fst key ((l₁ ++ pos :: l₂).map l.entry) = (l₁ ++ l₂).map l.entry ∧
      Recency.touch Prod.fst key ((l₁ ++ pos :: l₂).map l.entry) =
        (pos :: (l₁ ++ l₂)).map l.entry := by
  have hfirst' : ∀ e ∈ l₁.map l.entry, e.1 ≠ key := by
    intro e he
    obtain ⟨p, hp, rfl⟩ := List.mem_map.mp he
    exact hfirst p hp
  have hentry : (l.entry pos).1 = key := hkey
  simp only [List.map_append, List.map_cons]
  exact ⟨Recency.discard_append_cons hentry hfirst', Recency.touch_append_cons hentry hfirst'⟩

/-- A key that was found leaves the list. -/
theorem LruWhole.remove_found (h : LruWhole capacity used unused l)
    (hfind : l.isElemenetInLRUListD key = some pos) :
    ∃ used' unused', LruWhole capacity used' unused' (l.removeElemenetFromLRUListD key pos) ∧
      used'.map (l.removeElemenetFromLRUListD key pos).entry =
        Recency.discard Prod.fst key (used.map l.entry) ∧
      (l.removeElemenetFromLRUListD key pos).dirties = l.dirties := by
  obtain ⟨l₁, l₂, rfl, hkey, hfirst⟩ := h.rep.found hfind
  obtain ⟨h', hkeys, hdirties⟩ := h.remove hkey
  have hnot : pos ∉ l₁ ++ l₂ := fun hm => h.split.1 (List.mem_append_left _ hm)
  refine ⟨_, _, h', ?_, hdirties⟩
  rw [(entries_split hkey hfirst).1, entries_update hnot hkeys hdirties]

/-- A key that was found goes to the head. -/
theorem LruWhole.move_found (h : LruWhole capacity used unused l)
    (hfind : l.isElemenetInLRUListD key = some pos) :
    ∃ used', LruWhole capacity used' unused (l.moveElemenetToTheHeadofLRUListD key pos) ∧
      used'.map (l.moveElemenetToTheHeadofLRUListD key pos).entry =
        Recency.touch Prod.fst key (used.map l.entry) ∧
      (l.moveElemenetToTheHeadofLRUListD key pos).dirties = l.dirties := by
  obtain ⟨l₁, l₂, rfl, hkey, hfirst⟩ := h.rep.found hfind
  obtain ⟨h', hkeys, hdirties⟩ := h.moveFront hkey
  refine ⟨_, h', ?_, hdirties⟩
  have hentry : (l.moveElemenetToTheHeadofLRUListD key pos).entry = l.entry := by
    ext p
    · exact congrFun hkeys p
    · exact congrFun hdirties p
  rw [(entries_split hkey hfirst).2, hentry]

/-- The tail of a list that is not empty leaves it. -/
theorem LruWhole.tail_removed (h : LruWhole capacity used unused l) {timeWritePage time : Int} :
    (used = [] → l.removeTheTailElemenetFromLRUListD timeWritePage time = none) ∧
      (used ≠ [] → ∃ l' unused', l.removeTheTailElemenetFromLRUListD timeWritePage time =
          some (l.keys l.tail, l', writeBackTime timeWritePage time (used.map l.entry)) ∧
        LruWhole capacity used.dropLast unused' l' ∧
        used.dropLast.map l'.entry = (used.map l.entry).dropLast ∧ l'.dirties = l.dirties) := by
  constructor
  · rintro rfl
    exact if_pos h.rep.len
  · intro hne
    obtain ⟨used, p, rfl⟩ := (List.eq_nil_or_concat used).resolve_left hne
    rw [List.concat_eq_append] at *
    have htail : l.tail = p := h.rep.threaded.tail p (by simp)
    have hsplit := h.split.1
    rw [List.append_nil] at hsplit
    have hnot : p ∉ used := fun hm => hsplit (List.mem_append_left _ hm)
    obtain ⟨l', hremove, h', hkeys, hdirties⟩ := h.removeTail timeWritePage time
    rw [List.dropLast_concat, htail]
    refine ⟨l', _, ?_, h', ?_, hdirties⟩
    · rw [hremove, writeBackTime, List.map_append, List.map_singleton, List.getLast?_concat]
      rfl
    · rw [List.map_append, List.map_singleton, List.dropLast_concat,
        entries_update hnot hkeys hdirties]

/-- The list as it is created. -/
theorem createLRUListD_whole (memory : Int → LRUElementD) (capacity : Nat) :
    LruWhole capacity [] (lruSlots capacity) (createLRUListD memory capacity) := by
  have hrep := createLRUListD_rep memory (Int.natCast_nonneg capacity)
  rw [Int.toNat_natCast] at hrep
  refine ⟨hrep, ?_, ?_, List.Perm.refl _⟩
  · have hnexts : ∀ i : Nat, i < capacity → (createLRUListD memory capacity).nexts i =
        if i + 1 = capacity then lruElementPointToNull else i + 1 := by
      intro i hi
      simp only [LRUListD.nexts, createLRUListD, Function.comp, Function.update_apply,
        apply_ite LRUElementD.next]
      split_ifs <;> omega
    have hlinked : ∀ m k : Nat, k + m = capacity →
        Linked (createLRUListD memory capacity).nexts lruElementPointToNull
          ((List.range' k m).map fun i : Nat => (i : Int)) := by
      intro m
      induction m with
      | zero => exact fun _ _ => trivial
      | succ m ih =>
        intro k hk
        have hnext := hnexts k (by omega)
        have hrest := ih (k + 1) (by omega)
        cases m with
        | zero => exact hnext.trans (if_pos (by omega))
        | succ m => exact ⟨hnext.trans (if_neg (by omega)), hrest⟩
    have hall := hlinked capacity 0 (Nat.zero_add _)
    rwa [← List.range_eq_range'] at hall
  · intro p hp
    cases capacity with
    | zero => simp [lruSlots] at hp
    | succ n =>
      rw [lruSlots, List.range_succ_eq_map, List.map_cons] at hp
      exact Option.some.inj hp

section Documented

/-- The calls on the list, and the key that a removal of the tail reports. -/
inductive LruCall
  | put (key : Int)
  | remove (key : Int)
  | move (key : Int)
  | removeTail (removed : Option Int)
  deriving DecidableEq, Repr

/-- A call that returns; a key is removed and moved at the position where it was found. -/
inductive LruStep : LRUList → LruCall → LRUList → Prop
  | put {l l' : LRUList} {key pos : Int} {fuel : Nat}
      (h : LRUList.putElemenetToLRUList fuel l key = some (pos, l')) : LruStep l (.put key) l'
  | remove {l : LRUList} {key pos : Int} (h : LRUList.isElemenetInLRUList l key = some pos) :
      LruStep l (.remove key) (LRUList.removeElemenetFromLRUList l key pos)
  | move {l : LRUList} {key pos : Int} (h : LRUList.isElemenetInLRUList l key = some pos) :
      LruStep l (.move key) (LRUList.moveElemenetToTheHeadofLRUList l key pos)
  | removeTail {l l' : LRUList} {key : Int}
      (h : LRUList.removeTheTailElemenetFromLRUList l = some (key, l')) :
      LruStep l (.removeTail (some key)) l'
  | empty {l : LRUList} (h : LRUList.removeTheTailElemenetFromLRUList l = none) :
      LruStep l (.removeTail none) l

/-- What a call does to the list of keys, the one used last in front. -/
inductive RecencyStep (capacity : Nat) : List Int → LruCall → List Int → Prop
  | put (keys : List Int) (key : Int) (h : 0 < capacity) :
      RecencyStep capacity keys (.put key) (Recency.push capacity key keys)
  | remove {keys : List Int} {key : Int} (h : key ∈ keys) :
      RecencyStep capacity keys (.remove key) (keys.erase key)
  | move {keys : List Int} {key : Int} (h : key ∈ keys) :
      RecencyStep capacity keys (.move key) (key :: keys.erase key)
  | removeTail (keys : List Int) :
      RecencyStep capacity keys (.removeTail keys.getLast?) keys.dropLast

end Documented

/-- The list holds the keys, and all its slots are threaded. -/
def ShowsKeys (capacity : Nat) (l : LRUList) (keys : List Int) : Prop :=
  ∃ used unused, LruWhole capacity used unused l ∧ used.map (LRUListD.keys l) = keys

theorem map_entry_fst (used : List Int) : (used.map l.entry).map Prod.fst = used.map l.keys := by
  rw [List.map_map]
  rfl

theorem ShowsKeys.contents {l : LRUList} {keys : List Int} (h : ShowsKeys capacity l keys) :
    LRUListD.contents l = keys := by
  obtain ⟨used, unused, hwhole, hkeys⟩ := h
  rw [hwhole.rep.contents_eq, hkeys]

/-- Every call does to the list what it does to the keys. -/
theorem ShowsKeys.step {l l' : LRUList} {keys : List Int} {call : LruCall}
    (h : ShowsKeys capacity l keys) (hstep : LruStep l call l') :
    ∃ keys', RecencyStep capacity keys call keys' ∧ ShowsKeys capacity l' keys' := by
  obtain ⟨used, unused, hwhole, rfl⟩ := h
  cases hstep with
  | @put _ key pos fuel hput =>
    unfold LRUList.putElemenetToLRUList at hput
    obtain ⟨⟨p, l₁, time⟩, hcall, hp⟩ := Option.map_eq_some_iff.mp hput
    obtain ⟨rfl, rfl⟩ : p = pos ∧ l₁ = l' := Prod.mk.inj hp
    obtain ⟨-, -, ⟨rest, unused', h', -, hentries⟩, -⟩ := hwhole.put hcall
    have hkeys := congrArg (List.map Prod.fst) hentries
    rw [Recency.map_push, map_entry_fst, map_entry_fst] at hkeys
    refine ⟨_, .put _ key ?_, p :: rest, unused', h', hkeys⟩
    have hadd := h'.length_add
    rw [List.length_cons] at hadd
    omega
  | @remove key pos hfind =>
    obtain ⟨used', unused', h', hentries, -⟩ := hwhole.remove_found hfind
    have hkeys := congrArg (List.map Prod.fst) hentries
    rw [Recency.map_discard, map_entry_fst, map_entry_fst] at hkeys
    obtain ⟨l₁, l₂, rfl, hkey, -⟩ := hwhole.rep.found hfind
    exact ⟨_, .remove (by simp [← hkey]), used', unused', h', hkeys⟩
  | @move key pos hfind =>
    obtain ⟨used', h', hentries, -⟩ := hwhole.move_found hfind
    have hkeys := congrArg (List.map Prod.fst) hentries
    obtain ⟨l₁, l₂, rfl, hkey, -⟩ := hwhole.rep.found hfind
    have hmem : key ∈ (l₁ ++ pos :: l₂).map (LRUListD.keys l) := by simp [← hkey]
    rw [Recency.map_touch, map_entry_fst, map_entry_fst, if_pos hmem] at hkeys
    exact ⟨_, .move hmem, used', unused, h', hkeys⟩
  | @removeTail _ key hremove =>
    unfold LRUList.removeTheTailElemenetFromLRUList at hremove
    obtain ⟨⟨k, l₁, time⟩, hcall, hk⟩ := Option.map_eq_some_iff.mp hremove
    obtain ⟨rfl, rfl⟩ : k = key ∧ l₁ = l' := Prod.mk.inj hk
    obtain ⟨hempty, hremoved⟩ := @LruWhole.tail_removed _ _ _ _ hwhole 0 0
    by_cases hne : used = []
    · rw [hempty hne] at hcall
      cases hcall
    · obtain ⟨l₂, unused', hcall', h', hentries, -⟩ := hremoved hne
      rw [hcall'] at hcall
      simp only [Option.some.injEq, Prod.mk.injEq] at hcall
      obtain ⟨rfl, rfl, -⟩ := hcall
      rw [← List.map_dropLast] at hentries
      have hkeys := congrArg (List.map Prod.fst) hentries
      rw [map_entry_fst, map_entry_fst] at hkeys
      have hlast : (used.map (LRUListD.keys l)).getLast? =
          some (LRUListD.keys l (LRUListD.tail l)) := by
        obtain ⟨p, hp⟩ := Option.isSome_iff_exists.mp (List.getLast?_isSome.mpr hne)
        rw [List.getLast?_map, hp, hwhole.rep.threaded.tail p hp]
        rfl
      rw [← hlast]
      refine ⟨_, .removeTail _, used.dropLast, unused', h', ?_⟩
      rw [hkeys, List.map_dropLast]
  | empty hremove =>
    obtain ⟨hempty, hremoved⟩ := @LruWhole.tail_removed _ _ _ _ hwhole 0 0
    by_cases hne : used = []
    · subst used
      exact ⟨_, .removeTail _, [], unused, hwhole, rfl⟩
    · obtain ⟨l₂, unused', hremove', -⟩ := hremoved hne
      unfold LRUList.removeTheTailElemenetFromLRUList at hremove
      rw [hremove'] at hremove
      cases hremove

/-- An insertion returns, if there is a slot at all. -/
theorem LruWhole.put_returns (h : LruWhole capacity used unused l) (hcapacity : 0 < capacity)
    (timeWritePage key time : Int) :
    ∃ r, l.putElemenetToLRUListD timeWritePage key 2 time = some r := by
  rcases List.eq_nil_or_concat unused with rfl | ⟨unused, p, rfl⟩
  · have hne : used ≠ [] := by
      rintro rfl
      have hadd := h.length_add
      simp only [List.length_nil] at hadd
      omega
    obtain ⟨used, p, rfl⟩ := (List.eq_nil_or_concat used).resolve_left hne
    rw [List.concat_eq_append] at h
    obtain ⟨l', hput, -⟩ := h.put_full timeWritePage key time 0
    exact ⟨_, hput⟩
  · rw [List.concat_eq_append] at h
    obtain ⟨l', hput, -⟩ := h.put_unused timeWritePage key time 1
    exact ⟨_, hput⟩

/-- The list takes the calls that the list of keys takes. -/
theorem ShowsKeys.enabled_iff {l : LRUList} {keys : List Int} (h : ShowsKeys capacity l keys)
    (call : LruCall) :
    (∃ l', LruStep l call l') ↔ ∃ keys', RecencyStep capacity keys call keys' := by
  constructor
  · rintro ⟨l', hstep⟩
    obtain ⟨keys', hkeys, -⟩ := h.step hstep
    exact ⟨keys', hkeys⟩
  · rintro ⟨keys', hkeys⟩
    obtain ⟨used, unused, hwhole, rfl⟩ := h
    cases hkeys with
    | put key hcapacity =>
      obtain ⟨⟨pos, l', time⟩, hput⟩ := hwhole.put_returns hcapacity 0 key 0
      refine ⟨l', @LruStep.put l l' key pos 2 ?_⟩
      unfold LRUList.putElemenetToLRUList
      rw [hput]
      rfl
    | remove hkey =>
      obtain ⟨pos, hfind⟩ := hwhole.rep.finds hkey
      exact ⟨_, .remove hfind⟩
    | move hkey =>
      obtain ⟨pos, hfind⟩ := hwhole.rep.finds hkey
      exact ⟨_, .move hfind⟩
    | removeTail =>
      obtain ⟨removed, l', hstep⟩ : ∃ removed l', LruStep l (.removeTail removed) l' := by
        cases hremove : LRUList.removeTheTailElemenetFromLRUList l with
        | none => exact ⟨none, l, .empty hremove⟩
        | some r => exact ⟨some r.1, r.2, .removeTail hremove⟩
      obtain ⟨keys', hkeys, -⟩ := ShowsKeys.step ⟨used, unused, hwhole, rfl⟩ hstep
      cases hkeys
      exact ⟨l', hstep⟩

/-- What a run does to the list, it does to the keys. -/
theorem ShowsKeys.run {l l' : LRUList} {keys : List Int} {calls : List LruCall}
    (h : ShowsKeys capacity l keys) (hrun : Run LruStep l calls l') :
    ∃ keys', Run (RecencyStep capacity) keys calls keys' ∧ ShowsKeys capacity l' keys' := by
  induction hrun generalizing keys with
  | nil l => exact ⟨keys, .nil keys, h⟩
  | cons head tail ih =>
    obtain ⟨keys₁, hkeys₁, h₁⟩ := h.step head
    obtain ⟨keys', hkeys', h'⟩ := ih h₁
    exact ⟨keys', .cons hkeys₁ hkeys', h'⟩

theorem createLRUList_shows (memory : Int → LRUElement) (capacity : Nat) :
    ShowsKeys capacity (createLRUList memory capacity) [] :=
  ⟨[], _, createLRUListD_whole memory capacity, rfl⟩

/-- In every run the list is a list of keys in order of last use: its slots are threaded both
ways into the members and the unused ones, its contents are the keys, and it takes the calls
that they take. -/
theorem lruRun_refines {memory : Int → LRUElement} {calls : List LruCall} {l : LRUList}
    (hrun : Run LruStep (createLRUList memory capacity) calls l) :
    ∃ keys unused, Run (RecencyStep capacity) [] calls keys ∧ LRUListD.contents l = keys ∧
      LruWhole capacity (LRUListD.members l) unused l ∧
      LRUListD.len l + LRUListD.freeLen l = capacity ∧
      ∀ call, (∃ l', LruStep l call l') ↔ ∃ keys', RecencyStep capacity keys call keys' := by
  obtain ⟨keys, hkeys, hshows⟩ := (createLRUList_shows memory capacity).run hrun
  obtain ⟨used, unused, hwhole, hmap⟩ := hshows
  refine ⟨keys, unused, hkeys, ?_, ?_, ?_, ShowsKeys.enabled_iff ⟨used, unused, hwhole, hmap⟩⟩
  · exact ShowsKeys.contents ⟨used, unused, hwhole, hmap⟩
  · rw [hwhole.rep.members_eq]
    exact hwhole
  · have hadd := hwhole.length_add
    rw [hwhole.rep.len, hwhole.rep.freeLen]
    omega

/-- The memory is zero. -/
def zeroElements : Int → LRUElement := fun _ => ⟨0, 0, 0, false⟩

/-- Of two keys the first one is used again, and the other is the one to go. -/
theorem lruRun_refines_two : ∃ l keys unused,
    Run LruStep (createLRUList zeroElements 2) [.put 5, .put 7, .move 5, .removeTail (some 7)] l ∧
      Run (RecencyStep 2) [] [.put 5, .put 7, .move 5, .removeTail (some 7)] keys ∧
      LRUListD.contents l = keys ∧ LruWhole 2 (LRUListD.members l) unused l := by
  have hrun : ∃ l, Run LruStep (createLRUList zeroElements (2 : Nat))
      [.put 5, .put 7, .move 5, .removeTail (some 7)] l := by
    exact ⟨_, .cons (@LruStep.put _ _ 5 1 1 rfl) (.cons (@LruStep.put _ _ 7 0 1 rfl)
      (.cons (@LruStep.move _ 5 1 rfl) (.cons (.removeTail rfl) (.nil _))))⟩
  obtain ⟨l, hrun⟩ := hrun
  obtain ⟨keys, unused, hkeys, hcontents, hwhole, -⟩ := lruRun_refines hrun
  exact ⟨l, keys, unused, hrun, hkeys, hcontents, hwhole⟩

/-- The call leaves the keys different, and an insertion returns and does what is documented of it:
a key that is listed only goes to the head. A list without slots has nowhere to put a key. -/
structure HonoursContract (capacity : Nat) (l : LRUList) (call : LruCall) : Prop where
  returns : ∀ key, call = .put key → 0 < capacity → ∃ l', LruStep l call l'
  nodup : ∀ l', LruStep l call l' → (LRUListD.contents l').Nodup
  uses : ∀ l' key, LruStep l call l' → call = .put key →
    LRUListD.contents l' = Recency.use capacity key (LRUListD.contents l)

/-- A key that is inserted is not in the list, or it is the one that its insertion evicts. -/
def InsertsNew (l : LRUList) : LruCall → Prop
  | .put key => key ∉ LRUListD.contents l ∨
      LRUListD.freeLen l = 0 ∧ (LRUListD.element l (LRUListD.tail l)).key = key
  | _ => True

/-- A call keeps the keys different when it inserts none that is listed. -/
theorem RecencyStep.nodup {keys keys' : List Int} {call : LruCall}
    (h : RecencyStep capacity keys call keys') (hnodup : keys.Nodup)
    (hput : ∀ key, call = .put key → keys' = Recency.use capacity key keys) : keys'.Nodup := by
  have hfront : ∀ key, (key :: keys.erase key).Nodup := fun key =>
    List.nodup_cons.mpr ⟨fun hm => ((hnodup.mem_erase_iff).mp hm).1 rfl, hnodup.erase key⟩
  cases h with
  | put key =>
    rw [hput key rfl, Recency.use]
    split
    · exact hfront key
    · rename_i hnew
      exact Recency.nodup_push hnodup hnew
  | remove => exact hnodup.erase _
  | move => exact hfront _
  | removeTail => exact hnodup.sublist (List.dropLast_sublist _)

/-- The full list whose tail holds the key. -/
theorem LruWhole.full_iff (h : LruWhole capacity used unused l) (hkey : key ∈ used.map l.keys) :
    (capacity ≤ (used.map l.keys).length ∧ (used.map l.keys).getLast? = some key) ↔
      (l.freeLen = 0 ∧ (l.element l.tail).key = key) := by
  have hadd := h.length_add
  have hfreeLen := h.rep.freeLen
  have hne : used ≠ [] := by
    rintro rfl
    simp at hkey
  obtain ⟨p, hp⟩ := Option.isSome_iff_exists.mp (List.getLast?_isSome.mpr hne)
  rw [List.length_map, List.getLast?_map, hp, h.rep.threaded.tail p hp]
  refine and_congr ?_ ?_
  · omega
  · rw [Option.map_some, Option.some.injEq]
    rfl

/-- The calls of a run that honour the contract are those that insert no key that is listed. -/
theorem lruRun_honoursContract_iff (capacity : Nat) (memory : Int → LRUElement)
    (calls : List LruCall) :
    Throughout LruStep (HonoursContract capacity) (createLRUList memory capacity) calls ↔
      Throughout LruStep InsertsNew (createLRUList memory capacity) calls := by
  have hiff : ∀ (l : LRUList) (call : LruCall),
      (∃ keys, ShowsKeys capacity l keys ∧ keys.Nodup) →
      (HonoursContract capacity l call ↔ InsertsNew l call) := by
    rintro l call ⟨keys, hshows, hnodup⟩
    have hcontents := hshows.contents
    obtain ⟨used, unused, hwhole, hmap⟩ := hshows
    have hnew : ∀ key, call = .put key → ((key ∉ keys ∨ capacity ≤ keys.length ∧
        keys.getLast? = some key) ↔ InsertsNew l call) := by
      rintro key rfl
      by_cases hkey : key ∈ keys
      · have hfull := hwhole.full_iff (hmap ▸ hkey)
        rw [hmap] at hfull
        rw [hfull, InsertsNew, hcontents]
      · rw [InsertsNew, hcontents]
        exact iff_of_true (.inl hkey) (.inl hkey)
    constructor
    · intro hhonours
      cases call with
      | put key =>
        rw [← hnew key rfl]
        rcases Nat.eq_zero_or_pos capacity with rfl | hcapacity
        · have hlen := congrArg List.length hmap
          have hadd := hwhole.length_add
          rw [List.length_map] at hlen
          have hnil : keys = [] := List.eq_nil_of_length_eq_zero (by omega)
          exact .inl (by simp [hnil])
        · obtain ⟨l', hstep⟩ := (ShowsKeys.enabled_iff ⟨used, unused, hwhole, hmap⟩
            (.put key)).mpr ⟨_, .put keys key hcapacity⟩
          obtain ⟨keys', hkeys', hshows'⟩ := ShowsKeys.step ⟨used, unused, hwhole, hmap⟩ hstep
          have huse := hhonours.uses l' key hstep rfl
          rw [hshows'.contents, hcontents] at huse
          cases hkeys'
          exact (Recency.push_eq_use_iff hnodup).mp huse
      | remove key => trivial
      | move key => trivial
      | removeTail removed => trivial
    · intro hinserts
      have hput : ∀ keys', RecencyStep capacity keys call keys' → ∀ key, call = .put key →
          keys' = Recency.use capacity key keys := by
        rintro keys' hkeys' key rfl
        cases hkeys'
        exact (Recency.push_eq_use_iff hnodup).mpr ((hnew key rfl).mpr hinserts)
      refine ⟨?_, fun l' hstep => ?_, fun l' key hstep hcall => ?_⟩
      · rintro key rfl hcapacity
        exact (ShowsKeys.enabled_iff ⟨used, unused, hwhole, hmap⟩ _).mpr
          ⟨_, .put keys key hcapacity⟩
      · obtain ⟨keys', hkeys', hshows'⟩ := ShowsKeys.step ⟨used, unused, hwhole, hmap⟩ hstep
        rw [hshows'.contents]
        exact hkeys'.nodup hnodup (hput keys' hkeys')
      · obtain ⟨keys', hkeys', hshows'⟩ := ShowsKeys.step ⟨used, unused, hwhole, hmap⟩ hstep
        rw [hshows'.contents, hcontents]
        exact hput keys' hkeys' key hcall
  refine Throughout.congr (fun l => ∃ keys, ShowsKeys capacity l keys ∧ keys.Nodup)
    (fun _ => True) ?_ (fun l call h _ => hiff l call h)
    ⟨[], createLRUList_shows memory capacity, List.nodup_nil⟩ fun _ _ => trivial
  rintro l call l' ⟨keys, hshows, hnodup⟩ - hinserts hstep
  obtain ⟨keys', -, hshows'⟩ := hshows.step hstep
  have hhonours := ((hiff l call ⟨keys, hshows, hnodup⟩).mpr hinserts).nodup l' hstep
  rw [hshows'.contents] at hhonours
  exact ⟨keys', hshows', hhonours⟩

/-- A list of eight slots, as the one of the hot clusters, holds a key twice when it is put
twice. -/
theorem lruRun_duplicates : ∃ l, Run LruStep (createLRUList zeroElements (8 : Nat))
    [.put 1, .put 1] l ∧ LRUListD.contents l = [1, 1] ∧
      ¬ (LRUListD.contents l).Nodup := by
  have h₀ := createLRUList_shows zeroElements 8
  obtain ⟨l₁, hstep₁⟩ := (h₀.enabled_iff (.put 1)).mpr ⟨_, .put _ 1 (by decide)⟩
  obtain ⟨keys₁, hkeys₁, h₁⟩ := h₀.step hstep₁
  obtain ⟨l₂, hstep₂⟩ := (h₁.enabled_iff (.put 1)).mpr ⟨_, .put _ 1 (by decide)⟩
  obtain ⟨keys₂, hkeys₂, h₂⟩ := h₁.step hstep₂
  cases hkeys₁
  cases hkeys₂
  have hcontents : LRUListD.contents l₂ = [1, 1] := h₂.contents
  refine ⟨l₂, .cons hstep₁ (.cons hstep₂ (.nil _)), hcontents, ?_⟩
  rw [hcontents]
  decide

end WiscKey.Flash
