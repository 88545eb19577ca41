import WiscKey.Flash.LruListRun

/-!
# The write backs of the cached mapping table

A slot that is freed keeps its dirty flag, and the next key in it starts with that flag. The
flags, and the time charged for evictions, are right in every run in which each key goes into a
clean slot, and in no other.
-/

namespace WiscKey.Flash

/-- The list and the time spent, and of each element whether `SetElementDirtyD` has succeeded on
it since its key was inserted, with no clear after that. -/
structure LruHistory where
  list : LRUListD
  totalRequestTime : Int
  written : Int → Bool

/-- The calls on the list of the cached mapping table. -/
inductive LruCallD
  | put (key : Int)
  | remove (key : Int)
  | move (key : Int)
  | setDirty (key pos : Int)
  | clearDirty (key pos : Int)
  | removeTail
  deriving DecidableEq, Repr

/-- A call that returns; a key is removed and moved at the position where it was found. -/
inductive LruStepD (timeWritePage : Int) : LruHistory → LruCallD → LruHistory → Prop
  | put {s : LruHistory} {key pos time : Int} {fuel : Nat} {l : LRUListD}
      (h : s.list.putElemenetToLRUListD timeWritePage key fuel s.totalRequestTime =
        some (pos, l, time)) :
      LruStepD timeWritePage s (.put key) ⟨l, time, Function.update s.written pos false⟩
  | remove {s : LruHistory} {key pos : Int} (h : s.list.isElemenetInLRUListD key = some pos) :
      LruStepD timeWritePage s (.remove key)
        { s with list := s.list.removeElemenetFromLRUListD key pos }
  | move {s : LruHistory} {key pos : Int} (h : s.list.isElemenetInLRUListD key = some pos) :
      LruStepD timeWritePage s (.move key)
        { s with list := s.list.moveElemenetToTheHeadofLRUListD key pos }
  | setDirty (s : LruHistory) (key pos : Int) :
      LruStepD timeWritePage s (.setDirty key pos) { s with
        list := s.list.setElementDirtyD key pos
        written := if (s.list.element pos).key = key then Function.update s.written pos true
          else s.written }
  | clearDirty (s : LruHistory) (key pos : Int) :
      LruStepD timeWritePage s (.clearDirty key pos) { s with
        list := s.list.clearElementDirtyD key pos
        written := if (s.list.element pos).key = key then Function.update s.written pos false
          else s.written }
  | removeTail {s : LruHistory} {key time : Int} {l : LRUListD}
      (h : s.list.removeTheTailElemenetFromLRUListD timeWritePage s.totalRequestTime =
        some (key, l, time)) :
      LruStepD timeWritePage s .removeTail ⟨l, time, s.written⟩
  | empty {s : LruHistory}
      (h : s.list.removeTheTailElemenetFromLRUListD timeWritePage s.totalRequestTime = none) :
      LruStepD timeWritePage s .removeTail s

/-- The call evicts the tail of the list. -/
def Evicts (l : LRUListD) : LruCallD → Prop
  | .put _ => l.freeLen = 0
  | .removeTail => l.len ≠ 0
  | _ => False

instance (l : LRUListD) : DecidablePred (Evicts l)
  | .put _ => inferInstanceAs (Decidable (_ = _))
  | .removeTail => inferInstanceAs (Decidable (_ ≠ _))
  | .remove _ => inferInstanceAs (Decidable False)
  | .move _ => inferInstanceAs (Decidable False)
  | .setDirty _ _ => inferInstanceAs (Decidable False)
  | .clearDirty _ _ => inferInstanceAs (Decidable False)

/-- The elements of the list that are dirty are those that were written. -/
def FlagsRight (s : LruHistory) : Prop :=
  ∀ p ∈ s.list.members, (s.list.element p).dirty = s.written p

/-- The call leaves the flags right, and takes the time of a write back exactly when it evicts a
key that was written. -/
def ChargesRight (timeWritePage : Int) (s : LruHistory) (call : LruCallD) : Prop :=
  ∀ s', LruStepD timeWritePage s call s' → FlagsRight s' ∧
    s'.totalRequestTime = s.totalRequestTime +
      if Evicts s.list call ∧ s.written s.list.tail = true then timeWritePage else 0

/-- The slot that an insertion takes is clean. -/
def PutsClean (s : LruHistory) : LruCallD → Prop
  | .put _ => ∀ p, s.list.insertSlot = some p → (s.list.element p).dirty = false
  | _ => True

variable {capacity : Nat} {used unused : List Int} {l l' : LRUListD} {s s' : LruHistory}
  {timeWritePage key pos : Int}

/-- The time of an eviction, where the flags are right. -/
theorem LruWhole.writeBackTime_eq (h : LruWhole capacity used unused l) (hne : used ≠ [])
    (time : Int) : writeBackTime timeWritePage time (used.map l.entry) =
      time + if l.dirties l.tail = true then timeWritePage else 0 := by
  obtain ⟨p, hp⟩ := Option.isSome_iff_exists.mp (List.getLast?_isSome.mpr hne)
  rw [writeBackTime, List.getLast?_map, hp, h.rep.threaded.tail p hp]
  change (if l.dirties p = true then _ else _) = _
  split
  · rfl
  · exact (Int.add_zero time).symm

/-- The flag of the tail says whether its key was written. -/
theorem FlagsRight.tail (hflags : FlagsRight s) (h : LruWhole capacity used unused s.list)
    (hne : used ≠ []) : s.list.dirties s.list.tail = s.written s.list.tail := by
  refine hflags _ ?_
  obtain ⟨p, hp⟩ := Option.isSome_iff_exists.mp (List.getLast?_isSome.mpr hne)
  rw [h.rep.members_eq, h.rep.threaded.tail p hp]
  exact List.mem_of_getLast? hp

/-- Elements that stay in the list keep their flags right. -/
theorem FlagsRight.keep (hflags : FlagsRight s) (h : LruRep used unused s.list)
    {used' unused' : List Int} (h' : LruRep used' unused' l') (hsub : used' ⊆ used)
    (hdirties : l'.dirties = s.list.dirties) {time : Int} :
    FlagsRight ⟨l', time, s.written⟩ := by
  intro p hp
  rw [h'.members_eq] at hp
  refine (congrFun hdirties p).trans (hflags p ?_)
  rw [h.members_eq]
  exact hsub hp

/-- Setting a flag and noting it keeps the flags right. -/
theorem FlagsRight.set (hflags : FlagsRight s) (h : LruWhole capacity used unused s.list)
    (pos : Int) (dirty : Bool) :
    FlagsRight { s with
      list := s.list.setDirty pos dirty
      written := Function.update s.written pos dirty } := by
  intro p hp
  rw [(h.setDirty pos dirty).rep.members_eq] at hp
  change (s.list.setDirty pos dirty).dirties p = Function.update s.written pos dirty p
  rw [LRUListD.setDirty_dirties]
  by_cases hne : p = pos
  · subst p
    rw [Function.update_self, Function.update_self]
  · rw [Function.update_of_ne hne, Function.update_of_ne hne]
    exact hflags p (h.rep.members_eq.symm ▸ hp)

/-- What an insertion does to the flags and the time. -/
theorem put_charges (h : LruWhole capacity used unused s.list) (hflags : FlagsRight s)
    {time : Int} {fuel : Nat}
    (hput : s.list.putElemenetToLRUListD timeWritePage key fuel s.totalRequestTime =
      some (pos, l', time)) :
    (∃ used' unused', LruWhole capacity used' unused' l') ∧
      (FlagsRight ⟨l', time, Function.update s.written pos false⟩ ↔ PutsClean s (.put key)) ∧
      time = s.totalRequestTime + if Evicts s.list (.put key) ∧ s.written s.list.tail = true then
        timeWritePage else 0 := by
  obtain ⟨hslot, hdirties, ⟨rest, unused', h', hsub, -⟩, htime⟩ := h.put hput
  refine ⟨⟨_, _, h'⟩, ?_, ?_⟩
  · constructor
    · intro hright p hp
      obtain rfl : pos = p := Option.some.inj (hslot.symm.trans hp)
      have hpos := hright pos (by rw [h'.rep.members_eq]; exact List.mem_cons_self)
      exact (congrFun hdirties pos).symm.trans (hpos.trans (Function.update_self ..))
    · intro hclean p hp
      rw [h'.rep.members_eq] at hp
      have hpos : pos ∉ rest := (List.nodup_cons.mp (List.nodup_append.mp h'.rep.nodup).1).1
      change l'.dirties p = Function.update s.written pos false p
      rw [hdirties]
      rcases List.mem_cons.mp hp with rfl | hp
      · rw [Function.update_self]
        exact hclean p hslot
      · have hne : p ≠ pos := fun he => hpos (he ▸ hp)
        rw [Function.update_of_ne hne]
        exact hflags p (h.rep.members_eq.symm ▸ hsub hp)
  · rw [htime]
    by_cases hfull : s.list.freeLen = 0
    · have hne : used ≠ [] := by
        rintro rfl
        have hlen : s.list.len = 0 := h.rep.len
        rw [LRUListD.insertSlot, if_neg (not_not.mpr hfull), if_neg (not_not.mpr hlen)] at hslot
        cases hslot
      have hevicts : Evicts s.list (.put key) := hfull
      rw [if_pos hfull, h.writeBackTime_eq hne, hflags.tail h hne]
      simp only [hevicts, true_and]
    · have hevicts : ¬ Evicts s.list (.put key) := hfull
      rw [if_neg hfull, if_neg fun hand => hevicts hand.1, Int.add_zero]

/-- What a call does to the flags and the time. -/
theorem LruStepD.charges {call : LruCallD} (hstep : LruStepD timeWritePage s call s')
    (h : LruWhole capacity used unused s.list) (hflags : FlagsRight s) :
    (∃ used' unused', LruWhole capacity used' unused' s'.list) ∧
      (FlagsRight s' ↔ PutsClean s call) ∧
      s'.totalRequestTime = s.totalRequestTime +
        if Evicts s.list call ∧ s.written s.list.tail = true then timeWritePage else 0 := by
  have hquiet : ¬ Evicts s.list call → s.totalRequestTime = s.totalRequestTime +
      if Evicts s.list call ∧ s.written s.list.tail = true then timeWritePage else 0 := by
    intro hevicts
    rw [if_neg fun hand => hevicts hand.1, Int.add_zero]
  cases hstep with
  | put hput => exact put_charges h hflags hput
  | @remove key pos hfind =>
    obtain ⟨l₁, l₂, rfl, hkey, -⟩ := h.rep.found hfind
    obtain ⟨h', -, hdirties⟩ := h.remove hkey
    have hsub : l₁ ++ l₂ ⊆ l₁ ++ pos :: l₂ :=
      ((List.sublist_cons_self pos l₂).append_left l₁).subset
    exact ⟨⟨_, _, h'⟩, iff_of_true (hflags.keep h.rep h'.rep hsub hdirties) trivial, hquiet id⟩
  | @move key pos hfind =>
    obtain ⟨l₁, l₂, rfl, hkey, -⟩ := h.rep.found hfind
    obtain ⟨h', -, hdirties⟩ := h.moveFront hkey
    have hsub : pos :: (l₁ ++ l₂) ⊆ l₁ ++ pos :: l₂ := List.perm_middle.symm.subset
    exact ⟨⟨_, _, h'⟩, iff_of_true (hflags.keep h.rep h'.rep hsub hdirties) trivial, hquiet id⟩
  | setDirty key pos =>
    unfold LRUListD.setElementDirtyD
    by_cases hkey : (s.list.element pos).key = key
    · rw [if_neg (not_not.mpr hkey), if_pos hkey]
      exact ⟨⟨_, _, h.setDirty pos true⟩, iff_of_true (hflags.set h pos true) trivial, hquiet id⟩
    · rw [if_pos hkey, if_neg hkey]
      exact ⟨⟨_, _, h⟩, iff_of_true hflags trivial, hquiet id⟩
  | clearDirty key pos =>
    unfold LRUListD.clearElementDirtyD
    by_cases hkey : (s.list.element pos).key = key
    · rw [if_neg (not_not.mpr hkey), if_pos hkey]
      exact ⟨⟨_, _, h.setDirty pos false⟩, iff_of_true (hflags.set h pos false) trivial, hquiet id⟩
    · rw [if_pos hkey, if_neg hkey]
      exact ⟨⟨_, _, h⟩, iff_of_true hflags trivial, hquiet id⟩
  | @removeTail key time l hremove =>
    obtain ⟨hempty, hremoved⟩ := @LruWhole.tail_removed _ _ _ _ h timeWritePage s.totalRequestTime
    by_cases hne : used = []
    · rw [hempty hne] at hremove
      cases hremove
    · obtain ⟨l₂, unused', hremove', h', -, hdirties⟩ := hremoved hne
      rw [hremove'] at hremove
      simp only [Option.some.injEq, Prod.mk.injEq] at hremove
      obtain ⟨-, rfl, rfl⟩ := hremove
      have hlen := h.rep.len
      have hpos := List.length_pos_of_ne_nil hne
      have hevicts : Evicts s.list .removeTail := show s.list.len ≠ 0 by omega
      refine ⟨⟨_, _, h'⟩, iff_of_true (hflags.keep h.rep h'.rep
        (List.dropLast_sublist _).subset hdirties) trivial, ?_⟩
      rw [h.writeBackTime_eq hne, hflags.tail h hne]
      simp only [hevicts, true_and]
  | empty hremove =>
    obtain ⟨hempty, hremoved⟩ := @LruWhole.tail_removed _ _ _ _ h timeWritePage s.totalRequestTime
    by_cases hne : used = []
    · subst used
      have hlen : s.list.len = 0 := h.rep.len
      exact ⟨⟨_, _, h⟩, iff_of_true hflags trivial, hquiet fun hevicts => hevicts hlen⟩
    · obtain ⟨l₂, unused', hremove', -⟩ := hremoved hne
      rw [hremove'] at hremove
      cases hremove

/-- The list as it is created, before any call. -/
def createdHistory (memory : Int → LRUElementD) (capacity : Nat) : LruHistory :=
  ⟨createLRUListD memory capacity, 0, fun _ => false⟩

/-- The flags and the charges of a run are right exactly when every key goes into a clean
slot. -/
theorem lruRunD_chargesRight_iff (timeWritePage : Int) (memory : Int → LRUElementD)
    (capacity : Nat) (calls : List LruCallD) :
    Throughout (LruStepD timeWritePage) (ChargesRight timeWritePage)
        (createdHistory memory capacity) calls ↔
      Throughout (LruStepD timeWritePage) PutsClean (createdHistory memory capacity) calls := by
  have hiff : ∀ (s : LruHistory) (call : LruCallD),
      ((∃ used unused, LruWhole capacity used unused s.list) ∧ FlagsRight s) →
      (ChargesRight timeWritePage s call ↔ PutsClean s call) := by
    rintro s call ⟨⟨used, unused, h⟩, hflags⟩
    constructor
    · intro hcharges
      cases call with
      | put key =>
        intro p hp
        have hcapacity : 0 < capacity := by
          have hadd := h.length_add
          have hlen := h.rep.len
          have hfreeLen := h.rep.freeLen
          unfold LRUListD.insertSlot at hp
          split at hp
          · omega
          · split at hp
            · omega
            · cases hp
        obtain ⟨⟨pos, l', time⟩, hput⟩ :=
          h.put_returns hcapacity timeWritePage key s.totalRequestTime
        have hright := (hcharges _ (.put hput)).1
        exact (put_charges h hflags hput).2.1.mp hright p hp
      | remove key => trivial
      | move key => trivial
      | setDirty key pos => trivial
      | clearDirty key pos => trivial
      | removeTail => trivial
    · intro hclean s' hstep
      obtain ⟨-, hright, htime⟩ := hstep.charges h hflags
      exact ⟨hright.mpr hclean, htime⟩
  have hcreated := createLRUListD_whole memory capacity
  have hflags : FlagsRight (createdHistory memory capacity) := by
    intro p hp
    rw [createdHistory, hcreated.rep.members_eq] at hp
    cases hp
  refine Throughout.congr
    (fun s => (∃ used unused, LruWhole capacity used unused s.list) ∧ FlagsRight s)
    (fun _ => True) ?_ (fun s call h _ => hiff s call h) ⟨⟨_, _, hcreated⟩, hflags⟩
    fun _ _ => trivial
  rintro s call s' ⟨⟨used, unused, h⟩, hflags⟩ - hclean hstep
  obtain ⟨hwhole, hright, -⟩ := hstep.charges h hflags
  exact ⟨hwhole, hright.mpr hclean⟩

/-- In a list of one slot the second key takes over the flag of the first one. It was never
written, and its eviction takes the time of a write back. -/
theorem lruRunD_overcharges : ∃ s s',
    Run (LruStepD 200) (createdHistory zeroElements 1) [.put 1, .setDirty 1 0, .put 2] s ∧
      LruStepD 200 s (.put 3) s' ∧ s.written s.list.tail = false ∧
      s'.totalRequestTime = s.totalRequestTime + 200 := by
  apply Exists.intro
  apply Exists.intro
  apply And.intro
  · exact .cons (@LruStepD.put 200 _ 1 0 0 1 _ rfl) (.cons (.setDirty _ 1 0)
      (.cons (@LruStepD.put 200 _ 2 0 200 2 _ rfl) (.nil _)))
  · exact ⟨@LruStepD.put 200 _ 3 0 400 2 _ rfl, rfl, rfl⟩

end WiscKey.Flash
