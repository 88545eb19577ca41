import Mathlib.Algebra.Order.BigOperators.Group.List
import WiscKey.Flash.LruListSram

/-!
# The accounting of the list of the regions in SRAM

`UpdateLruItemSize` evicts from the tail until the new size has room, the element itself included.
The sizes add up after every call, and every call returns, exactly when each new size has room
beside the elements in front of its own.
-/

namespace WiscKey.Flash

/-- The calls on the list of the regions in SRAM. -/
inductive SramCall
  | add (key size : Int)
  | move (key : Int)
  | update (pos newSize : Int)
  | removeTail
  deriving DecidableEq, Repr

/-- The size that a call passes is one that the SRAM has room for. -/
def SramCall.SizeWithin (sramSizeLimit : Int) : SramCall → Prop
  | .add _ size => 0 ≤ size ∧ size ≤ sramSizeLimit
  | .update _ newSize => 0 ≤ newSize ∧ newSize ≤ sramSizeLimit
  | .move _ | .removeTail => True

/-- A call that returns, for some number of rounds of its loops; a key is moved at the position
where it was found. -/
inductive SramStep (sramSizeLimit : Int) : LRUSRAMList → SramCall → LRUSRAMList → Prop
  | add {l l' : LRUSRAMList} {key size pos : Int} {fuel : Nat}
      (h : l.addElemenetToTheHeadOfLRUListS sramSizeLimit fuel key size = some (pos, l')) :
      SramStep sramSizeLimit l (.add key size) l'
  | move {l l' : LRUSRAMList} {key pos : Int} {fuel : Nat}
      (hfind : l.isElemenetInLRUListS key = some pos)
      (h : l.moveElemenetToTheHeadofLRUListS fuel key pos = some l') :
      SramStep sramSizeLimit l (.move key) l'
  | absent {l : LRUSRAMList} {key : Int} (hfind : l.isElemenetInLRUListS key = none) :
      SramStep sramSizeLimit l (.move key) l
  | update {l l' : LRUSRAMList} {pos newSize : Int} {fuel : Nat}
      (h : l.updateLruItemSize sramSizeLimit fuel pos newSize = some l') :
      SramStep sramSizeLimit l (.update pos newSize) l'
  | removeTail {l : LRUSRAMList} {fuel : Nat} {r : Option (Int × Int) × LRUSRAMList}
      (h : l.removeTheTailElemenetFromLRUListS sramSizeLimit fuel = some r) :
      SramStep sramSizeLimit l .removeTail r.2

/-- The free size and the sizes of the listed elements make up the SRAM. -/
def LRUSRAMList.Balanced (sramSizeLimit : Int) (l : LRUSRAMList) : Prop :=
  l.freeSize + (l.members.map l.size).sum = sramSizeLimit ∧ 0 ≤ l.freeSize

/-- The call returns, the sizes add up after it, and an element whose size it changes stays in the
list. -/
def Accounts (sramSizeLimit : Int) (l : LRUSRAMList) (call : SramCall) : Prop :=
  (∃ l', SramStep sramSizeLimit l call l') ∧
    ∀ l', SramStep sramSizeLimit l call l' → l'.Balanced sramSizeLimit ∧
      ∀ pos newSize, call = .update pos newSize → pos ∈ l.members → pos ∈ l'.members

/-- A new size is the old one, or has room beside the elements in front of its own. -/
def RoomInFront (sramSizeLimit : Int) (l : LRUSRAMList) : SramCall → Prop
  | .update pos newSize => newSize = l.size pos ∨ ∃ front rest,
      l.members = front ++ pos :: rest ∧ (front.map l.size).sum + newSize ≤ sramSizeLimit
  | .add _ _ | .move _ | .removeTail => True

variable {capacity fuel : Nat} {used unused : List Int} {pos key newSize sramSizeLimit : Int}
  {l l' : LRUSRAMList}

theorem SramOk.members (h : SramOk sramSizeLimit capacity used unused l) : l.members = used :=
  h.whole.rep.members_eq

theorem SramOk.balanced (h : SramOk sramSizeLimit capacity used unused l) :
    l.Balanced sramSizeLimit := by
  rw [LRUSRAMList.Balanced, h.members]
  exact ⟨h.total, h.freeSize⟩

/-- The elements behind one take what it and those in front leave. -/
theorem SramOk.front_le {front rest : List Int}
    (h : SramOk sramSizeLimit capacity (front ++ pos :: rest) unused l) :
    (front.map l.size).sum + l.size pos + l.freeSize ≤ sramSizeLimit := by
  have htotal := h.total
  have hrest : 0 ≤ (rest.map l.size).sum := by
    refine List.sum_nonneg fun n hn => ?_
    obtain ⟨p, hp, rfl⟩ := List.mem_map.mp hn
    exact h.sizes p (by simp [hp])
  rw [List.map_append, List.map_cons, List.sum_append, List.sum_cons] at htotal
  omega

/-- A list in which the size of another element is written down does not add up. -/
theorem SramOk.not_balanced (h : SramOk sramSizeLimit capacity used unused l) (hpos : pos ∉ used)
    (hne : newSize ≠ l.size pos) : ¬ (l.resized pos newSize).Balanced sramSizeLimit := by
  have hmembers : (l.resized pos newSize).members = used := h.members
  have hmap : used.map (l.resized pos newSize).size = used.map l.size := by
    refine List.map_congr_left fun p hp => Function.update_of_ne ?_ ..
    rintro rfl
    exact hpos hp
  have htotal := h.total
  rintro ⟨hbalanced, -⟩
  rw [hmembers, hmap] at hbalanced
  change l.freeSize - (newSize - l.size pos) + _ = _ at hbalanced
  omega

/-- A new size that has no room evicts its element, or is not that of an element at all. -/
theorem SramOk.update_wrong (h : SramOk sramSizeLimit capacity used unused l)
    (hroom : ¬ RoomInFront sramSizeLimit l (.update pos newSize))
    (hupdate : l.updateLruItemSize sramSizeLimit fuel pos newSize = some l') :
    ¬ l'.Balanced sramSizeLimit := by
  rw [RoomInFront, h.members, not_or] at hroom
  obtain ⟨hne, hfront⟩ := hroom
  rw [LRUSRAMList.updateLruItemSize_eq] at hupdate
  obtain ⟨l₁, hmade, hcheck⟩ := Option.bind_eq_some_iff.mp hupdate
  obtain rfl := LRUSRAMList.eq_of_selfCheckSize hcheck
  split at hmade
  · rename_i hmore
    obtain ⟨kept, evicted, unused', rfl, hkept, hsame, hzero, hfits⟩ := h.makeRoom hmade
    by_cases hpos : pos ∈ evicted
    · have hnot : pos ∉ kept := fun hm =>
        (List.nodup_append.mp (List.nodup_append.mp h.whole.rep.nodup).1).2.2 pos hm pos hpos rfl
      refine hkept.not_balanced hnot ?_
      rw [hzero pos hpos]
      by_cases hmem : pos ∈ kept ++ evicted
      · have hsize := h.sizes pos hmem
        omega
      · exact absurd (List.mem_append_right _ hpos) hmem
    · refine hkept.not_balanced (fun hm => ?_) (by rwa [hsame pos hpos])
      obtain ⟨front, rest, rfl⟩ := List.append_of_mem hm
      refine hfront ⟨front, rest ++ evicted, by simp, ?_⟩
      have hle := hkept.front_le
      have hnodup := (List.nodup_append.mp h.whole.rep.nodup).1
      rw [List.append_assoc, List.cons_append] at hnodup
      have hfrontSizes : front.map l₁.size = front.map l.size := by
        refine List.map_congr_left fun p hp => hsame p fun hevicted => ?_
        exact (List.nodup_append.mp hnodup).2.2 p hp p (by simp [hevicted]) rfl
      rw [hfrontSizes] at hle
      omega
  · obtain rfl := Option.some.inj hmade
    refine h.not_balanced (fun hm => ?_) hne
    obtain ⟨front, rest, rfl⟩ := List.append_of_mem hm
    refine hfront ⟨front, rest, rfl, ?_⟩
    have hle := h.front_le
    have hfree := h.freeSize
    omega

/-- A new size that has room returns to a list in order, in which its element is. -/
theorem SramOk.update (h : SramOk sramSizeLimit capacity used unused l)
    (hroom : RoomInFront sramSizeLimit l (.update pos newSize)) (hnonneg : 0 ≤ newSize) :
    (∀ fuel l', l.updateLruItemSize sramSizeLimit fuel pos newSize = some l' →
        ∃ used' unused', SramOk sramSizeLimit capacity used' unused' l' ∧
          (pos ∈ used → pos ∈ used')) ∧
      ∃ fuel, (l.updateLruItemSize sramSizeLimit fuel pos newSize).isSome := by
  rw [RoomInFront, h.members] at hroom
  simp only [LRUSRAMList.updateLruItemSize_eq]
  rcases hroom with rfl | ⟨front, rest, rfl, hfits⟩
  · simp only [lt_irrefl, if_false, Option.bind_some, l.resized_self]
    refine ⟨fun fuel l' hcheck => ?_, capacity + 1, ?_⟩
    · obtain rfl := LRUSRAMList.eq_of_selfCheckSize hcheck
      exact ⟨used, unused, h, id⟩
    · rw [h.selfCheckSize (Nat.lt_succ_self _)]
      rfl
  · have hkeeps := fun fuel l' => @SramOk.makeRoom_keeps capacity fuel unused front rest pos
      sramSizeLimit l l' h newSize hfits fuel
    have hpos : ∀ {rest' : List Int}, pos ∈ front ++ pos :: rest' := by simp
    have hlength := h.whole.length_add
    rw [List.length_append, List.length_cons] at hlength
    split
    · constructor
      · intro fuel l' hupdate
        obtain ⟨l₁, hmade, hcheck⟩ := Option.bind_eq_some_iff.mp hupdate
        obtain rfl := LRUSRAMList.eq_of_selfCheckSize hcheck
        obtain ⟨rest', unused', hkept, hroom⟩ := (hkeeps fuel l₁).1 hmade
        exact ⟨_, _, hkept.resized hpos hnonneg hroom, fun _ => hpos⟩
      · have hreturns := (hkeeps (capacity + 1) l).2 (by omega) (Nat.lt_succ_self _)
        obtain ⟨l₁, hmade⟩ := Option.isSome_iff_exists.mp hreturns
        obtain ⟨rest', unused', hkept, hroom⟩ := (hkeeps (capacity + 1) l₁).1 hmade
        refine ⟨capacity + 1, ?_⟩
        rw [hmade, Option.bind_some,
          (hkept.resized hpos hnonneg hroom).selfCheckSize (Nat.lt_succ_self _)]
        rfl
    · have hfree := h.freeSize
      have hresized := h.resized hpos hnonneg (by omega)
      simp only [Option.bind_some]
      refine ⟨fun fuel l' hcheck => ?_, capacity + 1, ?_⟩
      · obtain rfl := LRUSRAMList.eq_of_selfCheckSize hcheck
        exact ⟨_, _, hresized, id⟩
      · rw [hresized.selfCheckSize (Nat.lt_succ_self _)]
        rfl

/-- An insertion of a size within the SRAM returns to a list in order. -/
theorem SramOk.add {size : Int} (h : SramOk sramSizeLimit capacity used unused l)
    (hcapacity : 0 < capacity) (hnonneg : 0 ≤ size) (hlimit : size ≤ sramSizeLimit) :
    (∀ fuel r, l.addElemenetToTheHeadOfLRUListS sramSizeLimit fuel key size = some r →
        ∃ used' unused', SramOk sramSizeLimit capacity used' unused' r.2) ∧
      (l.addElemenetToTheHeadOfLRUListS sramSizeLimit (capacity + 1) key size).isSome := by
  have hrounds := fun fuel rounds => @SramOk.addRounds capacity fuel used unused key size
    sramSizeLimit l h hcapacity hnonneg hlimit rounds
  have hlength := h.whole.length_add
  unfold LRUSRAMList.addElemenetToTheHeadOfLRUListS
  constructor
  · intro fuel r hadd
    obtain ⟨r₁, hr₁, hcheck⟩ := Option.bind_eq_some_iff.mp hadd
    obtain ⟨l₁, hl₁, rfl⟩ := Option.map_eq_some_iff.mp hcheck
    obtain rfl := LRUSRAMList.eq_of_selfCheck hl₁
    obtain ⟨rest, unused', hwalked⟩ := (hrounds fuel fuel).1 r₁ hr₁
    exact ⟨_, _, hwalked.toSramOk⟩
  · have hreturns := (hrounds (capacity + 1) (capacity + 1)).2 (by omega) (Nat.lt_succ_self _)
    obtain ⟨r₁, hr₁⟩ := Option.isSome_iff_exists.mp hreturns
    obtain ⟨rest, unused', hwalked⟩ := (hrounds _ _).1 r₁ hr₁
    rw [hr₁, Option.bind_some, hwalked.selfCheck (Nat.lt_succ_self _)]
    rfl

/-- Every call of an ordered list returns, and to an ordered list, if its new size has room. -/
theorem SramOk.call (h : SramOk sramSizeLimit capacity used unused l) (hcapacity : 0 < capacity)
    {call : SramCall} (hsize : call.SizeWithin sramSizeLimit)
    (hroom : RoomInFront sramSizeLimit l call) :
    (∃ l', SramStep sramSizeLimit l call l') ∧ ∀ l', SramStep sramSizeLimit l call l' →
      ∃ used' unused', SramOk sramSizeLimit capacity used' unused' l' ∧
        ∀ pos newSize, call = .update pos newSize → pos ∈ used → pos ∈ used' := by
  cases call with
  | add key size =>
    obtain ⟨hall, hreturns⟩ := @SramOk.add _ _ _ key _ _ size h hcapacity hsize.1 hsize.2
    constructor
    · obtain ⟨r, hr⟩ := Option.isSome_iff_exists.mp hreturns
      exact ⟨r.2, .add hr⟩
    · intro l' hstep
      cases hstep with
      | add hadd =>
        obtain ⟨used', unused', h'⟩ := hall _ _ hadd
        exact ⟨used', unused', h', fun _ _ hcall => nomatch hcall⟩
  | move key =>
    cases hfind : l.isElemenetInLRUListS key with
    | none =>
      refine ⟨⟨l, .absent hfind⟩, fun l' hstep => ?_⟩
      cases hstep with
      | move hfind' hmove =>
        rw [hfind] at hfind'
        cases hfind'
      | absent => exact ⟨used, unused, h, fun _ _ hcall => nomatch hcall⟩
    | some pos =>
      obtain ⟨hpos, hkey⟩ := h.found hfind
      constructor
      · have hreturns := (h.move hpos hkey).2 (Nat.lt_succ_self capacity)
        obtain ⟨l', hmove⟩ := Option.isSome_iff_exists.mp hreturns
        exact ⟨l', .move hfind hmove⟩
      · intro l' hstep
        cases hstep with
        | move hfind' hmove =>
          obtain ⟨hpos', hkey'⟩ := h.found hfind'
          obtain ⟨used', -, h'⟩ := (h.move hpos' hkey').1 l' hmove
          exact ⟨used', unused, h', fun _ _ hcall => nomatch hcall⟩
        | absent => exact ⟨used, unused, h, fun _ _ hcall => nomatch hcall⟩
  | update pos newSize =>
    obtain ⟨hall, fuel, hreturns⟩ := h.update hroom hsize.1
    constructor
    · obtain ⟨l', hupdate⟩ := Option.isSome_iff_exists.mp hreturns
      exact ⟨l', .update hupdate⟩
    · intro l' hstep
      cases hstep with
      | update hupdate =>
        obtain ⟨used', unused', h', hstays⟩ := hall _ _ hupdate
        refine ⟨used', unused', h', fun pos' newSize' hcall => ?_⟩
        obtain ⟨rfl, -⟩ := SramCall.update.inj hcall
        exact hstays
  | removeTail =>
    rcases List.eq_nil_or_concat used with rfl | ⟨used, p, rfl⟩
    · refine ⟨⟨l, .removeTail (h.removeTail_empty 0)⟩, ?_⟩
      intro l' hstep
      cases hstep with
      | removeTail hremove =>
        rw [h.removeTail_empty] at hremove
        obtain rfl := Option.some.inj hremove
        exact ⟨[], unused, h, fun _ _ hcall => nomatch hcall⟩
    · rw [List.concat_eq_append] at h
      refine ⟨⟨_, .removeTail (h.removeTail (Nat.lt_succ_self capacity))⟩, ?_⟩
      intro l' hstep
      cases hstep with
      | removeTail hremove =>
        rw [h.removeTail_some hremove]
        exact ⟨used, p :: unused, h.evicted.toSramOk, fun _ _ hcall => nomatch hcall⟩

/-- The list as it is created. -/
theorem createLRUListS_ok (memory : Int → LRUElementD) (sizes : Int → Int)
    {basedUnitSize len : Int} (hlimit : 0 ≤ sramSizeLimit)
    (hlen : lruListSLength sramSizeLimit basedUnitSize len = capacity) (hcapacity : 0 < capacity) :
    SramOk sramSizeLimit capacity [] (lruSlots capacity)
      (createLRUListS memory sizes sramSizeLimit basedUnitSize len) := by
  have hwhole := createLRUListD_whole memory capacity
  have hslots : lruSlots capacity ≠ [] := by
    intro hnil
    have hlength := congrArg List.length hnil
    rw [lruSlots, List.length_map, List.length_range] at hlength
    exact hcapacity.ne' hlength
  unfold createLRUListS
  simp only [hlen]
  refine ⟨hwhole, by simp, fun p hp => ?_, by simp, hlimit, fun _ => .inr ⟨rfl, hslots⟩⟩
  obtain ⟨i, hi, rfl⟩ := List.mem_map.mp hp
  rw [List.mem_range] at hi
  exact if_pos (by omega)

/-- On a list created with room for at least one element, every call returns and leaves the
accounts right exactly when every new size has room. -/
theorem sramRun_accounts_iff (memory : Int → LRUElementD) (sizes : Int → Int)
    {basedUnitSize len : Int} (hlimit : 0 ≤ sramSizeLimit)
    (hlen : 0 < lruListSLength sramSizeLimit basedUnitSize len) {calls : List SramCall}
    (hcalls : ∀ call ∈ calls, call.SizeWithin sramSizeLimit) :
    Throughout (SramStep sramSizeLimit) (Accounts sramSizeLimit)
        (createLRUListS memory sizes sramSizeLimit basedUnitSize len) calls ↔
      Throughout (SramStep sramSizeLimit) (RoomInFront sramSizeLimit)
        (createLRUListS memory sizes sramSizeLimit basedUnitSize len) calls := by
  obtain ⟨capacity, hcapacity⟩ := Int.eq_ofNat_of_zero_le hlen.le
  have hpos : 0 < capacity := by omega
  refine Throughout.congr (fun l => ∃ used unused, SramOk sramSizeLimit capacity used unused l)
    (fun call => call.SizeWithin sramSizeLimit) ?_ ?_
    ⟨_, _, createLRUListS_ok memory sizes hlimit hcapacity hpos⟩ hcalls
  · rintro l call l' ⟨used, unused, h⟩ hsize hroom hstep
    obtain ⟨used', unused', h', -⟩ := (h.call hpos hsize hroom).2 l' hstep
    exact ⟨used', unused', h'⟩
  · rintro l call ⟨used, unused, h⟩ hsize
    constructor
    · rintro ⟨⟨l', hreturns⟩, hall⟩
      by_contra hroom
      cases call with
      | update pos newSize =>
        obtain ⟨hbalanced, -⟩ := hall l' hreturns
        cases hreturns with
        | update hupdate => exact h.update_wrong hroom hupdate hbalanced
      | add key size => exact hroom trivial
      | move key => exact hroom trivial
      | removeTail => exact hroom trivial
    · intro hroom
      obtain ⟨hreturns, hall⟩ := h.call hpos hsize hroom
      refine ⟨hreturns, fun l' hstep => ?_⟩
      obtain ⟨used', unused', h', hstays⟩ := hall l' hstep
      rw [h.members, h'.members]
      exact ⟨h'.balanced, hstays⟩

/-- Two insertions fill ten bytes, whatever number of rounds their loops are granted, and the second
element can grow. -/
theorem roomInFront_small :
    Throughout (SramStep 10) (RoomInFront 10) (createLRUListS zeroElements (fun _ => 0) 10 1 2)
      [.add 1 6, .add 2 4, .update 0 8] := by
  refine ⟨trivial, fun l₁ h₁ => ⟨trivial, fun l₂ h₂ => ⟨?_, fun _ _ => trivial⟩⟩⟩
  have hnone : ∀ r : Int × LRUSRAMList, none ≠ some r := nofun
  cases h₁ with
  | @add _ _ _ pos₁ fuel₁ hadd₁ =>
    cases h₂ with
    | @add _ _ _ pos₂ fuel₂ hadd₂ =>
      -- with few rounds the walks of the self checks do not end
      match fuel₁, hadd₁ with
      | 0, h => exact absurd h (hnone _)
      | 1, h => exact absurd h (hnone _)
      | fuel₁ + 2, h =>
        obtain ⟨rfl, rfl⟩ := Prod.mk.inj (Option.some.inj h)
        match fuel₂, hadd₂ with
        | 0, h => exact absurd h (hnone _)
        | 1, h => exact absurd h (hnone _)
        | 2, h => exact absurd h (hnone _)
        | fuel₂ + 3, h =>
          obtain ⟨rfl, rfl⟩ := Prod.mk.inj (Option.some.inj h)
          exact .inr ⟨[], [1], rfl, by decide⟩

/-- The element at the head grows by four, and the other one is evicted for it. -/
theorem sramRun_accounts_small :
    Throughout (SramStep 10) (Accounts 10) (createLRUListS zeroElements (fun _ => 0) 10 1 2)
        [.add 1 6, .add 2 4, .update 0 8] ∧
      ∃ l, Run (SramStep 10) (createLRUListS zeroElements (fun _ => 0) 10 1 2)
        [.add 1 6, .add 2 4, .update 0 8] l ∧ l.members = [0] ∧ l.size 0 = 8 ∧ l.freeSize = 2 := by
  refine ⟨(sramRun_accounts_iff zeroElements (fun _ => 0) (by decide) (by decide)
    (by simp [SramCall.SizeWithin])).mpr roomInFront_small, _,
    .cons (@SramStep.add 10 _ _ 1 6 1 4 rfl) (.cons (@SramStep.add 10 _ _ 2 4 0 4 rfl)
      (.cons (@SramStep.update 10 _ _ 0 8 4 rfl) (.nil _))), rfl, rfl, rfl⟩

/-- Two elements fill a list of ten bytes. The one at the tail cannot grow by two: the loop evicts
it, then the other, and its new size is taken off the free size although it is not listed. -/
theorem sramRun_evictsItself : ∃ calls : List SramCall,
    (∀ call ∈ calls, call.SizeWithin 10) ∧
      ¬ Throughout (SramStep 10) (Accounts 10)
        (createLRUListS zeroElements (fun _ => 0) 10 1 2) calls := by
  refine ⟨[.add 1 6, .add 2 4, .update 1 8], by simp [SramCall.SizeWithin], fun h => ?_⟩
  obtain ⟨l₁, l₂, hstep₁, hstep₂, hmembers, hfirst, htail⟩ : ∃ l₁ l₂,
      SramStep 10 (createLRUListS zeroElements (fun _ => 0) 10 1 2) (.add 1 6) l₁ ∧
        SramStep 10 l₁ (.add 2 4) l₂ ∧ l₂.members = [0, 1] ∧ l₂.size 0 = 4 ∧ l₂.size 1 = 6 := by
    apply Exists.intro
    apply Exists.intro
    apply And.intro
    · exact @SramStep.add 10 _ _ 1 6 1 4 rfl
    · exact ⟨@SramStep.add 10 _ _ 2 4 0 4 rfl, rfl, rfl, rfl⟩
  have hcreated : SramOk 10 2 [] (lruSlots 2)
      (createLRUListS zeroElements (fun _ => 0) 10 1 2) :=
    createLRUListS_ok _ _ (by decide) rfl (by decide)
  have hadd₁ : SramCall.SizeWithin 10 (.add 1 6) := ⟨by decide, by decide⟩
  have hadd₂ : SramCall.SizeWithin 10 (.add 2 4) := ⟨by decide, by decide⟩
  obtain ⟨used₁, unused₁, h₁, -⟩ := (hcreated.call (by decide) hadd₁ trivial).2 l₁ hstep₁
  obtain ⟨used₂, unused₂, h₂, -⟩ := (h₁.call (by decide) hadd₂ trivial).2 l₂ hstep₂
  obtain ⟨⟨l₃, hstep₃⟩, hall⟩ := ((h.2 l₁ hstep₁).2 l₂ hstep₂).1
  obtain ⟨hbalanced, -⟩ := hall l₃ hstep₃
  cases hstep₃ with
  | update hupdate =>
    refine h₂.update_wrong ?_ hupdate hbalanced
    rintro (hsize | ⟨front, rest, hsplit, hfits⟩)
    · rw [htail] at hsize
      cases hsize
    · rw [hmembers] at hsplit
      rcases front with _ | ⟨p, _ | ⟨q, front⟩⟩
      · cases hsplit
      · cases hsplit
        rw [List.map_singleton, List.sum_singleton, hfirst] at hfits
        exact absurd hfits (by decide)
      · have hlength := congrArg List.length hsplit
        simp at hlength

end WiscKey.Flash
