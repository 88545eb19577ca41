import WiscKey.Flash.FreeList

/-!
# Free blocks of one chip

`GetFreeBlockFromChipWithoutChecking` takes blocks from the head of the free list and puts
those of other chips back at its end, until it has one of the chip. The list is rotated, and
the page counters of the blocks that are passed are those of a new block.
-/

namespace WiscKey.Flash

section Source

variable (g : Geometry)

/-- The loop of `GetFreeBlockFromChipWithoutChecking`; its counter leaves `MaxBlock` rounds. -/
def takeFromChip (chip : Int) : Nat → Device → Except Fault (Int × Device)
  | 0, _ => .error .exit
  | rounds + 1, d => do
    let (block, d) ← takeFreeBlock g d
    if block / g.blocksPerChip ≠ chip then takeFromChip chip rounds (putFreeBlock g d block)
    else .ok (block, d)

/-- `GetFreeBlockFromChipWithoutChecking`. -/
def getFreeBlockFromChipWithoutChecking (chip : Int) (d : Device) : Except Fault (Int × Device) :=
  takeFromChip g chip g.maxBlock d

/-- `GetFreeBlockFromChip`: -1 when the chip would lose a block of the reserve. -/
def getFreeBlockFromChip (chip : Int) (d : Device) : Except Fault (Int × Device) :=
  if ((g.leastFreeBlocksInFBL / g.chipNumber : Nat) : Int) < d.blocksInFreeBlockListArray chip then
    getFreeBlockFromChipWithoutChecking g chip d
  else .ok (-1, d)

end Source

/-- How many of the blocks are of the chip. -/
def chipMembers (g : Geometry) (chip : Int) (free : List Int) : Nat :=
  free.countP fun b => b / g.blocksPerChip = chip

/-- The free block list holds the blocks `free`, and the counter of each chip counts its members
above an offset. -/
structure Charted (g : Geometry) (good : Finset Int) (offset : Int → Int) (free : List Int)
    (d : Device) : Prop where
  listed : FreeListed good free d
  chips : ∀ chip, d.blocksInFreeBlockListArray chip = chipMembers g chip free + offset chip
  null : free = [] → d.freeBlockListHead = fblPointToNull

/-- What a block's counters are when it is taken from the list. -/
structure NewCounters (g : Geometry) (d : Device) (b : Int) : Prop where
  freePages : d.freePageCnt b = g.maxPage
  invalidPages : d.invalidPageCnt b = 0
  validPages : d.validPageCnt b = 0
  freeSubPages : d.freeSubPageCnt b = g.maxSubPage * g.maxPage
  invalidSubPages : d.invalidSubPageCnt b = 0
  validSubPages : d.validSubPageCnt b = 0

/-- The counters of a block are the same in both devices. -/
structure SameCounters (d d' : Device) (b : Int) : Prop where
  freePages : d'.freePageCnt b = d.freePageCnt b
  invalidPages : d'.invalidPageCnt b = d.invalidPageCnt b
  validPages : d'.validPageCnt b = d.validPageCnt b
  freeSubPages : d'.freeSubPageCnt b = d.freeSubPageCnt b
  invalidSubPages : d'.invalidSubPageCnt b = d.invalidSubPageCnt b
  validSubPages : d'.validSubPageCnt b = d.validSubPageCnt b

variable {g : Geometry} {good : Finset Int} {offset : Int → Int} {free : List Int}
  {d d' : Device} {b chip : Int}

theorem SameCounters.trans {d'' : Device} (h : SameCounters d d' b) (h' : SameCounters d' d'' b) :
    SameCounters d d'' b :=
  ⟨h'.1.trans h.1, h'.2.trans h.2, h'.3.trans h.3, h'.4.trans h.4, h'.5.trans h.5, h'.6.trans h.6⟩

theorem NewCounters.congr (h : NewCounters g d b) (hsame : SameCounters d d' b) :
    NewCounters g d' b :=
  ⟨hsame.1.trans h.1, hsame.2.trans h.2, hsame.3.trans h.3, hsame.4.trans h.4, hsame.5.trans h.5,
    hsame.6.trans h.6⟩

theorem chipMembers_cons (b : Int) (free : List Int) : chipMembers g chip (b :: free) =
    chipMembers g chip free + if b / g.blocksPerChip = chip then 1 else 0 := by
  simp only [chipMembers, List.countP_cons, decide_eq_true_eq]

theorem chipMembers_append (free free' : List Int) :
    chipMembers g chip (free ++ free') = chipMembers g chip free + chipMembers g chip free' :=
  List.countP_append

/-- Taking the head: the list and its counters, and what stays of the rest. -/
theorem Charted.take (h : Charted g good offset (b :: free) d) (hgood : good ⊆ g.blocks) :
    ∃ d', takeFreeBlock g d = .ok (b, d') ∧ Charted g good offset free d' ∧ NewCounters g d' b ∧
      (∀ x, x ≠ b → SameCounters d d' x) ∧ d'.flashMemory = d.flashMemory := by
  obtain ⟨d', htake, hlisted, hfm, -, -⟩ := takeFreeBlock_spec h.listed hgood
  have hhead : d.freeBlockListHead = b := h.listed.head b rfl
  have hd' := htake
  rw [takeFreeBlock, hhead] at hd'
  split at hd'
  · cases hd'
  obtain rfl := congrArg Prod.snd (Except.ok.inj hd')
  refine ⟨_, htake, ⟨hlisted, fun x => ?_, ?_⟩, ?_, fun x hx => ?_, hfm⟩
  · have hchips := h.chips x
    rw [chipMembers_cons] at hchips
    simp only
    by_cases hx : x = b / g.blocksPerChip
    · subst x
      rw [if_pos rfl] at hchips
      rw [Function.update_self]
      omega
    · rw [if_neg (Ne.symm hx)] at hchips
      rw [Function.update_of_ne hx]
      omega
  · rintro rfl
    exact h.listed.linked
  · constructor
    all_goals exact Function.update_self ..
  · constructor
    all_goals exact Function.update_of_ne hx ..

/-- Putting a block at the end. -/
theorem Charted.put (h : Charted g good offset free d) (hb : b ∈ good) (hnot : b ∉ free)
    (hne : free ≠ []) : Charted g good offset (free ++ [b]) (putFreeBlock g d b) := by
  refine ⟨putFreeBlock_listed h.listed hb hnot hne, fun x => ?_, fun hnil => by simp at hnil⟩
  have hchips := h.chips x
  rw [chipMembers_append, chipMembers_cons]
  simp only [putFreeBlock, chipMembers, List.countP_nil, Nat.zero_add]
  rw [chipMembers] at hchips
  by_cases hx : x = b / g.blocksPerChip
  · subst x
    rw [Function.update_self, if_pos rfl]
    omega
  · rw [Function.update_of_ne hx, if_neg (Ne.symm hx)]
    omega

/-- A list has no more members than there are blocks. -/
theorem FreeListed.length_le (h : FreeListed good free d) (hgood : good ⊆ g.blocks) :
    free.length ≤ g.maxBlock := by
  rw [← List.toFinset_card_of_nodup h.nodup, ← g.card_blocks]
  refine Finset.card_le_card fun b hb => ?_
  exact hgood (h.mem_good b (List.mem_toFinset.mp hb))

/-- What an allocation from a chip leaves: the block is gone from the list, what was behind it
comes first, and then what was in front of it. -/
structure TakenFromChip (g : Geometry) (good : Finset Int) (offset : Int → Int)
    (front behind : List Int) (b : Int) (d d' : Device) : Prop where
  charted : Charted g good offset (behind ++ front) d'
  new : ∀ x ∈ b :: front, NewCounters g d' x
  same : ∀ x, x ∉ b :: front → SameCounters d d' x
  flashMemory : d'.flashMemory = d.flashMemory

/-- The loop passes the blocks in front of the first one of the chip, and takes that. -/
theorem Charted.takeFromChip {front behind : List Int} (hgood : good ⊆ g.blocks)
    (h : Charted g good offset (front ++ b :: behind) d) (hchip : b / g.blocksPerChip = chip)
    (hfront : ∀ x ∈ front, x / g.blocksPerChip ≠ chip) {rounds : Nat}
    (hrounds : front.length < rounds) : ∃ d', Flash.takeFromChip g chip rounds d = .ok (b, d') ∧
      TakenFromChip g good offset front behind b d d' := by
  induction front generalizing behind rounds d with
  | nil =>
    obtain ⟨rounds, rfl⟩ := Nat.exists_eq_succ_of_ne_zero (Nat.ne_of_gt hrounds)
    obtain ⟨d', htake, hcharted, hnew, hsame, hfm⟩ := h.take hgood
    refine ⟨d', ?_, by simpa using hcharted, ?_, ?_, hfm⟩
    · rw [Flash.takeFromChip, htake]
      exact if_neg (not_not.mpr hchip)
    · intro x hx
      rw [List.mem_singleton.mp hx]
      exact hnew
    · exact fun x hx => hsame x fun he => hx (by simp [he])
  | cons a front ih =>
    obtain ⟨rounds, rfl⟩ := Nat.exists_eq_succ_of_ne_zero (Nat.ne_of_gt (Nat.zero_lt_of_lt hrounds))
    have hlist : Charted g good offset (a :: (front ++ b :: behind)) d := h
    obtain ⟨d₁, htake, hcharted, hnew, hsame, hfm⟩ := hlist.take hgood
    have ha : a ∉ front ++ b :: behind := (List.nodup_cons.mp h.listed.nodup).1
    have hput := hcharted.put (h.listed.mem_good a List.mem_cons_self) ha (by simp)
    rw [List.append_assoc, List.cons_append] at hput
    obtain ⟨d', hloop, htaken⟩ := ih hput (fun x hx => hfront x (List.mem_cons_of_mem _ hx))
      (Nat.lt_of_succ_lt_succ hrounds)
    have hsamePut : ∀ x, SameCounters d₁ (putFreeBlock g d₁ a) x := fun x =>
      ⟨rfl, rfl, rfl, rfl, rfl, rfl⟩
    simp only [List.mem_append, List.mem_cons, not_or] at ha
    refine ⟨d', ?_, by simpa using htaken.charted, ?_, ?_, htaken.flashMemory.trans hfm⟩
    · rw [Flash.takeFromChip, htake]
      exact (if_pos (hfront a List.mem_cons_self)).trans hloop
    · intro x hx
      by_cases hxa : x = a
      · subst x
        refine hnew.congr ((hsamePut a).trans (htaken.same a ?_))
        simp [ha]
      · exact htaken.new x (by simpa [hxa] using hx)
    · intro x hx
      simp only [List.mem_cons, not_or] at hx
      refine (hsame x hx.2.1).trans ((hsamePut x).trans (htaken.same x ?_))
      simp [hx]

/-- The members of the list that are of the chip, in its order. -/
def ofChip (g : Geometry) (chip : Int) (free : List Int) : List Int :=
  free.filter fun b => b / g.blocksPerChip = chip

theorem ofChip_append (free free' : List Int) :
    ofChip g chip (free ++ free') = ofChip g chip free ++ ofChip g chip free' :=
  List.filter_append ..

theorem ofChip_eq_nil (h : ∀ x ∈ free, x / g.blocksPerChip ≠ chip) : ofChip g chip free = [] :=
  List.filter_eq_nil_iff.mpr fun x hx => by simpa using h x hx

/-- The first member of a chip, if it has one, with what is in front of it and behind it. -/
theorem exists_first_ofChip (h : ∃ b ∈ free, b / g.blocksPerChip = chip) :
    ∃ front b behind, free = front ++ b :: behind ∧ b / g.blocksPerChip = chip ∧
      ∀ x ∈ front, x / g.blocksPerChip ≠ chip := by
  induction free with
  | nil => simp at h
  | cons a free ih =>
    by_cases ha : a / g.blocksPerChip = chip
    · exact ⟨[], a, free, rfl, ha, by simp⟩
    · obtain ⟨b, hb, hchip⟩ := h
      have hne : b ≠ a := fun he => ha (he ▸ hchip)
      obtain ⟨front, b', behind, rfl, hb', hfront⟩ :=
        ih ⟨b, (List.mem_cons.mp hb).resolve_left hne, hchip⟩
      refine ⟨a :: front, b', behind, rfl, hb', fun x hx => ?_⟩
      rcases List.mem_cons.mp hx with rfl | hx
      · exact ha
      · exact hfront x hx

/-- A block of the chip was taken. The other members are in the list, those behind the block in
front of the others, so those of the chip keep their order. Of the counters of the list, that of
all blocks and that of the chip went down by one, and the page counters changed of the blocks that
were passed. -/
structure FirstTaken (g : Geometry) (good : Finset Int) (chip : Int) (front : List Int) (b : Int)
    (behind : List Int) (d d' : Device) : Prop where
  taken : b / g.blocksPerChip = chip
  passed : ∀ x ∈ front, x / g.blocksPerChip ≠ chip
  listed : FreeListed good (behind ++ front) d'
  order : ofChip g chip (behind ++ front) = (ofChip g chip (front ++ b :: behind)).tail
  count : d'.blocksInFreeBlockList = d.blocksInFreeBlockList - 1
  chips : ∀ x, d'.blocksInFreeBlockListArray x =
    d.blocksInFreeBlockListArray x - if x = chip then 1 else 0
  new : ∀ x ∈ b :: front, NewCounters g d' x
  same : ∀ x, x ∉ b :: front → SameCounters d d' x
  flashMemory : d'.flashMemory = d.flashMemory

/-- The call returns the first block of the chip, and ends without an error. -/
theorem getFreeBlockFromChipWithoutChecking_takes (hgood : good ⊆ g.blocks)
    (h : FreeListed good free d) (hchip : ∃ b ∈ free, b / g.blocksPerChip = chip) :
    ∃ front b behind d', free = front ++ b :: behind ∧
      getFreeBlockFromChipWithoutChecking g chip d = .ok (b, d') ∧
      FirstTaken g good chip front b behind d d' := by
  obtain ⟨front, b, behind, rfl, hb, hfront⟩ := exists_first_ofChip hchip
  have hcharted : Charted g good (fun x => d.blocksInFreeBlockListArray x -
      chipMembers g x (front ++ b :: behind)) (front ++ b :: behind) d :=
    ⟨h, fun x => by omega, fun hnil => by simp at hnil⟩
  have hlength := h.length_le hgood
  have hcount := h.count
  simp only [List.length_append, List.length_cons] at hlength hcount
  obtain ⟨d', hok, htaken⟩ := hcharted.takeFromChip hgood hb hfront
    (show front.length < g.maxBlock by omega)
  refine ⟨front, b, behind, d', rfl, hok, hb, hfront, htaken.charted.listed, ?_, ?_, fun x => ?_,
    htaken.new, htaken.same, htaken.flashMemory⟩
  · have hcons : ofChip g chip (b :: behind) = b :: ofChip g chip behind :=
      List.filter_cons_of_pos (by simpa using hb)
    rw [ofChip_append, ofChip_append, ofChip_eq_nil hfront, hcons]
    simp
  · have hcount' := htaken.charted.listed.count
    simp only [List.length_append] at hcount'
    omega
  · have hchips := htaken.charted.chips x
    simp only [chipMembers_append, chipMembers_cons] at hchips
    rw [hchips, hb]
    by_cases hx : x = chip
    · subst x
      simp only [if_true]
      omega
    · rw [if_neg (Ne.symm hx), if_neg hx]
      omega

/-- A list of the blocks 0, 2 and 1; block 3 is not free. -/
def twoChipsDevice : Device :=
  { blankDevice twoChips ⟨fun _ => 0, fun _ => false, fun _ => 0⟩ with
    freeBlockList := fun b => if b = 0 then 2 else if b = 2 then 1 else if b = 1 then -1 else -2
    freeBlockListTail := 1
    blocksInFreeBlockList := 3 }

theorem twoChipsDevice_listed : FreeListed twoChips.blocks [0, 2, 1] twoChipsDevice := by
  refine ⟨by decide, ?_, ⟨rfl, rfl, rfl⟩, ?_, ?_, rfl, ?_⟩
  · simp only [Geometry.mem_blocks]
    decide
  · rintro b hb
    obtain rfl := Option.some.inj hb
    rfl
  · rintro b hb
    obtain rfl := Option.some.inj hb
    rfl
  · intro b hb hnot
    obtain ⟨hb0, hb4⟩ := twoChips.mem_blocks.mp hb
    have hmax : twoChips.maxBlock = 4 := by decide
    simp only [List.mem_cons, List.not_mem_nil, or_false, not_or] at hnot
    simp [twoChipsDevice, fblNotInList, hnot]

/-- A block of the second chip is taken from between those of the first one. -/
theorem getFreeBlockFromChipWithoutChecking_takes_second : ∃ front b behind d',
    ([0, 2, 1] : List Int) = front ++ b :: behind ∧
      getFreeBlockFromChipWithoutChecking twoChips 1 twoChipsDevice = .ok (b, d') ∧
      FirstTaken twoChips twoChips.blocks 1 front b behind twoChipsDevice d' :=
  getFreeBlockFromChipWithoutChecking_takes (Finset.Subset.refl _) twoChipsDevice_listed
    ⟨2, by decide, by decide⟩

/-- It does not keep the order of the blocks of the first chip. -/
theorem getFreeBlockFromChipWithoutChecking_reorders : ¬ ∀ (g : Geometry) (good : Finset Int)
    (free : List Int) (d : Device) (chip : Int), good ⊆ g.blocks → FreeListed good free d →
    (∃ b ∈ free, b / g.blocksPerChip = chip) → ∃ b free' d',
      getFreeBlockFromChipWithoutChecking g chip d = .ok (b, d') ∧ FreeListed good free' d' ∧
        ∀ x, ofChip g x free' = ofChip g x (free.erase b) := by
  intro h
  obtain ⟨b, free', d', hok, hlisted, horder⟩ := h twoChips twoChips.blocks [0, 2, 1] twoChipsDevice 1
    (Finset.Subset.refl _) twoChipsDevice_listed ⟨2, by decide, by decide⟩
  have hcall : ∃ d₂, getFreeBlockFromChipWithoutChecking twoChips 1 twoChipsDevice = .ok (2, d₂) ∧
      d₂.freeBlockListHead = 1 ∧ d₂.blocksInFreeBlockList = 2 := ⟨_, rfl, rfl, rfl⟩
  obtain ⟨d₂, hok₂, hhead, hcount⟩ := hcall
  obtain ⟨rfl, rfl⟩ : 2 = b ∧ d₂ = d' := by simpa using hok₂.symm.trans hok
  cases free' with
  | nil => exact absurd (hlisted.count.symm.trans hcount) (by decide)
  | cons a free' =>
    obtain rfl : 1 = a := hhead.symm.trans (hlisted.head a rfl)
    have hchip := horder 0
    rw [show ofChip twoChips 0 (([0, 2, 1] : List Int).erase 2) = [0, 1] by decide, ofChip,
      List.filter_cons_of_pos (by decide)] at hchip
    exact absurd (List.cons.inj hchip).1 (by decide)

end WiscKey.Flash
