import WiscKey.Flash.ListBuilt
import WiscKey.Library.Runs

/-!
# Calls on the free block list

A list that is not empty stays one under all calls: its links visit the good blocks that carry no
mark, up to the tail, and the counters count them. The calls that need a member, a request of the
collector and a block that is put back, break an empty list or do not return.
-/

namespace WiscKey.Flash

section Calls

variable (g : Geometry)

/-- The calls on the free block list. -/
inductive ListCall
  | getFreeBlock (fromGcRequest : Bool)
  | getFreeBlockFromChip (chip : Int)
  | putFreeBlock (blockID : Int)

/-- The device after a call. -/
def ListCall.perform (d : Device) : ListCall → Except Fault Device
  | getFreeBlock fromGcRequest => do
    let (_, d) ← Flash.getFreeBlock g fromGcRequest d
    .ok d
  | getFreeBlockFromChip chip => do
    let (_, d) ← Flash.getFreeBlockFromChip g chip d
    .ok d
  | putFreeBlock blockID => .ok (Flash.putFreeBlock g d blockID)

/-- A good block that is not in the list can be put there; the other calls are always possible. -/
def ListCall.Possible (d : Device) : ListCall → Prop
  | putFreeBlock blockID => blockID ∈ goodBlocks g d ∧ d.freeBlockList blockID = fblNotInList
  | _ => True

/-- A possible call that returns. -/
def ListStep (d : Device) (call : ListCall) (d' : Device) : Prop :=
  call.Possible g d ∧ call.perform g d = .ok d'

/-- The call finds a member in the list, if it needs one. -/
def ListCall.FindsMember (d : Device) : ListCall → Prop
  | getFreeBlock true => 0 < d.blocksInFreeBlockList
  | putFreeBlock _ => 0 < d.blocksInFreeBlockList
  | _ => True

/-- What the counter of a chip is above the number of the chip's blocks in the first list. -/
def chipOffset (d : Device) (chip : Int) : Int :=
  d.blocksInFreeBlockListArray chip - (goodOfChip g d chip).card

/-- The integrity of the list, `d₀` being the device at first. -/
structure IntactList (d₀ d : Device) (free : List Int) : Prop where
  visits : Visits d.freeBlockList fblPointToNull d.freeBlockListHead free
  nodup : free.Nodup
  members : ∀ b, b ∈ free ↔ b ∈ goodBlocks g d₀ ∧ d.freeBlockList b ≠ fblNotInList
  tail : ∀ b, free.getLast? = some b → d.freeBlockListTail = b
  count : d.blocksInFreeBlockList = free.length
  chips : ∀ chip, d.blocksInFreeBlockListArray chip = chipMembers g chip free + chipOffset g d₀ chip

end Calls

variable {g : Geometry} {good : Finset Int} {offset : Int → Int} {free : List Int}
  {d d' d₀ : Device} {b chip : Int} {call : ListCall} {calls : List ListCall}

/-- From a list without a block of the chip the loop gets none. -/
theorem takeFromChip_none (hgood : good ⊆ g.blocks) (h : Charted g good offset free d)
    (hnone : ∀ x ∈ free, x / g.blocksPerChip ≠ chip) {rounds : Nat} {r : Int × Device} :
    takeFromChip g chip rounds d ≠ .ok r := by
  have hempty : ∀ {d : Device} {rounds : Nat}, d.freeBlockListHead = fblPointToNull →
      takeFromChip g chip rounds d ≠ .ok r := by
    intro d rounds hhead
    have hexit : takeFreeBlock g d = .error .exit := by
      rw [takeFreeBlock, hhead]
      exact if_pos (.inr (by decide))
    cases rounds with
    | zero => exact fun hok => by cases hok
    | succ rounds =>
      rw [takeFromChip, hexit]
      exact fun hok => by cases hok
  induction rounds generalizing free d with
  | zero => exact fun hok => by cases hok
  | succ rounds ih =>
    cases free with
    | nil => exact hempty (h.null rfl)
    | cons a free =>
      obtain ⟨d₁, htake, hcharted, -⟩ := h.take hgood
      have hround : takeFromChip g chip (rounds + 1) d =
          takeFromChip g chip rounds (putFreeBlock g d₁ a) := by
        rw [takeFromChip, htake]
        exact if_pos (hnone a List.mem_cons_self)
      rw [hround]
      cases free with
      | nil => exact hempty (hcharted.null rfl)
      | cons a' free =>
        have hput := hcharted.put (h.listed.mem_good a List.mem_cons_self)
          (List.nodup_cons.mp h.listed.nodup).1 (by simp)
        refine ih hput fun x hx => hnone x ?_
        rcases List.mem_append.mp hx with hx | hx
        · exact List.mem_cons_of_mem _ hx
        · rw [List.mem_singleton.mp hx]
          exact List.mem_cons_self

/-- What a call that returns does to a list. -/
theorem Charted.step (hgood : good ⊆ g.blocks) (h : Charted g good offset free d)
    (hd : goodBlocks g d = good) (hstep : StepWhen (ListStep g) ListCall.FindsMember d call d') :
    ∃ free', Charted g good offset free' d' ∧ d'.flashMemory = d.flashMemory := by
  obtain ⟨hfinds, hpossible, hok⟩ := hstep
  have hne : 0 < d.blocksInFreeBlockList → free ≠ [] := by
    rintro hpos rfl
    rw [h.listed.count] at hpos
    exact absurd hpos (by decide)
  have htaken : free ≠ [] → (∃ b, takeFreeBlock g d = .ok (b, d')) →
      ∃ free', Charted g good offset free' d' ∧ d'.flashMemory = d.flashMemory := by
    rintro hfree ⟨b, htake⟩
    obtain ⟨a, rest, rfl⟩ := List.exists_cons_of_ne_nil hfree
    obtain ⟨d₁, htake₁, hcharted, -, -, hfm⟩ := h.take hgood
    obtain ⟨-, rfl⟩ : a = b ∧ d₁ = d' := by simpa using htake₁.symm.trans htake
    exact ⟨rest, hcharted, hfm⟩
  cases call with
  | putFreeBlock blockID =>
    obtain rfl := Except.ok.inj hok
    obtain ⟨hblock, hmark⟩ := hpossible
    rw [hd] at hblock
    have hnot : blockID ∉ free := fun hmem => h.listed.link_ne hgood hmem hmark
    exact ⟨_, h.put hblock hnot (hne hfinds), rfl⟩
  | getFreeBlock fromGcRequest =>
    cases hget : Flash.getFreeBlock g fromGcRequest d with
    | error e =>
      rw [ListCall.perform, hget] at hok
      cases hok
    | ok r =>
      rw [ListCall.perform, hget] at hok
      obtain rfl := Except.ok.inj hok
      cases fromGcRequest with
      | true => exact htaken (hne hfinds) ⟨r.1, hget⟩
      | false =>
        rw [Flash.getFreeBlock, if_neg Bool.false_ne_true] at hget
        split at hget
        · rename_i habove
          exact htaken (hne (lt_of_le_of_lt (Int.natCast_nonneg _) habove)) ⟨r.1, hget⟩
        · obtain rfl := Except.ok.inj hget
          exact ⟨free, h, rfl⟩
  | getFreeBlockFromChip chip =>
    cases hget : Flash.getFreeBlockFromChip g chip d with
    | error e =>
      rw [ListCall.perform, hget] at hok
      cases hok
    | ok r =>
      rw [ListCall.perform, hget] at hok
      obtain rfl := Except.ok.inj hok
      rw [Flash.getFreeBlockFromChip] at hget
      split at hget
      · by_cases hmember : ∃ b ∈ free, b / g.blocksPerChip = chip
        · obtain ⟨front, b, behind, rfl, hb, hfront⟩ := exists_first_ofChip hmember
          have hlength := h.listed.length_le hgood
          simp only [List.length_append, List.length_cons] at hlength
          obtain ⟨d₁, hloop, htakenChip⟩ := h.takeFromChip hgood hb hfront
            (show front.length < g.maxBlock by omega)
          obtain rfl := Except.ok.inj (hloop.symm.trans hget)
          exact ⟨_, htakenChip.charted, htakenChip.flashMemory⟩
        · refine absurd hget (takeFromChip_none hgood h fun x hx hchip => ?_)
          exact hmember ⟨x, hx, hchip⟩
      · obtain rfl := Except.ok.inj hget
        exact ⟨free, h, rfl⟩

/-- The integrity of a list, from its chart. -/
theorem Charted.intactList (hgood : goodBlocks g d₀ ⊆ g.blocks)
    (h : Charted g (goodBlocks g d₀) (chipOffset g d₀) free d) : IntactList g d₀ d free where
  visits := by
    cases hfree : free with
    | nil => exact h.null hfree
    | cons a rest =>
      rw [← hfree, h.listed.head a (by rw [hfree]; rfl)]
      exact h.listed.linked.visits (by rw [hfree]; rfl)
  nodup := h.listed.nodup
  members b := by
    refine ⟨fun hb => ⟨h.listed.mem_good b hb, h.listed.link_ne hgood hb⟩, fun ⟨hb, hmark⟩ => ?_⟩
    by_contra hnot
    exact hmark (h.listed.unlisted b hb hnot)
  tail := h.listed.tail
  count := h.listed.count
  chips := h.chips

/-- The list that `InitializeFlashMemory` builds. -/
theorem initializeFlashMemory_charted (g : Geometry) (draws : Draws) : ∃ free,
    Charted g (goodBlocks g (initializeFlashMemory g draws))
      (chipOffset g (initializeFlashMemory g draws)) free (initializeFlashMemory g draws) := by
  obtain ⟨free, hfresh⟩ := initializeFlashMemory_fresh g draws
  refine ⟨free, hfresh.listed, fun chip => ?_, ?_⟩
  · have hset : goodOfChip g (initializeFlashMemory g draws) chip =
        (ofChip g chip free).toFinset := by
      ext b
      rw [goodOfChip, Finset.mem_filter, List.mem_toFinset, ofChip, List.mem_filter,
        decide_eq_true_iff]
      exact and_congr_left fun _ => ⟨hfresh.free_all b, hfresh.listed.mem_good b⟩
    have hcard := List.toFinset_card_of_nodup (hfresh.listed.nodup.filter
      fun b => decide (b / g.blocksPerChip = chip))
    rw [chipOffset, hset, ofChip, hcard, chipMembers, List.countP_eq_length_filter]
    omega
  · rintro rfl
    obtain ⟨free', hbuilt⟩ := initializeFlashMemory_listBuilt g draws
    have hmem := (hbuilt.members _).mp (List.mem_of_getLast? hbuilt.last)
    exact absurd (hfresh.free_all _ hmem) List.not_mem_nil

/-- What a run of calls keeps, each of which finds the member it needs. -/
theorem listCalls_charted {draws : Draws} (hrun : Run (StepWhen (ListStep g) ListCall.FindsMember)
    (initializeFlashMemory g draws) calls d) : ∃ free,
      Charted g (goodBlocks g (initializeFlashMemory g draws))
        (chipOffset g (initializeFlashMemory g draws)) free d := by
  have hgood : goodBlocks g (initializeFlashMemory g draws) ⊆ g.blocks := Finset.filter_subset _ _
  obtain ⟨free, hfree⟩ := initializeFlashMemory_charted g draws
  have hinv := hrun.invariant (fun d => d.flashMemory = (initializeFlashMemory g draws).flashMemory ∧
    ∃ free, Charted g (goodBlocks g (initializeFlashMemory g draws))
      (chipOffset g (initializeFlashMemory g draws)) free d) ⟨rfl, free, hfree⟩ (by
    rintro d call d' ⟨hfm, free, h⟩ hstep
    have hd : goodBlocks g d = goodBlocks g (initializeFlashMemory g draws) := by
      rw [goodBlocks, goodBlocks, hfm]
    obtain ⟨free', h', hfm'⟩ := h.step hgood hd hstep
    exact ⟨hfm'.trans hfm, free', h'⟩)
  exact hinv.2

/-- In every run whose calls find the member they need the list keeps its integrity, and a request
of the collector gets the first member of a list that is not empty. -/
theorem listCalls_intact {draws : Draws} (hrun : Run (StepWhen (ListStep g) ListCall.FindsMember)
    (initializeFlashMemory g draws) calls d) : ∃ free,
      IntactList g (initializeFlashMemory g draws) d free ∧
      ∀ b, free.head? = some b → d.freeBlockListHead = b ∧ 0 ≤ b ∧
        ∃ d', getFreeBlock g true d = .ok (b, d') := by
  have hgood : goodBlocks g (initializeFlashMemory g draws) ⊆ g.blocks := Finset.filter_subset _ _
  obtain ⟨free, h⟩ := listCalls_charted hrun
  refine ⟨free, h.intactList hgood, fun b hb => ⟨h.listed.head b hb, ?_, ?_⟩⟩
  · exact (g.mem_blocks.mp (hgood (h.listed.mem_good b (List.mem_of_mem_head? hb)))).1
  · obtain ⟨rest, rfl⟩ := List.head?_eq_some_iff.mp hb
    obtain ⟨d', htake, -⟩ := h.take hgood
    exact ⟨d', htake⟩

/-- Draws without exchanges that mark no block. -/
def noneBad : Draws where
  selectedItem i := i - 1
  isBad _ := false
  uninitialised _ := 0

/-- A member is taken from a list of two. -/
theorem listCalls_intact_first : ∃ d free,
    Run (StepWhen (ListStep twoBlocks) ListCall.FindsMember) (initializeFlashMemory twoBlocks noneBad)
      [.getFreeBlock true] d ∧
    IntactList twoBlocks (initializeFlashMemory twoBlocks noneBad) d free ∧
      ∀ b, free.head? = some b → d.freeBlockListHead = b ∧ 0 ≤ b ∧
        ∃ d', getFreeBlock twoBlocks true d = .ok (b, d') := by
  have hrun : Run (StepWhen (ListStep twoBlocks) ListCall.FindsMember)
      (initializeFlashMemory twoBlocks noneBad) [.getFreeBlock true] _ :=
    .cons ⟨show (0 : Int) < 2 by decide, trivial, rfl⟩ (.nil _)
  obtain ⟨free, h⟩ := listCalls_intact hrun
  exact ⟨_, free, hrun, h⟩

/-- Requests of the collector drain a list. -/
theorem Charted.drain (hgood : good ⊆ g.blocks) (h : Charted g good offset free d) :
    ∃ calls d', Run (ListStep g) d calls d' ∧ Charted g good offset [] d' ∧
      d'.flashMemory = d.flashMemory := by
  induction free generalizing d with
  | nil => exact ⟨[], d, .nil d, h, rfl⟩
  | cons b free ih =>
    obtain ⟨d₁, htake, hcharted, -, -, hfm⟩ := h.take hgood
    obtain ⟨calls, d', hrun, hdrained, hfm'⟩ := ih hcharted
    have hcall : ListCall.perform g d (.getFreeBlock true) = .ok d₁ := by
      rw [ListCall.perform, getFreeBlock, if_pos rfl, htake]
      rfl
    exact ⟨.getFreeBlock true :: calls, d', .cons ⟨trivial, hcall⟩ hrun, hdrained, hfm'.trans hfm⟩

/-- An empty list is broken by a block that is put back, and a request of the collector does not
return from it. -/
theorem listCalls_break_empty :
    (¬ ∀ (g : Geometry) (draws : Draws) (calls : List ListCall) (d : Device),
      Run (ListStep g) (initializeFlashMemory g draws) calls d →
        ∃ free, IntactList g (initializeFlashMemory g draws) d free) ∧
    ¬ ∀ (g : Geometry) (draws : Draws) (calls : List ListCall) (d : Device),
      Run (ListStep g) (initializeFlashMemory g draws) calls d → d.blocksInFreeBlockList = 0 →
        ∃ d', getFreeBlock g true d = .ok (-1, d') := by
  have hgood : goodBlocks twoBlocks (initializeFlashMemory twoBlocks noneBad) ⊆ twoBlocks.blocks :=
    Finset.filter_subset _ _
  obtain ⟨free, hbuilt⟩ := initializeFlashMemory_listBuilt twoBlocks noneBad
  have hb := (hbuilt.members _).mp (List.mem_of_getLast? hbuilt.last)
  generalize (initializeFlashMemory twoBlocks noneBad).freeBlockListTail = b at hb
  obtain ⟨_, hcharted⟩ := initializeFlashMemory_charted twoBlocks noneBad
  obtain ⟨calls, d, hrun, hdrained, hfm⟩ := hcharted.drain hgood
  have hhead : d.freeBlockListHead = -1 := hdrained.null rfl
  constructor
  · intro h
    have hpossible : (ListCall.putFreeBlock b).Possible twoBlocks d := by
      refine ⟨?_, hdrained.listed.unlisted b hb List.not_mem_nil⟩
      rwa [goodBlocks, hfm]
    obtain ⟨free', hintact⟩ := h twoBlocks noneBad _ _ (hrun.concat ⟨hpossible, rfl⟩)
    have hvisits := hintact.visits
    cases free' with
    | nil =>
      refine absurd ((hintact.members b).mpr ⟨hb, ?_⟩) List.not_mem_nil
      simp only [putFreeBlock, Function.update_self]
      decide
    | cons a free' =>
      have ha := (hintact.members a).mp List.mem_cons_self
      have h0 := (twoBlocks.mem_blocks.mp (hgood ha.1)).1
      rw [← hvisits.1] at h0
      exact absurd (hhead ▸ h0) (by decide)
  · intro h
    obtain ⟨d', hok⟩ := h twoBlocks noneBad calls d hrun hdrained.listed.count
    rw [getFreeBlock, if_pos rfl, takeFreeBlock, hhead] at hok
    exact absurd hok (by simp)

end WiscKey.Flash
