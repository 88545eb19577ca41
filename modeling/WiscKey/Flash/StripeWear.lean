import Mathlib.Algebra.BigOperators.Group.Finset.Piecewise
import WiscKey.Flash.ListBuilt
import WiscKey.Flash.Stripe
import WiscKey.Library.Outcome
import WiscKey.Library.Runs

/-!
# The wear order of the striped chips

The erases of every block and of every chip, and the order of the chips by their erases. An
erase that starts others is counted after them, so the counters go through the erases in the
order in which they end, one at a time. Each is counted for the chip `BlockID%ChipNumber`, where
every other function takes `BlockID/BlocksPerChip`, and the pass that sorts the chips moves a
chip by one place only.
-/

namespace WiscKey.Flash

/-- The counters of erases, and the order of the chips. -/
@[ext] structure Wear where
  blockEraseCnt : Int → Int
  chipEraseCnt : Int → Int
  sortedOrder : Int → Int

/-- The wear that the striping layer has recorded. -/
def Stripe.wear (s : Stripe) : Wear := ⟨s.dev.blockEraseCnt, s.chipEraseCnt, s.sortedOrder⟩

/-- The chips in the order of their numbers, before any erase. -/
def freshWear : Wear := ⟨fun _ => 0, fun _ => 0, fun i => i⟩

/-- One erase is counted, and the chips are sorted. -/
def countErase (g : Geometry) (w : Wear) (blockID : Int) : Wear :=
  let chip := blockID.tmod g.chipNumber
  let chipEraseCnt := Function.update w.chipEraseCnt chip (w.chipEraseCnt chip + 1)
  { blockEraseCnt := Function.update w.blockEraseCnt blockID (w.blockEraseCnt blockID + 1)
    chipEraseCnt
    sortedOrder := bubblePass chipEraseCnt g.chipNumber w.sortedOrder }

/-- The erases of the blocks are counted one after the other. -/
def countErases (g : Geometry) (w : Wear) (erased : List Int) : Wear :=
  erased.foldl (countErase g) w

/-- The erases of the blocks of a chip. -/
def erasesOfChip (g : Geometry) (blockEraseCnt : Int → Int) (chip : Int) : Int :=
  ∑ b ∈ g.blocks with b / g.blocksPerChip = chip, blockEraseCnt b

/-- Every chip's counter is the sum over its blocks, and the order is one of all the chips by
their counters. -/
structure WearOrdered (g : Geometry) (w : Wear) : Prop where
  counts : ∀ chip : Int, 0 ≤ chip → chip < g.chipNumber →
    w.chipEraseCnt chip = erasesOfChip g w.blockEraseCnt chip
  perm : Set.BijOn w.sortedOrder (positions g.chipNumber) (positions g.chipNumber)
  sorted : NonIncreasing w.chipEraseCnt g.chipNumber w.sortedOrder

/-- The erase is counted for the chip of its block, and the chip two places in front of that
one has more erases than it. -/
def CountsInOrder (g : Geometry) (w : Wear) (blockID : Int) : Prop :=
  blockID % g.chipNumber = blockID / g.blocksPerChip ∧
    ∀ p : Int, 2 ≤ p → p < g.chipNumber → w.sortedOrder p = blockID / g.blocksPerChip →
      w.chipEraseCnt (blockID / g.blocksPerChip) < w.chipEraseCnt (w.sortedOrder (p - 2))

variable {g : Geometry} {ftlMethod : StripeMethod} {w : Wear} {b chip : Int}

theorem stripeCleanBlock_wear (s : Stripe) :
    (stripeCleanBlock g s b).wear = countErase g s.wear b := rfl

theorem countErases_append (erased erased' : List Int) :
    countErases g w (erased ++ erased') = countErases g (countErases g w erased) erased' :=
  List.foldl_append

theorem freshWear_ordered : WearOrdered g freshWear := by
  refine ⟨fun chip _ _ => ?_, Set.bijOn_id _, fun i _ _ => le_refl _⟩
  simp [erasesOfChip, freshWear]

/-- An erase adds one to the sum over the chip of its block. -/
theorem erasesOfChip_update (hb : b ∈ g.blocks) (cnt : Int → Int) (chip : Int) :
    erasesOfChip g (Function.update cnt b (cnt b + 1)) chip =
      erasesOfChip g cnt chip + if b / g.blocksPerChip = chip then 1 else 0 := by
  unfold erasesOfChip
  split
  case isTrue h =>
    have hmem : b ∈ g.blocks.filter fun b => b / g.blocksPerChip = chip :=
      Finset.mem_filter.mpr ⟨hb, h⟩
    rw [Finset.sum_update_of_mem hmem, ← Finset.add_sum_erase _ _ hmem,
      Finset.sdiff_singleton_eq_erase]
    omega
  case isFalse h =>
    rw [Int.add_zero]
    refine Finset.sum_congr rfl fun x hx => Function.update_of_ne ?_ _ _
    rintro rfl
    exact h (Finset.mem_filter.mp hx).2

/-- The counters are right after an erase exactly when it is counted for its chip. -/
theorem countErase_counts_iff (h : WearOrdered g w) (hb : b ∈ g.blocks) :
    (∀ chip : Int, 0 ≤ chip → chip < g.chipNumber → (countErase g w b).chipEraseCnt chip =
      erasesOfChip g (countErase g w b).blockEraseCnt chip) ↔
      b % g.chipNumber = b / g.blocksPerChip := by
  have hb0 := (g.mem_blocks.mp hb).1
  have hpos : (0 : Int) < g.chipNumber := by exact_mod_cast g.chipNumber_pos
  have hchip0 := Int.emod_nonneg b hpos.ne'
  have hchip := Int.emod_lt_of_pos b hpos
  have hcount : ∀ chip, (countErase g w b).chipEraseCnt chip =
      w.chipEraseCnt chip + if b % g.chipNumber = chip then 1 else 0 := by
    intro chip
    simp only [countErase, Int.tmod_eq_emod_of_nonneg hb0]
    by_cases he : b % g.chipNumber = chip
    · subst chip
      rw [Function.update_self, if_pos rfl]
    · rw [Function.update_of_ne (Ne.symm he), if_neg he, Int.add_zero]
  have hsum : ∀ chip, erasesOfChip g (countErase g w b).blockEraseCnt chip =
      erasesOfChip g w.blockEraseCnt chip + if b / g.blocksPerChip = chip then 1 else 0 :=
    erasesOfChip_update hb w.blockEraseCnt
  constructor
  · intro hall
    have hown := hall (b % g.chipNumber) hchip0 hchip
    rw [hcount, hsum, h.counts _ hchip0 hchip, if_pos rfl] at hown
    by_contra hne
    rw [if_neg (Ne.symm hne)] at hown
    omega
  · intro he chip h0 hlt
    rw [hcount, hsum, h.counts chip h0 hlt, he]

/-- The counter of the erase's chip rises to just above its equals. -/
theorem WearOrdered.raised (h : WearOrdered g w) (hb : 0 ≤ b) {p : Nat} (hp : p < g.chipNumber)
    (hat : w.sortedOrder p = b % g.chipNumber) :
    Raised w.chipEraseCnt (countErase g w b).chipEraseCnt g.chipNumber w.sortedOrder p
      (b % g.chipNumber) := by
  refine ⟨h.sorted, hp, h.perm.injOn, hat, fun x hx => ?_, fun x hx => ?_⟩
  · simp only [countErase, Int.tmod_eq_emod_of_nonneg hb]
    exact Function.update_of_ne hx ..
  · simp only [countErase, Int.tmod_eq_emod_of_nonneg hb, Function.update_self]
    exact Int.lt_add_one_iff

/-- What one erase does to the order. -/
theorem wearOrdered_countErase_iff (h : WearOrdered g w) (hb : b ∈ g.blocks) :
    WearOrdered g (countErase g w b) ↔ CountsInOrder g w b := by
  have hb0 := (g.mem_blocks.mp hb).1
  have hpos : (0 : Int) < g.chipNumber := by exact_mod_cast g.chipNumber_pos
  have hmem : b % g.chipNumber ∈ positions g.chipNumber :=
    ⟨Int.emod_nonneg b hpos.ne', Int.emod_lt_of_pos b hpos⟩
  obtain ⟨q, ⟨hq0, hq⟩, hat⟩ := h.perm.surjOn hmem
  obtain ⟨p, rfl⟩ := Int.eq_ofNat_of_zero_le hq0
  have hraised := h.raised hb0 (Int.ofNat_lt.mp hq) hat
  have hsorted := hraised.bubblePass_nonIncreasing_iff
  have hcounts := countErase_counts_iff h hb
  have hwhere : b % g.chipNumber = b / g.blocksPerChip →
      ((2 ≤ p → w.chipEraseCnt (b % g.chipNumber) < w.chipEraseCnt (w.sortedOrder (p - 2))) ↔
        ∀ p : Int, 2 ≤ p → p < g.chipNumber → w.sortedOrder p = b / g.blocksPerChip →
          w.chipEraseCnt (b / g.blocksPerChip) < w.chipEraseCnt (w.sortedOrder (p - 2))) := by
    intro he
    rw [← he]
    constructor
    · intro hfar p' h2 hp' hat'
      obtain rfl : p' = p := h.perm.injOn ⟨by omega, hp'⟩ ⟨hq0, hq⟩ (hat'.trans hat.symm)
      exact hfar (by omega)
    · intro hall h2
      exact hall p (by omega) hq hat
  constructor
  · intro h'
    have he := hcounts.mp h'.counts
    exact ⟨he, (hwhere he).mp (hsorted.mp h'.sorted)⟩
  · rintro ⟨he, hfar⟩
    exact ⟨hcounts.mpr he, bubblePass_bijOn h.perm, hsorted.mpr ((hwhere he).mpr hfar)⟩

/-- Through a list of erases the order holds everywhere exactly when every one of them is
counted in order. -/
theorem wearOrdered_throughout_iff (h : WearOrdered g w) {erased : List Int}
    (hblocks : ∀ b ∈ erased, b ∈ g.blocks) :
    (∀ done, done <+: erased → WearOrdered g (countErases g w done)) ↔
      ∀ done b, done ++ [b] <+: erased → CountsInOrder g (countErases g w done) b := by
  have hmem : ∀ {done b}, done ++ [b] <+: erased → b ∈ g.blocks := fun hpre =>
    hblocks _ (hpre.subset (by simp))
  constructor
  · intro hall done b hpre
    have hbefore := hall done ((List.prefix_append _ _).trans hpre)
    have hafter := hall (done ++ [b]) hpre
    rw [countErases_append] at hafter
    exact (wearOrdered_countErase_iff hbefore (hmem hpre)).mp hafter
  · intro hcond done
    induction done using List.reverseRecOn with
    | nil => exact fun _ => h
    | append_singleton done b ih =>
      intro hpre
      rw [countErases_append]
      have hbefore := ih ((List.prefix_append _ _).trans hpre)
      exact (wearOrdered_countErase_iff hbefore (hmem hpre)).mpr (hcond done b hpre)

end WiscKey.Flash
