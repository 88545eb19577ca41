import WiscKey.Flash.NftlMerge
import WiscKey.Flash.FtlRun

/-!
# Runs of the block-level translation layer

A run starts from the empty table, on the device as any draws of its initialisation leave
it, and goes on with returning writes. Collections merge only other sets than the one
being written, and a merge of that one never moves its first free page back, so that every
write finds a case to store its cluster.
-/

namespace WiscKey.Flash

variable {g : Geometry} {good : Finset Int} {free : List Int} {s s' : Nftl} {c l : Int}

/-- What holds of set `l` while another set is merged. -/
structure KeepsSet (g : Geometry) (l : Int) (s s' : Nftl) : Prop where
  entry : s'.nftlTable l = s.nftlTable l
  pages : ∀ k, (s.nftlTable l).block k ≠ nftlPointToNull → ∀ p ∈ g.pages,
    s'.dev.flashMemory ((s.nftlTable l).block k) p = s.dev.flashMemory ((s.nftlTable l).block k) p
  stored : ∀ c, 0 ≤ c → (Stored g s'.dev.flashMemory c ↔ Stored g s.dev.flashMemory c)

theorem KeepsSet.refl (s : Nftl) : KeepsSet g l s s := ⟨rfl, fun _ _ _ _ => rfl, fun _ _ => Iff.rfl⟩

theorem KeepsSet.trans {s'' : Nftl} (h : KeepsSet g l s s') (h' : KeepsSet g l s' s'') :
    KeepsSet g l s s'' where
  entry := h'.entry.trans h.entry
  pages k hk p hp := by
    have hpage := h'.pages k (by rwa [h.entry]) p hp
    rw [h.entry] at hpage
    exact hpage.trans (h.pages k hk p hp)
  stored c hc := (h'.stored c hc).trans (h.stored c hc)

/-- A failure other than a call of `exit(1)`. -/
def notExit (e : Fault) : Prop := e ≠ .exit

/-- The scan changes its own position only, and stops at a set with both blocks that is not
the excluded one. -/
theorem findVictimSet_meets {n : Nat} :
    Meets notExit (fun r => (∃ k, r.2 = { s with currentScanningBlockSetID := k }) ∧
      (r.1 = true → isVictimSet r.2 l = true)) (findVictimSet g l n s) := by
  induction n generalizing s with
  | zero => exact ⟨⟨_, rfl⟩, fun hf => absurd hf Bool.false_ne_true⟩
  | succ n ih =>
    simp only [findVictimSet]
    split
    · exact (by decide : Fault.divByZero ≠ Fault.exit)
    · split
      · rename_i hv
        exact ⟨⟨_, rfl⟩, fun _ => hv⟩
      · refine ih.mono fun r hr => ?_
        obtain ⟨⟨k, hk⟩, hfound⟩ := hr
        exact ⟨⟨k, hk⟩, hfound⟩

/-- Only the scan position and the divider have changed. -/
theorem BlockSets.rescan (h : BlockSets g good free s) (hdev : s'.dev = s.dev)
    (htable : s'.nftlTable = s.nftlTable) : BlockSets g good free s' where
  listed := hdev ▸ h.listed
  pages := by
    rw [hdev, htable]
    exact h.pages
  sets := htable ▸ h.sets
  erased := hdev ▸ h.erased
  least := htable ▸ h.least

/-- Once a set has a block, the free list has one. -/
theorem BlockSets.exists_free (h : BlockSets g good free s)
    (hprim : (s.nftlTable l).primaryBlock ≠ nftlPointToNull) : ∃ fb rest, free = fb :: rest := by
  have hleast := h.least l hprim
  have hpos := g.leastFreeBlocksInFBL_pos
  cases free with
  | nil => exact absurd (hpos.trans_le hleast) (by simp)
  | cons fb rest => exact ⟨fb, rest, rfl⟩

/-- A merge of one set keeps the others. -/
theorem BlockSets.merge_keeps {fb k : Int} (h : BlockSets g good (fb :: free) s)
    (hm : MergedSet g fb k s s') (hne : k ≠ l) : KeepsSet g l s s' := by
  refine ⟨?_, ?_, hm.stored⟩
  · obtain ⟨page, htable⟩ := hm.table
    rw [htable, Function.update_of_ne hne.symm]
  · intro i hi p hp
    obtain ⟨-, hfree⟩ := h.sets.owned l i hi
    refine hm.pages _ (fun he => hfree (he ▸ List.mem_cons_self)) ?_ ?_ p hp
    · exact fun he => hne (h.sets.distinct l i k false he hi).1.symm
    · exact fun he => hne (h.sets.distinct l i k true he hi).1.symm

/-- `NFTLGarbageCollection` keeps the invariant and the excluded set. -/
theorem BlockSets.collect (h : BlockSets g good free s) (hgood : good ⊆ g.blocks) :
    Meets notExit (fun s' => (∃ free', BlockSets g good free' s') ∧ KeepsSet g l s s')
      (nftlGarbageCollection g s l) := by
  unfold nftlGarbageCollection
  refine (findVictimSet_meets (g := g) (l := l) (s := s)).bind ?_
  rintro ⟨found, s₁⟩ ⟨⟨k, rfl⟩, hfound⟩
  cases found with
  | false =>
    exact ⟨⟨free, h.rescan rfl rfl⟩, rfl, fun _ _ _ _ => rfl, fun _ _ => Iff.rfl⟩
  | true =>
    have hv := hfound rfl
    simp only [isVictimSet, Bool.and_eq_true, bne_iff_ne] at hv
    obtain ⟨⟨⟨-, hprim⟩, hrepl⟩, hne⟩ := hv
    have h₁ : BlockSets g good free { s with currentScanningBlockSetID := k } := h.rescan rfl rfl
    obtain ⟨fb, rest, rfl⟩ := h.exists_free hprim
    obtain ⟨s₂, hok, hm, h₂⟩ := h₁.merge hgood hrepl
    simp only [if_true, hok]
    have hkeep := h₁.merge_keeps hm hne
    exact ⟨⟨_, h₂⟩, hkeep.entry, hkeep.pages, hkeep.stored⟩

/-- What an allocation for set `l` leaves: the state of the last collection, with the block
off its free list. -/
structure Allocated (g : Geometry) (good : Finset Int) (l : Int) (s : Nftl) (b : Int) (s' : Nftl)
    (before : Nftl) (rest : List Int) : Prop where
  sets : BlockSets g good (b :: rest) before
  keeps : KeepsSet g l s before
  least : g.leastFreeBlocksInFBL ≤ rest.length
  table : s'.nftlTable = before.nftlTable
  pages : s'.dev.flashMemory = before.dev.flashMemory
  listed : FreeListed good rest s'.dev

theorem BlockSets.allocate (h : BlockSets g good free s) (hgood : good ⊆ g.blocks) {fuel : Nat} :
    Meets notExit (fun r => ∃ before rest, Allocated g good l s r.1 r.2 before rest)
      (nftlAllocate g l fuel s) := by
  induction fuel generalizing s free with
  | zero => exact (by decide : Fault.outOfFuel ≠ Fault.exit)
  | succ fuel ih =>
    rw [nftlAllocate]
    rcases Nat.lt_or_ge g.leastFreeBlocksInFBL free.length with hleast | hleast
    · obtain ⟨b, rest, rfl⟩ := List.exists_cons_of_length_pos (Nat.zero_lt_of_lt hleast)
      have hle : g.leastFreeBlocksInFBL ≤ rest.length := Nat.le_of_lt_succ hleast
      obtain ⟨d', hget, hlisted, hfm, -, -⟩ := getFreeBlock_above h.listed hgood hle
      rw [hget]
      have hb : b ≠ -1 :=
        ne_nftlNull_of_mem_blocks (hgood (h.listed.mem_good b List.mem_cons_self))
      change Meets notExit _ (if b = -1 then _ else _)
      rw [if_neg hb]
      exact ⟨s, rest, h, KeepsSet.refl s, hle, rfl, hfm, hlisted⟩
    · rw [getFreeBlock_reserve h.listed hleast]
      refine (h.collect hgood).bind fun s₁ hs₁ => ?_
      obtain ⟨⟨free₁, h₁⟩, hkeep⟩ := hs₁
      refine (ih h₁).mono fun r hr => ?_
      obtain ⟨before, rest, ha⟩ := hr
      exact ⟨before, rest, ha.sets, hkeep.trans ha.keeps, ha.least, ha.table, ha.pages, ha.listed⟩

/-- The allocated block joins the set it was allocated for. -/
theorem Allocated.assign {b : Int} {before : Nftl} {rest : List Int} {e : NFTLElement}
    (h : Allocated g good l s b s' before rest) (hgood : good ⊆ g.blocks)
    (hassigned : Assigned b (s.nftlTable l) e) :
    BlockSets g good rest { s' with nftlTable := Function.update s'.nftlTable l e } := by
  refine h.sets.assign hgood (h.keeps.entry.symm ▸ hassigned) h.listed h.pages ?_ h.least
  rw [← h.table]

/-- The first step of a write leaves a primary block. -/
theorem BlockSets.ensurePrimaryBlock (h : BlockSets g good free s) (hgood : good ⊆ g.blocks)
    {fuel : Nat} :
    Meets notExit (fun s' => (∃ free', BlockSets g good free' s') ∧
      (s'.nftlTable l).primaryBlock ≠ nftlPointToNull ∧
      ∀ c, 0 ≤ c → (Stored g s'.dev.flashMemory c ↔ Stored g s.dev.flashMemory c))
      (ensurePrimaryBlock g fuel s l) := by
  unfold Flash.ensurePrimaryBlock
  by_cases hnull : (s.nftlTable l).primaryBlock = nftlPointToNull
  · rw [if_pos hnull]
    have hrepl : (s.nftlTable l).replacementBlock = nftlPointToNull := by
      by_contra hne
      exact h.sets.primary l hne hnull
    refine (h.allocate hgood).bind ?_
    rintro ⟨b, s₁⟩ ⟨before, rest, ha⟩
    have hentry : s₁.nftlTable l = s.nftlTable l := by rw [ha.table, ha.keeps.entry]
    refine ⟨⟨rest, ha.assign hgood ?_⟩, ?_, ?_⟩
    · rw [hentry]
      exact .primary hnull hrepl
    · simp only [Function.update_self]
      exact ne_nftlNull_of_mem_blocks (hgood (ha.sets.listed.mem_good b List.mem_cons_self))
    · intro c hc
      rw [← ha.keeps.stored c hc, ← ha.pages]
  · rw [if_neg hnull]
    exact ⟨⟨free, h⟩, hnull, fun _ _ => Iff.rfl⟩

section Update

/-- CASE 1 is taken exactly where the first free page of the primary block is not behind. -/
theorem BlockSets.fitsPrimaryBlock_iff (h : BlockSets g good free s) (hgood : good ⊆ g.blocks)
    (hc : 0 ≤ c) (hprim : (s.nftlTable (g.logicalBlock c)).primaryBlock ≠ nftlPointToNull) :
    fitsPrimaryBlock g s c = true ↔
      (s.nftlTable (g.logicalBlock c)).currentFreePageIDinPB ≤ g.logicalPage c := by
  simp only [fitsPrimaryBlock, Bool.and_eq_true, beq_iff_eq, decide_eq_true_eq]
  refine ⟨And.right, fun hle => ⟨?_, hle⟩⟩
  have hnot : ¬ Stored g s.dev.flashMemory c := fun hst => by
    have hlt := h.pages.below c hc hst
    omega
  have hpg : (s.nftlTable (g.logicalBlock c)).primaryBlock ∈ good :=
    (h.sets.owned (g.logicalBlock c) false hprim).1
  have hpage := g.logicalPage_mem hc
  rcases h.pages.content _ hpg _ hpage with hfree | hinv | hcl
  · exact hfree
  · exact absurd (h.pages.invalid c hc hprim hinv) hnot
  · have hhome := h.pages.home _ (hgood hpg) _ hpage hcl
    generalize hv : s.dev.flashMemory (s.nftlTable (g.logicalBlock c)).primaryBlock
      (g.logicalPage c) = v at hcl hhome
    rcases hhome with ⟨hb, hp⟩ | ⟨hb, -⟩
    · obtain rfl : c = v :=
        g.eq_of_logical (h.sets.distinct (g.logicalBlock c) false _ false hb hprim).1 hp
      exact absurd ⟨_, hgood hpg, _, hpage, hv⟩ hnot
    · have hk := (h.sets.distinct (g.logicalBlock c) false _ true hb hprim).2
      cases hk

/-- The state in which a write goes to the replacement block: it has room, and the page of the
cluster is behind the first free page of the primary block. -/
structure ReadyToUpdate (g : Geometry) (c : Int) (s : Nftl) : Prop where
  primary : (s.nftlTable (g.logicalBlock c)).primaryBlock ≠ nftlPointToNull
  replacement : (s.nftlTable (g.logicalBlock c)).replacementBlock ≠ nftlPointToNull
  room : (s.nftlTable (g.logicalBlock c)).currentFreePageIDinRB < g.maxPage
  behind : g.logicalPage c < (s.nftlTable (g.logicalBlock c)).currentFreePageIDinPB

/-- A replacement block is there after the first half of the loop, and the primary block has
not changed. -/
theorem BlockSets.allocateReplacementBlock (h : BlockSets g good free s) (hgood : good ⊆ g.blocks)
    (hprim : (s.nftlTable l).primaryBlock ≠ nftlPointToNull) {fuel : Nat} :
    Meets notExit (fun s' => (∃ free', BlockSets g good free' s') ∧
      (s'.nftlTable l).primaryBlock ≠ nftlPointToNull ∧
      (s'.nftlTable l).replacementBlock ≠ nftlPointToNull ∧
      (s'.nftlTable l).currentFreePageIDinPB = (s.nftlTable l).currentFreePageIDinPB ∧
      ∀ c, 0 ≤ c → (Stored g s'.dev.flashMemory c ↔ Stored g s.dev.flashMemory c))
      (allocateReplacementBlock g fuel s l) := by
  unfold Flash.allocateReplacementBlock
  by_cases hnull : (s.nftlTable l).replacementBlock = nftlPointToNull
  · rw [if_pos hnull]
    refine (h.allocate hgood).bind ?_
    rintro ⟨b, s₁⟩ ⟨before, rest, ha⟩
    have hentry : s₁.nftlTable l = s.nftlTable l := by rw [ha.table, ha.keeps.entry]
    refine ⟨⟨rest, ha.assign hgood ?_⟩, ?_, ?_, ?_, ?_⟩
    · rw [hentry]
      exact .replacement hprim hnull
    · simp only [Function.update_self]
      rwa [hentry]
    · simp only [Function.update_self]
      exact ne_nftlNull_of_mem_blocks (hgood (ha.sets.listed.mem_good b List.mem_cons_self))
    · simp only [Function.update_self]
      rw [hentry]
    · intro c hc
      rw [← ha.keeps.stored c hc, ← ha.pages]
  · rw [if_neg hnull]
    exact ⟨⟨free, h⟩, hprim, hnull, rfl, fun _ _ => Iff.rfl⟩

/-- The first free page of the merged set does not move back. -/
theorem BlockSets.frontier_le_of_stored {free' : List Int} (h : BlockSets g good free s)
    (h' : BlockSets g good free' s') (hl : 0 ≤ l)
    (hprim : (s.nftlTable l).primaryBlock ≠ nftlPointToNull)
    (hprim' : (s'.nftlTable l).primaryBlock ≠ nftlPointToNull)
    (hstored : ∀ c, 0 ≤ c → (Stored g s'.dev.flashMemory c ↔ Stored g s.dev.flashMemory c)) :
    (s.nftlTable l).currentFreePageIDinPB ≤ (s'.nftlTable l).currentFreePageIDinPB := by
  obtain ⟨hge, hle⟩ := h.sets.frontier l hprim
  obtain ⟨hge', -⟩ := h'.sets.frontier l hprim'
  by_cases hpos : (s.nftlTable l).currentFreePageIDinPB = 0
  · omega
  -- the cluster of the last page written is stored, so the merge has copied it
  obtain ⟨c, hc, rfl, hpage⟩ := g.exists_cluster hl
    (g.mem_pages.mpr (by omega : 0 ≤ (s.nftlTable l).currentFreePageIDinPB - 1 ∧
      (s.nftlTable l).currentFreePageIDinPB - 1 < g.maxPage))
  have hst := h.pages.last c hc hprim (by omega)
  have hbelow := h'.pages.below c hc ((hstored c hc).mpr hst)
  omega

/-- The loop around the replacement block leaves one with room. -/
theorem BlockSets.ensureReplacementPage (h : BlockSets g good free s) (hgood : good ⊆ g.blocks)
    (hc : 0 ≤ c) (hprim : (s.nftlTable (g.logicalBlock c)).primaryBlock ≠ nftlPointToNull)
    (hbehind : g.logicalPage c < (s.nftlTable (g.logicalBlock c)).currentFreePageIDinPB)
    {fuel : Nat} :
    Meets notExit (fun s' => (∃ free', BlockSets g good free' s') ∧ ReadyToUpdate g c s' ∧
      ∀ c, 0 ≤ c → (Stored g s'.dev.flashMemory c ↔ Stored g s.dev.flashMemory c))
      (ensureReplacementPage g (g.logicalBlock c) fuel s) := by
  induction fuel generalizing s free with
  | zero => exact (by decide : Fault.outOfFuel ≠ Fault.exit)
  | succ fuel ih =>
    rw [Flash.ensureReplacementPage]
    refine (h.allocateReplacementBlock hgood hprim).bind ?_
    rintro s₁ ⟨⟨free₁, h₁⟩, hprim₁, hrepl₁, hfrontier₁, hstored₁⟩
    have hpos := h₁.sets.position _ hrepl₁
    by_cases hfull : g.maxPage ≤ (s₁.nftlTable (g.logicalBlock c)).currentFreePageIDinRB
    · simp only [if_pos hfull]
      rw [if_neg (by omega)]
      obtain ⟨fb, rest, rfl⟩ := h₁.exists_free hprim₁
      obtain ⟨s₂, hok, hm, h₂⟩ := h₁.merge hgood hrepl₁
      have hprim₂ : (s₂.nftlTable (g.logicalBlock c)).primaryBlock ≠ nftlPointToNull := by
        obtain ⟨page, htable⟩ := hm.table
        rw [htable, Function.update_self]
        exact ne_nftlNull_of_mem_blocks (hgood (h₁.listed.mem_good fb List.mem_cons_self))
      have hfrontier₂ := h₁.frontier_le_of_stored h₂ (g.logicalBlock_nonneg hc) hprim₁ hprim₂
        hm.stored
      rw [hok]
      refine (ih h₂ hprim₂ (by omega)).mono fun s' hs' => ?_
      obtain ⟨hsets, hready, hstored⟩ := hs'
      exact ⟨hsets, hready, fun c hc =>
        (hstored c hc).trans ((hm.stored c hc).trans (hstored₁ c hc))⟩
    · simp only [if_neg hfull]
      exact ⟨⟨free₁, h₁⟩, ⟨hprim₁, hrepl₁, by omega, by omega⟩, hstored₁⟩

/-- The three contents of the page of the cluster in its primary block. -/
theorem BlockSets.primary_content (h : BlockSets g good free s) (hgood : good ⊆ g.blocks)
    (hprim : (s.nftlTable (g.logicalBlock c)).primaryBlock ≠ nftlPointToNull) (hc : 0 ≤ c) :
    let content := s.dev.flashMemory (s.nftlTable (g.logicalBlock c)).primaryBlock (g.logicalPage c)
    content = freePage ∨ content = invalidPage ∨ content = c := by
  have hpg : (s.nftlTable (g.logicalBlock c)).primaryBlock ∈ good :=
    (h.sets.owned (g.logicalBlock c) false hprim).1
  have hpage := g.logicalPage_mem hc
  rcases h.pages.content _ hpg _ hpage with hfree | hinv | hcl
  · exact .inl hfree
  · exact .inr (.inl hinv)
  · refine .inr (.inr ?_)
    rcases h.pages.home _ (hgood hpg) _ hpage hcl with ⟨hb, hp⟩ | ⟨hb, -⟩
    · exact (g.eq_of_logical (h.sets.distinct (g.logicalBlock c) false _ false hb hprim).1 hp).symm
    · have hk := (h.sets.distinct (g.logicalBlock c) false _ true hb hprim).2
      cases hk

/-- The `if` chain has a case for every cluster that reaches it. -/
theorem BlockSets.updateCase_isSome (h : BlockSets g good free s) (hgood : good ⊆ g.blocks)
    (hc : 0 ≤ c) (hready : ReadyToUpdate g c s) : ∃ k, updateCase g s c = some k := by
  have hcontent := h.primary_content hgood hready.primary hc
  simp only [updateCase]
  split
  · exact ⟨_, rfl⟩
  · split
    · exact ⟨_, rfl⟩
    · rename_i hne hinv
      refine ⟨.outOfOrder, if_pos ⟨?_, hready.behind⟩⟩
      exact hcontent.resolve_right fun hother => hother.elim hinv hne

/-- The first free page of a replacement block holds no cluster. -/
theorem BlockSets.replacement_slot (h : BlockSets g good free s) (hgood : good ⊆ g.blocks)
    (hready : ReadyToUpdate g c s) :
    (s.nftlTable (g.logicalBlock c)).currentFreePageIDinRB ∈ g.pages ∧
      s.dev.flashMemory (s.nftlTable (g.logicalBlock c)).replacementBlock
        (s.nftlTable (g.logicalBlock c)).currentFreePageIDinRB < 0 := by
  obtain ⟨hge, -⟩ := h.sets.position _ hready.replacement
  have hpage := g.mem_pages.mpr ⟨hge, hready.room⟩
  have hrg : (s.nftlTable (g.logicalBlock c)).replacementBlock ∈ good :=
    (h.sets.owned (g.logicalBlock c) true hready.replacement).1
  refine ⟨hpage, ?_⟩
  by_contra hcl
  rcases h.pages.home _ (hgood hrg) _ hpage (not_lt.mp hcl) with ⟨hb, -⟩ | ⟨hb, hlt⟩
  · have hk := (h.sets.distinct (g.logicalBlock c) true _ false hb hready.replacement).2
    cases hk
  · have hl := (h.sets.distinct (g.logicalBlock c) true _ true hb hready.replacement).1
    rw [← hl] at hlt
    exact lt_irrefl _ hlt

/-- Once the cluster is dropped from the pages, appending it keeps the invariant. -/
theorem BlockSets.append (h : BlockSets g good free s) (hgood : good ⊆ g.blocks) (hc : 0 ≤ c)
    (hready : ReadyToUpdate g c s) {d : Device}
    (hdrop : Dropped g c s.dev.flashMemory d.flashMemory) (hlisted : FreeListed good free d) :
    let s' := appendReplacement { s with dev := d } (g.logicalBlock c) c
    BlockSets g good free s' ∧
      ∀ c', 0 ≤ c' → (Stored g s'.dev.flashMemory c' ↔ Stored g s.dev.flashMemory c' ∨ c' = c) := by
  obtain ⟨hpage, hslot⟩ := h.replacement_slot hgood hready
  obtain ⟨hge, -⟩ := h.sets.position _ hready.replacement
  have hroom := hready.room
  obtain ⟨hrg, hrf⟩ : (s.nftlTable (g.logicalBlock c)).replacementBlock ∈ good ∧
      (s.nftlTable (g.logicalBlock c)).replacementBlock ∉ free :=
    h.sets.owned (g.logicalBlock c) true hready.replacement
  refine h.program hgood hc hdrop ?_ hrg hrf hpage hslot rfl (hlisted.congr rfl rfl rfl rfl)
  simp only [appendReplacement]
  refine ⟨?_, ?_, ?_, ?_, ?_, ?_⟩
  · intro l k
    by_cases hl : l = g.logicalBlock c
    · subst hl
      rw [Function.update_self]
      cases k <;> rfl
    · rw [Function.update_of_ne hl]
  · intro l
    by_cases hl : l = g.logicalBlock c
    · subst hl
      rw [Function.update_self]
      simp only
      omega
    · rw [Function.update_of_ne hl]
  · unfold InPlace
    rw [Function.update_self]
    exact .inr ⟨rfl, by simp only; omega⟩
  · rw [Function.update_self]
    exact hready.behind
  · intro l
    by_cases hl : l = g.logicalBlock c
    · subst hl
      rw [Function.update_self]
      exact .inl rfl
    · rw [Function.update_of_ne hl]
      exact .inl rfl
  · intro l
    by_cases hl : l = g.logicalBlock c
    · subst hl
      rw [Function.update_self]
      simp only
      exact .inr ⟨by omega, by omega⟩
    · rw [Function.update_of_ne hl]
      exact .inl rfl

/-- CASE 2 to CASE 4 store the cluster, and none of them ends in an error. -/
theorem BlockSets.storeUpdate (h : BlockSets g good free s) (hgood : good ⊆ g.blocks) (hc : 0 ≤ c)
    (hready : ReadyToUpdate g c s) {k : UpdateCase} (hcase : updateCase g s c = some k) :
    ∃ s', storeUpdate g s c k = .ok s' ∧ BlockSets g good free s' ∧
      ∀ c', 0 ≤ c' → (Stored g s'.dev.flashMemory c' ↔ Stored g s.dev.flashMemory c' ∨ c' = c) := by
  have hprim := hready.primary
  have hpb : (s.nftlTable (g.logicalBlock c)).primaryBlock ∈ g.blocks :=
    hgood (h.sets.owned (g.logicalBlock c) false hprim).1
  have hpage := g.logicalPage_mem hc
  -- what a search that finds the cluster drops
  have hfound : ∀ i, searchReplacementBlock s.dev.flashMemory
      (s.nftlTable (g.logicalBlock c)).replacementBlock c
      (s.nftlTable (g.logicalBlock c)).currentFreePageIDinRB.toNat = some i →
      Dropped g c s.dev.flashMemory (setPage s.dev.flashMemory
        (s.nftlTable (g.logicalBlock c)).replacementBlock i invalidPage) := by
    intro i hi
    obtain ⟨hlt, heq⟩ := searchReplacementBlock_some hi
    obtain ⟨hrg, hip⟩ := h.position_mem hready.replacement hlt
    exact h.pages.dropped hc (hgood hrg) hip heq
  simp only [updateCase] at hcase
  split at hcase
  · rename_i heq
    obtain rfl : UpdateCase.inPrimary = k := Option.some.inj hcase
    exact ⟨_, rfl, h.append hgood hc hready (h.pages.dropped hc hpb hpage heq)
      (h.listed.congr rfl rfl rfl rfl)⟩
  split at hcase
  · rename_i hinv
    obtain rfl : UpdateCase.inReplacement = k := Option.some.inj hcase
    have hst := h.pages.invalid c hc hprim hinv
    simp only [Flash.storeUpdate]
    cases hsearch : searchReplacementBlock s.dev.flashMemory
        (s.nftlTable (g.logicalBlock c)).replacementBlock c
        (s.nftlTable (g.logicalBlock c)).currentFreePageIDinRB.toNat with
    | none =>
      have heq := h.in_primary_of_search_none hc hst (.inl hsearch)
      rw [hinv] at heq
      exact absurd (heq ▸ hc) (by decide)
    | some i =>
      exact ⟨_, rfl, h.append hgood hc hready (hfound i hsearch)
        (h.listed.congr rfl rfl rfl rfl)⟩
  split at hcase
  · rename_i hfree
    obtain rfl : UpdateCase.outOfOrder = k := Option.some.inj hcase
    simp only [Flash.storeUpdate]
    cases hsearch : searchReplacementBlock s.dev.flashMemory
        (s.nftlTable (g.logicalBlock c)).replacementBlock c
        (s.nftlTable (g.logicalBlock c)).currentFreePageIDinRB.toNat with
    | none =>
      have hnot : ¬ Stored g s.dev.flashMemory c := by
        intro hst
        have heq := h.in_primary_of_search_none hc hst (.inl hsearch)
        rw [hfree.1] at heq
        exact absurd (heq ▸ hc) (by decide)
      exact ⟨_, rfl, h.append hgood hc hready (dropped_of_not_stored hnot)
        (h.listed.congr rfl rfl rfl rfl)⟩
    | some i =>
      exact ⟨_, rfl, h.append hgood hc hready (hfound i hsearch)
        (h.listed.congr rfl rfl rfl rfl)⟩
  · cases hcase

/-- CASE 1 stores the cluster. -/
theorem BlockSets.storePrimary (h : BlockSets g good free s) (hgood : good ⊆ g.blocks) (hc : 0 ≤ c)
    (hprim : (s.nftlTable (g.logicalBlock c)).primaryBlock ≠ nftlPointToNull)
    (hfits : fitsPrimaryBlock g s c = true) :
    BlockSets g good free (storePrimary g s c) ∧
      ∀ c', 0 ≤ c' → (Stored g (storePrimary g s c).dev.flashMemory c' ↔
        Stored g s.dev.flashMemory c' ∨ c' = c) := by
  simp only [fitsPrimaryBlock, Bool.and_eq_true, beq_iff_eq, decide_eq_true_eq] at hfits
  obtain ⟨hfree, hle⟩ := hfits
  obtain ⟨hpg, hpf⟩ : (s.nftlTable (g.logicalBlock c)).primaryBlock ∈ good ∧
      (s.nftlTable (g.logicalBlock c)).primaryBlock ∉ free :=
    h.sets.owned (g.logicalBlock c) false hprim
  have hnot : ¬ Stored g s.dev.flashMemory c := fun hst => by
    have hlt := h.pages.below c hc hst
    omega
  refine h.program hgood hc (dropped_of_not_stored hnot) ?_ hpg hpf (g.logicalPage_mem hc)
    (by rw [hfree]; decide) rfl (h.listed.congr rfl rfl rfl rfl)
  simp only [Flash.storePrimary]
  refine ⟨?_, ?_, ?_, ?_, ?_, ?_⟩
  · intro l k
    by_cases hl : l = g.logicalBlock c
    · subst hl
      rw [Function.update_self]
      cases k <;> rfl
    · rw [Function.update_of_ne hl]
  · intro l
    by_cases hl : l = g.logicalBlock c
    · subst hl
      rw [Function.update_self]
    · rw [Function.update_of_ne hl]
  · unfold InPlace
    rw [Function.update_self]
    exact .inl ⟨rfl, rfl⟩
  · rw [Function.update_self]
    exact Int.lt_succ _
  · intro l
    by_cases hl : l = g.logicalBlock c
    · subst hl
      rw [Function.update_self]
      exact .inr ⟨rfl, by simp only; omega, rfl⟩
    · rw [Function.update_of_ne hl]
      exact .inl rfl
  · intro l
    by_cases hl : l = g.logicalBlock c
    · subst hl
      rw [Function.update_self]
      exact .inl rfl
    · rw [Function.update_of_ne hl]
      exact .inl rfl

end Update

/-- `NFTLWriteOneCluster` keeps the invariant and the stored clusters and adds its own, and
never calls `exit(1)`. -/
theorem BlockSets.write (h : BlockSets g good free s) (hgood : good ⊆ g.blocks) (hc : 0 ≤ c)
    (fuel : Nat) :
    Meets notExit (fun s' => (∃ free', BlockSets g good free' s') ∧
      ∀ c', 0 ≤ c' → (Stored g s'.dev.flashMemory c' ↔ Stored g s.dev.flashMemory c' ∨ c' = c))
      (nftlWriteOneCluster g fuel s c) := by
  unfold nftlWriteOneCluster
  simp only
  split
  · exact (by decide : Fault.badIndex ≠ Fault.exit)
  refine (h.ensurePrimaryBlock hgood).bind ?_
  rintro s₁ ⟨⟨free₁, h₁⟩, hprim₁, hstored₁⟩
  by_cases hfits : fitsPrimaryBlock g s₁ c = true
  · rw [if_pos hfits]
    obtain ⟨hsets, hstored⟩ := h₁.storePrimary hgood hc hprim₁ hfits
    exact ⟨⟨free₁, hsets⟩, fun c' hc' => (hstored c' hc').trans (or_congr_left (hstored₁ c' hc'))⟩
  · rw [if_neg hfits]
    rw [h₁.fitsPrimaryBlock_iff hgood hc hprim₁, not_le] at hfits
    refine (h₁.ensureReplacementPage hgood hc hprim₁ hfits).bind ?_
    rintro s₂ ⟨⟨free₂, h₂⟩, hready, hstored₂⟩
    obtain ⟨k, hcase⟩ := h₂.updateCase_isSome hgood hc hready
    obtain ⟨s', hok, hsets, hstored⟩ := h₂.storeUpdate hgood hc hready hcase
    simp only [hcase, hok]
    exact ⟨⟨free₂, hsets⟩, fun c' hc' => (hstored c' hc').trans
      (or_congr_left ((hstored₂ c' hc').trans (hstored₁ c' hc')))⟩

/-- A write gets past CASE 1, makes room in the replacement block, and finds no case for its
cluster. -/
def FallsThrough (g : Geometry) (fuel : Nat) (s : Nftl) (c : Int) : Prop :=
  ∃ s₁ s₂, ensurePrimaryBlock g fuel s (g.logicalBlock c) = .ok s₁ ∧
    fitsPrimaryBlock g s₁ c = false ∧
    ensureReplacementPage g (g.logicalBlock c) fuel s₁ = .ok s₂ ∧ updateCase g s₂ c = none

theorem BlockSets.not_fallsThrough (h : BlockSets g good free s) (hgood : good ⊆ g.blocks)
    (hc : 0 ≤ c) (fuel : Nat) : ¬ FallsThrough g fuel s c := by
  rintro ⟨s₁, s₂, hfirst, hfits, hsecond, hcase⟩
  obtain ⟨⟨free₁, h₁⟩, hprim₁, -⟩ := (h.ensurePrimaryBlock hgood).of_ok hfirst
  have hbehind := (h₁.fitsPrimaryBlock_iff hgood hc hprim₁).not.mp (by simp [hfits])
  obtain ⟨⟨free₂, h₂⟩, hready, -⟩ :=
    (h₁.ensureReplacementPage hgood hc hprim₁ (not_le.mp hbehind)).of_ok hsecond
  obtain ⟨k, hk⟩ := h₂.updateCase_isSome hgood hc hready
  rw [hcase] at hk
  cases hk

/-- `NFTLWriteOneCluster` returns, in the state `s'`. -/
def NftlWriteReturns (g : Geometry) (s : Nftl) (clusterID : Int) (s' : Nftl) : Prop :=
  ∃ fuel, nftlWriteOneCluster g fuel s clusterID = .ok s'

/-- Returning writes, one after the other. -/
abbrev NftlWrites (g : Geometry) : Nftl → List Int → Nftl → Prop := Run (NftlWriteReturns g)

/-- No update of the clusters `written` is lost in state `s`, nor can the next write lose its. -/
structure NoLostUpdate (g : Geometry) (clusters : Int) (written : List Int) (s : Nftl) : Prop where
  /-- A written cluster has one page of the whole device. -/
  one_copy : ∀ c ∈ written, ∃! bp : Int × Int,
    bp.1 ∈ g.blocks ∧ bp.2 ∈ g.pages ∧ s.dev.flashMemory bp.1 bp.2 = c
  /-- That page is its own page of the primary block of its logical block, or lies below the
  first free page of the replacement block. -/
  in_place : ∀ c ∈ written, ∀ b ∈ g.blocks, ∀ p ∈ g.pages, s.dev.flashMemory b p = c →
    (b = (s.nftlTable (g.logicalBlock c)).primaryBlock ∧ p = g.logicalPage c) ∨
      (b = (s.nftlTable (g.logicalBlock c)).replacementBlock ∧
        p < (s.nftlTable (g.logicalBlock c)).currentFreePageIDinRB)
  /-- Reading finds exactly the written clusters. -/
  read : ∀ c, 0 ≤ c → c < clusters → (nftlReadOneCluster g s c = .ok true ↔ c ∈ written)
  /-- No write calls `exit(1)`. -/
  no_exit : ∀ c, 0 ≤ c → c < clusters → ∀ fuel, nftlWriteOneCluster g fuel s c ≠ .error .exit
  /-- No write falls through its cases. -/
  no_fall : ∀ c, 0 ≤ c → c < clusters → ∀ fuel, ¬ FallsThrough g fuel s c

/-- A returning write writes to a set of the table. -/
theorem NftlWriteReturns.logicalBlock_lt (h : NftlWriteReturns g s c s') :
    g.logicalBlock c < g.maxBlock := by
  obtain ⟨fuel, hok⟩ := h
  unfold nftlWriteOneCluster at hok
  simp only at hok
  split at hok
  · cases hok
  · omega

/-- Between two writes: the invariant, and which clusters are stored. -/
def Kept (g : Geometry) (good : Finset Int) (written : List Int) (s : Nftl) : Prop :=
  (∃ free, BlockSets g good free s) ∧
    (∀ c, 0 ≤ c → (Stored g s.dev.flashMemory c ↔ c ∈ written)) ∧
    ∀ c ∈ written, 0 ≤ c ∧ g.logicalBlock c < g.maxBlock

/-- A returning write adds its cluster. -/
theorem Kept.write {written : List Int} (h : Kept g good written s) (hgood : good ⊆ g.blocks)
    (hc : 0 ≤ c) (hwrite : NftlWriteReturns g s c s') : Kept g good (written ++ [c]) s' := by
  obtain ⟨⟨free, hsets⟩, hstored, hrange⟩ := h
  have hlt := hwrite.logicalBlock_lt
  obtain ⟨fuel, hok⟩ := hwrite
  obtain ⟨hsets', hstored'⟩ := (hsets.write hgood hc fuel).of_ok hok
  refine ⟨hsets', fun c' hc' => ?_, fun c' hc' => ?_⟩
  · rw [hstored' c' hc', hstored c' hc', List.mem_append, List.mem_singleton]
  · rcases List.mem_append.mp hc' with hold | hnew
    · exact hrange c' hold
    · obtain rfl := List.mem_singleton.mp hnew
      exact ⟨hc, hlt⟩

/-- Returning writes add their clusters. -/
theorem Kept.writes {written cs : List Int} (hrun : NftlWrites g s cs s')
    (h : Kept g good written s) (hgood : good ⊆ g.blocks) (hcs : ∀ c ∈ cs, 0 ≤ c) :
    Kept g good (written ++ cs) s' := by
  induction hrun generalizing written with
  | nil => simpa using h
  | cons head tail ih =>
    have h₁ := h.write hgood (hcs _ List.mem_cons_self) head
    have h₂ := ih h₁ fun c hc => hcs c (List.mem_cons_of_mem _ hc)
    simpa using h₂

/-- The invariant is what the layer promises. -/
theorem Kept.noLostUpdate {written : List Int} {clusters : Int} (h : Kept g good written s)
    (hgood : good ⊆ g.blocks) : NoLostUpdate g clusters written s := by
  obtain ⟨⟨free, hsets⟩, hstored, hrange⟩ := h
  refine ⟨?_, ?_, ?_, ?_, ?_⟩
  · intro c hc
    obtain ⟨hc0, -⟩ := hrange c hc
    obtain ⟨b, hb, p, hp, hpage⟩ := (hstored c hc0).mpr hc
    refine ⟨(b, p), ⟨hb, hp, hpage⟩, ?_⟩
    rintro ⟨b', p'⟩ ⟨hb', hp', hpage'⟩
    obtain ⟨hbb, hpp⟩ := hsets.pages.unique b' hb' p' hp' b hb p hp (hpage'.trans hpage.symm)
      (hpage'.symm ▸ hc0)
    exact Prod.ext hbb hpp
  · rintro c hc b hb p hp rfl
    exact hsets.pages.home b hb p hp (hrange _ hc).1
  · intro c hc _
    by_cases hl : g.logicalBlock c < g.maxBlock
    · rw [hsets.read_iff hgood hc hl, hstored c hc]
    · refine iff_of_false ?_ fun hw => hl (hrange c hw).2
      unfold nftlReadOneCluster
      simp only
      rw [if_pos (.inr (not_lt.mp hl))]
      exact fun hread => nomatch hread
  · exact fun c hc _ fuel hexit => (hsets.write hgood hc fuel).of_error hexit rfl
  · exact fun c hc _ fuel => hsets.not_fallsThrough hgood hc fuel

/-- Nothing is written yet on a fresh device under an empty table. -/
theorem Fresh.kept {d : Device} (h : Fresh g good free d) : Kept g good [] (openNFTL d) := by
  have hsets := h.blockSets
  have hnone : ∀ c, 0 ≤ c → ¬ Stored g (openNFTL d).dev.flashMemory c := fun c hc hst =>
    hsets.primary_of_stored hc hst rfl
  exact ⟨⟨free, hsets⟩, fun c hc => iff_of_false (hnone c hc) (by simp), by simp⟩

/-- No run from the empty table loses an update. -/
theorem nftlWrites_noLostUpdate {draws : Draws} {cs : List Int}
    (hcs : ∀ c ∈ cs, admissible g draws c)
    (hrun : NftlWrites g (openNFTL (initializeFlashMemory g draws)) cs s) :
    NoLostUpdate g (maxCluster g (initializeFlashMemory g draws).badBlockCnt) cs s := by
  obtain ⟨free, hfresh⟩ := initializeFlashMemory_fresh g draws
  have hkept := hfresh.kept.writes hrun hfresh.good_blocks fun c hc => (hcs c hc).1
  exact hkept.noLostUpdate hfresh.good_blocks

/-- A run that stores the first cluster and updates it in the replacement block. -/
theorem nftlWrites_noLostUpdate_small : ∃ s,
    NftlWrites smallGeometry (openNFTL (initializeFlashMemory smallGeometry smallDraws))
      [1, 0, 1] s ∧
    NoLostUpdate smallGeometry
      (maxCluster smallGeometry (initializeFlashMemory smallGeometry smallDraws).badBlockCnt)
      [1, 0, 1] s := by
  obtain ⟨s, hrun⟩ : ∃ s, NftlWrites smallGeometry
      (openNFTL (initializeFlashMemory smallGeometry smallDraws)) [1, 0, 1] s :=
    Run.of_foldlM (fun _ _ _ hok => ⟨3, hok⟩)
      (by decide +kernel : (List.foldlM (nftlWriteOneCluster smallGeometry 3)
        (openNFTL (initializeFlashMemory smallGeometry smallDraws)) [1, 0, 1]).isOk = true)
  exact ⟨s, hrun, nftlWrites_noLostUpdate (by unfold admissible; decide +kernel) hrun⟩

end WiscKey.Flash
