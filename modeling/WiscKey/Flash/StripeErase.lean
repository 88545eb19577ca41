import WiscKey.Flash.StripeWear

/-!
# The erases of a striped run

Of all that the striping layer does, only the end of an erase changes the wear. So the wear
after any call is that before it with the erases counted that ended in between, nested ones
first.
-/

namespace WiscKey.Flash

/-- The scan of every chip has stopped at one of its blocks, or has not begun. -/
def ChipsScanning (g : Geometry) (s : Stripe) : Prop :=
  ∀ chip, -1 ≤ s.currentScanningBlockID chip ∧ s.currentScanningBlockID chip < g.blocksPerChip

/-- Between the two states the erases of the blocks were counted, and the log has them. -/
structure Logs (g : Geometry) (erased : List Int) (s s' : Stripe) : Prop where
  wear : s'.wear = countErases g s.wear erased
  log : s'.eraseLog = s.eraseLog ++ erased

/-- Between the two states the erases of some blocks of the device were counted. -/
def Wears (g : Geometry) (s s' : Stripe) : Prop :=
  ChipsScanning g s → ChipsScanning g s' ∧ ∃ erased, (∀ b ∈ erased, b ∈ g.blocks) ∧
    Logs g erased s s'

/-- Between the two states the erases of the blocks `own` were counted, and others of blocks of
the device. -/
def ErasesCounted (g : Geometry) (own : List Int) (s s' : Stripe) : Prop :=
  ChipsScanning g s → ChipsScanning g s' ∧ ∃ erased, own.Sublist erased ∧
    (∀ b ∈ erased, b ∈ own ∨ b ∈ g.blocks) ∧ Logs g erased s s'

/-- Neither the wear nor the scan has changed. -/
structure SameWear (s s' : Stripe) : Prop where
  wear : s'.wear = s.wear
  scanning : s'.currentScanningBlockID = s.currentScanningBlockID
  log : s'.eraseLog = s.eraseLog

/-- What a call may end with, when nothing is said about its failures. -/
def anyFault (_ : Fault) : Prop := True

variable {g : Geometry} {ftlMethod : StripeMethod} {s s' s'' : Stripe} {d : Device}
  {erase : Stripe → Int → Except Fault Stripe} {ensure : Stripe → Except Fault Stripe}
  {data : DataType}

theorem Logs.trans {erased erased' : List Int} (h : Logs g erased s s')
    (h' : Logs g erased' s' s'') : Logs g (erased ++ erased') s s'' where
  wear := by rw [countErases_append, ← h.wear, h'.wear]
  log := by rw [h'.log, h.log, List.append_assoc]

theorem SameWear.logs (h : SameWear s s') : Logs g [] s s' :=
  ⟨h.wear, by rw [h.log, List.append_nil]⟩

/-- An erase is counted and put into the log. -/
theorem stripeCleanBlock_logs (s : Stripe) (b : Int) : Logs g [b] s (stripeCleanBlock g s b) :=
  ⟨stripeCleanBlock_wear s, rfl⟩

theorem SameWear.wears (h : SameWear s s') : Wears g s s' := by
  refine fun hscan => ⟨fun chip => ?_, [], by simp, h.logs⟩
  rw [h.scanning]
  exact hscan chip

theorem Wears.refl (s : Stripe) : Wears g s s := SameWear.wears ⟨rfl, rfl, rfl⟩

theorem Wears.trans (h : Wears g s s') (h' : Wears g s' s'') : Wears g s s'' := by
  intro hscan
  obtain ⟨hscan', erased, hblocks, hlogs⟩ := h hscan
  obtain ⟨hscan'', erased', hblocks', hlogs'⟩ := h' hscan'
  refine ⟨hscan'', erased ++ erased', fun b hb => ?_, hlogs.trans hlogs'⟩
  exact (List.mem_append.mp hb).elim (hblocks b) (hblocks' b)

theorem ErasesCounted.wears {b : Int} (h : ErasesCounted g [b] s s') (hb : b ∈ g.blocks) :
    Wears g s s' := by
  intro hscan
  obtain ⟨hscan', erased, -, hblocks, hwear⟩ := h hscan
  refine ⟨hscan', erased, fun x hx => ?_, hwear⟩
  exact (hblocks x hx).elim (fun h => List.mem_singleton.mp h ▸ hb) id

theorem Wears.counted (h : Wears g s s') : ErasesCounted g [] s s' := by
  intro hscan
  obtain ⟨hscan', erased, hblocks, hwear⟩ := h hscan
  exact ⟨hscan', erased, List.nil_sublist _, fun b hb => .inr (hblocks b hb), hwear⟩

theorem ErasesCounted.trans {own own' : List Int} (h : ErasesCounted g own s s')
    (h' : ErasesCounted g own' s' s'') : ErasesCounted g (own ++ own') s s'' := by
  intro hscan
  obtain ⟨hscan', erased, hsub, hblocks, hwear⟩ := h hscan
  obtain ⟨hscan'', erased', hsub', hblocks', hwear'⟩ := h' hscan'
  refine ⟨hscan'', erased ++ erased', hsub.append hsub', fun b hb => ?_, hwear.trans hwear'⟩
  rcases List.mem_append.mp hb with hb | hb
  · exact (hblocks b hb).imp_left (List.mem_append_left _)
  · exact (hblocks' b hb).imp_left (List.mem_append_right _)

theorem SameWear.trans (h : SameWear s s') (h' : SameWear s' s'') : SameWear s s'' :=
  ⟨h'.wear.trans h.wear, h'.scanning.trans h.scanning, h'.log.trans h.log⟩

/-- A loop of steps that each wear the blocks. -/
theorem foldlM_wears {α : Type} {f : Stripe → α → Except Fault Stripe} {l : List α}
    (hf : ∀ a ∈ l, ∀ s, Meets anyFault (Wears g s) (f s a)) (s : Stripe) :
    Meets anyFault (Wears g s) (l.foldlM f s) := by
  refine Meets.foldlM (Wears g s) (Wears.refl s) fun a ha s₁ h₁ => ?_
  exact (hf a ha s₁).mono fun s₂ h₂ => h₁.trans h₂

section Frame

theorem storeCluster_sameWear {chip cluster : Int} :
    Meets anyFault (SameWear s) (storeCluster g data chip cluster s) := by
  unfold storeCluster
  simp only
  split
  · trivial
  · cases data
    · exact ⟨rfl, rfl, rfl⟩
    · exact ⟨rfl, rfl, rfl⟩

theorem stripeInvalidate_sameWear {cluster : Int} :
    SameWear s (stripeInvalidate g s cluster) := by
  unfold stripeInvalidate
  simp only
  split
  · exact ⟨rfl, rfl, rfl⟩
  · exact ⟨rfl, rfl, rfl⟩

theorem writeCachedCluster_sameWear (i : Nat) :
    Meets anyFault (SameWear s) (writeCachedCluster g ftlMethod s i) := by
  unfold writeCachedCluster
  simp only
  split
  · exact ⟨rfl, rfl, rfl⟩
  · split
    · trivial
    · cases ftlMethod
      · exact storeCluster_sameWear.mono fun s' h => stripeInvalidate_sameWear.trans h
      · exact storeCluster_sameWear.mono fun s' h => stripeInvalidate_sameWear.trans h

theorem stripeWriteOneClusterSet_wears (s : Stripe) :
    Meets anyFault (Wears g s) (stripeWriteOneClusterSet g ftlMethod s) :=
  foldlM_wears (fun i _ _ => (writeCachedCluster_sameWear i).mono fun _ h => h.wears) s

theorem takeFreeBlock_erases (d : Device) :
    Meets anyFault (fun r => r.2.blockEraseCnt = d.blockEraseCnt) (takeFreeBlock g d) := by
  unfold takeFreeBlock
  simp only
  split
  · trivial
  · rfl

/-- The list operations leave the erase counts alone. -/
theorem getFreeBlockFromChip_erases (chip : Int) (d : Device) :
    Meets anyFault (fun r => r.2.blockEraseCnt = d.blockEraseCnt)
      (getFreeBlockFromChip g chip d) := by
  have hloop : ∀ rounds (d : Device), Meets anyFault
      (fun r => r.2.blockEraseCnt = d.blockEraseCnt) (takeFromChip g chip rounds d) := by
    intro rounds
    induction rounds with
    | zero => exact fun _ => trivial
    | succ rounds ih =>
      intro d
      unfold takeFromChip
      refine (takeFreeBlock_erases d).bind fun r h₁ => ?_
      obtain ⟨block, d₁⟩ := r
      simp only at h₁ ⊢
      split
      · exact (ih (putFreeBlock g d₁ block)).mono fun r hr => hr.trans h₁
      · exact h₁
  unfold getFreeBlockFromChip
  split
  · exact hloop _ d
  · rfl

/-- A new current block. -/
theorem newFreeBlock_sameWear {dev : Device} (h : dev.blockEraseCnt = s.dev.blockEraseCnt)
    (chip : Int) (e : StripeFreeBlockElement) :
    SameWear s (Stripe.setFreeBlock { s with dev } data chip e) := by
  have hwear : Stripe.wear { s with dev } = s.wear := by
    unfold Stripe.wear
    simp only [h]
  cases data
  · exact ⟨hwear, rfl, rfl⟩
  · exact ⟨hwear, rfl, rfl⟩

theorem classifyCluster_sameWear (fuel : Nat) (cluster : Int) (s : Stripe) :
    Meets anyFault (fun r => SameWear s r.2) (classifyCluster fuel cluster s) := by
  unfold classifyCluster
  split
  · split
    · trivial
    · exact ⟨rfl, rfl, rfl⟩
  · split
    · simp only
      split
      · trivial
      · exact ⟨rfl, rfl, rfl⟩
    · split
      · trivial
      · exact ⟨rfl, rfl, rfl⟩

end Frame

/-- The blocks of the chips are blocks of the device. -/
theorem blockOfChip_mem {chip : Nat} (hchip : chip < g.chipNumber) {i : Int} (h0 : 0 ≤ i)
    (hi : i < g.blocksPerChip) : (chip : Int) * g.blocksPerChip + i ∈ g.blocks := by
  have hblocks := g.maxBlock_eq.ge
  have hrow : (chip + 1) * g.blocksPerChip ≤ g.chipNumber * g.blocksPerChip :=
    Nat.mul_le_mul_right _ hchip
  rw [Nat.add_mul, Nat.one_mul] at hrow
  rw [g.mem_blocks]
  have hnonneg : (0 : Int) ≤ (chip : Int) * g.blocksPerChip :=
    Int.mul_nonneg (Int.natCast_nonneg _) (Int.natCast_nonneg _)
  have hrow' : (chip : Int) * g.blocksPerChip + g.blocksPerChip ≤ g.maxBlock := by
    exact_mod_cast hrow.trans hblocks
  exact ⟨by omega, by omega⟩

/-- The scan keeps the wear, and a victim is a block of the chip. -/
theorem stripeFindVictim_wears (chip : Int) (n : Nat) (s : Stripe) :
    Meets anyFault (fun r => Logs g [] s r.2 ∧ (ChipsScanning g s → ChipsScanning g r.2 ∧
      (r.1 = true → 0 ≤ r.2.currentScanningBlockID chip)))
      (stripeFindVictim g ftlMethod chip s n) := by
  induction n generalizing s with
  | zero =>
    exact ⟨⟨rfl, (List.append_nil _).symm⟩, fun h => ⟨h, fun hf => absurd hf Bool.false_ne_true⟩⟩
  | succ n ih =>
    have hpos : (0 : Int) < g.blocksPerChip := by exact_mod_cast g.blocksPerChip_pos
    let scanning := (s.currentScanningBlockID chip + 1).tmod g.blocksPerChip
    let s₁ : Stripe := { s with
      currentScanningBlockID := Function.update s.currentScanningBlockID chip scanning }
    have hself : s₁.currentScanningBlockID chip = scanning := Function.update_self ..
    have hnonneg : ChipsScanning g s → 0 ≤ scanning := fun h =>
      Int.tmod_nonneg _ (by have := (h chip).1; omega)
    have hscan : ChipsScanning g s → ChipsScanning g s₁ := by
      intro h x
      by_cases hx : x = chip
      · subst x
        rw [hself]
        have h0 := hnonneg h
        have hlt : scanning < g.blocksPerChip := Int.tmod_lt_of_pos _ hpos
        exact ⟨by omega, hlt⟩
      · have hx' : s₁.currentScanningBlockID x = s.currentScanningBlockID x :=
          Function.update_of_ne hx ..
        rw [hx']
        exact h x
    unfold stripeFindVictim
    simp only
    split
    · trivial
    · split
      · exact ⟨⟨rfl, (List.append_nil _).symm⟩, fun h => ⟨hscan h, fun _ => hself ▸ hnonneg h⟩⟩
      · have hnone : Logs g [] s s₁ := ⟨rfl, (List.append_nil _).symm⟩
        exact (ih s₁).mono fun r hr => ⟨hnone.trans hr.1, fun h => hr.2 (hscan h)⟩

section Nested

variable (herase : ∀ s, ∀ b ∈ g.blocks, Meets anyFault (Wears g s) (erase s b))
include herase

theorem stripeGarbageCollection_wears {chip : Nat} (hchip : chip < g.chipNumber) (fuel : Nat)
    (s : Stripe) :
    Meets anyFault (Wears g s) (stripeGarbageCollection g ftlMethod erase chip fuel s) := by
  induction fuel generalizing s with
  | zero => trivial
  | succ fuel ih =>
    unfold stripeGarbageCollection
    split
    · exact Wears.refl s
    · -- the collector is only followed from states whose scan is one
      by_cases hscan : ChipsScanning g s
      · refine (stripeFindVictim_wears chip g.blocksPerChip s).bind fun (found, s₁) h₁ => ?_
        obtain ⟨hwear, hrest⟩ := h₁
        obtain ⟨hscan₁, hfound⟩ := hrest hscan
        have h₁ : Wears g s s₁ := fun _ => ⟨hscan₁, [], by simp, hwear⟩
        simp only
        split
        case isTrue hf =>
          have hvictim := blockOfChip_mem hchip (hfound hf) (hscan₁ chip).2
          refine (herase s₁ _ hvictim).bind fun s₂ h₂ => ?_
          exact (ih s₂).mono fun s₃ h₃ => (h₁.trans h₂).trans h₃
        case isFalse =>
          have h₂ : SameWear s₁ (stripeDoubleDivider s₁ chip) := ⟨rfl, rfl, rfl⟩
          exact (ih _).mono fun s₃ h₃ => (h₁.trans h₂.wears).trans h₃
      · generalize (stripeFindVictim g ftlMethod chip s g.blocksPerChip >>= _) = r
        cases r with
        | ok s' => exact fun h => absurd h hscan
        | error e => trivial

theorem ensureFreePageOfChip_wears {chip : Nat} (hchip : chip < g.chipNumber) (fuel : Nat)
    (s : Stripe) :
    Meets anyFault (Wears g s) (ensureFreePageOfChip g ftlMethod erase data chip fuel s) := by
  induction fuel generalizing s with
  | zero => trivial
  | succ fuel ih =>
    unfold ensureFreePageOfChip
    split
    · split
      · refine (stripeGarbageCollection_wears herase hchip fuel s).bind fun s₁ h₁ => ?_
        exact (ih s₁).mono fun s₂ h₂ => h₁.trans h₂
      · refine (getFreeBlockFromChip_erases chip s.dev).bind fun (block, dev) h₁ => ?_
        have hnew : SameWear s (Stripe.setFreeBlock { s with dev } data chip ⟨block, 0⟩) :=
          newFreeBlock_sameWear h₁ chip ⟨block, 0⟩
        exact (ih _).mono fun s₂ h₂ => hnew.wears.trans h₂
    · exact Wears.refl s

theorem ensureFreeSpaceInFreeBlock_wears (fuel : Nat) (s : Stripe) :
    Meets anyFault (Wears g s) (ensureFreeSpaceInFreeBlock g ftlMethod erase fuel s) := by
  have hfill : ∀ data, ∀ s, Meets anyFault (Wears g s) ((List.range g.chipNumber).foldlM
      (fun s (i : Nat) => ensureFreePageOfChip g ftlMethod erase data i fuel s) s) := fun data =>
    foldlM_wears fun i hi s =>
      ensureFreePageOfChip_wears herase (List.mem_range.mp hi) fuel s
  unfold ensureFreeSpaceInFreeBlock
  refine (hfill .coldData s).bind fun s₁ h₁ => ?_
  cases ftlMethod with
  | stripeStatic => exact h₁
  | stripeDynamic => exact (hfill .hotData s₁).mono fun s₂ h₂ => h₁.trans h₂

end Nested

section Ensured

variable (hensure : ∀ s, Meets anyFault (Wears g s) (ensure s))
include hensure

theorem flushCachedClusters_wears (s : Stripe) :
    Meets anyFault (Wears g s) (flushCachedClusters g ftlMethod ensure s) := by
  unfold flushCachedClusters
  refine (stripeWriteOneClusterSet_wears s).bind fun s₁ h₁ => ?_
  refine (hensure s₁).bind fun s₂ h₂ => ?_
  have hclear : SameWear s₂ (clearCachedClusters g s₂) := ⟨rfl, rfl, rfl⟩
  exact (h₁.trans h₂).trans hclear.wears

theorem flushIf_wears (p : Prop) [Decidable p] (s : Stripe) :
    Meets anyFault (Wears g s) (flushIf g ftlMethod p ensure s) := by
  unfold flushIf
  split
  · exact flushCachedClusters_wears hensure s
  · exact Wears.refl s

theorem stripeCopyLivePage_wears (blockID : Int) (st : Stripe × ChipCursor) (i : Nat) :
    Meets anyFault (fun st' => Wears g st.1 st'.1)
      (stripeCopyLivePage g ftlMethod ensure blockID st i) := by
  have hcache : Meets anyFault (fun st' => Wears g st.1 st'.1)
      (cacheLivePage g ftlMethod ensure blockID i st.1 st.2) := by
    unfold cacheLivePage
    cases ftlMethod with
    | stripeStatic =>
      refine (flushIf_wears hensure _ st.1).bind fun s₁ h₁ => ?_
      exact h₁.trans (SameWear.wears ⟨rfl, rfl, rfl⟩)
    | stripeDynamic =>
      refine (flushIf_wears hensure _ st.1).bind fun s₁ h₁ => ?_
      exact h₁.trans (SameWear.wears ⟨rfl, rfl, rfl⟩)
  unfold stripeCopyLivePage
  simp only
  split
  · refine hcache.bind fun (s₁, cursor) h₁ => ?_
    exact Wears.trans h₁ (SameWear.wears ⟨rfl, rfl, rfl⟩)
  · exact Wears.refl st.1

theorem stripeCopyLivePages_wears (blockID : Int) (st : Stripe × ChipCursor) :
    Meets anyFault (fun st' => Wears g st.1 st'.1)
      ((List.range g.maxPage).foldlM (stripeCopyLivePage g ftlMethod ensure blockID) st) := by
  refine Meets.foldlM (fun st' : Stripe × ChipCursor => Wears g st.1 st'.1) (Wears.refl st.1)
    fun i _ st₁ h₁ => ?_
  exact (stripeCopyLivePage_wears hensure blockID st₁ i).mono fun st₂ h₂ => Wears.trans h₁ h₂

/-- An erase counts those it starts, and then itself. -/
theorem stripeReclaim_counted (blockID : Int) (s : Stripe) :
    Meets anyFault (ErasesCounted g [blockID] s) (stripeReclaim g ftlMethod ensure s blockID) := by
  unfold stripeReclaim
  have hput : SameWear s { s with dev := putFreeBlock g s.dev blockID } := ⟨rfl, rfl, rfl⟩
  refine (hensure _).bind fun s₁ h₁ => ?_
  have hclear : SameWear s₁ (clearCachedClusters g s₁) := ⟨rfl, rfl, rfl⟩
  refine (stripeCopyLivePages_wears hensure blockID _).bind fun (s₂, cursor) h₂ => ?_
  refine (flushIf_wears hensure _ s₂).bind fun s₃ h₃ => ?_
  have hall : Wears g s s₃ := (((hput.wears.trans h₁).trans hclear.wears).trans h₂).trans h₃
  intro hscan
  obtain ⟨hscan₃, nested, hblocks, hwear⟩ := hall hscan
  refine ⟨hscan₃, nested ++ [blockID], List.sublist_append_right _ _, fun b hb => ?_,
    hwear.trans (stripeCleanBlock_logs s₃ blockID)⟩
  exact (List.mem_append.mp hb).symm.imp_right (hblocks b)

theorem writeDynamicRound_wears (fuel : Nat) (request : StripeRequest) (s : Stripe)
    (cursor : ChipCursor) : Meets anyFault (fun r => Wears g s r.1)
      (writeDynamicRound g ftlMethod ensure fuel request s cursor) := by
  unfold writeDynamicRound
  refine (classifyCluster_sameWear fuel _ s).bind fun (data, s₁) h₁ => ?_
  simp only
  generalize hcached : cacheCluster data request.startCluster s₁ cursor = cached
  obtain ⟨s₂, cursor'⟩ := cached
  have h₂ : SameWear s₁ s₂ := by
    obtain rfl := congrArg Prod.fst hcached
    exact ⟨rfl, rfl, rfl⟩
  have h₃ : SameWear s₂ { s₂ with numCachedClusters := s₂.numCachedClusters + 1 } :=
    ⟨rfl, rfl, rfl⟩
  have hcache := ((h₁.trans h₂).trans h₃).wears (g := g)
  split
  · refine (flushCachedClusters_wears hensure _).bind fun s₃ h₃ => ?_
    exact hcache.trans h₃
  · exact hcache

theorem writeRounds_wears (fuel rounds : Nat) (request : StripeRequest) (cursor : ChipCursor)
    (s : Stripe) :
    Meets anyFault (Wears g s) (writeRounds g ftlMethod ensure fuel rounds request cursor s) := by
  induction rounds generalizing request cursor s with
  | zero => trivial
  | succ rounds ih =>
    unfold writeRounds
    split
    · exact Wears.refl s
    · refine (hensure s).bind fun s₁ h₁ => ?_
      cases ftlMethod with
      | stripeStatic =>
        have hround : Meets anyFault (fun r => Wears g s₁ r.1)
            (writeStaticRound g .stripeStatic ensure request s₁) := by
          unfold writeStaticRound
          refine (flushCachedClusters_wears hensure _).bind fun s₂ h₂ => ?_
          refine Wears.trans (SameWear.wears ?_) h₂
          exact ⟨rfl, rfl, rfl⟩
        refine hround.bind fun (s₂, request') h₂ => ?_
        refine (hensure s₂).bind fun s₃ h₃ => ?_
        exact (ih _ _ _).mono fun s₄ h₄ => ((h₁.trans h₂).trans h₃).trans h₄
      | stripeDynamic =>
        refine (writeDynamicRound_wears hensure fuel request s₁ cursor).bind
          fun (s₂, cursor', request') h₂ => ?_
        refine (hensure s₂).bind fun s₃ h₃ => ?_
        exact (ih _ _ _).mono fun s₄ h₄ => ((h₁.trans h₂).trans h₃).trans h₄

end Ensured

/-- What `StripeEraseOneBlock` counts. -/
theorem stripeEraseOneBlock_counted (fuel : Nat) (s : Stripe) (blockID : Int) :
    Meets anyFault (ErasesCounted g [blockID] s)
      (stripeEraseOneBlock g ftlMethod fuel s blockID) := by
  induction fuel generalizing s blockID with
  | zero => trivial
  | succ fuel ih =>
    refine stripeReclaim_counted (ensureFreeSpaceInFreeBlock_wears ?_ fuel) blockID s
    intro s b hb
    exact (ih s b).mono fun s' h' => h'.wears hb

/-- `EnsureFreeSpaceInFreeBlock` with the eraser it calls. -/
theorem ensure_wears (fuel : Nat) (s : Stripe) : Meets anyFault (Wears g s)
    (ensureFreeSpaceInFreeBlock g ftlMethod (stripeEraseOneBlock g ftlMethod fuel) fuel s) := by
  refine ensureFreeSpaceInFreeBlock_wears (fun s b hb => ?_) fuel s
  exact (stripeEraseOneBlock_counted fuel s b).mono fun s' h' => h'.wears hb

/-- A write request counts the erases it starts. -/
theorem secureStripeWriteOneRequest_wears (fuel : Nat) (s : Stripe) (request : StripeRequest) :
    Meets anyFault (Wears g s) (secureStripeWriteOneRequest g ftlMethod fuel s request) := by
  unfold secureStripeWriteOneRequest
  refine (ensure_wears fuel s).bind fun s₁ h₁ => ?_
  have hclear : SameWear s₁ (clearCachedClusters g s₁) := ⟨rfl, rfl, rfl⟩
  refine (writeRounds_wears (ensure_wears fuel) fuel fuel request _ _).mono fun s₂ h₂ => ?_
  exact (h₁.trans hclear.wears).trans h₂

/-- A call of the simulation, and the one of the eraser that is not `static`. -/
inductive StripeCall
  | eraseOneBlock (blockID : Int)
  | writeOneRequest (request : StripeRequest)
  /-- `StripeSimulation` gets the current blocks for hot data. -/
  | fetchHotBlocks
  deriving DecidableEq, Repr

variable (g ftlMethod) in
/-- The call, with `fuel` rounds for each of its loops. -/
def stripeCall (fuel : Nat) (s : Stripe) : StripeCall → Except Fault Stripe
  | .eraseOneBlock blockID => stripeEraseOneBlock g ftlMethod fuel s blockID
  | .writeOneRequest request => secureStripeWriteOneRequest g ftlMethod fuel s request
  | .fetchHotBlocks => (List.range g.chipNumber).foldlM (fetchFreeBlock g .hotData) s

variable (g ftlMethod) in
/-- The call returns. -/
def StripeStep (s : Stripe) (call : StripeCall) (s' : Stripe) : Prop :=
  ∃ fuel, stripeCall g ftlMethod fuel s call = .ok s'

/-- The block of a call of the eraser. -/
def StripeCall.erasedBlock : StripeCall → Option Int
  | .eraseOneBlock blockID => some blockID
  | _ => none

theorem fetchFreeBlock_sameWear (i : Nat) :
    Meets anyFault (SameWear s) (fetchFreeBlock g data s i) := by
  unfold fetchFreeBlock
  refine (getFreeBlockFromChip_erases i s.dev).bind fun (block, dev) h => ?_
  exact newFreeBlock_sameWear h i ⟨block, 0⟩

theorem fetchFreeBlocks_sameWear (s : Stripe) : Meets anyFault (SameWear s)
    ((List.range g.chipNumber).foldlM (fetchFreeBlock g data) s) := by
  refine Meets.foldlM (SameWear s) ⟨rfl, rfl, rfl⟩ fun i _ s₁ h₁ => ?_
  exact (fetchFreeBlock_sameWear i).mono fun s₂ h₂ => h₁.trans h₂

/-- What a call counts. -/
theorem stripeCall_counted (fuel : Nat) (s : Stripe) (call : StripeCall) :
    Meets anyFault (ErasesCounted g call.erasedBlock.toList s)
      (stripeCall g ftlMethod fuel s call) := by
  cases call with
  | eraseOneBlock blockID => exact stripeEraseOneBlock_counted fuel s blockID
  | writeOneRequest request =>
    exact (secureStripeWriteOneRequest_wears fuel s request).mono fun s' h => h.counted
  | fetchHotBlocks => exact (fetchFreeBlocks_sameWear s).mono fun s' h => h.wears.counted

/-- What a run counts. -/
theorem stripeRun_counted {calls : List StripeCall}
    (hrun : Run (StripeStep g ftlMethod) s calls s') :
    ErasesCounted g (calls.filterMap StripeCall.erasedBlock) s s' := by
  induction hrun with
  | nil s => exact (Wears.refl s).counted
  | @cons s s₁ s' call rest head tail ih =>
    obtain ⟨fuel, hcall⟩ := head
    have hstep := (stripeCall_counted fuel s call).of_ok hcall
    have hall := hstep.trans ih
    cases call with
    | eraseOneBlock blockID => exact hall
    | writeOneRequest request => exact hall
    | fetchHotBlocks => exact hall

/-- No block has been erased when the device is initialised. -/
theorem initializeFlashMemory_blockEraseCnt (g : Geometry) (draws : Draws) :
    (initializeFlashMemory g draws).blockEraseCnt = fun _ => 0 :=
  (congrArg Device.blockEraseCnt (linkFreeBlocks_eq ..)).trans
    (congrArg Device.blockEraseCnt (foldl_markBad_eq ..))

/-- Nothing has been erased when the simulation opens. -/
theorem openStripe_wear {memory : StripeMemory} {draws : Draws}
    (h : openStripe g memory (initializeFlashMemory g draws) = .ok s) :
    s.wear = freshWear ∧ s.eraseLog = [] ∧ ChipsScanning g s := by
  unfold openStripe at h
  have hsame := (fetchFreeBlocks_sameWear _).of_ok h
  have hpos : (0 : Int) < g.blocksPerChip := by exact_mod_cast g.blocksPerChip_pos
  refine ⟨hsame.wear.trans ?_, hsame.log, fun chip => ?_⟩
  · rw [Stripe.wear, initializeFlashMemory_blockEraseCnt]
    rfl
  · rw [hsame.scanning]
    exact ⟨le_refl _, by simp only; omega⟩

/-- The log of a run has all erases that were counted, those of its own calls among them. The wear
is in order after each of them exactly when each is counted in order. -/
theorem stripeRun_wearOrdered_iff {memory : StripeMemory} {draws : Draws} {s₀ : Stripe}
    {calls : List StripeCall}
    (hopen : openStripe g memory (initializeFlashMemory g draws) = .ok s₀)
    (hcalls : ∀ b, .eraseOneBlock b ∈ calls → b ∈ g.blocks)
    (hrun : Run (StripeStep g ftlMethod) s₀ calls s) :
    (calls.filterMap StripeCall.erasedBlock).Sublist s.eraseLog ∧
      s.wear = countErases g freshWear s.eraseLog ∧
      ((∀ done, done <+: s.eraseLog → WearOrdered g (countErases g freshWear done)) ↔
        ∀ done b, done ++ [b] <+: s.eraseLog →
          CountsInOrder g (countErases g freshWear done) b) := by
  obtain ⟨hwear₀, hlog₀, hscan⟩ := openStripe_wear hopen
  obtain ⟨-, erased, hsub, hblocks, hwear, hlog⟩ := stripeRun_counted hrun hscan
  rw [hlog₀, List.nil_append] at hlog
  rw [hlog]
  refine ⟨hsub, hwear₀ ▸ hwear, ?_⟩
  refine wearOrdered_throughout_iff freshWear_ordered fun b hb => ?_
  refine (hblocks b hb).elim (fun hown => ?_) id
  obtain ⟨call, hcall, hb'⟩ := List.mem_filterMap.mp hown
  cases call with
  | eraseOneBlock blockID =>
    obtain rfl := Option.some.inj hb'
    exact hcalls _ hcall
  | writeOneRequest request => cases hb'
  | fetchHotBlocks => cases hb'

/-- Where every chip has a page to write to, there is nothing to ensure. -/
theorem ensureFreeSpaceInFreeBlock_of_room
    (h : ∀ chip : Nat, chip < g.chipNumber → (s.currentFreeBlock chip).page < g.maxPage)
    (fuel : Nat) :
    ensureFreeSpaceInFreeBlock g .stripeStatic erase (fuel + 1) s = .ok s := by
  have hfill : ∀ l : List Nat, (∀ i ∈ l, i < g.chipNumber) →
      l.foldlM (fun s (i : Nat) =>
        ensureFreePageOfChip g .stripeStatic erase .coldData i (fuel + 1) s) s = .ok s := by
    intro l
    induction l with
    | nil => exact fun _ => rfl
    | cons i l ih =>
      intro hl
      have hroom : ¬ (g.maxPage : Int) ≤ (s.freeBlock .coldData i).page :=
        not_le.mpr (h i (hl i List.mem_cons_self))
      rw [List.foldlM_cons, ensureFreePageOfChip, if_neg hroom]
      exact ih fun j hj => hl j (List.mem_cons_of_mem _ hj)
  unfold ensureFreeSpaceInFreeBlock
  simp only
  rw [hfill _ fun i hi => List.mem_range.mp hi]
  rfl

/-- A block without live pages is erased at once, where every chip has a page to write to. -/
theorem stripeEraseOneBlock_of_empty {b : Int}
    (hroom : ∀ chip : Nat, chip < g.chipNumber → (s.currentFreeBlock chip).page < g.maxPage)
    (hempty : ∀ p, s.dev.flashMemory b p = freePage) :
    stripeEraseOneBlock g .stripeStatic 2 s b =
      .ok (stripeCleanBlock g
        (clearCachedClusters g { s with dev := putFreeBlock g s.dev b }) b) := by
  have hcopy : ∀ (l : List Nat) (st : Stripe × ChipCursor),
      (∀ p, st.1.dev.flashMemory b p = freePage) →
      l.foldlM (stripeCopyLivePage g .stripeStatic
        (ensureFreeSpaceInFreeBlock g .stripeStatic (stripeEraseOneBlock g .stripeStatic 1) 1) b)
        st = .ok st := by
    intro l st hst
    induction l with
    | nil => rfl
    | cons i l ih =>
      rw [List.foldlM_cons, stripeCopyLivePage]
      simp only [hst]
      rw [if_neg fun h => h.2 rfl]
      exact ih
  rw [stripeEraseOneBlock, stripeReclaim,
    ensureFreeSpaceInFreeBlock_of_room (s := { s with dev := putFreeBlock g s.dev b }) hroom,
    ok_bind, hcopy _ (clearCachedClusters g { s with dev := putFreeBlock g s.dev b },
      resetCursor g) hempty, ok_bind]
  rfl

/-- A device of no bad blocks whose chips are larger than the reserve opens with a current block
for each chip, and nothing written. -/
theorem openStripe_opens (memory : StripeMemory) {draws : Draws}
    (hgood : ∀ i, draws.isBad i = false) (hreserve : 64 < g.blocksPerChip) :
    ∃ s₀, openStripe g memory (initializeFlashMemory g draws) = .ok s₀ ∧
      (∀ chip : Nat, chip < g.chipNumber → (s₀.currentFreeBlock chip).page = 0) ∧
      ∀ b ∈ g.blocks, ∀ p, s₀.dev.flashMemory b p = freePage := by
  obtain ⟨free, hfresh⟩ := initializeFlashMemory_fresh g draws
  have hall : ∀ b ∈ g.blocks, b ∈ goodBlocks g (initializeFlashMemory g draws) := fun b hb =>
    (mem_goodBlocks_initial g draws).mpr ⟨hb, fun ⟨i, _, _, hbad, _⟩ => by simp [hgood i] at hbad⟩
  have hleast : g.leastFreeBlocksInFBL / g.chipNumber = 64 :=
    Nat.mul_div_cancel _ g.chipNumber_pos
  let opening (i : Nat) (s : Stripe) : Prop :=
    (∃ free, FreeListed (goodBlocks g (initializeFlashMemory g draws)) free s.dev ∧
      ∀ chip : Nat, i ≤ chip → chip < g.chipNumber →
        s.dev.blocksInFreeBlockListArray chip = g.blocksPerChip ∧
          (chip : Int) * g.blocksPerChip ∈ free) ∧
      (∀ chip : Nat, chip < i → (s.currentFreeBlock chip).page = 0) ∧
      ∀ b ∈ g.blocks, ∀ p, s.dev.flashMemory b p = freePage
  have hpos := g.blocksPerChip_pos
  have hopen : Meets (fun _ => False) (opening g.chipNumber)
      (openStripe g memory (initializeFlashMemory g draws)) := by
    unfold openStripe
    refine Meets.foldlM_range opening ⟨⟨free, hfresh.listed, fun chip _ hchip => ⟨?_, ?_⟩⟩,
      fun chip h => absurd h (Nat.not_lt_zero _), fun b hb => hfresh.unmarked b (hall b hb)⟩ ?_
    · exact initializeFlashMemory_chips g draws chip
    · have hmem := blockOfChip_mem hchip le_rfl (by omega : (0 : Int) < g.blocksPerChip)
      rw [Int.add_zero] at hmem
      exact hfresh.free_all _ (hall _ hmem)
    · rintro i hi s ⟨⟨free, hlisted, hchips⟩, hpages, hblank⟩
      obtain ⟨hcount, hmem⟩ := hchips i le_rfl hi
      have hfirst : (i : Int) * g.blocksPerChip / g.blocksPerChip = i :=
        Int.mul_ediv_cancel _ (by omega)
      obtain ⟨front, b, behind, d', rfl, hget, htaken⟩ :=
        getFreeBlockFromChipWithoutChecking_takes hfresh.good_blocks hlisted ⟨_, hmem, hfirst⟩
      have hcall : getFreeBlockFromChip g i s.dev = .ok (b, d') := by
        rw [getFreeBlockFromChip, if_pos, hget]
        rw [hleast, hcount]
        exact_mod_cast hreserve
      unfold fetchFreeBlock
      rw [hcall]
      refine ⟨⟨_, htaken.listed, fun chip hchip hlt => ⟨?_, ?_⟩⟩, fun chip hchip => ?_, ?_⟩
      · have hne : ¬ (chip : Int) = i := by omega
        refine (htaken.chips chip).trans ?_
        rw [if_neg hne, Int.sub_zero]
        exact (hchips chip (by omega) hlt).1
      · have hold := (hchips chip (by omega) hlt).2
        have hne : (chip : Int) * g.blocksPerChip ≠ b := by
          rintro rfl
          have hchip' := htaken.taken
          rw [Int.mul_ediv_cancel _ (by omega)] at hchip'
          omega
        rw [List.mem_append, List.mem_cons] at hold
        rw [List.mem_append]
        tauto
      · simp only [Stripe.setFreeBlock]
        by_cases he : (chip : Int) = i
        · rw [he, Function.update_self]
        · rw [Function.update_of_ne he]
          exact hpages chip (by omega)
      · intro b' hb' p
        refine (congrFun (congrFun htaken.flashMemory b') p).trans (hblank b' hb' p)
  obtain ⟨s₀, hok, -, hpages, hblank⟩ := hopen.exists_ok
  exact ⟨s₀, hok, hpages, hblank⟩

/-- The memory is as the system hands it out first. -/
def zeroMemory : StripeMemory where
  cachedClusters _ := 0
  cachedClustersDataType _ := .hotData
  hotList _ := ⟨0, 0, 0, false⟩
  candidateList _ := ⟨0, 0, 0, false⟩

/-- No block is bad, and none changes its place. -/
def noDraws : Draws := ⟨fun _ => 0, fun _ => false, fun _ => 0⟩

/-- Where every chip has a page to write to and nothing is written, blocks can be erased one after
the other. -/
theorem stripeRun_erases
    (hroom : ∀ chip : Nat, chip < g.chipNumber → (s.currentFreeBlock chip).page < g.maxPage)
    (hblank : ∀ b ∈ g.blocks, ∀ p, s.dev.flashMemory b p = freePage) {blocks : List Int}
    (hblocks : ∀ b ∈ blocks, b ∈ g.blocks) :
    ∃ s', Run (StripeStep g .stripeStatic) s (blocks.map .eraseOneBlock) s' ∧
      Logs g blocks s s' := by
  induction blocks generalizing s with
  | nil => exact ⟨s, .nil s, rfl, (List.append_nil _).symm⟩
  | cons b blocks ih =>
    obtain ⟨hb, hrest⟩ := List.forall_mem_cons.mp hblocks
    have hcall := stripeEraseOneBlock_of_empty hroom (hblank b hb)
    generalize hcleared : clearCachedClusters g { s with dev := putFreeBlock g s.dev b } = s₁
      at hcall
    have hblank₁ : s₁.dev.flashMemory = s.dev.flashMemory := by
      rw [← hcleared]
      rfl
    have hcurrent : s₁.currentFreeBlock = s.currentFreeBlock := by
      rw [← hcleared]
      rfl
    have hsame : SameWear s s₁ := by
      rw [← hcleared]
      exact ⟨rfl, rfl, rfl⟩
    obtain ⟨s', hrun, hlogs⟩ := ih (s := stripeCleanBlock g s₁ b)
      (fun chip hchip => by
        change (s₁.currentFreeBlock chip).page < g.maxPage
        rw [hcurrent]
        exact hroom chip hchip)
      (fun b' hb' p => by
        change (eraseBlock g s₁.dev b).flashMemory b' p = freePage
        rw [eraseBlock]
        simp only
        by_cases he : b' = b
        · rw [he, Function.update_self]
          split
          · rfl
          · rw [hblank₁]
            exact hblank b hb p
        · rw [Function.update_of_ne he, hblank₁]
          exact hblank b' hb' p) hrest
    have hfirst : Logs g [b] s (stripeCleanBlock g s₁ b) :=
      hsame.logs.trans (stripeCleanBlock_logs s₁ b)
    exact ⟨s', .cons ⟨2, hcall⟩ hrun, hfirst.trans hlogs⟩

/-- The simulation opens on the three chips, and blocks can be erased. -/
theorem threeChips_erases : ∃ s₀,
    openStripe threeChips zeroMemory (initializeFlashMemory threeChips noDraws) = .ok s₀ ∧
      ∀ blocks : List Int, (∀ b ∈ blocks, b ∈ threeChips.blocks) → ∃ s,
        Run (StripeStep threeChips .stripeStatic) s₀ (blocks.map .eraseOneBlock) s ∧
          s.eraseLog = blocks ∧ s.wear = countErases threeChips freshWear blocks := by
  have hgood : ∀ i, noDraws.isBad i = false := fun _ => rfl
  have hreserve : 64 < threeChips.blocksPerChip := by decide
  obtain ⟨s₀, hopen, hpages, hblank⟩ := openStripe_opens zeroMemory hgood hreserve
  obtain ⟨hwear, hlog, -⟩ := openStripe_wear hopen
  refine ⟨s₀, hopen, fun blocks hblocks => ?_⟩
  obtain ⟨s, hrun, hlogs⟩ := stripeRun_erases (fun chip hchip => by
    rw [hpages chip hchip]
    exact_mod_cast threeChips.maxPage_pos) hblank hblocks
  refine ⟨s, hrun, ?_, ?_⟩
  · rw [hlogs.log, hlog, List.nil_append]
  · rw [hlogs.wear, hwear]

/-- A block of each chip is erased, and then another of the last one. Each erase is counted in
order. -/
theorem stripeRun_wearOrdered_iff_four : ∃ s₀ s,
    openStripe threeChips zeroMemory (initializeFlashMemory threeChips noDraws) = .ok s₀ ∧
      Run (StripeStep threeChips .stripeStatic) s₀
        [.eraseOneBlock 0, .eraseOneBlock 130, .eraseOneBlock 257, .eraseOneBlock 0] s ∧
      s.eraseLog = [0, 130, 257, 0] ∧
      ∀ done, done <+: s.eraseLog →
        WearOrdered threeChips (countErases threeChips freshWear done) := by
  obtain ⟨s₀, hopen, herase⟩ := threeChips_erases
  have hblocks : ∀ b ∈ ([0, 130, 257, 0] : List Int), b ∈ threeChips.blocks := by
    intro b hb
    rw [threeChips.mem_blocks]
    revert b
    decide
  obtain ⟨s, hrun, hlog, -⟩ := herase _ hblocks
  have hcalls : ∀ b, StripeCall.eraseOneBlock b ∈
      ([0, 130, 257, 0] : List Int).map StripeCall.eraseOneBlock → b ∈ threeChips.blocks := by
    intro b hb
    obtain ⟨b', hb', he⟩ := List.mem_map.mp hb
    exact StripeCall.eraseOneBlock.inj he ▸ hblocks b' hb'
  obtain ⟨-, -, hiff⟩ := stripeRun_wearOrdered_iff hopen hcalls hrun
  refine ⟨s₀, s, hopen, hrun, hlog, hiff.mpr fun done b hpre => ?_⟩
  rw [hlog, ← List.mem_inits] at hpre
  have hcases : (done = [] ∧ b = 0) ∨ (done = [0] ∧ b = 130) ∨ (done = [0, 130] ∧ b = 257) ∨
      (done = [0, 130, 257] ∧ b = 0) := by
    have hsplit : ∀ front last, done ++ [b] = front ++ [last] → done = front ∧ b = last :=
      fun front last he => (List.append_inj' he rfl).imp_right List.singleton_inj.mp
    simp only [List.inits, List.mem_cons, List.map_cons, List.map_nil, List.not_mem_nil,
      or_false] at hpre
    rcases hpre with h | h | h | h | h
    · exact absurd h (by simp)
    · exact .inl (hsplit [] 0 h)
    · exact .inr (.inl (hsplit [0] 130 h))
    · exact .inr (.inr (.inl (hsplit [0, 130] 257 h)))
    · exact .inr (.inr (.inr (hsplit [0, 130, 257] 0 h)))
  -- only the last place of the order has a chip two places in front of it
  rcases hcases with ⟨rfl, rfl⟩ | ⟨rfl, rfl⟩ | ⟨rfl, rfl⟩ | ⟨rfl, rfl⟩
  all_goals
    refine ⟨by decide, fun p h2 hp => ?_⟩
    obtain rfl : p = 2 := le_antisymm (Int.lt_add_one_iff.mp hp) h2
    decide

/-- The first erase of block 1 is counted for chip 1, and block 1 is of chip 0. The first erase
of block 257 is counted for its chip, and leaves that chip behind one without erases. -/
theorem stripeErase_disorders : ∃ s₀,
    openStripe threeChips zeroMemory (initializeFlashMemory threeChips noDraws) = .ok s₀ ∧
      (∃ s, StripeStep threeChips .stripeStatic s₀ (.eraseOneBlock 1) s ∧
        ¬ WearOrdered threeChips s.wear) ∧
      ∃ s, StripeStep threeChips .stripeStatic s₀ (.eraseOneBlock 257) s ∧
        ¬ WearOrdered threeChips s.wear := by
  obtain ⟨s₀, hopen, herase⟩ := threeChips_erases
  have h1 : (1 : Int) ∈ threeChips.blocks := threeChips.mem_blocks.mpr ⟨by decide, by decide⟩
  have h257 : (257 : Int) ∈ threeChips.blocks := threeChips.mem_blocks.mpr ⟨by decide, by decide⟩
  obtain ⟨s, hrun, -, hwear⟩ := herase [1] (by simpa using h1)
  obtain ⟨s', hrun', -, hwear'⟩ := herase [257] (by simpa using h257)
  refine ⟨s₀, hopen, ⟨s, Run.singleton_iff.mp hrun, fun h => ?_⟩, s', Run.singleton_iff.mp hrun',
    fun h => ?_⟩
  · rw [hwear, countErases, List.foldl_cons, List.foldl_nil,
      wearOrdered_countErase_iff freshWear_ordered h1] at h
    exact absurd h.1 (by decide)
  · rw [hwear', countErases, List.foldl_cons, List.foldl_nil,
      wearOrdered_countErase_iff freshWear_ordered h257] at h
    exact absurd (h.2 2 (by decide) (by decide) (by decide)) (by decide)

end WiscKey.Flash
