import WiscKey.Flash.CollectorSlack
import WiscKey.Library.Outcome

/-!
# What an erase does to its victim

`FTLEraseOneBlock` with a log of the blocks it gets and the pages it copies. The victim is at
the end of the free list before its pages are read, and the collector calls the function only
at the reserve: the one block that can be taken is another one.
-/

namespace WiscKey.Flash

/-- What `FTLEraseOneBlock` does besides reading. -/
inductive EraseEvent
  /-- `GetFreeBlock(False)` returned this. -/
  | got (block : Int)
  /-- Page `i` of the victim went to a page of another block. -/
  | copied (i : Nat) (block page : Int)
  deriving DecidableEq, Repr

namespace EraseEvent

/-- What `GetFreeBlock` returned. -/
def gotBlock : EraseEvent → Option Int
  | got block => some block
  | copied .. => none

/-- The page of the victim that was copied. -/
def copiedPage : EraseEvent → Option Nat
  | got _ => none
  | copied i .. => some i

end EraseEvent

section Log

variable (g : Geometry)

/-- `replaceFullBlock` with its log. -/
def replaceFullBlockLog (s : Ftl) : Except Fault (Ftl × List EraseEvent) :=
  if g.maxPage ≤ s.currentFreePageID then do
    let (block, dev) ← getFreeBlock g false s.dev
    .ok ({ s with dev, currentFreeBlockID := block, currentFreePageID := 0 }, [.got block])
  else .ok (s, [])

/-- `copyLivePage` with its log. -/
def copyLivePageLog (blockID : Int) (st : Ftl × List EraseEvent) (i : Nat) :
    Except Fault (Ftl × List EraseEvent) := do
  let (s, events) ← replaceFullBlockLog g st.1
  let content := s.dev.flashMemory blockID i
  if content ≠ invalidPage ∧ content ≠ freePage then do
    let s' ← ftlWriteOneCluster g s content
    .ok (s', st.2 ++ events ++ [.copied i s.currentFreeBlockID s.currentFreePageID])
  else .ok (s, st.2 ++ events)

/-- `ftlEraseOneBlock` with the log of its loop and that of the refill after it. -/
def ftlEraseOneBlockLog (s : Ftl) (blockID : Int) :
    Except Fault (Ftl × List EraseEvent × List EraseEvent) := do
  let s := { s with dev := putFreeBlock g s.dev blockID }
  let (s, loop) ← (List.range g.maxPage).foldlM (copyLivePageLog g blockID) (s, [])
  let (s, refill) ← replaceFullBlockLog g s
  .ok (cleanBlock g s blockID, loop, refill)

end Log

variable {g : Geometry} {good : Finset Int} {clusters : Int} {free : List Int} {s s' : Ftl}
  {b total : Int} {i : Nat}

theorem replaceFullBlockLog_fst (s : Ftl) :
    (replaceFullBlockLog g s).map Prod.fst = replaceFullBlock g s := by
  unfold replaceFullBlockLog replaceFullBlock
  split
  · cases getFreeBlock g false s.dev with
    | error e => rfl
    | ok r => rfl
  · rfl

theorem copyLivePageLog_fst (b : Int) (st : Ftl × List EraseEvent) (i : Nat) :
    (copyLivePageLog g b st i).map Prod.fst = copyLivePage g b st.1 i := by
  unfold copyLivePageLog copyLivePage
  rw [← replaceFullBlockLog_fst]
  cases replaceFullBlockLog g st.1 with
  | error e => rfl
  | ok r =>
    obtain ⟨s₁, events⟩ := r
    change Except.map Prod.fst (if _ then _ else _) = if _ then _ else _
    split
    · cases ftlWriteOneCluster g s₁ (s₁.dev.flashMemory b i) with
      | error e => rfl
      | ok s₂ => rfl
    · rfl

/-- The log changes nothing. -/
theorem ftlEraseOneBlockLog_fst (s : Ftl) (b : Int) :
    (ftlEraseOneBlockLog g s b).map Prod.fst = ftlEraseOneBlock g s b := by
  unfold ftlEraseOneBlockLog ftlEraseOneBlock
  have hloop := foldlM_map (p := Prod.fst) (copyLivePageLog_fst (g := g) b)
    (List.range g.maxPage) ({ s with dev := putFreeBlock g s.dev b }, [])
  simp only at hloop ⊢
  rw [← hloop]
  cases (List.range g.maxPage).foldlM (copyLivePageLog g b)
      ({ s with dev := putFreeBlock g s.dev b }, []) with
  | error e => rfl
  | ok r =>
    obtain ⟨s₁, loop⟩ := r
    change Except.map Prod.fst (do
      let (s, refill) ← replaceFullBlockLog g s₁
      Except.ok (cleanBlock g s b, loop, refill)) = (do
      let s ← replaceFullBlock g s₁
      Except.ok (cleanBlock g s b))
    rw [← replaceFullBlockLog_fst]
    cases replaceFullBlockLog g s₁ with
    | error e => rfl
    | ok r => rfl

/-- A call that returns with a log returns. -/
theorem ftlEraseOneBlock_of_log {loop refill : List EraseEvent}
    (h : ftlEraseOneBlockLog g s b = .ok (s', loop, refill)) :
    ftlEraseOneBlock g s b = .ok s' := by
  rw [← ftlEraseOneBlockLog_fst, h]
  rfl

/-- A page of the victim that holds a cluster. -/
def IsLive (fm : Int → Int → Int) (b : Int) (i : Nat) : Prop :=
  fm b i ≠ invalidPage ∧ fm b i ≠ freePage

instance (fm : Int → Int → Int) (b : Int) : DecidablePred (IsLive fm b) := fun i =>
  inferInstanceAs (Decidable (fm b i ≠ invalidPage ∧ fm b i ≠ freePage))

/-- The log up to page `i`: the pages copied are the live ones below `i`, in order, each to a page
of another block that holds its cluster now, and the blocks taken account for the free list. -/
structure Logged (g : Geometry) (good : Finset Int) (fm : Int → Int → Int) (b : Int) (i : Nat)
    (free : List Int) (st : Ftl × List EraseEvent) : Prop where
  pending : ∀ j : Nat, i ≤ j → st.1.dev.flashMemory b j = fm b j
  pages : st.2.filterMap EraseEvent.copiedPage =
    (List.range i).filter fun j => decide (IsLive fm b j)
  copies : ∀ (j : Nat) block page, .copied j block page ∈ st.2 →
    block ≠ b ∧ block ∈ good ∧ st.1.dev.flashMemory block page = fm b j
  gots : ∀ block, .got block ∈ st.2 → block ≠ b ∧ block ∈ good
  taken : (st.2.filterMap EraseEvent.gotBlock).length + free.length = g.leastFreeBlocksInFBL + 1

variable {fm : Int → Int → Int} {events : List EraseEvent}

/-- A refill in the middle of the loop. -/
theorem Logged.replaceFullBlock (hl : Logged g good fm b i free (s, events))
    (h : Copying g good clusters b total i free s) (hgood : good ⊆ g.blocks)
    (htotal : total < 2 * g.maxPage) :
    ∃ s' new free', replaceFullBlockLog g s = .ok (s', new) ∧
      Logged g good fm b i free' (s', events ++ new) ∧
      Copying g good clusters b total i free' s' ∧ s'.currentFreeBlockID ≠ -1 ∧
      s'.currentFreePageID < g.maxPage ∧ s'.dev.flashMemory = s.dev.flashMemory ∧
      new.filterMap EraseEvent.copiedPage = [] ∧
      (∀ block, .got block ∈ new → block ≠ b ∧ block ∈ good) ∧ new.length ≤ 1 := by
  by_cases hfull : g.maxPage ≤ s.currentFreePageID
  · obtain ⟨a, d', rest, hget, hab, hag, rfl, hfm, h'⟩ := h.getFreeBlock hgood htotal hfull
    have ha := (g.mem_blocks.mp (hgood hag)).1
    have hpos := g.maxPage_pos
    refine ⟨_, [.got a], rest, ?_, ⟨?_, ?_, ?_, ?_, ?_⟩, h', ?_, ?_, hfm, rfl, ?_, le_rfl⟩
    · simp only [replaceFullBlockLog, if_pos hfull, hget]
      rfl
    · intro j hj
      simp only [hfm]
      exact hl.pending j hj
    · rw [List.filterMap_append, hl.pages]
      exact List.append_nil _
    · intro j block page hmem
      simp only [hfm]
      refine hl.copies j block page ?_
      simpa using hmem
    · intro block hmem
      rcases List.mem_append.mp hmem with hmem | hmem
      · exact hl.gots block hmem
      · obtain rfl : block = a := by simpa using hmem
        exact ⟨hab, hag⟩
    · have htaken := hl.taken
      simp only [List.filterMap_append, List.length_append, List.length_cons] at htaken ⊢
      have hone : (List.filterMap EraseEvent.gotBlock [.got a]).length = 1 := rfl
      omega
    · simp only
      omega
    · simp only
      omega
    · intro block hmem
      obtain rfl : block = a := by simpa using hmem
      exact ⟨hab, hag⟩
  · refine ⟨s, [], free, ?_, by simpa using hl, h, ?_, by omega, rfl, rfl, by simp, by simp⟩
    · simp [replaceFullBlockLog, hfull]
    · exact fun hnone => hfull (h.no_current hnone)

/-- One round of the loop, logged. -/
theorem Logged.copyLivePage (hl : Logged g good fm b i free (s, events))
    (h : Copying g good clusters b total i free s) (hgood : good ⊆ g.blocks)
    (htotal : total < 2 * g.maxPage) (hi : i < g.maxPage) :
    ∃ s' events' free', copyLivePageLog g b (s, events) i = .ok (s', events') ∧
      Logged g good fm b (i + 1) free' (s', events') ∧
      Copying g good clusters b total (i + 1) free' s' := by
  obtain ⟨s₁, new, free₁, hok, hl₁, h₁, hcur, hpage, -⟩ := hl.replaceFullBlock h hgood htotal
  have hip : (i : Int) ∈ g.pages := g.mem_pages.mpr ⟨by omega, by omega⟩
  have hcontent : s₁.dev.flashMemory b i = fm b i := hl₁.pending i le_rfl
  simp only [copyLivePageLog, hok]
  change ∃ s' events' free', (if s₁.dev.flashMemory b i ≠ invalidPage ∧
      s₁.dev.flashMemory b i ≠ freePage then do
    let s' ← ftlWriteOneCluster g s₁ (s₁.dev.flashMemory b i)
    Except.ok (s', events ++ new ++ [.copied i s₁.currentFreeBlockID s₁.currentFreePageID])
    else Except.ok (s₁, events ++ new)) = .ok (s', events') ∧ _
  rcases h₁.content hip with hinv | ⟨hinv, hnf, hc, hcl⟩
  · have hdead : ¬ IsLive fm b i := fun hlive => hlive.1 (hcontent ▸ hinv)
    refine ⟨s₁, events ++ new, free₁, if_neg fun hlive => hlive.1 hinv,
      ⟨fun j hj => hl₁.pending j (by omega), ?_, hl₁.copies, hl₁.gots, hl₁.taken⟩, h₁.skip hinv⟩
    rw [hl₁.pages, List.range_succ, List.filter_append, List.filter_singleton]
    simp [hdead]
  · obtain ⟨s₂, hwrite, h₂, hfm₂, -⟩ := h₁.copy hgood hi hcur hpage rfl hc hcl
    have hlive : IsLive fm b i := by
      unfold IsLive
      rw [← hcontent]
      exact ⟨hinv, hnf⟩
    have hbcur : s₁.currentFreeBlockID ≠ b := fun he => h₁.rep.current_unlisted (he ▸ h₁.mem)
    -- the page at the frontier is free, so no earlier copy is there
    have hfree := (h₁.rep.frontier hcur _
      (g.mem_pages.mpr ⟨h₁.rep.frontier_nonneg, hpage⟩)).mpr le_rfl
    have hearlier : ∀ (j : Nat) block page, .copied j block page ∈ events ++ new →
        ¬ (block = s₁.currentFreeBlockID ∧ page = s₁.currentFreePageID) := by
      rintro j block page hmem ⟨rfl, rfl⟩
      have hj : j ∈ (events ++ new).filterMap EraseEvent.copiedPage :=
        List.mem_filterMap.mpr ⟨_, hmem, rfl⟩
      rw [hl₁.pages, List.mem_filter, decide_eq_true_eq] at hj
      have hsame := (hl₁.copies j _ _ hmem).2.2
      exact hj.2.2 (hsame.symm.trans hfree)
    refine ⟨s₂, events ++ new ++ [.copied i s₁.currentFreeBlockID s₁.currentFreePageID], free₁, ?_,
      ⟨?_, ?_, ?_, ?_, ?_⟩, h₂⟩
    · rw [if_pos ⟨hinv, hnf⟩, hwrite]
      rfl
    · intro j hj
      simp only [hfm₂]
      rw [setPage_block_of_ne hbcur.symm, setPage_of_ne (by omega)]
      exact hl₁.pending j (by omega)
    · rw [List.filterMap_append, hl₁.pages, List.range_succ, List.filter_append,
        List.filter_singleton]
      simp [hlive, EraseEvent.copiedPage]
    · intro j block page hmem
      simp only [hfm₂]
      rcases List.mem_append.mp hmem with hmem | hmem
      · obtain ⟨hb, hg, hsame⟩ := hl₁.copies j block page hmem
        rw [setPage_of_ne (hearlier j block page hmem), setPage_block_of_ne hb]
        exact ⟨hb, hg, hsame⟩
      · obtain ⟨rfl, rfl, rfl⟩ : j = i ∧ block = s₁.currentFreeBlockID ∧
            page = s₁.currentFreePageID := by simpa using hmem
        rw [setPage_self]
        exact ⟨hbcur, h₁.rep.current_good hcur, hcontent⟩
    · intro block hmem
      rcases List.mem_append.mp hmem with hmem | hmem
      · exact hl₁.gots block hmem
      · cases List.mem_singleton.mp hmem
    · rw [List.filterMap_append, List.length_append]
      exact hl₁.taken

/-- The whole loop, logged. -/
theorem Logged.copyAll (hl : Logged g good fm b 0 free (s, events))
    (h : Copying g good clusters b total 0 free s) (hgood : good ⊆ g.blocks)
    (htotal : total < 2 * g.maxPage) {n : Nat} (hn : n ≤ g.maxPage) :
    ∃ s' events' free', (List.range n).foldlM (copyLivePageLog g b) (s, events) =
        .ok (s', events') ∧
      Logged g good fm b n free' (s', events') ∧ Copying g good clusters b total n free' s' := by
  induction n with
  | zero => exact ⟨s, events, free, rfl, hl, h⟩
  | succ n ih =>
    obtain ⟨s₁, events₁, free₁, hok₁, hl₁, h₁⟩ := ih (by omega)
    obtain ⟨s₂, events₂, free₂, hok₂, hl₂, h₂⟩ := hl₁.copyLivePage h₁ hgood htotal (by omega)
    refine ⟨s₂, events₂, free₂, ?_, hl₂, h₂⟩
    rw [List.range_succ, List.foldlM_append, hok₁]
    change List.foldlM (copyLivePageLog g b) (s₁, events₁) [n] = _
    rw [List.foldlM_cons, hok₂]
    rfl

/-- A call of `FTLEraseOneBlock` that does its victim `b` no harm. -/
structure ErasesSafely (g : Geometry) (s : Ftl) (b : Int) (s' : Ftl)
    (loop refill : List EraseEvent) : Prop where
  /-- The call returns. -/
  returns : ftlEraseOneBlock g s b = .ok s'
  /-- Its log. -/
  logged : ftlEraseOneBlockLog g s b = .ok (s', loop, refill)
  /-- The victim is on the free list before its pages are read. -/
  listed : b ∈ freeBlocks (putFreeBlock g s.dev b)
  /-- Every `GetFreeBlock(False)` succeeds, with another block than the victim. -/
  gots : ∀ block, .got block ∈ loop ++ refill → block ≠ -1 ∧ block ∈ g.blocks ∧ block ≠ b
  /-- The live pages are copied in order, each once. -/
  pages : loop.filterMap EraseEvent.copiedPage =
    (List.range g.maxPage).filter fun i => decide (IsLive s.dev.flashMemory b i)
  /-- Each goes to a page of another block, which holds its cluster after the call. -/
  copies : ∀ (i : Nat) block page, .copied i block page ∈ loop →
    block ≠ b ∧ block ∈ g.blocks ∧ s'.dev.flashMemory block page = s.dev.flashMemory b i
  /-- The loop takes at most one block, and the refill one at most. -/
  taken : (loop.filterMap EraseEvent.gotBlock).length ≤ 1
  refilled : refill.length ≤ 1 ∧ refill.filterMap EraseEvent.copiedPage = []
  /-- After the call the victim is erased and on the free list. -/
  erased : ∀ p ∈ g.pages, s'.dev.flashMemory b p = freePage
  free : b ∈ freeBlocks s'.dev

/-- At the reserve, erasing a full block with an invalid page does it no harm. -/
theorem Rep.erasesSafely (h : Rep g good clusters free none s) (hgood : good ⊆ g.blocks)
    (hlen : free.length = g.leastFreeBlocksInFBL)
    (hnone : s.currentFreeBlockID = -1 → g.maxPage ≤ s.currentFreePageID)
    (hb : b ∈ good) (hnot : b ∉ free) (hcur : b ≠ s.currentFreeBlockID)
    (hvalid : s.dev.validPageCnt b < g.maxPage) :
    ∃ s' loop refill, ErasesSafely g s b s' loop refill := by
  obtain ⟨hcopying, htotal⟩ := h.copying hlen hnone hb hnot hcur hvalid
  have hstart : Logged g good s.dev.flashMemory b 0 (free ++ [b])
      ({ s with dev := putFreeBlock g s.dev b }, []) := by
    refine ⟨fun _ _ => rfl, rfl, by simp, by simp, ?_⟩
    simp [hlen]
  obtain ⟨s₁, loop, free₁, hok₁, hl₁, h₁⟩ := hstart.copyAll hcopying hgood htotal le_rfl
  obtain ⟨s₂, refill, free₂, hok₂, -, h₂, -, -, hfm, hcopied, hgots, hlength⟩ :=
    hl₁.replaceFullBlock h₁ hgood htotal
  have hinvalid : ∀ p ∈ g.pages, s₂.dev.flashMemory b p = invalidPage := fun p hp =>
    h₂.copied p hp (g.mem_pages.mp hp).2
  have hclean := h₂.rep.clean h₂.mem hinvalid
  have hother : ∀ block, block ≠ b → (cleanBlock g s₂ b).dev.flashMemory block =
      s₁.dev.flashMemory block := by
    intro block hne
    simp only [cleanBlock]
    rw [Function.update_of_ne hne, hfm]
  have hlog : ftlEraseOneBlockLog g s b = .ok (cleanBlock g s₂ b, loop, refill) := by
    simp only [ftlEraseOneBlockLog, hok₁]
    change (do
      let (s, refill) ← replaceFullBlockLog g s₁
      Except.ok (cleanBlock g s b, loop, refill)) = _
    rw [hok₂]
    rfl
  refine ⟨cleanBlock g s₂ b, loop, refill, ftlEraseOneBlock_of_log hlog, hlog, ?_, ?_, hl₁.pages,
    ?_, ?_, ⟨hlength, hcopied⟩, ?_, ?_⟩
  · rw [hcopying.rep.listed.freeBlocks_eq]
    exact hcopying.mem
  · intro block hmem
    have hblock : block ≠ b ∧ block ∈ good := by
      rcases List.mem_append.mp hmem with hmem | hmem
      · exact hl₁.gots block hmem
      · exact hgots block hmem
    have hmemb := hgood hblock.2
    exact ⟨g.ne_null_of_mem_blocks hmemb, hmemb, hblock.1⟩
  · intro i block page hmem
    obtain ⟨hne, hg, hsame⟩ := hl₁.copies i block page hmem
    rw [hother block hne]
    exact ⟨hne, hgood hg, hsame⟩
  · have htaken := hl₁.taken
    have hleast : g.leastFreeBlocksInFBL ≤ free₁.length := by
      rcases h₁.budget with ⟨hlen₁, -⟩ | ⟨hlen₁, -⟩ <;> omega
    simp only at htaken
    omega
  · exact hclean.erased b h₂.mem (by simp)
  · rw [hclean.listed.freeBlocks_eq]
    exact h₂.mem

section Calls

variable (g : Geometry)

/-- The calls of `FTLEraseOneBlock` that `FTLGarbageCollection` makes in its first `fuel` rounds:
the states it makes them in, with their victims. -/
def collectorErases : Nat → Ftl → List (Ftl × Int)
  | 0, _ => []
  | fuel + 1, s =>
    if checkFreeBlock g s.dev ≠ -1 then []
    else match findVictim g s g.maxBlock with
      | .error _ => []
      | .ok (false, s) => collectorErases fuel (doubleDivider s)
      | .ok (true, s) => (s, s.currentScanningBlockID) ::
        match ftlEraseOneBlock g s s.currentScanningBlockID with
        | .error _ => []
        | .ok s => collectorErases fuel s

/-- The calls of the loops `while (CurrentFreePageID >= MaxPage)`. -/
def loopErases : Nat → Ftl → List (Ftl × Int)
  | 0, _ => []
  | fuel + 1, s =>
    if g.maxPage ≤ s.currentFreePageID then
      match getFreeBlock g false s.dev with
      | .error _ => []
      | .ok (block, dev) =>
        let s := { s with dev, currentFreeBlockID := block }
        if block = -1 then
          collectorErases g fuel s ++
            match ftlGarbageCollection g fuel s with
            | .error _ => []
            | .ok s => loopErases fuel s
        else loopErases fuel { s with currentFreePageID := 0 }
    else []

/-- The calls of `SecureFTLWriteOneCluster`, also of one that does not return. -/
def writeErases (fuel : Nat) (s : Ftl) (clusterID : Int) : List (Ftl × Int) :=
  loopErases g fuel s ++
    match ensureFreePage g fuel s with
    | .error _ => []
    | .ok s => match ftlWriteOneCluster g s clusterID with
      | .error _ => []
      | .ok s => loopErases g fuel s

end Calls

variable {fuel : Nat} {call : Ftl × Int}

/-- Every call of the collector is safe. -/
theorem Running.collectorErases_safe (h : Running g good clusters free s) (hgood : good ⊆ g.blocks)
    (hcall : call ∈ collectorErases g fuel s) :
    ∃ s' loop refill, ErasesSafely g call.1 call.2 s' loop refill := by
  induction fuel generalizing s free with
  | zero => cases hcall
  | succ fuel ih =>
    rw [collectorErases] at hcall
    split at hcall
    · cases hcall
    · rename_i hfree
      have hlen : free.length = g.leastFreeBlocksInFBL := Nat.le_antisymm
        ((checkFreeBlock_eq_neg_one h.rep.listed hgood).mp (not_not.mp hfree)) h.least
      split at hcall
      · cases hcall
      · rename_i s₁ hscan
        obtain ⟨k, rfl, hk, hk', -⟩ := findVictim_ok h.scan_ge h.scan_lt hscan
        exact ih (h.rescan hk hk').doubleDivider hcall
      · rename_i s₁ hscan
        obtain ⟨k, rfl, hk, hk', hfound⟩ := findVictim_ok h.scan_ge h.scan_lt hscan
        have h₁ := h.rescan hk hk'
        obtain ⟨hk0, hv⟩ := hfound rfl
        rcases List.mem_cons.mp hcall with rfl | hcall
        · obtain ⟨hb, hnot, hcur, hvalid⟩ := h₁.victim hgood (g.mem_blocks.mpr ⟨hk0, hk'⟩) hv
          exact h₁.rep.erasesSafely hgood hlen h₁.no_current hb hnot hcur hvalid
        · obtain ⟨s₂, free₂, hok₂, -, h₂⟩ := h₁.eraseVictim hgood hlen hk0 hv
          simp only [hok₂] at hcall
          exact ih h₂ hcall

/-- Every call of the loops around a write is safe. -/
theorem Running.loopErases_safe (h : Running g good clusters free s) (hgood : good ⊆ g.blocks)
    (hcall : call ∈ loopErases g fuel s) :
    ∃ s' loop refill, ErasesSafely g call.1 call.2 s' loop refill := by
  induction fuel generalizing s free with
  | zero => cases hcall
  | succ fuel ih =>
    rw [loopErases] at hcall
    split at hcall
    · rename_i hfull
      rcases Nat.lt_or_ge g.leastFreeBlocksInFBL free.length with hleast | hleast
      · obtain ⟨b, d', rest, -, hb, hget, h₁⟩ := h.takeCurrent hgood hfull hleast
        simp only [hget, if_neg hb] at hcall
        exact ih h₁ hcall
      · have hdrop := h.dropCurrent hgood hfull
        simp only [getFreeBlock_reserve h.rep.listed hleast, if_true] at hcall
        rcases List.mem_append.mp hcall with hcall | hcall
        · exact hdrop.collectorErases_safe hgood hcall
        · cases hgc : ftlGarbageCollection g fuel { s with currentFreeBlockID := -1 } with
          | error e =>
            rw [hgc] at hcall
            cases hcall
          | ok s₁ =>
            rw [hgc] at hcall
            obtain ⟨free₁, h₁, -, -⟩ := hdrop.collect hgood hgc
            exact ih h₁ hcall
    · cases hcall

/-- Every call of a write is safe. -/
theorem Running.safeErases_write (h : Running g good clusters free s) (hgood : good ⊆ g.blocks)
    {c : Int} (hc : 0 ≤ c) (hcl : c < clusters) (hcall : call ∈ writeErases g fuel s c) :
    ∃ s' loop refill, ErasesSafely g call.1 call.2 s' loop refill := by
  rcases List.mem_append.mp hcall with hcall | hcall
  · exact h.loopErases_safe hgood hcall
  · cases hfirst : Flash.ensureFreePage g fuel s with
    | error e =>
      rw [hfirst] at hcall
      cases hcall
    | ok s₁ =>
      obtain ⟨free₁, h₁, hroom₁, -⟩ := h.ensureFreePage hgood hfirst
      obtain ⟨hwrite, h₂⟩ := h₁.write hgood hc hcl hroom₁
      simp only [hfirst, hwrite] at hcall
      exact h₂.loopErases_safe hgood hcall

/-- The states between the calls of the layer, from its opening on. -/
inductive Reached (g : Geometry) (draws : Draws) : Ftl → Prop
  | opened {s : Ftl} (h : openFTL g (initializeFlashMemory g draws) = .ok s) : Reached g draws s
  | written {s s' : Ftl} {c : Int} (h : Reached g draws s) (hc : admissible g draws c)
      (hwrite : WriteReturns g s c s') : Reached g draws s'
  | accessed {s : Ftl} {c : Int} (h : Reached g draws s) : Reached g draws (markAccessed s c)

theorem Reached.between {draws : Draws} (h : Reached g draws s) : Between g draws s := by
  induction h with
  | opened hopen =>
    obtain ⟨s₀, hopen₀, hbetween⟩ := openFTL_between g draws
    obtain rfl := Except.ok.inj (hopen₀.symm.trans hopen)
    exact hbetween
  | written _ hc hwrite ih => exact ih.write hc hwrite
  | accessed _ ih => exact ih.markAccessed

theorem Reached.of_writes {draws : Draws} {cs : List Int} (h : Reached g draws s)
    (hcs : ∀ c ∈ cs, admissible g draws c) (hrun : Writes g s cs s') : Reached g draws s' := by
  induction hrun with
  | nil => exact h
  | cons head tail ih =>
    exact ih (h.written (hcs _ List.mem_cons_self) head)
      fun c hc => hcs c (List.mem_cons_of_mem _ hc)

/-- Without a current block, a write makes no call of `FTLEraseOneBlock`. -/
theorem writeErases_of_no_current {c : Int} (hroom : s.currentFreePageID < g.maxPage)
    (hnone : s.currentFreeBlockID = -1) : writeErases g fuel s c = [] := by
  have hfull : ¬ (g.maxPage : Int) ≤ s.currentFreePageID := by omega
  cases fuel with
  | zero => rfl
  | succ fuel =>
    have hwrite : ftlWriteOneCluster g s c = .error .badIndex := by
      unfold ftlWriteOneCluster
      rw [if_pos (by omega)]
    unfold writeErases
    rw [loopErases, if_neg hfull, ensureFreePage, if_neg hfull]
    simp only [hwrite, List.append_nil]

/-- Every call of `FTLEraseOneBlock` that a write of an admissible cluster makes, from any state
that the layer reaches, does its victim no harm. -/
theorem writeErases_safe {draws : Draws} {c : Int} (h : Reached g draws s)
    (hc : admissible g draws c) (hcall : call ∈ writeErases g fuel s c) :
    ∃ s' loop refill, ErasesSafely g call.1 call.2 s' loop refill := by
  have hbetween := h.between
  obtain ⟨free₀, hfresh⟩ := initializeFlashMemory_fresh g draws
  by_cases husable : g.leastFreeBlocksInFBL + (initializeFlashMemory g draws).badBlockCnt <
      g.maxBlock
  · obtain ⟨free, hrun⟩ := hbetween.running husable
    exact hrun.safeErases_write hfresh.good_blocks hc.1 hc.2 hcall
  · rw [writeErases_of_no_current hbetween.room
      (hbetween.reserve (Nat.le_of_not_lt husable))] at hcall
    cases hcall

/-- The last of these writes calls the collector, which erases the block of the first three
clusters and copies the third one. -/
theorem writeErases_safe_odd : ∃ s call, Reached oddGeometry goodDraws s ∧
    call ∈ writeErases oddGeometry 3 s 1 ∧
    ∃ s' loop refill, ErasesSafely oddGeometry call.1 call.2 s' loop refill := by
  obtain ⟨s₀, hopen, -⟩ := openFTL_between oddGeometry goodDraws
  have hfold : oddWrites [0, 1, 2, 3, 4, 5, 6, 7, 0, 3, 6] =
      [0, 1, 2, 3, 4, 5, 6, 7, 0, 3, 6].foldlM (secureFTLWriteOneCluster oddGeometry 2) s₀ := by
    unfold oddWrites
    rw [hopen]
    rfl
  have hcalls : ((oddWrites [0, 1, 2, 3, 4, 5, 6, 7, 0, 3, 6]).toOption.map fun s =>
      (writeErases oddGeometry 3 s 1).length) = some 1 := by decide +kernel
  cases hs : oddWrites [0, 1, 2, 3, 4, 5, 6, 7, 0, 3, 6] with
  | error e =>
    rw [hs] at hcalls
    cases hcalls
  | ok s =>
    rw [hs] at hcalls
    obtain ⟨call, hcall⟩ := List.length_eq_one_iff.mp (Option.some.inj hcalls)
    have hreached : Reached oddGeometry goodDraws s := by
      refine Reached.of_writes (.opened hopen) ?_ (Run.of_foldlM_ok
        (fun _ _ _ hok => (⟨2, hok⟩ : WriteReturns _ _ _ _)) (hfold.symm.trans hs))
      exact fun c hc => oddGeometry_admissible ((by decide :
        ∀ c ∈ ([0, 1, 2, 3, 4, 5, 6, 7, 0, 3, 6] : List Int), 0 ≤ c ∧ c < 16) c hc)
    have hmem : call ∈ writeErases oddGeometry 3 s 1 := by simp [hcall]
    exact ⟨s, call, hreached, hmem,
      writeErases_safe hreached (oddGeometry_admissible (by decide)) hmem⟩

end WiscKey.Flash
