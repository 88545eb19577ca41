import WiscKey.Flash.DftlInvariant
import WiscKey.Library.Outcome
import Mathlib.Data.Nat.Count

/-!
# Collecting keeps the invariant

`DFTLEraseOneBlock` copies the live pages of its victim to the current block, and takes at most
one block from the reserve for them. Which blocks a collection erases, and how many pages it
leaves in the current block, is fixed by the device before it starts.
-/

namespace WiscKey.Flash

/-- A page that `DFTLEraseOneBlock` copies. -/
def isLive (content : Int) : Prop := content ≠ invalidPage ∧ content ≠ freePage

instance : DecidablePred isLive := fun _ => inferInstanceAs (Decidable (_ ∧ _))

/-- The live pages among the first `n` of a block. -/
def livePages (d : Device) (b : Int) (n : Nat) : Nat :=
  Nat.count (fun p : Nat => isLive (d.flashMemory b p)) n

/-- What the scan of the collector compares: the invalid pages of a block that it may select. -/
def collectable (d : Device) (b : Int) : Int :=
  if d.flashMemory b 0 ≠ freePage ∧ d.flashMemory b 0 ≠ badBlock then d.invalidPageCnt b else 0

variable (g : Geometry)

/-- The block that the scan selects. -/
def dftlVictim (d : Device) : Int := (dftlFindVictim g d g.maxBlock 0 (0, -1)).2

/-- Copying the live pages of a block fills the current block before its last page. -/
def overflows (d : Device) (page b : Int) : Prop :=
  g.maxPage ≤ page + livePages d b (g.maxPage - 1)

/-- The blocks that a collection erases, which starts at page `page` of the current block, and
the page at which it leaves the current block. -/
inductive Collection : Device → Int → List Int → Int → Prop
  | last {d : Device} {page : Int} (hv : dftlVictim g d ≠ -1)
      (h : ¬ overflows g d page (dftlVictim g d)) :
      Collection d page [dftlVictim g d] (page + livePages d (dftlVictim g d) g.maxPage)
  | next {d : Device} {page page' : Int} {rest : List Int} (hv : dftlVictim g d ≠ -1)
      (h : overflows g d page (dftlVictim g d))
      (tail : Collection (eraseBlock g d (dftlVictim g d))
        (page + livePages d (dftlVictim g d) g.maxPage - g.maxPage) rest page') :
      Collection d page (dftlVictim g d :: rest) page'

/-- Two devices look the same to the collector. -/
structure SameVictims (d d' : Device) : Prop where
  counts : ∀ b ∈ g.blocks, collectable d' b = collectable d b
  pages : ∀ b ∈ g.blocks, 0 < collectable d b →
    ∀ p ∈ g.pages, d'.flashMemory b p = d.flashMemory b p

variable {g}

section Scan

variable {d d' : Device} {b : Int} {n : Nat}

/-- The scan looks only at what is collectable. -/
theorem dftlFindVictim_eq (d : Device) (n : Nat) (b : Int) (best : Int × Int) (hbest : 0 ≤ best.1) :
    dftlFindVictim g d (n + 1) b best =
      if collectable d b = g.maxPage then (collectable d b, b)
      else if best.1 < collectable d b then dftlFindVictim g d n (b + 1) (collectable d b, b)
      else dftlFindVictim g d n (b + 1) best := by
  have hpos := g.maxPage_pos
  unfold collectable
  rw [dftlFindVictim]
  split
  · rfl
  · rw [if_neg (by omega), if_neg (by omega)]

theorem dftlFindVictim_congr {best : Int × Int} (hbest : 0 ≤ best.1)
    (h : ∀ b', b ≤ b' → b' < b + n → collectable d' b' = collectable d b') :
    dftlFindVictim g d' n b best = dftlFindVictim g d n b best := by
  induction n generalizing b best with
  | zero => rfl
  | succ n ih =>
    have hb := h b le_rfl (by omega)
    have hrest : ∀ b', b + 1 ≤ b' → b' < b + 1 + n → collectable d' b' = collectable d b' :=
      fun b' hlo hhi => h b' (by omega) (by push_cast; omega)
    rw [dftlFindVictim_eq d' n b best hbest, dftlFindVictim_eq d n b best hbest, hb, ih hbest hrest]
    split
    · rfl
    · split
      · rename_i hlt
        exact ih (by simp only; omega) hrest
      · rfl

theorem SameVictims.victim (h : SameVictims g d d') : dftlVictim g d' = dftlVictim g d := by
  unfold dftlVictim
  rw [dftlFindVictim_congr le_rfl]
  intro b hlo hhi
  exact h.counts b (g.mem_blocks.mpr ⟨hlo, by omega⟩)

/-- The scan selects a block with an invalid page, if it selects one. -/
theorem dftlFindVictim_mem {best : Int × Int} (hbest : 0 ≤ best.1)
    (hinv : best.2 = -1 ∨ (best.2 ∈ g.blocks ∧ 0 < collectable d best.2)) (hb : 0 ≤ b)
    (hn : b + n ≤ g.maxBlock) :
    (dftlFindVictim g d n b best).2 = -1 ∨
      ((dftlFindVictim g d n b best).2 ∈ g.blocks ∧
        0 < collectable d (dftlFindVictim g d n b best).2) := by
  induction n generalizing b best with
  | zero => exact hinv
  | succ n ih =>
    have hpos := g.maxPage_pos
    have hmem : b ∈ g.blocks := g.mem_blocks.mpr ⟨hb, by omega⟩
    rw [dftlFindVictim_eq d n b best hbest]
    split
    · exact .inr ⟨hmem, by simp only; omega⟩
    · split
      · refine ih (by simp only; omega) (.inr ⟨hmem, by simp only; omega⟩) (by omega) ?_
        push_cast at hn
        omega
      · refine ih hbest hinv (by omega) ?_
        push_cast at hn
        omega

theorem dftlVictim_mem (hv : dftlVictim g d ≠ -1) :
    dftlVictim g d ∈ g.blocks ∧ 0 < collectable d (dftlVictim g d) := by
  refine (dftlFindVictim_mem le_rfl (.inl rfl) le_rfl ?_).resolve_left hv
  omega

/-- A collectable block is neither free nor bad. -/
theorem collectable_pos (h : 0 < collectable d b) :
    d.flashMemory b 0 ≠ freePage ∧ d.flashMemory b 0 ≠ badBlock ∧ 0 < d.invalidPageCnt b := by
  unfold collectable at h
  split at h
  · rename_i hpage
    exact ⟨hpage.1, hpage.2, h⟩
  · omega

theorem collectable_eq_zero (h : d.invalidPageCnt b = 0 ∨ d.flashMemory b 0 = freePage) :
    collectable d b = 0 := by
  unfold collectable
  split
  · rename_i hpage
    exact h.resolve_right hpage.1
  · rfl

theorem livePages_congr (h : ∀ p ∈ g.pages, d'.flashMemory b p = d.flashMemory b p)
    (hn : n ≤ g.maxPage) : livePages d' b n = livePages d b n := by
  induction n with
  | zero => rfl
  | succ n ih =>
    have hp : (n : Int) ∈ g.pages := g.mem_pages.mpr ⟨by omega, by omega⟩
    unfold livePages at ih ⊢
    rw [Nat.count_succ, Nat.count_succ, ih (by omega), h n hp]

theorem SameVictims.trans {d₁ : Device} (h : SameVictims g d d₁) (h' : SameVictims g d₁ d') :
    SameVictims g d d' := by
  refine ⟨fun b hb => (h'.counts b hb).trans (h.counts b hb), ?_⟩
  intro b hb hpos p hp
  rw [h'.pages b hb (by rw [h.counts b hb]; exact hpos) p hp, h.pages b hb hpos p hp]

/-- Erasing a block on both devices. -/
theorem SameVictims.erase (h : SameVictims g d d') (v : Int) :
    SameVictims g (eraseBlock g d v) (eraseBlock g d' v) := by
  have hzero : (0 : Int) ∈ g.pages := g.mem_pages.mpr ⟨le_rfl, by exact_mod_cast g.maxPage_pos⟩
  have hself : ∀ d : Device, collectable (eraseBlock g d v) v = 0 := by
    intro d
    apply collectable_eq_zero
    rw [eraseBlock_page hzero, if_pos rfl]
    exact .inr rfl
  have hother : ∀ d : Device, ∀ b, b ≠ v → collectable (eraseBlock g d v) b = collectable d b := by
    intro d b hb
    unfold collectable
    rw [eraseBlock_page hzero, if_neg hb]
    simp only [eraseBlock, Function.update_of_ne hb]
  refine ⟨?_, ?_⟩
  · intro b hb
    by_cases hbv : b = v
    · rw [hbv, hself, hself]
    · rw [hother _ _ hbv, hother _ _ hbv]
      exact h.counts b hb
  · intro b hb hpos p hp
    by_cases hbv : b = v
    · rw [hbv, hself] at hpos
      omega
    · rw [hother _ _ hbv] at hpos
      rw [eraseBlock_page hp, eraseBlock_page hp, if_neg hbv, if_neg hbv]
      exact h.pages b hb hpos p hp

theorem SameVictims.livePages (h : SameVictims g d d') (hb : b ∈ g.blocks)
    (hpos : 0 < collectable d b) (hn : n ≤ g.maxPage) :
    Flash.livePages d' b n = Flash.livePages d b n :=
  livePages_congr (h.pages b hb hpos) hn

/-- The collection is the same on both devices. -/
theorem Collection.congr {page page' : Int} {victims : List Int}
    (hcoll : Collection g d' page victims page') (h : SameVictims g d d') :
    Collection g d page victims page' := by
  induction hcoll generalizing d with
  | @last d' page hv hfit =>
    rw [h.victim] at hv hfit ⊢
    obtain ⟨hmem, hpos⟩ := dftlVictim_mem hv
    unfold overflows at hfit
    rw [h.livePages hmem hpos (by omega)] at hfit
    rw [h.livePages hmem hpos le_rfl]
    exact .last hv hfit
  | @next d' page page' rest hv hover tail ih =>
    rw [h.victim] at hv hover ih ⊢
    obtain ⟨hmem, hpos⟩ := dftlVictim_mem hv
    unfold overflows at hover
    rw [h.livePages hmem hpos (by omega)] at hover
    rw [h.livePages hmem hpos le_rfl] at ih
    exact .next hv hover (ih (h.erase _))

end Scan

section LivePages

variable {d : Device} {b : Int} {i j : Nat}

/-- More live pages come from as many pages. -/
theorem livePages_add (d : Device) (b : Int) (hij : j ≤ i) :
    livePages d b i ≤ livePages d b j + (i - j) := by
  obtain ⟨k, rfl⟩ := Nat.exists_eq_add_of_le hij
  unfold livePages
  rw [Nat.count_add, Nat.add_sub_cancel_left]
  have hle := Nat.count_le (p := fun k : Nat => isLive (d.flashMemory b ((j + k : Nat) : Int)))
    (n := k)
  omega

theorem livePages_mono (d : Device) (b : Int) (hij : j ≤ i) :
    livePages d b j ≤ livePages d b i :=
  Nat.count_monotone _ hij

theorem livePages_succ (d : Device) (b : Int) (i : Nat) :
    livePages d b (i + 1) = livePages d b i + if isLive (d.flashMemory b i) then 1 else 0 :=
  Nat.count_succ _ _

end LivePages

section Copying

variable {t : Timing} {data : Finset Int} {free₀ free : List Int} {s₀ s : Dftl} {v : Int}
  {i m : Nat}

/-- What a collection leaves alone in the table. -/
structure GcKeeps (s s' : Dftl) : Prop where
  lruOffset : ∀ c, (s'.dftlTable c).lruOffset = (s.dftlTable c).lruOffset
  stored : ∀ c, (s'.dftlTable c).block = dftlPointToNull ↔ (s.dftlTable c).block = dftlPointToNull

theorem GcKeeps.refl (s : Dftl) : GcKeeps s s := ⟨fun _ => rfl, fun _ => Iff.rfl⟩

theorem GcKeeps.trans {s s₁ s₂ : Dftl} (h₁ : GcKeeps s s₁) (h₂ : GcKeeps s₁ s₂) : GcKeeps s s₂ :=
  ⟨fun c => (h₂.lruOffset c).trans (h₁.lruOffset c), fun c => (h₂.stored c).trans (h₁.stored c)⟩

/-- A block holds a cached cluster whose number is what the memory in front of the list has as
a key. -/
def Touches (g : Geometry) (s : Dftl) (v : Int) : Prop :=
  ∃ p ∈ g.pages, s.dev.flashMemory v p = (s.cmtLRUList.element (-1)).key ∧
    0 ≤ (s.cmtLRUList.element (-1)).key ∧
    (s.dftlTable (s.cmtLRUList.element (-1)).key).lruOffset ≠ dftlPointToNull

/-- Page `p` is programmed in every data block outside the list and other than the current one. -/
def Programmed (p : Int) (data : Finset Int) (free : List Int) (s : Dftl) : Prop :=
  ∀ b ∈ data, b ∉ free → b ≠ s.currentDataBlkNum → s.dev.flashMemory b p ≠ freePage

/-- The current block of the copying loop: it is the one at the start, or, once that was full,
the head of the list. `m` rounds have looked whether it is full. -/
inductive CopyTarget (g : Geometry) (v : Int) (s₀ : Dftl) (i m : Nat) :
    List Int → List Int → Dftl → Prop
  | same {free : List Int} {s : Dftl} (block : s.currentDataBlkNum = s₀.currentDataBlkNum)
      (page : s.currentDataBlkPageNum = s₀.currentDataBlkPageNum + livePages s₀.dev v i)
      (room : ∀ j < m, s₀.currentDataBlkPageNum + livePages s₀.dev v j < g.maxPage) :
      CopyTarget g v s₀ i m free free s
  | taken {a : Int} {free : List Int} {s : Dftl} (block : s.currentDataBlkNum = a)
      (page : s.currentDataBlkPageNum + g.maxPage =
        s₀.currentDataBlkPageNum + livePages s₀.dev v i) {j : Nat} (hj : j < m) (hji : j ≤ i)
      (full : s₀.currentDataBlkPageNum + livePages s₀.dev v j = g.maxPage) :
      CopyTarget g v s₀ i m (a :: free) free s

/-- The invariant of the copying loop, `i` pages on. -/
structure DftlCopying (g : Geometry) (data : Finset Int) (v : Int) (s₀ : Dftl) (free₀ : List Int)
    (i m : Nat) (free : List Int) (s : Dftl) : Prop where
  rep : DataRep g data free (staleView s.dev.flashMemory v i) s
  current : CurrentBlk g data free s
  target : CopyTarget g v s₀ i m free₀ free s
  pages : ∀ b, b ∉ free₀ →
    (b = s₀.currentDataBlkNum → s₀.currentDataBlkPageNum = g.maxPage) →
      s.dev.flashMemory b = s₀.dev.flashMemory b
  invalid_same : ∀ b, b ∉ free₀ → s.dev.invalidPageCnt b = s₀.dev.invalidPageCnt b
  invalid_taken : ∀ b ∈ free₀, b ∉ free → s.dev.invalidPageCnt b = 0
  keeps : GcKeeps s₀ s
  list : ¬ Touches g s₀ v → s.cmtLRUList = s₀.cmtLRUList
  programmed : ∀ p ∈ g.pages, Programmed p data free₀ s₀ → Programmed p data free s

/-- What the copying loop starts from. -/
structure CopyStart (g : Geometry) (data : Finset Int) (v : Int) (s₀ : Dftl) (free₀ : List Int) :
    Prop where
  rep : DataRep g data free₀ s₀.dev.flashMemory s₀
  current : CurrentBlk g data free₀ s₀
  victim : v ∈ data
  unlisted : v ∉ free₀
  reserve : 2 ≤ free₀.length
  full : v = s₀.currentDataBlkNum → s₀.currentDataBlkPageNum = g.maxPage
  invalid : 0 < s₀.dev.invalidPageCnt v

/-- The victim keeps its pages while they are copied. -/
theorem DftlCopying.victim_pages (h : DftlCopying g data v s₀ free₀ i m free s)
    (hstart : CopyStart g data v s₀ free₀) : s.dev.flashMemory v = s₀.dev.flashMemory v :=
  h.pages v hstart.unlisted hstart.full

/-- From the first round on the target is not the victim. -/
theorem CopyTarget.ne_victim (h : CopyTarget g v s₀ i m free₀ free s)
    (hstart : CopyStart g data v s₀ free₀) (hm : 0 < m) : s.currentDataBlkNum ≠ v := by
  intro hv
  cases h with
  | same block page room =>
    have hfull := hstart.full (hv.symm.trans block)
    have hzero := room 0 hm
    omega
  | taken block page hj hji full =>
    refine hstart.unlisted ?_
    rw [← hv, block]
    exact List.mem_cons_self

/-- A round leaves a current block with room, which it takes from the list if it must. -/
theorem DftlCopying.replace (h : DftlCopying g data v s₀ free₀ i i free s)
    (hstart : CopyStart g data v s₀ free₀) (hdata : data ⊆ g.blocks) (hi : i < g.maxPage) :
    ∃ s' free', replaceFullDataBlkInGc g s = .ok s' ∧
      DftlCopying g data v s₀ free₀ i (i + 1) free' s' ∧
      s'.currentDataBlkPageNum < g.maxPage := by
  unfold replaceFullDataBlkInGc
  by_cases hfull : g.maxPage ≤ s.currentDataBlkPageNum
  · rw [if_pos hfull]
    have hle := h.current.page_le
    have hfree₀ : free₀ ≠ [] := List.ne_nil_of_length_pos (by have := hstart.reserve; omega)
    have htarget := h.target
    cases htarget with
    | taken block page hj hji full =>
      have hadd := livePages_add s₀.dev v hji
      omega
    | same block page room =>
      obtain ⟨a, rest, rfl⟩ := List.exists_cons_of_ne_nil hfree₀
      obtain ⟨d', htake, hfm, hinvalid, hrep, hcur⟩ := h.rep.take hdata
      have hpos := g.maxPage_pos
      refine ⟨useDataBlk { s with dev := d' } a, rest, ?_,
        ⟨?_, hcur, ?_, ?_, ?_, ?_, ?_, ?_, ?_⟩, ?_⟩
      · unfold allocateDataBlkInGc
        rw [if_neg (by unfold hasDataPage; omega)]
        unfold getFreeBlock
        rw [if_pos rfl, htake]
        rfl
      · simp only [useDataBlk, hfm] at hrep ⊢
        exact hrep
      · refine .taken rfl ?_ (Nat.lt_succ_self i) le_rfl ?_
        · simp only [useDataBlk]
          omega
        · omega
      · intro b hb hbc
        simp only [useDataBlk, hfm]
        exact h.pages b hb hbc
      · intro b hb
        have hba : b ≠ a := fun he => hb (he ▸ List.mem_cons_self)
        simp only [useDataBlk, hinvalid, Function.update_of_ne hba]
        exact h.invalid_same b hb
      · intro b hb hbr
        have hba : b = a := (List.mem_cons.mp hb).resolve_right hbr
        simp only [useDataBlk, hinvalid, hba, Function.update_self]
      · exact ⟨h.keeps.lruOffset, h.keeps.stored⟩
      · exact h.list
      · intro p hp hprogrammed b hb hbr (hba : b ≠ a)
        simp only [useDataBlk, hfm]
        by_cases hbc : b = s.currentDataBlkNum
        · have hlt := (g.mem_pages.mp hp).2
          rw [hbc, Ne, h.current.frontier p hp]
          omega
        · exact h.programmed p hp hprogrammed b hb (by simp [hba, hbr]) hbc
      · simp only [useDataBlk]
        omega
  · rw [if_neg hfull]
    refine ⟨s, free, rfl, ⟨h.rep, h.current, ?_, h.pages, h.invalid_same, h.invalid_taken, h.keeps,
      h.list, h.programmed⟩, by omega⟩
    have htarget := h.target
    cases htarget with
    | same block page room =>
      refine .same block page fun j hj => ?_
      rcases Nat.lt_succ_iff_lt_or_eq.mp hj with hj | rfl
      · exact room j hj
      · omega
    | taken block page hj hji full => exact .taken block page (Nat.lt_succ_of_lt hj) hji full

/-- The list changes only for a cached cluster with the key in front of it. -/
theorem dropFromList_eq (s : Dftl) (c : Int) :
    ∃ l, dropFromList s c = { s with cmtLRUList := l } ∧
      (¬ ((s.cmtLRUList.element (-1)).key = c ∧ (s.dftlTable c).lruOffset ≠ dftlPointToNull) →
        l = s.cmtLRUList) := by
  unfold dropFromList LRUListD.removeElemenetFromLRUListD
  split
  · rename_i hcached
    split
    · exact ⟨s.cmtLRUList, rfl, fun _ => rfl⟩
    · rename_i hkey
      exact ⟨_, rfl, fun hnot => absurd ⟨not_not.mp hkey, hcached⟩ hnot⟩
  · exact ⟨s.cmtLRUList, rfl, fun _ => rfl⟩

/-- The counter of the copied pages and the time they took. -/
def countCopy (t : Timing) (s : Dftl) : Dftl :=
  { s with accessStatistics := { s.accessStatistics with
    totalLivePageCopyings := s.accessStatistics.totalLivePageCopyings + 1
    totalWriteRequestTime :=
      s.accessStatistics.totalWriteRequestTime + (t.timeReadPage + t.timeWritePage) } }

/-- A round copies a live page. -/
theorem DftlCopying.copy (h : DftlCopying g data v s₀ free₀ i (i + 1) free s)
    (hstart : CopyStart g data v s₀ free₀) (hdata : data ⊆ g.blocks) (hi : i < g.maxPage)
    (hroom : s.currentDataBlkPageNum < g.maxPage) {c : Int} (hcdef : s.dev.flashMemory v i = c)
    (hlive : isLive c) :
    ∃ s', dftlProgram g (dropFromList s c) c = .ok s' ∧
      DftlCopying g data v s₀ free₀ (i + 1) (i + 1) free (countCopy t s') := by
  have hip : (i : Int) ∈ g.pages := g.mem_pages.mpr ⟨by omega, by omega⟩
  have hne := h.target.ne_victim hstart (Nat.succ_pos i)
  have hv₀ : s₀.dev.flashMemory v i = c := by
    rw [← h.victim_pages hstart]
    exact hcdef
  have hview : staleView s.dev.flashMemory v i v i = c := by
    rw [staleView_of_not (by omega)]
    exact hcdef
  have hc : 0 ≤ c := by
    rcases h.rep.mapped.content v hstart.victim i hip with hfree | hinv | hc
    · exact absurd (hview.symm.trans hfree) hlive.2
    · exact absurd (hview.symm.trans hinv) hlive.1
    · rwa [hview] at hc
  have hplace : s.place c = (v, (i : Int)) := by
    have hmapped := h.rep.mapped.mapped v hstart.victim i hip (by rw [hview]; exact hc)
    rwa [hview] at hmapped
  have hvnull : v ≠ dftlPointToNull := g.ne_null_of_mem_blocks (hdata hstart.victim)
  obtain ⟨l, hdrop, hlist⟩ := dropFromList_eq s c
  have hrep₁ : DataRep g data free (staleView s.dev.flashMemory v i)
      { s with cmtLRUList := l } := h.rep.congr rfl rfl rfl
  have hcur₁ : CurrentBlk g data free { s with cmtLRUList := l } := h.current.congr rfl rfl rfl
  have hp : s.currentDataBlkPageNum ∈ g.pages := g.mem_pages.mpr ⟨h.current.page_nonneg, hroom⟩
  have hfree := (h.current.frontier _ hp).mpr le_rfl
  obtain ⟨hrep, hcur⟩ := hrep₁.program hcur₁ hdata hc hroom
    ((staleView_of_not (fun hb => hne hb.1)).trans hfree)
  have hother : ∀ b, b ≠ s.currentDataBlkNum →
      (dftlProgrammed { s with cmtLRUList := l } c).dev.flashMemory b = s.dev.flashMemory b :=
    fun b hb => setPage_block_of_ne hb
  refine ⟨dftlProgrammed { s with cmtLRUList := l } c, ?_, ⟨?_, hcur.congr rfl rfl rfl, ?_, ?_,
    h.invalid_same, h.invalid_taken, h.keeps.trans ⟨?_, ?_⟩, ?_, ?_⟩⟩
  · rw [hdrop]
    exact dftlProgram_ok (hdata h.current.mem_data)
  · have hviews : setPage (vacate (staleView s.dev.flashMemory v i) s.place c)
        s.currentDataBlkNum s.currentDataBlkPageNum c =
        staleView (setPage s.dev.flashMemory s.currentDataBlkNum s.currentDataBlkPageNum c) v
          (i + 1) := by
      rw [staleView_setPage hne, staleView_succ]
      unfold vacate
      rw [hplace, if_pos hvnull]
    change DataRep g data free (staleView (setPage s.dev.flashMemory s.currentDataBlkNum
      s.currentDataBlkPageNum c) v (i + 1)) _
    rw [← hviews]
    exact hrep.congr rfl rfl rfl
  · have hsucc := livePages_succ s₀.dev v i
    rw [hv₀, if_pos hlive] at hsucc
    have htarget := h.target
    cases htarget with
    | same block page room =>
      refine .same block ?_ room
      simp only [countCopy, dftlProgrammed]
      omega
    | taken block page hj hji full =>
      refine .taken block ?_ hj (Nat.le_succ_of_le hji) full
      simp only [countCopy, dftlProgrammed]
      omega
  · intro b hb hbc
    rw [← h.pages b hb hbc]
    refine hother b ?_
    intro hcurb
    have htarget := h.target
    cases htarget with
    | same block page room =>
      have hfull := hbc (hcurb.trans block)
      have hzero := room 0 (Nat.succ_pos i)
      omega
    | taken block page hj hji full =>
      refine hb ?_
      rw [hcurb, block]
      exact List.mem_cons_self
  · intro c'
    simp only [countCopy, dftlProgrammed]
    by_cases hcc : c' = c
    · rw [hcc, Function.update_self]
    · rw [Function.update_of_ne hcc]
  · intro c'
    simp only [countCopy, dftlProgrammed]
    by_cases hcc : c' = c
    · subst c'
      rw [Function.update_self]
      refine iff_of_false (g.ne_null_of_mem_blocks (hdata h.current.mem_data)) ?_
      have hblock : (s.dftlTable c).block = v := congrArg Prod.fst hplace
      rw [hblock]
      exact hvnull
    · rw [Function.update_of_ne hcc]
  · intro hquiet
    have hsame := h.list hquiet
    refine (hlist ?_).trans hsame
    rintro ⟨hkey, hcached⟩
    rw [hsame] at hkey
    refine hquiet ⟨i, hip, hv₀.trans hkey.symm, hkey ▸ hc, ?_⟩
    rw [hkey, ← h.keeps.lruOffset c]
    exact hcached
  · intro p' hp' hprogrammed b hb hbf hbc
    change (dftlProgrammed { s with cmtLRUList := l } c).dev.flashMemory b p' ≠ freePage
    rw [hother b hbc]
    exact h.programmed p' hp' hprogrammed b hb hbf hbc

/-- A round passes a page by that is not live. -/
theorem DftlCopying.skip (h : DftlCopying g data v s₀ free₀ i (i + 1) free s)
    (hstart : CopyStart g data v s₀ free₀) (hdead : ¬ isLive (s.dev.flashMemory v i)) :
    DftlCopying g data v s₀ free₀ (i + 1) (i + 1) free s := by
  refine ⟨{ h.rep with mapped := h.rep.mapped.discard ?_ }, h.current, ?_, h.pages,
    h.invalid_same, h.invalid_taken, h.keeps, h.list, h.programmed⟩
  · intro b _ p _
    rw [staleView_succ]
    by_cases hbp : b = v ∧ p = i
    · obtain ⟨rfl, rfl⟩ := hbp
      rw [setPage_self, staleView_of_not (by omega)]
      refine .inr ⟨?_, .inr rfl⟩
      by_contra hnonneg
      refine hdead ⟨?_, ?_⟩
      · intro heq
        rw [heq] at hnonneg
        exact hnonneg (by decide)
      · intro heq
        rw [heq] at hnonneg
        exact hnonneg (by decide)
    · rw [setPage_of_ne hbp]
      exact .inl rfl
  · have hsucc := livePages_succ s₀.dev v i
    rw [← h.victim_pages hstart, if_neg hdead] at hsucc
    have htarget := h.target
    cases htarget with
    | same block page room => exact .same block (by omega) room
    | taken block page hj hji full => exact .taken block (by omega) hj (Nat.le_succ_of_le hji) full

/-- One round of the copying loop. -/
theorem DftlCopying.round (h : DftlCopying g data v s₀ free₀ i i free s)
    (hstart : CopyStart g data v s₀ free₀) (hdata : data ⊆ g.blocks) (hi : i < g.maxPage) :
    ∃ s' free', dftlCopyPage g t v s i = .ok s' ∧
      DftlCopying g data v s₀ free₀ (i + 1) (i + 1) free' s' := by
  obtain ⟨s₁, free₁, hreplace, h₁, hroom⟩ := h.replace hstart hdata hi
  unfold dftlCopyPage
  rw [hreplace, ok_bind]
  by_cases hlive : isLive (s₁.dev.flashMemory v i)
  · obtain ⟨s₂, hprogram, h₂⟩ := h₁.copy (t := t) hstart hdata hi hroom rfl hlive
    refine ⟨countCopy t s₂, free₁, ?_, h₂⟩
    simp only
    rw [if_pos (show _ ∧ _ from hlive), hprogram]
    rfl
  · refine ⟨s₁, free₁, ?_, h₁.skip hstart hlive⟩
    simp only
    exact if_neg hlive

theorem CopyStart.copying (hstart : CopyStart g data v s₀ free₀) :
    DftlCopying g data v s₀ free₀ 0 0 free₀ s₀ := by
  refine ⟨?_, hstart.current, .same rfl ?_ ?_, fun _ _ _ => rfl, fun _ _ => rfl, ?_,
    GcKeeps.refl s₀, fun _ => rfl, fun _ _ => id⟩
  · rw [staleView_zero]
    exact hstart.rep
  · simp [livePages]
  · exact fun j hj => absurd hj (Nat.not_lt_zero j)
  · exact fun b hb hnot => absurd hb hnot

/-- The copying loop copies every live page of the victim. -/
theorem CopyStart.copyAll (hstart : CopyStart g data v s₀ free₀) (hdata : data ⊆ g.blocks) {n : Nat}
    (hn : n ≤ g.maxPage) :
    ∃ s' free', (List.range n).foldlM (dftlCopyPage g t v) s₀ = .ok s' ∧
      DftlCopying g data v s₀ free₀ n n free' s' := by
  induction n with
  | zero => exact ⟨s₀, free₀, rfl, hstart.copying⟩
  | succ n ih =>
    obtain ⟨s₁, free₁, hok₁, h₁⟩ := ih (by omega)
    obtain ⟨s₂, free₂, hok₂, h₂⟩ := h₁.round (t := t) hstart hdata (by omega)
    refine ⟨s₂, free₂, ?_, h₂⟩
    rw [List.range_succ, List.foldlM_append, hok₁, ok_bind, List.foldlM_cons, hok₂]
    rfl

/-- What `DFTLEraseOneBlock` leaves. -/
structure DftlErased (g : Geometry) (data : Finset Int) (v : Int) (s : Dftl) (free : List Int)
    (s' : Dftl) (free' : List Int) : Prop where
  rep : DataRep g data free' s'.dev.flashMemory s'
  current : CurrentBlk g data free' s'
  fresh : s'.currentDataBlkPageNum < g.maxPage → s'.dev.invalidPageCnt s'.currentDataBlkNum = 0
  budget :
    (overflows g s.dev s.currentDataBlkPageNum v ∧ free'.length = free.length ∧
      s'.currentDataBlkPageNum =
        s.currentDataBlkPageNum + livePages s.dev v g.maxPage - g.maxPage) ∨
    (¬ overflows g s.dev s.currentDataBlkPageNum v ∧ free'.length = free.length + 1 ∧
      s'.currentDataBlkPageNum = s.currentDataBlkPageNum + livePages s.dev v g.maxPage)
  same : SameVictims g (eraseBlock g s.dev v) s'.dev
  keeps : GcKeeps s s'
  list : ¬ Touches g s v → s'.cmtLRUList = s.cmtLRUList
  programmed : ∀ p ∈ g.pages, Programmed p data free s → Programmed p data free' s'

/-- The copying loop leaves the other victims as they were. -/
theorem DftlCopying.sameVictims (h : DftlCopying g data v s₀ free₀ i m free s)
    (hstart : CopyStart g data v s₀ free₀)
    (hfresh : s₀.currentDataBlkPageNum < g.maxPage →
      s₀.dev.invalidPageCnt s₀.currentDataBlkNum = 0) : SameVictims g s₀.dev s.dev := by
  have hzero : (0 : Int) ∈ g.pages := g.mem_pages.mpr ⟨le_rfl, by exact_mod_cast g.maxPage_pos⟩
  have hfree₀ : ∀ b ∈ free₀, collectable s₀.dev b = 0 := fun b hb =>
    collectable_eq_zero (.inr (hstart.rep.erased b hb 0 hzero))
  have hfree : ∀ b ∈ free₀, collectable s.dev b = 0 := by
    intro b hb
    apply collectable_eq_zero
    by_cases hbf : b ∈ free
    · exact .inr (h.rep.erased b hbf 0 hzero)
    · exact .inl (h.invalid_taken b hb hbf)
  have hroom : ∀ b, ¬ (b = s₀.currentDataBlkNum → s₀.currentDataBlkPageNum = g.maxPage) →
      s₀.dev.invalidPageCnt b = 0 := by
    intro b hb
    obtain ⟨hbc, hpage⟩ := Classical.not_imp.mp hb
    rw [hbc]
    exact hfresh (lt_of_le_of_ne hstart.current.page_le hpage)
  refine ⟨?_, ?_⟩
  · intro b _
    by_cases hb : b ∈ free₀
    · rw [hfree b hb, hfree₀ b hb]
    · by_cases hbc : b = s₀.currentDataBlkNum → s₀.currentDataBlkPageNum = g.maxPage
      · unfold collectable
        rw [h.pages b hb hbc, h.invalid_same b hb]
      · have hinv := hroom b hbc
        rw [collectable_eq_zero (.inl hinv),
          collectable_eq_zero (.inl ((h.invalid_same b hb).trans hinv))]
  · intro b _ hpos p _
    have hb : b ∉ free₀ := by
      intro hb
      rw [hfree₀ b hb] at hpos
      omega
    have hbc : b = s₀.currentDataBlkNum → s₀.currentDataBlkPageNum = g.maxPage := by
      by_contra hbc
      rw [collectable_eq_zero (.inl (hroom b hbc))] at hpos
      omega
    rw [h.pages b hb hbc]

/-- Erasing a block with an invalid page returns and keeps the invariant. -/
theorem CopyStart.erase (hstart : CopyStart g data v s₀ free₀) (hdata : data ⊆ g.blocks)
    (hfresh : s₀.currentDataBlkPageNum < g.maxPage →
      s₀.dev.invalidPageCnt s₀.currentDataBlkNum = 0) :
    ∃ s' free', dftlEraseOneBlock g t s₀ v = .ok s' ∧
      DftlErased g data v s₀ free₀ s' free' := by
  have hpos := g.maxPage_pos
  have hcurnot := hstart.current.unlisted
  have hnodup := hstart.rep.listed.nodup
  have hreserve := hstart.reserve
  obtain ⟨s₁, free₁, hok, h₁⟩ := hstart.copyAll (t := t) hdata le_rfl
  have hvcur : s₁.currentDataBlkNum ≠ v := h₁.target.ne_victim hstart hpos
  have hsame := h₁.sameVictims hstart hfresh
  have htarget : v ∉ free₁ ∧ free₁ ≠ [] ∧
      ((overflows g s₀.dev s₀.currentDataBlkPageNum v ∧ free₁.length + 1 = free₀.length ∧
          s₁.currentDataBlkPageNum + g.maxPage =
            s₀.currentDataBlkPageNum + livePages s₀.dev v g.maxPage ∧
          s₁.dev.invalidPageCnt s₁.currentDataBlkNum = 0) ∨
        (¬ overflows g s₀.dev s₀.currentDataBlkPageNum v ∧ free₁.length = free₀.length ∧
          s₁.currentDataBlkPageNum =
            s₀.currentDataBlkPageNum + livePages s₀.dev v g.maxPage ∧
          (s₁.currentDataBlkPageNum < g.maxPage →
            s₁.dev.invalidPageCnt s₁.currentDataBlkNum = 0))) := by
    have hnot := hstart.unlisted
    cases h₁.target with
    | same block page room =>
      refine ⟨hnot, List.ne_nil_of_length_pos (by omega), .inr ⟨?_, rfl, page, ?_⟩⟩
      · have hlast := room (g.maxPage - 1) (by omega)
        unfold overflows
        omega
      · intro hroom
        rw [block, h₁.invalid_same _ hcurnot]
        exact hfresh (by omega)
    | @taken a _ _ block page j hj hji full =>
      obtain ⟨hanot, -⟩ := List.nodup_cons.mp hnodup
      rw [List.length_cons] at hreserve ⊢
      refine ⟨fun hm => hnot (List.mem_cons_of_mem _ hm), List.ne_nil_of_length_pos (by omega),
        .inl ⟨?_, rfl, page, ?_⟩⟩
      · have hmono := livePages_mono s₀.dev v (show j ≤ g.maxPage - 1 by omega)
        unfold overflows
        omega
      · rw [block]
        exact h₁.invalid_taken a List.mem_cons_self hanot
  obtain ⟨hvfree, hnonempty, hbudget⟩ := htarget
  obtain ⟨hrep, hcur⟩ := h₁.rep.clean (t := t) h₁.current hstart.victim hvfree hnonempty hvcur.symm
  have hinvalid : ∀ b, b ≠ v →
      (dftlCleanBlock g t s₁ v).dev.invalidPageCnt b = s₁.dev.invalidPageCnt b := fun b hb =>
    Function.update_of_ne hb ..
  refine ⟨dftlCleanBlock g t s₁ v, free₁ ++ [v], ?_, ⟨hrep, hcur, ?_, ?_, ?_,
    ⟨h₁.keeps.lruOffset, h₁.keeps.stored⟩, h₁.list, ?_⟩⟩
  · unfold dftlEraseOneBlock
    rw [hok]
    rfl
  · intro hroom
    change s₁.currentDataBlkPageNum < g.maxPage at hroom
    change (dftlCleanBlock g t s₁ v).dev.invalidPageCnt s₁.currentDataBlkNum = 0
    rw [hinvalid _ hvcur]
    rcases hbudget with ⟨-, -, -, hzero⟩ | ⟨-, -, -, hzero⟩
    · exact hzero
    · exact hzero hroom
  · rw [List.length_append, List.length_singleton]
    rcases hbudget with ⟨hover, hlen, hpage, -⟩ | ⟨hfit, hlen, hpage, -⟩
    · exact .inl ⟨hover, by omega, by simp only [dftlCleanBlock]; omega⟩
    · exact .inr ⟨hfit, by omega, hpage⟩
  · exact (hsame.erase v).trans ⟨fun _ _ => rfl, fun _ _ _ _ _ => rfl⟩
  · intro p hp hprogrammed b hb hbf hbc
    simp only [List.mem_append, List.mem_singleton, not_or] at hbf
    have hpage : (dftlCleanBlock g t s₁ v).dev.flashMemory b = s₁.dev.flashMemory b :=
      Function.update_of_ne hbf.2 ..
    rw [hpage]
    exact h₁.programmed p hp hprogrammed b hb hbf.1 hbc

end Copying

section Collecting

variable {t : Timing} {data : Finset Int} {free : List Int} {s s' : Dftl}

/-- The blocks that a collection erases can all be selected before it. -/
theorem Collection.mem {d : Device} {page page' : Int} {victims : List Int}
    (h : Collection g d page victims page') :
    ∀ v ∈ victims, v ∈ g.blocks ∧ 0 < collectable d v := by
  have hzero : (0 : Int) ∈ g.pages := g.mem_pages.mpr ⟨le_rfl, by exact_mod_cast g.maxPage_pos⟩
  induction h with
  | last hv hfit =>
    intro v hm
    rw [List.mem_singleton.mp hm]
    exact dftlVictim_mem hv
  | @next d page page' rest hv hover tail ih =>
    intro v hm
    rcases List.mem_cons.mp hm with rfl | hm
    · exact dftlVictim_mem hv
    · obtain ⟨hmem, hpos⟩ := ih v hm
      refine ⟨hmem, ?_⟩
      unfold collectable at hpos ⊢
      rw [eraseBlock_page hzero] at hpos
      by_cases hvv : v = dftlVictim g d
      · rw [if_pos hvv] at hpos
        simp at hpos
      · rw [if_neg hvv] at hpos
        simpa only [eraseBlock, Function.update_of_ne hvv] using hpos

/-- The device determines its collection. -/
theorem Collection.unique {d : Device} {page page₁ page₂ : Int} {victims₁ victims₂ : List Int}
    (h₁ : Collection g d page victims₁ page₁) (h₂ : Collection g d page victims₂ page₂) :
    victims₁ = victims₂ ∧ page₁ = page₂ := by
  induction h₁ generalizing victims₂ page₂ with
  | last hv hfit =>
    cases h₂ with
    | last => exact ⟨rfl, rfl⟩
    | next hv' hover => exact absurd hover hfit
  | next hv hover tail ih =>
    cases h₂ with
    | last hv' hfit => exact absurd hover hfit
    | next hv' hover' tail' =>
      obtain ⟨rfl, rfl⟩ := ih tail'
      exact ⟨rfl, rfl⟩

/-- A collection leaves the current block at most full. -/
theorem Collection.page_le {d : Device} {page page' : Int} {victims : List Int}
    (h : Collection g d page victims page') : page' ≤ g.maxPage := by
  have hpos := g.maxPage_pos
  induction h with
  | @last d page hv hfit =>
    have hsucc := livePages_succ d (dftlVictim g d) (g.maxPage - 1)
    rw [Nat.sub_add_cancel hpos] at hsucc
    unfold overflows at hfit
    split at hsucc <;> omega
  | next _ _ _ ih => exact ih

/-- The invariant of the layer, once it has a current block. -/
structure DftlReady (g : Geometry) (data : Finset Int) (free : List Int) (s : Dftl) : Prop where
  rep : DataRep g data free s.dev.flashMemory s
  current : CurrentBlk g data free s
  reserve : g.leastFreeBlocksInFBL ≤ free.length

/-- A current block with room has no invalid page. -/
def FreshCurrent (g : Geometry) (s : Dftl) : Prop :=
  s.currentDataBlkPageNum < g.maxPage → s.dev.invalidPageCnt s.currentDataBlkNum = 0

/-- The selected block can be collected. -/
theorem DftlReady.copyStart (h : DftlReady g data free s) (hfresh : FreshCurrent g s)
    (hv : dftlVictim g s.dev ≠ -1) : CopyStart g data (dftlVictim g s.dev) s free := by
  have hzero : (0 : Int) ∈ g.pages := g.mem_pages.mpr ⟨le_rfl, by exact_mod_cast g.maxPage_pos⟩
  obtain ⟨hmem, hpos⟩ := dftlVictim_mem hv
  obtain ⟨hpage, -, hinvalid⟩ := collectable_pos hpos
  have hreserve := h.reserve
  have hleast := g.leastFreeBlocksInFBL_ge
  refine ⟨h.rep, h.current, ?_, ?_, by omega, ?_, hinvalid⟩
  · by_contra hnot
    rw [h.rep.other_invalid _ hmem hnot] at hinvalid
    omega
  · exact fun hm => hpage (h.rep.erased _ hm 0 hzero)
  · intro hcur
    by_contra hpage'
    have hnone := hfresh (lt_of_le_of_ne h.current.page_le hpage')
    rw [← hcur] at hnone
    omega

/-- What a collection that starts at the reserve leaves. -/
structure DftlCollected (g : Geometry) (data : Finset Int) (s : Dftl) (free : List Int)
    (s' : Dftl) (free' : List Int) (victims : List Int) : Prop where
  ready : DftlReady g data free' s'
  above : g.leastFreeBlocksInFBL < free'.length
  collection :
    Collection g s.dev s.currentDataBlkPageNum victims s'.currentDataBlkPageNum
  keeps : GcKeeps s s'
  list : (∀ v ∈ victims, ¬ Touches g s v) → s'.cmtLRUList = s.cmtLRUList
  programmed : ∀ p ∈ g.pages, Programmed p data free s → Programmed p data free' s'

/-- Above the reserve there is nothing to collect. -/
theorem dftlGarbageCollection_above (hlisted : FreeListed data free s.dev)
    (hdata : data ⊆ g.blocks) {fuel : Nat} (hlt : g.leastFreeBlocksInFBL < free.length)
    (hok : dftlGarbageCollection g t fuel s = .ok s') : s = s' := by
  cases fuel with
  | zero => cases hok
  | succ fuel =>
    unfold dftlGarbageCollection at hok
    have hcheck := checkFreeBlock_eq_neg_one hlisted hdata
    rw [if_pos (by rw [Ne, hcheck]; omega)] at hok
    exact Except.ok.inj hok

/-- A collection that returns erases the blocks that are determined before it, and keeps the
invariant. -/
theorem DftlReady.collect (hdata : data ⊆ g.blocks) {fuel : Nat} (h : DftlReady g data free s)
    (hfresh : FreshCurrent g s) (hlen : free.length = g.leastFreeBlocksInFBL)
    (hok : dftlGarbageCollection g t fuel s = .ok s') :
    ∃ free' victims, DftlCollected g data s free s' free' victims := by
  induction fuel generalizing s free with
  | zero => cases hok
  | succ fuel ih =>
    have hcheck := checkFreeBlock_eq_neg_one h.rep.listed hdata
    unfold dftlGarbageCollection at hok
    rw [if_neg (by rw [Ne, hcheck]; omega)] at hok
    change (if dftlVictim g s.dev = -1 then Except.error Fault.exit else
      dftlEraseOneBlock g t s (dftlVictim g s.dev) >>= dftlGarbageCollection g t fuel) = _ at hok
    split at hok
    · cases hok
    · rename_i hv
      have hstart := h.copyStart hfresh hv
      obtain ⟨s₁, free₁, hok₁, h₁⟩ := hstart.erase (t := t) hdata hfresh
      rw [hok₁, ok_bind] at hok
      rcases h₁.budget with ⟨hover, hlen₁, hpage₁⟩ | ⟨hfit, hlen₁, hpage₁⟩
      · have hready₁ : DftlReady g data free₁ s₁ := ⟨h₁.rep, h₁.current, by omega⟩
        obtain ⟨free', rest, h'⟩ := ih hready₁ h₁.fresh (by omega) hok
        have hrest := h'.collection.congr h₁.same
        rw [hpage₁] at hrest
        refine ⟨free', _, h'.ready, h'.above, .next hv hover hrest, h₁.keeps.trans h'.keeps, ?_, ?_⟩
        · intro hquiet
          have hlist₁ := h₁.list (hquiet _ List.mem_cons_self)
          refine (h'.list ?_).trans hlist₁
          rintro v hm ⟨p, hp, hpage, hkey, hcached⟩
          rw [hlist₁] at hpage hkey hcached
          rw [h₁.keeps.lruOffset] at hcached
          obtain ⟨hmem, hpos⟩ := hrest.mem v hm
          rw [h₁.same.pages v hmem hpos p hp, eraseBlock_page hp] at hpage
          refine hquiet v (List.mem_cons_of_mem _ hm) ⟨p, hp, ?_, hkey, hcached⟩
          split at hpage
          · rw [← hpage] at hkey
            exact absurd hkey (by decide)
          · exact hpage
        · exact fun p hp hprogrammed => h'.programmed p hp (h₁.programmed p hp hprogrammed)
      · obtain rfl := dftlGarbageCollection_above h₁.rep.listed hdata (by omega) hok
        refine ⟨free₁, [dftlVictim g s.dev], ⟨h₁.rep, h₁.current, by omega⟩, by omega, ?_, h₁.keeps,
          ?_, h₁.programmed⟩
        · rw [hpage₁]
          exact .last hv hfit
        · exact fun hquiet => h₁.list (hquiet _ List.mem_cons_self)

end Collecting

end WiscKey.Flash
