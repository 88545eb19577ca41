import WiscKey.Flash.TraceRounds
import Mathlib.Data.Finset.Card
import Mathlib.Data.Int.Interval
import Mathlib.Tactic.Ring

/-!
# The maps of the accessed pages

Every operation of the trace sets the flags of its pages, and a counter keeps the number of the
flags that are set. In the mode of pages the loop runs over the pages of the addresses. In the
mode of sub-pages it takes the number of addresses for the number of pages.
-/

namespace WiscKey.Flash

/-- An address of the entry lies in the logical page. -/
def OperationRange.Overlaps (ratio : Nat) (r : OperationRange) (p : Int) : Prop :=
  ∃ lba, r.startLBA ≤ lba ∧ lba ≤ r.endLBA ∧ p * ratio ≤ lba ∧ lba < (p + 1) * ratio

/-- The indices of the maps: `MaxPage*MaxBlock` many. -/
def TraceSetup.mapIndices (c : TraceSetup) : Finset Int :=
  intRange (c.geometry.maxPage * c.geometry.maxBlock)

/-- The flags that are set in `AccessedLogicalPageMap`. -/
def TraceSetup.flags (c : TraceSetup) (s : AccessedPages) : Finset Int :=
  c.mapIndices.filter fun i => s.accessedLogicalPageMap i = true

/-- `AccessedLogicalPages` is the number of the flags. -/
def TraceSetup.Counts (c : TraceSetup) (s : AccessedPages) : Prop :=
  s.accessedLogicalPages = (c.flags s).card

/-- What the accounts require of an event: an operation goes through the pages that its addresses
overlap, inside the map, and sets their flags, and the counter stays right. -/
def TraceSetup.Accounts (c : TraceSetup) (s : TraceReplay) : TraceEvent → TraceReplay → Prop
  | .call call r op, s' =>
    (∀ p, p ∈ c.pageIndices call.subPageLevel op ↔ r.Overlaps c.geometry.pageToLBARatio p) ∧
    (∀ p ∈ c.pageIndices call.subPageLevel op, p ∈ c.mapIndices) ∧
    (∀ p, s'.pages.accessedLogicalPageMap p = true ↔ s.pages.accessedLogicalPageMap p = true ∨
      r.Overlaps c.geometry.pageToLBARatio p) ∧ c.Counts s'.pages
  | .layer .., s' => c.Counts s'.pages

/-- The addresses lie in the pages of the map, and in the mode of sub-pages there are as many of
them as pages: a page is a sub-page, or there is one address, or the last sub-page of a page and
the first of the next. An operation without addresses must not round to a page. -/
def TraceSetup.PagesFit (c : TraceSetup) (subPageLevel : Bool) (r : OperationRange) : Prop :=
  (r.startLBA ≤ r.endLBA ∧ 0 ≤ r.startLBA ∧
    r.endLBA < (c.geometry.maxPage * c.geometry.maxBlock : Nat) * c.geometry.pageToLBARatio ∧
    (subPageLevel = true → c.geometry.pageToLBARatio = 1 ∨ r.endLBA = r.startLBA ∨
      (r.endLBA = r.startLBA + 1 ∧ (c.geometry.pageToLBARatio : Int) ∣ r.endLBA))) ∨
  (r.endLBA < r.startLBA ∧ (subPageLevel = false →
    r.endLBA.tdiv c.geometry.pageToLBARatio < r.startLBA.tdiv c.geometry.pageToLBARatio))

/-- The entry fits, and a translation layer marks pages of the map that were not marked. -/
def TraceSetup.EventFits (c : TraceSetup) (s : TraceReplay) : TraceEvent → Prop
  | .call call r _ => c.PagesFit call.subPageLevel r
  | .layer first n => ∀ i, first ≤ i → i < first + n →
      i ∈ c.mapIndices ∧ s.pages.accessedLogicalPageMap i = false

section Overlap

variable {ratio : Nat} {r : OperationRange} {p : Int}

/-- The pages of the addresses run from the one of the first to the one of the last. -/
theorem OperationRange.overlaps_iff (hratio : 0 < ratio) (hle : r.startLBA ≤ r.endLBA) :
    r.Overlaps ratio p ↔ r.startLBA / ratio ≤ p ∧ p ≤ r.endLBA / ratio := by
  have hpos : (0 : Int) < ratio := by exact_mod_cast hratio
  have hfirst : r.startLBA / ratio ≤ p ↔ r.startLBA < (p + 1) * ratio := by
    rw [← Int.lt_add_one_iff]
    exact Int.ediv_lt_iff_lt_mul hpos
  have hwidth : p * ratio < (p + 1) * ratio := by
    rw [Int.add_mul]
    omega
  rw [hfirst, Int.le_ediv_iff_mul_le hpos]
  constructor
  · rintro ⟨lba, hstart, hend, hlow, hhigh⟩
    exact ⟨hstart.trans_lt hhigh, hlow.trans hend⟩
  · rintro ⟨hbefore, hbehind⟩
    exact ⟨max r.startLBA (p * ratio), le_max_left _ _, max_le hle hbehind, le_max_right _ _,
      max_lt hbefore hwidth⟩

theorem OperationRange.not_overlaps (hlt : r.endLBA < r.startLBA) : ¬ r.Overlaps ratio p := by
  rintro ⟨lba, hstart, hend, -⟩
  omega

/-- Addresses that are no more than the pages they lie in. -/
theorem addresses_le_pages_iff {ρ a b : Int} (hρ : 0 < ρ) (hab : a ≤ b) :
    b - a ≤ b / ρ - a / ρ ↔ ρ = 1 ∨ b = a ∨ (b = a + 1 ∧ ρ ∣ b) := by
  constructor
  · intro hle
    have ha := Int.mul_ediv_add_emod a ρ
    have hb := Int.mul_ediv_add_emod b ρ
    have ha1 := Int.emod_lt_of_pos a hρ
    have hb0 := Int.emod_nonneg b hρ.ne'
    by_cases hone : ρ = 1
    · exact .inl hone
    · right
      -- Every page but the first and the last has `ρ` addresses.
      have hfew : b / ρ - a / ρ ≤ 1 := by
        by_contra hmany
        have hk : 2 * (ρ - 1) ≤ (b / ρ - a / ρ) * (ρ - 1) :=
          Int.mul_le_mul_of_nonneg_right (by omega) (by omega)
        have hexpand : (b / ρ - a / ρ) * (ρ - 1) = ρ * (b / ρ) - ρ * (a / ρ) -
            (b / ρ - a / ρ) := by ring
        omega
      rcases eq_or_lt_of_le hab with heq | hlt
      · exact .inl heq.symm
      · have hnext : b / ρ = a / ρ + 1 := by omega
        rw [hnext, Int.mul_add, Int.mul_one] at hb
        exact .inr ⟨by omega, Int.dvd_of_emod_eq_zero (by omega)⟩
  · rintro (rfl | rfl | ⟨rfl, hdvd⟩)
    · rw [Int.ediv_one, Int.ediv_one]
    · omega
    · have hlt : a / ρ < (a + 1) / ρ := by
        rw [Int.ediv_lt_iff_lt_mul hρ, Int.ediv_mul_cancel hdvd]
        omega
      omega

/-- There are never more pages than addresses. -/
theorem pages_le_addresses {ρ a b : Int} (hρ : 0 < ρ) (hab : a ≤ b) :
    b / ρ - a / ρ ≤ b - a := by
  have hstart := Int.lt_ediv_add_one_mul_self a hρ
  have hsteps : b - a ≤ (b - a) * ρ := le_mul_of_one_le_right (by omega) (by omega)
  have hlt : b / ρ < a / ρ + 1 + (b - a) := by
    rw [Int.ediv_lt_iff_lt_mul hρ, Int.add_mul]
    omega
  omega

end Overlap

section Indices

variable {c : TraceSetup} {r : OperationRange} {op : Operation} {subPageLevel : Bool} {p : Int}

/-- The operation made of an entry. -/
theorem translate_eq_ok (h : c.translate subPageLevel r = .ok op) :
    op = ⟨r.accessType, c.toCluster subPageLevel r.startLBA,
      c.toCluster subPageLevel r.endLBA - c.toCluster subPageLevel r.startLBA + 1⟩ := by
  unfold TraceSetup.translate at h
  simp only at h
  by_cases hsteps : IsInt (c.toCluster subPageLevel r.endLBA -
      c.toCluster subPageLevel r.startLBA)
  · rw [sumInt_of_isInt Int.sub_eq_add_neg.symm hsteps, ok_bind] at h
    by_cases hlength : IsInt (c.toCluster subPageLevel r.endLBA -
        c.toCluster subPageLevel r.startLBA + 1)
    · rw [sumInt_of_isInt rfl hlength, ok_bind] at h
      exact (Except.ok.inj h).symm
    · rw [sumInt_of_not rfl hlength] at h
      cases h
  · rw [sumInt_of_not Int.sub_eq_add_neg.symm hsteps] at h
    cases h

/-- The number of pages behind the first one that the loop goes through. -/
def TraceSetup.steps (c : TraceSetup) (subPageLevel : Bool) (r : OperationRange) : Int :=
  c.toCluster subPageLevel r.endLBA - c.toCluster subPageLevel r.startLBA

theorem mem_pageIndices (h : c.translate subPageLevel r = .ok op) :
    p ∈ c.pageIndices subPageLevel op ↔ r.startLBA.tdiv c.geometry.pageToLBARatio ≤ p ∧
      p ≤ r.startLBA.tdiv c.geometry.pageToLBARatio + c.steps subPageLevel r := by
  have hfirst : (if subPageLevel then op.startCluster.tdiv c.geometry.maxSubPage
      else op.startCluster) = r.startLBA.tdiv c.geometry.pageToLBARatio := by
    rw [translate_eq_ok h]
    cases subPageLevel with
    | true => rfl
    | false => rfl
  have hlength : op.length = c.steps subPageLevel r + 1 := by
    rw [translate_eq_ok h]
    rfl
  simp only [TraceSetup.pageIndices, hfirst, List.mem_map, List.mem_range]
  constructor
  · rintro ⟨i, hi, rfl⟩
    omega
  · rintro ⟨hlow, hhigh⟩
    exact ⟨(p - r.startLBA.tdiv c.geometry.pageToLBARatio).toNat, by omega, by omega⟩

/-- The loop goes through the pages of the addresses, inside the map, exactly when the entry
fits. -/
theorem pagesFit_iff (h : c.translate subPageLevel r = .ok op) :
    ((∀ p, p ∈ c.pageIndices subPageLevel op ↔ r.Overlaps c.geometry.pageToLBARatio p) ∧
      ∀ p ∈ c.pageIndices subPageLevel op, p ∈ c.mapIndices) ↔ c.PagesFit subPageLevel r := by
  have hratio := c.geometry.pageToLBARatio_pos
  have hρ : (0 : Int) < c.geometry.pageToLBARatio := by exact_mod_cast hratio
  constructor
  · rintro ⟨hexact, hinside⟩
    rcases le_or_gt r.startLBA r.endLBA with hle | hlt
    · left
      have hpages := Int.ediv_le_ediv hρ hle
      have hfirst := hinside _ ((hexact _).mpr ((r.overlaps_iff hratio hle).mpr ⟨le_rfl, hpages⟩))
      have hlast := hinside _ ((hexact _).mpr ((r.overlaps_iff hratio hle).mpr ⟨hpages, le_rfl⟩))
      have hstart : 0 ≤ r.startLBA :=
        (Int.ediv_nonneg_iff_of_pos hρ).mp (mem_intRange.mp hfirst).1
      refine ⟨hle, hstart, (Int.ediv_lt_iff_lt_mul hρ).mp (mem_intRange.mp hlast).2, ?_⟩
      rintro rfl
      have hsteps : c.steps true r = r.endLBA - r.startLBA := rfl
      have hmem : r.startLBA.tdiv c.geometry.pageToLBARatio + c.steps true r ∈
          c.pageIndices true op := (mem_pageIndices h).mpr ⟨by omega, le_rfl⟩
      have hupper := ((r.overlaps_iff hratio hle).mp ((hexact _).mp hmem)).2
      rw [hsteps, Int.tdiv_eq_ediv_of_nonneg hstart] at hupper
      have hcases := (addresses_le_pages_iff hρ hle).mp (by omega)
      exact_mod_cast hcases
    · refine .inr ⟨hlt, ?_⟩
      rintro rfl
      by_contra hpage
      have hsteps : c.steps false r = r.endLBA.tdiv c.geometry.pageToLBARatio -
          r.startLBA.tdiv c.geometry.pageToLBARatio := rfl
      have hmem : r.startLBA.tdiv c.geometry.pageToLBARatio ∈ c.pageIndices false op :=
        (mem_pageIndices h).mpr ⟨le_rfl, by omega⟩
      exact r.not_overlaps hlt ((hexact _).mp hmem)
  · rintro (⟨hle, hstart, hend, hsub⟩ | ⟨hlt, hpage⟩)
    · have hlast : r.startLBA.tdiv c.geometry.pageToLBARatio + c.steps subPageLevel r =
          r.endLBA / c.geometry.pageToLBARatio := by
        unfold TraceSetup.steps TraceSetup.toCluster
        cases subPageLevel with
        | true =>
          have hfew := (addresses_le_pages_iff hρ hle).mpr (by exact_mod_cast hsub rfl)
          have hmany := pages_le_addresses hρ hle
          rw [if_pos rfl, if_pos rfl, Int.tdiv_eq_ediv_of_nonneg hstart]
          omega
        | false =>
          rw [if_neg Bool.false_ne_true, if_neg Bool.false_ne_true,
            Int.tdiv_eq_ediv_of_nonneg hstart, Int.tdiv_eq_ediv_of_nonneg (hstart.trans hle)]
          omega
      have hmem : ∀ p, p ∈ c.pageIndices subPageLevel op ↔
          r.startLBA / c.geometry.pageToLBARatio ≤ p ∧
            p ≤ r.endLBA / c.geometry.pageToLBARatio := fun p => by
        rw [mem_pageIndices h, hlast, Int.tdiv_eq_ediv_of_nonneg hstart]
      have hfirst := Int.ediv_nonneg hstart hρ.le
      have hbound := (Int.ediv_lt_iff_lt_mul hρ).mpr hend
      refine ⟨fun p => (hmem p).trans (r.overlaps_iff hratio hle).symm, fun p hp => ?_⟩
      have hp' := (hmem p).mp hp
      exact mem_intRange.mpr ⟨by omega, by omega⟩
    · have hnone : ∀ p, p ∉ c.pageIndices subPageLevel op := by
        intro p hp
        have hp' := (mem_pageIndices h).mp hp
        unfold TraceSetup.steps TraceSetup.toCluster at hp'
        cases subPageLevel with
        | true =>
          rw [if_pos rfl, if_pos rfl] at hp'
          omega
        | false =>
          have hrounded := hpage rfl
          rw [if_neg Bool.false_ne_true, if_neg Bool.false_ne_true] at hp'
          omega
      exact ⟨fun p => iff_of_false (hnone p) (r.not_overlaps hlt),
        fun p hp => absurd hp (hnone p)⟩

end Indices

section Calls

variable {c : TraceSetup} {file : Bytes} {v : ScanVars} {call : TraceCall} {s s' : TraceReplay}
  {r : OperationRange} {op : Operation}

theorem handOut_pages (h : c.handOut call s = .ok (.operation r op, s')) :
    c.translate call.subPageLevel r = .ok op ∧
      s'.pages = (c.pageIndices call.subPageLevel op).foldl AccessedPages.touch s.pages := by
  unfold TraceSetup.handOut at h
  simp only at h
  split at h
  · cases h
  · split at h
    · cases h
    · split at h
      · cases h
      · rename_i htranslate
        cases h
        exact ⟨htranslate, rfl⟩

theorem nextOperation_pages (h : c.nextOperation call s = .ok (.operation r op, s')) :
    c.translate call.subPageLevel r = .ok op ∧
      s'.pages = (c.pageIndices call.subPageLevel op).foldl AccessedPages.touch s.pages := by
  unfold TraceSetup.nextOperation at h
  simp only at h
  split at h
  · cases h
  · split at h
    · split at h
      · exact @handOut_pages c call s.rewind s' r op h
      · cases h
    · exact handOut_pages h

/-- The maps that a call updates. Those of the simulation are still the same. -/
theorem getOneOperation_pages (h : c.getOneOperation file v call s = .ok (.operation r op, s')) :
    c.translate call.subPageLevel r = .ok op ∧ ∃ t : AccessedPages,
      t.accessedLogicalPages = s.pages.accessedLogicalPages ∧
      t.accessedLogicalPageMap = s.pages.accessedLogicalPageMap ∧
      s'.pages = (c.pageIndices call.subPageLevel op).foldl AccessedPages.touch t := by
  unfold TraceSetup.getOneOperation TraceSetup.load at h
  split at h
  · cases h
  · rename_i s₁ hload
    obtain ⟨htranslate, hpages⟩ := nextOperation_pages h
    refine ⟨htranslate, s₁.pages, ?_, ?_, hpages⟩
    all_goals
      split at hload
      · cases hload
        rfl
      · split at hload
        · cases hload
        · cases hload
          rfl

/-- An event leads to one state. -/
theorem TraceStep.unique {e : TraceEvent} {s₁ s₂ : TraceReplay} (h₁ : TraceStep c file v s e s₁)
    (h₂ : TraceStep c file v s e s₂) : s₁ = s₂ := by
  cases h₁ with
  | call h₁ =>
    cases h₂ with
    | call h₂ =>
      rw [h₁] at h₂
      cases h₂
      rfl
  | layer first n =>
    cases h₂
    rfl

end Calls

section Counts

variable {c : TraceSetup} {s : AccessedPages}

theorem TraceSetup.mem_flags {i : Int} :
    i ∈ c.flags s ↔ i ∈ c.mapIndices ∧ s.accessedLogicalPageMap i = true := Finset.mem_filter

theorem AccessedPages.touch_map (p : Int) :
    (s.touch p).accessedLogicalPageMap = Function.update s.accessedLogicalPageMap p true := rfl

/-- The flags that the loop sets are those of its pages. -/
theorem foldl_touch_map {pages : List Int} {p : Int} :
    (pages.foldl AccessedPages.touch s).accessedLogicalPageMap p = true ↔
      s.accessedLogicalPageMap p = true ∨ p ∈ pages := by
  induction pages generalizing s with
  | nil => simp
  | cons q pages ih =>
    rw [List.foldl_cons, ih, List.mem_cons, ← or_assoc, AccessedPages.touch_map]
    refine or_congr ?_ Iff.rfl
    rcases eq_or_ne p q with rfl | hne
    · rw [Function.update_self]
      exact iff_of_true rfl (.inr rfl)
    · rw [Function.update_of_ne hne]
      exact (or_iff_left hne).symm

/-- The flag of a page of the map is counted when it is set. -/
theorem TraceSetup.Counts.touch (h : c.Counts s) {p : Int} (hp : p ∈ c.mapIndices) :
    c.Counts (s.touch p) := by
  have hflags : c.flags (s.touch p) = insert p (c.flags s) := by
    ext q
    rw [TraceSetup.mem_flags, Finset.mem_insert, TraceSetup.mem_flags, AccessedPages.touch_map]
    rcases eq_or_ne q p with rfl | hne
    · rw [Function.update_self]
      exact iff_of_true ⟨hp, rfl⟩ (.inl rfl)
    · rw [Function.update_of_ne hne]
      exact (or_iff_right hne).symm
  unfold TraceSetup.Counts at h ⊢
  rw [hflags]
  simp only [AccessedPages.touch]
  split
  · rename_i hset
    rw [Finset.insert_eq_of_mem (TraceSetup.mem_flags.mpr ⟨hp, hset⟩), h]
  · rename_i hclear
    rw [Finset.card_insert_of_notMem fun hmem => hclear (TraceSetup.mem_flags.mp hmem).2, h]
    rfl

theorem TraceSetup.Counts.foldl_touch {pages : List Int} (h : c.Counts s)
    (hpages : ∀ p ∈ pages, p ∈ c.mapIndices) :
    c.Counts (pages.foldl AccessedPages.touch s) := by
  induction pages generalizing s with
  | nil => exact h
  | cons p pages ih =>
    obtain ⟨hp, hrest⟩ := List.forall_mem_cons.mp hpages
    exact ih (h.touch hp) hrest

/-- A layer's number of pages is right exactly when they are pages of the map without a flag. -/
theorem TraceSetup.Counts.claim_iff (h : c.Counts s) {first : Int} {n : Nat} :
    c.Counts (s.claim first n) ↔ ∀ i, first ≤ i → i < first + n →
      i ∈ c.mapIndices ∧ s.accessedLogicalPageMap i = false := by
  have hflags : c.flags (s.claim first n) =
      c.flags s ∪ (Finset.Ico first (first + n)).filter
        fun i => i ∈ c.mapIndices ∧ s.accessedLogicalPageMap i = false := by
    ext i
    have hclaim : (s.claim first n).accessedLogicalPageMap i =
        (s.accessedLogicalPageMap i || (first ≤ i && i < first + n)) := rfl
    rw [TraceSetup.mem_flags, Finset.mem_union, TraceSetup.mem_flags, Finset.mem_filter,
      Finset.mem_Ico, hclaim]
    cases s.accessedLogicalPageMap i with
    | true => simp
    | false => simp [and_comm]
  have hdisjoint : Disjoint (c.flags s) ((Finset.Ico first (first + n)).filter
      fun i => i ∈ c.mapIndices ∧ s.accessedLogicalPageMap i = false) := by
    rw [Finset.disjoint_left]
    intro i hset hnew
    have hclear := (Finset.mem_filter.mp hnew).2.2
    rw [(TraceSetup.mem_flags.mp hset).2] at hclear
    cases hclear
  have hcard : (Finset.Ico first (first + n)).card = n := by simp
  have hcount : (s.claim first n).accessedLogicalPages = s.accessedLogicalPages + n := rfl
  have hall := @Finset.card_filter_eq_iff _ (Finset.Ico first (first + n))
    (fun i => i ∈ c.mapIndices ∧ s.accessedLogicalPageMap i = false) _
  unfold TraceSetup.Counts at h ⊢
  rw [hflags, Finset.card_union_of_disjoint hdisjoint, hcount, h]
  rw [hcard] at hall
  constructor
  · intro heq i hlow hhigh
    exact hall.mp (by push_cast at heq; omega) i (Finset.mem_Ico.mpr ⟨hlow, hhigh⟩)
  · intro hnew
    have hfull := hall.mpr fun i hi => hnew i (Finset.mem_Ico.mp hi).1 (Finset.mem_Ico.mp hi).2
    push_cast
    omega

end Counts

/-- An event keeps the accounts exactly when it fits. -/
theorem TraceStep.accounts_iff {c : TraceSetup} {file : Bytes} {v : ScanVars} {e : TraceEvent}
    {s s' : TraceReplay} (hcounts : c.Counts s.pages) (h : TraceStep c file v s e s') :
    c.Accounts s e s' ↔ c.EventFits s e := by
  cases h with
  | layer first n => exact hcounts.claim_iff
  | call h =>
    obtain ⟨htranslate, t, hcount, hmap, hpages⟩ := getOneOperation_pages h
    have hfit := pagesFit_iff htranslate
    constructor
    · rintro ⟨hexact, hinside, -, -⟩
      exact hfit.mp ⟨hexact, hinside⟩
    · intro hfits
      obtain ⟨hexact, hinside⟩ := hfit.mpr hfits
      refine ⟨hexact, hinside, fun p => ?_, ?_⟩
      · rw [hpages, foldl_touch_map, hmap, hexact]
      · rw [hpages]
        have hstart : c.Counts t := by
          unfold TraceSetup.Counts TraceSetup.flags at hcounts ⊢
          rw [hcount, hmap]
          exact hcounts
        exact hstart.foldl_touch hinside

/-- The counter is right after an event that keeps the accounts. -/
theorem TraceSetup.Accounts.counts {c : TraceSetup} {e : TraceEvent} {s s' : TraceReplay}
    (h : c.Accounts s e s') : c.Counts s'.pages := by
  cases e with
  | layer first n => exact h
  | call call r op => exact h.2.2.2

/-- Before the first event no flag is set. -/
theorem counts_init (c : TraceSetup) : c.Counts TraceReplay.init.pages := by
  have hnone : c.flags TraceReplay.init.pages = ∅ :=
    Finset.filter_eq_empty_iff.mpr fun _ _ => Bool.false_ne_true
  unfold TraceSetup.Counts
  rw [hnone]
  rfl

/-- A run keeps the accounts at every event exactly when every event fits. -/
theorem traceRun_accounts_iff (c : TraceSetup) (lines : List TraceLine) (v : ScanVars)
    {events : List TraceEvent} {s : TraceReplay}
    (hrun : Run (TraceStep c (traceText lines) v) .init events s) :
    Throughout (TraceStep c (traceText lines) v)
        (fun s e => ∀ s', TraceStep c (traceText lines) v s e s' → c.Accounts s e s') .init events ↔
      Throughout (TraceStep c (traceText lines) v) c.EventFits .init events := by
  refine Throughout.congr_run (fun s => c.Counts s.pages) (fun _ _ _ _ => TraceStep.unique)
    ?_ ?_ hrun (counts_init c)
  · intro s e s' hcounts hfits hstep
    exact ((hstep.accounts_iff hcounts).mpr hfits).counts
  · intro s e s' hcounts hstep
    rw [← hstep.accounts_iff hcounts]
    exact ⟨fun hall => hall s' hstep, fun hone s₂ hs₂ => hstep.unique hs₂ ▸ hone⟩

/-- The first call on the file of one line returns its operation, whatever the mode. -/
theorem oneLine_first (v : ScanVars) (subPageLevel : Bool) : ∃ s,
    TraceStep onceThrough (traceText [writeLine]) v .init
      (.call ⟨subPageLevel, 0, 0⟩ ⟨.writeType, 0, 7⟩ ⟨.writeType, 0, if subPageLevel then 8 else 1⟩)
      s := by
  have hwithin : ∀ r ∈ [⟨.writeType, 0, 7⟩, ⟨.writeType, 0, 7⟩], onceThrough.Within r := by
    intro r hr
    rcases List.mem_pair.mp hr with rfl | rfl
    · exact ⟨by decide, by decide, by decide⟩
    · exact ⟨by decide, by decide, by decide⟩
  rcases @getOneOperation_cases onceThrough v _ _ ⟨subPageLevel, 0, 0⟩ .init 0
      (oneLine_storedTwice v) hwithin started_init with
    ⟨hworn, -⟩ | ⟨-, hle, -⟩ | ⟨hnil, -⟩ | ⟨r, hr, s, hget, -⟩
  · cases hworn
  · exact absurd hle (by decide)
  · cases hnil
  · have hrange : r = ⟨.writeType, 0, 7⟩ := by
      rcases List.mem_pair.mp hr with rfl | rfl
      · rfl
      · rfl
    subst hrange
    cases subPageLevel with
    | true => exact ⟨s, .call hget⟩
    | false => exact ⟨s, .call hget⟩

/-- In the mode of pages the operation of the file keeps the accounts. -/
theorem traceRun_accounts_page :
    Throughout (TraceStep onceThrough (traceText [writeLine]) writeLine.vars)
      (fun s e => ∀ s', TraceStep onceThrough (traceText [writeLine]) writeLine.vars s e s' →
        onceThrough.Accounts s e s') .init
      [.call ⟨false, 0, 0⟩ ⟨.writeType, 0, 7⟩ ⟨.writeType, 0, 1⟩] := by
  obtain ⟨s, hstep⟩ := oneLine_first writeLine.vars false
  refine (traceRun_accounts_iff onceThrough [writeLine] writeLine.vars (.cons hstep (.nil s))).mpr
    ⟨.inl ⟨by decide, by decide, by decide, fun h => (nomatch h)⟩, fun _ _ => trivial⟩

/-- In the mode of sub-pages the eight sectors of page 0 set the flags of eight pages. -/
theorem traceRun_flagsEight : ∃ (c : TraceSetup) (lines : List TraceLine) (v : ScanVars)
    (events : List TraceEvent) (s : TraceReplay),
    Run (TraceStep c (traceText lines) v) .init events s ∧
      ¬ Throughout (TraceStep c (traceText lines) v) (fun s e => ∀ s',
        TraceStep c (traceText lines) v s e s' → c.Accounts s e s') .init events := by
  obtain ⟨s, hstep⟩ := oneLine_first writeLine.vars true
  refine ⟨onceThrough, [writeLine], writeLine.vars, _, s, .cons hstep (.nil s), fun h => ?_⟩
  have hexact := (h.1 s hstep).1 7
  have hmem : (7 : Int) ∈ onceThrough.pageIndices true ⟨.writeType, 0, 8⟩ := by decide
  obtain ⟨lba, -, hend, hlow, -⟩ := hexact.mp hmem
  have hratio : onceThrough.geometry.pageToLBARatio = 8 := rfl
  rw [hratio] at hlow
  have hlast : lba ≤ 7 := hend
  omega

end WiscKey.Flash
