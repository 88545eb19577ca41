import WiscKey.Flash.FtlInit

/-!
# Clusters in their places

The translation layers without a page table find a cluster by where it may be. The pages
are well placed when every page that holds a cluster is at a place of that cluster, and no
cluster has two pages. Programming a page, giving one up and rebuilding a block keep them so.
-/

namespace WiscKey.Flash

variable (g : Geometry)

/-- Some page of the device holds the cluster. -/
def Stored (fm : Int → Int → Int) (c : Int) : Prop := ∃ b ∈ g.blocks, ∃ p ∈ g.pages, fm b p = c

/-- Every page of a good block is free, invalid or holds a cluster, at one of the places the
cluster has, and no cluster has two pages. -/
structure Placed (good : Finset Int) (fm : Int → Int → Int) (place : Int → Int → Int → Prop) :
    Prop where
  content : ∀ b ∈ good, ∀ p ∈ g.pages, fm b p = freePage ∨ fm b p = invalidPage ∨ 0 ≤ fm b p
  bad_unused : ∀ b ∈ g.blocks, b ∉ good → ∀ p ∈ g.pages, fm b p < 0
  home : ∀ b ∈ g.blocks, ∀ p ∈ g.pages, 0 ≤ fm b p → place (fm b p) b p
  unique : ∀ b ∈ g.blocks, ∀ p ∈ g.pages, ∀ b' ∈ g.blocks, ∀ p' ∈ g.pages,
    fm b p = fm b' p' → 0 ≤ fm b p → b = b' ∧ p = p'

/-- The pages once a cluster is gone from them. -/
structure Dropped (c : Int) (fm fm' : Int → Int → Int) : Prop where
  gone : ∀ b ∈ g.blocks, ∀ p ∈ g.pages, fm b p = c → fm' b p = invalidPage
  kept : ∀ b ∈ g.blocks, ∀ p ∈ g.pages, fm b p ≠ c → fm' b p = fm b p

/-- The clusters `moved` have gone to their own pages of block `fb`. The other clusters have
not moved, and no page holds a cluster that it did not hold before. -/
structure Rebuilt (fb : Int) (moved : Int → Prop) (fm fm' : Int → Int → Int) : Prop where
  cluster : ∀ b ∈ g.blocks, ∀ p ∈ g.pages, 0 ≤ fm' b p →
    (moved (fm' b p) ∧ b = fb ∧ p = g.logicalPage (fm' b p)) ∨
      (¬ moved (fm' b p) ∧ fm' b p = fm b p)
  holds : ∀ c, moved c → fm' fb (g.logicalPage c) = c
  kept : ∀ b ∈ g.blocks, ∀ p ∈ g.pages, 0 ≤ fm b p → ¬ moved (fm b p) → fm' b p = fm b p
  stored : ∀ c, moved c → 0 ≤ c ∧ Stored g fm c

variable {g} {good : Finset Int} {fm fm' : Int → Int → Int} {place place' : Int → Int → Int → Prop}
  {b p c fb : Int}

/-- Pages without a cluster are well placed anywhere. -/
theorem Fresh.placed {free : List Int} {d : Device} (h : Fresh g good free d) :
    Placed g good d.flashMemory place := by
  have hneg : ∀ b p, d.flashMemory b p < 0 := by
    intro b p
    rcases h.bad_unused b p with hc | hc <;> rw [hc] <;> decide
  exact ⟨fun b hb p _ => .inl (h.unmarked b hb p), fun b _ _ p _ => hneg b p,
    fun b _ p _ hc => absurd (hneg b p) (not_lt.mpr hc),
    fun b _ p _ _ _ _ _ _ hc => absurd (hneg b p) (not_lt.mpr hc)⟩

/-- A fresh device stores nothing. -/
theorem Fresh.not_stored {free : List Int} {d : Device} (h : Fresh g good free d) (hc : 0 ≤ c) :
    ¬ Stored g d.flashMemory c := by
  rintro ⟨b, -, p, -, rfl⟩
  rcases h.bad_unused b p with hp | hp <;> exact absurd hc (by rw [hp]; decide)

/-- Places may grow. -/
theorem Placed.mono (h : Placed g good fm place)
    (hplace : ∀ b ∈ g.blocks, ∀ p ∈ g.pages, 0 ≤ fm b p → place (fm b p) b p →
      place' (fm b p) b p) : Placed g good fm place' :=
  ⟨h.content, h.bad_unused, fun b hb p hp hc => hplace b hb p hp hc (h.home b hb p hp hc), h.unique⟩

/-- A cluster with one page is gone once that page is invalid. -/
theorem Placed.dropped (h : Placed g good fm place) (hc : 0 ≤ c) (hb : b ∈ g.blocks)
    (hp : p ∈ g.pages) (hpage : fm b p = c) : Dropped g c fm (setPage fm b p invalidPage) := by
  refine ⟨?_, ?_⟩
  · intro b' hb' p' hp' heq
    obtain ⟨rfl, rfl⟩ := h.unique b hb p hp b' hb' p' hp' (hpage.trans heq.symm) (hpage ▸ hc)
    exact setPage_self _ _ _ _
  · intro b' _ p' _ hne
    refine setPage_of_ne ?_
    rintro ⟨rfl, rfl⟩
    exact hne hpage

/-- A cluster without a page is gone. -/
theorem dropped_of_not_stored (h : ¬ Stored g fm c) : Dropped g c fm fm :=
  ⟨fun b hb p hp heq => absurd ⟨b, hb, p, hp, heq⟩ h, fun _ _ _ _ _ => rfl⟩

/-- Programming a page with a dropped cluster stores it and keeps the others. -/
theorem stored_program (hdrop : Dropped g c fm fm') (hb : b ∈ g.blocks) (hp : p ∈ g.pages)
    (hslot : fm b p < 0) {c' : Int} (hc' : 0 ≤ c') :
    Stored g (setPage fm' b p c) c' ↔ Stored g fm c' ∨ c' = c := by
  constructor
  · rintro ⟨b', hb', p', hp', rfl⟩
    by_cases hbp : b' = b ∧ p' = p
    · obtain ⟨rfl, rfl⟩ := hbp
      exact .inr (setPage_self _ _ _ _)
    · rw [setPage_of_ne hbp] at hc' ⊢
      by_cases hcc : fm b' p' = c
      · rw [hdrop.gone b' hb' p' hp' hcc] at hc'
        exact absurd hc' (by decide)
      · exact .inl ⟨b', hb', p', hp', (hdrop.kept b' hb' p' hp' hcc).symm⟩
  · intro hst
    by_cases hcc : c' = c
    · exact ⟨b, hb, p, hp, by rw [setPage_self, hcc]⟩
    obtain ⟨b', hb', p', hp', rfl⟩ := hst.resolve_right hcc
    refine ⟨b', hb', p', hp', ?_⟩
    rw [setPage_of_ne, hdrop.kept b' hb' p' hp' hcc]
    rintro ⟨rfl, rfl⟩
    omega

/-- What a page holds after a cluster is dropped and programmed elsewhere. -/
theorem Dropped.program_cases (hdrop : Dropped g c fm fm') (hb : b ∈ g.blocks) (hp : p ∈ g.pages)
    {b' p' : Int} (hne : ¬ (b = b' ∧ p = p')) :
    (fm b p = c ∧ setPage fm' b' p' c b p = invalidPage) ∨
      (fm b p ≠ c ∧ setPage fm' b' p' c b p = fm b p) := by
  rw [setPage_of_ne hne]
  by_cases hcc : fm b p = c
  · exact .inl ⟨hcc, hdrop.gone b hb p hp hcc⟩
  · exact .inr ⟨hcc, hdrop.kept b hb p hp hcc⟩

/-- A cluster dropped and programmed in a page that held none is well placed there. -/
theorem Placed.program (h : Placed g good fm place) (hgood : good ⊆ g.blocks) (hc : 0 ≤ c)
    (hdrop : Dropped g c fm fm') (hb : b ∈ good)
    (hslot : fm b p < 0) (hnew : place' c b p)
    (hplace : ∀ c' b' p', place c' b' p' → place' c' b' p') :
    Placed g good (setPage fm' b p c) place' := by
  have hheld : ∀ b' ∈ g.blocks, ∀ p' ∈ g.pages, ¬ (b' = b ∧ p' = p) →
      0 ≤ setPage fm' b p c b' p' → fm b' p' ≠ c ∧ setPage fm' b p c b' p' = fm b' p' := by
    intro b' hb' p' hp' hbp hcl
    refine (hdrop.program_cases hb' hp' hbp).resolve_left ?_
    rintro ⟨-, hinv⟩
    rw [hinv] at hcl
    exact absurd hcl (by decide)
  refine ⟨?_, ?_, ?_, ?_⟩
  · intro b' hb' p' hp'
    by_cases hbp : b' = b ∧ p' = p
    · obtain ⟨rfl, rfl⟩ := hbp
      rw [setPage_self]
      exact .inr (.inr hc)
    · rcases hdrop.program_cases (hgood hb') hp' hbp with ⟨-, hinv⟩ | ⟨-, hkeep⟩
      · exact .inr (.inl hinv)
      · rw [hkeep]
        exact h.content b' hb' p' hp'
  · intro b' hb' hbad p' hp'
    have hbp : ¬ (b' = b ∧ p' = p) := fun hbp => hbad (hbp.1 ▸ hb)
    rcases hdrop.program_cases hb' hp' hbp with ⟨-, hinv⟩ | ⟨-, hkeep⟩
    · rw [hinv]
      decide
    · rw [hkeep]
      exact h.bad_unused b' hb' hbad p' hp'
  · intro b' hb' p' hp' hcl
    by_cases hbp : b' = b ∧ p' = p
    · obtain ⟨rfl, rfl⟩ := hbp
      rw [setPage_self]
      exact hnew
    · obtain ⟨-, hkeep⟩ := hheld b' hb' p' hp' hbp hcl
      rw [hkeep] at hcl ⊢
      exact hplace _ _ _ (h.home b' hb' p' hp' hcl)
  · intro b₁ hb₁ p₁ hp₁ b₂ hb₂ p₂ hp₂ heq hcl
    by_cases h₁ : b₁ = b ∧ p₁ = p
    · obtain ⟨rfl, rfl⟩ := h₁
      by_cases h₂ : b₂ = b₁ ∧ p₂ = p₁
      · exact ⟨h₂.1.symm, h₂.2.symm⟩
      · obtain ⟨hne, hkeep⟩ := hheld b₂ hb₂ p₂ hp₂ h₂ (heq ▸ hcl)
        rw [setPage_self, hkeep] at heq
        exact absurd heq.symm hne
    · obtain ⟨hne, hkeep⟩ := hheld b₁ hb₁ p₁ hp₁ h₁ hcl
      by_cases h₂ : b₂ = b ∧ p₂ = p
      · obtain ⟨rfl, rfl⟩ := h₂
        rw [setPage_self, hkeep] at heq
        exact absurd heq hne
      · obtain ⟨-, hkeep₂⟩ := hheld b₂ hb₂ p₂ hp₂ h₂ (heq ▸ hcl)
        rw [hkeep] at hcl heq
        rw [hkeep₂] at heq
        exact h.unique b₁ hb₁ p₁ hp₁ b₂ hb₂ p₂ hp₂ heq hcl

/-- A page of a block of the device is programmed. -/
theorem programPage_ok (d : Device) (hb : b ∈ g.blocks) :
    ∃ d', programPage g d b p c = .ok d' ∧ d'.flashMemory = setPage d.flashMemory b p c ∧
      ∀ list, FreeListed good list d → FreeListed good list d' := by
  obtain ⟨hb0, hbm⟩ := g.mem_blocks.mp hb
  unfold programPage
  rw [if_neg (by omega)]
  exact ⟨_, rfl, rfl, fun _ h => h.congr rfl rfl rfl rfl⟩

/-- A page of a block of the device gets a copy of another page. -/
theorem copyPage_ok (d : Device) (hfb : fb ∈ g.blocks) {target i : Int} :
    ∃ d', copyPage g d fb target b i = .ok d' ∧
      d'.flashMemory = setPage d.flashMemory fb target (d.flashMemory b i) ∧
      ∀ list, FreeListed good list d → FreeListed good list d' := by
  obtain ⟨d₁, hok, hfm, hlisted⟩ := @programPage_ok g good fb target
    (d.flashMemory b i) d hfb
  unfold copyPage
  rw [hok]
  exact ⟨_, rfl, hfm, fun list h => (hlisted list h).congr rfl rfl rfl rfl⟩

/-- Rebuilding a block keeps exactly the stored clusters. -/
theorem Rebuilt.stored_iff {moved : Int → Prop} (hr : Rebuilt g fb moved fm fm')
    (hfb : fb ∈ g.blocks) (hc : 0 ≤ c) : Stored g fm' c ↔ Stored g fm c := by
  constructor
  · rintro ⟨b, hb, p, hp, rfl⟩
    rcases hr.cluster b hb p hp hc with ⟨hm, -⟩ | ⟨-, heq⟩
    · exact (hr.stored _ hm).2
    · exact ⟨b, hb, p, hp, heq.symm⟩
  · intro hst
    by_cases hm : moved c
    · exact ⟨fb, hfb, _, g.logicalPage_mem hc, hr.holds c hm⟩
    · obtain ⟨b, hb, p, hp, rfl⟩ := hst
      exact ⟨b, hb, p, hp, hr.kept b hb p hp hc hm⟩

/-- The clusters after rebuilding a block are well placed, where their places allow it. -/
theorem Rebuilt.placed {moved : Int → Prop} (hr : Rebuilt g fb moved fm fm')
    (h : Placed g good fm place)
    (hcontent : ∀ b ∈ good, ∀ p ∈ g.pages,
      fm' b p = freePage ∨ fm' b p = invalidPage ∨ 0 ≤ fm' b p)
    (hbad : ∀ b ∈ g.blocks, b ∉ good → ∀ p ∈ g.pages, fm' b p < 0)
    (hnew : ∀ c, moved c → place' c fb (g.logicalPage c))
    (hold : ∀ b ∈ g.blocks, ∀ p ∈ g.pages, 0 ≤ fm b p → ¬ moved (fm b p) →
      place (fm b p) b p → place' (fm b p) b p) : Placed g good fm' place' := by
  refine ⟨hcontent, hbad, ?_, ?_⟩
  · intro b hb p hp hc
    rcases hr.cluster b hb p hp hc with ⟨hm, hbf, hpe⟩ | ⟨hm, heq⟩
    · have hplace := hnew _ hm
      rwa [← hbf, ← hpe] at hplace
    · rw [heq] at hc hm ⊢
      exact hold b hb p hp hc hm (h.home b hb p hp hc)
  · intro b₁ hb₁ p₁ hp₁ b₂ hb₂ p₂ hp₂ heq hc
    rcases hr.cluster b₁ hb₁ p₁ hp₁ hc with ⟨hm₁, hf₁, hpe₁⟩ | ⟨hm₁, he₁⟩
    · rcases hr.cluster b₂ hb₂ p₂ hp₂ (heq ▸ hc) with ⟨-, hf₂, hpe₂⟩ | ⟨hm₂, -⟩
      · exact ⟨hf₁.trans hf₂.symm, by rw [hpe₁, hpe₂, heq]⟩
      · exact absurd (heq ▸ hm₁) hm₂
    · rcases hr.cluster b₂ hb₂ p₂ hp₂ (heq ▸ hc) with ⟨hm₂, -⟩ | ⟨-, he₂⟩
      · exact absurd (heq.symm ▸ hm₂) hm₁
      · rw [he₁] at hc heq
        rw [he₂] at heq
        exact h.unique b₁ hb₁ p₁ hp₁ b₂ hb₂ p₂ hp₂ heq hc

end WiscKey.Flash
