import WiscKey.Flash.Device
import WiscKey.Library.Ring

/-!
# The free block list as a list

The links of `FreeBlockList` between head and tail spell a list of good blocks.
Getting a block takes its head, putting one appends it, and the good blocks outside
it carry the mark `FBL_NOT_IN_LIST`.
-/

namespace WiscKey.Flash

variable {g : Geometry} {good : Finset Int} {free : List Int} {d : Device} {b : Int}

/-- The free block list of the device holds the blocks `free`, in this order. -/
structure FreeListed (good : Finset Int) (free : List Int) (d : Device) : Prop where
  nodup : free.Nodup
  mem_good : ∀ b ∈ free, b ∈ good
  linked : Linked d.freeBlockList fblPointToNull free
  head : ∀ b, free.head? = some b → d.freeBlockListHead = b
  tail : ∀ b, free.getLast? = some b → d.freeBlockListTail = b
  count : d.blocksInFreeBlockList = free.length
  unlisted : ∀ b ∈ good, b ∉ free → d.freeBlockList b = fblNotInList

/-- Only the fields of the free list matter. -/
theorem FreeListed.congr {d' : Device} (h : FreeListed good free d)
    (hlist : d'.freeBlockList = d.freeBlockList)
    (hhead : d'.freeBlockListHead = d.freeBlockListHead)
    (htail : d'.freeBlockListTail = d.freeBlockListTail)
    (hcount : d'.blocksInFreeBlockList = d.blocksInFreeBlockList) : FreeListed good free d' where
  nodup := h.nodup
  mem_good := h.mem_good
  linked := hlist ▸ h.linked
  head := hhead ▸ h.head
  tail := htail ▸ h.tail
  count := hcount ▸ h.count
  unlisted := hlist ▸ h.unlisted

/-- A listed block links to a good block or to nothing, never to the mark of the others. -/
theorem FreeListed.link_ne (h : FreeListed good free d) (hgood : good ⊆ g.blocks)
    (hb : b ∈ free) : d.freeBlockList b ≠ fblNotInList := by
  obtain ⟨l₁, l₂, rfl⟩ := List.mem_iff_append.mp hb
  have hlinked : Linked d.freeBlockList fblPointToNull (b :: l₂) := by
    have := h.linked
    clear hb h
    induction l₁ with
    | nil => exact this
    | cons a l₁ ih => exact ih (Linked.of_cons this)
  cases l₂ with
  | nil =>
    have hnull : d.freeBlockList b = fblPointToNull := hlinked
    rw [hnull]
    decide
  | cons c l₂ =>
    have hc : 0 ≤ c := (g.mem_blocks.mp (hgood (h.mem_good c (by simp)))).1
    have hnext : d.freeBlockList b = c := hlinked.1
    rw [hnext]
    intro hmark
    rw [hmark] at hc
    exact absurd hc (by decide)

/-- `takeFreeBlock` returns the head and leaves the rest. -/
theorem takeFreeBlock_spec (h : FreeListed good (b :: free) d) (hgood : good ⊆ g.blocks) :
    ∃ d', takeFreeBlock g d = .ok (b, d') ∧ FreeListed good free d' ∧
      d'.flashMemory = d.flashMemory ∧
      d'.validPageCnt = Function.update d.validPageCnt b 0 ∧
      d'.invalidPageCnt = Function.update d.invalidPageCnt b 0 := by
  have hhead : d.freeBlockListHead = b := h.head b rfl
  obtain ⟨hb0, hbm⟩ := g.mem_blocks.mp (hgood (h.mem_good b List.mem_cons_self))
  obtain ⟨hnot, hnodup⟩ := List.nodup_cons.mp h.nodup
  simp only [takeFreeBlock, hhead]
  rw [if_neg (by omega)]
  refine ⟨_, rfl, ⟨hnodup, fun c hc => h.mem_good c (List.mem_cons_of_mem _ hc), ?_, ?_, ?_, ?_, ?_⟩,
    rfl, rfl, rfl⟩
  · exact (Linked.of_cons h.linked).update hnot _
  · intro c hc
    exact h.linked.next_head hc
  · intro c hc
    refine h.tail c ?_
    cases free with
    | nil => simp at hc
    | cons a free => simpa using hc
  · have hcount := h.count
    simp only [List.length_cons] at hcount
    simp only
    omega
  · intro c hc hcf
    by_cases hcb : c = b
    · subst c
      simp
    · have hold := h.unlisted c hc (by simp [hcb, hcf])
      simpa [Function.update_of_ne hcb] using hold

/-- A request above the reserve gets the head of the list. -/
theorem getFreeBlock_above (h : FreeListed good (b :: free) d) (hgood : good ⊆ g.blocks)
    (hleast : g.leastFreeBlocksInFBL ≤ free.length) :
    ∃ d', getFreeBlock g false d = .ok (b, d') ∧ FreeListed good free d' ∧
      d'.flashMemory = d.flashMemory ∧
      d'.validPageCnt = Function.update d.validPageCnt b 0 ∧
      d'.invalidPageCnt = Function.update d.invalidPageCnt b 0 := by
  have hcount := h.count
  simp only [List.length_cons] at hcount
  have heq : getFreeBlock g false d = takeFreeBlock g d := by
    simp only [getFreeBlock, Bool.false_eq_true, if_false]
    rw [if_pos (by omega)]
  rw [heq]
  exact takeFreeBlock_spec h hgood

/-- A request that would touch the reserve gets nothing. -/
theorem getFreeBlock_reserve (h : FreeListed good free d)
    (hleast : free.length ≤ g.leastFreeBlocksInFBL) :
    getFreeBlock g false d = .ok (-1, d) := by
  have hcount := h.count
  simp only [getFreeBlock, Bool.false_eq_true, if_false]
  rw [if_neg (by omega)]

/-- `CheckFreeBlock` fails exactly at the reserve. -/
theorem checkFreeBlock_eq_neg_one (h : FreeListed good free d) (hgood : good ⊆ g.blocks) :
    checkFreeBlock g d = -1 ↔ free.length ≤ g.leastFreeBlocksInFBL := by
  have hcount := h.count
  unfold checkFreeBlock
  split
  · cases free with
    | nil =>
      simp only [List.length_nil] at hcount
      omega
    | cons a free =>
      have ha := (g.mem_blocks.mp (hgood (h.mem_good a List.mem_cons_self))).1
      rw [h.head a rfl]
      omega
  · simp only [true_iff]
    omega

/-- `PutFreeBlock` appends a good block that is not listed. -/
theorem putFreeBlock_listed (h : FreeListed good free d) (hb : b ∈ good) (hnot : b ∉ free)
    (hne : free ≠ []) : FreeListed good (free ++ [b]) (putFreeBlock g d b) := by
  obtain ⟨a, ha⟩ := Option.isSome_iff_exists.mp (List.getLast?_isSome.mpr hne)
  have htail : d.freeBlockListTail = a := h.tail a ha
  have hmem : a ∈ free := List.mem_of_getLast? ha
  refine ⟨?_, ?_, ?_, ?_, ?_, ?_, ?_⟩
  · exact List.nodup_append.mpr ⟨h.nodup, by simp, by
      intro x hx y hy
      rw [List.mem_singleton.mp hy]
      exact fun he => hnot (he ▸ hx)⟩
  · intro c hc
    rcases List.mem_append.mp hc with hc | hc
    · exact h.mem_good c hc
    · exact List.mem_singleton.mp hc ▸ hb
  · simp only [putFreeBlock, htail]
    exact h.linked.append h.nodup ha hnot
  · intro c hc
    refine h.head c ?_
    cases free with
    | nil => exact absurd rfl hne
    | cons x free => simpa using hc
  · intro c hc
    simpa [putFreeBlock] using hc
  · simp [putFreeBlock, h.count]
  · intro c hc hcf
    simp only [List.mem_append, List.mem_singleton, not_or] at hcf
    have hca : c ≠ a := fun he => hcf.1 (he ▸ hmem)
    simp only [putFreeBlock, htail]
    rw [Function.update_of_ne hcf.2, Function.update_of_ne hca]
    exact h.unlisted c hc hcf.1

end WiscKey.Flash
