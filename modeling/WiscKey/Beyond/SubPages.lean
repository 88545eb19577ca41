import WiscKey.Beyond.Region
import Mathlib.Tactic.Ring
import Mathlib.Tactic.Linarith

/-!
# The states of the sub-pages

With the macro `BEYONDADDR` the flash memory has a state for every sub-page, and
`SetSubPageStatusOnFlash` sets those that an interval of LBAs of a node is written to. It looks for
the first of them in two steps and goes through the pages in three ways. One of the steps is a page
short, and one of the ways takes a number of pages for the page behind the last.
-/

namespace WiscKey.Beyond

/-- `FlashMemorySub[block][page][subpage]`. -/
abbrev FlashMemorySub := Int → Int → Int → Int

/-- `SetFlashSubPageStatus`. -/
def setFlashSubPageStatus (flash : FlashMemorySub) (block page subpage status : Int) :
    FlashMemorySub :=
  Function.update flash block
    (Function.update (flash block) page (Function.update (flash block page) subpage status))

/-- The values of `i` in `for (i = lo; i < hi; i++)`. -/
def countUp (lo hi : Int) : List Int := (List.range (hi - lo).toNat).map fun n : Nat => lo + n

/-- The loops over sub-pages of one page. -/
def setSubPages (flash : FlashMemorySub) (block page lo hi status : Int) : FlashMemorySub :=
  (countUp lo hi).foldl (fun flash j => setFlashSubPageStatus flash block page j status) flash

variable (g : FlashSize)

/-- The loops over whole pages. -/
def setPages (flash : FlashMemorySub) (block lo hi status : Int) : FlashMemorySub :=
  (countUp lo hi).foldl (fun flash i => setSubPages flash block i 0 g.maxSubPage status) flash

/-- The first step of `SetSubPageStatusOnFlash`: the page and the sub-page to start at. -/
def findStart (res : Extent) (overlappedOffset : Int) : Int × Int :=
  let behindFirst := overlappedOffset - (g.maxSubPage - res.subPageOff)
  if g.maxSubPage ≤ overlappedOffset then
    (res.pageAddr + behindFirst.tdiv g.maxSubPage, behindFirst.tmod g.maxSubPage)
  else (res.pageAddr, overlappedOffset + res.subPageOff)

/-- The second step: a sub-page behind its page is one of a later page. -/
def correctStart (start : Int × Int) : Int × Int :=
  if g.maxSubPage < start.2 then
    (start.1 + start.2.tdiv g.maxSubPage, start.2.tmod g.maxSubPage)
  else start

/-- The third step: set `len` sub-pages, inside a page, from the start of a page on, or from inside
a page on. -/
def setFrom (flash : FlashMemorySub) (block len status : Int) (start : Int × Int) :
    FlashMemorySub :=
  let pageAddr := start.1
  let subPageOff := start.2
  if subPageOff + len < g.maxSubPage then
    setSubPages flash block pageAddr subPageOff (subPageOff + len) status
  else if subPageOff = 0 then
    let spanedPageNum := len.tdiv g.maxSubPage
    let tail := len.tmod g.maxSubPage
    let flash := setPages g flash block pageAddr spanedPageNum status
    setSubPages flash block (pageAddr + spanedPageNum) 0 tail status
  else
    let behindFirst := len - (g.maxSubPage - subPageOff)
    let spanedPageNum := behindFirst.tdiv g.maxSubPage
    let tail := behindFirst.tmod g.maxSubPage
    let flash := setSubPages flash block pageAddr subPageOff g.maxSubPage status
    let flash := setPages g flash block (pageAddr + 1) (pageAddr + 1 + spanedPageNum) status
    if 0 < tail then setSubPages flash block (pageAddr + 1 + spanedPageNum) 0 tail status
    else flash

/-- `SetSubPageStatusOnFlash`. The third case of its first `if` cannot be. -/
def setSubPageStatusOnFlash (flash : FlashMemorySub) (len : Int) (res : Extent)
    (overlappedOffset status : Int) : FlashMemorySub :=
  setFrom g flash res.blockAddr len status (correctStart g (findStart g res overlappedOffset))

section Loops

variable {flash : FlashMemorySub} {block b page p q lo hi status : Int}

theorem setFlashSubPageStatus_apply {subpage : Int} :
    setFlashSubPageStatus flash block page subpage status b p q =
      if b = block ∧ p = page ∧ q = subpage then status else flash b p q := by
  unfold setFlashSubPageStatus
  by_cases hb : b = block
  · subst b
    by_cases hp : p = page
    · subst p
      by_cases hq : q = subpage
      · subst q
        simp
      · simp [hq]
    · simp [hp]
  · simp [hb]

theorem mem_countUp {i : Int} : i ∈ countUp lo hi ↔ lo ≤ i ∧ i < hi := by
  simp only [countUp, List.mem_map, List.mem_range]
  constructor
  · rintro ⟨n, hn, rfl⟩
    omega
  · rintro ⟨hlo, hhi⟩
    exact ⟨(i - lo).toNat, by omega, by omega⟩

/-- A loop that sets sub-pages has set those that one of its rounds sets. -/
theorem foldl_set_apply {step : FlashMemorySub → Int → FlashMemorySub} (set : Int → Prop)
    [DecidablePred set]
    (hstep : ∀ flash i, step flash i b p q = if set i then status else flash b p q)
    (l : List Int) :
    l.foldl step flash b p q = if ∃ i ∈ l, set i then status else flash b p q := by
  induction l generalizing flash with
  | nil => simp
  | cons i l ih =>
    rw [List.foldl_cons, ih, hstep]
    by_cases hset : set i
    · simp [hset]
    · simp [hset]

theorem setSubPages_apply : setSubPages flash block page lo hi status b p q =
    if b = block ∧ p = page ∧ lo ≤ q ∧ q < hi then status else flash b p q := by
  unfold setSubPages
  rw [foldl_set_apply (fun j => b = block ∧ p = page ∧ q = j)
    fun flash j => setFlashSubPageStatus_apply]
  congr 1
  simp only [mem_countUp, eq_iff_iff]
  constructor
  · rintro ⟨j, hj, rfl, rfl, rfl⟩
    exact ⟨rfl, rfl, hj⟩
  · rintro ⟨rfl, rfl, hq⟩
    exact ⟨q, hq, rfl, rfl, rfl⟩

theorem setPages_apply : setPages g flash block lo hi status b p q =
    if b = block ∧ (lo ≤ p ∧ p < hi) ∧ 0 ≤ q ∧ q < g.maxSubPage then status
    else flash b p q := by
  unfold setPages
  rw [foldl_set_apply (fun i => b = block ∧ p = i ∧ 0 ≤ q ∧ q < g.maxSubPage)
    fun flash i => setSubPages_apply]
  congr 1
  simp only [mem_countUp, eq_iff_iff]
  constructor
  · rintro ⟨i, hi, rfl, rfl, hq⟩
    exact ⟨rfl, hi, hq⟩
  · rintro ⟨rfl, hp, hq⟩
    exact ⟨p, hp, rfl, rfl, hq⟩

end Loops

section Linear

variable {m p q lo len : Int}

/-- Linear addresses are ordered like pages and sub-pages. -/
theorem linear_lt_iff {page subpage : Int} (hq : 0 ≤ q) (hqm : q < m) (hs : 0 ≤ subpage)
    (hsm : subpage < m) :
    p * m + q < page * m + subpage ↔ p < page ∨ (p = page ∧ q < subpage) := by
  have hstep : ∀ {a b : Int}, a < b → a * m + m ≤ b * m := by
    intro a b hab
    have hmul := Int.mul_le_mul_of_nonneg_right (show a + 1 ≤ b by omega) (by omega : 0 ≤ m)
    rwa [Int.add_mul, Int.one_mul] at hmul
  rcases lt_trichotomy p page with hlt | rfl | hgt
  · have := hstep hlt
    exact ⟨fun _ => .inl hlt, fun _ => by omega⟩
  · omega
  · have := hstep hgt
    exact ⟨fun h => by omega, fun h => by omega⟩

/-- A range of linear addresses between two places. -/
theorem linear_range_iff {page subpage page' subpage' : Int} (hq : 0 ≤ q) (hqm : q < m)
    (hs : 0 ≤ subpage) (hsm : subpage < m) (hs' : 0 ≤ subpage') (hsm' : subpage' < m) :
    (page * m + subpage ≤ p * m + q ∧ p * m + q < page' * m + subpage') ↔
      (page < p ∨ (page = p ∧ subpage ≤ q)) ∧ (p < page' ∨ (p = page' ∧ q < subpage')) := by
  rw [← not_lt, linear_lt_iff hq hqm hs hsm, linear_lt_iff hq hqm hs' hsm']
  omega

end Linear

section Ranges

variable {g} {flash : FlashMemorySub} {block status len : Int} {b p q page subpage : Int}

/-- The sub-pages that the third step sets. -/
def Marked (g : FlashSize) (len page subpage p q : Int) : Prop :=
  if subpage + len < g.maxSubPage then p = page ∧ subpage ≤ q ∧ q < subpage + len
  else if subpage = 0 then
    (page ≤ p ∧ p < len.tdiv g.maxSubPage) ∨
      (p = page + len.tdiv g.maxSubPage ∧ q < len.tmod g.maxSubPage)
  else
    let behindFirst := len - (g.maxSubPage - subpage)
    (p = page ∧ subpage ≤ q) ∨
      (page + 1 ≤ p ∧ p < page + 1 + behindFirst.tdiv g.maxSubPage) ∨
      (p = page + 1 + behindFirst.tdiv g.maxSubPage ∧ q < behindFirst.tmod g.maxSubPage)

instance (len page subpage p q : Int) : Decidable (Marked g len page subpage p q) := by
  unfold Marked
  infer_instance

/-- Two conditions under which one value is taken. -/
theorem ite_ite_same {c a a' : Prop} [Decidable c] [Decidable a] [Decidable a'] (x y : Int) :
    (if c ∧ a then x else if c ∧ a' then x else y) = if c ∧ (a' ∨ a) then x else y := by
  by_cases hc : c
  · by_cases ha : a
    · simp [hc, ha]
    · simp [hc, ha]
  · simp [hc]

theorem setFrom_apply (hq : 0 ≤ q) (hqm : q < g.maxSubPage) :
    setFrom g flash block len status (page, subpage) b p q =
      if b = block ∧ Marked g len page subpage p q then status else flash b p q := by
  unfold setFrom Marked
  by_cases hinside : subpage + len < g.maxSubPage
  · simp only [if_pos hinside, setSubPages_apply]
  · by_cases halign : subpage = 0
    · simp only [if_neg hinside, if_pos halign, setSubPages_apply, setPages_apply, hq, hqm,
        and_self, and_true, true_and]
      rw [ite_ite_same]
    · simp only [if_neg hinside, if_neg halign]
      have htail : ∀ f : FlashMemorySub, ∀ page' tail : Int,
          (if 0 < tail then setSubPages f block page' 0 tail status else f) b p q =
            if b = block ∧ p = page' ∧ q < tail then status else f b p q := by
        intro f page' tail
        by_cases hpos : 0 < tail
        · rw [if_pos hpos, setSubPages_apply]
          simp only [hq, true_and]
        · rw [if_neg hpos, if_neg]
          omega
      rw [htail, setPages_apply, setSubPages_apply]
      simp only [hq, hqm, and_self, and_true]
      simp only [ite_ite_same, or_assoc]

/-- The way that takes a number of pages for the page behind the last: from the first sub-page of
a page that is not the first, at least a page. -/
def TakesPageNumber (g : FlashSize) (len page subpage : Int) : Prop :=
  subpage = 0 ∧ 1 ≤ page ∧ g.maxSubPage ≤ len

/-- Whole pages and the sub-pages of one more. -/
theorem exists_pages {m n : Int} (hm : 0 < m) (hn : 0 ≤ n) :
    ∃ d t, n.tdiv m = d ∧ n.tmod m = t ∧ n = d * m + t ∧ 0 ≤ d ∧ 0 ≤ t ∧ t < m := by
  refine ⟨n / m, n % m, Int.tdiv_eq_ediv_of_nonneg hn, Int.tmod_eq_emod_of_nonneg hn, ?_,
    Int.ediv_nonneg hn hm.le, Int.emod_nonneg n hm.ne', Int.emod_lt_of_pos n hm⟩
  rw [Int.mul_comm]
  exact (Int.mul_ediv_add_emod n m).symm

/-- Everywhere else the third step sets a range of linear addresses. -/
theorem marked_iff (hm : 0 < g.maxSubPage) (hlen : 1 ≤ len) (hpage : 0 ≤ page)
    (hsub : 0 ≤ subpage) (hsubm : subpage ≤ g.maxSubPage)
    (hway : ¬ TakesPageNumber g len page subpage) (hq : 0 ≤ q) (hqm : q < g.maxSubPage) :
    Marked g len page subpage p q ↔
      page * g.maxSubPage + subpage ≤ p * g.maxSubPage + q ∧
        p * g.maxSubPage + q < page * g.maxSubPage + subpage + len := by
  unfold TakesPageNumber at hway
  unfold Marked
  generalize g.maxSubPage = m at *
  by_cases hinside : subpage + len < m
  · rw [if_pos hinside, Int.add_assoc, linear_range_iff hq hqm hsub (by omega) (by omega) hinside]
    omega
  · rw [if_neg hinside]
    by_cases halign : subpage = 0
    · subst subpage
      obtain ⟨d, t, hdiv, hmod, hsum, hd, ht, htm⟩ := exists_pages hm (by omega : 0 ≤ len)
      have hend : page * m + 0 + len = (page + d) * m + t := by
        rw [hsum]
        ring
      rw [if_pos rfl, hdiv, hmod, hend, linear_range_iff hq hqm le_rfl hm ht htm]
      -- without a whole page the start may be anywhere, with one it is in the first page
      have hfirst : page = 0 ∨ d = 0 := by
        by_contra hne
        refine hway ⟨rfl, by omega, ?_⟩
        have hmul := Int.mul_le_mul_of_nonneg_right (show 1 ≤ d by omega) hm.le
        rw [Int.one_mul] at hmul
        omega
      omega
    · rw [if_neg halign]
      obtain ⟨d, t, hdiv, hmod, hsum, hd, ht, htm⟩ :=
        exists_pages hm (by omega : 0 ≤ len - (m - subpage))
      have hend : page * m + subpage + len = (page + 1 + d) * m + t := by
        rw [show len = d * m + t + (m - subpage) by omega]
        ring
      simp only [hdiv, hmod]
      by_cases hlast : subpage = m
      · -- a start behind the page is the first sub-page of the next one
        have hstart : page * m + subpage = (page + 1) * m + 0 := by
          rw [hlast]
          ring
        rw [hend, hstart, linear_range_iff hq hqm le_rfl hm ht htm]
        omega
      · rw [hend, linear_range_iff hq hqm hsub (by omega) ht htm]
        omega

/-- Whichever way it takes, the third step stays in front of the end of the range. -/
theorem Marked.lt (h : Marked g len page subpage p q) (hm : 0 < g.maxSubPage) (hlen : 1 ≤ len)
    (hpage : 0 ≤ page) (hsub : 0 ≤ subpage) (hsubm : subpage ≤ g.maxSubPage) (hq : 0 ≤ q)
    (hqm : q < g.maxSubPage) :
    p * g.maxSubPage + q < page * g.maxSubPage + subpage + len := by
  by_cases hway : TakesPageNumber g len page subpage
  · obtain ⟨rfl, -, hlong⟩ := hway
    unfold Marked at h
    obtain ⟨d, t, hdiv, hmod, hsum, hd, ht, htm⟩ := exists_pages hm (by omega : 0 ≤ len)
    rw [if_neg (by omega), if_pos rfl, hdiv, hmod] at h
    have hend : page * g.maxSubPage + 0 + len = (page + d) * g.maxSubPage + t := by
      rw [hsum]
      ring
    rw [hend, linear_lt_iff hq hqm ht htm]
    omega
  · exact ((marked_iff hm hlen hpage hsub hsubm hway hq hqm).mp h).2

end Ranges

section Start

variable {g} {res : Extent} {overlappedOffset len : Int}

/-- The linear address of the first sub-page that is to be set. -/
def linearStart (g : FlashSize) (res : Extent) (overlappedOffset : Int) : Int :=
  res.pageAddr * g.maxSubPage + res.subPageOff + overlappedOffset

/-- An offset inside a page leads to the right start. -/
theorem correctStart_findStart (hm : 0 < g.maxSubPage) (hsub : 0 ≤ res.subPageOff)
    (hsubm : res.subPageOff ≤ g.maxSubPage) (hoff : 0 ≤ overlappedOffset)
    (hoffm : overlappedOffset < g.maxSubPage) :
    ∃ d subpage, correctStart g (findStart g res overlappedOffset) = (res.pageAddr + d, subpage) ∧
      (res.pageAddr + d) * g.maxSubPage + subpage = linearStart g res overlappedOffset ∧
      0 ≤ d ∧ 0 ≤ subpage ∧ subpage ≤ g.maxSubPage ∧ (subpage = 0 → d = 0) ∧
      (subpage = 0 ↔ res.subPageOff + overlappedOffset = 0) := by
  unfold correctStart findStart linearStart
  simp only [if_neg (not_le.mpr hoffm)]
  by_cases hbehind : g.maxSubPage < overlappedOffset + res.subPageOff
  · obtain ⟨d, t, hdiv, hmod, hsum, hd, ht, htm⟩ :=
      exists_pages hm (by omega : 0 ≤ overlappedOffset + res.subPageOff)
    rw [if_pos hbehind, hdiv, hmod]
    have hone : d = 1 := by
      have hlow : 1 ≤ d := by
        by_contra hlt
        obtain rfl : d = 0 := by omega
        omega
      by_contra hne
      have hmul := Int.mul_le_mul_of_nonneg_right (show 2 ≤ d by omega) hm.le
      omega
    subst hone
    exact ⟨1, t, rfl, by rw [Int.add_mul]; omega, hd, ht, htm.le, by omega, by omega⟩
  · rw [if_neg hbehind]
    exact ⟨0, _, by rw [Int.add_zero], by rw [Int.add_zero]; omega, le_rfl, by omega, by omega,
      fun _ => rfl, by omega⟩

/-- An offset of a page or more leads to a start that is a page short. -/
theorem correctStart_findStart_short (hm : 0 < g.maxSubPage) (hsub : 0 ≤ res.subPageOff)
    (hoffm : g.maxSubPage ≤ overlappedOffset) :
    ∃ d subpage, correctStart g (findStart g res overlappedOffset) = (res.pageAddr + d, subpage) ∧
      (res.pageAddr + d) * g.maxSubPage + subpage =
        linearStart g res overlappedOffset - g.maxSubPage ∧
      0 ≤ d ∧ 0 ≤ subpage ∧ subpage < g.maxSubPage := by
  obtain ⟨d, t, hdiv, hmod, hsum, hd, ht, htm⟩ :=
    exists_pages hm (by omega : 0 ≤ overlappedOffset - (g.maxSubPage - res.subPageOff))
  refine ⟨d, t, ?_, ?_, hd, ht, htm⟩
  · unfold correctStart findStart
    simp only [if_pos hoffm, hdiv, hmod]
    rw [if_neg (by omega)]
  · unfold linearStart
    rw [Int.add_mul]
    omega

end Start

/-- Exactly `len` sub-pages of the block from a linear address on are set, whatever the flash
holds. -/
def SetsExactly (g : FlashSize) (block start len status : Int)
    (set : FlashMemorySub → FlashMemorySub) : Prop :=
  ∀ flash b p q, 0 ≤ p → p < g.maxPage → 0 ≤ q → q < g.maxSubPage →
    set flash b p q =
      if b = block ∧ start ≤ p * g.maxSubPage + q ∧ p * g.maxSubPage + q < start + len then status
      else flash b p q

/-- A sub-page of the range that no flash has set. -/
theorem not_setsExactly {g : FlashSize} {block start len status p q : Int}
    {set : FlashMemorySub → FlashMemorySub} (hp : 0 ≤ p) (hpm : p < g.maxPage) (hq : 0 ≤ q)
    (hqm : q < g.maxSubPage) (hlow : start ≤ p * g.maxSubPage + q)
    (hhigh : p * g.maxSubPage + q < start + len)
    (hmiss : ∀ flash, set flash block p q = flash block p q) :
    ¬ SetsExactly g block start len status set := by
  intro hset
  have hpage := hset (fun _ _ _ => status + 1) block p q hp hpm hq hqm
  rw [hmiss, if_pos ⟨rfl, hlow, hhigh⟩] at hpage
  omega

theorem lt_of_linear_lt {m p q n : Int} (hm : 0 < m) (hq : 0 ≤ q) (h : p * m + q < n * m) :
    p < n := by
  by_contra hle
  have hmul := Int.mul_le_mul_of_nonneg_right (not_lt.mp hle) hm.le
  omega

/-- The way that takes a number of pages for the page behind the last misses a page. -/
theorem TakesPageNumber.not_setsExactly {g : FlashSize} {block len page : Int} (status : Int)
    (h : TakesPageNumber g len page 0) (hm : 0 < g.maxSubPage)
    (hfit : page * g.maxSubPage + len ≤ g.maxPage * g.maxSubPage) :
    ¬ SetsExactly g block (page * g.maxSubPage) len status
      (fun flash => setFrom g flash block len status (page, 0)) := by
  obtain ⟨-, hpage, hlong⟩ := h
  obtain ⟨d, t, hdiv, hmod, hsum, hd, ht, htm⟩ := exists_pages hm (by omega : 0 ≤ len)
  have hdpos : 1 ≤ d := by
    by_contra hne
    obtain rfl : d = 0 := by omega
    omega
  have hmul := Int.mul_le_mul_of_nonneg_right hdpos hm.le
  -- the last of the whole pages
  have hlast : (page + d - 1) * g.maxSubPage + 0 =
      page * g.maxSubPage + d * g.maxSubPage - g.maxSubPage := by ring
  apply Beyond.not_setsExactly (p := page + d - 1) (q := 0) (by omega) _ le_rfl hm (by omega)
    (by omega)
  · intro flash
    rw [setFrom_apply le_rfl hm, if_neg]
    rintro ⟨-, hmarked⟩
    unfold Marked at hmarked
    rw [if_neg (by omega), if_pos rfl, hdiv, hmod] at hmarked
    omega
  · exact lt_of_linear_lt hm le_rfl (by omega)

/-- The sub-pages of an interval of a node are set exactly if its offset is inside a page and it
does not start, with a page or more, at the first sub-page of a page behind the first. -/
theorem setSubPageStatusOnFlash_iff {g : FlashSize} {res : Extent} {overlappedOffset len : Int}
    (status : Int) (hm : 0 < g.maxSubPage) (hpage : 0 ≤ res.pageAddr) (hsub : 0 ≤ res.subPageOff)
    (hsubm : res.subPageOff ≤ g.maxSubPage) (hoff : 0 ≤ overlappedOffset) (hlen : 1 ≤ len)
    (hfit : linearStart g res overlappedOffset + len ≤ g.maxPage * g.maxSubPage) :
    SetsExactly g res.blockAddr (linearStart g res overlappedOffset) len status
        (fun flash => setSubPageStatusOnFlash g flash len res overlappedOffset status) ↔
      overlappedOffset < g.maxSubPage ∧
        ¬ TakesPageNumber g len res.pageAddr (res.subPageOff + overlappedOffset) := by
  unfold setSubPageStatusOnFlash
  by_cases hoffm : overlappedOffset < g.maxSubPage
  · obtain ⟨d, subpage, hstart, hlinear, hd, hs, hsm, hfirst, hzero⟩ :=
      correctStart_findStart hm hsub hsubm hoff hoffm
    have hway : TakesPageNumber g len (res.pageAddr + d) subpage ↔
        TakesPageNumber g len res.pageAddr (res.subPageOff + overlappedOffset) := by
      unfold TakesPageNumber
      omega
    simp only [hstart]
    rw [← hway, ← hlinear]
    constructor
    · intro hset
      refine ⟨hoffm, fun htakes => ?_⟩
      obtain rfl : subpage = 0 := htakes.1
      rw [Int.add_zero] at hset hlinear
      exact htakes.not_setsExactly status hm (by omega) hset
    · rintro ⟨-, hnot⟩ flash b p q hp hpm hq hqm
      simp only [setFrom_apply hq hqm, marked_iff hm hlen (by omega) hs hsm hnot hq hqm]
  · obtain ⟨d, subpage, hstart, hlinear, hd, hs, hsm⟩ :=
      correctStart_findStart_short hm hsub (not_lt.mp hoffm)
    have hlow : 0 ≤ linearStart g res overlappedOffset := by
      have := Int.mul_nonneg hpage hm.le
      unfold linearStart
      omega
    -- the last sub-page of the range is behind all that are set
    obtain ⟨p, q, -, -, hsum, hp, hq, hqm⟩ :=
      exists_pages hm (by omega : 0 ≤ linearStart g res overlappedOffset + len - 1)
    simp only [hstart]
    refine iff_of_false ?_ fun h => hoffm h.1
    apply not_setsExactly hp (lt_of_linear_lt hm hq (by omega)) hq hqm (by omega) (by omega)
    intro flash
    rw [setFrom_apply hq hqm, if_neg]
    rintro ⟨-, hmarked⟩
    have hlt := hmarked.lt hm hlen (by omega) hs hsm.le hq hqm
    omega

/-- Four sub-pages from inside a page on, in pages of four. -/
theorem setSubPageStatusOnFlash_inside : SetsExactly ⟨4, 8⟩ 7 6 4 (-2) fun flash =>
    setSubPageStatusOnFlash ⟨4, 8⟩ flash 4 ⟨0, 8, 0, 7, 1, 1⟩ 1 (-2) :=
  (@setSubPageStatusOnFlash_iff ⟨4, 8⟩ ⟨0, 8, 0, 7, 1, 1⟩ 1 4 (-2) (by decide) (by decide)
    (by decide) (by decide) (by decide) (by decide) (by decide)).mpr
    ⟨by decide, fun h => absurd h.1 (by decide)⟩

/-- The page that a node of one page has, in pages of four: a page of the block is missed. -/
theorem setSubPageStatusOnFlash_misses : ¬ SetsExactly ⟨4, 8⟩ 7 4 4 (-2) fun flash =>
    setSubPageStatusOnFlash ⟨4, 8⟩ flash 4 ⟨0, 4, 0, 7, 1, 0⟩ 0 (-2) := by
  intro hset
  have hpage := hset (fun _ _ _ => -1) 7 1 0 (by decide) (by decide) (by decide) (by decide)
  revert hpage
  decide

end WiscKey.Beyond
