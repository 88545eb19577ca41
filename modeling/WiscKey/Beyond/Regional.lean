import Mathlib.Data.Int.DivMod
import WiscKey.Flash.LruListSram

/-!
# Requests over several virtual regions

The LBAs are divided among the virtual regions. `WriteRegional` is to hand each region its part of
a request, but takes the region of the first LBA for that of the last one too, so that it makes one
call of `Write` for the whole request.
-/

namespace WiscKey.Beyond

/-- `MaxLBA` and `VirtualRegionNum`. -/
structure Regions where
  maxLBA : Int
  virtualRegionNum : Int
  pos : 0 < virtualRegionNum

/-- `virtualRegionAddrSize`. -/
def Regions.virtualRegionAddrSize (g : Regions) : Int := g.maxLBA.tdiv g.virtualRegionNum

/-- The region that `ConvertLbaToVirtualRegion` returns for an LBA, if it is not NULL. -/
def Regions.requested (g : Regions) (lba : Int) : Option Int :=
  if g.maxLBA < lba then none
  else
    let virtualRegionNum := lba.tdiv g.virtualRegionAddrSize
    if g.virtualRegionNum ≤ virtualRegionNum then none else some virtualRegionNum

/-- `ConvertLbaToVirtualRegionNum`; its NULL is the number 0. -/
def convertLbaToVirtualRegionNum (g : Regions) (lba : Int) : Int := (g.requested lba).getD 0

/-- `ConvertLbaToVirtualRegion`: the region, and the list of the regions in SRAM, in which it is
moved or put to the head. A request to write marks it as dirty. -/
def convertLbaToVirtualRegion (g : Regions) (sramSizeLimit : Int) (fuel : Nat)
    (regionSize : Int → Int) (isWrite : Bool) (l : Flash.LRUSRAMList) (lba : Int) :
    Option (Option Int × Flash.LRUSRAMList) :=
  match g.requested lba with
  | none => some (none, l)
  | some num =>
    let found :=
      match if l.len ≠ 0 then l.isElemenetInLRUListS num else none with
      | some pos =>
        (l.moveElemenetToTheHeadofLRUListS fuel num pos).map fun l => (pos, l)
      | none => l.addElemenetToTheHeadOfLRUListS sramSizeLimit fuel num (regionSize num)
    found.map fun (pos, l) =>
      (some num, if isWrite then { l with toLRUListD := l.setDirty pos true } else l)

section WriteRegional

variable {σ : Type} (g : Regions) (write : Int → Int → σ → Option (Int × σ))

/-- The loop of `WriteRegional` over the regions before the last one. -/
def writeHeads (headRegion overlap : Int) :
    Nat → Int → Int → Int → Int → σ → Option (Int × Int × σ)
  | 0, _, _, _, _, _ => none
  | fuel + 1, i, currentRegion, startLba, res, s =>
    if overlap < i then
      let len := (currentRegion + 1) * g.virtualRegionAddrSize - startLba
      (write startLba len s).bind fun (written, s) =>
        writeHeads headRegion overlap fuel (i + 1) (headRegion + (i + 1))
          ((currentRegion + 1) * g.virtualRegionAddrSize) (res + written) s
    else some (startLba, res, s)

/-- `WriteRegional`, over what `Write` does. -/
def writeRegional (fuel : Nat) (lba length : Int) (s : σ) : Option (Int × σ) :=
  let headRegion := convertLbaToVirtualRegionNum g lba
  let tailRegion := convertLbaToVirtualRegionNum g lba
  if headRegion = tailRegion then write lba length s
  else
    let overlap := tailRegion - headRegion
    (writeHeads g write headRegion overlap fuel 0 headRegion lba 0 s).bind
      fun (startLba, res, s) =>
        (write startLba (lba + length - startLba) s).map fun (written, s) => (res + written, s)

/-- Calls of `Write`, one after the other, and the sum of their results. -/
def performWrites : List (Int × Int) → σ → Option (Int × σ)
  | [], s => some (0, s)
  | (lba, length) :: calls, s =>
    (write lba length s).bind fun (written, s) =>
      (performWrites calls s).map fun (res, s) => (written + res, s)

end WriteRegional

/-- The calls are for parts that follow each other from one LBA to another. -/
def CoversInOrder (stop : Int) : Int → List (Int × Int) → Prop
  | start, [] => start = stop
  | start, (lba, length) :: calls =>
    lba = start ∧ 0 < length ∧ CoversInOrder stop (lba + length) calls

/-- The part of a call lies in the region that is returned for its first LBA. -/
def InOwnRegion (g : Regions) (call : Int × Int) : Prop :=
  ∃ num, g.requested call.1 = some num ∧ num * g.virtualRegionAddrSize ≤ call.1 ∧
    call.1 + call.2 ≤ (num + 1) * g.virtualRegionAddrSize

/-- Whatever `Write` does, a request is split into calls that cover it, each for one region. -/
def SplitsAtRegions (g : Regions) (fuel : Nat) (lba length : Int) : Prop :=
  ∃ calls, (∀ (σ : Type) (write : Int → Int → σ → Option (Int × σ)) (s : σ),
      writeRegional g write fuel lba length s = performWrites write calls s) ∧
    CoversInOrder (lba + length) lba calls ∧ ∀ call ∈ calls, InOwnRegion g call

/-- Both regions are that of the first LBA, so there is one call. -/
theorem writeRegional_eq {σ : Type} (g : Regions) (write : Int → Int → σ → Option (Int × σ))
    (fuel : Nat) (lba length : Int) (s : σ) :
    writeRegional g write fuel lba length s = write lba length s :=
  if_pos rfl

/-- A `Write` that notes the calls. -/
def noteWrite (lba length : Int) (noted : List (Int × Int)) :
    Option (Int × List (Int × Int)) :=
  some (0, noted ++ [(lba, length)])

theorem performWrites_noteWrite (calls noted : List (Int × Int)) :
    (performWrites noteWrite calls noted).map Prod.snd = some (noted ++ calls) := by
  induction calls generalizing noted with
  | nil => simp [performWrites]
  | cons call calls ih =>
    have hrest := ih (noted ++ [call])
    rw [List.append_assoc, List.singleton_append] at hrest
    rw [← hrest, performWrites, noteWrite, Option.bind_some, Option.map_map]
    rfl

theorem performWrites_singleton {σ : Type} (write : Int → Int → σ → Option (Int × σ))
    (lba length : Int) (s : σ) : performWrites write [(lba, length)] s = write lba length s := by
  simp [performWrites]

/-- Only the calls that are made are made by every `Write`. -/
theorem eq_of_performWrites {lba length : Int} {calls : List (Int × Int)}
    (h : ∀ (σ : Type) (write : Int → Int → σ → Option (Int × σ)) (s : σ),
      write lba length s = performWrites write calls s) : calls = [(lba, length)] := by
  have hnoted := congrArg (Option.map Prod.snd) (h _ noteWrite [])
  rw [performWrites_noteWrite] at hnoted
  exact (Option.some.inj hnoted).symm

section Requests

variable {g : Regions} {lba length : Int}

/-- There are LBAs in the regions only if each region has some, and then `MaxLBA` is behind
them. -/
theorem Regions.addrSize_pos (hstart : 0 ≤ lba) (hlength : 1 ≤ length)
    (hend : lba + length ≤ g.virtualRegionAddrSize * g.virtualRegionNum) :
    0 < g.virtualRegionAddrSize ∧ g.virtualRegionAddrSize * g.virtualRegionNum ≤ g.maxLBA := by
  have hnum := g.pos
  have hsize : 0 < g.virtualRegionAddrSize := by
    by_contra hle
    have hprod := Int.mul_nonpos_of_nonpos_of_nonneg (Int.not_lt.mp hle) hnum.le
    omega
  refine ⟨hsize, ?_⟩
  have hmax : 0 ≤ g.maxLBA := by
    by_contra hneg
    have htdiv := Int.tdiv_nonneg (show 0 ≤ -g.maxLBA by omega) hnum.le
    rw [Int.neg_tdiv] at htdiv
    unfold Regions.virtualRegionAddrSize at hsize
    omega
  unfold Regions.virtualRegionAddrSize
  rw [Int.tdiv_eq_ediv_of_nonneg hmax]
  exact Int.ediv_mul_le _ hnum.ne'

/-- The region of an LBA that is in one. -/
theorem Regions.requested_eq (hstart : 0 ≤ lba) (hlength : 1 ≤ length)
    (hend : lba + length ≤ g.virtualRegionAddrSize * g.virtualRegionNum) :
    g.requested lba = some (lba / g.virtualRegionAddrSize) := by
  obtain ⟨hsize, hmax⟩ := g.addrSize_pos hstart hlength hend
  have hlt : lba / g.virtualRegionAddrSize < g.virtualRegionNum := by
    rw [Int.ediv_lt_iff_lt_mul hsize, Int.mul_comm]
    omega
  unfold Regions.requested
  rw [if_neg (by omega), Int.tdiv_eq_ediv_of_nonneg hstart]
  exact if_neg (Int.not_le.mpr hlt)

/-- A part of the LBAs lies in the region of its first one exactly when the last one does. -/
theorem inOwnRegion_iff (hstart : 0 ≤ lba) (hlength : 1 ≤ length)
    (hend : lba + length ≤ g.virtualRegionAddrSize * g.virtualRegionNum) :
    InOwnRegion g (lba, length) ↔
      lba / g.virtualRegionAddrSize = (lba + length - 1) / g.virtualRegionAddrSize := by
  obtain ⟨hsize, -⟩ := g.addrSize_pos hstart hlength hend
  have hmono : lba / g.virtualRegionAddrSize ≤ (lba + length - 1) / g.virtualRegionAddrSize :=
    Int.ediv_le_ediv hsize (by omega)
  have hbelow : lba + length ≤ (lba / g.virtualRegionAddrSize + 1) * g.virtualRegionAddrSize ↔
      (lba + length - 1) / g.virtualRegionAddrSize < lba / g.virtualRegionAddrSize + 1 := by
    rw [Int.ediv_lt_iff_lt_mul hsize]
    omega
  constructor
  · rintro ⟨num, hnum, -, hin⟩
    obtain rfl := Option.some.inj ((g.requested_eq hstart hlength hend).symm.trans hnum)
    have hlt := hbelow.mp hin
    omega
  · intro hsame
    exact ⟨_, g.requested_eq hstart hlength hend, Int.ediv_mul_le _ hsize.ne',
      hbelow.mpr (by omega)⟩

/-- A request is split at the borders of the regions exactly when it crosses none. -/
theorem writeRegional_splits_iff (fuel : Nat) (hstart : 0 ≤ lba) (hlength : 1 ≤ length)
    (hend : lba + length ≤ g.virtualRegionAddrSize * g.virtualRegionNum) :
    SplitsAtRegions g fuel lba length ↔
      lba / g.virtualRegionAddrSize = (lba + length - 1) / g.virtualRegionAddrSize := by
  rw [← inOwnRegion_iff hstart hlength hend]
  unfold SplitsAtRegions
  simp only [writeRegional_eq]
  constructor
  · rintro ⟨calls, hcalls, -, hregions⟩
    obtain rfl := eq_of_performWrites hcalls
    exact hregions _ List.mem_cons_self
  · intro hregion
    refine ⟨[(lba, length)], fun σ write s => (performWrites_singleton ..).symm,
      ⟨rfl, hlength, rfl⟩, ?_⟩
    rintro call hcall
    obtain rfl := List.mem_singleton.mp hcall
    exact hregion

end Requests

/-- Two regions of eight LBAs. -/
def twoRegions : Regions := ⟨16, 2, by decide⟩

/-- A request within the second region. -/
theorem writeRegional_splits_inside : SplitsAtRegions twoRegions 0 9 6 :=
  (writeRegional_splits_iff 0 (by decide) (by decide) (by decide)).mpr (by decide)

/-- A request over the border of the regions is one call for the first region. -/
theorem writeRegional_crosses :
    ¬ ∀ (g : Regions) (fuel : Nat) (lba length : Int), 0 ≤ lba → 1 ≤ length →
      lba + length ≤ g.virtualRegionAddrSize * g.virtualRegionNum →
      SplitsAtRegions g fuel lba length := by
  intro h
  obtain ⟨calls, hcalls, -, hregions⟩ :=
    h twoRegions 8 6 4 (by decide) (by decide) (by decide)
  obtain rfl := eq_of_performWrites fun σ write s => (writeRegional_eq ..).symm.trans
    (hcalls σ write s)
  have hregion := (inOwnRegion_iff (by decide) (by decide) (by decide)).mp
    (hregions _ List.mem_cons_self)
  exact absurd hregion (by decide)

end WiscKey.Beyond
