import WiscKey.Table.Block
import Mathlib.Tactic.SplitIfs

/-!
# Decoding a block that nothing is known of

Whatever the contents of a block are, an iterator reads inside the block and each of its loops
ends, as long as the 32-bit sums of its checks do not wrap around. An entry that does not fit in
the block makes the iterator invalid, with a status.
-/

namespace WiscKey

namespace Block

section Conditions

variable (cmp : Comparator) (b : Block)

/-- At an offset there is no entry that fits in front of the restart array and shares at most a
key of some size. -/
def Malformed (p keySize : Nat) : Prop :=
  ∀ e, b.entryAt p = some (some e) →
    ¬ (e.keyPtr + e.nonShared + e.valueLength ≤ b.restartOffset ∧ e.shared ≤ keySize)

/-- The round decodes an entry that is malformed; at a restart point nothing is shared. -/
def Meets : BlockMachine → Prop
  | .scan _ it => ∃ p, it.nextEntryOffset = some p ∧ p < b.restartOffset ∧
      b.Malformed p it.key.length
  | .bisect _ left right _ => left < right ∧
      ∃ p, b.getRestartPoint (mid left right) = some p ∧ b.Malformed p 0
  | _ => False

/-- The check of an entry that is let through did not wrap around. -/
def NoWrap (p : Nat) : Prop :=
  ∀ e, b.decodeEntry p = some (some e) → e.nonShared + e.valueLength < 2 ^ 32

/-- The sums of the round do not wrap around. -/
def Fits : BlockMachine → Prop
  | .scan _ it => ∀ p, it.nextEntryOffset = some p → b.NoWrap p
  | .bisect _ left right _ => left < right → left + right + 1 < 2 ^ 32 ∧
      ∀ p, b.getRestartPoint (mid left right) = some p → b.NoWrap p
  | _ => True

/-- The iterator is in a call. -/
def Busy : BlockMachine → Prop
  | .empty _ => False
  | .idle _ => False
  | _ => True

/-- The states that an iterator comes to, by calls and by rounds that meet a condition. -/
inductive Reaches (cond : BlockMachine → Prop) : BlockMachine → Prop
  | new : Reaches cond b.newIterator
  | call {m m' : BlockMachine} (c : BlockCall) (h : Reaches cond m) (hcall : b.call m c = some m') :
      Reaches cond m'
  | step {m m' : BlockMachine} (h : Reaches cond m) (hcond : cond m)
      (hstep : b.step cmp m = some m') : Reaches cond m'

/-- An entry that the iterator hands out is inside the block; its key was put together from what
was read. -/
def Inside : BlockMachine → Prop
  | .idle it => b.valid it = true →
      ∃ v, it.value = some v ∧ v.1 + v.2 ≤ b.restartOffset ∧ b.restartOffset ≤ b.data.length
  | _ => True

/-- A bound of the rounds to come. -/
def rank : BlockMachine → Nat
  | .empty _ => 0
  | .idle _ => 0
  | .scan _ it => b.restartOffset - it.nextEntryOffset.getD 0 + 1
  | .restart _ _ _ => b.restartOffset + 2
  | .back _ it => b.restartOffset + 3 + it.restartIndex
  | .bisect _ left right _ => b.restartOffset + 3 + (right - left)

end Conditions

section Reads

variable {b : Block}

/-- The restart array is inside the block. -/
structure Sound (b : Block) : Prop where
  pos : 0 < b.num
  small : b.restartOffset < 2 ^ 32
  array : b.restartOffset + b.num * 4 ≤ b.data.length

theorem num_lt (b : Block) : b.num < 2 ^ 32 := decodeFixed32_lt _

/-- An iterator that is not empty has a restart array inside its block. -/
theorem newIterator_cases (contents : Bytes) :
    (∃ status, (new contents).newIterator = .empty status) ∨
      (new contents).Sound ∧ (new contents).newIterator =
        .idle ⟨(new contents).restartOffset, (new contents).num, [], none, .ok⟩ := by
  have hlt : numRestarts contents < 2 ^ 32 := decodeFixed32_lt _
  rcases Nat.lt_or_ge contents.length 4 with hshort | hlong
  · exact .inl ⟨_, by rw [new, if_pos hshort, newIterator, if_pos (Nat.zero_lt_succ 3)]⟩
  rcases Nat.lt_or_ge ((contents.length - 4) / 4) (numRestarts contents) with hmany | hfew
  · refine .inl ⟨.corruption "bad block contents", ?_⟩
    rw [new, if_neg (Nat.not_lt.mpr hlong), if_pos hmany, newIterator, if_pos (Nat.zero_lt_succ 3)]
  have hnew : new contents = ⟨contents, contents.length,
      (contents.length - (1 + numRestarts contents) % 2 ^ 32 * 4) % 2 ^ 32⟩ := by
    rw [new, if_neg (Nat.not_lt.mpr hlong), if_neg (Nat.not_lt.mpr hfew)]
  rw [newIterator, hnew]
  simp only [if_neg (Nat.not_lt.mpr hlong), num]
  rcases Nat.eq_zero_or_pos (numRestarts contents) with hzero | hpos
  · exact .inl ⟨_, if_pos hzero⟩
  · refine .inr ⟨⟨hpos, Nat.mod_lt _ (by decide), ?_⟩, if_neg (Nat.ne_of_gt hpos)⟩
    simp only [num]
    omega

theorem read_eq {p n : Nat} (h : p + n ≤ b.data.length) :
    b.read p n = some ((b.data.drop p).take n) := if_pos h

theorem Sound.getRestartPoint (h : b.Sound) {i : Nat} (hi : i < b.num) :
    ∃ p < 2 ^ 32, b.getRestartPoint i = some p := by
  have harray := h.array
  rw [Block.getRestartPoint, if_pos hi, read_eq (by omega), Option.map_some]
  exact ⟨_, decodeFixed32_lt _, rfl⟩

theorem Sound.advanceRestart (h : b.Sound) (current rounds : Nat) {index : Nat}
    (hindex : index < b.num) :
    ∃ i, b.advanceRestart current rounds index = some i ∧ index ≤ i ∧ i < b.num := by
  induction rounds generalizing index with
  | zero => exact ⟨index, rfl, le_rfl, hindex⟩
  | succ rounds ih =>
    rw [Block.advanceRestart]
    split_ifs with hnext
    · obtain ⟨p, -, hp⟩ := h.getRestartPoint hnext
      rw [hp]
      simp only [Option.bind_eq_bind, Option.bind_some]
      split_ifs
      · obtain ⟨i, hi, hle, hlt⟩ := ih hnext
        exact ⟨i, hi, by omega, hlt⟩
      · exact ⟨index, rfl, le_rfl, hindex⟩
    · exact ⟨index, rfl, le_rfl, hindex⟩

/-- The numbers in front of an entry take three bytes at least. -/
theorem length_decodeHeader {bytes rest : Bytes} {s n v : Nat}
    (h : decodeHeader bytes = some (s, n, v, rest)) : rest.length + 3 ≤ bytes.length := by
  unfold decodeHeader at h
  split at h
  · rename_i a₁ a₂ a₃ tail
    split_ifs at h
    · cases h
      simp
    · obtain ⟨⟨s', rest₁⟩, h₁, h⟩ := Option.bind_eq_some_iff.mp h
      obtain ⟨⟨n', rest₂⟩, h₂, h⟩ := Option.bind_eq_some_iff.mp h
      obtain ⟨⟨v', rest₃⟩, h₃, h⟩ := Option.bind_eq_some_iff.mp h
      cases h
      have hlt₁ := length_getVarint_lt h₁
      have hlt₂ := length_getVarint_lt h₂
      have hlt₃ := length_getVarint_lt h₃
      omega
  · cases h

theorem Sound.entryAt (h : b.Sound) (p : Nat) : ∃ e, b.entryAt p = some e ∧
    ∀ e' ∈ e, p + 3 ≤ e'.keyPtr ∧ e'.keyPtr ≤ b.restartOffset := by
  have harray := h.array
  rw [Block.entryAt]
  split_ifs with hshort
  · exact ⟨none, rfl, nofun⟩
  · rw [read_eq (by omega), Option.map_some]
    refine ⟨_, rfl, fun e he => ?_⟩
    obtain ⟨⟨s, n, v, rest⟩, hheader, rfl⟩ := Option.map_eq_some_iff.mp he
    have hlen := length_decodeHeader hheader
    rw [List.length_take, List.length_drop] at hlen
    simp only
    omega

/-- Where the check does not wrap around, it lets exactly the entries through that fit. -/
theorem Sound.decodeEntry (h : b.Sound) {p : Nat} (hp : b.NoWrap p) :
    ∃ e, b.decodeEntry p = some e ∧ ∀ e', e = some e' ↔ b.entryAt p = some (some e') ∧
      e'.keyPtr + e'.nonShared + e'.valueLength ≤ b.restartOffset := by
  obtain ⟨e, he, hplace⟩ := h.entryAt p
  have hsmall := h.small
  refine ⟨e.filter b.hasRoom, by rw [Block.decodeEntry, he]; rfl, fun e' => ?_⟩
  rw [he, Option.some.injEq, Option.filter_eq_some_iff]
  refine and_congr_right fun heq => ?_
  obtain ⟨-, hptr⟩ := hplace e' heq
  have hrest : (b.restartOffset - e'.keyPtr) % 2 ^ 32 = b.restartOffset - e'.keyPtr :=
    Nat.mod_eq_of_lt (by omega)
  rw [hasRoom, decide_eq_true_eq, hrest]
  constructor
  · intro hroom
    have hdecode : b.decodeEntry p = some (some e') := by
      rw [Block.decodeEntry, he, Option.map_some, heq, Option.filter_some, if_pos]
      rw [hasRoom, decide_eq_true_eq, hrest]
      exact hroom
    have hsum := hp e' hdecode
    rw [Nat.mod_eq_of_lt hsum] at hroom
    omega
  · intro hfits
    rw [Nat.mod_eq_of_lt (by omega)]
    omega

/-- What `ParseNextKey` does at an offset: it is behind the entries, or at one that is malformed,
or it reads the entry. -/
theorem Sound.parseNextKey (h : b.Sound) {it : BlockIter} {p : Nat}
    (hp : it.nextEntryOffset = some p) (hindex : it.restartIndex < b.num) (hwrap : b.NoWrap p) :
    (b.restartOffset ≤ p ∧ b.parseNextKey it =
        some ({ it with current := b.restartOffset, restartIndex := b.num }, false)) ∨
      (p < b.restartOffset ∧ b.Malformed p it.key.length ∧
        b.parseNextKey it = some (b.corruptionError, false)) ∨
      p < b.restartOffset ∧ ∃ e i, b.entryAt p = some (some e) ∧
        e.keyPtr + e.nonShared + e.valueLength ≤ b.restartOffset ∧ e.shared ≤ it.key.length ∧
        b.advanceRestart p (b.num - it.restartIndex) it.restartIndex = some i ∧ i < b.num ∧
        b.parseNextKey it = some ({ it with
          current := p
          restartIndex := i
          key := it.key.take e.shared ++ (b.data.drop e.keyPtr).take e.nonShared
          value := some (e.keyPtr + e.nonShared, e.valueLength) }, true) := by
  have harray := h.array
  rcases Nat.lt_or_ge p b.restartOffset with hlt | hge
  · obtain ⟨e, hdecode, he⟩ := h.decodeEntry hwrap
    have hparse : b.parseNextKey it = b.takeEntry it p e := by
      rw [Block.parseNextKey, hp, Option.bind_eq_bind, Option.bind_some,
        if_neg (Nat.not_le.mpr hlt), hdecode]
      rfl
    cases e with
    | none =>
      refine .inr (.inl ⟨hlt, fun e' he' hfits => ?_, hparse⟩)
      cases (he e').mpr ⟨he', hfits.1⟩
    | some e =>
      obtain ⟨hentry, hfits⟩ := (he e).mp rfl
      rcases Nat.lt_or_ge it.key.length e.shared with hshort | hlong
      · rw [takeEntry, if_pos hshort] at hparse
        refine .inr (.inl ⟨hlt, fun e' he' hfits' => ?_, hparse⟩)
        rw [hentry, Option.some.injEq, Option.some.injEq] at he'
        rw [← he'] at hfits'
        omega
      · obtain ⟨i, hi, -, hilt⟩ := h.advanceRestart p (b.num - it.restartIndex) hindex
        rw [takeEntry, if_neg (Nat.not_lt.mpr hlong), read_eq (by omega), hi] at hparse
        exact .inr (.inr ⟨hlt, e, i, hentry, hfits, hlong, hi, hilt, hparse⟩)
  · refine .inl ⟨hge, ?_⟩
    rw [Block.parseNextKey, hp, Option.bind_eq_bind, Option.bind_some, if_pos hge]

end Reads

section Rounds

variable {cmp : Comparator} {b : Block}

/-- What holds of an iterator between its rounds. -/
def Safe (b : Block) : BlockMachine → Prop
  | .empty _ => True
  | .idle it => b.valid it = true → it.restartIndex < b.num ∧
      ∃ v, it.value = some v ∧ v.1 + v.2 ≤ b.restartOffset
  | .bisect _ left right _ => left ≤ right ∧ right < b.num
  | .restart index _ _ => index < b.num
  | .scan _ it => it.restartIndex < b.num ∧ ∃ v, it.value = some v ∧ v.1 + v.2 < 2 ^ 32
  | .back _ it => it.restartIndex < b.num

theorem nextEntryOffset_eq {it : BlockIter} {v : Nat × Nat} (h : it.value = some v)
    (hlt : v.1 + v.2 < 2 ^ 32) : it.nextEntryOffset = some (v.1 + v.2) := by
  rw [BlockIter.nextEntryOffset, h, Option.map_some, Nat.mod_eq_of_lt hlt]

theorem safe_invalid {it : BlockIter} (h : it.current = b.restartOffset) : b.Safe (.idle it) := by
  intro hvalid
  rw [valid, h, decide_eq_true_eq] at hvalid
  exact absurd hvalid (Nat.lt_irrefl _)

/-- A round of the binary search. -/
theorem Sound.step_bisect (h : b.Sound) {target : Bytes} {left right : Nat} {it : BlockIter}
    (hle : left ≤ right) (hright : right < b.num)
    (hfits : b.Fits (.bisect target left right it)) :
    ∃ m, b.step cmp (.bisect target left right it) = some m ∧ b.Safe m ∧
      b.rank m < b.rank (.bisect target left right it) ∧
      (b.Meets (.bisect target left right it) → m = .idle b.corruptionError) := by
  have hnum := num_lt b
  have harray := h.array
  rw [step]
  split_ifs with hlt
  · obtain ⟨hsum, hwrap⟩ := hfits hlt
    have hmid : mid left right = (left + right + 1) / 2 := by rw [mid, Nat.mod_eq_of_lt hsum]
    obtain ⟨p, -, hp⟩ := h.getRestartPoint (i := mid left right) (by omega)
    obtain ⟨e, hdecode, he⟩ := h.decodeEntry (hwrap p hp)
    rw [hp, Option.bind_eq_bind, Option.bind_some, hdecode, Option.bind_eq_bind, Option.bind_some]
    cases e with
    | none =>
      exact ⟨_, rfl, safe_invalid rfl, by simp only [rank]; omega, fun _ => rfl⟩
    | some e =>
      obtain ⟨hentry, hroom⟩ := (he e).mp rfl
      simp only
      split_ifs with hshared
      · exact ⟨_, rfl, safe_invalid rfl, by simp only [rank]; omega, fun _ => rfl⟩
      · rw [read_eq (by omega), Option.bind_eq_bind, Option.bind_some]
        have hmeets : ¬ b.Meets (.bisect target left right it) := by
          rintro ⟨-, p', hp', hmalformed⟩
          rw [hp, Option.some.injEq] at hp'
          exact hmalformed e (hp' ▸ hentry) ⟨hroom, by omega⟩
        split_ifs
        · refine ⟨_, rfl, ⟨by omega, hright⟩, ?_, fun hm => absurd hm hmeets⟩
          simp only [rank]
          omega
        · have hpred : (mid left right + 2 ^ 32 - 1) % 2 ^ 32 = mid left right - 1 := by omega
          rw [hpred]
          refine ⟨_, rfl, ⟨by omega, by omega⟩, ?_, fun hm => absurd hm hmeets⟩
          simp only [rank]
          omega
  · refine ⟨_, rfl, show left < b.num by omega, ?_, fun hm => absurd hm.1 hlt⟩
    simp only [rank]
    omega

/-- A round over `ParseNextKey`. -/
theorem Sound.step_scan (h : b.Sound) {stop : Stop} {it : BlockIter}
    (hm : b.Safe (.scan stop it)) (hfits : b.Fits (.scan stop it)) :
    ∃ m, b.step cmp (.scan stop it) = some m ∧ b.Safe m ∧ b.rank m < b.rank (.scan stop it) ∧
      (b.Meets (.scan stop it) → m = .idle b.corruptionError) := by
  obtain ⟨hindex, v, hv, hlt⟩ := hm
  have hsmall := h.small
  have hnext := nextEntryOffset_eq hv hlt
  rw [step]
  rcases h.parseNextKey hnext hindex (hfits _ hnext) with ⟨hend, hparse⟩ | ⟨-, -, hparse⟩ |
    ⟨hinside, e, i, hentry, hroom, hshared, -, hi, hparse⟩
  · rw [hparse]
    refine ⟨_, rfl, safe_invalid rfl, Nat.succ_pos _, ?_⟩
    rintro ⟨p, hp, hplt, -⟩
    rw [hnext, Option.some.injEq] at hp
    omega
  · rw [hparse]
    exact ⟨_, rfl, safe_invalid rfl, Nat.succ_pos _, fun _ => rfl⟩
  · have hmeets : ¬ b.Meets (.scan stop it) := by
      rintro ⟨p, hp, -, hmalformed⟩
      rw [hnext, Option.some.injEq] at hp
      exact hmalformed e (hp ▸ hentry) ⟨hroom, hshared⟩
    obtain ⟨e', he', hplace⟩ := h.entryAt (v.1 + v.2)
    rw [hentry, Option.some.injEq] at he'
    obtain ⟨hptr, -⟩ := hplace e he'.symm
    rw [hparse, Option.map_some]
    split_ifs
    · refine ⟨_, rfl, ⟨hi, _, rfl, by simp only; omega⟩, ?_, fun hm => absurd hm hmeets⟩
      rw [rank, rank, hnext, nextEntryOffset_eq rfl (by simp only; omega)]
      simp only [Option.getD_some]
      omega
    · exact ⟨_, rfl, fun _ => ⟨hi, _, rfl, hroom⟩, Nat.succ_pos _, fun hm => absurd hm hmeets⟩

/-- A round reads inside the block, and fewer rounds are left. -/
theorem Sound.step (h : b.Sound) {m : BlockMachine} (hm : b.Safe m) (hbusy : Busy m)
    (hfits : b.Fits m) : ∃ m', b.step cmp m = some m' ∧ b.Safe m' ∧ b.rank m' < b.rank m ∧
      (b.Meets m → m' = .idle b.corruptionError) := by
  cases m with
  | empty status => exact hbusy.elim
  | idle it => exact hbusy.elim
  | bisect target left right it => exact h.step_bisect hm.1 hm.2 hfits
  | scan stop it => exact h.step_scan hm hfits
  | restart index stop it =>
    obtain ⟨p, hp, hpoint⟩ := h.getRestartPoint hm
    refine ⟨.scan stop { it with restartIndex := index, key := [], value := some (p, 0) },
      ?_, ⟨hm, (p, 0), rfl, hp⟩, ?_, nofun⟩
    · rw [Block.step, seekToRestartPoint, hpoint]
      rfl
    · simp only [rank]
      omega
  | back original it =>
    obtain ⟨p, -, hpoint⟩ := h.getRestartPoint hm
    rw [Block.step, hpoint, Option.bind_eq_bind, Option.bind_some]
    split_ifs with hge hzero
    · exact ⟨_, rfl, safe_invalid rfl, by simp only [rank]; omega, nofun⟩
    · have hlt : it.restartIndex < b.num := hm
      refine ⟨_, rfl, show it.restartIndex - 1 < b.num by omega, ?_, nofun⟩
      simp only [rank]
      omega
    · refine ⟨_, rfl, hm, ?_, nofun⟩
      simp only [rank]
      omega

/-- A call leaves a valid iterator at rest. -/
theorem Sound.start (h : b.Sound) {it : BlockIter} (hit : b.Safe (.idle it)) {c : BlockCall}
    {m : BlockMachine} (hstart : b.start it c = some m) : b.Safe m := by
  have hsmall := h.small
  have hpos := h.pos
  cases c with
  | seekToFirst =>
    cases hstart
    exact hpos
  | seekToLast =>
    cases hstart
    exact Nat.sub_lt hpos Nat.one_pos
  | seek target =>
    cases hstart
    exact ⟨Nat.zero_le _, Nat.sub_lt hpos Nat.one_pos⟩
  | next =>
    rw [Block.start] at hstart
    split_ifs at hstart with hvalid
    cases hstart
    obtain ⟨hindex, v, hv, hle⟩ := hit hvalid
    exact ⟨hindex, v, hv, by omega⟩
  | prev =>
    rw [Block.start] at hstart
    split_ifs at hstart with hvalid
    cases hstart
    exact (hit hvalid).1

/-- What is safe stays safe along the rounds whose sums do not wrap around. -/
theorem safe_of_reaches {contents : Bytes} {m : BlockMachine}
    (h : Reaches cmp (new contents) (new contents).Fits m) :
    (∃ status, m = .empty status) ∨ (new contents).Sound ∧ (new contents).Safe m := by
  rcases newIterator_cases contents with ⟨status, hempty⟩ | ⟨hsound, hnew⟩
  · refine .inl ⟨status, ?_⟩
    induction h with
    | new => exact hempty
    | call c h hcall ih =>
      subst ih
      cases c <;> cases hcall <;> rfl
    | step h hcond hstep ih =>
      subst ih
      cases hstep
  · refine .inr ⟨hsound, ?_⟩
    induction h with
    | new =>
      rw [hnew]
      exact safe_invalid rfl
    | @call m m' c h hcall ih =>
      cases m with
      | empty status => cases c <;> cases hcall <;> trivial
      | idle it => exact hsound.start ih hcall
      | bisect | restart | scan | back => cases hcall
    | @step m m' h hcond hstep ih =>
      have hbusy : Busy m := by
        cases m with
        | empty | idle => cases hstep
        | bisect | restart | scan | back => trivial
      obtain ⟨m'', hstep', hsafe, -⟩ := @Sound.step cmp _ hsound m ih hbusy hcond
      rw [hstep, Option.some.injEq] at hstep'
      exact hstep' ▸ hsafe

/-- Whatever the contents are, in all states that calls and rounds without a wrap-around lead to,
the entry that is handed out is inside the block, and a round without a wrap-around reads inside
the block and leaves fewer rounds. At a malformed entry it makes the iterator invalid, with a
status. -/
theorem reaches_safe {contents : Bytes} {m : BlockMachine}
    (h : Reaches cmp (new contents) (new contents).Fits m) :
    (new contents).Inside m ∧ (Busy m → (new contents).Fits m →
      ∃ m', (new contents).step cmp m = some m' ∧ (new contents).rank m' < (new contents).rank m ∧
        ((new contents).Meets m → ∃ it, m' = .idle it ∧ (new contents).valid it = false ∧
          it.status = .corruption "bad entry in block")) := by
  rcases safe_of_reaches h with ⟨status, rfl⟩ | ⟨hsound, hsafe⟩
  · exact ⟨trivial, fun hbusy => hbusy.elim⟩
  · have harray := hsound.array
    constructor
    · cases m with
      | idle it =>
        intro hvalid
        obtain ⟨-, v, hv, hle⟩ := hsafe hvalid
        exact ⟨v, hv, hle, by omega⟩
      | empty | bisect | restart | scan | back => trivial
    · intro hbusy hfits
      obtain ⟨m', hstep, -, hrank, hmeets⟩ := @Sound.step cmp _ hsound m hsafe hbusy hfits
      refine ⟨m', hstep, hrank, fun hm => ⟨_, hmeets hm, ?_, rfl⟩⟩
      exact decide_eq_false (Nat.lt_irrefl _)

end Rounds

section Examples

/-- A block with an entry whose value is shorter than it says. -/
def cutBlock : Bytes := [0, 1, 5, 97, 98, 0, 0, 0, 0, 1, 0, 0, 0]

/-- The entry of `cutBlock` is refused. -/
theorem reaches_safe_cutBlock : ∃ it, (new cutBlock).step bytewiseComparator
    (.scan .now ⟨5, 0, [], some (0, 0), .ok⟩) = some (.idle it) ∧
      it.status = .corruption "bad entry in block" := by
  have hreaches : Reaches bytewiseComparator (new cutBlock) (new cutBlock).Fits
      (.scan .now ⟨5, 0, [], some (0, 0), .ok⟩) :=
    .step (.call .seekToFirst .new rfl) trivial rfl
  have hentry : (new cutBlock).entryAt 0 = some (some ⟨0, 1, 5, 3⟩) := by decide
  have hdecode : (new cutBlock).decodeEntry 0 = some none := by decide
  obtain ⟨-, hround⟩ := reaches_safe hreaches
  obtain ⟨m, hstep, -, hmeets⟩ := hround trivial (by
    rintro p hp e he
    cases hp
    cases hdecode.symm.trans he)
  obtain ⟨it, rfl, -, hstatus⟩ := hmeets ⟨0, rfl, by decide, fun e he => by
    rw [hentry, Option.some.injEq, Option.some.injEq] at he
    subst he
    decide⟩
  exact ⟨it, hstep, hstatus⟩

/-- A block whose entry has a key of 2^32 - 1 bytes and a value of one byte. -/
def wrappingBlock : Bytes := [0, 255, 255, 255, 255, 15, 1, 0, 0, 0, 0, 1, 0, 0, 0]

/-- The sum of the two lengths is 0 in 32 bits, and the key is read outside the block. -/
theorem wrappingBlock_escapes : ∃ m, Reaches bytewiseComparator (new wrappingBlock)
    (fun _ => True) m ∧ Busy m ∧ (new wrappingBlock).step bytewiseComparator m = none :=
  ⟨.scan .now ⟨7, 0, [], some (0, 0), .ok⟩,
    .step (.call .seekToFirst .new rfl) trivial rfl, trivial, by decide⟩

end Examples

end Block

end WiscKey
