import WiscKey.Library.Cursor
import WiscKey.Table.BlockBuilder
import Mathlib.Logic.Relation

/-!
# Blocks come back as they were built

An iterator of a finished block is at an entry or at none. Each call leads it to the entry that a
cursor over the added entries would be at: the loops find it through the restart points and by
decoding from there on.
-/

namespace WiscKey

section Header

theorem getVarint32_of_lt {a : UInt8} (h : a.toNat < 128) (l : Bytes) :
    getVarint32 (a :: l) = some (a.toNat, l) := by
  have hvarint : encodeVarint32 a.toNat = [a] := by
    have hsmall : a.toNat < 2 ^ 7 := by omega
    rw [encodeVarint32, if_pos hsmall, UInt8.ofNat_toNat]
  have hread := getVarint32_encodeVarint32 (v := a.toNat) (by omega) l
  rwa [hvarint] at hread

/-- The fast path of `DecodeEntry` reads what the three decoders read. -/
theorem decodeHeader_eq (a₁ a₂ a₃ : UInt8) (l : Bytes) :
    Block.decodeHeader (a₁ :: a₂ :: a₃ :: l) = (do
      let (s, rest) ← getVarint32 (a₁ :: a₂ :: a₃ :: l)
      let (n, rest) ← getVarint32 rest
      let (v, rest) ← getVarint32 rest
      some (s, n, v, rest)) := by
  rw [Block.decodeHeader]
  split_ifs with hfast
  · have hor : (a₁.toNat ||| a₂.toNat) ||| a₃.toNat < 128 := by
      have hlt := UInt8.lt_iff_toNat_lt.mp hfast
      rwa [UInt8.toNat_or, UInt8.toNat_or] at hlt
    have h₃ : a₃.toNat < 128 := Nat.right_le_or.trans_lt hor
    have h₁₂ : a₁.toNat ||| a₂.toNat < 128 := Nat.left_le_or.trans_lt hor
    have h₁ : a₁.toNat < 128 := Nat.left_le_or.trans_lt h₁₂
    have h₂ : a₂.toNat < 128 := Nat.right_le_or.trans_lt h₁₂
    simp only [getVarint32_of_lt h₁, getVarint32_of_lt h₂, getVarint32_of_lt h₃,
      Option.bind_eq_bind, Option.bind_some]
  · rfl

theorem encodeVarint32_ne_nil (v : Nat) : ∃ a l, encodeVarint32 v = a :: l := by
  unfold encodeVarint32
  split_ifs <;> exact ⟨_, _, rfl⟩

/-- The numbers in front of an entry are read back. -/
theorem decodeHeader_encode {s n v : Nat} (hs : s < 2 ^ 32) (hn : n < 2 ^ 32) (hv : v < 2 ^ 32)
    (rest : Bytes) : Block.decodeHeader
      (encodeVarint32 s ++ (encodeVarint32 n ++ (encodeVarint32 v ++ rest))) =
        some (s, n, v, rest) := by
  obtain ⟨a₁, a₂, a₃, l, hbytes⟩ : ∃ a₁ a₂ a₃ l,
      encodeVarint32 s ++ (encodeVarint32 n ++ (encodeVarint32 v ++ rest)) =
        a₁ :: a₂ :: a₃ :: l := by
    obtain ⟨a₁, l₁, h₁⟩ := encodeVarint32_ne_nil s
    obtain ⟨a₂, l₂, h₂⟩ := encodeVarint32_ne_nil n
    obtain ⟨a₃, l₃, h₃⟩ := encodeVarint32_ne_nil v
    rw [h₁, h₂, h₃]
    cases l₁ with
    | nil =>
      cases l₂ with
      | nil => exact ⟨_, _, _, _, rfl⟩
      | cons => exact ⟨_, _, _, _, rfl⟩
    | cons b₁ l₁ =>
      cases l₁ with
      | nil => exact ⟨_, _, _, _, rfl⟩
      | cons => exact ⟨_, _, _, _, rfl⟩
  rw [hbytes, decodeHeader_eq, ← hbytes]
  simp only [getVarint32_encodeVarint32 hs, getVarint32_encodeVarint32 hn,
    getVarint32_encodeVarint32 hv, Option.bind_eq_bind, Option.bind_some]

end Header

section Rows

variable {rows : List BlockRow} {points : List Nat} {i j : Nat}

theorem rowStart_succ (h : i < rows.length) :
    rowStart rows (i + 1) = rowStart rows i + rows[i].bytes.length := by
  rw [rowStart, segmentStart_succ (by rwa [List.length_map]), List.getElem_map, rowStart]

theorem length_bytes_ge (r : BlockRow) :
    3 + (r.key.length - r.shared) + r.value.length ≤ r.bytes.length := by
  have hpos : ∀ v, 1 ≤ (encodeVarint32 v).length := by
    intro v
    obtain ⟨a, l, h⟩ := encodeVarint32_ne_nil v
    rw [h]
    exact Nat.succ_pos _
  have h₁ := hpos (r.shared % 2 ^ 32)
  have h₂ := hpos ((r.key.length - r.shared) % 2 ^ 32)
  have h₃ := hpos (r.value.length % 2 ^ 32)
  rw [BlockRow.bytes]
  simp only [List.length_append, List.length_drop]
  omega

theorem rowStart_lt (hij : i < j) (hj : j ≤ rows.length) : rowStart rows i < rowStart rows j := by
  induction j with
  | zero => omega
  | succ j ih =>
    have hjlt : j < rows.length := hj
    have hsucc := rowStart_succ hjlt
    have hlen := length_bytes_ge rows[j]
    rcases Nat.lt_or_ge i j with hlt | hge
    · have hij' := ih hlt (by omega)
      omega
    · obtain rfl : i = j := by omega
      omega

/-- A key is not longer than what was written up to it. -/
theorem RowsOk.length_key_le (h : RowsOk rows points) (hi : i < rows.length) :
    rows[i].key.length ≤ rowStart rows (i + 1) := by
  induction i with
  | zero =>
    have hzero : rows[0].shared = 0 :=
      h.restart 0 (List.mem_of_head? h.first) hi
    have hsucc := rowStart_succ hi
    have hlen := length_bytes_ge rows[0]
    omega
  | succ i ih =>
    have hprev := ih (by omega)
    have hshared := (h.shared i hi).1
    have hsucc := rowStart_succ hi
    have hlen := length_bytes_ge rows[i + 1]
    omega

end Rows

namespace Block

variable {b : Block} {rows : List BlockRow} {points : List Nat} {i j : Nat}

/-- An entry is decoded where it starts, and its key and value are found in the block. -/
theorem Laid.entryAt (h : b.Laid rows points) (hi : i < rows.length) : ∃ ptr,
    b.entryAt (rowStart rows i) = some (some ⟨rows[i].shared,
      rows[i].key.length - rows[i].shared, rows[i].value.length, ptr⟩) ∧
    ptr + (rows[i].key.length - rows[i].shared) + rows[i].value.length = rowStart rows (i + 1) ∧
    (b.data.drop ptr).take (rows[i].key.length - rows[i].shared) =
      rows[i].key.drop rows[i].shared ∧
    (b.data.drop (ptr + (rows[i].key.length - rows[i].shared))).take rows[i].value.length =
      rows[i].value := by
  obtain ⟨tail, hdata⟩ := h.front
  have hsmall := h.sound.small
  have hlimit := h.limit
  have hsucc := rowStart_succ hi
  have hle : rowStart rows (i + 1) ≤ rowStart rows rows.length := by
    rcases Nat.lt_or_ge (i + 1) rows.length with hlt | hge
    · exact Nat.le_of_lt (rowStart_lt hlt le_rfl)
    · obtain hlast : i + 1 = rows.length := by omega
      rw [hlast]
  have hkey := h.ok.length_key_le hi
  have hshared := h.ok.le_length _ (List.getElem_mem hi)
  have hbytes := length_bytes_ge rows[i]
  have hsplit := flatten_split (l := rows.map BlockRow.bytes) (by rwa [List.length_map])
  rw [List.getElem_map] at hsplit
  generalize hF : ((rows.map BlockRow.bytes).take i).flatten = F at hsplit
  generalize ((rows.map BlockRow.bytes).drop (i + 1)).flatten = G at hsplit
  have hFlen : F.length = rowStart rows i := by rw [← hF, rowStart, segmentStart]
  have hGlen : F.length + (rows[i].bytes.length + G.length) = b.restartOffset := by
    rw [hlimit, rowStart_length, ← hsplit, List.length_append, List.length_append]
  generalize rows[i] = r at *
  have hs : r.shared < 2 ^ 32 := by omega
  have hn : r.key.length - r.shared < 2 ^ 32 := by omega
  have hv : r.value.length < 2 ^ 32 := by omega
  generalize hH : encodeVarint32 r.shared ++ (encodeVarint32 (r.key.length - r.shared) ++
    encodeVarint32 r.value.length) = H
  have hr : r.bytes = H ++ (r.key.drop r.shared ++ r.value) := by
    rw [BlockRow.bytes, Nat.mod_eq_of_lt hs, Nat.mod_eq_of_lt hn, Nat.mod_eq_of_lt hv, ← hH]
    simp only [List.append_assoc]
  have hK : (r.key.drop r.shared).length = r.key.length - r.shared := List.length_drop
  have hrlen : r.bytes.length = H.length + (r.key.length - r.shared + r.value.length) := by
    rw [hr, List.length_append, List.length_append, hK]
  have hheader : decodeHeader (r.bytes ++ G) = some (r.shared, r.key.length - r.shared,
      r.value.length, r.key.drop r.shared ++ (r.value ++ G)) := by
    rw [← decodeHeader_encode hs hn hv, hr, ← hH]
    simp only [List.append_assoc]
  have hread : b.read (rowStart rows i) (b.restartOffset - rowStart rows i) =
      some (r.bytes ++ G) := by
    have harray := h.sound.array
    rw [read_eq (by omega), ← hdata, ← hsplit, List.append_assoc, ← hFlen, List.drop_left,
      List.take_left' (by rw [List.length_append]; omega)]
  have hdata' : b.data = (F ++ H) ++ (r.key.drop r.shared ++ (r.value ++ (G ++ tail))) := by
    rw [← hdata, ← hsplit, hr]
    simp only [List.append_assoc]
  refine ⟨(F ++ H).length, ?_, ?_, ?_, ?_⟩
  · rw [Block.entryAt, if_neg (by omega), hread, Option.map_some, hheader, Option.map_some,
      Option.some.injEq, Option.some.injEq, BlockEntry.mk.injEq]
    refine ⟨rfl, rfl, rfl, ?_⟩
    simp only [List.length_append, hK]
    omega
  · rw [List.length_append]
    omega
  · rw [hdata', List.drop_left, ← hK, List.take_left]
  · rw [hdata', ← hK, List.drop_length_add_append, List.drop_left, List.take_left]

theorem Laid.getRestartPoint (h : b.Laid rows points) {index r : Nat}
    (hr : points[index]? = some r) :
    index < b.num ∧ b.getRestartPoint index = some (rowStart rows r) := by
  obtain ⟨hlt, rfl⟩ := List.getElem?_eq_some_iff.mp hr
  exact ⟨h.num ▸ hlt, h.point index hlt⟩

theorem Laid.exists_point (h : b.Laid rows points) {index : Nat} (hindex : index < b.num) :
    ∃ r, points[index]? = some r := ⟨_, List.getElem?_eq_getElem (h.num ▸ hindex)⟩

/-- The iterator has a restart point that is not behind an entry. -/
def NotBehind (points : List Nat) (it : BlockIter) (i : Nat) : Prop :=
  ∃ r, points[it.restartIndex]? = some r ∧ r ≤ i

/-- The iterator is at an entry. -/
structure At (b : Block) (rows : List BlockRow) (points : List Nat) (i : Nat) (it : BlockIter) :
    Prop where
  lt : i < rows.length
  current : it.current = rowStart rows i
  key : it.key = rows[i].key
  value : ∃ v, it.value = some v ∧ v.1 + v.2 = rowStart rows (i + 1) ∧
    (b.data.drop v.1).take v.2 = rows[i].value
  index : NotBehind points it i

/-- The next entry to be decoded is the entry `i`, or there is none left. -/
structure Before (rows : List BlockRow) (points : List Nat) (i : Nat) (it : BlockIter) : Prop where
  le : i ≤ rows.length
  value : ∃ v, it.value = some v ∧ v.1 + v.2 = rowStart rows i
  key : ∀ h : i < rows.length, rows[i].shared ≤ it.key.length ∧
    it.key.take rows[i].shared = rows[i].key.take rows[i].shared
  index : NotBehind points it i

theorem At.before {it : BlockIter} (h : b.At rows points i it) (hok : RowsOk rows points) :
    Before rows points (i + 1) it where
  le := h.lt
  value := by
    obtain ⟨v, hv, hsum, -⟩ := h.value
    exact ⟨v, hv, hsum⟩
  key hi := by
    rw [h.key]
    exact hok.shared i hi
  index := by
    obtain ⟨r, hr, hle⟩ := h.index
    exact ⟨r, hr, Nat.le_succ_of_le hle⟩

theorem rowStart_mono (hij : i ≤ j) (hj : j ≤ rows.length) :
    rowStart rows i ≤ rowStart rows j := by
  rcases Nat.lt_or_ge i j with hlt | hge
  · exact Nat.le_of_lt (rowStart_lt hlt hj)
  · obtain rfl : i = j := by omega
    exact le_rfl

theorem lt_of_rowStart_lt (hi : i ≤ rows.length) (h : rowStart rows i < rowStart rows j) :
    i < j := by
  by_contra hge
  exact absurd h (Nat.not_lt.mpr (rowStart_mono (Nat.le_of_not_lt hge) hi))

theorem Before.nextEntryOffset {it : BlockIter} (h : Before rows points i it)
    (hlaid : b.Laid rows points) : it.nextEntryOffset = some (rowStart rows i) := by
  obtain ⟨v, hv, hsum⟩ := h.value
  have hsmall := hlaid.sound.small
  have hle := rowStart_mono h.le le_rfl
  rw [hlaid.limit] at hsmall
  rw [nextEntryOffset_eq hv (by omega), hsum]

/-- The restart index stays in front of the entry that was decoded. -/
theorem Laid.advanceRestart (h : b.Laid rows points) (hi : i < rows.length) (rounds : Nat)
    {index : Nat} (hindex : ∃ r, points[index]? = some r ∧ r ≤ i) :
    ∃ index', b.advanceRestart (rowStart rows i) rounds index = some index' ∧
      ∃ r, points[index']? = some r ∧ r ≤ i := by
  induction rounds generalizing index with
  | zero => exact ⟨index, rfl, hindex⟩
  | succ rounds ih =>
    rw [Block.advanceRestart]
    split_ifs with hnext
    · obtain ⟨r, hr⟩ := h.exists_point hnext
      rw [(h.getRestartPoint hr).2, Option.bind_eq_bind, Option.bind_some]
      split_ifs with hlt
      · refine ih ⟨r, hr, ?_⟩
        have hle : r ≤ rows.length := by
          rcases h.ok.inside r (List.mem_of_getElem? hr) with hlt' | ⟨rfl, rfl⟩
          · exact Nat.le_of_lt hlt'
          · exact le_rfl
        exact Nat.le_of_lt (lt_of_rowStart_lt hle hlt)
      · exact ⟨index, rfl, hindex⟩
    · exact ⟨index, rfl, hindex⟩

/-- The check of an entry does not wrap around. -/
theorem Laid.noWrap (h : b.Laid rows points) (hi : i ≤ rows.length) :
    b.NoWrap (rowStart rows i) := by
  intro e he
  have hsmall := h.sound.small
  rw [Block.decodeEntry] at he
  rcases Nat.lt_or_ge i rows.length with hlt | hge
  · obtain ⟨ptr, hentry, hsum, -⟩ := h.entryAt hlt
    rw [hentry, Option.map_some, Option.some.injEq, Option.filter_eq_some_iff,
      Option.some.injEq] at he
    have hle : rowStart rows (i + 1) ≤ rowStart rows rows.length := rowStart_mono hlt le_rfl
    rw [← h.limit] at hle
    rw [← he.1]
    simp only
    omega
  · obtain rfl : i = rows.length := by omega
    rw [← h.limit, Block.entryAt, if_pos (by omega)] at he
    cases he

/-- `ParseNextKey` in front of an entry takes the iterator to it. -/
theorem Before.parse {it : BlockIter} (h : Before rows points i it) (hlaid : b.Laid rows points)
    (hi : i < rows.length) :
    ∃ it', b.parseNextKey it = some (it', true) ∧ b.At rows points i it' := by
  have hnext := h.nextEntryOffset hlaid
  have hsmall := hlaid.sound.small
  have harray := hlaid.sound.array
  have hlt := rowStart_lt hi le_rfl
  rw [← hlaid.limit] at hlt
  obtain ⟨ptr, hentry, hsum, hkey, hvalue⟩ := hlaid.entryAt hi
  obtain ⟨index, hadvance, hindex⟩ :=
    hlaid.advanceRestart hi (b.num - it.restartIndex) h.index
  obtain ⟨hshared, htake⟩ := h.key hi
  have hle : rowStart rows (i + 1) ≤ rowStart rows rows.length := rowStart_mono hi le_rfl
  rw [← hlaid.limit] at hle
  have hdecode := hlaid.sound.decodeEntry (hlaid.noWrap hi.le)
  obtain ⟨e, he, hiff⟩ := hdecode
  rw [(hiff _).mpr ⟨hentry, by simp only; omega⟩] at he
  have hread : b.read ptr (rows[i].key.length - rows[i].shared) =
      some (rows[i].key.drop rows[i].shared) := by
    rw [read_eq (by omega), hkey]
  refine ⟨⟨rowStart rows i, index, it.key.take rows[i].shared ++ rows[i].key.drop rows[i].shared,
    some (ptr + (rows[i].key.length - rows[i].shared), rows[i].value.length), it.status⟩, ?_,
    hi, rfl, ?_, ⟨_, rfl, hsum, hvalue⟩, hindex⟩
  · rw [parseNextKey, hnext, Option.bind_eq_bind, Option.bind_some,
      if_neg (Nat.not_le.mpr hlt), he, Option.bind_eq_bind, Option.bind_some, takeEntry,
      if_neg (Nat.not_lt.mpr hshared), hread, hadvance]
    rfl
  · rw [htake, List.take_append_drop]

/-- `ParseNextKey` behind the last entry makes the iterator invalid. -/
theorem Before.parse_end {it : BlockIter} (h : Before rows points rows.length it)
    (hlaid : b.Laid rows points) : b.parseNextKey it =
      some ({ it with current := b.restartOffset, restartIndex := b.num }, false) := by
  rw [parseNextKey, h.nextEntryOffset hlaid, Option.bind_eq_bind, Option.bind_some,
    if_pos hlaid.limit.le]

section Positions

variable (cmp : Comparator) (b : Block) (rows : List BlockRow) (points : List Nat)

/-- The first entry whose key is not below a target. -/
def firstFrom (target : Bytes) : Option Nat :=
  rows.findIdx? fun r => cmp.compare r.key target ≠ .lt

/-- The entries in front of an entry are below a target. -/
def BelowUpTo (target : Bytes) (i : Nat) : Prop :=
  ∀ (j : Nat) (h : j < rows.length), j < i → cmp.compare rows[j].key target = .lt

/-- Where a loop over `ParseNextKey` stops that starts in front of the entry `i`. -/
def StopsAt (stop : Stop) (i : Nat) (goal : Option Nat) : Prop :=
  match stop with
  | .now => goal = if i < rows.length then some i else none
  | .behind offset => (rows = [] ∧ goal = none) ∨
      ∃ j, goal = some j ∧ j < rows.length ∧ offset = rowStart rows (j + 1) ∧ i ≤ j
  | .key target => goal = firstFrom cmp rows target ∧ BelowUpTo cmp rows target i

/-- The iterator is at the entry of a place, or at none. -/
def Rests (goal : Option Nat) (it : BlockIter) : Prop :=
  match goal with
  | some i => b.At rows points i it
  | none => it.current = b.restartOffset

/-- A call leads to the entry of a place. -/
def LeadsTo (goal : Option Nat) : BlockMachine → Prop
  | .empty _ => False
  | .idle it => Rests b rows points goal it
  | .scan stop it => ∃ i, Before rows points i it ∧ StopsAt cmp rows stop i goal
  | .restart index stop _ => ∃ r, points[index]? = some r ∧ StopsAt cmp rows stop r goal
  | .bisect target left right _ => goal = firstFrom cmp rows target ∧ left ≤ right ∧
      right < b.num ∧ ∃ r, points[left]? = some r ∧ BelowUpTo cmp rows target r
  | .back original it => ∃ j, j < rows.length ∧ original = rowStart rows j ∧
      NotBehind points it j ∧ goal = if j = 0 then none else some (j - 1)

end Positions

section Steps

variable {cmp : Comparator} {goal : Option Nat} {it : BlockIter}

/-- What leads to an entry is safe. -/
theorem LeadsTo.safe (hlaid : b.Laid rows points) {m : BlockMachine}
    (h : LeadsTo cmp b rows points goal m) : b.Safe m := by
  have hsmall := hlaid.sound.small
  cases m with
  | empty status => trivial
  | idle it =>
    cases goal with
    | none => exact safe_invalid h
    | some i =>
      intro _
      obtain ⟨v, hv, hsum, -⟩ := h.value
      obtain ⟨r, hr, -⟩ := h.index
      refine ⟨(hlaid.getRestartPoint hr).1, v, hv, ?_⟩
      rw [hsum, hlaid.limit]
      exact rowStart_mono h.lt le_rfl
  | scan stop it =>
    obtain ⟨i, hbefore, -⟩ := h
    obtain ⟨v, hv, hsum⟩ := hbefore.value
    obtain ⟨r, hr, -⟩ := hbefore.index
    have hle := rowStart_mono hbefore.le le_rfl
    rw [← hlaid.limit] at hle
    exact ⟨(hlaid.getRestartPoint hr).1, v, hv, by omega⟩
  | restart index stop it =>
    obtain ⟨r, hr, -⟩ := h
    exact (hlaid.getRestartPoint hr).1
  | bisect target left right it => exact ⟨h.2.1, h.2.2.1⟩
  | back original it =>
    obtain ⟨j, -, -, ⟨r, hr, -⟩, -⟩ := h
    exact (hlaid.getRestartPoint hr).1

theorem Laid.point_le (h : b.Laid rows points) {index r : Nat} (hr : points[index]? = some r) :
    r ≤ rows.length := by
  rcases h.ok.inside r (List.mem_of_getElem? hr) with hlt | ⟨rfl, rfl⟩
  · exact Nat.le_of_lt hlt
  · exact le_rfl

/-- The sums of a laid block do not wrap around. -/
theorem LeadsTo.fits (hlaid : b.Laid rows points) {m : BlockMachine}
    (h : LeadsTo cmp b rows points goal m) : b.Fits m := by
  cases m with
  | empty | idle | restart | back => trivial
  | scan stop it =>
    obtain ⟨i, hbefore, -⟩ := h
    intro p hp
    rw [hbefore.nextEntryOffset hlaid, Option.some.injEq] at hp
    exact hp ▸ hlaid.noWrap hbefore.le
  | bisect target left right it =>
    obtain ⟨-, hle, hright, -⟩ := h
    have harray := hlaid.sound.array
    have hsize := hlaid.size
    refine fun hlt => ⟨by omega, fun p hp => ?_⟩
    have hmid : mid left right < b.num := by
      rw [mid, Nat.mod_eq_of_lt (by omega)]
      omega
    obtain ⟨r, hr⟩ := hlaid.exists_point hmid
    rw [(hlaid.getRestartPoint hr).2, Option.some.injEq] at hp
    exact hp ▸ hlaid.noWrap (hlaid.point_le hr)

theorem firstFrom_eq_some {target : Bytes} (hi : i < rows.length)
    (hbelow : BelowUpTo cmp rows target i) (hkey : cmp.compare rows[i].key target ≠ .lt) :
    firstFrom cmp rows target = some i := by
  rw [firstFrom, List.findIdx?_eq_some_iff_getElem]
  refine ⟨hi, by simpa using hkey, fun j hj => ?_⟩
  simpa using hbelow j (hj.trans hi) hj

theorem firstFrom_eq_none {target : Bytes} (hbelow : BelowUpTo cmp rows target rows.length) :
    firstFrom cmp rows target = none := by
  rw [firstFrom, List.findIdx?_eq_none_iff]
  intro r hr
  obtain ⟨j, hj, rfl⟩ := List.getElem_of_mem hr
  simpa using hbelow j hj hj

/-- A round over `ParseNextKey`. -/
theorem Laid.step_scan (hlaid : b.Laid rows points) {stop : Stop}
    (hbefore : Before rows points i it) (hstop : StopsAt cmp rows stop i goal) :
    ∃ m, b.step cmp (.scan stop it) = some m ∧ LeadsTo cmp b rows points goal m := by
  rcases Nat.lt_or_ge i rows.length with hi | hge
  · obtain ⟨it', hparse, hat⟩ := hbefore.parse hlaid hi
    have hnext := (hat.before hlaid.ok).nextEntryOffset hlaid
    rw [step, hparse, Option.map_some]
    simp only [true_and]
    refine ⟨_, rfl, ?_⟩
    cases stop with
    | now =>
      obtain rfl : goal = some i := by rw [hstop, if_pos hi]
      exact hat
    | behind offset =>
      rcases hstop with ⟨rfl, -⟩ | ⟨j, rfl, hj, rfl, hij⟩
      · exact absurd hi (Nat.not_lt_zero i)
      · rw [stops, hnext, Option.all_some]
        rcases Nat.lt_or_ge i j with hlt | hge
        · rw [if_pos (decide_eq_false (Nat.not_le.mpr (rowStart_lt (by omega) hj)))]
          exact ⟨i + 1, hat.before hlaid.ok, .inr ⟨j, rfl, hj, rfl, hlt⟩⟩
        · obtain rfl : i = j := by omega
          rw [if_neg (by simp)]
          exact hat
    | key target =>
      obtain ⟨rfl, hbelow⟩ := hstop
      rw [stops, hat.key]
      by_cases hlt : cmp.compare rows[i].key target = .lt
      · rw [if_pos (by simpa using hlt)]
        refine ⟨i + 1, hat.before hlaid.ok, rfl, fun j hj hji => ?_⟩
        rcases Nat.lt_or_ge j i with hji' | hji'
        · exact hbelow j hj hji'
        · obtain rfl : j = i := by omega
          exact hlt
      · rw [if_neg (by simpa using hlt), firstFrom_eq_some hi hbelow hlt]
        exact hat
  · obtain rfl : i = rows.length := Nat.le_antisymm hbefore.le hge
    rw [step, hbefore.parse_end hlaid]
    refine ⟨_, rfl, ?_⟩
    have hnone : goal = none := by
      cases stop with
      | now => rw [hstop, if_neg (Nat.lt_irrefl _)]
      | behind offset =>
        rcases hstop with ⟨-, hnone⟩ | ⟨j, -, hj, -, hij⟩
        · exact hnone
        · exact absurd hj (Nat.not_lt.mpr hij)
      | key target => rw [hstop.1, firstFrom_eq_none hstop.2]
    subst hnone
    rfl

/-- `SeekToRestartPoint`. -/
theorem Laid.step_restart (hlaid : b.Laid rows points) {stop : Stop} {index r : Nat}
    (hr : points[index]? = some r) (hstop : StopsAt cmp rows stop r goal) :
    ∃ m, b.step cmp (.restart index stop it) = some m ∧ LeadsTo cmp b rows points goal m := by
  refine ⟨.scan stop { it with
    restartIndex := index, key := [], value := some (rowStart rows r, 0) }, ?_, r, ?_, hstop⟩
  · rw [step, seekToRestartPoint, (hlaid.getRestartPoint hr).2]
    rfl
  · refine ⟨hlaid.point_le hr, ⟨_, rfl, rfl⟩, fun hlt => ?_, r, hr, le_rfl⟩
    rw [hlaid.ok.restart r (List.mem_of_getElem? hr) hlt]
    exact ⟨Nat.zero_le _, rfl⟩

theorem points_lt {index index' r r' : Nat} (h : RowsOk rows points)
    (hr : points[index]? = some r) (hr' : points[index']? = some r') (hlt : index < index') :
    r < r' := by
  obtain ⟨hi, rfl⟩ := List.getElem?_eq_some_iff.mp hr
  obtain ⟨hi', rfl⟩ := List.getElem?_eq_some_iff.mp hr'
  exact List.pairwise_iff_getElem.mp h.increasing index index' hi hi' hlt

theorem points_zero (h : RowsOk rows points) : points[0]? = some 0 := by
  rw [← List.head?_eq_getElem?]
  exact h.first

/-- A round of the binary search keeps the keys in front of its left end below the target. -/
theorem Laid.step_bisect (hlaid : b.Laid rows points)
    (hkeys : rows.Pairwise fun r r' => cmp.compare r.key r'.key = .lt) {target : Bytes}
    {left right : Nat} (h : LeadsTo cmp b rows points goal (.bisect target left right it)) :
    ∃ m, b.step cmp (.bisect target left right it) = some m ∧
      LeadsTo cmp b rows points goal m := by
  obtain ⟨hgoal, hle, hright, r, hr, hbelow⟩ := h
  have harray := hlaid.sound.array
  have hsize := hlaid.size
  rw [step]
  split_ifs with hlt
  · have hmid : mid left right = (left + right + 1) / 2 := by
      rw [mid, Nat.mod_eq_of_lt (by omega)]
    obtain ⟨r', hr'⟩ : ∃ r', points[mid left right]? = some r' := hlaid.exists_point (by omega)
    have hrr' := points_lt hlaid.ok hr hr' (by omega)
    have hr'lt : r' < rows.length := by
      rcases hlaid.ok.inside r' (List.mem_of_getElem? hr') with hlt' | ⟨-, rfl⟩
      · exact hlt'
      · exact absurd hrr' (Nat.not_lt_zero r)
    obtain ⟨ptr, hentry, hsum, hkey, -⟩ := hlaid.entryAt hr'lt
    have hzero := hlaid.ok.restart r' (List.mem_of_getElem? hr') hr'lt
    have hend : rowStart rows (r' + 1) ≤ rowStart rows rows.length := rowStart_mono hr'lt le_rfl
    rw [← hlaid.limit] at hend
    obtain ⟨e, he, hiff⟩ := hlaid.sound.decodeEntry (hlaid.noWrap hr'lt.le)
    rw [(hiff _).mpr ⟨hentry, by simp only; omega⟩] at he
    have hread : b.read ptr (rows[r'].key.length - rows[r'].shared) = some rows[r'].key := by
      rw [read_eq (by omega), hkey, hzero, List.drop_zero]
    rw [(hlaid.getRestartPoint hr').2, Option.bind_eq_bind, Option.bind_some, he,
      Option.bind_eq_bind, Option.bind_some]
    simp only [hzero, ne_eq, not_true_eq_false, if_false]
    rw [hzero] at hread
    rw [hread, Option.bind_eq_bind, Option.bind_some]
    split_ifs with hcmp
    · refine ⟨_, rfl, hgoal, by omega, hright, r', hr', fun j hj hjr => ?_⟩
      exact Std.TransCmp.lt_trans (List.pairwise_iff_getElem.mp hkeys j r' hj hr'lt hjr) hcmp
    · have hpred : (mid left right + 2 ^ 32 - 1) % 2 ^ 32 = mid left right - 1 := by omega
      rw [hpred]
      exact ⟨_, rfl, hgoal, by omega, by omega, r, hr, hbelow⟩
  · exact ⟨_, rfl, r, hr, hgoal, hbelow⟩

/-- A round of the loop of `Prev` over the restart points. -/
theorem Laid.step_back (hlaid : b.Laid rows points) {original : Nat}
    (h : LeadsTo cmp b rows points goal (.back original it)) :
    ∃ m, b.step cmp (.back original it) = some m ∧ LeadsTo cmp b rows points goal m := by
  obtain ⟨j, hj, rfl, ⟨r, hr, hrj⟩, hgoal⟩ := h
  rw [step, (hlaid.getRestartPoint hr).2, Option.bind_eq_bind, Option.bind_some]
  split_ifs with hge hzero
  · have hrj' : r = j := Nat.le_antisymm hrj
      (Nat.le_of_not_lt fun hlt => absurd (rowStart_lt hlt hj.le) (Nat.not_lt.mpr hge))
    rw [hzero, points_zero hlaid.ok, Option.some.injEq] at hr
    rw [if_pos (by omega)] at hgoal
    subst hgoal
    exact ⟨_, rfl, rfl⟩
  · obtain ⟨r', hr'⟩ : ∃ r', points[it.restartIndex - 1]? = some r' :=
      hlaid.exists_point (Nat.lt_of_le_of_lt (Nat.sub_le _ 1) (hlaid.getRestartPoint hr).1)
    have hlt := points_lt hlaid.ok hr' hr (by omega)
    exact ⟨_, rfl, j, hj, rfl, ⟨r', hr', by omega⟩, hgoal⟩
  · have hlt := lt_of_rowStart_lt (hlaid.point_le hr) (Nat.lt_of_not_le hge)
    rw [if_neg (by omega)] at hgoal
    refine ⟨_, rfl, r, hr, .inr ⟨j - 1, hgoal, by omega, ?_, by omega⟩⟩
    rw [Nat.sub_add_cancel (by omega)]

variable (hlaid : b.Laid rows points)
  (hkeys : rows.Pairwise fun r r' => cmp.compare r.key r'.key = .lt)

include hlaid hkeys

/-- A round stays on the way to the entry. -/
theorem LeadsTo.step {m : BlockMachine} (h : LeadsTo cmp b rows points goal m) (hbusy : Busy m) :
    ∃ m', b.step cmp m = some m' ∧ LeadsTo cmp b rows points goal m' := by
  cases m with
  | empty | idle => exact hbusy.elim
  | bisect target left right it => exact hlaid.step_bisect hkeys h
  | restart index stop it =>
    obtain ⟨r, hr, hstop⟩ := h
    exact hlaid.step_restart hr hstop
  | scan stop it =>
    obtain ⟨i, hbefore, hstop⟩ := h
    exact hlaid.step_scan hbefore hstop
  | back original it => exact hlaid.step_back h

end Steps

section Calls

variable (cmp : Comparator) (b : Block)

/-- The rounds of a call end with the iterator in some state. -/
def Ends (m : BlockMachine) (it : BlockIter) : Prop :=
  Relation.ReflTransGen (fun m m' => b.step cmp m = some m') m (.idle it)

/-- The entry that a valid iterator is at: `key()` and `value()`. -/
def entry (it : BlockIter) : Option (Bytes × Bytes) :=
  if b.valid it = true then
    it.value.map fun v => (it.key, (b.data.drop v.1).take v.2)
  else none

/-- The entries that a call and its repetitions come to, until the iterator is invalid. -/
inductive Collects (c : BlockCall) : BlockMachine → List (Bytes × Bytes) → Prop
  | done {m : BlockMachine} {it : BlockIter} (h : Ends cmp b m it) (hend : b.entry it = none) :
      Collects c m []
  | more {m m' : BlockMachine} {it : BlockIter} {e : Bytes × Bytes}
      {entries : List (Bytes × Bytes)} (h : Ends cmp b m it) (he : b.entry it = some e)
      (hstart : b.start it c = some m') (hrest : Collects c m' entries) :
      Collects c m (e :: entries)

/-- The place that a call leads to. -/
def moved (rows : List BlockRow) (goal : Option Nat) : BlockCall → Option Nat
  | .seekToFirst => if 0 < rows.length then some 0 else none
  | .seekToLast => if rows.length = 0 then none else some (rows.length - 1)
  | .seek target => firstFrom cmp rows target
  | .next => goal.bind fun i => if i + 1 < rows.length then some (i + 1) else none
  | .prev => goal.bind fun i => if i = 0 then none else some (i - 1)

variable {cmp b} {goal : Option Nat} {it : BlockIter}

theorem Rests.exists_of_valid (h : Rests b rows points goal it) (hvalid : b.valid it = true) :
    ∃ i, goal = some i ∧ b.At rows points i it := by
  cases goal with
  | none =>
    rw [valid, show it.current = b.restartOffset from h, decide_eq_true_eq] at hvalid
    exact absurd hvalid (Nat.lt_irrefl _)
  | some i => exact ⟨i, rfl, h⟩

/-- The entry of an iterator is the one at its place. -/
theorem Rests.entry (h : Rests b rows points goal it) (hlaid : b.Laid rows points) :
    b.entry it = goal.bind fun i => (rows.map fun r => (r.key, r.value))[i]? := by
  cases goal with
  | none =>
    have hinvalid : b.valid it = false := by
      rw [valid, show it.current = b.restartOffset from h]
      exact decide_eq_false (Nat.lt_irrefl _)
    rw [Block.entry, hinvalid]
    rfl
  | some i =>
    have hat : b.At rows points i it := h
    obtain ⟨v, hv, -, hvalue⟩ := hat.value
    have hvalid : b.valid it = true := by
      rw [valid, decide_eq_true_eq, hat.current, hlaid.limit]
      exact rowStart_lt hat.lt le_rfl
    rw [Block.entry, if_pos hvalid, hv, Option.map_some, hvalue, hat.key, Option.bind_some,
      List.getElem?_map, List.getElem?_eq_getElem hat.lt]
    rfl

variable (cmp) in
/-- A call starts on the way to its place. -/
theorem Rests.start (h : Rests b rows points goal it) (hlaid : b.Laid rows points)
    {c : BlockCall} {m : BlockMachine} (hstart : b.start it c = some m) :
    LeadsTo cmp b rows points (moved cmp rows goal c) m := by
  have hzero := points_zero hlaid.ok
  have hpos := hlaid.sound.pos
  cases c with
  | seekToFirst =>
    cases hstart
    exact ⟨0, hzero, rfl⟩
  | seekToLast =>
    cases hstart
    obtain ⟨r, hr⟩ : ∃ r, points[b.num - 1]? = some r := hlaid.exists_point (by omega)
    refine ⟨r, hr, ?_⟩
    rcases Nat.eq_zero_or_pos rows.length with hnil | hlen
    · exact .inl ⟨List.length_eq_zero_iff.mp hnil, if_pos hnil⟩
    · have hlt : r < rows.length := by
        rcases hlaid.ok.inside r (List.mem_of_getElem? hr) with hlt | ⟨rfl, -⟩
        · exact hlt
        · exact absurd hlen (Nat.lt_irrefl 0)
      refine .inr ⟨rows.length - 1, if_neg (Nat.ne_of_gt hlen), by omega, ?_, by omega⟩
      rw [Nat.sub_add_cancel hlen, hlaid.limit]
  | seek target =>
    cases hstart
    exact ⟨rfl, Nat.zero_le _, by omega, 0, hzero, fun j _ hj => absurd hj (Nat.not_lt_zero j)⟩
  | next =>
    rw [Block.start] at hstart
    split_ifs at hstart with hvalid
    cases hstart
    obtain ⟨i, rfl, hat⟩ := h.exists_of_valid hvalid
    exact ⟨i + 1, hat.before hlaid.ok, rfl⟩
  | prev =>
    rw [Block.start] at hstart
    split_ifs at hstart with hvalid
    cases hstart
    obtain ⟨i, rfl, hat⟩ := h.exists_of_valid hvalid
    exact ⟨i, hat.lt, hat.current, hat.index, rfl⟩

variable (hlaid : b.Laid rows points)
  (hkeys : rows.Pairwise fun r r' => cmp.compare r.key r'.key = .lt)

include hlaid hkeys

/-- What leads to a place ends there. -/
theorem LeadsTo.ends {m : BlockMachine} (h : LeadsTo cmp b rows points goal m) :
    ∃ it, Ends cmp b m it ∧ Rests b rows points goal it := by
  induction hrank : b.rank m using Nat.strongRecOn generalizing m with
  | ind n ih =>
    by_cases hbusy : Busy m
    · obtain ⟨m', hstep, hleads⟩ := h.step hlaid hkeys hbusy
      obtain ⟨m'', hstep', -, hlt, -⟩ :=
        @Sound.step cmp _ hlaid.sound m (h.safe hlaid) hbusy (h.fits hlaid)
      rw [hstep, Option.some.injEq] at hstep'
      obtain ⟨it, hends, hrests⟩ := ih (b.rank m') (by rw [hstep', ← hrank]; exact hlt) hleads rfl
      exact ⟨it, .head hstep hends, hrests⟩
    · cases m with
      | empty => exact h.elim
      | idle it => exact ⟨it, .refl, h⟩
      | bisect | restart | scan | back => exact absurd trivial hbusy

/-- The way to a place is not left. -/
theorem LeadsTo.of_leads {m m' : BlockMachine} (h : LeadsTo cmp b rows points goal m)
    (hleads : Relation.ReflTransGen (fun m m' => b.step cmp m = some m') m m') :
    LeadsTo cmp b rows points goal m' := by
  induction hleads with
  | refl => exact h
  | @tail m₁ m₂ _ hstep ih =>
    have hbusy : Busy m₁ := by
      cases m₁ with
      | empty | idle => cases hstep
      | bisect | restart | scan | back => trivial
    obtain ⟨m', hstep', hleads⟩ := ih.step hlaid hkeys hbusy
    rw [hstep, Option.some.injEq] at hstep'
    exact hstep' ▸ hleads

/-- After any calls an iterator is on the way to some entry or at one. -/
theorem exists_leadsTo {m : BlockMachine} (h : Reaches cmp b (fun _ => True) m) :
    ∃ goal, LeadsTo cmp b rows points goal m := by
  induction h with
  | new =>
    refine ⟨none, ?_⟩
    rw [newIterator, if_neg (Nat.not_lt.mpr hlaid.accepted),
      if_neg (Nat.ne_of_gt hlaid.sound.pos)]
    rfl
  | @call m m' c h hcall ih =>
    obtain ⟨goal, hgoal⟩ := ih
    cases m with
    | empty => exact hgoal.elim
    | idle it => exact ⟨_, Rests.start cmp hgoal hlaid hcall⟩
    | bisect | restart | scan | back => cases hcall
  | step h hcond hstep ih =>
    obtain ⟨goal, hgoal⟩ := ih
    exact ⟨goal, hgoal.of_leads hlaid hkeys (.single hstep)⟩

/-- From a place on, `Next` goes through the entries that are left. -/
theorem LeadsTo.collects_next {m : BlockMachine} {n : Nat} (hn : rows.length - n ≤ i)
    (h : LeadsTo cmp b rows points (if n < rows.length then some n else none) m) :
    Collects cmp b .next m ((rows.map fun r => (r.key, r.value)).drop n) := by
  induction i generalizing m n with
  | zero =>
    rw [if_neg (by omega)] at h
    obtain ⟨it, hends, hrests⟩ := h.ends hlaid hkeys
    rw [List.drop_eq_nil_of_le (by rw [List.length_map]; omega)]
    exact .done hends (hrests.entry hlaid)
  | succ i ih =>
    obtain ⟨it, hends, hrests⟩ := h.ends hlaid hkeys
    rcases Nat.lt_or_ge n rows.length with hlt | hge
    · rw [if_pos hlt] at hrests
      have hentry := hrests.entry hlaid
      rw [Option.bind_some, List.getElem?_eq_getElem (by rwa [List.length_map])] at hentry
      have hvalid : b.valid it = true := by
        by_contra hinvalid
        rw [entry, if_neg hinvalid] at hentry
        cases hentry
      have hstart : b.start it .next = some (.scan .now it) := if_pos hvalid
      rw [List.drop_eq_getElem_cons (by rwa [List.length_map])]
      exact .more hends hentry hstart (ih (by omega) (hrests.start cmp hlaid hstart))
    · rw [if_neg (Nat.not_lt.mpr hge)] at hrests
      rw [List.drop_eq_nil_of_le (by rw [List.length_map]; omega)]
      exact .done hends (hrests.entry hlaid)

/-- From a place on, `Prev` goes through the entries in front, from the last one on. -/
theorem LeadsTo.collects_prev {m : BlockMachine} {n : Nat} (hn : n ≤ rows.length)
    (h : LeadsTo cmp b rows points (if n = 0 then none else some (n - 1)) m) :
    Collects cmp b .prev m ((rows.map fun r => (r.key, r.value)).take n).reverse := by
  induction n generalizing m with
  | zero =>
    obtain ⟨it, hends, hrests⟩ := h.ends hlaid hkeys
    exact .done hends (hrests.entry hlaid)
  | succ n ih =>
    obtain ⟨it, hends, hrests⟩ := h.ends hlaid hkeys
    rw [if_neg (Nat.succ_ne_zero n), Nat.add_sub_cancel] at hrests
    have hlt : n < (rows.map fun r => (r.key, r.value)).length := by rwa [List.length_map]
    have hentry := hrests.entry hlaid
    rw [Option.bind_some, List.getElem?_eq_getElem hlt] at hentry
    have hvalid : b.valid it = true := by
      by_contra hinvalid
      rw [entry, if_neg hinvalid] at hentry
      cases hentry
    have hstart : b.start it .prev = some (.back it.current it) := if_pos hvalid
    rw [List.take_succ_eq_append_getElem hlt, List.reverse_append, List.reverse_singleton,
      List.singleton_append]
    exact .more hends hentry hstart (ih (Nat.le_of_succ_le hn) (hrests.start cmp hlaid hstart))

end Calls

section RoundTrip

variable {cmp : Comparator} {interval : Nat} {entries : List (Bytes × Bytes)}

/-- An iterator gives entries back: from the first to the last, from the last to the first, and
from the first that is not below a target; and `Prev` goes back to where `Next` came from. -/
structure GivesBack (cmp : Comparator) (b : Block) (entries : List (Bytes × Bytes))
    (it : BlockIter) : Prop where
  forward : ∃ m, b.start it .seekToFirst = some m ∧ Collects cmp b .next m entries
  backward : ∃ m, b.start it .seekToLast = some m ∧ Collects cmp b .prev m entries.reverse
  seek : ∀ target, ∃ m it', b.start it (.seek target) = some m ∧ Ends cmp b m it' ∧
    b.entry it' = entries.find? fun e => cmp.compare e.1 target ≠ .lt
  undo : ∀ m it', b.start it .next = some m → Ends cmp b m it' → ∀ m',
    b.start it' .prev = some m' → ∃ it'', Ends cmp b m' it'' ∧ b.entry it'' = b.entry it

/-- The entry at the first place from a target on is the first that is not below it. -/
theorem getElem?_firstFrom (rows : List BlockRow) (target : Bytes) :
    ((firstFrom cmp rows target).bind fun i => (rows.map fun r => (r.key, r.value))[i]?) =
      (rows.map fun r => (r.key, r.value)).find? fun e => cmp.compare e.1 target ≠ .lt := by
  rw [List.find?_map, List.find?_eq_bind_findIdx?_getElem?, Option.map_bind, firstFrom]
  refine Option.bind_congr fun i _ => ?_
  rw [List.getElem?_map]
  rfl

/-- What is on the way in a laid block gives its entries back. -/
theorem Laid.givesBack {b : Block} {goal : Option Nat} {it : BlockIter}
    (hlaid : b.Laid rows points)
    (hkeys : rows.Pairwise fun r r' => cmp.compare r.key r'.key = .lt)
    (h : Rests b rows points goal it) :
    GivesBack cmp b (rows.map fun r => (r.key, r.value)) it where
  forward := by
    refine ⟨_, rfl, ?_⟩
    have hstart : LeadsTo cmp b rows points (moved cmp rows goal .seekToFirst)
        (.restart 0 .now it) := h.start cmp hlaid rfl
    exact LeadsTo.collects_next hlaid hkeys (Nat.sub_le rows.length 0) hstart
  backward := by
    refine ⟨_, rfl, ?_⟩
    have hstart : LeadsTo cmp b rows points (moved cmp rows goal .seekToLast)
        (.restart (b.num - 1) (.behind b.restartOffset) it) := h.start cmp hlaid rfl
    have hback := LeadsTo.collects_prev hlaid hkeys le_rfl hstart
    rwa [List.take_of_length_le (by rw [List.length_map])] at hback
  seek target := by
    have hstart : LeadsTo cmp b rows points (moved cmp rows goal (.seek target))
        (.bisect target 0 (b.num - 1) it) := h.start cmp hlaid rfl
    obtain ⟨it', hends, hrests⟩ := hstart.ends hlaid hkeys
    exact ⟨_, it', rfl, hends, (hrests.entry hlaid).trans (getElem?_firstFrom rows target)⟩
  undo m it' hstart hends m' hstart' := by
    have hnext := h.start cmp hlaid hstart
    have hrests := LeadsTo.of_leads hlaid hkeys hnext hends
    obtain ⟨it'', hends', hrests'⟩ :=
      (Rests.start cmp hrests hlaid hstart').ends hlaid hkeys
    refine ⟨it'', hends', ?_⟩
    have hvalid : b.valid it = true := by
      by_contra hinvalid
      rw [Block.start, if_neg hinvalid] at hstart
      cases hstart
    have hvalid' : b.valid it' = true := by
      by_contra hinvalid
      rw [Block.start, if_neg hinvalid] at hstart'
      cases hstart'
    obtain ⟨i, rfl, -⟩ := h.exists_of_valid hvalid
    obtain ⟨j, hj, -⟩ := Rests.exists_of_valid hrests hvalid'
    have hback : moved cmp rows (moved cmp rows (some i) .next) .prev = some i := by
      rw [moved, Option.bind_some] at hj
      split_ifs at hj with hlt
      rw [moved, moved, Option.bind_some, if_pos hlt, Option.bind_some,
        if_neg (Nat.succ_ne_zero i), Nat.add_sub_cancel]
    rw [hback] at hrests'
    rw [hrests'.entry hlaid, h.entry hlaid]

/-- A block that was built from entries in increasing order gives them back, after any calls. -/
theorem build_givesBack (hinterval : 1 ≤ interval)
    (hkeys : Increasing cmp.compare (entries.map Prod.fst))
    (hsize : ∀ contents, BlockBuilder.build cmp interval entries = some contents →
      contents.length < 2 ^ 32) :
    ∃ contents, BlockBuilder.build cmp interval entries = some contents ∧
      (∃ it, (new contents).newIterator = .idle it) ∧
        ∀ it, Reaches cmp (new contents) (fun _ => True) (.idle it) →
          GivesBack cmp (new contents) entries it := by
  obtain ⟨b, rows, points, hrun, hrows, hbuilds⟩ :=
    BlockBuilder.exists_builds hinterval hkeys
  have hbuild : BlockBuilder.build cmp interval entries = some b.finish := by
    rw [BlockBuilder.build, hrun]
    rfl
  have hlaid := laid_finish hbuilds (hsize _ hbuild)
  have hsorted : rows.Pairwise fun r r' => cmp.compare r.key r'.key = .lt := by
    rw [← hrows, List.map_map] at hkeys
    exact List.pairwise_map.mp hkeys
  refine ⟨b.finish, hbuild, ⟨⟨(new b.finish).restartOffset, (new b.finish).num, [], none, .ok⟩, ?_⟩,
    fun it hit => ?_⟩
  · rw [newIterator, if_neg (Nat.not_lt.mpr hlaid.accepted),
      if_neg (Nat.ne_of_gt hlaid.sound.pos)]
  · obtain ⟨goal, hgoal⟩ := exists_leadsTo hlaid hsorted hit
    rw [← hrows]
    exact hlaid.givesBack hsorted hgoal

/-- Entries of which the second shares a prefix with the first, and the third is at a restart
point. -/
def threeEntries : List (Bytes × Bytes) := [([97], [5]), ([97, 98], [6]), ([98], [7])]

theorem build_givesBack_three :
    ∃ contents, BlockBuilder.build bytewiseComparator 2 threeEntries = some contents ∧
      ∀ it, Reaches bytewiseComparator (new contents) (fun _ => True) (.idle it) →
        GivesBack bytewiseComparator (new contents) threeEntries it := by
  have hbuild : BlockBuilder.build bytewiseComparator 2 threeEntries =
      some [0, 1, 1, 97, 5, 1, 1, 1, 98, 6, 0, 1, 1, 98, 7,
        0, 0, 0, 0, 10, 0, 0, 0, 2, 0, 0, 0] := by
    decide
  have hkeys : Increasing bytewiseComparator.compare (threeEntries.map Prod.fst) := by
    unfold Increasing
    decide
  obtain ⟨contents, hcontents, -, hback⟩ :=
    @build_givesBack bytewiseComparator 2 threeEntries (by decide) hkeys
      fun contents hcontents => by
      rw [hbuild, Option.some.injEq] at hcontents
      rw [← hcontents]
      decide
  exact ⟨contents, hcontents, hback⟩

theorem Ends.step {b : Block} {m m' : BlockMachine} {it : BlockIter} (h : Ends cmp b m it)
    (hstep : b.step cmp m = some m') : Ends cmp b m' it := by
  rcases Relation.ReflTransGen.cases_head h with rfl | ⟨m'', hstep', hrest⟩
  · cases hstep
  · rw [hstep, Option.some.injEq] at hstep'
    rw [hstep']
    exact hrest

/-- The length of a value of 2^32 bytes is stored as 0, and the value comes back empty. -/
theorem not_givesBack_longValue {n : Nat} (hn : n = 2 ^ 32) :
    ∃ contents, BlockBuilder.build bytewiseComparator 1 [([97], List.replicate n 0)] =
        some contents ∧ ∃ it, Reaches bytewiseComparator (new contents) (fun _ => True) (.idle it) ∧
          ¬ GivesBack bytewiseComparator (new contents) [([97], List.replicate n 0)] it := by
  have hlen : (List.replicate n (0 : UInt8)).length = n := List.length_replicate
  have hmod : n % 2 ^ 32 = 0 := by omega
  have hbuild : BlockBuilder.build bytewiseComparator 1 [([97], List.replicate n 0)] =
      some ([0, 1, 0, 97] ++ (List.replicate n 0 ++ [0, 0, 0, 0, 1, 0, 0, 0])) := by
    have hasserts : ¬ (BlockBuilder.init.finished = true ∨ 1 < BlockBuilder.init.counter ∨
        ¬ (BlockBuilder.init.buffer = [] ∨
          bytewiseComparator.compare [97] BlockBuilder.init.lastKey = .gt)) := by decide
    have hrow : (BlockRow.mk 0 [97] (List.replicate n 0)).bytes =
        [0, 1, 0, 97] ++ List.replicate n 0 := by
      rw [BlockRow.bytes, hlen, hmod]
      rfl
    have hadd : BlockBuilder.init.add bytewiseComparator 1 [97] (List.replicate n 0) =
        some ⟨[0, 1, 0, 97] ++ List.replicate n 0, [0], 1, false, [97]⟩ := by
      rw [BlockBuilder.add, if_neg hasserts, ← hrow]
      rfl
    have htail : [0].flatMap encodeFixed32 ++ encodeFixed32 (1 % 2 ^ 32) =
        [0, 0, 0, 0, 1, 0, 0, 0] := by decide
    rw [BlockBuilder.build, List.foldlM_cons, hadd, ← htail, ← List.append_assoc]
    rfl
  generalize hc : [0, 1, 0, 97] ++ (List.replicate n (0 : UInt8) ++ [0, 0, 0, 0, 1, 0, 0, 0]) =
    contents at hbuild
  have hlength : contents.length = n + 12 := by
    rw [← hc, List.length_append, List.length_append, hlen]
    simp only [List.length_cons, List.length_nil]
    omega
  have hnum : numRestarts contents = 1 := by
    have hdrop : contents.drop (contents.length - 4) = [1, 0, 0, 0] := by
      have hfront : contents = ([0, 1, 0, 97] ++ (List.replicate n 0 ++ [0, 0, 0, 0])) ++
          [1, 0, 0, 0] := by
        rw [← hc]
        simp
      have hplace : contents.length - 4 =
          ([0, 1, 0, 97] ++ (List.replicate n (0 : UInt8) ++ [0, 0, 0, 0])).length := by
        rw [hlength, List.length_append, List.length_append, hlen]
        simp only [List.length_cons, List.length_nil]
        omega
      rw [hplace, hfront, List.drop_left]
    rw [numRestarts, hdrop]
    decide
  have hnew : new contents = ⟨contents, contents.length, 4⟩ := by
    rw [new, if_neg (by omega), hnum, if_neg (by omega)]
    congr 1
    omega
  have hread : ∀ p k bytes rest, contents.drop p = bytes ++ rest → bytes.length = k →
      p + k ≤ contents.length → (Block.mk contents contents.length 4).read p k = some bytes := by
    intro p k bytes rest hdrop hk hle
    rw [read_eq hle]
    simp only
    rw [hdrop, ← hk, List.take_left]
  have hzeros : List.replicate n (0 : UInt8) = [0, 0, 0, 0] ++ List.replicate (n - 4) 0 := by
    have hsplit : n = 4 + (n - 4) := by omega
    conv_lhs => rw [hsplit, ← List.replicate_append_replicate]
    rfl
  have hread₀ := hread 0 4 [0, 1, 0, 97] _ hc.symm rfl (by omega)
  have hread₃ : (Block.mk contents contents.length 4).read 3 1 = some [97] :=
    hread 3 1 [97] (List.replicate n 0 ++ [0, 0, 0, 0, 1, 0, 0, 0]) (by rw [← hc]; rfl) rfl
      (by omega)
  have hread₄ : (Block.mk contents contents.length 4).read 4 4 = some [0, 0, 0, 0] := by
    refine hread 4 4 [0, 0, 0, 0] (List.replicate (n - 4) 0 ++ [0, 0, 0, 0, 1, 0, 0, 0]) ?_ rfl
      (by omega)
    rw [← hc, hzeros, List.append_assoc]
    rfl
  refine ⟨contents, hbuild, ⟨4, 1, [], none, .ok⟩, ?_⟩
  rw [hnew]
  generalize hb : Block.mk contents contents.length 4 = b at *
  have hbnum : b.num = 1 := by rw [← hb]; exact hnum
  have hlimit : b.restartOffset = 4 := by rw [← hb]
  have hidle : b.newIterator = .idle ⟨4, 1, [], none, .ok⟩ := by
    have hsize : b.size = n + 12 := by rw [← hb, hlength]
    rw [newIterator, if_neg (by omega), hbnum, if_neg Nat.one_ne_zero, hlimit]
  refine ⟨hidle ▸ .new, fun hback => ?_⟩
  have hrestart : b.step bytewiseComparator (.restart 0 .now ⟨4, 1, [], none, .ok⟩) =
      some (.scan .now ⟨4, 0, [], some (0, 0), .ok⟩) := by
    rw [step, seekToRestartPoint, getRestartPoint, hbnum, if_pos Nat.one_pos, hlimit, hread₄]
    rfl
  have hdecode : b.decodeEntry 0 = some (some ⟨0, 1, 0, 3⟩) := by
    have hroom : b.hasRoom ⟨0, 1, 0, 3⟩ = true := by
      rw [hasRoom, hlimit]
      decide
    have hentry : b.entryAt 0 = some (some ⟨0, 1, 0, 3⟩) := by
      rw [entryAt, hlimit, if_neg (by decide), hread₀]
      decide
    rw [decodeEntry, hentry, Option.map_some, Option.filter_some, if_pos hroom]
  have hadvance : b.advanceRestart 0 1 0 = some 0 := by
    rw [advanceRestart, hbnum, if_neg (by decide)]
  have hscan : b.step bytewiseComparator (.scan .now ⟨4, 0, [], some (0, 0), .ok⟩) =
      some (.idle ⟨0, 0, [97], some (4, 0), .ok⟩) := by
    have hparse : b.parseNextKey ⟨4, 0, [], some (0, 0), .ok⟩ =
        some (⟨0, 0, [97], some (4, 0), .ok⟩, true) := by
      rw [parseNextKey]
      change (if b.restartOffset ≤ 0 then _ else (b.decodeEntry 0).bind _) = _
      rw [hlimit, if_neg (by decide), hdecode, Option.bind_some, takeEntry,
        if_neg (by decide), hread₃, hbnum]
      change (b.advanceRestart 0 1 0).bind _ = _
      rw [hadvance]
      rfl
    rw [step, hparse]
    rfl
  obtain ⟨m, hstart, hcollects⟩ := hback.forward
  cases hstart
  cases hcollects with
  | @more _ _ it e _ hends he _ _ =>
    have hidle' := Ends.step (Ends.step hends hrestart) hscan
    rcases Relation.ReflTransGen.cases_head hidle' with hsame | ⟨m, hstep, -⟩
    · obtain rfl := BlockMachine.idle.inj hsame
      have hvalue := congrArg (fun e => e.map fun e : Bytes × Bytes => e.2.length) he
      rw [entry, if_pos (by rw [valid, hlimit]; decide)] at hvalue
      simp only [Option.map_some, List.take_zero, List.length_nil, hlen, Option.some.injEq]
        at hvalue
      omega
    · cases hstep

/-- The round trip fails for a value whose length does not fit its number. -/
theorem longValue_cut :
    ∃ contents, BlockBuilder.build bytewiseComparator 1 [([97], List.replicate (2 ^ 32) 0)] =
        some contents ∧ ∃ it, Reaches bytewiseComparator (new contents) (fun _ => True) (.idle it) ∧
          ¬ GivesBack bytewiseComparator (new contents) [([97], List.replicate (2 ^ 32) 0)] it :=
  not_givesBack_longValue rfl

end RoundTrip

end Block

end WiscKey
