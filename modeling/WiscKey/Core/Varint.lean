import WiscKey.Core.Coding
import WiscKey.Library.Reader

/-!
# Decoding in memory

The decoders of `coding.cc` work on addresses, up to a limit. What they read is below the limit, and
they find what the decoders of bytes find. An encoding has as many bytes as `VarintLength` says, and
no part of it is read as a number.
-/

namespace WiscKey

/-- The bytes of the memory from an address up to a limit. -/
def bytesBetween (mem : Nat → UInt8) (p limit : Nat) : Bytes :=
  (List.range' p (limit - p)).map mem

/-- The addresses that a decoder reads, and what it returns. -/
structure Access (α : Type) where
  reads : List Nat
  result : Option α

section Pointers

variable (mem : Nat → UInt8)

/-- The loop of `GetVarint32PtrFallback` and `GetVarint64Ptr`, for numbers of `w` bits: the number
and the address behind it. -/
def getVarintLoop (w maxShift limit shift p result : Nat) : Access (Nat × Nat) :=
  if shift ≤ maxShift ∧ p < limit then
    let byte := (mem p).toNat
    if byte &&& 128 ≠ 0 then
      let result := result ||| ((byte &&& 127) <<< shift) % 2 ^ w
      let rest := getVarintLoop w maxShift limit (shift + 7) (p + 1) result
      ⟨p :: rest.reads, rest.result⟩
    else ⟨[p], some (result ||| (byte <<< shift) % 2 ^ w, p + 1)⟩
  else ⟨[], none⟩
  termination_by limit - p

/-- `GetVarint32PtrFallback`. -/
def getVarint32PtrFallback (p limit : Nat) : Access (Nat × Nat) :=
  getVarintLoop mem 32 28 limit 0 p 0

/-- `GetVarint32Ptr`, with its fast path for one byte. -/
def getVarint32Ptr (p limit : Nat) : Access (Nat × Nat) :=
  if p < limit then
    let result := (mem p).toNat
    if result &&& 128 = 0 then ⟨[p], some (result, p + 1)⟩
    else
      let rest := getVarint32PtrFallback mem p limit
      ⟨p :: rest.reads, rest.result⟩
  else getVarint32PtrFallback mem p limit

/-- `GetVarint64Ptr`. -/
def getVarint64Ptr (p limit : Nat) : Access (Nat × Nat) := getVarintLoop mem 64 63 limit 0 p 0

/-- `GetLengthPrefixedSlice`, of addresses: the slice, as its address and its length, and the
address behind it. -/
def getLengthPrefixedSlicePtr (p limit : Nat) : Access ((Nat × Nat) × Nat) :=
  let len := getVarint32Ptr mem p limit
  ⟨len.reads, len.result.bind fun (len, p) =>
    if limit < p + len then none else some ((p, len), p + len)⟩

/-- `GetLengthPrefixedSlice`, of a slice that is given as its address and its size: the slice in
front, and what is left of the input. -/
def getLengthPrefixedSliceOf (input : Nat × Nat) : Access ((Nat × Nat) × Nat × Nat) :=
  let limit := input.1 + input.2
  let len := getVarint32Ptr mem input.1 limit
  ⟨len.reads, len.result.bind fun (len, q) =>
    let size := limit - q
    if len ≤ size then some ((q, len), q + len, size - len) else none⟩

end Pointers

section Between

variable {mem : Nat → UInt8} {p limit : Nat}

theorem length_bytesBetween : (bytesBetween mem p limit).length = limit - p := by
  rw [bytesBetween, List.length_map, List.length_range']

theorem bytesBetween_of_lt (h : p < limit) :
    bytesBetween mem p limit = mem p :: bytesBetween mem (p + 1) limit := by
  rw [bytesBetween, show limit - p = limit - (p + 1) + 1 by omega, List.range'_succ, List.map_cons]
  rfl

theorem bytesBetween_of_le (h : limit ≤ p) : bytesBetween mem p limit = [] := by
  rw [bytesBetween, Nat.sub_eq_zero_of_le h]
  rfl

theorem take_bytesBetween {n : Nat} (h : p + n ≤ limit) :
    (bytesBetween mem p limit).take n = bytesBetween mem p (p + n) := by
  rw [bytesBetween, ← List.map_take, List.take_range'_of_length_ge (by omega), bytesBetween,
    Nat.add_sub_cancel_left]

theorem drop_bytesBetween (n : Nat) :
    (bytesBetween mem p limit).drop n = bytesBetween mem (p + n) limit := by
  rw [bytesBetween, ← List.map_drop, List.drop_range', bytesBetween, Nat.mul_one, Nat.sub_sub]

end Between

/-- A decoder of addresses reads below the limit alone and ends there, and it finds what a decoder
of the bytes finds. -/
structure Access.Decodes (mem : Nat → UInt8) (p limit : Nat) (a : Access (Nat × Nat))
    (read : Option (Nat × Bytes)) : Prop where
  reads : ∀ i ∈ a.reads, p ≤ i ∧ i < limit
  bound : ∀ v q, a.result = some (v, q) → p < q ∧ q ≤ limit
  eq : read = a.result.map fun (v, q) => (v, bytesBetween mem q limit)

section Refinement

variable (mem : Nat → UInt8) (p limit : Nat)

/-- One round of the loop reads the byte in front. -/
theorem decodes_getVarintLoop (w maxShift shift result : Nat) :
    (getVarintLoop mem w maxShift limit shift p result).Decodes mem p limit
      (getVarint w maxShift shift result (bytesBetween mem p limit)) := by
  induction hrest : limit - p generalizing shift p result with
  | zero =>
    rw [bytesBetween_of_le (by omega), getVarintLoop, if_neg (by omega)]
    exact ⟨fun i hi => absurd hi List.not_mem_nil, fun v q h => (by cases h), rfl⟩
  | succ n ih =>
    rw [bytesBetween_of_lt (by omega), getVarintLoop, getVarint]
    by_cases hshift : shift ≤ maxShift
    · rw [if_pos ⟨hshift, by omega⟩, if_pos hshift]
      simp only
      split
      · have hnext := ih (p + 1) (shift + 7)
          (result ||| (((mem p).toNat &&& 127) <<< shift) % 2 ^ w) (by omega)
        refine ⟨?_, fun v q h => ?_, hnext.eq⟩
        · intro i hi
          rcases List.mem_cons.mp hi with rfl | hi
          · omega
          · have hreads := hnext.reads i hi
            omega
        · have hbound := hnext.bound v q h
          omega
      · refine ⟨?_, fun v q h => ?_, rfl⟩
        · intro i hi
          rw [List.mem_singleton.mp hi]
          omega
        · obtain ⟨-, rfl⟩ := Prod.mk.inj (Option.some.inj h)
          omega
    · rw [if_neg fun h => hshift h.1, if_neg hshift]
      exact ⟨fun i hi => absurd hi List.not_mem_nil, fun v q h => (by cases h), rfl⟩

/-- The fast path finds what the loop finds. -/
theorem decodes_getVarint32Ptr : (getVarint32Ptr mem p limit).Decodes mem p limit
    (getVarint32 (bytesBetween mem p limit)) := by
  have hloop := decodes_getVarintLoop mem p limit 32 28 0 0
  rw [getVarint32Ptr, getVarint32]
  split
  · rename_i hlt
    simp only
    split
    · rename_i hbyte
      have hsmall : (mem p).toNat % 2 ^ 32 = (mem p).toNat :=
        Nat.mod_eq_of_lt ((mem p).toNat_lt.trans (by decide))
      refine ⟨?_, fun v q h => ?_, ?_⟩
      · intro i hi
        rw [List.mem_singleton.mp hi]
        omega
      · obtain ⟨-, rfl⟩ := Prod.mk.inj (Option.some.inj h)
        omega
      · rw [bytesBetween_of_lt hlt, getVarint, if_pos (Nat.zero_le _), if_neg (not_not.mpr hbyte),
          Nat.shiftLeft_zero, hsmall, Nat.zero_or]
        rfl
    · refine ⟨?_, hloop.bound, hloop.eq⟩
      intro i hi
      rcases List.mem_cons.mp hi with rfl | hi
      · omega
      · exact hloop.reads i hi
  · exact hloop

theorem decodes_getVarint64Ptr : (getVarint64Ptr mem p limit).Decodes mem p limit
    (getVarint64 (bytesBetween mem p limit)) :=
  decodes_getVarintLoop mem p limit 64 63 0 0

end Refinement

/-- A decoder of slices reads below the limit alone, its slice and the rest are there, and it finds
what the decoder of bytes finds. -/
structure Access.DecodesSlice (mem : Nat → UInt8) (p limit : Nat) (a : Access ((Nat × Nat) × Nat))
    (read : Option (Bytes × Bytes)) : Prop where
  reads : ∀ i ∈ a.reads, p ≤ i ∧ i < limit
  bound : ∀ s len q, a.result = some ((s, len), q) → p < s ∧ s + len = q ∧ q ≤ limit
  eq : read = a.result.map fun ((s, len), q) =>
    (bytesBetween mem s (s + len), bytesBetween mem q limit)

section Slices

variable (mem : Nat → UInt8) (p limit : Nat)

theorem decodesSlice_getLengthPrefixedSlicePtr :
    (getLengthPrefixedSlicePtr mem p limit).DecodesSlice mem p limit
      (getLengthPrefixedSlice (bytesBetween mem p limit)) := by
  obtain ⟨hreads, hbound, heq⟩ := decodes_getVarint32Ptr mem p limit
  rw [getLengthPrefixedSlicePtr, getLengthPrefixedSlice, heq]
  generalize getVarint32Ptr mem p limit = a at hreads hbound
  obtain ⟨reads, result⟩ := a
  cases result with
  | none => exact ⟨hreads, fun s len q h => (by cases h), rfl⟩
  | some r =>
    obtain ⟨len, s⟩ := r
    obtain ⟨hlt, hle⟩ := hbound len s rfl
    simp only [Option.bind_some, Option.map_some, length_bytesBetween]
    by_cases hroom : s + len ≤ limit
    · rw [if_neg (Nat.not_lt.mpr hroom), if_pos (by omega), take_bytesBetween hroom,
        drop_bytesBetween]
      refine ⟨hreads, fun s' len' q h => ?_, rfl⟩
      obtain ⟨⟨rfl, rfl⟩, rfl⟩ : (s = s' ∧ len = len') ∧ s + len = q := by simpa using h
      exact ⟨hlt, rfl, hroom⟩
    · rw [if_pos (Nat.not_le.mp hroom), if_neg (by omega)]
      exact ⟨hreads, fun s' len' q h => (by cases h), rfl⟩

/-- The form for slices makes the same reads and finds the same slice. -/
theorem getLengthPrefixedSliceOf_eq (size : Nat) :
    getLengthPrefixedSliceOf mem (p, size) =
      ⟨(getLengthPrefixedSlicePtr mem p (p + size)).reads,
        (getLengthPrefixedSlicePtr mem p (p + size)).result.map fun (s, q) =>
          (s, q, p + size - q)⟩ := by
  obtain ⟨-, hbound, -⟩ := decodes_getVarint32Ptr mem p (p + size)
  rw [getLengthPrefixedSliceOf, getLengthPrefixedSlicePtr]
  generalize getVarint32Ptr mem p (p + size) = a at hbound
  obtain ⟨reads, result⟩ := a
  cases result with
  | none => rfl
  | some r =>
    obtain ⟨len, s⟩ := r
    obtain ⟨-, hle⟩ := hbound len s rfl
    simp only [Option.bind_some]
    by_cases hroom : s + len ≤ p + size
    · rw [if_pos (by omega), if_neg (by omega), Option.map_some, Nat.sub_sub]
    · rw [if_neg (by omega), if_pos (by omega), Option.map_none]

end Slices

/-- An encoding is read back, whatever follows it. It has as many bytes as its length says, and a
proper part of it is not read. -/
structure Codes (encode : Nat → Bytes) (read : Bytes → Option (Nat × Bytes)) (bound : Nat) :
    Prop where
  roundTrip : ∀ v < bound, ∀ rest, read (encode v ++ rest) = some (v, rest)
  length : ∀ v < bound, (encode v).length = varintLength v
  cut : ∀ v < bound, ∀ part more, encode v = part ++ more → more ≠ [] → read part = none

theorem selfDelimiting_getVarint (w maxShift shift result : Nat) :
    SelfDelimiting (getVarint w maxShift shift result) := fun _ _ _ => getVarint_append

theorem selfDelimiting_getLengthPrefixedSlice : SelfDelimiting getLengthPrefixedSlice :=
  fun _ _ _ => getLengthPrefixedSlice_append

theorem codes_varint32 : Codes encodeVarint32 getVarint32 (2 ^ 32) where
  roundTrip _ hv := getVarint32_encodeVarint32 hv
  length v hv := by rw [encodeVarint32_eq hv, length_encodeVarint64]
  cut v hv part more hsplit := by
    refine (selfDelimiting_getVarint 32 28 0 0).eq_none (v := v) ?_
    rw [← hsplit, ← List.append_nil (encodeVarint32 v)]
    exact getVarint32_encodeVarint32 hv []

theorem codes_varint64 : Codes encodeVarint64 getVarint64 (2 ^ 64) where
  roundTrip _ hv := getVarint64_encodeVarint64 hv
  length v _ := length_encodeVarint64 v
  cut v hv part more hsplit := by
    refine (selfDelimiting_getVarint 64 63 0 0).eq_none (v := v) ?_
    rw [← hsplit, ← List.append_nil (encodeVarint64 v)]
    exact getVarint64_encodeVarint64 hv []

/-- A slice that is read is a part of the input, in front of the rest. -/
theorem getLengthPrefixedSlice_inside {input s rest : Bytes}
    (h : getLengthPrefixedSlice input = some (s, rest)) :
    ∃ front, input = front ++ (s ++ rest) := by
  have hsuffix : ∀ {w maxShift shift result : Nat} {input rest : Bytes} {v : Nat},
      getVarint w maxShift shift result input = some (v, rest) → rest <:+ input := by
    intro w maxShift shift result input rest v h
    induction input generalizing shift result with
    | nil => cases h
    | cons byte input ih =>
      rw [getVarint] at h
      split_ifs at h
      · exact (ih h).trans (List.suffix_cons _ _)
      · cases h
        exact List.suffix_cons _ _
  unfold getLengthPrefixedSlice at h
  split at h
  · rename_i len behind hlen
    split_ifs at h
    cases h
    obtain ⟨front, hfront⟩ := hsuffix hlen
    exact ⟨front, by rw [List.take_append_drop, hfront]⟩
  · cases h

/-- A slice of 2^32 bytes has the length 0 in front of it, and comes back empty. -/
theorem getLengthPrefixedSlice_long {value : Bytes} (h : value.length = 2 ^ 32) :
    getLengthPrefixedSlice (putLengthPrefixedSlice value) = some ([], value) := by
  have hread := getLengthPrefixedSlice_put_mod value []
  rw [h, Nat.mod_self, List.append_nil, List.append_nil] at hread
  exact hread

theorem longSlice_cut : ¬ ∀ rest, getLengthPrefixedSlice
    (putLengthPrefixedSlice (List.replicate (2 ^ 32) 0) ++ rest) =
      some (List.replicate (2 ^ 32) 0, rest) := by
  intro h
  have hlength : (List.replicate (2 ^ 32) (0 : UInt8)).length = 2 ^ 32 := List.length_replicate
  generalize List.replicate (2 ^ 32) (0 : UInt8) = value at h hlength
  have hread := h []
  rw [List.append_nil, getLengthPrefixedSlice_long hlength, Option.some.injEq, Prod.mk.injEq]
    at hread
  rw [← hread.1] at hlength
  exact absurd hlength (by decide)

/-- Numbers of 32 and 64 bits are read back from their encodings, in exactly `VarintLength` bytes,
and no part of an encoding is read. Slices that are shorter than 2^32 bytes are read back, and a
slice that is read is a part of the input. No decoder reads at its limit or behind it, and none
returns an address behind it. -/
theorem coding_inverts :
    Codes encodeVarint32 getVarint32 (2 ^ 32) ∧ Codes encodeVarint64 getVarint64 (2 ^ 64) ∧
    (∀ value : Bytes, value.length < 2 ^ 32 →
      (∀ rest, getLengthPrefixedSlice (putLengthPrefixedSlice value ++ rest) = some (value, rest)) ∧
      ∀ part more, putLengthPrefixedSlice value = part ++ more → more ≠ [] →
        getLengthPrefixedSlice part = none) ∧
    (∀ input s rest, getLengthPrefixedSlice input = some (s, rest) →
      ∃ front, input = front ++ (s ++ rest)) ∧
    ∀ (mem : Nat → UInt8) (p limit : Nat),
      (getVarint32Ptr mem p limit).Decodes mem p limit
        (getVarint32 (bytesBetween mem p limit)) ∧
      (getVarint64Ptr mem p limit).Decodes mem p limit
        (getVarint64 (bytesBetween mem p limit)) ∧
      (getLengthPrefixedSlicePtr mem p limit).DecodesSlice mem p limit
        (getLengthPrefixedSlice (bytesBetween mem p limit)) ∧
      ∀ size, getLengthPrefixedSliceOf mem (p, size) =
        ⟨(getLengthPrefixedSlicePtr mem p (p + size)).reads,
          (getLengthPrefixedSlicePtr mem p (p + size)).result.map fun (s, q) =>
            (s, q, p + size - q)⟩ := by
  refine ⟨codes_varint32, codes_varint64, fun value hvalue => ⟨getLengthPrefixedSlice_put hvalue,
    fun part more hsplit => ?_⟩, fun _ _ _ => getLengthPrefixedSlice_inside, fun mem p limit =>
    ⟨decodes_getVarint32Ptr mem p limit, decodes_getVarint64Ptr mem p limit,
      decodesSlice_getLengthPrefixedSlicePtr mem p limit, getLengthPrefixedSliceOf_eq mem p⟩⟩
  refine selfDelimiting_getLengthPrefixedSlice.eq_none (v := value) ?_
  rw [← hsplit, ← List.append_nil (putLengthPrefixedSlice value)]
  exact getLengthPrefixedSlice_put hvalue []

theorem coding_inverts_threeHundred :
    getVarint32 (encodeVarint32 300 ++ [7]) = some (300, [7]) ∧ getVarint32 [172] = none ∧
    getLengthPrefixedSlice (putLengthPrefixedSlice [97, 98] ++ [7]) = some ([97, 98], [7]) := by
  obtain ⟨h32, -, hslice, -, -⟩ := coding_inverts
  refine ⟨h32.roundTrip 300 (by decide) [7], ?_, (hslice [97, 98] (by decide)).1 [7]⟩
  exact h32.cut 300 (by decide) [172] [2] (by decide) (by decide)

end WiscKey
