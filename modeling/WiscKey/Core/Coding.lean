import WiscKey.Core.Bytes
import Mathlib.Tactic.SplitIfs

/-!
# Integer codings

Fixed-width and variable-width little-endian integers and length-prefixed slices, as in
`coding.cc`. Unsigned machine integers are naturals below a power of two.
-/

namespace WiscKey

/-- The `n` lowest bytes of a number, the lowest first. -/
def encodeFixed : Nat → Nat → Bytes
  | 0, _ => []
  | n + 1, v => UInt8.ofNat v :: encodeFixed n (v >>> 8)

/-- The number that bytes spell, the lowest first. -/
def decodeFixed : Bytes → Nat
  | [] => 0
  | b :: rest => b.toNat + decodeFixed rest <<< 8

/-- `EncodeFixed32`. -/
def encodeFixed32 (v : Nat) : Bytes := encodeFixed 4 v

/-- `EncodeFixed64`. -/
def encodeFixed64 (v : Nat) : Bytes := encodeFixed 8 v

/-- `DecodeFixed32`, of the first four bytes. -/
def decodeFixed32 (p : Bytes) : Nat := decodeFixed (p.take 4)

/-- `DecodeFixed64`, of the first eight bytes. -/
def decodeFixed64 (p : Bytes) : Nat := decodeFixed (p.take 8)

@[simp] theorem length_encodeFixed (n v : Nat) : (encodeFixed n v).length = n := by
  induction n generalizing v with
  | zero => rfl
  | succ n ih => simp [encodeFixed, ih]

/-- Decoding gives back what the width can hold. -/
theorem decodeFixed_encodeFixed (n v : Nat) : decodeFixed (encodeFixed n v) = v % 256 ^ n := by
  induction n generalizing v with
  | zero => simp [encodeFixed, decodeFixed, Nat.mod_one]
  | succ n ih =>
    have hlow : (UInt8.ofNat v).toNat = v % 256 := rfl
    simp only [encodeFixed, decodeFixed, ih, hlow, Nat.shiftLeft_eq, Nat.shiftRight_eq_div_pow]
    change v % 256 + v / 256 % 256 ^ n * 256 = v % 256 ^ (n + 1)
    have hpow : 256 ^ (n + 1) = 256 * 256 ^ n := Nat.pow_succ'
    rw [hpow, Nat.mod_mul, Nat.mul_comm (v / 256 % 256 ^ n)]

theorem decodeFixed_lt (p : Bytes) : decodeFixed p < 256 ^ p.length := by
  induction p with
  | nil => exact Nat.one_pos
  | cons b p ih =>
    have hb := b.toNat_lt
    rw [decodeFixed, List.length_cons, Nat.pow_succ, Nat.shiftLeft_eq]
    omega

theorem decodeFixed32_lt (p : Bytes) : decodeFixed32 p < 2 ^ 32 := by
  have hlt : decodeFixed32 p < 256 ^ 4 :=
    (decodeFixed_lt _).trans_le (Nat.pow_le_pow_right (by decide) (List.length_take_le ..))
  exact hlt

/-- A number below the width is decoded exactly, whatever follows. -/
theorem decodeFixed32_encodeFixed32 {v : Nat} (h : v < 2 ^ 32) (rest : Bytes) :
    decodeFixed32 (encodeFixed32 v ++ rest) = v := by
  have htake : (encodeFixed32 v ++ rest).take 4 = encodeFixed 4 v := by
    rw [List.take_append_of_le_length (by simp [encodeFixed32])]
    exact List.take_of_length_le (by simp [encodeFixed32])
  rw [decodeFixed32, htake, decodeFixed_encodeFixed]
  exact Nat.mod_eq_of_lt h

theorem decodeFixed64_encodeFixed64 {v : Nat} (h : v < 2 ^ 64) (rest : Bytes) :
    decodeFixed64 (encodeFixed64 v ++ rest) = v := by
  have htake : (encodeFixed64 v ++ rest).take 8 = encodeFixed 8 v := by
    rw [List.take_append_of_le_length (by simp [encodeFixed64])]
    exact List.take_of_length_le (by simp [encodeFixed64])
  rw [decodeFixed64, htake, decodeFixed_encodeFixed]
  exact Nat.mod_eq_of_lt h

theorem length_fixed32Array (words : List Nat) :
    (words.flatMap encodeFixed32).length = words.length * 4 := by
  induction words with
  | nil => rfl
  | cons v words ih =>
    rw [List.flatMap_cons, List.length_append, ih, encodeFixed32, length_encodeFixed,
      List.length_cons]
    omega

/-- A number of an array is found at its place. -/
theorem decodeFixed32_array {words : List Nat} (h : ∀ v ∈ words, v < 2 ^ 32) {i : Nat}
    (hi : i < words.length) (rest : Bytes) :
    decodeFixed32 ((words.flatMap encodeFixed32 ++ rest).drop (i * 4)) = words[i] := by
  induction words generalizing i with
  | nil => simp at hi
  | cons v words ih =>
    rw [List.flatMap_cons, List.append_assoc]
    cases i with
    | zero => exact decodeFixed32_encodeFixed32 (h v List.mem_cons_self) _
    | succ i =>
      have hplace : (i + 1) * 4 = (encodeFixed32 v).length + i * 4 := by
        rw [encodeFixed32, length_encodeFixed]
        omega
      rw [hplace, List.drop_length_add_append, List.getElem_cons_succ]
      exact ih (fun v hv => h v (List.mem_cons_of_mem _ hv)) _

/-- `EncodeVarint32`, of a 32-bit number. -/
def encodeVarint32 (v : Nat) : Bytes :=
  if v < 2 ^ 7 then [UInt8.ofNat v]
  else if v < 2 ^ 14 then [UInt8.ofNat (v ||| 128), UInt8.ofNat (v >>> 7)]
  else if v < 2 ^ 21 then
    [UInt8.ofNat (v ||| 128), UInt8.ofNat ((v >>> 7) ||| 128), UInt8.ofNat (v >>> 14)]
  else if v < 2 ^ 28 then
    [UInt8.ofNat (v ||| 128), UInt8.ofNat ((v >>> 7) ||| 128), UInt8.ofNat ((v >>> 14) ||| 128),
      UInt8.ofNat (v >>> 21)]
  else
    [UInt8.ofNat (v ||| 128), UInt8.ofNat ((v >>> 7) ||| 128), UInt8.ofNat ((v >>> 14) ||| 128),
      UInt8.ofNat ((v >>> 21) ||| 128), UInt8.ofNat (v >>> 28)]

/-- `EncodeVarint64`. -/
def encodeVarint64 (v : Nat) : Bytes :=
  if 128 ≤ v then UInt8.ofNat ((v &&& 127) ||| 128) :: encodeVarint64 (v >>> 7)
  else [UInt8.ofNat v]
decreasing_by
  rw [Nat.shiftRight_eq_div_pow]
  omega

/-- `VarintLength`. -/
def varintLength (v : Nat) : Nat := if 128 ≤ v then varintLength (v >>> 7) + 1 else 1
decreasing_by
  rw [Nat.shiftRight_eq_div_pow]
  omega

/-- `GetVarint32Ptr` and `GetVarint64Ptr`, for numbers of `w` bits: the bytes before a limit, and
those behind the number. The one-byte fast path does what the loop does. -/
def getVarint (w maxShift shift result : Nat) : Bytes → Option (Nat × Bytes)
  | [] => none
  | byte :: rest =>
    if shift ≤ maxShift then
      if byte.toNat &&& 128 ≠ 0 then
        let result := result ||| ((byte.toNat &&& 127) <<< shift) % 2 ^ w
        getVarint w maxShift (shift + 7) result rest
      else some (result ||| (byte.toNat <<< shift) % 2 ^ w, rest)
    else none

/-- `GetVarint32`. -/
def getVarint32 (input : Bytes) : Option (Nat × Bytes) := getVarint 32 28 0 0 input

/-- `GetVarint64`. -/
def getVarint64 (input : Bytes) : Option (Nat × Bytes) := getVarint 64 63 0 0 input

/-- `PutLengthPrefixedSlice`: the length is cut to 32 bits. -/
def putLengthPrefixedSlice (value : Bytes) : Bytes :=
  encodeVarint32 (value.length % 2 ^ 32) ++ value

/-- `GetLengthPrefixedSlice`: the slice and the input behind it. -/
def getLengthPrefixedSlice (input : Bytes) : Option (Bytes × Bytes) :=
  match getVarint32 input with
  | some (len, rest) => if len ≤ rest.length then some (rest.take len, rest.drop len) else none
  | none => none

private theorem toNat_varByte (v : Nat) : (UInt8.ofNat (v ||| 128)).toNat = v % 128 + 128 := by
  change (v ||| 128) % 2 ^ 8 = _
  have hor : (v ||| 128) % 2 ^ 8 = v % 2 ^ 8 ||| 128 := Nat.or_mod_two_pow
  have hbits : ∀ b : Fin 256, b.val ||| 128 = b.val % 128 + 128 := by
    decide +kernel
  have hbyte := hbits ⟨v % 2 ^ 8, Nat.mod_lt _ (by decide)⟩
  rw [hor]
  simp only at hbyte
  omega

/-- The bytes of a number that needs more than one: the low seven bits, then the rest. -/
theorem encodeVarint64_of_le {v : Nat} (h : 128 ≤ v) :
    encodeVarint64 v = UInt8.ofNat (v ||| 128) :: encodeVarint64 (v / 128) := by
  have hbyte : UInt8.ofNat ((v &&& 127) ||| 128) = UInt8.ofNat (v ||| 128) := by
    apply UInt8.toNat_inj.mp
    have hand : v &&& 127 = v % 128 := Nat.and_two_pow_sub_one_eq_mod v 7
    rw [toNat_varByte, toNat_varByte, hand, Nat.mod_mod]
  rw [encodeVarint64, if_pos h, hbyte, Nat.shiftRight_eq_div_pow]

theorem encodeVarint64_of_lt {v : Nat} (h : v < 128) : encodeVarint64 v = [UInt8.ofNat v] := by
  rw [encodeVarint64, if_neg (Nat.not_le.mpr h)]

/-- The two encoders agree on 32-bit numbers. -/
theorem encodeVarint32_eq {v : Nat} (h : v < 2 ^ 32) : encodeVarint32 v = encodeVarint64 v := by
  unfold encodeVarint32
  simp only [Nat.shiftRight_eq_div_pow]
  split_ifs with h₁ h₂ h₃ h₄
  · rw [encodeVarint64_of_lt h₁]
  · rw [encodeVarint64_of_le (by omega), encodeVarint64_of_lt (by omega)]
  · rw [encodeVarint64_of_le (by omega), encodeVarint64_of_le (by omega),
      encodeVarint64_of_lt (by omega), Nat.div_div_eq_div_mul]
  · rw [encodeVarint64_of_le (by omega), encodeVarint64_of_le (by omega),
      encodeVarint64_of_le (by omega), encodeVarint64_of_lt (by omega)]
    simp only [Nat.div_div_eq_div_mul]
  · rw [encodeVarint64_of_le (by omega), encodeVarint64_of_le (by omega),
      encodeVarint64_of_le (by omega), encodeVarint64_of_le (by omega),
      encodeVarint64_of_lt (by omega)]
    simp only [Nat.div_div_eq_div_mul]

theorem length_encodeVarint64 (v : Nat) : (encodeVarint64 v).length = varintLength v := by
  induction v using Nat.strongRecOn with
  | ind v ih =>
    rw [encodeVarint64, varintLength]
    split_ifs
    · have hlt : v >>> 7 < v := by
        rw [Nat.shiftRight_eq_div_pow]
        omega
      rw [List.length_cons, ih _ hlt]
    · rfl

/-- Reading on behind the bits that are there already. -/
private theorem getVarint_encodeVarint64 (w maxShift : Nat)
    (hw : ∀ k, 7 * k < w → 7 * k ≤ maxShift) (k v result : Nat) (rest : Bytes)
    (hk : 7 * k ≤ maxShift) (hv : v * 2 ^ (7 * k) < 2 ^ w) (hresult : result < 2 ^ (7 * k)) :
    getVarint w maxShift (7 * k) result (encodeVarint64 v ++ rest) =
      some (result + v * 2 ^ (7 * k), rest) := by
  induction v using Nat.strongRecOn generalizing k result with
  | ind v ih =>
    have hpos : 0 < 2 ^ (7 * k) := Nat.two_pow_pos _
    have hor : ∀ x, result ||| x * 2 ^ (7 * k) = result + x * 2 ^ (7 * k) := by
      intro x
      rw [Nat.or_comm, ← Nat.shiftLeft_eq, ← Nat.shiftLeft_add_eq_or_of_lt hresult, Nat.add_comm]
    by_cases hsmall : v < 128
    · have hbyte : (UInt8.ofNat v).toNat = v := Nat.mod_eq_of_lt (by omega)
      have hmore : v &&& 128 = 0 := by
        have hbits : ∀ b : Fin 128, b.val &&& 128 = 0 := by decide
        exact hbits ⟨v, hsmall⟩
      rw [encodeVarint64_of_lt hsmall, List.singleton_append, getVarint, if_pos hk, hbyte,
        if_neg (by simp [hmore]), Nat.shiftLeft_eq, Nat.mod_eq_of_lt hv, hor]
    · have hbyte := toNat_varByte v
      have hmore : (v % 128 + 128) &&& 128 ≠ 0 ∧ (v % 128 + 128) &&& 127 = v % 128 := by
        have hbits : ∀ b : Fin 128, (b.val + 128) &&& 128 ≠ 0 ∧ (b.val + 128) &&& 127 = b.val := by
          decide
        exact hbits ⟨v % 128, Nat.mod_lt _ (by decide)⟩
      have hsplit : v % 128 * 2 ^ (7 * k) + v / 128 * 2 ^ (7 * (k + 1)) = v * 2 ^ (7 * k) := by
        have hpow : 2 ^ (7 * (k + 1)) = 128 * 2 ^ (7 * k) := by
          rw [Nat.mul_succ, Nat.pow_add, Nat.mul_comm]
        rw [hpow, ← Nat.mul_assoc, ← Nat.add_mul, Nat.mul_comm (v / 128), Nat.mod_add_div]
      have hlow : v % 128 * 2 ^ (7 * k) < 2 ^ w := by omega
      have hhigh : v / 128 * 2 ^ (7 * (k + 1)) < 2 ^ w := by omega
      have hnext : 7 * (k + 1) ≤ maxShift := by
        apply hw
        have hone : 2 ^ (7 * (k + 1)) ≤ v / 128 * 2 ^ (7 * (k + 1)) :=
          Nat.le_mul_of_pos_left _ (by omega)
        exact (Nat.pow_lt_pow_iff_right (Nat.lt_succ_self 1)).mp (Nat.lt_of_le_of_lt hone hhigh)
      have hresult' : result + v % 128 * 2 ^ (7 * k) < 2 ^ (7 * (k + 1)) := by
        have hle : v % 128 * 2 ^ (7 * k) ≤ 127 * 2 ^ (7 * k) :=
          Nat.mul_le_mul_right _ (by omega)
        have hpow : 2 ^ (7 * (k + 1)) = 128 * 2 ^ (7 * k) := by
          rw [Nat.mul_succ, Nat.pow_add, Nat.mul_comm]
        omega
      rw [encodeVarint64_of_le (by omega), List.cons_append, getVarint, if_pos hk, hbyte,
        if_pos hmore.1, hmore.2, Nat.shiftLeft_eq, Nat.mod_eq_of_lt hlow, hor]
      have hrec := ih (v / 128) (by omega) (k + 1) _ hnext hhigh hresult'
      rw [Nat.mul_succ] at hrec hsplit
      simp only
      rw [hrec, Nat.add_assoc, hsplit]

/-- A 32-bit number is read back, whatever follows it. -/
theorem getVarint32_encodeVarint32 {v : Nat} (h : v < 2 ^ 32) (rest : Bytes) :
    getVarint32 (encodeVarint32 v ++ rest) = some (v, rest) := by
  rw [encodeVarint32_eq h]
  have hread := getVarint_encodeVarint64 32 28 (by omega) 0 v 0 rest (by decide) (by omega) (by decide)
  simpa [getVarint32] using hread

/-- A 64-bit number is read back, whatever follows it. -/
theorem getVarint64_encodeVarint64 {v : Nat} (h : v < 2 ^ 64) (rest : Bytes) :
    getVarint64 (encodeVarint64 v ++ rest) = some (v, rest) := by
  have hread := getVarint_encodeVarint64 64 63 (by omega) 0 v 0 rest (by decide) (by omega) (by decide)
  simpa [getVarint64] using hread

/-- The prefix of a value says the length of what is read back. -/
theorem getLengthPrefixedSlice_put_mod (value rest : Bytes) :
    getLengthPrefixedSlice (putLengthPrefixedSlice value ++ rest) =
      some (value.take (value.length % 2 ^ 32), value.drop (value.length % 2 ^ 32) ++ rest) := by
  have hlt := Nat.mod_lt value.length (Nat.two_pow_pos 32)
  have hle := Nat.mod_le value.length (2 ^ 32)
  rw [getLengthPrefixedSlice, putLengthPrefixedSlice, List.append_assoc,
    getVarint32_encodeVarint32 hlt]
  simp only
  rw [if_pos (by rw [List.length_append]; omega), List.take_append_of_le_length hle,
    List.drop_append_of_le_length hle]

/-- A slice whose length fits its prefix is read back, whatever follows it. -/
theorem getLengthPrefixedSlice_put {value : Bytes} (h : value.length < 2 ^ 32) (rest : Bytes) :
    getLengthPrefixedSlice (putLengthPrefixedSlice value ++ rest) = some (value, rest) := by
  rw [getLengthPrefixedSlice_put_mod, Nat.mod_eq_of_lt h, List.take_length, List.drop_length,
    List.nil_append]

/-- What is read fits the width. -/
theorem getVarint_lt {w maxShift shift result : Nat} {input rest : Bytes} {v : Nat}
    (hresult : result < 2 ^ w) (h : getVarint w maxShift shift result input = some (v, rest)) :
    v < 2 ^ w := by
  have hor : ∀ x, result ||| x % 2 ^ w < 2 ^ w := fun x =>
    Nat.or_lt_two_pow hresult (Nat.mod_lt _ (Nat.two_pow_pos w))
  induction input generalizing shift result with
  | nil => cases h
  | cons byte input ih =>
    rw [getVarint] at h
    split_ifs at h with hshift hmore
    · exact ih (hor _) h fun x => Nat.or_lt_two_pow (hor _) (Nat.mod_lt _ (Nat.two_pow_pos w))
    · cases h
      exact hor _

theorem length_getVarint_lt {w maxShift shift result : Nat} {input rest : Bytes} {v : Nat}
    (h : getVarint w maxShift shift result input = some (v, rest)) :
    rest.length < input.length := by
  induction input generalizing shift result with
  | nil => cases h
  | cons byte input ih =>
    rw [getVarint] at h
    split_ifs at h with hshift hmore
    · exact Nat.lt_succ_of_lt (ih h)
    · cases h
      exact Nat.lt_succ_self _

theorem length_getLengthPrefixedSlice_lt {input s rest : Bytes}
    (h : getLengthPrefixedSlice input = some (s, rest)) : rest.length < input.length := by
  unfold getLengthPrefixedSlice at h
  split at h
  · rename_i len rest' hlen
    split_ifs at h
    cases h
    have hlt := length_getVarint_lt hlen
    rw [List.length_drop]
    omega
  · cases h

/-- What is read in front of an input is read in front of a longer one. -/
theorem getVarint_append {w maxShift shift result : Nat} {input rest : Bytes} {v : Nat}
    (h : getVarint w maxShift shift result input = some (v, rest)) (more : Bytes) :
    getVarint w maxShift shift result (input ++ more) = some (v, rest ++ more) := by
  induction input generalizing shift result with
  | nil => cases h
  | cons byte input ih =>
    rw [getVarint] at h
    rw [List.cons_append, getVarint]
    split_ifs at h ⊢ with hshift hmore
    · exact ih h
    · cases h
      rfl

theorem getLengthPrefixedSlice_append {input s rest : Bytes}
    (h : getLengthPrefixedSlice input = some (s, rest)) (more : Bytes) :
    getLengthPrefixedSlice (input ++ more) = some (s, rest ++ more) := by
  unfold getLengthPrefixedSlice at h ⊢
  split at h
  · rename_i len rest' hlen
    split_ifs at h with hle
    cases h
    have happend : len ≤ (rest' ++ more).length := by
      rw [List.length_append]
      omega
    rw [getVarint32, getVarint_append hlen more]
    simp only
    rw [if_pos happend, List.take_append_of_le_length hle, List.drop_append_of_le_length hle]
  · cases h

end WiscKey
