import WiscKey.Core.Bytes
import Mathlib.Data.List.GetD

/-!
# Filter policies

A filter policy appends a filter of some keys to a string, and tells from a filter whether a key
may be among those that it was built from. The Bloom filter sets and tests some bits for each
key, whose places come from a hash of the key by double hashing.
-/

namespace WiscKey

/-- `FilterPolicy`: the bytes that `CreateFilter` appends to a string for the first `n` keys of an
array, where `n` is an `int`, and `KeyMayMatch`. -/
structure FilterPolicy where
  createFilter : List Bytes → Int → Bytes → Bytes
  keyMayMatch : Bytes → Bytes → Bool

/-- Every key that a filter was built from may match it. -/
def FilterPolicy.Sound (p : FilterPolicy) : Prop :=
  ∀ (keys : List Bytes) (n : Nat) (dst : Bytes), n ≤ keys.length → n < 2 ^ 31 →
    ∀ key ∈ keys.take n, p.keyMayMatch key (p.createFilter keys n dst) = true

/-- `array[bitpos/8] & (1 << (bitpos % 8))`. -/
def testBit (array : Bytes) (bitpos : Nat) : Bool :=
  (array.getD (bitpos / 8) 0) &&& (1 <<< UInt8.ofNat (bitpos % 8)) ≠ 0

/-- `array[bitpos/8] |= (1 << (bitpos % 8))`, for the array that starts at `init` in `dst`. -/
def setBit (dst : Bytes) (init bitpos : Nat) : Bytes :=
  dst.modify (init + bitpos / 8) (· ||| (1 <<< UInt8.ofNat (bitpos % 8)))

section Bits

variable {a : Bytes} {i j : Nat}

@[simp] theorem length_setBit (a : Bytes) (init i : Nat) : (setBit a init i).length = a.length := by
  rw [setBit, List.length_modify]

theorem bitMask_ne_zero (i : Nat) : (1 : UInt8) <<< UInt8.ofNat (i % 8) ≠ 0 := by
  have hmask : ∀ k : Fin 8, (1 : UInt8) <<< UInt8.ofNat k.val ≠ 0 := by decide
  exact hmask ⟨i % 8, Nat.mod_lt _ (by decide)⟩

theorem or_and_ne_zero {x y m : UInt8} (h : x &&& m ≠ 0) : (x ||| y) &&& m ≠ 0 := by
  have hdistrib : (x ||| y) &&& m = (x &&& m) ||| (y &&& m) :=
    UInt8.toBitVec_inj.mp BitVec.and_or_distrib_right
  rw [hdistrib, ne_eq, UInt8.or_eq_zero_iff]
  exact fun hzero => h hzero.1

theorem getD_setBit (a : Bytes) (i j : Nat) : (setBit a 0 i).getD j 0 =
    if i / 8 = j ∧ j < a.length then a.getD j 0 ||| (1 <<< UInt8.ofNat (i % 8))
    else a.getD j 0 := by
  rw [setBit, List.getD_eq_getElem?_getD, List.getD_eq_getElem?_getD, List.getElem?_modify,
    Nat.zero_add]
  by_cases hj : j < a.length
  · rw [List.getElem?_eq_getElem hj]
    split_ifs <;> simp_all
  · rw [List.getElem?_eq_none (Nat.le_of_not_lt hj)]
    simp [hj]

theorem testBit_setBit_self (h : i / 8 < a.length) : testBit (setBit a 0 i) i = true := by
  have hself : ∀ x y : UInt8, (x ||| y) &&& y = y := by
    intro x y
    apply UInt8.toBitVec_inj.mp
    change (x.toBitVec ||| y.toBitVec) &&& y.toBitVec = y.toBitVec
    ext k hk
    simp only [BitVec.getElem_and, BitVec.getElem_or]
    cases y.toBitVec[k] <;> simp
  rw [testBit, getD_setBit, if_pos ⟨rfl, h⟩, hself]
  simpa using bitMask_ne_zero i

theorem testBit_setBit (h : testBit a j = true) : testBit (setBit a 0 i) j = true := by
  rw [testBit, decide_eq_true_eq] at h ⊢
  rw [getD_setBit]
  split_ifs
  · exact or_and_ne_zero h
  · exact h

end Bits

/-- `BloomFilterPolicy`. The constructor takes the number of probes from the bits for each key and
keeps it from one to thirty. -/
structure BloomFilterPolicy where
  bitsPerKey : Nat
  k : Nat
  one_le_k : 1 ≤ k
  k_le : k ≤ 30

namespace BloomFilterPolicy

/-- `(h >> 17) | (h << 15)`: a rotation by seventeen bits. -/
def rotate (h : UInt32) : UInt32 := (h >>> 17) ||| (h <<< 15)

/-- The bytes of the filter of `n` keys. The product of two numbers of type `int` fits a
`size_t`. -/
def filterBytes (p : BloomFilterPolicy) (n : Nat) : Nat :=
  let bits := n * p.bitsPerKey
  let bits := if bits < 64 then 64 else bits
  (bits + 7) / 8

/-- The inner loop of `CreateFilter`, with `j` probes to go. -/
def setProbes (init bits : Nat) (delta : UInt32) : Nat → UInt32 → Bytes → Bytes
  | 0, _, dst => dst
  | j + 1, h, dst =>
    setProbes init bits delta j (h + delta) (setBit dst init (h.toNat % bits))

variable (hash : Bytes → UInt32)

/-- `CreateFilter`, with `BloomHash` as a parameter. -/
def createFilter (p : BloomFilterPolicy) (keys : List Bytes) (dst : Bytes) : Bytes :=
  let bytes := p.filterBytes keys.length
  let bits := bytes * 8
  keys.foldl (fun array key => setProbes dst.length bits (rotate (hash key)) p.k (hash key) array)
    (dst ++ List.replicate bytes 0 ++ [UInt8.ofNat p.k])

/-- The loop of `KeyMayMatch`, with `j` probes to go. -/
def testProbes (array : Bytes) (bits : Nat) (delta : UInt32) : Nat → UInt32 → Bool
  | 0, _ => true
  | j + 1, h =>
    if testBit array (h.toNat % bits) then testProbes array bits delta j (h + delta) else false

/-- `KeyMayMatch`; more than thirty probes are reserved and match. -/
def keyMayMatch (key bloomFilter : Bytes) : Bool :=
  let len := bloomFilter.length
  if len < 2 then false
  else
    let bits := (len - 1) * 8
    let k := (bloomFilter.getD (len - 1) 0).toNat
    if 30 < k then true
    else testProbes bloomFilter bits (rotate (hash key)) k (hash key)

/-- An array that has the bits of another one. -/
structure Covers (a a' : Bytes) (bytes : Nat) : Prop where
  length_eq : a'.length = a.length
  last_eq : a'.getD bytes 0 = a.getD bytes 0
  testBit : ∀ i, testBit a i = true → testBit a' i = true

namespace Covers

variable {a a' a'' : Bytes} {bytes : Nat}

theorem refl (a : Bytes) (bytes : Nat) : Covers a a bytes := ⟨rfl, rfl, fun _ => id⟩

theorem trans (h : Covers a a' bytes) (h' : Covers a' a'' bytes) : Covers a a'' bytes where
  length_eq := h'.length_eq.trans h.length_eq
  last_eq := h'.last_eq.trans h.last_eq
  testBit i hi := h'.testBit i (h.testBit i hi)

/-- A bit in front of the last byte. -/
theorem setBit {i : Nat} (h : i / 8 < bytes) : Covers a (WiscKey.setBit a 0 i) bytes where
  length_eq := length_setBit a 0 i
  last_eq := by rw [getD_setBit, if_neg fun hlast => absurd hlast.1 (Nat.ne_of_lt h)]
  testBit _ := testBit_setBit

variable {delta : UInt32} {j : Nat} {h : UInt32}

theorem setProbes (hpos : 0 < bytes) :
    Covers a (setProbes 0 (bytes * 8) delta j h a) bytes := by
  induction j generalizing a h with
  | zero => exact refl a bytes
  | succ j ih =>
    have hlt : h.toNat % (bytes * 8) / 8 < bytes := by
      rw [Nat.div_lt_iff_lt_mul (by decide)]
      exact Nat.mod_lt _ (by omega)
    exact (setBit hlt).trans ih

/-- Probes that are set stay set. -/
theorem testProbes {bits : Nat} (hcovers : Covers a a' bytes)
    (htest : testProbes a bits delta j h = true) : testProbes a' bits delta j h = true := by
  induction j generalizing h with
  | zero => rfl
  | succ j ih =>
    rw [BloomFilterPolicy.testProbes] at htest ⊢
    split_ifs at htest with hbit
    rw [if_pos (hcovers.testBit _ hbit)]
    exact ih htest

end Covers

/-- The probes of a key are found where they were set. -/
theorem testProbes_setProbes {bytes : Nat} (hpos : 0 < bytes) (delta : UInt32) (j : Nat)
    {a : Bytes} (hlen : bytes ≤ a.length) (h : UInt32) :
    testProbes (setProbes 0 (bytes * 8) delta j h a) (bytes * 8) delta j h = true := by
  induction j generalizing a h with
  | zero => rfl
  | succ j ih =>
    have hlt : h.toNat % (bytes * 8) / 8 < bytes := by
      rw [Nat.div_lt_iff_lt_mul (by decide)]
      exact Nat.mod_lt _ (by omega)
    have hset := testBit_setBit_self (a := a) (i := h.toNat % (bytes * 8)) (hlt.trans_le hlen)
    rw [setProbes, testProbes, if_pos ((Covers.setProbes hpos).testBit _ hset)]
    exact ih (by rwa [length_setBit]) (h + delta)

/-- The filter is built behind what was there. -/
theorem setProbes_append (dst a : Bytes) (bits : Nat) (delta : UInt32) (j : Nat) (h : UInt32) :
    setProbes dst.length bits delta j h (dst ++ a) = dst ++ setProbes 0 bits delta j h a := by
  induction j generalizing a h with
  | zero => rfl
  | succ j ih =>
    have hbit : setBit (dst ++ a) dst.length (h.toNat % bits) =
        dst ++ setBit a 0 (h.toNat % bits) := by
      have hle := Nat.le_add_right dst.length (h.toNat % bits / 8)
      rw [setBit, setBit, Nat.zero_add, List.modify_eq_take_drop, List.modify_eq_take_drop,
        List.take_append, List.drop_append, List.take_of_length_le hle,
        List.drop_of_length_le hle, Nat.add_sub_cancel_left, List.nil_append, List.append_assoc]
    rw [setProbes, hbit, ih, setProbes]

theorem filterBytes_pos (p : BloomFilterPolicy) (n : Nat) : 0 < p.filterBytes n := by
  unfold filterBytes
  simp only
  split_ifs <;> omega

/-- The keys of a filter keep the bits that are there, and find their own. -/
theorem foldl_setProbes {bytes k : Nat} (hpos : 0 < bytes) (keys : List Bytes) {a : Bytes}
    (hlen : bytes ≤ a.length) :
    Covers a (keys.foldl (fun array key =>
      setProbes 0 (bytes * 8) (rotate (hash key)) k (hash key) array) a) bytes ∧
    ∀ key ∈ keys, testProbes (keys.foldl (fun array key =>
      setProbes 0 (bytes * 8) (rotate (hash key)) k (hash key) array) a) (bytes * 8)
        (rotate (hash key)) k (hash key) = true := by
  induction keys generalizing a with
  | nil => exact ⟨.refl a bytes, nofun⟩
  | cons key keys ih =>
    have hset : Covers a (setProbes 0 (bytes * 8) (rotate (hash key)) k (hash key) a) bytes :=
      Covers.setProbes hpos
    obtain ⟨hcovers, hkeys⟩ := ih (hlen.trans hset.length_eq.ge)
    refine ⟨hset.trans hcovers, fun key' hkey' => ?_⟩
    rcases List.mem_cons.mp hkey' with rfl | hkey'
    · exact hcovers.testProbes (testProbes_setProbes hpos _ _ hlen _)
    · exact hkeys key' hkey'

/-- The bytes that `CreateFilter` appends. -/
def filter (p : BloomFilterPolicy) (keys : List Bytes) : Bytes :=
  keys.foldl (fun array key =>
      setProbes 0 (p.filterBytes keys.length * 8) (rotate (hash key)) p.k (hash key) array)
    (List.replicate (p.filterBytes keys.length) 0 ++ [UInt8.ofNat p.k])

theorem createFilter_eq (p : BloomFilterPolicy) (keys : List Bytes) (dst : Bytes) :
    p.createFilter hash keys dst = dst ++ p.filter hash keys := by
  have hbehind : ∀ (ks : List Bytes) (a : Bytes),
      ks.foldl (fun array key => setProbes dst.length (p.filterBytes keys.length * 8)
        (rotate (hash key)) p.k (hash key) array) (dst ++ a) =
      dst ++ ks.foldl (fun array key => setProbes 0 (p.filterBytes keys.length * 8)
        (rotate (hash key)) p.k (hash key) array) a := by
    intro ks
    induction ks with
    | nil => exact fun a => rfl
    | cons key ks ih =>
      intro a
      rw [List.foldl_cons, setProbes_append, ih, List.foldl_cons]
  rw [createFilter, List.append_assoc]
  exact hbehind keys _

theorem keyMayMatch_filter (p : BloomFilterPolicy) {keys : List Bytes} {key : Bytes}
    (hkey : key ∈ keys) : keyMayMatch hash key (p.filter hash keys) = true := by
  have hpos := p.filterBytes_pos keys.length
  obtain ⟨hcovers, hkeys⟩ := foldl_setProbes hash (k := p.k) hpos keys
    (a := List.replicate (p.filterBytes keys.length) 0 ++ [UInt8.ofNat p.k]) (by simp)
  have hlen : (p.filter hash keys).length = p.filterBytes keys.length + 1 := by
    rw [filter, hcovers.length_eq, List.length_append, List.length_replicate,
      List.length_singleton]
  have hlast : (p.filter hash keys).getD (p.filterBytes keys.length) 0 = UInt8.ofNat p.k := by
    rw [filter, hcovers.last_eq, List.getD_append_right _ _ _ _ (by simp), List.length_replicate,
      Nat.sub_self, List.getD_cons_zero]
  have hk : (UInt8.ofNat p.k).toNat = p.k := Nat.mod_eq_of_lt (p.k_le.trans_lt (by decide))
  rw [keyMayMatch, hlen]
  simp only [Nat.add_sub_cancel, hlast, hk]
  rw [if_neg (by omega), if_neg (Nat.not_lt.mpr p.k_le)]
  exact hkeys key hkey

/-- No key of a filter is missed: what `CreateFilter` appends, whatever was there and whatever the
hash, may match each key that it was given. -/
theorem keyMayMatch_createFilter (p : BloomFilterPolicy) (keys : List Bytes) (dst : Bytes) :
    ∃ appended, p.createFilter hash keys dst = dst ++ appended ∧
      ∀ key ∈ keys, keyMayMatch hash key appended = true :=
  ⟨p.filter hash keys, p.createFilter_eq hash keys dst, fun _ hkey =>
    p.keyMayMatch_filter hash hkey⟩

/-- A Bloom filter as a filter policy. There is no string long enough for a negative number of
keys. -/
def toFilterPolicy (p : BloomFilterPolicy) : FilterPolicy where
  createFilter keys n _ := p.filter hash (keys.take n.toNat)
  keyMayMatch := keyMayMatch hash

theorem sound_toFilterPolicy (p : BloomFilterPolicy) : (p.toFilterPolicy hash).Sound :=
  fun _ _ _ _ _ _ hkey => p.keyMayMatch_filter hash hkey

end BloomFilterPolicy

end WiscKey
