import WiscKey.Core.Status
import Mathlib.Order.Compare

/-!
# Internal keys

An internal key is a user key followed by eight bytes that pack a sequence number and a
value type. Internal keys are in the order of their user keys, the newest first.
-/

namespace WiscKey

/-- `Comparator`: a total order of user keys, up to keys that compare equal. The length of its
name fits the prefix of a slice. -/
structure Comparator where
  name : Bytes
  compare : Bytes → Bytes → Ordering
  trans : Std.TransCmp compare
  length_name : name.length < 2 ^ 32

instance (c : Comparator) : Std.TransCmp c.compare := c.trans

/-- `BytewiseComparator`: `memcmp`, and the shorter slice first where one is in front of the
other. -/
def bytewiseComparator : Comparator where
  name := ascii ['l', 'e', 'v', 'e', 'l', 'd', 'b', '.', 'B', 'y', 't', 'e', 'w', 'i', 's', 'e',
    'C', 'o', 'm', 'p', 'a', 'r', 'a', 't', 'o', 'r']
  compare a b := Ord.compare a b
  trans := inferInstanceAs (Std.TransOrd (List UInt8))
  length_name := by decide

/-- `ParsedInternalKey`. -/
structure ParsedInternalKey where
  userKey : Bytes
  sequence : Nat
  type : ValueType
  deriving DecidableEq, Repr

/-- `PackSequenceAndType`. -/
def packSequenceAndType (seq : Nat) (t : ValueType) : Nat := (seq <<< 8) ||| t.code

/-- `AppendInternalKey`, to an empty string. -/
def appendInternalKey (key : ParsedInternalKey) : Bytes :=
  key.userKey ++ encodeFixed64 (packSequenceAndType key.sequence key.type)

/-- `ExtractUserKey`. -/
def extractUserKey (internalKey : Bytes) : Bytes := internalKey.take (internalKey.length - 8)

/-- The packed number at the end of an internal key. -/
def internalTag (internalKey : Bytes) : Nat :=
  decodeFixed64 (internalKey.drop (internalKey.length - 8))

/-- `ParseInternalKey`. -/
def parseInternalKey (internalKey : Bytes) : Option ParsedInternalKey :=
  if internalKey.length < 8 then none
  else
    let num := internalTag internalKey
    let c := num &&& 0xff
    if c = 0 then some ⟨extractUserKey internalKey, num >>> 8, .deletion⟩
    else if c = 1 then some ⟨extractUserKey internalKey, num >>> 8, .value⟩
    else none

/-- `InternalKeyComparator::Compare`: user keys up, sequence numbers and types down. -/
def Comparator.internalCompare (c : Comparator) (akey bkey : Bytes) : Ordering :=
  (c.compare (extractUserKey akey) (extractUserKey bkey)).then
    (Ord.compare (internalTag bkey) (internalTag akey))

instance (c : Comparator) : Std.TransCmp c.internalCompare :=
  letI : Ord Bytes := ⟨c.compare⟩
  haveI : Std.TransOrd Bytes := inferInstanceAs (Std.TransCmp c.compare)
  haveI : Std.TransCmp fun a b : Bytes => compareOn internalTag b a :=
    inferInstanceAs (Std.TransCmp fun a b => compareOn internalTag b a)
  inferInstanceAs (Std.TransCmp
    (compareLex (compareOn extractUserKey) fun a b => compareOn internalTag b a))

section Codec

theorem packSequenceAndType_eq (seq : Nat) (t : ValueType) :
    packSequenceAndType seq t = seq * 256 + t.code := by
  have hcode : t.code < 2 ^ 8 := by cases t <;> decide
  rw [packSequenceAndType, ← Nat.shiftLeft_add_eq_or_of_lt hcode, Nat.shiftLeft_eq]

theorem length_appendInternalKey (key : ParsedInternalKey) :
    (appendInternalKey key).length = key.userKey.length + 8 := by
  rw [appendInternalKey, List.length_append, encodeFixed64, length_encodeFixed]

theorem drop_appendInternalKey (key : ParsedInternalKey) :
    (appendInternalKey key).drop ((appendInternalKey key).length - 8) =
      encodeFixed64 (packSequenceAndType key.sequence key.type) := by
  rw [appendInternalKey, List.length_append, encodeFixed64, length_encodeFixed,
    Nat.add_sub_cancel, List.drop_left]

@[simp] theorem extractUserKey_appendInternalKey (key : ParsedInternalKey) :
    extractUserKey (appendInternalKey key) = key.userKey := by
  rw [extractUserKey, appendInternalKey, List.length_append, encodeFixed64, length_encodeFixed,
    Nat.add_sub_cancel, List.take_left]

/-- An internal key has room for sequence numbers of 56 bits. -/
theorem internalTag_appendInternalKey {key : ParsedInternalKey}
    (h : key.sequence ≤ kMaxSequenceNumber) :
    internalTag (appendInternalKey key) = key.sequence * 256 + key.type.code := by
  have hmax : kMaxSequenceNumber = 2 ^ 56 - 1 := by decide
  have hcode : key.type.code < 256 := by cases key.type <;> decide
  rw [internalTag, drop_appendInternalKey, packSequenceAndType_eq,
    ← List.append_nil (encodeFixed64 _), decodeFixed64_encodeFixed64]
  omega

/-- What a parsed key says of the bytes. -/
theorem parseInternalKey_spec {internalKey : Bytes} {ikey : ParsedInternalKey}
    (h : parseInternalKey internalKey = some ikey) :
    ikey.userKey = extractUserKey internalKey ∧
      internalTag internalKey = ikey.sequence * 256 + ikey.type.code := by
  have hmod : internalTag internalKey &&& 0xff = internalTag internalKey % 256 :=
    Nat.and_two_pow_sub_one_eq_mod _ 8
  have hdiv : internalTag internalKey >>> 8 = internalTag internalKey / 256 :=
    Nat.shiftRight_eq_div_pow _ 8
  simp only [parseInternalKey, hmod, hdiv] at h
  split_ifs at h with hshort hdeletion hvalue
  · obtain rfl := Option.some.inj h
    exact ⟨rfl, by simp only [ValueType.code]; omega⟩
  · obtain rfl := Option.some.inj h
    exact ⟨rfl, by simp only [ValueType.code]; omega⟩

/-- The sequence number of a parsed key has 56 bits. -/
theorem sequence_le_of_parse {internalKey : Bytes} {ikey : ParsedInternalKey}
    (h : parseInternalKey internalKey = some ikey) : ikey.sequence ≤ kMaxSequenceNumber := by
  have hmax : kMaxSequenceNumber = 2 ^ 56 - 1 := by decide
  have htag : internalTag internalKey < 256 ^ 8 := by
    refine (decodeFixed_lt _).trans_le (Nat.pow_le_pow_right (by decide) ?_)
    exact List.length_take_le ..
  have hspec := (parseInternalKey_spec h).2
  omega

/-- An internal key is parsed back. -/
theorem parseInternalKey_appendInternalKey {key : ParsedInternalKey}
    (h : key.sequence ≤ kMaxSequenceNumber) : parseInternalKey (appendInternalKey key) = some key := by
  have hlength : ¬ (appendInternalKey key).length < 8 := by
    rw [appendInternalKey, List.length_append, encodeFixed64, length_encodeFixed]
    omega
  have hmod : ∀ n : Nat, n &&& 0xff = n % 256 := fun n => Nat.and_two_pow_sub_one_eq_mod n 8
  have hdiv : ∀ n : Nat, n >>> 8 = n / 256 := fun n => Nat.shiftRight_eq_div_pow n 8
  obtain ⟨userKey, sequence, type⟩ := key
  have hsequence : (sequence * 256 + type.code) / 256 = sequence := by
    cases type <;> simp only [ValueType.code] <;> omega
  have htype : (sequence * 256 + type.code) % 256 = type.code := by
    cases type <;> simp only [ValueType.code] <;> omega
  rw [parseInternalKey, if_neg hlength, internalTag_appendInternalKey h,
    extractUserKey_appendInternalKey]
  simp only [hmod, hdiv, hsequence, htype]
  cases type with
  | deletion => rfl
  | value => rfl

end Codec

end WiscKey
