import WiscKey.Core.DbFormat
import WiscKey.Library.OrderedSet

/-!
# Short keys between two keys

The comparator of user keys can shorten a key and keep it in front of another one. That of internal
keys shortens the user key and puts the highest sequence number behind it.
-/

namespace WiscKey

/-- The loop of `FindShortestSeparator` over the common prefix. -/
def diffIndex : Bytes → Bytes → Nat
  | a :: start, b :: limit => if a = b then diffIndex start limit + 1 else 0
  | _, _ => 0

/-- `BytewiseComparatorImpl::FindShortestSeparator`. -/
def findShortestSeparator (start limit : Bytes) : Bytes :=
  let minLength := min start.length limit.length
  let index := diffIndex start limit
  if minLength ≤ index then start
  else
    match start[index]?, limit[index]? with
    | some diffByte, some limitByte =>
      if diffByte < 0xff ∧ diffByte.toNat + 1 < limitByte.toNat then
        start.take index ++ [diffByte + 1]
      else start
    | _, _ => start

/-- `BytewiseComparatorImpl::FindShortSuccessor`: the first byte that can be incremented is. -/
def findShortSuccessor : Bytes → Bytes
  | [] => []
  | byte :: key => if byte ≠ 0xff then [byte + 1] else byte :: findShortSuccessor key

/-- The internal key in front of all others of a user key. -/
def earliestKey (userKey : Bytes) : Bytes := appendInternalKey ⟨userKey, kMaxSequenceNumber, .value⟩

/-- What both functions of `InternalKeyComparator` do with a shortened user key: it is taken if it
is shorter and behind the user key. -/
def orShortened (key tmp : Bytes) : Bytes :=
  if tmp.length < (extractUserKey key).length ∧
      bytewiseComparator.compare (extractUserKey key) tmp = .lt then earliestKey tmp
  else key

/-- `InternalKeyComparator`. -/
def Comparator.internal (ucmp : Comparator) : Comparator where
  name := ascii ['l', 'e', 'v', 'e', 'l', 'd', 'b', '.', 'I', 'n', 't', 'e', 'r', 'n', 'a', 'l',
    'K', 'e', 'y', 'C', 'o', 'm', 'p', 'a', 'r', 'a', 't', 'o', 'r']
  compare := ucmp.internalCompare
  trans := inferInstance
  length_name := by decide

/-- `InternalKeyComparator::FindShortestSeparator`, over the bytewise comparator. -/
def internalShortestSeparator (start limit : Bytes) : Bytes :=
  orShortened start (findShortestSeparator (extractUserKey start) (extractUserKey limit))

/-- `InternalKeyComparator::FindShortSuccessor`, over the bytewise comparator. -/
def internalShortSuccessor (key : Bytes) : Bytes :=
  orShortened key (findShortSuccessor (extractUserKey key))

/-- `ParseInternalKey` takes the key. -/
def ValidInternalKey (key : Bytes) : Prop := (parseInternalKey key).isSome

instance (key : Bytes) : Decidable (ValidInternalKey key) :=
  inferInstanceAs (Decidable ((parseInternalKey key).isSome = true))

section Bytewise

variable {a b c start limit front : Bytes}

theorem bytewise_cons (x y : UInt8) (a b : Bytes) : bytewiseComparator.compare (x :: a) (y :: b) =
    (Ord.compare x y).then (bytewiseComparator.compare a b) := List.compareLex_cons_cons

theorem bytewise_append (front a b : Bytes) :
    bytewiseComparator.compare (front ++ a) (front ++ b) = bytewiseComparator.compare a b := by
  induction front with
  | nil => rfl
  | cons x front ih =>
    have hself : Ord.compare x x = .eq := Std.ReflCmp.compare_self
    rw [List.cons_append, List.cons_append, bytewise_cons, ih, hself]
    rfl

theorem bytewise_cons_lt {x y : UInt8} (h : x < y) (a b : Bytes) :
    bytewiseComparator.compare (x :: a) (y :: b) = .lt := by
  have hlt : Ord.compare x y = .lt := Std.compare_eq_lt.mpr h
  rw [bytewise_cons, hlt]
  rfl

theorem bytewise_eq_iff : bytewiseComparator.compare a b = .eq ↔ a = b := by
  change Ord.compare a b = .eq ↔ a = b
  exact Std.LawfulEqOrd.compare_eq_iff_eq

theorem lt_add_one_of_ne {x : UInt8} (h : x ≠ 0xff) : x < x + 1 := by
  have hlt := x.toNat_lt
  have hne : x.toNat ≠ 255 := fun heq => h (UInt8.toNat_inj.mp heq)
  rw [UInt8.lt_iff_toNat_lt, UInt8.toNat_add]
  change x.toNat < (x.toNat + 1) % 2 ^ 8
  omega

/-- The two keys agree up to the index, and differ there if both go on. -/
theorem diffIndex_spec (start limit : Bytes) :
    start.take (diffIndex start limit) = limit.take (diffIndex start limit) := by
  induction start generalizing limit with
  | nil => cases limit <;> rfl
  | cons x start ih =>
    cases limit with
    | nil => rfl
    | cons y limit =>
      rw [diffIndex]
      split
      · rename_i hxy
        rw [List.take_succ_cons, List.take_succ_cons, ih, hxy]
      · rfl

/-- A separator is the key, or a common prefix and a byte between those that follow it. -/
theorem findShortestSeparator_cases (start limit : Bytes) :
    findShortestSeparator start limit = start ∨
      ∃ (front a b : Bytes) (x y : UInt8), start = front ++ x :: a ∧ limit = front ++ y :: b ∧
        x < x + 1 ∧ x + 1 < y ∧ findShortestSeparator start limit = front ++ [x + 1] := by
  have htake := diffIndex_spec start limit
  rw [findShortestSeparator]
  generalize diffIndex start limit = i at htake ⊢
  split_ifs with hcommon
  · exact .inl rfl
  have hstart : i < start.length := by omega
  have hlimit : i < limit.length := by omega
  rw [List.getElem?_eq_getElem hstart, List.getElem?_eq_getElem hlimit]
  dsimp only
  split_ifs with hbyte
  · obtain ⟨hff, hnext⟩ := hbyte
    have hlt : start[i] < start[i] + 1 := lt_add_one_of_ne (by
      intro heq
      rw [heq] at hff
      exact absurd hff (by decide))
    refine .inr ⟨start.take i, start.drop (i + 1), limit.drop (i + 1), start[i], limit[i],
      ?_, ?_, hlt, ?_, rfl⟩
    · rw [List.getElem_cons_drop, List.take_append_drop]
    · rw [htake, List.getElem_cons_drop, List.take_append_drop]
    · have hbound := start[i].toNat_lt
      rw [UInt8.lt_iff_toNat_lt, UInt8.toNat_add]
      change (start[i].toNat + 1) % 2 ^ 8 < limit[i].toNat
      have hbound' := limit[i].toNat_lt
      omega
  · exact .inl rfl

/-- A separator that is not the key is between the two keys. -/
theorem findShortestSeparator_between (start limit : Bytes) :
    findShortestSeparator start limit = start ∨
      bytewiseComparator.compare start (findShortestSeparator start limit) = .lt ∧
        bytewiseComparator.compare (findShortestSeparator start limit) limit = .lt := by
  rcases findShortestSeparator_cases start limit with
    h | ⟨front, a, b, x, y, rfl, rfl, hlt, hlt', heq⟩
  · exact .inl h
  · refine .inr ⟨?_, ?_⟩
    · rw [heq, bytewise_append]
      exact bytewise_cons_lt hlt a []
    · rw [heq, bytewise_append]
      exact bytewise_cons_lt hlt' [] b

end Bytewise

section Internal

variable {a b key tmp : Bytes} {ikey : ParsedInternalKey}

/-- The bytes of a number spell it again. -/
theorem encodeFixed_decodeFixed (p : Bytes) : encodeFixed p.length (decodeFixed p) = p := by
  induction p with
  | nil => rfl
  | cons b p ih =>
    have hb := b.toNat_lt
    have hlow : UInt8.ofNat (b.toNat + decodeFixed p <<< 8) = b := by
      refine UInt8.toNat_inj.mp ?_
      rw [Nat.shiftLeft_eq]
      change (b.toNat + decodeFixed p * 2 ^ 8) % 2 ^ 8 = b.toNat
      omega
    have hhigh : (b.toNat + decodeFixed p <<< 8) >>> 8 = decodeFixed p := by
      rw [Nat.shiftLeft_eq, Nat.shiftRight_eq_div_pow]
      omega
    rw [List.length_cons, decodeFixed, encodeFixed, hlow, hhigh, ih]

theorem validInternalKey_iff : ValidInternalKey key ↔
    ∃ ikey : ParsedInternalKey,
      ikey.sequence ≤ kMaxSequenceNumber ∧ key = appendInternalKey ikey := by
  constructor
  · intro h
    obtain ⟨ikey, hparse⟩ := Option.isSome_iff_exists.mp h
    have hlength : 8 ≤ key.length := by
      by_contra hshort
      rw [parseInternalKey, if_pos (by omega)] at hparse
      cases hparse
    obtain ⟨huser, htag⟩ := parseInternalKey_spec hparse
    refine ⟨ikey, sequence_le_of_parse hparse, ?_⟩
    have hdrop : (key.drop (key.length - 8)).length = 8 := by
      rw [List.length_drop]
      omega
    have hbytes := encodeFixed_decodeFixed (key.drop (key.length - 8))
    rw [hdrop] at hbytes
    have hdecode : decodeFixed (key.drop (key.length - 8)) = internalTag key := by
      rw [internalTag, decodeFixed64, List.take_of_length_le hdrop.le]
    rw [appendInternalKey, huser, packSequenceAndType_eq, ← htag, ← hdecode, encodeFixed64, hbytes,
      extractUserKey, List.take_append_drop]
  · rintro ⟨ikey, hsequence, rfl⟩
    rw [ValidInternalKey, parseInternalKey_appendInternalKey hsequence]
    rfl

theorem validInternalKey_earliestKey (userKey : Bytes) : ValidInternalKey (earliestKey userKey) :=
  validInternalKey_iff.mpr ⟨_, le_rfl, rfl⟩

/-- Internal keys are in the order of their user keys, the newest entry first, and with the same
sequence number the higher type first. -/
theorem internalCompare_lt_iff {x y : ParsedInternalKey} (hx : x.sequence ≤ kMaxSequenceNumber)
    (hy : y.sequence ≤ kMaxSequenceNumber) :
    bytewiseComparator.internalCompare (appendInternalKey x) (appendInternalKey y) = .lt ↔
      bytewiseComparator.compare x.userKey y.userKey = .lt ∨ x.userKey = y.userKey ∧
        (y.sequence < x.sequence ∨ x.sequence = y.sequence ∧ y.type.code < x.type.code) := by
  have hcode : ∀ t : ValueType, t.code < 256 := by
    intro t
    cases t <;> decide
  have hxcode := hcode x.type
  have hycode := hcode y.type
  rw [Comparator.internalCompare, Ordering.then_eq_lt, extractUserKey_appendInternalKey,
    extractUserKey_appendInternalKey, internalTag_appendInternalKey hx,
    internalTag_appendInternalKey hy, bytewise_eq_iff, Nat.compare_eq_lt]
  refine or_congr_right (and_congr_right fun _ => ?_)
  omega

/-- Keys that compare equal are the same. -/
theorem eq_of_internalCompare (ha : ValidInternalKey a) (hb : ValidInternalKey b)
    (h : bytewiseComparator.internalCompare a b = .eq) : a = b := by
  obtain ⟨x, hx, rfl⟩ := validInternalKey_iff.mp ha
  obtain ⟨y, hy, rfl⟩ := validInternalKey_iff.mp hb
  rw [Comparator.internalCompare, Ordering.then_eq_eq, extractUserKey_appendInternalKey,
    extractUserKey_appendInternalKey, internalTag_appendInternalKey hx,
    internalTag_appendInternalKey hy, bytewise_eq_iff, Nat.compare_eq_eq] at h
  obtain ⟨xuser, xseq, xtype⟩ := x
  obtain ⟨yuser, yseq, ytype⟩ := y
  obtain ⟨huser, htag⟩ := h
  dsimp only at huser htag
  subst huser
  have hparts : yseq = xseq ∧ ytype = xtype := by
    cases xtype <;> cases ytype <;> simp only [ValueType.code] at htag <;>
      first | exact ⟨by omega, rfl⟩ | omega
  rw [hparts.1, hparts.2]

/-- A shortened key is the key, or the earliest of a user key behind the key's. -/
theorem orShortened_cases (key tmp : Bytes) : orShortened key tmp = key ∨
    bytewiseComparator.compare (extractUserKey key) tmp = .lt ∧
      orShortened key tmp = earliestKey tmp := by
  rw [orShortened]
  split_ifs with h
  · exact .inr ⟨h.2, rfl⟩
  · exact .inl rfl

/-- It is not in front of the key. -/
theorem not_gt_orShortened (key tmp : Bytes) :
    bytewiseComparator.internalCompare key (orShortened key tmp) ≠ .gt := by
  rcases orShortened_cases key tmp with h | ⟨hlt, h⟩
  · rw [h]
    exact not_gt_self
  · have huser : extractUserKey (earliestKey tmp) = tmp := extractUserKey_appendInternalKey _
    rw [h, Comparator.internalCompare, huser, hlt]
    exact Ordering.noConfusion

theorem validInternalKey_orShortened (h : ValidInternalKey key) (tmp : Bytes) :
    ValidInternalKey (orShortened key tmp) := by
  rcases orShortened_cases key tmp with heq | ⟨-, heq⟩
  · rwa [heq]
  · rw [heq]
    exact validInternalKey_earliestKey tmp

/-- A separator is the key, or has a user key that is in front of the limit's. -/
theorem internalShortestSeparator_cases (start limit : Bytes) :
    internalShortestSeparator start limit = start ∨ bytewiseComparator.compare
      (extractUserKey (internalShortestSeparator start limit)) (extractUserKey limit) = .lt := by
  rw [internalShortestSeparator]
  rcases orShortened_cases start
    (findShortestSeparator (extractUserKey start) (extractUserKey limit)) with h | ⟨hlt, h⟩
  · exact .inl h
  · rcases findShortestSeparator_between (extractUserKey start) (extractUserKey limit) with
      hsame | ⟨-, hlimit⟩
    · rw [hsame, bytewise_eq_iff.mpr rfl] at hlt
      exact Ordering.noConfusion hlt
    · rw [h]
      refine .inr ?_
      rwa [show extractUserKey (earliestKey _) = _ from extractUserKey_appendInternalKey _]

/-- A separator is in front of the limit. -/
theorem internalShortestSeparator_lt (h : bytewiseComparator.internalCompare a b = .lt) :
    bytewiseComparator.internalCompare (internalShortestSeparator a b) b = .lt := by
  rcases internalShortestSeparator_cases a b with heq | hlt
  · rwa [heq]
  · rw [Comparator.internalCompare, hlt]
    rfl

end Internal

end WiscKey
