import WiscKey.Core.Status
import Mathlib.Algebra.Order.Group.Nat

/-!
# Write batches

A batch is a byte string: a sequence number, a count, and a record for each `Put` and
`Delete`. `Iterate` reads the records back, and inserting a batch into a memtable numbers
them from the batch's sequence number on.
-/

namespace WiscKey

/-- An update, as a batch hands it to its handler. -/
inductive Op
  | put (key value : Bytes)
  | delete (key : Bytes)
  deriving DecidableEq, Repr

/-- The key and the value of an update fit their length prefixes. -/
def Op.Fits : Op → Prop
  | .put key value => key.length < 2 ^ 32 ∧ value.length < 2 ^ 32
  | .delete key => key.length < 2 ^ 32

/-- The arguments of a `MemTable::Add`. -/
structure MemEntry where
  sequence : Nat
  type : ValueType
  key : Bytes
  value : Bytes
  deriving DecidableEq, Repr

/-- `WriteBatch`. -/
structure WriteBatch where
  rep : Bytes
  deriving DecidableEq, Repr

/-- `kHeader`: the sequence number and the count. -/
def kHeader : Nat := 12

namespace WriteBatch

/-- `Clear`. -/
def clear : WriteBatch := ⟨List.replicate kHeader 0⟩

/-- `WriteBatchInternal::Count`. -/
def count (b : WriteBatch) : Int := toInt32 (decodeFixed32 (b.rep.drop 8))

/-- `WriteBatchInternal::SetCount`. -/
def setCount (b : WriteBatch) (n : Int) : WriteBatch :=
  ⟨b.rep.take 8 ++ encodeFixed32 (toUint64 n) ++ b.rep.drop kHeader⟩

/-- `WriteBatchInternal::Sequence`. -/
def sequence (b : WriteBatch) : Nat := decodeFixed64 b.rep

/-- `WriteBatchInternal::SetSequence`. -/
def setSequence (b : WriteBatch) (seq : Nat) : WriteBatch :=
  ⟨encodeFixed64 seq ++ b.rep.drop 8⟩

/-- `WriteBatchInternal::ByteSize`. -/
def byteSize (b : WriteBatch) : Nat := b.rep.length

/-- The record of an update. -/
def record : Op → Bytes
  | .put key value =>
    UInt8.ofNat ValueType.value.code :: (putLengthPrefixedSlice key ++ putLengthPrefixedSlice value)
  | .delete key => UInt8.ofNat ValueType.deletion.code :: putLengthPrefixedSlice key

/-- `Put` and `Delete`. -/
def add (b : WriteBatch) (op : Op) : WriteBatch :=
  ⟨(b.setCount (b.count + 1)).rep ++ record op⟩

/-- `WriteBatchInternal::Append`. -/
def append (dst src : WriteBatch) : WriteBatch :=
  ⟨(dst.setCount (dst.count + src.count)).rep ++ src.rep.drop kHeader⟩

/-- The batches that a program can make: cleared, filled, numbered by an earlier write. The
count is an `int` and may not overflow. -/
inductive Built : WriteBatch → Prop
  | clear : Built clear
  | add {b : WriteBatch} (op : Op) (h : Built b) (hcount : b.count + 1 < 2 ^ 31) : Built (b.add op)
  | setSequence {b : WriteBatch} (seq : Nat) (h : Built b) : Built (b.setSequence seq)

end WriteBatch

namespace WriteBatch

/-- The loop of `Iterate` over the records: what the handler gets, and the status. -/
def iterateRecords (input : Bytes) : List Op × Status :=
  match input with
  | [] => ([], .ok)
  | tag :: input =>
    if tag = UInt8.ofNat ValueType.value.code then
      match _hkey : getLengthPrefixedSlice input with
      | none => ([], .corruption "bad WriteBatch Put")
      | some (key, input₁) =>
        match _hvalue : getLengthPrefixedSlice input₁ with
        | none => ([], .corruption "bad WriteBatch Put")
        | some (value, rest) =>
          (.put key value :: (iterateRecords rest).1, (iterateRecords rest).2)
    else if tag = UInt8.ofNat ValueType.deletion.code then
      match _hkey : getLengthPrefixedSlice input with
      | none => ([], .corruption "bad WriteBatch Delete")
      | some (key, rest) => (.delete key :: (iterateRecords rest).1, (iterateRecords rest).2)
    else ([], .corruption "unknown WriteBatch tag")
termination_by input.length
decreasing_by
  all_goals
    have hkey := length_getLengthPrefixedSlice_lt _hkey
    try have hvalue := length_getLengthPrefixedSlice_lt _hvalue
    simp only [List.length_cons]
    omega

/-- `Iterate`. The records found are counted in an `int`; an overflow of it is no success. -/
def iterate (b : WriteBatch) : List Op × Status :=
  if b.rep.length < kHeader then ([], .corruption "malformed WriteBatch (too small)")
  else
    let (ops, status) := iterateRecords (b.rep.drop kHeader)
    if status ≠ .ok then (ops, status)
    else if (ops.length : Int) ≠ b.count then (ops, .corruption "WriteBatch has wrong count")
    else (ops, .ok)

/-- The updates of a batch. -/
def operations (b : WriteBatch) : List Op := b.iterate.1

end WriteBatch

/-- What `MemTableInserter` adds for an update under a sequence number. -/
def Op.entry (sequence : Nat) : Op → MemEntry
  | .put key value => ⟨sequence, .value, key, value⟩
  | .delete key => ⟨sequence, .deletion, key, []⟩

/-- Updates under sequence numbers of 64 bits, counted up from `s`. -/
def numbered (s : Nat) : List Op → List MemEntry
  | [] => []
  | op :: ops => op.entry (s % 2 ^ 64) :: numbered (s + 1) ops

/-- `WriteBatchInternal::InsertInto`. -/
def WriteBatch.insertInto (b : WriteBatch) (mem : List MemEntry) : Status × List MemEntry :=
  (b.iterate.2, mem ++ numbered b.sequence b.operations)

theorem numbered_append (s : Nat) (xs ys : List Op) :
    numbered s (xs ++ ys) = numbered s xs ++ numbered (s + xs.length) ys := by
  induction xs generalizing s with
  | nil => rfl
  | cons op ops ih =>
    rw [List.cons_append, numbered, ih, numbered, List.cons_append, List.length_cons]
    congr 3
    omega

theorem numbered_mod (s : Nat) (ops : List Op) : numbered (s % 2 ^ 64) ops = numbered s ops := by
  induction ops generalizing s with
  | nil => rfl
  | cons op ops ih =>
    rw [numbered, numbered, Nat.mod_mod, ← ih (s % 2 ^ 64 + 1), ← ih (s + 1), Nat.mod_add_mod]

theorem numbered_congr {s t : Nat} (h : s % 2 ^ 64 = t % 2 ^ 64) (ops : List Op) :
    numbered s ops = numbered t ops := by
  rw [← numbered_mod s, ← numbered_mod t, h]

theorem length_numbered (s : Nat) (ops : List Op) : (numbered s ops).length = ops.length := by
  induction ops generalizing s with
  | nil => rfl
  | cons op ops ih => rw [numbered, List.length_cons, List.length_cons, ih]

namespace WriteBatch

/-- One round of the loop of `Iterate`. -/
theorem iterateRecords_cons (tag : UInt8) (input : Bytes) :
    iterateRecords (tag :: input) =
      if tag = UInt8.ofNat ValueType.value.code then
        match getLengthPrefixedSlice input with
        | none => ([], .corruption "bad WriteBatch Put")
        | some (key, input₁) =>
          match getLengthPrefixedSlice input₁ with
          | none => ([], .corruption "bad WriteBatch Put")
          | some (value, rest) =>
            (.put key value :: (iterateRecords rest).1, (iterateRecords rest).2)
      else if tag = UInt8.ofNat ValueType.deletion.code then
        match getLengthPrefixedSlice input with
        | none => ([], .corruption "bad WriteBatch Delete")
        | some (key, rest) => (.delete key :: (iterateRecords rest).1, (iterateRecords rest).2)
      else ([], .corruption "unknown WriteBatch tag") := by
  rw [iterateRecords]
  split_ifs
  · split <;> rename_i hkey <;> rw [hkey]
    simp only
    split <;> rename_i hvalue <;> rw [hvalue]
  · split <;> rename_i hkey <;> rw [hkey]
  · rfl

/-- Records are read one after the other. -/
theorem iterateRecords_append {x : Bytes} {ops : List Op} (h : iterateRecords x = (ops, .ok))
    (y : Bytes) : iterateRecords (x ++ y) =
      (ops ++ (iterateRecords y).1, (iterateRecords y).2) := by
  induction hlen : x.length using Nat.strongRecOn generalizing x ops with
  | ind n ih =>
    cases x with
    | nil =>
      rw [iterateRecords] at h
      cases h
      rfl
    | cons tag input =>
      rw [iterateRecords_cons] at h
      rw [List.cons_append, iterateRecords_cons]
      split_ifs at h ⊢ with hput hdelete
      · cases hkey : getLengthPrefixedSlice input with
        | none => simp [hkey] at h
        | some first =>
          obtain ⟨key, input₁⟩ := first
          cases hvalue : getLengthPrefixedSlice input₁ with
          | none => simp [hkey, hvalue] at h
          | some second =>
            obtain ⟨value, rest⟩ := second
            simp only [hkey, hvalue, Prod.mk.injEq] at h
            obtain ⟨hops, hok⟩ := h
            have hlt₁ := length_getLengthPrefixedSlice_lt hkey
            have hlt₂ := length_getLengthPrefixedSlice_lt hvalue
            rw [List.length_cons] at hlen
            have hrest := ih rest.length (by omega) (x := rest)
              (Prod.ext rfl hok) rfl
            simp only [getLengthPrefixedSlice_append hkey, getLengthPrefixedSlice_append hvalue,
              hrest, ← hops, List.cons_append]
      · cases hkey : getLengthPrefixedSlice input with
        | none => simp [hkey] at h
        | some first =>
          obtain ⟨key, rest⟩ := first
          simp only [hkey, Prod.mk.injEq] at h
          obtain ⟨hops, hok⟩ := h
          have hlt := length_getLengthPrefixedSlice_lt hkey
          rw [List.length_cons] at hlen
          have hrest := ih rest.length (by omega) (x := rest) (Prod.ext rfl hok) rfl
          simp only [getLengthPrefixedSlice_append hkey, hrest, ← hops, List.cons_append]
      · cases h

/-- The record of an update is read back. -/
theorem iterateRecords_record {op : Op} (h : op.Fits) : iterateRecords (record op) = ([op], .ok) := by
  cases op with
  | put key value =>
    have hkey := getLengthPrefixedSlice_put h.1 (putLengthPrefixedSlice value)
    have hvalue := getLengthPrefixedSlice_put h.2 []
    rw [List.append_nil] at hvalue
    rw [record, iterateRecords_cons, if_pos rfl]
    simp [hkey, hvalue, iterateRecords]
  | delete key =>
    have hkey := getLengthPrefixedSlice_put h []
    rw [List.append_nil] at hkey
    rw [record, iterateRecords_cons, if_neg (by decide), if_pos rfl]
    simp [hkey, iterateRecords]

theorem iterateRecords_records {ops : List Op} (h : ∀ op ∈ ops, op.Fits) :
    iterateRecords (ops.flatMap record) = (ops, .ok) := by
  induction ops with
  | nil => rw [List.flatMap_nil, iterateRecords]
  | cons op ops ih =>
    have hrest := ih fun op hop => h op (List.mem_cons_of_mem _ hop)
    rw [List.flatMap_cons, iterateRecords_append (iterateRecords_record (h op List.mem_cons_self)),
      hrest, List.singleton_append]

theorem length_iterateRecords_le (x : Bytes) : (iterateRecords x).1.length ≤ x.length := by
  induction hlen : x.length using Nat.strongRecOn generalizing x with
  | ind n ih =>
    subst hlen
    cases x with
    | nil =>
      rw [iterateRecords]
      exact le_rfl
    | cons tag input =>
      rw [iterateRecords_cons, List.length_cons]
      split_ifs
      · split
        · exact Nat.zero_le _
        · rename_i key input₁ hkey
          split
          · exact Nat.zero_le _
          · rename_i value rest hvalue
            have hlt₁ := length_getLengthPrefixedSlice_lt hkey
            have hlt₂ := length_getLengthPrefixedSlice_lt hvalue
            have hrest := ih rest.length (by rw [List.length_cons]; omega) rest rfl
            rw [List.length_cons]
            omega
      · split
        · exact Nat.zero_le _
        · rename_i key rest hkey
          have hlt := length_getLengthPrefixedSlice_lt hkey
          have hrest := ih rest.length (by rw [List.length_cons]; omega) rest rfl
          rw [List.length_cons]
          omega
      · exact Nat.zero_le _

/-- A batch with a count and these bytes behind its header. -/
def Layout (b : WriteBatch) (n : Nat) (records : Bytes) : Prop :=
  ∃ seq, seq.length = 8 ∧ n < 2 ^ 31 ∧ b.rep = seq ++ (encodeFixed32 n ++ records)

variable {b dst src : WriteBatch} {n : Nat} {records : Bytes}

theorem layout_clear : clear.Layout 0 [] :=
  ⟨List.replicate 8 0, rfl, by decide, rfl⟩

theorem Layout.kHeader_le (h : b.Layout n records) : kHeader ≤ b.rep.length := by
  obtain ⟨seq, hseq, -, hrep⟩ := h
  rw [hrep]
  simp [encodeFixed32, hseq, kHeader]
  omega

theorem Layout.count (h : b.Layout n records) : b.count = n := by
  obtain ⟨seq, hseq, hn, hrep⟩ := h
  have hdrop : b.rep.drop 8 = encodeFixed32 n ++ records := by rw [hrep, ← hseq, List.drop_left]
  rw [WriteBatch.count, hdrop, decodeFixed32_encodeFixed32 (by omega), toInt32,
    Nat.mod_eq_of_lt (by omega), if_pos hn]
  omega

theorem Layout.drop_kHeader (h : b.Layout n records) : b.rep.drop kHeader = records := by
  obtain ⟨seq, hseq, -, hrep⟩ := h
  have hlen : kHeader = (seq ++ encodeFixed32 n).length := by
    simp [encodeFixed32, hseq, kHeader]
  rw [hrep, ← List.append_assoc, hlen, List.drop_left]

theorem Layout.byteSize (h : b.Layout n records) : b.byteSize = kHeader + records.length := by
  obtain ⟨seq, hseq, -, hrep⟩ := h
  rw [WriteBatch.byteSize, hrep]
  simp [encodeFixed32, hseq, kHeader]
  omega

theorem Layout.setCount {m : Nat} (h : b.Layout n records) (hm : m < 2 ^ 31) (more : Bytes) :
    Layout ⟨(b.setCount m).rep ++ more⟩ m (records ++ more) := by
  obtain ⟨seq, hseq, -, hrep⟩ := id h
  have htake : b.rep.take 8 = seq := by rw [hrep, ← hseq, List.take_left]
  have hbits : toUint64 (m : Int) = m := by
    unfold toUint64
    omega
  refine ⟨seq, hseq, hm, ?_⟩
  simp only [WriteBatch.setCount, htake, h.drop_kHeader, hbits, List.append_assoc]

theorem Layout.setSequence (h : b.Layout n records) (s : Nat) :
    (b.setSequence s).Layout n records := by
  obtain ⟨seq, hseq, hn, hrep⟩ := h
  refine ⟨encodeFixed64 s, length_encodeFixed 8 s, hn, ?_⟩
  rw [WriteBatch.setSequence, hrep, ← hseq, List.drop_left]

theorem Layout.append {m : Nat} {more : Bytes} (hdst : dst.Layout n records)
    (hsrc : src.Layout m more) (hcount : n + m < 2 ^ 31) :
    (dst.append src).Layout (n + m) (records ++ more) := by
  have hsum : dst.count + src.count = ((n + m : Nat) : Int) := by
    rw [hdst.count, hsrc.count, Int.natCast_add]
  rw [WriteBatch.append, hsum, hsrc.drop_kHeader]
  exact hdst.setCount hcount more

/-- The records of a built batch are those of the updates that were added. -/
theorem Built.layout (h : b.Built) : ∃ ops : List Op, b.Layout ops.length (ops.flatMap record) := by
  induction h with
  | clear => exact ⟨[], layout_clear⟩
  | @add b op _ hcount ih =>
    obtain ⟨ops, hlayout⟩ := ih
    refine ⟨ops ++ [op], ?_⟩
    have hnext : b.count + 1 = ((ops.length + 1 : Nat) : Int) := by rw [hlayout.count]; omega
    rw [WriteBatch.add, hnext, List.length_append, List.flatMap_append]
    simp only [List.flatMap_cons, List.flatMap_nil, List.append_nil, List.length_singleton]
    exact hlayout.setCount (by omega) (record op)
  | setSequence seq _ ih =>
    obtain ⟨ops, hlayout⟩ := ih
    exact ⟨ops, hlayout.setSequence seq⟩

/-- A batch that can be replayed: its records can be read and their number is its count. -/
def Replayable (b : WriteBatch) (ops : List Op) : Prop :=
  ∃ records, b.Layout ops.length records ∧ iterateRecords records = (ops, .ok)

theorem Replayable.iterate {ops : List Op} (h : b.Replayable ops) : b.iterate = (ops, .ok) := by
  obtain ⟨records, hlayout, hread⟩ := h
  rw [WriteBatch.iterate, if_neg (Nat.not_lt.mpr hlayout.kHeader_le), hlayout.drop_kHeader, hread,
    hlayout.count]
  simp

theorem Replayable.operations {ops : List Op} (h : b.Replayable ops) : b.operations = ops := by
  rw [WriteBatch.operations, h.iterate]

theorem Replayable.count {ops : List Op} (h : b.Replayable ops) : b.count = ops.length := by
  obtain ⟨records, hlayout, -⟩ := h
  exact hlayout.count

/-- The sequence number of a batch says nothing about its updates. -/
theorem Layout.iterate_setSequence (h : b.Layout n records) (s : Nat) :
    (b.setSequence s).iterate = b.iterate := by
  have hset := h.setSequence s
  rw [WriteBatch.iterate, WriteBatch.iterate, if_neg (Nat.not_lt.mpr hset.kHeader_le),
    if_neg (Nat.not_lt.mpr h.kHeader_le), hset.drop_kHeader, h.drop_kHeader, hset.count, h.count]

/-- A built batch that iterates successfully is replayable. -/
theorem Built.replayable (h : b.Built) (hok : b.iterate.2 = .ok) : b.Replayable b.operations := by
  obtain ⟨ops, hlayout⟩ := h.layout
  have hiterate : b.iterate = (b.operations, .ok) := Prod.ext rfl hok
  rw [WriteBatch.iterate, if_neg (Nat.not_lt.mpr hlayout.kHeader_le), hlayout.drop_kHeader,
    hlayout.count] at hiterate
  simp only at hiterate
  split_ifs at hiterate with hstatus hcount
  · exact absurd (congrArg Prod.snd hiterate) hstatus
  · cases congrArg Prod.snd hiterate
  · simp only [ne_eq, not_not] at hstatus hcount
    have hops : (iterateRecords (ops.flatMap record)).1 = b.operations :=
      (Prod.mk.inj hiterate).1
    refine ⟨ops.flatMap record, ?_, Prod.ext hops hstatus⟩
    rw [hops] at hcount
    rwa [Int.ofNat_inj.mp hcount]

/-- A small built batch is replayable. -/
theorem Built.replayable_of_byteSize (h : b.Built) (hsize : b.byteSize < 2 ^ 32) :
    ∃ ops, b.Replayable ops := by
  obtain ⟨ops, hlayout⟩ := h.layout
  refine ⟨ops, _, hlayout, iterateRecords_records fun op hop => ?_⟩
  have hlen : (record op).length ≤ (ops.flatMap record).length := by
    exact (List.sublist_flatten_of_mem (List.mem_map_of_mem hop)).length_le
  rw [hlayout.byteSize] at hsize
  cases op with
  | put key value =>
    simp only [record, putLengthPrefixedSlice, List.length_cons, List.length_append] at hlen
    constructor <;> omega
  | delete key =>
    simp only [record, putLengthPrefixedSlice, List.length_cons, List.length_append] at hlen
    change key.length < 2 ^ 32
    omega

theorem replayable_clear : clear.Replayable [] :=
  ⟨[], layout_clear, by rw [iterateRecords]⟩

theorem Replayable.setSequence {ops : List Op} (h : b.Replayable ops) (s : Nat) :
    (b.setSequence s).Replayable ops := by
  obtain ⟨records, hlayout, hread⟩ := h
  exact ⟨records, hlayout.setSequence s, hread⟩

theorem Replayable.append {xs ys : List Op} (hdst : dst.Replayable xs) (hsrc : src.Replayable ys)
    (hcount : xs.length + ys.length < 2 ^ 31) : (dst.append src).Replayable (xs ++ ys) := by
  obtain ⟨records, hlayout, hread⟩ := hdst
  obtain ⟨more, hmore, hreadMore⟩ := hsrc
  refine ⟨records ++ more, ?_, ?_⟩
  · rw [List.length_append]
    exact hlayout.append hmore hcount
  · rw [iterateRecords_append hread, hreadMore]

/-- A record is at least a tag and a length, so the size of a batch bounds its count. -/
theorem Replayable.length_lt {ops : List Op} (h : b.Replayable ops) :
    ops.length < b.byteSize := by
  obtain ⟨records, hlayout, hread⟩ := h
  have hle := length_iterateRecords_le records
  have hheader : 0 < kHeader := by decide
  rw [hread] at hle
  change ops.length ≤ records.length at hle
  rw [hlayout.byteSize]
  omega

@[simp] theorem sequence_setSequence (b : WriteBatch) (s : Nat) :
    (b.setSequence s).sequence = s % 2 ^ 64 := by
  have htake : (encodeFixed64 s ++ b.rep.drop 8).take 8 = encodeFixed 8 s := by
    rw [List.take_append_of_le_length (by simp [encodeFixed64])]
    exact List.take_of_length_le (by simp [encodeFixed64])
  rw [sequence, WriteBatch.setSequence, decodeFixed64, htake, decodeFixed_encodeFixed]
  rfl

end WriteBatch

end WiscKey
