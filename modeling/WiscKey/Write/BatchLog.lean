import WiscKey.Write.WriteBatch
import Mathlib.Data.List.Basic

/-!
# Batches as logs

A batch that was made by any `Put`, `Delete`, `Append` and new sequence numbers replays the
updates in their order, within the lengths and counts that the format has room for. Bytes that
are no batch are replayed up to the first record that cannot be read, and what was replayed
stays in the memtable.
-/

namespace WiscKey

namespace WriteBatch

/-- The batches that a program makes, and the updates that it put into them. -/
inductive Logs : WriteBatch → List Op → Prop
  | clear : Logs clear []
  | add {b : WriteBatch} {ops : List Op} (h : Logs b ops) (op : Op) : Logs (b.add op) (ops ++ [op])
  | append {dst src : WriteBatch} {xs ys : List Op} (hdst : Logs dst xs) (hsrc : Logs src ys) :
      Logs (dst.append src) (xs ++ ys)
  | setSequence {b : WriteBatch} {ops : List Op} (h : Logs b ops) (s : Nat) :
      Logs (b.setSequence s) ops

section Faithful

variable {b dst src : WriteBatch} {ops xs ys : List Op}

theorem Replayable.add (h : b.Replayable ops) {op : Op} (hop : op.Fits)
    (hcount : ops.length + 1 < 2 ^ 31) : (b.add op).Replayable (ops ++ [op]) := by
  obtain ⟨records, hlayout, hread⟩ := h
  refine ⟨records ++ record op, ?_, ?_⟩
  · have hnext : b.count + 1 = ((ops.length + 1 : Nat) : Int) := by
      rw [hlayout.count]
      omega
    rw [WriteBatch.add, hnext, List.length_append, List.length_singleton]
    exact hlayout.setCount hcount (record op)
  · rw [iterateRecords_append hread, iterateRecords_record hop]

/-- The updates of a batch can be replayed while they are in the ranges of the format. -/
theorem Logs.replayable (h : b.Logs ops) (hfits : ∀ op ∈ ops, op.Fits)
    (hcount : ops.length < 2 ^ 31) : b.Replayable ops := by
  induction h with
  | clear => exact replayable_clear
  | add h op ih =>
    rw [List.length_append, List.length_singleton] at hcount
    refine (ih (fun x hx => hfits x (List.mem_append_left _ hx)) (by omega)).add ?_ hcount
    exact hfits op (List.mem_append_right _ List.mem_cons_self)
  | append hdst hsrc ihdst ihsrc =>
    rw [List.length_append] at hcount
    have hxs := ihdst (fun x hx => hfits x (List.mem_append_left _ hx)) (by omega)
    have hys := ihsrc (fun x hx => hfits x (List.mem_append_right _ hx)) (by omega)
    exact hxs.append hys hcount
  | setSequence h s ih => exact (ih hfits hcount).setSequence s

theorem numbered_eq_mapIdx (s : Nat) (ops : List Op) :
    numbered s ops = ops.mapIdx fun i op => op.entry ((s + i) % 2 ^ 64) := by
  induction ops generalizing s with
  | nil => rfl
  | cons op ops ih =>
    rw [numbered, ih, List.mapIdx_cons]
    simp only [Nat.add_zero, Nat.add_right_comm, Nat.add_assoc]

/-- A batch replays what was put into it, in order, and counts it; `Append` adds up both; and
`InsertInto` numbers the updates from the sequence number of the batch on. -/
theorem Logs.faithful {dst src : WriteBatch} {xs ys : List Op} (hdst : dst.Logs xs)
    (hsrc : src.Logs ys) (hfits : ∀ op ∈ xs ++ ys, op.Fits)
    (hcount : xs.length + ys.length < 2 ^ 31) (s : Nat) (mem : List MemEntry) :
    (dst.iterate = (xs, .ok) ∧ dst.count = xs.length) ∧
      ((dst.append src).iterate = (xs ++ ys, .ok) ∧
        (dst.append src).count = dst.count + src.count) ∧
      (dst.setSequence s).insertInto mem =
        (.ok, mem ++ xs.mapIdx fun i op => op.entry ((s + i) % 2 ^ 64)) := by
  have hxs := hdst.replayable (fun op hop => hfits op (List.mem_append_left _ hop)) (by omega)
  have hys := hsrc.replayable (fun op hop => hfits op (List.mem_append_right _ hop)) (by omega)
  have hboth := hxs.append hys hcount
  have hset := hxs.setSequence s
  refine ⟨⟨hxs.iterate, hxs.count⟩, ⟨hboth.iterate, ?_⟩, ?_⟩
  · rw [hboth.count, hxs.count, hys.count, List.length_append, Int.natCast_add]
  · rw [insertInto, hset.operations, hset.iterate, sequence_setSequence, numbered_mod,
      numbered_eq_mapIdx]

theorem logs_delete : (clear.add (.delete [5])).Logs [.delete [5]] := .add .clear _

theorem logs_put_delete :
    ((clear.add (.put [5] [6])).add (.delete [5])).Logs [.put [5] [6], .delete [5]] :=
  .add (.add .clear _) _

/-- A `Put` and a `Delete` of one key, and another `Delete` behind them. -/
theorem faithful_put_delete :
    (((clear.add (.put [5] [6])).add (.delete [5])).append (clear.add (.delete [5]))).iterate =
      ([.put [5] [6], .delete [5], .delete [5]], .ok) := by
  have hlog := logs_put_delete.faithful logs_delete (by simp [Op.Fits]) (by decide) 7 []
  exact hlog.2.1.1

/-- The length of a key is cut to 32 bits. -/
theorem iterate_add_long {key : Bytes} (h : key.length = 2 ^ 32) :
    (clear.add (.put key [])).iterate ≠ ([.put key []], .ok) := by
  have hlayout : (clear.add (.put key [])).Layout 1 (record (.put key [])) :=
    layout_clear.setCount (by decide) (record (.put key []))
  have hzero : encodeVarint32 (2 ^ 32 % 2 ^ 32) = [0] := by decide
  have hread : ∀ rest : Bytes, getLengthPrefixedSlice (0 :: rest) = some ([], rest) := by
    intro rest
    simp [getLengthPrefixedSlice, getVarint32, getVarint]
  have hrecord : record (.put key []) =
      UInt8.ofNat ValueType.value.code :: 0 :: (key ++ putLengthPrefixedSlice []) := by
    rw [record, putLengthPrefixedSlice, h, hzero]
    rfl
  have hfirst : ∀ op ∈ (iterateRecords (record (.put key []))).1.head?, op ≠ .put key [] := by
    rw [hrecord, iterateRecords_cons, if_pos rfl, hread]
    simp only
    split
    · exact fun op hop => absurd hop (by simp)
    · rintro op hop rfl
      rw [List.head?_cons, Option.mem_some_iff, Op.put.injEq] at hop
      rw [← hop.1, List.length_nil] at h
      omega
  intro hiterate
  have hops : (iterateRecords (record (.put key []))).1 = [.put key []] := by
    rw [iterate, if_neg (Nat.not_lt.mpr hlayout.kHeader_le), hlayout.drop_kHeader] at hiterate
    simp only at hiterate
    split_ifs at hiterate
    · exact congrArg Prod.fst hiterate
    · exact congrArg Prod.fst hiterate
    · exact congrArg Prod.fst hiterate
  rw [hops] at hfirst
  exact hfirst _ rfl rfl

/-- The count overflows an `int`. -/
theorem count_add_of_full {b : WriteBatch} {records : Bytes} (h : b.Layout (2 ^ 31 - 1) records)
    (op : Op) : (b.add op).count < 0 := by
  obtain ⟨seq, hseq, hn, hrep⟩ := id h
  have htake : b.rep.take 8 = seq := by rw [hrep, ← hseq, List.take_left]
  have hnext : toUint64 (b.count + 1) = 2 ^ 31 := by
    rw [h.count]
    decide
  have hdrop : (b.add op).rep.drop 8 = encodeFixed32 (2 ^ 31) ++ (records ++ record op) := by
    simp only [add, setCount, htake, hnext, h.drop_kHeader, List.append_assoc]
    rw [← hseq, List.drop_left]
  rw [count, hdrop, decodeFixed32_encodeFixed32 (by decide)]
  decide

theorem logs_deletes (n : Nat) :
    ((List.replicate n (.delete [])).foldl add clear).Logs (List.replicate n (.delete [])) := by
  induction n with
  | zero => exact .clear
  | succ n ih =>
    rw [List.replicate_succ', List.foldl_append]
    exact ih.add (.delete [])

/-- A key of 2^32 bytes is not replayed, and 2^31 updates are not counted. -/
theorem long_batches_unfaithful :
    (∃ b ops, Logs b ops ∧ b.iterate ≠ (ops, .ok)) ∧
      ∃ b ops, Logs b ops ∧ b.count ≠ ops.length := by
  constructor
  · refine ⟨_, _, .add .clear (.put (List.replicate (2 ^ 32) 0) []), ?_⟩
    exact iterate_add_long List.length_replicate
  · refine ⟨_, _, (logs_deletes (2 ^ 31 - 1)).add (.delete []), ?_⟩
    have hreplayable := (logs_deletes (2 ^ 31 - 1)).replayable
      (fun op hop => by rw [List.eq_of_mem_replicate hop]; exact Nat.two_pow_pos 32)
      (by rw [List.length_replicate]; decide)
    obtain ⟨records, hlayout, -⟩ := hreplayable
    rw [List.length_replicate] at hlayout
    have hneg := count_add_of_full hlayout (.delete [])
    omega

end Faithful

section Malformed

/-- A record at the front of an input: its update and what is behind it. -/
def readRecord : Bytes → Option (Op × Bytes)
  | [] => none
  | tag :: input =>
    if tag = UInt8.ofNat ValueType.value.code then
      match getLengthPrefixedSlice input with
      | none => none
      | some (key, input) =>
        match getLengthPrefixedSlice input with
        | none => none
        | some (value, rest) => some (.put key value, rest)
    else if tag = UInt8.ofNat ValueType.deletion.code then
      match getLengthPrefixedSlice input with
      | none => none
      | some (key, rest) => some (.delete key, rest)
    else none

theorem length_readRecord_lt {input rest : Bytes} {op : Op}
    (h : readRecord input = some (op, rest)) : rest.length < input.length := by
  cases input with
  | nil => cases h
  | cons tag input =>
    rw [readRecord] at h
    rw [List.length_cons]
    split_ifs at h
    · split at h
      · cases h
      · rename_i key input₁ hkey
        split at h
        · cases h
        · rename_i value rest' hvalue
          cases h
          have hlt := length_getLengthPrefixedSlice_lt hkey
          have hlt' := length_getLengthPrefixedSlice_lt hvalue
          omega
    · split at h
      · cases h
      · rename_i key rest' hkey
        cases h
        have hlt := length_getLengthPrefixedSlice_lt hkey
        omega

/-- An input that is made of whole records. -/
inductive Records : Bytes → List Op → Prop
  | nil : Records [] []
  | cons {input rest : Bytes} {op : Op} {ops : List Op} (head : readRecord input = some (op, rest))
      (tail : Records rest ops) : Records input (op :: ops)

/-- `Iterate` hands on a record that can be read, and goes on behind it. -/
theorem iterateRecords_of_some {input rest : Bytes} {op : Op}
    (h : readRecord input = some (op, rest)) :
    iterateRecords input = (op :: (iterateRecords rest).1, (iterateRecords rest).2) := by
  cases input with
  | nil => cases h
  | cons tag input =>
    rw [readRecord] at h
    rw [iterateRecords_cons]
    split_ifs at h ⊢
    · cases hkey : getLengthPrefixedSlice input with
      | none => simp [hkey] at h
      | some first =>
        cases hvalue : getLengthPrefixedSlice first.2 with
        | none => simp [hkey, hvalue] at h
        | some second =>
          simp only [hkey, hvalue, Option.some.injEq, Prod.mk.injEq] at h
          simp only [hvalue, h.1, h.2]
    · cases hkey : getLengthPrefixedSlice input with
      | none => simp [hkey] at h
      | some first =>
        simp only [hkey, Option.some.injEq, Prod.mk.injEq] at h
        simp only [h.1, h.2]

/-- It stops at the first record that cannot be read, with an error unless the input is at its
end. -/
theorem iterateRecords_of_none {input : Bytes} (h : readRecord input = none) :
    (iterateRecords input).1 = [] ∧ ((iterateRecords input).2 = .ok ↔ input = []) := by
  cases input with
  | nil => simp [iterateRecords]
  | cons tag input =>
    rw [readRecord] at h
    rw [iterateRecords_cons]
    split_ifs at h ⊢
    · cases hkey : getLengthPrefixedSlice input with
      | none => simp
      | some first =>
        cases hvalue : getLengthPrefixedSlice first.2 with
        | none => simp [hvalue]
        | some second => simp [hkey, hvalue] at h
    · cases hkey : getLengthPrefixedSlice input with
      | none => simp
      | some first => simp [hkey] at h
    · simp

theorem Records.iterateRecords {input : Bytes} {ops : List Op} (h : Records input ops) :
    iterateRecords input = (ops, .ok) := by
  induction h with
  | nil => rw [WriteBatch.iterateRecords]
  | cons head _ ih => rw [iterateRecords_of_some head, ih]

theorem records_of_ok {input : Bytes} (h : (iterateRecords input).2 = .ok) :
    Records input (iterateRecords input).1 := by
  induction hlen : input.length using Nat.strongRecOn generalizing input with
  | ind n ih =>
    cases hread : readRecord input with
    | none =>
      obtain ⟨hnil, hok⟩ := iterateRecords_of_none hread
      rw [hnil, hok.mp h]
      exact .nil
    | some result =>
      obtain ⟨op, rest⟩ := result
      have hstep := iterateRecords_of_some hread
      rw [hstep] at h ⊢
      exact .cons hread (ih rest.length (hlen ▸ length_readRecord_lt hread) h rfl)

variable {b : WriteBatch} {mem : List MemEntry}

/-- A batch that `InsertInto` refuses leaves the memtable alone if and only if no record can be
read behind its header, or it is no malformed batch: whole records, as many as the count. -/
theorem insertInto_atomic_iff (h : kHeader ≤ b.rep.length) :
    ((b.insertInto mem).1 ≠ .ok → (b.insertInto mem).2 = mem) ↔
      readRecord (b.rep.drop kHeader) = none ∨
        ∃ ops, Records (b.rep.drop kHeader) ops ∧ (ops.length : Int) = b.count := by
  have hoperations : b.operations = (iterateRecords (b.rep.drop kHeader)).1 := by
    rw [operations, iterate, if_neg (Nat.not_lt.mpr h)]
    simp only
    split_ifs <;> rfl
  have hstatus : b.iterate.2 = .ok ↔ (iterateRecords (b.rep.drop kHeader)).2 = .ok ∧
      ((iterateRecords (b.rep.drop kHeader)).1.length : Int) = b.count := by
    rw [iterate, if_neg (Nat.not_lt.mpr h)]
    simp only
    split_ifs with hrecords hfound
    · simp [hrecords]
    · simp [hfound]
    · simp only [ne_eq, not_not] at hrecords hfound
      simp [hrecords, hfound]
  have hsame : (b.insertInto mem).2 = mem ↔ (iterateRecords (b.rep.drop kHeader)).1 = [] := by
    rw [insertInto, List.append_right_eq_self, ← List.length_eq_zero_iff, length_numbered,
      List.length_eq_zero_iff, hoperations]
  rw [hsame, insertInto]
  constructor
  · intro hatomic
    by_cases hok : b.iterate.2 = .ok
    · obtain ⟨hread, hfound⟩ := hstatus.mp hok
      exact .inr ⟨_, records_of_ok hread, hfound⟩
    · refine .inl ?_
      cases hread : readRecord (b.rep.drop kHeader) with
      | none => rfl
      | some result =>
        have hnil := hatomic hok
        rw [iterateRecords_of_some hread] at hnil
        cases hnil
  · rintro (hnone | ⟨ops, hrecords, hfound⟩) hbad
    · exact (iterateRecords_of_none hnone).1
    · have hread := hrecords.iterateRecords
      rw [hread] at hstatus
      exact absurd (hstatus.mpr ⟨rfl, hfound⟩) hbad

/-- A batch of one record that was cut off. -/
def truncatedBatch : WriteBatch := ⟨List.replicate 8 0 ++ [1, 0, 0, 0] ++ [1, 3, 97]⟩

theorem insertInto_truncatedBatch :
    (truncatedBatch.insertInto []).1 ≠ .ok ∧ (truncatedBatch.insertInto []).2 = [] := by
  have hcut : readRecord [1, 3, 97] = none := by decide
  obtain ⟨hnil, hok⟩ := iterateRecords_of_none hcut
  have hstatus : (iterateRecords [1, 3, 97]).2 ≠ .ok := fun h => by cases hok.mp h
  have hfailed : (truncatedBatch.insertInto []).1 ≠ .ok := by
    have hiterate : truncatedBatch.iterate = ([], (iterateRecords [1, 3, 97]).2) := by
      rw [iterate, if_neg (by decide), ← hnil]
      exact if_pos hstatus
    rw [insertInto, hiterate]
    exact hstatus
  exact ⟨hfailed, (@insertInto_atomic_iff truncatedBatch [] (by decide)).mpr (.inl (by decide))
    hfailed⟩

/-- A batch with a whole record in front of one that was cut off. -/
def tornBatch : WriteBatch := ⟨List.replicate 8 0 ++ [2, 0, 0, 0] ++ [0, 1, 97] ++ [1, 3, 97]⟩

/-- The record in front stays in the memtable. -/
theorem insertInto_tornBatch :
    ¬ ((tornBatch.insertInto []).1 ≠ .ok → (tornBatch.insertInto []).2 = []) := by
  have hfirst : iterateRecords (tornBatch.rep.drop kHeader) =
      (.delete [97] :: (iterateRecords [1, 3, 97]).1, (iterateRecords [1, 3, 97]).2) :=
    iterateRecords_of_some (by decide)
  have hcut : readRecord [1, 3, 97] = none := by decide
  obtain ⟨hnil, hok⟩ := iterateRecords_of_none hcut
  rw [hnil] at hfirst
  have hstatus : (iterateRecords [1, 3, 97]).2 ≠ .ok := fun h => by cases hok.mp h
  have hiterate : tornBatch.iterate = ([.delete [97]], (iterateRecords [1, 3, 97]).2) := by
    rw [iterate, if_neg (by decide), hfirst]
    exact if_pos hstatus
  intro hatomic
  rw [insertInto, operations, hiterate] at hatomic
  cases hatomic hstatus

end Malformed

end WriteBatch

end WiscKey
