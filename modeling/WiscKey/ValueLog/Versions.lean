import Mathlib.Data.List.Range
import WiscKey.ValueLog.AppendOnly
import WiscKey.ValueLog.Interleaving

/-!
# The version numbers of the table

`leveldb_set` numbers from `latest_ver` and keeps it; `leveldb_vset` numbers from the length of
the vector and leaves `latest_ver` alone. A key that `leveldb_vset` has touched stays misnumbered
until it is deleted, every other key is numbered through.
-/

namespace WiscKey

/-- `v1 = v2` of two vectors: a buffer that is too small is replaced by `fresh`, which fits. -/
def VTableEntry.assign (e : VTableEntry) (fresh : Nat) (valVec : List ValueInfo) : VTableEntry :=
  if valVec.length ≤ e.capacity then { e with valVec }
  else { e with valVec, data := fresh, capacity := valVec.length }

/-- The table after `VTable[key]`: the operator puts an empty entry in for a missing key. -/
def VTable.subscript (vt : VTable) (key : Bytes) : VTable :=
  if key ∈ vt then vt else vt.insert key VTableEntry.empty

/-- `leveldb_vset`. The key of its `valueinfo` stays empty, and its `size` is what the memory held
before. -/
def leveldbVset (s : Lab2) (fresh size : Nat) (key value : Bytes) : Lab2 :=
  let db := s.db.insert key value
  let valinfo : ValueInfo := ⟨[], value, false, 1, size⟩
  -- the copy puts an entry in for a missing key, before `find` looks for it
  let vt := s.vtable.subscript key
  let temp := (vt.entry key).valVec
  let temp := if key ∈ vt then temp ++ [{ valinfo with version := temp.length + 1 }]
    else temp ++ [valinfo]
  { vtable := vt.insert key ((vt.entry key).assign fresh temp), db }

/-- The calls that write the table. `fresh` is what `malloc` returns to a growing vector. -/
inductive TableCall
  | set (fresh : Nat) (key value : Bytes)
  | vset (fresh size : Nat) (key value : Bytes)
  | del (key : Bytes)
  deriving DecidableEq, Repr

namespace TableCall

/-- The key of a call. -/
def key : TableCall → Bytes
  | .set _ key _ | .vset _ _ key _ | .del key => key

/-- The two stores after a call. -/
def perform (s : Lab2) : TableCall → Lab2
  | .set fresh key value => leveldbSet s fresh key value
  | .vset fresh size key value => leveldbVset s fresh size key value
  | .del key => leveldbDel s key

/-- A call of `leveldb_vset`. -/
def isVset : TableCall → Bool
  | .vset _ _ _ _ => true
  | .set _ _ _ | .del _ => false

/-- The sets of a key since its last deletion, with one more call. -/
def note (key : Bytes) (sets : List TableCall) (call : TableCall) : List TableCall :=
  if call.key = key then
    match call with
    | .del _ => []
    | .set _ _ _ | .vset _ _ _ _ => sets ++ [call]
  else sets

end TableCall

/-- The sets of a key since its last deletion. -/
def setsSinceDeletion (key : Bytes) (calls : List TableCall) : List TableCall :=
  calls.foldl (TableCall.note key) []

/-- The versions of an entry are those of `n` sets, in order, and the last is the latest one. -/
def VTableEntry.Numbered (e : VTableEntry) (n : Nat) : Prop :=
  e.valVec.map ValueInfo.version = List.range' 1 n ∧ e.latestVer = n

/-- What is known of an entry after its sets: it is numbered through, or `leveldb_vset` has added
a version more than `latest_ver` tells. -/
def VTableEntry.Reflects (e : VTableEntry) (sets : List TableCall) : Prop :=
  if sets.any TableCall.isVset then e.latestVer < e.valVec.length else e.Numbered sets.length

/-- The table has the keys that were set, and an entry for each. -/
structure VTable.Reflects (vt : VTable) (calls : List TableCall) : Prop where
  mem_iff : ∀ key, key ∈ vt ↔ setsSinceDeletion key calls ≠ []
  entry : ∀ key, (vt.entry key).Reflects (setsSinceDeletion key calls)

/-- The versions of every key in the table are numbered through. -/
def VersionsNumbered (vt : VTable) (calls : List TableCall) : Prop :=
  ∀ key e, vt.lookup key = some e → e.Numbered (setsSinceDeletion key calls).length

section Entries

variable {s : Lab2} {fresh size : Nat} {key other value : Bytes} {e e' : VTableEntry}
  {sets : List TableCall} {call : TableCall}

@[simp] theorem VTableEntry.latestVer_pushBack (v : ValueInfo) :
    (e.pushBack fresh v).latestVer = e.latestVer := by
  unfold pushBack
  split <;> rfl

theorem VTableEntry.assign_fields (valVec : List ValueInfo) :
    (e.assign fresh valVec).valVec = valVec ∧ (e.assign fresh valVec).latestVer = e.latestVer := by
  unfold assign
  split <;> exact ⟨rfl, rfl⟩

theorem VTable.entry_insert (vt : VTable) : VTable.entry (vt.insert key e) key = e := by
  rw [VTable.entry, AList.lookup_insert, Option.getD_some]

theorem VTable.mem_subscript (vt : VTable) : key ∈ vt.subscript key := by
  unfold subscript
  split
  · assumption
  · exact (AList.mem_insert _).mpr (.inl rfl)

/-- An entry that the operator inserts reads as the missing one. -/
theorem VTable.entry_subscript (vt : VTable) : (vt.subscript key).entry key = vt.entry key := by
  unfold subscript
  split
  · rfl
  · rename_i hmem
    rw [VTable.entry_insert, VTable.entry, AList.lookup_eq_none.mpr hmem, Option.getD_none]

/-- The table after a set is that of its locked half. -/
theorem vtable_leveldbSet :
    (leveldbSet s fresh key value).vtable = (leveldbSetLocked s.vtable fresh key value).1 := by
  have hmem : key ∈ (leveldbSetLocked s.vtable fresh key value).1 := by
    unfold leveldbSetLocked
    split <;> exact (AList.mem_insert _).mpr (.inl rfl)
  exact if_pos hmem

theorem mem_leveldbSet : key ∈ (leveldbSet s fresh key value).vtable := by
  rw [vtable_leveldbSet]
  unfold leveldbSetLocked
  split <;> exact (AList.mem_insert _).mpr (.inl rfl)

/-- A set numbers from the latest version. -/
theorem leveldbSet_entry :
    ((leveldbSet s fresh key value).vtable.entry key).valVec.map ValueInfo.version =
        (s.vtable.entry key).valVec.map ValueInfo.version ++
          [(s.vtable.entry key).latestVer + 1] ∧
      ((leveldbSet s fresh key value).vtable.entry key).latestVer =
        (s.vtable.entry key).latestVer + 1 := by
  rw [vtable_leveldbSet, leveldbSetLocked]
  cases hlookup : s.vtable.lookup key with
  | none =>
    have hentry : s.vtable.entry key = VTableEntry.empty := by
      rw [VTable.entry, hlookup, Option.getD_none]
    rw [VTable.entry_insert, hentry, VTableEntry.valVec_pushBack, List.map_append]
    exact ⟨rfl, rfl⟩
  | some e =>
    have hentry : s.vtable.entry key = e := by rw [VTable.entry, hlookup, Option.getD_some]
    rw [VTable.entry_insert, hentry, VTableEntry.valVec_pushBack, List.map_append,
      VTableEntry.latestVer_pushBack]
    exact ⟨rfl, rfl⟩

/-- `leveldb_vset` numbers from the length of the vector, and leaves the latest version. -/
theorem leveldbVset_entry :
    ((leveldbVset s fresh size key value).vtable.entry key).valVec.map ValueInfo.version =
        (s.vtable.entry key).valVec.map ValueInfo.version ++
          [(s.vtable.entry key).valVec.length + 1] ∧
      ((leveldbVset s fresh size key value).vtable.entry key).latestVer =
        (s.vtable.entry key).latestVer := by
  unfold leveldbVset
  simp only [if_pos s.vtable.mem_subscript]
  obtain ⟨hvec, hlatest⟩ := @VTableEntry.assign_fields fresh ((s.vtable.subscript key).entry key) _
  rw [VTable.entry_insert, hvec, hlatest, VTable.entry_subscript, List.map_append]
  exact ⟨rfl, rfl⟩

/-- A call leaves the other keys alone. -/
theorem TableCall.lookup_of_ne (h : other ≠ call.key) :
    (call.perform s).vtable.lookup other = s.vtable.lookup other := by
  cases call with
  | set fresh key value =>
    change (leveldbSet s fresh key value).vtable.lookup other = _
    rw [vtable_leveldbSet]
    exact leveldbSetLocked_lookup_of_ne h
  | vset fresh size key value =>
    have hne : other ≠ key := h
    refine (AList.lookup_insert_ne hne).trans ?_
    unfold VTable.subscript
    split
    · rfl
    · exact AList.lookup_insert_ne hne
  | del key => exact AList.lookup_erase_ne h

/-- The entry after a numbered set. -/
theorem VTableEntry.Reflects.set (h : e.Reflects sets) (hcall : call.isVset = false)
    (hversions : e'.valVec.map ValueInfo.version =
      e.valVec.map ValueInfo.version ++ [e.latestVer + 1])
    (hlatest : e'.latestVer = e.latestVer + 1) : e'.Reflects (sets ++ [call]) := by
  have hlength : e'.valVec.length = e.valVec.length + 1 := by
    simpa using congrArg List.length hversions
  unfold VTableEntry.Reflects at h ⊢
  have hany : (sets ++ [call]).any TableCall.isVset = sets.any TableCall.isVset := by
    simp [hcall]
  rw [hany]
  split at h
  · rw [if_pos ‹_›]
    omega
  · rw [if_neg ‹_›]
    obtain ⟨hnumbered, hlast⟩ := h
    refine ⟨?_, ?_⟩
    · rw [hversions, hnumbered, hlast, List.length_append, List.length_singleton,
        List.range'_1_concat, Nat.add_comm 1]
    · rw [hlatest, hlast, List.length_append, List.length_singleton]

/-- The entry after `leveldb_vset`. -/
theorem VTableEntry.Reflects.vset (h : e.Reflects sets) (hcall : call.isVset = true)
    (hlength : e'.valVec.length = e.valVec.length + 1) (hlatest : e'.latestVer = e.latestVer) :
    e'.Reflects (sets ++ [call]) := by
  unfold VTableEntry.Reflects at h ⊢
  have hany : (sets ++ [call]).any TableCall.isVset = true := by simp [hcall]
  rw [if_pos hany]
  split at h
  · omega
  · have hlength := congrArg List.length h.1
    have hlast := h.2
    rw [List.length_map, List.length_range'] at hlength
    omega

end Entries

variable {s : Lab2} {calls : List TableCall}

theorem setsSinceDeletion_concat (key : Bytes) (calls : List TableCall) (call : TableCall) :
    setsSinceDeletion key (calls ++ [call]) = call.note key (setsSinceDeletion key calls) :=
  List.foldl_concat ..

/-- A set follows the others of its key. -/
theorem TableCall.note_set {call : TableCall} {key : Bytes} {sets : List TableCall}
    (hkey : call.key = key) (hset : ∀ k, call ≠ .del k) : call.note key sets = sets ++ [call] := by
  refine (if_pos hkey).trans ?_
  cases call with
  | set fresh key value => rfl
  | vset fresh size key value => rfl
  | del key => exact absurd rfl (hset key)

/-- A deletion starts anew. -/
theorem TableCall.note_del (key : Bytes) (sets : List TableCall) :
    (TableCall.del key).note key sets = [] :=
  if_pos rfl

/-- A call keeps the table in step with the calls so far. -/
theorem VTable.Reflects.perform (h : s.vtable.Reflects calls) (call : TableCall) :
    (call.perform s).vtable.Reflects (calls ++ [call]) := by
  have hothers : ∀ key, key ≠ call.key →
      setsSinceDeletion key (calls ++ [call]) = setsSinceDeletion key calls := by
    intro key hne
    rw [setsSinceDeletion_concat]
    exact if_neg (Ne.symm hne)
  refine ⟨fun key => ?_, fun key => ?_⟩
  · rcases eq_or_ne key call.key with rfl | hne
    · cases call with
      | set fresh key value =>
        rw [setsSinceDeletion_concat, TableCall.note_set rfl (by simp)]
        exact iff_of_true mem_leveldbSet (by simp)
      | vset fresh size key value =>
        rw [setsSinceDeletion_concat, TableCall.note_set rfl (by simp)]
        exact iff_of_true ((AList.mem_insert _).mpr (.inl rfl)) (by simp)
      | del key =>
        rw [setsSinceDeletion_concat, TableCall.key, TableCall.note_del]
        exact iff_of_false (AList.lookup_eq_none.mp (AList.lookup_erase ..)) (by simp)
    · rw [hothers key hne, ← h.mem_iff, ← AList.lookup_isSome, ← AList.lookup_isSome,
        TableCall.lookup_of_ne hne]
  · rcases eq_or_ne key call.key with rfl | hne
    · have hentry := h.entry call.key
      cases call with
      | set fresh key value =>
        rw [setsSinceDeletion_concat, TableCall.note_set rfl (by simp)]
        exact hentry.set rfl leveldbSet_entry.1 leveldbSet_entry.2
      | vset fresh size key value =>
        rw [setsSinceDeletion_concat, TableCall.note_set rfl (by simp)]
        have hlength := congrArg List.length
          (@leveldbVset_entry s fresh size key value).1
        rw [List.length_append, List.length_map, List.length_map] at hlength
        exact hentry.vset rfl hlength leveldbVset_entry.2
      | del key =>
        rw [setsSinceDeletion_concat, TableCall.key, TableCall.note_del]
        have hgone : (s.vtable.erase key).lookup key = none := AList.lookup_erase ..
        have hempty : ((TableCall.del key).perform s).vtable.entry key = VTableEntry.empty := by
          rw [VTable.entry]
          exact congrArg (fun e => e.getD VTableEntry.empty) hgone
        rw [hempty]
        exact ⟨rfl, rfl⟩
    · rw [hothers key hne, VTable.entry, TableCall.lookup_of_ne hne]
      exact h.entry key

/-- The table after a run reflects its calls. -/
theorem VTable.reflects_run (db : Map Bytes) (calls : List TableCall) :
    (calls.foldl TableCall.perform ⟨∅, db⟩).vtable.Reflects calls := by
  induction calls using List.reverseRecOn with
  | nil => exact ⟨fun key => iff_of_false (AList.notMem_empty _) (by simp [setsSinceDeletion]),
      fun key => ⟨rfl, rfl⟩⟩
  | append_singleton calls call ih =>
    rw [List.foldl_concat]
    exact ih.perform call

/-- The keys of a table that reflects its calls are numbered through exactly when `leveldb_vset`
has set none of them since its last deletion. -/
theorem VTable.Reflects.numbered_iff (h : s.vtable.Reflects calls) :
    VersionsNumbered s.vtable calls ↔
      ∀ key, ∀ call ∈ setsSinceDeletion key calls, call.isVset = false := by
  have hentry : ∀ {key e}, s.vtable.lookup key = some e →
      e.Reflects (setsSinceDeletion key calls) := by
    intro key e he
    have hreflects := h.entry key
    rwa [VTable.entry, he, Option.getD_some] at hreflects
  constructor
  · intro hnumbered key call hcall
    have hmem := (h.mem_iff key).mpr (List.ne_nil_of_mem hcall)
    obtain ⟨e, he⟩ := Option.isSome_iff_exists.mp (AList.lookup_isSome.mpr hmem)
    obtain ⟨hversions, hlatest⟩ := hnumbered key e he
    have hlength := congrArg List.length hversions
    rw [List.length_map, List.length_range'] at hlength
    have hreflects := hentry he
    unfold VTableEntry.Reflects at hreflects
    split at hreflects
    · omega
    · rename_i hany
      exact Bool.eq_false_iff.mpr fun hvset => hany (List.any_eq_true.mpr ⟨call, hcall, hvset⟩)
  · intro hcalls key e he
    have hany : ¬ (setsSinceDeletion key calls).any TableCall.isVset = true := by
      rw [List.any_eq_true]
      rintro ⟨call, hcall, hvset⟩
      exact Bool.false_ne_true ((hcalls key call hcall).symm.trans hvset)
    have hreflects := hentry he
    unfold VTableEntry.Reflects at hreflects
    rwa [if_neg hany] at hreflects

/-- After any calls, the versions of every key are numbered through exactly when `leveldb_vset`
was called for no key of the table since its last deletion. -/
theorem tableRun_numbered_iff (db : Map Bytes) (calls : List TableCall) :
    VersionsNumbered (calls.foldl TableCall.perform ⟨∅, db⟩).vtable calls ↔
      ∀ key, ∀ call ∈ setsSinceDeletion key calls, call.isVset = false :=
  (VTable.reflects_run db calls).numbered_iff

/-- The first version that `leveldb_vset` writes has the number 1, and `latest_ver` stays 0, from
which the set after it numbers a second version 1. -/
theorem tableRun_misnumbers :
    (∃ calls, ¬ VersionsNumbered (calls.foldl TableCall.perform ⟨∅, ∅⟩).vtable calls) ∧
      ((leveldbSet (leveldbVset ⟨∅, ∅⟩ 4096 0 (ascii ['k']) []) 8192 (ascii ['k']) []).vtable.entry
        (ascii ['k'])).valVec.map ValueInfo.version = [1, 1] := by
  constructor
  · refine ⟨[.vset 4096 0 (ascii ['k']) []], ?_⟩
    intro hnumbered
    have hcalls := (VTable.reflects_run ∅ _).numbered_iff.mp hnumbered (ascii ['k'])
      (.vset 4096 0 (ascii ['k']) []) (by decide)
    cases hcalls
  · decide

end WiscKey
