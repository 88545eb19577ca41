import WiscKey.Trace.State
import WiscKey.Version.Overlap
import WiscKey.Version.Manifest

/-!
# Flushing a memtable

`WriteLevel0Table` builds a table of a memtable's entries, adds it to an edit, and records its
keys in the trace. The text that it records for a key is the C string at the internal key in the
memtable, less its last four characters.
-/

namespace WiscKey

/-- An entry of a memtable: the key, the value, and the memory behind them. -/
structure MemTableEntry where
  key : ParsedInternalKey
  value : Bytes
  behind : Bytes
  deriving DecidableEq, Repr

namespace MemTableEntry

variable (e : MemTableEntry)

/-- The memory that `iter->key().data()` points to. -/
def keyData : Bytes := appendInternalKey e.key ++ (putLengthPrefixedSlice e.value ++ e.behind)

/-- `t.substr(0,strlen(t.c_str())-4)` for that memory. -/
def keyText : Bytes :=
  let t := cString e.keyData
  -- the count is a `size_t`: below four characters it wraps around and leaves them all
  if t.length < 4 then t else t.take (t.length - 4)

end MemTableEntry

/-- What the environment and the table builder do in one call of `BuildTable`. -/
structure BuildEnv where
  newWritableFile : Status
  finish : Status
  /-- `builder->FileSize()`, once it has finished. -/
  fileSize : Nat
  sync : Status
  close : Status
  /-- The status of an iterator over the table. -/
  verify : Status

/-- The next operation, if there was no error so far. -/
def Status.andThen (s next : Status) : Status := if s = .ok then next else s

theorem Status.andThen_eq_ok {s next : Status} : s.andThen next = .ok ↔ s = .ok ∧ next = .ok := by
  rw [andThen]
  split
  · rename_i h
    exact ⟨fun hnext => ⟨h, hnext⟩, And.right⟩
  · rename_i h
    exact ⟨fun hs => absurd hs h, fun hs => absurd hs.1 h⟩

/-- `BuildTable`: its status, and the metadata that it leaves. An iterator over a memtable has no
error. -/
def buildTable (env : BuildEnv) (number : Nat) : List MemTableEntry → Status × TableFile
  | [] => (.ok, ⟨number, 0, [], []⟩)
  | e :: mem =>
    if env.newWritableFile ≠ .ok then (env.newWritableFile, ⟨number, 0, [], []⟩)
    else
      let smallest := appendInternalKey e.key
      let largest := appendInternalKey ((e :: mem).getLast (List.cons_ne_nil e mem)).key
      let fileSize := if env.finish = .ok then env.fileSize else 0
      let s := ((env.finish.andThen env.sync).andThen env.close).andThen env.verify
      (s, ⟨number, fileSize, smallest, largest⟩)

/-- What `WriteLevel0Table` leaves. -/
structure LevelZeroResult where
  status : Status
  edit : VersionEdit Bytes
  versions : VersionSet
  trace : Trace

/-- `WriteLevel0Table`. -/
def writeLevel0Table (ucmp : Comparator) (maxFileSize pageSize : Nat) (env : BuildEnv)
    (versions : VersionSet) (base : Option (Version Bytes)) (mem : List MemTableEntry)
    (edit : VersionEdit Bytes) (tr : Trace) : Option LevelZeroResult := do
  let (number, versions) := versions.newFileNumber
  let (s, file) := buildTable env number mem
  let tr := tr.recordKeys (mem.map MemTableEntry.keyText) number
  let tr ← tr.recordTable pageSize number file.fileSize
  let edit :=
    if s = .ok ∧ 0 < file.fileSize then
      let level :=
        match base with
        | none => 0
        | some base => base.pickLevelForMemTableOutput ucmp maxFileSize
          (extractUserKey file.smallest) (extractUserKey file.largest)
      edit.addFile level file
    else edit
  some ⟨s, edit, versions, tr⟩

variable {ucmp : Comparator} {maxFileSize pageSize : Nat} {env : BuildEnv} {versions : VersionSet}
  {base : Option (Version Bytes)} {mem : List MemTableEntry} {edit : VersionEdit Bytes}
  {tr : Trace} {r : LevelZeroResult}

/-- What a flush does to the trace, whatever its status. -/
theorem trace_writeLevel0Table
    (h : writeLevel0Table ucmp maxFileSize pageSize env versions base mem edit tr = some r) :
    (tr.recordKeys (mem.map MemTableEntry.keyText) versions.nextFileNumber).recordTable pageSize
      versions.nextFileNumber (buildTable env versions.nextFileNumber mem).2.fileSize =
        some r.trace ∧ r.status = (buildTable env versions.nextFileNumber mem).1 := by
  simp only [writeLevel0Table, VersionSet.newFileNumber, Option.bind_eq_bind,
    Option.bind_eq_some_iff] at h
  obtain ⟨tr', htr', h⟩ := h
  obtain rfl := Option.some.inj h
  exact ⟨htr', rfl⟩

/-! ## The text of a key -/

namespace MemTableEntry

variable (e : MemTableEntry)

/-- The sequence number's first three bytes are not zero, and its fourth is. -/
def ThreeSequenceBytes (sequence : Nat) : Prop :=
  sequence % 256 ≠ 0 ∧ sequence / 256 % 256 ≠ 0 ∧ sequence / 256 ^ 2 % 256 ≠ 0 ∧
    sequence / 256 ^ 3 % 256 = 0

instance : DecidablePred ThreeSequenceBytes := fun _ => inferInstanceAs (Decidable (_ ∧ _))

/-- The length arithmetic happens to cut the trailer off: the key holds no zero byte, and either
the entry is a deletion of a key of fewer than four bytes, or it is a value whose sequence number
has three low bytes. -/
def KeepsKey : Prop :=
  0 ∉ e.key.userKey ∧ (e.key.type = .deletion ∧ e.key.userKey.length < 4 ∨
    e.key.type = .value ∧ ThreeSequenceBytes e.key.sequence)

instance : Decidable e.KeepsKey := inferInstanceAs (Decidable (_ ∧ _))

/-- The memory begins with a string that is not the entry's key, and the first zero byte stands
four bytes behind it, or right behind it where it has fewer than four bytes. -/
def BeginsLike (t : Bytes) : Prop :=
  t ≠ e.key.userKey ∧ ∃ between rest, e.keyData ++ [0] = t ++ between ++ 0 :: rest ∧
    0 ∉ t ++ between ∧ (between.length = 4 ∨ between = [] ∧ t.length < 4)

end MemTableEntry

theorem cString_append_zero {s : Bytes} (h : (0 : UInt8) ∉ s) (rest : Bytes) :
    cString (s ++ 0 :: rest) = s := by
  have hall : ∀ c ∈ s, (c != 0) = true := by
    intro c hc
    exact bne_iff_ne.mpr fun hzero => h (hzero ▸ hc)
  rw [cString, List.takeWhile_append_of_pos hall]
  simp

theorem zero_notMem_cString (s : Bytes) : (0 : UInt8) ∉ cString s := by
  intro h
  simpa using List.mem_takeWhile_imp h

/-- Bytes with a zero byte behind them are their C string, a zero byte and the rest. -/
theorem exists_cString_append (s : Bytes) : ∃ rest, s ++ [0] = cString s ++ 0 :: rest := by
  induction s with
  | nil => exact ⟨[], rfl⟩
  | cons c s ih =>
    obtain ⟨rest, hrest⟩ := ih
    by_cases hc : c = 0
    · subst hc
      exact ⟨s ++ [0], rfl⟩
    · have hstep : cString (c :: s) = c :: cString s :=
        List.takeWhile_cons_of_pos (by simpa using hc)
      rw [hstep]
      exact ⟨rest, by rw [List.cons_append, hrest, List.cons_append]⟩

/-- What stands before the first zero byte is the C string. -/
theorem cString_eq_of_append {memory s rest : Bytes} (h : memory ++ [0] = s ++ 0 :: rest)
    (hs : (0 : UInt8) ∉ s) : cString memory = s := by
  obtain ⟨rest', hrest⟩ := exists_cString_append memory
  have hzero := zero_notMem_cString memory
  calc cString memory = cString (cString memory ++ 0 :: rest') := (cString_append_zero hzero _).symm
    _ = cString (s ++ 0 :: rest) := by rw [← hrest, h]
    _ = s := cString_append_zero hs _

namespace MemTableEntry

variable {e : MemTableEntry}

/-- The recorded text stands before the first zero byte, with four bytes or none between. -/
theorem keyText_eq_iff {t : Bytes} : e.keyText = t ↔
    ∃ between rest, e.keyData ++ [0] = t ++ between ++ 0 :: rest ∧ 0 ∉ t ++ between ∧
      (between.length = 4 ∨ between = [] ∧ t.length < 4) := by
  constructor
  · rintro rfl
    obtain ⟨rest, hrest⟩ := exists_cString_append e.keyData
    have hzero := zero_notMem_cString e.keyData
    rw [keyText]
    split
    · rename_i hshort
      exact ⟨[], rest, by simpa using hrest, by simpa using hzero, .inr ⟨rfl, hshort⟩⟩
    · rename_i hlong
      have hsplit := List.take_append_drop ((cString e.keyData).length - 4) (cString e.keyData)
      refine ⟨(cString e.keyData).drop ((cString e.keyData).length - 4), rest, ?_, ?_, .inl ?_⟩
      · rw [hsplit, hrest]
      · rwa [hsplit]
      · rw [List.length_drop]
        omega
  · rintro ⟨between, rest, hmemory, hzero, hbetween⟩
    rw [keyText, cString_eq_of_append hmemory hzero]
    rcases hbetween with hfour | ⟨rfl, hshort⟩
    · rw [if_neg (by rw [List.length_append]; omega), List.length_append, hfour,
        Nat.add_sub_cancel, List.take_left]
    · rw [List.append_nil, if_pos hshort]

/-- The bytes of a packed number: the type, and the sequence number from its low byte on. -/
theorem encodeFixed64_pack (seq : Nat) (t : ValueType) :
    encodeFixed64 (packSequenceAndType seq t) = UInt8.ofNat t.code :: encodeFixed 7 seq := by
  have hcode : t.code < 2 ^ 8 := by cases t <;> decide
  have hdiv : (seq * 256 + t.code) >>> 8 = seq := by
    rw [Nat.shiftRight_eq_div_pow]
    omega
  have hbyte : UInt8.ofNat (seq * 256 + t.code) = UInt8.ofNat t.code := by
    apply UInt8.toNat_inj.mp
    rw [UInt8.toNat_ofNat', UInt8.toNat_ofNat']
    omega
  rw [encodeFixed64, packSequenceAndType_eq, encodeFixed, hdiv, hbyte]

theorem ofNat_eq_zero_iff (n : Nat) : UInt8.ofNat n = 0 ↔ n % 256 = 0 := by
  rw [← UInt8.toNat_inj, UInt8.toNat_ofNat']
  rfl

theorem length_cString_cons (b : UInt8) (s : Bytes) :
    (cString (b :: s)).length = if b = 0 then 0 else (cString s).length + 1 := by
  unfold cString
  split
  · rename_i hzero
    rw [List.takeWhile_cons_of_neg (by simpa using hzero), List.length_nil]
  · rename_i hne
    rw [List.takeWhile_cons_of_pos (by simpa using hne), List.length_cons]

/-- Three characters are read from a sequence number that has three low bytes. -/
theorem length_cString_sequence (seq : Nat) (rest : Bytes) :
    (cString (encodeFixed 7 seq ++ rest)).length = 3 ↔ ThreeSequenceBytes seq := by
  simp only [encodeFixed, List.cons_append, length_cString_cons, ofNat_eq_zero_iff,
    Nat.shiftRight_eq_div_pow, Nat.div_div_eq_div_mul, ThreeSequenceBytes]
  repeat' split
  all_goals simp_all

theorem mem_cString_of_mem_keyText {c : UInt8} (h : c ∈ e.keyText) : c ∈ cString e.keyData := by
  rw [keyText] at h
  split at h
  · exact h
  · exact List.mem_of_mem_take h

/-- The text of an entry is its user key exactly when the entry keeps it. -/
theorem keyText_eq_userKey_iff : e.keyText = e.key.userKey ↔ e.KeepsKey := by
  unfold KeepsKey
  obtain ⟨⟨key, seq, type⟩, value, behind⟩ := e
  by_cases hzero : (0 : UInt8) ∈ key
  · refine iff_of_false (fun htext => ?_) (fun h => h.1 hzero)
    have hmem : (0 : UInt8) ∈ keyText ⟨⟨key, seq, type⟩, value, behind⟩ := htext ▸ hzero
    exact zero_notMem_cString _ (mem_cString_of_mem_keyText hmem)
  · have hall : ∀ c ∈ key, (c != 0) = true := by
      intro c hc
      exact bne_iff_ne.mpr fun h => hzero (h ▸ hc)
    let rest := putLengthPrefixedSlice value ++ behind
    have hstring : cString (keyData ⟨⟨key, seq, type⟩, value, behind⟩) =
        key ++ cString (UInt8.ofNat type.code :: (encodeFixed 7 seq ++ rest)) := by
      simp only [keyData, appendInternalKey, encodeFixed64_pack, List.append_assoc, cString]
      exact List.takeWhile_append_of_pos hall
    simp only [keyText, hstring, hzero, not_false_eq_true, true_and]
    cases type with
    | deletion =>
      have hnil : cString (UInt8.ofNat ValueType.deletion.code :: (encodeFixed 7 seq ++ rest)) =
          [] := rfl
      rw [hnil, List.append_nil]
      split
      · rename_i hshort
        exact iff_of_true rfl (.inl ⟨rfl, hshort⟩)
      · rename_i hlong
        refine iff_of_false (fun htake => ?_) (by rintro (⟨-, h⟩ | ⟨h, -⟩) <;> contradiction)
        have hlength := congrArg List.length htake
        rw [List.length_take] at hlength
        omega
    | value =>
      have hcons : cString (UInt8.ofNat ValueType.value.code :: (encodeFixed 7 seq ++ rest)) =
          1 :: cString (encodeFixed 7 seq ++ rest) := rfl
      have hthree := length_cString_sequence seq rest
      rw [hcons]
      generalize cString (encodeFixed 7 seq ++ rest) = s at hthree
      rw [← hthree]
      simp only [reduceCtorEq, false_and, true_and, false_or, List.length_append, List.length_cons]
      constructor
      · intro htext
        have hlength := congrArg List.length htext
        split at hlength
        · simp at hlength
        · rw [List.length_take, List.length_append, List.length_cons] at hlength
          omega
      · intro hs
        rw [if_neg (by omega), hs, show key.length + (3 + 1) - 4 = key.length by omega,
          List.take_left]

/-- The text of an entry is its own key, which it keeps, or another string. -/
theorem keyText_eq_iff_keepsKey_or {t : Bytes} :
    e.keyText = t ↔ t = e.key.userKey ∧ e.KeepsKey ∨ e.BeginsLike t := by
  by_cases ht : t = e.key.userKey
  · subst ht
    simp [keyText_eq_userKey_iff, BeginsLike]
  · rw [keyText_eq_iff]
    simp [BeginsLike, ht]

end MemTableEntry

/-! ## The keys of a flush -/

/-- The map holds the number under these keys, and nowhere else, and is otherwise as it was. -/
def KeysRecorded (before after : AList fun _ : Bytes => Nat) (number : Nat) (keys : List Bytes) :
    Prop :=
  (∀ key ∈ keys, after.lookup key = some number) ∧
    (∀ t, after.lookup t = some number → t ∈ keys) ∧
      ∀ t, t ∉ keys → after.lookup t = before.lookup t

/-- Each entry keeps its key, or begins like the key of another entry. Each user key is kept by an
entry that has it, or had the number before, or an entry of another key begins like it. Only user
keys had the number before. -/
def KeepsKeys (before : AList fun _ : Bytes => Nat) (number : Nat) (mem : List MemTableEntry) :
    Prop :=
  (∀ e ∈ mem, e.KeepsKey ∨ ∃ e' ∈ mem, e.BeginsLike e'.key.userKey) ∧
    (∀ e ∈ mem, before.lookup e.key.userKey = some number ∨
      (∃ e' ∈ mem, e'.key.userKey = e.key.userKey ∧ e'.KeepsKey) ∨
        ∃ e' ∈ mem, e'.BeginsLike e.key.userKey) ∧
      ∀ t, before.lookup t = some number → ∃ e ∈ mem, e.key.userKey = t

/-- A map that takes the number under some texts records the keys exactly when the texts are keys,
the keys are texts or had the number before, and nothing else had it. -/
theorem keysRecorded_iff_texts {before after : AList fun _ : Bytes => Nat} {number : Nat}
    {keys texts : List Bytes}
    (hlookup : ∀ t, after.lookup t = if t ∈ texts then some number else before.lookup t) :
    KeysRecorded before after number keys ↔
      (∀ t ∈ texts, t ∈ keys) ∧ (∀ key ∈ keys, before.lookup key = some number ∨ key ∈ texts) ∧
        ∀ t, before.lookup t = some number → t ∈ keys := by
  constructor
  · rintro ⟨hkeys, honly, -⟩
    have htexts : ∀ t ∈ texts, t ∈ keys := by
      intro t ht
      exact honly t (by rw [hlookup, if_pos ht])
    refine ⟨htexts, fun key hkey => ?_, fun t ht => ?_⟩
    · by_cases hmem : key ∈ texts
      · exact .inr hmem
      · have hafter := hkeys key hkey
        rw [hlookup, if_neg hmem] at hafter
        exact .inl hafter
    · by_cases hmem : t ∈ texts
      · exact htexts t hmem
      · exact honly t (by rw [hlookup, if_neg hmem, ht])
  · rintro ⟨htexts, hkeys, hbefore⟩
    refine ⟨fun key hkey => ?_, fun t ht => ?_, fun t ht => ?_⟩
    · rw [hlookup]
      split
      · rfl
      · rename_i hmem
        exact (hkeys key hkey).resolve_right hmem
    · rw [hlookup] at ht
      split at ht
      · rename_i hmem
        exact htexts t hmem
      · exact hbefore t ht
    · rw [hlookup, if_neg fun hmem => ht (htexts t hmem)]

/-- What a flush records. -/
theorem lookup_writeLevel0Table
    (h : writeLevel0Table ucmp maxFileSize pageSize env versions base mem edit tr = some r)
    (t : Bytes) : r.trace.keySSTableMap.lookup t =
      if t ∈ mem.map MemTableEntry.keyText then some versions.nextFileNumber
      else tr.keySSTableMap.lookup t := by
  rw [congrArg Trace.keySSTableMap (Trace.recordTable_eq_some.mp (trace_writeLevel0Table h).1).2]
  exact Trace.lookup_recordKeys _ t

/-- The texts are keys of the memtable exactly when each entry keeps its key or begins like another
one. -/
theorem forall_keyText_mem_iff : (∀ t ∈ mem.map MemTableEntry.keyText,
    t ∈ mem.map fun e => e.key.userKey) ↔
      ∀ e ∈ mem, e.KeepsKey ∨ ∃ e' ∈ mem, e.BeginsLike e'.key.userKey := by
  rw [List.forall_mem_map]
  refine forall₂_congr fun e he => ?_
  rw [List.mem_map]
  constructor
  · rintro ⟨e', he', htext⟩
    rcases MemTableEntry.keyText_eq_iff_keepsKey_or.mp htext.symm with ⟨-, hkeeps⟩ | hlike
    · exact .inl hkeeps
    · exact .inr ⟨e', he', hlike⟩
  · rintro (hkeeps | ⟨e', he', hlike⟩)
    · exact ⟨e, he, (MemTableEntry.keyText_eq_userKey_iff.mpr hkeeps).symm⟩
    · exact ⟨e', he', (MemTableEntry.keyText_eq_iff_keepsKey_or.mpr (.inr hlike)).symm⟩

/-- A key is a text exactly when an entry that has it keeps it, or another entry begins like it. -/
theorem mem_keyTexts_iff {key : Bytes} : key ∈ mem.map MemTableEntry.keyText ↔
    (∃ e ∈ mem, e.key.userKey = key ∧ e.KeepsKey) ∨ ∃ e ∈ mem, e.BeginsLike key := by
  simp only [List.mem_map, MemTableEntry.keyText_eq_iff_keepsKey_or, and_or_left, exists_or,
    eq_comm (a := key)]

/-- What a flush records are its user keys exactly when its entries keep them. -/
theorem writeLevel0Table_keysRecorded_iff
    (h : writeLevel0Table ucmp maxFileSize pageSize env versions base mem edit tr = some r) :
    KeysRecorded tr.keySSTableMap r.trace.keySSTableMap versions.nextFileNumber
        (mem.map fun e => e.key.userKey) ↔
      KeepsKeys tr.keySSTableMap versions.nextFileNumber mem := by
  rw [keysRecorded_iff_texts (lookup_writeLevel0Table h), forall_keyText_mem_iff, KeepsKeys]
  refine and_congr_right fun _ => and_congr ?_ (by simp only [List.mem_map])
  rw [List.forall_mem_map]
  simp only [mem_keyTexts_iff]

/-- A build without an error. -/
def goodBuild : BuildEnv := ⟨.ok, .ok, 4096, .ok, .ok, .ok⟩

/-- The value `v` under the key `k`. -/
def entryK (sequence : Nat) : MemTableEntry :=
  ⟨⟨ascii ['k'], sequence, .value⟩, ascii ['v'], []⟩

/-- A deletion of the key `del`. -/
def deletionDel : MemTableEntry := ⟨⟨ascii ['d', 'e', 'l'], 7, .deletion⟩, [], []⟩

/-- A value whose sequence number has three low bytes is recorded under its key, and so is the
deletion of a short key. -/
theorem writeLevel0Table_keysRecorded_entryK : ∃ r,
    writeLevel0Table bytewiseComparator (2 ^ 21) 512 goodBuild .init none
      [deletionDel, entryK 0x10101] .empty .init = some r ∧ r.status = .ok ∧
    KeysRecorded Trace.init.keySSTableMap r.trace.keySSTableMap VersionSet.init.nextFileNumber
      [ascii ['d', 'e', 'l'], ascii ['k']] := by
  have hkeeps : ∀ e ∈ [deletionDel, entryK 0x10101], e.KeepsKey := by decide
  have h := writeLevel0Table_keysRecorded_iff (r := _) (show
    writeLevel0Table bytewiseComparator (2 ^ 21) 512 goodBuild .init none
      [deletionDel, entryK 0x10101] .empty .init = some _ from rfl)
  refine ⟨_, rfl, rfl, h.mpr ⟨fun e he => .inl (hkeeps e he),
    fun e he => .inr (.inl ⟨e, he, rfl, hkeeps e he⟩), fun t ht => ?_⟩⟩
  cases ht

/-- The first value of a database is not recorded under its key. -/
theorem writeLevel0Table_misses_key : ¬ ∀ (ucmp : Comparator) (maxFileSize pageSize : Nat)
    (env : BuildEnv) (versions : VersionSet) (base : Option (Version Bytes))
    (mem : List MemTableEntry) (edit : VersionEdit Bytes) (tr : Trace) (r : LevelZeroResult),
    writeLevel0Table ucmp maxFileSize pageSize env versions base mem edit tr = some r →
      r.status = .ok → KeysRecorded tr.keySSTableMap r.trace.keySSTableMap versions.nextFileNumber
        (mem.map fun e => e.key.userKey) := by
  intro h
  have hrecorded := h bytewiseComparator (2 ^ 21) 512 goodBuild .init none [entryK 1] .empty .init _
    rfl rfl
  exact absurd (hrecorded.1 (ascii ['k']) (List.mem_singleton_self _)) (by decide)

end WiscKey
