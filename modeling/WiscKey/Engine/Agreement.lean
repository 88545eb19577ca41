import WiscKey.Compaction.Lookup
import WiscKey.Engine.Layering

/-!
# Entries that agree with a history

The entries of a database are updates of its history under their places. They need not be all of
them: a reader finds the last update of a key in front of its snapshot if the entry of this update
is there, or if it is a deletion and nothing of the key is left that the reader can see.
-/

namespace WiscKey

variable {ucmp : Comparator} {history more : List Op} {userKey : Bytes} {snapshot place : Nat}
  {op : Op} {e : TableEntry} {entries : List TableEntry} {tables : Tables} {f : TableFile}

section Wrote

/-- The updates of the history fit their entries. -/
def Fitting (history : List Op) : Prop :=
  ∀ (place : Nat) (op : Op), history[place]? = some op → (op.entry (place + 1)).Fits

/-- The entry is that of an update of the history. -/
def Wrote (history : List Op) (e : TableEntry) : Prop :=
  ∃ (place : Nat) (op : Op), history[place]? = some op ∧ e = (op.entry (place + 1)).entry

/-- The value type of an update. -/
def Op.type : Op → ValueType
  | .put _ _ => .value
  | .delete _ => .deletion

theorem Op.ikey_entry (op : Op) (sequence : Nat) :
    (op.entry sequence).ikey = ⟨op.userKey, sequence, op.type⟩ := by
  cases op with
  | put key value => rfl
  | delete key => rfl

theorem Op.parse_entry {sequence : Nat} (hfits : (op.entry sequence).Fits) :
    parseInternalKey (op.entry sequence).entry.key = some ⟨op.userKey, sequence, op.type⟩ := by
  rw [hfits.parse_entry, op.ikey_entry]

/-- The entry of an update is seen by the readers of its key behind its place. -/
theorem Op.isSeen_entry (hfits : (op.entry (place + 1)).Fits) :
    isSeen ucmp userKey snapshot (op.entry (place + 1)).entry = true ↔
      op.isFor ucmp userKey = true ∧ place < snapshot := by
  rw [isSeen_iff, Op.parse_entry hfits, Op.isFor, decide_eq_true_iff, Nat.lt_iff_add_one_le]
  simp

/-- What a read answers for the entry of an update. -/
theorem Op.answer_entry {sequence : Nat} (hfits : (op.entry sequence).Fits) :
    WiscKey.answer (some (op.entry sequence).entry) = Op.answer (some op) := by
  simp only [WiscKey.answer, Op.parse_entry hfits]
  cases op with
  | put key value =>
    have hvalue : value.length < 2 ^ 32 := hfits.value
    simp only [Op.type, Op.answer, Op.entry, MemEntry.entry, Nat.mod_eq_of_lt hvalue,
      List.take_length]
  | delete key => rfl

theorem Op.internalTag_entry {sequence : Nat} (hfits : (op.entry sequence).Fits) :
    internalTag (op.entry sequence).entry.key = sequence * 256 + op.type.code := by
  obtain ⟨-, htag⟩ := parseInternalKey_spec (Op.parse_entry hfits)
  exact htag

theorem Wrote.append (h : Wrote history e) (more : List Op) : Wrote (history ++ more) e := by
  obtain ⟨place, op, hat, rfl⟩ := h
  have hlt := (List.getElem?_eq_some_iff.mp hat).1
  exact ⟨place, op, (List.getElem?_append_left hlt).trans hat, rfl⟩

end Wrote

section Covers

/-- The entries have what a reader of a key at a snapshot is to see. -/
def Covers (ucmp : Comparator) (history : List Op) (holds : TableEntry → Prop) (snapshot : Nat)
    (userKey : Bytes) : Prop :=
  ∀ place op, LastAt (Op.isFor ucmp userKey) history snapshot place op →
    holds (op.entry (place + 1)).entry ∨
      (op.type = .deletion ∧ ∀ e, holds e → ¬ isSeen ucmp userKey snapshot e = true)

variable {holds holds' : TableEntry → Prop}

/-- What a reader can see is the last update, or has a smaller tag. -/
theorem Wrote.eq_or_lt (hwrote : Wrote history e) (hfit : Fitting history)
    (hplace : LastAt (Op.isFor ucmp userKey) history snapshot place op)
    (hseen : isSeen ucmp userKey snapshot e = true) : e = (op.entry (place + 1)).entry ∨
      internalTag e.key < internalTag (op.entry (place + 1)).entry.key := by
  obtain ⟨place', op', hat, rfl⟩ := hwrote
  have hfits' := hfit place' op' hat
  obtain ⟨hfor, hlt⟩ := (Op.isSeen_entry hfits').mp hseen
  rcases Nat.lt_trichotomy place' place with hbefore | rfl | hafter
  · rw [Op.internalTag_entry hfits', Op.internalTag_entry (hfit place op hplace.at_)]
    have hcode : op'.type.code ≤ 1 := by cases op'.type <;> decide
    exact .inr (by omega)
  · rw [hplace.at_] at hat
    obtain rfl := Option.some.inj hat
    exact .inl rfl
  · have hother := hplace.last place' op' hafter hlt hat
    rw [hfor] at hother
    cases hother

/-- The newest entry that a reader can see is what the history has for it. -/
theorem Covers.answer_eq (h : Covers ucmp history holds snapshot userKey)
    (hfit : Fitting history) (hwrote : ∀ e, holds e → Wrote history e)
    {newest : Option TableEntry} (hhighest : Highest (fun e => internalTag e.key)
      {e | holds e ∧ isSeen ucmp userKey snapshot e = true} newest) :
    answer newest = readAt ucmp history snapshot userKey := by
  rw [readAt]
  cases newest with
  | none =>
    have hempty : ∀ e, holds e → ¬ isSeen ucmp userKey snapshot e = true := fun e hholds hseen =>
      Set.eq_empty_iff_forall_notMem.mp hhighest e ⟨hholds, hseen⟩
    cases hlast : lastOf (Op.isFor ucmp userKey) history snapshot with
    | none => rfl
    | some op =>
      obtain ⟨place, hplace⟩ := lastOf_eq_some_iff.mp hlast
      rcases h place op hplace with hholds | ⟨hdeletion, -⟩
      · refine absurd ?_ (hempty _ hholds)
        exact (Op.isSeen_entry (hfit place op hplace.at_)).mpr ⟨hplace.ofKey, hplace.lt⟩
      · cases op with
        | put key value => cases hdeletion
        | delete key => rfl
  | some e =>
    obtain ⟨⟨hholds, hseen⟩, hle⟩ := hhighest
    cases hlast : lastOf (Op.isFor ucmp userKey) history snapshot with
    | none =>
      obtain ⟨place, op, hat, rfl⟩ := hwrote e hholds
      obtain ⟨hfor, hlt⟩ := (Op.isSeen_entry (hfit place op hat)).mp hseen
      have hnone := lastOf_eq_none_iff.mp hlast place op hlt hat
      rw [hfor] at hnone
      cases hnone
    | some last =>
      obtain ⟨place, hplace⟩ := lastOf_eq_some_iff.mp hlast
      have hfits := hfit place last hplace.at_
      rcases h place last hplace with hholds' | ⟨-, hnone⟩
      · have htag := hle _ ⟨hholds', (Op.isSeen_entry hfits).mpr ⟨hplace.ofKey, hplace.lt⟩⟩
        rcases (hwrote e hholds).eq_or_lt hfit hplace hseen with rfl | hlt
        · exact Op.answer_entry hfits
        · exact absurd htag (Nat.not_le.mpr hlt)
      · exact absurd hseen (hnone _ hholds)

end Covers

section Search

/-- Entries in order, as a table of their own. -/
theorem tableOf_stream {first last : TableEntry} (h : InternalStream ucmp entries)
    (htable : tables f.number = (.ok, entries)) (hfirst : entries.head? = some first)
    (hlast : entries.getLast? = some last) (hsmallest : f.smallest = first.key)
    (hlargest : f.largest = last.key) : Version.TableOf ucmp tables f := by
  refine ⟨congrArg Prod.fst htable, ?_, ?_, ?_, ?_⟩
  · rw [htable]
    exact h.parsed
  · rw [htable]
    exact h.increasing
  · rw [htable, hsmallest]
    exact congrArg (Option.map TableEntry.key) hfirst
  · rw [htable, hlargest]
    exact congrArg (Option.map TableEntry.key) hlast

/-- The search in a memtable finds the newest version in it. -/
theorem InternalStream.highest (h : InternalStream ucmp entries) (userKey : Bytes)
    (snapshot : Nat) : Highest (fun e => internalTag e.key)
      {e | e ∈ entries ∧ isSeen ucmp userKey snapshot e = true}
      (newestSeen ucmp userKey snapshot entries) := by
  cases hfirst : entries.head? with
  | none =>
    obtain rfl := List.head?_eq_none_iff.mp hfirst
    exact Set.eq_empty_of_forall_notMem fun e he => List.not_mem_nil he.1
  | some first =>
    have hne : entries ≠ [] := by
      rintro rfl
      cases hfirst
    have htable : Version.TableOf ucmp (fun _ => (.ok, entries))
        ⟨0, 0, first.key, (entries.getLast hne).key⟩ :=
      tableOf_stream h rfl hfirst (List.getLast?_eq_some_getLast hne) rfl rfl
    exact htable.highest userKey snapshot

variable {db : ReadState}

/-- The entries that a read can come across. -/
def ReadState.Holds (db : ReadState) (e : TableEntry) : Prop :=
  e ∈ db.mem ∨ (∃ imm ∈ db.imm, e ∈ imm) ∨
    ∃ level, ∃ f ∈ db.current.files level, e ∈ (db.tables f.number).2

/-- The memtables and the version are each newer than what is read after them. -/
structure ReadState.Stacked (ucmp : Comparator) (db : ReadState) : Prop where
  mem : InternalStream ucmp db.mem
  imm : ∀ imm ∈ db.imm, InternalStream ucmp imm
  layered : Version.Layered ucmp db.tables db.current
  memImm : ∀ imm ∈ db.imm, Version.NewerThan ucmp db.mem imm
  memTable : ∀ level, ∀ f ∈ db.current.files level,
    Version.NewerThan ucmp db.mem (db.tables f.number).2
  immTable : ∀ imm ∈ db.imm, ∀ level, ∀ f ∈ db.current.files level,
    Version.NewerThan ucmp imm (db.tables f.number).2

/-- A read of a layered version ends at the newest version of the key that the snapshot sees. -/
theorem Version.Layered.get_highest {v : Version Bytes} (h : v.Layered ucmp tables)
    (hsnapshot : snapshot ≤ kMaxSequenceNumber) (userKey : Bytes) : ∃ newest,
      Highest (fun e => internalTag e.key)
        {e | ∃ level, e ∈ Version.seenAt ucmp tables v userKey snapshot level} newest ∧
      ((v.get ucmp tables userKey snapshot).status, (v.get ucmp tables userKey snapshot).value) =
        answer newest := by
  refine ⟨_, h.highest_filesToSearch hsnapshot userKey, ?_⟩
  refine Version.searchFiles_newestSeen hsnapshot fun f hf => ?_
  rw [Version.filesToSearch, List.mem_append, List.mem_filterMap] at hf
  rcases hf with hf | ⟨level, -, hf⟩
  · exact (h.tableOf 0 f (Version.mem_levelZeroFiles.mp hf).1).readable
  · have hmem := List.mem_of_getElem? (Option.filter_eq_some_iff.mp hf).1
    exact (h.tableOf level f hmem).readable

/-- A memtable answers for what it has, and hands on what it has not. -/
theorem memTableGet_orElse (h : InternalStream ucmp entries)
    (hsnapshot : snapshot ≤ kMaxSequenceNumber) (userKey : Bytes) (rest : ReadResult)
    {newest : Option TableEntry} (hrest : (rest.status, rest.value) = answer newest) :
    (((memTableGet ucmp entries userKey snapshot).getD rest).status,
        ((memTableGet ucmp entries userKey snapshot).getD rest).value) =
      answer ((newestSeen ucmp userKey snapshot entries).or newest) := by
  have hsorted : SortedStream ucmp entries :=
    h.increasing.imp fun hlt => by rw [hlt]; exact Ordering.noConfusion
  rw [memTableGet_newestSeen hsnapshot hsorted h.parsed]
  cases hnewest : newestSeen ucmp userKey snapshot entries with
  | none => exact hrest
  | some e =>
    obtain ⟨⟨user, seq, type⟩, hparse⟩ :=
      Option.isSome_iff_exists.mp (h.parsed e (mem_of_newestSeen hnewest))
    simp only [saved, hparse, Option.some_or, answer]
    cases type with
    | deletion => rfl
    | value => rfl

/-- A read finds the newest version that the snapshot sees in all of its sources. -/
theorem ReadState.Stacked.lookup_highest (h : db.Stacked ucmp)
    (hsnapshot : snapshot ≤ kMaxSequenceNumber) (userKey : Bytes) : ∃ newest,
      Highest (fun e => internalTag e.key)
        {e | db.Holds e ∧ isSeen ucmp userKey snapshot e = true} newest ∧
      ((db.lookup ucmp (some snapshot) userKey).status,
        (db.lookup ucmp (some snapshot) userKey).value) = answer newest := by
  obtain ⟨found, hfound, hget⟩ := h.layered.get_highest hsnapshot userKey
  have hmem := h.mem.highest userKey snapshot
  -- newer entries have larger tags
  have hbelow : ∀ {newer older : List TableEntry} {a b : TableEntry},
      Version.NewerThan ucmp newer older →
      a ∈ {e | e ∈ newer ∧ isSeen ucmp userKey snapshot e = true} → b ∈ older →
      isSeen ucmp userKey snapshot b = true → internalTag b.key ≤ internalTag a.key :=
    fun hnewer ha hb hseen => Nat.le_of_lt (hnewer.internalTag_lt ha.1 hb ha.2 hseen)
  have himm : Highest (fun e => internalTag e.key)
      {e | (∃ imm ∈ db.imm, e ∈ imm) ∧ isSeen ucmp userKey snapshot e = true}
      (db.imm.bind (newestSeen ucmp userKey snapshot)) := by
    cases himm : db.imm with
    | none =>
      refine Set.eq_empty_of_forall_notMem fun e => ?_
      rintro ⟨⟨imm, hmem, -⟩, -⟩
      cases hmem
    | some imm =>
      have hset : {e | (∃ imm' ∈ some imm, e ∈ imm') ∧ isSeen ucmp userKey snapshot e = true} =
          {e | e ∈ imm ∧ isSeen ucmp userKey snapshot e = true} := by
        ext e
        simp
      rw [hset]
      exact (h.imm imm himm).highest userKey snapshot
  refine ⟨(newestSeen ucmp userKey snapshot db.mem).or
    ((db.imm.bind (newestSeen ucmp userKey snapshot)).or found), ?_, ?_⟩
  · have hdeep := himm.orElse hfound (by
      rintro a ha b ⟨level, f, hf, hb, hseen⟩
      obtain ⟨⟨imm, himm', ha'⟩, hseen'⟩ := himm.mem ha
      exact hbelow (h.immTable imm himm' level f hf) ⟨ha', hseen'⟩ hb hseen)
    have hall := hmem.orElse hdeep (by
      rintro a ha b (⟨⟨imm, himm', hb⟩, hseen⟩ | ⟨level, f, hf, hb, hseen⟩)
      · exact hbelow (h.memImm imm himm') (hmem.mem ha) hb hseen
      · exact hbelow (h.memTable level f hf) (hmem.mem ha) hb hseen)
    refine (congrArg (fun s => Highest _ s _) (Set.ext fun e => ?_)).mp hall
    simp only [Set.mem_union, Set.mem_ofPred_eq, ReadState.Holds, Version.seenAt]
    constructor
    · rintro (⟨he, hseen⟩ | ⟨he, hseen⟩ | ⟨level, f, hf, he, hseen⟩)
      · exact ⟨.inl he, hseen⟩
      · exact ⟨.inr (.inl he), hseen⟩
      · exact ⟨.inr (.inr ⟨level, f, hf, he⟩), hseen⟩
    · rintro ⟨he | he | ⟨level, f, hf, he⟩, hseen⟩
      · exact .inl ⟨he, hseen⟩
      · exact .inr (.inl ⟨he, hseen⟩)
      · exact .inr (.inr ⟨level, f, hf, he, hseen⟩)
  · have hsplit : db.lookup ucmp (some snapshot) userKey =
        (memTableGet ucmp db.mem userKey snapshot).getD
          ((db.imm.bind fun imm => memTableGet ucmp imm userKey snapshot).getD
            (db.current.get ucmp db.tables userKey snapshot)) := by
      rw [ReadState.lookup, Option.getD_some]
      cases memTableGet ucmp db.mem userKey snapshot with
      | none => rfl
      | some r => rfl
    rw [hsplit]
    refine memTableGet_orElse h.mem hsnapshot userKey _ ?_
    cases himm' : db.imm with
    | none => exact hget
    | some imm => exact memTableGet_orElse (h.imm imm himm') hsnapshot userKey _ hget

/-- A read of entries that have what the reader is to see answers as the history. -/
theorem ReadState.Stacked.lookup_eq_readAt (h : db.Stacked ucmp)
    (hsnapshot : snapshot ≤ kMaxSequenceNumber) (hfit : Fitting history)
    (hwrote : ∀ e, db.Holds e → Wrote history e)
    (hcovers : Covers ucmp history db.Holds snapshot userKey) :
    ((db.lookup ucmp (some snapshot) userKey).status,
        (db.lookup ucmp (some snapshot) userKey).value) = readAt ucmp history snapshot userKey := by
  obtain ⟨newest, hhighest, hlookup⟩ := h.lookup_highest hsnapshot userKey
  rw [hlookup]
  exact hcovers.answer_eq hfit hwrote hhighest

end Search

end WiscKey
