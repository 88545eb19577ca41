import WiscKey.Iterator.DbIterOver

/-!
# Scans of a database

In every run whose compactions are uncut and clear, an iterator at a snapshot goes over the keys
whose last update in front of the snapshot puts a value, in their order and with these values.
-/

namespace WiscKey

open Version

variable {ucmp : Comparator} {maxFileSize s : Nat} {history : List Op} {db : Database}
  {actions : List DbAction} {m : List (Bytes × Bytes)} {e : TableEntry}

/-- The purpose of an iterator: the map of a snapshot has the keys whose last update in front of the
snapshot puts a value. -/
structure IsMapAt (ucmp : Comparator) (history : List Op) (snapshot : Nat)
    (m : List (Bytes × Bytes)) : Prop where
  increasing : Increasing ucmp.comparePair m
  mem : ∀ key value, (key, value) ∈ m ↔
    lastOf (Op.isFor ucmp key) history snapshot = some (.put key value)

/-- `NewIterator`, for the read state of a database. -/
def Database.newIterator (db : Database) : DBIterOver (MergedIter InternalChild) :=
  .new db.readState.newInternalIterator

section Map

/-- An update whose entry is a value puts it. -/
theorem Op.eq_put {op : Op} {sequence : Nat} (hfits : (op.entry sequence).Fits)
    (hvalue : IsValue (op.entry sequence).entry) :
    op = .put (extractUserKey (op.entry sequence).entry.key) (op.entry sequence).entry.value := by
  obtain ⟨ikey, hparse, htype⟩ := hvalue
  rw [Op.parse_entry hfits] at hparse
  obtain rfl := Option.some.inj hparse
  have huser := (parseInternalKey_spec (Op.parse_entry hfits)).1
  cases op with
  | delete key => cases htype
  | put key value =>
    have hlength : value.length < 2 ^ 32 := hfits.value
    have hentry : ((Op.put key value).entry sequence).entry.value = value := by
      simp only [Op.entry, MemEntry.entry, Nat.mod_eq_of_lt hlength, List.take_length]
    rw [← huser, hentry]
    rfl

/-- Entries of one user key are in the order of their tags, the greatest first. -/
theorem internalCompare_of_user_eq {a b : Bytes}
    (h : ucmp.compare (extractUserKey a) (extractUserKey b) = .eq) :
    ucmp.internalCompare a b = Ord.compare (internalTag b) (internalTag a) := by
  rw [Comparator.internalCompare, h]
  rfl

variable {entries : List TableEntry}

/-- The map of entries that have what readers are to see is that of the history. -/
theorem VisibleMap.isMapAt (hm : VisibleMap ucmp s entries m) (hfit : Fitting history)
    (hwrote : ∀ e ∈ entries, Wrote history e) (hincreasing : Increasing (compareKeys ucmp) entries)
    (hcovers : ∀ userKey, Covers ucmp history (· ∈ entries) s userKey) :
    IsMapAt ucmp history s m := by
  refine ⟨hm.increasing, fun key value => (hm.mem _).trans ⟨?_, fun hlast => ?_⟩⟩
  · rintro ⟨e, ⟨hnewest, hvalue⟩, hpair⟩
    obtain ⟨rfl, rfl⟩ := Prod.mk.inj hpair
    have hself : ucmp.compare (extractUserKey e.key) (extractUserKey e.key) = .eq :=
      Std.ReflCmp.compare_self
    have hseen := isSeen_iff_ofKey.mpr ⟨ofKey_iff.mpr hself, hnewest.visible⟩
    have hof := hwrote e hnewest.mem
    cases hlast : lastOf (Op.isFor ucmp (extractUserKey e.key)) history s with
    | none =>
      obtain ⟨place, op, hat, rfl⟩ := hof
      obtain ⟨hfor, hlt⟩ := (Op.isSeen_entry (hfit place op hat)).mp hseen
      rw [lastOf_eq_none_iff.mp hlast place op hlt hat] at hfor
      cases hfor
    | some op =>
      obtain ⟨place, hplace⟩ := lastOf_eq_some_iff.mp hlast
      have hfits := hfit place op hplace.at_
      rcases hof.eq_or_lt hfit hplace hseen with heq | hlt
      · rw [heq] at hvalue ⊢
        exact congrArg some (Op.eq_put hfits hvalue)
      · -- the newest entry would be older than that of the last update
        obtain ⟨hkey, hvisible⟩ := isSeen_iff_ofKey.mp
          ((Op.isSeen_entry hfits).mpr ⟨hplace.ofKey, hplace.lt⟩)
        have hmem := (hcovers _ place op hplace).resolve_right fun h => h.2 e hnewest.mem hseen
        have hle := hm.newest e hnewest _ hmem hvisible (ofKey_iff.mp hkey)
        rw [internalCompare_of_user_eq (Std.OrientedCmp.eq_symm (ofKey_iff.mp hkey))] at hle
        exact absurd (Nat.compare_eq_gt.mpr hlt) hle
  · obtain ⟨place, hplace⟩ := lastOf_eq_some_iff.mp hlast
    have hfits := hfit place _ hplace.at_
    have hmem := (hcovers key place _ hplace).resolve_right fun h => (by cases h.1)
    have hseen := (Op.isSeen_entry hfits).mpr ⟨hplace.ofKey, hplace.lt⟩
    have hparse := Op.parse_entry hfits
    have hvalue : IsValue ((Op.put key value).entry (place + 1)).entry := ⟨_, hparse, rfl⟩
    have heq := Op.eq_put hfits hvalue
    obtain ⟨hkey, hvisible⟩ := isSeen_iff_ofKey.mp hseen
    refine ⟨_, ⟨?_, hvalue⟩, ?_⟩
    · obtain ⟨before, after, hsplit⟩ := List.append_of_mem hmem
      refine ⟨before, after, hsplit, hvisible, fun f hf hfvisible hfkey => ?_⟩
      have hfmem : f ∈ entries := hsplit ▸ List.mem_append_left _ hf
      have hflt : compareKeys ucmp f ((Op.put key value).entry (place + 1)).entry = .lt := by
        rw [hsplit] at hincreasing
        exact (List.pairwise_append.mp hincreasing).2.2 f hf _ List.mem_cons_self
      have hfseen : isSeen ucmp key s f = true :=
        isSeen_iff_ofKey.mpr ⟨ofKey_iff.mpr (Std.TransCmp.eq_trans hfkey (ofKey_iff.mp hkey)),
          hfvisible⟩
      rw [compareKeys, internalCompare_of_user_eq hfkey, Nat.compare_eq_lt] at hflt
      rcases (hwrote f hfmem).eq_or_lt hfit hplace hfseen with rfl | hlt
      · exact Nat.lt_irrefl _ hflt
      · exact Nat.lt_asymm hflt hlt
    · rw [Op.put.injEq] at heq
      exact Prod.ext heq.1.symm heq.2.symm

end Map

section Scan

/-- An iterator at a snapshot goes over the map of the snapshot. -/
theorem Database.Ok.scan (h : db.Ok ucmp history) (hreads : db.Reads s)
    (hnumbers : db.nextFileNumber ≤ 2 ^ 64) : ∃ m, IsMapAt ucmp history s m ∧ ∀ calls,
      DBIterOver.AgreesWith ucmp s (db.readState.iterOps ucmp) (db.readState.entries ucmp).length m
        db.newIterator .invalid calls := by
  have hunion := h.stacked.isSortedUnion h.ranged.version
  have hsorted : SortedStream ucmp (db.readState.entries ucmp) :=
    hunion.increasing.imp fun hlt => by
      rw [show ucmp.internalCompare _ _ = .lt from hlt]
      exact Ordering.noConfusion
  have hholds : ∀ e, e ∈ db.readState.entries ucmp ↔ db.readState.Holds e :=
    fun e => h.stacked.mem_entries h.ranged.version
  have hsequence : s ≤ kMaxSequenceNumber :=
    (h.inserted ▸ h.le_of_reads hreads).trans (Nat.le_of_lt h.small)
  have hm := @exists_visibleMap ucmp s _ hsorted
  refine ⟨_, hm.isMapAt h.fit (fun e he => h.wrote e ((hholds e).mp he)) hunion.increasing
    fun userKey => ?_, fun calls => ?_⟩
  · have hcovers := h.covers s hreads userKey
    rwa [show db.readState.Holds = (· ∈ db.readState.entries ucmp) from
      funext fun e => propext (hholds e).symm] at hcovers
  · exact DBIterOver.new_agreesWith (h.stacked.follows_entries h.ranged.version hnumbers) hsorted hsequence hm
      le_rfl calls

/-- In every run whose compactions are uncut and clear, the internal iterator shows every entry of
the memtables and the tables once, in the order of the internal keys. -/
theorem Database.internal_of_orderly
    (hrun : Run (StepWhen (Database.Step ucmp maxFileSize) (Database.Orderly ucmp maxFileSize)) .new
      actions db) : ∃ entries : List TableEntry,
      Increasing (compareKeys ucmp) entries ∧ (∀ e, e ∈ entries ↔ db.readState.Holds e) ∧
      (db.readState.iterOps ucmp).Follows ucmp.internal (entries.map TableEntry.row)
        db.readState.newInternalIterator .invalid := by
  have hok := Database.ok_new.run hrun
  have hnumbers := Nat.le_of_lt (Database.nextFileNumber_lt hrun)
  exact ⟨_, (hok.stacked.isSortedUnion hok.ranged.version).increasing,
    fun e => hok.stacked.mem_entries hok.ranged.version, hok.stacked.follows_entries hok.ranged.version hnumbers⟩

theorem Database.internal_of_orderly_sample : ∃ db : Database, ∃ entries : List TableEntry,
    Increasing (compareKeys bytewiseComparator) entries ∧
      (∀ e, e ∈ entries ↔ db.readState.Holds e) ∧
      (db.readState.iterOps bytewiseComparator).Follows bytewiseComparator.internal
        (entries.map TableEntry.row) db.readState.newInternalIterator .invalid := by
  obtain ⟨db, hrun, -, db', hrest, -⟩ := plain_sampleStart
  obtain ⟨horderly, -⟩ := Database.orderly_of_plain (hrun.append hrest)
  exact ⟨db', Database.internal_of_orderly horderly⟩

/-- In every run whose compactions are uncut and clear, an iterator shows what a cursor over the map
of its snapshot shows, after any calls, and none of its loops looks at an entry twice. -/
theorem Database.scan_of_orderly
    (hrun : Run (StepWhen (Database.Step ucmp maxFileSize) (Database.Orderly ucmp maxFileSize)) .new
      actions db) {snapshot : Option Nat} (hsnapshot : ∀ s ∈ snapshot, s ∈ db.snapshots) : ∃ m,
      IsMapAt ucmp (updatesOf actions) (snapshot.getD db.lastSequence) m ∧ ∀ calls,
        DBIterOver.AgreesWith ucmp (snapshot.getD db.lastSequence) (db.readState.iterOps ucmp)
          (db.readState.entries ucmp).length m db.newIterator .invalid calls := by
  have hreads : db.Reads (snapshot.getD db.lastSequence) := by
    cases snapshot with
    | none => exact .inr rfl
    | some s => exact .inl (hsnapshot s rfl)
  exact (Database.ok_new.run hrun).scan hreads (Nat.le_of_lt (Database.nextFileNumber_lt hrun))

theorem Database.scan_of_orderly_sample : ∃ db : Database, ∃ m, IsMapAt bytewiseComparator
      (updatesOf (sampleStart ++ sampleRest)) 2 m ∧
    DBIterOver.AgreesWith bytewiseComparator 2 (db.readState.iterOps bytewiseComparator)
      (db.readState.entries bytewiseComparator).length m db.newIterator .invalid
      [.seekToFirst, .next, .seekToLast, .prev, .seek [1]] := by
  obtain ⟨db, hrun, -, db', hrest, hsnapshots, -⟩ := plain_sampleStart
  obtain ⟨horderly, -⟩ := Database.orderly_of_plain (hrun.append hrest)
  have hheld : ∀ s ∈ some 2, s ∈ db'.snapshots := by
    intro s hs
    rw [hsnapshots, ← Option.some.inj hs]
    exact List.mem_singleton_self 2
  obtain ⟨m, hm, hagrees⟩ := Database.scan_of_orderly horderly hheld
  exact ⟨db', m, hm, hagrees _⟩

end Scan

end WiscKey
