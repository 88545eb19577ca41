import WiscKey.ValueLog.AppendOnly
import WiscKey.Library.Runs

/-!
# What a call does to the other keys

A get depends on the text under its key and on the record that the text gives. Deletes and the
collector change neither for another key. A set writes the store's own key beside its own, and
writes its record where the file position is: over the record of another key if that starts there.
-/

namespace WiscKey

/-- What a get hands back: its two strings and its return; the third string is scratch space. -/
def getResult (env : CallEnv) (wk : WK) (key value accvalue : Bytes) :
    Option (Bytes × Bytes × GetReturn) :=
  (wisckeyGet env wk ⟨key, value, accvalue⟩).map fun r => (r.2.1.key, r.2.1.value, r.2.2)

/-- Every get of the key has the same result in both stores. -/
def SameGets (wk wk' : WK) (key : Bytes) : Prop :=
  ∀ env value accvalue, getResult env wk key value accvalue = getResult env wk' key value accvalue

namespace LogCall

/-- The store that a call leaves, if it comes back. -/
def perform (wk : WK) : LogCall → Option WK
  | .set env key value accvalue => (wisckeySet env wk ⟨key, value, accvalue⟩).map Prod.fst
  | .get env key value accvalue => (wisckeyGet env wk ⟨key, value, accvalue⟩).map Prod.fst
  | .del env key value accvalue => (wisckeyDel env wk ⟨key, value, accvalue⟩).map Prod.fst
  | .gc env args => (doLogfileGC env wk args).map Prod.fst

/-- The key that a call is to change. -/
def target : LogCall → Option Bytes
  | .set _ key _ _ => some key
  | .get _ _ _ _ => none
  | .del _ key _ _ => some key
  | .gc _ _ => none

/-- A set of a store without the store's own key puts that key in. A set at the position where the
record of the other key starts has to write what a get of that key reads there already. -/
def Spares (wk : WK) (other : Bytes) : LogCall → Prop
  | .set env key _ _ =>
    (other = headkey → (leveldbGet wk.lab2 headkey).isSome) ∧
      (recordedOffset wk other = some wk.logfile.pos →
        ((wk.logfile.contents.drop wk.logfile.pos).take sizeofString).take other.length =
            (cBuffer key env.beyondKey sizeofString).take other.length ∧
          (wk.logfile.contents.drop (wk.logfile.pos + sizeofString)).take sizeofString =
            cBuffer (vlogValue wk.logfile.pos sizeofString) env.beyondText sizeofString)
  | .get _ _ _ _ | .del _ _ _ _ | .gc _ _ => True

end LogCall

/-- Calls that come back, one after the other. -/
abbrev LogRun : WK → List LogCall → WK → Prop := Run fun wk call wk' => call.perform wk = some wk'

section Writes

variable {f : LogFile}

/-- Writing inside the file or at its end. -/
theorem LogFile.fwrite_of_le (h : f.pos ≤ f.contents.length) (bytes : Bytes) :
    f.fwrite bytes = ⟨f.contents.take f.pos ++ bytes ++ f.contents.drop (f.pos + bytes.length),
      f.pos + bytes.length⟩ := by
  rw [LogFile.fwrite, Nat.sub_eq_zero_of_le h]
  simp

/-- Two writes in a row are one. -/
theorem LogFile.fwrite_fwrite (h : f.pos ≤ f.contents.length) (a b : Bytes) :
    (f.fwrite a).fwrite b = f.fwrite (a ++ b) := by
  have hnext : (f.fwrite a).pos ≤ (f.fwrite a).contents.length := by
    rw [fwrite_of_le h]
    simp only [List.length_append, List.length_take, List.length_drop]
    omega
  have htake : (f.contents.take f.pos ++ a).length = f.pos + a.length := by
    rw [List.length_append, List.length_take, Nat.min_eq_left h]
  rw [fwrite_of_le hnext, fwrite_of_le h, fwrite_of_le h]
  simp only [LogFile.mk.injEq, List.length_append, ← Nat.add_assoc, and_true]
  rw [List.take_append_of_le_length htake.ge, List.take_of_length_le htake.le,
    List.drop_append, htake, List.drop_drop,
    List.drop_eq_nil_of_le (by rw [htake]; exact Nat.le_add_right _ _)]
  simp [Nat.add_assoc]

variable {bytes : Bytes} {offset : Nat}

/-- What was written is there. -/
theorem LogFile.record_fwrite_self (bytes : Bytes) (h : f.pos ≤ f.contents.length)
    (hsize : bytes.length = recordSize) :
    ((f.fwrite bytes).contents.drop f.pos).take recordSize = bytes := by
  have htake : (f.contents.take f.pos).length = f.pos := by
    rw [List.length_take, Nat.min_eq_left h]
  rw [fwrite_of_le h, List.append_assoc, List.drop_append_of_le_length htake.ge,
    List.drop_eq_nil_of_le htake.le, List.nil_append, ← hsize, List.take_left]

/-- The records before and behind it are as they were. -/
theorem LogFile.record_fwrite_of_ne (h : f.pos ≤ f.contents.length)
    (hsize : bytes.length = recordSize)
    (hapart : offset + recordSize ≤ f.pos ∨ f.pos + recordSize ≤ offset) :
    ((f.fwrite bytes).contents.drop offset).take recordSize =
      (f.contents.drop offset).take recordSize := by
  have htake : (f.contents.take f.pos).length = f.pos := by
    rw [List.length_take, Nat.min_eq_left h]
  rw [fwrite_of_le h, hsize]
  rcases hapart with hbefore | hbehind
  · rw [List.append_assoc, List.drop_append_of_le_length (by omega),
      List.take_append_of_le_length (by rw [List.length_drop]; omega), List.drop_take,
      List.take_take, Nat.min_eq_left (by omega)]
  · have hfront : (f.contents.take f.pos ++ bytes).length = f.pos + recordSize := by
      rw [List.length_append, htake, hsize]
    rw [List.drop_append, List.drop_eq_nil_of_le (by omega), List.nil_append, hfront,
      List.drop_drop]
    congr 2
    omega

theorem LogFile.length_fwrite_le (bytes : Bytes) (h : f.pos ≤ f.contents.length) :
    f.contents.length ≤ (f.fwrite bytes).contents.length ∧
      f.pos + bytes.length ≤ (f.fwrite bytes).contents.length ∧
      (f.fwrite bytes).contents.length ≤ f.contents.length + bytes.length := by
  rw [fwrite_of_le h]
  simp only [List.length_append, List.length_take, List.length_drop]
  omega

/-- The two fields of a record. -/
theorem record_fields (contents : Bytes) (offset : Nat) :
    (contents.drop offset).take sizeofString =
        ((contents.drop offset).take recordSize).take sizeofString ∧
      (contents.drop (offset + sizeofString)).take sizeofString =
        ((contents.drop offset).take recordSize).drop sizeofString := by
  rw [List.take_take, List.drop_take, List.drop_drop]
  exact ⟨rfl, rfl⟩

/-- Strings that are written over another differ where they show. -/
theorem overwrite_eq_iff {s a b : Bytes} (h : a.length = b.length) :
    overwrite s a = overwrite s b ↔ a.take s.length = b.take s.length := by
  rw [overwrite, overwrite, h, List.append_left_inj]

end Writes

namespace WK

variable {wk wk' : WK} {key other : Bytes}

/-- What holds of the store between two calls: the text under a key gives a record of the log, the
text under the store's own key is a number, and the position is between two records. -/
structure RecordsOk (wk : WK) : Prop where
  addressTexts : AddressTexts wk.lab2
  buffers : wk.lab2.vtable.Buffers
  recorded : ∀ key, key ≠ headkey → (leveldbGet wk.lab2 key).isSome → ∃ offset,
    wk.lab2.Holds key (vlogValue offset sizeofString) ∧
      offset + recordSize ≤ wk.logfile.contents.length ∧ recordSize ∣ offset
  head : (leveldbGet wk.lab2 headkey).isSome → ∃ n, wk.lab2.Holds headkey (toDecimal n)
  pos_le : wk.logfile.pos ≤ wk.logfile.contents.length
  pos_dvd : recordSize ∣ wk.logfile.pos

theorem recordsOk_openWisckey : RecordsOk openWisckey where
  addressTexts := Follows.openWisckey.addressTexts
  buffers := VTable.buffers_empty
  recorded := fun _ _ h => nomatch h
  head := fun h => nomatch h
  pos_le := le_rfl
  pos_dvd := ⟨0, rfl⟩

namespace RecordsOk

/-- The two strings that a set writes. -/
def setRecord (wk : WK) (env : CallEnv) (key : Bytes) : Bytes :=
  cBuffer key env.beyondKey sizeofString ++
    cBuffer (vlogValue wk.logfile.pos sizeofString) env.beyondText sizeofString

theorem length_setRecord (env : CallEnv) : (setRecord wk env key).length = recordSize := by
  rw [setRecord, List.length_append, length_cBuffer, length_cBuffer]
  rfl

/-- A set puts its text and the head into the stores, and one record into the log. -/
theorem set_eq (h : RecordsOk wk) (env : CallEnv) {value accvalue : Bytes}
    (hset : (LogCall.set env key value accvalue).perform wk = some wk') :
    wk'.lab2 = leveldbSet (leveldbSet wk.lab2 env.freshKey key
        (vlogValue wk.logfile.pos sizeofString)) env.freshHead headkey
          (toDecimal (wk.logfile.pos + sizeofString)) ∧
      wk'.logfile = wk.logfile.fwrite (setRecord wk env key) := by
  obtain ⟨wk₁, args', hok, hlab, hfile⟩ := wisckeySet_eq h.addressTexts env ⟨key, value, accvalue⟩
  rw [LogCall.perform, hok] at hset
  obtain rfl : wk₁ = wk' := Option.some.inj hset
  exact ⟨hlab, by rw [hfile, LogFile.fwrite_fwrite h.pos_le]; rfl⟩

/-- The stores after a set. -/
theorem leveldbGet_set (h : RecordsOk wk) (env : CallEnv) {value accvalue : Bytes}
    (hset : (LogCall.set env key value accvalue).perform wk = some wk') (hother : other ≠ key)
    (hhead : other ≠ headkey) :
    leveldbGet wk'.lab2 other = leveldbGet wk.lab2 other ∧
      ∀ text, wk.lab2.Holds other text → wk'.lab2.Holds other text := by
  obtain ⟨hlab, -⟩ := h.set_eq env hset
  obtain ⟨a, hfirst⟩ := leveldbSet_db wk.lab2 env.freshKey key
    (vlogValue wk.logfile.pos sizeofString)
  obtain ⟨b, hsecond⟩ := leveldbSet_db (leveldbSet wk.lab2 env.freshKey key
    (vlogValue wk.logfile.pos sizeofString)) env.freshHead headkey
      (toDecimal (wk.logfile.pos + sizeofString))
  rw [hlab]
  refine ⟨?_, fun text hholds => (hholds.leveldbSet_of_ne hother).leveldbSet_of_ne hhead⟩
  rw [leveldbGet, hsecond, AList.lookup_insert_ne hhead, hfirst, AList.lookup_insert_ne hother,
    leveldbGet]

/-- A set keeps the records. -/
theorem set (h : RecordsOk wk) (env : CallEnv) {value accvalue : Bytes}
    (hset : (LogCall.set env key value accvalue).perform wk = some wk')
    (hmalloc : wk.lab2.vtable.Allocates key env.freshKey)
    (hhead : (leveldbSet wk.lab2 env.freshKey key
      (vlogValue wk.logfile.pos sizeofString)).vtable.Allocates headkey env.freshHead) :
    RecordsOk wk' ∧
      wk'.logfile.contents.length ≤ wk.logfile.contents.length + recordSize := by
  obtain ⟨hlab, hfile⟩ := h.set_eq env hset
  obtain ⟨hgrow, hend, hbound⟩ := LogFile.length_fwrite_le (setRecord wk env key) h.pos_le
  have hpos : wk'.logfile.pos = wk.logfile.pos + recordSize := by
    rw [hfile, LogFile.fwrite_of_le h.pos_le, length_setRecord]
  rw [length_setRecord, ← hfile] at hend hbound
  rw [← hfile] at hgrow
  obtain ⟨a, hfirst⟩ := leveldbSet_db wk.lab2 env.freshKey key
    (vlogValue wk.logfile.pos sizeofString)
  obtain ⟨b, hsecond⟩ := leveldbSet_db (leveldbSet wk.lab2 env.freshKey key
    (vlogValue wk.logfile.pos sizeofString)) env.freshHead headkey
      (toDecimal (wk.logfile.pos + sizeofString))
  refine ⟨⟨?_, ?_, ?_, ?_, hpos ▸ hend, hpos ▸ Nat.dvd_add h.pos_dvd (Nat.dvd_refl _)⟩, hbound⟩
  · have htexts := (h.addressTexts.insert wk.lab2.vtable key a).insert wk'.lab2.vtable headkey b
    have hdb : wk'.lab2.db = (wk.lab2.db.insert key (addrToStr a)).insert headkey (addrToStr b) := by
      rw [hlab, hsecond, hfirst]
    rwa [← hdb] at htexts
  · rw [hlab]
    exact Lab2.buffers_leveldbSet (Lab2.buffers_leveldbSet h.buffers hmalloc) hhead
  · intro other hne hsome
    rcases eq_or_ne other key with rfl | hkey
    · refine ⟨wk.logfile.pos, ?_, hend, h.pos_dvd⟩
      rw [hlab]
      exact Lab2.holds_leveldbSet.leveldbSet_of_ne hne
    · obtain ⟨hget, hholds⟩ := h.leveldbGet_set env hset hkey hne
      obtain ⟨offset, hold, hle, hdvd⟩ := h.recorded other hne (hget ▸ hsome)
      exact ⟨offset, hholds _ hold, hle.trans hgrow, hdvd⟩
  · intro _
    rw [hlab]
    exact ⟨_, Lab2.holds_leveldbSet⟩

/-- What the collector and a get leave. -/
theorem congr (h : RecordsOk wk) (hlab : wk'.lab2 = wk.lab2)
    (hcontents : wk'.logfile.contents = wk.logfile.contents)
    (hle : wk'.logfile.pos ≤ wk.logfile.contents.length) (hdvd : recordSize ∣ wk'.logfile.pos) :
    RecordsOk wk' where
  addressTexts := hlab ▸ h.addressTexts
  buffers := hlab ▸ h.buffers
  recorded := by
    rw [hlab, hcontents]
    exact h.recorded
  head := hlab ▸ h.head
  pos_le := hcontents ▸ hle
  pos_dvd := hdvd

/-- The stores and the log after a delete. -/
theorem del_eq (h : RecordsOk wk) (env : CallEnv) {value accvalue : Bytes}
    (hdel : (LogCall.del env key value accvalue).perform wk = some wk') :
    wk'.lab2 = leveldbDel wk.lab2 key ∧ wk'.logfile = wk.logfile := by
  obtain ⟨wk₁, args', hok, hlab, hfile⟩ := wisckeyDel_eq h.addressTexts env ⟨key, value, accvalue⟩
  rw [LogCall.perform, hok] at hdel
  obtain rfl : wk₁ = wk' := Option.some.inj hdel
  exact ⟨hlab, hfile⟩

theorem leveldbGet_del (hlab : wk'.lab2 = leveldbDel wk.lab2 key) (hother : other ≠ key) :
    leveldbGet wk'.lab2 other = leveldbGet wk.lab2 other := by
  rw [leveldbGet, hlab, leveldbDel_db, AList.lookup_erase_ne hother, leveldbGet]

/-- A delete keeps the records. -/
theorem del (h : RecordsOk wk) (hlab : wk'.lab2 = leveldbDel wk.lab2 key)
    (hfile : wk'.logfile = wk.logfile) : RecordsOk wk' := by
  have hother : ∀ k, (leveldbGet wk'.lab2 k).isSome → k ≠ key := by
    rintro k hsome rfl
    rw [leveldbGet, hlab, leveldbDel_db, AList.lookup_erase] at hsome
    cases hsome
  refine ⟨?_, ?_, ?_, ?_, hfile ▸ h.pos_le, hfile ▸ h.pos_dvd⟩
  · intro k text hk
    have hne := hother k (by rw [leveldbGet, hk]; rfl)
    rw [hlab, leveldbDel_db, AList.lookup_erase_ne hne] at hk
    exact h.addressTexts k text hk
  · rw [hlab]
    exact Lab2.buffers_leveldbDel h.buffers
  · intro k hk hsome
    have hne := hother k hsome
    rw [leveldbGet_del hlab hne] at hsome
    obtain ⟨offset, hholds, hle, hdvd⟩ := h.recorded k hk hsome
    rw [hlab, hfile]
    exact ⟨offset, hholds.leveldbDel_of_ne hne, hle, hdvd⟩
  · intro hsome
    have hne := hother headkey hsome
    rw [leveldbGet_del hlab hne] at hsome
    obtain ⟨n, hn⟩ := h.head hsome
    rw [hlab]
    exact ⟨n, hn.leveldbDel_of_ne hne⟩

/-- The stores and the log after a collection. -/
theorem gc_eq (h : RecordsOk wk) {env : CallEnv} {args : Args}
    (hgc : (LogCall.gc env args).perform wk = some wk') : ∃ gc, wk' = { wk with gc } := by
  obtain ⟨gc, key, accvalue, hok⟩ := doLogfileGC_eq h.addressTexts env args
  rw [LogCall.perform, hok] at hgc
  exact ⟨gc, (Option.some.inj hgc).symm⟩

/-- What a get of the three kinds of keys hands back. -/
theorem getResult_eq (h : RecordsOk wk) (hfits : wk.logfile.contents.length < 2 ^ 63)
    (env : CallEnv) (key value accvalue : Bytes) :
    (leveldbGet wk.lab2 key = none →
        getResult env wk key value accvalue = some (key, value, .returned false)) ∧
      ((leveldbGet wk.lab2 headkey).isSome → getResult env wk headkey value accvalue = none) ∧
      ∀ offset, wk.lab2.Holds key (vlogValue offset sizeofString) →
        offset + recordSize ≤ wk.logfile.contents.length →
        getResult env wk key value accvalue = some
          (overwrite key ((wk.logfile.contents.drop offset).take sizeofString),
            overwrite value ((wk.logfile.contents.drop (offset + sizeofString)).take sizeofString),
            .indeterminate) := by
  refine ⟨fun hnone => ?_, fun hsome => ?_, fun offset hholds hle => ?_⟩
  · obtain ⟨gc, key', accvalue', hgc⟩ := doLogfileGC_eq h.addressTexts env ⟨key, value, accvalue⟩
    simp [getResult, wisckeyGet, hgc, hnone]
  · obtain ⟨n, hn⟩ := h.head hsome
    rw [getResult, wisckeyGet_number h.addressTexts h.buffers env ⟨headkey, value, accvalue⟩ hn]
    rfl
  · obtain ⟨gc, accvalue', hget⟩ := wisckeyGet_recorded h.addressTexts h.buffers env
      ⟨key, value, accvalue⟩ hholds hle hfits
    rw [getResult, hget]
    rfl

/-- What a get leaves of the stores and the log. -/
theorem get_eq (h : RecordsOk wk) (hfits : wk.logfile.contents.length < 2 ^ 63) (env : CallEnv)
    {value accvalue : Bytes} (hget : (LogCall.get env key value accvalue).perform wk = some wk') :
    wk'.lab2 = wk.lab2 ∧ wk'.logfile.contents = wk.logfile.contents ∧
      wk'.logfile.pos ≤ wk.logfile.contents.length ∧ recordSize ∣ wk'.logfile.pos := by
  rw [LogCall.perform] at hget
  by_cases hsome : (leveldbGet wk.lab2 key).isSome
  · by_cases hkey : key = headkey
    · obtain ⟨n, hn⟩ := h.head (hkey ▸ hsome)
      rw [wisckeyGet_number h.addressTexts h.buffers env ⟨key, value, accvalue⟩
        (hkey.symm ▸ hn)] at hget
      cases hget
    · obtain ⟨offset, hholds, hle, hdvd⟩ := h.recorded key hkey hsome
      obtain ⟨gc, accvalue', hok⟩ := wisckeyGet_recorded h.addressTexts h.buffers env
        ⟨key, value, accvalue⟩ hholds hle hfits
      rw [hok] at hget
      obtain rfl := Option.some.inj hget
      exact ⟨rfl, rfl, hle, Nat.dvd_add hdvd (Nat.dvd_refl _)⟩
  · rw [Option.not_isSome_iff_eq_none] at hsome
    obtain ⟨gc, key', accvalue', hgc⟩ := doLogfileGC_eq h.addressTexts env ⟨key, value, accvalue⟩
    have hok : (wisckeyGet env wk ⟨key, value, accvalue⟩).map Prod.fst = some { wk with gc } := by
      simp [wisckeyGet, hgc, hsome]
    rw [hok] at hget
    obtain rfl := Option.some.inj hget
    exact ⟨rfl, rfl, h.pos_le, h.pos_dvd⟩

/-- A call keeps the records, and makes the log longer by at most one. -/
theorem perform (h : RecordsOk wk) (hfits : wk.logfile.contents.length < 2 ^ 63) {call : LogCall}
    (hmalloc : Allocates wk [call]) (hcall : call.perform wk = some wk') :
    RecordsOk wk' ∧
      wk'.logfile.contents.length ≤ wk.logfile.contents.length + recordSize := by
  cases call with
  | set env key value accvalue =>
    obtain ⟨hkey, hhead, -⟩ := hmalloc
    exact h.set env hcall hkey hhead
  | get env key value accvalue =>
    obtain ⟨hlab, hcontents, hle, hdvd⟩ := h.get_eq hfits env hcall
    exact ⟨h.congr hlab hcontents hle hdvd, by rw [hcontents]; exact Nat.le_add_right _ _⟩
  | del env key value accvalue =>
    obtain ⟨hlab, hfile⟩ := h.del_eq env hcall
    exact ⟨h.del hlab hfile, by rw [hfile]; exact Nat.le_add_right _ _⟩
  | gc env args =>
    obtain ⟨gc, rfl⟩ := h.gc_eq hcall
    exact ⟨h.congr rfl rfl h.pos_le h.pos_dvd, Nat.le_add_right _ _⟩

/-- A key whose text stays, with the record it gives, has the same gets. -/
theorem sameGets (h : RecordsOk wk) (hfits : wk.logfile.contents.length < 2 ^ 63)
    (h' : RecordsOk wk') (hfits' : wk'.logfile.contents.length < 2 ^ 63)
    (hget : leveldbGet wk'.lab2 other = leveldbGet wk.lab2 other)
    (hholds : ∀ text, wk.lab2.Holds other text → wk'.lab2.Holds other text)
    (hgrow : wk.logfile.contents.length ≤ wk'.logfile.contents.length)
    (hrecord : ∀ offset, wk.lab2.Holds other (vlogValue offset sizeofString) →
      recordSize ∣ offset → (wk'.logfile.contents.drop offset).take recordSize =
        (wk.logfile.contents.drop offset).take recordSize) : SameGets wk wk' other := by
  intro env value accvalue
  obtain ⟨hdead, hhead, hlive⟩ := h.getResult_eq hfits env other value accvalue
  obtain ⟨hdead', hhead', hlive'⟩ := h'.getResult_eq hfits' env other value accvalue
  by_cases hsome : (leveldbGet wk.lab2 other).isSome
  · by_cases hkey : other = headkey
    · subst hkey
      rw [hhead hsome, hhead' (hget ▸ hsome)]
    · obtain ⟨offset, hold, hle, hdvd⟩ := h.recorded other hkey hsome
      obtain ⟨hkeyField, htextField⟩ := record_fields wk.logfile.contents offset
      obtain ⟨hkeyField', htextField'⟩ := record_fields wk'.logfile.contents offset
      rw [hlive offset hold hle, hlive' offset (hholds _ hold) (hle.trans hgrow), hkeyField,
        htextField, hkeyField', htextField', hrecord offset hold hdvd]
  · rw [Option.not_isSome_iff_eq_none] at hsome
    rw [hdead hsome, hdead' (hget.trans hsome)]

/-- A set leaves the gets of another key exactly when it spares it. -/
theorem sameGets_set_iff (h : RecordsOk wk) (hfits : wk.logfile.contents.length < 2 ^ 63)
    (h' : RecordsOk wk') (hfits' : wk'.logfile.contents.length < 2 ^ 63) (env : CallEnv)
    {value accvalue : Bytes} (hother : other ≠ key)
    (hset : (LogCall.set env key value accvalue).perform wk = some wk') :
    SameGets wk wk' other ↔ (LogCall.set env key value accvalue).Spares wk other := by
  obtain ⟨hlab, hfile⟩ := h.set_eq env hset
  simp only [LogCall.Spares]
  by_cases hhead : other = headkey
  · -- a get of the store's own key goes from not found to not coming back
    subst hhead
    have hset : wk'.lab2.Holds headkey (toDecimal (wk.logfile.pos + sizeofString)) := by
      rw [hlab]
      exact Lab2.holds_leveldbSet
    have hhead' : (leveldbGet wk'.lab2 headkey).isSome := by
      obtain ⟨e, i, v, -, -, -, hdb⟩ := hset
      rw [leveldbGet, hdb]
      rfl
    by_cases hsome : (leveldbGet wk.lab2 headkey).isSome
    · obtain ⟨n, hn⟩ := h.head hsome
      refine iff_of_true (fun getEnv value accvalue => ?_) ⟨fun _ => hsome, fun hoffset => ?_⟩
      · rw [(h.getResult_eq hfits getEnv headkey value accvalue).2.1 hsome,
          (h'.getResult_eq hfits' getEnv headkey value accvalue).2.1 hhead']
      · rw [recordedOffset_toDecimal h.buffers hn] at hoffset
        cases hoffset
    · refine iff_of_false (fun hsame => ?_) fun hspares => hsome (hspares.1 rfl)
      have hgets := hsame env [] []
      rw [(h.getResult_eq hfits env headkey [] []).1 (Option.not_isSome_iff_eq_none.mp hsome),
        (h'.getResult_eq hfits' env headkey [] []).2.1 hhead'] at hgets
      cases hgets
  obtain ⟨hget, hholds⟩ := h.leveldbGet_set env hset hother hhead
  have hgrow := (LogFile.length_fwrite_le (setRecord wk env key) h.pos_le).1
  rw [← hfile] at hgrow
  by_cases hpos : recordedOffset wk other = some wk.logfile.pos
  · have hsome : (leveldbGet wk.lab2 other).isSome := by
      cases hdb : leveldbGet wk.lab2 other with
      | none => simp [recordedOffset, hdb] at hpos
      | some text => rfl
    obtain ⟨offset, hold, hle, -⟩ := h.recorded other hhead hsome
    have hoffset := recordedOffset_vlogValue h.buffers (by omega) hold
    obtain rfl : offset = wk.logfile.pos := Option.some.inj (hoffset.symm.trans hpos)
    have hrecord := LogFile.record_fwrite_self (setRecord wk env key) h.pos_le
      (length_setRecord env)
    obtain ⟨hkeyField, htextField⟩ := record_fields wk'.logfile.contents wk.logfile.pos
    rw [hfile, hrecord, ← hfile, setRecord, List.take_left' (length_cBuffer ..)] at hkeyField
    rw [hfile, hrecord, ← hfile, setRecord, List.drop_left' (length_cBuffer ..)] at htextField
    have hlength : ∀ n, n + sizeofString ≤ wk.logfile.contents.length →
        ((wk.logfile.contents.drop n).take sizeofString).length = sizeofString := by
      intro n hn
      rw [List.length_take, List.length_drop]
      omega
    have hsizes : recordSize = sizeofString + sizeofString := by decide
    have hkeyLength := hlength wk.logfile.pos (by omega)
    have htextLength := hlength (wk.logfile.pos + sizeofString) (by omega)
    have hresult := fun getEnv value accvalue =>
      (h.getResult_eq hfits getEnv other value accvalue).2.2 wk.logfile.pos hold hle
    have hresult' := fun getEnv value accvalue =>
      (h'.getResult_eq hfits' getEnv other value accvalue).2.2
      wk.logfile.pos (hholds _ hold) (hle.trans hgrow)
    simp only [SameGets, hresult, hresult', hkeyField, htextField, Option.some.injEq,
      Prod.mk.injEq, and_true]
    constructor
    · intro hsame
      refine ⟨fun heq => absurd heq hhead, fun _ => ?_⟩
      obtain ⟨hkeySame, htextSame⟩ := hsame env (List.replicate sizeofString 0) []
      rw [overwrite_eq_iff (by rw [hkeyLength, length_cBuffer])] at hkeySame
      rw [overwrite_eq_iff (by rw [htextLength, length_cBuffer]), List.length_replicate,
        List.take_of_length_le htextLength.le,
        List.take_of_length_le (length_cBuffer ..).le] at htextSame
      exact ⟨hkeySame, htextSame⟩
    · rintro ⟨-, hspares⟩ _ value' _
      obtain ⟨hkeySame, htextSame⟩ := hspares hoffset
      rw [overwrite_eq_iff (by rw [hkeyLength, length_cBuffer]), htextSame]
      exact ⟨hkeySame, rfl⟩
  · refine iff_of_true (h.sameGets hfits h' hfits' hget hholds hgrow fun offset hold hdvd => ?_)
      ⟨fun heq => absurd heq hhead, fun heq => absurd heq hpos⟩
    have hne : offset ≠ wk.logfile.pos := by
      rintro rfl
      exact hpos (recordedOffset_vlogValue h.buffers (h.pos_le.trans_lt hfits) hold)
    have hapart : offset + recordSize ≤ wk.logfile.pos ∨ wk.logfile.pos + recordSize ≤ offset := by
      obtain ⟨m, hm⟩ := hdvd
      obtain ⟨n, hn⟩ := h.pos_dvd
      have hsize : recordSize = 64 := rfl
      rw [hsize] at hm hn ⊢
      omega
    rw [hfile]
    exact LogFile.record_fwrite_of_ne h.pos_le (length_setRecord env) hapart

/-- A call leaves the gets of a key that it is not to change exactly when it spares it. -/
theorem sameGets_iff (h : RecordsOk wk) {call : LogCall} (hmalloc : Allocates wk [call])
    (hfits : wk.logfile.contents.length + recordSize < 2 ^ 63) (hother : call.target ≠ some other)
    (hcall : call.perform wk = some wk') : SameGets wk wk' other ↔ call.Spares wk other := by
  obtain ⟨h', hlength⟩ := h.perform (by omega) hmalloc hcall
  cases call with
  | set env key value accvalue =>
    exact h.sameGets_set_iff (by omega) h' (by omega) env
      (fun heq => hother (congrArg some heq.symm)) hcall
  | get env key value accvalue =>
    obtain ⟨hlab, hcontents, -, -⟩ := h.get_eq (by omega) env hcall
    refine iff_of_true (h.sameGets (by omega) h' (by omega) (by rw [hlab]) ?_ ?_ ?_) trivial
    · rw [hlab]
      exact fun text hholds => hholds
    · rw [hcontents]
    · rw [hcontents]
      exact fun offset _ _ => rfl
  | del env key value accvalue =>
    obtain ⟨hlab, hfile⟩ := h.del_eq env hcall
    have hne : other ≠ key := fun heq => hother (congrArg some heq.symm)
    refine iff_of_true (h.sameGets (by omega) h' (by omega) (leveldbGet_del hlab hne) ?_ ?_ ?_)
      trivial
    · rw [hlab]
      exact fun text hholds => hholds.leveldbDel_of_ne hne
    · rw [hfile]
    · rw [hfile]
      exact fun offset _ _ => rfl
  | gc env args =>
    obtain ⟨gc, rfl⟩ := h.gc_eq hcall
    exact iff_of_true (h.sameGets (by omega) h' (by omega) rfl (fun _ hholds => hholds) le_rfl
      fun _ _ _ => rfl) trivial

end RecordsOk

/-- What `malloc` is to do for a run, call by call. -/
theorem allocates_cons {call : LogCall} {calls : List LogCall} :
    Allocates wk (call :: calls) ↔
      Allocates wk [call] ∧ ∀ wk', call.perform wk = some wk' → Allocates wk' calls := by
  have hperform : ∀ {α : Type} (r : Option (WK × α)), (∀ wk', r.map Prod.fst = some wk' →
      Allocates wk' calls) ↔ ∀ wk' a, r = some (wk', a) → Allocates wk' calls := by
    intro α r
    cases r with
    | none => simp
    | some p => simp [Prod.ext_iff]
  cases call with
  | set env key value accvalue =>
    simp only [Allocates, LogCall.perform, hperform, implies_true, and_true, and_assoc]
  | get env key value accvalue =>
    simp only [Allocates, LogCall.perform, hperform, implies_true, true_and, Prod.forall]
  | del env key value accvalue =>
    simp only [Allocates, LogCall.perform, hperform, implies_true, true_and]
  | gc env args =>
    simp only [Allocates, LogCall.perform, hperform, implies_true, true_and]

/-- A run keeps the records, and what `malloc` did for it and the calls behind it. -/
theorem RecordsOk.run {calls : List LogCall} (hrun : LogRun wk calls wk') (h : RecordsOk wk)
    {more : List LogCall} (hmalloc : Allocates wk (calls ++ more))
    (hfits : wk.logfile.contents.length + recordSize * calls.length < 2 ^ 63) :
    RecordsOk wk' ∧ Allocates wk' more ∧
      wk'.logfile.contents.length ≤ wk.logfile.contents.length + recordSize * calls.length := by
  induction hrun with
  | nil => exact ⟨h, hmalloc, Nat.le_add_right _ _⟩
  | cons head tail ih =>
    rw [List.cons_append, allocates_cons] at hmalloc
    rw [List.length_cons, Nat.mul_succ] at hfits ⊢
    obtain ⟨h₁, hlength⟩ := h.perform (by omega) hmalloc.1 head
    obtain ⟨h', hmore, hlength'⟩ := ih h₁ (hmalloc.2 _ head) (by omega)
    exact ⟨h', hmore, by omega⟩

end WK

/-- In every store that calls lead to, a call leaves the gets of a key that it is not to change
exactly when it spares it. -/
theorem openWisckey_sameGets_iff {calls : List LogCall} {call : LogCall} {wk wk' : WK}
    {other : Bytes} (hrun : LogRun openWisckey calls wk)
    (hmalloc : Allocates openWisckey (calls ++ [call]))
    (hfits : recordSize * (calls.length + 1) < 2 ^ 63) (hother : call.target ≠ some other)
    (hcall : call.perform wk = some wk') : SameGets wk wk' other ↔ call.Spares wk other := by
  have hlength : openWisckey.logfile.contents.length = 0 := rfl
  rw [Nat.mul_succ] at hfits
  obtain ⟨h, hmalloc', hbound⟩ := WK.recordsOk_openWisckey.run hrun hmalloc (by omega)
  exact h.sameGets_iff hmalloc' (by omega) hother hcall

/-- A run that can be computed. -/
theorem LogRun.of_foldlM {calls : List LogCall} {wk wk' : WK}
    (h : calls.foldlM LogCall.perform wk = some wk') : LogRun wk calls wk' := by
  induction calls generalizing wk with
  | nil =>
    obtain rfl := Option.some.inj h
    exact .nil wk
  | cons call calls ih =>
    rw [List.foldlM_cons] at h
    obtain ⟨wk₁, hcall, hrest⟩ := Option.bind_eq_some_iff.mp h
    exact .cons hcall (ih hrest)

/-- A set behind the record of the key that was set before leaves its gets. -/
theorem openWisckey_sameGets_next : ∃ wk wk',
    LogRun openWisckey [.set (pagesEnv 0) (ascii ['a']) [] []] wk ∧
      (LogCall.set (pagesEnv 1) (ascii ['b']) [] []).perform wk = some wk' ∧
      SameGets wk wk' (ascii ['a']) := by
  obtain ⟨wk, hwk⟩ : ∃ wk, [LogCall.set (pagesEnv 0) (ascii ['a']) [] []].foldlM
      LogCall.perform openWisckey = some wk := Option.isSome_iff_exists.mp (by decide)
  have hrecorded : ([LogCall.set (pagesEnv 0) (ascii ['a']) [] []].foldlM
      LogCall.perform openWisckey).all fun wk =>
        recordedOffset wk (ascii ['a']) = some 0 ∧ wk.logfile.pos = 64 ∧
          ((LogCall.set (pagesEnv 1) (ascii ['b']) [] []).perform wk).isSome := by decide
  rw [hwk, Option.all_some, decide_eq_true_eq] at hrecorded
  obtain ⟨hoffset, hpos, hsome⟩ := hrecorded
  obtain ⟨wk', hcall⟩ := Option.isSome_iff_exists.mp hsome
  have hrun := LogRun.of_foldlM hwk
  refine ⟨wk, wk', hrun, hcall, (openWisckey_sameGets_iff hrun (by decide) (by decide) (by decide)
    hcall).mpr ⟨fun heq => absurd heq (by decide), fun heq => ?_⟩⟩
  rw [hoffset, hpos] at heq
  exact absurd heq (by decide)

/-- A set after a get of the older of two keys changes the gets of the other. -/
theorem openWisckey_set_disturbs :
    ¬ ∀ (calls : List LogCall) (call : LogCall) (wk wk' : WK) (other : Bytes),
      LogRun openWisckey calls wk → Allocates openWisckey (calls ++ [call]) →
      recordSize * (calls.length + 1) < 2 ^ 63 → call.target ≠ some other →
      call.perform wk = some wk' → SameGets wk wk' other := by
  intro hall
  let calls : List LogCall := [.set (pagesEnv 0) (ascii ['a']) [] [],
    .set (pagesEnv 1) (ascii ['b']) [] [], .get (pagesEnv 2) (ascii ['a']) [] []]
  let call : LogCall := .set (pagesEnv 3) (ascii ['c']) [] []
  obtain ⟨wk, hwk⟩ : ∃ wk, calls.foldlM LogCall.perform openWisckey = some wk :=
    Option.isSome_iff_exists.mp (by decide)
  have hrecord : (calls.foldlM LogCall.perform openWisckey).all fun wk =>
      (call.perform wk).isSome ∧ recordedOffset wk (ascii ['b']) = some wk.logfile.pos ∧
        ((wk.logfile.contents.drop wk.logfile.pos).take sizeofString).take 1 = ascii ['b'] := by
    decide
  rw [hwk, Option.all_some, decide_eq_true_eq] at hrecord
  obtain ⟨hsome, hoffset, hfield⟩ := hrecord
  obtain ⟨wk', hcall⟩ := Option.isSome_iff_exists.mp hsome
  have hrun := LogRun.of_foldlM hwk
  have hmalloc : Allocates openWisckey (calls ++ [call]) := by decide
  have hsame := hall calls call wk wk' (ascii ['b']) hrun hmalloc (by decide) (by decide) hcall
  have hlength : openWisckey.logfile.contents.length = 0 := rfl
  have hcalls : recordSize * calls.length < 2 ^ 62 := by decide
  have hsize : recordSize = 64 := rfl
  obtain ⟨h, hmalloc', hbound⟩ := WK.recordsOk_openWisckey.run hrun hmalloc (by omega)
  have hspares := ((h.sameGets_iff hmalloc' (by omega) (by decide) hcall).mp hsame).2 hoffset
  have hkeys := hfield.symm.trans hspares.1
  exact absurd hkeys (by decide)

end WiscKey
