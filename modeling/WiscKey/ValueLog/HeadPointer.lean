import WiscKey.ValueLog.Frame

/-!
# The numbers that the collector reads back

A set hands the end of its key field to `leveldb_set` as the value of the key `head`. The engine
is given an address in place of the text, and the decimal parser reads every address as zero: the
collector finds the head of the log only as long as nothing was written.
-/

namespace WiscKey

/-- A store, the position just after the last record that a set wrote, and the number of
records collected. -/
structure LogHistory where
  wk : WK
  recordEnd : Nat
  collected : Nat

namespace LogCall

/-- The calls that write a record. -/
def isSet : LogCall → Bool
  | .set _ _ _ _ => true
  | .get _ _ _ _ | .del _ _ _ _ | .gc _ _ => false

/-- A call that comes back. None of them has collected a record: the collector comes back only
when it does not enter its loop. -/
def Records (s : LogHistory) (call : LogCall) (s' : LogHistory) : Prop :=
  call.perform s.wk = some s'.wk ∧
    s'.recordEnd = (if call.isSet then s'.wk.logfile.pos else s.recordEnd) ∧
    s'.collected = s.collected

end LogCall

/-- The history of the opened store. -/
def openedHistory : LogHistory := ⟨openWisckey, 0, 0⟩

/-- The collector parses both numbers, and finds the end of the last record and the number of
records collected. -/
def HeadRoundTrips (s : LogHistory) : Prop :=
  ∀ accvalue, ∃ text text', storedNumber s.wk.lab2 headkey accvalue = some (s.recordEnd, text) ∧
    storedNumber s.wk.lab2 gcKey text = some (s.collected, text')

variable {wk wk' : WK} {s s' : LogHistory}

/-- A get changes neither store. -/
theorem wisckeyGet_lab2 (h : AddressTexts wk.lab2) {env : CallEnv} {args args' : Args}
    {r : GetReturn} (hget : wisckeyGet env wk args = some (wk', args', r)) :
    wk'.lab2 = wk.lab2 := by
  obtain ⟨gc, key, accvalue, hgc⟩ := doLogfileGC_eq h env args
  cases htext : leveldbGet wk.lab2 args.key with
  | none =>
    simp only [wisckeyGet, hgc, Option.bind_eq_bind, Option.bind_some, htext, Option.some.injEq,
      Prod.mk.injEq] at hget
    obtain ⟨rfl, -, -⟩ := hget
    rfl
  | some text =>
    simp only [wisckeyGet, hgc, Option.bind_eq_bind, Option.bind_some, htext,
      Option.bind_eq_some_iff, Option.some.injEq, Prod.mk.injEq] at hget
    obtain ⟨_, _, _, _, _, _, rfl, -, -⟩ := hget
    rfl

/-- Calls put addresses into the engine, and nothing else. -/
theorem AddressTexts.perform (h : AddressTexts wk.lab2) {call : LogCall}
    (hcall : call.perform wk = some wk') : AddressTexts wk'.lab2 := by
  cases call with
  | set env key value accvalue =>
    obtain ⟨wk₁, args', a, b, hset, hdb⟩ := wisckeySet_db h env ⟨key, value, accvalue⟩
    rw [LogCall.perform, hset] at hcall
    obtain rfl : wk₁ = wk' := Option.some.inj hcall
    have htexts := (h.insert wk.lab2.vtable key a).insert wk₁.lab2.vtable headkey b
    rwa [← hdb] at htexts
  | get env key value accvalue =>
    obtain ⟨⟨wk₁, args, r⟩, hget, rfl⟩ := Option.map_eq_some_iff.mp hcall
    change AddressTexts wk₁.lab2
    rw [wisckeyGet_lab2 h hget]
    exact h
  | del env key value accvalue =>
    obtain ⟨wk₁, args', hdel, hdb⟩ := wisckeyDel_db h env ⟨key, value, accvalue⟩
    rw [LogCall.perform, hdel] at hcall
    obtain rfl : wk₁ = wk' := Option.some.inj hcall
    intro k text hk
    rw [hdb] at hk
    rcases eq_or_ne k key with rfl | hne
    · rw [AList.lookup_erase] at hk
      cases hk
    · rw [AList.lookup_erase_ne hne] at hk
      exact h k text hk
  | gc env args =>
    obtain ⟨gc, key, accvalue, hgc⟩ := doLogfileGC_eq h env args
    rw [LogCall.perform, hgc] at hcall
    obtain rfl : { wk with gc } = wk' := Option.some.inj hcall
    exact h

/-- A record ends behind its two fields. -/
theorem pos_wisckeySet (h : AddressTexts wk.lab2) {env : CallEnv} {key value accvalue : Bytes}
    (hset : (LogCall.set env key value accvalue).perform wk = some wk') :
    wk'.logfile.pos = wk.logfile.pos + recordSize := by
  obtain ⟨wk₁, args', hok, -, hfile⟩ := WK.wisckeySet_eq h env ⟨key, value, accvalue⟩
  rw [LogCall.perform, hok] at hset
  obtain rfl : wk₁ = wk' := Option.some.inj hset
  rw [hfile, LogFile.fwrite, LogFile.fwrite, WK.length_cBuffer, WK.length_cBuffer, Nat.add_assoc]
  rfl

/-- What holds after any calls: the engine holds addresses, nothing is collected, and a record has
an end other than the start of the log. -/
structure HistoryOk (s : LogHistory) (wrote : Prop) : Prop where
  addressTexts : AddressTexts s.wk.lab2
  collected : s.collected = 0
  recordEnd : s.recordEnd = 0 ↔ ¬ wrote

/-- A call keeps it. -/
theorem HistoryOk.records {wrote : Prop} (h : HistoryOk s wrote) {call : LogCall}
    (hcall : call.Records s s') : HistoryOk s' (wrote ∨ call.isSet = true) := by
  obtain ⟨hperform, hend, hcollected⟩ := hcall
  refine ⟨h.addressTexts.perform hperform, hcollected.trans h.collected, ?_⟩
  cases call with
  | set env key value accvalue =>
    have hpos := pos_wisckeySet h.addressTexts hperform
    have hsize : recordSize = 64 := rfl
    have hne : s'.recordEnd ≠ 0 := by
      rw [hend, LogCall.isSet, if_pos rfl]
      omega
    exact iff_of_false hne (not_not.mpr (.inr rfl))
  | get env key value accvalue | del env key value accvalue | gc env args =>
    rw [hend, LogCall.isSet, if_neg Bool.false_ne_true, h.recordEnd]
    exact not_congr (or_iff_left Bool.false_ne_true).symm

/-- The same after all calls of a run. -/
theorem HistoryOk.run {wrote : Prop} {calls : List LogCall} (h : HistoryOk s wrote)
    (hrun : Run (fun s call s' => LogCall.Records s call s') s calls s') :
    HistoryOk s' (wrote ∨ ∃ call ∈ calls, call.isSet = true) := by
  induction hrun generalizing wrote with
  | nil => exact ⟨h.addressTexts, h.collected, by simp [h.recordEnd]⟩
  | cons hcall hrest ih =>
    have hnext := ih (h.records hcall)
    simpa only [List.exists_mem_cons_iff, or_assoc] using hnext

/-- The collector finds what it should when nothing was written, and at no other time. -/
theorem HistoryOk.comesBack_iff {wrote : Prop} (h : HistoryOk s wrote) :
    HeadRoundTrips s ↔ ¬ wrote := by
  rw [← h.recordEnd]
  constructor
  · intro hround
    obtain ⟨text, text', hhead, -⟩ := hround []
    obtain ⟨text₀, hzero⟩ := storedNumber_eq h.addressTexts headkey []
    rw [hzero] at hhead
    exact (congrArg Prod.fst (Option.some.inj hhead)).symm
  · intro hend accvalue
    obtain ⟨text, hhead⟩ := storedNumber_eq h.addressTexts headkey accvalue
    obtain ⟨text', hgc⟩ := storedNumber_eq h.addressTexts gcKey text
    rw [hend, h.collected]
    exact ⟨text, text', hhead, hgc⟩

/-- Nothing was written to the opened store. -/
theorem openedHistory_ok : HistoryOk openedHistory False :=
  ⟨Follows.openWisckey.addressTexts, rfl, iff_of_true rfl not_false⟩

/-- After a run of calls on the opened store, with any keys, the collector finds its two numbers
exactly when no call of the run was a set. Both parse in any case, and it does not enter its
loop. -/
theorem openWisckey_headRoundTrips_iff {calls : List LogCall}
    (hrun : Run (fun s call s' => LogCall.Records s call s') openedHistory calls s) :
    (HeadRoundTrips s ↔ ∀ call ∈ calls, call.isSet = false) ∧
      ∀ env args, (logfileGC env s.wk args).isSome := by
  have h := openedHistory_ok.run hrun
  constructor
  · rw [h.comesBack_iff]
    simp
  · intro env args
    obtain ⟨text, hhead⟩ := storedNumber_eq h.addressTexts headkey args.accvalue
    obtain ⟨text', hgc⟩ := storedNumber_eq h.addressTexts gcKey text
    simp [logfileGC, hhead, hgc]

/-- A get and a delete of a key that was never set leave both numbers zero. -/
theorem openWisckey_headRoundTrips_getDel : ∃ s,
    Run (fun s call s' => LogCall.Records s call s') openedHistory
      [.get (pagesEnv 0) (ascii ['a']) [] [], .del (pagesEnv 1) (ascii ['a']) [] []] s ∧
      HeadRoundTrips s := by
  have hrun : Run (fun s call s' => LogCall.Records s call s') openedHistory
      [.get (pagesEnv 0) (ascii ['a']) [] [], .del (pagesEnv 1) (ascii ['a']) [] []]
      openedHistory :=
    .cons ⟨rfl, rfl, rfl⟩ (.cons ⟨rfl, rfl, rfl⟩ (.nil _))
  exact ⟨_, hrun, (openWisckey_headRoundTrips_iff hrun).1.mpr (by simp [LogCall.isSet])⟩

/-- After one set the record ends at 64, its key field at 32, and the collector reads 0. -/
theorem openWisckey_headLost : ∃ s,
    Run (fun s call s' => LogCall.Records s call s') openedHistory
      [.set (pagesEnv 0) (ascii ['k']) (ascii ['v']) []] s ∧
      s.recordEnd = 64 ∧ (storedNumber s.wk.lab2 headkey []).map Prod.fst = some 0 ∧
      ¬ HeadRoundTrips s := by
  obtain ⟨wk, hset⟩ : ∃ wk, (LogCall.set (pagesEnv 0) (ascii ['k']) (ascii ['v']) []).perform
      openWisckey = some wk := Option.isSome_iff_exists.mp (by decide)
  have htexts := Follows.openWisckey.addressTexts
  have hpos : wk.logfile.pos = 64 := pos_wisckeySet htexts hset
  obtain ⟨text, hhead⟩ := storedNumber_eq (htexts.perform hset) headkey []
  have hcall : LogCall.Records openedHistory
      (.set (pagesEnv 0) (ascii ['k']) (ascii ['v']) []) ⟨wk, 64, 0⟩ :=
    ⟨hset, hpos.symm, rfl⟩
  refine ⟨_, .cons hcall (.nil _), rfl, by rw [hhead]; rfl, ?_⟩
  intro hround
  obtain ⟨text', -, hhead', -⟩ := hround []
  rw [hhead] at hhead'
  cases hhead'

end WiscKey
