import WiscKey.Compaction.Work

/-!
# The outputs of a compaction

The entries that the loop keeps depend on the input alone: on the keys in order, the snapshot and
the files of the deeper levels. The outputs hold them in that order, however they are cut, and each
output is described by its first and last key.
-/

namespace WiscKey

/-- Compactions that give the same answers for base levels. -/
def Compaction.SameBase (c c' : Compaction) : Prop :=
  c.level = c'.level ∧ c.inputVersion = c'.inputVersion ∧ c.levelPtrs = c'.levelPtrs

/-- The entries of the input that are kept. -/
def survivors (ucmp : Comparator) (smallestSnapshot : Nat) (keys : KeyState) (c : Compaction) :
    List TableEntry → List TableEntry
  | [] => []
  | e :: entries =>
    let (drop, keys, c) := dropEntry ucmp smallestSnapshot keys c e.key
    if drop then survivors ucmp smallestSnapshot keys c entries
    else e :: survivors ucmp smallestSnapshot keys c entries

/-- How many memtables are flushed in a round. -/
def RoundEnv.flushes (env : RoundEnv) : Nat := env.immFlush.toList.length

/-- An output with its first and its last key. -/
def Output.Describes (output : Output) (entries : List TableEntry) : Prop :=
  entries.head?.map TableEntry.key = some output.smallest ∧
    entries.getLast?.map TableEntry.key = some output.largest

namespace CompactionState

/-- The entries in all outputs, the current one included. -/
def written (st : CompactionState) : List TableEntry :=
  st.outputs.flatMap Prod.snd ++ (st.builder.map OpenOutput.entries).getD []

/-- A state without an error so far: what it has written, and how many memtables were flushed. -/
structure Ok (st : CompactionState) (entries : List TableEntry) (flushes : Nat) : Prop where
  written : st.written = entries
  outputs : ∀ p ∈ st.outputs, p.1.Describes p.2
  builder : ∀ o, st.builder = some o → o.output.Describes o.entries
  events : st.events.length = st.outputs.length + flushes
  recorded : (recordedTables st.events).length = st.events.length
  usable : st.unusable = false

/-- A state that may have an error: it has written no more than the entries. -/
structure Reached (st : CompactionState) (entries : List TableEntry) : Prop where
  written : st.written <+: entries
  recorded : (recordedTables st.events).length = st.events.length
  unusable : st.unusable = true → st.written ≠ [] ∧ st.events ≠ []

/-- A step's outcome: without an error the entries are written, and with one no more than they. -/
structure Outcome (st : CompactionState) (r : Status × CompactionState)
    (entries : List TableEntry) (flushes : Nat) : Prop where
  ok : r.1 = .ok → r.2.Ok entries flushes
  reached : r.2.Reached entries
  sameBase : st.compaction.SameBase r.2.compaction
  smallestSnapshot : r.2.smallestSnapshot = st.smallestSnapshot

end CompactionState

namespace Compaction

variable {ucmp : Comparator} {c c' : Compaction}

theorem SameBase.refl (c : Compaction) : c.SameBase c := ⟨rfl, rfl, rfl⟩

theorem SameBase.trans {c'' : Compaction} (h : c.SameBase c') (h' : c'.SameBase c'') :
    c.SameBase c'' := ⟨h.1.trans h'.1, h.2.1.trans h'.2.1, h.2.2.trans h'.2.2⟩

/-- The places among the grandparents do not matter for base levels. -/
theorem sameBase_shouldStopBefore (maxFileSize : Nat) (key : Bytes) :
    c.SameBase (c.shouldStopBefore ucmp maxFileSize key).2 := by
  simp only [shouldStopBefore]
  split_ifs
  all_goals exact ⟨rfl, rfl, rfl⟩

theorem SameBase.isBaseLevelForKey (h : c.SameBase c') (userKey : Bytes) :
    (c.isBaseLevelForKey ucmp userKey).1 = (c'.isBaseLevelForKey ucmp userKey).1 ∧
      (c.isBaseLevelForKey ucmp userKey).2.SameBase (c'.isBaseLevelForKey ucmp userKey).2 := by
  obtain ⟨hlevel, hversion, hptrs⟩ := h
  simp only [Compaction.isBaseLevelForKey, hlevel, hversion, hptrs, true_and]
  exact ⟨rfl, rfl, rfl⟩

end Compaction

section Drop

variable {ucmp : Comparator} {smallestSnapshot : Nat} {keys : KeyState} {c c' : Compaction}
  {key : Bytes}

/-- The decision about an entry is the same for both. -/
theorem Compaction.SameBase.dropEntry (h : c.SameBase c') :
    (dropEntry ucmp smallestSnapshot keys c key).1 =
        (dropEntry ucmp smallestSnapshot keys c' key).1 ∧
      (dropEntry ucmp smallestSnapshot keys c key).2.1 =
        (dropEntry ucmp smallestSnapshot keys c' key).2.1 ∧
      (dropEntry ucmp smallestSnapshot keys c key).2.2.SameBase
        (dropEntry ucmp smallestSnapshot keys c' key).2.2 := by
  unfold WiscKey.dropEntry
  cases parseInternalKey key with
  | none => exact ⟨rfl, rfl, h⟩
  | some ikey =>
    simp only
    generalize (if (!keys.hasCurrentUserKey ||
      decide (ucmp.compare ikey.userKey keys.currentUserKey ≠ .eq)) = true then
        (⟨ikey.userKey, true, kMaxSequenceNumber⟩ : KeyState) else keys) = next
    split
    · exact ⟨rfl, rfl, h⟩
    · split
      · obtain ⟨hbase, hnext⟩ := h.isBaseLevelForKey ikey.userKey
        exact ⟨hbase, rfl, hnext⟩
      · exact ⟨rfl, rfl, h⟩

theorem Compaction.SameBase.survivors (h : c.SameBase c') (entries : List TableEntry) :
    survivors ucmp smallestSnapshot keys c entries =
      survivors ucmp smallestSnapshot keys c' entries := by
  induction entries generalizing keys c c' with
  | nil => rfl
  | cons e entries ih =>
    obtain ⟨hdrop, hkeys, hbase⟩ :=
      h.dropEntry
    simp only [WiscKey.survivors]
    rw [hdrop, hkeys, ih hbase]

/-- The entries that are kept, from the decision about the first one. -/
theorem survivors_cons (e : TableEntry) (entries : List TableEntry) :
    survivors ucmp smallestSnapshot keys c (e :: entries) =
      (if (dropEntry ucmp smallestSnapshot keys c e.key).1 then [] else [e]) ++
        survivors ucmp smallestSnapshot (dropEntry ucmp smallestSnapshot keys c e.key).2.1
          (dropEntry ucmp smallestSnapshot keys c e.key).2.2 entries := by
  simp only [survivors]
  split_ifs
  · rfl
  · rfl

theorem survivors_sublist (entries : List TableEntry) :
    (survivors ucmp smallestSnapshot keys c entries).Sublist entries := by
  induction entries generalizing keys c with
  | nil => exact .slnil
  | cons e entries ih =>
    simp only [survivors]
    split
    · exact ih.cons e
    · exact ih.cons_cons e

end Drop

namespace CompactionState

variable {ucmp : Comparator} {maxFileSize : Nat} {st : CompactionState} {keys : KeyState}
  {entries : List TableEntry} {flushes : Nat} {e : TableEntry}

theorem recorded_append_table {events : List TraceEvent}
    (h : (recordedTables events).length = events.length) (texts : List Bytes)
    (number fileSize : Nat) :
    (recordedTables (events ++ [.table texts number fileSize])).length =
      (events ++ [TraceEvent.table texts number fileSize]).length := by
  rw [recordedTables, List.filterMap_append, List.length_append, ← recordedTables, h]
  simp

theorem Reached.of_written (h : st.written = entries)
    (hrecorded : (recordedTables st.events).length = st.events.length)
    (hu : st.unusable = true → st.written ≠ [] ∧ st.events ≠ []) : st.Reached entries :=
  ⟨h ▸ List.prefix_rfl, hrecorded, hu⟩

theorem Ok.reached (h : st.Ok entries flushes) : st.Reached entries :=
  .of_written h.written h.recorded fun hu => absurd hu (by simp [h.usable])

theorem Reached.mono (h : st.Reached entries) (more : List TableEntry) :
    st.Reached (entries ++ more) :=
  ⟨h.written.trans (List.prefix_append entries more), h.recorded, h.unusable⟩

theorem Ok.outcome (h : st.Ok entries flushes) : st.Outcome (.ok, st) entries flushes :=
  ⟨fun _ => h, h.reached, .refl _, rfl⟩

/-- Finishing the current output moves its entries, and a table that was written is recorded. -/
theorem Ok.finishCompactionOutputFile (h : st.Ok entries flushes) {o : OpenOutput}
    (ho : st.builder = some o) (env : FinishEnv) :
    st.Outcome (st.finishCompactionOutputFile env o) entries flushes ∧
      (st.finishCompactionOutputFile env o).2.builder = none := by
  have hdescribes := h.builder o ho
  have hentries : 0 < o.entries.length := by
    refine List.length_pos_of_ne_nil fun hnil => ?_
    rw [Output.Describes, hnil] at hdescribes
    exact nomatch hdescribes.1
  have hwritten : (st.outputs ++ [({ o.output with fileSize := env.fileSize }, o.entries)]).flatMap
      Prod.snd ++ [] = entries := by
    refine Eq.trans ?_ h.written
    simp [CompactionState.written, ho]
  have houtputs : ∀ p ∈ st.outputs ++ [({ o.output with fileSize := env.fileSize }, o.entries)],
      Output.Describes p.1 p.2 := by
    intro p hp
    rcases List.mem_append.mp hp with hp | hp
    · exact h.outputs p hp
    · obtain rfl := List.mem_singleton.mp hp
      exact hdescribes
  have hne : (st.outputs ++ [({ o.output with fileSize := env.fileSize }, o.entries)]).flatMap
      Prod.snd ++ [] ≠ [] := by
    have := List.ne_nil_of_length_pos hentries
    simp [this]
  simp only [CompactionState.finishCompactionOutputFile]
  split
  · have hrecorded := recorded_append_table h.recorded (st.keyvalues.map Prod.fst)
      o.output.number env.fileSize
    refine ⟨⟨fun hok => ⟨hwritten, houtputs, (fun _ h => nomatch h), ?_, hrecorded, ?_⟩,
      .of_written hwritten hrecorded fun _ => ⟨hne, by simp⟩, .refl _, rfl⟩, rfl⟩
    · simp only [List.length_append, List.length_singleton, h.events]
      omega
    · simpa [h.usable] using hok
  · rename_i hs
    refine ⟨⟨fun hok => absurd ⟨hok, hentries⟩ hs,
      .of_written hwritten h.recorded fun hu => ?_, .refl _, rfl⟩, rfl⟩
    exact absurd hu (by simp [h.usable])

theorem Ok.finishOpenOutput (h : st.Ok entries flushes) (env : FinishEnv) :
    st.Outcome (st.finishOpenOutput env) entries flushes ∧
      (st.finishOpenOutput env).2.builder = none := by
  cases ho : st.builder with
  | none =>
    simp only [CompactionState.finishOpenOutput, ho]
    exact ⟨h.outcome, trivial⟩
  | some o =>
    simp only [CompactionState.finishOpenOutput, ho]
    exact h.finishCompactionOutputFile ho env

/-- An entry behind those of the current output. -/
theorem Ok.addEntry (h : st.Ok entries flushes) {o : OpenOutput} (ho : st.builder = some o)
    (keys : KeyState) (e : TableEntry) : (st.addEntry keys e o).Ok (entries ++ [e]) flushes := by
  refine ⟨?_, h.outputs, ?_, h.events, h.recorded, h.usable⟩
  · rw [← h.written, CompactionState.written, CompactionState.written, ho]
    simp [CompactionState.addEntry]
  · intro o' ho'
    obtain rfl := Option.some.inj ho'
    obtain ⟨hfirst, -⟩ := h.builder o ho
    cases hcases : o.entries with
    | nil => rw [hcases] at hfirst; exact nomatch hfirst
    | cons first rest =>
      rw [hcases] at hfirst
      refine ⟨?_, by rw [List.getLast?_concat]; rfl⟩
      simpa [hcases] using hfirst

/-- An entry in a new output. -/
theorem addEntry_new (h : st.Ok entries flushes) (ho : st.builder = none) (out : Output)
    (keys : KeyState) (e : TableEntry) :
    ({ st with builder := some ⟨out, []⟩ }.addEntry keys e ⟨out, []⟩).Ok (entries ++ [e])
      flushes := by
  refine ⟨?_, h.outputs, ?_, h.events, h.recorded, h.usable⟩
  · rw [← h.written, CompactionState.written, CompactionState.written, ho]
    simp [CompactionState.addEntry]
  · intro o' ho'
    obtain rfl := Option.some.inj ho'
    exact ⟨by simp, by simp⟩

/-- The end of a round writes its entry. -/
theorem Ok.keepEntry (h : st.Ok entries flushes) (env : RoundEnv) (keys : KeyState)
    (e : TableEntry) : st.Outcome (st.keepEntry env keys e) (entries ++ [e]) flushes := by
  have hfull : ∀ {st' : CompactionState}, st'.Ok (entries ++ [e]) flushes →
      st.compaction.SameBase st'.compaction → st'.smallestSnapshot = st.smallestSnapshot →
      st.Outcome (if st'.compaction.maxOutputFileSize ≤ env.builderSize then
        st'.finishOpenOutput env.fullFinish else (.ok, st')) (entries ++ [e]) flushes := by
    intro st' hst' hbase hsnapshot
    split
    · obtain ⟨⟨hok, hreached, hc, hs⟩, -⟩ := hst'.finishOpenOutput env.fullFinish
      exact ⟨hok, hreached, hbase.trans hc, hs.trans hsnapshot⟩
    · exact ⟨fun _ => hst', hst'.reached, hbase, hsnapshot⟩
  cases ho : st.builder with
  | some o =>
    simp only [CompactionState.keepEntry, ho]
    exact hfull (h.addEntry ho keys e) (.refl _) rfl
  | none =>
    by_cases hnew : env.newWritableFile = .ok
    · simp only [CompactionState.keepEntry, ho, openCompactionOutputFile, if_pos hnew]
      exact hfull (addEntry_new h ho ⟨env.newFileNumber, 0, [], []⟩ keys e) (.refl _) rfl
    · simp only [CompactionState.keepEntry, ho, openCompactionOutputFile, if_neg hnew]
      refine ⟨fun hok => absurd hok hnew, ⟨?_, h.recorded, fun hu => ?_⟩, .refl _, rfl⟩
      · rw [← h.written, CompactionState.written, CompactionState.written, ho]
        simp
      · exact absurd hu (by simp [h.usable])

/-- The beginning of a round: a flush and a cut leave what was written. -/
theorem Ok.startRound (h : st.Ok entries flushes) (env : RoundEnv) (key : Bytes) :
    st.Outcome (st.startRound ucmp maxFileSize env key) entries (flushes + env.flushes) := by
  have hbase : st.compaction.SameBase (st.compaction.shouldStopBefore ucmp maxFileSize key).2 :=
    Compaction.sameBase_shouldStopBefore maxFileSize key
  have hstart : Ok { st with
      events := st.events ++ (env.immFlush.map ImmFlush.event).toList
      compaction := (st.compaction.shouldStopBefore ucmp maxFileSize key).2 } entries
      (flushes + env.flushes) := by
    refine ⟨h.written, h.outputs, h.builder, ?_, ?_, h.usable⟩
    · rw [List.length_append, h.events, RoundEnv.flushes, Nat.add_assoc]
      cases env.immFlush with
      | none => rfl
      | some f => rfl
    · cases env.immFlush with
      | none => simpa using h.recorded
      | some f => exact recorded_append_table h.recorded ..
  simp only [CompactionState.startRound]
  split
  · obtain ⟨⟨hok, hreached, hc, hs⟩, -⟩ := hstart.finishOpenOutput env.stopFinish
    exact ⟨hok, hreached, hbase.trans hc, hs⟩
  · exact ⟨fun _ => hstart, hstart.reached, hbase, rfl⟩

/-- What a round has written with the entry `e` before it. -/
theorem Ok.round (h : st.Ok entries flushes) (env : RoundEnv) (keys : KeyState)
    (e : TableEntry) {drop : Bool} {next : KeyState} {c : Compaction}
    (hdrop : dropEntry ucmp st.smallestSnapshot keys st.compaction e.key = (drop, next, c)) :
    ((st.round ucmp maxFileSize env keys e).1 = .ok →
      (st.round ucmp maxFileSize env keys e).2.1 = next ∧
      (st.round ucmp maxFileSize env keys e).2.2.Ok (entries ++ if drop then [] else [e])
        (flushes + env.flushes) ∧
      c.SameBase (st.round ucmp maxFileSize env keys e).2.2.compaction ∧
      (st.round ucmp maxFileSize env keys e).2.2.smallestSnapshot = st.smallestSnapshot) ∧
    (st.round ucmp maxFileSize env keys e).2.2.Reached (entries ++ if drop then [] else [e]) := by
  obtain ⟨hok, hreached, hbase, hsnapshot⟩ :=
    h.startRound env e.key
  simp only [CompactionState.round]
  generalize st.startRound ucmp maxFileSize env e.key = start at hok hreached hbase hsnapshot
  split
  · rename_i hstart
    obtain ⟨hsame, hkeys, hnext⟩ := hbase.dropEntry

    rw [hdrop] at hsame hkeys hnext
    rw [← hsnapshot] at hsame hkeys hnext
    generalize dropEntry ucmp start.2.smallestSnapshot keys start.2.compaction e.key = d
      at hsame hkeys hnext
    have hd : Ok { start.2 with compaction := d.2.2 } entries (flushes + env.flushes) :=
      ⟨(hok hstart).written, (hok hstart).outputs, (hok hstart).builder, (hok hstart).events,
        (hok hstart).recorded, (hok hstart).usable⟩
    obtain rfl := hsame
    split
    · exact ⟨fun _ => ⟨hkeys.symm, by simpa using hd, hnext, hsnapshot⟩,
        by simpa using hd.reached⟩
    · obtain ⟨hkeep, hreached, hb, hs⟩ := hd.keepEntry env d.2.1 e
      exact ⟨fun hstatus => ⟨hkeys.symm, hkeep hstatus, hnext.trans hb, hs.trans hsnapshot⟩,
        hreached⟩
  · rename_i hstart
    exact ⟨fun hstatus => absurd hstatus hstart, hreached.mono _⟩

/-- The loop has written a part of the entries that are kept, and all of them at the end of the
input. -/
theorem Ok.loop (h : st.Ok entries flushes) (rounds : List (TableEntry × RoundEnv))
    (keys : KeyState) :
    (((st.loop ucmp maxFileSize rounds keys).1 = .ok ∧
        (st.loop ucmp maxFileSize rounds keys).2.1 = false) →
      (st.loop ucmp maxFileSize rounds keys).2.2.Ok (entries ++
        survivors ucmp st.smallestSnapshot keys st.compaction (rounds.map Prod.fst))
        (flushes + (rounds.map fun r => r.2.flushes).sum)) ∧
    (st.loop ucmp maxFileSize rounds keys).2.2.Reached (entries ++
        survivors ucmp st.smallestSnapshot keys st.compaction (rounds.map Prod.fst)) := by
  induction rounds generalizing st keys entries flushes with
  | nil =>
    simp only [CompactionState.loop, List.map_nil, survivors, List.append_nil, List.sum_nil,
      Nat.add_zero]
    exact ⟨fun _ => h, h.reached⟩
  | cons r rounds ih =>
    obtain ⟨e, env⟩ := r
    rw [CompactionState.loop]
    split
    · exact ⟨fun hleft => absurd hleft.2 Bool.noConfusion, h.reached.mono _⟩
    · rcases hdrop : dropEntry ucmp st.smallestSnapshot keys st.compaction e.key with
        ⟨drop, nextKeys, nextCompaction⟩
      obtain ⟨hok, hreached⟩ := h.round env keys e hdrop
      rw [List.map_cons, survivors_cons, hdrop, ← List.append_assoc]
      generalize st.round ucmp maxFileSize env keys e = next at hok hreached
      simp only
      split
      · rename_i hstatus
        obtain ⟨hkeys, hnext, hbase, hsnapshot⟩ := hok hstatus
        have hrest := ih hnext next.2.1
        rw [hsnapshot, hkeys, ← hbase.survivors, Nat.add_assoc] at hrest
        rw [hkeys]
        exact hrest
      · rename_i hstatus
        exact ⟨fun hleft => absurd hleft.1 hstatus, hreached.mono _⟩

end CompactionState

/-! ## The whole work -/

variable {ucmp : Comparator} {maxFileSize : Nat} {env : WorkEnv} {c : Compaction}
  {smallestSnapshot : Nat}

/-- The entries of the input. -/
def WorkEnv.input (env : WorkEnv) : List TableEntry := env.rounds.map Prod.fst

/-- How many memtables are flushed while the input is read. -/
def WorkEnv.flushes (env : WorkEnv) : Nat := (env.rounds.map fun r => r.2.flushes).sum

theorem CompactionState.ok_init (c : Compaction) (smallestSnapshot : Nat) :
    (CompactionState.init c smallestSnapshot).Ok [] 0 :=
  ⟨rfl, (fun _ h => nomatch h), (fun _ h => nomatch h), rfl, rfl, rfl⟩

/-- A compaction whose results are installed has written the entries that are kept, into finished
outputs; and none has written more. -/
theorem doCompactionWork_written :
    ((doCompactionWork ucmp maxFileSize env c smallestSnapshot).install.isSome →
      (doCompactionWork ucmp maxFileSize env c smallestSnapshot).state.Ok
        (survivors ucmp smallestSnapshot .init c env.input) env.flushes ∧
      (doCompactionWork ucmp maxFileSize env c smallestSnapshot).state.builder = none) ∧
    (doCompactionWork ucmp maxFileSize env c smallestSnapshot).state.Reached
      (survivors ucmp smallestSnapshot .init c env.input) := by
  obtain ⟨hok, hreached⟩ := (CompactionState.ok_init c smallestSnapshot).loop
     env.rounds .init
  rw [List.nil_append, Nat.zero_add] at hok
  rw [List.nil_append] at hreached
  simp only [doCompactionWork]
  generalize CompactionState.loop ucmp maxFileSize env.rounds .init
    (.init c smallestSnapshot) = run at hok hreached
  obtain ⟨status, left, st⟩ := run
  by_cases hstatus : status = .ok
  · subst hstatus
    by_cases hleft : left ∨ env.shuttingDown
    · simp only [hleft, and_self, if_true]
      exact ⟨fun h => (by cases h), hreached⟩
    · obtain ⟨hfinish, hbuilder⟩ :=
        (hok ⟨rfl, by simpa using fun h => hleft (.inl h)⟩).finishOpenOutput env.lastFinish
      simp only [hleft, and_false, if_false, if_true]
      generalize st.finishOpenOutput env.lastFinish = last at hfinish hbuilder
      split
      · rename_i hlast
        exact ⟨fun _ => ⟨hfinish.ok (Status.andThen_eq_ok.mp hlast).1, hbuilder⟩, hfinish.reached⟩
      · exact ⟨fun h => (by cases h), hfinish.reached⟩
  · simp only [hstatus, false_and, if_false, Status.andThen]
    exact ⟨fun h => (by cases h), hreached⟩

end WiscKey
