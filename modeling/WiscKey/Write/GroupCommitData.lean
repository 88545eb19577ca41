import WiscKey.Write.GroupCommitQueue

/-!
# What group commit logs and applies

The group that a leader commits is the front part of the queue up to its last writer.
Nobody else touches that part, the temporary batch, the log or the memtable before it is
popped, so the operations of the groups stand in the log and in the memtable in queue
order, under sequence numbers counted up without a gap.
-/

set_option linter.unusedSectionVars false

namespace WiscKey

variable {ι : Type} [DecidableEq ι]

/-- The updates of a call: none for a null batch. -/
def WriteCall.ops (call : WriteCall) : List Op :=
  match call.batch with
  | some b => b.val.operations
  | none => []

/-- The updates of calls, one call after the other. -/
def callOps (calls : ι → WriteCall) (is : List ι) : List Op := is.flatMap fun i => (calls i).ops

/-- What a log record adds to a memtable when it is replayed. -/
def recordEntries (record : Bytes) : List MemEntry :=
  numbered (WriteBatch.sequence ⟨record⟩) (WriteBatch.operations ⟨record⟩)

theorem callOps_append (calls : ι → WriteCall) (is js : List ι) :
    callOps calls (is ++ js) = callOps calls is ++ callOps calls js := List.flatMap_append

namespace WriteState

section BuildGroup

variable {calls : ι → WriteCall} {s : WriteState ι} {first : ι} {firstBatch : WriteBatch}

/-- What `BuildBatchGroup` has joined so far: the members, the last of them, the size so far,
and the batch if it is not the leader's own. -/
structure Joined (calls : ι → WriteCall) (first : ι) (firstBatch : WriteBatch) (maxSize : Nat)
    (members : List ι) (size : Nat) (last : ι) (result : Option WriteBatch) : Prop where
  head : members.head? = some first
  last : members.getLast? = some last
  sync : ∀ j ∈ members, (calls j).sync = true → (calls first).sync = true
  firstSize : firstBatch.byteSize ≤ size
  own : result = none → callOps calls members = firstBatch.operations
  tmp : ∀ t, result = some t → t.Replayable (callOps calls members) ∧
    (callOps calls members).length ≤ size ∧ size ≤ maxSize

/-- The loop joins a front part of the writers that it is given. -/
theorem Joined.buildLoop {maxSize size : Nat} {members rest : List ι} {last : ι}
    {result : Option WriteBatch}
    (hmax : maxSize ≤ 2 ^ 20) (hbuilt : firstBatch.Built) (htmp : s.tmpBatch = .clear)
    (hbatch : ∀ j ∈ rest, (s.writer j).batch = (calls j).batch.map Subtype.val)
    (hsync : ∀ j, (s.writer j).sync = (calls j).sync)
    (h : Joined calls first firstBatch maxSize members size last result) :
    ∃ more rest' size', rest = more ++ rest' ∧
      Joined calls first firstBatch maxSize (members ++ more) size'
        (s.buildLoop first firstBatch maxSize rest size last result).1
        (s.buildLoop first firstBatch maxSize rest size last result).2 := by
  induction rest generalizing members size last result with
  | nil => exact ⟨[], [], size, rfl, by rw [List.append_nil]; exact h⟩
  | cons w rest ih =>
    have hstop : ∃ more rest' size', w :: rest = more ++ rest' ∧
        Joined calls first firstBatch maxSize (members ++ more) size' last result :=
      ⟨[], w :: rest, size, rfl, by rw [List.append_nil]; exact h⟩
    have hrest : ∀ j ∈ rest, (s.writer j).batch = (calls j).batch.map Subtype.val :=
      fun j hj => hbatch j (List.mem_cons_of_mem _ hj)
    have hgo : ∀ size' result', Joined calls first firstBatch maxSize (members ++ [w]) size' w
        result' → ∃ more rest' size'', w :: rest = more ++ rest' ∧
          Joined calls first firstBatch maxSize (members ++ more) size''
            (s.buildLoop first firstBatch maxSize rest size' w result').1
            (s.buildLoop first firstBatch maxSize rest size' w result').2 := by
      intro size' result' hjoined
      obtain ⟨more, rest', size'', hsplit, hend⟩ := ih hrest hjoined
      refine ⟨w :: more, rest', size'', by rw [hsplit, List.cons_append], ?_⟩
      rwa [List.append_assoc, List.singleton_append] at hend
    rw [WriteState.buildLoop]
    split_ifs with hstopSync
    · exact hstop
    · have hnewSync : ∀ j ∈ members ++ [w], (calls j).sync = true →
          (calls first).sync = true := by
        intro j hj hjs
        rw [List.mem_append, List.mem_singleton] at hj
        obtain hj | rfl := hj
        · exact h.sync j hj hjs
        · rw [hsync, hsync] at hstopSync
          rw [hjs] at hstopSync
          simpa using hstopSync
      have hhead : (members ++ [w]).head? = some first := by
        rw [List.head?_append, h.head]
        rfl
      have hops : callOps calls (members ++ [w]) = callOps calls members ++ (calls w).ops := by
        simp [callOps]
      cases hw : (s.writer w).batch with
      | none =>
        have hnone : (calls w).ops = [] := by
          rw [hbatch w List.mem_cons_self] at hw
          cases hcall : (calls w).batch with
          | none => rw [WriteCall.ops, hcall]
          | some b => rw [hcall] at hw; cases hw
        rw [hnone, List.append_nil] at hops
        exact hgo size result
          ⟨hhead, List.getLast?_concat, hnewSync, h.firstSize, hops ▸ h.own, hops ▸ h.tmp⟩
      | some batch =>
        have hcall : ∃ hb, (calls w).batch = some ⟨batch, hb⟩ := by
          rw [hbatch w List.mem_cons_self, Option.map_eq_some_iff] at hw
          obtain ⟨b, hb, rfl⟩ := hw
          exact ⟨b.property, hb⟩
        obtain ⟨hb, hcall⟩ := hcall
        simp only
        split_ifs with hsize
        · exact hstop
        · have hsmall : size + batch.byteSize ≤ maxSize := Nat.le_of_not_lt hsize
          obtain ⟨ys, hys⟩ := hb.replayable_of_byteSize (by omega)
          have hywops : (calls w).ops = ys := by
            rw [WriteCall.ops, hcall]
            exact hys.operations
          have hylen := hys.length_lt
          -- the batch so far: the temporary one, or the leader's own moved there
          have hprev : (result.getD (s.tmpBatch.append firstBatch)).Replayable
              (callOps calls members) ∧ (callOps calls members).length ≤ size := by
            cases result with
            | some t =>
              obtain ⟨hreplay, hlen, -⟩ := h.tmp t rfl
              exact ⟨hreplay, hlen⟩
            | none =>
              have hfirst := h.firstSize
              obtain ⟨xs, hxs⟩ := hbuilt.replayable_of_byteSize (by omega)
              have hxlen := hxs.length_lt
              rw [h.own rfl, hxs.operations, htmp]
              refine ⟨?_, by omega⟩
              exact WriteBatch.replayable_clear.append hxs (by simp only [List.length_nil]; omega)
          apply hgo
          refine ⟨hhead, List.getLast?_concat, hnewSync, ?_, (fun hn => nomatch hn), ?_⟩
          · exact h.firstSize.trans (Nat.le_add_right _ _)
          · rintro t ⟨⟩
            rw [hops, hywops, List.length_append]
            refine ⟨hprev.1.append hys (by omega), by omega, hsmall⟩

/-- The group that `BuildBatchGroup` finds. -/
theorem buildBatchGroup_joined {ws : List ι} (hbuilt : firstBatch.Built)
    (htmp : s.tmpBatch = .clear) (hwriters : s.writers = first :: ws)
    (hfirst : (calls first).batch = some ⟨firstBatch, hbuilt⟩)
    (hbatch : ∀ j ∈ ws, (s.writer j).batch = (calls j).batch.map Subtype.val)
    (hsync : ∀ j, (s.writer j).sync = (calls j).sync) :
    ∃ members rest maxSize size, s.writers = members ++ rest ∧
      Joined calls first firstBatch maxSize members size (s.buildBatchGroup first firstBatch).1
        (s.buildBatchGroup first firstBatch).2 := by
  obtain ⟨maxSize, hdef⟩ : ∃ maxSize, maxSize = if firstBatch.byteSize ≤ 128 <<< 10 then
    firstBatch.byteSize + (128 <<< 10) else 1 <<< 20 := ⟨_, rfl⟩
  have hmax : maxSize ≤ 2 ^ 20 := by
    have h₁ : 128 <<< 10 = 131072 := rfl
    have h₂ : 1 <<< 20 = 1048576 := rfl
    rw [hdef, h₁, h₂]
    split_ifs <;> omega
  have hops : callOps calls [first] = firstBatch.operations := by
    rw [callOps, List.flatMap_singleton, WriteCall.ops, hfirst]
  have hinit : Joined calls first firstBatch maxSize [first] firstBatch.byteSize first none :=
    ⟨rfl, rfl, fun j hj hs => by rwa [List.mem_singleton.mp hj] at hs, le_rfl, fun _ => hops,
      fun t ht => nomatch ht⟩
  obtain ⟨more, rest, size, hsplit, hjoined⟩ :=
    hinit.buildLoop hmax hbuilt htmp hbatch hsync
  refine ⟨[first] ++ more, rest, maxSize, size, ?_, ?_⟩
  · rw [hwriters, hsplit]
    rfl
  · unfold buildBatchGroup
    simp only
    rw [hwriters, List.tail_cons, ← hdef]
    exact hjoined

end BuildGroup

/-- The group that a commit pops. -/
def group (s : WriteState ι) (c : Commit ι) : List ι := (popGroup c.lastWriter s.writers).1

/-- The members of the groups so far, in queue order. -/
def grouped (s : WriteState ι) : List ι := s.groups.flatMap Group.members

/-- The group of the front writer, if it is at a point of its commit that `f` picks. -/
def pending (f : WritePc ι → Option (Commit ι)) (s : WriteState ι) : List ι :=
  match s.writers.head? with
  | none => []
  | some i =>
    match f (s.pc i) with
    | some c => s.group c
    | none => []

end WriteState

/-- The commit of a call whose log record is written. -/
def WritePc.logged? {ι : Type} : WritePc ι → Option (Commit ι)
  | .syncing c | .inserting c | .relocking c => some c
  | _ => none

/-- The commit of a call whose batch is in the memtable. -/
def WritePc.inserted? {ι : Type} : WritePc ι → Option (Commit ι)
  | .relocking c => some c
  | _ => none

theorem WritePc.commit_of_logged {ι : Type} (pc : WritePc ι) (c : Commit ι)
    (h : pc.logged? = some c) :
    pc.commit? = some c := by
  cases pc <;> first | exact h | cases h

theorem WritePc.commit_of_inserted {ι : Type} (pc : WritePc ι) (c : Commit ι)
    (h : pc.inserted? = some c) :
    pc.commit? = some c := by
  cases pc <;> first | exact h | cases h

namespace WriteState

/-- The members of a group that is logged, but not popped. -/
def logged (s : WriteState ι) : List ι := s.pending WritePc.logged?

/-- The members of a group that is in the memtable, but not popped. -/
def inserted (s : WriteState ι) : List ι := s.pending WritePc.inserted?

/-- Every operation that a leader did has succeeded. -/
def Succeeding (s : WriteState ι) : Prop :=
  (∀ g ∈ s.groups, g.status = .ok) ∧ ∀ i c, (s.pc i).commit? = some c → c.status = .ok

/-- The log and the memtables hold the operations in queue order, numbered from `n` on. -/
def InOrder (calls : ι → WriteCall) (n : Nat) (s : WriteState ι) : Prop :=
  s.log.flatMap recordEntries = numbered (n + 1) (callOps calls (s.grouped ++ s.logged)) ∧
    s.mem = numbered (n + 1) (callOps calls (s.grouped ++ s.inserted)) ∧
    s.lastSequence % 2 ^ 64 = (n + (callOps calls s.grouped).length) % 2 ^ 64

/-- What holds of a leader from the start of its unlocked section on. -/
structure Committing (calls : ι → WriteCall) (s : WriteState ι) (i : ι) (c : Commit ι) :
    Prop where
  lastWriter : c.lastWriter ∈ s.writers
  sync : ∀ j ∈ s.group c, (calls j).sync = true → (calls i).sync = true
  sequence : (s.updates i c).sequence = (s.lastSequence + 1) % 2 ^ 64
  operations : (s.updates i c).operations = callOps calls (s.group c)
  count : (s.updates i c).iterate.2 = .ok →
    (s.updates i c).count = (callOps calls (s.group c)).length
  lastSequence : c.lastSequence = toUint64 (s.lastSequence + (s.updates i c).count)

/-- A call that leads a group or led one. -/
def Led (s : WriteState ι) (i : ι) : Prop :=
  (∃ c, (s.pc i).commit? = some c) ∨ ∃ g ∈ s.groups, g.members.head? = some i

/-- The batches, the log and the memtable. -/
structure DataOk (calls : ι → WriteCall) (n : Nat) (s : WriteState ι) : Prop where
  sync : ∀ i, (s.writer i).sync = (calls i).sync
  batch : ∀ i, ¬ s.Led i → (s.writer i).batch = (calls i).batch.map Subtype.val
  tmp : (∀ i c, (s.pc i).commit? = some c → c.usesTmp = false) → s.tmpBatch = .clear
  committing : ∀ i c, (s.pc i).commit? = some c → s.Committing calls i c
  logging : ∀ i c, s.pc i = .logging c → c.status = .ok
  relocking : ∀ i c, s.pc i = .relocking c → c.status = .ok → (s.updates i c).iterate.2 = .ok
  groupSync : ∀ g ∈ s.groups, ∀ i, g.members.head? = some i →
    ∀ j ∈ g.members, (calls j).sync = true → (calls i).sync = true
  inOrder : s.Succeeding → s.InOrder calls n

section Fronts

variable {calls : ι → WriteCall} {n : Nat} {s s' : WriteState ι} {i j : ι} {c c' : Commit ι}

/-- Only the front of the queue commits. -/
theorem QueueOk.commit_unique (q : s.QueueOk) (hi : (s.pc i).Leading)
    (hj : (s.pc j).commit? = some c) : j = i := by
  have hfi := q.front i hi
  have hfj := q.front j (WritePc.leading_of_commit hj)
  rw [hfi] at hfj
  exact (Option.some.inj hfj).symm

theorem Committing.congr (h : s.Committing calls i c) (hgroup : s'.group c' = s.group c)
    (hmem : c'.lastWriter ∈ s'.writers) (hupdates : s'.updates i c' = s.updates i c)
    (hsequence : s'.lastSequence = s.lastSequence) (hlast : c'.lastSequence = c.lastSequence) :
    s'.Committing calls i c' where
  lastWriter := hmem
  sync := by
    rw [hgroup]
    exact h.sync
  sequence := by
    rw [hupdates, hsequence]
    exact h.sequence
  operations := by
    rw [hupdates, hgroup]
    exact h.operations
  count := by
    rw [hupdates, hgroup]
    exact h.count
  lastSequence := by
    rw [hupdates, hsequence, hlast]
    exact h.lastSequence

theorem pending_of_front {f : WritePc ι → Option (Commit ι)} (hi : s.writers.head? = some i)
    (hc : f (s.pc i) = some c) : s.pending f = s.group c := by
  rw [pending, hi]
  simp only [hc]

theorem pending_of_front_none {f : WritePc ι → Option (Commit ι)} (hi : s.writers.head? = some i)
    (hc : f (s.pc i) = none) : s.pending f = [] := by
  rw [pending, hi]
  simp only [hc]

/-- A step of a call that does not commit, before or after, and the writers that arrive then. -/
structure Quiet (s : WriteState ι) (i : ι) (s' : WriteState ι) : Prop where
  writers : ∃ new, s'.writers = s.writers ++ new ∧ ∀ j ∈ new, j = i
  pc : ∀ j, j ≠ i → s'.pc j = s.pc j
  before : (s.pc i).commit? = none
  after : (s'.pc i).commit? = none
  frame : s'.writer = s.writer ∧ s'.tmpBatch = s.tmpBatch ∧ s'.lastSequence = s.lastSequence ∧
    s'.log = s.log ∧ s'.mem = s.mem ∧ s'.groups = s.groups

theorem Quiet.commit (h : s.Quiet i s') (j : ι) : (s'.pc j).commit? = (s.pc j).commit? := by
  by_cases hj : j = i
  · rw [hj, h.before, h.after]
  · rw [h.pc j hj]

theorem Quiet.group (h : s.Quiet i s') (hc : c.lastWriter ∈ s.writers) :
    s'.group c = s.group c := by
  obtain ⟨new, hnew, -⟩ := h.writers
  rw [WriteState.group, hnew, popGroup_queue_append hc]
  rfl

theorem Quiet.pending (h : s.Quiet i s') {f : WritePc ι → Option (Commit ι)}
    (hf : ∀ pc c, f pc = some c → pc.commit? = some c)
    (hmem : ∀ j c, (s.pc j).commit? = some c → c.lastWriter ∈ s.writers) :
    s'.pending f = s.pending f := by
  obtain ⟨new, hnew, hall⟩ := h.writers
  have hnone : ∀ pc : WritePc ι, pc.commit? = none → f pc = none := by
    intro pc hpc
    cases hfp : f pc with
    | none => rfl
    | some c => rw [hf pc c hfp] at hpc; cases hpc
  cases hhead : s.writers.head? with
  | none =>
    have hnil : s.writers = [] := List.head?_eq_none_iff.mp hhead
    rw [hnil, List.nil_append] at hnew
    rw [WriteState.pending, WriteState.pending, hhead]
    cases hhead' : s'.writers.head? with
    | none => rfl
    | some j =>
      have hj : j = i := hall j (hnew ▸ List.mem_of_mem_head? hhead')
      subst hj
      simp only [hnone _ h.after]
  | some j =>
    have hhead' : s'.writers.head? = some j := by rw [hnew, List.head?_append, hhead]; rfl
    cases hc : f (s.pc j) with
    | none =>
      rw [pending_of_front_none hhead hc]
      apply pending_of_front_none hhead'
      by_cases hj : j = i
      · subst hj
        exact hnone _ h.after
      · rw [h.pc j hj, hc]
    | some c =>
      have hcommit := hf _ c hc
      have hj : j ≠ i := by
        rintro rfl
        rw [h.before] at hcommit
        cases hcommit
      rw [pending_of_front hhead hc, pending_of_front hhead' (by rw [h.pc j hj]; exact hc)]
      exact h.group (hmem j c hcommit)

/-- What is logged and applied does not depend on calls that do not commit. -/
theorem DataOk.quiet (h : s.DataOk calls n) (hq : s.Quiet i s') : s'.DataOk calls n := by
  obtain ⟨hwriter, htmp, hseq, hlog, hmem, hgroups⟩ := hq.frame
  obtain ⟨new, hnew, -⟩ := hq.writers
  have hpcOf : ∀ j c, (s'.pc j).commit? = some c → s'.pc j = s.pc j := by
    intro j c hc
    by_cases hj : j = i
    · subst hj
      rw [hq.after] at hc
      cases hc
    · exact hq.pc j hj
  have hupdates : ∀ j c, s'.updates j c = s.updates j c := fun j c => by
    rw [updates, updates, hwriter, htmp]
  have hlast : ∀ j c, (s.pc j).commit? = some c → c.lastWriter ∈ s.writers :=
    fun j c hc => (h.committing j c hc).lastWriter
  refine ⟨hwriter ▸ h.sync, ?_, ?_, ?_, ?_, ?_, hgroups ▸ h.groupSync, ?_⟩
  · intro j hj
    rw [hwriter]
    apply h.batch j
    rintro (⟨c, hc⟩ | hg)
    · exact hj (Or.inl ⟨c, by rw [hq.commit]; exact hc⟩)
    · exact hj (Or.inr (hgroups ▸ hg))
  · intro hall
    rw [htmp]
    exact h.tmp fun j c hc => hall j c (by rw [hq.commit]; exact hc)
  · intro j c hc
    rw [hq.commit] at hc
    have hold := h.committing j c hc
    exact hold.congr (hq.group hold.lastWriter)
      (by rw [hnew]; exact List.mem_append_left _ hold.lastWriter) (hupdates j c) hseq rfl
  · intro j c hc
    rw [hpcOf j c (by rw [hc]; rfl)] at hc
    exact h.logging j c hc
  · intro j c hc
    rw [hpcOf j c (by rw [hc]; rfl)] at hc
    rw [hupdates]
    exact h.relocking j c hc
  · rintro ⟨hok, hcok⟩
    have hold := h.inOrder ⟨hgroups ▸ hok, fun j c hc => hcok j c (by rw [hq.commit]; exact hc)⟩
    have hlogged : s'.logged = s.logged := hq.pending WritePc.commit_of_logged hlast
    have hinserted : s'.inserted = s.inserted := hq.pending WritePc.commit_of_inserted hlast
    have hgrouped : s'.grouped = s.grouped := by rw [grouped, grouped, hgroups]
    rw [InOrder, hlog, hmem, hseq, hlogged, hinserted, hgrouped]
    exact hold

/-- A step of a leader inside its unlocked section. -/
theorem DataOk.move {log : List Bytes} {mem : List MemEntry} {pc : WritePc ι} (h : s.DataOk calls n)
    (q : s.QueueOk) (hc : (s.pc i).commit? = some c) (hc' : pc.commit? = some c')
    (hwriter : c'.lastWriter = c.lastWriter) (htmp : c'.usesTmp = c.usesTmp)
    (hlast : c'.lastSequence = c.lastSequence) (hlogging : ∀ d, pc ≠ .logging d)
    (hrelocking : ∀ d, pc = .relocking d → d.status = .ok → (s.updates i c).iterate.2 = .ok)
    (hinOrder : (∀ g ∈ s.groups, g.status = .ok) → c'.status = .ok →
      (({ s with log, mem } : WriteState ι).setPc i pc).InOrder calls n) :
    (({ s with log, mem } : WriteState ι).setPc i pc).DataOk calls n := by
  have hlead := WritePc.leading_of_commit hc
  have hself : Function.update s.pc i pc i = pc := Function.update_self _ _ _
  have hunique : ∀ j d, (Function.update s.pc i pc j).commit? = some d → j = i ∧ d = c' := by
    intro j d hd
    by_cases hj : j = i
    · subst hj
      rw [hself, hc'] at hd
      exact ⟨rfl, (Option.some.inj hd).symm⟩
    · rw [Function.update_of_ne hj] at hd
      exact absurd (q.commit_unique hlead hd) hj
  have hupdates : (({ s with log, mem } : WriteState ι).setPc i pc).updates i c' =
      s.updates i c := by
    simp only [updates, setPc_tmpBatch, setPc_writer, htmp]
  refine ⟨h.sync, ?_, ?_, ?_, ?_, ?_, h.groupSync, ?_⟩
  · intro j hj
    apply h.batch j
    rintro (⟨d, hd⟩ | hg)
    · have hji := q.commit_unique hlead hd
      subst hji
      exact hj (Or.inl ⟨c', by rw [setPc_pc, hself]; exact hc'⟩)
    · exact hj (Or.inr hg)
  · intro hall
    apply h.tmp
    intro j d hd
    have hji := q.commit_unique hlead hd
    subst hji
    rw [hc] at hd
    cases hd
    rw [← htmp]
    exact hall j c' (by rw [setPc_pc, hself]; exact hc')
  · intro j d hd
    obtain ⟨rfl, rfl⟩ := hunique j d hd
    have hold := h.committing j c hc
    refine hold.congr ?_ (by rw [hwriter]; exact hold.lastWriter) hupdates rfl hlast
    rw [group, group, hwriter]
    rfl
  · intro j d hd
    rw [setPc_pc] at hd
    have hji := (hunique j d (by rw [hd]; rfl)).1
    subst hji
    exact absurd (hself.symm.trans hd) (hlogging d)
  · intro j d hd hok
    rw [setPc_pc] at hd
    obtain ⟨rfl, rfl⟩ := hunique j d (by rw [hd]; rfl)
    rw [hupdates]
    exact hrelocking d (hself.symm.trans hd) hok
  · rintro ⟨hok, hcok⟩
    exact hinOrder hok (hcok i c' (by rw [setPc_pc, hself]; exact hc'))

/-- The entries of a commit's batch continue those of the groups before it. -/
theorem Committing.entries (h : s.Committing calls i c)
    (hlast : s.lastSequence % 2 ^ 64 = (n + (callOps calls s.grouped).length) % 2 ^ 64) :
    numbered (n + 1) (callOps calls s.grouped) ++
        numbered (s.updates i c).sequence (s.updates i c).operations =
      numbered (n + 1) (callOps calls (s.grouped ++ s.group c)) := by
  rw [callOps_append, numbered_append, h.operations, h.sequence, numbered_mod]
  congr 1
  apply numbered_congr
  omega

theorem succeeding_of_commit (q : s.QueueOk) (hc : (s.pc i).commit? = some c)
    (hok : ∀ g ∈ s.groups, g.status = .ok) (hstatus : c.status = .ok) : s.Succeeding := by
  refine ⟨hok, fun j d hd => ?_⟩
  have hji := q.commit_unique (WritePc.leading_of_commit hc) hd
  subst hji
  rw [hc] at hd
  cases hd
  exact hstatus

theorem DataOk.addRecord (h : s.DataOk calls n) (q : s.QueueOk) (hi : s.pc i = .logging c)
    (status : Status) : ((if status = .ok then { s with log := s.log ++ [(s.updates i c).rep] }
      else s).setPc i (.syncing { c with status })).DataOk calls n := by
  have hc : (s.pc i).commit? = some c := by rw [hi]; rfl
  have hfront := q.front i (WritePc.leading_of_commit hc)
  have hcommitting := h.committing i c hc
  by_cases hstatus : status = .ok
  · rw [if_pos hstatus]
    refine h.move q hc rfl rfl rfl rfl (fun d hd => nomatch hd)
      (fun d hd => nomatch hd) fun hok _ => ?_
    obtain ⟨hlog, hmem, hlast⟩ := h.inOrder (succeeding_of_commit q hc hok (h.logging i c hi))
    have hlogged : s.logged = [] := pending_of_front_none hfront (by rw [hi]; rfl)
    have hinserted : s.inserted = [] := pending_of_front_none hfront (by rw [hi]; rfl)
    rw [hlogged, List.append_nil] at hlog
    rw [hinserted, List.append_nil] at hmem
    refine ⟨?_, ?_, hlast⟩
    · have hgroup : (({ s with log := s.log ++ [(s.updates i c).rep] } : WriteState ι).setPc i
          (.syncing { c with status })).logged = s.group c :=
        pending_of_front (c := { c with status }) hfront
          (by rw [setPc_pc, Function.update_self]; rfl)
      rw [hgroup]
      simp only [setPc_log, List.flatMap_append, List.flatMap_singleton, hlog]
      exact hcommitting.entries hlast
    · have hgroup : (({ s with log := s.log ++ [(s.updates i c).rep] } : WriteState ι).setPc i
          (.syncing { c with status })).inserted = [] :=
        pending_of_front_none hfront (by rw [setPc_pc, Function.update_self]; rfl)
      rw [hgroup, List.append_nil]
      exact hmem
  · rw [if_neg hstatus]
    exact h.move q hc rfl rfl rfl rfl
      (fun d hd => nomatch hd) (fun d hd => nomatch hd) fun _ hok => absurd hok hstatus

/-- A step inside the unlocked section that touches neither log nor memtable. -/
theorem InOrder.setPc {pc : WritePc ι} (h : s.InOrder calls n) (hfront : s.writers.head? = some i)
    (hc : (s.pc i).logged? = some c) (hc' : pc.logged? = some c')
    (hin : (s.pc i).inserted? = none) (hin' : pc.inserted? = none)
    (hwriter : c'.lastWriter = c.lastWriter) : (s.setPc i pc).InOrder calls n := by
  obtain ⟨hlog, hmem, hlast⟩ := h
  have hself : (s.setPc i pc).pc i = pc := Function.update_self _ _ _
  have hlogged : (s.setPc i pc).logged = s.logged := by
    have hold : s.logged = s.group c := pending_of_front hfront hc
    have hnew : (s.setPc i pc).logged = s.group c' :=
      pending_of_front hfront (by rw [hself]; exact hc')
    rw [hold, hnew, group, group, hwriter]
  have hinserted : (s.setPc i pc).inserted = s.inserted := by
    have hold : s.inserted = [] := pending_of_front_none hfront hin
    have hnew : (s.setPc i pc).inserted = [] :=
      pending_of_front_none hfront (by rw [hself]; exact hin')
    rw [hold, hnew]
  rw [InOrder, hlogged, hinserted]
  exact ⟨hlog, hmem, hlast⟩

theorem DataOk.syncing (h : s.DataOk calls n) (q : s.QueueOk) (hi : s.pc i = .syncing c)
    (hwriter : c'.lastWriter = c.lastWriter) (htmp : c'.usesTmp = c.usesTmp)
    (hlast : c'.lastSequence = c.lastSequence) (hstatus : c'.status = .ok → c.status = .ok) :
    (s.setPc i (.inserting c')).DataOk calls n := by
  have hc : (s.pc i).commit? = some c := by rw [hi]; rfl
  have hfront := q.front i (WritePc.leading_of_commit hc)
  refine h.move q hc rfl hwriter htmp hlast
    (fun d hd => nomatch hd) (fun d hd => nomatch hd) fun hok hok' => ?_
  exact (h.inOrder (succeeding_of_commit q hc hok (hstatus hok'))).setPc hfront
    (by rw [hi]; rfl) rfl (by rw [hi]; rfl) rfl hwriter

theorem DataOk.insert {mem : List MemEntry} (h : s.DataOk calls n) (q : s.QueueOk)
    (hi : s.pc i = .inserting c) (hok : c.status = .ok)
    (hinsert : mem = s.mem ++ numbered (s.updates i c).sequence (s.updates i c).operations)
    (hc' : c' = { c with status := (s.updates i c).iterate.2 }) :
    (({ s with mem } : WriteState ι).setPc i (.relocking c')).DataOk calls n := by
  have hc : (s.pc i).commit? = some c := by rw [hi]; rfl
  have hfront := q.front i (WritePc.leading_of_commit hc)
  have hcommitting := h.committing i c hc
  have hwriter : c'.lastWriter = c.lastWriter := by rw [hc']
  have hself : (({ s with mem } : WriteState ι).setPc i (.relocking c')).pc i = .relocking c' :=
    Function.update_self _ _ _
  have hgroup : (({ s with mem } : WriteState ι).setPc i (.relocking c')).group c' =
      s.group c := by
    rw [group, group, hwriter]
    rfl
  refine h.move q hc rfl hwriter (by rw [hc']) (by rw [hc'])
    (fun d hd => nomatch hd) (fun d hd hstatus => ?_) fun hgroups _ => ?_
  · cases hd
    rw [hc'] at hstatus
    exact hstatus
  · obtain ⟨hlog, hmem, hlast⟩ := h.inOrder (succeeding_of_commit q hc hgroups hok)
    have hlogged : s.logged = s.group c := pending_of_front hfront (by rw [hi]; rfl)
    have hinserted : s.inserted = [] := pending_of_front_none hfront (by rw [hi]; rfl)
    have hlogged' : (({ s with mem } : WriteState ι).setPc i (.relocking c')).logged =
        s.group c := by
      rw [← hgroup]
      exact pending_of_front hfront (by rw [hself]; rfl)
    have hinserted' : (({ s with mem } : WriteState ι).setPc i (.relocking c')).inserted =
        s.group c := by
      rw [← hgroup]
      exact pending_of_front hfront (by rw [hself]; rfl)
    rw [hlogged] at hlog
    rw [hinserted, List.append_nil] at hmem
    refine ⟨?_, ?_, hlast⟩
    · rw [hlogged']
      exact hlog
    · rw [hinserted', setPc_mem, hinsert, hmem]
      exact hcommitting.entries hlast

theorem DataOk.insertSkipped (h : s.DataOk calls n) (q : s.QueueOk) (hi : s.pc i = .inserting c)
    (hfailed : c.status ≠ .ok) : (s.setPc i (.relocking c)).DataOk calls n := by
  have hc : (s.pc i).commit? = some c := by rw [hi]; rfl
  refine h.move q hc rfl rfl rfl rfl
    (fun d hd => nomatch hd) (fun d hd hstatus => ?_) fun _ hok => absurd hok hfailed
  cases hd
  exact absurd hstatus hfailed

/-- A leader with a batch builds its group. -/
theorem DataOk.startCommit {batch : WriteBatch} (h : s.DataOk calls n) (q : s.QueueOk)
    (hi : s.pc i = .makingRoom) (hbatch : (s.writer i).batch = some batch) :
    (s.startCommit i batch).DataOk calls n := by
  have hlead : (s.pc i).Leading := by rw [hi]; trivial
  have hfront := q.front i hlead
  have hnone : ∀ j d, (s.pc j).commit? ≠ some d := by
    intro j d hd
    have hji := q.commit_unique hlead hd
    subst hji
    rw [hi] at hd
    cases hd
  have hled : ∀ j ∈ s.writers, ¬ s.Led j := by
    rintro j hj (⟨d, hd⟩ | ⟨g, hg, hhead⟩)
    · exact hnone j d hd
    · exact q.not_released hj hg (List.mem_of_mem_head? hhead)
  have hown : ∀ j ∈ s.writers, (s.writer j).batch = (calls j).batch.map Subtype.val :=
    fun j hj => h.batch j (hled j hj)
  have htmp : s.tmpBatch = .clear := h.tmp fun j d hd => absurd hd (hnone j d)
  obtain ⟨hbuilt, hcall⟩ : ∃ hb, (calls i).batch = some ⟨batch, hb⟩ := by
    rw [hown i (List.mem_of_mem_head? hfront), Option.map_eq_some_iff] at hbatch
    obtain ⟨b, hb, rfl⟩ := hbatch
    exact ⟨b.property, hb⟩
  obtain ⟨ws, hws⟩ : ∃ ws, s.writers = i :: ws := by
    cases hw : s.writers with
    | nil => rw [hw] at hfront; cases hfront
    | cons w ws => rw [hw] at hfront; exact ⟨ws, by rw [Option.some.inj hfront]⟩
  obtain ⟨members, rest, maxSize, size, hsplit, hjoined⟩ := buildBatchGroup_joined hbuilt htmp hws
    hcall (fun j hj => hown j (by rw [hws]; exact List.mem_cons_of_mem _ hj)) h.sync
  unfold WriteState.startCommit
  generalize s.buildBatchGroup i batch = p at hjoined
  obtain ⟨last, tmp⟩ := p
  simp only at hjoined ⊢
  generalize hupdates : (tmp.getD batch).setSequence ((s.lastSequence + 1) % 2 ^ 64) = updates
  generalize hc : (⟨last, tmp.isSome, toUint64 (s.lastSequence + updates.count), .ok, false⟩ :
    Commit ι) = c
  have hnodup : s.writers.Nodup := by
    have hall := q.nodup
    rw [q.arrivals] at hall
    exact (List.nodup_append.mp hall).2.1
  have hgroup : popGroup last s.writers = (members, rest) := by
    rw [hsplit] at hnodup ⊢
    exact popGroup_eq hnodup hjoined.last
  -- the members' operations are those of the batch that is logged
  have hops : updates.operations = callOps calls members ∧
      (updates.iterate.2 = .ok → updates.count = (callOps calls members).length) := by
    cases tmp with
    | none =>
      obtain ⟨ops, hlayout⟩ := hbuilt.layout
      have hiterate := hlayout.iterate_setSequence ((s.lastSequence + 1) % 2 ^ 64)
      have hoperations : updates.operations = callOps calls members := by
        rw [← hupdates, Option.getD_none, WriteBatch.operations, hiterate]
        exact (hjoined.own rfl).symm
      refine ⟨hoperations, fun hok => ?_⟩
      rw [← hoperations]
      rw [← hupdates] at hok ⊢
      exact ((hbuilt.setSequence _).replayable hok).count
    | some t =>
      have hreplay := (hjoined.tmp t rfl).1.setSequence ((s.lastSequence + 1) % 2 ^ 64)
      rw [← hupdates]
      exact ⟨hreplay.operations, fun _ => hreplay.count⟩
  obtain ⟨s', hs'⟩ : ∃ s' : WriteState ι, s' = (if tmp.isSome = true then
    { s with tmpBatch := updates } else s.setBatch i updates).setPc i (.logging c) := ⟨_, rfl⟩
  rw [← hs']
  have hframe : s'.writers = s.writers ∧ s'.groups = s.groups ∧ s'.lastSequence = s.lastSequence ∧
      s'.log = s.log ∧ s'.mem = s.mem ∧ s'.pc = Function.update s.pc i (.logging c) := by
    rw [hs']
    split_ifs <;> exact ⟨rfl, rfl, rfl, rfl, rfl, rfl⟩
  obtain ⟨hwriters, hgroups, hsequence, hlog, hmem, hpc⟩ := hframe
  have hbatches : ∀ j, (s'.writer j).sync = (s.writer j).sync ∧
      (j ≠ i → (s'.writer j).batch = (s.writer j).batch) := by
    intro j
    rw [hs']
    split_ifs
    · exact ⟨rfl, fun _ => rfl⟩
    · by_cases hj : j = i <;> simp [setBatch, hj]
  have hnow : s'.updates i c = updates := by
    rw [hs', ← hc]
    cases tmp <;> simp [WriteState.updates, setBatch]
  have hself : s'.pc i = .logging c := by rw [hpc, Function.update_self]
  have hunique : ∀ j d, (s'.pc j).commit? = some d → j = i ∧ d = c := by
    intro j d hd
    by_cases hj : j = i
    · subst hj
      rw [hself] at hd
      exact ⟨rfl, (Option.some.inj hd).symm⟩
    · rw [hpc, Function.update_of_ne hj] at hd
      exact absurd hd (hnone j d)
  have hmembers : s'.group c = members := by rw [group, hwriters, ← hc, hgroup]
  refine ⟨fun j => (hbatches j).1.trans (h.sync j), ?_, ?_, ?_, ?_, ?_, hgroups ▸ h.groupSync, ?_⟩
  · intro j hj
    have hji : j ≠ i := fun hji => hj (Or.inl ⟨c, by rw [hji, hself]; rfl⟩)
    rw [(hbatches j).2 hji]
    apply h.batch j
    rintro (⟨d, hd⟩ | hg)
    · exact hnone j d hd
    · exact hj (Or.inr (hgroups ▸ hg))
  · intro hall
    have hno : tmp.isSome = false := by
      rw [← hall i c (by rw [hself]; rfl), ← hc]
    rw [hs', if_neg (by rw [hno]; exact Bool.false_ne_true)]
    exact htmp
  · intro j d hd
    obtain ⟨rfl, rfl⟩ := hunique j d hd
    refine ⟨?_, ?_, ?_, ?_, ?_, ?_⟩
    · rw [hwriters, hsplit, ← hc]
      exact List.mem_append_left _ (List.mem_of_getLast? hjoined.last)
    · rw [hmembers]
      exact hjoined.sync
    · rw [hnow, hsequence, ← hupdates, WriteBatch.sequence_setSequence, Nat.mod_mod]
    · rw [hnow, hmembers]
      exact hops.1
    · rw [hnow, hmembers]
      exact hops.2
    · rw [hnow, hsequence, ← hc]
  · intro j d hd
    obtain ⟨-, rfl⟩ := hunique j d (by rw [hd]; rfl)
    rw [← hc]
  · intro j d hd
    obtain ⟨rfl, rfl⟩ := hunique j d (by rw [hd]; rfl)
    rw [hself] at hd
    cases hd
  · rintro ⟨hok, -⟩
    have hold := h.inOrder ⟨hgroups ▸ hok, fun j d hd => absurd hd (hnone j d)⟩
    have hlogged : s'.logged = s.logged :=
      (pending_of_front_none (hwriters ▸ hfront) (by rw [hself]; rfl)).trans
        (pending_of_front_none hfront (by rw [hi]; rfl)).symm
    have hinserted : s'.inserted = s.inserted :=
      (pending_of_front_none (hwriters ▸ hfront) (by rw [hself]; rfl)).trans
        (pending_of_front_none hfront (by rw [hi]; rfl)).symm
    have hgrouped : s'.grouped = s.grouped := by rw [grouped, grouped, hgroups]
    rw [InOrder, hlog, hmem, hsequence, hlogged, hinserted, hgrouped]
    exact hold

/-- A leader pops a group whose operations are in the log and in the memtable, if its status
says so. -/
theorem DataOk.finish {last : ι} {status : Status} (q : s.QueueOk) (hi : (s.pc i).Leading)
    (hlast : last ∈ s.writers) (hsync : ∀ j, (s.writer j).sync = (calls j).sync)
    (hbatch : ∀ j, j ≠ i → (∀ g ∈ s.groups, g.members.head? ≠ some j) →
      (s.writer j).batch = (calls j).batch.map Subtype.val)
    (htmp : s.tmpBatch = .clear)
    (hgroups : ∀ g ∈ s.groups, ∀ i, g.members.head? = some i →
      ∀ j ∈ g.members, (calls j).sync = true → (calls i).sync = true)
    (hgroup : ∀ j ∈ (popGroup last s.writers).1, (calls j).sync = true → (calls i).sync = true)
    (hinOrder : (∀ g ∈ s.groups, g.status = .ok) → status = .ok →
      s.log.flatMap recordEntries = numbered (n + 1)
          (callOps calls (s.grouped ++ (popGroup last s.writers).1)) ∧
        s.mem = numbered (n + 1) (callOps calls (s.grouped ++ (popGroup last s.writers).1)) ∧
        s.lastSequence % 2 ^ 64 = (n + (callOps calls
          (s.grouped ++ (popGroup last s.writers).1)).length) % 2 ^ 64) :
    (s.finish i last status).DataOk calls n := by
  have hfront := q.front i hi
  have hhead := head?_popGroup hlast
  rw [hfront] at hhead
  have hq := q.finish status hi hlast
  obtain ⟨s', hs'⟩ : ∃ s', s' = s.finish i last status := ⟨_, rfl⟩
  rw [← hs'] at hq ⊢
  rw [finish_eq] at hs'
  have hnone : ∀ j d, (s'.pc j).commit? ≠ some d := by
    intro j d hd
    rw [hs'] at hd
    simp only at hd
    split_ifs at hd with hji hmem
    · cases hd
    · rw [WritePc.commit_signalled] at hd
      exact hji (q.commit_unique hi hd)
    · exact hji (q.commit_unique hi hd)
  have hpending : ∀ f : WritePc ι → Option (Commit ι), (∀ pc c, f pc = some c → pc.commit? = some c) →
      s'.pending f = [] := by
    intro f hf
    cases hhd : s'.writers.head? with
    | none => rw [pending, hhd]
    | some j =>
      apply pending_of_front_none hhd
      cases hfj : f (s'.pc j) with
      | none => rfl
      | some d => exact absurd (hf _ d hfj) (hnone j d)
  have hgrouped : s'.grouped = s.grouped ++ (popGroup last s.writers).1 := by
    rw [hs', grouped, grouped]
    simp
  refine ⟨?_, ?_, ?_, ?_, ?_, ?_, ?_, ?_⟩
  · intro j
    rw [← hsync j, hs']
    simp only
    split_ifs <;> rfl
  · intro j hj
    have hji : j ≠ i := by
      rintro rfl
      exact hj (Or.inr ⟨⟨(popGroup last s.writers).1, status⟩, by rw [hs']; simp, hhead⟩)
    have hno : ∀ g ∈ s.groups, g.members.head? ≠ some j := by
      intro g hg hgj
      exact hj (Or.inr ⟨g, by rw [hs']; exact List.mem_append_left _ hg, hgj⟩)
    rw [← hbatch j hji hno, hs']
    simp only
    split_ifs <;> rfl
  · intro _
    rw [hs']
    exact htmp
  · exact fun j d hd => absurd hd (hnone j d)
  · exact fun j d hd => absurd (by rw [hd]; rfl) (hnone j d)
  · exact fun j d hd => absurd (by rw [hd]; rfl) (hnone j d)
  · intro g hg
    rw [hs'] at hg
    simp only [List.mem_append, List.mem_singleton] at hg
    obtain hg | rfl := hg
    · exact hgroups g hg
    · intro j hj
      rw [hhead] at hj
      cases hj
      exact hgroup
  · rintro ⟨hok, -⟩
    have hold : ∀ g ∈ s.groups, g.status = .ok := by
      intro g hg
      exact hok g (by rw [hs']; exact List.mem_append_left _ hg)
    have hnew : status = .ok := hok ⟨(popGroup last s.writers).1, status⟩ (by rw [hs']; simp)
    obtain ⟨hlog, hmem, hseq⟩ := hinOrder hold hnew
    have hlogged : s'.logged = [] := hpending _ WritePc.commit_of_logged
    have hinserted : s'.inserted = [] := hpending _ WritePc.commit_of_inserted
    rw [InOrder, hlogged, hinserted, List.append_nil, hgrouped, hs']
    exact ⟨hlog, hmem, hseq⟩

/-- A leader that commits nothing: no room, or a null batch. -/
theorem DataOk.finish_alone {status : Status} (h : s.DataOk calls n) (q : s.QueueOk)
    (hi : s.pc i = .makingRoom) (hnull : status = .ok → (s.writer i).batch = none) :
    (s.finish i i status).DataOk calls n := by
  have hlead : (s.pc i).Leading := by rw [hi]; trivial
  have hfront := q.front i hlead
  have hmem : i ∈ s.writers := List.mem_of_mem_head? hfront
  have hnone : ∀ j d, (s.pc j).commit? ≠ some d := by
    intro j d hd
    have hji := q.commit_unique hlead hd
    subst hji
    rw [hi] at hd
    cases hd
  have hgroup : (popGroup i s.writers).1 = [i] := by
    cases hw : s.writers with
    | nil => rw [hw] at hfront; cases hfront
    | cons w ws =>
      rw [hw] at hfront
      rw [Option.some.inj hfront, popGroup, if_pos rfl]
  refine DataOk.finish q hlead hmem h.sync ?_ (h.tmp fun j d hd => absurd hd (hnone j d))
    h.groupSync ?_ fun hok hstatus => ?_
  · intro j _ hj
    apply h.batch j
    rintro (⟨d, hd⟩ | ⟨g, hg, hgj⟩)
    · exact hnone j d hd
    · exact hj g hg hgj
  · intro j hj hs
    rw [hgroup, List.mem_singleton] at hj
    exact hj ▸ hs
  · obtain ⟨hlog, hmem', hseq⟩ := h.inOrder ⟨hok, fun j d hd => absurd hd (hnone j d)⟩
    have hlogged : s.logged = [] := pending_of_front_none hfront (by rw [hi]; rfl)
    have hinserted : s.inserted = [] := pending_of_front_none hfront (by rw [hi]; rfl)
    have hbatch := h.batch i (by
      rintro (⟨d, hd⟩ | ⟨g, hg, hgi⟩)
      · exact hnone i d hd
      · exact q.not_released hmem hg (List.mem_of_mem_head? hgi))
    rw [hnull hstatus] at hbatch
    have hops : callOps calls [i] = [] := by
      rw [callOps, List.flatMap_singleton, WriteCall.ops]
      cases hcall : (calls i).batch with
      | none => rfl
      | some b => rw [hcall] at hbatch; cases hbatch
    rw [hlogged, List.append_nil] at hlog
    rw [hinserted, List.append_nil] at hmem'
    rw [hgroup, callOps_append, hops, List.append_nil]
    exact ⟨hlog, hmem', hseq⟩

/-- A leader comes back from its unlocked section. -/
theorem DataOk.relock (h : s.DataOk calls n) (q : s.QueueOk) (hi : s.pc i = .relocking c)
    (bgError : Status) :
    (({ s with
      bgError
      tmpBatch := if c.usesTmp then .clear else s.tmpBatch
      lastSequence := c.lastSequence } : WriteState ι).finish i c.lastWriter c.status).DataOk
        calls n := by
  have hc : (s.pc i).commit? = some c := by rw [hi]; rfl
  have hlead := WritePc.leading_of_commit hc
  have hfront := q.front i hlead
  have hcommitting := h.committing i c hc
  have hunique : ∀ j d, (s.pc j).commit? = some d → j = i ∧ d = c := by
    intro j d hd
    have hji := q.commit_unique hlead hd
    subst hji
    rw [hc] at hd
    exact ⟨rfl, (Option.some.inj hd).symm⟩
  obtain ⟨s', hs'⟩ : ∃ s' : WriteState ι, s' = { s with
      bgError
      tmpBatch := if c.usesTmp then .clear else s.tmpBatch
      lastSequence := c.lastSequence } := ⟨_, rfl⟩
  have hq : s'.QueueOk := by rw [hs']; exact q.congr rfl rfl rfl rfl rfl
  have hgroup : (popGroup c.lastWriter s'.writers).1 = s.group c := by rw [hs']; rfl
  have hgrouped : s'.grouped = s.grouped := by rw [hs']; rfl
  rw [← hs']
  refine DataOk.finish hq (by rw [hs']; exact hlead) (by rw [hs']; exact hcommitting.lastWriter)
    (by rw [hs']; exact h.sync) ?_ ?_ (by rw [hs']; exact h.groupSync) ?_ fun hok hstatus => ?_
  · intro j hj hno
    rw [hs'] at hno ⊢
    apply h.batch j
    rintro (⟨d, hd⟩ | ⟨g, hg, hgj⟩)
    · exact hj (hunique j d hd).1
    · exact hno g hg hgj
  · rw [hs']
    simp only
    split_ifs with huses
    · rfl
    · apply h.tmp
      intro j d hd
      rw [(hunique j d hd).2]
      simpa using huses
  · rw [hgroup]
    exact hcommitting.sync
  · rw [hgroup, hgrouped]
    have hok' : ∀ g ∈ s.groups, g.status = .ok := by rw [hs'] at hok; exact hok
    obtain ⟨hlog, hmem, hlast⟩ := h.inOrder (succeeding_of_commit q hc hok' hstatus)
    have hlogged : s.logged = s.group c := pending_of_front hfront (by rw [hi]; rfl)
    have hinserted : s.inserted = s.group c := pending_of_front hfront (by rw [hi]; rfl)
    rw [hlogged] at hlog
    rw [hinserted] at hmem
    have hcount := hcommitting.count (h.relocking i c hi hstatus)
    have hsequence : s'.lastSequence = c.lastSequence := by rw [hs']
    have hlog' : s'.log = s.log := by rw [hs']
    have hmem' : s'.mem = s.mem := by rw [hs']
    rw [hsequence, hlog', hmem']
    refine ⟨hlog, hmem, ?_⟩
    rw [hcommitting.lastSequence, hcount, callOps_append, List.length_append, toUint64]
    omega

end Fronts

/-- Both parts of the invariant hold before the first call. -/
theorem DataOk.initial (calls : ι → WriteCall) (n : Nat) :
    (WriteState.initial calls n).DataOk calls n where
  sync _ := rfl
  batch _ _ := rfl
  tmp _ := rfl
  committing _ _ h := nomatch h
  logging _ _ h := nomatch h
  relocking _ _ h := nomatch h
  groupSync _ h := nomatch h
  inOrder _ := ⟨rfl, rfl, rfl⟩

end WriteState

end WiscKey
