import WiscKey.Write.GroupCommitData
import Mathlib.Algebra.Order.BigOperators.Group.List

/-!
# Runs of group commit

Every action keeps the invariant, so it holds in every state of every run. A run without
new calls and spurious wake-ups is short, and where it ends every call has returned.
-/

set_option linter.unusedSectionVars false

namespace WiscKey

variable {ι : Type} [DecidableEq ι]

namespace WriteState

variable {calls : ι → WriteCall} {n : Nat} {s s' : WriteState ι} {i : ι}

/-- A writer that looks at the queue, with the writers that just arrived. -/
theorem DataOk.poll {new : List ι} (h : s.DataOk calls n) (hnew : ∀ j ∈ new, j = i)
    (hpc : (s.pc i).commit? = none) : (({ s with
      writers := s.writers ++ new, arrivals := s.arrivals ++ new } : WriteState ι).poll i).DataOk
        calls n := by
  obtain ⟨pc, hpoll, hcases⟩ := ({ s with
    writers := s.writers ++ new, arrivals := s.arrivals ++ new } : WriteState ι).poll_eq i
  rw [hpoll]
  have hcommit : pc.commit? = none := by split_ifs at hcases <;> rw [hcases] <;> rfl
  exact h.quiet (i := i) ⟨⟨new, rfl, hnew⟩, fun j hj => Function.update_of_ne hj _ _, hpc,
    by rw [setPc_pc, Function.update_self, hcommit], ⟨rfl, rfl, rfl, rfl, rfl, rfl⟩⟩

theorem wake_step {b : Bool} (q : s.QueueOk) (h : s.DataOk calls n) (hpc : s.pc i = .waiting b) :
    (s.poll i).QueueOk ∧ (s.poll i).DataOk calls n := by
  refine ⟨q.poll hpc, ?_⟩
  have hpoll := h.poll (i := i) (fun j (hj : j ∈ ([] : List ι)) => nomatch hj) (by rw [hpc]; rfl)
  rw [List.append_nil, List.append_nil] at hpoll
  exact hpoll

/-- One action keeps the queue and the data in order. -/
theorem QueueOk.step {a : WriteAction ι} (q : s.QueueOk) (h : s.DataOk calls n)
    (hstep : s.step a = some s') : s'.QueueOk ∧ s'.DataOk calls n := by
  cases a with
  | call i =>
    simp only [WriteState.step] at hstep
    split at hstep
    · rename_i hpc
      cases hstep
      exact ⟨q.call hpc, h.poll (fun j hj => List.mem_singleton.mp hj) (by rw [hpc]; rfl)⟩
    · cases hstep
  | wake i =>
    simp only [WriteState.step] at hstep
    split at hstep
    · rename_i hpc
      cases hstep
      exact wake_step q h hpc
    · cases hstep
  | spuriousWake i =>
    simp only [WriteState.step] at hstep
    split at hstep
    · rename_i hpc
      cases hstep
      exact wake_step q h hpc
    · cases hstep
  | roomMade i status =>
    simp only [WriteState.step] at hstep
    split at hstep
    · rename_i hpc
      split_ifs at hstep
      have hlead : (s.pc i).Leading := by rw [hpc]; trivial
      split at hstep
      · rename_i batch hbatch _
        cases hstep
        refine ⟨?_, h.startCommit q hpc hbatch⟩
        unfold WriteState.startCommit
        simp only
        split_ifs
        · exact q.move hlead (by trivial) rfl rfl rfl rfl fun j => ⟨rfl, rfl⟩
        · refine q.move hlead (by trivial) rfl rfl rfl rfl fun j => ?_
          by_cases hj : j = i <;> simp [setBatch, hj]
      · rename_i hnot
        cases hstep
        refine ⟨q.finish _ hlead (List.mem_of_mem_head? (q.front i hlead)),
          h.finish_alone q hpc fun hok => ?_⟩
        cases hbatch : (s.writer i).batch with
        | none => rfl
        | some batch => exact absurd hbatch (hnot batch hok)
    · cases hstep
  | addRecord i status =>
    simp only [WriteState.step] at hstep
    split at hstep
    · rename_i c hpc
      cases hstep
      have hlead : (s.pc i).Leading := by rw [hpc]; trivial
      refine ⟨?_, h.addRecord q hpc status⟩
      split_ifs
      · exact q.move hlead (by trivial) rfl rfl rfl rfl fun j => ⟨rfl, rfl⟩
      · exact q.move hlead (by trivial) rfl rfl rfl rfl fun j => ⟨rfl, rfl⟩
    · cases hstep
  | syncLog i status =>
    simp only [WriteState.step] at hstep
    split at hstep
    · rename_i c hpc
      have hlead : (s.pc i).Leading := by rw [hpc]; trivial
      split_ifs at hstep with hsync
      · cases hstep
        exact ⟨q.move hlead (by trivial) rfl rfl rfl rfl fun j => ⟨rfl, rfl⟩,
          h.syncing q hpc rfl rfl rfl fun _ => hsync.1⟩
      · cases hstep
        exact ⟨q.move hlead (by trivial) rfl rfl rfl rfl fun j => ⟨rfl, rfl⟩,
          h.syncing q hpc rfl rfl rfl id⟩
    · cases hstep
  | insert i =>
    simp only [WriteState.step] at hstep
    split at hstep
    · rename_i c hpc
      have hlead : (s.pc i).Leading := by rw [hpc]; trivial
      split_ifs at hstep with hok
      · cases hstep
        exact ⟨q.move hlead (by trivial) rfl rfl rfl rfl fun j => ⟨rfl, rfl⟩,
          h.insert q hpc hok rfl rfl⟩
      · cases hstep
        exact ⟨q.move hlead (by trivial) rfl rfl rfl rfl fun j => ⟨rfl, rfl⟩,
          h.insertSkipped q hpc hok⟩
    · cases hstep
  | relock i =>
    simp only [WriteState.step] at hstep
    split at hstep
    · rename_i c hpc
      have hlead : (s.pc i).Leading := by rw [hpc]; trivial
      obtain ⟨s₁, hs₁⟩ : ∃ s₁ : WriteState ι, s₁ = { s with
          bgError := if c.syncError = true ∧ s.bgError = .ok then c.status else s.bgError
          tmpBatch := if c.usesTmp then .clear else s.tmpBatch
          lastSequence := c.lastSequence } := ⟨_, rfl⟩
      have heq : s' = s₁.finish i c.lastWriter c.status := by
        rw [hs₁]
        cases hstep
        split_ifs <;> rfl
      have hmem := (h.committing i c (by rw [hpc]; rfl)).lastWriter
      have q₁ : s₁.QueueOk := by rw [hs₁]; exact q.congr rfl rfl rfl rfl rfl
      rw [heq]
      refine ⟨q₁.finish c.status (by rw [hs₁]; exact hlead) (by rw [hs₁]; exact hmem), ?_⟩
      rw [hs₁]
      exact h.relock q hpc _
    · cases hstep

/-- The invariant of group commit. -/
def WriteOk (calls : ι → WriteCall) (n : Nat) (s : WriteState ι) : Prop :=
  s.QueueOk ∧ s.DataOk calls n

theorem initial_ok (calls : ι → WriteCall) (n : Nat) : (initial calls n).WriteOk calls n :=
  ⟨QueueOk.initial calls n, DataOk.initial calls n⟩

/-- The invariant holds in every state of a run. -/
theorem run_ok {actions : List (WriteAction ι)}
    (hrun : Run Steps (initial calls n) actions s) : s.WriteOk calls n :=
  hrun.invariant (fun s => s.WriteOk calls n) (initial_ok calls n)
    fun _ _ _ h hstep => h.1.step h.2 hstep

end WriteState

/-- How many steps a call can still take before it returns. -/
def WritePc.weight {ι : Type} (done : Bool) : WritePc ι → Nat
  | .notCalled => 0
  | .waiting signalled => if done then 1 else 10 + signalled.toNat
  | .makingRoom => 8
  | .logging _ => 7
  | .syncing _ => 6
  | .inserting _ => 5
  | .relocking _ => 4
  | .returned _ => 0

theorem WritePc.four_le_weight {ι : Type} {pc : WritePc ι} (h : pc.Leading) (done : Bool) :
    4 ≤ pc.weight done := by
  cases pc with
  | notCalled => cases h
  | waiting => cases h
  | returned => cases h
  | _ => simp [WritePc.weight]

/-- An action of a thread that is awake: no new call, and nobody woke by chance. -/
def WriteAction.Awake {ι : Type} : WriteAction ι → Prop
  | .call _ | .spuriousWake _ => False
  | _ => True

namespace WriteState

variable {calls : ι → WriteCall} {n : Nat} {s s' : WriteState ι} {i : ι}

/-- A bound on the steps that the calls in progress can take. -/
def work (s : WriteState ι) : Nat :=
  (s.arrivals.map fun i => (s.pc i).weight (s.writer i).done).sum

/-- A step of one call makes it come closer to its return. -/
theorem work_setPc {pc : WritePc ι} (q : s.QueueOk) (hi : s.pc i ≠ .notCalled)
    (ha : s'.arrivals = s.arrivals) (hpc : s'.pc = Function.update s.pc i pc)
    (hdone : ∀ j, (s'.writer j).done = (s.writer j).done)
    (hweight : pc.weight (s.writer i).done < (s.pc i).weight (s.writer i).done) :
    s'.work < s.work := by
  unfold work
  rw [ha]
  apply List.sum_lt_sum
  · intro j _
    rw [hpc, hdone]
    by_cases hj : j = i
    · rw [hj, Function.update_self]
      exact hweight.le
    · rw [Function.update_of_ne hj]
  · refine ⟨i, q.mem_arrivals hi, ?_⟩
    rw [hpc, hdone, Function.update_self]
    exact hweight

theorem sum_indicator_le {l : List ι} (hl : l.Nodup) (a : Option ι) :
    (l.map fun j => if a = some j then 1 else 0).sum ≤ 1 := by
  induction l with
  | nil => exact Nat.zero_le _
  | cons x l ih =>
    obtain ⟨hx, hl⟩ := List.nodup_cons.mp hl
    rw [List.map_cons, List.sum_cons]
    split_ifs with ha
    · have hzero : (l.map fun j => if a = some j then 1 else 0).sum = 0 := by
        rw [List.sum_eq_zero]
        intro k hk
        obtain ⟨j, hj, rfl⟩ := List.mem_map.mp hk
        rw [if_neg]
        rw [ha]
        rintro ⟨⟩
        exact hx hj
      omega
    · have hrest := ih hl
      omega

theorem le_sum_indicator {l : List ι} {a : ι} (ha : a ∈ l) (k : Nat) :
    k ≤ (l.map fun j => if j = a then k else 0).sum := by
  induction l with
  | nil => cases ha
  | cons x l ih =>
    rw [List.map_cons, List.sum_cons]
    by_cases hx : x = a
    · rw [if_pos hx]
      omega
    · have hrest := ih ((List.mem_cons.mp ha).resolve_left (Ne.symm hx))
      omega

/-- The end of `Write` brings the popped writers closer to their return by more than it wakes. -/
theorem work_finish (last : ι) (status : Status) (q : s.QueueOk) (hi : (s.pc i).Leading) :
    (s.finish i last status).work < s.work := by
  have hfront := q.front i hi
  have hqueue : i ∈ s.writers := List.mem_of_mem_head? hfront
  have hmem : i ∈ s.arrivals := by rw [q.arrivals]; exact List.mem_append_right _ hqueue
  have hsplit := popGroup_append last s.writers
  have hwait : ∀ j ∈ s.writers, j ≠ i → ∃ b, s.pc j = .waiting b := by
    intro j hj hji
    obtain ⟨-, hlead | hwait⟩ := q.queued j hj
    · have hj := q.front j hlead
      rw [hfront] at hj
      exact absurd (Option.some.inj hj).symm hji
    · exact hwait
  have hold := WritePc.four_le_weight hi (s.writer i).done
  have hbound : (s.finish i last status).work +
      (s.arrivals.map fun j => if j = i then 4 else 0).sum ≤ s.work +
        (s.arrivals.map fun j => if (popGroup last s.writers).2.head? = some j then 1 else 0).sum := by
    rw [finish_eq, work, work, ← List.sum_map_add, ← List.sum_map_add]
    apply List.sum_le_sum
    intro j _
    simp only
    by_cases hji : j = i
    · subst hji
      rw [if_pos rfl, if_pos rfl]
      exact hold.trans (Nat.le_add_right _ _)
    · rw [if_neg hji, if_neg hji, Nat.add_zero]
      by_cases hready : j ∈ (popGroup last s.writers).1
      · have hw : j ∈ s.writers := hsplit ▸ List.mem_append_left _ hready
        obtain ⟨b, hb⟩ := hwait j hw hji
        rw [if_pos (Or.inl hready), if_pos ⟨hready, hji⟩, hb, (q.queued j hw).1]
        simp only [WritePc.signalled, WritePc.weight, if_true, Bool.false_eq_true, if_false]
        omega
      · rw [if_neg (fun h : j ∈ _ ∧ _ => hready h.1)]
        by_cases hhead : (popGroup last s.writers).2.head? = some j
        · have hw : j ∈ s.writers :=
            hsplit ▸ List.mem_append_right _ (List.mem_of_mem_head? hhead)
          obtain ⟨b, hb⟩ := hwait j hw hji
          rw [if_pos (Or.inr hhead), if_pos hhead, hb, (q.queued j hw).1]
          cases b <;> simp [WritePc.weight, WritePc.signalled]
        · rw [if_neg (not_or.mpr ⟨hready, hhead⟩), if_neg hhead, Nat.add_zero]
  have hone := sum_indicator_le q.nodup (popGroup last s.writers).2.head?
  have hfour := le_sum_indicator hmem 4
  omega

/-- A thread that is awake gets on. -/
theorem work_step {a : WriteAction ι} (ha : a.Awake) (q : s.QueueOk) (hstep : s.step a = some s') :
    s'.work < s.work := by
  cases a with
  | call i => cases ha
  | spuriousWake i => cases ha
  | wake i =>
    simp only [WriteState.step] at hstep
    split at hstep
    · rename_i hpc
      cases hstep
      obtain ⟨pc, hpoll, hcases⟩ := s.poll_eq i
      rw [hpoll]
      refine work_setPc q (by rw [hpc]; exact fun hn => by cases hn) rfl rfl (fun _ => rfl) ?_
      rw [hpc]
      split_ifs at hcases with hdone hhead
      · rw [hcases, hdone]
        simp [WritePc.weight]
      · rw [hcases, Bool.eq_false_iff.mpr hdone]
        simp [WritePc.weight]
      · rw [hcases, Bool.eq_false_iff.mpr hdone]
        simp [WritePc.weight]
    · cases hstep
  | roomMade i status =>
    simp only [WriteState.step] at hstep
    split at hstep
    · rename_i hpc
      split_ifs at hstep
      have hlead : (s.pc i).Leading := by rw [hpc]; trivial
      have hne : s.pc i ≠ .notCalled := by rw [hpc]; exact fun hn => by cases hn
      split at hstep
      · cases hstep
        unfold WriteState.startCommit
        simp only
        split_ifs
        · exact work_setPc q hne rfl rfl (fun _ => rfl) (by rw [hpc]; simp [WritePc.weight])
        · refine work_setPc q hne rfl rfl (fun j => ?_) (by rw [hpc]; simp [WritePc.weight])
          by_cases hj : j = i <;> simp [setBatch, hj]
      · cases hstep
        exact work_finish _ _ q hlead
    · cases hstep
  | addRecord i status =>
    simp only [WriteState.step] at hstep
    split at hstep
    · rename_i c hpc
      cases hstep
      have hne : s.pc i ≠ .notCalled := by rw [hpc]; exact fun hn => by cases hn
      split_ifs <;>
        exact work_setPc q hne rfl rfl (fun _ => rfl) (by rw [hpc]; simp [WritePc.weight])
    · cases hstep
  | syncLog i status =>
    simp only [WriteState.step] at hstep
    split at hstep
    · rename_i c hpc
      have hne : s.pc i ≠ .notCalled := by rw [hpc]; exact fun hn => by cases hn
      split_ifs at hstep <;> cases hstep <;>
        exact work_setPc q hne rfl rfl (fun _ => rfl) (by rw [hpc]; simp [WritePc.weight])
    · cases hstep
  | insert i =>
    simp only [WriteState.step] at hstep
    split at hstep
    · rename_i c hpc
      have hne : s.pc i ≠ .notCalled := by rw [hpc]; exact fun hn => by cases hn
      split_ifs at hstep <;> cases hstep <;>
        exact work_setPc q hne rfl rfl (fun _ => rfl) (by rw [hpc]; simp [WritePc.weight])
    · cases hstep
  | relock i =>
    simp only [WriteState.step] at hstep
    split at hstep
    · rename_i c hpc
      cases hstep
      have hlead : (s.pc i).Leading := by rw [hpc]; trivial
      have hok : ∀ s₁ : WriteState ι, s₁.writers = s.writers → s₁.groups = s.groups →
          s₁.arrivals = s.arrivals → s₁.pc = s.pc → s₁.writer = s.writer →
            (s₁.finish i c.lastWriter c.status).work < s.work := by
        intro s₁ hw hg har hp hwr
        have hlt := work_finish c.lastWriter c.status (q.congr hw hg har hp hwr)
          (by rw [hp]; exact hlead)
        have hwork : s₁.work = s.work := by rw [work, work, har, hp, hwr]
        omega
      split_ifs <;> exact hok _ rfl rfl rfl rfl rfl
    · cases hstep

/-- A run of threads that are awake is not longer than the work that there is. -/
theorem length_le_work {actions : List (WriteAction ι)} (h : s.WriteOk calls n)
    (hrun : Run Steps s actions s') (hawake : ∀ a ∈ actions, a.Awake) :
    actions.length + s'.work ≤ s.work ∧ s'.WriteOk calls n := by
  induction hrun with
  | nil => exact ⟨by rw [List.length_nil, Nat.zero_add], h⟩
  | cons head tail ih =>
    have hlt := work_step (hawake _ List.mem_cons_self) h.1 head
    obtain ⟨hle, hok⟩ := ih (h.1.step h.2 head) fun a ha => hawake a (List.mem_cons_of_mem _ ha)
    refine ⟨?_, hok⟩
    rw [List.length_cons]
    omega

/-- Where no thread is awake, every call has returned with the status of its group. -/
theorem QueueOk.all_returned (q : s.QueueOk) (hstuck : ∀ a : WriteAction ι, a.Awake →
    s.step a = none) : ∀ i ∈ s.arrivals, ∃ g ∈ s.groups, i ∈ g.members ∧
      s.pc i = .returned g.status := by
  have hwake : ∀ i, s.pc i ≠ .waiting true := by
    intro i hi
    have hnone := hstuck (.wake i) trivial
    simp [WriteState.step, hi] at hnone
  have hlead : ∀ i, ¬ (s.pc i).Leading := by
    intro i hi
    cases hpc : s.pc i with
    | makingRoom =>
      by_cases hbg : s.bgError = .ok
      · have hnone := hstuck (.roomMade i .ok) trivial
        simp only [WriteState.step, hpc, hbg, ne_eq, not_true_eq_false, false_and, if_false]
          at hnone
        split at hnone <;> cases hnone
      · have hnone := hstuck (.roomMade i s.bgError) trivial
        simp only [WriteState.step, hpc, ne_eq, not_true_eq_false, and_false, if_false] at hnone
        split at hnone <;> cases hnone
    | logging c =>
      have hnone := hstuck (.addRecord i .ok) trivial
      simp [WriteState.step, hpc] at hnone
    | syncing c =>
      have hnone := hstuck (.syncLog i .ok) trivial
      simp only [WriteState.step, hpc] at hnone
      split at hnone <;> cases hnone
    | inserting c =>
      have hnone := hstuck (.insert i) trivial
      simp only [WriteState.step, hpc] at hnone
      split at hnone <;> cases hnone
    | relocking c =>
      have hnone := hstuck (.relock i) trivial
      simp [WriteState.step, hpc] at hnone
    | notCalled => rw [hpc] at hi; cases hi
    | waiting b => rw [hpc] at hi; cases hi
    | returned st => rw [hpc] at hi; cases hi
  have hempty : s.writers = [] := by
    cases hw : s.writers with
    | nil => rfl
    | cons i ws =>
      obtain hl | hwt := q.awake i (by rw [hw]; rfl)
      · exact absurd hl (hlead i)
      · exact absurd hwt (hwake i)
  intro i hi
  rw [q.arrivals, hempty, List.append_nil, List.mem_flatMap] at hi
  obtain ⟨g, hg, hmem⟩ := hi
  obtain hret | ⟨hwt, -⟩ := q.released g hg i hmem
  · exact ⟨g, hg, hmem, hret⟩
  · exact absurd hwt (hwake i)

/-- What `Write` promises to its callers, in a state of a run from the last sequence `n`. -/
structure Linearized (calls : ι → WriteCall) (n : Nat) (s : WriteState ι) : Prop where
  /-- Each call is in one group or in the queue, once, in the order of the arrivals. -/
  queueOrder : s.arrivals.Nodup ∧ s.arrivals = s.grouped ++ s.writers
  /-- The operations are logged and applied in that order, numbered without a gap. -/
  inOrder : s.Succeeding → s.InOrder calls n
  sync : ∀ g ∈ s.groups, ∀ i, g.members.head? = some i →
    ∀ j ∈ g.members, (calls j).sync = true → (calls i).sync = true
  /-- Only a leader's own batch is touched. -/
  followers : ∀ i, ¬ s.Led i → (s.writer i).batch = (calls i).batch.map Subtype.val
  /-- Who was popped has the status of the group, and has returned or is awake to return it. -/
  released : ∀ g ∈ s.groups, ∀ i ∈ g.members, s.pc i = .returned g.status ∨
    s.pc i = .waiting true ∧ (s.writer i).done = true ∧ (s.writer i).status = g.status
  returned : ∀ i status, s.pc i = .returned status →
    ∃ g ∈ s.groups, i ∈ g.members ∧ g.status = status
  /-- The calls go on to their end: a run of the threads that are awake is short, and when
  there are none left, every call has returned. -/
  progress : ∀ actions s', Run Steps s actions s' → (∀ a ∈ actions, a.Awake) →
    actions.length ≤ s.work ∧ ((∀ a : WriteAction ι, a.Awake → s'.step a = none) →
      ∀ i ∈ s'.arrivals, ∃ g ∈ s'.groups, i ∈ g.members ∧ s'.pc i = .returned g.status)

/-- Group commit is linearizable, for any number of writers and any interleaving. -/
theorem groupCommit_linearized (calls : ι → WriteCall) (n : Nat) {actions : List (WriteAction ι)}
    (hrun : Run Steps (initial calls n) actions s) : s.Linearized calls n := by
  have h := run_ok hrun
  obtain ⟨q, hdata⟩ := id h
  refine ⟨⟨q.nodup, q.arrivals⟩, hdata.inOrder, hdata.groupSync, hdata.batch, q.released, ?_, ?_⟩
  · intro i status hi
    have hmem := q.mem_arrivals (i := i) (by rw [hi]; exact fun hn => by cases hn)
    rw [q.arrivals, List.mem_append, List.mem_flatMap] at hmem
    obtain ⟨g, hg, hgi⟩ | hw := hmem
    · refine ⟨g, hg, hgi, ?_⟩
      obtain hret | ⟨hwait, -⟩ := q.released g hg i hgi
      · rw [hi] at hret
        cases hret
        rfl
      · rw [hi] at hwait
        cases hwait
    · obtain ⟨-, hlead | ⟨b, hwait⟩⟩ := q.queued i hw
      · rw [hi] at hlead
        cases hlead
      · rw [hi] at hwait
        cases hwait
  · intro more s' hmore hawake
    obtain ⟨hle, hok⟩ := length_le_work h hmore hawake
    exact ⟨by omega, fun hstuck => hok.1.all_returned hstuck⟩

/-- Two writers of one update each. -/
def twoCalls (_ : Fin 2) : WriteCall where
  batch := some ⟨WriteBatch.clear.add (.put [107] [118]), .add _ .clear (by decide)⟩
  sync := false

/-- The second writer arrives while the first makes room, and is committed by it. -/
theorem groupCommit_linearized_pair : ∃ s : WriteState (Fin 2),
    Run Steps (initial twoCalls 0) [.call 0, .call 1, .roomMade 0 .ok, .addRecord 0 .ok,
      .syncLog 0 .ok, .insert 0, .relock 0, .wake 1] s ∧
      s.groups.map Group.members = [[0, 1]] ∧ s.Linearized twoCalls 0 := by
  have hrun : ∃ s : WriteState (Fin 2), Run Steps (initial twoCalls 0) [.call 0, .call 1,
      .roomMade 0 .ok, .addRecord 0 .ok, .syncLog 0 .ok, .insert 0, .relock 0, .wake 1] s ∧
        s.groups.map Group.members = [[0, 1]] :=
    ⟨_, .cons rfl (.cons rfl (.cons rfl (.cons rfl (.cons rfl (.cons rfl (.cons rfl (.cons rfl
      (.nil _)))))))), rfl⟩
  obtain ⟨s, hrun, hgroups⟩ := hrun
  exact ⟨s, hrun, hgroups, groupCommit_linearized twoCalls 0 hrun⟩

end WriteState

end WiscKey
