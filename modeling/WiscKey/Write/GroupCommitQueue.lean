import WiscKey.Write.GroupCommit
import Mathlib.Data.List.Nodup

/-!
# The queue of group commit

A leader is at the front of the queue, so there is one at most. Who is behind it waits, a
popped writer has its group's status and was woken, and the front never sleeps unless it
leads.
-/

set_option linter.unusedSectionVars false

namespace WiscKey

variable {ι : Type} [DecidableEq ι]

namespace WriteState

section Fields

variable (s : WriteState ι) (i j : ι) (pc : WritePc ι) (b : WriteBatch)

@[simp] theorem setPc_pc : (s.setPc i pc).pc = Function.update s.pc i pc := rfl

@[simp] theorem setPc_writers : (s.setPc i pc).writers = s.writers := rfl

@[simp] theorem setPc_writer : (s.setPc i pc).writer = s.writer := rfl

@[simp] theorem setPc_tmpBatch : (s.setPc i pc).tmpBatch = s.tmpBatch := rfl

@[simp] theorem setPc_lastSequence : (s.setPc i pc).lastSequence = s.lastSequence := rfl

@[simp] theorem setPc_log : (s.setPc i pc).log = s.log := rfl

@[simp] theorem setPc_mem : (s.setPc i pc).mem = s.mem := rfl

@[simp] theorem setPc_arrivals : (s.setPc i pc).arrivals = s.arrivals := rfl

@[simp] theorem setPc_groups : (s.setPc i pc).groups = s.groups := rfl

/-- `poll` moves the program counter only. -/
theorem poll_eq : ∃ pc, s.poll i = s.setPc i pc ∧
    (if (s.writer i).done then pc = .returned (s.writer i).status
      else if s.writers.head? = some i then pc = .makingRoom else pc = .waiting false) := by
  unfold poll
  split_ifs with hdone hfront
  · exact ⟨_, rfl, rfl⟩
  · exact ⟨_, rfl, rfl⟩
  · exact ⟨_, rfl, rfl⟩

end Fields

section PopGroup

variable {last : ι} {ws pre rest : List ι}

theorem popGroup_append (last : ι) (ws : List ι) :
    (popGroup last ws).1 ++ (popGroup last ws).2 = ws := by
  induction ws with
  | nil => rfl
  | cons w ws ih =>
    rw [popGroup]
    split_ifs with h
    · rfl
    · rw [List.cons_append, ih]

/-- The group of a last writer is the queue up to it. -/
theorem popGroup_eq (hnodup : (pre ++ rest).Nodup) (hlast : pre.getLast? = some last) :
    popGroup last (pre ++ rest) = (pre, rest) := by
  induction pre with
  | nil => cases hlast
  | cons w pre ih =>
    rw [List.cons_append] at hnodup ⊢
    rw [popGroup]
    cases pre with
    | nil =>
      have hw : w = last := Option.some.inj hlast
      rw [if_pos hw, List.nil_append]
    | cons w' pre =>
      rw [List.getLast?_cons_cons] at hlast
      have hmem : last ∈ (w' :: pre) ++ rest :=
        List.mem_append_left _ (List.mem_of_getLast? hlast)
      have hne : w ≠ last := by
        rintro rfl
        exact (List.nodup_cons.mp hnodup).1 hmem
      rw [if_neg hne, ih (List.nodup_cons.mp hnodup).2 hlast]

/-- Later writers do not change the group. -/
theorem popGroup_queue_append (h : last ∈ ws) (new : List ι) : popGroup last (ws ++ new) =
    ((popGroup last ws).1, (popGroup last ws).2 ++ new) := by
  induction ws with
  | nil => cases h
  | cons w ws ih =>
    rw [List.cons_append, popGroup, popGroup]
    split_ifs with hw
    · rfl
    · have hmem : last ∈ ws := (List.mem_cons.mp h).resolve_left (Ne.symm hw)
      rw [ih hmem]

theorem head?_popGroup (h : last ∈ ws) : (popGroup last ws).1.head? = ws.head? := by
  cases ws with
  | nil => cases h
  | cons w ws =>
    rw [popGroup]
    split_ifs <;> rfl

end PopGroup

/-- Handing out the status touches the popped writers other than the leader. -/
theorem foldl_release (leader : ι) (status : Status) (s : WriteState ι) (ready : List ι) :
    ready.foldl (release leader status) s =
      { s with
        writer := fun j => if j ∈ ready ∧ j ≠ leader
          then { s.writer j with status, done := true } else s.writer j
        pc := fun j => if j ∈ ready ∧ j ≠ leader then (s.pc j).signalled else s.pc j } := by
  induction ready generalizing s with
  | nil => simp
  | cons r ready ih =>
    have hidem : ∀ pc : WritePc ι, pc.signalled.signalled = pc.signalled := by
      intro pc
      cases pc <;> rfl
    rw [List.foldl_cons, ih]
    unfold release
    split_ifs with hr
    · subst hr
      congr 1 <;> funext j <;> by_cases hj : j = r <;> simp [hj]
    · simp only [signal, setPc]
      congr 1 <;> funext j <;> by_cases hj : j = r <;> simp [hj, hr, hidem]

/-- The end of `Write`, field by field. -/
theorem finish_eq (s : WriteState ι) (leader lastWriter : ι) (status : Status) :
    s.finish leader lastWriter status =
      { s with
        writers := (popGroup lastWriter s.writers).2
        groups := s.groups ++ [⟨(popGroup lastWriter s.writers).1, status⟩]
        writer := fun j => if j ∈ (popGroup lastWriter s.writers).1 ∧ j ≠ leader
          then { s.writer j with status, done := true } else s.writer j
        pc := fun j => if j = leader then .returned status
          else if j ∈ (popGroup lastWriter s.writers).1 ∨
            (popGroup lastWriter s.writers).2.head? = some j then (s.pc j).signalled
          else s.pc j } := by
  have hidem : ∀ pc : WritePc ι, pc.signalled.signalled = pc.signalled := by
    intro pc
    cases pc <;> rfl
  unfold finish
  simp only [foldl_release]
  cases hrest : (popGroup lastWriter s.writers).2.head? with
  | none =>
    simp only [setPc]
    congr 1
    funext j
    by_cases hj : j = leader <;> simp [hj]
  | some front =>
    simp only [signal, setPc]
    congr 1
    funext j
    by_cases hj : j = leader
    · simp [hj]
    · by_cases hf : j = front
      · subst hf
        by_cases hready : j ∈ (popGroup lastWriter s.writers).1 <;> simp [hj, hready, hidem]
      · have hne : front ≠ j := Ne.symm hf
        by_cases hready : j ∈ (popGroup lastWriter s.writers).1 <;> simp [hj, hready, hf, hne]

end WriteState

/-- The commit that a call leads, from the start of its unlocked section on. -/
def WritePc.commit? {ι : Type} : WritePc ι → Option (Commit ι)
  | .logging c | .syncing c | .inserting c | .relocking c => some c
  | _ => none

/-- A call that has taken the lead of the queue. -/
def WritePc.Leading {ι : Type} : WritePc ι → Prop
  | .makingRoom | .logging _ | .syncing _ | .inserting _ | .relocking _ => True
  | _ => False

theorem WritePc.leading_of_commit {ι : Type} {pc : WritePc ι} {c : Commit ι} (h : pc.commit? = some c) :
    pc.Leading := by
  cases pc <;> trivial

@[simp] theorem WritePc.commit_signalled {ι : Type} (pc : WritePc ι) :
    pc.signalled.commit? = pc.commit? := by
  cases pc <;> rfl

namespace WriteState

/-- The queue: who is in it, who leads, who sleeps, who was released. -/
structure QueueOk (s : WriteState ι) : Prop where
  arrivals : s.arrivals = s.groups.flatMap Group.members ++ s.writers
  nodup : s.arrivals.Nodup
  notCalled : ∀ i, i ∉ s.arrivals → s.pc i = .notCalled ∧ (s.writer i).done = false
  queued : ∀ i ∈ s.writers, (s.writer i).done = false ∧
    ((s.pc i).Leading ∨ ∃ b, s.pc i = .waiting b)
  front : ∀ i, (s.pc i).Leading → s.writers.head? = some i
  awake : ∀ i, s.writers.head? = some i → (s.pc i).Leading ∨ s.pc i = .waiting true
  released : ∀ g ∈ s.groups, ∀ i ∈ g.members, s.pc i = .returned g.status ∨
    s.pc i = .waiting true ∧ (s.writer i).done = true ∧ (s.writer i).status = g.status

namespace QueueOk

variable {s s' : WriteState ι} {i : ι}

theorem initial (calls : ι → WriteCall) (n : Nat) : (WriteState.initial calls n).QueueOk where
  arrivals := rfl
  nodup := List.nodup_nil
  notCalled _ _ := ⟨rfl, rfl⟩
  queued _ h := nomatch h
  front _ h := nomatch h
  awake _ h := nomatch h
  released _ h := nomatch h

/-- The log, the memtable and the sequence number play no part in it. -/
theorem congr (h : s.QueueOk) (hw : s'.writers = s.writers) (hg : s'.groups = s.groups)
    (ha : s'.arrivals = s.arrivals) (hpc : s'.pc = s.pc) (hwriter : s'.writer = s.writer) :
    s'.QueueOk where
  arrivals := by rw [ha, hg, hw, h.arrivals]
  nodup := ha ▸ h.nodup
  notCalled := by rw [ha, hpc, hwriter]; exact h.notCalled
  queued := by rw [hw, hpc, hwriter]; exact h.queued
  front := by rw [hw, hpc]; exact h.front
  awake := by rw [hw, hpc]; exact h.awake
  released := by rw [hg, hpc, hwriter]; exact h.released

theorem mem_arrivals (h : s.QueueOk) (hi : s.pc i ≠ .notCalled) : i ∈ s.arrivals := by
  by_contra hmem
  exact hi (h.notCalled i hmem).1

/-- A call in the queue was not released. -/
theorem not_released (h : s.QueueOk) (hi : i ∈ s.writers) {g : Group ι} (hg : g ∈ s.groups) :
    i ∉ g.members := by
  intro hmem
  have hnodup := h.nodup
  rw [h.arrivals] at hnodup
  exact (List.disjoint_of_nodup_append hnodup) (List.mem_flatMap.mpr ⟨g, hg, hmem⟩) hi

/-- A step of the leader that leaves the queue alone. -/
theorem move {pc : WritePc ι} (h : s.QueueOk) (hi : (s.pc i).Leading) (hpc : pc.Leading)
    (hw : s'.writers = s.writers) (hg : s'.groups = s.groups) (ha : s'.arrivals = s.arrivals)
    (hupdate : s'.pc = Function.update s.pc i pc)
    (hdone : ∀ j, (s'.writer j).done = (s.writer j).done ∧
      (s'.writer j).status = (s.writer j).status) : s'.QueueOk := by
  have hfront := h.front i hi
  have hqueue : i ∈ s.writers := List.mem_of_mem_head? hfront
  have hne : ∀ j, j ≠ i → s'.pc j = s.pc j := fun j hj => by
    rw [hupdate, Function.update_of_ne hj]
  have hself : s'.pc i = pc := by rw [hupdate, Function.update_self]
  refine ⟨by rw [ha, hg, hw, h.arrivals], ha ▸ h.nodup, ?_, ?_, ?_, ?_, ?_⟩
  · intro j hj
    rw [ha] at hj
    obtain ⟨hcall, hd⟩ := h.notCalled j hj
    have hji : j ≠ i := by
      rintro rfl
      exact hj (h.mem_arrivals (by cases hp : s.pc j <;> simp_all [WritePc.Leading]))
    rw [hne j hji, (hdone j).1]
    exact ⟨hcall, hd⟩
  · intro j hj
    rw [hw] at hj
    obtain ⟨hd, hwait⟩ := h.queued j hj
    rw [(hdone j).1]
    refine ⟨hd, ?_⟩
    by_cases hji : j = i
    · subst hji
      exact Or.inl (hself ▸ hpc)
    · rw [hne j hji]
      exact hwait
  · intro j hj
    rw [hw]
    by_cases hji : j = i
    · rw [hji]
      exact hfront
    · rw [hne j hji] at hj
      exact h.front j hj
  · intro j hj
    rw [hw, hfront] at hj
    cases hj
    exact Or.inl (hself ▸ hpc)
  · intro g hgroup j hj
    rw [hg] at hgroup
    have hji : j ≠ i := by
      rintro rfl
      exact h.not_released hqueue hgroup hj
    rw [hne j hji, (hdone j).1, (hdone j).2]
    exact h.released g hgroup j hj

/-- A waiting writer that looks at the queue. -/
theorem poll (h : s.QueueOk) {b : Bool} (hi : s.pc i = .waiting b) : (s.poll i).QueueOk := by
  obtain ⟨pc, hpoll, hcases⟩ := s.poll_eq i
  rw [hpoll]
  have hmem : i ∈ s.arrivals := h.mem_arrivals (by rw [hi]; exact fun hn => nomatch hn)
  have hne : ∀ j, j ≠ i → (s.setPc i pc).pc j = s.pc j := fun j hj => Function.update_of_ne hj _ _
  have hself : (s.setPc i pc).pc i = pc := Function.update_self _ _ _
  refine ⟨h.arrivals, h.nodup, ?_, ?_, ?_, ?_, ?_⟩
  · intro j hj
    have hji : j ≠ i := fun hji => hj (hji ▸ hmem)
    rw [hne j hji]
    exact h.notCalled j hj
  · intro j hj
    refine ⟨(h.queued j hj).1, ?_⟩
    by_cases hji : j = i
    · subst hji
      rw [hself]
      rw [if_neg (by rw [(h.queued j hj).1]; exact Bool.false_ne_true)] at hcases
      split_ifs at hcases
      · exact Or.inl (hcases ▸ trivial)
      · exact Or.inr ⟨false, hcases⟩
    · rw [hne j hji]
      exact (h.queued j hj).2
  · intro j hj
    by_cases hji : j = i
    · subst hji
      rw [hself] at hj
      split_ifs at hcases with hd hf
      · rw [hcases] at hj
        cases hj
      · exact hf
      · rw [hcases] at hj
        cases hj
    · rw [hne j hji] at hj
      exact h.front j hj
  · intro j hj
    by_cases hji : j = i
    · subst hji
      have hqueue : j ∈ s.writers := List.mem_of_mem_head? hj
      rw [if_neg (by rw [(h.queued j hqueue).1]; exact Bool.false_ne_true)] at hcases
      change s.writers.head? = some j at hj
      rw [if_pos hj] at hcases
      rw [hself, hcases]
      exact Or.inl trivial
    · rw [hne j hji]
      exact h.awake j hj
  · intro g hg j hj
    by_cases hji : j = i
    · subst hji
      rw [hself]
      obtain hret | ⟨-, hd, hst⟩ := h.released g hg j hj
      · rw [hi] at hret
        cases hret
      · rw [if_pos hd] at hcases
        rw [hcases, hst]
        exact Or.inl rfl
    · rw [hne j hji]
      exact h.released g hg j hj

/-- A new call takes the last place of the queue. -/
theorem call (h : s.QueueOk) (hi : s.pc i = .notCalled) :
    (({ s with writers := s.writers ++ [i], arrivals := s.arrivals ++ [i] } :
      WriteState ι).poll i).QueueOk := by
  have hnew : i ∉ s.arrivals := by
    intro hmem
    rw [h.arrivals, List.mem_append, List.mem_flatMap] at hmem
    obtain ⟨g, hg, hmem⟩ | hmem := hmem
    · obtain hret | ⟨hwait, -⟩ := h.released g hg i hmem <;> rw [hi] at * <;> contradiction
    · obtain ⟨-, hlead | ⟨b, hwait⟩⟩ := h.queued i hmem <;> rw [hi] at * <;> contradiction
  have hdone := (h.notCalled i hnew).2
  obtain ⟨pc, hpoll, hcases⟩ := ({ s with
    writers := s.writers ++ [i], arrivals := s.arrivals ++ [i] } : WriteState ι).poll_eq i
  rw [hpoll]
  rw [if_neg (by rw [hdone]; exact Bool.false_ne_true)] at hcases
  have hne : ∀ j, j ≠ i → Function.update s.pc i pc j = s.pc j :=
    fun j hj => Function.update_of_ne hj _ _
  have hself : Function.update s.pc i pc i = pc := Function.update_self _ _ _
  refine ⟨?_, ?_, ?_, ?_, ?_, ?_, ?_⟩
  · simp only [setPc_arrivals, setPc_groups, setPc_writers, h.arrivals, List.append_assoc]
  · exact List.nodup_append.mpr ⟨h.nodup, List.nodup_singleton i, fun a ha b hb hab =>
      hnew (by rw [List.mem_singleton] at hb; rwa [hab, hb] at ha)⟩
  · intro j hj
    simp only [setPc_arrivals, List.mem_append, List.mem_singleton, not_or] at hj
    simp only [setPc_pc, setPc_writer]
    rw [hne j hj.2]
    exact h.notCalled j hj.1
  · intro j hj
    simp only [setPc_writers, List.mem_append, List.mem_singleton] at hj
    simp only [setPc_pc, setPc_writer]
    by_cases hji : j = i
    · subst hji
      refine ⟨hdone, ?_⟩
      rw [hself]
      split_ifs at hcases
      · exact Or.inl (hcases ▸ trivial)
      · exact Or.inr ⟨false, hcases⟩
    · rw [hne j hji]
      exact h.queued j (hj.resolve_right hji)
  · intro j hj
    simp only [setPc_pc] at hj
    simp only [setPc_writers]
    by_cases hji : j = i
    · subst hji
      rw [hself] at hj
      split_ifs at hcases with hf
      · exact hf
      · rw [hcases] at hj
        cases hj
    · rw [hne j hji] at hj
      rw [List.head?_append, h.front j hj]
      rfl
  · intro j hj
    simp only [setPc_writers] at hj
    simp only [setPc_pc]
    by_cases hji : j = i
    · subst hji
      rw [if_pos hj] at hcases
      rw [hself, hcases]
      exact Or.inl trivial
    · rw [hne j hji]
      apply h.awake
      cases hw : s.writers with
      | nil =>
        rw [hw] at hj
        exact absurd (Option.some.inj hj).symm hji
      | cons w ws =>
        rw [hw] at hj
        exact hj
  · intro g hg j hj
    have hji : j ≠ i := by
      rintro rfl
      exact hnew (by rw [h.arrivals]; exact List.mem_append_left _ (List.mem_flatMap.mpr ⟨g, hg, hj⟩))
    simp only [setPc_pc, setPc_writer]
    rw [hne j hji]
    exact h.released g hg j hj

/-- The leader pops its group. -/
theorem finish (h : s.QueueOk) {last : ι} (status : Status) (hi : (s.pc i).Leading)
    (hlast : last ∈ s.writers) : (s.finish i last status).QueueOk := by
  have hfront := h.front i hi
  have hqueue : i ∈ s.writers := List.mem_of_mem_head? hfront
  have hsplit := popGroup_append last s.writers
  have hhead := head?_popGroup hlast
  rw [hfront] at hhead
  rw [finish_eq]
  generalize hgroup : popGroup last s.writers = p at hsplit hhead
  obtain ⟨ready, rest⟩ := p
  simp only at hsplit hhead ⊢
  have hready : i ∈ ready := List.mem_of_mem_head? hhead
  have hnodup := h.nodup
  rw [h.arrivals, ← hsplit] at hnodup
  have hdisjoint := List.disjoint_of_nodup_append (List.nodup_append.mp hnodup).2.1
  have hpc : ∀ j ∈ s.writers, j ≠ i → ∃ b, s.pc j = .waiting b := by
    intro j hj hji
    obtain ⟨-, hlead | hwait⟩ := h.queued j hj
    · have hj := h.front j hlead
      rw [hfront] at hj
      exact absurd (Option.some.inj hj).symm hji
    · exact hwait
  refine ⟨?_, h.nodup, ?_, ?_, ?_, ?_, ?_⟩
  · simp only [h.arrivals, List.flatMap_append, List.flatMap_cons, List.flatMap_nil,
      List.append_nil, List.append_assoc, hsplit]
  · intro j hj
    obtain ⟨hcall, hd⟩ := h.notCalled j hj
    have hout : j ∉ s.writers := fun hw => hj (by rw [h.arrivals]; exact List.mem_append_right _ hw)
    rw [← hsplit, List.mem_append, not_or] at hout
    have hji : j ≠ i := fun hji => hout.1 (hji ▸ hready)
    simp only [hout.1, false_and, if_false, if_neg hji, hcall, WritePc.signalled, ite_self, hd,
      and_self]
  · intro j hj
    have hw : j ∈ s.writers := hsplit ▸ List.mem_append_right _ hj
    have hout : j ∉ ready := fun hr => hdisjoint hr hj
    have hji : j ≠ i := fun hji => hout (hji ▸ hready)
    obtain ⟨b, hwait⟩ := hpc j hw hji
    simp only [hout, false_and, false_or, if_false, if_neg hji, hwait, WritePc.signalled]
    refine ⟨(h.queued j hw).1, Or.inr ?_⟩
    split_ifs
    · exact ⟨true, rfl⟩
    · exact ⟨b, rfl⟩
  · intro j hj
    simp only at hj
    split_ifs at hj with hji hmem
    · cases hj
    · have hw : j ∈ s.writers := by
        rw [← hsplit]
        obtain hr | hr := hmem
        · exact List.mem_append_left _ hr
        · exact List.mem_append_right _ (List.mem_of_mem_head? hr)
      obtain ⟨b, hwait⟩ := hpc j hw hji
      rw [hwait] at hj
      cases hj
    · have hj' := h.front j hj
      rw [hfront] at hj'
      exact absurd (Option.some.inj hj').symm hji
  · intro j hj
    have hrest : j ∈ rest := List.mem_of_mem_head? hj
    have hw : j ∈ s.writers := hsplit ▸ List.mem_append_right _ hrest
    have hji : j ≠ i := fun hji => hdisjoint (hji ▸ hready) hrest
    obtain ⟨b, hwait⟩ := hpc j hw hji
    right
    simp only [if_neg hji, if_pos (Or.inr hj), hwait, WritePc.signalled]
  · intro g hg j hj
    simp only [List.mem_append, List.mem_singleton] at hg
    obtain hg | rfl := hg
    · have hout : j ∉ s.writers := fun hw => h.not_released hw hg hj
      rw [← hsplit, List.mem_append, not_or] at hout
      have hji : j ≠ i := fun hji => hout.1 (hji ▸ hready)
      have hhd : rest.head? ≠ some j := fun hr => hout.2 (List.mem_of_mem_head? hr)
      simp only [hout.1, false_and, false_or, if_false, if_neg hji, if_neg hhd]
      exact h.released g hg j hj
    · have hw : j ∈ s.writers := hsplit ▸ List.mem_append_left _ hj
      by_cases hji : j = i
      · left
        simp only [if_pos hji]
      · obtain ⟨b, hwait⟩ := hpc j hw hji
        right
        simp only [if_neg hji, if_pos (Or.inl hj), hwait, WritePc.signalled, if_pos (And.intro hj hji),
          and_self]

end QueueOk

end WriteState

end WiscKey
