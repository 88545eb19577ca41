import WiscKey.Iterator.VisibleMap

/-!
# The search forward

`FindNextUserEntry` stops at the first entry that is shown and whose user key is not passed. What
is passed depends on the call: nothing, the keys below a target, or the keys up to the one shown
before. While it goes on, the saved key tells which of the entries ahead are hidden.
-/

namespace WiscKey

variable (ucmp : Comparator) (sequence : Nat)

/-- The entries in front are passed, and of those ahead that can be seen the ones up to the saved
key, where entries are skipped, have a key that is passed or was seen. -/
structure Skips (passed : Bytes → Prop) (before rest : List TableEntry) (skipping : Bool)
    (saved : Bytes) : Prop where
  hidden : ∀ e ∈ rest, Visible sequence e →
    ((skipping ∧ ucmp.compare (extractUserKey e.key) saved ≠ .gt) ↔
      (passed (extractUserKey e.key) ∨ ∃ f ∈ before, Visible sequence f ∧
        ucmp.compare (extractUserKey f.key) (extractUserKey e.key) = .eq))
  behind : ∀ e, ShownIn ucmp sequence before e → passed (extractUserKey e.key)
  ahead : ∀ e ∈ rest, Visible sequence e → ∀ k, passed k →
    ucmp.compare k (extractUserKey e.key) ≠ .gt

/-- The iterator is at the first entry that is shown and not passed, or there is none. -/
def FoundNext (entries : List TableEntry) (passed : Bytes → Prop) (d : DBIter) : Prop :=
  d.direction = .forward ∧
    ((d.valid = false ∧ ∀ e, ShownIn ucmp sequence entries e → passed (extractUserKey e.key)) ∨
      (d.valid = true ∧ ∃ before e after, d.iter = .on before e after ∧
        before.reverse ++ e :: after = entries ∧ ShownIn ucmp sequence entries e ∧
        ¬ passed (extractUserKey e.key) ∧ ∀ f, ShownIn ucmp sequence entries f →
          ¬ passed (extractUserKey f.key) →
            ucmp.compare (extractUserKey e.key) (extractUserKey f.key) ≠ .gt))

variable {ucmp sequence} {entries before rest after : List TableEntry} {e f : TableEntry}
  {passed : Bytes → Prop} {skipping : Bool} {saved : Bytes} {d : DBIter}

/-- An entry that cannot be seen changes nothing. -/
theorem Skips.skip_invisible (h : Skips ucmp sequence passed before (e :: rest) skipping saved)
    (he : ¬ Visible sequence e) :
    Skips ucmp sequence passed (before ++ [e]) rest skipping saved where
  hidden f hf hvisible := by
    rw [h.hidden f (List.mem_cons_of_mem _ hf) hvisible]
    refine or_congr_right ⟨fun ⟨g, hg, hseen⟩ => ⟨g, List.mem_append_left _ hg, hseen⟩, ?_⟩
    rintro ⟨g, hg, hseen⟩
    rcases List.mem_append.mp hg with hg | hg
    · exact ⟨g, hg, hseen⟩
    · obtain rfl := List.mem_singleton.mp hg
      exact absurd hseen.1 he
  behind f hf := by
    rcases shownIn_append.mp hf with hf | ⟨hf, -⟩
    · exact h.behind f hf
    · obtain rfl := List.mem_singleton.mp hf.mem
      exact absurd hf.visible he
  ahead f hf := h.ahead f (List.mem_cons_of_mem _ hf)

/-- Behind a deletion the entries of its key are hidden. -/
theorem Skips.skip_deletion (h : Skips ucmp sequence passed before (e :: rest) skipping saved)
    (hsorted : SortedStream ucmp (before ++ e :: rest)) (he : Visible sequence e)
    (hvalue : ¬ IsValue e) :
    Skips ucmp sequence passed (before ++ [e]) rest true (extractUserKey e.key) where
  hidden f hf hvisible := by
    have hle : ucmp.compare (extractUserKey e.key) (extractUserKey f.key) ≠ .gt :=
      (List.pairwise_cons.mp (List.pairwise_append.mp hsorted.userKeys).2.1).1 f hf
    constructor
    · rintro ⟨-, hge⟩
      exact .inr ⟨e, by simp, he, eq_of_not_gt hle hge⟩
    · rintro (hpassed | ⟨g, hg, hseen, heq⟩)
      · exact ⟨rfl, h.ahead e List.mem_cons_self he _ hpassed⟩
      · refine ⟨rfl, ?_⟩
        have hge : ucmp.compare (extractUserKey g.key) (extractUserKey e.key) ≠ .gt := by
          rcases List.mem_append.mp hg with hg | hg
          · exact hsorted.le_of_append hg List.mem_cons_self
          · obtain rfl := List.mem_singleton.mp hg
            exact not_gt_self
        refine not_gt_trans ?_ hge
        rw [Std.OrientedCmp.eq_comm.mp heq]
        exact Ordering.noConfusion
  behind f hf := by
    rcases shownIn_append.mp hf with hf | ⟨hf, -⟩
    · exact h.behind f hf
    · obtain rfl := List.mem_singleton.mp hf.mem
      exact absurd hf.2 hvalue
  ahead f hf := h.ahead f (List.mem_cons_of_mem _ hf)

/-- A value that is hidden leaves the saved key. -/
theorem Skips.skip_value (h : Skips ucmp sequence passed before (e :: rest) skipping saved)
    (he : Visible sequence e)
    (hskip : skipping ∧ ucmp.compare (extractUserKey e.key) saved ≠ .gt) :
    Skips ucmp sequence passed (before ++ [e]) rest skipping saved where
  hidden f hf hvisible := by
    rw [h.hidden f (List.mem_cons_of_mem _ hf) hvisible]
    constructor
    · rintro (hpassed | ⟨g, hg, hseen⟩)
      · exact .inl hpassed
      · exact .inr ⟨g, List.mem_append_left _ hg, hseen⟩
    · rintro (hpassed | ⟨g, hg, hseen, heq⟩)
      · exact .inl hpassed
      rcases List.mem_append.mp hg with hg | hg
      · exact .inr ⟨g, hg, hseen, heq⟩
      · obtain rfl := List.mem_singleton.mp hg
        -- the entry has the key of one that is hidden
        refine (h.hidden f (List.mem_cons_of_mem _ hf) hvisible).mp ⟨hskip.1, ?_⟩
        refine not_gt_trans ?_ hskip.2
        rw [Std.OrientedCmp.eq_comm.mp heq]
        exact Ordering.noConfusion
  behind f hf := by
    rcases shownIn_append.mp hf with hf | ⟨hf, hnone⟩
    · exact h.behind f hf
    · obtain rfl := List.mem_singleton.mp hf.mem
      rcases (h.hidden f List.mem_cons_self he).mp hskip with hpassed | ⟨g, hg, hseen, heq⟩
      · exact hpassed
      · exact absurd heq (hnone g hg hseen)
  ahead f hf := h.ahead f (List.mem_cons_of_mem _ hf)

/-- A value that is not hidden is the first that is shown and not passed. -/
theorem Skips.stop (h : Skips ucmp sequence passed before (e :: rest) skipping saved)
    (hsorted : SortedStream ucmp (before ++ e :: rest)) (he : Visible sequence e)
    (hvalue : IsValue e)
    (hskip : ¬ (skipping ∧ ucmp.compare (extractUserKey e.key) saved ≠ .gt)) :
    ShownIn ucmp sequence (before ++ e :: rest) e ∧ ¬ passed (extractUserKey e.key) ∧
      ∀ f, ShownIn ucmp sequence (before ++ e :: rest) f → ¬ passed (extractUserKey f.key) →
        ucmp.compare (extractUserKey e.key) (extractUserKey f.key) ≠ .gt := by
  rw [h.hidden e List.mem_cons_self he, not_or, not_exists] at hskip
  obtain ⟨hpassed, hnone⟩ := hskip
  refine ⟨⟨⟨before, rest, rfl, he, fun f hf hseen heq => hnone f ⟨hf, hseen, heq⟩⟩, hvalue⟩,
    hpassed, fun f hf hne => ?_⟩
  rcases shownIn_append.mp hf with hf | ⟨hf, -⟩
  · exact absurd (h.behind f hf) hne
  rcases List.mem_cons.mp hf.mem with rfl | hf
  · exact not_gt_self
  · exact (List.pairwise_cons.mp (List.pairwise_append.mp hsorted.userKeys).2.1).1 f hf

/-- One round of the loop: it stops at the entry, or it goes on behind it. -/
theorem nextRound_spec (h : Skips ucmp sequence passed before (e :: rest) skipping d.savedKey)
    (hsorted : SortedStream ucmp (before ++ e :: rest)) :
    (∃ d', d.nextRound ucmp sequence skipping e = (none, d') ∧ d'.direction = d.direction ∧
        d'.valid = true ∧ Visible sequence e ∧ IsValue e ∧
        ¬ (skipping ∧ ucmp.compare (extractUserKey e.key) d.savedKey ≠ .gt)) ∨
      (∃ skipping' d', d.nextRound ucmp sequence skipping e = (some skipping', d') ∧
        d'.direction = d.direction ∧
        Skips ucmp sequence passed (before ++ [e]) rest skipping' d'.savedKey) := by
  unfold DBIter.nextRound DBIter.parseKey
  cases hparse : parseInternalKey e.key with
  | none =>
    refine .inr ⟨_, _, rfl, rfl, h.skip_invisible ?_⟩
    rintro ⟨ikey, hikey, -⟩
    exact absurd (hikey.symm.trans hparse) (Option.some_ne_none _)
  | some ikey =>
    have huser := (parseInternalKey_spec hparse).1
    by_cases hseq : ikey.sequence ≤ sequence
    · have hvisible : Visible sequence e := ⟨ikey, hparse, hseq⟩
      simp only [if_pos hseq, huser]
      cases htype : ikey.type with
      | deletion =>
        refine .inr ⟨_, _, rfl, rfl, h.skip_deletion hsorted hvisible ?_⟩
        rintro ⟨ikey', hikey, hvalue⟩
        obtain rfl := Option.some.inj (hparse.symm.trans hikey)
        exact ValueType.noConfusion (htype.symm.trans hvalue)
      | value =>
        simp only
        split
        · rename_i hskip
          exact .inr ⟨_, _, rfl, rfl, h.skip_value hvisible (by simpa using hskip)⟩
        · rename_i hskip
          exact .inl ⟨_, rfl, rfl, rfl, hvisible, ⟨ikey, hparse, htype⟩, by simpa using hskip⟩
    · simp only [if_neg hseq]
      refine .inr ⟨_, _, rfl, rfl, h.skip_invisible ?_⟩
      rintro ⟨ikey', hikey, hseq'⟩
      obtain rfl := Option.some.inj (hparse.symm.trans hikey)
      exact hseq hseq'

/-- `FindNextUserEntry` finds the first entry that is shown and not passed. -/
theorem findNextUserEntry_spec {before' : List TableEntry}
    (h : Skips ucmp sequence passed before'.reverse (e :: after) skipping d.savedKey)
    (hsorted : SortedStream ucmp entries) (hentries : before'.reverse ++ e :: after = entries)
    (hdirection : d.direction = .forward) :
    FoundNext ucmp sequence entries passed
      (DBIter.findNextUserEntry ucmp sequence skipping d before' e after) := by
  induction after generalizing skipping d before' e with
  | nil =>
    rw [← hentries] at hsorted
    unfold DBIter.findNextUserEntry
    obtain ⟨d', hround, hdirection', hvalid, hvisible, hvalue, hskip⟩ |
      ⟨skipping', d', hround, hdirection', hskips⟩ := nextRound_spec h hsorted
    · rw [hround]
      have hstop := h.stop hsorted hvisible hvalue hskip
      rw [hentries] at hstop
      exact ⟨hdirection'.trans hdirection, .inr ⟨hvalid, before', e, [], rfl, hentries, hstop⟩⟩
    · rw [hround]
      refine ⟨hdirection'.trans hdirection, .inl ⟨rfl, fun f hf => hskips.behind f ?_⟩⟩
      rwa [hentries]
  | cons f after ih =>
    have hsorted' := hsorted
    rw [← hentries] at hsorted'
    unfold DBIter.findNextUserEntry
    obtain ⟨d', hround, hdirection', hvalid, hvisible, hvalue, hskip⟩ |
      ⟨skipping', d', hround, hdirection', hskips⟩ := nextRound_spec h hsorted'
    · rw [hround]
      have hstop := h.stop hsorted' hvisible hvalue hskip
      rw [hentries] at hstop
      exact ⟨hdirection'.trans hdirection, .inr ⟨hvalid, before', e, _, rfl, hentries, hstop⟩⟩
    · rw [hround]
      rw [← List.reverse_cons] at hskips
      exact ih hskips (by simpa using hentries) (hdirection'.trans hdirection)

end WiscKey
