import WiscKey.Compaction.BaseLevel
import WiscKey.Compaction.Output
import WiscKey.Version.Search

/-!
# What readers see of the entries that are kept

An entry is dropped if a newer one of its user key hides it from every reader, or if it is a
deletion that hides nothing in the deeper levels. So a reader finds the same version in what is
kept, or a deletion is gone that has nothing left to hide.
-/

namespace WiscKey

variable {ucmp : Comparator} {smallestSnapshot sequence : Nat} {keys : KeyState} {c : Compaction}
  {key userKey userKey' : Bytes} {ikey : ParsedInternalKey} {e : TableEntry}
  {entries : List TableEntry}

/-- An entry of the user key is hidden by the one before it. -/
structure KeyState.Hides (ucmp : Comparator) (smallestSnapshot : Nat) (keys : KeyState)
    (userKey : Bytes) : Prop where
  has : keys.hasCurrentUserKey = true
  same : ucmp.compare userKey keys.currentUserKey = .eq
  last : keys.lastSequenceForKey ≤ smallestSnapshot

theorem KeyState.Hides.congr (h : keys.Hides ucmp smallestSnapshot userKey)
    (heq : ucmp.compare userKey' userKey = .eq) : keys.Hides ucmp smallestSnapshot userKey' :=
  ⟨h.has, Std.TransCmp.eq_trans heq h.same, h.last⟩

theorem KeyState.not_hides_init : ¬ KeyState.init.Hides ucmp smallestSnapshot userKey :=
  fun h => Bool.noConfusion h.has

/-- The deeper levels of a compaction are sorted. -/
def Compaction.SortedBelow (ucmp : Comparator) (c : Compaction) : Prop :=
  ∀ level : Level, c.level.val + 2 ≤ level.val → SortedLevel ucmp (c.inputVersion.files level)

theorem Compaction.IsBaseLevel.congr (h : c.IsBaseLevel ucmp userKey)
    (heq : ucmp.compare userKey userKey' = .eq) : c.IsBaseLevel ucmp userKey' := by
  intro level hlevel f hf hhas
  have hle : ucmp.compare userKey userKey' ≠ .gt := by
    rw [heq]
    exact Ordering.noConfusion
  have hge : ucmp.compare userKey' userKey ≠ .gt := by
    rw [Std.OrientedCmp.eq_symm heq]
    exact Ordering.noConfusion
  exact h level hlevel f hf ⟨not_gt_trans hhas.1 hge, not_gt_trans hle hhas.2⟩

/-- What the decision about an entry is, and what it leaves. -/
theorem dropEntry_spec (hsnapshot : smallestSnapshot < kMaxSequenceNumber)
    (hparse : parseInternalKey key = some ikey) (hsorted : c.SortedBelow ucmp)
    (hpassed : Passed ucmp c.inputVersion c.levelPtrs ikey.userKey) :
    let r := dropEntry ucmp smallestSnapshot keys c key
    (r.1 = true ↔ keys.Hides ucmp smallestSnapshot ikey.userKey ∨ (ikey.type = .deletion ∧
      ikey.sequence ≤ smallestSnapshot ∧ c.IsBaseLevel ucmp ikey.userKey)) ∧
    r.2.1.hasCurrentUserKey = true ∧
    ucmp.compare ikey.userKey r.2.1.currentUserKey = .eq ∧
    r.2.1.lastSequenceForKey = ikey.sequence ∧
    r.2.2 = { c with levelPtrs := r.2.2.levelPtrs } ∧
    Passed ucmp c.inputVersion r.2.2.levelPtrs ikey.userKey := by
  have hself : ucmp.compare ikey.userKey ikey.userKey = .eq := Std.ReflCmp.compare_self
  simp only [dropEntry, hparse]
  -- the state for the user key of the entry
  generalize hnext : (if (!keys.hasCurrentUserKey ||
      decide (ucmp.compare ikey.userKey keys.currentUserKey ≠ .eq)) = true then
        (⟨ikey.userKey, true, kMaxSequenceNumber⟩ : KeyState) else keys) = next
  have hstate : next.hasCurrentUserKey = true ∧
      ucmp.compare ikey.userKey next.currentUserKey = .eq ∧
      (next.lastSequenceForKey ≤ smallestSnapshot ↔
        keys.Hides ucmp smallestSnapshot ikey.userKey) := by
    by_cases hnew : (!keys.hasCurrentUserKey ||
        decide (ucmp.compare ikey.userKey keys.currentUserKey ≠ .eq)) = true
    · rw [if_pos hnew] at hnext
      subst hnext
      refine ⟨rfl, hself, fun hle => absurd hle (Nat.not_le.mpr hsnapshot), fun h => ?_⟩
      rw [h.has, h.same] at hnew
      exact absurd hnew (by decide)
    · rw [if_neg hnew] at hnext
      subst hnext
      simp only [Bool.or_eq_true, Bool.not_eq_true', decide_eq_true_eq, not_or, not_not,
        Bool.not_eq_false] at hnew
      exact ⟨hnew.1, hnew.2, fun hle => ⟨hnew.1, hnew.2, hle⟩, fun h => h.last⟩
  obtain ⟨hhas, hsame, hlast⟩ := hstate
  rw [← hlast]
  split
  · rename_i hhidden
    exact ⟨by simp [hhidden], hhas, hsame, rfl, rfl, hpassed⟩
  · rename_i hshown
    split
    · rename_i hdeletion
      obtain ⟨hbase, hpassed'⟩ := Compaction.isBaseLevelForKey_spec hsorted hpassed
      refine ⟨?_, hhas, hsame, rfl, rfl, hpassed'⟩
      rw [hbase, or_iff_right hshown]
      exact ⟨fun h => ⟨hdeletion.1, hdeletion.2, h⟩, fun h => h.2.2⟩
    · rename_i hkept
      refine ⟨?_, hhas, hsame, rfl, rfl, hpassed⟩
      simp only [Bool.false_eq_true, false_iff, not_or]
      exact ⟨hshown, fun h => hkept ⟨h.1, h.2.1⟩⟩

/-- Behind a version that every reader sees, nothing of its user key is kept. -/
theorem newestSeen_survivors_hidden (hsnapshot : smallestSnapshot < kMaxSequenceNumber)
    (hsorted : c.SortedBelow ucmp)
    (hincreasing : entries.Pairwise fun a b => ucmp.internalCompare a.key b.key = .lt)
    (hparsed : ∀ e ∈ entries, (parseInternalKey e.key).isSome)
    (hpassed : ∀ e ∈ entries, Passed ucmp c.inputVersion c.levelPtrs (extractUserKey e.key))
    (hhides : keys.Hides ucmp smallestSnapshot userKey)
    (hge : ∀ e ∈ entries, ucmp.compare userKey (extractUserKey e.key) ≠ .gt)
    (hold : ∀ e ∈ entries, ∀ ikey, parseInternalKey e.key = some ikey →
      ucmp.compare ikey.userKey userKey = .eq → ikey.sequence ≤ smallestSnapshot) :
    newestSeen ucmp userKey sequence (survivors ucmp smallestSnapshot keys c entries) = none := by
  induction entries generalizing keys c with
  | nil => rfl
  | cons e entries ih =>
    obtain ⟨hfirst, hrest⟩ := List.pairwise_cons.mp hincreasing
    obtain ⟨ikey, hparse⟩ := Option.isSome_iff_exists.mp (hparsed e List.mem_cons_self)
    have huser := (parseInternalKey_spec hparse).1
    by_cases hkey : ucmp.compare ikey.userKey userKey = .eq
    · obtain ⟨hdrop, hhas, hsame, hlast, hframe, hpassed'⟩ := @dropEntry_spec _ _ keys c _ _
        hsnapshot hparse hsorted (huser ▸ hpassed e List.mem_cons_self)
      rw [survivors_cons, if_pos (hdrop.mpr (.inl (hhides.congr hkey))), List.nil_append]
      have hstep : ∀ f ∈ entries, ucmp.compare ikey.userKey (extractUserKey f.key) ≠ .gt := by
        intro f hf
        rw [huser]
        exact user_not_gt_of_internal (by rw [hfirst f hf]; exact Ordering.noConfusion)
      rw [hframe]
      refine @ih _ { c with levelPtrs := _ } hsorted hrest
        (fun f hf => hparsed f (List.mem_cons_of_mem _ hf))
        (fun f hf => hpassed'.mono (hstep f hf)) ?_
        (fun f hf => hge f (List.mem_cons_of_mem _ hf))
        (fun f hf => hold f (List.mem_cons_of_mem _ hf))
      refine ⟨hhas, Std.TransCmp.eq_trans (Std.OrientedCmp.eq_symm hkey) hsame, ?_⟩
      rw [hlast]
      exact hold e List.mem_cons_self ikey hparse hkey
    · -- the user keys are behind from here on
      refine newestSeen_eq_none.mpr fun f hf hseen => ?_
      have hf := (survivors_sublist _).subset hf
      have hlt : ucmp.compare userKey (extractUserKey e.key) = .lt := by
        refine lt_of_not_gt_of_ne (hge e List.mem_cons_self) fun heq => hkey ?_
        rw [huser]
        exact Std.OrientedCmp.eq_symm heq
      have hltf : ucmp.compare userKey (extractUserKey f.key) = .lt := by
        rcases List.mem_cons.mp hf with rfl | hf
        · exact hlt
        · refine lt_of_lt_of_not_gt hlt (user_not_gt_of_internal ?_)
          rw [hfirst f hf]
          exact Ordering.noConfusion
      rw [Std.OrientedCmp.eq_symm (ofKey_iff.mp (isSeen_iff_ofKey.mp hseen).1)] at hltf
      exact Ordering.noConfusion hltf

/-- A reader sees the same version in what is kept, or a deletion is gone that no deeper level has
the key of. -/
theorem newestSeen_survivors (hsnapshot : smallestSnapshot < kMaxSequenceNumber)
    (hreader : smallestSnapshot ≤ sequence) (hsorted : c.SortedBelow ucmp)
    (hincreasing : entries.Pairwise fun a b => ucmp.internalCompare a.key b.key = .lt)
    (hparsed : ∀ e ∈ entries, (parseInternalKey e.key).isSome)
    (hpassed : ∀ e ∈ entries, Passed ucmp c.inputVersion c.levelPtrs (extractUserKey e.key))
    (hhides : ¬ keys.Hides ucmp smallestSnapshot userKey) :
    newestSeen ucmp userKey sequence (survivors ucmp smallestSnapshot keys c entries) =
        newestSeen ucmp userKey sequence entries ∨
      (newestSeen ucmp userKey sequence (survivors ucmp smallestSnapshot keys c entries) = none ∧
        c.IsBaseLevel ucmp userKey ∧ ∃ e ikey, newestSeen ucmp userKey sequence entries = some e ∧
          parseInternalKey e.key = some ikey ∧ ikey.type = .deletion) := by
  induction entries generalizing keys c with
  | nil => exact .inl rfl
  | cons e entries ih =>
    obtain ⟨hfirst, hrest⟩ := List.pairwise_cons.mp hincreasing
    obtain ⟨ikey, hparse⟩ := Option.isSome_iff_exists.mp (hparsed e List.mem_cons_self)
    obtain ⟨huser, htag⟩ := parseInternalKey_spec hparse
    obtain ⟨hdrop, hhas, hsame, hlast, hframe, hpassed'⟩ := @dropEntry_spec _ _ keys c _ _
      hsnapshot hparse hsorted (huser ▸ hpassed e List.mem_cons_self)
    have hstep : ∀ f ∈ entries, ucmp.compare ikey.userKey (extractUserKey f.key) ≠ .gt := by
      intro f hf
      rw [huser]
      exact user_not_gt_of_internal (by rw [hfirst f hf]; exact Ordering.noConfusion)
    rw [survivors_cons]
    generalize dropEntry ucmp smallestSnapshot keys c e.key = r at *
    obtain ⟨drop, next, c'⟩ := r
    simp only at hdrop hhas hsame hlast hframe hpassed' ⊢
    by_cases hseen : isSeen ucmp userKey sequence e = true
    · have hnewest : newestSeen ucmp userKey sequence (e :: entries) = some e :=
        List.find?_cons_of_pos hseen
      rw [hnewest]
      obtain ⟨ikey', hparse', hkey, hvisible⟩ := isSeen_iff.mp hseen
      obtain rfl : ikey' = ikey := Option.some.inj (hparse'.symm.trans hparse)
      by_cases hdropped : drop = true
      · rw [if_pos hdropped, List.nil_append]
        obtain ⟨hdeletion, hle, hbase⟩ := (hdrop.mp hdropped).resolve_left fun h =>
          hhides (h.congr (Std.OrientedCmp.eq_symm hkey))
        refine .inr ⟨?_, hbase.congr hkey, e, ikey', rfl, hparse, hdeletion⟩
        rw [hframe]
        refine @newestSeen_survivors_hidden _ _ _ _ { c with levelPtrs := _ } _ _ hsnapshot hsorted
          hrest (fun f hf => hparsed f (List.mem_cons_of_mem _ hf))
          (fun f hf => hpassed'.mono (hstep f hf))
          ⟨hhas, Std.TransCmp.eq_trans (Std.OrientedCmp.eq_symm hkey) hsame, hlast.trans_le hle⟩
          (fun f hf => ?_) (fun f hf ikey hparsef hkeyf => ?_)
        · refine not_gt_trans ?_ (hstep f hf)
          rw [Std.OrientedCmp.eq_symm hkey]
          exact Ordering.noConfusion
        · -- the version behind has no larger sequence number
          have hlt := hfirst f hf
          obtain ⟨huserf, htagf⟩ := parseInternalKey_spec hparsef
          have heq : ucmp.compare (extractUserKey e.key) (extractUserKey f.key) = .eq := by
            rw [← huser, ← huserf]
            exact Std.TransCmp.eq_trans hkey (Std.OrientedCmp.eq_symm hkeyf)
          rw [Comparator.internalCompare, heq] at hlt
          have htags : internalTag f.key < internalTag e.key := Nat.compare_eq_lt.mp hlt
          have hcode : ikey'.type.code ≤ 1 := by cases ikey'.type <;> decide
          omega
      · rw [if_neg hdropped, List.singleton_append]
        exact .inl (List.find?_cons_of_pos hseen)
    · have hskip : newestSeen ucmp userKey sequence (e :: entries) =
          newestSeen ucmp userKey sequence entries := List.find?_cons_of_neg hseen
      have hskip' : newestSeen ucmp userKey sequence ((if drop = true then [] else [e]) ++
          survivors ucmp smallestSnapshot next c' entries) =
          newestSeen ucmp userKey sequence (survivors ucmp smallestSnapshot next c' entries) := by
        split
        · rw [List.nil_append]
        · exact List.find?_cons_of_neg hseen
      rw [hskip, hskip', hframe]
      refine @ih next { c with levelPtrs := _ } hsorted hrest
        (fun f hf => hparsed f (List.mem_cons_of_mem _ hf))
        (fun f hf => hpassed'.mono (hstep f hf)) fun hhides' => hseen ?_
      refine isSeen_iff.mpr ⟨ikey, hparse, ?_, ?_⟩
      · exact Std.TransCmp.eq_trans hsame (Std.OrientedCmp.eq_symm hhides'.same)
      · have hle := hhides'.last
        omega

end WiscKey
