import WiscKey.Library.SourceSearch
import WiscKey.Version.OverlapSearch
import WiscKey.Version.Search
import Mathlib.Tactic.MkIffOfInductiveProp

/-!
# A read returns the newest version

Where each level is newer than those below it, a table of level 0 newer than those with lower
numbers, and the tables of a deeper level sorted and disjoint, a read of a version returns the
newest version of the user key that the snapshot can see.
-/

namespace WiscKey

namespace Version

section Layers

variable (ucmp : Comparator) (tables : Tables) (v : Version Bytes)

/-- A table of the level has an entry of the key and the value. -/
def StoresAt (level : Level) (ikey : ParsedInternalKey) (value : Bytes) : Prop :=
  ∃ f ∈ v.files level, ∃ e ∈ (tables f.number).2,
    parseInternalKey e.key = some ikey ∧ e.value = value

/-- A table has an entry of the key and the value. -/
def Stores (ikey : ParsedInternalKey) (value : Bytes) : Prop :=
  ∃ level, v.StoresAt tables level ikey value

/-- The version of a user key with the largest sequence number that a snapshot can see. -/
structure IsNewest (userKey : Bytes) (sequence : Nat) (ikey : ParsedInternalKey) (value : Bytes) :
    Prop where
  stored : v.Stores tables ikey value
  ofKey : ucmp.compare ikey.userKey userKey = .eq
  visible : ikey.sequence ≤ sequence
  newest : ∀ ikey' value', v.Stores tables ikey' value' →
    ucmp.compare ikey'.userKey userKey = .eq → ikey'.sequence ≤ sequence →
      ikey'.sequence ≤ ikey.sequence

/-- The table of a file is read without an error, and has internal keys in increasing order; the
file has the first of them and the last. -/
@[mk_iff] structure TableOf (f : TableFile) : Prop where
  ok : (tables f.number).1 = .ok
  parsed : ∀ e ∈ (tables f.number).2, (parseInternalKey e.key).isSome
  increasing : (tables f.number).2.Pairwise fun a b => ucmp.internalCompare a.key b.key = .lt
  smallest : (tables f.number).2.head?.map TableEntry.key = some f.smallest
  largest : (tables f.number).2.getLast?.map TableEntry.key = some f.largest

/-- Entries are newer than others of the same user key. -/
def NewerThan (entries entries' : List TableEntry) : Prop :=
  ∀ e ∈ entries, ∀ e' ∈ entries', ∀ ikey ikey', parseInternalKey e.key = some ikey →
    parseInternalKey e'.key = some ikey' → ucmp.compare ikey.userKey ikey'.userKey = .eq →
      ikey'.sequence < ikey.sequence

/-- The levels of a version: each is newer than those below it, in level 0 the tables with larger
numbers are newer, and the deeper levels are sorted and disjoint. -/
@[mk_iff] structure Layered : Prop where
  tableOf : ∀ level, ∀ f ∈ v.files level, TableOf ucmp tables f
  levelZero : ∀ f ∈ v.files 0, ∀ g ∈ v.files 0, g.number < f.number →
    NewerThan ucmp (tables f.number).2 (tables g.number).2
  apart : ∀ level, level ≠ 0 →
    (v.files level).Pairwise fun f g => f.range.Before ucmp.internalCompare g.range
  deeper : ∀ level level', level < level' → ∀ f ∈ v.files level, ∀ g ∈ v.files level',
    NewerThan ucmp (tables f.number).2 (tables g.number).2

instance (entries entries' : List TableEntry) : Decidable (NewerThan ucmp entries entries') :=
  decidable_of_iff (∀ e ∈ entries, ∀ e' ∈ entries', ∀ ikey ∈ parseInternalKey e.key,
      ∀ ikey' ∈ parseInternalKey e'.key, ucmp.compare ikey.userKey ikey'.userKey = .eq →
        ikey'.sequence < ikey.sequence)
    ⟨fun h e he e' he' ikey ikey' hparse hparse' => h e he e' he' ikey hparse ikey' hparse',
      fun h e he e' he' ikey hparse ikey' hparse' => h e he e' he' ikey ikey' hparse hparse'⟩

instance (f : TableFile) : Decidable (TableOf ucmp tables f) :=
  decidable_of_iff _ (tableOf_iff ucmp tables f).symm

instance : Decidable (Layered ucmp tables v) :=
  decidable_of_iff _ (layered_iff ucmp tables v).symm

end Layers

variable {ucmp : Comparator} {tables : Tables} {v : Version Bytes} {userKey value : Bytes}
  {sequence : Nat} {f g : TableFile} {e e' : TableEntry} {level : Level}

section Table

theorem TableOf.readable (h : TableOf ucmp tables f) : Readable ucmp tables f.number :=
  ⟨h.ok, h.increasing.imp fun hlt => by rw [hlt]; exact Ordering.noConfusion, h.parsed⟩

/-- The entries of a table are not in front of its smallest key. -/
theorem TableOf.smallest_le (h : TableOf ucmp tables f) (he : e ∈ (tables f.number).2) :
    ucmp.internalCompare f.smallest e.key ≠ .gt := by
  have hsmallest := h.smallest
  have hsorted := h.increasing
  cases hentries : (tables f.number).2 with
  | nil =>
    rw [hentries] at he
    exact absurd he List.not_mem_nil
  | cons a entries =>
    rw [hentries] at he hsmallest hsorted
    rw [← Option.some.inj hsmallest]
    rcases List.mem_cons.mp he with rfl | he
    · exact not_gt_self
    · rw [(List.pairwise_cons.mp hsorted).1 e he]
      exact Ordering.noConfusion

/-- The last entry of a table has its largest key. -/
theorem TableOf.exists_largest (h : TableOf ucmp tables f) :
    ∃ e ∈ (tables f.number).2, e.key = f.largest := by
  obtain ⟨e, he, hkey⟩ := Option.map_eq_some_iff.mp h.largest
  exact ⟨e, List.mem_of_getLast? he, hkey⟩

/-- The entries of a table are not behind its largest key. -/
theorem TableOf.le_largest (h : TableOf ucmp tables f) (he : e ∈ (tables f.number).2) :
    ucmp.internalCompare e.key f.largest ≠ .gt := by
  obtain ⟨last, hlast, hkey⟩ := Option.map_eq_some_iff.mp h.largest
  obtain ⟨before, hsplit⟩ := List.getLast?_eq_some_iff.mp hlast
  have hsorted := h.increasing
  rw [hsplit] at hsorted he
  rw [← hkey]
  rcases List.mem_append.mp he with he | he
  · rw [(List.pairwise_append.mp hsorted).2.2 e he last (List.mem_singleton_self _)]
    exact Ordering.noConfusion
  · rw [List.mem_singleton.mp he]
    exact not_gt_self

theorem TableOf.proper (h : TableOf ucmp tables f) : f.range.Proper ucmp.internalCompare := by
  obtain ⟨e, he, hkey⟩ := h.exists_largest
  have hle := h.smallest_le he
  rwa [hkey] at hle

/-- An entry of a file that ends before another one is before the entries of that one. -/
theorem TableOf.lt_of_before (hf : TableOf ucmp tables f) (hg : TableOf ucmp tables g)
    (h : f.range.Before ucmp.internalCompare g.range) (he : e ∈ (tables f.number).2)
    (he' : e' ∈ (tables g.number).2) : ucmp.internalCompare e.key e'.key = .lt :=
  lt_of_lt_of_not_gt (lt_of_not_gt_of_lt (hf.le_largest he) h) (hg.smallest_le he')

end Table

section Seen

/-- The entries are versions of one user key. -/
theorem compare_of_isSeen (h : isSeen ucmp userKey sequence e = true)
    (h' : isSeen ucmp userKey sequence e' = true) :
    ucmp.compare (extractUserKey e.key) (extractUserKey e'.key) = .eq :=
  Std.TransCmp.eq_trans (ofKey_iff.mp (isSeen_iff_ofKey.mp h).1)
    (Std.OrientedCmp.eq_symm (ofKey_iff.mp (isSeen_iff_ofKey.mp h').1))

/-- Of two versions of a user key the one behind is not newer. -/
theorem internalTag_le_of_isSeen (h : isSeen ucmp userKey sequence e = true)
    (h' : isSeen ucmp userKey sequence e' = true)
    (hle : ucmp.internalCompare e.key e'.key ≠ .gt) : internalTag e'.key ≤ internalTag e.key := by
  rw [Comparator.internalCompare, compare_of_isSeen h h'] at hle
  exact Nat.not_lt.mp fun hlt => hle (Nat.compare_eq_gt.mpr hlt)

/-- Of two versions of a user key the one in front is newer. -/
theorem internalTag_lt_of_isSeen (h : isSeen ucmp userKey sequence e = true)
    (h' : isSeen ucmp userKey sequence e' = true)
    (hlt : ucmp.internalCompare e.key e'.key = .lt) : internalTag e'.key < internalTag e.key := by
  rw [Comparator.internalCompare, compare_of_isSeen h h'] at hlt
  exact Nat.compare_eq_lt.mp hlt

/-- The versions in newer entries have the larger tags. -/
theorem NewerThan.internalTag_lt {entries entries' : List TableEntry}
    (hnewer : NewerThan ucmp entries entries') (he : e ∈ entries) (he' : e' ∈ entries')
    (h : isSeen ucmp userKey sequence e = true) (h' : isSeen ucmp userKey sequence e' = true) :
    internalTag e'.key < internalTag e.key := by
  obtain ⟨ikey, hparse, heq, -⟩ := isSeen_iff.mp h
  obtain ⟨ikey', hparse', heq', -⟩ := isSeen_iff.mp h'
  have hlt := hnewer e he e' he' ikey ikey' hparse hparse'
    (Std.TransCmp.eq_trans heq (Std.OrientedCmp.eq_symm heq'))
  have hcode : ikey'.type.code ≤ 1 := by cases ikey'.type <;> decide
  have htag := (parseInternalKey_spec hparse).2
  have htag' := (parseInternalKey_spec hparse').2
  omega

/-- The search in a table finds the newest version in it. -/
theorem TableOf.highest (h : TableOf ucmp tables f) (userKey : Bytes) (sequence : Nat) :
    Highest (fun e => internalTag e.key)
      {e | e ∈ (tables f.number).2 ∧ isSeen ucmp userKey sequence e = true}
      (newestSeen ucmp userKey sequence (tables f.number).2) := by
  cases hnewest : newestSeen ucmp userKey sequence (tables f.number).2 with
  | none =>
    refine Set.eq_empty_of_forall_notMem fun e he => ?_
    exact List.find?_eq_none.mp hnewest e he.1 he.2
  | some a =>
    obtain ⟨ha, before, after, hsplit, hbefore⟩ := List.find?_eq_some_iff_append.mp hnewest
    have hsorted := h.increasing
    refine ⟨⟨mem_of_newestSeen hnewest, ha⟩, fun e he => ?_⟩
    obtain ⟨he, hseen⟩ := he
    rw [hsplit] at he hsorted
    rcases List.mem_append.mp he with he | he
    · have hunseen := hbefore e he
      rw [hseen] at hunseen
      exact absurd hunseen Bool.noConfusion
    rcases List.mem_cons.mp he with rfl | he
    · exact le_rfl
    · refine internalTag_le_of_isSeen ha hseen ?_
      rw [(List.pairwise_cons.mp (List.pairwise_append.mp hsorted).2.1).1 e he]
      exact Ordering.noConfusion

end Seen

theorem Layered.sortedLevel (h : Layered ucmp tables v) (hlevel : level ≠ 0) :
    SortedLevel ucmp (v.files level) :=
  ⟨fun f hf => (h.tableOf level f hf).proper, h.apart level hlevel⟩

/-- The entries of a level that are versions of the user key and can be seen. -/
def seenAt (ucmp : Comparator) (tables : Tables) (v : Version Bytes) (userKey : Bytes)
    (sequence : Nat) (level : Level) : Set TableEntry :=
  {e | ∃ f ∈ v.files level, e ∈ (tables f.number).2 ∧ isSeen ucmp userKey sequence e = true}

section Levels

/-- A file with a version of the user key is among those of level 0 that are searched. -/
theorem Layered.mem_levelZeroFiles (h : Layered ucmp tables v) (hf : f ∈ v.files 0)
    (he : e ∈ (tables f.number).2) (hseen : isSeen ucmp userKey sequence e = true) :
    f ∈ v.levelZeroFiles ucmp userKey := by
  have htable := h.tableOf 0 f hf
  have heq := ofKey_iff.mp (isSeen_iff_ofKey.mp hseen).1
  have hfirst := user_not_gt_of_internal (htable.smallest_le he)
  have hlast := user_not_gt_of_internal (htable.le_largest he)
  refine Version.mem_levelZeroFiles.mpr ⟨hf, not_gt_iff_not_lt.mp ?_, ?_⟩
  · exact not_gt_trans hfirst (by rw [heq]; exact Ordering.noConfusion)
  · refine not_gt_trans ?_ hlast
    rw [Std.OrientedCmp.eq_symm heq]
    exact Ordering.noConfusion

/-- The search in level 0 finds the newest version in it. -/
theorem Layered.highest_levelZero (h : Layered ucmp tables v) (userKey : Bytes) (sequence : Nat) :
    Highest (fun e => internalTag e.key) (seenAt ucmp tables v userKey sequence 0)
      ((v.levelZeroFiles ucmp userKey).findSome? fun f =>
        newestSeen ucmp userKey sequence (tables f.number).2) := by
  have hmem : ∀ f ∈ v.levelZeroFiles ucmp userKey, f ∈ v.files 0 := fun f hf =>
    (Version.mem_levelZeroFiles.mp hf).1
  have hset : seenAt ucmp tables v userKey sequence 0 = {e | ∃ f ∈ v.levelZeroFiles ucmp userKey,
      e ∈ {e | e ∈ (tables f.number).2 ∧ isSeen ucmp userKey sequence e = true}} := by
    ext e
    constructor
    · rintro ⟨f, hf, he, hseen⟩
      exact ⟨f, h.mem_levelZeroFiles hf he hseen, he, hseen⟩
    · rintro ⟨f, hf, he, hseen⟩
      exact ⟨f, hmem f hf, he, hseen⟩
  rw [hset]
  refine Highest.findSome? (fun f hf => (h.tableOf 0 f (hmem f hf)).highest userKey sequence) ?_
  refine levelZeroFiles_descending.imp_of_mem fun {f g} hf hg hle a ha b hb => ?_
  have hhighest := (h.tableOf 0 f (hmem f hf)).highest userKey sequence
  rcases Nat.lt_or_eq_of_le hle with hlt | heq
  · have hseen := hhighest.mem ha
    exact Nat.le_of_lt ((h.levelZero f (hmem f hf) g (hmem g hg) hlt).internalTag_lt
      hseen.1 hb.1 hseen.2 hb.2)
  · rw [heq] at hb
    exact hhighest.le ha hb

/-- The search in a deeper level ends like one in all of its tables. -/
theorem levelFile_newestSeen (htable : ∀ f ∈ v.files level, TableOf ucmp tables f)
    (hsorted : SortedLevel ucmp (v.files level)) (hsequence : sequence ≤ kMaxSequenceNumber)
    (userKey : Bytes) :
    ((v.levelFile ucmp level userKey (lookupKey userKey sequence)).bind fun f =>
        newestSeen ucmp userKey sequence (tables f.number).2) =
      (v.files level).findSome? fun f => newestSeen ucmp userKey sequence (tables f.number).2 := by
  have hb := findFile_between hsorted (lookupKey userKey sequence)
  rw [levelFile]
  generalize findFile ucmp (v.files level) (lookupKey userKey sequence) = i at hb ⊢
  have hfront : ((v.files level).take i).findSome? (fun f =>
      newestSeen ucmp userKey sequence (tables f.number).2) = none := by
    refine List.findSome?_eq_none_iff.mpr fun f hf => newestSeen_eq_none.mpr fun e he hseen => ?_
    refine not_lt_lookupKey_of_isSeen hsequence hseen (lt_of_not_gt_of_lt ?_ (hb.below f hf))
    exact (htable f (List.mem_of_mem_take hf)).le_largest he
  conv_rhs => rw [← List.take_append_drop i (v.files level), List.findSome?_append, hfront,
    Option.none_or]
  rcases Nat.lt_or_ge i (v.files level).length with hi | hi
  · have hdrop := List.drop_eq_getElem_cons hi
    have happart := (List.pairwise_cons.mp (hdrop ▸ hsorted.apart.drop)).1
    have habove := hb.above _ (hdrop ▸ List.mem_cons_self)
    have hf := List.getElem_mem hi
    rw [List.getElem?_eq_getElem hi, hdrop, List.findSome?_cons]
    generalize (v.files level)[i] = f at happart habove hf ⊢
    by_cases hrange : ucmp.compare userKey (extractUserKey f.smallest) = .lt
    · -- the file is behind the user key, and so are those after it
      have hbehind : ∀ g ∈ f :: (v.files level).drop (i + 1),
          newestSeen ucmp userKey sequence (tables g.number).2 = none := by
        refine fun g hg => newestSeen_eq_none.mpr fun e he hseen => ?_
        have hle : ucmp.internalCompare f.smallest e.key ≠ .gt := by
          rcases List.mem_cons.mp hg with rfl | hg
          · exact (htable g hf).smallest_le he
          · have hge := (htable g (List.mem_of_mem_drop hg)).smallest_le he
            have hlt : ucmp.internalCompare f.smallest e.key = .lt :=
              lt_of_not_gt_of_lt (htable f hf).proper (lt_of_lt_of_not_gt (happart g hg) hge)
            rw [hlt]
            exact Ordering.noConfusion
        have hlt := lt_of_lt_of_not_gt hrange (user_not_gt_of_internal hle)
        rw [Std.OrientedCmp.eq_symm (ofKey_iff.mp (isSeen_iff_ofKey.mp hseen).1)] at hlt
        exact Ordering.noConfusion hlt
      rw [Option.filter_some, if_neg (by simp [hrange]), hbehind f List.mem_cons_self]
      refine (List.findSome?_eq_none_iff.mpr fun g hg => ?_).symm
      exact hbehind g (List.mem_cons_of_mem _ hg)
    rw [Option.filter_some, if_pos (by simpa using hrange), Option.bind_some]
    cases hnewest : newestSeen ucmp userKey sequence (tables f.number).2 with
    | some e => rfl
    | none =>
      -- a version in a file behind puts one at the end of this file
      refine (List.findSome?_eq_none_iff.mpr fun g hg => newestSeen_eq_none.mpr
        fun e he hseen => ?_).symm
      obtain ⟨last, hlast, hkey⟩ := (htable f hf).exists_largest
      have hlt := (htable f hf).lt_of_before (htable g (List.mem_of_mem_drop hg)) (happart g hg)
        hlast he
      have hparsed := (htable f hf).parsed last hlast
      have hlookup := (@internalCompare_lookupKey ucmp userKey _ _ hsequence hparsed).not.mp
        (by rwa [hkey])
      obtain ⟨hge, hseenLast⟩ := not_or.mp hlookup
      have hle := @user_not_gt_of_internal ucmp last.key e.key
        (by rw [hlt]; exact Ordering.noConfusion)
      have heq := ofKey_iff.mp (isSeen_iff_ofKey.mp hseen).1
      have hlastKey : ofKey ucmp userKey last = true := by
        refine ofKey_iff.mpr (eq_of_not_gt ?_ (not_gt_iff_not_lt.mpr hge))
        exact not_gt_trans hle (by rw [heq]; exact Ordering.noConfusion)
      refine newestSeen_eq_none.mp hnewest last hlast ?_
      exact Bool.not_eq_false _ ▸ fun hunseen => hseenLast ⟨hlastKey, hunseen⟩
  · rw [List.getElem?_eq_none hi, List.drop_eq_nil_of_le hi]
    rfl

/-- The search in a deeper level finds the newest version in it. -/
theorem Layered.highest_levelFile (h : Layered ucmp tables v) (hlevel : level ≠ 0)
    (hsequence : sequence ≤ kMaxSequenceNumber) (userKey : Bytes) :
    Highest (fun e => internalTag e.key) (seenAt ucmp tables v userKey sequence level)
      ((v.levelFile ucmp level userKey (lookupKey userKey sequence)).bind fun f =>
        newestSeen ucmp userKey sequence (tables f.number).2) := by
  rw [levelFile_newestSeen (h.tableOf level) (h.sortedLevel hlevel) hsequence]
  refine Highest.findSome? (fun f hf => (h.tableOf level f hf).highest userKey sequence) ?_
  refine (h.apart level hlevel).imp_of_mem fun {f g} hf hg hbefore a ha b hb => ?_
  obtain ⟨hmem, hseen⟩ := ((h.tableOf level f hf).highest userKey sequence).mem ha
  refine internalTag_le_of_isSeen hseen hb.2 ?_
  rw [(h.tableOf level f hf).lt_of_before (h.tableOf level g hg) hbefore hmem hb.1]
  exact Ordering.noConfusion

/-- The search finds the newest version in all levels. -/
theorem Layered.highest_filesToSearch (h : Layered ucmp tables v)
    (hsequence : sequence ≤ kMaxSequenceNumber) (userKey : Bytes) :
    Highest (fun e => internalTag e.key)
      {e | ∃ level, e ∈ seenAt ucmp tables v userKey sequence level}
      ((v.filesToSearch ucmp userKey (lookupKey userKey sequence)).findSome? fun f =>
        newestSeen ucmp userKey sequence (tables f.number).2) := by
  have hbelow : ∀ {level level' : Level} {a b : TableEntry}, level < level' →
      a ∈ seenAt ucmp tables v userKey sequence level →
      b ∈ seenAt ucmp tables v userKey sequence level' → internalTag b.key ≤ internalTag a.key := by
    rintro level level' a b hlt ⟨f, hf, ha, hseen⟩ ⟨g, hg, hb, hseen'⟩
    exact Nat.le_of_lt ((h.deeper level level' hlt f hf g hg).internalTag_lt ha hb hseen hseen')
  have hdeep : ∀ level ∈ (List.finRange kNumLevels).filter fun level => 0 < level.val,
      level ≠ 0 := by
    rintro level hlevel rfl
    simp at hlevel
  have hset : {e | ∃ level, e ∈ seenAt ucmp tables v userKey sequence level} =
      seenAt ucmp tables v userKey sequence 0 ∪
        {e | ∃ level ∈ (List.finRange kNumLevels).filter fun level => 0 < level.val,
          e ∈ seenAt ucmp tables v userKey sequence level} := by
    ext e
    constructor
    · rintro ⟨level, he⟩
      rcases eq_or_ne level 0 with rfl | hlevel
      · exact .inl he
      · refine .inr ⟨level, List.mem_filter.mpr ⟨List.mem_finRange level, ?_⟩, he⟩
        exact decide_eq_true (Nat.pos_of_ne_zero fun hzero => hlevel (Fin.ext hzero))
    · rintro (he | ⟨level, -, he⟩)
      · exact ⟨0, he⟩
      · exact ⟨level, he⟩
  rw [hset, filesToSearch, List.findSome?_append, findSome?_filterMap_eq]
  refine (h.highest_levelZero userKey sequence).orElse (Highest.findSome?
    (fun level hlevel => h.highest_levelFile (hdeep level hlevel) hsequence userKey) ?_) ?_
  · refine ((List.pairwise_lt_finRange kNumLevels).filter _).imp_of_mem
      fun {level level'} hlevel _ hlt a ha b hb => ?_
    exact hbelow hlt ((h.highest_levelFile (hdeep level hlevel) hsequence userKey).mem ha) hb
  · rintro a ha b ⟨level, hlevel, hb⟩
    refine hbelow ?_ ((h.highest_levelZero userKey sequence).mem ha) hb
    exact Fin.pos_of_ne_zero (hdeep level hlevel)

end Levels

section Newest

/-- Elements of a list neither of which has to be in front of the other are the same. -/
theorem eq_of_pairwise {α : Type} {R : α → α → Prop} {l : List α} {a b : α} (h : l.Pairwise R)
    (ha : a ∈ l) (hb : b ∈ l) (hab : ¬ R a b) (hba : ¬ R b a) : a = b := by
  by_contra hne
  have : Std.Symm fun x y => R x y ∨ R y x := ⟨fun x y => Or.symm⟩
  have heither : l.Pairwise fun x y => R x y ∨ R y x := h.imp Or.inl
  exact (heither.forall ha hb hne).elim hab hba

/-- A table has no two versions of a user key with the same tag. -/
theorem TableOf.eq_of_internalTag (h : TableOf ucmp tables f) (he : e ∈ (tables f.number).2)
    (he' : e' ∈ (tables f.number).2) (hseen : isSeen ucmp userKey sequence e = true)
    (hseen' : isSeen ucmp userKey sequence e' = true)
    (htag : internalTag e.key = internalTag e'.key) : e = e' :=
  eq_of_pairwise h.increasing he he'
    (fun hlt => Nat.ne_of_gt (internalTag_lt_of_isSeen hseen hseen' hlt) htag)
    fun hlt => Nat.ne_of_lt (internalTag_lt_of_isSeen hseen' hseen hlt) htag

/-- A level has no two versions of a user key with the same tag. -/
theorem Layered.eq_of_internalTag_level (h : Layered ucmp tables v)
    (he : e ∈ seenAt ucmp tables v userKey sequence level)
    (he' : e' ∈ seenAt ucmp tables v userKey sequence level)
    (htag : internalTag e.key = internalTag e'.key) : e = e' := by
  obtain ⟨f, hf, hef, hseen⟩ := he
  obtain ⟨g, hg, heg, hseen'⟩ := he'
  have htable := h.tableOf level
  rcases eq_or_ne level 0 with rfl | hlevel
  · rcases Nat.lt_trichotomy f.number g.number with hlt | heq | hlt
    · have := (h.levelZero g hg f hf hlt).internalTag_lt heg hef hseen' hseen
      omega
    · rw [← heq] at heg
      exact (htable f hf).eq_of_internalTag hef heg hseen hseen' htag
    · have := (h.levelZero f hf g hg hlt).internalTag_lt hef heg hseen hseen'
      omega
  · have hfg : f = g := by
      refine eq_of_pairwise (h.apart level hlevel) hf hg (fun hbefore => ?_) fun hbefore => ?_
      · have hlt := (htable f hf).lt_of_before (htable g hg) hbefore hef heg
        exact Nat.ne_of_gt (internalTag_lt_of_isSeen hseen hseen' hlt) htag
      · have hlt := (htable g hg).lt_of_before (htable f hf) hbefore heg hef
        exact Nat.ne_of_lt (internalTag_lt_of_isSeen hseen' hseen hlt) htag
    subst hfg
    exact (htable f hf).eq_of_internalTag hef heg hseen hseen' htag

/-- There are no two versions of a user key with the same tag. -/
theorem Layered.eq_of_internalTag {level' : Level} (h : Layered ucmp tables v)
    (he : e ∈ seenAt ucmp tables v userKey sequence level)
    (he' : e' ∈ seenAt ucmp tables v userKey sequence level')
    (htag : internalTag e.key = internalTag e'.key) : e = e' := by
  have hlt : ∀ {level level' : Level} {a b : TableEntry}, level < level' →
      a ∈ seenAt ucmp tables v userKey sequence level →
      b ∈ seenAt ucmp tables v userKey sequence level' → internalTag b.key < internalTag a.key := by
    rintro level level' a b hlt ⟨f, hf, ha, hseen⟩ ⟨g, hg, hb, hseen'⟩
    exact (h.deeper level level' hlt f hf g hg).internalTag_lt ha hb hseen hseen'
  rcases lt_trichotomy level level' with hlevel | rfl | hlevel
  · have := hlt hlevel he he'
    omega
  · exact h.eq_of_internalTag_level he he' htag
  · have := hlt hlevel he' he
    omega

theorem IsNewest.exists_entry {ikey : ParsedInternalKey}
    (h : v.IsNewest ucmp tables userKey sequence ikey value) :
    ∃ level, ∃ e ∈ seenAt ucmp tables v userKey sequence level,
      parseInternalKey e.key = some ikey ∧ e.value = value := by
  obtain ⟨level, f, hf, e, he, hparse, hvalue⟩ := h.stored
  exact ⟨level, e, ⟨f, hf, he, isSeen_iff.mpr ⟨ikey, hparse, h.ofKey, h.visible⟩⟩, hparse, hvalue⟩

/-- The entry with the highest tag has the largest sequence number. -/
theorem isNewest_of_highest {ikey : ParsedInternalKey}
    (h : Highest (fun e => internalTag e.key)
      {e | ∃ level, e ∈ seenAt ucmp tables v userKey sequence level} (some e))
    (hparse : parseInternalKey e.key = some ikey) :
    v.IsNewest ucmp tables userKey sequence ikey e.value := by
  obtain ⟨⟨level, f, hf, he, hseen⟩, hmax⟩ := h
  obtain ⟨key, hkey, heq, hle⟩ := isSeen_iff.mp hseen
  obtain rfl : ikey = key := Option.some.inj (hparse.symm.trans hkey)
  refine ⟨⟨level, f, hf, e, he, hparse, rfl⟩, heq, hle, ?_⟩
  rintro ikey' value' ⟨level', g, hg, e', he', hparse', -⟩ heq' hle'
  have hseen' := isSeen_iff.mpr ⟨ikey', hparse', heq', hle'⟩
  have htag := hmax e' ⟨level', g, hg, he', hseen'⟩
  have hcode : ikey.type.code ≤ 1 := by cases ikey.type <;> decide
  have hspec := (parseInternalKey_spec hparse).2
  have hspec' := (parseInternalKey_spec hparse').2
  simp only at htag
  omega

/-- If a newest version is a value, the entry with the highest tag is that version. -/
theorem Layered.eq_of_isNewest {ikey ikey' : ParsedInternalKey} (h : Layered ucmp tables v)
    (hhighest : Highest (fun e => internalTag e.key)
      {e | ∃ level, e ∈ seenAt ucmp tables v userKey sequence level} (some e))
    (hparse : parseInternalKey e.key = some ikey)
    (hnewest : v.IsNewest ucmp tables userKey sequence ikey' value) (hvalue : ikey'.type = .value) :
    ikey'.type = ikey.type ∧ value = e.value := by
  obtain ⟨level', e', hseen', hparse', rfl⟩ := hnewest.exists_entry
  have hfound := isNewest_of_highest hhighest hparse
  have hle := hnewest.newest ikey e.value hfound.stored hfound.ofKey hfound.visible
  obtain ⟨⟨level, hseen⟩, hmax⟩ := hhighest
  have htag := hmax e' ⟨level', hseen'⟩
  have hcode : ikey.type.code ≤ 1 := by cases ikey.type <;> decide
  have hone : ikey'.type.code = 1 := by rw [hvalue]; rfl
  have hspec := (parseInternalKey_spec hparse).2
  have hspec' := (parseInternalKey_spec hparse').2
  simp only at htag
  obtain rfl : e = e' := h.eq_of_internalTag hseen hseen' (by omega)
  obtain rfl : ikey' = ikey := Option.some.inj (hparse'.symm.trans hparse)
  exact ⟨rfl, rfl⟩

/-- A read returns the value of the newest version that the snapshot can see, and `NotFound` if and
only if that is a deletion or there is none. -/
theorem get_newest (h : Layered ucmp tables v) (hsequence : sequence ≤ kMaxSequenceNumber)
    (userKey : Bytes) :
    let r := v.get ucmp tables userKey sequence
    (∀ value, r.status = .ok ∧ r.value = some value ↔
      ∃ ikey, v.IsNewest ucmp tables userKey sequence ikey value ∧ ikey.type = .value) ∧
    (r.status = .notFound "" ↔ ∀ ikey value,
      v.IsNewest ucmp tables userKey sequence ikey value → ikey.type = .deletion) ∧
    (r.status = .ok ∨ r.status = .notFound "") := by
  intro r
  have hreadable : ∀ f ∈ v.filesToSearch ucmp userKey (lookupKey userKey sequence),
      Readable ucmp tables f.number := by
    intro f hf
    rw [filesToSearch, List.mem_append, List.mem_filterMap] at hf
    rcases hf with hf | ⟨level, -, hf⟩
    · exact (h.tableOf 0 f (Version.mem_levelZeroFiles.mp hf).1).readable
    · have hmem := List.mem_of_getElem? (Option.filter_eq_some_iff.mp hf).1
      exact (h.tableOf level f hmem).readable
  have hanswer : (r.status, r.value) = answer _ :=
    @searchFiles_newestSeen _ userKey _ _ _ hsequence hreadable
  have hhighest := h.highest_filesToSearch hsequence userKey
  revert hanswer hhighest
  generalize ((v.filesToSearch ucmp userKey (lookupKey userKey sequence)).findSome? fun f =>
    newestSeen ucmp userKey sequence (tables f.number).2) = found
  intro hanswer hhighest
  have hstatus := congrArg Prod.fst hanswer
  have hvalue := congrArg Prod.snd hanswer
  simp only at hstatus hvalue
  rw [hstatus, hvalue]
  cases found with
  | none =>
    have hnone : ∀ ikey value, ¬ v.IsNewest ucmp tables userKey sequence ikey value := by
      intro ikey value hnewest
      obtain ⟨level, e, he, -⟩ := hnewest.exists_entry
      exact Set.eq_empty_iff_forall_notMem.mp hhighest e ⟨level, he⟩
    refine ⟨fun value => ⟨?_, ?_⟩, ?_, .inr rfl⟩
    · rintro ⟨hok, -⟩
      cases hok
    · rintro ⟨ikey, hnewest, -⟩
      exact absurd hnewest (hnone ikey value)
    · exact ⟨fun _ ikey value hnewest => absurd hnewest (hnone ikey value), fun _ => rfl⟩
  | some e =>
    obtain ⟨level, f, hf, he, hseen⟩ := hhighest.1
    obtain ⟨⟨user, seq, type⟩, hparse, -⟩ := isSeen_iff.mp hseen
    have hfound := isNewest_of_highest hhighest hparse
    simp only [answer, hparse]
    cases type with
    | value =>
      refine ⟨fun value => ⟨?_, ?_⟩, ?_, .inl rfl⟩
      · rintro ⟨-, hvalue⟩
        obtain rfl := Option.some.inj hvalue
        exact ⟨_, hfound, rfl⟩
      · rintro ⟨ikey, hnewest, hvalue⟩
        obtain ⟨-, rfl⟩ := h.eq_of_isNewest hhighest hparse hnewest hvalue
        exact ⟨rfl, rfl⟩
      · refine ⟨fun hstatus => (by cases hstatus), fun hall => ?_⟩
        exact ValueType.noConfusion (hall _ _ hfound)
    | deletion =>
      have hdeletion : ∀ ikey value, v.IsNewest ucmp tables userKey sequence ikey value →
          ikey.type ≠ .value := by
        intro ikey value hnewest hvalue
        have htype := (h.eq_of_isNewest hhighest hparse hnewest hvalue).1
        rw [hvalue] at htype
        exact ValueType.noConfusion htype
      refine ⟨fun value => ⟨?_, ?_⟩, ?_, .inr rfl⟩
      · rintro ⟨hok, -⟩
        cases hok
      · rintro ⟨ikey, hnewest, hvalue⟩
        exact absurd hvalue (hdeletion ikey value hnewest)
      · refine ⟨fun _ ikey value hnewest => ?_, fun _ => rfl⟩
        cases htype : ikey.type with
        | value => exact absurd htype (hdeletion ikey value hnewest)
        | deletion => rfl

/-- Level 0 has a deletion of a user key, and two files of level 1 have its older versions. -/
def spannedVersion : Version Bytes where
  files level :=
    if level = 0 then
      [⟨7, 100, appendInternalKey ⟨[1], 12, .deletion⟩, appendInternalKey ⟨[1], 12, .deletion⟩⟩]
    else if level = 1 then
      [⟨3, 100, appendInternalKey ⟨[0], 4, .value⟩, appendInternalKey ⟨[1], 9, .value⟩⟩,
        ⟨4, 100, appendInternalKey ⟨[1], 3, .value⟩, appendInternalKey ⟨[1], 3, .value⟩⟩]
    else []

/-- The tables of that version. -/
def spannedTables : Tables
  | 7 => (.ok, [⟨appendInternalKey ⟨[1], 12, .deletion⟩, []⟩])
  | 3 => (.ok, [⟨appendInternalKey ⟨[0], 4, .value⟩, [40]⟩,
      ⟨appendInternalKey ⟨[1], 9, .value⟩, [90]⟩])
  | 4 => (.ok, [⟨appendInternalKey ⟨[1], 3, .value⟩, [30]⟩])
  | _ => (.ok, [])

theorem layered_spannedVersion : Layered bytewiseComparator spannedTables spannedVersion := by
  decide

/-- A read at a snapshot between the versions in level 1. -/
theorem get_newest_spanned :
    let r := spannedVersion.get bytewiseComparator spannedTables [1] 5
    (∀ value, r.status = .ok ∧ r.value = some value ↔ ∃ ikey, spannedVersion.IsNewest
      bytewiseComparator spannedTables [1] 5 ikey value ∧ ikey.type = .value) ∧
    (r.status = .notFound "" ↔ ∀ ikey value, spannedVersion.IsNewest
      bytewiseComparator spannedTables [1] 5 ikey value → ikey.type = .deletion) ∧
    (r.status = .ok ∨ r.status = .notFound "") :=
  get_newest layered_spannedVersion (by decide) [1]

end Newest

end Version

end WiscKey
