import WiscKey.Iterator.Forward
import WiscKey.Iterator.Backward

/-!
# The iterator shows the map

After every call the iterator shows what a cursor over the map of the snapshot shows, when the
cursor is moved the same way.
-/

namespace WiscKey

section Calls

variable (ucmp : Comparator) (sequence : Nat) (entries : List TableEntry) (m : List (Bytes × Bytes))

/-- A call of the iterator. -/
def DBIter.call (d : DBIter) : IterCall → DBIter
  | .seekToFirst => d.seekToFirst ucmp sequence entries
  | .seekToLast => d.seekToLast ucmp sequence entries
  | .seek target => d.seek ucmp sequence entries target
  | .next => d.next ucmp sequence entries
  | .prev => d.prev ucmp sequence

/-- `Next` and `Prev` ask for a valid iterator. -/
def IterCall.Allowed (d : DBIter) : IterCall → Prop
  | .next | .prev => d.valid = true
  | _ => True

/-- The iterator is valid when the cursor is, and shows the same key and value. -/
def Shows (d : DBIter) (c : Cursor (Bytes × Bytes)) : Prop :=
  d.valid = c.current?.isSome ∧ d.shown = c.current?

/-- The iterator shows the same as the cursor after each of the calls. -/
def Agrees (d : DBIter) (c : Cursor (Bytes × Bytes)) : List IterCall → Prop
  | [] => True
  | call :: calls => call.Allowed d →
      Shows (d.call ucmp sequence entries call) (c.call ucmp m call) ∧
        Agrees (d.call ucmp sequence entries call) (c.call ucmp m call) calls

/-- Where the internal iterator is while an entry is shown. -/
def AtShown (d : DBIter) (e : TableEntry) : Prop :=
  (d.direction = .forward ∧ ∃ before after, d.iter = .on before e after ∧
      before.reverse ++ e :: after = entries ∧ ShownIn ucmp sequence entries e) ∨
    (d.direction = .reverse ∧ InFront ucmp sequence entries d e)

/-- The iterator shows what the cursor shows, from where it has to be for that. -/
structure Represents (d : DBIter) (c : Cursor (Bytes × Bytes)) : Prop where
  isOver : c.Over m
  shows : Shows d c
  atShown : d.valid = true → ∃ e, AtShown ucmp sequence entries d e

end Calls

variable {ucmp : Comparator} {sequence : Nat} {entries before out after : List TableEntry}
  {m : List (Bytes × Bytes)} {d : DBIter} {c : Cursor (Bytes × Bytes)} {e : TableEntry}
  {passed part : Bytes → Prop} {p : Bytes × Bytes → Bool}

theorem AtShown.keyValue (h : AtShown ucmp sequence entries d e) : d.keyValue = some e.pair := by
  rw [DBIter.keyValue]
  rcases h with ⟨hdirection, before, after, hiter, -⟩ |
    ⟨hdirection, before, hidden, rest, -, -, -, -, hsaved, -⟩
  · rw [hdirection, hiter]
    rfl
  · rw [hdirection, hsaved]

/-- A valid iterator at an entry shows it. -/
theorem AtShown.shows (h : AtShown ucmp sequence entries d e) (hvalid : d.valid = true)
    (hcurrent : c.current? = some e.pair) : Shows d c := by
  refine ⟨?_, ?_⟩
  · rw [hvalid, hcurrent]
    rfl
  · rw [DBIter.shown, if_pos hvalid, h.keyValue, hcurrent]

/-- An iterator that is not valid shows nothing. -/
theorem represents_invalid (hover : c.Over m) (hvalid : d.valid = false)
    (hcurrent : c.current? = none) : Represents ucmp sequence entries m d c where
  isOver := hover
  shows := by simp [Shows, DBIter.shown, hvalid, hcurrent]
  atShown h := absurd (hvalid.symm.trans h) Bool.false_ne_true

/-- What the search forward finds is the first entry of the map that is not passed. -/
theorem FoundNext.represents (h : FoundNext ucmp sequence entries passed d)
    (hm : VisibleMap ucmp sequence entries m) (hover : c.Over m)
    (hcurrent : c.current? = m.find? p) (hp : ∀ q, p q = true ↔ ¬ passed q.1) :
    Represents ucmp sequence entries m d c := by
  obtain ⟨hdirection, ⟨hvalid, hnone⟩ |
    ⟨hvalid, before, e, after, hiter, hentries, hshown, hpassed, hleast⟩⟩ := h
  · refine represents_invalid hover hvalid (hcurrent.trans (List.find?_eq_none.mpr ?_))
    intro q hq
    obtain ⟨e, hshown, rfl⟩ := (hm.mem q).mp hq
    rw [hp]
    exact not_not_intro (hnone e hshown)
  · have hat : AtShown ucmp sequence entries d e :=
      .inl ⟨hdirection, before, after, hiter, hentries, hshown⟩
    refine ⟨hover, hat.shows hvalid (hcurrent.trans ?_), fun _ => ⟨e, hat⟩⟩
    refine hm.increasing.find?_eq_some ((hm.mem _).mpr ⟨e, hshown, rfl⟩) ((hp _).mpr hpassed) ?_
    intro q hq hpq
    obtain ⟨f, hf, rfl⟩ := (hm.mem q).mp hq
    exact not_gt_iff_not_lt.mp (hleast f hf ((hp _).mp hpq))

/-- What the search backward finds is the last entry of the map in the part. -/
theorem FoundPrev.represents (h : FoundPrev ucmp sequence entries part d)
    (hm : VisibleMap ucmp sequence entries m) (hover : c.Over m)
    (hcurrent : c.current? = m.reverse.find? p) (hp : ∀ q, p q = true ↔ part q.1) :
    Represents ucmp sequence entries m d c := by
  obtain ⟨hvalid, hnone⟩ | ⟨hvalid, hdirection, e, hfront, hpart, hgreatest⟩ := h
  · refine represents_invalid hover hvalid (hcurrent.trans (List.find?_eq_none.mpr ?_))
    intro q hq
    obtain ⟨e, hshown, rfl⟩ := (hm.mem q).mp (List.mem_reverse.mp hq)
    rw [hp]
    exact hnone e hshown
  · have hat : AtShown ucmp sequence entries d e := .inr ⟨hdirection, hfront⟩
    refine ⟨hover, hat.shows hvalid (hcurrent.trans ?_), fun _ => ⟨e, hat⟩⟩
    refine hm.increasing.reverse_find?_eq_some ((hm.mem _).mpr ⟨e, hfront.shown, rfl⟩)
      ((hp _).mpr hpart) ?_
    intro q hq hpq
    obtain ⟨f, hf, rfl⟩ := (hm.mem q).mp hq
    exact not_gt_iff_not_lt.mp (hgreatest f hf ((hp _).mp hpq))

/-- Nothing is passed at the start of the stream. -/
theorem seekToFirst_spec (hsorted : SortedStream ucmp entries) :
    FoundNext ucmp sequence entries (fun _ => False) (d.seekToFirst ucmp sequence entries) := by
  unfold DBIter.seekToFirst
  cases entries with
  | nil => exact ⟨rfl, .inl ⟨rfl, fun e he => nomatch he.mem⟩⟩
  | cons e after =>
    have hskips : Skips ucmp sequence (fun _ => False) [] (e :: after) false d.savedKey :=
      ⟨by simp, fun f hf => absurd hf.mem List.not_mem_nil, by simp⟩
    exact findNextUserEntry_spec hskips hsorted rfl rfl

/-- The whole stream is in front of its end. -/
theorem seekToLast_spec (hsorted : SortedStream ucmp entries) :
    FoundPrev ucmp sequence entries (fun _ => True) (d.seekToLast ucmp sequence entries) := by
  unfold DBIter.seekToLast
  have hentries : entries.reverse.reverse ++ [] = entries := by simp
  refine findPrevUserEntry_spec hsorted hentries ?_ rfl (by simp) (by simp)
  unfold Cursor.last
  cases entries.reverse with
  | nil => rfl
  | cons e before => rfl

/-- `Seek` passes the keys below its target. -/
theorem seek_spec (hsorted : SortedStream ucmp entries) (h : sequence ≤ kMaxSequenceNumber)
    (target : Bytes) :
    FoundNext ucmp sequence entries (fun k => ucmp.compare k target = .lt)
      (d.seek ucmp sequence entries target) := by
  have hpassed : ∀ f : TableEntry, Visible sequence f →
      (decide (ucmp.internalCompare f.key (appendInternalKey ⟨target, sequence, .value⟩) ≠ .lt) =
        false ↔ ucmp.compare (extractUserKey f.key) target = .lt) := by
    intro f hf
    rw [← internalCompare_seek h hf]
    simp
  simp only [DBIter.seek]
  obtain ⟨hseek, hnone⟩ | ⟨before, e, after, hseek, hsplit, he, hbefore⟩ :=
    Cursor.seek_passed (fun e : TableEntry => decide (ucmp.internalCompare e.key
      (appendInternalKey ⟨target, sequence, .value⟩) ≠ .lt)) entries
  · rw [hseek]
    exact ⟨rfl, .inl ⟨rfl, fun f hf => (hpassed f hf.visible).mp (hnone f hf.mem)⟩⟩
  · rw [hseek]
    -- the entries behind the one that is found have no smaller key
    have hrest : ∀ f ∈ e :: after, Visible sequence f →
        ucmp.compare (extractUserKey f.key) target ≠ .lt := by
      intro f hf hvisible hlt
      rw [← internalCompare_seek h hvisible] at hlt
      rw [decide_eq_true_eq] at he
      rcases List.mem_cons.mp hf with rfl | hf
      · exact he hlt
      · rw [← hsplit] at hsorted
        have hle := (List.pairwise_cons.mp (List.pairwise_append.mp hsorted).2.1).1 f hf
        exact he (lt_of_not_gt_of_lt hle hlt)
    have hfront : ∀ f ∈ before.reverse, Visible sequence f →
        ucmp.compare (extractUserKey f.key) target = .lt := fun f hf hvisible =>
      (hpassed f hvisible).mp (hbefore f (List.mem_reverse.mp hf))
    refine findNextUserEntry_spec ⟨fun f hf hvisible => ?_, fun f hf => hfront f hf.mem hf.visible,
      fun f hf hvisible k hk => ?_⟩ hsorted hsplit rfl
    · refine iff_of_false (by simp) ?_
      rintro (hlt | ⟨g, hg, hseen, heq⟩)
      · exact hrest f hf hvisible hlt
      · refine hrest f hf hvisible (Std.TransCmp.lt_of_eq_of_lt ?_ (hfront g hg hseen))
        exact Std.OrientedCmp.eq_comm.mp heq
    · refine not_gt_trans ?_ (not_gt_iff_not_lt.mpr (hrest f hf hvisible))
      rw [hk]
      exact Ordering.noConfusion

/-- From an entry that is shown, what is passed are the keys up to its own. -/
theorem skips_shown {key : Bytes}
    (hbefore : ∀ f ∈ before, Visible sequence f → ucmp.compare (extractUserKey f.key) key ≠ .gt)
    (hafter : ∀ f ∈ after, Visible sequence f → ucmp.compare key (extractUserKey f.key) ≠ .gt) :
    Skips ucmp sequence (fun k => ucmp.compare k key ≠ .gt) before after true key where
  hidden f hf hvisible := by
    constructor
    · exact fun h => .inl h.2
    · rintro (hle | ⟨g, hg, hseen, heq⟩)
      · exact ⟨rfl, hle⟩
      · refine ⟨rfl, not_gt_trans ?_ (hbefore g hg hseen)⟩
        rw [Std.OrientedCmp.eq_comm.mp heq]
        exact Ordering.noConfusion
  behind f hf := hbefore f hf.mem hf.visible
  ahead f hf hvisible k hk := not_gt_trans hk (hafter f hf hvisible)

/-- `Next` passes the keys up to the one that is shown. -/
theorem next_spec (hsorted : SortedStream ucmp entries) (h : AtShown ucmp sequence entries d e) :
    FoundNext ucmp sequence entries (fun k => ucmp.compare k (extractUserKey e.key) ≠ .gt)
      (d.next ucmp sequence entries) := by
  unfold DBIter.next
  obtain ⟨hdirection, before, after, hiter, hentries, hshown⟩ |
    ⟨hdirection, before, hidden, rest, hentries, hhidden, hvisible, hvalue, hsaved, hlt, hiter⟩ := h
  · have hkeys := hsorted
    rw [← hentries] at hkeys
    simp only [hdirection, hiter]
    refine findNextUserEntry_spec (skips_shown (fun f hf _ => ?_) fun f hf _ => ?_)
      hsorted hentries rfl
    · exact hkeys.le_of_append hf List.mem_cons_self
    · rcases List.mem_cons.mp hf with rfl | hf
      · exact not_gt_self
      · exact (List.pairwise_cons.mp (List.pairwise_append.mp hkeys.userKeys).2.1).1 f hf
  · have hkey : d.savedKey = extractUserKey e.key := congrArg Prod.fst hsaved
    have hskips : Skips ucmp sequence (fun k => ucmp.compare k (extractUserKey e.key) ≠ .gt)
        before.reverse (hidden ++ e :: rest) true (extractUserKey e.key) := by
      refine skips_shown (fun f hf _ => ?_) fun f hf hseen => ?_
      · rw [hlt f (List.mem_reverse.mp hf)]
        exact Ordering.noConfusion
      · rcases List.mem_append.mp hf with hf | hf
        · exact absurd hseen (hhidden f hf)
        rcases List.mem_cons.mp hf with rfl | hf
        · exact not_gt_self
        · have hkeys := hsorted.userKeys
          rw [hentries, List.pairwise_append, List.pairwise_append, List.pairwise_cons] at hkeys
          exact hkeys.2.1.2.1.1 f hf
    -- the internal iterator goes to the first entry behind those with smaller keys
    obtain ⟨f, after, hf⟩ : ∃ f after, hidden ++ e :: rest = f :: after :=
      List.exists_cons_of_ne_nil (by simp)
    rw [hf] at hiter hentries hskips
    simp only [hdirection]
    cases before with
    | nil =>
      simp only [hiter, Cursor.inFrontOf, hentries, List.reverse_nil, List.nil_append, Cursor.first]
      rw [hentries] at hsorted
      refine findNextUserEntry_spec ?_ hsorted rfl rfl
      simpa only [hkey] using hskips
    | cons g before =>
      simp only [hiter, Cursor.inFrontOf, Cursor.next]
      refine findNextUserEntry_spec ?_ hsorted hentries.symm rfl
      simpa only [hkey] using hskips

/-- The loop of `Prev` leaves the entries of a user key. -/
theorem leaveKey_spec {userKey : Bytes} (hsorted : SortedStream ucmp entries)
    (hentries : before.reverse ++ e :: after = entries)
    (hafter : ∀ f ∈ e :: after, ucmp.compare (extractUserKey f.key) userKey ≠ .lt) :
    ∃ before' out, before'.reverse ++ out = entries ∧
      DBIter.leaveKey ucmp userKey e after before = .inFrontOf out before' ∧
      (∀ f ∈ before', ucmp.compare (extractUserKey f.key) userKey = .lt) ∧
      ∀ f ∈ out, ucmp.compare (extractUserKey f.key) userKey ≠ .lt := by
  induction before generalizing e after with
  | nil => exact ⟨[], e :: after, hentries, rfl, by simp, hafter⟩
  | cons f before ih =>
    rw [DBIter.leaveKey]
    split
    · rename_i hlt
      refine ⟨f :: before, e :: after, hentries, rfl, fun g hg => ?_, hafter⟩
      rcases List.mem_cons.mp hg with rfl | hg
      · exact hlt
      · have hsplit : before.reverse ++ f :: e :: after = entries := by simpa using hentries
        rw [← hsplit] at hsorted
        exact lt_of_not_gt_of_lt
          (hsorted.le_of_append (List.mem_reverse.mpr hg) List.mem_cons_self) hlt
    · rename_i hge
      exact ih (by simpa using hentries) (List.forall_mem_cons.mpr ⟨hge, hafter⟩)

/-- `Prev` goes back to the keys below the one that is shown. -/
theorem prev_spec (hsorted : SortedStream ucmp entries) (h : AtShown ucmp sequence entries d e) :
    FoundPrev ucmp sequence entries (fun k => ucmp.compare k (extractUserKey e.key) = .lt)
      (d.prev ucmp sequence) := by
  unfold DBIter.prev
  obtain ⟨hdirection, before, after, hiter, hentries, hshown⟩ |
    ⟨hdirection, before, hidden, rest, hentries, hhidden, hvisible, hvalue, hsaved, hlt, hiter⟩ := h
  · simp only [hdirection, hiter]
    have hafter : ∀ f ∈ e :: after,
        ucmp.compare (extractUserKey f.key) (extractUserKey e.key) ≠ .lt := by
      intro f hf
      rw [← not_gt_iff_not_lt]
      rcases List.mem_cons.mp hf with rfl | hf
      · exact not_gt_self
      · have hkeys := hsorted.userKeys
        rw [← hentries, List.pairwise_append, List.pairwise_cons] at hkeys
        exact hkeys.2.1.1 f hf
    obtain ⟨before', out, hentries', hleave, hbefore', hout⟩ :=
      leaveKey_spec hsorted hentries hafter
    rw [hleave]
    cases before' with
    | nil =>
      refine .inl ⟨rfl, fun f hf => ?_⟩
      rw [← hentries'] at hf
      exact hout f (by simpa using hf.mem)
    | cons f before' =>
      simp only [Cursor.inFrontOf]
      exact findPrevUserEntry_spec hsorted hentries' rfl rfl (fun f hf _ => hbefore' f hf)
        fun f hf _ => hout f hf
  · simp only [hdirection]
    refine findPrevUserEntry_spec hsorted hentries.symm hiter hdirection (fun f hf _ => hlt f hf)
      fun f hf hseen => not_gt_iff_not_lt.mp ?_
    rcases List.mem_append.mp hf with hf | hf
    · exact absurd hseen (hhidden f hf)
    rcases List.mem_cons.mp hf with rfl | hf
    · exact not_gt_self
    · have hkeys := hsorted.userKeys
      rw [hentries, List.pairwise_append, List.pairwise_append, List.pairwise_cons] at hkeys
      exact hkeys.2.1.2.1.1 f hf

/-- A call keeps the iterator where it shows what the cursor shows. -/
theorem Represents.call (h : Represents ucmp sequence entries m d c)
    (hsorted : SortedStream ucmp entries) (hsequence : sequence ≤ kMaxSequenceNumber)
    (hm : VisibleMap ucmp sequence entries m) (call : IterCall) (hallowed : call.Allowed d) :
    Represents ucmp sequence entries m (d.call ucmp sequence entries call) (c.call ucmp m call) := by
  -- a valid iterator and the cursor are at an entry that is shown
  have hcurrent : d.valid = true → ∃ e front back, AtShown ucmp sequence entries d e ∧
      c = .on front e.pair back := by
    intro hvalid
    obtain ⟨e, hat⟩ := h.atShown hvalid
    have hshown := h.shows.2
    rw [DBIter.shown, if_pos hvalid, hat.keyValue] at hshown
    cases c with
    | invalid => exact absurd hshown (Option.some_ne_none _)
    | on front q back =>
      obtain rfl := Option.some.inj hshown
      exact ⟨e, front, back, hat, rfl⟩
  cases call with
  | seekToFirst =>
    exact (seekToFirst_spec hsorted).represents hm Cursor.over_first Cursor.current?_first (by simp)
  | seekToLast =>
    exact (seekToLast_spec hsorted).represents hm Cursor.over_last Cursor.current?_last (by simp)
  | seek target =>
    exact (seek_spec hsorted hsequence target).represents hm (Cursor.over_seek _)
      (Cursor.current?_seek _) (by simp)
  | next =>
    obtain ⟨e, front, back, hat, rfl⟩ := hcurrent hallowed
    refine (next_spec hsorted hat).represents hm h.isOver.next
      (Cursor.current?_next hm.increasing h.isOver) fun q => ?_
    rw [decide_eq_true_eq, Comparator.comparePair, not_not, Std.OrientedCmp.gt_iff_lt]
    rfl
  | prev =>
    obtain ⟨e, front, back, hat, rfl⟩ := hcurrent hallowed
    refine (prev_spec hsorted hat).represents hm h.isOver.prev
      (Cursor.current?_prev hm.increasing h.isOver) fun q => ?_
    rw [decide_eq_true_eq, Comparator.comparePair]
    rfl

/-- The iterator shows what the cursor shows in every run. -/
theorem Represents.agrees (h : Represents ucmp sequence entries m d c)
    (hsorted : SortedStream ucmp entries) (hsequence : sequence ≤ kMaxSequenceNumber)
    (hm : VisibleMap ucmp sequence entries m) (calls : List IterCall) :
    Agrees ucmp sequence entries m d c calls := by
  induction calls generalizing d c with
  | nil => trivial
  | cons call calls ih =>
    intro hallowed
    have hcall := h.call hsorted hsequence hm call hallowed
    exact ⟨hcall.shows, ih hcall⟩

/-- A snapshot of a sorted stream has a map, and from a new iterator any calls show what a cursor
over the map shows. -/
theorem dbIter_agrees (hsorted : SortedStream ucmp entries)
    (hsequence : sequence ≤ kMaxSequenceNumber) :
    (∃ m, VisibleMap ucmp sequence entries m) ∧
      ∀ m, VisibleMap ucmp sequence entries m →
        ∀ calls, Agrees ucmp sequence entries m DBIter.new .invalid calls := by
  refine ⟨⟨_, exists_visibleMap hsorted⟩, fun m hm calls => ?_⟩
  have hnew : Represents ucmp sequence entries m DBIter.new .invalid :=
    represents_invalid trivial rfl rfl
  exact hnew.agrees hsorted hsequence hm calls

/-- Two versions of `a`, a deletion of `b` over a value, and a value of `c`. -/
def versionsStream : List TableEntry :=
  [⟨appendInternalKey ⟨ascii ['a'], 5, .value⟩, ascii ['5']⟩,
    ⟨appendInternalKey ⟨ascii ['a'], 1, .value⟩, ascii ['1']⟩,
    ⟨appendInternalKey ⟨ascii ['b'], 3, .deletion⟩, []⟩,
    ⟨appendInternalKey ⟨ascii ['b'], 2, .value⟩, ascii ['2']⟩,
    ⟨appendInternalKey ⟨ascii ['c'], 4, .value⟩, ascii ['4']⟩]

theorem dbIter_agrees_versions :
    (∃ m, VisibleMap bytewiseComparator 4 versionsStream m) ∧
      ∀ m, VisibleMap bytewiseComparator 4 versionsStream m →
        ∀ calls, Agrees bytewiseComparator 4 versionsStream m DBIter.new .invalid calls :=
  dbIter_agrees (by unfold SortedStream versionsStream; decide) (by decide)

end WiscKey
