import WiscKey.Iterator.DbIter

/-!
# The map that a snapshot shows

The entries of a sorted stream that a snapshot can see give each user key its newest version, and
the map has the user keys whose newest version is a value. The iterator searches the stream; what
it finds is told in terms of the entries that it has passed.
-/

namespace WiscKey

variable (ucmp : Comparator) (sequence : Nat)

/-- A sorted stream of internal keys. -/
def SortedStream (entries : List TableEntry) : Prop :=
  entries.Pairwise fun a b => ucmp.internalCompare a.key b.key ≠ .gt

/-- The snapshot can see the entry. -/
def Visible (e : TableEntry) : Prop :=
  ∃ ikey, parseInternalKey e.key = some ikey ∧ ikey.sequence ≤ sequence

/-- The entry is a value. -/
def IsValue (e : TableEntry) : Prop :=
  ∃ ikey, parseInternalKey e.key = some ikey ∧ ikey.type = .value

/-- The key and the value of an entry, as a user sees them. -/
def TableEntry.pair (e : TableEntry) : Bytes × Bytes := (extractUserKey e.key, e.value)

/-- The entry is the first that can be seen of its user key; in a sorted stream that is the newest
of the versions that can be seen. -/
def NewestIn (entries : List TableEntry) (e : TableEntry) : Prop :=
  ∃ before after, entries = before ++ e :: after ∧ Visible sequence e ∧ ∀ f ∈ before,
    Visible sequence f → ucmp.compare (extractUserKey f.key) (extractUserKey e.key) ≠ .eq

/-- The newest version of its user key that can be seen is a value. -/
def ShownIn (entries : List TableEntry) (e : TableEntry) : Prop :=
  NewestIn ucmp sequence entries e ∧ IsValue e

/-- The map holds, for each user key, the value of its newest version that can be seen, if that
is not a deletion. -/
structure VisibleMap (entries : List TableEntry) (m : List (Bytes × Bytes)) : Prop where
  increasing : Increasing ucmp.comparePair m
  mem : ∀ p, p ∈ m ↔ ∃ e, ShownIn ucmp sequence entries e ∧ e.pair = p
  newest : ∀ e, NewestIn ucmp sequence entries e → ∀ f ∈ entries, Visible sequence f →
    ucmp.compare (extractUserKey f.key) (extractUserKey e.key) = .eq →
      ucmp.internalCompare e.key f.key ≠ .gt

variable {ucmp sequence} {entries before rest l : List TableEntry} {e f : TableEntry}

/-- A sorted stream is in the order of the user keys. -/
theorem SortedStream.userKeys (h : SortedStream ucmp entries) :
    entries.Pairwise fun a b =>
      ucmp.compare (extractUserKey a.key) (extractUserKey b.key) ≠ .gt := by
  refine h.imp fun {a b} hab hgt => hab ?_
  rw [Comparator.internalCompare, hgt]
  rfl

theorem SortedStream.le_of_append (h : SortedStream ucmp (before ++ rest)) (hf : f ∈ before)
    (he : e ∈ rest) : ucmp.compare (extractUserKey f.key) (extractUserKey e.key) ≠ .gt :=
  (List.pairwise_append.mp h.userKeys).2.2 f hf e he

/-- The entries that can be seen are behind the key that `Seek` looks for if and only if their user
keys are not below its target. -/
theorem internalCompare_seek (h : sequence ≤ kMaxSequenceNumber) (he : Visible sequence e)
    (target : Bytes) :
    ucmp.internalCompare e.key (appendInternalKey ⟨target, sequence, .value⟩) = .lt ↔
      ucmp.compare (extractUserKey e.key) target = .lt := by
  obtain ⟨ikey, hparse, hseq⟩ := he
  have htag := (parseInternalKey_spec hparse).2
  have hcode : ikey.type.code ≤ 1 := by cases ikey.type <;> decide
  have hle : internalTag e.key ≤ sequence * 256 + 1 := by omega
  rw [Comparator.internalCompare, extractUserKey_appendInternalKey,
    internalTag_appendInternalKey h, Ordering.then_eq_lt]
  refine or_iff_left ?_
  rintro ⟨-, hlt⟩
  rw [Nat.compare_eq_lt] at hlt
  simp only [ValueType.code] at hlt
  omega

/-- An entry is the newest with what is in front, unless its user key is seen there. -/
theorem newestIn_append : NewestIn ucmp sequence (before ++ rest) e ↔
    NewestIn ucmp sequence before e ∨ (NewestIn ucmp sequence rest e ∧ ∀ f ∈ before,
      Visible sequence f → ucmp.compare (extractUserKey f.key) (extractUserKey e.key) ≠ .eq) := by
  constructor
  · rintro ⟨front, back, heq, hvisible, hfirst⟩
    rcases List.append_eq_append_iff.mp heq with ⟨mid, hbefore, hrest⟩ | ⟨mid, hfront, hback⟩
    · refine .inr ⟨⟨mid, back, hrest, hvisible, fun f hf => hfirst f ?_⟩, fun f hf => hfirst f ?_⟩
      · rw [hbefore]
        exact List.mem_append_right _ hf
      · rw [hbefore]
        exact List.mem_append_left _ hf
    · cases mid with
      | nil =>
        rw [List.append_nil] at hfront
        refine .inr ⟨⟨[], back, by simpa using hback.symm, hvisible, by simp⟩, ?_⟩
        rw [hfront]
        exact hfirst
      | cons g mid =>
        obtain ⟨rfl, hback⟩ := List.cons.inj hback
        exact .inl ⟨front, mid, hfront, hvisible, hfirst⟩
  · rintro (⟨front, back, rfl, hvisible, hfirst⟩ |
      ⟨⟨front, back, rfl, hvisible, hfirst⟩, hnone⟩)
    · exact ⟨front, back ++ rest, by simp, hvisible, hfirst⟩
    · refine ⟨before ++ front, back, by simp, hvisible, fun f hf => ?_⟩
      rcases List.mem_append.mp hf with hf | hf
      · exact hnone f hf
      · exact hfirst f hf

theorem NewestIn.mem (h : NewestIn ucmp sequence l e) : e ∈ l := by
  obtain ⟨front, back, rfl, -⟩ := h
  exact List.mem_append_right _ List.mem_cons_self

theorem NewestIn.visible (h : NewestIn ucmp sequence l e) : Visible sequence e := by
  obtain ⟨front, back, -, hvisible, -⟩ := h
  exact hvisible

/-- In a sorted stream no version that can be seen is newer. -/
theorem NewestIn.newest (h : NewestIn ucmp sequence entries e) (hsorted : SortedStream ucmp entries)
    (hf : f ∈ entries) (hvisible : Visible sequence f)
    (hkey : ucmp.compare (extractUserKey f.key) (extractUserKey e.key) = .eq) :
    ucmp.internalCompare e.key f.key ≠ .gt := by
  obtain ⟨front, back, rfl, -, hfirst⟩ := h
  rcases List.mem_append.mp hf with hf | hf
  · exact absurd hkey (hfirst f hf hvisible)
  rcases List.mem_cons.mp hf with rfl | hf
  · exact not_gt_self
  · exact (List.pairwise_cons.mp (List.pairwise_append.mp hsorted).2.1).1 f hf

/-- An entry is shown with what is in front, unless its user key is seen there. -/
theorem shownIn_append : ShownIn ucmp sequence (before ++ rest) e ↔
    ShownIn ucmp sequence before e ∨ (ShownIn ucmp sequence rest e ∧ ∀ f ∈ before,
      Visible sequence f → ucmp.compare (extractUserKey f.key) (extractUserKey e.key) ≠ .eq) := by
  rw [ShownIn, newestIn_append, ShownIn, ShownIn]
  tauto

theorem ShownIn.mem (h : ShownIn ucmp sequence l e) : e ∈ l := h.1.mem

theorem ShownIn.visible (h : ShownIn ucmp sequence l e) : Visible sequence e := h.1.visible

/-- The first entry of a stream is shown if it can be seen and is a value. -/
theorem shownIn_cons : ShownIn ucmp sequence (f :: l) e ↔
    (e = f ∧ Visible sequence f ∧ IsValue f) ∨ (ShownIn ucmp sequence l e ∧
      (Visible sequence f → ucmp.compare (extractUserKey f.key) (extractUserKey e.key) ≠ .eq)) := by
  have hsingle : ShownIn ucmp sequence [f] e ↔ e = f ∧ Visible sequence f ∧ IsValue f := by
    constructor
    · intro h
      obtain rfl := List.mem_singleton.mp h.mem
      exact ⟨rfl, h.visible, h.2⟩
    · rintro ⟨rfl, hvisible, hvalue⟩
      exact ⟨⟨[], [], rfl, hvisible, by simp⟩, hvalue⟩
  have happend : ShownIn ucmp sequence ([f] ++ l) e ↔ _ := shownIn_append
  rw [hsingle] at happend
  simpa using happend

/-- The entries that are shown, in the order of the stream; `seen` is the user key seen last. -/
def shownFrom (ucmp : Comparator) (sequence : Nat) (seen : Option Bytes) :
    List TableEntry → List TableEntry
  | [] => []
  | e :: entries =>
    match parseInternalKey e.key with
    | none => shownFrom ucmp sequence seen entries
    | some ikey =>
      if ikey.sequence ≤ sequence then
        if ikey.type = .value ∧ ∀ k ∈ seen, ucmp.compare k (extractUserKey e.key) ≠ .eq then
          e :: shownFrom ucmp sequence (some (extractUserKey e.key)) entries
        else shownFrom ucmp sequence (some (extractUserKey e.key)) entries
      else shownFrom ucmp sequence seen entries

theorem shownFrom_of_not_visible {seen : Option Bytes} (h : ¬ Visible sequence e) :
    shownFrom ucmp sequence seen (e :: l) = shownFrom ucmp sequence seen l := by
  rw [shownFrom]
  cases hparse : parseInternalKey e.key with
  | none => rfl
  | some ikey => exact if_neg fun hle => h ⟨ikey, hparse, hle⟩

theorem mem_shownFrom_cons {seen : Option Bytes} (h : Visible sequence e) :
    f ∈ shownFrom ucmp sequence seen (e :: l) ↔
      (f = e ∧ IsValue e ∧ ∀ k ∈ seen, ucmp.compare k (extractUserKey e.key) ≠ .eq) ∨
        f ∈ shownFrom ucmp sequence (some (extractUserKey e.key)) l := by
  obtain ⟨ikey, hparse, hle⟩ := h
  have hvalue : IsValue e ↔ ikey.type = .value := by simp [IsValue, hparse]
  rw [shownFrom, hparse, hvalue]
  simp only [if_pos hle]
  split
  · rename_i hshown
    rw [List.mem_cons]
    tauto
  · rename_i hshown
    tauto

/-- The scan of a sorted stream finds the entries that are shown. -/
theorem mem_shownFrom {seen : Option Bytes} (hsorted : SortedStream ucmp entries)
    (hseen : ∀ k ∈ seen, ∀ e ∈ entries, ucmp.compare k (extractUserKey e.key) ≠ .gt) :
    f ∈ shownFrom ucmp sequence seen entries ↔ ShownIn ucmp sequence entries f ∧
      ∀ k ∈ seen, ucmp.compare k (extractUserKey f.key) ≠ .eq := by
  induction entries generalizing seen with
  | nil =>
    constructor
    · exact fun h => nomatch h
    · exact fun h => absurd h.1.mem List.not_mem_nil
  | cons e entries ih =>
    obtain ⟨hhead, hrest⟩ := List.pairwise_cons.mp hsorted
    have hle := (List.pairwise_cons.mp hsorted.userKeys).1
    rw [shownIn_cons]
    by_cases hvisible : Visible sequence e
    · rw [mem_shownFrom_cons hvisible, ih hrest (by simpa using hle)]
      -- a key that is seen and comes again behind the entry is the key of the entry
      have hagain : ShownIn ucmp sequence entries f →
          ucmp.compare (extractUserKey e.key) (extractUserKey f.key) ≠ .eq →
          ∀ k ∈ seen, ucmp.compare k (extractUserKey f.key) ≠ .eq := by
        intro hf hne k hk heq
        have hlt := lt_of_not_gt_of_lt (hseen k hk e List.mem_cons_self)
          (lt_of_not_gt_of_ne (hle f hf.mem) hne)
        rw [heq] at hlt
        exact Ordering.noConfusion hlt
      simp only [Option.mem_some_iff, forall_eq']
      constructor
      · rintro (⟨rfl, hvalue, hne⟩ | ⟨hf, hne⟩)
        · exact ⟨.inl ⟨rfl, hvisible, hvalue⟩, hne⟩
        · exact ⟨.inr ⟨hf, fun _ => hne⟩, hagain hf hne⟩
      · rintro ⟨⟨rfl, -, hvalue⟩ | ⟨hf, hne⟩, hseenNe⟩
        · exact .inl ⟨rfl, hvalue, hseenNe⟩
        · exact .inr ⟨hf, hne hvisible⟩
    · rw [shownFrom_of_not_visible hvisible,
        ih hrest fun k hk f hf => hseen k hk f (List.mem_cons_of_mem _ hf)]
      tauto

/-- The scan keeps the order of the user keys. -/
theorem pairwise_shownFrom {seen : Option Bytes} (hsorted : SortedStream ucmp entries)
    (hseen : ∀ k ∈ seen, ∀ e ∈ entries, ucmp.compare k (extractUserKey e.key) ≠ .gt) :
    (shownFrom ucmp sequence seen entries).Pairwise fun a b =>
      ucmp.compare (extractUserKey a.key) (extractUserKey b.key) = .lt := by
  induction entries generalizing seen with
  | nil => exact List.Pairwise.nil
  | cons e entries ih =>
    obtain ⟨hhead, hrest⟩ := List.pairwise_cons.mp hsorted
    have hle := (List.pairwise_cons.mp hsorted.userKeys).1
    have htail := @ih (some (extractUserKey e.key)) hrest (by simpa using hle)
    by_cases hvisible : Visible sequence e
    · obtain ⟨ikey, hparse, hseq⟩ := hvisible
      rw [shownFrom, hparse]
      simp only [if_pos hseq]
      split
      · refine List.pairwise_cons.mpr ⟨fun f hf => ?_, htail⟩
        obtain ⟨hshown, hne⟩ := (mem_shownFrom hrest (by simpa using hle)).mp hf
        exact lt_of_not_gt_of_ne (hle f hshown.mem) (hne _ rfl)
      · exact htail
    · rw [shownFrom_of_not_visible hvisible]
      exact ih hrest fun k hk f hf => hseen k hk f (List.mem_cons_of_mem _ hf)

/-- A snapshot of a sorted stream has a map. -/
theorem exists_visibleMap (hsorted : SortedStream ucmp entries) :
    VisibleMap ucmp sequence entries ((shownFrom ucmp sequence none entries).map TableEntry.pair) := by
  refine ⟨?_, fun p => ?_, fun e h f hf hvisible hkey => h.newest hsorted hf hvisible hkey⟩
  · exact List.pairwise_map.mpr (pairwise_shownFrom hsorted (by simp))
  · rw [List.mem_map]
    refine exists_congr fun e => and_congr_left fun _ => ?_
    rw [mem_shownFrom hsorted (by simp)]
    simp

end WiscKey
