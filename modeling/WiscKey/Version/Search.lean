import WiscKey.Iterator.VisibleMap
import WiscKey.Version.Get

/-!
# The search in sorted tables

The search in a sorted table ends at the first version of the user key that the snapshot can see,
and a search in tables ends in the first of them that has one.
-/

namespace WiscKey

/-- What a read returns for the entry it ends at: the status, and the value. -/
def answer : Option TableEntry → Status × Option Bytes
  | none => (.notFound "", none)
  | some e =>
    match parseInternalKey e.key with
    | some ⟨_, _, .value⟩ => (.ok, some e.value)
    | _ => (.notFound "", none)

/-- What `SaveValue` keeps for an entry of its user key. -/
def saved : Option TableEntry → SaverState
  | none => .notFound
  | some e =>
    match parseInternalKey e.key with
    | some ⟨_, _, .value⟩ => .found e.value
    | _ => .deleted

section Source

variable (ucmp : Comparator) (userKey : Bytes)

/-- The entry is of the user key. -/
def ofKey (e : TableEntry) : Bool := ucmp.compare (extractUserKey e.key) userKey = .eq

/-- The entry is a version of the user key that the snapshot can see. -/
def isSeen (sequence : Nat) (e : TableEntry) : Bool :=
  (parseInternalKey e.key).any fun ikey =>
    ucmp.compare ikey.userKey userKey = .eq ∧ ikey.sequence ≤ sequence

/-- The first version of the user key that the snapshot can see. -/
def newestSeen (sequence : Nat) (entries : List TableEntry) : Option TableEntry :=
  entries.find? (isSeen ucmp userKey sequence)

variable {ucmp userKey} {sequence : Nat} {e f : TableEntry} {entries : List TableEntry}

theorem ofKey_iff : ofKey ucmp userKey e = true ↔
    ucmp.compare (extractUserKey e.key) userKey = .eq := decide_eq_true_iff

theorem isSeen_iff : isSeen ucmp userKey sequence e = true ↔
    ∃ ikey, parseInternalKey e.key = some ikey ∧ ucmp.compare ikey.userKey userKey = .eq ∧
      ikey.sequence ≤ sequence := by
  simp [isSeen, Option.any_eq_true]

/-- A version is seen if it is of the user key and visible. -/
theorem isSeen_iff_ofKey : isSeen ucmp userKey sequence e = true ↔
    ofKey ucmp userKey e = true ∧ Visible sequence e := by
  rw [isSeen_iff, ofKey_iff]
  constructor
  · rintro ⟨ikey, hparse, heq, hle⟩
    rw [← (parseInternalKey_spec hparse).1]
    exact ⟨heq, ikey, hparse, hle⟩
  · rintro ⟨heq, ikey, hparse, hle⟩
    exact ⟨ikey, hparse, (parseInternalKey_spec hparse).1 ▸ heq, hle⟩

theorem newestSeen_eq_none : newestSeen ucmp userKey sequence entries = none ↔
    ∀ e ∈ entries, ¬ isSeen ucmp userKey sequence e = true := List.find?_eq_none

theorem mem_of_newestSeen (h : newestSeen ucmp userKey sequence entries = some e) :
    e ∈ entries := List.mem_of_find?_eq_some h

theorem isSeen_of_newestSeen (h : newestSeen ucmp userKey sequence entries = some e) :
    isSeen ucmp userKey sequence e = true := List.find?_some h

/-- An entry that can be decoded is in front of the lookup key if its user key is, or if it is a
version of the user key that the snapshot cannot see. -/
theorem internalCompare_lookupKey (hsequence : sequence ≤ kMaxSequenceNumber)
    (hparsed : (parseInternalKey e.key).isSome) :
    ucmp.internalCompare e.key (lookupKey userKey sequence) = .lt ↔
      ucmp.compare (extractUserKey e.key) userKey = .lt ∨
        (ofKey ucmp userKey e = true ∧ isSeen ucmp userKey sequence e = false) := by
  obtain ⟨ikey, hparse⟩ := Option.isSome_iff_exists.mp hparsed
  obtain ⟨huser, htag⟩ := parseInternalKey_spec hparse
  have hcode : ikey.type.code ≤ 1 := by cases ikey.type <;> decide
  have hvalue : ValueType.value.code = 1 := rfl
  rw [Comparator.internalCompare, lookupKey, extractUserKey_appendInternalKey,
    internalTag_appendInternalKey hsequence, Ordering.then_eq_lt, ← Bool.not_eq_true, isSeen_iff,
    ofKey_iff, Nat.compare_eq_lt, htag]
  refine or_congr_right (and_congr_right fun heq => ?_)
  simp only [hparse, Option.some.injEq, exists_eq_left', huser, heq, true_and, hvalue]
  omega

/-- A version that can be seen is not in front of the lookup key. -/
theorem not_lt_lookupKey_of_isSeen (hsequence : sequence ≤ kMaxSequenceNumber)
    (h : isSeen ucmp userKey sequence e = true) :
    ucmp.internalCompare e.key (lookupKey userKey sequence) ≠ .lt := by
  obtain ⟨ikey, hparse, -⟩ := isSeen_iff.mp h
  intro hlt
  rcases (internalCompare_lookupKey hsequence (by rw [hparse]; rfl)).mp hlt with hlt | ⟨-, hunseen⟩
  · rw [ofKey_iff.mp (isSeen_iff_ofKey.mp h).1] at hlt
    exact Ordering.noConfusion hlt
  · rw [h] at hunseen
    exact Bool.noConfusion hunseen

/-- The search in a sorted table ends at the first version of the user key that can be seen. -/
theorem saveValue_newestSeen (hsequence : sequence ≤ kMaxSequenceNumber)
    (hsorted : SortedStream ucmp entries)
    (hparsed : ∀ e ∈ entries, (parseInternalKey e.key).isSome) :
    saveValue ucmp userKey (seek ucmp (lookupKey userKey sequence) entries) =
      saved (newestSeen ucmp userKey sequence entries) := by
  induction entries with
  | nil => rfl
  | cons e entries ih =>
    have he := hparsed e List.mem_cons_self
    have hseek := @internalCompare_lookupKey ucmp userKey _ _ hsequence he
    obtain ⟨⟨user, seq, type⟩, hparse⟩ := Option.isSome_iff_exists.mp he
    obtain rfl : user = extractUserKey e.key := (parseInternalKey_spec hparse).1
    by_cases hbefore : ucmp.internalCompare e.key (lookupKey userKey sequence) = .lt
    · have hskip : seek ucmp (lookupKey userKey sequence) (e :: entries) =
          seek ucmp (lookupKey userKey sequence) entries :=
        List.find?_cons_of_neg (by simpa using hbefore)
      have hunseen : isSeen ucmp userKey sequence e = false := by
        rcases hseek.mp hbefore with hlt | ⟨-, hunseen⟩
        · rw [← Bool.not_eq_true, isSeen_iff_ofKey, ofKey_iff, hlt]
          exact fun h => Ordering.noConfusion h.1
        · exact hunseen
      have hnewest : newestSeen ucmp userKey sequence (e :: entries) =
          newestSeen ucmp userKey sequence entries :=
        List.find?_cons_of_neg (by simp [hunseen])
      rw [hskip, hnewest]
      exact ih (List.pairwise_cons.mp hsorted).2 fun f hf => hparsed f (List.mem_cons_of_mem _ hf)
    · have hstop : seek ucmp (lookupKey userKey sequence) (e :: entries) = some e :=
        List.find?_cons_of_pos (by simpa using hbefore)
      rw [hstop]
      simp only [saveValue, hparse]
      split
      · rename_i heq
        have hseen : isSeen ucmp userKey sequence e = true :=
          Bool.not_eq_false _ ▸ fun h => hbefore (hseek.mpr (.inr ⟨ofKey_iff.mpr heq, h⟩))
        have hnewest : newestSeen ucmp userKey sequence (e :: entries) = some e :=
          List.find?_cons_of_pos hseen
        rw [hnewest]
        simp only [saved, hparse]
        cases type with
        | deletion => rfl
        | value => rfl
      · -- the user key is behind, and so are those of the entries that follow
        rename_i hne
        have hgt : ucmp.compare (extractUserKey e.key) userKey ≠ .lt :=
          fun h => hbefore (hseek.mpr (.inl h))
        have hnone : newestSeen ucmp userKey sequence (e :: entries) = none := by
          refine List.find?_eq_none.mpr fun f hf hseen => ?_
          have hfkey := ofKey_iff.mp (isSeen_iff_ofKey.mp hseen).1
          rcases List.mem_cons.mp hf with rfl | hf
          · exact hne hfkey
          · have hle := (List.pairwise_cons.mp hsorted.userKeys).1 f hf
            have hlt := lt_of_not_gt_of_ne (not_gt_trans hle (by rw [hfkey]; simp)) hne
            exact hgt hlt
        rw [hnone]
        rfl

end Source

namespace Version

variable {ucmp : Comparator} {userKey : Bytes} {sequence : Nat} {tables : Tables}
  {files : List TableFile} {v : Version Bytes}

theorem mem_levelZeroFiles {f : TableFile} : f ∈ v.levelZeroFiles ucmp userKey ↔
    f ∈ v.files 0 ∧ ucmp.compare userKey (extractUserKey f.smallest) ≠ .lt ∧
      ucmp.compare userKey (extractUserKey f.largest) ≠ .gt := by
  rw [levelZeroFiles, (List.perm_insertionSort _ _).mem_iff, List.mem_filter, decide_eq_true_iff]

/-- The tables of level 0 are searched from the highest number down. -/
theorem levelZeroFiles_descending :
    (v.levelZeroFiles ucmp userKey).Pairwise fun f g => g.number ≤ f.number := by
  have : Std.Total fun f g : TableFile => g.number ≤ f.number :=
    ⟨fun f g => Nat.le_total g.number f.number⟩
  have : IsTrans TableFile fun f g => g.number ≤ f.number :=
    ⟨fun f g k hfg hgk => Nat.le_trans hgk hfg⟩
  exact List.pairwise_insertionSort ..

/-- A table is read without an error, and its entries are internal keys in order. -/
structure Readable (ucmp : Comparator) (tables : Tables) (number : Nat) : Prop where
  ok : (tables number).1 = .ok
  sorted : SortedStream ucmp (tables number).2
  parsed : ∀ e ∈ (tables number).2, (parseInternalKey e.key).isSome

/-- The search ends at the first table that has a version of the user key that can be seen. -/
theorem searchFiles_newestSeen (hsequence : sequence ≤ kMaxSequenceNumber)
    (h : ∀ f ∈ files, Readable ucmp tables f.number) :
    let r := searchFiles ucmp tables userKey (lookupKey userKey sequence) files
    (r.status, r.value) = answer (files.findSome? fun f =>
      newestSeen ucmp userKey sequence (tables f.number).2) := by
  induction files with
  | nil => rfl
  | cons f files ih =>
    obtain ⟨hok, hsorted, hparsed⟩ := h f List.mem_cons_self
    have hsave := @saveValue_newestSeen _ userKey _ _ hsequence hsorted hparsed
    have hrest := ih fun g hg => h g (List.mem_cons_of_mem _ hg)
    rw [List.findSome?_cons]
    simp only [searchFiles, hok, hsave, if_true]
    cases hnewest : newestSeen ucmp userKey sequence (tables f.number).2 with
    | none => exact hrest
    | some e =>
      obtain ⟨⟨user, seq, type⟩, hparse⟩ :=
        Option.isSome_iff_exists.mp (hparsed e (mem_of_newestSeen hnewest))
      simp only [saved, answer, hparse]
      cases type with
      | deletion => rfl
      | value => rfl

end Version

end WiscKey
