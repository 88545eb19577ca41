import WiscKey.Library.SourceSearch
import WiscKey.Version.Search
import Mathlib.Data.List.Find

/-!
# The search in level 0

When all tables are in level 0, a read answers from the table with the highest number that has
entries of the key, and there from the first of them.
-/

namespace WiscKey

section Source

variable (ucmp : Comparator) (userKey : Bytes)

/-- A source has an entry of the user key. -/
def hasKey (entries : List TableEntry) : Bool := entries.any (ofKey ucmp userKey)

/-- The first entry of the user key. -/
def firstOf (entries : List TableEntry) : Option TableEntry := entries.find? (ofKey ucmp userKey)

variable {ucmp userKey} {sequence : Nat} {e f : TableEntry} {entries : List TableEntry}

theorem hasKey_iff : hasKey ucmp userKey entries = true ↔ ∃ e ∈ entries, ofKey ucmp userKey e :=
  List.any_eq_true

theorem firstOf_eq_none : firstOf ucmp userKey entries = none ↔
    hasKey ucmp userKey entries = false := by
  simp [firstOf, hasKey]

theorem ofKey_of_firstOf (h : firstOf ucmp userKey entries = some e) :
    ofKey ucmp userKey e = true := List.find?_some h

theorem mem_of_firstOf (h : firstOf ucmp userKey entries = some e) : e ∈ entries :=
  List.mem_of_find?_eq_some h

/-- In a sorted source the first entry of a user key is the newest. -/
theorem SortedStream.tag_le_firstOf (h : SortedStream ucmp entries)
    (he : firstOf ucmp userKey entries = some e) (hf : f ∈ entries)
    (hkey : ofKey ucmp userKey f = true) : internalTag f.key ≤ internalTag e.key := by
  obtain ⟨hfirst, before, after, rfl, hbefore⟩ := List.find?_eq_some_iff_append.mp he
  rcases List.mem_append.mp hf with hf | hf
  · exact absurd hkey (by simpa using hbefore f hf)
  rcases List.mem_cons.mp hf with rfl | hf
  · exact le_rfl
  · have hle := (List.pairwise_cons.mp (List.pairwise_append.mp h).2.1).1 f hf
    have heq : ucmp.compare (extractUserKey e.key) (extractUserKey f.key) = .eq :=
      Std.TransCmp.eq_trans (ofKey_iff.mp hfirst) (Std.OrientedCmp.eq_symm (ofKey_iff.mp hkey))
    rw [Comparator.internalCompare, heq] at hle
    exact Nat.not_lt.mp fun hlt => hle (Nat.compare_eq_gt.mpr hlt)

/-- The entries of a sorted source are between its first and its last. -/
theorem SortedStream.between (h : SortedStream ucmp (f :: entries))
    (he : e ∈ f :: entries) (hkey : ofKey ucmp userKey e = true) :
    ucmp.compare userKey (extractUserKey f.key) ≠ .lt ∧ ucmp.compare userKey
      (extractUserKey ((f :: entries).getLast (List.cons_ne_nil f entries)).key) ≠ .gt := by
  have heq := ofKey_iff.mp hkey
  have hself : ucmp.compare (extractUserKey e.key) userKey ≠ .gt := by
    rw [heq]
    exact Ordering.noConfusion
  have hself' : ucmp.compare userKey (extractUserKey e.key) ≠ .gt := by
    rw [Std.OrientedCmp.eq_symm heq]
    exact Ordering.noConfusion
  have hfirst : ucmp.compare (extractUserKey f.key) (extractUserKey e.key) ≠ .gt := by
    rcases List.mem_cons.mp he with rfl | he
    · exact not_gt_self
    · exact (List.pairwise_cons.mp h.userKeys).1 e he
  have hlast : ucmp.compare (extractUserKey e.key)
      (extractUserKey ((f :: entries).getLast (List.cons_ne_nil f entries)).key) ≠ .gt := by
    have hsplit := List.dropLast_append_getLast (List.cons_ne_nil f entries)
    have hsorted := h
    rw [← hsplit] at hsorted he
    rcases List.mem_append.mp he with he | he
    · exact hsorted.le_of_append he (List.mem_singleton_self _)
    · rw [List.mem_singleton.mp he]
      exact not_gt_self
  exact ⟨not_gt_iff_not_lt.mp (not_gt_trans hfirst hself), not_gt_trans hself' hlast⟩

/-- Where all entries can be seen, the first that is seen is the first of the user key. -/
theorem newestSeen_of_visible (hvisible : ∀ e ∈ entries, Visible sequence e) :
    newestSeen ucmp userKey sequence entries = firstOf ucmp userKey entries := by
  refine List.find?_congr fun e he => ?_
  rw [Bool.eq_iff_iff, isSeen_iff_ofKey]
  exact and_iff_left (hvisible e he)

end Source

namespace Version

variable {ucmp : Comparator} {userKey : Bytes} {sequence : Nat} {tables : Tables}
  {files : List TableFile} {v : Version Bytes}

/-- A table is read without an error, and a read at the sequence number sees all of it. -/
structure Searchable (ucmp : Comparator) (sequence : Nat) (tables : Tables) (number : Nat) :
    Prop where
  ok : (tables number).1 = .ok
  sorted : SortedStream ucmp (tables number).2
  visible : ∀ e ∈ (tables number).2, Visible sequence e

theorem Searchable.readable {number : Nat} (h : Searchable ucmp sequence tables number) :
    Readable ucmp tables number := by
  refine ⟨h.ok, h.sorted, fun e he => ?_⟩
  obtain ⟨ikey, hparse, -⟩ := h.visible e he
  exact Option.isSome_iff_exists.mpr ⟨ikey, hparse⟩

/-- The search ends at the first table that has entries of the user key. -/
theorem answer_searchFiles (hsequence : sequence ≤ kMaxSequenceNumber)
    (h : ∀ f ∈ files, Searchable ucmp sequence tables f.number) :
    (searchFiles ucmp tables userKey (lookupKey userKey sequence) files).status =
        (answer (files.findSome? fun f => firstOf ucmp userKey (tables f.number).2)).1 ∧
      (searchFiles ucmp tables userKey (lookupKey userKey sequence) files).value =
        (answer (files.findSome? fun f => firstOf ucmp userKey (tables f.number).2)).2 := by
  have hsearch := @searchFiles_newestSeen _ userKey _ _ _ hsequence fun f hf => (h f hf).readable
  have hfirst : (files.findSome? fun f => newestSeen ucmp userKey sequence (tables f.number).2) =
      files.findSome? fun f => firstOf ucmp userKey (tables f.number).2 :=
    findSome?_congr_of_mem fun f hf => newestSeen_of_visible (h f hf).visible
  rw [hfirst] at hsearch
  exact ⟨congrArg Prod.fst hsearch, congrArg Prod.snd hsearch⟩

/-- Without tables in the deeper levels only those of level 0 are searched. -/
theorem filesToSearch_levelZero (h : ∀ level, level ≠ 0 → v.files level = []) (ikey : Bytes) :
    v.filesToSearch ucmp userKey ikey = v.levelZeroFiles ucmp userKey := by
  rw [filesToSearch, List.filterMap_eq_nil_iff.mpr, List.append_nil]
  intro level hlevel
  have hdeep : level ≠ 0 := by
    rintro rfl
    simp at hlevel
  rw [levelFile, h level hdeep]
  rfl

/-- From the highest number down, the first table that answers is the one of the highest number
that does. -/
theorem findSome?_of_descending {answers : TableFile → Option TableEntry} {f : TableFile}
    (hdesc : files.Pairwise fun f g => g.number ≤ f.number) (hf : f ∈ files)
    (hanswers : (answers f).isSome)
    (hsame : ∀ g ∈ files, g.number = f.number → g = f)
    (hnone : ∀ g ∈ files, f.number < g.number → answers g = none) :
    files.findSome? answers = answers f := by
  induction files with
  | nil => exact absurd hf List.not_mem_nil
  | cons g files ih =>
    rw [List.findSome?_cons]
    by_cases hnumber : g.number = f.number
    · rw [hsame g List.mem_cons_self hnumber]
      obtain ⟨e, he⟩ := Option.isSome_iff_exists.mp hanswers
      rw [he]
    · have hmem : f ∈ files :=
        (List.mem_cons.mp hf).resolve_left fun h => hnumber (congrArg FileMetaData.number h.symm)
      have hle := (List.pairwise_cons.mp hdesc).1 f hmem
      rw [hnone g List.mem_cons_self (by omega)]
      exact ih (List.pairwise_cons.mp hdesc).2 hmem
        (fun k hk => hsame k (List.mem_cons_of_mem _ hk))
        fun k hk => hnone k (List.mem_cons_of_mem _ hk)

end Version

end WiscKey
