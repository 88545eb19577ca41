import WiscKey.MemTable.SkipListInsert
import WiscKey.Version.GetNewest
import WiscKey.Write.WriteBatch
import Mathlib.Data.List.Find

/-!
# Memtables

A memtable is a skip list of the bytes of its entries: a length-prefixed internal key and a
length-prefixed value. A read seeks the lookup key and decodes the entry that it finds. Reads
outside the bytes of an entry have no value.
-/

namespace WiscKey

namespace MemEntry

/-- The bytes that `MemTable::Add` writes. -/
def bytes (e : MemEntry) : Bytes :=
  encodeVarint32 ((e.key.length + 8) % 2 ^ 32) ++
    (e.key ++ encodeFixed64 ((e.sequence <<< 8) ||| e.type.code)) ++
    (encodeVarint32 (e.value.length % 2 ^ 32) ++ e.value)

/-- The number of bytes that `MemTable::Add` allocates. -/
def encodedLen (e : MemEntry) : Nat :=
  varintLength (e.key.length + 8) + (e.key.length + 8) + varintLength e.value.length +
    e.value.length

/-- What a read returns that ends at the entry. -/
def result (e : MemEntry) : ReadResult :=
  match e.type with
  | .value => ⟨.ok, some e.value, .memTable⟩
  | .deletion => ⟨.notFound "", none, .memTable⟩

/-- The lengths fit their prefixes, and the sequence number is one of 56 bits. -/
structure Fits (e : MemEntry) : Prop where
  key : e.key.length + 8 < 2 ^ 32
  value : e.value.length < 2 ^ 32
  sequence : e.sequence ≤ kMaxSequenceNumber

end MemEntry

/-- `GetLengthPrefixedSlice`, of bytes that are taken not to be corrupted. -/
def memSlice (data : Bytes) : Bytes := ((getLengthPrefixedSlice data).map Prod.fst).getD []

/-- `LookupKey::memtable_key`. -/
def memTableKey (userKey : Bytes) (sequence : Nat) : Bytes :=
  encodeVarint32 ((userKey.length + 8) % 2 ^ 32) ++ lookupKey userKey sequence

/-- The bytes of a slice. -/
def readSlice (data : Bytes) (n : Nat) : Option Bytes :=
  if n ≤ data.length then some (data.take n) else none

namespace MemTable

variable (ucmp : Comparator)

/-- `MemTable::KeyComparator`. -/
def compareEntries (a b : Bytes) : Ordering := ucmp.internalCompare (memSlice a) (memSlice b)

instance : Std.TransCmp (compareEntries ucmp) :=
  letI : Ord Bytes := ⟨ucmp.internalCompare⟩
  haveI : Std.TransOrd Bytes := inferInstanceAs (Std.TransCmp ucmp.internalCompare)
  inferInstanceAs (Std.TransCmp (compareOn memSlice))

/-- `MemTable::Add`, with the height of the node; none where its assertion fails. -/
def add (table : SkipList Bytes) (e : MemEntry) (height : Nat) : Option (SkipList Bytes) :=
  if e.bytes.length = e.encodedLen then table.insert (compareEntries ucmp) e.bytes height
  else none

/-- `key_length - 8`, in 32 bits. -/
def userKeyLength (keyLength : Nat) : Nat := (keyLength + 2 ^ 32 - 8) % 2 ^ 32

theorem userKeyLength_eq {n : Nat} (h : 8 ≤ n) (h' : n < 2 ^ 32) : userKeyLength n = n - 8 := by
  rw [userKeyLength]
  omega

/-- `MemTable::Get`, for the entry that the search ends at. -/
def decodeEntry (userKey : Bytes) (entry : Bytes) : Option (Option ReadResult) := do
  let (keyLength, keyPtr) ← getVarint32 entry
  let user ← readSlice keyPtr (userKeyLength keyLength)
  if ucmp.compare user userKey = .eq then
    -- the tag of a shorter key would be in front of the entry
    if keyLength < 8 then none
    else
      let ikey ← readSlice keyPtr keyLength
      match internalTag ikey &&& 0xff with
      | 1 =>
        (getLengthPrefixedSlice (keyPtr.drop keyLength)).map fun v =>
          some ⟨.ok, some v.1, .memTable⟩
      | 0 => some (some ⟨.notFound "", none, .memTable⟩)
      | _ => some none
  else some none

/-- `MemTable::Get`: what it returns if it returns `true`. -/
def get (table : SkipList Bytes) (userKey : Bytes) (sequence : Nat) :
    Option (Option ReadResult) := do
  match ← table.seek (compareEntries ucmp) (memTableKey userKey sequence) with
  | none => some none
  | some i => decodeEntry ucmp userKey (← table.keyAt i)

/-- Calls of `Add` on a new memtable, each with the height of its node. -/
def addAll (adds : List (MemEntry × Nat)) : Option (SkipList Bytes) :=
  adds.foldlM (fun table a => add ucmp table a.1 a.2) .empty

end MemTable

section Encoding

namespace MemEntry

variable {e : MemEntry}

/-- The internal key of an entry. -/
def ikey (e : MemEntry) : ParsedInternalKey := ⟨e.key, e.sequence, e.type⟩

/-- An entry as the bytes say it: its value is cut to the length that fits the prefix. -/
def entry (e : MemEntry) : TableEntry :=
  ⟨appendInternalKey e.ikey, e.value.take (e.value.length % 2 ^ 32)⟩

theorem bytes_eq (h : e.key.length + 8 < 2 ^ 32) :
    e.bytes = encodeVarint32 (appendInternalKey e.ikey).length ++ (appendInternalKey e.ikey ++
      putLengthPrefixedSlice e.value) := by
  rw [bytes, Nat.mod_eq_of_lt h, List.append_assoc, length_appendInternalKey]
  rfl

theorem memSlice_bytes (h : e.key.length + 8 < 2 ^ 32) :
    memSlice e.bytes = appendInternalKey e.ikey := by
  have hlen : (appendInternalKey e.ikey).length < 2 ^ 32 := by
    rw [length_appendInternalKey]
    exact h
  have hput : putLengthPrefixedSlice (appendInternalKey e.ikey) =
      encodeVarint32 (appendInternalKey e.ikey).length ++ appendInternalKey e.ikey := by
    rw [putLengthPrefixedSlice, Nat.mod_eq_of_lt hlen]
  rw [memSlice, bytes_eq h, ← List.append_assoc, ← hput, getLengthPrefixedSlice_put hlen]
  rfl

theorem memSlice_memTableKey {userKey : Bytes} (h : userKey.length + 8 < 2 ^ 32)
    (sequence : Nat) : memSlice (memTableKey userKey sequence) = lookupKey userKey sequence := by
  have hlen : (lookupKey userKey sequence).length = userKey.length + 8 :=
    length_appendInternalKey _
  have hkey : memTableKey userKey sequence =
      putLengthPrefixedSlice (lookupKey userKey sequence) ++ [] := by
    rw [memTableKey, putLengthPrefixedSlice, hlen, List.append_nil]
  rw [memSlice, hkey, getLengthPrefixedSlice_put (hlen ▸ h)]
  rfl

theorem length_encodeVarint32 {v : Nat} (h : v < 2 ^ 32) :
    (encodeVarint32 (v % 2 ^ 32)).length = varintLength v := by
  rw [Nat.mod_eq_of_lt h, encodeVarint32_eq h, length_encodeVarint64]

/-- The assertion of `Add` holds. -/
theorem Fits.length_bytes (h : e.Fits) : e.bytes.length = e.encodedLen := by
  have hkey := length_encodeVarint32 h.key
  have hvalue := length_encodeVarint32 h.value
  rw [bytes, encodedLen, List.length_append, List.length_append, List.length_append,
    List.length_append, hkey, hvalue, encodeFixed64, length_encodeFixed]
  omega

end MemEntry

end Encoding

section Reads

variable {ucmp : Comparator} {e : MemEntry} {es : List MemEntry} {userKey : Bytes}
  {sequence : Nat} {table : SkipList Bytes}

/-- What `MemTable::Get` returns for an entry, apart from its encoding. -/
def readEntry (ucmp : Comparator) (userKey : Bytes) (e : TableEntry) : Option ReadResult :=
  if ucmp.compare (extractUserKey e.key) userKey = .eq then
    match internalTag e.key &&& 0xff with
    | 1 => some ⟨.ok, some e.value, .memTable⟩
    | 0 => some ⟨.notFound "", none, .memTable⟩
    | _ => none
  else none

theorem memTableGet_eq (entries : List TableEntry) :
    memTableGet ucmp entries userKey sequence =
      (seek ucmp (lookupKey userKey sequence) entries).bind (readEntry ucmp userKey) := by
  unfold memTableGet
  cases seek ucmp (lookupKey userKey sequence) entries <;> rfl

theorem decodeEntry_prefixed {ikey : Bytes} (hlong : 8 ≤ ikey.length)
    (hsize : ikey.length < 2 ^ 32) (value : Bytes) :
    MemTable.decodeEntry ucmp userKey
        (encodeVarint32 ikey.length ++ (ikey ++ putLengthPrefixedSlice value)) =
      some (readEntry ucmp userKey ⟨ikey, value.take (value.length % 2 ^ 32)⟩) := by
  have hslice : ∀ n ≤ ikey.length,
      readSlice (ikey ++ putLengthPrefixedSlice value) n = some (ikey.take n) := by
    intro n hn
    rw [readSlice, if_pos (by rw [List.length_append]; omega), List.take_append_of_le_length hn]
  have hvalue := getLengthPrefixedSlice_put_mod value []
  rw [List.append_nil] at hvalue
  have huserKey : ikey.take (ikey.length - 8) = extractUserKey ikey := rfl
  rw [MemTable.decodeEntry, getVarint32_encodeVarint32 hsize, Option.bind_eq_bind,
    Option.bind_some]
  dsimp only
  rw [MemTable.userKeyLength_eq hlong hsize, hslice _ (Nat.sub_le _ 8), hslice _ le_rfl,
    List.take_length, List.drop_left, hvalue, huserKey, Option.bind_eq_bind, Option.bind_some,
    if_neg (Nat.not_lt.mpr hlong), Option.bind_some, Option.map_some, readEntry]
  split_ifs
  · generalize internalTag ikey &&& 0xff = tag
    rcases tag with _ | _ | tag <;> rfl
  · rfl

theorem decodeEntry_bytes (h : e.key.length + 8 < 2 ^ 32) :
    MemTable.decodeEntry ucmp userKey e.bytes = some (readEntry ucmp userKey e.entry) := by
  have hlen := length_appendInternalKey e.ikey
  have hsize : (appendInternalKey e.ikey).length < 2 ^ 32 := hlen ▸ h
  rw [MemEntry.bytes_eq h]
  exact decodeEntry_prefixed (by omega) hsize e.value

theorem compareEntries_bytes {f : MemEntry} (he : e.key.length + 8 < 2 ^ 32)
    (hf : f.key.length + 8 < 2 ^ 32) : MemTable.compareEntries ucmp e.bytes f.bytes =
      ucmp.internalCompare e.entry.key f.entry.key := by
  rw [MemTable.compareEntries, MemEntry.memSlice_bytes he, MemEntry.memSlice_bytes hf]
  rfl

/-- A read of the bytes is a read of the entries in the order of the skip list. -/
theorem get_eq_memTableGet {L : Nat → List (Nat × Bytes)}
    (h : SkipList.Levels (MemTable.compareEntries ucmp) table L)
    (hbytes : (L 0).map Prod.snd = es.map MemEntry.bytes)
    (hkeys : ∀ e ∈ es, e.key.length + 8 < 2 ^ 32) (hkey : userKey.length + 8 < 2 ^ 32) :
    MemTable.get ucmp table userKey sequence =
      some (memTableGet ucmp (es.map MemEntry.entry) userKey sequence) := by
  obtain ⟨it, hseek, hlands⟩ := h.represents.seek (memTableKey userKey sequence)
  have hfirst : (es.find? fun e => decide
        (MemTable.compareEntries ucmp e.bytes (memTableKey userKey sequence) ≠ .lt)) =
      es.find? fun e => decide
        (ucmp.internalCompare e.entry.key (lookupKey userKey sequence) ≠ .lt) := by
    refine List.find?_congr fun e he => ?_
    rw [MemTable.compareEntries, MemEntry.memSlice_bytes (hkeys e he),
      MemEntry.memSlice_memTableKey hkey]
    rfl
  rw [hbytes, List.find?_map, Function.comp_def, hfirst] at hlands
  rw [MemTable.get, hseek, memTableGet_eq, WiscKey.seek, List.find?_map, Function.comp_def]
  cases hfind : es.find? fun e => decide
      (ucmp.internalCompare e.entry.key (lookupKey userKey sequence) ≠ .lt) with
  | none =>
    rw [hfind] at hlands
    obtain rfl : it = none := hlands
    rfl
  | some e =>
    rw [hfind] at hlands
    obtain ⟨i, rfl, hentry⟩ := hlands
    have hdecode := @decodeEntry_bytes ucmp e userKey (hkeys e (List.mem_of_find?_eq_some hfind))
    simp only [Option.bind_eq_bind, Option.bind_some, hentry, hdecode, Option.map_some]

/-- What a read returns for what `SaveValue` would keep. -/
def SaverState.result : SaverState → Option ReadResult
  | .found value => some ⟨.ok, some value, .memTable⟩
  | .deleted => some ⟨.notFound "", none, .memTable⟩
  | _ => none

theorem readEntry_eq {e : TableEntry} (h : (parseInternalKey e.key).isSome) :
    readEntry ucmp userKey e = (saveValue ucmp userKey (some e)).result := by
  obtain ⟨ikey, hparse⟩ := Option.isSome_iff_exists.mp h
  obtain ⟨huser, htag⟩ := parseInternalKey_spec hparse
  have hmod : internalTag e.key &&& 0xff = ikey.type.code := by
    have hand : internalTag e.key &&& 0xff = internalTag e.key % 256 :=
      Nat.and_two_pow_sub_one_eq_mod _ 8
    have hcode : ikey.type.code < 256 := by cases ikey.type <;> decide
    omega
  rw [readEntry, hmod]
  simp only [saveValue, hparse, huser]
  split_ifs
  · cases ikey.type <;> rfl
  · rfl

/-- A read of a sorted memtable ends at the first version that the snapshot can see. -/
theorem memTableGet_newestSeen {entries : List TableEntry}
    (hsequence : sequence ≤ kMaxSequenceNumber) (hsorted : SortedStream ucmp entries)
    (hparsed : ∀ e ∈ entries, (parseInternalKey e.key).isSome) :
    memTableGet ucmp entries userKey sequence =
      (saved (newestSeen ucmp userKey sequence entries)).result := by
  rw [memTableGet_eq, ← saveValue_newestSeen hsequence hsorted hparsed]
  cases hseek : seek ucmp (lookupKey userKey sequence) entries with
  | none => rfl
  | some e => exact readEntry_eq (hparsed e (List.mem_of_find?_eq_some hseek))

/-- The entry of a user key with the largest sequence number that a snapshot can see. -/
structure MemEntry.IsNewest (ucmp : Comparator) (userKey : Bytes) (sequence : Nat)
    (es : List MemEntry) (e : MemEntry) : Prop where
  mem : e ∈ es
  ofKey : ucmp.compare e.key userKey = .eq
  visible : e.sequence ≤ sequence
  newest : ∀ f ∈ es, ucmp.compare f.key userKey = .eq → f.sequence ≤ sequence →
    f.sequence ≤ e.sequence

theorem MemEntry.Fits.parse_entry (h : e.Fits) : parseInternalKey e.entry.key = some e.ikey :=
  parseInternalKey_appendInternalKey h.sequence

theorem MemEntry.Fits.isSeen_entry (h : e.Fits) :
    isSeen ucmp userKey sequence e.entry = true ↔
      ucmp.compare e.key userKey = .eq ∧ e.sequence ≤ sequence := by
  rw [isSeen_iff, h.parse_entry]
  simp [MemEntry.ikey]

theorem MemEntry.Fits.result_saved (h : e.Fits) :
    (saved (some e.entry)).result = some e.result := by
  simp only [saved, h.parse_entry]
  rw [MemEntry.result, MemEntry.ikey]
  cases e.type with
  | deletion => rfl
  | value =>
    simp only [MemEntry.entry, Nat.mod_eq_of_lt h.value, List.take_length]
    rfl

/-- In the order of the skip list the newest version that can be seen is the first. -/
theorem newestSeen_eq_some (hes : Increasing ucmp.internalCompare (es.map fun e => e.entry.key))
    (hfits : ∀ e ∈ es, e.Fits) (hsequences : (es.map MemEntry.sequence).Nodup)
    (h : e.IsNewest ucmp userKey sequence es) :
    newestSeen ucmp userKey sequence (es.map MemEntry.entry) = some e.entry := by
  have hentries : Increasing (fun a b : TableEntry => ucmp.internalCompare a.key b.key)
      (es.map MemEntry.entry) := List.pairwise_map.mpr (List.pairwise_map.mp hes)
  have hseen := (hfits e h.mem).isSeen_entry.mpr ⟨h.ofKey, h.visible⟩
  refine hentries.find?_eq_some (List.mem_map_of_mem h.mem) hseen fun b hb hbseen hlt => ?_
  obtain ⟨f, hf, rfl⟩ := List.mem_map.mp hb
  obtain ⟨hfkey, hfvisible⟩ := (hfits f hf).isSeen_entry.mp hbseen
  have hle := h.newest f hf hfkey hfvisible
  have htags := Version.internalTag_lt_of_isSeen hbseen hseen hlt
  have htag : ∀ g ∈ es, internalTag g.entry.key = g.sequence * 256 + g.type.code := fun g hg =>
    internalTag_appendInternalKey (hfits g hg).sequence
  have hcode : f.type.code < 256 := by cases f.type <;> decide
  rw [htag e h.mem, htag f hf] at htags
  have hequal : f = e := List.inj_on_of_nodup_map hsequences hf h.mem (by omega)
  rw [hequal] at htags
  exact Nat.lt_irrefl _ htags

end Reads

/-- A list in another order than the images of some elements has the images of these elements in
another order. -/
theorem exists_perm_of_perm_map {α β : Type} {f : α → β} {l : List β} {as : List α}
    (h : l.Perm (as.map f)) : ∃ bs : List α, l = bs.map f ∧ bs.Perm as := by
  have hmap : List.Forall₂ (fun b a => b = f a) (as.map f) as :=
    List.forall₂_map_left_iff.mpr (List.forall₂_same.mpr fun _ _ => rfl)
  obtain ⟨bs, hbs, hperm⟩ := List.perm_comp_forall₂ h hmap
  have heq : List.Forall₂ (· = ·) l (bs.map f) := List.forall₂_map_right_iff.mpr hbs
  rw [List.forall₂_eq_eq_eq] at heq
  exact ⟨bs, heq, hperm⟩

namespace MemTable

variable {ucmp : Comparator} {adds : List (MemEntry × Nat)}

/-- Entries with different sequence numbers are different keys of the skip list. -/
theorem compareEntries_ne_eq {e f : MemEntry} (he : e.Fits) (hf : f.Fits)
    (h : e.sequence ≠ f.sequence) : compareEntries ucmp e.bytes f.bytes ≠ .eq := by
  rw [compareEntries_bytes he.key hf.key, Comparator.internalCompare]
  intro heq
  have htags := Nat.compare_eq_eq.mp (Ordering.then_eq_eq.mp heq).2
  have hcode : ∀ t : ValueType, t.code < 256 := fun t => by cases t <;> decide
  have hecode := hcode e.type
  have hfcode := hcode f.type
  have htag : ∀ g : MemEntry, g.Fits →
      internalTag g.entry.key = g.sequence * 256 + g.type.code := fun g hg =>
    internalTag_appendInternalKey hg.sequence
  rw [htag e he, htag f hf] at htags
  omega

/-- The calls of `Add` insert the bytes of the entries. -/
theorem addAll_eq (hfits : ∀ a ∈ adds, a.1.Fits) : addAll ucmp adds =
    (adds.map fun a => (a.1.bytes, a.2)).foldlM
      (fun s e => s.insert (compareEntries ucmp) e.1 e.2) .empty := by
  have hrun : ∀ table : SkipList Bytes, adds.foldlM (fun t a => add ucmp t a.1 a.2) table =
      (adds.map fun a => (a.1.bytes, a.2)).foldlM
        (fun s e => s.insert (compareEntries ucmp) e.1 e.2) table := by
    induction adds with
    | nil => exact fun _ => rfl
    | cons a adds ih =>
      intro table
      have ha := (hfits a List.mem_cons_self).length_bytes
      rw [List.foldlM_cons, List.map_cons, List.foldlM_cons, add, if_pos ha]
      congr 1
      funext t
      exact ih (fun b hb => hfits b (List.mem_cons_of_mem a hb)) t
  exact hrun .empty

/-- The skip list after some calls of `Add`, with the entries in its order. -/
theorem exists_addAll (hsequences : (adds.map fun a => a.1.sequence).Nodup)
    (hfits : ∀ a ∈ adds, a.1.Fits) (hheight : ∀ a ∈ adds, 1 ≤ a.2 ∧ a.2 ≤ kMaxHeight) :
    ∃ (table : SkipList Bytes) (L : Nat → List (Nat × Bytes)) (es : List MemEntry),
      addAll ucmp adds = some table ∧ SkipList.Levels (compareEntries ucmp) table L ∧
        (L 0).map Prod.snd = es.map MemEntry.bytes ∧ es.Perm (adds.map Prod.fst) := by
  have hinserts : (adds.map fun a => (a.1.bytes, a.2)).Pairwise fun a b =>
      compareEntries ucmp a.1 b.1 ≠ .eq := by
    rw [List.pairwise_map]
    exact (List.pairwise_map.mp hsequences).imp_of_mem fun ha hb hne =>
      compareEntries_ne_eq (hfits _ ha) (hfits _ hb) hne
  have hheights : ∀ d ∈ adds.map fun a => (a.1.bytes, a.2), 1 ≤ d.2 ∧ d.2 ≤ kMaxHeight := by
    intro d hd
    obtain ⟨a, ha, rfl⟩ := List.mem_map.mp hd
    exact hheight a ha
  obtain ⟨table, L, hrun, hlevels, hperm⟩ :=
    SkipList.exists_levels hinserts hheights
  have hbytes : ((L 0).map Prod.snd).Perm ((adds.map Prod.fst).map MemEntry.bytes) := by
    rw [List.map_map] at hperm ⊢
    exact hperm
  obtain ⟨es, hes, hesperm⟩ := exists_perm_of_perm_map hbytes
  exact ⟨table, L, es, (addAll_eq hfits).trans hrun, hlevels, hes, hesperm⟩

/-- A read at a snapshot returns an entry exactly if one of the user key is visible, and then the
value of the newest of these, or `NotFound` where it is a deletion. -/
theorem get_snapshot (hsequences : (adds.map fun a => a.1.sequence).Nodup)
    (hfits : ∀ a ∈ adds, a.1.Fits) (hheight : ∀ a ∈ adds, 1 ≤ a.2 ∧ a.2 ≤ kMaxHeight) :
    ∃ table, addAll ucmp adds = some table ∧ ∀ userKey sequence,
      userKey.length + 8 < 2 ^ 32 → sequence ≤ kMaxSequenceNumber →
        ∃ r, get ucmp table userKey sequence = some r ∧
          (r.isSome = true ↔ ∃ a ∈ adds,
            ucmp.compare a.1.key userKey = .eq ∧ a.1.sequence ≤ sequence) ∧
          ∀ e : MemEntry, e.IsNewest ucmp userKey sequence (adds.map Prod.fst) →
            r = some e.result := by
  obtain ⟨table, L, es, hadds, hlevels, hbytes, hperm⟩ :=
    @exists_addAll ucmp adds hsequences hfits hheight
  have hmem : ∀ e, e ∈ es ↔ e ∈ adds.map Prod.fst := fun e => hperm.mem_iff
  have hesfits : ∀ e ∈ es, e.Fits := fun e he =>
    List.forall_mem_map.mpr hfits e ((hmem e).mp he)
  have hesnodup : (es.map MemEntry.sequence).Nodup := by
    rw [(hperm.map MemEntry.sequence).nodup_iff, List.map_map]
    exact hsequences
  have hincreasing : Increasing ucmp.internalCompare (es.map fun e => e.entry.key) := by
    have hlower := hlevels.increasing
    rw [hbytes] at hlower
    refine List.pairwise_map.mpr ((List.pairwise_map.mp hlower).imp_of_mem fun he hf hlt => ?_)
    rwa [compareEntries_bytes (hesfits _ he).key (hesfits _ hf).key] at hlt
  refine ⟨table, hadds, fun userKey sequence hkey hsequence => ?_⟩
  have hget := @get_eq_memTableGet ucmp es userKey sequence table L hlevels hbytes
    (fun e he => (hesfits e he).key) hkey
  have hentries : ∀ b ∈ es.map MemEntry.entry, (parseInternalKey b.key).isSome :=
    List.forall_mem_map.mpr fun e he => by rw [(hesfits e he).parse_entry]; rfl
  have hsorted : SortedStream ucmp (es.map MemEntry.entry) := by
    refine List.pairwise_map.mpr ((List.pairwise_map.mp hincreasing).imp fun hlt => ?_)
    rw [hlt]
    exact Ordering.noConfusion
  rw [memTableGet_newestSeen hsequence hsorted hentries] at hget
  refine ⟨_, hget, ?_, fun e he => ?_⟩
  · cases hnewest : newestSeen ucmp userKey sequence (es.map MemEntry.entry) with
    | none =>
      refine ⟨nofun, fun ⟨a, ha, heq, hle⟩ => ?_⟩
      have ha' : a.1 ∈ es := (hmem _).mpr (List.mem_map_of_mem ha)
      exact absurd ((hesfits _ ha').isSeen_entry.mpr ⟨heq, hle⟩)
        (newestSeen_eq_none.mp hnewest _ (List.mem_map_of_mem ha'))
    | some b =>
      obtain ⟨e, he, rfl⟩ := List.mem_map.mp (mem_of_newestSeen hnewest)
      have hseen := (hesfits e he).isSeen_entry.mp (isSeen_of_newestSeen hnewest)
      obtain ⟨a, ha, rfl⟩ := List.mem_map.mp ((hmem e).mp he)
      rw [(hesfits _ he).result_saved, MemEntry.result]
      refine ⟨fun _ => ⟨a, ha, hseen⟩, fun _ => ?_⟩
      cases a.1.type <;> rfl
  · have hnewest : e.IsNewest ucmp userKey sequence es :=
      ⟨(hmem e).mpr he.mem, he.ofKey, he.visible, fun f hf => he.newest f ((hmem f).mp hf)⟩
    rw [newestSeen_eq_some hincreasing hesfits hesnodup hnewest]
    exact (hesfits e hnewest.mem).result_saved

/-- Two versions of a key, and a key that goes on behind it. -/
def prefixedAdds : List (MemEntry × Nat) :=
  [(⟨1, .value, [97], [5]⟩, 2), (⟨3, .value, [97, 98], [6]⟩, 1), (⟨2, .deletion, [97], []⟩, 12)]

theorem get_snapshot_prefixed : ∃ table, addAll bytewiseComparator prefixedAdds = some table ∧
    get bytewiseComparator table [97] 1 = some (some ⟨.ok, some [5], .memTable⟩) ∧
      get bytewiseComparator table [97] 9 = some (some ⟨.notFound "", none, .memTable⟩) := by
  have hfits : ∀ a ∈ prefixedAdds, a.1.Fits := by
    simp only [prefixedAdds, List.forall_mem_cons]
    exact ⟨⟨by decide, by decide, by decide⟩, ⟨by decide, by decide, by decide⟩,
      ⟨by decide, by decide, by decide⟩, nofun⟩
  obtain ⟨table, hadds, hget⟩ :=
    @get_snapshot bytewiseComparator prefixedAdds (by decide) hfits (by decide)
  obtain ⟨r₁, hr₁, -, hnewest₁⟩ := hget [97] 1 (by decide) (by decide)
  obtain ⟨r₂, hr₂, -, hnewest₂⟩ := hget [97] 9 (by decide) (by decide)
  have hvalue := hnewest₁ ⟨1, .value, [97], [5]⟩
    ⟨by decide, by decide, by decide, by decide⟩
  have hdeletion := hnewest₂ ⟨2, .deletion, [97], []⟩
    ⟨by decide, by decide, by decide, by decide⟩
  rw [hvalue] at hr₁
  rw [hdeletion] at hr₂
  exact ⟨table, hadds, hr₁, hr₂⟩

/-- A value of some length. -/
def longEntry (n : Nat) : MemEntry := ⟨1, .value, [97], List.replicate n 0⟩

/-- Of a value of 2^32 + 2^28 bytes a read returns 2^28; the assertion of `Add` does not see it. -/
theorem get_longEntry {n : Nat} (hn : n = 2 ^ 32 + 2 ^ 28) :
    ∃ table r, addAll bytewiseComparator [(longEntry n, 1)] = some table ∧
      get bytewiseComparator table [97] 1 = some r ∧ r ≠ some (longEntry n).result := by
  have hlen : (longEntry n).value.length = n := List.length_replicate
  have hmod : n % 2 ^ 32 = 2 ^ 28 := by omega
  have hkey : (longEntry n).key.length + 8 < 2 ^ 32 := by
    change 1 + 8 < 2 ^ 32
    decide
  have hvarint : varintLength n = 5 := by
    have hstep : ∀ v, 128 ≤ v → varintLength v = varintLength (v / 128) + 1 := by
      intro v hv
      rw [varintLength, if_pos hv, Nat.shiftRight_eq_div_pow]
    rw [hstep n (by omega), hstep _ (by omega), hstep _ (by omega), hstep _ (by omega),
      varintLength, if_neg (by omega)]
  have hassert : (longEntry n).bytes.length = (longEntry n).encodedLen := by
    have hfront := MemEntry.length_encodeVarint32 hkey
    have hcut : (encodeVarint32 (2 ^ 28)).length = 5 := by decide
    rw [MemEntry.bytes, MemEntry.encodedLen, hlen, hmod, hvarint]
    simp only [List.length_append]
    rw [hfront, hcut, encodeFixed64, length_encodeFixed, hlen]
    omega
  obtain ⟨table, L, hrun, hlevels, hperm⟩ :=
    @SkipList.exists_levels _ (compareEntries bytewiseComparator) _ [((longEntry n).bytes, 1)]
      (List.pairwise_singleton ..) (by simp [kMaxHeight])
  have hbytes : (L 0).map Prod.snd = [longEntry n].map MemEntry.bytes :=
    List.perm_singleton.mp hperm
  have hget := @get_eq_memTableGet bytewiseComparator [longEntry n] [97] 1 table L hlevels hbytes
    (by simpa using hkey) (by decide)
  have hadds : addAll bytewiseComparator [(longEntry n, 1)] = some table := by
    rw [← hrun, addAll, List.foldlM_cons, List.foldlM_cons, add, if_pos hassert]
    rfl
  have hseek : WiscKey.seek bytewiseComparator (lookupKey [97] 1) [(longEntry n).entry] =
      some (longEntry n).entry := List.find?_cons_of_pos (by
    change decide (bytewiseComparator.internalCompare
      (appendInternalKey ⟨[97], 1, .value⟩) (lookupKey [97] 1) ≠ .lt) = true
    decide)
  refine ⟨table, _, hadds, hget, ?_⟩
  have huser : bytewiseComparator.compare (extractUserKey (longEntry n).entry.key) [97] = .eq := by
    change bytewiseComparator.compare
      (extractUserKey (appendInternalKey ⟨[97], 1, .value⟩)) [97] = .eq
    decide
  have htag : internalTag (longEntry n).entry.key &&& 0xff = 1 := by
    change internalTag (appendInternalKey ⟨[97], 1, .value⟩) &&& 0xff = 1
    decide
  rw [List.map_singleton, memTableGet_eq, hseek, Option.bind_some, readEntry, if_pos huser, htag]
  intro hresult
  have hvalue : (longEntry n).entry.value = (longEntry n).value :=
    Option.some.inj (congrArg ReadResult.value (Option.some.inj hresult))
  have hcut := congrArg List.length hvalue
  rw [MemEntry.entry, hlen, hmod, List.length_take, hlen] at hcut
  omega

/-- A value whose length does not fit its prefix is not what a read returns. -/
theorem get_cutsValue : ∃ table r,
    addAll bytewiseComparator [(longEntry (2 ^ 32 + 2 ^ 28), 1)] = some table ∧
      get bytewiseComparator table [97] 1 = some r ∧
        r ≠ some (longEntry (2 ^ 32 + 2 ^ 28)).result := get_longEntry rfl

end MemTable

end WiscKey
