import WiscKey.Core.Status
import WiscKey.Library.OrderedSet

/-!
# Version edits

The metadata of table files, the edits that turn one version into the next, and the bytes
of an edit. Keys are internal keys: byte strings, ordered by an internal comparator.
-/

namespace WiscKey

/-- `config::kNumLevels`. -/
def kNumLevels : Nat := 7

/-- A level of the tree. -/
abbrev Level := Fin kNumLevels

instance : NeZero kNumLevels := ⟨by decide⟩

/-- `FileMetaData`, without the seeks that are left until a compaction. -/
structure FileMetaData (κ : Type) where
  number : Nat
  fileSize : Nat
  smallest : κ
  largest : κ
  deriving DecidableEq, Repr

/-- The order of a `std::set` of pairs of a level and a number. -/
def deletedOrder : Level × Nat → Level × Nat → Ordering :=
  compareLex (compareOn Prod.fst) (compareOn Prod.snd)

instance : Std.TransCmp deletedOrder :=
  inferInstanceAs (Std.TransCmp (compareLex (compareOn Prod.fst) (compareOn Prod.snd)))

/-- `VersionEdit`. A field that is not set has its default value. -/
structure VersionEdit (κ : Type) where
  comparator : Option Bytes
  logNumber : Option Nat
  prevLogNumber : Option Nat
  nextFileNumber : Option Nat
  lastSequence : Option Nat
  compactPointers : List (Level × κ)
  deletedFiles : OrderedSet deletedOrder
  newFiles : List (Level × FileMetaData κ)
  deriving DecidableEq

namespace VersionEdit

variable {κ : Type}

/-- An edit that sets nothing. -/
def empty : VersionEdit κ := ⟨none, none, none, none, none, [], .empty _, []⟩

/-- `Clear`, which leaves the compaction pointers alone. -/
def clear (e : VersionEdit κ) : VersionEdit κ := { empty with compactPointers := e.compactPointers }

/-- `DeleteFile`. -/
def deleteFile (e : VersionEdit κ) (level : Level) (number : Nat) : VersionEdit κ :=
  { e with deletedFiles := e.deletedFiles.insert (level, number) }

/-- `AddFile`. -/
def addFile (e : VersionEdit κ) (level : Level) (f : FileMetaData κ) : VersionEdit κ :=
  { e with newFiles := e.newFiles ++ [(level, f)] }

/-- `SetCompactPointer`. -/
def setCompactPointer (e : VersionEdit κ) (level : Level) (key : κ) : VersionEdit κ :=
  { e with compactPointers := e.compactPointers ++ [(level, key)] }

/-- The tags of the fields of an edit; 8 was used for large value refs. -/
def kComparator : Nat := 1
def kLogNumber : Nat := 2
def kNextFileNumber : Nat := 3
def kLastSequence : Nat := 4
def kCompactPointer : Nat := 5
def kDeletedFile : Nat := 6
def kNewFile : Nat := 7
def kPrevLogNumber : Nat := 9

/-- A tag and a number, if it is set. -/
def encodeNumber (tag : Nat) : Option Nat → Bytes
  | some n => encodeVarint32 tag ++ encodeVarint64 n
  | none => []

def encodeComparator : Option Bytes → Bytes
  | some name => encodeVarint32 kComparator ++ putLengthPrefixedSlice name
  | none => []

def encodeCompactPointer (p : Level × Bytes) : Bytes :=
  encodeVarint32 kCompactPointer ++ (encodeVarint32 p.1 ++ putLengthPrefixedSlice p.2)

def encodeDeletedFile (p : Level × Nat) : Bytes :=
  encodeVarint32 kDeletedFile ++ (encodeVarint32 p.1 ++ encodeVarint64 p.2)

def encodeNewFile (p : Level × FileMetaData Bytes) : Bytes :=
  encodeVarint32 kNewFile ++ (encodeVarint32 p.1 ++ (encodeVarint64 p.2.number ++
    (encodeVarint64 p.2.fileSize ++ (putLengthPrefixedSlice p.2.smallest ++
      putLengthPrefixedSlice p.2.largest))))

/-- `EncodeTo`. -/
def encodeTo (e : VersionEdit Bytes) : Bytes :=
  encodeComparator e.comparator ++ encodeNumber kLogNumber e.logNumber ++
    encodeNumber kPrevLogNumber e.prevLogNumber ++
    encodeNumber kNextFileNumber e.nextFileNumber ++
    encodeNumber kLastSequence e.lastSequence ++
    e.compactPointers.flatMap encodeCompactPointer ++
    e.deletedFiles.toList.flatMap encodeDeletedFile ++
    e.newFiles.flatMap encodeNewFile

/-- `GetLevel`. -/
def getLevel (input : Bytes) : Option (Level × Bytes) :=
  match getVarint32 input with
  | some (v, rest) => if h : v < kNumLevels then some (⟨v, h⟩, rest) else none
  | none => none

/-- `GetInternalKey`. -/
def getInternalKey (input : Bytes) : Option (Bytes × Bytes) := getLengthPrefixedSlice input

/-- The body of the switch in `DecodeFrom`: the edit and the input behind a field, or the
message of the error. -/
def decodeField (d : VersionEdit Bytes) (tag : Nat) (input : Bytes) :
    Except String (VersionEdit Bytes × Bytes) :=
  if tag = kComparator then
    match getLengthPrefixedSlice input with
    | some (str, rest) => .ok ({ d with comparator := some str }, rest)
    | none => .error "comparator name"
  else if tag = kLogNumber then
    match getVarint64 input with
    | some (n, rest) => .ok ({ d with logNumber := some n }, rest)
    | none => .error "log number"
  else if tag = kPrevLogNumber then
    match getVarint64 input with
    | some (n, rest) => .ok ({ d with prevLogNumber := some n }, rest)
    | none => .error "previous log number"
  else if tag = kNextFileNumber then
    match getVarint64 input with
    | some (n, rest) => .ok ({ d with nextFileNumber := some n }, rest)
    | none => .error "next file number"
  else if tag = kLastSequence then
    match getVarint64 input with
    | some (n, rest) => .ok ({ d with lastSequence := some n }, rest)
    | none => .error "last sequence number"
  else if tag = kCompactPointer then
    match (do
      let (level, input) ← getLevel input
      let (key, input) ← getInternalKey input
      pure (d.setCompactPointer level key, input)) with
    | some result => .ok result
    | none => .error "compaction pointer"
  else if tag = kDeletedFile then
    match (do
      let (level, input) ← getLevel input
      let (number, input) ← getVarint64 input
      pure (d.deleteFile level number, input)) with
    | some result => .ok result
    | none => .error "deleted file"
  else if tag = kNewFile then
    match (do
      let (level, input) ← getLevel input
      let (number, input) ← getVarint64 input
      let (fileSize, input) ← getVarint64 input
      let (smallest, input) ← getInternalKey input
      let (largest, input) ← getInternalKey input
      pure (d.addFile level ⟨number, fileSize, smallest, largest⟩, input)) with
    | some result => .ok result
    | none => .error "new-file entry"
  else .error "unknown tag"

theorem length_getLevel_lt {input rest : Bytes} {level : Level}
    (h : getLevel input = some (level, rest)) : rest.length < input.length := by
  unfold getLevel at h
  split at h
  · rename_i v rest' hv
    split_ifs at h
    cases h
    exact length_getVarint_lt hv
  · cases h

/-- A field is read off the front of the input. -/
theorem length_decodeField_le {d d' : VersionEdit Bytes} {tag : Nat} {input rest : Bytes}
    (h : decodeField d tag input = .ok (d', rest)) : rest.length ≤ input.length := by
  have hslice : ∀ {input s rest : Bytes}, getLengthPrefixedSlice input = some (s, rest) →
      rest.length < input.length := length_getLengthPrefixedSlice_lt
  have hnumber : ∀ {input rest : Bytes} {n : Nat}, getVarint64 input = some (n, rest) →
      rest.length < input.length := length_getVarint_lt
  unfold decodeField at h
  split_ifs at h <;> split at h <;> rename_i hread <;> cases h
  · exact (hslice hread).le
  · exact (hnumber hread).le
  · exact (hnumber hread).le
  · exact (hnumber hread).le
  · exact (hnumber hread).le
  · simp only [bind, Option.bind_eq_some_iff, pure, Option.some.injEq, Prod.mk.injEq] at hread
    obtain ⟨⟨l, i₁⟩, h₁, ⟨k, i₂⟩, h₂, -, rfl⟩ := hread
    exact ((hslice h₂).trans (length_getLevel_lt h₁)).le
  · simp only [bind, Option.bind_eq_some_iff, pure, Option.some.injEq, Prod.mk.injEq] at hread
    obtain ⟨⟨l, i₁⟩, h₁, ⟨k, i₂⟩, h₂, -, rfl⟩ := hread
    exact ((hnumber h₂).trans (length_getLevel_lt h₁)).le
  · simp only [bind, Option.bind_eq_some_iff, pure, Option.some.injEq, Prod.mk.injEq] at hread
    obtain ⟨⟨l, i₁⟩, h₁, ⟨n, i₂⟩, h₂, ⟨z, i₃⟩, h₃, ⟨k, i₄⟩, h₄, ⟨g, i₅⟩, h₅, -, rfl⟩ := hread
    exact ((hslice h₅).trans ((hslice h₄).trans ((hnumber h₃).trans ((hnumber h₂).trans
      (length_getLevel_lt h₁))))).le

/-- The loop of `DecodeFrom`: the edit behind it, and the message of an error. -/
def decodeLoop (d : VersionEdit Bytes) (input : Bytes) : VersionEdit Bytes × Option String :=
  match _htag : getVarint32 input with
  | none => (d, if input.isEmpty then none else some "invalid tag")
  | some (tag, rest) =>
    match _hfield : decodeField d tag rest with
    | .error msg => (d, some msg)
    | .ok (d', rest') => decodeLoop d' rest'
termination_by input.length
decreasing_by exact (length_decodeField_le _hfield).trans_lt (length_getVarint_lt _htag)

/-- `DecodeFrom`, on an edit that may have been used before. -/
def decodeFrom (d : VersionEdit Bytes) (src : Bytes) : VersionEdit Bytes × Status :=
  match decodeLoop d.clear src with
  | (d', none) => (d', .ok)
  | (d', some msg) => (d', .corruption ("VersionEdit: " ++ msg))

theorem decodeLoop_nil (d : VersionEdit Bytes) : decodeLoop d [] = (d, none) := by
  rw [decodeLoop]
  split
  · rfl
  · rename_i h
    cases h

theorem decodeLoop_field {d d' : VersionEdit Bytes} {input rest rest' : Bytes} {tag : Nat}
    (htag : getVarint32 input = some (tag, rest))
    (hfield : decodeField d tag rest = .ok (d', rest')) :
    decodeLoop d input = decodeLoop d' rest' := by
  rw [decodeLoop]
  split
  · rename_i h
    rw [htag] at h
    cases h
  · rename_i h
    rw [htag] at h
    cases h
    split
    · rename_i h
      rw [hfield] at h
      cases h
    · rename_i h
      rw [hfield] at h
      cases h
      rfl

/-- The values of an edit are in the ranges of their types and of the length prefixes. -/
structure Fits (e : VersionEdit Bytes) : Prop where
  comparator : ∀ name, e.comparator = some name → name.length < 2 ^ 32
  logNumber : ∀ n, e.logNumber = some n → n < 2 ^ 64
  prevLogNumber : ∀ n, e.prevLogNumber = some n → n < 2 ^ 64
  nextFileNumber : ∀ n, e.nextFileNumber = some n → n < 2 ^ 64
  lastSequence : ∀ n, e.lastSequence = some n → n < 2 ^ 64
  compactPointers : ∀ p ∈ e.compactPointers, p.2.length < 2 ^ 32
  deletedFiles : ∀ p ∈ e.deletedFiles.toList, p.2 < 2 ^ 64
  newFiles : ∀ p ∈ e.newFiles, p.2.number < 2 ^ 64 ∧ p.2.fileSize < 2 ^ 64 ∧
    p.2.smallest.length < 2 ^ 32 ∧ p.2.largest.length < 2 ^ 32

section RoundTrip

variable (d : VersionEdit Bytes) (rest : Bytes)

theorem getLevel_encode (level : Level) :
    getLevel (encodeVarint32 level ++ rest) = some (level, rest) := by
  have hsmall : level.val < 2 ^ 32 := level.isLt.trans (by decide)
  rw [getLevel, getVarint32_encodeVarint32 hsmall]
  simp [level.isLt]

theorem decodeLoop_tag (d' : VersionEdit Bytes) {tag : Nat} {body rest : Bytes}
    (htag : tag < 2 ^ 32) (hfield : decodeField d tag (body ++ rest) = .ok (d', rest)) :
    decodeLoop d (encodeVarint32 tag ++ body ++ rest) = decodeLoop d' rest := by
  rw [List.append_assoc]
  exact decodeLoop_field (getVarint32_encodeVarint32 htag _) hfield

theorem decodeLoop_comparator {name : Option Bytes}
    (h : ∀ n, name = some n → n.length < 2 ^ 32) (hd : d.comparator = none) :
    decodeLoop d (encodeComparator name ++ rest) =
      decodeLoop { d with comparator := name } rest := by
  cases name with
  | none => rw [encodeComparator, List.nil_append, ← hd]
  | some n =>
    apply decodeLoop_tag d _ (by decide)
    simp [decodeField, getLengthPrefixedSlice_put (h n rfl)]

/-- A number that is set is read into its field; one that is not leaves it alone. -/
theorem decodeLoop_number {tag : Nat} {number : Option Nat} {s : Option Nat → VersionEdit Bytes}
    (htag : tag < 2 ^ 32) (hnone : s none = d)
    (hset : ∀ n input rest, getVarint64 input = some (n, rest) →
      decodeField d tag input = .ok (s (some n), rest))
    (h : ∀ n, number = some n → n < 2 ^ 64) :
    decodeLoop d (encodeNumber tag number ++ rest) = decodeLoop (s number) rest := by
  cases number with
  | none => rw [encodeNumber, List.nil_append, hnone]
  | some n => exact decodeLoop_tag d _ htag (hset n _ _ (getVarint64_encodeVarint64 (h n rfl) rest))

theorem decodeLoop_logNumber {number : Option Nat} (h : ∀ n, number = some n → n < 2 ^ 64)
    (hd : d.logNumber = none) : decodeLoop d (encodeNumber kLogNumber number ++ rest) =
      decodeLoop { d with logNumber := number } rest :=
  decodeLoop_number (s := fun n => { d with logNumber := n }) d rest (by decide) (by rw [← hd])
    (fun n input rest hread => by simp [decodeField, hread, kComparator, kLogNumber]) h

theorem decodeLoop_prevLogNumber {number : Option Nat} (h : ∀ n, number = some n → n < 2 ^ 64)
    (hd : d.prevLogNumber = none) : decodeLoop d (encodeNumber kPrevLogNumber number ++ rest) =
      decodeLoop { d with prevLogNumber := number } rest :=
  decodeLoop_number (s := fun n => { d with prevLogNumber := n }) d rest (by decide) (by rw [← hd])
    (fun n input rest hread => by
      simp [decodeField, hread, kComparator, kLogNumber, kPrevLogNumber]) h

theorem decodeLoop_nextFileNumber {number : Option Nat} (h : ∀ n, number = some n → n < 2 ^ 64)
    (hd : d.nextFileNumber = none) : decodeLoop d (encodeNumber kNextFileNumber number ++ rest) =
      decodeLoop { d with nextFileNumber := number } rest :=
  decodeLoop_number (s := fun n => { d with nextFileNumber := n }) d rest (by decide) (by rw [← hd])
    (fun n input rest hread => by
      simp [decodeField, hread, kComparator, kLogNumber, kPrevLogNumber, kNextFileNumber]) h

theorem decodeLoop_lastSequence {number : Option Nat} (h : ∀ n, number = some n → n < 2 ^ 64)
    (hd : d.lastSequence = none) : decodeLoop d (encodeNumber kLastSequence number ++ rest) =
      decodeLoop { d with lastSequence := number } rest :=
  decodeLoop_number (s := fun n => { d with lastSequence := n }) d rest (by decide) (by rw [← hd])
    (fun n input rest hread => by
      simp [decodeField, hread, kComparator, kLogNumber, kPrevLogNumber, kNextFileNumber,
        kLastSequence]) h

theorem decodeLoop_compactPointers (ptrs : List (Level × Bytes))
    (h : ∀ p ∈ ptrs, p.2.length < 2 ^ 32) :
    decodeLoop d (ptrs.flatMap encodeCompactPointer ++ rest) =
      decodeLoop { d with compactPointers := d.compactPointers ++ ptrs } rest := by
  induction ptrs generalizing d with
  | nil => simp
  | cons p ptrs ih =>
    obtain ⟨level, key⟩ := p
    have hkey := h _ (List.mem_cons_self ..)
    rw [List.flatMap_cons, List.append_assoc, encodeCompactPointer,
      decodeLoop_tag d (d.setCompactPointer level key) (by decide),
      ih _ fun p hp => h p (List.mem_cons_of_mem _ hp)]
    · simp [setCompactPointer]
    · simp [decodeField, kComparator, kLogNumber, kPrevLogNumber, kNextFileNumber, kLastSequence,
        kCompactPointer, getLevel_encode, getInternalKey, getLengthPrefixedSlice_put hkey]

theorem decodeLoop_deletedFiles (files : List (Level × Nat)) (h : ∀ p ∈ files, p.2 < 2 ^ 64) :
    decodeLoop d (files.flatMap encodeDeletedFile ++ rest) =
      decodeLoop { d with deletedFiles := files.foldl .insert d.deletedFiles } rest := by
  induction files generalizing d with
  | nil => simp
  | cons p files ih =>
    obtain ⟨level, number⟩ := p
    have hnumber := h _ (List.mem_cons_self ..)
    rw [List.flatMap_cons, List.append_assoc, encodeDeletedFile,
      decodeLoop_tag d (d.deleteFile level number) (by decide),
      ih _ fun p hp => h p (List.mem_cons_of_mem _ hp)]
    · rfl
    · simp [decodeField, kComparator, kLogNumber, kPrevLogNumber, kNextFileNumber, kLastSequence,
        kCompactPointer, kDeletedFile, getLevel_encode, getVarint64_encodeVarint64 hnumber]

theorem decodeLoop_newFiles (files : List (Level × FileMetaData Bytes))
    (h : ∀ p ∈ files, p.2.number < 2 ^ 64 ∧ p.2.fileSize < 2 ^ 64 ∧
      p.2.smallest.length < 2 ^ 32 ∧ p.2.largest.length < 2 ^ 32) :
    decodeLoop d (files.flatMap encodeNewFile ++ rest) =
      decodeLoop { d with newFiles := d.newFiles ++ files } rest := by
  induction files generalizing d with
  | nil => simp
  | cons p files ih =>
    obtain ⟨level, number, fileSize, smallest, largest⟩ := p
    obtain ⟨hnumber, hsize, hsmallest, hlargest⟩ := h _ (List.mem_cons_self ..)
    rw [List.flatMap_cons, List.append_assoc, encodeNewFile,
      decodeLoop_tag d (d.addFile level ⟨number, fileSize, smallest, largest⟩) (by decide),
      ih _ fun p hp => h p (List.mem_cons_of_mem _ hp)]
    · simp [addFile]
    · simp [decodeField, kComparator, kLogNumber, kPrevLogNumber, kNextFileNumber, kLastSequence,
        kCompactPointer, kDeletedFile, kNewFile, getLevel_encode,
        getVarint64_encodeVarint64 hnumber, getVarint64_encodeVarint64 hsize, getInternalKey,
        getLengthPrefixedSlice_put hsmallest, getLengthPrefixedSlice_put hlargest]

end RoundTrip

/-- An edit is read back from its bytes behind the compaction pointers that are there. -/
theorem decodeFrom_encodeTo_used {e : VersionEdit Bytes} (h : e.Fits) (d : VersionEdit Bytes) :
    decodeFrom d e.encodeTo =
      ({ e with compactPointers := d.compactPointers ++ e.compactPointers }, .ok) := by
  have hfiles : (e.deletedFiles.toList.foldl OrderedSet.insert (.empty _)) = e.deletedFiles := by
    apply OrderedSet.ext
    exact OrderedSet.toList_foldl_insert _ _ e.deletedFiles.increasing
  have hloop : decodeLoop d.clear (e.encodeTo ++ []) =
      ({ e with compactPointers := d.compactPointers ++ e.compactPointers }, none) := by
    simp only [encodeTo, List.append_assoc]
    rw [decodeLoop_comparator _ _ h.comparator rfl, decodeLoop_logNumber _ _ h.logNumber rfl,
      decodeLoop_prevLogNumber _ _ h.prevLogNumber rfl,
      decodeLoop_nextFileNumber _ _ h.nextFileNumber rfl,
      decodeLoop_lastSequence _ _ h.lastSequence rfl,
      decodeLoop_compactPointers _ _ _ h.compactPointers,
      decodeLoop_deletedFiles _ _ _ h.deletedFiles, decodeLoop_newFiles _ _ _ h.newFiles,
      decodeLoop_nil]
    exact congrArg (fun s => (({ e with
      compactPointers := d.compactPointers ++ e.compactPointers
      deletedFiles := s } : VersionEdit Bytes), none)) hfiles
  rw [List.append_nil] at hloop
  rw [decodeFrom, hloop]

/-- An edit is read back from its bytes into a fresh one. -/
theorem decodeFrom_encodeTo {e : VersionEdit Bytes} (h : e.Fits) :
    decodeFrom empty e.encodeTo = (e, .ok) :=
  decodeFrom_encodeTo_used h empty

end VersionEdit

end WiscKey
