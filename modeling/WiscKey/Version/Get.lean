import WiscKey.Version.Overlap
import Mathlib.Data.List.Sort
import Mathlib.Data.List.FinRange

/-!
# Reading a version

A read looks for the first entry of a user key that is not newer than a snapshot: in the memtables,
and then in the tables of a version, those of level 0 from the newest on, and one table of each
deeper level.
-/

namespace WiscKey

/-- An entry of a table or a memtable: an internal key and a value. -/
structure TableEntry where
  key : Bytes
  value : Bytes
  deriving DecidableEq, Repr

/-- The contents of the tables by their numbers: the status of reading a table, and its entries in
order. -/
abbrev Tables := Nat → Status × List TableEntry

/-- `LookupKey::internal_key`. -/
def lookupKey (userKey : Bytes) (sequence : Nat) : Bytes :=
  appendInternalKey ⟨userKey, sequence, .value⟩

/-- Where a version of a key was found. -/
inductive Found
  | memTable
  | table (number : Nat)
  | nowhere
  deriving DecidableEq, Repr

/-- What a read returns: the status, the value if it was set, and where the version was found. -/
structure ReadResult where
  status : Status
  value : Option Bytes
  found : Found
  deriving DecidableEq, Repr

variable (ucmp : Comparator)

/-- `Seek`: the first entry that is not before the key. -/
def seek (ikey : Bytes) (entries : List TableEntry) : Option TableEntry :=
  entries.find? fun e => ucmp.internalCompare e.key ikey ≠ .lt

/-- `MemTable::Get`, if it returns `true`. -/
def memTableGet (entries : List TableEntry) (userKey : Bytes) (sequence : Nat) :
    Option ReadResult :=
  match seek ucmp (lookupKey userKey sequence) entries with
  | none => none
  | some e =>
    if ucmp.compare (extractUserKey e.key) userKey = .eq then
      match internalTag e.key &&& 0xff with
      | 1 => some ⟨.ok, some e.value, .memTable⟩
      | 0 => some ⟨.notFound "", none, .memTable⟩
      | _ => none
    else none

/-- `SaverState`. -/
inductive SaverState
  | notFound
  | found (value : Bytes)
  | deleted
  | corrupt
  deriving DecidableEq, Repr

/-- `SaveValue`, for the entry that the search in a table ends at. -/
def saveValue (userKey : Bytes) : Option TableEntry → SaverState
  | none => .notFound
  | some e =>
    match parseInternalKey e.key with
    | none => .corrupt
    | some parsedKey =>
      if ucmp.compare parsedKey.userKey userKey = .eq then
        match parsedKey.type with
        | .value => .found e.value
        | .deletion => .deleted
      else .notFound

/-- The characters of a user key in a message. -/
def keyMessage (userKey : Bytes) : String := String.ofList (userKey.map fun c => Char.ofNat c.toNat)

namespace Version

variable (v : Version Bytes)

/-- The files of level 0 that a user key is in the range of, the newest first. -/
def levelZeroFiles (userKey : Bytes) : List TableFile :=
  ((v.files 0).filter fun f =>
    ucmp.compare userKey (extractUserKey f.smallest) ≠ .lt ∧
      ucmp.compare userKey (extractUserKey f.largest) ≠ .gt).insertionSort
    fun f g => g.number ≤ f.number

/-- The file of a deeper level that an internal key can be in. -/
def levelFile (level : Level) (userKey ikey : Bytes) : Option TableFile :=
  ((v.files level)[findFile ucmp (v.files level) ikey]?).filter fun f =>
    ucmp.compare userKey (extractUserKey f.smallest) ≠ .lt

/-- The files to search, in order. -/
def filesToSearch (userKey ikey : Bytes) : List TableFile :=
  v.levelZeroFiles ucmp userKey ++
    ((List.finRange kNumLevels).filter fun level => 0 < level.val).filterMap fun level =>
      v.levelFile ucmp level userKey ikey

/-- The search in one file after the other. -/
def searchFiles (tables : Tables) (userKey ikey : Bytes) : List TableFile → ReadResult
  | [] => ⟨.notFound "", none, .nowhere⟩
  | f :: files =>
    let (s, entries) := tables f.number
    if s = .ok then
      match saveValue ucmp userKey (seek ucmp ikey entries) with
      | .notFound => searchFiles tables userKey ikey files
      | .found value => ⟨.ok, some value, .table f.number⟩
      | .deleted => ⟨.notFound "", none, .table f.number⟩
      | .corrupt =>
        ⟨.corruption ("corrupted key for : " ++ keyMessage userKey), none, .nowhere⟩
    else ⟨s, none, .nowhere⟩

/-- `Version::Get`. -/
def get (tables : Tables) (userKey : Bytes) (sequence : Nat) : ReadResult :=
  searchFiles ucmp tables userKey (lookupKey userKey sequence)
    (v.filesToSearch ucmp userKey (lookupKey userKey sequence))

end Version

/-- What `DBImpl::Get` reads from. -/
structure ReadState where
  lastSequence : Nat
  mem : List TableEntry
  imm : Option (List TableEntry)
  current : Version Bytes
  tables : Tables

namespace ReadState

variable (db : ReadState)

/-- The read of `DBImpl::Get`, at a snapshot or at the last sequence. -/
def lookup (snapshot : Option Nat) (userKey : Bytes) : ReadResult :=
  let sequence := snapshot.getD db.lastSequence
  ((memTableGet ucmp db.mem userKey sequence).orElse fun _ =>
    db.imm.bind fun imm => memTableGet ucmp imm userKey sequence).getD
      (db.current.get ucmp db.tables userKey sequence)

/-- No table of the current version has an entry of the key. -/
def InNoTable (userKey : Bytes) : Prop :=
  ∀ level, ∀ f ∈ db.current.files level, ∀ e ∈ (db.tables f.number).2,
    ucmp.compare (extractUserKey e.key) userKey ≠ .eq

end ReadState

end WiscKey
