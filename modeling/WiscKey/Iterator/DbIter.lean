import WiscKey.Iterator.Interface
import WiscKey.Version.Get

/-!
# The iterator of the database

`DBIter` goes over the entries of all versions and shows the newest one of each user key that
a snapshot can see. When it moves forward, the internal iterator is at the entry that is shown;
when it moves backward, it is in front of all entries of the user key that is shown, whose key
and value are saved.
-/

namespace WiscKey

/-- `DBIter`. -/
structure DBIter where
  iter : Cursor TableEntry
  status : Status
  savedKey : Bytes
  savedValue : Bytes
  direction : Direction
  valid : Bool

namespace DBIter

/-- The constructor. -/
def new : DBIter := ⟨.invalid, .ok, [], [], .forward, false⟩

variable (ucmp : Comparator) (sequence : Nat) (entries : List TableEntry) (d : DBIter)

/-- `key()` and `value()`; none if the internal iterator is not valid where it has to be. -/
def keyValue : Option (Bytes × Bytes) :=
  match d.direction with
  | .forward => d.iter.current?.map fun e => (extractUserKey e.key, e.value)
  | .reverse => some (d.savedKey, d.savedValue)

/-- What a caller can see. -/
def shown : Option (Bytes × Bytes) := if d.valid then d.keyValue else none

/-- `ParseKey`. -/
def parseKey (e : TableEntry) : Option ParsedInternalKey × DBIter :=
  match parseInternalKey e.key with
  | none => (none, { d with status := .corruption "corrupted internal key in DBIter" })
  | some ikey => (some ikey, d)

/-- One round of the loop of `FindNextUserEntry`: none at an acceptable entry, or else whether to
skip entries from here on. -/
def nextRound (skipping : Bool) (e : TableEntry) : Option Bool × DBIter :=
  match d.parseKey e with
  | (none, d) => (some skipping, d)
  | (some ikey, d) =>
    if ikey.sequence ≤ sequence then
      match ikey.type with
      | .deletion => (some true, { d with savedKey := ikey.userKey })
      | .value =>
        if skipping && ucmp.compare ikey.userKey d.savedKey ≠ .gt then (some skipping, d)
        else (none, { d with valid := true, savedKey := [] })
    else (some skipping, d)

/-- `FindNextUserEntry`, from the entry that the internal iterator is at. The key to skip is always
kept in `saved_key_`. -/
def findNextUserEntry (skipping : Bool) (d : DBIter) (before : List TableEntry) (e : TableEntry) :
    List TableEntry → DBIter
  | [] =>
    match d.nextRound ucmp sequence skipping e with
    | (none, d) => { d with iter := .on before e [] }
    | (some _, d) => { d with iter := .invalid, savedKey := [], valid := false }
  | f :: after =>
    match d.nextRound ucmp sequence skipping e with
    | (none, d) => { d with iter := .on before e (f :: after) }
    | (some skipping, d) => findNextUserEntry skipping d (e :: before) f after

/-- One round of the loop of `FindPrevUserEntry`: none where it breaks, or else the type of the
last entry that was seen. -/
def prevRound (type : ValueType) (e : TableEntry) : Option ValueType × DBIter :=
  match d.parseKey e with
  | (none, d) => (some type, d)
  | (some ikey, d) =>
    if ikey.sequence ≤ sequence then
      if type ≠ .deletion ∧ ucmp.compare ikey.userKey d.savedKey = .lt then (none, d)
      else
        match ikey.type with
        | .deletion => (some .deletion, { d with savedKey := [], savedValue := [] })
        | .value =>
          (some .value, { d with savedKey := extractUserKey e.key, savedValue := e.value })
    else (some type, d)

/-- The loop of `FindPrevUserEntry`. -/
def prevLoop (type : ValueType) (d : DBIter) (e : TableEntry) (after : List TableEntry) :
    List TableEntry → ValueType × DBIter
  | [] =>
    match d.prevRound ucmp sequence type e with
    | (none, d) => (type, { d with iter := .on [] e after })
    | (some type, d) => (type, { d with iter := .invalid })
  | f :: before =>
    match d.prevRound ucmp sequence type e with
    | (none, d) => (type, { d with iter := .on (f :: before) e after })
    | (some type, d) => prevLoop type d f (e :: after) before

/-- `FindPrevUserEntry`. -/
def findPrevUserEntry : DBIter :=
  let (type, d) :=
    match d.iter with
    | .invalid => (ValueType.deletion, d)
    | .on before e after => prevLoop ucmp sequence .deletion d e after before
  match type with
  | .deletion => { d with valid := false, savedKey := [], savedValue := [], direction := .forward }
  | .value => { d with valid := true }

/-- The internal iterator after the loop of `Prev` that leaves the entries of a user key. -/
def leaveKey (userKey : Bytes) (e : TableEntry) (after : List TableEntry) :
    List TableEntry → Cursor TableEntry
  | [] => .invalid
  | f :: before =>
    if ucmp.compare (extractUserKey f.key) userKey = .lt then .on before f (e :: after)
    else leaveKey userKey f (e :: after) before

/-- `Next`. -/
def next : DBIter :=
  match d.direction with
  | .forward =>
    match d.iter with
    | .invalid => d
    | .on before e after =>
      findNextUserEntry ucmp sequence true { d with savedKey := extractUserKey e.key } before e after
  | .reverse =>
    -- the internal iterator goes among the entries of the key that is shown
    let iter :=
      match d.iter with
      | .invalid => Cursor.first entries
      | .on _ _ _ => d.iter.next
    match iter with
    | .invalid => { d with iter, direction := .forward, valid := false, savedKey := [] }
    | .on before e after =>
      findNextUserEntry ucmp sequence true { d with iter, direction := .forward } before e after

/-- `Prev`. -/
def prev : DBIter :=
  match d.direction with
  | .forward =>
    match d.iter with
    | .invalid => d
    | .on before e after =>
      let userKey := extractUserKey e.key
      match leaveKey ucmp userKey e after before with
      | .invalid => { d with iter := .invalid, valid := false, savedKey := [], savedValue := [] }
      | .on before e after =>
        findPrevUserEntry ucmp sequence
          { d with iter := .on before e after, savedKey := userKey, direction := .reverse }
  | .reverse => findPrevUserEntry ucmp sequence d

/-- `Seek`. -/
def seek (target : Bytes) : DBIter :=
  let ikey := appendInternalKey ⟨target, sequence, .value⟩
  let iter := Cursor.seek (fun e => ucmp.internalCompare e.key ikey ≠ .lt) entries
  let d := { d with iter, direction := .forward, savedValue := [], savedKey := ikey }
  match iter with
  | .invalid => { d with valid := false }
  | .on before e after => findNextUserEntry ucmp sequence false d before e after

/-- `SeekToFirst`. -/
def seekToFirst : DBIter :=
  let iter := Cursor.first entries
  let d := { d with iter, direction := .forward, savedValue := [] }
  match iter with
  | .invalid => { d with valid := false }
  | .on before e after => findNextUserEntry ucmp sequence false d before e after

/-- `SeekToLast`. -/
def seekToLast : DBIter :=
  findPrevUserEntry ucmp sequence
    { d with iter := Cursor.last entries, direction := .reverse, savedValue := [] }

end DBIter

end WiscKey
