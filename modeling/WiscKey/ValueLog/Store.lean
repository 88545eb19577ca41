import Mathlib.Data.List.AList
import WiscKey.Core.Bytes

/-!
# The version table in front of the key-value engine

Every set appends a version to the vector `VTable[key].val_vec` and stores the
address of that vector element, as text, in the engine under the key. A set and
a delete each touch the two stores in two halves; the halves are kept apart
here, because only the first half of a set and the last of a delete hold
`VTable_mutex`.
-/

namespace WiscKey

/-- A `std::map` from byte strings. -/
abbrev Map (ν : Type) := AList fun _ : Bytes => ν

/-- One version of a key (`valueinfo`): `value` is the text `offset&&length`. -/
structure ValueInfo where
  key : Bytes
  value : Bytes
  hot : Bool
  version : Nat
  size : Nat
  deriving DecidableEq, Repr

/-- `sizeof` of a `std::string`, which is also the size of every log field. -/
def sizeofString : Nat := 32

/-- `sizeof(valueinfo)`: two strings, a padded flag, a version and a size. -/
def sizeofValueInfo : Nat := 88

/-- The versions of one key (`VTable_entry`), with the buffer its vector lives in. -/
structure VTableEntry where
  latestVer : Nat
  valVec : List ValueInfo
  /-- Address of the vector's buffer, null while it has none. -/
  data : Nat
  capacity : Nat
  deriving DecidableEq, Repr

/-- What `VTable[key]` creates for a key it does not hold. -/
def VTableEntry.empty : VTableEntry := ⟨0, [], 0, 0⟩

/-- `&val_vec[idx]`. -/
def VTableEntry.addr (e : VTableEntry) (idx : Nat) : Nat := e.data + idx * sizeofValueInfo

/-- `val_vec.push_back(v)`: a full vector moves to the buffer `fresh` of twice the capacity. -/
def VTableEntry.pushBack (e : VTableEntry) (fresh : Nat) (v : ValueInfo) : VTableEntry :=
  if e.valVec.length < e.capacity then { e with valVec := e.valVec ++ [v] }
  else { e with valVec := e.valVec ++ [v], data := fresh, capacity := max 1 (2 * e.capacity) }

/-- The element stored at an address, if it is one of this vector's. -/
def VTableEntry.at? (e : VTableEntry) (a : Nat) : Option ValueInfo :=
  ((List.range e.valVec.length).find? fun i => e.addr i == a).bind fun i => e.valVec[i]?

/-- The table `VTable`. -/
abbrev VTable := Map VTableEntry

/-- `VTable[key]`, without the insertion the operator makes for a missing key. -/
def VTable.entry (vt : VTable) (key : Bytes) : VTableEntry :=
  (vt.lookup key).getD VTableEntry.empty

/-- Dereference a `valueinfo` pointer. -/
def VTable.deref (vt : VTable) (a : Nat) : Option ValueInfo :=
  vt.entries.findSome? fun e => e.2.at? a

/-- The two stores a set and a delete keep in step: the table and the engine. -/
structure Lab2 where
  vtable : VTable
  /-- The engine's contents: the address text stored under each key. -/
  db : Map Bytes

/-- The locked half of `leveldb_set`: the table with the new version, and its index. -/
def leveldbSetLocked (vt : VTable) (fresh : Nat) (key value : Bytes) : VTable × Nat :=
  let valinfo : ValueInfo := ⟨key, value, false, 1, sizeofString⟩
  match vt.lookup key with
  | none =>
    let e := VTableEntry.empty.pushBack fresh valinfo
    (vt.insert key { e with latestVer := valinfo.version }, 0)
  | some e =>
    let valinfo := { valinfo with version := e.latestVer + 1 }
    let idx := e.valVec.length
    (vt.insert key ({ e with latestVer := valinfo.version }.pushBack fresh valinfo), idx)

/-- The rest of `leveldb_set`, after the unlock: `&VTable[key].val_vec[idx]`, where the
operator inserts an empty entry for a missing key, and the `Put` of that address. -/
def leveldbSetPut (s : Lab2) (key : Bytes) (idx : Nat) : Lab2 :=
  let vt := if key ∈ s.vtable then s.vtable else s.vtable.insert key VTableEntry.empty
  { vtable := vt, db := s.db.insert key (addrToStr ((vt.entry key).addr idx)) }

/-- `leveldb_set`. -/
def leveldbSet (s : Lab2) (fresh : Nat) (key value : Bytes) : Lab2 :=
  let (vt, idx) := leveldbSetLocked s.vtable fresh key value
  leveldbSetPut { s with vtable := vt } key idx

/-- `leveldb_get`: false, with the argument untouched, when the engine has no such key. -/
def leveldbGet (s : Lab2) (key : Bytes) : Option Bytes := s.db.lookup key

/-- The engine half of `leveldb_del`. -/
def leveldbDelDelete (s : Lab2) (key : Bytes) : Lab2 := { s with db := s.db.erase key }

/-- The locked half of `leveldb_del`: all versions of the key go. -/
def leveldbDelErase (s : Lab2) (key : Bytes) : Lab2 := { s with vtable := s.vtable.erase key }

/-- `leveldb_del`. -/
def leveldbDel (s : Lab2) (key : Bytes) : Lab2 := leveldbDelErase (leveldbDelDelete s key) key

/-- A set puts an address under its key and leaves every other key of the engine alone. -/
theorem leveldbSet_db (s : Lab2) (fresh : Nat) (key value : Bytes) :
    ∃ a, (leveldbSet s fresh key value).db = s.db.insert key (addrToStr a) := ⟨_, rfl⟩

/-- A delete takes its key, and only it, out of the engine. -/
@[simp] theorem leveldbDel_db (s : Lab2) (key : Bytes) :
    (leveldbDel s key).db = s.db.erase key := rfl

/-!
## The WiscKey store: version table, engine and value log

`wisckey_set` appends two fixed-size fields to the value log, the key and the
text `offset&&length`, and hands that text to the version table. `wisckey_get`
goes back from the key to the address, the text and the two log fields. The log
is a byte array with one file position, shared by reads and writes.
-/

/-- An open stdio file: its bytes and the one position reads and writes share. -/
structure LogFile where
  contents : Bytes
  pos : Nat
  deriving DecidableEq, Repr

/-- `fseek(f, offset, SEEK_SET)`; a negative offset fails and moves nothing. -/
def LogFile.fseek (f : LogFile) (offset : Int) : LogFile :=
  if 0 ≤ offset then { f with pos := offset.toNat } else f

/-- `fread` of one object of `size` bytes: what the file has of it, from the position on. -/
def LogFile.fread (f : LogFile) (size : Nat) : Bytes × LogFile :=
  let bytes := (f.contents.drop f.pos).take size
  (bytes, { f with pos := f.pos + bytes.length })

/-- `fwrite` of `bytes` at the position; a gap beyond the end reads as zeros. -/
def LogFile.fwrite (f : LogFile) (bytes : Bytes) : LogFile :=
  let front := f.contents.take f.pos ++ List.replicate (f.pos - f.contents.length) 0
  { contents := front ++ bytes ++ f.contents.drop (f.pos + bytes.length)
    pos := f.pos + bytes.length }

/-- The `size` bytes at `s.c_str()`: past the terminator the memory holds `beyond`. -/
def cBuffer (s : Bytes) (beyond : Nat → UInt8) (size : Nat) : Bytes :=
  (List.range size).map fun i =>
    if i < s.length then s[i]?.getD 0 else if i = s.length then 0 else beyond i

/-- Overwrite a string's own bytes from the front, as `fread(&s[0], ..)` does; what does
not fit goes to memory behind the string, and the string's length stays. -/
def overwrite (s bytes : Bytes) : Bytes := bytes.take s.length ++ s.drop bytes.length

/-- The open store (`WK`), with the globals its functions keep. -/
structure WK where
  lab2 : Lab2
  logfile : LogFile
  /-- The counter `GC`. -/
  gc : Nat

/-- The string arguments the functions take by reference. -/
structure Args where
  key : Bytes
  value : Bytes
  accvalue : Bytes
  deriving DecidableEq, Repr

/-- What one call finds around it, outside the store's control. -/
structure CallEnv where
  /-- The flag `compacted`, as the engine's background thread left it. -/
  compacted : Bool
  /-- The stack contents that the uninitialised `tail` of `logfile_GC` starts with. -/
  tail : Nat
  /-- What `malloc` returns for the vector growths of the two sets of the call. -/
  freshKey : Nat
  freshHead : Nat
  /-- The memory behind the key and behind the text, which the log writes copy. -/
  beyondKey : Nat → UInt8
  beyondText : Nat → UInt8

/-- `headkey`. -/
def headkey : Bytes := ascii ['h', 'e', 'a', 'd']

/-- `tailkey`. -/
def tailkey : Bytes := ascii ['t', 'a', 'i', 'l']

/-- `GCkey`. -/
def gcKey : Bytes := ascii ['G', 'C']

/-- The delimiter `&&` between offset and length. -/
def delimiter : Bytes := ascii ['&', '&']

/-- The number `logfile_GC` takes from the engine under `key`: zero when it is absent,
and an exception when its text is no number. -/
def storedNumber (lab2 : Lab2) (key accvalue : Bytes) : Option (Nat × Bytes) :=
  match leveldbGet lab2 key with
  | none => some (0, accvalue)
  | some text => (stol text).map fun n => ((n % 2 ^ 64).toNat, text)

/-- `logfile_GC`. The loop body reads log bytes over the representation of two
`std::string` objects, which has no defined result: entering it is `none`. -/
def logfileGC (env : CallEnv) (wk : WK) (args : Args) : Option (WK × Args) := do
  let (head, accvalue) ← storedNumber wk.lab2 headkey args.accvalue
  let (gc, accvalue) ← storedNumber wk.lab2 gcKey accvalue
  if (env.tail + 2 * sizeofString) % 2 ^ 64 < head then none
  else some ({ wk with gc }, { args with key := gcKey, accvalue })

/-- `do_logfileGC`: only after the engine has compacted. -/
def doLogfileGC (env : CallEnv) (wk : WK) (args : Args) : Option (WK × Args) :=
  if env.compacted then logfileGC env wk args else some (wk, args)

/-- The text `offset&&length` that a set hands to the version table. -/
def vlogValue (offset size : Nat) : Bytes := toDecimal offset ++ delimiter ++ toDecimal size

/-- `wisckey_set`. -/
def wisckeySet (env : CallEnv) (wk : WK) (args : Args) : Option (WK × Args) := do
  let tmpkey := args.key
  let tmpvalue := args.value
  let (wk, args) ← doLogfileGC env wk args
  let args := { args with key := tmpkey, value := tmpvalue }
  let offset := wk.logfile.pos
  let size := sizeofString
  let logfile := wk.logfile.fwrite (cBuffer args.key env.beyondKey size)
  let s := vlogValue offset size
  let logfile := logfile.fwrite (cBuffer s env.beyondText size)
  let lab2 := leveldbSet wk.lab2 env.freshKey args.key s
  let headvalue := toDecimal (offset + size)
  let lab2 := leveldbSet lab2 env.freshHead headkey headvalue
  some ({ wk with lab2, logfile }, args)

/-- The loop of `wisckey_get` that cuts its text at each `&&`: the last piece before a
delimiter is the offset, and what remains is the length. -/
def disassemble (valueOffset token : Bytes) : Bytes → Bytes × Bytes
  | [] => (valueOffset, token)
  | 38 :: 38 :: rest => disassemble token [] rest
  | c :: rest => disassemble valueOffset (token ++ [c]) rest

/-- What a call of `wisckey_get` hands back. -/
inductive GetReturn
  /-- A `return` statement was reached. -/
  | returned (found : Bool)
  /-- Control left the function at its closing brace, without a value. -/
  | indeterminate
  deriving DecidableEq, Repr

/-- `wisckey_get`; `none` when it throws or follows an address that is no element. -/
def wisckeyGet (env : CallEnv) (wk : WK) (args : Args) : Option (WK × Args × GetReturn) := do
  let tmpkey := args.key
  let (wk, args) ← doLogfileGC env wk args
  let args := { args with key := tmpkey }
  match leveldbGet wk.lab2 args.key with
  | none => some (wk, args, .returned false)
  | some vtableStrAddr =>
    let valueAddr ← wk.lab2.vtable.deref (strToAddr vtableStrAddr)
    let (valueOffset, valueLength) := disassemble [] [] valueAddr.value
    let offset ← stol valueOffset
    let length ← stol valueLength
    let (bytes, logfile) := (wk.logfile.fseek offset).fread length.toNat
    let key := overwrite args.key bytes
    let (bytes, logfile) := (logfile.fseek (offset + length)).fread length.toNat
    let value := overwrite args.value bytes
    some ({ wk with logfile }, { args with key, value }, .indeterminate)

/-- `wisckey_del`. -/
def wisckeyDel (env : CallEnv) (wk : WK) (args : Args) : Option (WK × Args) := do
  let tmpkey := args.key
  let (wk, args) ← doLogfileGC env wk args
  let args := { args with key := tmpkey }
  some ({ wk with lab2 := leveldbDel wk.lab2 args.key }, args)

/-- `open_wisckey` in a fresh process: empty table, destroyed database, truncated log. -/
def openWisckey : WK := ⟨⟨∅, ∅⟩, ⟨[], 0⟩, 0⟩

end WiscKey
