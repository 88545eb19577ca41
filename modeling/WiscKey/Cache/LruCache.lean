import WiscKey.Core.Bytes
import Mathlib.Data.List.Flatten
import Mathlib.Data.List.Perm.Basic
import Mathlib.Data.List.Nodup
import Mathlib.Logic.Function.Basic

/-!
# The hash table of the cache

`HandleTable` keeps handles in chains by their hashes. A handle is put where one with the same key
is, or at the end of its chain; when there are more handles than chains, the chains are built anew.
-/

namespace WiscKey

/-- `LRUHandle`, less its links; `value` and `deleter` are addresses. -/
structure LRUHandle where
  value : UInt64
  deleter : UInt64
  charge : UInt64
  key : Bytes
  hash : Nat
  inCache : Bool
  refs : Nat
  deriving DecidableEq, Repr

/-- The memory of the handles, by the order of their allocation; one that is freed is gone. -/
abbrev Handles := Nat → Option LRUHandle

/-- `HandleTable`; a chain lists its handles along `next_hash`. -/
structure HandleTable where
  length : Nat
  elems : Nat
  list : List (List Nat)
  deriving DecidableEq, Repr

namespace HandleTable

variable (handles : Handles) (t : HandleTable) (key : Bytes) (hash : Nat)

/-- The loop of `FindPointer`: the place in the chain, or its end if there is no such handle. -/
def findPointer : List Nat → Option Nat
  | [] => some 0
  | n :: chain => do
    let h ← handles n
    if h.hash ≠ hash ∨ key ≠ h.key then
      let ptr ← findPointer chain
      return ptr + 1
    else return 0

/-- `hash & (length_ - 1)`. -/
def bucket (length hash : Nat) : Nat := hash &&& (length - 1)

/-- `Lookup`. -/
def lookup : Option (Option Nat) := do
  let chain ← t.list[bucket t.length hash]?
  let ptr ← findPointer handles key hash chain
  return chain[ptr]?

/-- The loop of `Resize` that doubles the new length; at zero it has no end. -/
def newLength (elems : Nat) : Nat → Nat → Option Nat
  | 0, _ => none
  | fuel + 1, length =>
    if length < elems then newLength elems fuel (length * 2 % 2 ^ 32) else length

/-- A handle is put in front of its new chain. -/
def rehash (length : Nat) (list : List (List Nat)) (n : Nat) : Option (List (List Nat)) := do
  let h ← handles n
  return list.modify (bucket length h.hash) (n :: ·)

/-- `Resize`. The length is doubled at most 30 times. -/
def resize : Option HandleTable := do
  let length ← newLength t.elems 32 4
  let list ← t.list.flatten.foldlM (rehash handles length) (List.replicate length [])
  if t.elems = t.list.flatten.length then return ⟨length, t.elems, list⟩ else none

/-- The constructor, with what `Resize` makes of an empty table. -/
def new : HandleTable := ⟨4, 0, [[], [], [], []]⟩

/-- `Insert`, with the handle that was there. -/
def insert (n : Nat) : Option (HandleTable × Option Nat) := do
  let h ← handles n
  let chain ← t.list[bucket t.length h.hash]?
  let ptr ← findPointer handles h.key h.hash chain
  let old := chain[ptr]?
  let t := { t with
    list := t.list.set (bucket t.length h.hash) (chain.take ptr ++ n :: chain.drop (ptr + 1)) }
  if old.isNone then
    let t := { t with elems := (t.elems + 1) % 2 ^ 32 }
    if t.length < t.elems then
      let t ← t.resize handles
      return (t, old)
    else return (t, old)
  else return (t, old)

/-- `Remove`, with the handle that was there. -/
def remove : Option (HandleTable × Option Nat) := do
  let chain ← t.list[bucket t.length hash]?
  let ptr ← findPointer handles key hash chain
  let result := chain[ptr]?
  if result.isSome then
    return ({ t with
      list := t.list.set (bucket t.length hash) (chain.eraseIdx ptr),
      elems := (t.elems + 2 ^ 32 - 1) % 2 ^ 32 }, result)
  else return (t, result)

/-- The handles of all chains. -/
def members : List Nat := t.list.flatten

end HandleTable

/-!
## The LRU cache

`LRUCache`, one shard of the cache. A function without a result stands for one whose assertion
fails, that reads memory which is not there, or whose loop has no end.
-/

/-- The members of the circular lists: `lru_`, `in_use_` and the handles. -/
inductive ListNode
  | lru
  | inUse
  | handle (n : Nat)
  deriving DecidableEq, Repr

/-- `LRUCache`. `next` and `prev` are the links of all handles; `allocated` is the number of handles
that were allocated so far, and `deleted` has those whose deleter was called, in this order. -/
structure LRUCache where
  capacity : Nat
  usage : Nat
  next : ListNode → ListNode
  prev : ListNode → ListNode
  table : HandleTable
  handles : Handles
  allocated : Nat
  deleted : List (Nat × LRUHandle)

namespace LRUCache

variable (c : LRUCache)

/-- The constructor and `SetCapacity`: the links of the two lists are to themselves. -/
def new (capacity : Nat) : LRUCache :=
  ⟨capacity, 0, id, id, .new, fun _ => none, 0, []⟩

/-- A handle is written. -/
def setHandle (n : Nat) (h : Option LRUHandle) : LRUCache :=
  { c with handles := Function.update c.handles n h }

/-- `LRU_Remove`. -/
def lruRemove (e : ListNode) : LRUCache :=
  let prev := Function.update c.prev (c.next e) (c.prev e)
  { c with next := Function.update c.next (prev e) (c.next e), prev := prev }

/-- `LRU_Append`: in front of the head of a list. -/
def lruAppend (list e : ListNode) : LRUCache :=
  let next := Function.update c.next e list
  let prev := Function.update c.prev e (c.prev list)
  let next := Function.update next (prev e) e
  { c with next := next, prev := Function.update prev (next e) e }

/-- `Ref`. -/
def ref (n : Nat) : Option LRUCache := do
  let e ← c.handles n
  let c :=
    if e.refs = 1 ∧ e.inCache then (c.lruRemove (.handle n)).lruAppend .inUse (.handle n) else c
  return c.setHandle n (some { e with refs := (e.refs + 1) % 2 ^ 32 })

/-- `Unref`. -/
def unref (n : Nat) : Option LRUCache := do
  let e ← c.handles n
  if e.refs = 0 then none
  else
    let e := { e with refs := e.refs - 1 }
    let c := c.setHandle n (some e)
    if e.refs = 0 then
      if e.inCache then none
      else return { c.setHandle n none with deleted := c.deleted ++ [(n, e)] }
    else if e.inCache ∧ e.refs = 1 then
      return (c.lruRemove (.handle n)).lruAppend .lru (.handle n)
    else return c

/-- `FinishErase`, with whether there was a handle. -/
def finishErase : Option Nat → Option (LRUCache × Bool)
  | none => some (c, false)
  | some n => do
    let e ← c.handles n
    if e.inCache then
      let c := (c.lruRemove (.handle n)).setHandle n (some { e with inCache := false })
      let c := { c with usage := (c.usage + 2 ^ 64 - e.charge.toNat) % 2 ^ 64 }
      let c ← c.unref n
      return (c, true)
    else none

/-- `Lookup`, with the handle. -/
def lookup (key : Bytes) (hash : Nat) : Option (LRUCache × Option Nat) := do
  match ← c.table.lookup c.handles key hash with
  | none => return (c, none)
  | some n =>
    let c ← c.ref n
    return (c, some n)

/-- `Release`. -/
def release (n : Nat) : Option LRUCache := c.unref n

/-- A round of the loops of `Insert` and `Prune`: the oldest handle that is not in use is erased. -/
def eraseOldest : Option LRUCache :=
  match c.next .lru with
  | .handle n => do
    let old ← c.handles n
    if old.refs = 1 then
      let (table, removed) ← c.table.remove c.handles old.key old.hash
      let (c, erased) ← { c with table := table }.finishErase removed
      if erased then return c else none
    else none
  | _ => none

/-- The loop of `Insert` or `Prune`: while there is such a handle and a condition holds. It takes no
more rounds than handles were allocated, or it has no end. -/
def eraseWhile (p : LRUCache → Bool) : Nat → LRUCache → Option LRUCache
  | 0, _ => none
  | fuel + 1, c =>
    if p c ∧ c.next .lru ≠ .lru then do
      let c ← c.eraseOldest
      eraseWhile p fuel c
    else some c

/-- The part of `Insert` that puts the new handle into a cache with capacity, in the place of the
one with its key. -/
def insertCached (n : Nat) (e : LRUHandle) : Option LRUCache := do
  let c := c.setHandle n (some { e with refs := e.refs + 1, inCache := true })
  let c := c.lruAppend .inUse (.handle n)
  let c := { c with usage := (c.usage + e.charge.toNat) % 2 ^ 64 }
  let (table, old) ← c.table.insert c.handles n
  let (c, _) ← { c with table := table }.finishErase old
  return c

/-- `Insert`, with the handle. -/
def insert (key : Bytes) (hash : Nat) (value charge deleter : UInt64) :
    Option (LRUCache × Nat) := do
  let n := c.allocated
  let e : LRUHandle := ⟨value, deleter, charge, key, hash, false, 1⟩
  let c : LRUCache := { c.setHandle n (some e) with allocated := n + 1 }
  let c ← if 0 < c.capacity then c.insertCached n e else some c
  let c ← eraseWhile (fun c => c.capacity < c.usage) (c.allocated + 1) c
  return (c, n)

/-- `Erase`. -/
def erase (key : Bytes) (hash : Nat) : Option LRUCache := do
  let (table, removed) ← c.table.remove c.handles key hash
  let (c, _) ← { c with table := table }.finishErase removed
  return c

/-- `Prune`. -/
def prune : Option LRUCache := eraseWhile (fun _ => true) (c.allocated + 1) c

end LRUCache

end WiscKey
