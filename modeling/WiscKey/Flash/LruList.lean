import WiscKey.Flash.Geometry

/-!
# The LRU list of the cached mapping table

A doubly linked list threaded through the array `Element`, most recently used first, with
the unused elements on a second list. A position outside the array names memory that is
not the list's own.
-/

namespace WiscKey.Flash

/-- `LRU_ELEMENT_POINT_TO_NULL`, as the only header that defines it has it. -/
def lruElementPointToNull : Int := -2

/-- `LRU_ELEMENT_FREE`. -/
def lruElementFree : Int := -3

/-- `LRUElement_D`. -/
structure LRUElementD where
  next : Int
  previous : Int
  key : Int
  dirty : Bool
  deriving DecidableEq, Repr

/-- `LRUList_D`. -/
structure LRUListD where
  element : Int → LRUElementD
  head : Int
  tail : Int
  len : Int
  freeHead : Int
  freeTail : Int
  freeLen : Int

/-- `CreateLRUListD`, over what `malloc` finds in memory. -/
def createLRUListD (memory : Int → LRUElementD) (len : Int) : LRUListD :=
  let element (i : Int) : LRUElementD :=
    if 0 ≤ i ∧ i < len then
      { next := i + 1, previous := i - 1, key := lruElementFree, dirty := false }
    else memory i
  let element := Function.update element 0
    { element 0 with previous := lruElementPointToNull }
  let element := Function.update element (len - 1)
    { element (len - 1) with next := lruElementPointToNull }
  { element, head := 0, tail := 0, len := 0, freeHead := 0, freeTail := len - 1, freeLen := len }

namespace LRUListD

/-- `Element[pos].next = value`. -/
def setNext (l : LRUListD) (pos value : Int) : LRUListD :=
  { l with element := Function.update l.element pos { l.element pos with next := value } }

/-- `Element[pos].previous = value`. -/
def setPrevious (l : LRUListD) (pos value : Int) : LRUListD :=
  { l with element := Function.update l.element pos { l.element pos with previous := value } }

/-- `Element[pos].key = value`. -/
def setKey (l : LRUListD) (pos value : Int) : LRUListD :=
  { l with element := Function.update l.element pos { l.element pos with key := value } }

/-- `Element[pos].dirty = value`. -/
def setDirty (l : LRUListD) (pos : Int) (value : Bool) : LRUListD :=
  { l with element := Function.update l.element pos { l.element pos with dirty := value } }

/-- The search loop of `IsElemenetInLRUListD`: `rounds` elements from `ptr` on are left to look
at. -/
def findElementD (l : LRUListD) (key : Int) : Nat → Int → Option Int
  | 0, _ => none
  | rounds + 1, ptr =>
    if (l.element ptr).key = key then some ptr
    else l.findElementD key rounds (l.element ptr).next

/-- `IsElemenetInLRUListD`: the element's position, if the key is found. -/
def isElemenetInLRUListD (l : LRUListD) (key : Int) : Option Int :=
  l.findElementD key l.len.toNat l.head

/-- `SetElementDirtyD`. -/
def setElementDirtyD (l : LRUListD) (key pos : Int) : LRUListD :=
  if (l.element pos).key ≠ key then l else l.setDirty pos true

/-- `ClearElementDirtyD`. -/
def clearElementDirtyD (l : LRUListD) (key pos : Int) : LRUListD :=
  if (l.element pos).key ≠ key then l else l.setDirty pos false

/-- `PutElementToFreeElementListD`: to the head of the unused elements. -/
def putElementToFreeElementListD (l : LRUListD) (pos : Int) : LRUListD :=
  let l := { l with freeLen := l.freeLen + 1 }
  let l :=
    if l.freeLen = 1 then
      { (l.setNext pos lruElementPointToNull).setPrevious pos lruElementPointToNull with
        freeHead := pos
        freeTail := pos }
    else
      let l := l.setPrevious pos lruElementPointToNull
      let l := l.setNext pos l.freeHead
      { l.setPrevious l.freeHead pos with freeHead := pos }
  l.setKey pos lruElementFree

/-- `GetElementFromFreeElementListD`: the tail of the unused elements. -/
def getElementFromFreeElementListD (l : LRUListD) : Option (Int × LRUListD) :=
  if l.freeLen = 0 then none
  else
    let l := { l with freeLen := l.freeLen - 1 }
    let pos := l.freeTail
    if l.freeLen = 0 then
      some (pos, { l with freeHead := lruElementPointToNull, freeTail := lruElementPointToNull })
    else
      let l := { l with freeTail := (l.element l.freeTail).previous }
      some (pos, l.setNext l.freeTail lruElementPointToNull)

/-- The cases that `RemoveElemenetFromLRUListD` and `MoveElemenetToTheHeadofLRUListD` share:
unlink an element that is not the only one. -/
def unlinkElement (l : LRUListD) (pos : Int) : LRUListD :=
  if pos = l.head then
    let l := { l with head := (l.element pos).next }
    l.setPrevious l.head lruElementPointToNull
  else if pos = l.tail then
    let l := { l with tail := (l.element pos).previous }
    l.setNext l.tail lruElementPointToNull
  else
    let l := l.setNext (l.element pos).previous (l.element pos).next
    l.setPrevious (l.element pos).next (l.element pos).previous

/-- `RemoveElemenetFromLRUListD`. -/
def removeElemenetFromLRUListD (l : LRUListD) (key pos : Int) : LRUListD :=
  if (l.element pos).key ≠ key then l
  else
    let l := if 1 < l.len then l.unlinkElement pos else l
    putElementToFreeElementListD { l with len := l.len - 1 } pos

/-- An element goes in front of the head of the list. -/
def linkHead (l : LRUListD) (pos : Int) : LRUListD :=
  let l := l.setNext pos l.head
  let l := l.setPrevious pos lruElementPointToNull
  { l.setPrevious l.head pos with head := pos }

/-- `MoveElemenetToTheHeadofLRUListD`. -/
def moveElemenetToTheHeadofLRUListD (l : LRUListD) (key pos : Int) : LRUListD :=
  if (l.element pos).key ≠ key then l
  else if 1 < l.len then (l.unlinkElement pos).linkHead pos
  else l

/-- `RemoveTheTailElemenetFromLRUListD`: the key of the tail, if there is one, and the time
with the write back of a dirty element. -/
def removeTheTailElemenetFromLRUListD (timeWritePage : Int) (l : LRUListD)
    (totalRequestTime : Int) : Option (Int × LRUListD × Int) :=
  if l.len = 0 then none
  else
    let totalRequestTime :=
      if (l.element l.tail).dirty then totalRequestTime + timeWritePage else totalRequestTime
    let l := { l with len := l.len - 1 }
    let key := (l.element l.tail).key
    let pos := l.tail
    let l :=
      if 0 < l.len then
        let l := { l with tail := (l.element l.tail).previous }
        l.setNext l.tail lruElementPointToNull
      else l
    some (key, l.putElementToFreeElementListD pos, totalRequestTime)

/-- `PutElementToTheHeadOfLRUListD`: no element, if none is unused. -/
def putElementToTheHeadOfLRUListD (l : LRUListD) (key : Int) : Option (Int × LRUListD) :=
  match l.getElementFromFreeElementListD with
  | none => none
  | some (pos, l) =>
    let l : LRUListD := { l.setKey pos key with len := l.len + 1 }
    if l.len = 1 then
      let l := (l.setNext pos lruElementPointToNull).setPrevious pos lruElementPointToNull
      some (pos, { l with head := pos, tail := pos })
    else some (pos, l.linkHead pos)

/-- `PutElemenetToLRUListD`: the rounds of its loop that it is granted. The result is the
element's position, the list and the time spent. -/
def putElemenetToLRUListD (timeWritePage : Int) (key : Int) :
    Nat → LRUListD → Int → Option (Int × LRUListD × Int)
  | 0, _, _ => none
  | fuel + 1, l, totalRequestTime =>
    match l.putElementToTheHeadOfLRUListD key with
    | some (pos, l) => some (pos, l, totalRequestTime)
    | none =>
      match l.removeTheTailElemenetFromLRUListD timeWritePage totalRequestTime with
      | none => putElemenetToLRUListD timeWritePage key fuel l totalRequestTime
      | some (_, l, totalRequestTime) =>
        putElemenetToLRUListD timeWritePage key fuel l totalRequestTime

end LRUListD

/-!
## The LRU list of the striping layer

The same list as that of the cached mapping table, element for element, without the time of
a write back.
-/

/-- `LRUElement_t`. -/
abbrev LRUElement := LRUElementD

/-- `LRUList_t`. -/
abbrev LRUList := LRUListD

/-- `CreateLRUList`. -/
def createLRUList (memory : Int → LRUElement) (len : Int) : LRUList := createLRUListD memory len

namespace LRUList

/-- `IsElemenetInLRUList`: the element's position, if the key is found. -/
def isElemenetInLRUList (l : LRUList) (key : Int) : Option Int :=
  LRUListD.isElemenetInLRUListD l key

/-- `RemoveElemenetFromLRUList`. -/
def removeElemenetFromLRUList (l : LRUList) (key pos : Int) : LRUList :=
  LRUListD.removeElemenetFromLRUListD l key pos

/-- `MoveElemenetToTheHeadofLRUList`. -/
def moveElemenetToTheHeadofLRUList (l : LRUList) (key pos : Int) : LRUList :=
  LRUListD.moveElemenetToTheHeadofLRUListD l key pos

/-- `RemoveTheTailElemenetFromLRUList`: a write back takes no time. -/
def removeTheTailElemenetFromLRUList (l : LRUList) : Option (Int × LRUList) :=
  (LRUListD.removeTheTailElemenetFromLRUListD 0 l 0).map fun (key, l, _) => (key, l)

/-- `PutElemenetToLRUList`, with the rounds of its loop that it is granted. -/
def putElemenetToLRUList (fuel : Nat) (l : LRUList) (key : Int) : Option (Int × LRUList) :=
  (LRUListD.putElemenetToLRUListD 0 key fuel l 0).map fun (pos, l, _) => (pos, l)

end LRUList

end WiscKey.Flash
