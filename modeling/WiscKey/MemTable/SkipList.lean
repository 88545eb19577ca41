import WiscKey.Library.OrderedSet

/-!
# Skip lists

The nodes of a skip list are linked on several levels, from a head that is linked on all of
them. A search goes right on a level while the next node passes, and then one level down. The
loops have a bound on their rounds here; reads of links that are not there, and of entries of
`prev` that were never written, have no value.
-/

namespace WiscKey

variable {K : Type}

/-- `kMaxHeight`. -/
def kMaxHeight : Nat := 12

/-- `SkipList::Node`: the key, and the links from the lowest level up. -/
structure SkipNode (K : Type) where
  key : K
  next : List (Option Nat)
  deriving DecidableEq, Repr

/-- A `Node*` that is not null: the head, or a node by its place among the allocated ones. -/
inductive NodePtr
  | head
  | node (i : Nat)
  deriving DecidableEq, Repr

/-- A `Node*` of an iterator, which is null at the head. -/
def NodePtr.toIterator : NodePtr → Option Nat
  | .head => none
  | .node i => some i

/-- `SkipList`, with the links of its head and the allocated nodes. -/
structure SkipList (K : Type) where
  head : List (Option Nat)
  nodes : List (SkipNode K)
  maxHeight : Nat
  deriving DecidableEq, Repr

namespace SkipList

/-- The constructor. -/
def empty : SkipList K := ⟨List.replicate kMaxHeight none, [], 1⟩

/-- `x->Next(level)`. -/
def next (s : SkipList K) (x : NodePtr) (level : Nat) : Option (Option Nat) :=
  match x with
  | .head => s.head[level]?
  | .node i => s.nodes[i]?.bind fun n => n.next[level]?

/-- `x->SetNext(level, n)`. -/
def setNext (s : SkipList K) (x : NodePtr) (level : Nat) (n : Option Nat) : SkipList K :=
  match x with
  | .head => { s with head := s.head.set level n }
  | .node i => { s with nodes := s.nodes.modify i fun m => { m with next := m.next.set level n } }

/-- `n->key`. -/
def keyAt (s : SkipList K) (i : Nat) : Option K := s.nodes[i]?.map SkipNode.key

/-- The loop of `FindGreaterOrEqual`, `FindLessThan` and `FindLast`, which differ in the nodes that
they pass: where it ends on the lowest level, the node behind, and `prev`. The assertion of
`FindLessThan` repeats the comparison by which a node was passed. -/
def search (s : SkipList K) (passes : K → Bool) :
    Nat → NodePtr → Nat → List (Option NodePtr) →
      Option (NodePtr × Option Nat × List (Option NodePtr))
  | 0, _, _, _ => none
  | rounds + 1, x, level, prev =>
    match s.next x level with
    | none => none
    | some n =>
      let down :=
        if level = 0 then some (x, n, prev.set level (some x))
        else s.search passes rounds x (level - 1) (prev.set level (some x))
      match n with
      | none => down
      | some i =>
        match s.keyAt i with
        | none => none
        | some key => if passes key then s.search passes rounds (.node i) level prev else down

/-- A search from the head on the highest level; each level has fewer rounds than there are nodes
and one. -/
def searchAll (s : SkipList K) (passes : K → Bool) :
    Option (NodePtr × Option Nat × List (Option NodePtr)) :=
  s.search passes (s.maxHeight * (s.nodes.length + 1)) .head (s.maxHeight - 1)
    (List.replicate kMaxHeight none)

variable (cmp : K → K → Ordering)

/-- `FindGreaterOrEqual`: the node and `prev`. -/
def findGreaterOrEqual (s : SkipList K) (key : K) : Option (Option Nat × List (Option NodePtr)) :=
  (s.searchAll fun k => cmp k key = .lt).map Prod.snd

/-- `FindLessThan`. -/
def findLessThan (s : SkipList K) (key : K) : Option NodePtr :=
  (s.searchAll fun k => cmp k key = .lt).map Prod.fst

/-- `FindLast`. -/
def findLast (s : SkipList K) : Option NodePtr := (s.searchAll fun _ => true).map Prod.fst

/-- `Contains`. -/
def contains (s : SkipList K) (key : K) : Option Bool := do
  let (x, _) ← s.findGreaterOrEqual cmp key
  match x with
  | none => some false
  | some i => (s.keyAt i).map fun k => cmp key k = .eq

/-- A round of the loop of `Insert` that links the new node. -/
def linkLevel (x : Nat) (prev : List (Option NodePtr)) (s : SkipList K) (level : Nat) :
    Option (SkipList K) := do
  let p ← prev[level]?.join
  let n ← s.next p level
  some ((s.setNext (.node x) level n).setNext p level (some x))

/-- `prev` for the levels that a higher node adds. -/
def raisePrev (prev : List (Option NodePtr)) (maxHeight height : Nat) : List (Option NodePtr) :=
  (List.range' maxHeight (height - maxHeight)).foldl (fun prev i => prev.set i (some .head)) prev

/-- `Insert`, with the height that `RandomHeight` gave; none where its assertion fails. -/
def insert (s : SkipList K) (key : K) (height : Nat) : Option (SkipList K) := do
  let (x, prev) ← s.findGreaterOrEqual cmp key
  let equal ← match x with
    | none => some false
    | some i => (s.keyAt i).map fun k => cmp key k = .eq
  if equal then none
  else
    (List.range height).foldlM (linkLevel s.nodes.length (raisePrev prev s.maxHeight height))
      { s with
        maxHeight := max s.maxHeight height
        nodes := s.nodes ++ [⟨key, List.replicate height none⟩] }

/-- `Iterator::SeekToFirst`. -/
def seekToFirst (s : SkipList K) : Option (Option Nat) := s.next .head 0

/-- `Iterator::SeekToLast`. -/
def seekToLast (s : SkipList K) : Option (Option Nat) := s.findLast.map NodePtr.toIterator

/-- `Iterator::Seek`. -/
def seek (s : SkipList K) (target : K) : Option (Option Nat) :=
  (s.findGreaterOrEqual cmp target).map Prod.fst

/-- `Iterator::Next`, at a node. -/
def iteratorNext (s : SkipList K) (i : Nat) : Option (Option Nat) := s.next (.node i) 0

/-- `Iterator::Prev`, at a node. -/
def iteratorPrev (s : SkipList K) (i : Nat) : Option (Option Nat) := do
  let key ← s.keyAt i
  let x ← s.findLessThan cmp key
  some x.toIterator

end SkipList

end WiscKey
