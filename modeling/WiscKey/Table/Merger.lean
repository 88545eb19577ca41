import WiscKey.Iterator.Interface
import WiscKey.Library.SortedUnion
import Mathlib.Data.List.Induction

/-!
# The merging iterator

`MergingIterator` shows the smallest of its children's entries, or in the reverse direction the
largest. When the direction changes, the other children are moved to the other side of its key.
-/

namespace WiscKey

/-- `MergingIterator`; the current child is told by its place. -/
structure MergingIterator (σ : Type) where
  children : List σ
  current : Option Nat
  direction : Direction

namespace MergingIterator

variable {σ : Type} (cmp : Comparator) (ops : IterOps σ) (m : MergingIterator σ)

/-- One round of a loop over the children: a valid child is taken if its key compares with that of
the child found so far as asked for. -/
def pick (better : Ordering) (found : Option (σ × Nat)) (child : σ × Nat) : Option (σ × Nat) :=
  if ops.valid child.1 then
    match found with
    | none => some child
    | some f => if cmp.compare (ops.key child.1) (ops.key f.1) = better then some child else some f
  else found

/-- `FindSmallest`. -/
def findSmallest : MergingIterator σ :=
  { m with current := (m.children.zipIdx.foldl (pick cmp ops .lt) none).map Prod.snd }

/-- `FindLargest`, which looks at the last child first. -/
def findLargest : MergingIterator σ :=
  { m with current := (m.children.zipIdx.reverse.foldl (pick cmp ops .gt) none).map Prod.snd }

/-- The constructor. -/
def new (children : List σ) : MergingIterator σ := ⟨children, none, .forward⟩

/-- The current child. -/
def current? : Option σ := m.current.bind fun i => m.children[i]?

/-- `Valid`. -/
def valid : Bool := m.current.isSome

/-- `key`; without a current child it is not asked for. -/
def key : Bytes := (m.current?.map ops.key).getD []

/-- `value`. -/
def value : Bytes := (m.current?.map ops.value).getD []

/-- `status`: that of the first child that is not ok. -/
def status : Status := ((m.children.map ops.status).find? fun s => s ≠ .ok).getD .ok

/-- `SeekToFirst`. -/
def seekToFirst : MergingIterator σ :=
  { findSmallest cmp ops { m with children := m.children.map ops.seekToFirst } with
    direction := .forward }

/-- `SeekToLast`. -/
def seekToLast : MergingIterator σ :=
  { findLargest cmp ops { m with children := m.children.map ops.seekToLast } with
    direction := .reverse }

/-- `Seek`. -/
def seek (target : Bytes) : MergingIterator σ :=
  { findSmallest cmp ops { m with children := m.children.map (ops.seek target) } with
    direction := .forward }

/-- A child that is not the current one is moved behind a key. -/
def childAfter (key : Bytes) (child : σ) : σ :=
  let child := ops.seek key child
  if ops.valid child ∧ cmp.compare key (ops.key child) = .eq then ops.next child else child

/-- A child that is not the current one is moved in front of a key. -/
def childBefore (key : Bytes) (child : σ) : σ :=
  let child := ops.seek key child
  if ops.valid child then ops.prev child else ops.seekToLast child

/-- The children that are not the current one are moved. -/
def moveOthers (move : σ → σ) : MergingIterator σ :=
  { m with children := m.children.mapIdx fun i child =>
      if some i = m.current then child else move child }

/-- The current child is moved. -/
def moveCurrent (move : σ → σ) : MergingIterator σ :=
  { m with children := m.children.mapIdx fun i child =>
      if some i = m.current then move child else child }

/-- `Next`. -/
def next : MergingIterator σ :=
  let m :=
    if m.direction ≠ .forward then
      { m.moveOthers (childAfter cmp ops (m.key ops)) with direction := .forward }
    else m
  (m.moveCurrent ops.next).findSmallest cmp ops

/-- `Prev`. -/
def prev : MergingIterator σ :=
  let m :=
    if m.direction ≠ .reverse then
      { m.moveOthers (childBefore ops (m.key ops)) with direction := .reverse }
    else m
  (m.moveCurrent ops.prev).findLargest cmp ops

end MergingIterator

/-- What `NewMergingIterator` makes: an empty iterator, the only child itself, or a merging
iterator. -/
inductive MergedIter (σ : Type)
  | empty
  | only (child : σ)
  | merging (m : MergingIterator σ)

namespace MergedIter

variable {σ : Type} (cmp : Comparator) (ops : IterOps σ)

/-- `NewMergingIterator`. -/
def new : List σ → MergedIter σ
  | [] => empty
  | [child] => only child
  | children => merging (.new children)

/-- A call that moves the iterator; an empty iterator stays where it is. -/
def move (child : σ → σ) (m : MergingIterator σ → MergingIterator σ) : MergedIter σ → MergedIter σ
  | empty => empty
  | only s => only (child s)
  | merging s => merging (m s)

/-- What a call reads; an empty iterator is not valid and has no error. -/
def read {β : Type} (none : β) (child : σ → β) (m : MergingIterator σ → β) : MergedIter σ → β
  | empty => none
  | only s => child s
  | merging s => m s

/-- The virtual functions. -/
def iterOps : IterOps (MergedIter σ) where
  valid := read false ops.valid MergingIterator.valid
  key := read [] ops.key (MergingIterator.key ops)
  value := read [] ops.value (MergingIterator.value ops)
  status := read .ok ops.status (MergingIterator.status ops)
  seekToFirst := move ops.seekToFirst (MergingIterator.seekToFirst cmp ops)
  seekToLast := move ops.seekToLast (MergingIterator.seekToLast cmp ops)
  seek target := move (ops.seek target) fun m => m.seek cmp ops target
  next := move ops.next (MergingIterator.next cmp ops)
  prev := move ops.prev (MergingIterator.prev cmp ops)

end MergedIter

/-!
## The merging iterator is a cursor over the sorted union

While an entry is shown, its child is at it, and every other child is at the first entry behind it,
or in the reverse direction at the last entry in front of it.
-/

namespace MergingIterator

variable {σ : Type} {cmp : Comparator} {ops : IterOps σ}

section Pick

variable {better : Ordering} {cs : List (σ × Nat)} {found : Option (σ × Nat)}

/-- The loop over the children finds a valid one that no valid one is better than. -/
theorem foldl_pick (htrans : ∀ a b c, cmp.compare a b = better → cmp.compare b c = better →
      cmp.compare a c = better) (hirrefl : ∀ a, cmp.compare a a ≠ better) (cs : List (σ × Nat)) :
    (cs.foldl (pick cmp ops better) none = none ∧ ∀ x ∈ cs, ops.valid x.1 = false) ∨
      ∃ x ∈ cs, cs.foldl (pick cmp ops better) none = some x ∧ ops.valid x.1 = true ∧
        ∀ y ∈ cs, ops.valid y.1 = true → cmp.compare (ops.key y.1) (ops.key x.1) ≠ better := by
  induction cs using List.reverseRecOn with
  | nil => exact .inl ⟨rfl, fun _ h => absurd h List.not_mem_nil⟩
  | append_singleton cs x ih =>
    rw [List.foldl_append, List.foldl_cons, List.foldl_nil, pick.eq_def]
    by_cases hvalid : ops.valid x.1 = true
    · rw [if_pos hvalid]
      rcases ih with ⟨hnone, hall⟩ | ⟨f, hf, hfound, hfvalid, hbest⟩
      · rw [hnone]
        refine .inr ⟨x, by simp, rfl, hvalid, fun y hy hyvalid => ?_⟩
        rcases List.mem_append.mp hy with hy | hy
        · exact absurd hyvalid (by simp [hall y hy])
        · rw [List.mem_singleton.mp hy]
          exact hirrefl _
      · rw [hfound]
        dsimp only
        split
        · rename_i hbetter
          refine .inr ⟨x, by simp, rfl, hvalid, fun y hy hyvalid hyx => ?_⟩
          rcases List.mem_append.mp hy with hy | hy
          · exact hbest y hy hyvalid (htrans _ _ _ hyx hbetter)
          · rw [List.mem_singleton.mp hy] at hyx
            exact hirrefl _ hyx
        · rename_i hnot
          refine .inr ⟨f, List.mem_append_left _ hf, rfl, hfvalid, fun y hy hyvalid => ?_⟩
          rcases List.mem_append.mp hy with hy | hy
          · exact hbest y hy hyvalid
          · rw [List.mem_singleton.mp hy]
            exact hnot
    · rw [if_neg hvalid]
      rcases ih with ⟨hnone, hall⟩ | ⟨f, hf, hfound, hfvalid, hbest⟩
      · refine .inl ⟨hnone, fun y hy => ?_⟩
        rcases List.mem_append.mp hy with hy | hy
        · exact hall y hy
        · rw [List.mem_singleton.mp hy]
          exact Bool.eq_false_iff.mpr hvalid
      · refine .inr ⟨f, List.mem_append_left _ hf, hfound, hfvalid, fun y hy hyvalid => ?_⟩
        rcases List.mem_append.mp hy with hy | hy
        · exact hbest y hy hyvalid
        · rw [List.mem_singleton.mp hy] at hyvalid
          exact absurd hyvalid hvalid

variable {order : Bytes × Bytes → Bytes × Bytes → Ordering} [Std.TransCmp order]
  {parts : List (List (Bytes × Bytes))} {whole : List (Bytes × Bytes)} {children : List σ}
  {p : Bytes × Bytes → Bool}

/-- Children at the first entries of their parts that meet an upward closed condition: the one found
is at the first of the whole, and the others are behind it. -/
theorem pick_first (h : IsSortedUnion order parts whole) (hdistinct : PairwiseDistinct order parts)
    (hup : UpwardClosed order p) (hbetter : ∀ a b : Bytes × Bytes,
      cmp.compare a.1 b.1 = better ↔ order a b = .lt)
    (hlength : children.length = parts.length)
    (hat : ∀ (i : Nat) s (l : List (Bytes × Bytes)), children[i]? = some s → parts[i]? = some l →
      ops.shown? s = l.find? p)
    (hcs : ∀ x, x ∈ cs ↔ children[x.2]? = some x.1) :
    (cs.foldl (pick cmp ops better) none = none ∧ whole.find? p = none) ∨
      ∃ s i e, cs.foldl (pick cmp ops better) none = some (s, i) ∧ children[i]? = some s ∧
        ops.shown? s = some e ∧ whole.find? p = some e ∧
        ∀ (j : Nat) (l : List (Bytes × Bytes)), j ≠ i → parts[j]? = some l →
          l.find? p = l.find? fun b => order e b = .lt := by
  have hchild : ∀ (j : Nat) l, parts[j]? = some l → ∃ s, children[j]? = some s := by
    intro j l hl
    obtain ⟨hj, -⟩ := List.getElem?_eq_some_iff.mp hl
    exact ⟨children[j], List.getElem?_eq_getElem (hlength ▸ hj)⟩
  have hkeys : ∀ a b : Bytes, cmp.compare a b = better ↔ order (a, []) (b, []) = .lt :=
    fun a b => hbetter (a, []) (b, [])
  rcases @foldl_pick σ cmp ops better (by
      intro a b c hab hbc
      exact (hkeys a c).mpr (Std.TransCmp.lt_trans ((hkeys a b).mp hab) ((hkeys b c).mp hbc)))
    (fun a ha => not_gt_iff_not_lt.mp not_gt_self ((hkeys a a).mp ha)) cs with
    ⟨hnone, hall⟩ | ⟨⟨s, i⟩, hx, hfound, hvalid, hbest⟩
  · refine .inl ⟨hnone, h.find?_eq_none fun l hl => ?_⟩
    obtain ⟨j, hj⟩ := List.mem_iff_getElem?.mp hl
    obtain ⟨s, hs⟩ := hchild j l hj
    rw [← hat j s l hs hj, IterOps.shown?, hall (s, j) ((hcs _).mpr hs), if_neg Bool.false_ne_true]
  · have hs := (hcs _).mp hx
    obtain ⟨hi, -⟩ := List.getElem?_eq_some_iff.mp hs
    obtain ⟨l, hl⟩ : ∃ l, parts[i]? = some l :=
      ⟨_, List.getElem?_eq_getElem (hlength ▸ hi)⟩
    have hentry : ops.shown? s = some (ops.key s, ops.value s) := if_pos hvalid
    have hfind := (hat i s l hs hl).symm.trans hentry
    have hleast : ∀ (j : Nat) l' b, parts[j]? = some l' → l'.find? p = some b →
        order b (ops.key s, ops.value s) ≠ .lt := by
      intro j l' b hl' hb hlt
      obtain ⟨s', hs'⟩ := hchild j l' hl'
      have hentry' := (hat j s' l' hs' hl').trans hb
      refine hbest (s', j) ((hcs _).mpr hs') (IterOps.valid_iff.mpr (by rw [hentry']; rfl)) ?_
      rw [IterOps.key_eq hentry']
      exact (hbetter b (ops.key s, ops.value s)).mpr hlt
    refine .inr ⟨s, i, _, hfound, hs, hentry, ?_, fun j l' hji hl' => ?_⟩
    · refine h.find?_eq_some (List.mem_of_getElem? hl) (List.mem_of_find?_eq_some hfind)
        (List.find?_some hfind) fun l' hl' b hb => ?_
      obtain ⟨j, hj⟩ := List.mem_iff_getElem?.mp hl'
      exact hleast j l' b hj hb
    · exact (h.parts l' (List.mem_of_getElem? hl')).find?_behind hup (List.find?_some hfind)
        (fun b hb => hleast j l' b hl' hb) fun b hb =>
        hdistinct.ne (Ne.symm hji) hl hl' (List.mem_of_find?_eq_some hfind) hb

end Pick

section Moves

variable {lists : List (List (Bytes × Bytes))} {union l : List (Bytes × Bytes)}
  {m : MergingIterator σ} {c : Cursor (Bytes × Bytes)} {p : Bytes × Bytes → Bool}
  {e : Bytes × Bytes} {o : Option (Bytes × Bytes)} {s : σ}
  {search : List (Bytes × Bytes) → Option (Bytes × Bytes)}

/-- The entry of a list next to one that is not in it, in a direction. -/
def beyond (cmp : Comparator) (e : Bytes × Bytes) (l : List (Bytes × Bytes)) :
    Direction → Option (Bytes × Bytes)
  | .forward => l.find? fun b => cmp.comparePair e b = .lt
  | .reverse => l.reverse.find? fun b => cmp.comparePair b e = .lt

/-- Every child is at the entry of its list that a search finds. -/
def Placed (cmp : Comparator) (ops : IterOps σ) (lists : List (List (Bytes × Bytes)))
    (children : List σ) (search : List (Bytes × Bytes) → Option (Bytes × Bytes)) : Prop :=
  children.length = lists.length ∧ ∀ (i : Nat) s l, children[i]? = some s → lists[i]? = some l →
    ops.At cmp l s (search l)

/-- The iterator shows what a cursor over the union shows, and its children are where they have to
be for that. -/
structure Shows (cmp : Comparator) (ops : IterOps σ) (lists : List (List (Bytes × Bytes)))
    (union : List (Bytes × Bytes)) (m : MergingIterator σ) (c : Cursor (Bytes × Bytes)) : Prop where
  isOver : c.Over union
  length : m.children.length = lists.length
  placed : ∀ (i : Nat) s l, m.children[i]? = some s → lists[i]? = some l → ∃ o, ops.At cmp l s o
  none : m.current = none → c.current? = none
  current : ∀ i, m.current = some i →
    ∃ s e, m.children[i]? = some s ∧ ops.shown? s = some e ∧ c.current? = some e
  others : ∀ i e, m.current = some i → c.current? = some e → ∀ (j : Nat) s l, j ≠ i →
    m.children[j]? = some s → lists[j]? = some l → ops.At cmp l s (beyond cmp e l m.direction)

/-- What a loop over the children finds is shown, with the others beyond it. -/
theorem shows_found {found : Option (σ × Nat)} (hover : c.Over union)
    (hplaced : Placed cmp ops lists m.children search)
    (hfound : (found = none ∧ c.current? = none) ∨ ∃ s i e, found = some (s, i) ∧
      m.children[i]? = some s ∧ ops.shown? s = some e ∧ c.current? = some e ∧
      ∀ (j : Nat) l, j ≠ i → lists[j]? = some l → search l = beyond cmp e l m.direction) :
    Shows cmp ops lists union { m with current := found.map Prod.snd } c := by
  have hplaces : ∀ (i : Nat) s l, m.children[i]? = some s → lists[i]? = some l →
      ∃ o, ops.At cmp l s o := fun i s l hs hl => ⟨_, hplaced.2 i s l hs hl⟩
  rcases hfound with ⟨rfl, hnone⟩ | ⟨s, i, e, rfl, hs, hentry, hcurrent, hbeyond⟩
  · exact ⟨hover, hplaced.1, hplaces, fun _ => hnone, (fun _ h => nomatch h),
      (fun _ _ h => nomatch h)⟩
  · refine ⟨hover, hplaced.1, hplaces, (fun h => nomatch h), fun j hj => ?_,
      fun j e' hj he' k s' l hk hs' hl => ?_⟩
    · obtain rfl := Option.some.inj hj
      exact ⟨s, e, hs, hentry, hcurrent⟩
    · obtain rfl := Option.some.inj hj
      obtain rfl := Option.some.inj (he'.symm.trans hcurrent)
      rw [← hbeyond k l hk hl]
      exact hplaced.2 k s' l hs' hl

/-- `FindSmallest`, when all children are at the first entries that meet a condition. -/
theorem shows_findSmallest (hu : IsSortedUnion cmp.comparePair lists union)
    (hdistinct : PairwiseDistinct cmp.comparePair lists) (hup : UpwardClosed cmp.comparePair p)
    (hdirection : m.direction = .forward)
    (hplaced : Placed cmp ops lists m.children fun l => l.find? p) (hover : c.Over union)
    (hcurrent : c.current? = union.find? p) :
    Shows cmp ops lists union (m.findSmallest cmp ops) c := by
  refine shows_found hover hplaced ?_
  rcases @pick_first σ cmp ops .lt m.children.zipIdx _ _ _ _ m.children _ hu hdistinct hup
    (fun a b => Iff.rfl) hplaced.1 (fun i s l hs hl => (hplaced.2 i s l hs hl).shown?)
    (fun x => List.mem_zipIdx_iff_getElem?) with
    ⟨hfound, hnone⟩ | ⟨s, i, e, hfound, hs, hentry, hfirst, hbehind⟩
  · exact .inl ⟨hfound, hcurrent.trans hnone⟩
  · rw [hdirection]
    exact .inr ⟨s, i, e, hfound, hs, hentry, hcurrent.trans hfirst, hbehind⟩

/-- `FindLargest`, when all children are at the last entries that meet a condition. -/
theorem shows_findLargest (hu : IsSortedUnion cmp.comparePair lists union)
    (hdistinct : PairwiseDistinct cmp.comparePair lists)
    (hdown : UpwardClosed (fun a b => cmp.comparePair b a) p) (hdirection : m.direction = .reverse)
    (hplaced : Placed cmp ops lists m.children fun l => l.reverse.find? p) (hover : c.Over union)
    (hcurrent : c.current? = union.reverse.find? p) :
    Shows cmp ops lists union (m.findLargest cmp ops) c := by
  refine shows_found hover hplaced ?_
  rcases @pick_first σ cmp ops .gt m.children.zipIdx.reverse _ _ _ _ m.children _ hu.reverse
    hdistinct.reverse hdown (fun a b => Std.OrientedCmp.gt_iff_lt)
    (hplaced.1.trans (List.length_map _).symm) (fun i s l hs hl => by
      rw [List.getElem?_map, Option.map_eq_some_iff] at hl
      obtain ⟨l', hl', rfl⟩ := hl
      exact (hplaced.2 i s l' hs hl').shown?)
    (fun x => List.mem_reverse.trans List.mem_zipIdx_iff_getElem?) with
    ⟨hfound, hnone⟩ | ⟨s, i, e, hfound, hs, hentry, hfirst, hbehind⟩
  · exact .inl ⟨hfound, hcurrent.trans hnone⟩
  · rw [hdirection]
    refine .inr ⟨s, i, e, hfound, hs, hentry, hcurrent.trans hfirst, fun j l hj hl => ?_⟩
    exact hbehind j l.reverse hj (by rw [List.getElem?_map, hl]; rfl)

/-- The key that is shown. -/
theorem Shows.key_eq (h : Shows cmp ops lists union m c) (he : c.current? = some e) :
    ∃ i s, m.current = some i ∧ m.children[i]? = some s ∧ ops.shown? s = some e ∧
      m.key ops = e.1 := by
  cases hcurrent : m.current with
  | none => exact absurd (he.symm.trans (h.none hcurrent)) (by simp)
  | some i =>
    obtain ⟨s, e', hs, hentry, he'⟩ := h.current i hcurrent
    obtain rfl := Option.some.inj (he.symm.trans he')
    refine ⟨i, s, rfl, hs, hentry, ?_⟩
    rw [key, current?, hcurrent, Option.bind_some, hs, Option.map_some, Option.getD_some,
      IterOps.key_eq hentry]

theorem getElem?_moveOthers {move : σ → σ} {j : Nat}
    (h : (m.moveOthers move).children[j]? = some s) :
    ∃ s', m.children[j]? = some s' ∧ s = if some j = m.current then s' else move s' := by
  rw [moveOthers, List.getElem?_mapIdx, Option.map_eq_some_iff] at h
  obtain ⟨s', hs', rfl⟩ := h
  exact ⟨s', hs', rfl⟩

theorem getElem?_moveCurrent {move : σ → σ} {j : Nat}
    (h : (m.moveCurrent move).children[j]? = some s) :
    ∃ s', m.children[j]? = some s' ∧ s = if some j = m.current then move s' else s' := by
  rw [moveCurrent, List.getElem?_mapIdx, Option.map_eq_some_iff] at h
  obtain ⟨s', hs', rfl⟩ := h
  exact ⟨s', hs', rfl⟩

/-- A change of the direction moves the other children to the other side of the entry. -/
theorem Shows.turn (h : Shows cmp ops lists union m c) (he : c.current? = some e)
    {direction : Direction} {move : σ → σ}
    (hmove : ∀ i, m.current = some i → ∀ (j : Nat) s l o, j ≠ i → lists[j]? = some l →
      ops.At cmp l s o → ops.At cmp l (move s) (beyond cmp e l direction)) :
    Shows cmp ops lists union { m.moveOthers move with direction := direction } c := by
  obtain ⟨i, s, hcurrent, hs, hentry, -⟩ := h.key_eq he
  have hchildren : ∀ (j : Nat) s l, (m.moveOthers move).children[j]? = some s → lists[j]? = some l →
      (j = i → m.children[j]? = some s) ∧
        (j ≠ i → ops.At cmp l s (beyond cmp e l direction)) := by
    intro j s l hs hl
    obtain ⟨s', hs', rfl⟩ := getElem?_moveOthers hs
    obtain ⟨o, hat⟩ := h.placed j s' l hs' hl
    rw [hcurrent]
    refine ⟨fun hji => ?_, fun hji => ?_⟩
    · rw [if_pos (congrArg some hji)]
      exact hs'
    · rw [if_neg fun heq => hji (Option.some.inj heq)]
      exact hmove i hcurrent j s' l o hji hl hat
  refine ⟨h.isOver, ?_, fun j s l hs hl => ?_, h.none, fun j hj => ?_,
    fun j e' hj he' k s l hk hs hl => ?_⟩
  · rw [← h.length]
    exact List.length_mapIdx
  · by_cases hji : j = i
    · exact h.placed j s l ((hchildren j s l hs hl).1 hji) hl
    · exact ⟨_, (hchildren j s l hs hl).2 hji⟩
  · obtain rfl := Option.some.inj (hcurrent.symm.trans hj)
    refine ⟨s, e, ?_, hentry, he⟩
    change (m.moveOthers move).children[i]? = some s
    rw [moveOthers, List.getElem?_mapIdx, hs, Option.map_some, if_pos hcurrent.symm]
  · obtain rfl := Option.some.inj (hcurrent.symm.trans hj)
    obtain rfl := Option.some.inj (he.symm.trans he')
    exact (hchildren k s l hs hl).2 hk

/-- Then the current child is moved beyond the entry as well. -/
theorem Shows.placed_moveCurrent (h : Shows cmp ops lists union m c) (he : c.current? = some e)
    {move : σ → σ} (hmove : ∀ s l, l ∈ lists → ops.At cmp l s (some e) →
      ops.At cmp l (move s) (beyond cmp e l m.direction)) :
    Placed cmp ops lists (m.moveCurrent move).children fun l => beyond cmp e l m.direction := by
  obtain ⟨i, s, hcurrent, hs, hentry, -⟩ := h.key_eq he
  refine ⟨List.length_mapIdx.trans h.length, fun j s' l hs' hl => ?_⟩
  obtain ⟨s'', hs'', rfl⟩ := getElem?_moveCurrent hs'
  rw [hcurrent]
  by_cases hji : j = i
  · subst hji
    obtain rfl := Option.some.inj (hs.symm.trans hs'')
    obtain ⟨o, hat⟩ := h.placed j s l hs hl
    obtain rfl := hat.shown?.symm.trans hentry
    rw [if_pos rfl]
    exact hmove s l (List.mem_of_getElem? hl) hat
  · rw [if_neg fun heq => hji (Option.some.inj heq)]
    exact h.others i e hcurrent he j s'' l hji hs'' hl

/-- A child that is sought behind an entry that its list does not have. -/
theorem at_childAfter (hat : ops.At cmp l s o) (hne : ∀ b ∈ l, cmp.comparePair e b ≠ .eq) :
    ops.At cmp l (childAfter cmp ops e.1 s) (beyond cmp e l .forward) := by
  have hseek := hat.seek e.1
  have hfind : (l.find? fun b => cmp.compare b.1 e.1 ≠ .lt) = beyond cmp e l .forward := by
    refine List.find?_congr fun b hb => ?_
    rw [Bool.eq_iff_iff, decide_eq_true_iff, decide_eq_true_iff]
    change cmp.comparePair b e ≠ .lt ↔ cmp.comparePair e b = .lt
    rw [← not_gt_iff_not_lt]
    refine ⟨fun hle => lt_of_not_gt_of_ne hle (hne b hb), fun hlt => ?_⟩
    rw [hlt]
    exact Ordering.noConfusion
  rw [hfind] at hseek
  rw [childAfter, if_neg]
  · exact hseek
  · rintro ⟨hvalid, heq⟩
    obtain ⟨b, hb⟩ := Option.isSome_iff_exists.mp (IterOps.valid_iff.mp hvalid)
    rw [IterOps.key_eq hb] at heq
    rw [← hseek.shown?, hb] at hseek
    exact hne b hseek.mem heq

/-- A child that is sought in front of an entry. -/
theorem at_childBefore (hinc : Increasing cmp.comparePair l) (hat : ops.At cmp l s o) :
    ops.At cmp l (childBefore ops e.1 s) (beyond cmp e l .reverse) := by
  have hseek := hat.seek e.1
  rw [childBefore]
  cases hfind : l.find? fun b => cmp.compare b.1 e.1 ≠ .lt with
  | none =>
    rw [hfind] at hseek
    have hinvalid : ¬ ops.valid (ops.seek e.1 s) = true := by
      rw [IterOps.valid_iff, hseek.shown?]
      exact Bool.false_ne_true
    rw [if_neg hinvalid]
    have hlast := hseek.seekToLast
    rwa [List.find?_congr fun b hb => ?_] at hlast
    have hbelow := List.find?_eq_none.mp hfind b (List.mem_reverse.mp hb)
    exact (decide_eq_true (not_not.mp fun hlt => hbelow (decide_eq_true hlt))).symm
  | some b =>
    rw [hfind] at hseek
    have hvalid : ops.valid (ops.seek e.1 s) = true := by
      rw [IterOps.valid_iff, hseek.shown?]
      rfl
    rw [if_pos hvalid]
    have hprev := hseek.prev hinc
    rwa [List.find?_congr fun x hx => ?_] at hprev
    have hb := List.find?_some hfind
    rw [decide_eq_true_iff] at hb
    rw [Bool.eq_iff_iff, decide_eq_true_iff, decide_eq_true_iff]
    refine ⟨fun hlt => ?_, fun hlt => lt_of_lt_of_not_gt hlt (not_gt_iff_not_lt.mpr hb)⟩
    by_contra hnot
    exact not_gt_iff_not_lt.mp (hinc.find?_not_gt hfind (List.mem_reverse.mp hx)
      (decide_eq_true hnot)) hlt

end Moves

section Calls

variable {lists : List (List (Bytes × Bytes))} {union : List (Bytes × Bytes)}
  {m : MergingIterator σ} {c : Cursor (Bytes × Bytes)} {e : Bytes × Bytes}

theorem upwardClosed_not_lt (target : Bytes) :
    UpwardClosed cmp.comparePair fun b => cmp.compare b.1 target ≠ .lt := by
  intro a b ha hab
  rw [decide_eq_true_iff] at ha ⊢
  intro hlt
  have hbt : cmp.comparePair b (target, []) = .lt := hlt
  exact ha (lt_of_not_gt_of_lt hab hbt)

theorem upwardClosed_lt (e : Bytes × Bytes) :
    UpwardClosed cmp.comparePair fun b => cmp.comparePair e b = .lt := by
  intro a b ha hab
  rw [decide_eq_true_iff] at ha ⊢
  exact lt_of_lt_of_not_gt ha hab

theorem downwardClosed_lt (e : Bytes × Bytes) :
    UpwardClosed (fun a b => cmp.comparePair b a) fun b => cmp.comparePair b e = .lt := by
  intro a b ha hba
  rw [decide_eq_true_iff] at ha ⊢
  exact lt_of_not_gt_of_lt hba ha

theorem upwardClosed_true (order : Bytes × Bytes → Bytes × Bytes → Ordering) :
    UpwardClosed order fun _ => true := fun _ _ _ _ => rfl

/-- A move that takes every child to where a search finds it. -/
theorem Shows.placed_map (h : Shows cmp ops lists union m c)
    {search : List (Bytes × Bytes) → Option (Bytes × Bytes)} {move : σ → σ}
    (hmove : ∀ s l o, ops.At cmp l s o → ops.At cmp l (move s) (search l)) :
    Placed cmp ops lists (m.children.map move) search := by
  refine ⟨(List.length_map _).trans h.length, fun i s l hs hl => ?_⟩
  rw [List.getElem?_map, Option.map_eq_some_iff] at hs
  obtain ⟨s', hs', rfl⟩ := hs
  obtain ⟨o, hat⟩ := h.placed i s' l hs' hl
  exact hmove s' l o hat

variable (hu : IsSortedUnion cmp.comparePair lists union)
  (hdistinct : PairwiseDistinct cmp.comparePair lists)

include hu hdistinct

theorem Shows.seek (h : Shows cmp ops lists union m c) (target : Bytes) :
    Shows cmp ops lists union (m.seek cmp ops target)
      (Cursor.seek (fun b => cmp.compare b.1 target ≠ .lt) union) := by
  have hplaced : Placed cmp ops lists (m.children.map (ops.seek target)) fun l =>
      l.find? fun b => cmp.compare b.1 target ≠ .lt :=
    h.placed_map fun s l o hat => hat.seek target
  exact @shows_findSmallest σ cmp ops lists union
    { m with children := m.children.map (ops.seek target), direction := .forward } _ _ hu hdistinct
    (upwardClosed_not_lt target) rfl hplaced (Cursor.over_seek _) (Cursor.current?_seek _)

theorem Shows.seekToFirst (h : Shows cmp ops lists union m c) :
    Shows cmp ops lists union (m.seekToFirst cmp ops) (Cursor.first union) := by
  have hplaced := h.placed_map fun s l o hat => hat.seekToFirst
  exact @shows_findSmallest σ cmp ops lists union
    { m with children := m.children.map ops.seekToFirst, direction := .forward } _ _ hu hdistinct
    (upwardClosed_true _) rfl hplaced Cursor.over_first Cursor.current?_first

theorem Shows.seekToLast (h : Shows cmp ops lists union m c) :
    Shows cmp ops lists union (m.seekToLast cmp ops) (Cursor.last union) := by
  have hplaced := h.placed_map fun s l o hat => hat.seekToLast
  exact @shows_findLargest σ cmp ops lists union
    { m with children := m.children.map ops.seekToLast, direction := .reverse } _ _ hu hdistinct
    (upwardClosed_true _) rfl hplaced Cursor.over_last Cursor.current?_last

/-- `Next` in the forward direction. -/
theorem Shows.next_forward (h : Shows cmp ops lists union m c) (he : c.current? = some e)
    (hdirection : m.direction = .forward) :
    Shows cmp ops lists union ((m.moveCurrent ops.next).findSmallest cmp ops) c.next := by
  have hplaced : Placed cmp ops lists (m.moveCurrent ops.next).children fun l =>
      beyond cmp e l m.direction := by
    refine h.placed_moveCurrent he fun s l hl hat => ?_
    rw [hdirection]
    exact hat.next (hu.parts l hl)
  rw [hdirection] at hplaced
  cases c with
  | invalid => exact nomatch he
  | on before a after =>
    obtain rfl := Option.some.inj he
    exact shows_findSmallest hu hdistinct (upwardClosed_lt a) hdirection hplaced h.isOver.next
      (Cursor.current?_next hu.increasing h.isOver)

/-- `Prev` in the reverse direction. -/
theorem Shows.prev_reverse (h : Shows cmp ops lists union m c) (he : c.current? = some e)
    (hdirection : m.direction = .reverse) :
    Shows cmp ops lists union ((m.moveCurrent ops.prev).findLargest cmp ops) c.prev := by
  have hplaced : Placed cmp ops lists (m.moveCurrent ops.prev).children fun l =>
      beyond cmp e l m.direction := by
    refine h.placed_moveCurrent he fun s l hl hat => ?_
    rw [hdirection]
    exact hat.prev (hu.parts l hl)
  rw [hdirection] at hplaced
  cases c with
  | invalid => exact nomatch he
  | on before a after =>
    obtain rfl := Option.some.inj he
    exact shows_findLargest hu hdistinct (downwardClosed_lt a) hdirection hplaced h.isOver.prev
      (Cursor.current?_prev hu.increasing h.isOver)

theorem Shows.next (h : Shows cmp ops lists union m c) (he : c.current? = some e) :
    Shows cmp ops lists union (m.next cmp ops) c.next := by
  rw [MergingIterator.next]
  by_cases hdirection : m.direction = .forward
  · rw [if_neg (not_not.mpr hdirection)]
    exact h.next_forward hu hdistinct he hdirection
  · rw [if_pos hdirection]
    refine Shows.next_forward hu hdistinct (h.turn he fun i hi j s l o hj hl hat => ?_) he rfl
    obtain ⟨i', s', hi', hs', hentry, hkey⟩ := h.key_eq he
    obtain rfl := Option.some.inj (hi.symm.trans hi')
    obtain ⟨l', hl'⟩ : ∃ l', lists[i]? = some l' := by
      obtain ⟨hlt, -⟩ := List.getElem?_eq_some_iff.mp hs'
      exact ⟨_, List.getElem?_eq_getElem (h.length ▸ hlt)⟩
    -- the entry is in the list of the current child, so no other list has its key
    obtain ⟨o', hat'⟩ := h.placed i s' l' hs' hl'
    obtain rfl := hat'.shown?.symm.trans hentry
    rw [hkey]
    exact at_childAfter hat fun b hb => hdistinct.ne (Ne.symm hj) hl' hl hat'.mem hb

theorem Shows.prev (h : Shows cmp ops lists union m c) (he : c.current? = some e) :
    Shows cmp ops lists union (m.prev cmp ops) c.prev := by
  rw [MergingIterator.prev]
  by_cases hdirection : m.direction = .reverse
  · rw [if_neg (not_not.mpr hdirection)]
    exact h.prev_reverse hu hdistinct he hdirection
  · rw [if_pos hdirection]
    refine Shows.prev_reverse hu hdistinct (h.turn he fun i hi j s l o hj hl hat => ?_) he rfl
    obtain ⟨-, -, -, -, -, hkey⟩ := h.key_eq he
    rw [hkey]
    exact at_childBefore (hu.parts l (List.mem_of_getElem? hl)) hat

/-- A call keeps what is shown. -/
theorem Shows.call (h : Shows cmp ops lists union m c) (call : IterCall)
    (hallowed : (call = .next ∨ call = .prev) → m.valid = true) :
    Shows cmp ops lists union
      (match call with
        | .seekToFirst => m.seekToFirst cmp ops
        | .seekToLast => m.seekToLast cmp ops
        | .seek target => m.seek cmp ops target
        | .next => m.next cmp ops
        | .prev => m.prev cmp ops)
      (c.call cmp union call) := by
  have hshown : m.valid = true → ∃ e, c.current? = some e := by
    intro hvalid
    obtain ⟨i, hi⟩ := Option.isSome_iff_exists.mp hvalid
    obtain ⟨s, e, -, -, he⟩ := h.current i hi
    exact ⟨e, he⟩
  cases call with
  | seekToFirst => exact h.seekToFirst hu hdistinct
  | seekToLast => exact h.seekToLast hu hdistinct
  | seek target => exact h.seek hu hdistinct target
  | next =>
    obtain ⟨e, he⟩ := hshown (hallowed (.inl rfl))
    exact h.next hu hdistinct he
  | prev =>
    obtain ⟨e, he⟩ := hshown (hallowed (.inr rfl))
    exact h.prev hu hdistinct he

end Calls

end MergingIterator

namespace MergedIter

variable {σ : Type} {cmp : Comparator} {ops : IterOps σ} {lists : List (List (Bytes × Bytes))}
  {children : List σ}

/-- What the iterator shows when its children are where they have to be. -/
theorem shown?_merging {union : List (Bytes × Bytes)} {m : MergingIterator σ}
    {c : Cursor (Bytes × Bytes)} (h : m.Shows cmp ops lists union c) :
    (iterOps cmp ops).shown? (.merging m) = c.current? := by
  cases hcurrent : m.current with
  | none =>
    rw [h.none hcurrent]
    exact if_neg (by simp [iterOps, read, MergingIterator.valid, hcurrent])
  | some i =>
    obtain ⟨s, e, hs, hentry, he⟩ := h.current i hcurrent
    have hvalid : (iterOps cmp ops).valid (.merging m) = true := by
      simp [iterOps, read, MergingIterator.valid, hcurrent]
    have hcurrent? : m.current? = some s := by
      rw [MergingIterator.current?, hcurrent, Option.bind_some, hs]
    rw [he, ← hentry, IterOps.shown?, if_pos hvalid, IterOps.shown?,
      if_pos (IterOps.valid_iff.mpr (by rw [hentry]; rfl))]
    simp [iterOps, read, MergingIterator.key, MergingIterator.value, hcurrent?]

/-- A child that is the only one. -/
theorem follows_only {s : σ} {l : List (Bytes × Bytes)} {c : Cursor (Bytes × Bytes)}
    (h : ops.Follows cmp l s c) : (iterOps cmp ops).Follows cmp l (.only s) c := by
  refine IterOps.follows_of_relation
    (R := fun t c => ∃ s, t = .only s ∧ ops.Follows cmp l s c) ?_ ?_ ⟨s, rfl, h⟩
  · rintro _ c ⟨s, rfl, hs⟩
    exact hs.shown?
  · rintro _ c call ⟨s, rfl, hs⟩ hallowed
    refine ⟨ops.call s call, by cases call <;> rfl, hs.call call ?_⟩
    cases call <;> exact hallowed

/-- The iterator over children that follow sorted lists, no key of which is in two of them, shows
what a cursor over the sorted union of the lists shows, after every sequence of calls. -/
theorem new_follows (hchildren : List.Forall₂ (fun s l => ∃ o, ops.At cmp l s o) children lists)
    (hsorted : ∀ l ∈ lists, Increasing cmp.comparePair l)
    (hdistinct : PairwiseDistinct cmp.comparePair lists) :
    ∃ c : Cursor (Bytes × Bytes), (children.length ≠ 1 → c = .invalid) ∧
      (iterOps cmp ops).Follows cmp (sortedUnion cmp.comparePair lists) (new children) c := by
  have hu := isSortedUnion hsorted hdistinct
  cases hchildren with
  | nil =>
    refine ⟨.invalid, fun _ => rfl, ?_⟩
    refine IterOps.follows_of_relation (R := fun t c => t = .empty ∧ c = .invalid) ?_ ?_ ⟨rfl, rfl⟩
    · rintro _ _ ⟨rfl, rfl⟩
      rfl
    · rintro _ _ call ⟨rfl, rfl⟩ -
      cases call <;> exact ⟨rfl, rfl⟩
  | @cons s l children lists hchild hrest =>
    cases hrest with
    | nil =>
      obtain ⟨o, c, hfollows, -, -⟩ := hchild
      have hunion : sortedUnion cmp.comparePair [l] = l := by
        refine hu.increasing.eq_of_mem_iff (hsorted l List.mem_cons_self) fun a => ?_
        rw [hu.mem]
        simp
      rw [hunion]
      exact ⟨c, fun hlength => absurd rfl hlength, follows_only hfollows⟩
    | @cons s' l' children lists hchild' hrest =>
      refine ⟨.invalid, fun _ => rfl, ?_⟩
      refine IterOps.follows_of_relation (R := fun t c => ∃ m, t = .merging m ∧
        m.Shows cmp ops (l :: l' :: lists) (sortedUnion cmp.comparePair (l :: l' :: lists)) c)
        ?_ ?_ ⟨_, rfl, ?_⟩
      · rintro _ c ⟨m, rfl, hm⟩
        exact shown?_merging hm
      · rintro _ c call ⟨m, rfl, hm⟩ hallowed
        have hcall := hm.call hu hdistinct call (by rintro (rfl | rfl) <;> exact hallowed)
        cases call <;> exact ⟨_, rfl, hcall⟩
      · have hall := List.Forall₂.cons hchild (.cons hchild' hrest)
        refine ⟨trivial, hall.length_eq, fun i s l hs hl => ?_, fun _ => rfl,
          (fun _ h => nomatch h), (fun _ _ h => nomatch h)⟩
        obtain ⟨hi, rfl⟩ := List.getElem?_eq_some_iff.mp hs
        obtain ⟨hi', rfl⟩ := List.getElem?_eq_some_iff.mp hl
        exact (List.forall₂_iff_get.mp hall).2 i hi hi'

theorem new_follows_two :
    (iterOps bytewiseComparator (cursorOps bytewiseComparator)).Follows bytewiseComparator
      (sortedUnion bytewiseComparator.comparePair [[([1], [10]), ([3], [30])], [([2], [20])]])
      (new [([([1], [10]), ([3], [30])], .invalid), ([([2], [20])], .invalid)]) .invalid := by
  have hat : ∀ l : List (Bytes × Bytes),
      (cursorOps bytewiseComparator).At bytewiseComparator l (l, .invalid) none :=
    fun l => ⟨.invalid, cursorOps_follows l .invalid, trivial, rfl⟩
  obtain ⟨c, hc, hfollows⟩ := @new_follows _ bytewiseComparator (cursorOps bytewiseComparator)
    [[([1], [10]), ([3], [30])], [([2], [20])]]
    [([([1], [10]), ([3], [30])], .invalid), ([([2], [20])], .invalid)]
    (.cons ⟨_, hat _⟩ (.cons ⟨_, hat _⟩ .nil)) (by unfold Increasing; decide)
    (by unfold PairwiseDistinct; decide)
  rwa [hc (by decide)] at hfollows

end MergedIter

end WiscKey
