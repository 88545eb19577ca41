import WiscKey.Iterator.Interface

/-!
# The two-level iterator

`TwoLevelIterator` goes over the entries of the blocks that the values of an index tell of. A block
is opened when the index gets to it; blocks without an entry in the direction of the move are
skipped. The error of a data iterator that is let go of is saved.
-/

namespace WiscKey

/-- `TwoLevelIterator`. `saved` is `status_`; `discarded`, the data iterators that were let go of
with the first one first, is history that no function reads. -/
structure TwoLevelIterator (τ σ : Type) where
  saved : Status
  indexIter : τ
  dataIter : Option σ
  dataBlockHandle : Bytes
  discarded : List σ

namespace TwoLevelIterator

variable {τ σ : Type} (indexOps : IterOps τ) (dataOps : IterOps σ) (blockFunction : Bytes → σ)
  (t : TwoLevelIterator τ σ)

/-- The constructor. -/
def new (indexIter : τ) : TwoLevelIterator τ σ := ⟨.ok, indexIter, none, [], []⟩

/-- `Valid`: a data iterator that is not there is not valid. -/
def valid : Bool := (t.dataIter.map dataOps.valid).getD false

/-- `key`; it is asked for only while the iterator is valid. -/
def key : Bytes := (t.dataIter.map dataOps.key).getD []

/-- `value`. -/
def value : Bytes := (t.dataIter.map dataOps.value).getD []

/-- `status`. -/
def status : Status :=
  if indexOps.status t.indexIter ≠ .ok then indexOps.status t.indexIter
  else
    match t.dataIter with
    | some s => if dataOps.status s ≠ .ok then dataOps.status s else t.saved
    | none => t.saved

/-- `SaveError`. -/
def saveError (s : Status) : TwoLevelIterator τ σ :=
  if t.saved = .ok ∧ s ≠ .ok then { t with saved := s } else t

/-- `SetDataIterator`. -/
def setDataIterator (dataIter : Option σ) : TwoLevelIterator τ σ :=
  match t.dataIter with
  | some s =>
    { t.saveError (dataOps.status s) with
      dataIter := dataIter, discarded := t.discarded ++ [s] }
  | none => { t with dataIter := dataIter }

/-- `InitDataBlock`: the data iterator of a block is kept while the index stays at the block. -/
def initDataBlock : TwoLevelIterator τ σ :=
  if indexOps.valid t.indexIter then
    let handle := indexOps.value t.indexIter
    if t.dataIter.isSome ∧ handle = t.dataBlockHandle then t
    else
      { t with dataBlockHandle := handle }.setDataIterator dataOps (some (blockFunction handle))
  else t.setDataIterator dataOps none

/-- A move of the index. -/
def moveIndex (move : τ → τ) : TwoLevelIterator τ σ := { t with indexIter := move t.indexIter }

/-- A move of the data iterator, if there is one. -/
def moveData (move : σ → σ) : TwoLevelIterator τ σ := { t with dataIter := t.dataIter.map move }

/-- The loop of `SkipEmptyDataBlocksForward` and `SkipEmptyDataBlocksBackward`, of at most so many
rounds. -/
def skipEmptyDataBlocks (indexMove : τ → τ) (dataMove : σ → σ) :
    Nat → TwoLevelIterator τ σ → Option (TwoLevelIterator τ σ)
  | 0, _ => none
  | fuel + 1, t =>
    if t.valid dataOps then some t
    else if indexOps.valid t.indexIter then
      skipEmptyDataBlocks indexMove dataMove fuel
        (((t.moveIndex indexMove).initDataBlock indexOps dataOps blockFunction).moveData dataMove)
    else some (t.setDataIterator dataOps none)

/-- `SkipEmptyDataBlocksForward`. -/
def skipEmptyDataBlocksForward (fuel : Nat) : Option (TwoLevelIterator τ σ) :=
  t.skipEmptyDataBlocks indexOps dataOps blockFunction indexOps.next dataOps.seekToFirst fuel

/-- `SkipEmptyDataBlocksBackward`. -/
def skipEmptyDataBlocksBackward (fuel : Nat) : Option (TwoLevelIterator τ σ) :=
  t.skipEmptyDataBlocks indexOps dataOps blockFunction indexOps.prev dataOps.seekToLast fuel

variable (fuel : Nat)

/-- `Seek`. -/
def seek (target : Bytes) : Option (TwoLevelIterator τ σ) :=
  (((t.moveIndex (indexOps.seek target)).initDataBlock indexOps dataOps blockFunction).moveData
    (dataOps.seek target)).skipEmptyDataBlocksForward indexOps dataOps blockFunction fuel

/-- `SeekToFirst`. -/
def seekToFirst : Option (TwoLevelIterator τ σ) :=
  (((t.moveIndex indexOps.seekToFirst).initDataBlock indexOps dataOps blockFunction).moveData
    dataOps.seekToFirst).skipEmptyDataBlocksForward indexOps dataOps blockFunction fuel

/-- `SeekToLast`. -/
def seekToLast : Option (TwoLevelIterator τ σ) :=
  (((t.moveIndex indexOps.seekToLast).initDataBlock indexOps dataOps blockFunction).moveData
    dataOps.seekToLast).skipEmptyDataBlocksBackward indexOps dataOps blockFunction fuel

/-- `Next`. -/
def next : Option (TwoLevelIterator τ σ) :=
  (t.moveData dataOps.next).skipEmptyDataBlocksForward indexOps dataOps blockFunction fuel

/-- `Prev`. -/
def prev : Option (TwoLevelIterator τ σ) :=
  (t.moveData dataOps.prev).skipEmptyDataBlocksBackward indexOps dataOps blockFunction fuel

/-- A call; without a result its loop needs more rounds. -/
def call : IterCall → Option (TwoLevelIterator τ σ)
  | .seekToFirst => t.seekToFirst indexOps dataOps blockFunction fuel
  | .seekToLast => t.seekToLast indexOps dataOps blockFunction fuel
  | .seek target => t.seek indexOps dataOps blockFunction fuel target
  | .next => t.next indexOps dataOps blockFunction fuel
  | .prev => t.prev indexOps dataOps blockFunction fuel

/-- The entry that the iterator shows. -/
def shown? : Option (Bytes × Bytes) :=
  if t.valid dataOps then some (t.key dataOps, t.value dataOps) else none

end TwoLevelIterator

/-!
## The two-level iterator is a cursor over the concatenation of its blocks

While an entry is shown, the index is at the entry of its block, and the data iterator is at the
entry in the block. What is in front of it and behind it is then put together from the block and the
blocks that the index has in front of its own and behind it.
-/

namespace Cursor

variable {α : Type}

/-- A move in a direction. -/
def step (c : Cursor α) : Direction → Cursor α
  | .forward => c.next
  | .reverse => c.prev

/-- A cursor by what it has passed in a direction and what it has still before it, each with the
nearest first. -/
def facing (direction : Direction) (passed : List α) (a : α) (rest : List α) : Cursor α :=
  match direction with
  | .forward => on passed a rest
  | .reverse => on rest a passed

/-- A cursor at the first element that it has before it. -/
def enter (direction : Direction) (passed : List α) : List α → Cursor α
  | [] => invalid
  | a :: rest => facing direction passed a rest

/-- A list as it is read in a direction. -/
def along (l : List α) : Direction → List α
  | .forward => l
  | .reverse => l.reverse

variable {direction : Direction} {passed rest l : List α} {a : α} {p : α → Bool}

theorem step_facing : (facing direction passed a rest).step direction =
    enter direction (a :: passed) rest := by
  cases direction <;> cases rest <;> rfl

theorem Over.step {c : Cursor α} (h : c.Over l) : (c.step direction).Over l := by
  cases direction with
  | forward => exact h.next
  | reverse => exact h.prev

theorem current?_facing : (facing direction passed a rest).current? = some a := by
  cases direction <;> rfl

/-- What the list is read backward is what is passed at its end. -/
theorem along_of_over (h : (facing direction passed a rest).Over l) :
    along l direction = passed.reverse ++ a :: rest := by
  cases direction with
  | forward => exact h.symm
  | reverse =>
    rw [along, ← h]
    simp

theorem first_eq_enter (l : List α) : first l = enter .forward [] (along l .forward) := by
  cases l <;> rfl

theorem last_eq_enter (l : List α) : last l = enter .reverse [] (along l .reverse) := by
  rw [last, along]
  cases l.reverse <;> rfl

theorem over_enter : (enter direction [] (along l direction)).Over l := by
  cases direction with
  | forward =>
    rw [← first_eq_enter]
    exact over_first
  | reverse =>
    rw [← last_eq_enter]
    exact over_last

/-- A search passes the elements that do not meet the condition. -/
theorem seekFrom_append_of_passed (hl : ∀ b ∈ l, p b = false) :
    seekFrom p passed (l ++ rest) = seekFrom p (l.reverse ++ passed) rest := by
  induction l generalizing passed with
  | nil => rfl
  | cons b l ih =>
    obtain ⟨hb, hl⟩ := List.forall_mem_cons.mp hl
    rw [List.cons_append, seekFrom, hb, if_neg Bool.false_ne_true, ih hl]
    simp

/-- A search ends at the first element if it meets the condition. -/
theorem seekFrom_of_head (hrest : ∀ b ∈ rest.head?, p b = true) :
    seekFrom p passed rest = enter .forward passed rest := by
  cases rest with
  | nil => rfl
  | cons b rest =>
    rw [seekFrom, hrest b rfl]
    rfl

/-- Where a search ends. -/
theorem seek_eq_enter (p : α → Bool) (l : List α) : ∃ passed rest,
    seek p l = enter .forward passed rest ∧ passed.reverse ++ rest = l ∧
      (∀ b ∈ passed, p b = false) ∧ ∀ b ∈ rest.head?, p b = true := by
  rcases seek_passed p l with ⟨hseek, hl⟩ | ⟨passed, a, rest, hseek, hsplit, ha, hpassed⟩
  · refine ⟨l.reverse, [], hseek, by simp, fun b hb => hl b (List.mem_reverse.mp hb), ?_⟩
    exact fun b hb => absurd hb (by simp)
  · refine ⟨passed, a :: rest, hseek, hsplit, hpassed, fun b hb => ?_⟩
    obtain rfl := Option.some.inj hb
    exact ha

end Cursor

/-- The index of blocks: its keys go up, and each is at or above the keys of its block and below
those of the next. -/
structure IndexedBlocks (cmp : Comparator) (index : List (Bytes × Bytes))
    (block : Bytes → List (Bytes × Bytes)) : Prop where
  ascending : index.Pairwise fun e e' => cmp.compare e.1 e'.1 ≠ .gt
  sorted : ∀ e ∈ index, Increasing cmp.comparePair (block e.2)
  atMost : ∀ e ∈ index, ∀ x ∈ block e.2, cmp.compare x.1 e.1 ≠ .gt
  below : index.IsChain fun e e' => ∀ x ∈ block e'.2, cmp.compare e.1 x.1 = .lt

/-- The entries of the blocks that an index tells of. -/
def joined (block : Bytes → List (Bytes × Bytes)) (index : List (Bytes × Bytes)) :
    List (Bytes × Bytes) :=
  index.flatMap fun e => block e.2

namespace IndexedBlocks

variable {cmp : Comparator} {index : List (Bytes × Bytes)} {block : Bytes → List (Bytes × Bytes)}

theorem tail {e : Bytes × Bytes} (h : IndexedBlocks cmp (e :: index) block) :
    IndexedBlocks cmp index block :=
  ⟨(List.pairwise_cons.mp h.ascending).2, fun e he => h.sorted e (List.mem_cons_of_mem _ he),
    fun e he => h.atMost e (List.mem_cons_of_mem _ he), h.below.of_cons⟩

/-- An index key is below the keys of all later blocks. -/
theorem below_joined {e : Bytes × Bytes} (h : IndexedBlocks cmp (e :: index) block) :
    ∀ x ∈ joined block index, cmp.compare e.1 x.1 = .lt := by
  induction index generalizing e with
  | nil => exact fun x hx => absurd hx List.not_mem_nil
  | cons e' index ih =>
    intro x hx
    rw [joined, List.flatMap_cons, List.mem_append] at hx
    rcases hx with hx | hx
    · exact (List.isChain_cons_cons.mp h.below).1 x hx
    · have hle : cmp.comparePair (e.1, []) (e'.1, []) ≠ .gt :=
        (List.pairwise_cons.mp h.ascending).1 e' List.mem_cons_self
      have hlt : cmp.comparePair (e'.1, []) (x.1, []) = .lt := ih h.tail x hx
      exact lt_of_not_gt_of_lt hle hlt

theorem of_append {front : List (Bytes × Bytes)} (h : IndexedBlocks cmp (front ++ index) block) :
    IndexedBlocks cmp index block := by
  induction front with
  | nil => exact h
  | cons e front ih => exact ih h.tail

/-- Blocks whose index keys are below a key are below it. -/
theorem joined_lt {l : List (Bytes × Bytes)} {target : Bytes} (h : IndexedBlocks cmp index block)
    (hsub : ∀ e ∈ l, e ∈ index) (hbelow : ∀ e ∈ l, cmp.compare e.1 target = .lt) :
    ∀ x ∈ joined block l, cmp.compare x.1 target = .lt := by
  intro x hx
  obtain ⟨e, he, hxe⟩ := List.mem_flatMap.mp hx
  have hle : cmp.comparePair (x.1, []) (e.1, []) ≠ .gt := h.atMost e (hsub e he) x hxe
  have hlt : cmp.comparePair (e.1, []) (target, []) = .lt := hbelow e he
  exact lt_of_not_gt_of_lt hle hlt

end IndexedBlocks

section Steps

variable {σ : Type} {cmp : Comparator} {entries : List (Bytes × Bytes)} {ops : IterOps σ} {s : σ}
  {c : Cursor (Bytes × Bytes)} {direction : Direction}

/-- The move to the next entry in a direction. -/
def IterOps.step (ops : IterOps σ) : Direction → σ → σ
  | .forward => ops.next
  | .reverse => ops.prev

/-- The move to the first entry in a direction. -/
def IterOps.start (ops : IterOps σ) : Direction → σ → σ
  | .forward => ops.seekToFirst
  | .reverse => ops.seekToLast

theorem IterOps.Follows.step (h : ops.Follows cmp entries s c) (hvalid : c.current?.isSome) :
    ops.Follows cmp entries (ops.step direction s) (c.step direction) := by
  have hallowed : ops.valid s = true := IterOps.valid_iff.mpr (by rw [h.shown?]; exact hvalid)
  cases direction with
  | forward => exact h.call .next hallowed
  | reverse => exact h.call .prev hallowed

theorem IterOps.Follows.start (h : ops.Follows cmp entries s c) :
    ops.Follows cmp entries (ops.start direction s)
      (.enter direction [] (Cursor.along entries direction)) := by
  cases direction with
  | forward =>
    rw [← Cursor.first_eq_enter]
    exact h.call .seekToFirst trivial
  | reverse =>
    rw [← Cursor.last_eq_enter]
    exact h.call .seekToLast trivial

end Steps

/-- The other direction. -/
def Direction.opposite : Direction → Direction
  | .forward => .reverse
  | .reverse => .forward

/-- The entries of blocks, read in a direction. -/
def ahead (block : Bytes → List (Bytes × Bytes)) (direction : Direction)
    (index : List (Bytes × Bytes)) : List (Bytes × Bytes) :=
  index.flatMap fun e => Cursor.along (block e.2) direction

/-- The first error of some statuses. -/
def firstError (statuses : List Status) : Status := (statuses.find? fun s => s ≠ .ok).getD .ok

theorem firstError_cons (s : Status) (statuses : List Status) :
    firstError (s :: statuses) = if s ≠ .ok then s else firstError statuses := by
  by_cases hs : s = .ok <;> simp [firstError, hs]

theorem firstError_concat (statuses : List Status) (s : Status) :
    firstError (statuses ++ [s]) =
      if firstError statuses = .ok ∧ s ≠ .ok then s else firstError statuses := by
  rw [firstError, firstError, List.find?_append]
  cases hfind : statuses.find? fun s => s ≠ .ok with
  | none => by_cases hs : s = .ok <;> simp [hs]
  | some s' =>
    have hne := List.find?_some hfind
    rw [decide_eq_true_iff] at hne
    simp [hne]

namespace TwoLevelIterator

variable {τ σ : Type} {indexOps : IterOps τ} {dataOps : IterOps σ} {blockFunction : Bytes → σ}
  {cmp : Comparator} {index : List (Bytes × Bytes)} {block : Bytes → List (Bytes × Bytes)}
  {t : TwoLevelIterator τ σ} {ic dc : Cursor (Bytes × Bytes)} {direction : Direction}
  {before after db da : List (Bytes × Bytes)} {e x : Bytes × Bytes}

/-- The index and the data iterator, if there is one, follow their lists, and the saved error is the
first of the data iterators that were let go of. -/
structure Ready (indexOps : IterOps τ) (dataOps : IterOps σ) (cmp : Comparator)
    (index : List (Bytes × Bytes)) (block : Bytes → List (Bytes × Bytes))
    (t : TwoLevelIterator τ σ) (ic : Cursor (Bytes × Bytes)) : Prop where
  follows : indexOps.Follows cmp index t.indexIter ic
  isOver : ic.Over index
  data : ∀ s, t.dataIter = some s → ∃ o, dataOps.At cmp (block t.dataBlockHandle) s o
  saved : t.saved = firstError (t.discarded.map dataOps.status)

/-- The data iterator is in the block of an index entry. -/
structure InBlock (dataOps : IterOps σ) (cmp : Comparator) (block : Bytes → List (Bytes × Bytes))
    (t : TwoLevelIterator τ σ) (e : Bytes × Bytes) (dc : Cursor (Bytes × Bytes)) : Prop where
  handle : t.dataBlockHandle = e.2
  data : ∃ s, t.dataIter = some s ∧ dataOps.Follows cmp (block e.2) s dc
  isOver : dc.Over (block e.2)

/-- The iterator shows what a cursor over the entries of all blocks shows. -/
inductive Shows (indexOps : IterOps τ) (dataOps : IterOps σ) (cmp : Comparator)
    (index : List (Bytes × Bytes)) (block : Bytes → List (Bytes × Bytes))
    (t : TwoLevelIterator τ σ) : Cursor (Bytes × Bytes) → Prop
  | invalid (ic : Cursor (Bytes × Bytes)) : Ready indexOps dataOps cmp index block t ic →
      t.dataIter = none → Shows indexOps dataOps cmp index block t .invalid
  | on (before after db da : List (Bytes × Bytes)) (e x : Bytes × Bytes) :
      Ready indexOps dataOps cmp index block t (.on before e after) →
      InBlock dataOps cmp block t e (.on db x da) → Shows indexOps dataOps cmp index block t
        (.on (db ++ ahead block .reverse before) x (da ++ ahead block .forward after))

theorem shows_facing
    (hready : Ready indexOps dataOps cmp index block t (.facing direction before e after))
    (hblock : InBlock dataOps cmp block t e (.facing direction db x da)) :
    Shows indexOps dataOps cmp index block t (.facing direction
      (db ++ ahead block direction.opposite before) x (da ++ ahead block direction after)) := by
  cases direction with
  | forward => exact .on before after db da e x hready hblock
  | reverse => exact .on after before da db e x hready hblock

theorem Shows.facing {c : Cursor (Bytes × Bytes)} (h : Shows indexOps dataOps cmp index block t c)
    (hx : c.current? = some x) (direction : Direction) :
    ∃ before e after db da, Ready indexOps dataOps cmp index block t
        (.facing direction before e after) ∧
      InBlock dataOps cmp block t e (.facing direction db x da) ∧
      c = .facing direction (db ++ ahead block direction.opposite before) x
        (da ++ ahead block direction after) := by
  cases h with
  | invalid => exact nomatch hx
  | on before after db da e x hready hblock =>
    obtain rfl := Option.some.inj hx
    cases direction with
    | forward => exact ⟨before, e, after, db, da, hready, hblock, rfl⟩
    | reverse => exact ⟨after, e, before, da, db, hready, hblock, rfl⟩

section Moves

theorem mem_of_over (h : ic.Over index) (he : ic.current? = some e) : e ∈ index := by
  cases ic with
  | invalid => exact nomatch he
  | on before a after =>
    obtain rfl := Option.some.inj he
    rw [← h]
    exact List.mem_append_right _ List.mem_cons_self

variable {dataIter : Option σ}

@[simp] theorem setDataIterator_dataIter :
    (t.setDataIterator dataOps dataIter).dataIter = dataIter := by
  rw [setDataIterator]
  split <;> rfl

@[simp] theorem setDataIterator_indexIter :
    (t.setDataIterator dataOps dataIter).indexIter = t.indexIter := by
  rw [setDataIterator]
  split
  · rw [saveError]
    split <;> rfl
  · rfl

@[simp] theorem setDataIterator_dataBlockHandle :
    (t.setDataIterator dataOps dataIter).dataBlockHandle = t.dataBlockHandle := by
  rw [setDataIterator]
  split
  · rw [saveError]
    split <;> rfl
  · rfl

/-- The error of a data iterator that is let go of is saved unless there was one before. -/
theorem setDataIterator_saved (h : t.saved = firstError (t.discarded.map dataOps.status)) :
    (t.setDataIterator dataOps dataIter).saved =
      firstError ((t.setDataIterator dataOps dataIter).discarded.map dataOps.status) := by
  rw [setDataIterator]
  split
  · rw [List.map_append, List.map_singleton, firstError_concat, ← h, saveError]
    split <;> rfl
  · exact h

theorem Ready.setDataIterator (h : Ready indexOps dataOps cmp index block t ic)
    (hdata : ∀ s, dataIter = some s → ∃ o, dataOps.At cmp (block t.dataBlockHandle) s o) :
    Ready indexOps dataOps cmp index block (t.setDataIterator dataOps dataIter) ic := by
  refine ⟨?_, h.isOver, ?_, setDataIterator_saved h.saved⟩
  · rw [setDataIterator_indexIter]
    exact h.follows
  · rw [setDataIterator_dataIter, setDataIterator_dataBlockHandle]
    exact hdata

theorem Ready.moveIndex {move : τ → τ} {ic' : Cursor (Bytes × Bytes)}
    (h : Ready indexOps dataOps cmp index block t ic)
    (hfollows : indexOps.Follows cmp index (move t.indexIter) ic') (hover : ic'.Over index) :
    Ready indexOps dataOps cmp index block (t.moveIndex move) ic' :=
  ⟨hfollows, hover, h.data, h.saved⟩

/-- Without an index entry the data iterator is let go of. -/
theorem Ready.initDataBlock_invalid (h : Ready indexOps dataOps cmp index block t .invalid) :
    Ready indexOps dataOps cmp index block (t.initDataBlock indexOps dataOps blockFunction)
        .invalid ∧
      (t.initDataBlock indexOps dataOps blockFunction).dataIter = none := by
  have hinvalid : ¬ indexOps.valid t.indexIter = true := by
    rw [IterOps.valid_iff, h.follows.shown?]
    exact Bool.false_ne_true
  rw [initDataBlock, if_neg hinvalid]
  exact ⟨h.setDataIterator (fun _ h => nomatch h), setDataIterator_dataIter⟩

/-- At an index entry the data iterator is one over its block. -/
theorem Ready.initDataBlock (hblocks : ∀ e ∈ index, ∃ o,
      dataOps.At cmp (block e.2) (blockFunction e.2) o)
    (h : Ready indexOps dataOps cmp index block t ic) (he : ic.current? = some e) :
    Ready indexOps dataOps cmp index block (t.initDataBlock indexOps dataOps blockFunction) ic ∧
      ∃ dc, InBlock dataOps cmp block (t.initDataBlock indexOps dataOps blockFunction) e dc := by
  have hentry : indexOps.shown? t.indexIter = some e := h.follows.shown?.trans he
  have hvalid : indexOps.valid t.indexIter = true := IterOps.valid_iff.mpr (by rw [hentry]; rfl)
  rw [TwoLevelIterator.initDataBlock, if_pos hvalid, IterOps.value_eq hentry]
  dsimp only
  split
  · -- the data iterator of the block is kept
    rename_i hkept
    obtain ⟨s, hs⟩ := Option.isSome_iff_exists.mp hkept.1
    obtain ⟨o, dc, hdc, hover, -⟩ := h.data s hs
    rw [← hkept.2] at hdc hover
    exact ⟨h, dc, hkept.2.symm, ⟨s, hs, hdc⟩, hover⟩
  · obtain ⟨o, hat⟩ := hblocks e (mem_of_over h.isOver he)
    -- the new handle is of the new data iterator, but the old one is still to be let go of
    have hsaved := @setDataIterator_saved _ _ dataOps { t with dataBlockHandle := e.2 }
      (some (blockFunction e.2)) h.saved
    refine ⟨⟨?_, h.isOver, ?_, hsaved⟩, ?_⟩
    · rw [setDataIterator_indexIter]
      exact h.follows
    · rw [setDataIterator_dataIter, setDataIterator_dataBlockHandle]
      rintro s ⟨⟩
      exact ⟨o, hat⟩
    · obtain ⟨dc, hdc, hover, -⟩ := hat
      exact ⟨dc, setDataIterator_dataBlockHandle, ⟨_, setDataIterator_dataIter, hdc⟩, hover⟩

/-- The data iterator moves in its block. -/
theorem Ready.moveData {move : σ → σ} {dc' : Cursor (Bytes × Bytes)}
    (h : Ready indexOps dataOps cmp index block t ic) (hblock : InBlock dataOps cmp block t e dc)
    (hmove : ∀ s, dataOps.Follows cmp (block e.2) s dc →
      dataOps.Follows cmp (block e.2) (move s) dc')
    (hover : dc'.Over (block e.2)) :
    Ready indexOps dataOps cmp index block (t.moveData move) ic ∧
      InBlock dataOps cmp block (t.moveData move) e dc' := by
  obtain ⟨s, hs, hfollows⟩ := hblock.data
  have hmoved : (t.moveData move).dataIter = some (move s) := congrArg (Option.map move) hs
  refine ⟨⟨h.follows, h.isOver, fun s' hs' => ?_, h.saved⟩,
    hblock.handle, ⟨move s, hmoved, hmove s hfollows⟩, hover⟩
  obtain rfl := Option.some.inj (hmoved.symm.trans hs')
  change ∃ o, dataOps.At cmp (block t.dataBlockHandle) (move s) o
  rw [hblock.handle]
  exact ⟨_, dc', hmove s hfollows, hover, rfl⟩

/-- The index gets to an entry, and the data iterator to its place in the block. -/
theorem Ready.enterBlock (hblocks : ∀ e ∈ index, ∃ o,
      dataOps.At cmp (block e.2) (blockFunction e.2) o)
    {move : τ → τ} {dataMove : σ → σ} {ic' : Cursor (Bytes × Bytes)}
    (h : Ready indexOps dataOps cmp index block t ic')
    (hfollows : indexOps.Follows cmp index (move t.indexIter) ic) (hover : ic.Over index)
    (he : ic.current? = some e) (hdc : dc.Over (block e.2))
    (hmove : ∀ s c, dataOps.Follows cmp (block e.2) s c →
      dataOps.Follows cmp (block e.2) (dataMove s) dc) :
    Ready indexOps dataOps cmp index block (((t.moveIndex move).initDataBlock indexOps dataOps
        blockFunction).moveData dataMove) ic ∧
      InBlock dataOps cmp block (((t.moveIndex move).initDataBlock indexOps dataOps
        blockFunction).moveData dataMove) e dc := by
  obtain ⟨hready, c, hblock⟩ := (h.moveIndex hfollows hover).initDataBlock hblocks he
  exact hready.moveData hblock (fun s => hmove s c) hdc

/-- The index gets to its end. -/
theorem Ready.leaveBlocks {move : τ → τ} {dataMove : σ → σ} {ic' : Cursor (Bytes × Bytes)}
    (h : Ready indexOps dataOps cmp index block t ic')
    (hfollows : indexOps.Follows cmp index (move t.indexIter) .invalid) :
    Ready indexOps dataOps cmp index block (((t.moveIndex move).initDataBlock indexOps dataOps
        blockFunction).moveData dataMove) .invalid ∧
      (((t.moveIndex move).initDataBlock indexOps dataOps blockFunction).moveData
        dataMove).dataIter = none := by
  obtain ⟨hready, hnone⟩ := @Ready.initDataBlock_invalid _ _ _ _ blockFunction _ _ _ _
    (h.moveIndex hfollows trivial)
  have hmoved : Option.map dataMove
      ((t.moveIndex move).initDataBlock indexOps dataOps blockFunction).dataIter = none := by
    rw [hnone]
    rfl
  exact ⟨⟨hready.follows, trivial, (fun s hs => nomatch hmoved.symm.trans hs), hready.saved⟩,
    hmoved⟩

end Moves

section Loops

variable {fuel : Nat}

theorem InBlock.valid_eq (h : InBlock dataOps cmp block t e dc) :
    t.valid dataOps = dc.current?.isSome := by
  obtain ⟨s, hs, hfollows⟩ := h.data
  rw [valid, hs, Option.map_some, Option.getD_some, ← hfollows.shown?, Bool.eq_iff_iff,
    IterOps.valid_iff]

theorem along_reverse (l : List (Bytes × Bytes)) (direction : Direction) :
    (Cursor.along l direction).reverse = Cursor.along l direction.opposite := by
  cases direction with
  | forward => rfl
  | reverse => exact List.reverse_reverse l

/-- The blocks of an index, read in a direction. -/
theorem along_joined : Cursor.along (joined block index) direction =
    ahead block direction (Cursor.along index direction) := by
  cases direction with
  | forward => rfl
  | reverse => exact List.reverse_flatMap

theorem length_of_over (h : (Cursor.facing direction before e after).Over index) :
    before.length + 1 + after.length = index.length := by
  have hlength := congrArg List.length (Cursor.along_of_over h)
  have halong : (Cursor.along index direction).length = index.length := by
    cases direction <;> simp [Cursor.along]
  simp only [halong, List.length_append, List.length_reverse, List.length_cons] at hlength
  omega

section Rounds

variable {indexMove : τ → τ} {dataMove : σ → σ}

theorem skip_done (hvalid : t.valid dataOps = true) :
    t.skipEmptyDataBlocks indexOps dataOps blockFunction indexMove dataMove (fuel + 1) =
      some t := by
  rw [skipEmptyDataBlocks, if_pos hvalid]

theorem skip_round (hvalid : t.valid dataOps = false) (hindex : indexOps.valid t.indexIter = true) :
    t.skipEmptyDataBlocks indexOps dataOps blockFunction indexMove dataMove (fuel + 1) =
      (((t.moveIndex indexMove).initDataBlock indexOps dataOps blockFunction).moveData
        dataMove).skipEmptyDataBlocks indexOps dataOps blockFunction indexMove dataMove fuel := by
  rw [skipEmptyDataBlocks, if_neg (by rw [hvalid]; exact Bool.false_ne_true), if_pos hindex]

theorem skip_end (hvalid : t.dataIter = none) (hindex : indexOps.valid t.indexIter = false) :
    t.skipEmptyDataBlocks indexOps dataOps blockFunction indexMove dataMove (fuel + 1) =
      some (t.setDataIterator dataOps none) := by
  rw [skipEmptyDataBlocks, valid, hvalid, hindex]
  rfl

end Rounds

/-- At the end of the index the loop ends. -/
theorem skip_shows_end {move indexMove : τ → τ} {dataMove dataMove' : σ → σ}
    (h : Ready indexOps dataOps cmp index block t ic)
    (hfollows : indexOps.Follows cmp index (move t.indexIter) .invalid) :
    ∃ t', (((t.moveIndex move).initDataBlock indexOps dataOps blockFunction).moveData
        dataMove).skipEmptyDataBlocks indexOps dataOps blockFunction indexMove dataMove'
          (fuel + 1) = some t' ∧
      Shows indexOps dataOps cmp index block t' .invalid := by
  obtain ⟨hready, hnone⟩ := @Ready.leaveBlocks _ _ _ _ blockFunction _ _ _ _ _ dataMove _ h hfollows
  refine ⟨_, skip_end hnone ?_, ?_⟩
  · rw [Bool.eq_false_iff, Ne, IterOps.valid_iff, hready.follows.shown?]
    exact Bool.false_ne_true
  · exact .invalid _ (hready.setDataIterator (fun _ h => nomatch h)) setDataIterator_dataIter

/-- At an entry the loop ends. -/
theorem skip_shows_entry {indexMove : τ → τ} {dataMove : σ → σ} {passed rest : List (Bytes × Bytes)}
    (h : Ready indexOps dataOps cmp index block t (.facing direction before e after))
    (hblock : InBlock dataOps cmp block t e (.enter direction passed (x :: rest))) :
    ∃ t', t.skipEmptyDataBlocks indexOps dataOps blockFunction indexMove dataMove (fuel + 1) =
        some t' ∧
      Shows indexOps dataOps cmp index block t' (.enter direction
        (passed ++ ahead block direction.opposite before)
        (x :: rest ++ ahead block direction after)) := by
  refine ⟨t, skip_done ?_, shows_facing h hblock⟩
  rw [hblock.valid_eq, Cursor.enter, Cursor.current?_facing]
  rfl

/-- The loop in a direction, from a place in a block: it ends at the next entry. -/
theorem skip_shows (hblocks : ∀ e ∈ index, ∃ o, dataOps.At cmp (block e.2) (blockFunction e.2) o)
    {passed rest : List (Bytes × Bytes)}
    (h : Ready indexOps dataOps cmp index block t (.facing direction before e after))
    (hblock : InBlock dataOps cmp block t e (.enter direction passed rest))
    (hsplit : Cursor.along (block e.2) direction = passed.reverse ++ rest)
    (hfuel : after.length + 2 ≤ fuel) :
    ∃ t', t.skipEmptyDataBlocks indexOps dataOps blockFunction (indexOps.step direction)
        (dataOps.start direction) fuel = some t' ∧
      Shows indexOps dataOps cmp index block t' (.enter direction
        (passed ++ ahead block direction.opposite before)
        (rest ++ ahead block direction after)) := by
  -- each round takes one entry of the index away from those in front
  induction after generalizing t before e passed rest fuel with
  | nil =>
    obtain ⟨fuel, rfl⟩ : ∃ k, fuel = k + 1 + 1 := Nat.exists_eq_add_of_le' hfuel
    cases rest with
    | cons x rest => exact skip_shows_entry h hblock
    | nil =>
      have hstep := @IterOps.Follows.step _ _ _ _ _ _ direction h.follows
        (by rw [Cursor.current?_facing]; rfl)
      rw [Cursor.step_facing] at hstep
      rw [skip_round hblock.valid_eq (by
        rw [IterOps.valid_iff, h.follows.shown?, Cursor.current?_facing]
        rfl)]
      exact skip_shows_end h hstep
  | cons e' after ih =>
    rw [List.length_cons] at hfuel
    obtain ⟨fuel, rfl⟩ := Nat.exists_eq_add_one_of_ne_zero (Nat.ne_zero_of_lt hfuel)
    cases rest with
    | cons x rest => exact skip_shows_entry h hblock
    | nil =>
      have hstep := @IterOps.Follows.step _ _ _ _ _ _ direction h.follows
        (by rw [Cursor.current?_facing]; rfl)
      have hover := @Cursor.Over.step _ direction _ _ h.isOver
      rw [Cursor.step_facing, Cursor.enter] at hstep hover
      have hstart : (Cursor.enter direction [] (Cursor.along (block e'.2) direction)).Over
          (block e'.2) := Cursor.over_enter
      obtain ⟨hready, hentered⟩ := h.enterBlock hblocks hstep hover Cursor.current?_facing hstart
        fun s c hc => hc.start
      obtain ⟨t', hskip, hshows⟩ := ih hready hentered rfl
        (show after.length + 2 ≤ fuel by omega)
      refine ⟨t', (skip_round hblock.valid_eq ?_).trans hskip, ?_⟩
      · rw [IterOps.valid_iff, h.follows.shown?, Cursor.current?_facing]
        rfl
      · rw [List.append_nil] at hsplit
        have hpassed : passed = Cursor.along (block e.2) direction.opposite := by
          rw [← along_reverse, hsplit, List.reverse_reverse]
        rw [hpassed]
        exact hshows

/-- Where a search of all entries ends: in the block that the index finds, or behind it. -/
theorem seek_joined {target : Bytes} {passed rest : List (Bytes × Bytes)}
    (hindexed : IndexedBlocks cmp (before.reverse ++ e :: after) block)
    (he : cmp.compare e.1 target ≠ .lt)
    (hbelow : ∀ e ∈ before.reverse, cmp.compare e.1 target = .lt)
    (hsplit : passed.reverse ++ rest = block e.2)
    (hpassed : ∀ x ∈ passed, decide (cmp.compare x.1 target ≠ .lt) = false)
    (hrest : ∀ x ∈ rest.head?, decide (cmp.compare x.1 target ≠ .lt) = true) :
    Cursor.seek (fun p => cmp.compare p.1 target ≠ .lt)
        (joined block (before.reverse ++ e :: after)) =
      .enter .forward (passed ++ ahead block .reverse before)
        (rest ++ ahead block .forward after) := by
  have hjoined : joined block (before.reverse ++ e :: after) =
      (joined block before.reverse ++ passed.reverse) ++ (rest ++ joined block after) := by
    rw [joined, List.flatMap_append, List.flatMap_cons, ← hsplit]
    simp [joined]
  have hfront : Cursor.along (joined block before.reverse) .reverse =
      ahead block .reverse (Cursor.along before.reverse .reverse) := along_joined
  rw [Cursor.along, Cursor.along, List.reverse_reverse] at hfront
  have hlt := hindexed.joined_lt (fun e he => List.mem_append_left _ he) hbelow
  rw [hjoined, Cursor.seek, Cursor.seekFrom_append_of_passed, Cursor.seekFrom_of_head,
    List.reverse_append, List.reverse_reverse, hfront, List.append_nil]
  · rfl
  · intro x hx
    cases rest with
    | cons y rest => exact hrest x hx
    | nil =>
      have hbehind : cmp.comparePair (e.1, []) x = .lt :=
        hindexed.of_append.below_joined x (List.mem_of_mem_head? hx)
      rw [decide_eq_true_iff]
      intro hx'
      have hxt : cmp.comparePair x (target, []) = .lt := hx'
      exact he (Std.TransCmp.lt_trans hbehind hxt)
  · intro x hx
    rcases List.mem_append.mp hx with hx | hx
    · simpa using hlt x hx
    · exact hpassed x (List.mem_reverse.mp hx)

variable (hblocks : ∀ e ∈ index, ∃ o, dataOps.At cmp (block e.2) (blockFunction e.2) o)
  (hfuel : index.length < fuel)

include hblocks hfuel

/-- `SeekToFirst` and `SeekToLast`. -/
theorem start_shows (h : Ready indexOps dataOps cmp index block t ic) (direction : Direction) :
    ∃ t', (((t.moveIndex (indexOps.start direction)).initDataBlock indexOps dataOps
        blockFunction).moveData (dataOps.start direction)).skipEmptyDataBlocks indexOps dataOps
          blockFunction (indexOps.step direction) (dataOps.start direction) fuel = some t' ∧
      Shows indexOps dataOps cmp index block t'
        (.enter direction [] (Cursor.along (joined block index) direction)) := by
  have hstart := @IterOps.Follows.start _ _ _ _ _ _ direction h.follows
  have hover : (Cursor.enter direction [] (Cursor.along index direction)).Over index :=
    Cursor.over_enter
  rw [along_joined]
  cases halong : Cursor.along index direction with
  | nil =>
    rw [halong] at hstart
    obtain ⟨fuel, rfl⟩ := Nat.exists_eq_add_one_of_ne_zero (Nat.ne_zero_of_lt hfuel)
    exact skip_shows_end h hstart
  | cons e after =>
    rw [halong, Cursor.enter] at hstart hover
    have hblock : (Cursor.enter direction [] (Cursor.along (block e.2) direction)).Over
        (block e.2) := Cursor.over_enter
    obtain ⟨hready, hentered⟩ := h.enterBlock hblocks hstart hover Cursor.current?_facing hblock
      fun s c hc => hc.start
    have hlength := length_of_over hover
    rw [List.length_nil] at hlength
    exact skip_shows hblocks hready hentered rfl (by omega)

/-- `Next` and `Prev`. -/
theorem step_shows {c : Cursor (Bytes × Bytes)} (h : Shows indexOps dataOps cmp index block t c)
    (hx : c.current? = some x) (direction : Direction) :
    ∃ t', (t.moveData (dataOps.step direction)).skipEmptyDataBlocks indexOps dataOps blockFunction
        (indexOps.step direction) (dataOps.start direction) fuel = some t' ∧
      Shows indexOps dataOps cmp index block t' (c.step direction) := by
  obtain ⟨before, e, after, db, da, hready, hblock, rfl⟩ := h.facing hx direction
  have hover := @Cursor.Over.step _ direction _ _ hblock.isOver
  have hsplit : Cursor.along (block e.2) direction = (x :: db).reverse ++ da := by
    rw [Cursor.along_of_over hblock.isOver]
    simp
  rw [Cursor.step_facing] at hover
  obtain ⟨hready', hblock'⟩ := hready.moveData hblock (fun s hs => by
    have hstep := @IterOps.Follows.step _ _ _ _ _ _ direction hs
      (by rw [Cursor.current?_facing]; rfl)
    rwa [Cursor.step_facing] at hstep) hover
  have hlength := length_of_over hready.isOver
  rw [Cursor.step_facing]
  exact skip_shows hblocks hready' hblock' hsplit (show after.length + 2 ≤ fuel by omega)

/-- `Seek`: the entries of the blocks in front of the one that the index finds are below the target,
and those of the blocks behind it are not. -/
theorem seek_shows (hindexed : IndexedBlocks cmp index block)
    (h : Ready indexOps dataOps cmp index block t ic) (target : Bytes) :
    ∃ t', t.seek indexOps dataOps blockFunction fuel target = some t' ∧
      Shows indexOps dataOps cmp index block t'
        (Cursor.seek (fun p => cmp.compare p.1 target ≠ .lt) (joined block index)) := by
  have hseek := h.follows.call (.seek target) trivial
  rcases Cursor.seek_passed (fun p => cmp.compare p.1 target ≠ .lt) index with
    ⟨hend, hbelow⟩ | ⟨before, e, after, hfound, hindex, he, hbelow⟩
  · rw [Cursor.call, hend] at hseek
    obtain ⟨fuel, rfl⟩ := Nat.exists_eq_add_one_of_ne_zero (Nat.ne_zero_of_lt hfuel)
    have hlt := hindexed.joined_lt (fun e he => he) fun e he => by simpa using hbelow e he
    rw [Cursor.seek, ← List.append_nil (joined block index),
      Cursor.seekFrom_append_of_passed (fun x hx => by simpa using hlt x hx)]
    exact skip_shows_end h hseek
  · rw [Cursor.call, hfound] at hseek
    subst hindex
    obtain ⟨passed, rest, hdata, hsplit, hpassed, hrest⟩ :=
      Cursor.seek_eq_enter (fun p => cmp.compare p.1 target ≠ .lt) (block e.2)
    have hblock : (Cursor.seek (fun p => cmp.compare p.1 target ≠ .lt) (block e.2)).Over
        (block e.2) := Cursor.over_seek _
    rw [hdata] at hblock
    obtain ⟨hready, hentered⟩ := h.enterBlock hblocks hseek rfl rfl hblock (fun s c hc => by
      rw [← hdata]
      exact hc.call (.seek target) trivial)
    have hlength : (before.reverse ++ e :: after).length < fuel := hfuel
    rw [List.length_append, List.length_cons] at hlength
    obtain ⟨t', hskip, hshows⟩ := @skip_shows _ _ _ _ _ _ _ _ _ .forward _ _ _ _ hblocks _ _ hready
      hentered hsplit.symm (show after.length + 2 ≤ fuel by omega)
    refine ⟨t', hskip, ?_⟩
    rw [seek_joined hindexed (by simpa using he) (fun e he => by
      simpa using hbelow e (List.mem_reverse.mp he)) hsplit hpassed hrest]
    exact hshows

end Loops

section Runs

variable {c : Cursor (Bytes × Bytes)} {fuel : Nat}

theorem Shows.ready (h : Shows indexOps dataOps cmp index block t c) :
    ∃ ic, Ready indexOps dataOps cmp index block t ic := by
  cases h with
  | invalid ic hready _ => exact ⟨ic, hready⟩
  | on before after db da e x hready _ => exact ⟨_, hready⟩

theorem Shows.shown? (h : Shows indexOps dataOps cmp index block t c) :
    t.shown? dataOps = c.current? := by
  cases h with
  | invalid ic _ hnone =>
    rw [TwoLevelIterator.shown?, valid, hnone]
    rfl
  | on before after db da e x hready hblock =>
    obtain ⟨s, hs, hfollows⟩ := hblock.data
    have hentry : dataOps.shown? s = some x := hfollows.shown?
    have hvalid : t.valid dataOps = true := hblock.valid_eq
    rw [TwoLevelIterator.shown?, if_pos hvalid, key, value, hs]
    exact congrArg some (Prod.ext (IterOps.key_eq hentry) (IterOps.value_eq hentry))

/-- The statuses of the index, the data iterator and those that were let go of. -/
def statuses (indexOps : IterOps τ) (dataOps : IterOps σ) (t : TwoLevelIterator τ σ) :
    List Status :=
  indexOps.status t.indexIter ::
    (t.dataIter.toList.map dataOps.status ++ t.discarded.map dataOps.status)

theorem Ready.status_eq (h : Ready indexOps dataOps cmp index block t ic) :
    t.status indexOps dataOps = firstError (t.statuses indexOps dataOps) := by
  rw [status, statuses, firstError_cons, h.saved]
  cases t.dataIter with
  | none => rfl
  | some s =>
    rw [Option.toList_some, List.map_singleton, List.singleton_append, firstError_cons]

/-- The iterator shows what the cursor shows and reports the first error there is, at first and
after each of the calls; `Next` and `Prev` are called only while it is valid. -/
def AgreesWith (indexOps : IterOps τ) (dataOps : IterOps σ) (blockFunction : Bytes → σ)
    (cmp : Comparator) (entries : List (Bytes × Bytes)) (fuel : Nat) (t : TwoLevelIterator τ σ)
    (c : Cursor (Bytes × Bytes)) : List IterCall → Prop
  | [] => t.shown? dataOps = c.current? ∧
      t.status indexOps dataOps = firstError (t.statuses indexOps dataOps)
  | call :: calls => (t.shown? dataOps = c.current? ∧
        t.status indexOps dataOps = firstError (t.statuses indexOps dataOps)) ∧
      (((call = .next ∨ call = .prev) → t.valid dataOps = true) →
        ∃ t', t.call indexOps dataOps blockFunction fuel call = some t' ∧
          AgreesWith indexOps dataOps blockFunction cmp entries fuel t' (c.call cmp entries call)
            calls)

/-- A call ends, and keeps what is shown. -/
theorem Shows.call (hindexed : IndexedBlocks cmp index block)
    (hblocks : ∀ e ∈ index, ∃ o, dataOps.At cmp (block e.2) (blockFunction e.2) o)
    (hfuel : index.length < fuel) (h : Shows indexOps dataOps cmp index block t c) (call : IterCall)
    (hallowed : (call = .next ∨ call = .prev) → t.valid dataOps = true) :
    ∃ t', t.call indexOps dataOps blockFunction fuel call = some t' ∧
      Shows indexOps dataOps cmp index block t' (c.call cmp (joined block index) call) := by
  obtain ⟨ic, hready⟩ := h.ready
  have hshown : t.valid dataOps = true → ∃ x, c.current? = some x := by
    intro hvalid
    rw [← h.shown?, TwoLevelIterator.shown?, if_pos hvalid]
    exact ⟨_, rfl⟩
  cases call with
  | seekToFirst =>
    have := start_shows hblocks hfuel hready .forward
    rwa [← Cursor.first_eq_enter] at this
  | seekToLast =>
    have := start_shows hblocks hfuel hready .reverse
    rwa [← Cursor.last_eq_enter] at this
  | seek target => exact seek_shows hblocks hfuel hindexed hready target
  | next =>
    obtain ⟨x, hx⟩ := hshown (hallowed (.inl rfl))
    exact step_shows hblocks hfuel h hx .forward
  | prev =>
    obtain ⟨x, hx⟩ := hshown (hallowed (.inr rfl))
    exact step_shows hblocks hfuel h hx .reverse

/-- The two-level iterator over an index and its blocks shows what a cursor over the concatenation
of the blocks shows, after every sequence of calls, and reports the first error of the index, its
data iterator and those that it has let go of. No call takes more rounds than the index has entries
and one. -/
theorem agreesWith_joined {indexIter : τ} (hindexed : IndexedBlocks cmp index block)
    (hindex : ∃ o, indexOps.At cmp index indexIter o)
    (hblocks : ∀ e ∈ index, ∃ o, dataOps.At cmp (block e.2) (blockFunction e.2) o)
    (hfuel : index.length < fuel) (calls : List IterCall) :
    AgreesWith indexOps dataOps blockFunction cmp (joined block index) fuel (new indexIter) .invalid
      calls := by
  obtain ⟨o, ic, hic, hover, -⟩ := hindex
  have hnew : Shows indexOps dataOps cmp index block (new indexIter) .invalid :=
    .invalid ic ⟨hic, hover, (fun _ h => nomatch h), rfl⟩ rfl
  -- what is shown is kept by every call
  have hrun : ∀ calls t c, Shows indexOps dataOps cmp index block t c →
      AgreesWith indexOps dataOps blockFunction cmp (joined block index) fuel t c calls := by
    intro calls
    induction calls with
    | nil =>
      intro t c h
      obtain ⟨ic, hready⟩ := h.ready
      exact ⟨h.shown?, hready.status_eq⟩
    | cons call calls ih =>
      intro t c h
      obtain ⟨ic, hready⟩ := h.ready
      refine ⟨⟨h.shown?, hready.status_eq⟩, fun hallowed => ?_⟩
      obtain ⟨t', hcall, h'⟩ := h.call hindexed hblocks hfuel call hallowed
      exact ⟨t', hcall, ih t' _ h'⟩
  exact hrun calls _ _ hnew

/-- Three blocks, of which the second has no entries. -/
def threeBlocks (handle : Bytes) : List (Bytes × Bytes) :=
  if handle = [0] then [([1], [10]), ([3], [30])] else if handle = [2] then [([7], [70])] else []

theorem agreesWith_joined_threeBlocks :
    AgreesWith (cursorOps bytewiseComparator) (cursorOps bytewiseComparator)
      (fun handle => (threeBlocks handle, .invalid)) bytewiseComparator
      (joined threeBlocks [([4], [0]), ([5], [1]), ([9], [2])]) 4
      (new ([([4], [0]), ([5], [1]), ([9], [2])], .invalid)) .invalid
      [.seek [4], .prev, .next, .seekToLast, .next, .seekToFirst] := by
  have hat : ∀ l : List (Bytes × Bytes),
      ∃ o, (cursorOps bytewiseComparator).At bytewiseComparator l (l, .invalid) o :=
    fun l => ⟨none, .invalid, cursorOps_follows l .invalid, trivial, rfl⟩
  refine agreesWith_joined ⟨by decide, ?_, by decide, by decide⟩ (hat _) (fun e _ => hat _)
    (by decide) _
  unfold Increasing
  decide

end Runs

end TwoLevelIterator

end WiscKey
