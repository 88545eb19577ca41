import WiscKey.Iterator.Interface
import WiscKey.Table.BlockRoundTrip

/-!
# The iterator of a block

The rounds of a call are run until the iterator is between two calls again. Over a block that was
built from entries it shows what a cursor over them shows, and never has an error.
-/

namespace WiscKey

/-- The status of an iterator, also in a round. -/
def BlockMachine.status : BlockMachine → Status
  | .empty status => status
  | .idle it => it.status
  | .bisect _ _ _ it => it.status
  | .restart _ _ it => it.status
  | .scan _ it => it.status
  | .back _ it => it.status

/-- A call, as one of a block's iterator. -/
def IterCall.blockCall : IterCall → BlockCall
  | .seekToFirst => .seekToFirst
  | .seekToLast => .seekToLast
  | .seek target => .seek target
  | .next => .next
  | .prev => .prev

/-- An iterator with its block. One that stays in a round has no round behind it: a program that
was stopped, or that is not known to stop. -/
structure BlockIterator where
  block : Block
  machine : BlockMachine
  deriving DecidableEq, Repr

namespace BlockIterator

variable (cmp : Comparator)

/-- At most so many rounds. -/
def settle (b : Block) : Nat → BlockMachine → BlockMachine
  | 0, m => m
  | rounds + 1, m =>
    match b.step cmp m with
    | some m' => settle b rounds m'
    | none => m

/-- `Block::NewIterator`. -/
def new (b : Block) : BlockIterator := ⟨b, b.newIterator⟩

/-- `NewErrorIterator`. -/
def newErrorIterator (status : Status) : BlockIterator := ⟨Block.new [], .empty status⟩

/-- A call and its rounds. -/
def move (s : BlockIterator) (c : IterCall) : BlockIterator :=
  match s.block.call s.machine c.blockCall with
  | some m => { s with machine := settle cmp s.block (s.block.rank m) m }
  | none => s

/-- The entry that the iterator is at. -/
def entry? (s : BlockIterator) : Option (Bytes × Bytes) :=
  match s.machine with
  | .idle it => s.block.entry it
  | _ => none

/-- The virtual functions. -/
def iterOps : IterOps BlockIterator where
  valid s := s.entry?.isSome
  key s := (s.entry?.map Prod.fst).getD []
  value s := (s.entry?.map Prod.snd).getD []
  status s := s.machine.status
  seekToFirst s := s.move cmp .seekToFirst
  seekToLast s := s.move cmp .seekToLast
  seek target s := s.move cmp (.seek target)
  next s := s.move cmp .next
  prev s := s.move cmp .prev

@[simp] theorem call_iterOps (s : BlockIterator) (c : IterCall) :
    (iterOps cmp).call s c = s.move cmp c := by
  cases c <;> rfl

@[simp] theorem shown?_iterOps (s : BlockIterator) : (iterOps cmp).shown? s = s.entry? := by
  cases h : s.entry? <;> simp [IterOps.shown?, iterOps, h]

end BlockIterator

namespace Block

variable {cmp : Comparator} {b : Block} {rows : List BlockRow} {points : List Nat}
  {goal : Option Nat} {it : BlockIter}

/-- An entry that is read is put in the place of another one. -/
theorem status_of_takeEntry {current : Nat} {e : Option BlockEntry} {it' : BlockIter}
    (h : b.takeEntry it current e = some (it', true)) : it'.status = it.status := by
  cases e with
  | none => cases h
  | some e =>
    rw [takeEntry] at h
    split_ifs at h
    · cases h
    · obtain ⟨delta, -, h⟩ := Option.bind_eq_some_iff.mp h
      obtain ⟨index, -, h⟩ := Option.bind_eq_some_iff.mp h
      cases h
      rfl

theorem status_of_parseNextKey {it' : BlockIter} (h : b.parseNextKey it = some (it', true)) :
    it'.status = it.status := by
  rw [parseNextKey] at h
  obtain ⟨current, -, h⟩ := Option.bind_eq_some_iff.mp h
  split_ifs at h
  · cases h
  · obtain ⟨e, -, h⟩ := Option.bind_eq_some_iff.mp h
    exact status_of_takeEntry h

/-- At a restart point a whole key is read. -/
theorem Laid.readPoint (hlaid : b.Laid rows points) {index r : Nat}
    (hr : points[index]? = some r) (hlt : r < rows.length) :
    ∃ e, b.decodeEntry (rowStart rows r) = some (some e) ∧ e.shared = 0 := by
  obtain ⟨ptr, hentry, hsum, -⟩ := hlaid.entryAt hlt
  have hend : rowStart rows (r + 1) ≤ rowStart rows rows.length := rowStart_mono hlt le_rfl
  rw [← hlaid.limit] at hend
  obtain ⟨e, he, hiff⟩ := hlaid.sound.decodeEntry (hlaid.noWrap hlt.le)
  rw [(hiff _).mpr ⟨hentry, by simp only; omega⟩] at he
  exact ⟨_, he, hlaid.ok.restart r (List.mem_of_getElem? hr) hlt⟩

/-- A round on the way to an entry meets no error. -/
theorem LeadsTo.status_step (hlaid : b.Laid rows points) {m m' : BlockMachine}
    (h : LeadsTo cmp b rows points goal m) (hstep : b.step cmp m = some m') :
    m'.status = m.status := by
  cases m with
  | empty | idle => cases hstep
  | restart index stop it =>
    obtain ⟨it', hit', rfl⟩ := Option.map_eq_some_iff.mp hstep
    obtain ⟨offset, -, rfl⟩ := Option.map_eq_some_iff.mp hit'
    rfl
  | back original it =>
    obtain ⟨point, -, hstep⟩ := Option.bind_eq_some_iff.mp hstep
    split_ifs at hstep <;> cases hstep <;> rfl
  | scan stop it =>
    obtain ⟨i, hbefore, -⟩ := h
    rcases Nat.lt_or_ge i rows.length with hi | hi
    · obtain ⟨it', hparse, -⟩ := hbefore.parse hlaid hi
      have hstatus := status_of_parseNextKey hparse
      rw [Block.step, hparse, Option.map_some, Option.some.injEq] at hstep
      split_ifs at hstep <;> cases hstep <;> exact hstatus
    · obtain rfl : i = rows.length := Nat.le_antisymm hbefore.le hi
      rw [Block.step, hbefore.parse_end hlaid] at hstep
      cases hstep
      rfl
  | bisect target left right it =>
    obtain ⟨-, hle, hright, r, hr, -⟩ := h
    rw [Block.step] at hstep
    split_ifs at hstep with hlt
    · have hsize := hlaid.size
      have harray := hlaid.sound.array
      have hmid : mid left right = (left + right + 1) / 2 := by
        rw [mid, Nat.mod_eq_of_lt (by omega)]
      obtain ⟨r', hr'⟩ : ∃ r', points[mid left right]? = some r' := hlaid.exists_point (by omega)
      have hrr' := points_lt hlaid.ok hr hr' (by omega)
      have hr'lt : r' < rows.length := by
        rcases hlaid.ok.inside r' (List.mem_of_getElem? hr') with hlt' | ⟨-, rfl⟩
        · exact hlt'
        · exact absurd hrr' (Nat.not_lt_zero r)
      obtain ⟨e, he, hshared⟩ := hlaid.readPoint hr' hr'lt
      rw [(hlaid.getRestartPoint hr').2, Option.bind_eq_bind, Option.bind_some, he,
        Option.bind_eq_bind, Option.bind_some] at hstep
      simp only [hshared, ne_eq, not_true_eq_false, if_false] at hstep
      obtain ⟨midKey, -, hstep⟩ := Option.bind_eq_some_iff.mp hstep
      split_ifs at hstep
      · rw [← Option.some.inj hstep, BlockMachine.status, BlockMachine.status]
      · rw [← Option.some.inj hstep, BlockMachine.status, BlockMachine.status]
    · cases hstep
      rfl

theorem settle_idle (rounds : Nat) : BlockIterator.settle cmp b rounds (.idle it) = .idle it := by
  cases rounds <;> rfl

/-- What leads to a place and is in no round rests there. -/
theorem LeadsTo.rests_of_not_busy {m : BlockMachine} (h : LeadsTo cmp b rows points goal m)
    (hbusy : ¬ Busy m) : ∃ it, m = .idle it ∧ Rests b rows points goal it := by
  cases m with
  | empty => exact h.elim
  | idle it => exact ⟨it, rfl, h⟩
  | bisect | restart | scan | back => exact absurd trivial hbusy

/-- The rounds on the way to an entry end there. -/
theorem LeadsTo.settle (hlaid : b.Laid rows points)
    (hkeys : rows.Pairwise fun r r' => cmp.compare r.key r'.key = .lt) {m : BlockMachine}
    {rounds : Nat} (h : LeadsTo cmp b rows points goal m) (hrounds : b.rank m ≤ rounds) :
    ∃ it, BlockIterator.settle cmp b rounds m = .idle it ∧ Rests b rows points goal it ∧
      it.status = m.status := by
  induction rounds generalizing m with
  | zero =>
    by_cases hbusy : Busy m
    · obtain ⟨m', -, -, hlt, -⟩ :=
        @Sound.step cmp _ hlaid.sound m (h.safe hlaid) hbusy (h.fits hlaid)
      exact absurd (Nat.lt_of_lt_of_le hlt hrounds) (Nat.not_lt_zero _)
    · obtain ⟨it, rfl, hrests⟩ := h.rests_of_not_busy hbusy
      exact ⟨it, settle_idle 0, hrests, rfl⟩
  | succ rounds ih =>
    by_cases hbusy : Busy m
    · obtain ⟨m', hstep, hleads⟩ := h.step hlaid hkeys hbusy
      obtain ⟨m'', hstep', -, hlt, -⟩ :=
        @Sound.step cmp _ hlaid.sound m (h.safe hlaid) hbusy (h.fits hlaid)
      rw [hstep, Option.some.injEq] at hstep'
      subst hstep'
      obtain ⟨it, hsettle, hrests, hstatus⟩ := ih hleads (by omega)
      refine ⟨it, ?_, hrests, hstatus.trans (h.status_step hlaid hstep)⟩
      rw [BlockIterator.settle, hstep]
      exact hsettle
    · obtain ⟨it, rfl, hrests⟩ := h.rests_of_not_busy hbusy
      exact ⟨it, settle_idle _, hrests, rfl⟩

end Block

/-- The entries of a block. -/
def rowEntries (rows : List BlockRow) : List (Bytes × Bytes) := rows.map fun r => (r.key, r.value)

theorem length_rowEntries (rows : List BlockRow) : (rowEntries rows).length = rows.length :=
  List.length_map _

namespace BlockIterator

variable {cmp : Comparator} {b : Block} {rows : List BlockRow} {points : List Nat}
  {goal : Option Nat} {s : BlockIterator}

/-- The iterator is between two calls, at the entry of a place or at none, without an error. -/
structure Settled (b : Block) (rows : List BlockRow) (points : List Nat) (goal : Option Nat)
    (s : BlockIterator) : Prop where
  block : s.block = b
  idle : ∃ it, s.machine = .idle it ∧ Block.Rests b rows points goal it ∧ it.status = .ok

theorem entry?_of_idle {it : BlockIter} (h : s.machine = .idle it) :
    s.entry? = s.block.entry it := by
  rw [BlockIterator.entry?, h]

theorem Settled.entry? (h : Settled b rows points goal s) (hlaid : b.Laid rows points) :
    s.entry? = (Cursor.atPlace (rowEntries rows) goal).current? := by
  obtain ⟨it, hmachine, hrests, -⟩ := h.idle
  rw [entry?_of_idle hmachine, h.block, hrests.entry hlaid, Cursor.current?_atPlace]
  rfl

theorem Settled.status (h : Settled b rows points goal s) : (iterOps cmp).status s = .ok := by
  obtain ⟨it, hmachine, -, hstatus⟩ := h.idle
  have hit : s.machine.status = it.status := by rw [hmachine, BlockMachine.status]
  exact hit.trans hstatus

/-- A new iterator is at no entry. -/
theorem settled_new (hlaid : b.Laid rows points) : Settled b rows points none (new b) := by
  refine ⟨rfl, ⟨b.restartOffset, b.num, [], none, .ok⟩, ?_, rfl, rfl⟩
  rw [new, Block.newIterator, if_neg (Nat.not_lt.mpr hlaid.accepted),
    if_neg (Nat.ne_of_gt hlaid.sound.pos)]

/-- The place that a call leads to is that of the cursor. -/
theorem atPlace_moved (c : IterCall) (hgoal : ∀ i, goal = some i → i < rows.length) :
    Cursor.atPlace (rowEntries rows) (Block.moved cmp rows goal c.blockCall) =
      (Cursor.atPlace (rowEntries rows) goal).call cmp (rowEntries rows) c := by
  have hlength := length_rowEntries rows
  cases c with
  | seekToFirst =>
    rw [Cursor.call, Cursor.first_eq_atIndex, ← Cursor.atPlace_of_lt, hlength]
    rfl
  | seekToLast =>
    rw [Cursor.call, Cursor.last_eq_atIndex, hlength, IterCall.blockCall, Block.moved]
    split_ifs with hnil
    · rw [Cursor.atIndex_of_le (by omega), Cursor.atPlace]
    · rfl
  | seek target =>
    rw [Cursor.call, Cursor.seek_eq_atPlace, rowEntries, List.findIdx?_map]
    rfl
  | next =>
    cases goal with
    | none => rfl
    | some i =>
      rw [Cursor.call, IterCall.blockCall, Block.moved, Option.bind_some, ← hlength,
        Cursor.atPlace_of_lt, Cursor.atPlace, Cursor.next_atIndex]
  | prev =>
    cases goal with
    | none => rfl
    | some i =>
      rw [Cursor.call, IterCall.blockCall, Block.moved, Option.bind_some, Cursor.atPlace]
      cases i with
      | zero => rw [Cursor.prev_atIndex_zero, if_pos rfl, Cursor.atPlace]
      | succ i =>
        have hlt := hgoal _ rfl
        rw [Cursor.prev_atIndex_succ (by omega), if_neg (Nat.succ_ne_zero i), Nat.add_sub_cancel,
          Cursor.atPlace]

/-- A call settles at its place. Where it is not allowed, the iterator stays. -/
theorem Settled.move (h : Settled b rows points goal s) (hlaid : b.Laid rows points)
    (hkeys : rows.Pairwise fun r r' => cmp.compare r.key r'.key = .lt) (c : IterCall) :
    Settled b rows points goal (s.move cmp c) ∧ ¬ (iterOps cmp).Allowed s c ∨
      Settled b rows points (Block.moved cmp rows goal c.blockCall) (s.move cmp c) := by
  obtain ⟨it, hmachine, hrests, hstatus⟩ := h.idle
  have hcall : s.block.call s.machine c.blockCall = b.start it c.blockCall := by
    rw [h.block, hmachine, Block.call]
  cases hstart : b.start it c.blockCall with
  | some m =>
    have hkept : m.status = it.status := by
      cases c with
      | seekToFirst | seekToLast | seek =>
        cases hstart
        rfl
      | next | prev =>
        rw [IterCall.blockCall, Block.start] at hstart
        split_ifs at hstart
        cases hstart
        rfl
    have hleads := hrests.start cmp hlaid hstart
    obtain ⟨it', hsettle, hrests', hstatus'⟩ := hleads.settle hlaid hkeys le_rfl
    right
    rw [BlockIterator.move, hcall, hstart]
    exact ⟨h.block, it', by rw [h.block]; exact hsettle, hrests',
      hstatus'.trans (hkept.trans hstatus)⟩
  | none =>
    left
    rw [BlockIterator.move, hcall, hstart]
    refine ⟨h, fun hallowed => ?_⟩
    have hentry : (iterOps cmp).valid s = true → b.valid it = true := by
      intro hvalid
      by_contra hinvalid
      have hnone : s.entry? = none := by
        rw [entry?_of_idle hmachine, h.block, Block.entry, if_neg hinvalid]
      simp [iterOps, hnone] at hvalid
    cases c with
    | seekToFirst | seekToLast | seek => cases hstart
    | next | prev =>
      rw [IterCall.blockCall, Block.start, if_pos (hentry hallowed)] at hstart
      cases hstart

/-- An iterator over a laid block follows the cursor over the block's entries. -/
theorem Settled.follows (h : Settled b rows points goal s) (hlaid : b.Laid rows points)
    (hkeys : rows.Pairwise fun r r' => cmp.compare r.key r'.key = .lt) :
    (iterOps cmp).Follows cmp (rowEntries rows) s (Cursor.atPlace (rowEntries rows) goal) := by
  refine IterOps.follows_of_relation (R := fun s c => ∃ goal, Settled b rows points goal s ∧
    c = Cursor.atPlace (rowEntries rows) goal) ?_ ?_ ⟨goal, h, rfl⟩
  · rintro s _ ⟨goal, hsettled, rfl⟩
    rw [shown?_iterOps, hsettled.entry? hlaid]
  · rintro s _ call ⟨goal, hsettled, rfl⟩ hallowed
    rw [call_iterOps]
    rcases hsettled.move hlaid hkeys call with ⟨-, hnot⟩ | hmoved
    · exact absurd hallowed hnot
    · refine ⟨_, hmoved, (atPlace_moved call fun i hi => ?_).symm⟩
      obtain ⟨it, -, hrests, -⟩ := hsettled.idle
      rw [hi] at hrests
      exact hrests.lt

/-- Any call leaves the iterator without an error. -/
theorem Settled.exists_move (h : Settled b rows points goal s) (hlaid : b.Laid rows points)
    (hkeys : rows.Pairwise fun r r' => cmp.compare r.key r'.key = .lt) (c : IterCall) :
    ∃ goal', Settled b rows points goal' (s.move cmp c) := by
  rcases h.move hlaid hkeys c with ⟨hstays, -⟩ | hmoved
  · exact ⟨goal, hstays⟩
  · exact ⟨_, hmoved⟩

end BlockIterator

end WiscKey
