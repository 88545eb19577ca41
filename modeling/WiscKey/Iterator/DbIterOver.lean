import WiscKey.Iterator.InternalRun

/-!
# The iterator of the database over its internal iterator

`DBIter` moves its internal iterator by calls. Over one that shows what a cursor over the entries
shows, each call does what it does over the cursor itself, and no loop takes more rounds than there
are entries.
-/

namespace WiscKey

namespace Cursor

variable {α β : Type} {f : α → β} {l : List α}

/-- A cursor over the images of the elements. -/
def map (f : α → β) : Cursor α → Cursor β
  | invalid => invalid
  | on before a after => on (before.map f) (f a) (after.map f)

theorem current?_map (c : Cursor α) : (c.map f).current? = c.current?.map f := by
  cases c <;> rfl

theorem map_next (c : Cursor α) : (c.map f).next = c.next.map f := by
  rcases c with _ | ⟨before, a, _ | ⟨b, after⟩⟩ <;> rfl

theorem map_prev (c : Cursor α) : (c.map f).prev = c.prev.map f := by
  rcases c with _ | ⟨_ | ⟨b, before⟩, a, after⟩ <;> rfl

theorem map_first (l : List α) : first (l.map f) = (first l).map f := by
  cases l <;> rfl

theorem map_last (l : List α) : last (l.map f) = (last l).map f := by
  rw [last, last, ← List.map_reverse]
  cases l.reverse <;> rfl

theorem map_seek (p : β → Bool) (l : List α) : seek p (l.map f) = (seek (p ∘ f) l).map f := by
  have hfrom : ∀ (before rest : List α), seekFrom p (before.map f) (rest.map f) =
      (seekFrom (p ∘ f) before rest).map f := by
    intro before rest
    induction rest generalizing before with
    | nil => rfl
    | cons a rest ih =>
      rw [List.map_cons, seekFrom, seekFrom, ← List.map_cons, ih, Function.comp_apply]
      split <;> rfl
  exact hfrom [] l

end Cursor

/-- `DBIter`, over an internal iterator of some type. -/
structure DBIterOver (σ : Type) where
  iter : σ
  status : Status
  savedKey : Bytes
  savedValue : Bytes
  direction : Direction
  valid : Bool

namespace DBIterOver

variable {σ : Type}

/-- The fields besides the internal iterator. -/
def fields (d : DBIterOver σ) : DBIter :=
  ⟨.invalid, d.status, d.savedKey, d.savedValue, d.direction, d.valid⟩

/-- An internal iterator with the other fields. -/
def ofFields (iter : σ) (d : DBIter) : DBIterOver σ :=
  ⟨iter, d.status, d.savedKey, d.savedValue, d.direction, d.valid⟩

/-- The constructor. -/
def new (iter : σ) : DBIterOver σ := ⟨iter, .ok, [], [], .forward, false⟩

variable (ucmp : Comparator) (sequence : Nat) (ops : IterOps σ)

/-- The entry that the internal iterator is at. -/
def entry (iter : σ) : TableEntry := ⟨ops.key iter, ops.value iter⟩

/-- `FindNextUserEntry`, of at most so many rounds. -/
def findNextUserEntry : Nat → Bool → DBIterOver σ → Option (DBIterOver σ)
  | 0, _, _ => none
  | fuel + 1, skipping, d =>
    match d.fields.nextRound ucmp sequence skipping (entry ops d.iter) with
    | (none, fields) => some (ofFields d.iter fields)
    | (some skipping, fields) =>
      let iter := ops.next d.iter
      if ops.valid iter then findNextUserEntry fuel skipping (ofFields iter fields)
      else some (ofFields iter { fields with savedKey := [], valid := false })

/-- The loop of `FindPrevUserEntry`, of at most so many rounds. -/
def prevLoop : Nat → ValueType → DBIterOver σ → Option (ValueType × DBIterOver σ)
  | 0, _, _ => none
  | fuel + 1, type, d =>
    match d.fields.prevRound ucmp sequence type (entry ops d.iter) with
    | (none, fields) => some (type, ofFields d.iter fields)
    | (some type, fields) =>
      let iter := ops.prev d.iter
      if ops.valid iter then prevLoop fuel type (ofFields iter fields)
      else some (type, ofFields iter fields)

variable (fuel : Nat) (d : DBIterOver σ)

/-- `FindPrevUserEntry`. -/
def findPrevUserEntry : Option (DBIterOver σ) :=
  (if ops.valid d.iter then d.prevLoop ucmp sequence ops fuel .deletion
    else some (.deletion, d)).map fun (type, d) =>
    match type with
    | .deletion => { d with valid := false, savedKey := [], savedValue := [], direction := .forward }
    | .value => { d with valid := true }

/-- The loop of `Prev` that leaves the entries of a user key, of at most so many rounds. -/
def leaveKey (userKey : Bytes) : Nat → σ → Option σ
  | 0, _ => none
  | fuel + 1, iter =>
    let iter := ops.prev iter
    if ops.valid iter then
      if ucmp.compare (extractUserKey (ops.key iter)) userKey = .lt then some iter
      else leaveKey userKey fuel iter
    else some iter

/-- `Next`. -/
def next : Option (DBIterOver σ) :=
  match d.direction with
  | .forward =>
    { d with savedKey := extractUserKey (ops.key d.iter) }.findNextUserEntry ucmp sequence ops fuel
      true
  | .reverse =>
    let iter := if ops.valid d.iter then ops.next d.iter else ops.seekToFirst d.iter
    let d := { d with iter, direction := .forward }
    if ops.valid iter then d.findNextUserEntry ucmp sequence ops fuel true
    else some { d with valid := false, savedKey := [] }

/-- `Prev`. -/
def prev : Option (DBIterOver σ) :=
  match d.direction with
  | .forward =>
    let savedKey := extractUserKey (ops.key d.iter)
    (leaveKey ucmp ops savedKey fuel d.iter).bind fun iter =>
      if ops.valid iter then
        { d with iter, savedKey, direction := .reverse }.findPrevUserEntry ucmp sequence ops fuel
      else some { d with iter, valid := false, savedKey := [], savedValue := [] }
  | .reverse => d.findPrevUserEntry ucmp sequence ops fuel

/-- `Seek`. -/
def seek (target : Bytes) : Option (DBIterOver σ) :=
  let savedKey := appendInternalKey ⟨target, sequence, .value⟩
  let iter := ops.seek savedKey d.iter
  let d := { d with iter, direction := .forward, savedValue := [], savedKey }
  if ops.valid iter then d.findNextUserEntry ucmp sequence ops fuel false
  else some { d with valid := false }

/-- `SeekToFirst`. -/
def seekToFirst : Option (DBIterOver σ) :=
  let iter := ops.seekToFirst d.iter
  let d := { d with iter, direction := .forward, savedValue := [] }
  if ops.valid iter then d.findNextUserEntry ucmp sequence ops fuel false
  else some { d with valid := false }

/-- `SeekToLast`. -/
def seekToLast : Option (DBIterOver σ) :=
  { d with iter := ops.seekToLast d.iter, direction := .reverse, savedValue := [] }.findPrevUserEntry
    ucmp sequence ops fuel

/-- A call; without a result its loops need more rounds. -/
def call : IterCall → Option (DBIterOver σ)
  | .seekToFirst => d.seekToFirst ucmp sequence ops fuel
  | .seekToLast => d.seekToLast ucmp sequence ops fuel
  | .seek target => d.seek ucmp sequence ops fuel target
  | .next => d.next ucmp sequence ops fuel
  | .prev => d.prev ucmp sequence ops fuel

/-- `key()` and `value()`. -/
def keyValue : Bytes × Bytes :=
  match d.direction with
  | .forward => (extractUserKey (ops.key d.iter), ops.value d.iter)
  | .reverse => (d.savedKey, d.savedValue)

/-- What a caller can see. -/
def shown : Option (Bytes × Bytes) := if d.valid then some (d.keyValue ops) else none

/-- The iterator shows what the cursor over a map shows, at first and after each of the calls;
`Next` and `Prev` are called only while it is valid. -/
def AgreesWith (m : List (Bytes × Bytes)) (d : DBIterOver σ) (c : Cursor (Bytes × Bytes)) :
    List IterCall → Prop
  | [] => d.shown ops = c.current?
  | call :: calls => d.shown ops = c.current? ∧
      (((call = .next ∨ call = .prev) → d.valid = true) →
        ∃ d', d.call ucmp sequence ops fuel call = some d' ∧
          AgreesWith m d' (c.call ucmp m call) calls)

end DBIterOver

section Simulation

variable {σ : Type} {ucmp : Comparator} {sequence fuel : Nat} {ops : IterOps σ}
  {entries before after : List TableEntry} {e : TableEntry} {d : DBIter} {s : σ} {skipping : Bool}
  {c : Cursor TableEntry} {type : ValueType}

/-- The internal iterator is where the cursor is. -/
def IterOps.IsAt (ops : IterOps σ) (ucmp : Comparator) (entries : List TableEntry) (s : σ)
    (c : Cursor TableEntry) : Prop :=
  ops.Follows ucmp.internal (entries.map TableEntry.row) s (c.map TableEntry.row)

theorem IterOps.IsAt.shown? (h : ops.IsAt ucmp entries s c) :
    ops.shown? s = c.current?.map TableEntry.row :=
  (IterOps.Follows.shown? h).trans (Cursor.current?_map c)

theorem IterOps.IsAt.valid_on (h : ops.IsAt ucmp entries s (.on before e after)) :
    ops.valid s = true := by
  rw [IterOps.valid_iff, h.shown?]
  rfl

theorem IterOps.IsAt.valid_invalid (h : ops.IsAt ucmp entries s .invalid) :
    ops.valid s = false := by
  rw [Bool.eq_false_iff, Ne, IterOps.valid_iff, h.shown?]
  exact Bool.false_ne_true

theorem IterOps.IsAt.entry_on (h : ops.IsAt ucmp entries s (.on before e after)) :
    DBIterOver.entry ops s = e := by
  have hshown : ops.shown? s = some e.row := h.shown?
  rw [DBIterOver.entry, IterOps.key_eq hshown, IterOps.value_eq hshown]
  rfl

theorem IterOps.IsAt.key_on (h : ops.IsAt ucmp entries s (.on before e after)) :
    ops.key s = e.key := congrArg TableEntry.key h.entry_on

theorem IterOps.IsAt.next (h : ops.IsAt ucmp entries s (.on before e after)) :
    ops.IsAt ucmp entries (ops.next s) (Cursor.on before e after).next := by
  have hnext := IterOps.Follows.call h .next h.valid_on
  rwa [Cursor.call, Cursor.map_next] at hnext

theorem IterOps.IsAt.prev (h : ops.IsAt ucmp entries s (.on before e after)) :
    ops.IsAt ucmp entries (ops.prev s) (Cursor.on before e after).prev := by
  have hprev := IterOps.Follows.call h .prev h.valid_on
  rwa [Cursor.call, Cursor.map_prev] at hprev

theorem IterOps.IsAt.seekToFirst (h : ops.IsAt ucmp entries s c) :
    ops.IsAt ucmp entries (ops.seekToFirst s) (.first entries) := by
  have hfirst := IterOps.Follows.call h .seekToFirst trivial
  rwa [Cursor.call, Cursor.map_first] at hfirst

theorem IterOps.IsAt.seekToLast (h : ops.IsAt ucmp entries s c) :
    ops.IsAt ucmp entries (ops.seekToLast s) (.last entries) := by
  have hlast := IterOps.Follows.call h .seekToLast trivial
  rwa [Cursor.call, Cursor.map_last] at hlast

theorem IterOps.IsAt.seek (h : ops.IsAt ucmp entries s c) (target : Bytes) :
    ops.IsAt ucmp entries (ops.seek target s)
      (.seek (fun e => ucmp.internalCompare e.key target ≠ .lt) entries) := by
  have hseek := IterOps.Follows.call h (.seek target) trivial
  rwa [Cursor.call, Cursor.map_seek] at hseek

/-- The iterator has the fields of the one over the cursor, and its internal iterator is where the
cursor is. -/
def Simulates (ops : IterOps σ) (ucmp : Comparator) (entries : List TableEntry)
    (d' : DBIterOver σ) (d : DBIter) : Prop :=
  ops.IsAt ucmp entries d'.iter d.iter ∧ d' = .ofFields d'.iter d

/-- What a step of the iterator ends with. -/
def SimulatesSome (ops : IterOps σ) (ucmp : Comparator) (entries : List TableEntry)
    (d' : Option (DBIterOver σ)) (d : DBIter) : Prop :=
  ∃ d'', d' = some d'' ∧ Simulates ops ucmp entries d'' d

/-- The rounds do not look at the internal iterator. -/
theorem nextRound_fields (d : DBIter) (e : TableEntry) :
    DBIter.nextRound ucmp sequence { d with iter := .invalid } skipping e =
      ((d.nextRound ucmp sequence skipping e).1,
        { (d.nextRound ucmp sequence skipping e).2 with iter := .invalid }) := by
  unfold DBIter.nextRound DBIter.parseKey
  cases parseInternalKey e.key with
  | none => rfl
  | some ikey =>
    dsimp only
    split
    · cases ikey.type with
      | deletion => rfl
      | value =>
        dsimp only
        split <;> rfl
    · rfl

theorem prevRound_fields (d : DBIter) (e : TableEntry) :
    DBIter.prevRound ucmp sequence { d with iter := .invalid } type e =
      ((d.prevRound ucmp sequence type e).1,
        { (d.prevRound ucmp sequence type e).2 with iter := .invalid }) := by
  unfold DBIter.prevRound DBIter.parseKey
  cases parseInternalKey e.key with
  | none => rfl
  | some ikey =>
    dsimp only
    split
    · split
      · rfl
      · cases ikey.type <;> rfl
    · rfl

/-- The search forward from an entry. -/
theorem findNextUserEntry_simulates (h : ops.IsAt ucmp entries s (.on before e after))
    (hfuel : after.length < fuel) : SimulatesSome ops ucmp entries
      (DBIterOver.findNextUserEntry ucmp sequence ops fuel skipping (.ofFields s d))
      (DBIter.findNextUserEntry ucmp sequence skipping d before e after) := by
  induction fuel generalizing before e after s skipping d with
  | zero => exact absurd hfuel (Nat.not_lt_zero _)
  | succ fuel ih =>
    have hround := @nextRound_fields ucmp sequence skipping d e
    have hnext := h.next
    rw [DBIterOver.findNextUserEntry, show (DBIterOver.ofFields s d).iter = s from rfl,
      show (DBIterOver.ofFields s d).fields = { d with iter := .invalid } from rfl, h.entry_on, hround]
    cases after with
    | nil =>
      rw [DBIter.findNextUserEntry]
      rcases d.nextRound ucmp sequence skipping e with ⟨_ | skipping', d'⟩
      · exact ⟨_, rfl, h, rfl⟩
      · dsimp only
        rw [if_neg (by rw [hnext.valid_invalid]; exact Bool.false_ne_true)]
        exact ⟨_, rfl, hnext, rfl⟩
    | cons f after =>
      rw [DBIter.findNextUserEntry]
      rcases d.nextRound ucmp sequence skipping e with ⟨_ | skipping', d'⟩
      · exact ⟨_, rfl, h, rfl⟩
      · dsimp only
        rw [if_pos (IterOps.IsAt.valid_on hnext)]
        exact @ih (e :: before) after f d' _ skipping' hnext (Nat.lt_of_succ_lt_succ hfuel)

/-- The search backward from an entry. -/
theorem prevLoop_simulates (h : ops.IsAt ucmp entries s (.on before e after))
    (hfuel : before.length < fuel) : ∃ d', DBIterOver.prevLoop ucmp sequence ops fuel type
        (.ofFields s d) = some ((DBIter.prevLoop ucmp sequence type d e after before).1, d') ∧
      Simulates ops ucmp entries d' (DBIter.prevLoop ucmp sequence type d e after before).2 := by
  induction fuel generalizing before e after s type d with
  | zero => exact absurd hfuel (Nat.not_lt_zero _)
  | succ fuel ih =>
    have hround := @prevRound_fields ucmp sequence type d e
    have hprev := h.prev
    rw [DBIterOver.prevLoop, show (DBIterOver.ofFields s d).iter = s from rfl,
      show (DBIterOver.ofFields s d).fields = { d with iter := .invalid } from rfl, h.entry_on, hround]
    cases before with
    | nil =>
      rw [DBIter.prevLoop]
      rcases d.prevRound ucmp sequence type e with ⟨_ | type', d'⟩
      · exact ⟨_, rfl, h, rfl⟩
      · dsimp only
        rw [if_neg (by rw [hprev.valid_invalid]; exact Bool.false_ne_true)]
        exact ⟨_, rfl, hprev, rfl⟩
    | cons f before =>
      rw [DBIter.prevLoop]
      rcases d.prevRound ucmp sequence type e with ⟨_ | type', d'⟩
      · exact ⟨_, rfl, h, rfl⟩
      · dsimp only
        rw [if_pos (IterOps.IsAt.valid_on hprev)]
        exact @ih before (e :: after) f d' _ type' hprev (Nat.lt_of_succ_lt_succ hfuel)

theorem leaveKey_simulates {userKey : Bytes} (h : ops.IsAt ucmp entries s (.on before e after))
    (hfuel : before.length < fuel) : ∃ s', DBIterOver.leaveKey ucmp ops userKey fuel s = some s' ∧
      ops.IsAt ucmp entries s' (DBIter.leaveKey ucmp userKey e after before) := by
  induction fuel generalizing before e after s with
  | zero => exact absurd hfuel (Nat.not_lt_zero _)
  | succ fuel ih =>
    have hprev := h.prev
    rw [DBIterOver.leaveKey]
    cases before with
    | nil =>
      rw [if_neg (by rw [hprev.valid_invalid]; exact Bool.false_ne_true)]
      exact ⟨_, rfl, hprev⟩
    | cons f before =>
      have hprev : ops.IsAt ucmp entries (ops.prev s) (.on before f (e :: after)) := hprev
      rw [if_pos hprev.valid_on, hprev.key_on, DBIter.leaveKey]
      split
      · exact ⟨_, rfl, hprev⟩
      · exact ih hprev (Nat.lt_of_succ_lt_succ hfuel)

end Simulation

section Calls

variable {σ : Type} {ucmp : Comparator} {sequence fuel : Nat} {ops : IterOps σ}
  {entries before after : List TableEntry} {e : TableEntry} {d : DBIter} {d' : DBIterOver σ} {s : σ}
  {c : Cursor TableEntry}

theorem length_before_lt (hover : c.Over entries)
    (hfuel : entries.length ≤ fuel) (h : c = .on before e after) :
    before.length < fuel ∧ after.length < fuel := by
  subst h
  have hlength := congrArg List.length (show before.reverse ++ e :: after = entries from hover)
  rw [List.length_append, List.length_reverse, List.length_cons] at hlength
  omega

/-- Where the internal iterator is at no entry after a move. -/
theorem missing_simulates {found : Option (DBIterOver σ)} (h : ops.IsAt ucmp entries s .invalid)
    (hiter : d.iter = .invalid) : SimulatesSome ops ucmp entries
      (if ops.valid s then found else some (.ofFields s d)) d := by
  rw [if_neg (by rw [h.valid_invalid]; exact Bool.false_ne_true)]
  rw [← hiter] at h
  exact ⟨_, rfl, h, rfl⟩

/-- Where it is at one, the search goes forward from there. -/
theorem search_simulates {skipping : Bool} {missing : Option (DBIterOver σ)}
    (h : ops.IsAt ucmp entries s (.on before e after)) (hover : (Cursor.on before e after).Over entries)
    (hfuel : entries.length ≤ fuel) : SimulatesSome ops ucmp entries
      (if ops.valid s then (DBIterOver.ofFields s d).findNextUserEntry ucmp sequence ops fuel skipping
        else missing)
      (d.findNextUserEntry ucmp sequence skipping before e after) := by
  rw [if_pos h.valid_on]
  exact findNextUserEntry_simulates h (length_before_lt hover hfuel rfl).2

theorem findPrevUserEntry_simulates (h : ops.IsAt ucmp entries s d.iter)
    (hover : d.iter.Over entries) (hfuel : entries.length ≤ fuel) : SimulatesSome ops ucmp entries
      ((DBIterOver.ofFields s d).findPrevUserEntry ucmp sequence ops fuel)
      (d.findPrevUserEntry ucmp sequence) := by
  rw [DBIterOver.findPrevUserEntry, show (DBIterOver.ofFields s d).iter = s from rfl,
    DBIter.findPrevUserEntry]
  cases hiter : d.iter with
  | invalid =>
    have hat := h
    rw [hiter] at h
    rw [if_neg (by rw [h.valid_invalid]; exact Bool.false_ne_true)]
    exact ⟨_, rfl, hat, rfl⟩
  | on before e after =>
    rw [hiter] at h hover
    obtain ⟨found, hfound, hat, heq⟩ := @prevLoop_simulates _ _ sequence _ _ _ _ _ _ d _ .deletion h
      (length_before_lt hover hfuel rfl).1
    rw [if_pos h.valid_on, hfound]
    dsimp only
    generalize DBIter.prevLoop ucmp sequence .deletion d e after before = r at hat heq ⊢
    obtain ⟨type, r⟩ := r
    rw [heq]
    cases type with
    | deletion => exact ⟨_, rfl, hat, rfl⟩
    | value => exact ⟨_, rfl, hat, rfl⟩

theorem seek_simulates (h : ops.IsAt ucmp entries s c) (hfuel : entries.length ≤ fuel)
    (target : Bytes) : SimulatesSome ops ucmp entries
      ((DBIterOver.ofFields s d).seek ucmp sequence ops fuel target)
      (d.seek ucmp sequence entries target) := by
  have hseek := h.seek (appendInternalKey ⟨target, sequence, .value⟩)
  have hover : (Cursor.seek (fun e : TableEntry => decide (ucmp.internalCompare e.key
      (appendInternalKey ⟨target, sequence, .value⟩) ≠ .lt)) entries).Over entries :=
    Cursor.over_seek _
  rw [DBIter.seek]
  generalize Cursor.seek (fun e : TableEntry => decide (ucmp.internalCompare e.key
    (appendInternalKey ⟨target, sequence, .value⟩) ≠ .lt)) entries = c at hseek hover ⊢
  cases c with
  | invalid =>
    exact missing_simulates (d := ⟨.invalid, d.status, _, [], .forward, false⟩) hseek rfl
  | on before e after =>
    exact search_simulates (d := ⟨.on before e after, d.status, _, [], .forward, d.valid⟩) hseek
      hover hfuel

theorem seekToFirst_simulates (h : ops.IsAt ucmp entries s c) (hfuel : entries.length ≤ fuel) :
    SimulatesSome ops ucmp entries
      ((DBIterOver.ofFields s d).seekToFirst ucmp sequence ops fuel)
      (d.seekToFirst ucmp sequence entries) := by
  have hfirst := h.seekToFirst
  have hover : (Cursor.first entries).Over entries := Cursor.over_first
  rw [DBIter.seekToFirst]
  generalize Cursor.first entries = c at hfirst hover ⊢
  cases c with
  | invalid =>
    exact missing_simulates (d := ⟨.invalid, d.status, d.savedKey, [], .forward, false⟩) hfirst rfl
  | on before e after =>
    exact search_simulates (d := ⟨.on before e after, d.status, d.savedKey, [], .forward, d.valid⟩)
      hfirst hover hfuel

/-- The end of `Next`, after a change of the direction. -/
theorem turn_simulates (hfuel : entries.length ≤ fuel) (c : Cursor TableEntry) :
    ops.IsAt ucmp entries s c → c.Over entries → SimulatesSome ops ucmp entries
      (if ops.valid s then DBIterOver.findNextUserEntry ucmp sequence ops fuel true
          ⟨s, d.status, d.savedKey, d.savedValue, .forward, d.valid⟩
        else some ⟨s, d.status, [], d.savedValue, .forward, false⟩)
      (match c with
        | .invalid => ⟨c, d.status, [], d.savedValue, .forward, false⟩
        | .on before e after => DBIter.findNextUserEntry ucmp sequence true
          ⟨c, d.status, d.savedKey, d.savedValue, .forward, d.valid⟩ before e after) := by
  intro h hover
  cases c with
  | invalid =>
    exact missing_simulates (d := ⟨.invalid, d.status, [], d.savedValue, .forward, false⟩) h rfl
  | on before e after =>
    exact search_simulates
      (d := ⟨.on before e after, d.status, d.savedKey, d.savedValue, .forward, d.valid⟩) h hover
      hfuel

theorem next_simulates (h : ops.IsAt ucmp entries s d.iter) (hfuel : entries.length ≤ fuel)
    (hat : AtShown ucmp sequence entries d e) : SimulatesSome ops ucmp entries
      ((DBIterOver.ofFields s d).next ucmp sequence ops fuel)
      (d.next ucmp sequence entries) := by
  rw [DBIterOver.next, DBIter.next, show (DBIterOver.ofFields s d).direction = d.direction from rfl]
  rcases hat with ⟨hdirection, before, after, hiter, hover, -⟩ |
    ⟨hdirection, before, hidden, rest, hentries, -, -, -, -, -, hiter⟩
  · rw [hiter] at h
    simp only [hdirection, hiter]
    rw [show (DBIterOver.ofFields s d).iter = s from rfl, h.key_on]
    have hlength := @length_before_lt _ _ _ _ _ (Cursor.on before e after) hover hfuel rfl
    exact findNextUserEntry_simulates (d := ⟨.on before e after, d.status, extractUserKey e.key,
      d.savedValue, .forward, d.valid⟩) h hlength.2
  · simp only [hdirection, hiter, show (DBIterOver.ofFields s d).iter = s from rfl]
    -- the internal iterator goes among the entries of the key that is shown
    cases before with
    | nil =>
      rw [hiter] at h
      have hmoved : (if ops.valid s then ops.next s else ops.seekToFirst s) = ops.seekToFirst s :=
        if_neg (by rw [h.valid_invalid]; exact Bool.false_ne_true)
      rw [hmoved]
      exact turn_simulates (d := d) hfuel _ h.seekToFirst Cursor.over_first
    | cons f before =>
      rw [hiter] at h
      have hat : ops.IsAt ucmp entries s (.on before f (hidden ++ e :: rest)) := h
      have hover : (Cursor.on before f (hidden ++ e :: rest)).Over entries := by
        rw [Cursor.Over, hentries]
        simp
      have hmoved : (if ops.valid s then ops.next s else ops.seekToFirst s) = ops.next s :=
        if_pos hat.valid_on
      rw [hmoved]
      exact turn_simulates (d := d) hfuel _ hat.next hover.next

theorem over_leaveKey (userKey : Bytes) (hover : (Cursor.on before e after).Over entries) :
    (DBIter.leaveKey ucmp userKey e after before).Over entries := by
  induction before generalizing e after with
  | nil => trivial
  | cons f before ih =>
    have hprev : (Cursor.on before f (e :: after)).Over entries := hover.prev
    rw [DBIter.leaveKey]
    split
    · exact hprev
    · exact ih hprev

theorem prev_simulates (h : ops.IsAt ucmp entries s d.iter) (hfuel : entries.length ≤ fuel)
    (hat : AtShown ucmp sequence entries d e) : SimulatesSome ops ucmp entries
      ((DBIterOver.ofFields s d).prev ucmp sequence ops fuel) (d.prev ucmp sequence) := by
  rw [DBIterOver.prev, DBIter.prev, show (DBIterOver.ofFields s d).direction = d.direction from rfl]
  rcases hat with ⟨hdirection, before, after, hiter, hover, -⟩ |
    ⟨hdirection, before, hidden, rest, hentries, -, -, -, -, -, hiter⟩
  · rw [hiter] at h
    simp only [hdirection, hiter]
    have hlength := @length_before_lt _ _ _ _ _ (Cursor.on before e after) hover hfuel rfl
    obtain ⟨s', hleave, hat⟩ := @leaveKey_simulates _ _ _ _ _ _ _ _ _ (extractUserKey e.key) h hlength.1
    rw [show (DBIterOver.ofFields s d).iter = s from rfl, h.key_on, hleave, Option.bind_some]
    have hover' := @over_leaveKey ucmp _ _ _ _ (extractUserKey e.key) hover
    generalize DBIter.leaveKey ucmp (extractUserKey e.key) e after before = c at hat hover' ⊢
    cases c with
    | invalid =>
      rw [if_neg (by rw [hat.valid_invalid]; exact Bool.false_ne_true)]
      exact ⟨_, rfl, hat, rfl⟩
    | on before e after =>
      rw [if_pos hat.valid_on]
      exact findPrevUserEntry_simulates (d := ⟨.on before _ after, d.status, _, d.savedValue,
        .reverse, d.valid⟩) hat hover' hfuel
  · simp only [hdirection]
    have hover : d.iter.Over entries := by
      rw [hiter]
      cases before with
      | nil => trivial
      | cons f before =>
        rw [Cursor.inFrontOf, Cursor.Over, hentries]
        simp
    exact findPrevUserEntry_simulates h hover hfuel

variable {m : List (Bytes × Bytes)} {mc : Cursor (Bytes × Bytes)}

/-- Every call does what it does over the cursor. -/
theorem Simulates.call (h : Simulates ops ucmp entries d' d)
    (hrepresents : Represents ucmp sequence entries m d mc) (hfuel : entries.length ≤ fuel)
    (call : IterCall) (hallowed : call.Allowed d) : SimulatesSome ops ucmp entries
      (d'.call ucmp sequence ops fuel call) (d.call ucmp sequence entries call) := by
  obtain ⟨hat, heq⟩ := h
  rw [heq]
  cases call with
  | seekToFirst => exact seekToFirst_simulates hat hfuel
  | seekToLast =>
    exact findPrevUserEntry_simulates
      (d := ⟨.last entries, d.status, d.savedKey, [], .reverse, d.valid⟩) hat.seekToLast
      Cursor.over_last hfuel
  | seek target => exact seek_simulates hat hfuel target
  | next =>
    obtain ⟨e, hshown⟩ := hrepresents.atShown hallowed
    exact next_simulates hat hfuel hshown
  | prev =>
    obtain ⟨e, hshown⟩ := hrepresents.atShown hallowed
    exact prev_simulates hat hfuel hshown

theorem Simulates.shown (h : Simulates ops ucmp entries d' d)
    (hrepresents : Represents ucmp sequence entries m d mc) : d'.shown ops = mc.current? := by
  obtain ⟨hat, heq⟩ := h
  rw [← hrepresents.shows.2, heq, DBIterOver.shown, DBIter.shown,
    show (DBIterOver.ofFields d'.iter d).valid = d.valid from rfl]
  cases hvalid : d.valid with
  | false => rfl
  | true =>
    obtain ⟨e, ⟨hdirection, before, after, hiter, -⟩ | ⟨hdirection, -⟩⟩ := hrepresents.atShown hvalid
    · rw [hiter] at hat
      rw [if_pos rfl, if_pos rfl, DBIterOver.keyValue, DBIter.keyValue,
        show (DBIterOver.ofFields d'.iter d).direction = d.direction from rfl, hdirection, hiter]
      exact congrArg (fun e : TableEntry => some (extractUserKey e.key, e.value)) hat.entry_on
    · rw [if_pos rfl, if_pos rfl, DBIterOver.keyValue, DBIter.keyValue,
        show (DBIterOver.ofFields d'.iter d).direction = d.direction from rfl, hdirection]
      rfl

/-- So the iterator shows what the cursor over the map shows. -/
theorem Simulates.agreesWith (h : Simulates ops ucmp entries d' d)
    (hrepresents : Represents ucmp sequence entries m d mc) (hsorted : SortedStream ucmp entries)
    (hsequence : sequence ≤ kMaxSequenceNumber) (hm : VisibleMap ucmp sequence entries m)
    (hfuel : entries.length ≤ fuel) (calls : List IterCall) :
    DBIterOver.AgreesWith ucmp sequence ops fuel m d' mc calls := by
  induction calls generalizing d' d mc with
  | nil => exact h.shown hrepresents
  | cons call calls ih =>
    refine ⟨h.shown hrepresents, fun hallowed => ?_⟩
    have hallowed' : call.Allowed d := by
      rw [h.2] at hallowed
      cases call with
      | seekToFirst => trivial
      | seekToLast => trivial
      | seek target => trivial
      | next => exact hallowed (.inl rfl)
      | prev => exact hallowed (.inr rfl)
    obtain ⟨d'', hcall, hnext⟩ := h.call hrepresents hfuel call hallowed'
    exact ⟨d'', hcall, ih hnext (hrepresents.call hsorted hsequence hm call hallowed')⟩

/-- A new iterator over an internal iterator in front of the entries. -/
theorem DBIterOver.new_agreesWith (h : ops.IsAt ucmp entries s .invalid)
    (hsorted : SortedStream ucmp entries) (hsequence : sequence ≤ kMaxSequenceNumber)
    (hm : VisibleMap ucmp sequence entries m) (hfuel : entries.length ≤ fuel)
    (calls : List IterCall) :
    DBIterOver.AgreesWith ucmp sequence ops fuel m (.new s) .invalid calls := by
  have hsimulates : Simulates ops ucmp entries (DBIterOver.new s) DBIter.new := ⟨h, rfl⟩
  have hrepresents : Represents ucmp sequence entries m DBIter.new .invalid :=
    represents_invalid trivial rfl rfl
  exact hsimulates.agreesWith hrepresents hsorted hsequence hm hfuel calls

end Calls

end WiscKey
