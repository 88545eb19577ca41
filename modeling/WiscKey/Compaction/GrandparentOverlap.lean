import WiscKey.Compaction.Output
import WiscKey.Compaction.SelectionSpec
import WiscKey.Compaction.BaseLevel
import Mathlib.Algebra.Order.BigOperators.Group.List

/-!
# How much of the grandparents an output overlaps

`ShouldStopBefore` counts the grandparents that are passed since the last cut that it asked for. An
output that no such cut is inside of meets the grandparents passed while it was written, and at
most one more.
-/

namespace WiscKey

/-- The bytes of the files that meet a range. -/
def overlapBytes (ucmp : Comparator) (files : List TableFile) (r : KeyRange Bytes) : Nat :=
  totalFileSize (files.filter fun g => decide (¬ r.Before ucmp.internalCompare g.range) &&
    decide (¬ g.range.Before ucmp.internalCompare r))

/-- The bytes of the files that do not end before a key. -/
def bytesFrom (ucmp : Comparator) (files : List TableFile) (a : Bytes) : Nat :=
  totalFileSize (files.filter fun g => ucmp.internalCompare g.largest a ≠ .lt)

/-- What a range overlaps is within the bound, one file aside. -/
def OverlapBounded (ucmp : Comparator) (maxFileSize : Nat) (files : List TableFile)
    (r : KeyRange Bytes) : Prop :=
  (overlapBytes ucmp files r : Int) ≤ maxGrandParentOverlapBytes maxFileSize ∨
    ∃ g ∈ files, (overlapBytes ucmp files r : Int) ≤
      maxGrandParentOverlapBytes maxFileSize + g.fileSize

/-- A compaction that no key has been passed to. -/
structure Compaction.Fresh (c : Compaction) : Prop where
  grandparentIndex : c.grandparentIndex = 0
  seenKey : c.seenKey = false
  overlappedBytes : c.overlappedBytes = 0

/-- The place among the grandparents when the keys up to the last one have been passed, in an
output that begins with `opened`. -/
structure Passing (ucmp : Comparator) (maxFileSize : Nat) (files : List TableFile)
    (last opened : Option Bytes) (c : Compaction) : Prop where
  grandparents : c.grandparents = files
  passed : ∀ g ∈ files.take c.grandparentIndex, ∃ k ∈ last, ucmp.internalCompare g.largest k = .lt
  reached : ∀ k ∈ last, ∀ g ∈ files.drop c.grandparentIndex, ucmp.internalCompare k g.largest ≠ .gt
  seenKey : last.isSome → c.seenKey = true
  begun : opened.isSome → last.isSome
  bounded : c.overlappedBytes ≤ maxGrandParentOverlapBytes maxFileSize
  counted : ∀ a ∈ opened, bytesFrom ucmp (files.take c.grandparentIndex) a ≤ c.overlappedBytes

variable {ucmp : Comparator} {maxFileSize : Nat} {files : List TableFile}
  {last opened : Option Bytes}
  {c : Compaction} {key a b : Bytes}

theorem totalFileSize_append (files files' : List TableFile) :
    totalFileSize (files ++ files') = totalFileSize files + totalFileSize files' := by
  rw [totalFileSize, List.map_append, List.sum_append]
  rfl

theorem totalFileSize_filter_le (p : TableFile → Bool) (files : List TableFile) :
    totalFileSize (files.filter p) ≤ totalFileSize files :=
  (List.filter_sublist.map _).sum_le_sum fun _ _ => Nat.zero_le _

theorem bytesFrom_append (files files' : List TableFile) (a : Bytes) :
    bytesFrom ucmp (files ++ files') a = bytesFrom ucmp files a + bytesFrom ucmp files' a := by
  rw [bytesFrom, List.filter_append, totalFileSize_append]
  rfl

/-- Files that end before a key are not from it on. -/
theorem bytesFrom_eq_zero (h : ∀ g ∈ files, ucmp.internalCompare g.largest a = .lt) :
    bytesFrom ucmp files a = 0 := by
  rw [bytesFrom, List.filter_eq_nil_iff.mpr fun g hg => by simp [h g hg]]
  rfl

/-- The scan stops at the first file that does not end before the key. -/
theorem scanGrandparents_spec (hs : SortedLevel ucmp files) (key : Bytes) :
    (∀ g ∈ files.take (scanGrandparents ucmp key files).1,
      ucmp.internalCompare g.largest key = .lt) ∧
    (∀ g ∈ files.drop (scanGrandparents ucmp key files).1,
      ucmp.internalCompare key g.largest ≠ .gt) ∧
    totalFileSize (files.take (scanGrandparents ucmp key files).1) =
      (scanGrandparents ucmp key files).2 := by
  induction files with
  | nil => exact ⟨by simp [scanGrandparents], by simp, rfl⟩
  | cons f files ih =>
    have hends := hs.ends
    obtain ⟨htake, hdrop, hsum⟩ := ih (hs.of_cons)
    rw [scanGrandparents]
    split
    · rename_i hgt
      refine ⟨fun g hg => ?_, hdrop, ?_⟩
      · rcases List.mem_cons.mp hg with rfl | hg
        · exact Std.OrientedCmp.lt_of_gt hgt
        · exact htake g hg
      · rw [List.take_succ_cons, totalFileSize, List.map_cons, List.sum_cons, ← totalFileSize, hsum,
          Nat.add_comm]
    · rename_i hle
      refine ⟨by simp, fun g hg => ?_, rfl⟩
      rcases List.mem_cons.mp hg with rfl | hg
      · exact hle
      · have hlt := (List.pairwise_cons.mp hends).1 g hg
        refine not_gt_trans hle ?_
        rw [hlt]
        exact Ordering.noConfusion

/-- The bytes of files that meet a range begin with it. -/
theorem overlapBytes_le_bytesFrom (files : List TableFile) (r : KeyRange Bytes) :
    overlapBytes ucmp files r ≤ bytesFrom ucmp files r.first := by
  rw [overlapBytes, bytesFrom, ← List.filter_filter]
  exact totalFileSize_filter_le _ _

/-- Of sorted files that end behind a range at most one meets it. -/
theorem overlapBytes_reached (hs : SortedLevel ucmp files)
    (h : ∀ g ∈ files, ucmp.internalCompare b g.largest ≠ .gt) :
    overlapBytes ucmp files ⟨a, b⟩ = 0 ∨
      ∃ g ∈ files, overlapBytes ucmp files ⟨a, b⟩ = g.fileSize := by
  rw [overlapBytes]
  generalize hp : (fun g : TableFile =>
    decide (¬ KeyRange.Before ucmp.internalCompare ⟨a, b⟩ g.range) &&
      decide (¬ g.range.Before ucmp.internalCompare ⟨a, b⟩)) = p
  cases hmeet : files.filter p with
  | nil => exact .inl rfl
  | cons g rest =>
    have hmem : ∀ x ∈ g :: rest, x ∈ files ∧ p x = true := fun x hx =>
      List.mem_filter.mp (hmeet ▸ hx)
    cases rest with
    | nil => exact .inr ⟨g, (hmem g List.mem_cons_self).1, rfl⟩
    | cons g' rest =>
      -- the second file would begin behind the range
      have happart : (g :: g' :: rest).Pairwise fun f g =>
          f.range.Before ucmp.internalCompare g.range := hmeet ▸ hs.apart.filter p
      have hbefore := (List.pairwise_cons.mp happart).1 g' List.mem_cons_self
      have hlt := lt_of_not_gt_of_lt (h g (hmem g List.mem_cons_self).1) hbefore
      have hmeets := (hmem g' (List.mem_cons_of_mem _ List.mem_cons_self)).2
      rw [← hp, Bool.and_eq_true, decide_eq_true_iff] at hmeets
      exact absurd hlt hmeets.1

namespace Passing

/-- Before the first key. -/
theorem init (h : c.Fresh) (hbound : 0 ≤ maxGrandParentOverlapBytes maxFileSize) :
    Passing ucmp maxFileSize c.grandparents none none c := by
  refine ⟨rfl, ?_, (fun _ h => nomatch h), (fun h => nomatch h), (fun h => nomatch h), ?_,
    fun _ h => (by cases h)⟩
  · rw [h.grandparentIndex]
    exact fun g hg => absurd hg List.not_mem_nil
  · rwa [h.overlappedBytes]

/-- The output ends. -/
theorem close (h : Passing ucmp maxFileSize files last opened c) :
    Passing ucmp maxFileSize files last none c :=
  ⟨h.grandparents, h.passed, h.reached, h.seenKey, (fun h => nomatch h), h.bounded,
    fun _ h => (by cases h)⟩

/-- An output begins with the last key. -/
theorem openAt (h : Passing ucmp maxFileSize files (some key) opened c) :
    Passing ucmp maxFileSize files (some key) (some key) c := by
  refine ⟨h.grandparents, h.passed, h.reached, h.seenKey, fun _ => rfl, h.bounded, fun a ha => ?_⟩
  obtain rfl : key = a := Option.some.inj ha
  rw [bytesFrom_eq_zero fun g hg => ?_]
  · exact Nat.zero_le _
  · obtain ⟨k, hk, hlt⟩ := h.passed g hg
    rwa [← Option.some.inj hk] at hlt

/-- Another key is passed. Where the cut is asked for, no output goes on. -/
theorem shouldStopBefore (h : Passing ucmp maxFileSize files last opened c)
    (hs : SortedLevel ucmp files) (hkey : ∀ k ∈ last, ucmp.internalCompare k key ≠ .gt)
    {stop : Bool} {c' : Compaction} (hstep : c.shouldStopBefore ucmp maxFileSize key = (stop, c')) :
    Passing ucmp maxFileSize files (some key) (if stop then none else opened) c' := by
  obtain ⟨htake, hdrop, hsum⟩ := scanGrandparents_spec (hs.drop c.grandparentIndex) key
  rw [Compaction.shouldStopBefore, h.grandparents] at hstep
  generalize scanGrandparents ucmp key (files.drop c.grandparentIndex) = scan
    at htake hdrop hsum hstep
  obtain ⟨n, bytes⟩ := scan
  dsimp only at htake hdrop hsum hstep
  have hpassed : ∀ g ∈ files.take (c.grandparentIndex + n),
      ∃ k ∈ some key, ucmp.internalCompare g.largest k = .lt := by
    intro g hg
    refine ⟨key, rfl, ?_⟩
    rw [List.take_add] at hg
    rcases List.mem_append.mp hg with hg | hg
    · obtain ⟨k, hk, hlt⟩ := h.passed g hg
      exact lt_of_lt_of_not_gt hlt (hkey k hk)
    · exact htake g hg
  have hreached : ∀ k ∈ some key, ∀ g ∈ files.drop (c.grandparentIndex + n),
      ucmp.internalCompare k g.largest ≠ .gt := by
    intro k hk g hg
    rw [← Option.some.inj hk]
    rw [← List.drop_drop] at hg
    exact hdrop g hg
  -- in an output keys have been passed before, so what is passed now is counted
  have hseen : ∀ a ∈ opened, c.seenKey = true := by
    intro a ha
    refine h.seenKey (h.begun ?_)
    rw [show opened = some a from ha]
    rfl
  by_cases hstop : maxGrandParentOverlapBytes maxFileSize <
    if c.seenKey = true then c.overlappedBytes + bytes else c.overlappedBytes
  · rw [if_pos hstop] at hstep
    obtain ⟨rfl, rfl⟩ := Prod.mk.inj hstep
    exact ⟨rfl, hpassed, hreached, fun _ => rfl, fun h => (by cases h),
      (Int.natCast_nonneg _).trans h.bounded, fun _ h => (by cases h)⟩
  · rw [if_neg hstop] at hstep
    obtain ⟨rfl, rfl⟩ := Prod.mk.inj hstep
    refine ⟨rfl, hpassed, hreached, fun _ => rfl, fun _ => rfl, Int.not_lt.mp hstop,
      fun a ha => ?_⟩
    have hcounted := h.counted a ha
    have hnew := totalFileSize_filter_le
      (fun g => ucmp.internalCompare g.largest a ≠ .lt) ((files.drop c.grandparentIndex).take n)
    rw [← bytesFrom, hsum] at hnew
    rw [List.take_add, bytesFrom_append, if_pos (hseen a ha)]
    dsimp only
    omega

/-- An output that ends no later than the last key is within the bound. -/
theorem overlapBounded (h : Passing ucmp maxFileSize files last (some a) c)
    (hs : SortedLevel ucmp files) (hb : ∃ k ∈ last, ucmp.internalCompare b k ≠ .gt) :
    OverlapBounded ucmp maxFileSize files ⟨a, b⟩ := by
  have hsplit : overlapBytes ucmp files ⟨a, b⟩ =
      overlapBytes ucmp (files.take c.grandparentIndex) ⟨a, b⟩ +
        overlapBytes ucmp (files.drop c.grandparentIndex) ⟨a, b⟩ := by
    rw [overlapBytes, overlapBytes, overlapBytes, ← totalFileSize_append, ← List.filter_append,
      List.take_append_drop]
  have hpassed := @overlapBytes_le_bytesFrom ucmp (files.take c.grandparentIndex) ⟨a, b⟩
  have hcounted := h.counted a rfl
  have hbounded := h.bounded
  obtain ⟨k, hk, hle⟩ := hb
  rcases @overlapBytes_reached ucmp _ a b (hs.drop c.grandparentIndex) fun g hg =>
    not_gt_trans hle (h.reached k hk g hg) with hzero | ⟨g, hg, hone⟩
  · refine .inl ?_
    dsimp only at hpassed
    omega
  · refine .inr ⟨g, List.mem_of_mem_drop hg, ?_⟩
    dsimp only at hpassed
    omega

end Passing

/-! ## The outputs of a stream -/

/-- A key of the stream: whether it is kept, and whether the output is cut behind it for another
reason. -/
structure StreamKey where
  key : Bytes
  kept : Bool
  cut : Bool
  deriving DecidableEq, Repr

/-- The compaction, the keys of the current output, and those of the outputs before it. -/
structure CutState where
  compaction : Compaction
  current : List Bytes
  outputs : List (List Bytes)

namespace CutState

variable (s : CutState)

/-- The current output ends. -/
def cut : CutState := { s with current := [], outputs := s.outputs ++ [s.current] }

/-- A key is passed to `ShouldStopBefore`, and the current output ends where it says so. -/
def pass (ucmp : Comparator) (maxFileSize : Nat) (key : Bytes) : CutState :=
  let (stop, compaction) := s.compaction.shouldStopBefore ucmp maxFileSize key
  if stop then { s with compaction }.cut else { s with compaction }

/-- The key goes into the current output. -/
def keep (key : Bytes) : CutState := { s with current := s.current ++ [key] }

/-- One key of the stream. -/
def step (ucmp : Comparator) (maxFileSize : Nat) (k : StreamKey) : CutState :=
  let s := s.pass ucmp maxFileSize k.key
  let s := if k.kept then s.keep k.key else s
  if k.cut then s.cut else s

end CutState

/-- The keys of the outputs that a stream is written to. -/
def streamOutputs (ucmp : Comparator) (maxFileSize : Nat) (c : Compaction)
    (stream : List StreamKey) : List (List Bytes) :=
  (stream.foldl (fun (s : CutState) k => s.step ucmp maxFileSize k) ⟨c, [], []⟩).cut.outputs

/-- The range of the keys of an output is within the bound. -/
def OutputBounded (ucmp : Comparator) (maxFileSize : Nat) (files : List TableFile)
    (output : List Bytes) : Prop :=
  ∀ first ∈ output.head?, ∀ last ∈ output.getLast?,
    OverlapBounded ucmp maxFileSize files ⟨first, last⟩

/-- The place among the grandparents, with the current output up to the last key, and the outputs
before it within the bound. -/
structure CutState.Ok (ucmp : Comparator) (maxFileSize : Nat) (files : List TableFile)
    (last : Option Bytes) (s : CutState) : Prop where
  passing : Passing ucmp maxFileSize files last s.current.head? s.compaction
  current : ∀ a ∈ s.current, ∃ k ∈ last, ucmp.internalCompare a k ≠ .gt
  outputs : ∀ output ∈ s.outputs, OutputBounded ucmp maxFileSize files output

namespace CutState.Ok

variable {s : CutState}

theorem cut (h : s.Ok ucmp maxFileSize files last) (hs : SortedLevel ucmp files) :
    s.cut.Ok ucmp maxFileSize files last := by
  refine ⟨h.passing.close, (fun _ h => absurd h List.not_mem_nil), fun output houtput => ?_⟩
  rcases List.mem_append.mp houtput with hmem | hmem
  · exact h.outputs output hmem
  · obtain rfl := List.mem_singleton.mp hmem
    intro first hfirst b hb
    have hpassing := h.passing
    rw [show s.current.head? = some first from hfirst] at hpassing
    exact hpassing.overlapBounded hs (h.current b (List.mem_of_getLast? hb))

theorem pass (h : s.Ok ucmp maxFileSize files last) (hs : SortedLevel ucmp files)
    (hkey : ∀ k ∈ last, ucmp.internalCompare k key ≠ .gt) :
    (s.pass ucmp maxFileSize key).Ok ucmp maxFileSize files (some key) := by
  have hbehind : ∀ a ∈ s.current, ∃ k ∈ some key, ucmp.internalCompare a k ≠ .gt := by
    intro a ha
    obtain ⟨k, hk, hle⟩ := h.current a ha
    exact ⟨key, rfl, not_gt_trans hle (hkey k hk)⟩
  rcases hstep : s.compaction.shouldStopBefore ucmp maxFileSize key with ⟨stop, c⟩
  have hpassing := h.passing.shouldStopBefore hs hkey hstep
  rw [CutState.pass, hstep]
  cases stop with
  | true => exact ⟨hpassing, (fun _ h => absurd h List.not_mem_nil), (h.cut hs).outputs⟩
  | false => exact ⟨hpassing, hbehind, h.outputs⟩

/-- The last key is kept. -/
theorem keep (h : s.Ok ucmp maxFileSize files (some key)) :
    (s.keep key).Ok ucmp maxFileSize files (some key) := by
  refine ⟨?_, fun a ha => ?_, h.outputs⟩
  · rw [CutState.keep]
    cases hcurrent : s.current with
    | nil => exact h.passing.openAt
    | cons a rest =>
      have hpassing := h.passing
      rw [hcurrent] at hpassing
      exact hpassing
  · rcases List.mem_append.mp ha with ha | ha
    · exact h.current a ha
    · exact ⟨key, rfl, List.mem_singleton.mp ha ▸ not_gt_self⟩

theorem step (h : s.Ok ucmp maxFileSize files last) (hs : SortedLevel ucmp files) {k : StreamKey}
    (hkey : ∀ k' ∈ last, ucmp.internalCompare k' k.key ≠ .gt) :
    (s.step ucmp maxFileSize k).Ok ucmp maxFileSize files (some k.key) := by
  have hpass := h.pass hs hkey
  have hkept : (if k.kept = true then (s.pass ucmp maxFileSize k.key).keep k.key
      else s.pass ucmp maxFileSize k.key).Ok ucmp maxFileSize files (some k.key) := by
    split
    · exact hpass.keep
    · exact hpass
  rw [CutState.step]
  split
  · exact hkept.cut hs
  · exact hkept

end CutState.Ok

/-- Every output of a sorted stream is within the bound, however the stream is cut. -/
theorem streamOutputs_bounded (hbound : 0 ≤ maxGrandParentOverlapBytes maxFileSize)
    (hfresh : c.Fresh) (hs : SortedLevel ucmp c.grandparents)
    (stream : List StreamKey)
    (hsorted : stream.Pairwise fun k k' => ucmp.internalCompare k.key k'.key ≠ .gt) :
    ∀ output ∈ streamOutputs ucmp maxFileSize c stream,
      OutputBounded ucmp maxFileSize c.grandparents output := by
  have hfold : ∀ (stream : List StreamKey) (s : CutState) (last : Option Bytes),
      s.Ok ucmp maxFileSize c.grandparents last →
      (∀ k ∈ last, ∀ k' ∈ stream, ucmp.internalCompare k k'.key ≠ .gt) →
      (stream.Pairwise fun k k' => ucmp.internalCompare k.key k'.key ≠ .gt) →
      ∃ last,
        (stream.foldl (fun (s : CutState) k => s.step ucmp maxFileSize k) s).Ok ucmp maxFileSize
        c.grandparents last := by
    intro stream
    induction stream with
    | nil => exact fun s last h _ _ => ⟨last, h⟩
    | cons k stream ih =>
      intro s last h hlast hsorted
      obtain ⟨hfirst, hrest⟩ := List.pairwise_cons.mp hsorted
      refine ih _ _ (h.step hs fun k' hk' => hlast k' hk' k List.mem_cons_self) ?_ hrest
      intro k' hk' x hx
      rw [← Option.some.inj hk']
      exact hfirst x hx
  obtain ⟨last, hok⟩ := hfold stream ⟨c, [], []⟩ none
    ⟨Passing.init hfresh hbound, (fun _ h => absurd h List.not_mem_nil),
      (fun _ h => absurd h List.not_mem_nil)⟩ (fun _ h => nomatch h) hsorted
  exact (hok.cut hs).outputs

/-! ## The outputs of a compaction -/

namespace CompactionState

/-- The keys of the outputs. -/
def cutState (st : CompactionState) : CutState where
  compaction := st.compaction
  current := ((st.builder.map OpenOutput.entries).getD []).map TableEntry.key
  outputs := st.outputs.map fun p => p.2.map TableEntry.key

/-- The place among the grandparents, and the outputs within the bound. -/
abbrev CutOk (ucmp : Comparator) (maxFileSize : Nat) (files : List TableFile)
    (last : Option Bytes) (st : CompactionState) : Prop :=
  st.cutState.Ok ucmp maxFileSize files last

variable {st : CompactionState} {e : TableEntry} {keys : KeyState}

theorem cutState_finishCompactionOutputFile (env : FinishEnv) {o : OpenOutput}
    (ho : st.builder = some o) :
    (st.finishCompactionOutputFile env o).2.cutState = st.cutState.cut := by
  rw [finishCompactionOutputFile]
  dsimp only
  split_ifs
  all_goals simp [cutState, CutState.cut, ho]

theorem CutOk.finishOpenOutput (h : st.CutOk ucmp maxFileSize files last)
    (hs : SortedLevel ucmp files) (env : FinishEnv) :
    (st.finishOpenOutput env).2.CutOk ucmp maxFileSize files last := by
  cases ho : st.builder with
  | none =>
    rw [CompactionState.finishOpenOutput, ho]
    exact h
  | some o =>
    rw [CompactionState.finishOpenOutput, ho, CutOk, cutState_finishCompactionOutputFile env ho]
    exact CutState.Ok.cut h hs

/-- The beginning of a round passes the key. -/
theorem CutOk.startRound (h : st.CutOk ucmp maxFileSize files last) (hs : SortedLevel ucmp files)
    (hkey : ∀ k ∈ last, ucmp.internalCompare k key ≠ .gt) (env : RoundEnv) :
    (st.startRound ucmp maxFileSize env key).2.CutOk ucmp maxFileSize files (some key) := by
  have hpass := CutState.Ok.pass h hs hkey
  rcases hstep : st.compaction.shouldStopBefore ucmp maxFileSize key with ⟨stop, c⟩
  rw [CutState.pass, show st.cutState.compaction = st.compaction from rfl, hstep] at hpass
  rw [CompactionState.startRound, hstep]
  cases stop with
  | false => exact hpass
  | true =>
    dsimp only at hpass ⊢
    rw [if_pos rfl] at hpass ⊢
    rw [CompactionState.finishOpenOutput]
    dsimp only
    cases ho : st.builder with
    | none =>
      -- no output is cut, and none goes on
      exact ⟨hpass.passing, (fun _ h => absurd h List.not_mem_nil), h.outputs⟩
    | some o =>
      have hcurrent : st.cutState.current = o.entries.map TableEntry.key := by
        rw [cutState, ho]
        rfl
      rw [hcurrent] at hpass
      dsimp only
      rw [CutOk, cutState_finishCompactionOutputFile env.stopFinish rfl]
      exact hpass

/-- The decision about an entry does not move the place among the grandparents. -/
theorem passing_dropEntry (h : Passing ucmp maxFileSize files last opened c) (n : Nat)
    (keys : KeyState) :
    Passing ucmp maxFileSize files last opened (dropEntry ucmp n keys c key).2.2 := by
  have hbase : ∀ userKey, Passing ucmp maxFileSize files last opened
      (c.isBaseLevelForKey ucmp userKey).2 := fun _ =>
    ⟨h.grandparents, h.passed, h.reached, h.seenKey, h.begun, h.bounded, h.counted⟩
  rw [dropEntry]
  split
  · exact h
  · dsimp only
    split_ifs
    all_goals first | exact hbase _ | exact h

/-- The entry of the last key is kept, in the current output or in a new one. -/
theorem CutOk.keepEntry (h : st.CutOk ucmp maxFileSize files (some e.key))
    (hs : SortedLevel ucmp files) (env : RoundEnv) (keys : KeyState) :
    (st.keepEntry env keys e).2.CutOk ucmp maxFileSize files (some e.key) := by
  have hadd : ∀ (st' : CompactionState) (o : OpenOutput), st'.builder = some o →
      st'.CutOk ucmp maxFileSize files (some e.key) →
      (if (st'.addEntry keys e o).compaction.maxOutputFileSize ≤ env.builderSize then
        (st'.addEntry keys e o).finishOpenOutput env.fullFinish
      else (.ok, st'.addEntry keys e o)).2.CutOk ucmp maxFileSize files (some e.key) := by
    intro st' o ho h'
    have hkeep : (st'.addEntry keys e o).cutState = st'.cutState.keep e.key := by
      simp [cutState, CutState.keep, CompactionState.addEntry, ho]
    have hkept : (st'.addEntry keys e o).CutOk ucmp maxFileSize files (some e.key) := by
      rw [CutOk, hkeep]
      exact CutState.Ok.keep h'
    split
    · exact hkept.finishOpenOutput hs _
    · exact hkept
  rw [CompactionState.keepEntry]
  cases ho : st.builder with
  | some o =>
    dsimp only
    rw [ho]
    exact hadd st o ho h
  | none =>
    have hcurrent : st.cutState.current = [] := by
      rw [cutState, ho]
      rfl
    rw [openCompactionOutputFile]
    by_cases hnew : env.newWritableFile = .ok
    · rw [if_pos hnew]
      refine hadd { st with builder := some ⟨⟨env.newFileNumber, 0, [], []⟩, []⟩ } _ rfl ?_
      obtain ⟨hpassing, -, houtputs⟩ := h
      rw [hcurrent] at hpassing
      exact ⟨hpassing, (fun _ h => absurd h List.not_mem_nil), houtputs⟩
    · rw [if_neg hnew]
      dsimp only
      rw [ho]
      have hcut := CutState.Ok.cut h hs
      rw [CutState.cut, hcurrent] at hcut
      rw [CutOk, cutState, List.map_append]
      exact hcut

/-- One round of the loop. -/
theorem CutOk.round (h : st.CutOk ucmp maxFileSize files last) (hs : SortedLevel ucmp files)
    (hkey : ∀ k ∈ last, ucmp.internalCompare k e.key ≠ .gt) (env : RoundEnv) (keys : KeyState) :
    (st.round ucmp maxFileSize env keys e).2.2.CutOk ucmp maxFileSize files (some e.key) := by
  have hstart := h.startRound hs hkey env
  rw [CompactionState.round]
  generalize st.startRound ucmp maxFileSize env e.key = start at hstart
  obtain ⟨status, st'⟩ := start
  dsimp only
  split
  · have hdrop : CutOk ucmp maxFileSize files (some e.key) { st' with
        compaction := (dropEntry ucmp st'.smallestSnapshot keys st'.compaction e.key).2.2 } :=
      ⟨passing_dropEntry hstart.passing _ _, hstart.current, hstart.outputs⟩
    split
    · exact hdrop
    · exact hdrop.keepEntry hs env _
  · exact hstart

/-- The whole loop. -/
theorem CutOk.loop (h : st.CutOk ucmp maxFileSize files last) (hs : SortedLevel ucmp files)
    (rounds : List (TableEntry × RoundEnv)) (keys : KeyState)
    (hlast : ∀ k ∈ last, ∀ r ∈ rounds, ucmp.internalCompare k r.1.key ≠ .gt)
    (hsorted : rounds.Pairwise fun r r' => ucmp.internalCompare r.1.key r'.1.key ≠ .gt) :
    ∃ last, (st.loop ucmp maxFileSize rounds keys).2.2.CutOk ucmp maxFileSize files last := by
  induction rounds generalizing st keys last with
  | nil => exact ⟨last, h⟩
  | cons r rounds ih =>
    obtain ⟨e, env⟩ := r
    obtain ⟨hfirst, hrest⟩ := List.pairwise_cons.mp hsorted
    rw [CompactionState.loop]
    split
    · exact ⟨last, h⟩
    · have hround := h.round hs (fun k hk => hlast k hk _ List.mem_cons_self) env keys
      generalize st.round ucmp maxFileSize env keys e = next at hround
      obtain ⟨status, keys', st'⟩ := next
      dsimp only
      split
      · refine ih hround keys' (fun k hk r hr => ?_) hrest
        rw [← Option.some.inj hk]
        exact hfirst r hr
      · exact ⟨some e.key, hround⟩

end CompactionState

/-- Every output that a compaction installs is within the bound. -/
theorem doCompactionWork_bounded {env : WorkEnv} {n : Nat}
    (hbound : 0 ≤ maxGrandParentOverlapBytes maxFileSize) (hfresh : c.Fresh)
    (hs : SortedLevel ucmp c.grandparents)
    (hsorted : env.input.Pairwise fun e e' => ucmp.internalCompare e.key e'.key ≠ .gt) :
    ∀ p ∈ (doCompactionWork ucmp maxFileSize env c n).state.outputs,
      OutputBounded ucmp maxFileSize c.grandparents (p.2.map TableEntry.key) := by
  rw [WorkEnv.input, List.pairwise_map] at hsorted
  have hinit : (CompactionState.init c n).CutOk ucmp maxFileSize c.grandparents none :=
    ⟨Passing.init hfresh hbound, (fun _ h => absurd h List.not_mem_nil),
      (fun _ h => absurd h List.not_mem_nil)⟩
  obtain ⟨last, hloop⟩ := hinit.loop hs env.rounds .init (fun _ h => nomatch h) hsorted
  have hmem : ∀ st : CompactionState, st.CutOk ucmp maxFileSize c.grandparents last →
      ∀ p ∈ st.outputs, OutputBounded ucmp maxFileSize c.grandparents (p.2.map TableEntry.key) :=
    fun st h p hp => h.outputs _ (List.mem_map_of_mem hp)
  rw [doCompactionWork]
  generalize CompactionState.loop ucmp maxFileSize env.rounds .init (.init c n) = run at hloop
  obtain ⟨status, left, st⟩ := run
  dsimp only at hloop ⊢
  split_ifs
  all_goals first | exact hmem _ hloop | exact hmem _ (hloop.finishOpenOutput hs _)

/-- The outputs of a compaction overlap no more bytes of its grandparents than the bound and one
file. So do those of any sorted stream of keys, whatever is dropped and wherever it is cut besides,
and those that `DoCompactionWork` installs. -/
structure Compaction.OverlapsBounded (ucmp : Comparator) (maxFileSize : Nat) (c : Compaction) :
    Prop where
  stream : ∀ stream : List StreamKey,
    (stream.Pairwise fun k k' => ucmp.internalCompare k.key k'.key ≠ .gt) →
      ∀ output ∈ streamOutputs ucmp maxFileSize c stream,
        OutputBounded ucmp maxFileSize c.grandparents output
  work : ∀ (env : WorkEnv) (smallestSnapshot : Nat),
    (env.input.Pairwise fun e e' => ucmp.internalCompare e.key e'.key ≠ .gt) →
      (doCompactionWork ucmp maxFileSize env c smallestSnapshot).install.isSome →
        ∀ p ∈ (doCompactionWork ucmp maxFileSize env c smallestSnapshot).state.outputs,
          OverlapBounded ucmp maxFileSize c.grandparents ⟨p.1.smallest, p.1.largest⟩

/-- A bound that is not negative is kept. -/
theorem overlapsBounded_of_nonneg (hbound : 0 ≤ maxGrandParentOverlapBytes maxFileSize)
    (hfresh : c.Fresh) (hs : SortedLevel ucmp c.grandparents) :
    c.OverlapsBounded ucmp maxFileSize := by
  refine ⟨streamOutputs_bounded hbound hfresh hs, fun env n hsorted hinstall p hp => ?_⟩
  obtain ⟨hok, -⟩ := (@doCompactionWork_written ucmp maxFileSize env c n).1 hinstall
  obtain ⟨hfirst, hlast⟩ := hok.outputs p hp
  refine doCompactionWork_bounded hbound hfresh hs hsorted p hp _ ?_ _ ?_
  · rw [List.head?_map]
    exact hfirst
  · rw [List.getLast?_map]
    exact hlast

/-- A negative bound is exceeded by each output that meets as many bytes as one of the files has. -/
theorem not_overlapBounded_of_neg (hbound : maxGrandParentOverlapBytes maxFileSize < 0)
    {r : KeyRange Bytes} (hmeets : ∀ g ∈ files, g.fileSize ≤ overlapBytes ucmp files r) :
    ¬ OverlapBounded ucmp maxFileSize files r := by
  rintro (hle | ⟨g, hg, hle⟩)
  · omega
  · have hsize := hmeets g hg
    omega

/-- The product of the bound is negative when its 32 bits are those of a negative number. -/
theorem maxGrandParentOverlapBytes_nonneg_iff (maxFileSize : Nat) :
    0 ≤ maxGrandParentOverlapBytes maxFileSize ↔ 10 * maxFileSize % 2 ^ 32 < 2 ^ 31 := by
  obtain ⟨q, hq⟩ : ∃ q : Int, toInt32 maxFileSize = maxFileSize + 2 ^ 32 * q := by
    refine ⟨(toInt32 maxFileSize - maxFileSize) / 2 ^ 32, ?_⟩
    unfold toInt32
    split_ifs <;> omega
  have hbits : 10 * toInt32 maxFileSize % ((2 ^ 32 : Nat) : Int) =
      ((10 * maxFileSize % 2 ^ 32 : Nat) : Int) := by
    rw [hq, mul_add, mul_left_comm]
    exact Int.add_mul_emod_self_left ..
  have hlt : 10 * maxFileSize % 2 ^ 32 < 2 ^ 32 := Nat.mod_lt _ (by decide)
  clear hq
  rw [maxGrandParentOverlapBytes, targetFileSize, Int.bmod_def, hbits]
  generalize 10 * maxFileSize % 2 ^ 32 = bits at hlt ⊢
  split_ifs <;> omega

/-- An internal key of one letter. -/
def letterKey (letter : Char) : Bytes := appendInternalKey ⟨ascii [letter], 1, .value⟩

/-- A compaction over one grandparent that holds a single key. -/
def oneGrandparent (maxFileSize : Nat) (key : Bytes) : Compaction :=
  { Compaction.new maxFileSize 1 ⟨fun _ => []⟩ [] with grandparents := [⟨1, 1, key, key⟩] }

/-- With a negative bound the key of the grandparent is an output of its own. -/
theorem streamOutputs_oneGrandparent (hbound : maxGrandParentOverlapBytes maxFileSize < 0)
    (key : Bytes) :
    streamOutputs ucmp maxFileSize (oneGrandparent maxFileSize key) [⟨key, true, false⟩] =
      [[], [key]] := by
  have hscan : scanGrandparents ucmp key [⟨1, 1, key, key⟩] = (0, 0) := by
    rw [scanGrandparents, if_neg not_gt_self]
  simp [streamOutputs, CutState.step, CutState.pass, CutState.keep, CutState.cut,
    Compaction.shouldStopBefore, oneGrandparent, Compaction.new, hscan, hbound]

/-- The outputs of all compactions are within the bound exactly when the `int` product that makes
it does not come out negative, as it does for 256 MB. -/
theorem compaction_overlapBounded_iff (ucmp : Comparator) (maxFileSize : Nat) :
    (∀ c : Compaction, c.Fresh → SortedLevel ucmp c.grandparents →
      c.OverlapsBounded ucmp maxFileSize) ↔ 10 * maxFileSize % 2 ^ 32 < 2 ^ 31 := by
  rw [← maxGrandParentOverlapBytes_nonneg_iff]
  refine ⟨fun h => ?_, fun hbound c => overlapsBounded_of_nonneg hbound⟩
  by_contra hneg
  have hneg' := Int.not_le.mp hneg
  have hs : SortedLevel ucmp (oneGrandparent maxFileSize (letterKey 'a')).grandparents := by
    refine ⟨fun f hf => ?_, List.pairwise_singleton ..⟩
    obtain rfl := List.mem_singleton.mp hf
    exact not_gt_self
  have hbounded := (h (oneGrandparent maxFileSize (letterKey 'a')) ⟨rfl, rfl, rfl⟩ hs).stream
    [⟨letterKey 'a', true, false⟩] (List.pairwise_singleton ..) [letterKey 'a']
    (by rw [streamOutputs_oneGrandparent hneg']; simp) (letterKey 'a') rfl (letterKey 'a') rfl
  refine not_overlapBounded_of_neg hneg' (fun g hg => ?_) hbounded
  obtain rfl := List.mem_singleton.mp hg
  have hmeets : ¬ KeyRange.Before ucmp.internalCompare ⟨letterKey 'a', letterKey 'a'⟩
      ⟨letterKey 'a', letterKey 'a'⟩ := by
    intro hlt
    exact Ordering.noConfusion (Std.ReflCmp.compare_self.symm.trans hlt)
  simp [overlapBytes, oneGrandparent, FileMetaData.range, hmeets, totalFileSize]

/-- A compaction over three grandparents of 9 MB. -/
def threeGrandparents (maxFileSize : Nat) : Compaction :=
  { Compaction.new maxFileSize 1 ⟨fun _ => []⟩ [] with
    grandparents := [⟨1, 9437184, letterKey 'a', letterKey 'c'⟩,
      ⟨2, 9437184, letterKey 'd', letterKey 'f'⟩, ⟨3, 9437184, letterKey 'g', letterKey 'i'⟩] }

theorem sortedLevel_threeGrandparents (maxFileSize : Nat) :
    SortedLevel bytewiseComparator (threeGrandparents maxFileSize).grandparents := by
  refine ⟨?_, ?_⟩
  · intro f hf
    simp only [threeGrandparents, List.mem_cons, List.not_mem_nil, or_false] at hf
    rcases hf with rfl | rfl | rfl
    all_goals
      rw [KeyRange.Proper]
      decide +kernel
  · simp only [threeGrandparents, List.pairwise_cons, KeyRange.Before]
    decide +kernel

/-- Three keys, each inside of a grandparent. -/
def threeKeys : List StreamKey :=
  [⟨letterKey 'b', true, false⟩, ⟨letterKey 'e', true, false⟩, ⟨letterKey 'h', true, false⟩]

/-- With files of 1 MB the outputs are cut in front of the third key. -/
theorem compaction_overlapBounded_three :
    OutputBounded bytewiseComparator (2 ^ 20) (threeGrandparents (2 ^ 20)).grandparents
      [letterKey 'b', letterKey 'e'] ∧
    OutputBounded bytewiseComparator (2 ^ 20) (threeGrandparents (2 ^ 20)).grandparents
      [letterKey 'h'] := by
  have hbound := ((compaction_overlapBounded_iff bytewiseComparator (2 ^ 20)).mpr (by decide)
    (threeGrandparents (2 ^ 20)) ⟨rfl, rfl, rfl⟩ (sortedLevel_threeGrandparents _)).stream
    threeKeys (by simp only [threeKeys, List.pairwise_cons]; decide +kernel)
  have houtputs : streamOutputs bytewiseComparator (2 ^ 20) (threeGrandparents (2 ^ 20))
      threeKeys = [[letterKey 'b', letterKey 'e'], [letterKey 'h']] := by decide +kernel
  rw [houtputs] at hbound
  exact ⟨hbound _ (by simp), hbound _ (by simp)⟩

/-- With files of 256 MB the bound is negative: every key is cut off, and each output meets 9 MB
where no more than the bound and one file, less than nothing, is allowed. -/
theorem threeGrandparents_not_bounded :
    maxGrandParentOverlapBytes (2 ^ 28) = -1610612736 ∧
    (threeGrandparents (2 ^ 28)).Fresh ∧
    SortedLevel bytewiseComparator (threeGrandparents (2 ^ 28)).grandparents ∧
    (threeKeys.Pairwise fun k k' => bytewiseComparator.internalCompare k.key k'.key ≠ .gt) ∧
    streamOutputs bytewiseComparator (2 ^ 28) (threeGrandparents (2 ^ 28)) threeKeys =
      [[], [letterKey 'b'], [letterKey 'e'], [letterKey 'h']] ∧
    ¬ OutputBounded bytewiseComparator (2 ^ 28) (threeGrandparents (2 ^ 28)).grandparents
      [letterKey 'b'] := by
  have hnegative : maxGrandParentOverlapBytes (2 ^ 28) = -1610612736 := by decide
  refine ⟨hnegative, ⟨rfl, rfl, rfl⟩, sortedLevel_threeGrandparents _, ?_, by decide +kernel,
    fun hbounded => ?_⟩
  · simp only [threeKeys, List.pairwise_cons]
    decide +kernel
  · have hoverlap : overlapBytes bytewiseComparator (threeGrandparents (2 ^ 28)).grandparents
        ⟨letterKey 'b', letterKey 'b'⟩ = 9437184 := by decide +kernel
    have hkey : OverlapBounded bytewiseComparator (2 ^ 28)
        (threeGrandparents (2 ^ 28)).grandparents ⟨letterKey 'b', letterKey 'b'⟩ :=
      hbounded _ rfl _ rfl
    refine not_overlapBounded_of_neg (by rw [hnegative]; decide) (fun g hg => ?_) hkey
    rw [hoverlap]
    simp only [threeGrandparents, List.mem_cons, List.not_mem_nil, or_false] at hg
    rcases hg with rfl | rfl | rfl <;> exact le_rfl

end WiscKey
