import WiscKey.Flash.Device
import WiscKey.Flash.TraceFile
import WiscKey.Library.Outcome
import WiscKey.Trace.State

/-!
# The operations of the trace

`GetOneOperation` reads the whole trace at its first call, once to count the operations and once
to store them, and then hands them out one by one, from a random one on after every unit. It
looks at the end of a range only, and reads the last line of the file twice.
-/

namespace WiscKey.Flash

/-- `TRACE_UNIT`. -/
def traceUnit : Nat := 372

/-- `OperationRange_t`. -/
structure OperationRange where
  accessType : WiscKey.AccessType
  startLBA : Int
  endLBA : Int
  deriving DecidableEq, Repr

/-- The parameters of the simulation that the replay looks at. -/
structure TraceSetup where
  geometry : Geometry
  badBlockCnt : Nat
  evaluatedAccessType : String
  inputFileRewindTimes : Int
  isDoSimulationUntilFirstBlockWornOut : Bool
  blockEndurance : Int

/-- A sum of two `int`s that has to be one. -/
def sumInt (a b : Int) : Except TraceFault Int :=
  if IsInt (a + b) then .ok (a + b) else .error .overflow

namespace TraceSetup

variable (c : TraceSetup)

/-- `MaxLBA`. -/
def maxLBA : Int := Flash.maxLBA c.geometry c.badBlockCnt

/-- The access type of a line whose type is evaluated. -/
def evaluated (readWriteString : Bytes) : Option WiscKey.AccessType :=
  let first := readWriteString.headD 0
  if (first = 87 ∨ first = 119) ∧ (c.evaluatedAccessType = "W" ∨ c.evaluatedAccessType = "RW") then
    some .writeType
  else if (first = 82 ∨ first = 114) ∧
      (c.evaluatedAccessType = "R" ∨ c.evaluatedAccessType = "RW") then
    some .readType
  else none

/-- The operation of the scanned variables, if it is evaluated and ends below `MaxLBA`. -/
def fit (v : ScanVars) : Except TraceFault (Option OperationRange) :=
  match c.evaluated v.readWriteString with
  | none => .ok none
  | some accessType => do
    let before ← sumInt v.startLBA (-1)
    let endLBA ← sumInt before v.len
    if endLBA < c.maxLBA then .ok (some ⟨accessType, v.startLBA, endLBA⟩) else .ok none

/-- The body of the first loop: `OperationCnt++`. -/
def countOperation (operationCnt : Nat) (v : ScanVars) : Except TraceFault Nat :=
  match c.fit v with
  | .error e => .error e
  | .ok none => .ok operationCnt
  | .ok (some _) => .ok (operationCnt + 1)

/-- The body of the second loop, on an array of `operationCnt` operations. -/
def storeOperation (operationCnt : Nat) (traceOperation : List OperationRange) (v : ScanVars) :
    Except TraceFault (List OperationRange) :=
  match c.fit v with
  | .error e => .error e
  | .ok none => .ok traceOperation
  | .ok (some r) =>
    if traceOperation.length < operationCnt then .ok (traceOperation ++ [r]) else .error .badIndex

/-- The two passes over the file: `TraceOperation` and `OperationCnt`. The first one begins with
whatever is in the variables, which are not initialised. -/
def parseTrace (file : Bytes) (v : ScanVars) : Except TraceFault (List OperationRange × Nat) := do
  let (operationCnt, v) ← scanTrace c.countOperation ⟨file, false⟩ v 0
  let (traceOperation, _) ← scanTrace (c.storeOperation operationCnt) ⟨file, false⟩ v []
  .ok (traceOperation, operationCnt)

end TraceSetup

/-- The static variables of `GetOneOperation`. -/
structure TraceStatics where
  isParseTraceFile : Bool
  traceOperation : List OperationRange
  operationCnt : Nat
  currentOperationCnt : Nat
  currentRewindTimes : Nat
  randomIndex : Nat

/-- The maps of the accessed pages and the numbers of their flags. -/
structure AccessedPages where
  accessedLogicalPages : Int
  accessedLogicalPageMap : Int → Bool
  totalAccessedLogicalPages : Int
  totalAccessedLogicalPageMap : Int → Bool

/-- The state that `GetOneOperation` works on. -/
structure TraceReplay where
  statics : TraceStatics
  pages : AccessedPages

/-- The state before the first call. -/
def TraceReplay.init : TraceReplay where
  statics := ⟨false, [], 0, 0, 0, 0⟩
  pages := ⟨0, fun _ => false, 0, fun _ => false⟩

/-- The trace begins again. -/
def TraceReplay.rewind (s : TraceReplay) : TraceReplay :=
  { s with statics := { s.statics with
    currentOperationCnt := 0
    currentRewindTimes := s.statics.currentRewindTimes + 1 } }

/-- What a call is given: the mode, the erase count that the simulation has come to, and the index
that is drawn from `rand()` where the call ends a unit. -/
structure TraceCall where
  subPageLevel : Bool
  maxBlockEraseCnt : Nat
  drawnIndex : Nat

/-- What a call returns. `wornOut` has the terms of the number of rounds that is printed:
`CurrentRewindTimes` and `CurrentOperationCnt / OperationCnt`. -/
inductive TraceOutcome
  /-- `True`, with the operation made of an entry of the trace. -/
  | operation (range : OperationRange) (op : Operation)
  /-- `False`, behind the last round. -/
  | finished
  /-- `False`, as a block is worn out. -/
  | wornOut (rewinds current count : Nat)

/-- A page counts as accessed, once in each of the maps. -/
def AccessedPages.touch (s : AccessedPages) (i : Int) : AccessedPages where
  accessedLogicalPages :=
    if s.accessedLogicalPageMap i then s.accessedLogicalPages else s.accessedLogicalPages + 1
  accessedLogicalPageMap := Function.update s.accessedLogicalPageMap i true
  totalAccessedLogicalPages :=
    if s.totalAccessedLogicalPageMap i then s.totalAccessedLogicalPages
    else s.totalAccessedLogicalPages + 1
  totalAccessedLogicalPageMap := Function.update s.totalAccessedLogicalPageMap i true

namespace TraceSetup

variable (c : TraceSetup)

/-- The cluster of an address: the address itself in the mode of sub-pages. -/
def toCluster (subPageLevel : Bool) (lba : Int) : Int :=
  if subPageLevel then lba else lba.tdiv c.geometry.pageToLBARatio

/-- `*AccessType`, `*StartCluster` and `*Length` of an entry. -/
def translate (subPageLevel : Bool) (r : OperationRange) : Except TraceFault Operation := do
  let startCluster := c.toCluster subPageLevel r.startLBA
  let steps ← sumInt (c.toCluster subPageLevel r.endLBA) (-startCluster)
  let length ← sumInt steps 1
  .ok ⟨r.accessType, startCluster, length⟩

/-- The indices of the loop over the maps: `Length` many, from the first page on. -/
def pageIndices (subPageLevel : Bool) (op : Operation) : List Int :=
  let first := if subPageLevel then op.startCluster.tdiv c.geometry.maxSubPage else op.startCluster
  (List.range op.length.toNat).map fun i : Nat => first + i

/-- The end of a round of the loop: the operation behind the random index is handed out. -/
def handOut (call : TraceCall) (s : TraceReplay) : Except TraceFault (TraceOutcome × TraceReplay) :=
  let t := s.statics
  if t.operationCnt = 0 then .error .divByZero
  else
    match t.traceOperation[(t.randomIndex + t.currentOperationCnt) % t.operationCnt]? with
    | none => .error .badIndex
    | some r =>
      match c.translate call.subPageLevel r with
      | .error e => .error e
      | .ok op =>
        let currentOperationCnt := t.currentOperationCnt + 1
        .ok (.operation r op, {
          statics := { t with
            currentOperationCnt
            randomIndex :=
              if currentOperationCnt % traceUnit = 0 then call.drawnIndex else t.randomIndex }
          pages := (c.pageIndices call.subPageLevel op).foldl AccessedPages.touch s.pages })

/-- The loop `while(1)`, which leaves the function in its first round. -/
def nextOperation (call : TraceCall) (s : TraceReplay) :
    Except TraceFault (TraceOutcome × TraceReplay) :=
  let t := s.statics
  if c.isDoSimulationUntilFirstBlockWornOut ∧ c.blockEndurance ≤ call.maxBlockEraseCnt then
    .ok (.wornOut t.currentRewindTimes t.currentOperationCnt t.operationCnt, s)
  else if t.operationCnt ≤ t.currentOperationCnt then
    if c.isDoSimulationUntilFirstBlockWornOut ∨ t.currentRewindTimes < c.inputFileRewindTimes then
      c.handOut call s.rewind
    else .ok (.finished, s)
  else c.handOut call s

/-- The first call reads the trace and clears the map of all the pages ever accessed. -/
def load (file : Bytes) (v : ScanVars) (s : TraceReplay) : Except TraceFault TraceReplay :=
  if s.statics.isParseTraceFile then .ok s
  else
    match c.parseTrace file v with
    | .error e => .error e
    | .ok (traceOperation, operationCnt) =>
      .ok {
        statics := { s.statics with
          isParseTraceFile := true
          traceOperation
          operationCnt
          currentOperationCnt := 0 }
        pages := { s.pages with totalAccessedLogicalPageMap := fun _ => false } }

/-- `GetOneOperation`, with what its variables hold before they are scanned. -/
def getOneOperation (file : Bytes) (v : ScanVars) (call : TraceCall) (s : TraceReplay) :
    Except TraceFault (TraceOutcome × TraceReplay) :=
  match c.load file v s with
  | .error e => .error e
  | .ok s => c.nextOperation call s

end TraceSetup

/-- The variables behind the last line, or those from before where there is no line. -/
def lastVars (lines : List TraceLine) (v : ScanVars) : ScanVars := lines.foldl (fun _ l => l.vars) v

/-- What the body of a loop over the file sees, round by round. -/
def readings (lines : List TraceLine) (v : ScanVars) : List ScanVars :=
  lines.map TraceLine.vars ++ [lastVars lines v]

section Parse

variable {c : TraceSetup} {lines : List TraceLine} {v v' : ScanVars}

/-- A second pass sees what the first one saw. -/
theorem readings_lastVars : readings lines (lastVars lines v) = readings lines v := by
  cases lines with
  | nil => rfl
  | cons l lines => rfl

theorem scanLines_eq_ok {σ : Type} {body : σ → ScanVars → Except TraceFault σ} {s s' : σ} :
    scanLines body lines v s = .ok (s', v') ↔
      (∀ l ∈ lines, l.Readable) ∧ (readings lines v).foldlM body s = .ok s' ∧
        v' = lastVars lines v := by
  induction lines generalizing v s with
  | nil =>
    have hfold : (readings [] v).foldlM body s = body s v := by
      change (body s v >>= fun s' => pure s') = body s v
      rw [bind_pure]
    rw [hfold, scanLines]
    cases body s v with
    | error e =>
      apply iff_of_false
      · intro h
        cases h
      · rintro ⟨-, h, -⟩
        cases h
    | ok s₁ =>
      constructor
      · intro h
        obtain ⟨rfl, rfl⟩ := Prod.mk.inj (Except.ok.inj h)
        exact ⟨fun l hl => (by cases hl), rfl, rfl⟩
      · rintro ⟨-, h, rfl⟩
        rw [Except.ok.inj h]
  | cons l lines ih =>
    have hfold : (readings (l :: lines) v).foldlM body s =
        body s l.vars >>= (readings lines l.vars).foldlM body := rfl
    rw [hfold, scanLines, List.forall_mem_cons]
    by_cases hl : l.Readable
    · rw [if_pos hl]
      cases body s l.vars with
      | error e =>
        apply iff_of_false
        · intro h
          cases h
        · rintro ⟨-, h, -⟩
          cases h
      | ok s₁ =>
        simp only
        rw [ih, and_iff_right hl]
        rfl
    · rw [if_neg hl]
      apply iff_of_false
      · intro h
        cases h
      · exact fun h => hl h.1.1

/-- The sums that give the end of an evaluated range are `int`s. -/
def TraceSetup.RangeDefined (c : TraceSetup) (v : ScanVars) : Prop :=
  c.evaluated v.readWriteString ≠ none → IsInt (v.startLBA - 1) ∧ IsInt (v.startLBA - 1 + v.len)

/-- The range that is stored for the variables. -/
def TraceSetup.range (c : TraceSetup) (v : ScanVars) : Option OperationRange :=
  (c.evaluated v.readWriteString).bind fun accessType =>
    if v.startLBA - 1 + v.len < c.maxLBA then
      some ⟨accessType, v.startLBA, v.startLBA - 1 + v.len⟩
    else none

theorem sumInt_of_isInt {a b n : Int} (hn : a + b = n) (h : IsInt n) : sumInt a b = .ok n := by
  subst hn
  exact if_pos h

theorem sumInt_of_not {a b n : Int} (hn : a + b = n) (h : ¬ IsInt n) :
    sumInt a b = .error .overflow := by
  subst hn
  exact if_neg h

theorem fit_eq_ok {r : Option OperationRange} :
    c.fit v = .ok r ↔ c.RangeDefined v ∧ r = c.range v := by
  unfold TraceSetup.fit TraceSetup.RangeDefined TraceSetup.range
  cases c.evaluated v.readWriteString with
  | none =>
    constructor
    · intro h
      exact ⟨fun hne => absurd rfl hne, (Except.ok.inj h).symm⟩
    · rintro ⟨-, rfl⟩
      rfl
  | some accessType =>
    simp only [ne_eq, reduceCtorEq, not_false_eq_true, forall_true_left, Option.bind_some]
    have hbefore : v.startLBA + -1 = v.startLBA - 1 := rfl
    by_cases hstart : IsInt (v.startLBA - 1)
    · rw [sumInt_of_isInt hbefore hstart, ok_bind]
      by_cases hend : IsInt (v.startLBA - 1 + v.len)
      · rw [sumInt_of_isInt rfl hend, ok_bind, and_iff_right ⟨hstart, hend⟩]
        split
        · exact ⟨fun h => (Except.ok.inj h).symm, fun h => congrArg Except.ok h.symm⟩
        · exact ⟨fun h => (Except.ok.inj h).symm, fun h => congrArg Except.ok h.symm⟩
      · rw [sumInt_of_not rfl hend]
        apply iff_of_false
        · intro h
          cases h
        · exact fun h => hend h.1.2
    · rw [sumInt_of_not hbefore hstart]
      apply iff_of_false
      · intro h
        cases h
      · exact fun h => hstart h.1.1

/-- The first pass counts the ranges, if their ends are `int`s. -/
theorem foldlM_countOperation {vs : List ScanVars} {n n' : Nat} :
    vs.foldlM c.countOperation n = .ok n' ↔
      (∀ v ∈ vs, c.RangeDefined v) ∧ n' = n + (vs.filterMap c.range).length := by
  induction vs generalizing n with
  | nil =>
    constructor
    · intro h
      exact ⟨fun v hv => (nomatch hv), (Except.ok.inj h).symm⟩
    · rintro ⟨-, rfl⟩
      rfl
  | cons v vs ih =>
    rw [List.foldlM_cons, List.forall_mem_cons, List.filterMap_cons, TraceSetup.countOperation]
    by_cases hv : c.RangeDefined v
    · rw [fit_eq_ok.mpr ⟨hv, rfl⟩, and_iff_right hv]
      cases c.range v with
      | none => exact ih
      | some r =>
        refine ih.trans (and_congr_right fun _ => ?_)
        rw [List.length_cons, Nat.add_assoc, Nat.add_comm 1]
    · apply iff_of_false
      · cases hfit : c.fit v with
        | error e =>
          intro h
          cases h
        | ok r => exact absurd (fit_eq_ok.mp hfit).1 hv
      · exact fun h => hv h.1.1

/-- The second pass stores them, as long as the array has room. -/
theorem foldlM_storeOperation {vs : List ScanVars} {ops : List OperationRange} {n : Nat}
    (hvs : ∀ v ∈ vs, c.RangeDefined v) (hroom : ops.length + (vs.filterMap c.range).length ≤ n) :
    vs.foldlM (c.storeOperation n) ops = .ok (ops ++ vs.filterMap c.range) := by
  induction vs generalizing ops with
  | nil => rw [List.filterMap_nil, List.append_nil]; rfl
  | cons v vs ih =>
    obtain ⟨hv, hrest⟩ := List.forall_mem_cons.mp hvs
    rw [List.foldlM_cons, TraceSetup.storeOperation, fit_eq_ok.mpr ⟨hv, rfl⟩]
    rw [List.filterMap_cons] at hroom ⊢
    cases hr : c.range v with
    | none =>
      rw [hr] at hroom
      exact ih hrest hroom
    | some r =>
      rw [hr] at hroom
      simp only [List.length_cons] at hroom ⊢
      rw [if_pos (by omega), ok_bind, ih hrest (by rw [List.length_append]; simpa using by omega),
        List.append_assoc, List.singleton_append]

/-- The two passes agree: what is stored are the ranges of the rounds, and `OperationCnt` is
their number. -/
theorem parseTrace_eq_ok {ops : List OperationRange} {n : Nat} :
    c.parseTrace (traceText lines) v = .ok (ops, n) ↔
      ((∀ l ∈ lines, l.Readable) ∧ ∀ w ∈ readings lines v, c.RangeDefined w) ∧
        ops = (readings lines v).filterMap c.range ∧ n = ops.length := by
  have htext : skipBlanks (traceText lines) = traceText lines := skipBlanks_traceText
  have hcount := @scanTrace_text _ c.countOperation ⟨traceText lines, false⟩ v 0 lines htext rfl
  unfold TraceSetup.parseTrace
  rw [hcount]
  cases hfirst : scanLines c.countOperation lines v 0 with
  | error e =>
    apply iff_of_false
    · intro h
      cases h
    · rintro ⟨⟨hlines, hdefined⟩, -⟩
      have hfold := (@foldlM_countOperation c _ 0 _).mpr ⟨hdefined, rfl⟩
      have hok := scanLines_eq_ok.mpr ⟨hlines, hfold, rfl⟩
      rw [hok] at hfirst
      cases hfirst
  | ok p =>
    obtain ⟨n₁, v₁⟩ := p
    obtain ⟨hlines, hfold, rfl⟩ := scanLines_eq_ok.mp hfirst
    obtain ⟨hdefined, rfl⟩ := foldlM_countOperation.mp hfold
    rw [ok_bind]
    simp only
    rw [@scanTrace_text _ (c.storeOperation _) ⟨traceText lines, false⟩ _ _ lines htext rfl]
    have hstore := @foldlM_storeOperation c _ [] (0 + ((readings lines v).filterMap c.range).length)
      hdefined (by simp)
    rw [scanLines_eq_ok.mpr ⟨hlines, (congrArg _ readings_lastVars).trans hstore, rfl⟩, ok_bind]
    rw [List.nil_append, Nat.zero_add, and_iff_right ⟨hlines, hdefined⟩]
    constructor
    · intro h
      obtain ⟨rfl, rfl⟩ := Prod.mk.inj (Except.ok.inj h)
      exact ⟨rfl, rfl⟩
    · rintro ⟨rfl, rfl⟩
      rfl

end Parse

namespace TraceSetup

variable (c : TraceSetup)

/-- The entry that a line should have: one whose type is evaluated and whose range lies in the
addresses below `MaxLBA`. -/
def entry (l : TraceLine) : Option OperationRange :=
  (c.evaluated l.op).bind fun accessType =>
    if 0 ≤ l.start ∧ 1 ≤ l.length ∧ l.start + l.length ≤ c.maxLBA then
      some ⟨accessType, l.start, l.start + l.length - 1⟩
    else none

/-- The line can be scanned, and if its type is evaluated, its end is computed without overflow
and shows whether its range lies in the addresses. -/
def LineOk (l : TraceLine) : Prop :=
  l.Readable ∧ (c.evaluated l.op ≠ none →
    IsInt (l.start - 1) ∧ IsInt (l.start - 1 + l.length) ∧
      (l.start - 1 + l.length < c.maxLBA → 0 ≤ l.start ∧ 1 ≤ l.length))

/-- The variables give no operation. -/
def LeavesOut (v : ScanVars) : Prop :=
  c.evaluated v.readWriteString ≠ none →
    IsInt (v.startLBA - 1) ∧ IsInt (v.startLBA - 1 + v.len) ∧
      c.maxLBA ≤ v.startLBA - 1 + v.len

end TraceSetup

section Entries

variable {c : TraceSetup} {lines : List TraceLine} {v : ScanVars} {l : TraceLine}

/-- What a line should give, it does give. -/
theorem range_of_entry {r : OperationRange} (h : c.entry l = some r) :
    c.range l.vars = some r := by
  unfold TraceSetup.entry at h
  unfold TraceSetup.range
  obtain ⟨accessType, htype, h⟩ := Option.bind_eq_some_iff.mp h
  have hvars : c.evaluated l.vars.readWriteString = some accessType := htype
  split at h
  · rename_i hin
    obtain rfl := Option.some.inj h
    rw [hvars, Option.bind_some, if_pos]
    · rw [Option.some.injEq, OperationRange.mk.injEq]
      refine ⟨rfl, rfl, ?_⟩
      change l.start - 1 + l.length = l.start + l.length - 1
      omega
    · change l.start - 1 + l.length < c.maxLBA
      omega
  · cases h

/-- The end of a line decides rightly whether it is stored. -/
theorem range_eq_entry_iff (h : c.RangeDefined l.vars) (hread : l.Readable) :
    c.range l.vars = c.entry l ↔ c.LineOk l := by
  unfold TraceSetup.LineOk TraceSetup.entry TraceSetup.range
  have hvars : c.evaluated l.vars.readWriteString = c.evaluated l.op := rfl
  have hsum : l.vars.startLBA - 1 + l.vars.len = l.start - 1 + l.length := rfl
  unfold TraceSetup.RangeDefined at h
  rw [hvars] at h ⊢
  rw [hsum, and_iff_right hread]
  cases htype : c.evaluated l.op with
  | none => exact iff_of_true rfl fun hne => absurd rfl hne
  | some accessType =>
    obtain ⟨hstart, hend⟩ := h (by rw [htype]; exact Option.some_ne_none _)
    have hstart' : IsInt (l.start - 1) := hstart
    have hend' : IsInt (l.start - 1 + l.length) := hend
    rw [Option.bind_some, Option.bind_some]
    constructor
    · intro heq _
      refine ⟨hstart', hend', fun hlt => ?_⟩
      rw [if_pos hlt] at heq
      split at heq
      · rename_i hin
        exact ⟨hin.1, hin.2.1⟩
      · cases heq
    · intro hok
      obtain ⟨-, -, hlow⟩ := hok (Option.some_ne_none _)
      by_cases hlt : l.start - 1 + l.length < c.maxLBA
      · obtain ⟨hnonneg, hpos⟩ := hlow hlt
        rw [if_pos hlt, if_pos ⟨hnonneg, hpos, by omega⟩, Option.some.injEq,
          OperationRange.mk.injEq]
        refine ⟨rfl, rfl, ?_⟩
        omega
      · rw [if_neg hlt, if_neg fun hin => hlt (by omega)]

theorem range_eq_none_iff (h : c.RangeDefined v) : c.range v = none ↔ c.LeavesOut v := by
  unfold TraceSetup.LeavesOut TraceSetup.range
  unfold TraceSetup.RangeDefined at h
  cases htype : c.evaluated v.readWriteString with
  | none => exact iff_of_true rfl fun hne => absurd rfl hne
  | some accessType =>
    obtain ⟨hstart, hend⟩ := h (by rw [htype]; exact Option.some_ne_none _)
    rw [Option.bind_some, ite_eq_right_iff]
    constructor
    · intro hout _
      refine ⟨hstart, hend, ?_⟩
      by_contra hlt
      exact Option.some_ne_none _ (hout (by omega))
    · intro hout hlt
      have hge := (hout (Option.some_ne_none _)).2.2
      omega

theorem length_filterMap_le {α β : Type} {f g : α → Option β}
    (hfg : ∀ x y, f x = some y → g x = some y) (l : List α) :
    (l.filterMap f).length ≤ (l.filterMap g).length := by
  induction l with
  | nil => exact le_rfl
  | cons x l ih =>
    rw [List.filterMap_cons, List.filterMap_cons]
    cases hf : f x with
    | some y =>
      rw [hfg x y hf]
      simpa using ih
    | none =>
      cases g x with
      | none => exact ih
      | some y => exact ih.trans (Nat.le_succ _)

/-- Results that only add to others are as many only if the two agree. -/
theorem filterMap_agree {α β : Type} {f g : α → Option β}
    (hfg : ∀ x y, f x = some y → g x = some y) {l : List α} {extra : List β}
    (h : l.filterMap g ++ extra = l.filterMap f) : (∀ x ∈ l, g x = f x) ∧ extra = [] := by
  induction l with
  | nil => exact ⟨fun x hx => (nomatch hx), h⟩
  | cons x l ih =>
    rw [List.filterMap_cons, List.filterMap_cons] at h
    rw [List.forall_mem_cons]
    cases hf : f x with
    | some y =>
      rw [hf, hfg x y hf] at h
      obtain ⟨hrest, hextra⟩ := ih (List.cons.inj h).2
      exact ⟨⟨hfg x y hf, hrest⟩, hextra⟩
    | none =>
      rw [hf] at h
      cases hg : g x with
      | none =>
        rw [hg] at h
        obtain ⟨hrest, hextra⟩ := ih h
        exact ⟨⟨rfl, hrest⟩, hextra⟩
      | some y =>
        simp only [hg] at h
        have hlength := congrArg List.length h
        have hle := length_filterMap_le hfg l
        rw [List.length_append, List.length_cons] at hlength
        omega

/-- The array holds one entry for each evaluated line inside the addresses, in the order of the
file, exactly when the end of each line decides rightly and the last line gives no operation. -/
theorem parseTrace_entries_iff :
    c.parseTrace (traceText lines) v =
        .ok (lines.filterMap c.entry, (lines.filterMap c.entry).length) ↔
      (∀ l ∈ lines, c.LineOk l) ∧ c.LeavesOut (lastVars lines v) := by
  rw [parseTrace_eq_ok, and_iff_left rfl, readings, List.filterMap_append, List.filterMap_map,
    List.forall_mem_append]
  constructor
  · rintro ⟨⟨hread, hdefined, hlast⟩, heq⟩
    obtain ⟨hlines, hextra⟩ := filterMap_agree (fun l r => range_of_entry) heq.symm
    constructor
    · intro l hl
      have hrange := hdefined l.vars (List.mem_map_of_mem hl)
      exact (range_eq_entry_iff hrange (hread l hl)).mp (hlines l hl)
    · have hrange := hlast _ List.mem_cons_self
      refine (range_eq_none_iff hrange).mp ?_
      cases hr : c.range (lastVars lines v) with
      | none => rfl
      | some r =>
        rw [List.filterMap_cons, hr] at hextra
        cases hextra
  · rintro ⟨hlines, hlast⟩
    have hdefined : ∀ l ∈ lines, c.RangeDefined l.vars := fun l hl hne =>
      ⟨((hlines l hl).2 hne).1, ((hlines l hl).2 hne).2.1⟩
    have hlast' : c.RangeDefined (lastVars lines v) := fun hne => ⟨(hlast hne).1, (hlast hne).2.1⟩
    have hagree : ∀ l ∈ lines, (c.range ∘ TraceLine.vars) l = c.entry l := fun l hl =>
      (range_eq_entry_iff (hdefined l hl) (hlines l hl).1).mpr (hlines l hl)
    refine ⟨⟨fun l hl => (hlines l hl).1, ?_, ?_⟩, ?_⟩
    · intro w hw
      obtain ⟨l, hl, rfl⟩ := List.mem_map.mp hw
      exact hdefined l hl
    · intro w hw
      obtain rfl := List.mem_singleton.mp hw
      exact hlast'
    · rw [List.filterMap_congr hagree, List.filterMap_cons, (range_eq_none_iff hlast').mpr hlast,
        List.filterMap_nil, List.append_nil]

end Entries

end WiscKey.Flash
