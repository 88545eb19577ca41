import WiscKey.Flash.TraceReplay
import WiscKey.Library.Runs

/-!
# The rounds of the trace

The calls of `GetOneOperation` go round the operations of the trace. A run is a sequence of calls
that returned an operation, with the changes that the translation layers make to the maps of the
accessed pages between them.
-/

namespace WiscKey.Flash

/-- A translation layer sets the flags of `n` pages and adds `n` to their number. -/
def AccessedPages.claim (s : AccessedPages) (first : Int) (n : Nat) : AccessedPages :=
  { s with
    accessedLogicalPages := s.accessedLogicalPages + n
    accessedLogicalPageMap i := s.accessedLogicalPageMap i || (first ≤ i && i < first + n) }

/-- An event of a simulation. -/
inductive TraceEvent
  /-- A call has returned the operation made of this entry. -/
  | call (call : TraceCall) (range : OperationRange) (op : Operation)
  /-- A translation layer has marked pages of its own. -/
  | layer (first : Int) (n : Nat)

/-- The event is a call. -/
def TraceEvent.isCall : TraceEvent → Bool
  | .call .. => true
  | .layer .. => false

/-- The steps of a simulation on the file. -/
inductive TraceStep (c : TraceSetup) (file : Bytes) (v : ScanVars) :
    TraceReplay → TraceEvent → TraceReplay → Prop
  | call {s s' : TraceReplay} {call : TraceCall} {range : OperationRange} {op : Operation}
      (h : c.getOneOperation file v call s = .ok (.operation range op, s')) :
      TraceStep c file v s (.call call range op) s'
  | layer (s : TraceReplay) (first : Int) (n : Nat) :
      TraceStep c file v s (.layer first n) { s with pages := s.pages.claim first n }

/-- `ceil(MaxLBA / PageToLBARatio)`. -/
def TraceSetup.clusterBound (c : TraceSetup) : Int :=
  (c.maxLBA + c.geometry.pageToLBARatio - 1) / c.geometry.pageToLBARatio

/-- The number of calls that return an operation until the last round is over. -/
def TraceSetup.totalCalls (c : TraceSetup) (lines : List TraceLine) : Int :=
  (c.inputFileRewindTimes + 1) * (lines.filterMap c.entry).length

/-- The replay of a file of lines is faithful. -/
structure TraceSetup.Faithful (c : TraceSetup) (lines : List TraceLine) (v : ScanVars) : Prop where
  /-- The array and the count of the operations are those of the lines. -/
  entries : c.parseTrace (traceText lines) v =
    .ok (lines.filterMap c.entry, (lines.filterMap c.entry).length)
  /-- The operations that are returned in the mode of pages lie inside the device. -/
  inside : ∀ events s, Run (TraceStep c (traceText lines) v) .init events s →
    ∀ call range op, .call call range op ∈ events → call.subPageLevel = false →
      0 ≤ op.startCluster ∧ op.startCluster + op.length ≤ c.clusterBound ∧ 1 ≤ op.length
  /-- So many calls return an operation, and the next one ends the simulation. -/
  rounds : c.isDoSimulationUntilFirstBlockWornOut = false →
    ∀ events s, Run (TraceStep c (traceText lines) v) .init events s →
      (events.countP TraceEvent.isCall : Int) ≤ c.totalCalls lines ∧ ∀ call,
        if (events.countP TraceEvent.isCall : Int) < c.totalCalls lines then
          ∃ range op s', c.getOneOperation (traceText lines) v call s =
            .ok (.operation range op, s')
        else ∃ s', c.getOneOperation (traceText lines) v call s = .ok (.finished, s')
  /-- No index is taken modulo zero, and no number of rounds is divided by it. -/
  divides : ∀ events s, Run (TraceStep c (traceText lines) v) .init events s → ∀ call,
    c.getOneOperation (traceText lines) v call s ≠ .error .divByZero ∧
      ∀ rewinds current s', c.getOneOperation (traceText lines) v call s ≠
        .ok (.wornOut rewinds current 0, s')

/-- The end of each line decides rightly, the last line gives no operation, and the number of
rewinds goes with the number of operations. -/
structure TraceSetup.Replayable (c : TraceSetup) (lines : List TraceLine) (v : ScanVars) :
    Prop where
  lines_ok : ∀ l ∈ lines, c.LineOk l
  last_out : c.LeavesOut (lastVars lines v)
  /-- Without an operation nothing is rewound. -/
  none_rewound : lines.filterMap c.entry = [] →
    c.isDoSimulationUntilFirstBlockWornOut = false ∧ c.inputFileRewindTimes ≤ 0
  /-- With one, the number of rewinds is not negative. -/
  rewinds_nonneg : lines.filterMap c.entry ≠ [] →
    c.isDoSimulationUntilFirstBlockWornOut = false → 0 ≤ c.inputFileRewindTimes

/-- The entry lies in the addresses below `MaxLBA`. -/
def TraceSetup.Within (c : TraceSetup) (r : OperationRange) : Prop :=
  0 ≤ r.startLBA ∧ r.startLBA ≤ r.endLBA ∧ r.endLBA < c.maxLBA

/-- The static variables after `calls` operations of the array `ops` were handed out. -/
structure InRounds (c : TraceSetup) (ops : List OperationRange) (calls : Nat) (t : TraceStatics) :
    Prop where
  parsed : t.isParseTraceFile = true
  trace : t.traceOperation = ops
  count : t.operationCnt = ops.length
  current_le : t.currentOperationCnt ≤ ops.length
  calls_eq : t.currentRewindTimes * ops.length + t.currentOperationCnt = calls
  rewinds_le : c.isDoSimulationUntilFirstBlockWornOut = false →
    (t.currentRewindTimes : Int) ≤ max c.inputFileRewindTimes 0
  /-- Without operations the first rewind is the last. -/
  rewinds_nil : ops = [] → t.currentRewindTimes = 0

/-- The same before the first call, too. -/
def RoundsStarted (c : TraceSetup) (ops : List OperationRange) (calls : Nat) (t : TraceStatics) :
    Prop :=
  (t = TraceReplay.init.statics ∧ calls = 0) ∨ InRounds c ops calls t

section Rounds

variable {c : TraceSetup} {lines : List TraceLine} {v : ScanVars} {ops : List OperationRange}
  {file : Bytes} {call : TraceCall} {s s' : TraceReplay} {calls : Nat}

theorem load_started (hparse : c.parseTrace file v = .ok (ops, ops.length))
    (h : RoundsStarted c ops calls s.statics) :
    ∃ s₁, c.load file v s = .ok s₁ ∧ InRounds c ops calls s₁.statics := by
  unfold TraceSetup.load
  rcases h with ⟨hinit, rfl⟩ | h
  · have hflag : ¬ s.statics.isParseTraceFile = true := by
      rw [hinit]
      exact Bool.false_ne_true
    rw [if_neg hflag, hparse]
    refine ⟨_, rfl, rfl, rfl, rfl, Nat.zero_le _, ?_, fun _ => ?_, fun _ => ?_⟩
    · rw [hinit]
      exact Nat.zero_mul _
    · rw [hinit]
      exact le_max_right _ _
    · rw [hinit]
      rfl
  · rw [if_pos h.parsed]
    exact ⟨s, rfl, h⟩

/-- Without operations the index is taken modulo zero. -/
theorem handOut_nil (h : s.statics.operationCnt = 0) : c.handOut call s = .error .divByZero :=
  if_pos h

/-- What a call does behind the loading: the simulation ends as a block is worn out, or as the last
round is over, or an operation is handed out from a position inside the round, or there is none. -/
theorem nextOperation_cases (h : InRounds c ops calls s.statics) :
    (c.isDoSimulationUntilFirstBlockWornOut = true ∧
      c.nextOperation call s = .ok (.wornOut s.statics.currentRewindTimes
        s.statics.currentOperationCnt ops.length, s)) ∨
    (c.isDoSimulationUntilFirstBlockWornOut = false ∧
      s.statics.currentOperationCnt = ops.length ∧
      c.inputFileRewindTimes ≤ s.statics.currentRewindTimes ∧
      c.nextOperation call s = .ok (.finished, s)) ∨
    (ops = [] ∧ (c.isDoSimulationUntilFirstBlockWornOut = false → 0 < c.inputFileRewindTimes) ∧
      c.nextOperation call s = .error .divByZero) ∨
    (∃ s₁, InRounds c ops calls s₁.statics ∧ s₁.statics.currentOperationCnt < ops.length ∧
      c.nextOperation call s = c.handOut call s₁) := by
  unfold TraceSetup.nextOperation
  simp only
  split
  · rename_i hworn
    left
    rw [h.count]
    exact ⟨hworn.1, rfl⟩
  · right
    split
    · rename_i hend
      rw [h.count] at hend
      have hcurrent := le_antisymm h.current_le hend
      split
      · rename_i hrewind
        have hlt : c.isDoSimulationUntilFirstBlockWornOut = false →
            (s.statics.currentRewindTimes : Int) < c.inputFileRewindTimes := by
          intro hworn
          rw [hworn] at hrewind
          exact hrewind.resolve_left Bool.false_ne_true
        right
        by_cases hnil : ops = []
        · left
          refine ⟨hnil, fun hworn => ?_, handOut_nil ?_⟩
          · have hrewinds := hlt hworn
            omega
          · subst hnil
            exact h.count
        · right
          refine ⟨s.rewind, ⟨h.parsed, h.trace, h.count, Nat.zero_le _, ?_, fun hworn => ?_,
            fun hnil' => absurd hnil' hnil⟩, List.length_pos_of_ne_nil hnil, rfl⟩
          · have hcalls := h.calls_eq
            rw [hcurrent] at hcalls
            change (s.statics.currentRewindTimes + 1) * ops.length + 0 = calls
            rw [Nat.succ_mul, hcalls, Nat.add_zero]
          · exact (Int.add_one_le_iff.mpr (hlt hworn)).trans (le_max_left _ _)
      · rename_i hrewind
        left
        obtain ⟨hworn, hdone⟩ := not_or.mp hrewind
        exact ⟨Bool.eq_false_iff.mpr hworn, hcurrent, not_lt.mp hdone, rfl⟩
    · rename_i hinside
      right
      right
      rw [h.count] at hinside
      exact ⟨s, h, not_le.mp hinside, rfl⟩

/-- An entry inside the addresses begins and ends at clusters that are `int`s, in this order. -/
theorem toCluster_bounds {r : OperationRange} (hr : c.Within r) (subPageLevel : Bool) :
    0 ≤ c.toCluster subPageLevel r.startLBA ∧
      c.toCluster subPageLevel r.startLBA ≤ c.toCluster subPageLevel r.endLBA ∧
      c.toCluster subPageLevel r.endLBA ≤ r.endLBA := by
  obtain ⟨hstart, hle, -⟩ := hr
  have hratio : (0 : Int) < c.geometry.pageToLBARatio := by
    exact_mod_cast c.geometry.pageToLBARatio_pos
  unfold TraceSetup.toCluster
  cases subPageLevel with
  | true => exact ⟨hstart, hle, le_rfl⟩
  | false =>
    simp only [Bool.false_eq_true, if_false]
    rw [Int.tdiv_eq_ediv_of_nonneg hstart, Int.tdiv_eq_ediv_of_nonneg (hstart.trans hle)]
    exact ⟨Int.ediv_nonneg hstart hratio.le, Int.ediv_le_ediv hratio hle,
      Int.ediv_le_self _ (hstart.trans hle)⟩

theorem translate_within {r : OperationRange} (hr : c.Within r) (subPageLevel : Bool) :
    c.translate subPageLevel r = .ok ⟨r.accessType, c.toCluster subPageLevel r.startLBA,
      c.toCluster subPageLevel r.endLBA - c.toCluster subPageLevel r.startLBA + 1⟩ := by
  obtain ⟨hstart, hle, hend⟩ := toCluster_bounds hr subPageLevel
  have hmax : r.endLBA < 2 ^ 31 - 1 := by
    have hdevice := Flash.maxLBA_lt c.geometry c.badBlockCnt
    have hlast : r.endLBA < Flash.maxLBA c.geometry c.badBlockCnt := hr.2.2
    omega
  have hsteps : IsInt (c.toCluster subPageLevel r.endLBA -
      c.toCluster subPageLevel r.startLBA) := ⟨by omega, by omega⟩
  have hlength : IsInt (c.toCluster subPageLevel r.endLBA -
      c.toCluster subPageLevel r.startLBA + 1) := ⟨by omega, by omega⟩
  unfold TraceSetup.translate
  simp only
  rw [sumInt_of_isInt Int.sub_eq_add_neg.symm hsteps, ok_bind, sumInt_of_isInt rfl hlength, ok_bind]

/-- In the mode of pages such an operation lies inside the clusters of the device. -/
theorem cluster_bounds {r : OperationRange} (hr : c.Within r) :
    c.toCluster false r.endLBA + 1 ≤ c.clusterBound := by
  have hratio : (0 : Int) < c.geometry.pageToLBARatio := by
    exact_mod_cast c.geometry.pageToLBARatio_pos
  have hend : 0 ≤ r.endLBA := hr.1.trans hr.2.1
  have hlast := hr.2.2
  unfold TraceSetup.toCluster TraceSetup.clusterBound
  simp only [Bool.false_eq_true, if_false]
  calc r.endLBA.tdiv c.geometry.pageToLBARatio + 1
      = (r.endLBA + c.geometry.pageToLBARatio) / c.geometry.pageToLBARatio := by
        rw [Int.tdiv_eq_ediv_of_nonneg hend, Int.add_ediv_of_dvd_right dvd_rfl,
          Int.ediv_self hratio.ne']
    _ ≤ (c.maxLBA + c.geometry.pageToLBARatio - 1) / c.geometry.pageToLBARatio :=
        Int.ediv_le_ediv hratio (by omega)

/-- An operation that is handed out is made of an entry of the array, and counts as a call. -/
theorem handOut_within (hops : ∀ r ∈ ops, c.Within r) (h : InRounds c ops calls s.statics)
    (hcurrent : s.statics.currentOperationCnt < ops.length) :
    ∃ r ∈ ops, ∃ s', c.handOut call s = .ok (.operation r ⟨r.accessType,
        c.toCluster call.subPageLevel r.startLBA, c.toCluster call.subPageLevel r.endLBA -
          c.toCluster call.subPageLevel r.startLBA + 1⟩, s') ∧
      InRounds c ops (calls + 1) s'.statics := by
  have hpos : 0 < ops.length := by omega
  have hindex := Nat.mod_lt (s.statics.randomIndex + s.statics.currentOperationCnt) hpos
  have hmem := List.getElem_mem hindex
  have hget : s.statics.traceOperation[(s.statics.randomIndex + s.statics.currentOperationCnt) %
      s.statics.operationCnt]? = some ops[(s.statics.randomIndex +
        s.statics.currentOperationCnt) % ops.length] := by
    rw [h.trace, h.count, List.getElem?_eq_getElem hindex]
  have hcount : ¬ s.statics.operationCnt = 0 := by
    rw [h.count]
    omega
  unfold TraceSetup.handOut
  simp only [if_neg hcount, hget, translate_within (hops _ hmem)]
  refine ⟨_, hmem, _, rfl, h.parsed, h.trace, h.count, hcurrent, ?_, h.rewinds_le, h.rewinds_nil⟩
  have hcalls := h.calls_eq
  simp only
  omega

/-- What a call of `GetOneOperation` does when all the entries lie inside the addresses. -/
theorem getOneOperation_cases (hparse : c.parseTrace file v = .ok (ops, ops.length))
    (hops : ∀ r ∈ ops, c.Within r) (h : RoundsStarted c ops calls s.statics) :
    (c.isDoSimulationUntilFirstBlockWornOut = true ∧ ∃ rewinds current s₁,
      c.getOneOperation file v call s = .ok (.wornOut rewinds current ops.length, s₁)) ∨
    (c.isDoSimulationUntilFirstBlockWornOut = false ∧ ops.length ≤ calls ∧
      (c.inputFileRewindTimes + 1) * ops.length ≤ calls ∧
      (ops = [] → c.inputFileRewindTimes ≤ 0) ∧
      ∃ s₁, c.getOneOperation file v call s = .ok (.finished, s₁)) ∨
    (ops = [] ∧ (c.isDoSimulationUntilFirstBlockWornOut = false → 0 < c.inputFileRewindTimes) ∧
      c.getOneOperation file v call s = .error .divByZero) ∨
    (∃ r ∈ ops, ∃ s', c.getOneOperation file v call s = .ok (.operation r ⟨r.accessType,
        c.toCluster call.subPageLevel r.startLBA, c.toCluster call.subPageLevel r.endLBA -
          c.toCluster call.subPageLevel r.startLBA + 1⟩, s') ∧
      InRounds c ops (calls + 1) s'.statics) := by
  obtain ⟨s₁, hload, h₁⟩ := load_started hparse h
  have hget : c.getOneOperation file v call s = c.nextOperation call s₁ := by
    unfold TraceSetup.getOneOperation
    rw [hload]
  rw [hget]
  rcases nextOperation_cases h₁ with ⟨hworn, hnext⟩ | ⟨hworn, hend, hdone, hnext⟩ |
    ⟨hnil, hrewinds, hnext⟩ | ⟨s₂, h₂, hcurrent, hnext⟩
  · exact .inl ⟨hworn, _, _, _, hnext⟩
  · have hcalls := h₁.calls_eq
    rw [hend] at hcalls
    refine .inr (.inl ⟨hworn, by omega, ?_, fun hnil => ?_, s₁, hnext⟩)
    · rw [← Nat.succ_mul] at hcalls
      rw [← hcalls]
      push_cast
      exact Int.mul_le_mul_of_nonneg_right (by omega) (Int.natCast_nonneg _)
    · rw [h₁.rewinds_nil hnil] at hdone
      exact hdone
  · exact .inr (.inr (.inl ⟨hnil, hrewinds, hnext⟩))
  · rw [hnext]
    exact .inr (.inr (.inr (handOut_within hops h₂ hcurrent)))

/-- The operation that a call returns is made of an entry of the array. -/
def TraceSetup.MadeOf (c : TraceSetup) (ops : List OperationRange) (call : TraceCall)
    (r : OperationRange) (op : Operation) : Prop :=
  r ∈ ops ∧ op = ⟨r.accessType, c.toCluster call.subPageLevel r.startLBA,
    c.toCluster call.subPageLevel r.endLBA - c.toCluster call.subPageLevel r.startLBA + 1⟩

theorem getOneOperation_operation (hparse : c.parseTrace file v = .ok (ops, ops.length))
    (hops : ∀ r ∈ ops, c.Within r) (h : RoundsStarted c ops calls s.statics) {r : OperationRange}
    {op : Operation} (hcall : c.getOneOperation file v call s = .ok (.operation r op, s')) :
    c.MadeOf ops call r op ∧ InRounds c ops (calls + 1) s'.statics := by
  rcases @getOneOperation_cases c v ops file call s calls hparse hops h with
    ⟨-, _, _, _, hget⟩ | ⟨-, -, -, -, _, hget⟩ | ⟨-, -, hget⟩ | ⟨r₁, hr₁, s₂, hget, h₂⟩
  · rw [hget] at hcall
    cases hcall
  · rw [hget] at hcall
    cases hcall
  · rw [hget] at hcall
    cases hcall
  · rw [hget] at hcall
    cases hcall
    exact ⟨⟨hr₁, rfl⟩, h₂⟩

/-- Along a run the variables count the calls, and what is returned is made of entries. -/
theorem run_started (hparse : c.parseTrace file v = .ok (ops, ops.length))
    (hops : ∀ r ∈ ops, c.Within r) {events : List TraceEvent}
    (hrun : Run (TraceStep c file v) s events s') (h : RoundsStarted c ops calls s.statics) :
    RoundsStarted c ops (calls + events.countP TraceEvent.isCall) s'.statics ∧
      ∀ call r op, .call call r op ∈ events → c.MadeOf ops call r op := by
  induction hrun generalizing calls with
  | nil => exact ⟨h, fun _ _ _ hmem => (nomatch hmem)⟩
  | cons head tail ih =>
    cases head with
    | layer first n =>
      obtain ⟨hcount, hmade⟩ := ih h
      refine ⟨hcount, fun call r op hmem => hmade call r op ?_⟩
      exact (List.mem_cons.mp hmem).resolve_left (by rintro ⟨⟩)
    | call hcall =>
      obtain ⟨hmadeHead, hnext⟩ := getOneOperation_operation hparse hops h hcall
      obtain ⟨hcount, hmade⟩ := ih (.inr hnext)
      constructor
      · rw [Nat.add_assoc, Nat.add_comm 1] at hcount
        rw [List.countP_cons_of_pos rfl]
        exact hcount
      · intro call r op hmem
        rcases List.mem_cons.mp hmem with heq | hmem
        · cases heq
          exact hmadeHead
        · exact hmade call r op hmem

/-- Not more than all the rounds are handed out. -/
theorem RoundsStarted.calls_le (h : RoundsStarted c ops calls s.statics)
    (hworn : c.isDoSimulationUntilFirstBlockWornOut = false)
    (hrewinds : ops ≠ [] → 0 ≤ c.inputFileRewindTimes) :
    (calls : Int) ≤ (c.inputFileRewindTimes + 1) * ops.length := by
  rcases eq_or_ne ops [] with hnil | hne
  · subst hnil
    rcases h with ⟨-, rfl⟩ | h
    · simp
    · have hcalls := h.calls_eq
      have hcurrent := h.current_le
      simp only [List.length_nil] at hcalls hcurrent ⊢
      omega
  · have hnonneg := hrewinds hne
    rcases h with ⟨-, rfl⟩ | h
    · exact Int.mul_nonneg (by omega) (Int.natCast_nonneg _)
    · have hle := h.rewinds_le hworn
      rw [max_eq_left hnonneg] at hle
      have hcalls := h.calls_eq
      have hcurrent := h.current_le
      calc (calls : Int) = s.statics.currentRewindTimes * ops.length +
            s.statics.currentOperationCnt := by rw [← hcalls]; push_cast; rfl
        _ ≤ s.statics.currentRewindTimes * ops.length + ops.length := by omega
        _ = (s.statics.currentRewindTimes + 1) * ops.length := by rw [Int.add_mul, Int.one_mul]
        _ ≤ (c.inputFileRewindTimes + 1) * ops.length :=
            Int.mul_le_mul_of_nonneg_right (by omega) (Int.natCast_nonneg _)

/-- The entries of the lines lie inside the addresses. -/
theorem within_of_mem_entries {r : OperationRange} (h : r ∈ lines.filterMap c.entry) :
    c.Within r := by
  obtain ⟨l, -, hentry⟩ := List.mem_filterMap.mp h
  unfold TraceSetup.entry at hentry
  obtain ⟨accessType, -, hentry⟩ := Option.bind_eq_some_iff.mp hentry
  split at hentry
  · rename_i hin
    obtain rfl := Option.some.inj hentry
    refine ⟨hin.1, ?_, ?_⟩ <;> simp only <;> omega
  · cases hentry

/-- Before the first call nothing is handed out. -/
theorem started_init : RoundsStarted c ops 0 TraceReplay.init.statics := .inl ⟨rfl, rfl⟩

namespace TraceSetup.Faithful

/-- A file without operations is not rewound: the first call would take an index modulo zero. -/
theorem none_rewound (h : c.Faithful lines v) (hnil : lines.filterMap c.entry = []) :
    c.isDoSimulationUntilFirstBlockWornOut = false ∧ c.inputFileRewindTimes ≤ 0 := by
  obtain ⟨hdiv, hquotient⟩ := h.divides [] _ (.nil _) ⟨false, 0, 0⟩
  rcases @getOneOperation_cases c v _ _ ⟨false, 0, 0⟩ .init 0 h.entries
      (fun r hr => within_of_mem_entries hr) started_init with
    ⟨-, rewinds, current, s₁, hget⟩ | ⟨hworn, -, -, hle, -⟩ | ⟨-, -, hget⟩ | ⟨r, hr, -⟩
  · rw [hnil] at hget
    exact absurd hget (hquotient rewinds current s₁)
  · exact ⟨hworn, hle hnil⟩
  · exact absurd hget hdiv
  · rw [hnil] at hr
    cases hr

/-- The first round is gone through whatever the number of rewinds is. -/
theorem rewinds_nonneg (h : c.Faithful lines v) (hne : lines.filterMap c.entry ≠ [])
    (hworn : c.isDoSimulationUntilFirstBlockWornOut = false) : 0 ≤ c.inputFileRewindTimes := by
  have hpos : (0 : Int) < (lines.filterMap c.entry).length := by
    exact_mod_cast List.length_pos_of_ne_nil hne
  obtain ⟨htotal, hnext⟩ := h.rounds hworn [] _ (.nil _)
  unfold TraceSetup.totalCalls at htotal hnext
  rw [List.countP_nil] at htotal
  have hnonneg : 0 ≤ c.inputFileRewindTimes + 1 := Int.nonneg_of_mul_nonneg_left htotal hpos
  by_contra hneg
  have hzero : c.inputFileRewindTimes + 1 = 0 := by omega
  have hend := hnext ⟨false, 0, 0⟩
  rw [hzero, Int.zero_mul, List.countP_nil, if_neg (by simp)] at hend
  obtain ⟨s', hfinished⟩ := hend
  rcases @getOneOperation_cases c v _ _ ⟨false, 0, 0⟩ .init 0 h.entries
      (fun r hr => within_of_mem_entries hr) started_init with
    ⟨htrue, -⟩ | ⟨-, hle, -⟩ | ⟨hnil, -⟩ | ⟨r, -, s₁, hget, -⟩
  · rw [hworn] at htrue
    cases htrue
  · omega
  · exact hne hnil
  · rw [hget] at hfinished
    cases hfinished

end TraceSetup.Faithful

namespace TraceSetup.Replayable

variable (h : c.Replayable lines v) {events : List TraceEvent}
  (hrun : Run (TraceStep c (traceText lines) v) .init events s)

include h

theorem parse : c.parseTrace (traceText lines) v =
    .ok (lines.filterMap c.entry, (lines.filterMap c.entry).length) :=
  parseTrace_entries_iff.mpr ⟨h.lines_ok, h.last_out⟩

include hrun

theorem started :
    RoundsStarted c (lines.filterMap c.entry) (events.countP TraceEvent.isCall) s.statics ∧
      ∀ call r op, .call call r op ∈ events → c.MadeOf (lines.filterMap c.entry) call r op := by
  have hstarted := run_started h.parse (fun r hr => within_of_mem_entries hr) hrun started_init
  rwa [Nat.zero_add] at hstarted

theorem inside {r : OperationRange} {op : Operation} (hmem : .call call r op ∈ events)
    (hmode : call.subPageLevel = false) :
    0 ≤ op.startCluster ∧ op.startCluster + op.length ≤ c.clusterBound ∧ 1 ≤ op.length := by
  obtain ⟨hr, rfl⟩ := (h.started hrun).2 call r op hmem
  have hbounds := toCluster_bounds (within_of_mem_entries hr) call.subPageLevel
  have hlast := cluster_bounds (within_of_mem_entries hr)
  rw [hmode] at hbounds ⊢
  refine ⟨hbounds.1, ?_, ?_⟩ <;> simp only <;> omega

theorem rounds (hworn : c.isDoSimulationUntilFirstBlockWornOut = false) :
    (events.countP TraceEvent.isCall : Int) ≤ c.totalCalls lines ∧ ∀ call,
      if (events.countP TraceEvent.isCall : Int) < c.totalCalls lines then
        ∃ range op s', c.getOneOperation (traceText lines) v call s =
          .ok (.operation range op, s')
      else ∃ s', c.getOneOperation (traceText lines) v call s = .ok (.finished, s') := by
  have hcount := (h.started hrun).1
  refine ⟨hcount.calls_le hworn fun hne => h.rewinds_nonneg hne hworn, fun call => ?_⟩
  unfold TraceSetup.totalCalls
  rcases @getOneOperation_cases c v _ _ call s _ h.parse (fun r hr => within_of_mem_entries hr)
      hcount with ⟨htrue, -⟩ | ⟨-, -, hdone, -, hget⟩ | ⟨hnil, hnone, -⟩ | ⟨r, hr, s', hget, hnext⟩
  · rw [hworn] at htrue
    cases htrue
  · rw [if_neg (by omega)]
    exact hget
  · have hle := (h.none_rewound hnil).2
    have hpos := hnone hworn
    omega
  · have hle := RoundsStarted.calls_le (.inr hnext) hworn fun hne => h.rewinds_nonneg hne hworn
    rw [if_pos (by push_cast at hle; omega)]
    exact ⟨_, _, s', hget⟩

theorem divides (call : TraceCall) :
    c.getOneOperation (traceText lines) v call s ≠ .error .divByZero ∧
      ∀ rewinds current s', c.getOneOperation (traceText lines) v call s ≠
        .ok (.wornOut rewinds current 0, s') := by
  rcases @getOneOperation_cases c v _ _ call s _ h.parse (fun r hr => within_of_mem_entries hr)
      (h.started hrun).1 with
    ⟨htrue, rewinds, current, s₁, hget⟩ | ⟨-, -, -, -, s₁, hget⟩ | ⟨hnil, hnone, -⟩ |
    ⟨r, hr, s', hget, hnext⟩
  · rw [hget]
    refine ⟨fun heq => (nomatch heq), fun rewinds' current' s' heq => ?_⟩
    have houtcome := (Prod.mk.inj (Except.ok.inj heq)).1
    injection houtcome with _ _ hzero
    have hworn := (h.none_rewound (List.eq_nil_of_length_eq_zero hzero)).1
    rw [htrue] at hworn
    cases hworn
  · rw [hget]
    exact ⟨fun heq => (nomatch heq), fun _ _ _ heq => (nomatch heq)⟩
  · obtain ⟨hworn, hle⟩ := h.none_rewound hnil
    have hpos := hnone hworn
    omega
  · rw [hget]
    exact ⟨fun heq => (nomatch heq), fun _ _ _ heq => (nomatch heq)⟩

end TraceSetup.Replayable

end Rounds

/-- A simulation of both kinds of operations on the small device, without rewinds. -/
def onceThrough : TraceSetup where
  geometry := megabyteGeometry
  badBlockCnt := 0
  evaluatedAccessType := "RW"
  inputFileRewindTimes := 0
  isDoSimulationUntilFirstBlockWornOut := false
  blockEndurance := 100

/-- The line `W 0 8`. -/
def writeLine : TraceLine where
  op := [87]
  start := 0
  length := 8
  op_ne_nil := List.cons_ne_nil _ _
  op_blank c hc := by
    rw [List.mem_singleton.mp hc]
    rfl

/-- A file of one line gives its operation twice. -/
theorem oneLine_storedTwice (v : ScanVars) :
    onceThrough.parseTrace (traceText [writeLine]) v =
      .ok ([⟨.writeType, 0, 7⟩, ⟨.writeType, 0, 7⟩], 2) := by
  have hrange : onceThrough.range writeLine.vars = some ⟨.writeType, 0, 7⟩ := by decide
  have hdefined : onceThrough.RangeDefined writeLine.vars := fun _ => by decide
  refine parseTrace_eq_ok.mpr ⟨⟨?_, ?_⟩, ?_, rfl⟩
  · intro l hl
    obtain rfl := List.mem_singleton.mp hl
    decide
  · intro w hw
    have hread : readings [writeLine] v = [writeLine.vars, writeLine.vars] := rfl
    rw [hread] at hw
    rcases List.mem_pair.mp hw with rfl | rfl
    · exact hdefined
    · exact hdefined
  · change _ = [writeLine.vars, writeLine.vars].filterMap onceThrough.range
    rw [List.filterMap_cons, hrange, List.filterMap_cons, hrange, List.filterMap_nil]

end WiscKey.Flash
