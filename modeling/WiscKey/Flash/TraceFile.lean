import WiscKey.Core.Bytes

/-!
# The trace file

A line of the trace file is a word and two numbers. `fscanf` reads them into variables that keep
their old values where the scan fails, and the loop `while(!feof(fp))` looks at the end of file
before it scans: behind the last line of a file it scans once more, in vain, and its body sees the
last line again.
-/

namespace WiscKey.Flash

/-- A faulty access or computation of the replay. -/
inductive TraceFault
  /-- A division by zero. -/
  | divByZero
  /-- A number outside `int`, or a word outside its buffer: the result is undefined. -/
  | overflow
  /-- An access outside an array. -/
  | badIndex
  deriving DecidableEq, Repr

/-- The number is an `int`. -/
def IsInt (n : Int) : Prop := -2 ^ 31 ≤ n ∧ n < 2 ^ 31

instance (n : Int) : Decidable (IsInt n) := inferInstanceAs (Decidable (_ ∧ _))

/-- `BUFFER_SIZE`. -/
def bufferSize : Nat := 256

/-- The byte is white space. -/
def isBlank (c : UInt8) : Bool := c == 32 || (9 ≤ c && c ≤ 13)

/-- A stream: the text in front of its position, and whether a read has met the end of file. -/
structure TraceStream where
  rest : Bytes
  eof : Bool

namespace TraceStream

/-- The stream stands in front of `rest`, which it may have found empty. -/
def behind (f : TraceStream) (rest : Bytes) : TraceStream := ⟨rest, f.eof || rest.isEmpty⟩

/-- Bounds the scans that can still read something. -/
def left (f : TraceStream) : Nat := if f.eof then 0 else f.rest.length + 1

end TraceStream

/-- `%s` into a buffer of `BUFFER_SIZE` bytes, the last of them a zero. -/
def scanWord (f : TraceStream) : Except TraceFault (Option Bytes × TraceStream) :=
  let text := skipBlanks f.rest
  let word := text.takeWhile fun c => !isBlank c
  if text.isEmpty then .ok (none, f.behind text)
  else if word.length < bufferSize then
    .ok (some word, f.behind (text.dropWhile fun c => !isBlank c))
  else .error .overflow

/-- The number with these digits, negative behind a minus sign. -/
def signedDecimal (neg : Bool) (digits : Bytes) : Int :=
  if neg then -(ofDecimal digits) else ofDecimal digits

/-- `%d`. -/
def scanInt (f : TraceStream) : Except TraceFault (Option Int × TraceStream) :=
  let (neg, text) := splitSign (skipBlanks f.rest)
  let digits := text.takeWhile isDecimal
  let n := signedDecimal neg digits
  if digits.isEmpty then .ok (none, f.behind text)
  else if IsInt n then .ok (some n, f.behind (text.dropWhile isDecimal))
  else .error .overflow

/-- The variables that a line is scanned into. -/
structure ScanVars where
  readWriteString : Bytes
  startLBA : Int
  len : Int
  deriving DecidableEq, Repr

/-- `fscanf(fp,"%s %d %d", ReadWriteString, &StartLBA, &len)`. -/
def fscanf (f : TraceStream) (v : ScanVars) : Except TraceFault (TraceStream × ScanVars) :=
  match scanWord f with
  | .error e => .error e
  | .ok (none, f) => .ok (f, v)
  | .ok (some readWriteString, f) =>
    match scanInt f with
    | .error e => .error e
    | .ok (none, f) => .ok (f, { v with readWriteString })
    | .ok (some startLBA, f) =>
      match scanInt f with
      | .error e => .error e
      | .ok (none, f) => .ok (f, { v with readWriteString, startLBA })
      | .ok (some len, f) => .ok (f, { readWriteString, startLBA, len })

section Progress

variable {f f' : TraceStream} {v v' : ScanVars}

theorem TraceStream.left_behind_le {rest : Bytes} (h : rest.length ≤ f.rest.length) :
    (f.behind rest).left ≤ f.left := by
  unfold left behind
  cases f.eof with
  | true => exact le_rfl
  | false =>
    simp only [Bool.false_or, Bool.false_eq_true, if_false]
    split <;> omega

theorem length_skipBlanks_le (s : Bytes) : (skipBlanks s).length ≤ s.length :=
  List.length_dropWhile_le _ s

theorem length_splitSign_le (s : Bytes) : (splitSign s).2.length ≤ s.length := by
  unfold splitSign
  split <;> simp

/-- The text behind the blanks begins with none. -/
theorem isBlank_of_skipBlanks_eq_cons {s text : Bytes} {c : UInt8} (h : skipBlanks s = c :: text) :
    isBlank c = false := by
  have hhead := List.head?_dropWhile_not isBlank s
  have hskip : s.dropWhile isBlank = c :: text := h
  rw [hskip] at hhead
  exact hhead

/-- A word that is scanned takes something from the stream, or the stream is at its end. -/
theorem scanWord_left_lt (hf : f.eof = false) {w : Option Bytes}
    (h : scanWord f = .ok (w, f')) : f'.left < f.left := by
  have hskip := length_skipBlanks_le f.rest
  unfold scanWord at h
  simp only at h
  cases htext : skipBlanks f.rest with
  | nil =>
    rw [htext] at h
    obtain ⟨rfl, rfl⟩ := Prod.mk.inj (Except.ok.inj h)
    simp [TraceStream.left, TraceStream.behind, hf]
  | cons c text =>
    have hblank := isBlank_of_skipBlanks_eq_cons htext
    rw [htext] at h hskip
    simp only [List.isEmpty_cons, Bool.false_eq_true, if_false] at h
    split at h
    · obtain ⟨rfl, rfl⟩ := Prod.mk.inj (Except.ok.inj h)
      have hdrop := List.length_dropWhile_le (fun c => !isBlank c) text
      rw [List.dropWhile_cons_of_pos (by simp [hblank])]
      simp only [TraceStream.left, TraceStream.behind, hf, Bool.false_or, Bool.false_eq_true,
        if_false]
      rw [List.length_cons] at hskip
      split <;> omega
    · cases h

/-- A number that is scanned puts nothing back. -/
theorem scanInt_left_le {n : Option Int} (h : scanInt f = .ok (n, f')) : f'.left ≤ f.left := by
  have hskip := length_skipBlanks_le f.rest
  have hsign := length_splitSign_le (skipBlanks f.rest)
  have hdrop := List.length_dropWhile_le isDecimal (splitSign (skipBlanks f.rest)).2
  unfold scanInt at h
  simp only at h
  split at h
  · obtain ⟨rfl, rfl⟩ := Prod.mk.inj (Except.ok.inj h)
    exact TraceStream.left_behind_le (by omega)
  · split at h
    · obtain ⟨rfl, rfl⟩ := Prod.mk.inj (Except.ok.inj h)
      exact TraceStream.left_behind_le (by omega)
    · cases h

/-- Every `fscanf` brings the loop nearer to the end of the file. -/
theorem fscanf_left_lt (hf : f.eof = false) (h : fscanf f v = .ok (f', v')) :
    f'.left < f.left := by
  unfold fscanf at h
  split at h
  · cases h
  · rename_i hword
    obtain ⟨rfl, rfl⟩ := Prod.mk.inj (Except.ok.inj h)
    exact scanWord_left_lt hf hword
  · rename_i f₁ hword
    have hlt := scanWord_left_lt hf hword
    split at h
    · cases h
    · rename_i hstart
      obtain ⟨rfl, rfl⟩ := Prod.mk.inj (Except.ok.inj h)
      exact (scanInt_left_le hstart).trans_lt hlt
    · rename_i f₂ hstart
      have hle := scanInt_left_le hstart
      split at h
      · cases h
      · rename_i hlen
        obtain ⟨rfl, rfl⟩ := Prod.mk.inj (Except.ok.inj h)
        exact (scanInt_left_le hlen).trans_lt (hle.trans_lt hlt)
      · rename_i hlen
        obtain ⟨rfl, rfl⟩ := Prod.mk.inj (Except.ok.inj h)
        exact (scanInt_left_le hlen).trans_lt (hle.trans_lt hlt)

end Progress

/-- `while(!feof(fp)) { fscanf(...); body }`. The variables keep what they hold at the end. -/
def scanTrace {σ : Type} (body : σ → ScanVars → Except TraceFault σ) (f : TraceStream)
    (v : ScanVars) (s : σ) : Except TraceFault (σ × ScanVars) :=
  if _ : f.eof = true then .ok (s, v)
  else
    match _ : fscanf f v with
    | .error e => .error e
    | .ok (f', v') =>
      match body s v' with
      | .error e => .error e
      | .ok s' => scanTrace body f' v' s'
termination_by f.left
decreasing_by exact fscanf_left_lt (Bool.eq_false_iff.mpr ‹_›) ‹_›

/-- The decimal text of an integer. -/
def intText (n : Int) : Bytes :=
  if n < 0 then 45 :: toDecimal n.natAbs else toDecimal n.natAbs

/-- A line of the trace: any word and any two integers. -/
structure TraceLine where
  op : Bytes
  start : Int
  length : Int
  op_ne_nil : op ≠ []
  op_blank : ∀ c ∈ op, isBlank c = false

namespace TraceLine

/-- The line in the file, ended by a newline. -/
def text (l : TraceLine) : Bytes :=
  l.op ++ 32 :: (intText l.start ++ 32 :: (intText l.length ++ [10]))

/-- The scan of the line has a defined result. -/
def Readable (l : TraceLine) : Prop :=
  l.op.length < bufferSize ∧ IsInt l.start ∧ IsInt l.length

instance (l : TraceLine) : Decidable l.Readable := inferInstanceAs (Decidable (_ ∧ _ ∧ _))

/-- The variables after the scan of the line. -/
def vars (l : TraceLine) : ScanVars := ⟨l.op, l.start, l.length⟩

end TraceLine

/-- The file that consists of the lines. -/
def traceText (lines : List TraceLine) : Bytes := lines.flatMap TraceLine.text

section Text

variable {f : TraceStream} {v : ScanVars} {rest text : Bytes}

theorem isBlank_of_isDecimal {c : UInt8} (h : isDecimal c = true) : isBlank c = false := by
  rw [isDecimal, Bool.and_eq_true, decide_eq_true_eq, decide_eq_true_eq] at h
  rw [UInt8.le_iff_toNat_le, UInt8.le_iff_toNat_le] at h
  have hlow : 48 ≤ c.toNat := h.1
  have hspace : c ≠ 32 := by
    rintro rfl
    exact absurd hlow (by decide)
  have htab : ¬ c ≤ 13 := by
    rw [UInt8.le_iff_toNat_le]
    exact fun hle => absurd (hlow.trans hle) (by decide)
  simp [isBlank, hspace, htab]

theorem splitSign_of_isDecimal {c : UInt8} (h : isDecimal c = true) (rest : Bytes) :
    splitSign (c :: rest) = (false, c :: rest) := by
  unfold splitSign
  split
  · rename_i heq
    cases heq
    cases h
  · rename_i heq
    cases heq
    cases h
  · rfl

/-- A text without blanks in front keeps its beginning. -/
theorem skipBlanks_cons_of_not {c : UInt8} (hc : isBlank c = false) (rest : Bytes) :
    skipBlanks (c :: rest) = c :: rest := by
  have hneg : ¬ isBlank c = true := by
    rw [hc]
    exact Bool.false_ne_true
  exact List.dropWhile_cons_of_neg hneg

/-- A blank in front is skipped. -/
theorem skipBlanks_cons_of_blank {c : UInt8} (hc : isBlank c = true) (rest : Bytes) :
    skipBlanks (c :: rest) = skipBlanks rest :=
  List.dropWhile_cons_of_pos hc

/-- The digits of a number are scanned up to a byte that is none. -/
theorem takeWhile_toDecimal (n : Nat) {c : UInt8} (hc : isDecimal c = false) (rest : Bytes) :
    (toDecimal n ++ c :: rest).takeWhile isDecimal = toDecimal n := by
  rw [List.takeWhile_append_of_pos fun c hc => isDecimal_of_mem_toDecimal hc,
    List.takeWhile_cons_of_neg (by simp [hc]), List.append_nil]

theorem dropWhile_toDecimal (n : Nat) {c : UInt8} (hc : isDecimal c = false) (rest : Bytes) :
    (toDecimal n ++ c :: rest).dropWhile isDecimal = c :: rest := by
  rw [List.dropWhile_append_of_pos fun c hc => isDecimal_of_mem_toDecimal hc,
    List.dropWhile_cons_of_neg (by simp [hc])]

/-- A number in front of a byte that is no digit: sign, digits and the rest. -/
theorem splitSign_intText (n : Int) (text : Bytes) :
    splitSign (skipBlanks (intText n ++ text)) =
      (decide (n < 0), toDecimal n.natAbs ++ text) := by
  unfold intText
  split
  · rename_i hn
    rw [List.cons_append, skipBlanks_cons_of_not (by decide), splitSign, decide_eq_true hn]
  · rename_i hn
    obtain ⟨c, digits, htext⟩ : ∃ c digits, toDecimal n.natAbs = c :: digits :=
      List.exists_cons_of_length_pos (length_toDecimal_pos _)
    have hc : isDecimal c = true := isDecimal_of_mem_toDecimal (htext ▸ List.mem_cons_self ..)
    rw [htext, List.cons_append, skipBlanks_cons_of_not (isBlank_of_isDecimal hc),
      splitSign_of_isDecimal hc, decide_eq_false hn]

/-- A number behind the blanks is read back, if it is an `int`. -/
theorem scanInt_intText (n : Int) {c : UInt8} (hc : isDecimal c = false)
    (hf : skipBlanks f.rest = skipBlanks (intText n ++ c :: rest)) (heof : f.eof = false) :
    scanInt f = if IsInt n then .ok (some n, ⟨c :: rest, false⟩) else .error .overflow := by
  have hvalue : signedDecimal (decide (n < 0)) (toDecimal n.natAbs) = n := by
    rw [signedDecimal, ofDecimal_toDecimal]
    split
    · rename_i hneg
      have hlt := of_decide_eq_true hneg
      omega
    · rename_i hneg
      have hge : ¬ n < 0 := fun h => hneg (decide_eq_true h)
      omega
  have hempty : (toDecimal n.natAbs).isEmpty = false := by
    rw [List.isEmpty_eq_false_iff_exists_mem]
    exact List.exists_mem_of_length_pos (length_toDecimal_pos _)
  unfold scanInt
  rw [hf, splitSign_intText]
  simp only [takeWhile_toDecimal _ hc, dropWhile_toDecimal _ hc, hvalue, hempty,
    Bool.false_eq_true, if_false]
  rw [TraceStream.behind, heof]
  rfl

/-- The word in front of a line is read back, if it fits the buffer. -/
theorem scanWord_text (l : TraceLine) (hf : skipBlanks f.rest = l.op ++ 32 :: rest)
    (heof : f.eof = false) : scanWord f =
      if l.op.length < bufferSize then .ok (some l.op, ⟨32 :: rest, false⟩)
      else .error .overflow := by
  have hword : ∀ c ∈ l.op, (!isBlank c) = true := fun c hc => by rw [l.op_blank c hc]; rfl
  have htake : (l.op ++ 32 :: rest).takeWhile (fun c => !isBlank c) = l.op := by
    rw [List.takeWhile_append_of_pos hword, List.takeWhile_cons_of_neg (by decide), List.append_nil]
  have hdrop : (l.op ++ 32 :: rest).dropWhile (fun c => !isBlank c) = 32 :: rest := by
    rw [List.dropWhile_append_of_pos hword, List.dropWhile_cons_of_neg (by decide)]
  have hempty : (l.op ++ 32 :: rest).isEmpty = false := by simp
  unfold scanWord
  rw [hf]
  simp only [htake, hdrop, hempty, Bool.false_eq_true, if_false]
  rw [TraceStream.behind, heof]
  rfl

/-- A line is scanned up to its newline. -/
theorem fscanf_text (l : TraceLine) (hf : skipBlanks f.rest = l.text ++ rest)
    (heof : f.eof = false) : fscanf f v =
      if l.Readable then .ok (⟨10 :: rest, false⟩, l.vars) else .error .overflow := by
  have htext : l.text ++ rest =
      l.op ++ 32 :: (intText l.start ++ 32 :: (intText l.length ++ 10 :: rest)) := by
    simp [TraceLine.text]
  have hstart := @scanInt_intText ⟨32 :: (intText l.start ++ 32 ::
    (intText l.length ++ 10 :: rest)), false⟩ _ l.start 32 (by decide)
    (skipBlanks_cons_of_blank (by decide) _) rfl
  have hlen := @scanInt_intText ⟨32 :: (intText l.length ++ 10 :: rest), false⟩ _ l.length 10
    (by decide) (skipBlanks_cons_of_blank (by decide) _) rfl
  rw [htext] at hf
  unfold fscanf
  rw [scanWord_text l hf heof]
  by_cases hop : l.op.length < bufferSize
  · rw [if_pos hop]
    simp only [hstart]
    by_cases hs : IsInt l.start
    · rw [if_pos hs]
      simp only [hlen]
      by_cases hl : IsInt l.length
      · rw [if_pos hl, if_pos (show l.Readable from ⟨hop, hs, hl⟩)]
        rfl
      · rw [if_neg hl, if_neg fun h : l.Readable => hl h.2.2]
    · rw [if_neg hs, if_neg fun h : l.Readable => hs h.2.1]
  · rw [if_neg hop, if_neg fun h : l.Readable => hop h.1]

/-- Behind the last line the scan meets the end of the file and changes no variable. -/
theorem fscanf_nil (hf : skipBlanks f.rest = []) : fscanf f v = .ok (⟨[], true⟩, v) := by
  unfold fscanf scanWord
  rw [hf]
  simp [TraceStream.behind]

end Text

/-- The loop on a file of lines: one round for each line, and one more that sees the last line
again, or what the variables held before if there is none. -/
def scanLines {σ : Type} (body : σ → ScanVars → Except TraceFault σ) :
    List TraceLine → ScanVars → σ → Except TraceFault (σ × ScanVars)
  | [], v, s =>
    match body s v with
    | .error e => .error e
    | .ok s' => .ok (s', v)
  | l :: lines, _, s =>
    if l.Readable then
      match body s l.vars with
      | .error e => .error e
      | .ok s' => scanLines body lines l.vars s'
    else .error .overflow

section Loop

variable {σ : Type} {body : σ → ScanVars → Except TraceFault σ} {f : TraceStream} {v v' : ScanVars}
  {s s' : σ} {lines : List TraceLine}

/-- The text of the lines begins with no blank. -/
theorem skipBlanks_traceText : skipBlanks (traceText lines) = traceText lines := by
  cases lines with
  | nil => rfl
  | cons l lines =>
    obtain ⟨c, op, hop⟩ := List.exists_cons_of_ne_nil l.op_ne_nil
    have hc := l.op_blank c (hop ▸ List.mem_cons_self ..)
    rw [traceText, List.flatMap_cons, TraceLine.text, hop]
    exact skipBlanks_cons_of_not hc _

theorem scanTrace_text (hf : skipBlanks f.rest = traceText lines) (heof : f.eof = false) :
    scanTrace body f v s = scanLines body lines v s := by
  induction lines generalizing f v s with
  | nil =>
    rw [scanTrace, dif_neg (by rw [heof]; exact Bool.false_ne_true), scanLines]
    split
    · rename_i h
      rw [fscanf_nil hf] at h
      cases h
    · rename_i f' v' h
      rw [fscanf_nil hf] at h
      obtain ⟨rfl, rfl⟩ := Prod.mk.inj (Except.ok.inj h)
      cases body s v with
      | error e => rfl
      | ok s' =>
        simp only
        rw [scanTrace, dif_pos rfl]
  | cons l lines ih =>
    rw [traceText, List.flatMap_cons] at hf
    have hscan := @fscanf_text f v (lines.flatMap TraceLine.text) l hf heof
    rw [scanTrace, dif_neg (by rw [heof]; exact Bool.false_ne_true), scanLines]
    by_cases hl : l.Readable
    · rw [if_pos hl] at hscan ⊢
      split
      · rename_i h
        rw [hscan] at h
        cases h
      · rename_i f' v' h
        rw [hscan] at h
        obtain ⟨rfl, rfl⟩ := Prod.mk.inj (Except.ok.inj h)
        cases body s l.vars with
        | error e => rfl
        | ok s' =>
          refine ih ?_ rfl
          rw [skipBlanks_cons_of_blank (by decide)]
          exact skipBlanks_traceText
    · rw [if_neg hl] at hscan ⊢
      split
      · rename_i e h
        rw [hscan] at h
        cases h
        rfl
      · rename_i f' v' h
        rw [hscan] at h
        cases h

end Loop

end WiscKey.Flash
