import WiscKey.Core.Bytes
import Mathlib.Tactic.SplitIfs

/-!
# File names

The names of the files of a database, and the scan that reads a base name back. The texts
of `snprintf` fit its buffer.
-/

namespace WiscKey

/-- `FileType`. -/
inductive FileType
  | logFile
  | dbLockFile
  | tableFile
  | descriptorFile
  | currentFile
  | tempFile
  | infoLogFile
  deriving DecidableEq, Repr

/-- `%06llu`. -/
def paddedDecimal (n : Nat) : Bytes :=
  List.replicate (6 - (toDecimal n).length) 48 ++ toDecimal n

/-- `MakeFileName`. -/
def makeFileName (name : Bytes) (number : Nat) (suffix : Bytes) : Bytes :=
  name ++ (ascii ['/'] ++ (paddedDecimal number ++ (ascii ['.'] ++ suffix)))

/-- `LogFileName`. -/
def logFileName (name : Bytes) (number : Nat) : Bytes :=
  makeFileName name number (ascii ['l', 'o', 'g'])

/-- `TableFileName`. -/
def tableFileName (name : Bytes) (number : Nat) : Bytes :=
  makeFileName name number (ascii ['l', 'd', 'b'])

/-- `SSTTableFileName`. -/
def sstTableFileName (name : Bytes) (number : Nat) : Bytes :=
  makeFileName name number (ascii ['s', 's', 't'])

/-- `TempFileName`. -/
def tempFileName (dbname : Bytes) (number : Nat) : Bytes :=
  makeFileName dbname number (ascii ['d', 'b', 't', 'm', 'p'])

/-- `MANIFEST-`, in front of the number of a descriptor. -/
def manifestText : Bytes := ascii ['M', 'A', 'N', 'I', 'F', 'E', 'S', 'T', '-']

/-- `CURRENT`. -/
def currentText : Bytes := ascii ['C', 'U', 'R', 'R', 'E', 'N', 'T']

/-- `DescriptorFileName`. -/
def descriptorFileName (dbname : Bytes) (number : Nat) : Bytes :=
  dbname ++ (ascii ['/'] ++ (manifestText ++ paddedDecimal number))

/-- `CurrentFileName`. -/
def currentFileName (dbname : Bytes) : Bytes := dbname ++ (ascii ['/'] ++ currentText)

/-- `kMaxUint64`. -/
def kMaxUint64 : Nat := 2 ^ 64 - 1

/-- The loop of `ConsumeDecimalNumber`: the number, the count of its digits and the input behind
them, unless the number overflows. -/
def consumeDigits (v digits : Nat) : Bytes → Option (Nat × Nat × Bytes)
  | [] => some (v, digits, [])
  | c :: rest =>
    if isDecimal c then
      let delta := c.toNat - 48
      if kMaxUint64 / 10 < v ∨ v = kMaxUint64 / 10 ∧ kMaxUint64 % 10 < delta then none
      else consumeDigits (v * 10 + delta) (digits + 1) rest
    else some (v, digits, c :: rest)

/-- `ConsumeDecimalNumber`. -/
def consumeDecimalNumber (input : Bytes) : Option (Nat × Bytes) :=
  match consumeDigits 0 0 input with
  | some (v, digits, rest) => if 0 < digits then some (v, rest) else none
  | none => none

/-- `ParseFileName`, of a base name. -/
def parseFileName (fname : Bytes) : Option (Nat × FileType) :=
  if fname = currentText then some (0, .currentFile)
  else if fname = ascii ['L', 'O', 'C', 'K'] then some (0, .dbLockFile)
  else if fname = ascii ['L', 'O', 'G'] ∨ fname = ascii ['L', 'O', 'G', '.', 'o', 'l', 'd'] then
    some (0, .infoLogFile)
  else if manifestText.isPrefixOf fname then
    match consumeDecimalNumber (fname.drop manifestText.length) with
    | some (num, rest) => if rest.isEmpty then some (num, .descriptorFile) else none
    | none => none
  else
    match consumeDecimalNumber fname with
    | some (num, suffix) =>
      if suffix = ascii ['.', 'l', 'o', 'g'] then some (num, .logFile)
      else if suffix = ascii ['.', 's', 's', 't'] ∨ suffix = ascii ['.', 'l', 'd', 'b'] then
        some (num, .tableFile)
      else if suffix = ascii ['.', 'd', 'b', 't', 'm', 'p'] then some (num, .tempFile)
      else none
    | none => none

section Scan

variable (v digits : Nat) (rest : Bytes)

/-- One digit that does not overflow. -/
theorem consumeDigits_digit {d : Nat} (hd : d < 10) (hv : v * 10 + d ≤ kMaxUint64) :
    consumeDigits v digits ((Nat.digitChar d).toUInt8 :: rest) =
      consumeDigits (v * 10 + d) (digits + 1) rest := by
  have hdigit : ∀ d : Fin 10, isDecimal (Nat.digitChar d).toUInt8 = true ∧
      (Nat.digitChar d).toUInt8.toNat - 48 = d := by decide
  obtain ⟨hdecimal, hvalue⟩ := hdigit ⟨d, hd⟩
  simp only at hdecimal hvalue
  rw [consumeDigits, if_pos hdecimal, hvalue]
  refine if_neg fun hover => ?_
  rcases hover with hlt | ⟨heq, hlt⟩ <;> omega

/-- A number that fits is read whole. -/
theorem consumeDigits_toDecimal {n : Nat} (hn : n ≤ kMaxUint64) :
    consumeDigits 0 digits (toDecimal n ++ rest) =
      consumeDigits n (digits + (toDecimal n).length) rest := by
  induction n using Nat.strongRecOn generalizing rest with
  | ind n ih =>
    have htext := Nat.toDigits_eq_if (n := n) (b := 10) (by decide)
    by_cases hsmall : n < 10
    · rw [if_pos hsmall] at htext
      have hsplit : toDecimal n = [(Nat.digitChar n).toUInt8] := by rw [toDecimal, htext]; rfl
      rw [hsplit, List.singleton_append, consumeDigits_digit 0 digits rest hsmall (by omega)]
      simp
    · rw [if_neg hsmall] at htext
      have hsplit : toDecimal n = toDecimal (n / 10) ++ [(Nat.digitChar (n % 10)).toUInt8] := by
        rw [toDecimal, htext, ascii, List.map_append]
        rfl
      have hvalue : n / 10 * 10 + n % 10 = n := Nat.div_add_mod' n 10
      rw [hsplit, List.append_assoc, ih (n / 10) (by omega) _ (by omega), List.singleton_append,
        consumeDigits_digit _ _ _ (Nat.mod_lt _ (by decide)) (by omega), hvalue,
        List.length_append, List.length_singleton, Nat.add_assoc]

theorem consumeDigits_zeros (count : Nat) :
    consumeDigits 0 digits (List.replicate count 48 ++ rest) =
      consumeDigits 0 (digits + count) rest := by
  induction count generalizing digits with
  | zero => rfl
  | succ count ih =>
    change consumeDigits 0 digits ((Nat.digitChar 0).toUInt8 :: (List.replicate count 48 ++ rest)) =
      _
    rw [consumeDigits_digit 0 digits _ (by decide) (Nat.zero_le _), ih, Nat.add_assoc,
      Nat.add_comm 1]

/-- A padded number is read back up to the first byte that is no digit. -/
theorem consumeDecimalNumber_padded {n : Nat} {rest : Bytes} (hn : n ≤ kMaxUint64)
    (hrest : ∀ c ∈ rest.head?, isDecimal c = false) :
    consumeDecimalNumber (paddedDecimal n ++ rest) = some (n, rest) := by
  have hstop : ∀ v digits, consumeDigits v digits rest = some (v, digits, rest) := by
    intro v digits
    cases rest with
    | nil => rfl
    | cons c rest =>
      rw [consumeDigits, if_neg]
      rw [hrest c rfl]
      exact Bool.false_ne_true
  have hpos := length_toDecimal_pos n
  rw [consumeDecimalNumber, paddedDecimal, List.append_assoc, consumeDigits_zeros,
    consumeDigits_toDecimal _ _ hn, hstop]
  exact if_pos (by omega)

end Scan

/-- Behind `MANIFEST-` there is a number and nothing else. -/
theorem parseFileName_manifest (text : Bytes) : parseFileName (manifestText ++ text) =
    match consumeDecimalNumber text with
    | some (num, rest) => if rest.isEmpty then some (num, .descriptorFile) else none
    | none => none := by
  have hhead : ∀ c : UInt8, c ≠ 77 → ∀ s : Bytes, manifestText ++ text ≠ c :: s := by
    intro c hc s heq
    exact hc (List.cons.inj heq).1.symm
  have hcurrent : manifestText ++ text ≠ currentText := hhead 67 (by decide) _
  have hlock : manifestText ++ text ≠ ascii ['L', 'O', 'C', 'K'] := hhead 76 (by decide) _
  have hlog : ¬ (manifestText ++ text = ascii ['L', 'O', 'G'] ∨
      manifestText ++ text = ascii ['L', 'O', 'G', '.', 'o', 'l', 'd']) := by
    rintro (h | h)
    · exact hhead 76 (by decide) _ h
    · exact hhead 76 (by decide) _ h
  rw [parseFileName, if_neg hcurrent, if_neg hlock, if_neg hlog, if_pos (by simp), List.drop_left]

/-- The base name of a descriptor is read back. -/
theorem parseFileName_descriptor {n : Nat} (hn : n ≤ kMaxUint64) :
    parseFileName (manifestText ++ paddedDecimal n) = some (n, .descriptorFile) := by
  have hscan := @consumeDecimalNumber_padded n [] hn (by simp)
  rw [List.append_nil] at hscan
  rw [parseFileName_manifest, hscan]
  rfl

theorem isDecimal_of_mem_padded {n : Nat} {c : UInt8} (hc : c ∈ paddedDecimal n) :
    isDecimal c = true := by
  rw [paddedDecimal] at hc
  rcases List.mem_append.mp hc with hc | hc
  · rw [List.eq_of_mem_replicate hc]
    rfl
  · exact isDecimal_of_mem_toDecimal hc

/-- A number has a digit in front. -/
theorem head_paddedDecimal (n : Nat) : ∃ c rest, paddedDecimal n = c :: rest ∧ c.toNat ≤ 57 := by
  have hpos := length_toDecimal_pos n
  obtain ⟨c, rest, htext⟩ : ∃ c rest, paddedDecimal n = c :: rest := by
    refine List.exists_cons_of_length_pos ?_
    rw [paddedDecimal, List.length_append]
    omega
  have hdigit : isDecimal c = true := isDecimal_of_mem_padded (htext ▸ List.mem_cons_self)
  rw [isDecimal, Bool.and_eq_true, decide_eq_true_eq, decide_eq_true_eq, UInt8.le_iff_toNat_le,
    UInt8.le_iff_toNat_le] at hdigit
  exact ⟨c, rest, htext, hdigit.2⟩

/-- The type that a suffix behind a number stands for. -/
def suffixType (suffix : Bytes) : Option FileType :=
  if suffix = ascii ['.', 'l', 'o', 'g'] then some .logFile
  else if suffix = ascii ['.', 's', 's', 't'] ∨ suffix = ascii ['.', 'l', 'd', 'b'] then
    some .tableFile
  else if suffix = ascii ['.', 'd', 'b', 't', 'm', 'p'] then some .tempFile
  else none

/-- A name that begins with a digit is read as a number with a suffix. -/
theorem parseFileName_of_digit {c : UInt8} {rest : Bytes} (hc : isDecimal c = true) :
    parseFileName (c :: rest) =
    (consumeDecimalNumber (c :: rest)).bind fun (num, suffix) =>
      (suffixType suffix).map fun type => (num, type) := by
  have hhead : ∀ d : UInt8, isDecimal d = false → ∀ s : Bytes, c :: rest ≠ d :: s := by
    intro d hd s heq
    rw [(List.cons.inj heq).1, hd] at hc
    exact Bool.noConfusion hc
  have hcurrent : c :: rest ≠ currentText := hhead 67 (by decide) _
  have hlock : c :: rest ≠ ascii ['L', 'O', 'C', 'K'] := hhead 76 (by decide) _
  have hlog : ¬ (c :: rest = ascii ['L', 'O', 'G'] ∨
      c :: rest = ascii ['L', 'O', 'G', '.', 'o', 'l', 'd']) := by
    rintro (h | h)
    · exact hhead 76 (by decide) _ h
    · exact hhead 76 (by decide) _ h
  have hmanifest : ¬ manifestText.isPrefixOf (c :: rest) = true := by
    intro h
    obtain ⟨suffix, hsuffix⟩ := List.isPrefixOf_iff_prefix.mp h
    exact hhead 77 (by decide) _ hsuffix.symm
  rw [parseFileName, if_neg hcurrent, if_neg hlock, if_neg hlog, if_neg hmanifest]
  cases consumeDecimalNumber (c :: rest) with
  | none => rfl
  | some r =>
    obtain ⟨num, suffix⟩ := r
    simp only [Option.bind_some, suffixType]
    split_ifs
    all_goals rfl

/-- A padded number with a suffix is read back. -/
theorem parseFileName_padded {n : Nat} {suffix : Bytes} {type : FileType} (hn : n ≤ kMaxUint64)
    (hsuffix : suffixType suffix = some type) :
    parseFileName (paddedDecimal n ++ suffix) = some (n, type) := by
  have hdot : ∀ c ∈ suffix.head?, isDecimal c = false := by
    rw [suffixType] at hsuffix
    split_ifs at hsuffix with hlog htable htemp
    · rw [hlog]
      rintro c ⟨⟩
      rfl
    · rcases htable with rfl | rfl
      all_goals
        rintro c ⟨⟩
        rfl
    · rw [htemp]
      rintro c ⟨⟩
      rfl
  have hscan := consumeDecimalNumber_padded hn hdot
  obtain ⟨c, ds, htext, -⟩ := head_paddedDecimal n
  have hc : isDecimal c = true := isDecimal_of_mem_padded (htext ▸ List.mem_cons_self)
  rw [htext, List.cons_append] at hscan ⊢
  rw [parseFileName_of_digit hc, hscan]
  simp only [Option.bind_some, hsuffix, Option.map_some]

/-- `TableFileName`, without the directory. -/
def tableBaseName (number : Nat) : Bytes := paddedDecimal number ++ ascii ['.', 'l', 'd', 'b']

/-- The base name of a table is read back. -/
theorem parseFileName_table {n : Nat} (hn : n ≤ kMaxUint64) :
    parseFileName (tableBaseName n) = some (n, .tableFile) := parseFileName_padded hn rfl

section Distinct

variable (dbname : Bytes) (m n : Nat)

theorem currentFileName_ne_descriptor : currentFileName dbname ≠ descriptorFileName dbname n := by
  intro h
  have htail := List.append_cancel_left (List.append_cancel_left h)
  cases htail

theorem tempFileName_ne_descriptor : tempFileName dbname m ≠ descriptorFileName dbname n := by
  intro h
  have htail := List.append_cancel_left (List.append_cancel_left h)
  obtain ⟨c, rest, htext, hc⟩ := head_paddedDecimal m
  rw [htext] at htail
  have hhead : c = 77 := (List.cons.inj htail).1
  subst hhead
  exact absurd hc (by decide)

end Distinct

end WiscKey
