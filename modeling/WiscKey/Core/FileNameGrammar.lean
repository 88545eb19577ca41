import WiscKey.Core.FileName

/-!
# The grammar of file names

The names that are made are read back, and the names that are read are those of a grammar. A decimal
number that does not fit 64 bits is found one digit before it overflows.
-/

namespace WiscKey

/-- A path without its directories. -/
def baseName (path : Bytes) : Bytes := (path.reverse.takeWhile (· ≠ 47)).reverse

/-- A decimal number: one digit or more. -/
def IsDecimalText (ds : Bytes) : Prop := ds ≠ [] ∧ ∀ c ∈ ds, isDecimal c = true

/-- The names of the files of a database, with their numbers and types. -/
inductive OwnedName : Bytes → Nat → FileType → Prop
  | current : OwnedName (ascii ['C', 'U', 'R', 'R', 'E', 'N', 'T']) 0 .currentFile
  | lock : OwnedName (ascii ['L', 'O', 'C', 'K']) 0 .dbLockFile
  | infoLog : OwnedName (ascii ['L', 'O', 'G']) 0 .infoLogFile
  | oldInfoLog : OwnedName (ascii ['L', 'O', 'G', '.', 'o', 'l', 'd']) 0 .infoLogFile
  | descriptor {ds : Bytes} (hds : IsDecimalText ds) (hfits : ofDecimal ds < 2 ^ 64) :
    OwnedName (manifestText ++ ds) (ofDecimal ds) .descriptorFile
  | numbered {ds suffix : Bytes} {type : FileType} (hds : IsDecimalText ds)
    (hfits : ofDecimal ds < 2 ^ 64) (hsuffix : suffixType suffix = some type) :
    OwnedName (ds ++ suffix) (ofDecimal ds) type

section Digits

/-- A number with more digits behind it. -/
def appendDigits (v : Nat) (ds : Bytes) : Nat := ds.foldl (fun n c => 10 * n + (c.toNat - 48)) v

theorem digit_lt {c : UInt8} (h : isDecimal c = true) : c.toNat - 48 < 10 := by
  rw [isDecimal, Bool.and_eq_true, decide_eq_true_eq, decide_eq_true_eq, UInt8.le_iff_toNat_le,
    UInt8.le_iff_toNat_le] at h
  have hle : c.toNat ≤ 57 := h.2
  omega

/-- The test for an overflow looks one digit ahead. -/
theorem consumeDigits_cons {c : UInt8} (hc : isDecimal c = true) (v digits : Nat) (rest : Bytes) :
    consumeDigits v digits (c :: rest) =
      if kMaxUint64 < 10 * v + (c.toNat - 48) then none
      else consumeDigits (10 * v + (c.toNat - 48)) (digits + 1) rest := by
  have hdelta := digit_lt hc
  rw [consumeDigits, if_pos hc, Nat.mul_comm 10 v]
  simp only
  generalize c.toNat - 48 = delta at hdelta
  refine if_congr ?_ rfl rfl
  omega

/-- What a scan of digits reads is the number of these digits, and it fits. -/
theorem consumeDigits_spec {v digits v' digits' : Nat} {input rest : Bytes}
    (hv : v ≤ kMaxUint64) (h : consumeDigits v digits input = some (v', digits', rest)) :
    ∃ ds, input = ds ++ rest ∧ (∀ c ∈ ds, isDecimal c = true) ∧ v' = appendDigits v ds ∧
      digits' = digits + ds.length ∧ v' ≤ kMaxUint64 := by
  induction input generalizing v digits with
  | nil =>
    obtain ⟨rfl, rfl, rfl⟩ : v = v' ∧ digits = digits' ∧ [] = rest := by
      simpa [consumeDigits] using h
    exact ⟨[], rfl, by simp, rfl, rfl, hv⟩
  | cons c input ih =>
    by_cases hc : isDecimal c = true
    · rw [consumeDigits_cons hc] at h
      split at h
      · cases h
      · rename_i hfits
        obtain ⟨ds, rfl, hds, hvalue, hcount, hmax⟩ := ih (Nat.not_lt.mp hfits) h
        refine ⟨c :: ds, rfl, List.forall_mem_cons.mpr ⟨hc, hds⟩, hvalue, ?_, hmax⟩
        rw [hcount, List.length_cons]
        omega
    · rw [consumeDigits, if_neg hc] at h
      obtain ⟨rfl, rfl, rfl⟩ : v = v' ∧ digits = digits' ∧ c :: input = rest := by
        simpa using h
      exact ⟨[], rfl, by simp, rfl, rfl, hv⟩

/-- Digits whose number does not fit are rejected. -/
theorem consumeDigits_overflow {v : Nat} {ds : Bytes} (hds : ∀ c ∈ ds, isDecimal c = true)
    (hv : v ≤ kMaxUint64) (hover : kMaxUint64 < appendDigits v ds) (digits : Nat) (rest : Bytes) :
    consumeDigits v digits (ds ++ rest) = none := by
  induction ds generalizing v digits with
  | nil => exact absurd hover (Nat.not_lt.mpr hv)
  | cons c ds ih =>
    obtain ⟨hc, hds⟩ := List.forall_mem_cons.mp hds
    rw [List.cons_append, consumeDigits_cons hc]
    split
    · rfl
    · rename_i hfits
      exact ih hds (Nat.not_lt.mp hfits) hover _

theorem consumeDecimalNumber_spec {input rest : Bytes} {num : Nat}
    (h : consumeDecimalNumber input = some (num, rest)) :
    ∃ ds, input = ds ++ rest ∧ IsDecimalText ds ∧ num = ofDecimal ds ∧ num < 2 ^ 64 := by
  rw [consumeDecimalNumber] at h
  split at h
  · rename_i v digits rest' hscan
    split at h
    · rename_i hpos
      obtain ⟨rfl, rfl⟩ : v = num ∧ rest' = rest := by simpa using h
      obtain ⟨ds, rfl, hds, hvalue, hcount, hmax⟩ := consumeDigits_spec (Nat.zero_le _) hscan
      refine ⟨ds, rfl, ⟨?_, hds⟩, hvalue, Nat.lt_of_le_of_lt hmax (by decide)⟩
      rintro rfl
      rw [hcount] at hpos
      exact Nat.lt_irrefl _ hpos
    · cases h
  · cases h

theorem consumeDecimalNumber_overflow {ds : Bytes} (hds : IsDecimalText ds)
    (hover : 2 ^ 64 ≤ ofDecimal ds) (rest : Bytes) : consumeDecimalNumber (ds ++ rest) = none := by
  rw [consumeDecimalNumber, consumeDigits_overflow hds.2 (Nat.zero_le _)]
  exact Nat.lt_of_lt_of_le (by decide : kMaxUint64 < 2 ^ 64) hover

end Digits

section BaseName

variable (name : Bytes) {base : Bytes} {number : Nat}

/-- What is behind the last slash. -/
theorem baseName_slash (h : ∀ c ∈ base, c ≠ 47) : baseName (name ++ (ascii ['/'] ++ base)) = base := by
  have hreverse : (name ++ (ascii ['/'] ++ base)).reverse = base.reverse ++ 47 :: name.reverse := by
    rw [List.reverse_append, List.reverse_append, List.append_assoc]
    rfl
  rw [baseName, hreverse, List.takeWhile_append_of_pos, List.takeWhile_cons_of_neg (by simp),
    List.append_nil, List.reverse_reverse]
  intro c hc
  exact decide_eq_true (h c (List.mem_reverse.mp hc))

theorem padded_ne_slash {c : UInt8} (hc : c ∈ paddedDecimal number) : c ≠ 47 := by
  rintro rfl
  exact absurd (isDecimal_of_mem_padded hc) (by decide)

/-- A name that is made is read back, with the type of its suffix. -/
theorem parseFileName_makeFileName {suffix : Bytes} {type : FileType} (hn : number ≤ kMaxUint64)
    (hslash : ∀ c ∈ ascii ['.'] ++ suffix, c ≠ 47)
    (hsuffix : suffixType (ascii ['.'] ++ suffix) = some type) :
    parseFileName (baseName (makeFileName name number suffix)) = some (number, type) := by
  rw [makeFileName, baseName_slash, parseFileName_padded hn hsuffix]
  intro c hc
  rcases List.mem_append.mp hc with hc | hc
  · exact padded_ne_slash hc
  · exact hslash c hc

theorem baseName_descriptorFileName : baseName (descriptorFileName name number) =
    manifestText ++ paddedDecimal number := by
  rw [descriptorFileName, baseName_slash]
  intro c hc
  rcases List.mem_append.mp hc with hc | hc
  · have hmanifest : ∀ c ∈ manifestText, c ≠ 47 := by decide +kernel
    exact hmanifest c hc
  · exact padded_ne_slash hc

end BaseName

/-- A suffix of a number is read only where it has a type. -/
theorem ownedName_of_suffix {ds suffix : Bytes} {type : FileType} (hds : IsDecimalText ds)
    (hfits : ofDecimal ds < 2 ^ 64) (hparse : parseFileName (ds ++ suffix) = some (num, type))
    (hscan : consumeDecimalNumber (ds ++ suffix) = some (ofDecimal ds, suffix)) :
    OwnedName (ds ++ suffix) num type := by
  obtain ⟨c, ds, rfl⟩ := List.exists_cons_of_ne_nil hds.1
  rw [List.cons_append] at hparse hscan
  rw [parseFileName_of_digit (hds.2 c List.mem_cons_self), hscan, Option.bind_some] at hparse
  obtain ⟨type', hsuffix, heq⟩ := Option.map_eq_some_iff.mp hparse
  obtain ⟨rfl, rfl⟩ := Prod.mk.inj heq
  exact .numbered hds hfits hsuffix

/-- What is read as a name is one of the grammar, with its number and its type. -/
theorem ownedName_of_parse {fname : Bytes} {num : Nat} {type : FileType}
    (h : parseFileName fname = some (num, type)) : OwnedName fname num type := by
  have hall := h
  rw [parseFileName] at h
  split_ifs at h with hcurrent hlock hlog hmanifest
  · obtain ⟨rfl, rfl⟩ := Prod.mk.inj (Option.some.inj h)
    exact hcurrent ▸ .current
  · obtain ⟨rfl, rfl⟩ := Prod.mk.inj (Option.some.inj h)
    exact hlock ▸ .lock
  · obtain ⟨rfl, rfl⟩ := Prod.mk.inj (Option.some.inj h)
    rcases hlog with rfl | rfl
    · exact .infoLog
    · exact .oldInfoLog
  · obtain ⟨text, rfl⟩ := List.isPrefixOf_iff_prefix.mp hmanifest
    rw [List.drop_left] at h
    cases hscan : consumeDecimalNumber text with
    | none =>
      rw [hscan] at h
      cases h
    | some r =>
      obtain ⟨n, rest⟩ := r
      rw [hscan] at h
      simp only at h
      split_ifs at h with hempty
      obtain ⟨rfl, rfl⟩ := Prod.mk.inj (Option.some.inj h)
      obtain ⟨ds, rfl, hds, rfl, hfits⟩ := consumeDecimalNumber_spec hscan
      rw [List.isEmpty_iff.mp hempty, List.append_nil]
      exact .descriptor hds hfits
  · cases hscan : consumeDecimalNumber fname with
    | none =>
      rw [hscan] at h
      cases h
    | some r =>
      obtain ⟨n, suffix⟩ := r
      obtain ⟨ds, rfl, hds, rfl, hfits⟩ := consumeDecimalNumber_spec hscan
      exact ownedName_of_suffix hds hfits hall hscan

/-- A number that does not fit is not read, whatever is behind it. -/
theorem parseFileName_overflow {ds : Bytes} (hds : IsDecimalText ds) (hover : 2 ^ 64 ≤ ofDecimal ds)
    (rest : Bytes) : parseFileName (ds ++ rest) = none ∧
      parseFileName (manifestText ++ (ds ++ rest)) = none := by
  constructor
  · have hscan := consumeDecimalNumber_overflow hds hover rest
    obtain ⟨c, ds, rfl⟩ := List.exists_cons_of_ne_nil hds.1
    rw [List.cons_append] at hscan ⊢
    rw [parseFileName_of_digit (hds.2 c List.mem_cons_self), hscan, Option.bind_none]
  · rw [parseFileName_manifest, consumeDecimalNumber_overflow hds hover]

/-- The names that are made for a number are read back, with the number and the type. What is read
is a name of the grammar, and a number that overflows is not read. -/
theorem parseFileName_grammar (dbname : Bytes) :
    (∀ number, 1 ≤ number → number < 2 ^ 64 →
      parseFileName (baseName (logFileName dbname number)) = some (number, .logFile) ∧
      parseFileName (baseName (tableFileName dbname number)) = some (number, .tableFile) ∧
      parseFileName (baseName (sstTableFileName dbname number)) = some (number, .tableFile) ∧
      parseFileName (baseName (descriptorFileName dbname number)) =
        some (number, .descriptorFile) ∧
      parseFileName (baseName (tempFileName dbname number)) = some (number, .tempFile)) ∧
    (∀ fname number type, parseFileName fname = some (number, type) →
      OwnedName fname number type) ∧
    ∀ ds, IsDecimalText ds → 2 ^ 64 ≤ ofDecimal ds → ∀ rest,
      parseFileName (ds ++ rest) = none ∧ parseFileName (manifestText ++ (ds ++ rest)) = none := by
  refine ⟨fun number _ hlt => ?_, fun _ _ _ => ownedName_of_parse, fun ds => parseFileName_overflow⟩
  have hn : number ≤ kMaxUint64 := by
    rw [kMaxUint64]
    omega
  refine ⟨?_, ?_, ?_, ?_, ?_⟩
  · exact parseFileName_makeFileName dbname hn (by decide +kernel) rfl
  · exact parseFileName_makeFileName dbname hn (by decide +kernel) rfl
  · exact parseFileName_makeFileName dbname hn (by decide +kernel) rfl
  · rw [baseName_descriptorFileName]
    exact parseFileName_descriptor hn
  · exact parseFileName_makeFileName dbname hn (by decide +kernel) rfl

theorem parseFileName_grammar_seven :
    parseFileName (baseName (logFileName (ascii ['d', 'b']) 7)) = some (7, .logFile) ∧
    OwnedName (ascii ['0', '7', '.', 's', 's', 't']) 7 .tableFile ∧
    parseFileName (toDecimal (2 ^ 64) ++ ascii ['.', 'l', 'o', 'g']) = none := by
  obtain ⟨hmade, hread, hover⟩ := parseFileName_grammar (ascii ['d', 'b'])
  have htext : IsDecimalText (toDecimal (2 ^ 64)) :=
    ⟨List.ne_nil_of_length_pos (length_toDecimal_pos _), fun _ => isDecimal_of_mem_toDecimal⟩
  refine ⟨(hmade 7 (by decide) (by decide)).1, hread _ _ _ (by decide), ?_⟩
  exact (hover _ htext (ofDecimal_toDecimal _).ge _).1

end WiscKey
