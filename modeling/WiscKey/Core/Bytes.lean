import Mathlib.Algebra.Ring.Int.Defs
import Mathlib.Algebra.Ring.Nat
import Mathlib.Data.List.TakeWhile
import Mathlib.Order.Defs.LinearOrder

/-!
# Byte strings and number texts

A `std::string`, a `Slice` and the contents of a file are lists of bytes. The
value log keeps numbers and addresses as text, so the decimal and hexadecimal
printers and the scanners that read them back are defined here.
-/

namespace WiscKey

/-- The contents of a string, a slice or a file. -/
abbrev Bytes := List UInt8

instance : LawfulBEq Bytes := inferInstance

/-- The bytes of a string literal. -/
def ascii (cs : List Char) : Bytes := cs.map Char.toUInt8

/-- `std::to_string` of a nonnegative number. -/
def toDecimal (n : Nat) : Bytes := ascii (Nat.toDigits 10 n)

/-- `c` is one of the bytes `0` to `9`. -/
def isDecimal (c : UInt8) : Bool := 48 ≤ c && c ≤ 57

/-- Read a run of decimal digits, most significant first. -/
def ofDecimal (ds : Bytes) : Nat := ds.foldl (fun n c => 10 * n + (c.toNat - 48)) 0

/-- The text after the leading blanks that number scans skip. -/
def skipBlanks (s : Bytes) : Bytes := s.dropWhile fun c => c == 32 || (9 ≤ c && c ≤ 13)

/-- An optional sign, and the text after it. -/
def splitSign : Bytes → Bool × Bytes
  | 45 :: rest => (true, rest)
  | 43 :: rest => (false, rest)
  | rest => (false, rest)

/-- `std::stol` in base ten: leading blanks and a sign are skipped, the scan stops
at the first other byte, and no digit or a number beyond `long` is an exception. -/
def stol (s : Bytes) : Option Int :=
  let (neg, s) := splitSign (skipBlanks s)
  let ds := s.takeWhile isDecimal
  let n : Int := if neg then -(ofDecimal ds) else ofDecimal ds
  if ds.isEmpty then none
  else if -(2 ^ 63) ≤ n ∧ n < 2 ^ 63 then some n
  else none

/-- What `stream << pointer` prints: `0` for the null pointer, else `0x` and hex digits. -/
def addrToStr (a : Nat) : Bytes :=
  if a = 0 then ascii ['0'] else ascii ('0' :: 'x' :: Nat.toDigits 16 a)

/-- The value of a hexadecimal digit. -/
def hexValue (c : UInt8) : Option Nat :=
  if 48 ≤ c && c ≤ 57 then some (c.toNat - 48)
  else if 97 ≤ c && c ≤ 102 then some (c.toNat - 87)
  else if 65 ≤ c && c ≤ 70 then some (c.toNat - 55)
  else none

/-- Scan hexadecimal digits onto `n`, up to the first other byte. -/
def scanHex (n : Nat) : Bytes → Nat
  | [] => n
  | c :: cs =>
    match hexValue c with
    | some d => scanHex (16 * n + d) cs
    | none => n

/-- `stream >> std::hex >> addr`, with the optional `0x` in front. -/
def strToAddr (s : Bytes) : Nat :=
  match s with
  | 48 :: 120 :: rest => scanHex 0 rest
  | rest => scanHex 0 rest

private theorem splitSign_hex (ds : List Char) :
    splitSign (skipBlanks (ascii ('0' :: 'x' :: ds))) = (false, ascii ('0' :: 'x' :: ds)) := rfl

private theorem digits_hex (ds : List Char) :
    (ascii ('0' :: 'x' :: ds)).takeWhile isDecimal = ascii ['0'] := rfl

/-- An address text reads as zero in base ten: the scan stops at the `x`. -/
theorem stol_addrToStr (a : Nat) : stol (addrToStr a) = some 0 := by
  unfold addrToStr
  split
  · decide
  · have hd : ofDecimal (ascii ['0']) = 0 := rfl
    simp [stol, splitSign_hex, digits_hex, hd]
    decide

private theorem digitByte_injective : ∀ a b : Fin 16,
    (Nat.digitChar a).toUInt8 = (Nat.digitChar b).toUInt8 → a = b := by decide

/-- Hexadecimal texts of different numbers differ. -/
theorem ascii_toDigits_injective {m n : Nat}
    (h : ascii (Nat.toDigits 16 m) = ascii (Nat.toDigits 16 n)) : m = n := by
  induction m using Nat.strongRecOn generalizing n with
  | ind m ih =>
    have hpos : ∀ k, 0 < (Nat.toDigits 16 k).length := fun k => Nat.length_toDigits_pos
    rw [Nat.toDigits_eq_if (by decide), Nat.toDigits_eq_if (n := n) (by decide)] at h
    by_cases hm : m < 16 <;> by_cases hn : n < 16
    · rw [if_pos hm, if_pos hn] at h
      have hd := digitByte_injective ⟨m, hm⟩ ⟨n, hn⟩ (by simpa [ascii] using h)
      exact congrArg Fin.val hd
    · rw [if_pos hm, if_neg hn] at h
      have hlen := congrArg List.length h
      simp only [ascii, List.length_map, List.length_append, List.length_singleton] at hlen
      have := hpos (n / 16)
      omega
    · rw [if_neg hm, if_pos hn] at h
      have hlen := congrArg List.length h
      simp only [ascii, List.length_map, List.length_append, List.length_singleton] at hlen
      have := hpos (m / 16)
      omega
    · rw [if_neg hm, if_neg hn] at h
      simp only [ascii, List.map_append, List.map_cons, List.map_nil] at h
      obtain ⟨hhigh, hlow⟩ := List.append_inj' h rfl
      have hdiv : m / 16 = n / 16 := ih _ (Nat.div_lt_self (by omega) (by decide)) hhigh
      have hmod := digitByte_injective ⟨m % 16, Nat.mod_lt _ (by decide)⟩
        ⟨n % 16, Nat.mod_lt _ (by decide)⟩ (by simpa using hlow)
      have hmod' : m % 16 = n % 16 := congrArg Fin.val hmod
      omega

theorem addrToStr_injective : Function.Injective addrToStr := by
  intro a b h
  unfold addrToStr at h
  split at h <;> split at h
  · omega
  · have hlen := congrArg List.length h
    simp [ascii] at hlen
  · have hlen := congrArg List.length h
    simp [ascii] at hlen
  · apply ascii_toDigits_injective
    simpa [ascii] using h

/-- Digits of a number scan back onto what was scanned before. -/
private theorem scanHex_toDigits (a : Nat) (rest : Bytes) :
    scanHex 0 (ascii (Nat.toDigits 16 a) ++ rest) = scanHex a rest := by
  have hdigit : ∀ d : Fin 16, hexValue (Nat.digitChar d).toUInt8 = some d.val := by decide
  have hone : ∀ n d, d < 16 → ∀ rest,
      scanHex n ((Nat.digitChar d).toUInt8 :: rest) = scanHex (16 * n + d) rest := by
    intro n d hd rest
    rw [scanHex, hdigit ⟨d, hd⟩]
  induction a using Nat.strongRecOn generalizing rest with
  | ind a ih =>
    rw [Nat.toDigits_eq_if (by decide)]
    by_cases ha : a < 16
    · rw [if_pos ha]
      change scanHex 0 ((Nat.digitChar a).toUInt8 :: rest) = _
      rw [hone 0 a ha, Nat.mul_zero, Nat.zero_add]
    · have hsplit : ascii (Nat.toDigits 16 (a / 16) ++ [Nat.digitChar (a % 16)]) ++ rest =
          ascii (Nat.toDigits 16 (a / 16)) ++ ((Nat.digitChar (a % 16)).toUInt8 :: rest) := by
        simp [ascii]
      rw [if_neg ha, hsplit, ih _ (Nat.div_lt_self (by omega) (by decide)),
        hone _ _ (Nat.mod_lt _ (by decide)), Nat.div_add_mod]

/-- An address text reads as the address in base sixteen. -/
theorem strToAddr_addrToStr (a : Nat) : strToAddr (addrToStr a) = a := by
  unfold addrToStr
  split
  · rename_i ha
    subst ha
    rfl
  · have hscan := scanHex_toDigits a []
    rw [List.append_nil] at hscan
    exact hscan

theorem isDecimal_of_mem_toDecimal {n : Nat} {c : UInt8} (hc : c ∈ toDecimal n) :
    isDecimal c = true := by
  rw [toDecimal, ascii, List.mem_map] at hc
  obtain ⟨d, hd, rfl⟩ := hc
  have hdigit := Nat.isDigit_of_mem_toDigits (by decide) (by decide) hd
  rw [Char.isDigit, Bool.and_eq_true, decide_eq_true_eq, decide_eq_true_eq] at hdigit
  obtain ⟨hlow, hhigh⟩ := hdigit
  have hlow' : 48 ≤ d.toNat := hlow
  have hhigh' : d.toNat ≤ 57 := hhigh
  have hbyte : d.toUInt8.toNat = d.toNat := Nat.mod_eq_of_lt (show d.toNat < 2 ^ 8 by omega)
  rw [isDecimal, Bool.and_eq_true, decide_eq_true_eq, decide_eq_true_eq, UInt8.le_iff_toNat_le,
    UInt8.le_iff_toNat_le, hbyte]
  exact ⟨hlow', hhigh'⟩

theorem ofDecimal_toDecimal (n : Nat) : ofDecimal (toDecimal n) = n := by
  have hdigit : ∀ d : Fin 10, (Nat.digitChar d).toUInt8.toNat - 48 = d.val := by decide
  induction n using Nat.strongRecOn with
  | ind n ih =>
    rw [toDecimal, Nat.toDigits_eq_if (by decide)]
    by_cases hn : n < 10
    · rw [if_pos hn]
      change 10 * 0 + ((Nat.digitChar n).toUInt8.toNat - 48) = n
      rw [hdigit ⟨n, hn⟩, Nat.mul_zero, Nat.zero_add]
    · have hhigh := ih (n / 10) (Nat.div_lt_self (by omega) (by decide))
      rw [toDecimal, ofDecimal] at hhigh
      rw [if_neg hn, ofDecimal, ascii, List.map_append, List.foldl_append]
      change 10 * (ascii (Nat.toDigits 10 (n / 10))).foldl _ 0 +
        ((Nat.digitChar (n % 10)).toUInt8.toNat - 48) = n
      rw [hhigh, hdigit ⟨n % 10, Nat.mod_lt _ (by decide)⟩]
      exact Nat.div_add_mod n 10

theorem length_toDecimal_pos (n : Nat) : 0 < (toDecimal n).length := by
  rw [toDecimal, ascii, List.length_map]
  exact Nat.length_toDigits_pos

/-- A decimal text that fits a `long` reads back. -/
theorem stol_toDecimal {n : Nat} (h : n < 2 ^ 63) : stol (toDecimal n) = some (n : Int) := by
  obtain ⟨c, rest, htext⟩ : ∃ c rest, toDecimal n = c :: rest :=
    List.exists_cons_of_length_pos (length_toDecimal_pos n)
  have hhead : isDecimal c = true := isDecimal_of_mem_toDecimal (htext ▸ List.mem_cons_self ..)
  have hrange : 48 ≤ c.toNat ∧ c.toNat ≤ 57 := by
    simpa [isDecimal, UInt8.le_iff_toNat_le] using hhead
  have hblank : (c == 32 || (9 ≤ c && c ≤ 13)) = false := by
    have hspace : c ≠ 32 := by
      rintro rfl
      exact absurd hrange.1 (by decide)
    have htab : ¬ c ≤ 13 := by
      rw [UInt8.le_iff_toNat_le]
      exact fun hle => absurd (hrange.1.trans hle) (by decide)
    simp [hspace, htab]
  have hsign : ∀ c : UInt8, 48 ≤ c.toNat → ∀ rest, splitSign (c :: rest) = (false, c :: rest) := by
    intro c hc rest
    unfold splitSign
    split
    · rename_i h
      cases h
      exact absurd hc (by decide)
    · rename_i h
      cases h
      exact absurd hc (by decide)
    · rfl
  have hskip : splitSign (skipBlanks (toDecimal n)) = (false, toDecimal n) := by
    rw [htext, skipBlanks, List.dropWhile_cons, hblank, if_neg Bool.false_ne_true,
      hsign c hrange.1]
  have hall : (toDecimal n).takeWhile isDecimal = toDecimal n :=
    List.takeWhile_eq_self_iff.mpr fun c hc => isDecimal_of_mem_toDecimal hc
  have hempty : (toDecimal n).isEmpty = false := by rw [htext]; rfl
  rw [stol, hskip]
  simp only [hall, hempty, ofDecimal_toDecimal]
  rw [if_neg Bool.false_ne_true, if_pos]
  · rfl
  · simp only [Bool.false_eq_true, if_false]
    omega

end WiscKey
