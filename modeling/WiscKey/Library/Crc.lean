import Mathlib.Data.Nat.Basic
import Mathlib.Tactic.Ring

/-!
# Reflected 32-bit cyclic redundancy checks

One bit of the division by a polynomial, reflected, and `n` bits of it. The step is linear
over exclusive or, and on a word whose low bits are zero it only shifts: that is why a
table with one entry per byte can do eight steps at once. Taking in a bit of data and taking in a
word by exclusive or come to the same.
-/

namespace WiscKey.Crc

variable (poly : BitVec 32)

/-- Divide out the lowest bit. -/
def bitStep (x : BitVec 32) : BitVec 32 := (x >>> 1) ^^^ (if x.getLsbD 0 then poly else 0#32)

/-- Divide out the `n` lowest bits. -/
def bits : Nat → BitVec 32 → BitVec 32
  | 0, x => x
  | n + 1, x => bits n (bitStep poly x)

theorem bitStep_xor (x y : BitVec 32) :
    bitStep poly (x ^^^ y) = bitStep poly x ^^^ bitStep poly y := by
  simp only [bitStep, BitVec.getLsbD_xor, BitVec.ushiftRight_xor_distrib]
  cases x.getLsbD 0 <;> cases y.getLsbD 0
  · simp
  · simp [BitVec.xor_assoc]
  · simp only [Bool.xor_false, Bool.false_eq_true, if_true, if_false, BitVec.xor_zero]
    rw [BitVec.xor_assoc, BitVec.xor_comm (y >>> 1), BitVec.xor_assoc]
  · simp only [Bool.xor_self, Bool.false_eq_true, if_true, if_false, BitVec.xor_zero]
    rw [BitVec.xor_assoc, ← BitVec.xor_assoc poly, BitVec.xor_comm poly, BitVec.xor_assoc,
      BitVec.xor_self, BitVec.xor_zero]

theorem bits_xor (n : Nat) (x y : BitVec 32) :
    bits poly n (x ^^^ y) = bits poly n x ^^^ bits poly n y := by
  induction n generalizing x y with
  | zero => rfl
  | succ n ih => simp only [bits, bitStep_xor, ih]

theorem bits_add (m n : Nat) (x : BitVec 32) :
    bits poly (m + n) x = bits poly n (bits poly m x) := by
  induction m generalizing x with
  | zero => rw [Nat.zero_add]; rfl
  | succ m ih => rw [Nat.succ_add]; exact ih _

/-- Low zero bits are only shifted out. -/
theorem bits_of_dvd {n : Nat} {x : BitVec 32} (h : 2 ^ n ∣ x.toNat) : bits poly n x = x >>> n := by
  induction n generalizing x with
  | zero => simp [bits]
  | succ n ih =>
    obtain ⟨k, hk⟩ := h
    have heven : x.toNat = 2 * (2 ^ n * k) := by rw [hk, Nat.pow_succ']; ring
    have hlow : x.getLsbD 0 = false := by
      rw [BitVec.getLsbD, heven]
      simp
    have hstep : bitStep poly x = x >>> 1 := by
      rw [bitStep, hlow, if_neg Bool.false_ne_true, BitVec.xor_zero]
    rw [bits, hstep, ih, ← BitVec.shiftRight_add, Nat.add_comm]
    refine ⟨k, ?_⟩
    rw [BitVec.toNat_ushiftRight, Nat.shiftRight_eq_div_pow, heven]
    omega

/-- Take in one bit of data. -/
def bitIn (x : BitVec 32) (b : Bool) : BitVec 32 :=
  (x >>> 1) ^^^ (if x.getLsbD 0 ^^ b then poly else 0#32)

/-- The `n` lowest bits of a word, the lowest first. -/
def lowBits : Nat → BitVec 32 → List Bool
  | 0, _ => []
  | n + 1, w => w.getLsbD 0 :: lowBits n (w >>> 1)

/-- A bit of data taken in is mixed in and divided out. -/
theorem bitIn_eq (x w : BitVec 32) :
    bitIn poly x (w.getLsbD 0) = bitStep poly (x ^^^ w) ^^^ (w >>> 1) := by
  rw [bitIn, bitStep, BitVec.getLsbD_xor, BitVec.ushiftRight_xor_distrib, BitVec.xor_assoc,
    BitVec.xor_assoc, BitVec.xor_comm (w >>> 1), BitVec.xor_assoc, BitVec.xor_self, BitVec.xor_zero]

/-- The bits of a word taken in one by one are mixed in together and divided out. -/
theorem foldl_bitIn_lowBits (n : Nat) (x w : BitVec 32) :
    (lowBits n w).foldl (bitIn poly) x = bits poly n (x ^^^ w) ^^^ (w >>> n) := by
  induction n generalizing x w with
  | zero => rw [lowBits, bits, BitVec.ushiftRight_zero, BitVec.xor_assoc, BitVec.xor_self,
      BitVec.xor_zero, List.foldl_nil]
  | succ n ih =>
    rw [lowBits, List.foldl_cons, ih, bitIn_eq, BitVec.xor_assoc, BitVec.xor_self, BitVec.xor_zero,
      bits, ← BitVec.shiftRight_add, Nat.add_comm]

end WiscKey.Crc
