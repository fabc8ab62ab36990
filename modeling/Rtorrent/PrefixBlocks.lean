import Mathlib.Algebra.Group.Nat.Defs

/-! # Blocks of words with a common prefix

The words that agree with a word in their first bits are the words between two bounds, which
a mask gives. -/
namespace PrefixBlocks

variable {w n : ℕ} {x y z : BitVec w}

def Agree (n : ℕ) (x y : BitVec w) : Prop := ∀ i < n, x.getMsbD i = y.getMsbD i

def first (x : BitVec w) (n : ℕ) : BitVec w := x &&& (BitVec.allOnes w <<< (w - n))

def last (x : BitVec w) (n : ℕ) : BitVec w := first x n ||| (BitVec.allOnes w >>> n)

theorem agree_iff_shift (hn : n ≤ w) : Agree n x y ↔ x >>> (w - n) = y >>> (w - n) := by
  constructor
  · intro h
    apply BitVec.eq_of_getLsbD_eq
    intro i hi
    rw [BitVec.getLsbD_ushiftRight, BitVec.getLsbD_ushiftRight]
    by_cases hlow : i < n
    · -- bit `i` of the quotient is bit `n - 1 - i` from the front
      have hbit := h (n - 1 - i) (by omega)
      rw [BitVec.getMsbD_eq_getLsbD, BitVec.getMsbD_eq_getLsbD] at hbit
      have hlt : n - 1 - i < w := by omega
      have hpos : w - 1 - (n - 1 - i) = w - n + i := by omega
      simpa only [hlt, hpos, decide_true, Bool.true_and] using hbit
    · rw [BitVec.getLsbD_of_ge x _ (by omega), BitVec.getLsbD_of_ge y _ (by omega)]
  · intro h i hi
    have hbit := congrArg (fun v => v.getLsbD (n - 1 - i)) h
    rw [BitVec.getLsbD_ushiftRight, BitVec.getLsbD_ushiftRight] at hbit
    have hpos : w - n + (n - 1 - i) = w - 1 - i := by omega
    rw [BitVec.getMsbD_eq_getLsbD, BitVec.getMsbD_eq_getLsbD, ← hpos, hbit]

theorem agree_iff_div (hn : n ≤ w) :
    Agree n x y ↔ x.toNat / 2 ^ (w - n) = y.toNat / 2 ^ (w - n) := by
  rw [agree_iff_shift hn, ← BitVec.toNat_inj, BitVec.toNat_ushiftRight, BitVec.toNat_ushiftRight,
    Nat.shiftRight_eq_div_pow, Nat.shiftRight_eq_div_pow]

theorem first_eq_shifts (x : BitVec w) (n : ℕ) : first x n = (x >>> (w - n)) <<< (w - n) := by
  apply BitVec.eq_of_getLsbD_eq
  intro i hi
  rw [first, BitVec.getLsbD_and, BitVec.getLsbD_shiftLeft, BitVec.getLsbD_shiftLeft,
    BitVec.getLsbD_ushiftRight]
  by_cases hlow : i < w - n
  · simp [hi, hlow]
  · have hpos : w - n + (i - (w - n)) = i := by omega
    have hone : i - (w - n) < w := by omega
    simp [hi, hlow, hpos, hone]

theorem toNat_first (x : BitVec w) (n : ℕ) :
    (first x n).toNat = x.toNat / 2 ^ (w - n) * 2 ^ (w - n) := by
  have hle : x.toNat / 2 ^ (w - n) * 2 ^ (w - n) ≤ x.toNat := Nat.div_mul_le_self _ _
  rw [first_eq_shifts, BitVec.toNat_shiftLeft, BitVec.toNat_ushiftRight, Nat.shiftRight_eq_div_pow,
    Nat.shiftLeft_eq, Nat.mod_eq_of_lt (Nat.lt_of_le_of_lt hle x.isLt)]

theorem toNat_allOnes_shift (hn : n ≤ w) :
    (BitVec.allOnes w >>> n).toNat = 2 ^ (w - n) - 1 := by
  rw [BitVec.toNat_ushiftRight, BitVec.toNat_allOnes, Nat.shiftRight_eq_div_pow]
  have hw : 2 ^ w = 2 ^ (w - n) * 2 ^ n := by
    rw [← Nat.pow_add]
    congr 1
    omega
  have hp : 0 < 2 ^ n := Nat.two_pow_pos n
  have hq : 0 < 2 ^ (w - n) := Nat.two_pow_pos _
  rw [hw]
  apply Nat.div_eq_of_lt_le
  · rw [Nat.sub_mul]
    omega
  · rw [Nat.sub_add_cancel hq]
    exact Nat.sub_lt (Nat.mul_pos hq hp) Nat.one_pos

theorem toNat_last (x : BitVec w) (hn : n ≤ w) :
    (last x n).toNat = x.toNat / 2 ^ (w - n) * 2 ^ (w - n) + (2 ^ (w - n) - 1) := by
  rw [last, BitVec.toNat_or, toNat_first, toNat_allOnes_shift hn, Nat.mul_comm]
  have hq : 0 < 2 ^ (w - n) := Nat.two_pow_pos _
  exact (Nat.two_pow_add_eq_or_of_lt (by omega) _).symm

theorem mem_block_iff (hn : n ≤ w) : first x n ≤ z ∧ z ≤ last x n ↔ Agree n z x := by
  have hq : 0 < 2 ^ (w - n) := Nat.two_pow_pos _
  rw [BitVec.le_def, BitVec.le_def, toNat_first, toNat_last x hn, agree_iff_div hn,
    Nat.div_eq_iff hq]
  omega

end PrefixBlocks
