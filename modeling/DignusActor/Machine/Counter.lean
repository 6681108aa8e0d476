import Mathlib

/-! # Counters in machine words

A counter that only grows, kept in a word of `w + 1` bits, wraps around. Two counters that are less
than half of the range apart can still be compared: the signed difference of the words is the
difference of the counters (`toInt_sub`), whatever number of times they wrapped. -/

namespace Counter

variable {w a b : Nat}

/-- The signed difference of the words of two counters that are near each other. -/
theorem toInt_sub (hab : a < b + 2 ^ w) (hba : b ≤ a + 2 ^ w) :
    (BitVec.ofNat (w + 1) a - BitVec.ofNat (w + 1) b).toInt = (a : Int) - b := by
  rw [BitVec.toInt_sub, BitVec.toInt_ofNat', BitVec.toInt_ofNat', Int.bmod_sub_bmod,
    Int.sub_bmod_bmod]
  have hpow : 2 ^ (w + 1) = 2 ^ w * 2 := Nat.pow_succ ..
  apply Int.bmod_eq_of_le_mul_two <;> rw [hpow] <;> omega

theorem ofNat_eq_iff (hab : a < b + 2 ^ w) (hba : b ≤ a + 2 ^ w) :
    BitVec.ofNat (w + 1) a = BitVec.ofNat (w + 1) b ↔ a = b := by
  refine ⟨fun h => ?_, congrArg _⟩
  have hdiff := toInt_sub hab hba
  rw [h, BitVec.sub_self, BitVec.toInt_zero] at hdiff
  omega

/-- The low bits of the word of a counter. -/
theorem toNat_and_mask {k : Nat} (hk : k ≤ w) (p : Nat) :
    (BitVec.ofNat w p &&& BitVec.ofNat w (2 ^ k - 1)).toNat = p % 2 ^ k := by
  have hpow : 2 ^ k ≤ 2 ^ w := Nat.pow_le_pow_right (by omega) hk
  have hpos : 0 < 2 ^ k := Nat.two_pow_pos k
  rw [BitVec.toNat_and, BitVec.toNat_ofNat, BitVec.toNat_ofNat,
    Nat.mod_eq_of_lt (by omega : 2 ^ k - 1 < 2 ^ w), Nat.and_two_pow_sub_one_eq_mod,
    Nat.mod_mod_of_dvd _ (Nat.pow_dvd_pow 2 hk)]

end Counter
