import Mathlib.Data.Nat.Bitwise
import Mathlib.Order.Bounds.Basic
import Mathlib.Tactic

/-!
# The lowest set bit of a machine word

`v & ~(v - 1)` keeps exactly the lowest set bit of a non-zero word `v`.
-/

namespace CLib

lemma exists_lowest_bit {v : ℕ} (hv : v ≠ 0) : ∃ k m, v = 2 ^ (k + 1) * m + 2 ^ k := by
  obtain ⟨k, n, hn, rfl⟩ := Nat.exists_eq_two_pow_mul_odd hv
  obtain ⟨m, rfl⟩ := hn
  exact ⟨k, m, by ring⟩

lemma testBit_lowest_form (k m i : ℕ) :
    (2 ^ (k + 1) * m + 2 ^ k).testBit i =
      if i < k + 1 then decide (i = k) else m.testBit (i - (k + 1)) := by
  rw [Nat.testBit_two_pow_mul_add m (Nat.pow_lt_pow_right Nat.one_lt_two (Nat.lt_succ_self k)),
    Nat.testBit_two_pow]
  simp only [eq_comm]

lemma testBit_lowest_form_pred (k m i : ℕ) :
    (2 ^ (k + 1) * m + 2 ^ k - 1).testBit i =
      if i < k + 1 then decide (i < k) else m.testBit (i - (k + 1)) := by
  have hk : 1 ≤ 2 ^ k := Nat.one_le_two_pow
  have hlt : 2 ^ k < 2 ^ (k + 1) := Nat.pow_lt_pow_right Nat.one_lt_two (Nat.lt_succ_self k)
  rw [Nat.add_sub_assoc hk, Nat.testBit_two_pow_mul_add m (by omega), Nat.testBit_two_pow_sub_one]

/-- Isolating the lowest set bit of a word. -/
theorem and_not_pred_eq_twoPow {w : ℕ} {v : BitVec w} (hv : v ≠ 0#w) :
    ∃ k < w, v &&& ~~~(v - 1#w) = BitVec.twoPow w k ∧ IsLeast {i | v.getLsbD i = true} k := by
  have hv' : v.toNat ≠ 0 := fun h => hv (BitVec.eq_of_toNat_eq (by simpa using h))
  obtain ⟨k, m, hkm⟩ := exists_lowest_bit hv'
  have hlt := v.isLt
  have hk : k < w := by
    apply (Nat.pow_lt_pow_iff_right (by decide : 1 < 2)).mp
    calc 2 ^ k ≤ v.toNat := by omega
      _ < 2 ^ w := hlt
  have hone : (1#w).toNat = 1 := by
    rw [BitVec.toNat_ofNat, Nat.mod_eq_of_lt (Nat.one_lt_two_pow (by omega))]
  have hpred : (v - 1#w).toNat = v.toNat - 1 := by
    rw [BitVec.toNat_sub_of_le, hone]
    rw [BitVec.le_def, hone]
    omega
  have hbit (i : ℕ) : v.getLsbD i = (2 ^ (k + 1) * m + 2 ^ k).testBit i := by
    rw [BitVec.getLsbD, hkm]
  have hbit' (i : ℕ) : (v - 1#w).getLsbD i = (2 ^ (k + 1) * m + 2 ^ k - 1).testBit i := by
    rw [BitVec.getLsbD, hpred, hkm]
  refine ⟨k, hk, ?_, ?_, ?_⟩
  · apply BitVec.eq_of_getLsbD_eq
    intro i hi
    rw [BitVec.getLsbD_and, BitVec.getLsbD_not, hbit, hbit', testBit_lowest_form,
      testBit_lowest_form_pred, BitVec.getLsbD_twoPow]
    by_cases hik : i < k + 1
    · rw [if_pos hik, if_pos hik]
      by_cases he : i = k
      · simp [he, hk]
      · simp [he, Ne.symm he]
    · have he : ¬k = i := by omega
      rw [if_neg hik, if_neg hik]
      simp [he, hi]
  · change v.getLsbD k = true
    rw [hbit, testBit_lowest_form]
    simp
  · intro i hi
    change v.getLsbD i = true at hi
    rw [hbit, testBit_lowest_form] at hi
    by_cases hik : i < k + 1
    · rw [if_pos hik] at hi
      exact (of_decide_eq_true hi).ge
    · omega

end CLib
