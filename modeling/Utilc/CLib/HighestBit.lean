import Mathlib.Data.Nat.Bitwise
import Mathlib.Data.Nat.Log
import Mathlib.Order.Bounds.Basic
import Mathlib.Tactic

/-!
# The highest set bit of a machine word

A search for the highest set bit drops the lower half of what is left of the word when the upper
half is not zero, and looks at a part of half the width next.
-/

namespace CLib

variable {w : ℕ} {v val mask : BitVec w} {pos s : ℕ}

/-- The state of a search in `v`: what is left after `pos` bits are dropped has a set bit and at
most `width` bits. -/
structure HighestBitSearch (v val : BitVec w) (pos width : ℕ) : Prop where
  dropped : val.toNat = v.toNat / 2 ^ pos
  val_pos : 0 < val.toNat
  val_lt : val.toNat < 2 ^ width

/-- A mask of the upper half tells whether that half is zero. -/
lemma and_upperHalf_ne_zero_iff
    (hmask : ∀ i < w, mask.getLsbD i = decide (s ≤ i ∧ i < 2 * s)) (hval : val.toNat < 2 ^ (2 * s)) :
    val &&& mask ≠ 0#w ↔ 2 ^ s ≤ val.toNat := by
  constructor
  · intro hne
    by_contra hlt
    apply hne
    apply BitVec.eq_of_getLsbD_eq
    intro i hi
    rw [BitVec.getLsbD_and, hmask i hi, BitVec.getLsbD_zero]
    by_cases hsi : s ≤ i
    · have hle : 2 ^ s ≤ 2 ^ i := Nat.pow_le_pow_right Nat.two_pos hsi
      have hoff : val.getLsbD i = false := Nat.testBit_lt_two_pow (by omega)
      rw [hoff, Bool.false_and]
    · simp [hsi]
  · intro hle hzero
    obtain ⟨i, hsi, hbit⟩ := Nat.exists_ge_and_testBit_of_ge_two_pow hle
    have hi : i < 2 * s := by
      by_contra hge
      have hpow : 2 ^ (2 * s) ≤ 2 ^ i := Nat.pow_le_pow_right Nat.two_pos (not_lt.mp hge)
      rw [Nat.testBit_lt_two_pow (by omega)] at hbit
      cases hbit
    have hiw : i < w := BitVec.lt_of_getLsbD (x := val) hbit
    have hand := congrArg (fun x : BitVec w => x.getLsbD i) hzero
    have hon : val.getLsbD i = true := hbit
    simp [hmask i hiw, hon, hsi, hi] at hand

namespace HighestBitSearch

lemma start (hv : v ≠ 0#w) : HighestBitSearch v v 0 w where
  dropped := by rw [pow_zero, Nat.div_one]
  val_pos := Nat.pos_of_ne_zero fun h => hv (BitVec.eq_of_toNat_eq (by simpa using h))
  val_lt := v.isLt

/-- The upper half is not zero: the search goes on in it. -/
lemma upper (h : HighestBitSearch v val pos (2 * s)) (hle : 2 ^ s ≤ val.toNat) :
    HighestBitSearch v (val >>> s) (pos + s) s where
  dropped := by
    rw [BitVec.toNat_ushiftRight, Nat.shiftRight_eq_div_pow, h.dropped, Nat.div_div_eq_div_mul,
      ← pow_add]
  val_pos := by
    rw [BitVec.toNat_ushiftRight, Nat.shiftRight_eq_div_pow]
    exact Nat.div_pos hle (Nat.two_pow_pos s)
  val_lt := by
    have hlt := h.val_lt
    rw [two_mul, pow_add] at hlt
    rw [BitVec.toNat_ushiftRight, Nat.shiftRight_eq_div_pow]
    exact Nat.div_lt_of_lt_mul hlt

lemma lower (h : HighestBitSearch v val pos (2 * s)) (hlt : val.toNat < 2 ^ s) :
    HighestBitSearch v val pos s where
  dropped := h.dropped
  val_pos := h.val_pos
  val_lt := hlt

/-- A part of one bit is the highest set bit. -/
lemma bounds (h : HighestBitSearch v val pos 1) :
    2 ^ pos ≤ v.toNat ∧ v.toNat < 2 ^ (pos + 1) := by
  have hone : v.toNat / 2 ^ pos = 1 := by
    have hpos := h.val_pos
    have hlt := h.val_lt
    rw [← h.dropped]
    omega
  have hp : 0 < 2 ^ pos := Nat.two_pow_pos pos
  have hmod := Nat.div_add_mod v.toNat (2 ^ pos)
  have hrest := Nat.mod_lt v.toNat hp
  rw [hone, Nat.mul_one] at hmod
  rw [pow_succ]
  omega

end HighestBitSearch

lemma isGreatest_highestBit (hlow : 2 ^ pos ≤ v.toNat) (hhigh : v.toNat < 2 ^ (pos + 1)) :
    IsGreatest {i | v.getLsbD i = true} pos := by
  have hbound : ∀ i, v.getLsbD i = true → i ≤ pos := by
    intro i hi
    by_contra hlt
    have hpow : 2 ^ (pos + 1) ≤ 2 ^ i := Nat.pow_le_pow_right Nat.two_pos (by omega)
    have hoff : v.getLsbD i = false := Nat.testBit_lt_two_pow (by omega)
    rw [hoff] at hi
    cases hi
  refine ⟨?_, fun i hi => hbound i hi⟩
  obtain ⟨i, hge, hbit⟩ := Nat.exists_ge_and_testBit_of_ge_two_pow hlow
  have he : i = pos := le_antisymm (hbound i hbit) hge
  exact he ▸ hbit

/-- The power of two that envelops a word is the one of its highest bit or the next one. -/
lemma clog_of_highestBit {n : ℕ} (hlow : 2 ^ pos ≤ n) (hhigh : n < 2 ^ (pos + 1)) :
    Nat.clog 2 n = if n = 2 ^ pos then pos else pos + 1 := by
  by_cases he : n = 2 ^ pos
  · rw [if_pos he, he, Nat.clog_pow 2 pos (by decide)]
  · have hlt : 2 ^ pos < n := lt_of_le_of_ne hlow (Ne.symm he)
    rw [if_neg he]
    apply le_antisymm
    · exact Nat.clog_le_of_le_pow hhigh.le
    · exact (Nat.lt_clog_iff_pow_lt (by decide)).mpr hlt

end CLib
