import Mathlib.Data.Nat.Bitwise
import Mathlib.Data.Nat.Log
import Mathlib.Tactic

/-!
# Rounding up to a power of two

A word is rounded up by setting every bit below the highest one of its predecessor. Each step copies
the bits down by the distance that the steps before have covered.
-/

namespace CLib

variable {w : ℕ} {x y : BitVec w}

/-- The macro `(--x, x |= x >> 1, x |= x >> 2, x |= x >> 4, x |= x >> 8, x |= x >> 16, ++x)`. -/
def roundUp32 (x : BitVec w) : BitVec w :=
  let x := x - 1#w
  let x := x ||| x >>> 1
  let x := x ||| x >>> 2
  let x := x ||| x >>> 4
  let x := x ||| x >>> 8
  let x := x ||| x >>> 16
  x + 1#w

/-- The bits of `y` are those that lie at most `m - 1` below a bit of `x`. -/
def CopiedDown (x : BitVec w) (m : ℕ) (y : BitVec w) : Prop :=
  ∀ i, y.getLsbD i = true ↔ ∃ j < m, x.getLsbD (i + j) = true

lemma copiedDown_one (x : BitVec w) : CopiedDown x 1 x := by
  intro i
  constructor
  · intro h
    exact ⟨0, Nat.one_pos, h⟩
  · rintro ⟨j, hj, h⟩
    rwa [Nat.lt_one_iff.mp hj] at h

lemma CopiedDown.double {m : ℕ} (h : CopiedDown x m y) : CopiedDown x (2 * m) (y ||| y >>> m) := by
  intro i
  rw [BitVec.getLsbD_or, BitVec.getLsbD_ushiftRight, Bool.or_eq_true, h i, h (m + i)]
  constructor
  · rintro (⟨j, hj, hbit⟩ | ⟨j, hj, hbit⟩)
    · exact ⟨j, by omega, hbit⟩
    · refine ⟨m + j, by omega, ?_⟩
      rwa [← Nat.add_assoc, Nat.add_comm i m]
  · rintro ⟨j, hj, hbit⟩
    by_cases hlt : j < m
    · exact Or.inl ⟨j, hlt, hbit⟩
    · refine Or.inr ⟨j - m, by omega, ?_⟩
      have he : m + i + (j - m) = i + j := by omega
      rwa [he]

/-- The steps have set every bit from the highest one of `x` on. -/
lemma CopiedDown.toNat {m pos : ℕ} (h : CopiedDown x m y) (hpos : pos < m) (hlow : 2 ^ pos ≤ x.toNat)
    (hhigh : x.toNat < 2 ^ (pos + 1)) : y.toNat = 2 ^ (pos + 1) - 1 := by
  have hbit : x.getLsbD pos = true := by
    obtain ⟨i, hi, hbit⟩ := Nat.exists_ge_and_testBit_of_ge_two_pow hlow
    have hle : i ≤ pos := by
      by_contra hgt
      have hpow : 2 ^ (pos + 1) ≤ 2 ^ i := Nat.pow_le_pow_right Nat.two_pos (not_le.mp hgt)
      rw [Nat.testBit_lt_two_pow (by omega)] at hbit
      cases hbit
    rwa [le_antisymm hle hi] at hbit
  apply Nat.eq_of_testBit_eq
  intro i
  rw [Nat.testBit_two_pow_sub_one, Bool.eq_iff_iff, decide_eq_true_iff]
  change y.getLsbD i = true ↔ i < pos + 1
  rw [h i]
  constructor
  · rintro ⟨j, -, hj⟩
    by_contra hge
    have hpow : 2 ^ (pos + 1) ≤ 2 ^ (i + j) := Nat.pow_le_pow_right Nat.two_pos (by omega)
    have hoff : x.getLsbD (i + j) = false := Nat.testBit_lt_two_pow (by omega)
    rw [hoff] at hj
    cases hj
  · intro hi
    refine ⟨pos - i, by omega, ?_⟩
    rwa [Nat.add_sub_cancel' (by omega)]

lemma copiedDown_thirtyTwo (x : BitVec w) : ∃ y, CopiedDown x 32 y ∧ roundUp32 (x + 1#w) = y + 1#w := by
  have hpred : x + 1#w - 1#w = x := BitVec.add_sub_cancel x 1#w
  refine ⟨_, (copiedDown_one x).double.double.double.double.double, ?_⟩
  unfold roundUp32
  rw [hpred]

lemma exists_pred (hx : x ≠ 0#w) : ∃ p : BitVec w, x = p + 1#w ∧ x.toNat = p.toNat + 1 := by
  have hw : w ≠ 0 := by
    rintro rfl
    exact hx (BitVec.eq_nil _)
  have hone : (1#w).toNat = 1 := BitVec.toNat_one (Nat.pos_of_ne_zero hw)
  have hpos : 1 ≤ x.toNat := by
    apply Nat.one_le_iff_ne_zero.mpr
    intro h
    exact hx (BitVec.eq_of_toNat_eq (h.trans BitVec.toNat_zero.symm))
  refine ⟨x - 1#w, (BitVec.sub_add_cancel x 1#w).symm, ?_⟩
  rw [BitVec.toNat_sub_of_le (by rwa [BitVec.le_def, hone]), hone, Nat.sub_add_cancel hpos]

lemma CopiedDown.eq_zero {m : ℕ} (h : CopiedDown x m y) (hx : x.toNat = 0) : y.toNat = 0 := by
  apply Nat.eq_of_testBit_eq
  intro i
  rw [Nat.zero_testBit]
  change y.getLsbD i = false
  rw [Bool.eq_false_iff, ne_eq, h i]
  rintro ⟨j, -, hj⟩
  unfold BitVec.getLsbD at hj
  rw [hx, Nat.zero_testBit] at hj
  cases hj

/-- A word that is not zero and at most `2 ^ 32` becomes the least power of two that is not below it,
or zero where that power does not fit. -/
theorem toNat_roundUp32 (hx : x ≠ 0#w) (hle : x.toNat ≤ 2 ^ 32) :
    (roundUp32 x).toNat = 2 ^ Nat.clog 2 x.toNat % 2 ^ w := by
  obtain ⟨p, rfl, hp⟩ := exists_pred hx
  obtain ⟨y, hy, hround⟩ := copiedDown_thirtyTwo p
  rw [hp] at hle ⊢
  have hresult : y.toNat + 1 = 2 ^ Nat.clog 2 (p.toNat + 1) := by
    rcases Nat.eq_zero_or_pos p.toNat with hzero | hpos
    · rw [hy.eq_zero hzero, hzero, Nat.clog_one_right, Nat.pow_zero]
    · have hlog : 2 ^ Nat.log 2 p.toNat ≤ p.toNat := Nat.pow_log_le_self 2 hpos.ne'
      have hlt : p.toNat < 2 ^ (Nat.log 2 p.toNat + 1) := Nat.lt_pow_succ_log_self Nat.one_lt_two _
      have hthirtyTwo : Nat.log 2 p.toNat < 32 := Nat.log_lt_of_lt_pow hpos.ne' hle
      have hclog : Nat.clog 2 (p.toNat + 1) = Nat.log 2 p.toNat + 1 := by
        apply le_antisymm
        · exact Nat.clog_le_of_le_pow hlt
        · exact (Nat.lt_clog_iff_pow_lt Nat.one_lt_two).mpr (by omega)
      rw [hy.toNat hthirtyTwo hlog hlt, hclog, Nat.sub_add_cancel Nat.one_le_two_pow]
  rw [hround, BitVec.toNat_add, BitVec.toNat_ofNat, Nat.add_mod_mod, hresult]

/-- A word of any size becomes a word that is not below it, and not above a power of two that it was
not above. -/
theorem roundUp32_bounds {k : ℕ} (hx : x ≠ 0#w) (hk : k < w) (hle : x.toNat ≤ 2 ^ k) :
    x.toNat ≤ (roundUp32 x).toNat ∧ (roundUp32 x).toNat ≤ 2 ^ k := by
  obtain ⟨p, rfl, hp⟩ := exists_pred hx
  obtain ⟨y, hy, hround⟩ := copiedDown_thirtyTwo p
  have hlow : p.toNat ≤ y.toNat := by
    have hand : p &&& y = p := by
      apply BitVec.eq_of_getLsbD_eq
      intro i _
      rw [BitVec.getLsbD_and, Bool.and_eq_left_iff_imp, hy i]
      intro h
      exact ⟨0, Nat.succ_pos 31, h⟩
    rw [← hand, BitVec.toNat_and]
    exact Nat.and_le_right
  have hhigh : y.toNat < 2 ^ k := by
    apply Nat.lt_pow_two_of_testBit
    intro i hi
    change y.getLsbD i = false
    rw [Bool.eq_false_iff, ne_eq, hy i]
    rintro ⟨j, -, hj⟩
    have hpow : 2 ^ k ≤ 2 ^ (i + j) := Nat.pow_le_pow_right Nat.two_pos (by omega)
    have hoff : p.getLsbD (i + j) = false := Nat.testBit_lt_two_pow (by omega)
    rw [hoff] at hj
    cases hj
  have hpow : 2 ^ k < 2 ^ w := Nat.pow_lt_pow_right Nat.one_lt_two hk
  have hsum : (y + 1#w).toNat = y.toNat + 1 := by
    rw [BitVec.toNat_add, BitVec.toNat_one (by omega), Nat.mod_eq_of_lt (by omega)]
  rw [hround, hp, hsum]
  omega

/-! ### Room that doubles -/

/-- Room from `2 ^ j` on that doubles when it is used up is always the least power of two that is
enough. -/
theorem max_two_pow_clog_succ (j p : ℕ) : max (2 ^ j) (2 ^ Nat.clog 2 (p + 1)) =
    if max (2 ^ j) (2 ^ Nat.clog 2 p) = p then p * 2 else max (2 ^ j) (2 ^ Nat.clog 2 p) := by
  have hj : 1 ≤ 2 ^ j := Nat.one_le_two_pow
  have hle : p ≤ 2 ^ Nat.clog 2 p := Nat.le_pow_clog Nat.one_lt_two p
  by_cases hfull : max (2 ^ j) (2 ^ Nat.clog 2 p) = p
  · have heq : 2 ^ Nat.clog 2 p = p := by omega
    have hclog : Nat.clog 2 (p + 1) = Nat.clog 2 p + 1 := by
      apply le_antisymm
      · apply Nat.clog_le_of_le_pow
        rw [Nat.pow_succ, heq]
        omega
      · exact (Nat.lt_clog_iff_pow_lt Nat.one_lt_two).mpr (by omega)
    rw [if_pos hfull, hclog, Nat.pow_succ, heq]
    exact max_eq_right (by omega)
  · rw [if_neg hfull]
    rcases Nat.lt_or_ge p (2 ^ Nat.clog 2 p) with hlt | hge
    · have hclog : Nat.clog 2 (p + 1) = Nat.clog 2 p :=
        le_antisymm (Nat.clog_le_of_le_pow hlt) (Nat.clog_mono_right 2 (Nat.le_succ p))
      rw [hclog]
    · have hclog : 2 ^ Nat.clog 2 (p + 1) ≤ 2 ^ j :=
        Nat.pow_le_pow_right Nat.two_pos (Nat.clog_le_of_le_pow (by omega))
      rw [max_eq_left hclog, max_eq_left (by omega)]

end CLib
