import Mathlib.Data.BitVec
import Mathlib.Tactic

/-!
# Mixing the bits of a word

The steps of which integer hash functions are made. None of them maps two words to one.
-/

namespace CLib

variable {w : ℕ}

/-- A word can be read off from the highest bit down. -/
lemma xor_shiftRight_injective {s : ℕ} (hs : 0 < s) :
    Function.Injective fun x : BitVec w => x ^^^ x >>> s := by
  intro x y h
  have hbits (d : ℕ) : ∀ i, w ≤ i + d → x.getLsbD i = y.getLsbD i := by
    induction d with
    | zero =>
      intro i hi
      rw [BitVec.getLsbD_of_ge x i hi, BitVec.getLsbD_of_ge y i hi]
    | succ d ih =>
      intro i hi
      have hbit := congrArg (fun z => z.getLsbD i) h
      simp only [BitVec.getLsbD_xor, BitVec.getLsbD_ushiftRight] at hbit
      rw [ih (s + i) (by omega)] at hbit
      exact Bool.xor_left_inj.mp hbit
  apply BitVec.eq_of_getLsbD_eq
  intro i _
  exact hbits w i (Nat.le_add_left w i)

/-- A word can be read off from the lowest bit up. -/
lemma xor_shiftLeft_injective {s : ℕ} (hs : 0 < s) :
    Function.Injective fun x : BitVec w => x ^^^ x <<< s := by
  intro x y h
  have hbits (i : ℕ) : x.getLsbD i = y.getLsbD i := by
    induction i using Nat.strong_induction_on with
    | _ i ih =>
      have hbit := congrArg (fun z => z.getLsbD i) h
      simp only [BitVec.getLsbD_xor, BitVec.getLsbD_shiftLeft] at hbit
      by_cases hlt : i < s
      · simpa [hlt] using hbit
      · rw [ih (i - s) (by omega)] at hbit
        exact Bool.xor_left_inj.mp hbit
  apply BitVec.eq_of_getLsbD_eq
  intro i _
  exact hbits i

/-- An odd factor is lost nowhere. -/
lemma mul_odd_injective {a : BitVec w} (ha : Odd a.toNat) :
    Function.Injective fun x : BitVec w => x * a := by
  intro x y h
  have hmod : x.toNat * a.toNat ≡ y.toNat * a.toNat [MOD 2 ^ w] := by
    have hnat := congrArg BitVec.toNat h
    simp only [BitVec.toNat_mul] at hnat
    exact hnat
  have hcoprime : Nat.gcd (2 ^ w) a.toNat = 1 :=
    Nat.Coprime.pow_left w (Nat.coprime_two_left.mpr ha)
  have hxy := Nat.ModEq.cancel_right_of_coprime hcoprime hmod
  apply BitVec.eq_of_toNat_eq
  rwa [Nat.ModEq, Nat.mod_eq_of_lt x.isLt, Nat.mod_eq_of_lt y.isLt] at hxy

/-- A power of two above the lowest bit is even. -/
lemma even_twoPow {s : ℕ} (hs : 0 < s) : (BitVec.twoPow (w + 1) s).toNat % 2 = 0 := by
  have hdvd : 2 ∣ 2 ^ (w + 1) := Dvd.intro_left _ (pow_succ 2 w).symm
  rw [BitVec.toNat_twoPow, Nat.mod_mod_of_dvd _ hdvd]
  exact Nat.mod_eq_zero_of_dvd (dvd_pow_self 2 hs.ne')

/-- `x + (x << s)` is a multiple of `x` by an odd number. -/
lemma add_shiftLeft_injective {s : ℕ} (hs : 0 < s) :
    Function.Injective fun x : BitVec w => x + x <<< s := by
  cases w with
  | zero => exact Function.injective_of_subsingleton _
  | succ w =>
    have hdvd : 2 ∣ 2 ^ (w + 1) := Dvd.intro_left _ (pow_succ 2 w).symm
    have hodd : Odd (1#(w + 1) + BitVec.twoPow (w + 1) s).toNat := by
      have htwo := even_twoPow (w := w) hs
      rw [Nat.odd_iff, BitVec.toNat_add, Nat.mod_mod_of_dvd _ hdvd, BitVec.toNat_one (Nat.succ_pos w)]
      omega
    have hmul : (fun x : BitVec (w + 1) => x + x <<< s) =
        fun x => x * (1#(w + 1) + BitVec.twoPow (w + 1) s) := by
      funext x
      rw [BitVec.mul_add, BitVec.mul_one, BitVec.mul_twoPow_eq_shiftLeft]
    rw [hmul]
    exact mul_odd_injective hodd

/-- So is `x + ~(x << s)`, up to a constant. -/
lemma add_not_shiftLeft_injective {s : ℕ} (hs : 0 < s) :
    Function.Injective fun x : BitVec w => x + ~~~(x <<< s) := by
  cases w with
  | zero => exact Function.injective_of_subsingleton _
  | succ w =>
    have hdvd : 2 ∣ 2 ^ (w + 1) := Dvd.intro_left _ (pow_succ 2 w).symm
    have hodd : Odd (1#(w + 1) - BitVec.twoPow (w + 1) s).toNat := by
      have htwo := even_twoPow (w := w) hs
      have hlt := (BitVec.twoPow (w + 1) s).isLt
      rw [Nat.odd_iff, BitVec.toNat_sub, Nat.mod_mod_of_dvd _ hdvd, BitVec.toNat_one (Nat.succ_pos w)]
      omega
    have hmul : (fun x : BitVec (w + 1) => x + ~~~(x <<< s)) =
        (fun x => x - 1#(w + 1)) ∘ fun x => x * (1#(w + 1) - BitVec.twoPow (w + 1) s) := by
      funext x
      rw [Function.comp_apply, mul_sub, BitVec.mul_one, BitVec.mul_twoPow_eq_shiftLeft,
        BitVec.not_eq_neg_add]
      ring
    rw [hmul]
    exact (sub_left_injective (b := 1#(w + 1))).comp (mul_odd_injective hodd)

end CLib
