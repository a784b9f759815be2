import Utilc.CLib.Mixing

/-!
# The hash functions

The hash functions that `khash.h` provides for integers and strings, and which keys they keep apart.
-/

namespace Utilc
open CLib

def khIntHashFunc (key : BitVec 32) : BitVec 32 := key

/-- `(khint32_t)((key)>>33^(key)^(key)<<11)`. -/
def khInt64HashFunc (key : BitVec 64) : BitVec 32 := (key >>> 33 ^^^ key ^^^ key <<< 11).setWidth 32

/-- `(khint_t)*s`; `char` is signed. -/
def khChar (c : BitVec 8) : BitVec 32 := c.signExtend 32

/-- The argument is the string before its terminating zero. -/
def acX31HashString : List (BitVec 8) → BitVec 32
  | [] => 0#32
  | c :: s => s.foldl (fun h c => (h <<< 5) - h + khChar c) (khChar c)

def acWangHash (key : BitVec 32) : BitVec 32 :=
  let key := key + ~~~(key <<< 15)
  let key := key ^^^ key >>> 10
  let key := key + key <<< 3
  let key := key ^^^ key >>> 6
  let key := key + ~~~(key <<< 11)
  key ^^^ key >>> 16

/-! ### Integers -/

/-- Different keys have different hash values, so that keys collide only through the bucket mask. -/
theorem acWangHash_bijective : Function.Bijective acWangHash := by
  have hten : Function.Injective fun x : BitVec 32 => x ^^^ x >>> 10 :=
    xor_shiftRight_injective (Nat.succ_pos 9)
  have hsix : Function.Injective fun x : BitVec 32 => x ^^^ x >>> 6 :=
    xor_shiftRight_injective (Nat.succ_pos 5)
  have hsixteen : Function.Injective fun x : BitVec 32 => x ^^^ x >>> 16 :=
    xor_shiftRight_injective (Nat.succ_pos 15)
  have hthree : Function.Injective fun x : BitVec 32 => x + x <<< 3 :=
    add_shiftLeft_injective (Nat.succ_pos 2)
  have hfifteen : Function.Injective fun x : BitVec 32 => x + ~~~(x <<< 15) :=
    add_not_shiftLeft_injective (Nat.succ_pos 14)
  have heleven : Function.Injective fun x : BitVec 32 => x + ~~~(x <<< 11) :=
    add_not_shiftLeft_injective (Nat.succ_pos 10)
  have hfinite : Finite (BitVec 32) := Finite.of_injective BitVec.toFin fun _ _ => BitVec.eq_of_toFin_eq
  apply Function.Injective.bijective_of_finite
  exact hsixteen.comp (heleven.comp (hsix.comp (hthree.comp (hten.comp hfifteen))))

/-- Keys that agree in their upper halves are kept apart. -/
theorem khInt64HashFunc_inj {a b : BitVec 64} (hupper : a >>> 32 = b >>> 32) :
    khInt64HashFunc a = khInt64HashFunc b ↔ a = b := by
  constructor
  · intro h
    have hshift : a >>> 33 = b >>> 33 := by
      have hone := congrArg (fun x : BitVec 64 => x >>> 1) hupper
      simpa only [← BitVec.shiftRight_add] using hone
    have hlower : a.setWidth 32 = b.setWidth 32 := by
      apply xor_shiftLeft_injective (Nat.succ_pos 10)
      have hsplit (x : BitVec 64) : khInt64HashFunc x =
          (x >>> 33).setWidth 32 ^^^ (x.setWidth 32 ^^^ x.setWidth 32 <<< 11) := by
        unfold khInt64HashFunc
        rw [BitVec.setWidth_xor, BitVec.setWidth_xor, BitVec.setWidth_shiftLeft_of_le (by omega),
          BitVec.xor_assoc]
      rw [hsplit, hsplit, hshift] at h
      exact (BitVec.xor_right_inj _).mp h
    apply BitVec.eq_of_getLsbD_eq
    intro i hi
    by_cases hlt : i < 32
    · have hbit := congrArg (fun x => x.getLsbD i) hlower
      simpa [hlt] using hbit
    · have hbit := congrArg (fun x : BitVec 64 => x.getLsbD (i - 32)) hupper
      simpa only [BitVec.getLsbD_ushiftRight, Nat.add_sub_cancel' (not_lt.mp hlt)] using hbit
  · rintro rfl
    rfl

theorem khInt64HashFunc_inj_small : khInt64HashFunc 1#64 = khInt64HashFunc 2#64 ↔ 1#64 = 2#64 :=
  khInt64HashFunc_inj rfl

/-! ### Strings -/

/-- `(h << 5) - h + c` is a step of Horner's rule for the base 31. -/
lemma x31_step (h c : BitVec 32) : (h <<< 5) - h + c = h * 31#32 + c := by
  have hshift : h <<< 5 = h * 32#32 := (BitVec.mul_twoPow_eq_shiftLeft h 5).symm
  have hone : h = h * 1#32 := (BitVec.mul_one h).symm
  have hsub : h * 32#32 - h * 1#32 = h * 31#32 := by
    rw [← mul_sub]
    rfl
  rw [hshift]
  nth_rewrite 2 [hone]
  rw [hsub]

lemma x31_foldl (s : List (BitVec 8)) (h : BitVec 32) :
    s.foldl (fun (h : BitVec 32) (c : BitVec 8) => (h <<< 5) - h + khChar c) h =
      h * (31#32) ^ s.length + acX31HashString s := by
  induction s generalizing h with
  | nil => rw [List.foldl_nil, List.length_nil, pow_zero, mul_one, acX31HashString, BitVec.add_zero]
  | cons c s ih =>
    rw [List.foldl_cons, ih, x31_step, acX31HashString, ih, List.length_cons, pow_succ]
    ring

/-- The hash value of two strings put together. -/
lemma acX31HashString_append (s t : List (BitVec 8)) :
    acX31HashString (s ++ t) = acX31HashString s * (31#32) ^ t.length + acX31HashString t := by
  cases s with
  | nil => rw [List.nil_append, acX31HashString, BitVec.zero_mul, BitVec.zero_add]
  | cons c s => rw [List.cons_append, acX31HashString, acX31HashString, List.foldl_append, x31_foldl t]

lemma khChar_injective : Function.Injective khChar := by
  intro c d h
  have hint := congrArg BitVec.toInt h
  unfold khChar at hint
  rw [BitVec.toInt_signExtend_of_le (by omega), BitVec.toInt_signExtend_of_le (by omega)] at hint
  exact BitVec.eq_of_toInt_eq hint

lemma mul_pow_31_injective (n : ℕ) : Function.Injective fun x : BitVec 32 => x * (31#32) ^ n := by
  induction n with
  | zero =>
    intro x y h
    simpa only [pow_zero, mul_one] using h
  | succ n ih =>
    have hodd : Odd (31#32).toNat := ⟨15, rfl⟩
    intro x y h
    simp only [pow_succ, ← mul_assoc] at h
    exact ih (mul_odd_injective hodd h)

/-- Two strings that differ in one character are kept apart. -/
theorem acX31HashString_one_char (s t : List (BitVec 8)) (c d : BitVec 8) :
    acX31HashString (s ++ c :: t) = acX31HashString (s ++ d :: t) ↔ c = d := by
  constructor
  · intro h
    rw [acX31HashString_append, acX31HashString_append, acX31HashString, acX31HashString, x31_foldl,
      x31_foldl] at h
    have htail := add_right_cancel (add_left_cancel h)
    exact khChar_injective (mul_pow_31_injective t.length htail)
  · rintro rfl
    rfl

end Utilc
