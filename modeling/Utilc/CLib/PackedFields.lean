import Utilc.CLib.Checked

/-!
# Two-bit fields in 32-bit words

Sixteen fields share a word. A field is addressed by its number; a mask of two bits says which of its
bits an operation tests or changes.
-/

namespace CLib

/-- Bit `b` of field `i`. -/
def fieldBit (ws : List (BitVec 32)) (i b : ℕ) : Bool :=
  (ws.getD (i / 16) 0#32).getLsbD (2 * (i % 16) + b)

/-- `((ws[i >> 4] >> ((i & 0xf) << 1)) & mask) != 0`. -/
def testField (mask : BitVec 32) (ws : List (BitVec 32)) (i : ℕ) : Checked Bool := do
  let w ← readAt ws (i >>> 4)
  return w >>> ((i &&& 0xf) <<< 1) &&& mask ≠ 0#32

/-- `ws[i >> 4] &= ~(mask << ((i & 0xf) << 1))`. -/
def clearField (mask : BitVec 32) (ws : List (BitVec 32)) (i : ℕ) : Checked (List (BitVec 32)) := do
  let w ← readAt ws (i >>> 4)
  writeAt ws (i >>> 4) (w &&& ~~~(mask <<< ((i &&& 0xf) <<< 1)))

/-- `ws[i >> 4] |= mask << ((i & 0xf) << 1)`. -/
def setField (mask : BitVec 32) (ws : List (BitVec 32)) (i : ℕ) : Checked (List (BitVec 32)) := do
  let w ← readAt ws (i >>> 4)
  writeAt ws (i >>> 4) (w ||| mask <<< ((i &&& 0xf) <<< 1))

variable {ws : List (BitVec 32)} {mask : BitVec 32} {i : ℕ}

lemma field_word (i : ℕ) : i >>> 4 = i / 16 := Nat.shiftRight_eq_div_pow i 4

lemma field_shift (i : ℕ) : (i &&& 0xf) <<< 1 = 2 * (i % 16) := by
  have h : i &&& 0xf = i % 16 := Nat.and_two_pow_sub_one_eq_mod i 4
  rw [h, Nat.shiftLeft_eq, Nat.pow_one, Nat.mul_comm]

lemma mask_getLsbD (hmask : mask < 4#32) {b : ℕ} (hb : 2 ≤ b) : mask.getLsbD b = false := by
  have hlt : mask.toNat < 2 ^ 2 := hmask
  have hpow : 2 ^ 2 ≤ 2 ^ b := Nat.pow_le_pow_right Nat.two_pos hb
  exact Nat.testBit_lt_two_pow (by omega)

lemma testField_eq (hi : i / 16 < ws.length) (hmask : mask < 4#32) :
    testField mask ws i =
      .ok (mask.getLsbD 0 && fieldBit ws i 0 || mask.getLsbD 1 && fieldBit ws i 1) := by
  simp only [testField, field_word, field_shift, readAt_getD hi 0#32, ok_bind, pure_eq_ok]
  unfold fieldBit
  generalize ws.getD (i / 16) 0#32 = w
  congr 1
  rw [Bool.eq_iff_iff, decide_eq_true_iff]
  constructor
  · intro hne
    by_contra hboth
    apply hne
    apply BitVec.eq_of_getLsbD_eq
    intro b _
    rw [BitVec.getLsbD_and, BitVec.getLsbD_ushiftRight, BitVec.getLsbD_zero]
    simp only [Bool.or_eq_true, Bool.and_eq_true, not_or, not_and, Bool.not_eq_true] at hboth
    rcases Nat.lt_or_ge b 2 with hb | hb
    · interval_cases b
      · cases hbit : mask.getLsbD 0 with
        | false => rw [Bool.and_false]
        | true => rw [Bool.and_true, hboth.1 hbit]
      · cases hbit : mask.getLsbD 1 with
        | false => rw [Bool.and_false]
        | true => rw [Bool.and_true, hboth.2 hbit]
    · rw [mask_getLsbD hmask hb, Bool.and_false]
  · have hbit {b : ℕ} (h : (mask.getLsbD b && w.getLsbD (2 * (i % 16) + b)) = true) :
        w >>> (2 * (i % 16)) &&& mask ≠ 0#32 := by
      intro hzero
      have hb := congrArg (fun x => x.getLsbD b) hzero
      simp only [BitVec.getLsbD_and, BitVec.getLsbD_ushiftRight, BitVec.getLsbD_zero] at hb
      rw [Bool.and_comm, hb] at h
      cases h
    rw [Bool.or_eq_true]
    rintro (h | h)
    · exact hbit h
    · exact hbit h

/-- A mask moved to field `i` of a word, seen from field `j`. -/
lemma getLsbD_shift_field (hmask : mask < 4#32) (i j : ℕ) {b : ℕ} (hb : b < 2) :
    (mask <<< (2 * (i % 16))).getLsbD (2 * (j % 16) + b) =
      (decide (j % 16 = i % 16) && mask.getLsbD b) := by
  rw [BitVec.getLsbD_shiftLeft]
  rcases lt_trichotomy (j % 16) (i % 16) with h | h | h
  · rw [decide_eq_true (by omega : 2 * (j % 16) + b < 2 * (i % 16)), decide_eq_false h.ne]
    simp
  · have hsub : 2 * (j % 16) + b - 2 * (i % 16) = b := by omega
    rw [hsub, decide_eq_true h, decide_eq_true (by omega : 2 * (j % 16) + b < 32),
      decide_eq_false (by omega : ¬2 * (j % 16) + b < 2 * (i % 16))]
    simp
  · rw [mask_getLsbD hmask (by omega : 2 ≤ 2 * (j % 16) + b - 2 * (i % 16)), Bool.and_false,
      decide_eq_false h.ne', Bool.false_and]

/-- Field `j` after a write to the word of field `i`. -/
lemma fieldBit_set (hi : i / 16 < ws.length) (w : BitVec 32) (j b : ℕ) :
    fieldBit (ws.set (i / 16) w) j b =
      if j / 16 = i / 16 then w.getLsbD (2 * (j % 16) + b) else fieldBit ws j b := by
  unfold fieldBit
  by_cases h : j / 16 = i / 16
  · rw [if_pos h, h, List.getD_eq_getElem?_getD, List.getElem?_set_self hi, Option.getD_some]
  · rw [if_neg h, List.getD_eq_getElem?_getD, List.getElem?_set_ne (Ne.symm h),
      ← List.getD_eq_getElem?_getD]

lemma same_field {j : ℕ} (hword : j / 16 = i / 16) : j % 16 = i % 16 ↔ j = i := by omega

lemma clearField_eq (hi : i / 16 < ws.length) (hmask : mask < 4#32) :
    ∃ ws', clearField mask ws i = .ok ws' ∧ ws'.length = ws.length ∧
      ∀ j, ∀ b < 2, fieldBit ws' j b =
        (fieldBit ws j b && !(decide (j = i) && mask.getLsbD b)) := by
  simp only [clearField, field_word, field_shift, readAt_getD hi 0#32, ok_bind, writeAt_of_lt hi]
  refine ⟨_, rfl, List.length_set, fun j b hb => ?_⟩
  have hlt : 2 * (j % 16) + b < 32 := by omega
  rw [fieldBit_set hi]
  by_cases hword : j / 16 = i / 16
  · rw [if_pos hword, BitVec.getLsbD_and, BitVec.getLsbD_not, getLsbD_shift_field hmask i j hb,
      decide_eq_true hlt, Bool.true_and]
    simp only [same_field hword]
    rw [fieldBit, hword]
  · rw [if_neg hword, decide_eq_false fun h => hword (congrArg (fun n => n / 16) h),
      Bool.false_and, Bool.not_false, Bool.and_true]

lemma setField_eq (hi : i / 16 < ws.length) (hmask : mask < 4#32) :
    ∃ ws', setField mask ws i = .ok ws' ∧ ws'.length = ws.length ∧
      ∀ j, ∀ b < 2, fieldBit ws' j b = (fieldBit ws j b || decide (j = i) && mask.getLsbD b) := by
  simp only [setField, field_word, field_shift, readAt_getD hi 0#32, ok_bind, writeAt_of_lt hi]
  refine ⟨_, rfl, List.length_set, fun j b hb => ?_⟩
  rw [fieldBit_set hi]
  by_cases hword : j / 16 = i / 16
  · rw [if_pos hword, BitVec.getLsbD_or, getLsbD_shift_field hmask i j hb]
    simp only [same_field hword]
    rw [fieldBit, hword]
  · rw [if_neg hword, decide_eq_false fun h => hword (congrArg (fun n => n / 16) h),
      Bool.false_and, Bool.or_false]

/-- Words with the same content have the same fields. -/
lemma fieldBit_replicate {n : ℕ} (w : BitVec 32) (hi : i / 16 < n) (b : ℕ) :
    fieldBit (List.replicate n w) i b = w.getLsbD (2 * (i % 16) + b) := by
  rw [fieldBit, List.getD_eq_getElem _ _ (by rwa [List.length_replicate]), List.getElem_replicate]

end CLib
