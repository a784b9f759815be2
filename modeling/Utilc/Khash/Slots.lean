import Utilc.CLib.OpenAddressing
import Utilc.CLib.Probing
import Utilc.Khash.Model

/-!
# Buckets and slots

What the two flags of a bucket and its cells of the key and value arrays say together. Every operation
on the flags and the arrays is read as a change of the slot.
-/

namespace Utilc
open CLib

variable {K V : Type} {flags flags' : List (BitVec 32)} {keys keys' : List (Option K)}
  {vals vals' : List (Option V)} {i j n : ℕ} {isMap : Bool}

/-- The slot that bucket `i` shows. -/
def Shows (flags : List (BitVec 32)) (keys : List (Option K)) (vals : List (Option V)) (i : ℕ) :
    Slot K (Option V) → Prop
  | .empty => fieldBit flags i 1 = true ∧ fieldBit flags i 0 = false
  | .deleted => fieldBit flags i 1 = false ∧ fieldBit flags i 0 = true
  | .live k v => fieldBit flags i 1 = false ∧ fieldBit flags i 0 = false ∧
      keys[i]? = some (some k) ∧ vals.getD i none = v

/-! ### Flags -/

lemma acIsEmpty_eq (hi : i < 16 * flags.length) : acIsEmpty flags i = .ok (fieldBit flags i 1) :=
  testField_eq (Nat.div_lt_of_lt_mul hi) (by decide)

lemma acIsDel_eq (hi : i < 16 * flags.length) : acIsDel flags i = .ok (fieldBit flags i 0) := by
  rw [acIsDel, testField_eq (Nat.div_lt_of_lt_mul hi) (by decide)]
  exact congrArg _ (Bool.or_false _)

lemma acIsEither_eq (hi : i < 16 * flags.length) :
    acIsEither flags i = .ok (fieldBit flags i 0 || fieldBit flags i 1) :=
  testField_eq (Nat.div_lt_of_lt_mul hi) (by decide)

/-- `flags'` differs from `flags` in the fields of bucket `i` only, which are `empty` and `del`. -/
structure Flagged (flags flags' : List (BitVec 32)) (i : ℕ) (empty del : Bool) : Prop where
  length_eq : flags'.length = flags.length
  empty_eq : fieldBit flags' i 1 = empty
  del_eq : fieldBit flags' i 0 = del
  frame : ∀ j, j ≠ i → ∀ b < 2, fieldBit flags' j b = fieldBit flags j b

lemma acSetIsEmptyFalse_eq (hi : i < 16 * flags.length) :
    ∃ flags', acSetIsEmptyFalse flags i = .ok flags' ∧
      Flagged flags flags' i false (fieldBit flags i 0) := by
  have hmask : 2#32 < 4#32 := by decide
  obtain ⟨flags', hok, hlen, hbits⟩ := clearField_eq (Nat.div_lt_of_lt_mul hi) hmask
  refine ⟨flags', hok, hlen, ?_, ?_, fun j hj b hb => ?_⟩
  · rw [hbits i 1 Nat.one_lt_two, decide_eq_true rfl]
    exact Bool.and_false _
  · rw [hbits i 0 Nat.two_pos, decide_eq_true rfl]
    exact Bool.and_true _
  · rw [hbits j b hb, decide_eq_false hj]
    exact Bool.and_true _

lemma acSetIsBothFalse_eq (hi : i < 16 * flags.length) :
    ∃ flags', acSetIsBothFalse flags i = .ok flags' ∧ Flagged flags flags' i false false := by
  have hmask : 3#32 < 4#32 := by decide
  obtain ⟨flags', hok, hlen, hbits⟩ := clearField_eq (Nat.div_lt_of_lt_mul hi) hmask
  refine ⟨flags', hok, hlen, ?_, ?_, fun j hj b hb => ?_⟩
  · rw [hbits i 1 Nat.one_lt_two, decide_eq_true rfl]
    exact Bool.and_false _
  · rw [hbits i 0 Nat.two_pos, decide_eq_true rfl]
    exact Bool.and_false _
  · rw [hbits j b hb, decide_eq_false hj]
    exact Bool.and_true _

lemma acSetIsDelTrue_eq (hi : i < 16 * flags.length) :
    ∃ flags', acSetIsDelTrue flags i = .ok flags' ∧
      Flagged flags flags' i (fieldBit flags i 1) true := by
  have hmask : 1#32 < 4#32 := by decide
  obtain ⟨flags', hok, hlen, hbits⟩ := setField_eq (Nat.div_lt_of_lt_mul hi) hmask
  refine ⟨flags', hok, hlen, ?_, ?_, fun j hj b hb => ?_⟩
  · rw [hbits i 1 Nat.one_lt_two, decide_eq_true rfl]
    exact Bool.or_false _
  · rw [hbits i 0 Nat.two_pos, decide_eq_true rfl]
    exact Bool.or_true _
  · rw [hbits j b hb, decide_eq_false hj]
    exact Bool.or_false _

/-! ### Slots -/

variable {slot : Slot K (Option V)}

namespace Shows

lemma isEmpty_eq (h : Shows flags keys vals i slot) : fieldBit flags i 1 = slot.isEmpty := by
  cases slot with
  | empty => exact h.1
  | deleted => exact h.1
  | live k v => exact h.1

lemma isDeleted_eq (h : Shows flags keys vals i slot) : fieldBit flags i 0 = slot.isDeleted := by
  cases slot with
  | empty => exact h.2
  | deleted => exact h.2
  | live k v => exact h.2.1

lemma either_eq (h : Shows flags keys vals i slot) :
    (fieldBit flags i 0 || fieldBit flags i 1) = !slot.isLive := by
  rw [h.isEmpty_eq, h.isDeleted_eq]
  cases slot <;> rfl

lemma acIsEmpty_eq (h : Shows flags keys vals i slot) (hi : i < 16 * flags.length) :
    acIsEmpty flags i = .ok slot.isEmpty := by
  rw [Utilc.acIsEmpty_eq hi, h.isEmpty_eq]

lemma acIsDel_eq (h : Shows flags keys vals i slot) (hi : i < 16 * flags.length) :
    acIsDel flags i = .ok slot.isDeleted := by
  rw [Utilc.acIsDel_eq hi, h.isDeleted_eq]

lemma acIsEither_eq (h : Shows flags keys vals i slot) (hi : i < 16 * flags.length) :
    acIsEither flags i = .ok !slot.isLive := by
  rw [Utilc.acIsEither_eq hi, h.either_eq]

/-- A slot is shown as long as its flags stay, and its cells if it holds an entry. -/
lemma of_frame (h : Shows flags keys vals i slot)
    (hflags : ∀ b < 2, fieldBit flags' i b = fieldBit flags i b)
    (hcells : slot.isLive = true → keys'[i]? = keys[i]? ∧ vals'.getD i none = vals.getD i none) :
    Shows flags' keys' vals' i slot := by
  have hempty := hflags 1 Nat.one_lt_two
  have hdel := hflags 0 Nat.two_pos
  cases slot with
  | empty => exact ⟨hempty.trans h.1, hdel.trans h.2⟩
  | deleted => exact ⟨hempty.trans h.1, hdel.trans h.2⟩
  | live k v =>
    obtain ⟨hkeys, hvals⟩ := hcells rfl
    exact ⟨hempty.trans h.1, hdel.trans h.2.1, hkeys.trans h.2.2.1, hvals.trans h.2.2.2⟩

end Shows

/-! ### Cells -/

/-- The arrays have cells for `n` buckets; a set has no values. -/
structure Room (isMap : Bool) (n : ℕ) (keys : List (Option K)) (vals : List (Option V)) : Prop where
  keys_le : n ≤ keys.length
  vals_le : isMap = true → n ≤ vals.length
  vals_nil : isMap = false → vals = []

/-- What a value cell can hold. -/
def FitsVal (isMap : Bool) (v : Option V) : Prop := isMap = false → v = none

/-- The arrays differ in the cells of bucket `i` only, which hold `k` and `v`. -/
structure Written (keys keys' : List (Option K)) (vals vals' : List (Option V)) (i : ℕ) (k : K)
    (v : Option V) : Prop where
  key_eq : keys'[i]? = some (some k)
  val_eq : vals'.getD i none = v
  frame : ∀ j, j ≠ i → keys'[j]? = keys[j]? ∧ vals'.getD j none = vals.getD j none

lemma readCell_of_some {α : Type} {a : List (Option α)} {x : α} (h : a[i]? = some (some x)) :
    readCell a i = .ok x := by
  rw [readCell, readAt_eq_ok.mpr h]
  rfl

namespace Room

lemma mono {m : ℕ} (h : Room isMap n keys vals) (hm : m ≤ n) : Room isMap m keys vals :=
  ⟨hm.trans h.keys_le, fun hmap => hm.trans (h.vals_le hmap), h.vals_nil⟩

lemma fitsVal (h : Room isMap n keys vals) (i : ℕ) : FitsVal isMap (vals.getD i none) := by
  intro hmap
  rw [h.vals_nil hmap]
  rfl

lemma readVal (h : Room isMap n keys vals) (hi : i < n) :
    khReadVal isMap vals i = .ok (vals.getD i none) := by
  unfold khReadVal
  cases isMap with
  | true => exact readAt_getD (hi.trans_le (h.vals_le rfl)) none
  | false => rw [h.vals_nil rfl]; rfl

lemma write (h : Room isMap n keys vals) (hi : i < n) (k : K) {v : Option V}
    (hv : FitsVal isMap v) :
    ∃ vals', writeAt keys i (some k) = .ok (keys.set i (some k)) ∧
      khWriteVal isMap vals i v = .ok vals' ∧ Room isMap n (keys.set i (some k)) vals' ∧
      Written keys (keys.set i (some k)) vals vals' i k v := by
  have hkey : i < keys.length := hi.trans_le h.keys_le
  have hroom : n ≤ (keys.set i (some k)).length := by
    rw [List.length_set]
    exact h.keys_le
  have hself : (keys.set i (some k))[i]? = some (some k) := List.getElem?_set_self hkey
  unfold khWriteVal
  cases isMap with
  | true =>
    have hval : i < vals.length := hi.trans_le (h.vals_le rfl)
    refine ⟨vals.set i v, writeAt_of_lt hkey _, writeAt_of_lt hval _, ⟨hroom, fun _ => ?_, nofun⟩,
      hself, ?_, fun j hj => ⟨List.getElem?_set_ne hj.symm, ?_⟩⟩
    · rw [List.length_set]
      exact h.vals_le rfl
    · rw [List.getD_eq_getElem?_getD, List.getElem?_set_self hval, Option.getD_some]
    · rw [List.getD_eq_getElem?_getD, List.getElem?_set_ne hj.symm, ← List.getD_eq_getElem?_getD]
  | false =>
    refine ⟨vals, writeAt_of_lt hkey _, rfl, ⟨hroom, nofun, h.vals_nil⟩, hself, ?_,
      fun j hj => ⟨List.getElem?_set_ne hj.symm, rfl⟩⟩
    rw [h.vals_nil rfl, hv rfl]
    rfl

end Room

/-! ### Changes of one slot -/

section Change

variable {slots : ℕ → Slot K (Option V)}

/-- An entry written to bucket `i`, whose flags are cleared. -/
lemma shows_write (hshows : ∀ j < n, Shows flags keys vals j (slots j))
    (hflags : Flagged flags flags' i false false) {k : K} {v : Option V}
    (hcells : Written keys keys' vals vals' i k v) :
    ∀ j < n, Shows flags' keys' vals' j (Function.update slots i (.live k v) j) := by
  intro j hj
  by_cases he : j = i
  · subst he
    rw [Function.update_self]
    exact ⟨hflags.empty_eq, hflags.del_eq, hcells.key_eq, hcells.val_eq⟩
  · rw [Function.update_of_ne he]
    exact (hshows j hj).of_frame (hflags.frame j he) fun _ => hcells.frame j he

/-- The entry of bucket `i` is deleted, and then the cells may be written. -/
lemma shows_delete (hshows : ∀ j < n, Shows flags keys vals j (slots j))
    (hflags : Flagged flags flags' i false true)
    (hcells : ∀ j, j ≠ i → keys'[j]? = keys[j]? ∧ vals'.getD j none = vals.getD j none) :
    ∀ j < n, Shows flags' keys' vals' j (Function.update slots i .deleted j) := by
  intro j hj
  by_cases he : j = i
  · subst he
    rw [Function.update_self]
    exact ⟨hflags.empty_eq, hflags.del_eq⟩
  · rw [Function.update_of_ne he]
    exact (hshows j hj).of_frame (hflags.frame j he) fun _ => hcells j he

/-- Cells are written of a bucket that holds no entry. -/
lemma shows_frame (hshows : ∀ j < n, Shows flags keys vals j (slots j))
    (hfree : i < n → (slots i).isLive = false)
    (hcells : ∀ j, j ≠ i → keys'[j]? = keys[j]? ∧ vals'.getD j none = vals.getD j none) :
    ∀ j < n, Shows flags keys' vals' j (slots j) := by
  intro j hj
  apply (hshows j hj).of_frame fun _ _ => rfl
  intro hlive
  apply hcells j
  rintro rfl
  rw [hfree hj] at hlive
  cases hlive

end Change

end Utilc
