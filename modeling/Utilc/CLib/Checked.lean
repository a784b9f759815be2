import Mathlib.Data.Nat.Bitwise
import Mathlib.Tactic

/-!
# Checked C operations

A C function becomes a function into `Checked`. It returns a value, or it stops at the first
event after which C promises nothing: a failed assertion, an access outside an array, a shift
whose value does not fit its type. Unsigned arithmetic wraps and is not such an event.
-/

namespace CLib

/-- Why a C function stops without a result. -/
inductive Fault where
  | assertFailed
  | outOfBounds
  | shiftOverflow
  | outOfMemory
  | uninitialized
  | badFree
  deriving DecidableEq, Repr

/-- The result of a C function. -/
abbrev Checked (α : Type) := Except Fault α

variable {α β : Type}

@[simp] lemma ok_bind (a : α) (f : α → Checked β) : (Except.ok a >>= f) = f a := rfl

@[simp] lemma pure_eq_ok (a : α) : (pure a : Checked α) = Except.ok a := rfl

@[simp] lemma error_bind (e : Fault) (f : α → Checked β) :
    ((Except.error e : Checked α) >>= f) = Except.error e := rfl

lemma bind_eq_ok {x : Checked α} {f : α → Checked β} {b : β} :
    (x >>= f) = .ok b ↔ ∃ a, x = .ok a ∧ f a = .ok b := by
  cases x with
  | error e => simp
  | ok a => simp

lemma exists_of_isOk {x : Checked α} (h : x.isOk = true) : ∃ a, x = .ok a := by
  cases x with
  | error e => cases h
  | ok a => exact ⟨a, rfl⟩

/-- `assert(c)`, or any other condition whose failure is the fault `f`. -/
def require (c : Prop) [Decidable c] (f : Fault) : Checked Unit :=
  if c then .ok () else .error f

@[simp] lemma require_of {c : Prop} [Decidable c] {f : Fault} (h : c) :
    require c f = .ok () := if_pos h

@[simp] lemma require_of_not {c : Prop} [Decidable c] {f : Fault} (h : ¬c) :
    require c f = .error f := if_neg h

lemma require_eq_ok {c : Prop} [Decidable c] {f : Fault} {u : Unit} :
    require c f = .ok u ↔ c := by
  unfold require
  split <;> simp_all

/-! ### `size_t` and `int` arithmetic -/

/-- Bits of a `size_t`. -/
def sizeBits : ℕ := 64

def sizeofSize : ℕ := 8

def sizeofPtr : ℕ := 8

/-- Addition in `size_t`. -/
def sizeAdd (a b : ℕ) : ℕ := (a + b) % 2 ^ sizeBits

def sizeSub (a b : ℕ) : ℕ := (a + (2 ^ sizeBits - b)) % 2 ^ sizeBits

def sizeMul (a b : ℕ) : ℕ := a * b % 2 ^ sizeBits

/-- `a << k` in `size_t`; the shift distance has to be below the width. -/
def sizeShl (a k : ℕ) : Checked ℕ :=
  if k < sizeBits then .ok (a * 2 ^ k % 2 ^ sizeBits) else .error .shiftOverflow

/-- `a << k` in `int`; the value has to fit the type. -/
def intShl (a k : ℕ) : Checked ℕ :=
  if k < 32 ∧ a * 2 ^ k < 2 ^ 31 then .ok (a * 2 ^ k) else .error .shiftOverflow

/-- `a >> k` of a value promoted to `int`. -/
def intShr (a k : ℕ) : Checked ℕ := if k < 32 then .ok (a >>> k) else .error .shiftOverflow

lemma sizeAdd_of_lt {a b : ℕ} (h : a + b < 2 ^ sizeBits) : sizeAdd a b = a + b :=
  Nat.mod_eq_of_lt h

lemma sizeMul_of_lt {a b : ℕ} (h : a * b < 2 ^ sizeBits) : sizeMul a b = a * b :=
  Nat.mod_eq_of_lt h

lemma sizeSub_of_le {a b : ℕ} (hba : b ≤ a) (ha : a < 2 ^ sizeBits) : sizeSub a b = a - b := by
  have he : a + (2 ^ sizeBits - b) = (a - b) + 2 ^ sizeBits := by omega
  rw [sizeSub, he, Nat.add_mod_right, Nat.mod_eq_of_lt (by omega)]

lemma sizeShl_one {k : ℕ} (h : k < sizeBits) : sizeShl 1 k = .ok (2 ^ k) := by
  rw [sizeShl, if_pos h, one_mul, Nat.mod_eq_of_lt (Nat.pow_lt_pow_right Nat.one_lt_two h)]

lemma intShl_one {k : ℕ} (h : k ≤ 30) : intShl 1 k = .ok (2 ^ k) := by
  have hk : 2 ^ k ≤ 2 ^ 30 := Nat.pow_le_pow_right Nat.two_pos h
  rw [intShl, if_pos (by omega), one_mul]

lemma intShl_one_overflow {k : ℕ} (h : 30 < k) : intShl 1 k = .error .shiftOverflow := by
  have hk : 2 ^ 31 ≤ 2 ^ k := Nat.pow_le_pow_right Nat.two_pos h
  rw [intShl, if_neg (by omega)]

/-! ### Arrays -/

/-- `calloc(size, count)`. A byte count that does not fit gives `NULL`, which has no cells. -/
def calloc [Zero α] (size count : ℕ) : List α :=
  if size * count < 2 ^ sizeBits then List.replicate count 0 else []

/-- `realloc` to the given number of cells; a new cell has no value. -/
def realloc (a : List (Option α)) (cells : ℕ) : List (Option α) :=
  a.take cells ++ List.replicate (cells - a.length) none

/-- `a[i]`. -/
def readAt (a : List α) (i : ℕ) : Checked α :=
  match a[i]? with
  | some x => .ok x
  | none => .error .outOfBounds

/-- `a[i] = x`. -/
def writeAt (a : List α) (i : ℕ) (x : α) : Checked (List α) :=
  if i < a.length then .ok (a.set i x) else .error .outOfBounds

/-- `memcpy(dst + d, src + s, n)`, counted in elements. -/
def copyAt (dst : List α) (d : ℕ) (src : List α) (s n : ℕ) : Checked (List α) :=
  if d + n ≤ dst.length ∧ s + n ≤ src.length then
    .ok (dst.take d ++ (src.drop s).take n ++ dst.drop (d + n))
  else .error .outOfBounds

/-- `memset(dst + d, x, n)`, counted in elements. -/
def fillAt (dst : List α) (d n : ℕ) (x : α) : Checked (List α) :=
  if d + n ≤ dst.length then .ok (dst.take d ++ List.replicate n x ++ dst.drop (d + n))
  else .error .outOfBounds

lemma readAt_eq_ok {a : List α} {i : ℕ} {x : α} : readAt a i = .ok x ↔ a[i]? = some x := by
  unfold readAt
  cases a[i]? <;> simp

lemma readAt_getD {a : List α} {i : ℕ} (h : i < a.length) (d : α) :
    readAt a i = .ok (a.getD i d) := by
  rw [readAt_eq_ok, List.getD_eq_getElem _ _ h, List.getElem?_eq_getElem h]

lemma writeAt_of_lt {a : List α} {i : ℕ} (h : i < a.length) (x : α) :
    writeAt a i x = .ok (a.set i x) := if_pos h

lemma writeAt_eq_ok {a b : List α} {i : ℕ} {x : α} :
    writeAt a i x = .ok b ↔ i < a.length ∧ b = a.set i x := by
  unfold writeAt
  split <;> simp_all [eq_comm]

@[simp] lemma length_realloc (a : List (Option α)) (cells : ℕ) :
    (realloc a cells).length = cells := by
  rw [realloc, List.length_append, List.length_take, List.length_replicate]
  omega

lemma getElem?_realloc {a : List (Option α)} {cells i : ℕ} (hcells : a.length ≤ cells)
    (hi : i < a.length) : (realloc a cells)[i]? = a[i]? := by
  rw [realloc, List.take_of_length_le hcells, List.getElem?_append_left hi]

lemma getElem?_realloc_of_lt {a : List (Option α)} {cells i : ℕ} (hcells : i < cells)
    (hi : i < a.length) : (realloc a cells)[i]? = a[i]? := by
  have hlen : i < (a.take cells).length := by
    rw [List.length_take]
    exact lt_min hcells hi
  rw [realloc, List.getElem?_append_left hlen, List.getElem?_take_of_lt hcells]

lemma copyAt_of_le {dst src : List α} {d s n : ℕ} (hd : d + n ≤ dst.length)
    (hs : s + n ≤ src.length) :
    copyAt dst d src s n = .ok (dst.take d ++ (src.drop s).take n ++ dst.drop (d + n)) :=
  if_pos ⟨hd, hs⟩

/-- A copy replaces exactly the cells from `d` to `d + n`. -/
lemma getElem?_copy {dst src : List α} {d s n : ℕ} (hd : d + n ≤ dst.length)
    (hs : s + n ≤ src.length) (k : ℕ) :
    (dst.take d ++ (src.drop s).take n ++ dst.drop (d + n))[k]? =
      if d ≤ k ∧ k < d + n then src[s + (k - d)]? else dst[k]? := by
  have hl : (dst.take d).length = d := by simp; omega
  have hm : ((src.drop s).take n).length = n := by simp; omega
  by_cases h1 : k < d
  · rw [if_neg (by omega), List.append_assoc, List.getElem?_append_left (by omega),
      List.getElem?_take_of_lt h1]
  · by_cases h2 : k < d + n
    · rw [if_pos (by omega), List.append_assoc, List.getElem?_append_right (by omega), hl,
        List.getElem?_append_left (by omega), List.getElem?_take_of_lt (by omega),
        List.getElem?_drop]
    · rw [if_neg (by omega), List.getElem?_append_right (by simp; omega), List.length_append, hl,
        hm, List.getElem?_drop]
      congr 1
      omega

lemma length_copy {dst src : List α} {d s n : ℕ} (hd : d + n ≤ dst.length)
    (hs : s + n ≤ src.length) :
    (dst.take d ++ (src.drop s).take n ++ dst.drop (d + n)).length = dst.length := by
  simp
  omega

lemma fillAt_all (dst : List α) (x : α) :
    fillAt dst 0 dst.length x = .ok (List.replicate dst.length x) := by
  simp [fillAt]

end CLib
