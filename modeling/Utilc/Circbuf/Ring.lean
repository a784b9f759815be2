import Utilc.CLib.Window
import Utilc.Circbuf.Model

/-!
# Well-formed ring buffers

A `Ring` is a buffer whose mask, array and window fit together. Every call on one gives a `Ring`
again, and its effect on the contents is the effect on a queue: a put appends, a pop removes the
first element, a resize lays the same elements out from the front of a new array.
-/

namespace Utilc
open CLib

/-- A buffer of at most `2 ^ 30` slots with its window inside the array. -/
structure Ring (α : Type) where
  a : List α
  start : ℕ
  length : ℕ
  capacityLog2 : ℕ
  log2_le : capacityLog2 ≤ 30
  length_a : a.length = 2 ^ capacityLog2
  start_lt : start < 2 ^ capacityLog2
  length_le : length ≤ 2 ^ capacityLog2

variable {α : Type}

lemma capacity_le {n : ℕ} (h : n ≤ 30) : 2 ^ n ≤ 2 ^ 30 := Nat.pow_le_pow_right Nat.two_pos h

lemma and_rotationMask (x n : ℕ) : x &&& (2 ^ n - 1) = x % 2 ^ n := Nat.and_two_pow_sub_one_eq_mod x n

namespace Ring

def toCircbuf (R : Ring α) : Circbuf α :=
  ⟨R.a, R.start, R.length, R.capacityLog2, 2 ^ R.capacityLog2 - 1⟩

lemma lt_sizeBits (R : Ring α) {x : ℕ} (hx : x ≤ 2 * 2 ^ R.capacityLog2) : x < 2 ^ sizeBits := by
  have h := capacity_le R.log2_le
  rw [sizeBits]
  omega

lemma full_eq (R : Ring α) :
    circbufFull R.toCircbuf = .ok (decide (2 ^ R.capacityLog2 ≤ R.length)) := by
  simp only [circbufFull, toCircbuf, intShl_one R.log2_le, ok_bind]
  rfl

lemma full_of_lt {R : Ring α} (h : R.length < 2 ^ R.capacityLog2) :
    circbufFull R.toCircbuf = .ok false := by
  rw [R.full_eq, decide_eq_false (not_le.mpr h)]

lemma full_of_eq {R : Ring α} (h : R.length = 2 ^ R.capacityLog2) :
    circbufFull R.toCircbuf = .ok true := by
  rw [R.full_eq, decide_eq_true h.ge]

variable [Zero α]

/-- The elements of the window, oldest first. -/
def contents (R : Ring α) : List α := window 0 R.a R.start R.length

@[simp] lemma length_contents (R : Ring α) : R.contents.length = R.length := length_window ..

lemma circbufContents_eq (R : Ring α) : circbufContents R.toCircbuf = R.contents := by
  simp only [circbufContents, contents, window, toCircbuf, and_rotationMask, R.length_a]

/-! ### `circbuf_make` -/

def make (n : ℕ) (hn : n ≤ 30) : Ring α where
  a := List.replicate (2 ^ n) 0
  start := 0
  length := 0
  capacityLog2 := n
  log2_le := hn
  length_a := List.length_replicate
  start_lt := Nat.two_pow_pos n
  length_le := Nat.zero_le _

end Ring

lemma circbufMake_ok [Zero α] {n : ℕ} (hn : n ≤ 61) :
    circbufMake (α := α) n = .ok ⟨calloc sizeofPtr (2 ^ n), 0, 0, n, 2 ^ n - 1⟩ := by
  have hlt : 2 ^ n < 2 ^ sizeBits := Nat.pow_lt_pow_right Nat.one_lt_two (by rw [sizeBits]; omega)
  have hmask : sizeSub (2 ^ n) 1 = 2 ^ n - 1 := sizeSub_of_le (Nat.two_pow_pos n) hlt
  have hshl : sizeShl 1 n = .ok (2 ^ n) := sizeShl_one (by rw [sizeBits]; omega)
  simp only [circbufMake, require_of (show n ≤ addressablePtrCountLog2 from hn), hshl, ok_bind,
    hmask, pure_eq_ok]

lemma calloc_capacity [Zero α] {n : ℕ} (hn : n ≤ 30) :
    calloc sizeofPtr (2 ^ n) = List.replicate (2 ^ n) (0 : α) := by
  have h := capacity_le hn
  rw [calloc, if_pos]
  rw [sizeofPtr, sizeBits]
  omega

namespace Ring

variable [Zero α]

lemma make_ok {n : ℕ} (hn : n ≤ 30) :
    circbufMake (α := α) n = .ok (make n hn).toCircbuf := by
  rw [circbufMake_ok (by omega), calloc_capacity hn]
  rfl

@[simp] lemma contents_make {n : ℕ} (hn : n ≤ 30) : (make (α := α) n hn).contents = [] := rfl

/-! ### `circbuf_put` -/

def put (R : Ring α) (elem : α) (h : R.length < 2 ^ R.capacityLog2) : Ring α where
  a := R.a.set ((R.start + R.length) % 2 ^ R.capacityLog2) elem
  start := R.start
  length := R.length + 1
  capacityLog2 := R.capacityLog2
  log2_le := R.log2_le
  length_a := by rw [List.length_set, R.length_a]
  start_lt := R.start_lt
  length_le := h

omit [Zero α] in
lemma put_ok (R : Ring α) (elem : α) (h : R.length < 2 ^ R.capacityLog2) :
    circbufPut R.toCircbuf elem = .ok (R.put elem h).toCircbuf := by
  have hstart := R.start_lt
  have hsum : sizeAdd R.start R.length = R.start + R.length :=
    sizeAdd_of_lt (R.lt_sizeBits (by omega))
  have hlen : sizeAdd R.length 1 = R.length + 1 := sizeAdd_of_lt (R.lt_sizeBits (by omega))
  have hcell : (R.start + R.length) % 2 ^ R.capacityLog2 < R.a.length := by
    rw [R.length_a]
    exact Nat.mod_lt _ (Nat.two_pow_pos _)
  simp only [circbufPut, full_of_lt h, ok_bind, require_of]
  simp only [toCircbuf, hsum, hlen, and_rotationMask, writeAt_of_lt hcell, ok_bind, pure_eq_ok, put]

@[simp] lemma contents_put (R : Ring α) (elem : α) (h : R.length < 2 ^ R.capacityLog2) :
    (R.put elem h).contents = R.contents ++ [elem] := by
  have hlen : R.length < R.a.length := by rwa [R.length_a]
  have hset : window 0 (R.a.set ((R.start + R.length) % R.a.length) elem) R.start (R.length + 1) =
      R.contents ++ [elem] := window_set 0 hlen elem
  rwa [R.length_a] at hset

/-! ### `circbuf_popBack` -/

def popBack (R : Ring α) : Ring α where
  a := R.a
  start := (R.start + 1) % 2 ^ R.capacityLog2
  length := R.length - 1
  capacityLog2 := R.capacityLog2
  log2_le := R.log2_le
  length_a := R.length_a
  start_lt := Nat.mod_lt _ (Nat.two_pow_pos _)
  length_le := (Nat.sub_le _ _).trans R.length_le

/-- A non-empty buffer is the element a pop returns and what the pop leaves. -/
lemma contents_eq_cons {R : Ring α} (h : 0 < R.length) :
    R.contents = R.a.getD R.start 0 :: R.popBack.contents := by
  have hlen : R.length = R.length - 1 + 1 := by omega
  have hcons := window_cons 0 R.a R.start (R.length - 1)
  rw [← hlen, R.length_a, Nat.mod_eq_of_lt R.start_lt] at hcons
  exact hcons

lemma popBack_ok {R : Ring α} (h : 0 < R.length) :
    circbufPopBack R.toCircbuf = .ok (R.popBack.toCircbuf, R.a.getD R.start 0) := by
  have hstart := R.start_lt
  have hsum : sizeAdd R.start 1 = R.start + 1 := sizeAdd_of_lt (R.lt_sizeBits (by omega))
  have hlen : sizeSub R.length 1 = R.length - 1 :=
    sizeSub_of_le h (R.lt_sizeBits (R.length_le.trans (by omega)))
  have hread : readAt R.a R.start = .ok (R.a.getD R.start 0) := readAt_getD (by rwa [R.length_a]) 0
  have hne : R.toCircbuf.length ≠ 0 := h.ne'
  simp only [circbufPopBack, require_of hne, ok_bind]
  simp only [toCircbuf, hread, hsum, hlen, and_rotationMask, ok_bind, pure_eq_ok, popBack]

/-! ### `circbuf_resize` -/

def resize (R : Ring α) (n : ℕ) (hn : n ≤ 30) (h : R.length ≤ 2 ^ n) : Ring α where
  a := R.contents ++ List.replicate (2 ^ n - R.length) 0
  start := 0
  length := R.length
  capacityLog2 := n
  log2_le := hn
  length_a := by
    rw [List.length_append, length_contents, List.length_replicate]
    omega
  start_lt := Nat.two_pow_pos n
  length_le := h

omit [Zero α] in
lemma resize_parts (R : Ring α) :
    (if decide (sizeSub (2 ^ R.capacityLog2) R.toCircbuf.start < R.toCircbuf.length) then
      sizeSub (2 ^ R.capacityLog2) R.toCircbuf.start else R.toCircbuf.length) =
      beforeEnd R.a.length R.start R.length ∧
    (if decide (sizeSub (2 ^ R.capacityLog2) R.toCircbuf.start < R.toCircbuf.length) then
      sizeSub R.toCircbuf.length (beforeEnd R.a.length R.start R.length) else 0) =
      R.length - beforeEnd R.a.length R.start R.length := by
  have hsub : sizeSub (2 ^ R.capacityLog2) R.toCircbuf.start = 2 ^ R.capacityLog2 - R.start :=
    sizeSub_of_le R.start_lt.le (R.lt_sizeBits (by omega))
  have hle : beforeEnd R.a.length R.start R.length ≤ R.length := beforeEnd_le
  have hsub' : sizeSub R.toCircbuf.length (beforeEnd R.a.length R.start R.length) =
      R.length - beforeEnd R.a.length R.start R.length :=
    sizeSub_of_le hle (R.lt_sizeBits (R.length_le.trans (by omega)))
  rw [hsub, hsub', beforeEnd, R.length_a]
  by_cases hwrap : 2 ^ R.capacityLog2 - R.start < R.length
  · have hwrap' : 2 ^ R.capacityLog2 - R.start < R.toCircbuf.length := hwrap
    simp only [hwrap, hwrap', decide_true, if_true, and_self]
  · have hwrap' : ¬2 ^ R.capacityLog2 - R.start < R.toCircbuf.length := hwrap
    simp only [hwrap, hwrap', decide_false, if_false, Nat.sub_self, Bool.false_eq_true, and_true]
    rfl

@[simp] lemma length_resize (R : Ring α) {n : ℕ} (hn : n ≤ 30) (h : R.length ≤ 2 ^ n) :
    (R.resize n hn h).length = R.length := rfl

@[simp] lemma capacityLog2_resize (R : Ring α) {n : ℕ} (hn : n ≤ 30) (h : R.length ≤ 2 ^ n) :
    (R.resize n hn h).capacityLog2 = n := rfl

lemma resize_ok (R : Ring α) {n : ℕ} (hn : n ≤ 30) (h : R.length ≤ 2 ^ n) :
    circbufResize R.toCircbuf n = .ok (R.resize n hn h).toCircbuf := by
  obtain ⟨hn1, hn2⟩ := R.resize_parts
  have hstart : R.start < R.a.length := by
    rw [R.length_a]
    exact R.start_lt
  have hlen : R.length ≤ R.a.length := by
    rw [R.length_a]
    exact R.length_le
  have hdst : R.length ≤ (List.replicate (2 ^ n) (0 : α)).length := by
    rwa [List.length_replicate]
  have hcopy := copy_window 0 hstart hlen hdst
  rw [List.drop_replicate, bind_eq_ok] at hcopy
  obtain ⟨b, hb, hcopy⟩ := hcopy
  have hbound : R.toCircbuf.length ≤ 2 ^ n := h
  have hcapacity : intShl 1 R.toCircbuf.capacityLog2 = .ok (2 ^ R.capacityLog2) :=
    intShl_one R.log2_le
  simp only [circbufResize, intShl_one hn, ok_bind, require_of hbound, make_ok hn, hcapacity, hn1,
    hn2]
  simp only [toCircbuf, make, hb, hcopy, ok_bind, pure_eq_ok, resize, contents]

@[simp] lemma contents_resize (R : Ring α) {n : ℕ} (hn : n ≤ 30) (h : R.length ≤ 2 ^ n) :
    (R.resize n hn h).contents = R.contents := by
  have hwin : (R.resize n hn h).contents = window 0 (R.resize n hn h).a 0 R.length := rfl
  apply List.ext_getElem?
  intro i
  by_cases hi : i < R.length
  · have hic : i < R.contents.length := by rwa [length_contents]
    have hmod : (0 + i) % 2 ^ n = i := by
      rw [Nat.zero_add, Nat.mod_eq_of_lt (by omega)]
    have hcell : (R.resize n hn h).a[i]? = some R.contents[i] := by
      rw [resize, List.getElem?_append_left hic, List.getElem?_eq_getElem hic]
    rw [hwin, getElem?_window 0 _ _ hi, (R.resize n hn h).length_a, capacityLog2_resize, hmod,
      List.getD_eq_getElem?_getD, hcell, Option.getD_some, List.getElem?_eq_getElem hic]
  · rw [List.getElem?_eq_none (by rw [length_contents]; exact not_lt.mp hi),
      List.getElem?_eq_none (by rw [length_contents]; exact not_lt.mp hi)]

/-! ### `circbuf_dynamicPut` -/

lemma dynamicPut_of_lt {R : Ring α} (elem : α) (h : R.length < 2 ^ R.capacityLog2) :
    circbufDynamicPut R.toCircbuf elem = .ok (R.put elem h).toCircbuf := by
  simp only [circbufDynamicPut, full_of_lt h, ok_bind]
  exact R.put_ok elem h

/-- A full buffer is doubled before the put, so that the put finds a free slot. -/
lemma dynamicPut_of_full {R : Ring α} (elem : α) (h : R.length = 2 ^ R.capacityLog2)
    (hlog2 : R.capacityLog2 + 1 ≤ 30) :
    ∃ Q : Ring α, circbufDynamicPut R.toCircbuf elem = .ok Q.toCircbuf ∧
      Q.capacityLog2 = R.capacityLog2 + 1 ∧ Q.contents = R.contents ++ [elem] := by
  have hpow : 2 ^ (R.capacityLog2 + 1) = 2 * 2 ^ R.capacityLog2 := pow_succ' 2 _
  have hpos : 0 < 2 ^ R.capacityLog2 := Nat.two_pow_pos _
  obtain ⟨B, hB⟩ : ∃ B, B = R.resize (R.capacityLog2 + 1) hlog2 (by omega) := ⟨_, rfl⟩
  have hresize : circbufResize R.toCircbuf (R.toCircbuf.capacityLog2 + 1) = .ok B.toCircbuf := by
    rw [hB]
    exact R.resize_ok hlog2 _
  have hlog2B : B.capacityLog2 = R.capacityLog2 + 1 := by rw [hB, capacityLog2_resize]
  have hfree : B.length < 2 ^ B.capacityLog2 := by
    rw [hlog2B, hB, length_resize]
    omega
  refine ⟨B.put elem hfree, ?_, hlog2B, ?_⟩
  · simp only [circbufDynamicPut, full_of_eq h, ok_bind, if_true, hresize]
    exact B.put_ok elem hfree
  · rw [contents_put, hB, contents_resize]

lemma dynamicPut_ok {R : Ring α} (h : R.length < 2 ^ 30) (elem : α) :
    ∃ Q : Ring α, circbufDynamicPut R.toCircbuf elem = .ok Q.toCircbuf ∧
      Q.contents = R.contents ++ [elem] := by
  by_cases hlt : R.length < 2 ^ R.capacityLog2
  · exact ⟨R.put elem hlt, dynamicPut_of_lt elem hlt, R.contents_put elem hlt⟩
  · have hfull : R.length = 2 ^ R.capacityLog2 := le_antisymm R.length_le (not_lt.mp hlt)
    have hlog2 : R.capacityLog2 < 30 := by
      rw [hfull] at h
      exact (Nat.pow_lt_pow_iff_right Nat.one_lt_two).mp h
    obtain ⟨Q, hput, -, hcontents⟩ := dynamicPut_of_full elem hfull hlog2
    exact ⟨Q, hput, hcontents⟩

/-! ### `CIRCBUF_NEXT` -/

lemma next_ok (R : Ring α) (iter : ℕ) :
    circbufNext R.toCircbuf iter =
      .ok (R.a.getD (iter % R.a.length) 0, iter % R.a.length + 1) := by
  have hlt : iter % 2 ^ R.capacityLog2 < 2 ^ R.capacityLog2 := Nat.mod_lt _ (Nat.two_pow_pos _)
  have hread : readAt R.a (iter % 2 ^ R.capacityLog2) =
      .ok (R.a.getD (iter % 2 ^ R.capacityLog2) 0) := readAt_getD (by rwa [R.length_a]) 0
  have hsucc : sizeAdd (iter % 2 ^ R.capacityLog2) 1 = iter % 2 ^ R.capacityLog2 + 1 :=
    sizeAdd_of_lt (R.lt_sizeBits (by omega))
  simp only [circbufNext, toCircbuf, and_rotationMask, hread, ok_bind, pure_eq_ok, hsucc,
    R.length_a]

/-! ### `CIRCBUF_FRONT_INDEX` -/

/-- The slot of the element that was put last. -/
lemma readAt_frontIndex {R : Ring α} (h : 0 < R.length) :
    ∃ elem, readAt R.a (circbufFrontIndex R.toCircbuf) = .ok elem ∧
      R.contents.getLast? = some elem := by
  have hstart := R.start_lt
  have hlen := R.length_le
  have hne : R.toCircbuf.length ≠ 0 := h.ne'
  have hsum : sizeAdd R.start R.length = R.start + R.length :=
    sizeAdd_of_lt (R.lt_sizeBits (by omega))
  have hlast : sizeSub (R.start + R.length) 1 = R.start + (R.length - 1) := by
    rw [sizeSub_of_le (by omega) (R.lt_sizeBits (by omega)), Nat.add_sub_assoc h]
  have hslot : circbufFrontIndex R.toCircbuf = (R.start + (R.length - 1)) % R.a.length := by
    rw [circbufFrontIndex, if_pos hne]
    simp only [toCircbuf, hsum, hlast, and_rotationMask, R.length_a]
  have hcell : (R.start + (R.length - 1)) % R.a.length < R.a.length := by
    apply Nat.mod_lt
    rw [R.length_a]
    exact Nat.two_pow_pos _
  refine ⟨_, by rw [hslot]; exact readAt_getD hcell 0, ?_⟩
  have hsplit := window_succ 0 R.a R.start (R.length - 1)
  rw [Nat.sub_add_cancel h] at hsplit
  rw [contents, hsplit, List.getLast?_concat]

end Ring

/-! ### Sizes whose `int` shift overflows -/

lemma circbufResize_fault [Zero α] (buf : Circbuf α) {n : ℕ} (h : 30 < n) :
    circbufResize buf n = .error .shiftOverflow := by
  simp only [circbufResize, intShl_one_overflow h, error_bind]

/-- A full buffer of `2 ^ 30` slots cannot be doubled. -/
lemma Ring.dynamicPut_fault [Zero α] {R : Ring α} (hfull : R.length = 2 ^ R.capacityLog2)
    (hlog2 : ¬R.capacityLog2 + 1 ≤ 30) (elem : α) :
    circbufDynamicPut R.toCircbuf elem = .error .shiftOverflow := by
  have hresize := circbufResize_fault R.toCircbuf (n := R.toCircbuf.capacityLog2 + 1)
    (not_le.mp hlog2)
  simp only [circbufDynamicPut, full_of_eq hfull, ok_bind, if_true, hresize, error_bind]

lemma Ring.dynamicPut_eq_ok [Zero α] {R : Ring α} {elem : α} {buf : Circbuf α}
    (h : circbufDynamicPut R.toCircbuf elem = .ok buf) :
    ∃ Q : Ring α, buf = Q.toCircbuf ∧ Q.contents = R.contents ++ [elem] := by
  by_cases hlt : R.length < 2 ^ 30
  · obtain ⟨Q, hput, hcontents⟩ := dynamicPut_ok hlt elem
    rw [hput, Except.ok.injEq] at h
    exact ⟨Q, h.symm, hcontents⟩
  · have hcap := capacity_le R.log2_le
    have hle := R.length_le
    have hfull : R.length = 2 ^ R.capacityLog2 := by omega
    have hlog2 : ¬R.capacityLog2 + 1 ≤ 30 := by
      intro hle
      have hpow : 2 ^ R.capacityLog2 < 2 ^ 30 := Nat.pow_lt_pow_right Nat.one_lt_two hle
      omega
    rw [dynamicPut_fault hfull hlog2] at h
    cases h

end Utilc
