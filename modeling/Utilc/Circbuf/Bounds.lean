import Utilc.Circbuf.Queue

/-!
# The slots a ring buffer touches

A put writes a free slot, and the two copies of `circbuf_resize` read live slots and write slots of
the new array. What a resize leaves depends only on the queue and the new capacity.
-/

namespace Utilc
open CLib

variable {α : Type}

/-- The array, the mask and the window of `buf` fit together. -/
structure CircbufWellFormed (buf : Circbuf α) : Prop where
  length_a : buf.a.length = 2 ^ buf.capacityLog2
  rotationMask : buf.rotationMask = 2 ^ buf.capacityLog2 - 1
  start_le : buf.start ≤ buf.rotationMask
  length_le : buf.length ≤ 2 ^ buf.capacityLog2

/-- One of the slots from `start` to `start + length - 1`, modulo the capacity. -/
def LiveSlot (buf : Circbuf α) (slot : ℕ) : Prop :=
  InWindow (2 ^ buf.capacityLog2) buf.start buf.length slot

/-- `postEnd` of `circbuf_put`. -/
def putSlot (buf : Circbuf α) : ℕ := sizeAdd buf.start buf.length &&& buf.rotationMask

/-- A put writes the slot `putSlot` only, and that slot is free. -/
structure PutSafe (buf : Circbuf α) (elem : α) : Prop where
  writes : ∃ buf', circbufPut buf elem = .ok buf' ∧ buf'.a = buf.a.set (putSlot buf) elem
  inside : putSlot buf < buf.a.length
  free : ¬LiveSlot buf (putSlot buf)

/-- `n1` of `circbuf_resize`. -/
def resizeN1 (buf : Circbuf α) : ℕ :=
  let capacity := 2 ^ buf.capacityLog2
  let isWrapped := decide (sizeSub capacity buf.start < buf.length)
  if isWrapped then sizeSub capacity buf.start else buf.length

/-- `n2` of `circbuf_resize`. -/
def resizeN2 (buf : Circbuf α) : ℕ :=
  let capacity := 2 ^ buf.capacityLog2
  let isWrapped := decide (sizeSub capacity buf.start < buf.length)
  if isWrapped then sizeSub buf.length (resizeN1 buf) else 0

variable [Zero α]

/-- The copies of `circbuf_resize` stay in the live slots of the old array and in the new array. -/
structure ResizeSafe (buf : Circbuf α) (newCapacityLog2 : ℕ) : Prop where
  copies : circbufResize buf newCapacityLog2 = (do
    let newBuf ← circbufMake newCapacityLog2
    let a ← copyAt newBuf.a 0 buf.a buf.start (resizeN1 buf)
    let a ← copyAt a (resizeN1 buf) buf.a 0 (resizeN2 buf)
    return { newBuf with a := a, length := buf.length })
  returns : ∃ buf', circbufResize buf newCapacityLog2 = .ok buf' ∧ CircbufWellFormed buf'
  reads₁ : ∀ i < resizeN1 buf, LiveSlot buf (buf.start + i) ∧ buf.start + i < buf.a.length
  reads₂ : ∀ i < resizeN2 buf, LiveSlot buf i ∧ i < buf.a.length
  writes : resizeN1 buf + resizeN2 buf ≤ 2 ^ newCapacityLog2
  total : resizeN1 buf + resizeN2 buf = buf.length
  capacity_sub : buf.start ≤ 2 ^ buf.capacityLog2 ∧
    sizeSub (2 ^ buf.capacityLog2) buf.start = 2 ^ buf.capacityLog2 - buf.start
  length_sub : resizeN1 buf ≤ buf.length ∧
    sizeSub buf.length (resizeN1 buf) = buf.length - resizeN1 buf

namespace Ring

omit [Zero α] in
lemma wellFormed (R : Ring α) : CircbufWellFormed R.toCircbuf where
  length_a := R.length_a
  rotationMask := rfl
  start_le := Nat.le_sub_one_of_lt R.start_lt
  length_le := R.length_le

omit [Zero α] in
lemma putSlot_eq (R : Ring α) :
    putSlot R.toCircbuf = (R.start + R.length) % 2 ^ R.capacityLog2 := by
  have hstart := R.start_lt
  have hlen := R.length_le
  have hsum : sizeAdd R.start R.length = R.start + R.length :=
    sizeAdd_of_lt (R.lt_sizeBits (by omega))
  simp only [putSlot, toCircbuf, hsum, and_rotationMask]

omit [Zero α] in
lemma putSafe {R : Ring α} (h : R.length < 2 ^ R.capacityLog2) (elem : α) :
    PutSafe R.toCircbuf elem where
  writes := by
    refine ⟨(R.put elem h).toCircbuf, R.put_ok elem h, ?_⟩
    rw [R.putSlot_eq]
    rfl
  inside := by
    rw [R.putSlot_eq]
    exact (Nat.mod_lt _ (Nat.two_pow_pos _)).trans_eq R.length_a.symm
  free := by
    rw [R.putSlot_eq]
    exact not_inWindow_after h

omit [Zero α] in
lemma resizeN1_eq (R : Ring α) :
    resizeN1 R.toCircbuf = beforeEnd (2 ^ R.capacityLog2) R.start R.length := by
  rw [← R.length_a]
  exact R.resize_parts.1

omit [Zero α] in
lemma resizeN2_eq (R : Ring α) :
    resizeN2 R.toCircbuf = R.length - beforeEnd (2 ^ R.capacityLog2) R.start R.length := by
  have hparts := R.resize_parts.2
  rw [R.length_a] at hparts
  rw [resizeN2, R.resizeN1_eq]
  exact hparts

lemma resizeSafe {R : Ring α} {n : ℕ} (hn : n ≤ 30) (h : R.length ≤ 2 ^ n) :
    ResizeSafe R.toCircbuf n where
  copies := by
    have hbound : R.toCircbuf.length ≤ 2 ^ n := h
    have hcapacity : intShl 1 R.toCircbuf.capacityLog2 = .ok (2 ^ R.toCircbuf.capacityLog2) :=
      intShl_one R.log2_le
    simp only [circbufResize, intShl_one hn, require_of hbound, hcapacity, ok_bind, make_ok hn]
    rfl
  returns := ⟨_, R.resize_ok hn h, wellFormed _⟩
  reads₁ := by
    rw [R.resizeN1_eq]
    intro i hi
    have hfit := start_add_beforeEnd_le R.start_lt.le R.length
    refine ⟨inWindow_beforeEnd R.start_lt.le hi, ?_⟩
    change R.start + i < R.a.length
    rw [R.length_a]
    omega
  reads₂ := by
    rw [R.resizeN2_eq]
    intro i hi
    have hle := R.length_le
    refine ⟨inWindow_fromFront R.start_lt.le hle hi, ?_⟩
    change i < R.a.length
    rw [R.length_a]
    omega
  writes := by
    rw [R.resizeN1_eq, R.resizeN2_eq, Nat.add_sub_cancel' beforeEnd_le]
    exact h
  total := by
    rw [R.resizeN1_eq, R.resizeN2_eq]
    exact Nat.add_sub_cancel' beforeEnd_le
  capacity_sub := by
    refine ⟨R.start_lt.le, sizeSub_of_le R.start_lt.le ?_⟩
    exact R.lt_sizeBits (Nat.le_mul_of_pos_left _ two_pos)
  length_sub := by
    rw [R.resizeN1_eq]
    refine ⟨beforeEnd_le, sizeSub_of_le beforeEnd_le ?_⟩
    exact R.lt_sizeBits (R.length_le.trans (by omega))

end Ring

/-- Every reachable buffer is well formed, its puts write free slots and its resizes copy the live
slots only. -/
theorem circbuf_bounds {k : ℕ} (hk : k ≤ 30) {ops : List (CircbufOp α)} {buf : Circbuf α}
    {results : List (Option α)} (hrun : circbufRun k ops = .ok (buf, results)) :
    CircbufWellFormed buf ∧
      (buf.length < 2 ^ buf.capacityLog2 → ∀ elem, PutSafe buf elem) ∧
      ∀ n ≤ 30, buf.length ≤ 2 ^ n → ResizeSafe buf n := by
  obtain ⟨R, rfl⟩ := circbufRun_ring hk hrun
  refine ⟨R.wellFormed, fun hfree elem => Ring.putSafe hfree elem, fun n hn hlen => ?_⟩
  exact Ring.resizeSafe hn hlen

/-- A window that wraps is copied in two parts into a smaller array. -/
theorem circbuf_bounds_wrapped :
    ResizeSafe (⟨[7, 2, 3, 4], 3, 2, 2, 3⟩ : Circbuf ℕ) 1 ∧
      resizeN1 (⟨[7, 2, 3, 4], 3, 2, 2, 3⟩ : Circbuf ℕ) = 1 ∧
      PutSafe (⟨[7, 2, 3, 4], 3, 2, 2, 3⟩ : Circbuf ℕ) 9 := by
  have hrun : circbufRun 2 [.put 1, .put 2, .put 3, .put 4, .popBack, .popBack, .popBack, .put 7] =
      .ok (⟨[7, 2, 3, 4], 3, 2, 2, 3⟩, [none, none, none, none, some 1, some 2, some 3, none]) := rfl
  obtain ⟨-, hput, hresize⟩ := circbuf_bounds (by decide) hrun
  exact ⟨hresize 1 (by decide) (by decide), rfl, hput (by decide) 9⟩

/-! ### What a resize leaves -/

/-- A buffer that holds `items` from the front of its array on, followed by `NULL`. -/
def compactCircbuf (capacityLog2 : ℕ) (items : List α) : Circbuf α :=
  ⟨items ++ List.replicate (2 ^ capacityLog2 - items.length) 0, 0, items.length, capacityLog2,
    2 ^ capacityLog2 - 1⟩

lemma Ring.resize_compact {R : Ring α} {n : ℕ} (hn : n ≤ 30) (h : R.length ≤ 2 ^ n) :
    circbufResize R.toCircbuf n = .ok (compactCircbuf n (circbufContents R.toCircbuf)) := by
  rw [R.resize_ok hn h, R.circbufContents_eq, compactCircbuf, R.length_contents]
  rfl

/-- A resize lays the queue out from the front of the new array, whatever the history of the buffer
was and whether or not other capacities are passed through. -/
theorem circbufResize_canonical {k : ℕ} (hk : k ≤ 30) {ops : List (CircbufOp α)} {buf : Circbuf α}
    {results : List (Option α)} (hrun : circbufRun k ops = .ok (buf, results)) {n : ℕ}
    (hn : n ≤ 30) (hlen : buf.length ≤ 2 ^ n) :
    circbufResize buf n = .ok (compactCircbuf n (circbufContents buf)) ∧
      (compactCircbuf n (circbufContents buf)).length = buf.length ∧
      (compactCircbuf n (circbufContents buf)).a.length = 2 ^ n ∧
      (∀ k' ops' buf' results', k' ≤ 30 → circbufRun k' ops' = .ok (buf', results') →
        circbufContents buf' = circbufContents buf → circbufResize buf' n = circbufResize buf n) ∧
      ∀ m ≤ 30, buf.length ≤ 2 ^ m →
        (do circbufResize (← circbufResize buf m) n) = circbufResize buf n := by
  obtain ⟨R, rfl⟩ := circbufRun_ring hk hrun
  have hlength : (compactCircbuf n (circbufContents R.toCircbuf)).length = R.length := by
    rw [R.circbufContents_eq]
    exact R.length_contents
  refine ⟨Ring.resize_compact hn hlen, hlength, ?_, ?_, ?_⟩
  · rw [compactCircbuf, List.length_append, List.length_replicate]
    change R.length ≤ 2 ^ n at hlen
    rw [R.circbufContents_eq, R.length_contents]
    omega
  · intro k' ops' buf' results' hk' hrun' hsame
    obtain ⟨R', rfl⟩ := circbufRun_ring hk' hrun'
    have hlen' : R'.length ≤ 2 ^ n := by
      rw [← R'.length_contents, ← R'.circbufContents_eq, hsame, R.circbufContents_eq,
        R.length_contents]
      exact hlen
    rw [Ring.resize_compact hn hlen', Ring.resize_compact hn hlen, hsame]
  · intro m hm hlen'
    have hm' : R.length ≤ 2 ^ m := hlen'
    have hlast : (R.resize m hm hm').length ≤ 2 ^ n := hlen
    rw [R.resize_ok hm hm', ok_bind, Ring.resize_compact hn hlast, Ring.resize_compact hn hlen,
      Ring.circbufContents_eq, Ring.contents_resize, R.circbufContents_eq]

/-- The same queue after two histories, one of which wraps. -/
theorem circbufResize_canonical_wrapped :
    circbufResize (⟨[7, 2, 3, 4], 3, 2, 2, 3⟩ : Circbuf ℕ) 1 = .ok ⟨[4, 7], 0, 2, 1, 1⟩ ∧
      circbufResize (⟨[4, 7, 0, 0], 0, 2, 2, 3⟩ : Circbuf ℕ) 1 =
        circbufResize (⟨[7, 2, 3, 4], 3, 2, 2, 3⟩ : Circbuf ℕ) 1 := by
  have hrun : circbufRun 2 [.put 1, .put 2, .put 3, .put 4, .popBack, .popBack, .popBack, .put 7] =
      .ok (⟨[7, 2, 3, 4], 3, 2, 2, 3⟩, [none, none, none, none, some 1, some 2, some 3, none]) := rfl
  obtain ⟨hcompact, -, -, hsame, -⟩ :=
    circbufResize_canonical (n := 1) (by decide) hrun (by decide) (by decide)
  have hrun' : circbufRun 2 [.put 4, .put 7] =
      .ok ((⟨[4, 7, 0, 0], 0, 2, 2, 3⟩ : Circbuf ℕ), [none, none]) := rfl
  exact ⟨hcompact, hsame 2 _ _ _ (by decide) hrun' rfl⟩

end Utilc
