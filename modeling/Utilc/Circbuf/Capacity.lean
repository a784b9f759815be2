import Utilc.Circbuf.Queue

/-!
# The capacities a ring buffer computes

`circbuf_make` shifts a `size_t` and admits shifts of up to 61; `CIRCBUF_FULL` and `circbuf_resize`
shift an `int`. The two agree up to a shift of 30. A larger buffer can be made, and then every call
on it faults.
-/

namespace Utilc
open CLib

variable {α : Type} [Zero α]

/-- The capacities computed for `buf`, and for a resize of it to `newCapacityLog2`, are those of the
masks, and no shift in them overflows. -/
structure CapacitiesAgree (buf : Circbuf α) (newCapacityLog2 : ℕ) : Prop where
  /-- the capacity in `CIRCBUF_FULL` and the one in `circbuf_resize` -/
  capacity : intShl 1 buf.capacityLog2 = .ok (sizeAdd buf.rotationMask 1)
  /-- the bound in the assertion of `circbuf_resize` -/
  bound : ∃ newBuf : Circbuf α, circbufMake newCapacityLog2 = .ok newBuf ∧
    intShl 1 newCapacityLog2 = .ok (sizeAdd newBuf.rotationMask 1)
  full : circbufFull buf = .ok (decide (buf.length = sizeAdd buf.rotationMask 1))
  grows : ∀ elem, ∃ buf' : Circbuf α, circbufDynamicPut buf elem = .ok buf' ∧
    circbufContents buf' = circbufContents buf ++ [elem] ∧
    (buf.length = sizeAdd buf.rotationMask 1 → buf'.capacityLog2 = buf.capacityLog2 + 1)

/-- The capacity that `circbuf_dynamicPut` needs. -/
def grownLog2 (buf : Circbuf α) : ℕ :=
  if buf.length = buf.rotationMask + 1 then buf.capacityLog2 + 1 else buf.capacityLog2

/-! ### Up to a shift of 30 -/

omit [Zero α] in
lemma Ring.mask_succ (R : Ring α) : sizeAdd R.toCircbuf.rotationMask 1 = 2 ^ R.capacityLog2 := by
  have hpos : 0 < 2 ^ R.capacityLog2 := Nat.two_pow_pos _
  have hmask : R.toCircbuf.rotationMask + 1 = 2 ^ R.capacityLog2 := Nat.sub_add_cancel hpos
  rw [sizeAdd_of_lt (by rw [hmask]; exact R.lt_sizeBits (by omega)), hmask]

omit [Zero α] in
lemma Ring.grownLog2_eq (R : Ring α) :
    grownLog2 R.toCircbuf =
      if R.length = 2 ^ R.capacityLog2 then R.capacityLog2 + 1 else R.capacityLog2 := by
  have hmask : R.toCircbuf.rotationMask + 1 = 2 ^ R.capacityLog2 :=
    Nat.sub_add_cancel (Nat.two_pow_pos _)
  rw [grownLog2, hmask]
  rfl

lemma Ring.dynamicPut_grows {R : Ring α} (h : grownLog2 R.toCircbuf ≤ 30) (elem : α) :
    ∃ buf' : Circbuf α, circbufDynamicPut R.toCircbuf elem = .ok buf' ∧
      circbufContents buf' = circbufContents R.toCircbuf ++ [elem] ∧
      (R.length = 2 ^ R.capacityLog2 → buf'.capacityLog2 = R.capacityLog2 + 1) := by
  rw [R.grownLog2_eq] at h
  by_cases hfull : R.length = 2 ^ R.capacityLog2
  · rw [if_pos hfull] at h
    obtain ⟨Q, hput, hlog2, hcontents⟩ := Ring.dynamicPut_of_full elem hfull h
    refine ⟨Q.toCircbuf, hput, ?_, fun _ => hlog2⟩
    rw [Q.circbufContents_eq, R.circbufContents_eq, hcontents]
  · have hlt : R.length < 2 ^ R.capacityLog2 := lt_of_le_of_ne R.length_le hfull
    refine ⟨(R.put elem hlt).toCircbuf, Ring.dynamicPut_of_lt elem hlt, ?_,
      fun h => absurd h hfull⟩
    rw [(R.put elem hlt).circbufContents_eq, R.circbufContents_eq, R.contents_put]

lemma Ring.capacitiesAgree {R : Ring α} (h : grownLog2 R.toCircbuf ≤ 30) {n : ℕ} (hn : n ≤ 30) :
    CapacitiesAgree R.toCircbuf n where
  capacity := by
    rw [R.mask_succ]
    exact intShl_one R.log2_le
  bound := by
    refine ⟨_, Ring.make_ok hn, ?_⟩
    rw [Ring.mask_succ]
    exact intShl_one hn
  full := by
    rw [R.full_eq, R.mask_succ]
    congr 1
    rw [decide_eq_decide]
    exact ⟨fun hle => le_antisymm R.length_le hle, fun heq => heq.ge⟩
  grows := by
    rw [R.mask_succ]
    exact Ring.dynamicPut_grows h

/-! ### Beyond it -/

/-- No call on a buffer that was made with a larger capacity returns. -/
lemma circbufStep_large {k : ℕ} (hk : 30 < k) (op : CircbufOp α) (a : List α) (mask : ℕ) :
    ∃ e, circbufStep ⟨a, 0, 0, k, mask⟩ op = .error e := by
  have hk' : intShl 1 k = .error .shiftOverflow := intShl_one_overflow hk
  cases op with
  | put elem =>
    refine ⟨.shiftOverflow, ?_⟩
    simp only [circbufStep, circbufPut, circbufFull, hk', error_bind]
  | dynamicPut elem =>
    refine ⟨.shiftOverflow, ?_⟩
    simp only [circbufStep, circbufDynamicPut, circbufFull, hk', error_bind]
  | popBack => exact ⟨.assertFailed, rfl⟩
  | increaseSize =>
    refine ⟨.shiftOverflow, ?_⟩
    simp only [circbufStep, circbufIncreaseSize,
      circbufResize_fault _ (show 30 < k + 1 by omega), error_bind]
  | resize n =>
    refine ⟨.shiftOverflow, ?_⟩
    by_cases hn : n ≤ 30
    · have hzero : 0 ≤ 2 ^ n := Nat.zero_le _
      simp only [circbufStep, circbufResize, intShl_one hn, ok_bind, require_of hzero,
        Ring.make_ok hn, hk', error_bind]
    · simp only [circbufStep, circbufResize_fault _ (not_le.mp hn), error_bind]

/-- So only the buffer as made is reached. -/
lemma circbufRun_large {k : ℕ} (hk : 30 < k) {ops : List (CircbufOp α)} {buf : Circbuf α}
    {results : List (Option α)} (hrun : circbufRun k ops = .ok (buf, results)) :
    buf.capacityLog2 = k := by
  obtain ⟨made, hmade, hops⟩ := bind_eq_ok.mp hrun
  have hk61 : k ≤ 61 := by
    obtain ⟨u, hu, -⟩ := bind_eq_ok.mp hmade
    exact require_eq_ok.mp hu
  rw [circbufMake_ok hk61, Except.ok.injEq] at hmade
  subst hmade
  cases ops with
  | nil =>
    obtain ⟨rfl, -⟩ := runOps_nil_ok.mp hops
    rfl
  | cons op ops =>
    obtain ⟨t, o, os', ht, -⟩ := runOps_cons_ok.mp hops
    obtain ⟨e, he⟩ := circbufStep_large hk op (calloc sizeofPtr (2 ^ k)) (2 ^ k - 1)
    rw [he] at ht
    cases ht

lemma log2_le_of_intShl {n x : ℕ} (h : intShl 1 n = .ok x) : n ≤ 30 := by
  by_contra hn
  rw [intShl_one_overflow (not_le.mp hn)] at h
  cases h

lemma grownLog2_le_of_grows {buf buf' : Circbuf α} {elem : α}
    (hfull : circbufFull buf = .ok (decide (buf.length = sizeAdd buf.rotationMask 1)))
    (hmask : sizeAdd buf.rotationMask 1 = buf.rotationMask + 1) (hlog2 : buf.capacityLog2 ≤ 30)
    (hput : circbufDynamicPut buf elem = .ok buf') : grownLog2 buf ≤ 30 := by
  unfold grownLog2
  split
  next hlen =>
    by_contra hgrown
    have hresize := circbufResize_fault buf (not_le.mp hgrown)
    simp only [circbufDynamicPut, hfull, hmask, hlen, decide_true, ok_bind, if_true, hresize,
      error_bind, reduceCtorEq] at hput
  next => exact hlog2

/-- In every reachable buffer and for every new capacity, the capacities agree and
`circbuf_dynamicPut` finds or makes room exactly when all of them are at most `2 ^ 30`. -/
theorem circbuf_capacitiesAgree_iff {k : ℕ} {ops : List (CircbufOp α)} {buf : Circbuf α}
    {results : List (Option α)} (hrun : circbufRun k ops = .ok (buf, results)) (n : ℕ) :
    CapacitiesAgree buf n ↔ grownLog2 buf ≤ 30 ∧ n ≤ 30 := by
  by_cases hk : k ≤ 30
  · obtain ⟨R, rfl⟩ := circbufRun_ring hk hrun
    constructor
    · intro h
      obtain ⟨newBuf, -, hbound⟩ := h.bound
      obtain ⟨buf', hput, -⟩ := h.grows 0
      have hmask : sizeAdd R.toCircbuf.rotationMask 1 = R.toCircbuf.rotationMask + 1 := by
        rw [R.mask_succ]
        exact (Nat.sub_add_cancel (Nat.two_pow_pos _)).symm
      exact ⟨grownLog2_le_of_grows h.full hmask R.log2_le hput, log2_le_of_intShl hbound⟩
    · rintro ⟨hgrown, hn⟩
      exact Ring.capacitiesAgree hgrown hn
  · have hlog2 := circbufRun_large (not_le.mp hk) hrun
    constructor
    · intro h
      have hle := log2_le_of_intShl h.capacity
      omega
    · rintro ⟨hgrown, -⟩
      have hle : buf.capacityLog2 ≤ grownLog2 buf := by
        unfold grownLog2
        split <;> omega
      omega

theorem circbuf_capacitiesAgree_iff_full :
    ∃ buf, circbufRun 1 [.put 5, .put 6] = .ok (buf, [none, none]) ∧ CapacitiesAgree buf 3 := by
  have hrun : circbufRun 1 [.put 5, .put 6] = .ok (⟨[5, 6], 0, 2, 1, 1⟩, [none, none]) := rfl
  exact ⟨_, hrun, (circbuf_capacitiesAgree_iff hrun 3).mpr (by decide)⟩

/-- A buffer of `2 ^ 31` slots is made, and then neither its fullness nor a put on it is defined. -/
theorem circbufMake_capacity_overflows_int :
    31 ≤ addressablePtrCountLog2 ∧ ∃ buf : Circbuf ℕ, circbufRun 31 [] = .ok (buf, []) ∧
      buf.rotationMask + 1 = 2 ^ 31 ∧ circbufFull buf = .error .shiftOverflow ∧
      circbufDynamicPut buf 7 = .error .shiftOverflow ∧ ¬CapacitiesAgree buf 31 := by
  refine ⟨by decide, ⟨calloc sizeofPtr (2 ^ 31), 0, 0, 31, 2 ^ 31 - 1⟩, ?_, rfl, ?_, ?_, ?_⟩
  · rw [circbufRun, circbufMake_ok (by decide), ok_bind]
    rfl
  · simp only [circbufFull, intShl_one_overflow (show 30 < 31 by decide), error_bind]
  · simp only [circbufDynamicPut, circbufFull, intShl_one_overflow (show 30 < 31 by decide),
      error_bind]
  · intro h
    have hle : 31 ≤ 30 := log2_le_of_intShl h.capacity
    omega

end Utilc
