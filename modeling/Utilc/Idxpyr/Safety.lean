import Utilc.Idxpyr.Refinement

/-!
# The size limit of a pyramid

`getHeight` admits `2 ^ 63` indices, but `rows[]` has one entry less than the height of the three
largest sizes. Below them the rows are packed without gap or overlap, every access stays inside
its row and no computation wraps.
-/

namespace Utilc
open CLib

/-- Where row `i` begins in the store, in blocks. -/
def rowBegin (pyr : Idxpyr) (i : ℕ) : ℕ := pyr.rows.getD i 0

/-- Where row `i` ends: at the next row, or with the store. -/
def rowEnd (pyr : Idxpyr) (i : ℕ) : ℕ :=
  if i + 1 < pyr.height then rowBegin pyr (i + 1) else pyr.storeSize / sizeofBlock

/-- The number of blocks before row `i`, as an exact number. -/
def exactOffset (n i : ℕ) : ℕ := ∑ k ∈ Finset.range i, 2 ^ n / 16 ^ (k + 1)

/-- Layout and access safety of a made pyramid. -/
structure LayoutSafe (pyr : Idxpyr) : Prop where
  /-- Every level number indexes `rows[]`. -/
  levels : ∀ i < pyr.height, i < idxpyrMaxHeight
  /-- The block `idxpyr_set` touches on a level lies in the row of the level. -/
  touched : ∀ index < 2 ^ pyr.indexCountLog2, ∀ i < pyr.height,
    rowBegin pyr i + index >>> (4 * (i + 1)) < rowEnd pyr i
  /-- Every byte of the store belongs to exactly one row. -/
  extents : ∀ byte < pyr.storeSize, ∃! i, i < pyr.height ∧
    sizeofBlock * rowBegin pyr i ≤ byte ∧ byte < sizeofBlock * rowEnd pyr i
  within : ∀ i < pyr.height, sizeofBlock * rowEnd pyr i ≤ pyr.storeSize
  allocated : pyr.storeSize = sizeofBlock * pyr.store.length
  lastRow : rowEnd pyr (pyr.height - 1) = rowBegin pyr (pyr.height - 1) + 1
  /-- The offsets and the size are the exact numbers, and these fit `size_t`. -/
  exact_offset : ∀ i < pyr.height, rowBegin pyr i = exactOffset pyr.indexCountLog2 i
  exact_size : pyr.storeSize = sizeofBlock * (exactOffset pyr.indexCountLog2 (pyr.height - 1) + 1)
  size_lt : 2 ^ pyr.indexCountLog2 < 2 ^ sizeBits ∧ pyr.storeSize < 2 ^ sizeBits
  descent_lt : ∀ i < pyr.height, ∀ j, rowBegin pyr i + j < rowEnd pyr i →
    16 * j + 15 < 2 ^ sizeBits
  /-- The calls on it do not fault. -/
  set_ok : ∀ index < 2 ^ pyr.indexCountLog2, ∀ state, ∃ after,
    idxpyrSet pyr index state = .ok after
  setAll_ok : ∀ state, ∃ after, idxpyrSetAll pyr state = .ok after
  getFirst_ok : ∃ index, idxpyrGetFirst pyr = .ok index

namespace Pyramid

variable (P : Pyramid)

lemma rowBegin_eq {i : ℕ} (hi : i < P.height) :
    rowBegin P.toIdxpyr i = rowStart P.indexCountLog2 i := by
  have hle := P.height_le
  have hget : P.toIdxpyr.rows[i]? = some (rowStart P.indexCountLog2 i) := by
    have h := getElem?_rowTable (n := P.indexCountLog2) (h := P.height) (show i < 15 by omega)
    rwa [if_pos hi] at h
  rw [rowBegin, List.getD_eq_getElem?_getD, hget]
  rfl

lemma rowEnd_eq {i : ℕ} (hi : i < P.height) :
    rowEnd P.toIdxpyr i = rowStart P.indexCountLog2 (i + 1) := by
  have hheight : P.toIdxpyr.height = P.height := rfl
  rw [rowEnd, hheight]
  by_cases htop : i + 1 < P.height
  · rw [if_pos htop, P.rowBegin_eq htop]
  · have he : i + 1 = P.height := by omega
    have hlen : P.store.length = rowStart P.indexCountLog2 P.height := P.length_store
    have hhalf : P.toIdxpyr.storeSize / sizeofBlock = P.store.length := by
      simp only [toIdxpyr, sizeofBlock]
      omega
    rw [if_neg htop, hhalf, he, hlen]

lemma rowStart_eq_exact {i : ℕ} (hi : i < P.height) :
    rowStart P.indexCountLog2 i = exactOffset P.indexCountLog2 i := by
  rw [rowStart, extentStart, exactOffset]
  apply Finset.sum_congr rfl
  intro k hk
  have hki := Finset.mem_range.mp hk
  exact (two_pow_div_pow (P.four_mul_succ_le (by omega))).symm

lemma exists_unique_row {byte : ℕ} (hbyte : byte < P.toIdxpyr.storeSize) :
    ∃! i, i < P.height ∧ sizeofBlock * rowBegin P.toIdxpyr i ≤ byte ∧
      byte < sizeofBlock * rowEnd P.toIdxpyr i := by
  have hlen : P.store.length = rowStart P.indexCountLog2 P.height := P.length_store
  have hblock : byte / 2 < extentStart (rowLength P.indexCountLog2) P.height := by
    change byte < 2 * P.store.length at hbyte
    change byte / 2 < rowStart P.indexCountLog2 P.height
    omega
  obtain ⟨i, hi, j, hj, he⟩ := exists_extent hblock
  change byte / 2 = rowStart P.indexCountLog2 i + j at he
  refine ⟨i, ⟨hi, ?_, ?_⟩, ?_⟩
  · rw [P.rowBegin_eq hi, sizeofBlock]
    omega
  · rw [P.rowEnd_eq hi, rowStart_succ, sizeofBlock]
    omega
  · rintro i' ⟨hi', hge, hlt⟩
    rw [P.rowBegin_eq hi', sizeofBlock] at hge
    rw [P.rowEnd_eq hi', rowStart_succ, sizeofBlock] at hlt
    have hj' : byte / 2 - rowStart P.indexCountLog2 i' < rowLength P.indexCountLog2 i' := by omega
    have he' : rowStart P.indexCountLog2 i' + (byte / 2 - rowStart P.indexCountLog2 i') =
        rowStart P.indexCountLog2 i + j := by omega
    exact (extentStart_add_inj hj' hj he').1

lemma rowStart_add_rowLength_le {i : ℕ} (hi : i < P.height) :
    rowStart P.indexCountLog2 i + rowLength P.indexCountLog2 i ≤ P.store.length := by
  rw [P.length_store]
  exact extentStart_add_le hi le_rfl

theorem layoutSafe {A : BoolArray} (hA : Represents P A) : LayoutSafe P.toIdxpyr where
  levels := by
    intro i hi
    have hle := P.height_le
    rw [idxpyrMaxHeight_eq]
    change i < P.height at hi
    omega
  touched := by
    intro index hindex i hi
    have hpow : (2 : ℕ) ^ (4 * (i + 1)) = 16 ^ (i + 1) := by rw [pow_mul]; norm_num
    have hpath := path_lt_rowLength (i := i) hindex
    rw [P.rowBegin_eq hi, P.rowEnd_eq hi, rowStart_succ, Nat.shiftRight_eq_div_pow, hpow]
    exact Nat.add_lt_add_left hpath _
  extents := fun byte hbyte => P.exists_unique_row hbyte
  within := by
    intro i hi
    have hend := P.rowStart_add_rowLength_le hi
    rw [P.rowEnd_eq hi, rowStart_succ, sizeofBlock]
    change _ ≤ 2 * P.store.length
    omega
  allocated := rfl
  lastRow := by
    have htop : P.height - 1 < P.height := Nat.sub_lt P.height_pos Nat.one_pos
    change rowEnd P.toIdxpyr (P.height - 1) = rowBegin P.toIdxpyr (P.height - 1) + 1
    rw [P.rowEnd_eq htop, P.rowBegin_eq htop, rowStart_succ, P.rowLength_top]
  exact_offset := by
    intro i hi
    rw [P.rowBegin_eq hi]
    exact P.rowStart_eq_exact hi
  exact_size := by
    have htop : P.height - 1 < P.height := Nat.sub_lt P.height_pos Nat.one_pos
    change 2 * P.store.length = sizeofBlock * (exactOffset P.indexCountLog2 (P.height - 1) + 1)
    rw [← P.rowStart_eq_exact htop, ← P.rowStart_top, sizeofBlock]
  size_lt := by
    have h60 := P.le_sixty
    have hsmall := P.store_length_lt
    refine ⟨Nat.pow_lt_pow_right Nat.one_lt_two (by simp only [sizeBits, toIdxpyr]; omega), ?_⟩
    change 2 * P.store.length < 2 ^ 64
    omega
  descent_lt := by
    intro i hi j hj
    have h60 := P.le_sixty
    rw [P.rowBegin_eq hi, P.rowEnd_eq hi, rowStart_succ] at hj
    have hsize : rowLength P.indexCountLog2 i ≤ 2 ^ 56 :=
      Nat.pow_le_pow_right Nat.two_pos (by omega)
    simp only [sizeBits]
    omega
  set_ok := by
    intro index hindex state
    obtain ⟨Q, hset, -⟩ := represents_set hA hindex state
    exact ⟨_, hset⟩
  setAll_ok := by
    intro state
    obtain ⟨Q, hset, -⟩ := represents_setAll hA state
    exact ⟨_, hset⟩
  getFirst_ok := ⟨_, represents_getFirst hA⟩

end Pyramid

/-- The layout is safe for exactly the sizes up to `2 ^ 60`. `getHeight` admits three more. -/
theorem idxpyr_layoutSafe_iff (n : ℕ) (h4 : blockBitCountLog2 ≤ n) :
    (∀ stateInit, ∃ pyr, idxpyrMake n stateInit = .ok pyr ∧ LayoutSafe pyr) ↔ n ≤ 60 := by
  constructor
  · intro hsafe
    by_contra h60
    obtain ⟨pyr, hmake, -⟩ := hsafe true
    obtain ⟨e, hfault⟩ := idxpyrMake_fault (not_le.mp h60) true
    rw [hfault] at hmake
    cases hmake
  · intro h60 stateInit
    obtain ⟨P, hmake, hP⟩ := represents_make h4 h60 stateInit
    exact ⟨_, hmake, P.layoutSafe hP⟩

theorem idxpyr_layoutSafe_iff_sixty :
    (∀ stateInit, ∃ pyr, idxpyrMake 60 stateInit = .ok pyr ∧ LayoutSafe pyr) ↔ 60 ≤ 60 :=
  idxpyr_layoutSafe_iff 60 (by decide)

/-- At `2 ^ 61` indices, which the assertion of `getHeight` admits, the height is 16 and
`idxpyr_make` writes the sixteenth entry of an array of 15. -/
theorem idxpyrMake_overruns_rows :
    getHeight 61 = .ok 16 ∧ idxpyrMaxHeight = 15 ∧ idxpyrMake 61 true = .error .outOfBounds ∧
      ¬∀ n, blockBitCountLog2 ≤ n → n ≤ idxpyrMaxIndexCountLog2 →
        ∀ stateInit, ∃ pyr, idxpyrMake n stateInit = .ok pyr ∧ LayoutSafe pyr := by
  have hfault : idxpyrMake 61 true = .error .outOfBounds := rfl
  refine ⟨rfl, rfl, hfault, ?_⟩
  intro hall
  obtain ⟨pyr, hmake, -⟩ := hall 61 (by decide) (by decide) true
  rw [hfault] at hmake
  cases hmake

end Utilc
