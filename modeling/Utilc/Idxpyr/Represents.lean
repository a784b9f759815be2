import Utilc.CLib.Summary
import Utilc.Idxpyr.Writes

/-!
# The array a pyramid stands for

A pyramid is meant as an array of booleans with a fast search for the first true entry. It
represents an array when every bit of every row, used or not, is on exactly when one of the
entries below it is true. All operations keep this.
-/

namespace Utilc
open CLib

/-- An array of `2 ^ log2` booleans that grows with entries `stateInit`. -/
structure BoolArray where
  log2 : ℕ
  stateInit : Bool
  entries : List Bool
  length_entries : entries.length = 2 ^ log2

namespace BoolArray

def make (log2 : ℕ) (stateInit : Bool) : BoolArray where
  log2 := log2
  stateInit := stateInit
  entries := List.replicate (2 ^ log2) stateInit
  length_entries := by simp

def set (A : BoolArray) (index : ℕ) (state : Bool) : BoolArray where
  log2 := A.log2
  stateInit := A.stateInit
  entries := A.entries.set index state
  length_entries := by simp [A.length_entries]

def setAll (A : BoolArray) (state : Bool) : BoolArray where
  log2 := A.log2
  stateInit := A.stateInit
  entries := List.replicate (2 ^ A.log2) state
  length_entries := by simp

/-- The array with as many new entries as it has. -/
def grow (A : BoolArray) : BoolArray where
  log2 := A.log2 + 1
  stateInit := A.stateInit
  entries := A.entries ++ List.replicate (2 ^ A.log2) A.stateInit
  length_entries := by simp [A.length_entries, pow_succ, mul_two]

def first? (A : BoolArray) : Option ℕ := A.entries.findIdx? id

def trues (A : BoolArray) : Set ℕ := {i | A.entries[i]? = some true}

lemma lt_of_mem_trues {A : BoolArray} {i : ℕ} (h : i ∈ A.trues) : i < 2 ^ A.log2 := by
  obtain ⟨hlt, -⟩ := List.getElem?_eq_some_iff.mp h
  rwa [A.length_entries] at hlt

lemma getElem_eq_true_iff {A : BoolArray} {i : ℕ} (h : i < A.entries.length) :
    A.entries[i] = true ↔ i ∈ A.trues := by
  change _ ↔ A.entries[i]? = some true
  rw [List.getElem?_eq_getElem h, Option.some_inj]

lemma first?_eq_some {A : BoolArray} {i : ℕ} (h : IsLeast A.trues i) : A.first? = some i := by
  obtain ⟨hlt, hi⟩ := List.getElem?_eq_some_iff.mp h.1
  refine List.findIdx?_eq_some_iff_getElem.mpr ⟨hlt, hi, fun j hji => ?_⟩
  intro hj
  have hle := h.2 ((getElem_eq_true_iff (by omega)).mp hj)
  omega

lemma first?_eq_none {A : BoolArray} (h : A.trues = ∅) : A.first? = none := by
  refine List.findIdx?_eq_none_iff.mpr fun b hb => ?_
  obtain ⟨i, hi, rfl⟩ := List.mem_iff_getElem.mp hb
  have hnot : i ∉ A.trues := by simp [h]
  rw [← getElem_eq_true_iff hi] at hnot
  simpa using hnot

lemma mem_trues_set {A : BoolArray} {index i : ℕ} {state : Bool} (h : index < 2 ^ A.log2) :
    i ∈ (A.set index state).trues ↔ if i = index then state = true else i ∈ A.trues := by
  change (A.entries.set index state)[i]? = some true ↔ _
  rw [List.getElem?_set, A.length_entries]
  by_cases he : i = index
  · simp [he, h]
  · simp only [if_neg he, if_neg (Ne.symm he)]
    rfl

lemma mem_trues_setAll {A : BoolArray} {i : ℕ} {state : Bool} :
    i ∈ (A.setAll state).trues ↔ state = true ∧ i < 2 ^ A.log2 := by
  change (List.replicate (2 ^ A.log2) state)[i]? = some true ↔ _
  rw [List.getElem?_replicate]
  by_cases h : i < 2 ^ A.log2 <;> simp [h]

lemma mem_trues_grow {A : BoolArray} {i : ℕ} :
    i ∈ A.grow.trues ↔
      if i < 2 ^ A.log2 then i ∈ A.trues else A.stateInit = true ∧ i < 2 ^ (A.log2 + 1) := by
  change (A.entries ++ List.replicate (2 ^ A.log2) A.stateInit)[i]? = some true ↔ _
  rw [List.getElem?_append, A.length_entries, List.getElem?_replicate]
  by_cases h : i < 2 ^ A.log2
  · simp only [if_pos h]
    rfl
  · have hiff : i - 2 ^ A.log2 < 2 ^ A.log2 ↔ i < 2 ^ (A.log2 + 1) := by
      rw [pow_succ]
      omega
    by_cases h' : i < 2 ^ (A.log2 + 1) <;> simp [h, hiff, h']

end BoolArray

/-- The bits of the pyramid summarize the array on all levels. -/
structure Represents (P : Pyramid) (A : BoolArray) : Prop where
  log2 : A.log2 = P.indexCountLog2
  stateInit : A.stateInit = P.stateInit
  bits : ∀ i < P.height, ∀ x < 16 * rowLength P.indexCountLog2 i,
    (P.bit i x = true ↔ Summary 16 A.trues i x)

/-! ### Bits and cells of the summary -/

lemma sixteen_pow_mul {n i : ℕ} (h : 4 * i ≤ n) : 16 ^ i * 2 ^ (n - 4 * i) = 2 ^ n := by
  have hpow : (16 : ℕ) ^ i = 2 ^ (4 * i) := by rw [pow_mul]; norm_num
  rw [hpow, ← pow_add, Nat.add_sub_cancel' h]

lemma div_sixteen_pow_lt {n i y : ℕ} (h : 4 * i ≤ n) :
    y / 16 ^ i < 2 ^ (n - 4 * i) ↔ y < 2 ^ n := by
  rw [Nat.div_lt_iff_lt_mul (Nat.pow_pos (by decide)), Nat.mul_comm, sixteen_pow_mul h]

/-- The numbers below `2 ^ n` turn the cells below `2 ^ (n - 4 * i)` on. -/
lemma summary_lt_two_pow {n i x : ℕ} (h : 4 * i ≤ n) :
    Summary 16 {y | y < 2 ^ n} i x ↔ x < 2 ^ (n - 4 * i) := by
  have hpos : 0 < 16 ^ i := Nat.pow_pos (by decide)
  constructor
  · exact summary_lt (fun y hy => by rwa [sixteen_pow_mul h])
  · intro hx
    refine ⟨16 ^ i * x, ?_, Nat.mul_div_cancel_left x hpos⟩
    change 16 ^ i * x < 2 ^ n
    rw [← sixteen_pow_mul h]
    exact Nat.mul_lt_mul_of_pos_left hx hpos

lemma trues_summary_lt {A : BoolArray} {i x : ℕ} (h : 4 * i ≤ A.log2)
    (hx : Summary 16 A.trues i x) : x < 2 ^ (A.log2 - 4 * i) := by
  obtain ⟨y, hy, hyx⟩ := hx
  exact (summary_lt_two_pow h).mp ⟨y, BoolArray.lt_of_mem_trues hy, hyx⟩

lemma summary_grow_of_lt {A : BoolArray} {i x : ℕ} (h : 4 * i ≤ A.log2)
    (hx : x < 2 ^ (A.log2 - 4 * i)) :
    Summary 16 A.grow.trues i x ↔ Summary 16 A.trues i x := by
  apply summary_congr
  intro y hy
  have hylt : y < 2 ^ A.log2 := by rwa [← div_sixteen_pow_lt h, hy]
  rw [BoolArray.mem_trues_grow, if_pos hylt]

lemma summary_grow_of_not_lt {A : BoolArray} {i x : ℕ} (h : 4 * i ≤ A.log2)
    (hx : ¬x < 2 ^ (A.log2 - 4 * i)) :
    Summary 16 A.grow.trues i x ↔ A.stateInit = true ∧ x < 2 ^ (A.log2 + 1 - 4 * i) := by
  have hset : Summary 16 A.grow.trues i x ↔
      Summary 16 {y | A.stateInit = true ∧ y < 2 ^ (A.log2 + 1)} i x := by
    apply summary_congr
    intro y hy
    have hylt : ¬y < 2 ^ A.log2 := by rwa [← div_sixteen_pow_lt h, hy]
    rw [BoolArray.mem_trues_grow, if_neg hylt]
    rfl
  rw [hset, ← summary_lt_two_pow (show 4 * i ≤ A.log2 + 1 by omega)]
  constructor
  · rintro ⟨y, ⟨hs, hy⟩, hyx⟩
    exact ⟨hs, y, hy, hyx⟩
  · rintro ⟨hs, y, hy, hyx⟩
    exact ⟨y, ⟨hs, hy⟩, hyx⟩

namespace Pyramid

lemma block_ne_zero_iff {P : Pyramid} {i j : ℕ} :
    P.block i j ≠ 0#16 ↔ ∃ c < 16, P.bit i (16 * j + c) = true := by
  rw [← bne_iff_ne, bne_zero_iff]
  have hbit (c : ℕ) (hc : c < 16) : P.bit i (16 * j + c) = (P.block i j).getLsbD c := by
    rw [bit, Nat.mul_add_div (by decide), Nat.div_eq_of_lt hc, Nat.add_zero, Nat.mul_add_mod,
      Nat.mod_eq_of_lt hc]
  constructor
  · rintro ⟨c, hc, h⟩
    exact ⟨c, hc, (hbit c hc).trans h⟩
  · rintro ⟨c, hc, h⟩
    exact ⟨c, hc, (hbit c hc).symm.trans h⟩

end Pyramid

lemma block_ne_zero_of_bits {P : Pyramid} {S : Set ℕ} {i j : ℕ}
    (hbits : ∀ x < 16 * rowLength P.indexCountLog2 i, (P.bit i x = true ↔ Summary 16 S i x))
    (hj : j < rowLength P.indexCountLog2 i) : P.block i j ≠ 0#16 ↔ Summary 16 S (i + 1) j := by
  rw [Pyramid.block_ne_zero_iff, summary_succ (by decide)]
  constructor
  · rintro ⟨c, hc, h⟩
    exact ⟨c, hc, (hbits _ (by omega)).mp h⟩
  · rintro ⟨c, hc, h⟩
    exact ⟨c, hc, (hbits _ (by omega)).mpr h⟩

/-! ### The operations -/

lemma represents_uniform {P : Pyramid} {A : BoolArray} {state : Bool}
    (hlog2 : A.log2 = P.indexCountLog2) (hinit : A.stateInit = P.stateInit)
    (htrues : ∀ i, i ∈ A.trues ↔ state = true ∧ i < 2 ^ A.log2)
    (hbits : ∀ i < P.height, ∀ x < 16 * rowLength P.indexCountLog2 i,
      P.bit i x = (state && decide (x < 2 ^ (P.indexCountLog2 - 4 * i)))) : Represents P A := by
  refine ⟨hlog2, hinit, fun i hi x hx => ?_⟩
  rw [hbits i hi x hx]
  cases state with
  | false =>
    have hoff : ¬Summary 16 A.trues i x := by
      rintro ⟨y, hy, -⟩
      simp [htrues] at hy
    simp [hoff]
  | true =>
    have hset : A.trues = {y | y < 2 ^ P.indexCountLog2} := by
      ext y
      simp [htrues, hlog2]
    rw [hset, summary_lt_two_pow (P.four_mul_le_of_lt_height hi)]
    simp

theorem represents_make {n : ℕ} (h4 : 4 ≤ n) (h60 : n ≤ 60) (stateInit : Bool) :
    ∃ P : Pyramid, idxpyrMake n stateInit = .ok P.toIdxpyr ∧
      Represents P (BoolArray.make n stateInit) := by
  obtain ⟨store, h, hmake, hbits⟩ := idxpyrMake_ok h4 h60 stateInit
  exact ⟨_, hmake, represents_uniform (A := BoolArray.make n stateInit) rfl rfl
    (fun i => BoolArray.mem_trues_setAll (A := BoolArray.make n stateInit)) hbits⟩

theorem represents_setAll {P : Pyramid} {A : BoolArray} (hA : Represents P A) (state : Bool) :
    ∃ Q : Pyramid, idxpyrSetAll P.toIdxpyr state = .ok Q.toIdxpyr ∧
      Represents Q (A.setAll state) := by
  obtain ⟨store, h, hset, hbits⟩ := idxpyrSetAll_ok P state
  exact ⟨_, hset, represents_uniform hA.log2 hA.stateInit
    (fun i => BoolArray.mem_trues_setAll) hbits⟩

/-- `idxpyr_set` changes one entry. On every level the bit on the path becomes the summary of the
new array, by induction from the lowest level. -/
theorem represents_set {P : Pyramid} {A : BoolArray} (hA : Represents P A) {index : ℕ}
    (hindex : index < 2 ^ P.indexCountLog2) (state : Bool) :
    ∃ Q : Pyramid, idxpyrSet P.toIdxpyr index state = .ok Q.toIdxpyr ∧
      Represents Q (A.set index state) := by
  obtain ⟨store, h, hset, hbits⟩ := idxpyrSet_ok P hindex state
  refine ⟨P.withStore store h, hset, hA.log2, hA.stateInit, fun i => ?_⟩
  have hindexA : index < 2 ^ A.log2 := hA.log2 ▸ hindex
  induction i with
  | zero =>
    intro hi x hx
    rw [hbits 0 hi x hx, pow_zero, Nat.div_one, summary_zero, BoolArray.mem_trues_set hindexA]
    by_cases he : x = index
    · rw [if_pos he, if_pos he, pathState]
    · rw [if_neg he, if_neg he, hA.bits 0 hi x hx, summary_zero]
  | succ i ih =>
    intro hi x hx
    have hlow := ih (by change i < P.height; change i + 1 < P.height at hi; omega)
    rw [hbits (i + 1) hi x hx]
    by_cases he : x = index / 16 ^ (i + 1)
    · rw [if_pos he, he, pathState, bne_iff_ne]
      exact block_ne_zero_of_bits hlow (path_lt_rowLength hindex)
    · rw [if_neg he, hA.bits (i + 1) hi x hx]
      apply summary_congr
      intro y hy
      rw [BoolArray.mem_trues_set hindexA, if_neg]
      rintro rfl
      exact he hy.symm

lemma getLsbD_grownTopBlock {n c : ℕ} {fresh old : IdxpyrBlock} (hc : c < 16) :
    (grownTopBlock n fresh old).getLsbD c =
      (fresh.getLsbD c && !decide (c < 2 ^ ((n - 4) % 4)) ||
        if (n - 4) % 4 = 0 then decide (c = 0) && (old != 0#16) else old.getLsbD c) := by
  rw [grownTopBlock, BitVec.getLsbD_or, BitVec.getLsbD_and, BitVec.getLsbD_not,
    getLsbD_lowBits hc]
  by_cases h : (n - 4) % 4 = 0
  · by_cases hold : old = 0#16
    · simp [h, hold, hc]
    · have hne : (old != 0#16) = true := bne_iff_ne.mpr hold
      simp [h, hold, hc, hne, Bool.and_comm]
  · simp [h, hc]

/-- The merged top block is the top row of the grown array. Its used bits come from the old top
row, or from the whole old pyramid when the height grows. -/
lemma getLsbD_grownTopBlock_iff {P : Pyramid} {A : BoolArray} (hA : Represents P A)
    {fresh : IdxpyrBlock} {i x : ℕ} (hi : i + 1 = treeHeight (P.indexCountLog2 + 1)) (hx : x < 16)
    (hfresh : fresh.getLsbD x = true ↔
      A.stateInit = true ∧ x < 2 ^ (A.log2 + 1 - 4 * i)) :
    (grownTopBlock P.indexCountLog2 fresh (P.block (P.height - 1) 0)).getLsbD x = true ↔
      Summary 16 A.grow.trues i x := by
  have h4P := P.four_le
  have hpos := P.height_pos
  have hlog2 := hA.log2
  have hheight : P.height = treeHeight P.indexCountLog2 := rfl
  have h4i : 4 * i ≤ A.log2 := by
    rw [treeHeight] at hi
    omega
  have hcells : (P.indexCountLog2 - 4) % 4 = A.log2 - 4 * i := by
    rw [treeHeight] at hi
    omega
  rw [getLsbD_grownTopBlock hx, hcells]
  by_cases hzero : A.log2 - 4 * i = 0
  · -- the height grows: the only used bit says whether the old pyramid has a true entry
    have hi' : i = P.height - 1 + 1 := by
      rw [treeHeight] at hi hheight
      omega
    rw [if_pos hzero, hzero, pow_zero]
    by_cases hx0 : x = 0
    · subst hx0
      have hbelow := block_ne_zero_of_bits (j := 0)
        (hA.bits (P.height - 1) (by omega)) (rowLength_pos _ _)
      rw [← hi'] at hbelow
      rw [summary_grow_of_lt h4i (Nat.two_pow_pos _), ← hbelow]
      simp
    · have hge : ¬x < 2 ^ (A.log2 - 4 * i) := by
        rw [hzero, pow_zero]
        omega
      rw [summary_grow_of_not_lt h4i hge, ← hfresh]
      simp [hx0]
  · -- the height stays: bits of the old top row without an index below them are off
    have hi' : i = P.height - 1 := by
      rw [treeHeight] at hi hheight
      omega
    have hbit := hA.bits i (by omega) x (by rw [hi', P.rowLength_top]; omega)
    rw [Pyramid.bit, Nat.div_eq_of_lt hx, Nat.mod_eq_of_lt hx] at hbit
    rw [if_neg hzero, ← hi']
    by_cases hlt : x < 2 ^ (A.log2 - 4 * i)
    · rw [summary_grow_of_lt h4i hlt, ← hbit]
      simp [hlt]
    · have hoff : (P.block i 0).getLsbD x = false := by
        rw [← Bool.not_eq_true, hbit]
        exact fun hsum => hlt (trues_summary_lt h4i hsum)
      rw [summary_grow_of_not_lt h4i hlt, ← hfresh, hoff]
      simp [hlt]

/-- `idxpyr_increaseSize` keeps the entries and appends as many new ones. -/
theorem represents_increaseSize {P : Pyramid} {A : BoolArray} (hA : Represents P A)
    (h60 : P.indexCountLog2 + 1 ≤ 60) :
    ∃ Q : Pyramid, idxpyrIncreaseSize P.toIdxpyr = .ok Q.toIdxpyr ∧ Represents Q A.grow := by
  obtain ⟨M, Q, hnM, -, hnQ, hsQ, -, hgrow, hbitsM, hlow, htop⟩ := idxpyrIncreaseSize_ok P h60
  have hlog2 := hA.log2
  refine ⟨Q, hgrow, ?_, hA.stateInit.trans hsQ.symm, ?_⟩
  · rw [hnQ, ← hlog2]
    rfl
  have hheight : Q.height = M.height := by rw [Pyramid.height, Pyramid.height, hnQ, hnM]
  have hheightM : M.height = treeHeight (P.indexCountLog2 + 1) := by rw [Pyramid.height, hnM]
  have hheightP : P.height = treeHeight P.indexCountLog2 := rfl
  intro i hi x hx
  rw [hnQ] at hx
  rw [hheight] at hi
  have hM : M.bit i x = true ↔ A.stateInit = true ∧ x < 2 ^ (A.log2 + 1 - 4 * i) := by
    rw [hbitsM i hi x hx, hA.stateInit, hlog2]
    simp
  by_cases htopRow : i + 1 < M.height
  · have h4 : 4 * (i + 1) ≤ P.indexCountLog2 := by
      rw [hheightM, treeHeight] at htopRow
      omega
    have hrow := sixteen_mul_rowLength h4
    have h4i : 4 * i ≤ A.log2 := by omega
    rw [Pyramid.bit, hlow i htopRow (x / 16) (by omega)]
    by_cases hlt : x < 2 ^ (A.log2 - 4 * i)
    · rw [hlog2, ← hrow] at hlt
      rw [if_pos (by omega), summary_grow_of_lt h4i (by rwa [hlog2, ← hrow])]
      apply hA.bits _ _ _ hlt
      rw [hheightP, treeHeight]
      omega
    · rw [summary_grow_of_not_lt h4i hlt, ← hM]
      rw [hlog2, ← hrow] at hlt
      rw [if_neg (by omega)]
      rfl
  · have he : M.height - 1 = i := by omega
    have hx16 : x < 16 := by
      have hone := M.rowLength_top
      rw [hnM, he] at hone
      omega
    rw [Pyramid.bit, Nat.div_eq_of_lt hx16, Nat.mod_eq_of_lt hx16] at hM ⊢
    rw [← he, htop, he]
    exact getLsbD_grownTopBlock_iff hA (by omega) hx16 hM

end Utilc
