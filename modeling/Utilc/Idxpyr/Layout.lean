import Utilc.CLib.Extents
import Utilc.Idxpyr.Model

/-!
# The layout of a pyramid

Row `i` of a pyramid for `2 ^ n` indices has `rowLength n i` blocks and the rows are packed one
after another. `Pyramid` is a pyramid with this layout whose height fits `rows[]`; the interface
functions never leave this type, so the later modules reason about its blocks and bits only.
-/

namespace Utilc
open CLib

/-- The blocks of row `i` in a pyramid for `2 ^ n` indices. The last row has one block. -/
def rowLength (n i : ℕ) : ℕ := 2 ^ (n - 4 * (i + 1))

def treeHeight (n : ℕ) : ℕ := (n + 3) / 4

def rowStart (n i : ℕ) : ℕ := extentStart (rowLength n) i

/-- `rows[]` after the offsets of the first `h` rows have been stored. -/
def rowTable (n h : ℕ) : List ℕ :=
  (List.range idxpyrMaxHeight).map (fun i => if i < h then rowStart n i else 0)

lemma rowLength_pos (n i : ℕ) : 0 < rowLength n i := Nat.two_pow_pos _

@[simp] lemma rowStart_zero (n : ℕ) : rowStart n 0 = 0 := rfl

lemma rowStart_succ (n i : ℕ) : rowStart n (i + 1) = rowStart n i + rowLength n i :=
  extentStart_succ i

lemma sixteen_mul_rowLength {n i : ℕ} (h : 4 * (i + 1) ≤ n) :
    16 * rowLength n i = 2 ^ (n - 4 * i) := by
  have he : n - 4 * i = (n - 4 * (i + 1)) + 4 := by omega
  rw [rowLength, he, pow_add]
  omega

/-- Every block has a bit one row up. -/
lemma lt_sixteen_mul_rowLength {n i j : ℕ} (hj : j < rowLength n i) :
    j < 16 * rowLength n (i + 1) := by
  have hle : 2 ^ (n - 4 * (i + 1)) ≤ 2 ^ (n - 4 * (i + 1 + 1) + 4) :=
    Nat.pow_le_pow_right Nat.two_pos (by omega)
  rw [pow_add] at hle
  simp only [rowLength] at hj ⊢
  omega

lemma rowLength_pred_treeHeight {n : ℕ} : rowLength n (treeHeight n - 1) = 1 := by
  have h : n - 4 * (treeHeight n - 1 + 1) = 0 := by unfold treeHeight; omega
  rw [rowLength, h, pow_zero]

/-- The rows of a pyramid take less space than its indices would. -/
lemma rowStart_add_le {n i : ℕ} (h : 4 * i ≤ n) : rowStart n i + 2 ^ (n - 4 * i) ≤ 2 ^ n := by
  induction i with
  | zero => simp [rowStart]
  | succ i ih =>
    have hi := ih (by omega)
    have hrow := sixteen_mul_rowLength h
    have hlast : 2 ^ (n - 4 * (i + 1)) = rowLength n i := rfl
    rw [rowStart_succ, hlast]
    omega

lemma rowStart_lt {n i : ℕ} (hn : n ≤ 63) (h : 4 * i ≤ n) : rowStart n i < 2 ^ 63 := by
  have hle := rowStart_add_le h
  have hpow : 2 ^ n ≤ 2 ^ 63 := Nat.pow_le_pow_right Nat.two_pos hn
  have hpos := Nat.two_pow_pos (n - 4 * i)
  omega

lemma getHeight_ok {n : ℕ} (h4 : 4 ≤ n) (h63 : n ≤ 63) : getHeight n = .ok (treeHeight n) := by
  have hadmitted : blockBitCountLog2 ≤ n ∧ n ≤ idxpyrMaxIndexCountLog2 := ⟨h4, h63⟩
  simp only [getHeight, require_of hadmitted, ok_bind, pure_eq_ok]
  congr 1
  rw [blockBitCountLog2_eq]
  unfold treeHeight
  split <;> omega

@[simp] lemma length_rowTable (n h : ℕ) : (rowTable n h).length = 15 := by
  simp [rowTable]

lemma getElem?_rowTable {n h i : ℕ} (hi : i < 15) :
    (rowTable n h)[i]? = some (if i < h then rowStart n i else 0) := by
  simp [rowTable, hi]

lemma readAt_rowTable {n h i : ℕ} (hi : i < h) (hh : h ≤ 15) :
    readAt (rowTable n h) i = .ok (rowStart n i) := by
  rw [readAt_eq_ok, getElem?_rowTable (by omega), if_pos hi]

lemma set_rowTable {n i : ℕ} : (rowTable n i).set i (rowStart n i) = rowTable n (i + 1) := by
  apply List.ext_getElem?
  intro k
  by_cases hk : k < 15
  · rw [List.getElem?_set, getElem?_rowTable hk, getElem?_rowTable hk]
    by_cases hik : i = k
    · subst hik
      simp [hk]
    · have hiff : k < i + 1 ↔ k < i := by omega
      simp [hik, hiff]
  · rw [List.getElem?_eq_none (by simp; omega), List.getElem?_eq_none (by simp; omega)]

/-- The offset loop stores the start of every row above the lowest one. -/
lemma makeRowOffsets_ok {n : ℕ} (hn : n ≤ 63) (count i : ℕ) (hi : 4 * (i + count) ≤ n)
    (hrows : i + 1 + count ≤ 15) :
    makeRowOffsets count (i + 1) (rowStart n i) (2 ^ (n - 4 * i)) (rowTable n (i + 1)) =
      .ok (rowTable n (i + 1 + count), rowStart n (i + count)) := by
  induction count generalizing i with
  | zero => rfl
  | succ count ih =>
    have hshift : 2 ^ (n - 4 * i) >>> 4 = rowLength n i := by
      rw [Nat.shiftRight_eq_div_pow, ← sixteen_mul_rowLength (by omega)]
      omega
    have hadd : sizeAdd (rowStart n i) (rowLength n i) = rowStart n (i + 1) := by
      rw [sizeAdd_of_lt, rowStart_succ]
      have hlt := rowStart_lt hn (i := i + 1) (by omega)
      rw [rowStart_succ] at hlt
      simp only [sizeBits]
      omega
    have hwrite : writeAt (rowTable n (i + 1)) (i + 1) (rowStart n (i + 1)) =
        .ok (rowTable n (i + 1 + 1)) := by
      rw [writeAt_of_lt (by simp; omega), set_rowTable]
    simp only [makeRowOffsets, blockBitCountLog2_eq, hshift, hadd, hwrite, ok_bind]
    have hnext := ih (i + 1) (by omega) (by omega)
    have he : i + 1 + 1 + count = i + 1 + (count + 1) := by omega
    have he' : i + 1 + count = i + (count + 1) := by omega
    rw [he, he'] at hnext
    exact hnext

lemma replicate_rows {n : ℕ} : List.replicate idxpyrMaxHeight 0 = rowTable n 1 := by
  apply List.ext_getElem?
  intro k
  by_cases hk : k < 15
  · rw [getElem?_rowTable hk, List.getElem?_replicate, idxpyrMaxHeight_eq, if_pos hk]
    by_cases h0 : k = 0
    · simp [h0, rowStart]
    · simp [h0]
  · rw [List.getElem?_eq_none (by simp; omega), List.getElem?_eq_none (by simp; omega)]

lemma makeRowOffsets_all {n : ℕ} (h4 : 4 ≤ n) (h60 : n ≤ 60) :
    makeRowOffsets (treeHeight n - 1) 1 0 (2 ^ n) (List.replicate idxpyrMaxHeight 0) =
      .ok (rowTable n (treeHeight n), rowStart n (treeHeight n - 1)) := by
  have hheight : 4 * (treeHeight n - 1) ≤ n ∧ 0 < treeHeight n ∧ treeHeight n ≤ 15 := by
    unfold treeHeight
    omega
  have h := makeRowOffsets_ok (n := n) (by omega) (treeHeight n - 1) 0 (by omega) (by omega)
  have he : 0 + 1 + (treeHeight n - 1) = treeHeight n := by omega
  simp only [he, Nat.zero_add, Nat.mul_zero, Nat.sub_zero, rowStart_zero] at h
  rw [replicate_rows (n := n)]
  exact h

lemma set_rowTable_zero {n h : ℕ} : (rowTable n h).set 0 0 = rowTable n h := by
  apply List.ext_getElem?
  intro k
  rw [List.getElem?_set]
  by_cases hk : 0 = k
  · subst hk
    rw [getElem?_rowTable (by decide)]
    simp [rowStart]
  · rw [if_neg hk]

/-- Block `j` of row `i` in a store. -/
def blockAt (n : ℕ) (store : List IdxpyrBlock) (i j : ℕ) : IdxpyrBlock :=
  store.getD (rowStart n i + j) 0#16

lemma blockAt_set {n h : ℕ} {store : List IdxpyrBlock} (hlen : store.length = rowStart n h)
    {i j i' j' : ℕ} (hi : i < h) (hj : j < rowLength n i) (hj' : j' < rowLength n i')
    (b : IdxpyrBlock) :
    blockAt n (store.set (rowStart n i + j) b) i' j' =
      if i' = i ∧ j' = j then b else blockAt n store i' j' := by
  have hlt : rowStart n i + j < store.length := hlen ▸ extentStart_add_lt hi hj
  rw [blockAt, blockAt, List.getD_eq_getElem?_getD, List.getD_eq_getElem?_getD, List.getElem?_set]
  by_cases he : i' = i ∧ j' = j
  · obtain ⟨rfl, rfl⟩ := he
    simp [hlt]
  · have hne : rowStart n i + j ≠ rowStart n i' + j' := by
      intro heq
      obtain ⟨h1, h2⟩ := extentStart_add_inj hj hj' heq
      exact he ⟨h1.symm, h2.symm⟩
    rw [if_neg hne, if_neg he]

/-- A pyramid with the layout `idxpyr_make` computes and a height that fits `rows[]`. -/
structure Pyramid where
  indexCountLog2 : ℕ
  stateInit : Bool
  store : List IdxpyrBlock
  four_le : 4 ≤ indexCountLog2
  le_sixty : indexCountLog2 ≤ 60
  length_store : store.length = rowStart indexCountLog2 (treeHeight indexCountLog2)

namespace Pyramid

variable (P : Pyramid)

def height : ℕ := treeHeight P.indexCountLog2

/-- The `idxpyr_t` of a laid out pyramid. -/
def toIdxpyr : Idxpyr where
  indexCountLog2 := P.indexCountLog2
  height := P.height
  rows := rowTable P.indexCountLog2 P.height
  storeSize := 2 * P.store.length
  stateInit := P.stateInit
  store := P.store

def block (i j : ℕ) : IdxpyrBlock := blockAt P.indexCountLog2 P.store i j

/-- Bit `x` of row `i`, counted through the blocks of the row. -/
def bit (i x : ℕ) : Bool := (P.block i (x / 16)).getLsbD (x % 16)

def withStore (store : List IdxpyrBlock) (h : store.length = P.store.length) : Pyramid where
  indexCountLog2 := P.indexCountLog2
  stateInit := P.stateInit
  store := store
  four_le := P.four_le
  le_sixty := P.le_sixty
  length_store := h.trans P.length_store

lemma toIdxpyr_withStore {store : List IdxpyrBlock} (h : store.length = P.store.length) :
    (P.withStore store h).toIdxpyr = { P.toIdxpyr with store := store } := by
  simp only [toIdxpyr, withStore, h]
  rfl

lemma height_pos : 0 < P.height := by
  have h := P.four_le
  simp only [height, treeHeight]
  omega

lemma height_le : P.height ≤ 15 := by
  have h := P.le_sixty
  simp only [height, treeHeight]
  omega

/-- Below the top row four bits of an index are used up by every level. -/
lemma four_mul_succ_le {i : ℕ} (hi : i + 1 < P.height) : 4 * (i + 1) ≤ P.indexCountLog2 := by
  simp only [height, treeHeight] at hi
  omega

lemma sub_le_four {i : ℕ} (hi : i + 1 = P.height) : P.indexCountLog2 - 4 * i ≤ 4 := by
  simp only [height, treeHeight] at hi
  omega

lemma rowLength_top : rowLength P.indexCountLog2 (P.height - 1) = 1 := rowLength_pred_treeHeight

lemma rowStart_top : rowStart P.indexCountLog2 (P.height - 1) + 1 = P.store.length := by
  have hpos := P.height_pos
  have hsucc := rowStart_succ P.indexCountLog2 (P.height - 1)
  have hlen := P.length_store
  have he : P.height - 1 + 1 = P.height := by omega
  rw [he, rowLength_top] at hsucc
  change P.store.length = rowStart P.indexCountLog2 P.height at hlen
  omega

lemma four_mul_le_of_lt_height {i : ℕ} (h : i < P.height) : 4 * i ≤ P.indexCountLog2 := by
  simp only [height, treeHeight] at h
  omega

lemma store_length_lt : P.store.length < 2 ^ 61 := by
  have h60 := P.le_sixty
  have hpos := P.height_pos
  have htop := P.rowStart_top
  have hle := rowStart_add_le
    (P.four_mul_le_of_lt_height (show P.height - 1 < P.height by omega))
  have hpow : 2 ^ P.indexCountLog2 ≤ 2 ^ 60 := Nat.pow_le_pow_right Nat.two_pos h60
  have hone := Nat.two_pow_pos (P.indexCountLog2 - 4 * (P.height - 1))
  omega

lemma rowStart_add_lt {i j : ℕ} (hi : i < P.height) (hj : j < rowLength P.indexCountLog2 i) :
    rowStart P.indexCountLog2 i + j < P.store.length := by
  rw [P.length_store]
  exact extentStart_add_lt hi hj

@[simp] lemma readAt_rows {i : ℕ} (hi : i < P.height) :
    readAt P.toIdxpyr.rows i = .ok (rowStart P.indexCountLog2 i) :=
  readAt_rowTable hi P.height_le

lemma readAt_block {i j : ℕ} (hi : i < P.height) (hj : j < rowLength P.indexCountLog2 i) :
    readAt P.toIdxpyr.store (rowStart P.indexCountLog2 i + j) = .ok (P.block i j) :=
  readAt_getD (P.rowStart_add_lt hi hj) _

theorem ext_block {P Q : Pyramid} (hn : P.indexCountLog2 = Q.indexCountLog2)
    (hs : P.stateInit = Q.stateInit)
    (hb : ∀ i < P.height, ∀ j < rowLength P.indexCountLog2 i, P.block i j = Q.block i j) :
    P = Q := by
  obtain ⟨n, s, store, h4, h60, hlen⟩ := P
  obtain ⟨n', s', store', h4', h60', hlen'⟩ := Q
  dsimp only at hn hs
  subst hn hs
  congr 1
  apply ext_of_extents hlen hlen'
  intro i hi j hj
  have he := hb i hi j hj
  have hlt := extentStart_add_lt hi hj
  change extentStart (rowLength n) i + j < rowStart n (treeHeight n) at hlt
  simp only [block, blockAt, rowStart] at he
  rw [List.getD_eq_getElem _ _ (by omega), List.getD_eq_getElem _ _ (by omega)] at he
  rw [List.getElem?_eq_getElem (by omega), List.getElem?_eq_getElem (by omega), he]

lemma block_eq_iff_bit {P Q : Pyramid} {i j : ℕ} :
    P.block i j = Q.block i j ↔ ∀ c < 16, P.bit i (16 * j + c) = Q.bit i (16 * j + c) := by
  have hdiv (c : ℕ) (hc : c < 16) : (16 * j + c) / 16 = j := by omega
  have hmod (c : ℕ) (hc : c < 16) : (16 * j + c) % 16 = c := by omega
  constructor
  · intro h c hc
    rw [bit, bit, hdiv c hc, h]
  · intro h
    apply BitVec.eq_of_getLsbD_eq
    intro c hc
    have hcb := h c hc
    rwa [bit, bit, hdiv c hc, hmod c hc] at hcb

theorem ext_bit {P Q : Pyramid} (hn : P.indexCountLog2 = Q.indexCountLog2)
    (hs : P.stateInit = Q.stateInit)
    (hb : ∀ i < P.height, ∀ x < 16 * rowLength P.indexCountLog2 i, P.bit i x = Q.bit i x) :
    P = Q := by
  apply ext_block hn hs
  intro i hi j hj
  rw [block_eq_iff_bit]
  intro c hc
  exact hb i hi _ (by omega)

end Pyramid

end Utilc
