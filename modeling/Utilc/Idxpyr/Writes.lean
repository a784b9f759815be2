import Utilc.Idxpyr.Layout

/-!
# What the interface functions write

Each function that changes a pyramid is described by the bits or the blocks it leaves, for any
contents of the store. No function faults on a laid out pyramid and a valid index.
-/

namespace Utilc
open CLib

/-! ### Bits of a block -/

lemma getLsbD_updateBit {block : IdxpyrBlock} {k c : ℕ} {state : Bool} (hk : k < 16)
    (hc : c < 16) :
    (updateBit block k state).getLsbD c = if c = k then state else block.getLsbD c := by
  have hone : (1#16 <<< k).getLsbD c = decide (c = k) := by
    rw [BitVec.getLsbD_shiftLeft, BitVec.getLsbD_one]
    by_cases h : c = k
    · simp [h, hk]
    · by_cases hlt : c < k
      · simp [hlt, h]
      · simp [h, show c - k ≠ 0 by omega]
  unfold updateBit
  cases state
  · rw [if_neg (by decide), BitVec.getLsbD_and, BitVec.getLsbD_not, hone]
    by_cases h : c = k
    · simp [h]
    · simp [h, hc]
  · rw [if_pos rfl, BitVec.getLsbD_or, hone]
    by_cases h : c = k
    · simp [h]
    · simp [h]

lemma getLsbD_lowBits {m c : ℕ} (hc : c < 16) :
    (BitVec.ofNat 16 (2 ^ m - 1)).getLsbD c = decide (c < m) := by
  rw [BitVec.getLsbD_ofNat, Nat.testBit_two_pow_sub_one]
  simp [hc]

lemma getLsbD_ones {c : ℕ} (hc : c < 16) : (0xFFFF#16).getLsbD c = true := by
  have h := getLsbD_lowBits (m := 16) hc
  simpa [hc] using h

lemma bne_zero_iff {block : IdxpyrBlock} :
    (block != 0#16) = true ↔ ∃ c < 16, block.getLsbD c = true := by
  rw [bne_iff_ne]
  constructor
  · intro h
    by_contra hall
    push Not at hall
    apply h
    apply BitVec.eq_of_getLsbD_eq
    intro c hc
    simpa using hall c hc
  · rintro ⟨c, -, hbit⟩ rfl
    simp at hbit

/-! ### `idxpyr_setAll` and `idxpyr_make` -/

lemma blockAt_replicate {n h i j : ℕ} (hi : i < h) (hj : j < rowLength n i) (b : IdxpyrBlock) :
    blockAt n (List.replicate (rowStart n h) b) i j = b := by
  have hlt : rowStart n i + j < rowStart n h := extentStart_add_lt hi hj
  rw [blockAt, List.getD_eq_getElem _ _ (by simpa using hlt), List.getElem_replicate]

lemma sizeShl_topMask {t : ℕ} (h : t < 4) : sizeShl 1 (1 <<< t) = .ok (2 ^ 2 ^ t) := by
  rw [Nat.one_shiftLeft]
  apply sizeShl_one
  have hle : 2 ^ t ≤ 2 ^ 3 := Nat.pow_le_pow_right Nat.two_pos (by omega)
  simp only [sizeBits]
  omega

def filledStore (n : ℕ) (state : Bool) : List IdxpyrBlock :=
  let filled := List.replicate (rowStart n (treeHeight n)) (if state then 0xFFFF#16 else 0#16)
  if state = false ∨ (n - 4) % 4 = 0 then filled
  else filled.set (rowStart n (treeHeight n - 1)) (BitVec.ofNat 16 (2 ^ 2 ^ ((n - 4) % 4) - 1))

lemma length_filledStore (n : ℕ) (state : Bool) :
    (filledStore n state).length = rowStart n (treeHeight n) := by
  rw [filledStore, apply_ite List.length, List.length_set, List.length_replicate, ite_self]

lemma idxpyrSetAll_eq (P : Pyramid) (state : Bool) :
    idxpyrSetAll P.toIdxpyr state =
      .ok { P.toIdxpyr with store := filledStore P.indexCountLog2 state } := by
  have hlen : P.store.length = rowStart P.indexCountLog2 P.height := P.length_store
  have hpos := P.height_pos
  have hrow0 : readAt P.toIdxpyr.rows 0 = .ok 0 := P.readAt_rows hpos
  have htop : readAt P.toIdxpyr.rows (P.toIdxpyr.height - 1) =
      .ok (rowStart P.indexCountLog2 (P.height - 1)) :=
    P.readAt_rows (i := P.height - 1) (by omega)
  have hfill (b : IdxpyrBlock) : fillAt P.toIdxpyr.store 0 (P.toIdxpyr.storeSize / sizeofBlock) b =
      .ok (List.replicate (rowStart P.indexCountLog2 P.height) b) := by
    have he : P.toIdxpyr.storeSize / sizeofBlock = P.store.length := by
      simp only [Pyramid.toIdxpyr, sizeofBlock]
      omega
    rw [he, ← hlen]
    exact fillAt_all P.store b
  have hlog2 : P.toIdxpyr.indexCountLog2 = P.indexCountLog2 := rfl
  simp only [idxpyrSetAll, hrow0, htop, hfill, ok_bind, hlog2, blockBitCountLog2_eq]
  by_cases hdone : state = false ∨ (P.indexCountLog2 - 4) % 4 = 0
  · rw [if_pos hdone, filledStore, if_pos hdone]
    rfl
  · have hmask := sizeShl_topMask (Nat.mod_lt (P.indexCountLog2 - 4) (show 0 < 4 by decide))
    have hwrite (b c : IdxpyrBlock) :
        writeAt (List.replicate (rowStart P.indexCountLog2 P.height) b)
            (rowStart P.indexCountLog2 (P.height - 1)) c =
          .ok ((List.replicate (rowStart P.indexCountLog2 P.height) b).set
            (rowStart P.indexCountLog2 (P.height - 1)) c) := by
      apply writeAt_of_lt
      have hlast := P.rowStart_top
      rw [List.length_replicate]
      omega
    rw [if_neg hdone, filledStore, if_neg hdone]
    simp only [hmask, hwrite, ok_bind]
    rfl

/-- The blocks of the store are uniform, up to the mask of a partly used top block. -/
lemma blockAt_filledStore {n i j : ℕ} (hi : i < treeHeight n) (hj : j < rowLength n i)
    (state : Bool) :
    blockAt n (filledStore n state) i j =
      if state = true ∧ (n - 4) % 4 ≠ 0 ∧ i + 1 = treeHeight n then
        BitVec.ofNat 16 (2 ^ 2 ^ ((n - 4) % 4) - 1)
      else if state then 0xFFFF#16 else 0#16 := by
  unfold filledStore
  by_cases hdone : state = false ∨ (n - 4) % 4 = 0
  · have hnot : ¬(state = true ∧ (n - 4) % 4 ≠ 0 ∧ i + 1 = treeHeight n) := by
      rintro ⟨hstate, ht, -⟩
      rcases hdone with h | h
      · simp [hstate] at h
      · exact ht h
    rw [if_pos hdone, if_neg hnot]
    exact blockAt_replicate hi hj _
  · have hpart : state = true ∧ (n - 4) % 4 ≠ 0 := by simpa using hdone
    have hset := blockAt_set (List.length_replicate (n := rowStart n (treeHeight n))
        (a := if state then 0xFFFF#16 else 0#16))
      (show treeHeight n - 1 < treeHeight n by omega) (rowLength_pos n (treeHeight n - 1)) hj
      (BitVec.ofNat 16 (2 ^ 2 ^ ((n - 4) % 4) - 1))
    rw [Nat.add_zero] at hset
    rw [if_neg hdone, hset, blockAt_replicate hi hj]
    by_cases htop : i + 1 = treeHeight n
    · have hone : rowLength n i = 1 := by
        rw [← rowLength_pred_treeHeight (n := n), ← htop, Nat.add_sub_cancel]
      rw [if_pos (by omega), if_pos ⟨hpart.1, hpart.2, htop⟩]
    · have hnot : ¬(state = true ∧ (n - 4) % 4 ≠ 0 ∧ i + 1 = treeHeight n) := fun h => htop h.2.2
      rw [if_neg (by omega), if_neg hnot]

/-- `idxpyr_setAll` sets or clears the bits with an index below them and clears the others. -/
theorem idxpyrSetAll_ok (P : Pyramid) (state : Bool) :
    ∃ store h, idxpyrSetAll P.toIdxpyr state = .ok (P.withStore store h).toIdxpyr ∧
      ∀ i < P.height, ∀ x < 16 * rowLength P.indexCountLog2 i,
        (P.withStore store h).bit i x =
          (state && decide (x < 2 ^ (P.indexCountLog2 - 4 * i))) := by
  have h4 := P.four_le
  refine ⟨filledStore P.indexCountLog2 state, (length_filledStore _ _).trans P.length_store.symm,
    ?_, ?_⟩
  · rw [Pyramid.toIdxpyr_withStore]
    exact idxpyrSetAll_eq P state
  · intro i hi x hx
    have hmod : x % 16 < 16 := Nat.mod_lt _ (by decide)
    have hheight : P.height = treeHeight P.indexCountLog2 := rfl
    rw [Pyramid.bit, Pyramid.block]
    simp only [Pyramid.withStore]
    rw [blockAt_filledStore hi (by omega)]
    cases state with
    | false => simp
    | true =>
      by_cases hmask : (P.indexCountLog2 - 4) % 4 ≠ 0 ∧ i + 1 = P.height
      · -- a partly used top block
        have he : i = P.height - 1 := by omega
        have hx16 : x < 16 := by rwa [he, P.rowLength_top] at hx
        have hactive : P.indexCountLog2 - 4 * i = (P.indexCountLog2 - 4) % 4 := by
          rw [he, hheight, treeHeight]
          omega
        rw [if_pos ⟨rfl, hmask⟩, getLsbD_lowBits hmod, hactive, Nat.mod_eq_of_lt hx16]
        simp
      · -- every bit has an index below it
        have hlt : x < 2 ^ (P.indexCountLog2 - 4 * i) := by
          by_cases htop : i + 1 < P.height
          · rwa [← sixteen_mul_rowLength (P.four_mul_succ_le htop)]
          · have he : i = P.height - 1 := by omega
            have hfull : P.indexCountLog2 - 4 * i = 4 := by
              rw [he, hheight, treeHeight]
              omega
            rw [he, P.rowLength_top] at hx
            rw [hfull]
            omega
        have hnot : ¬(true = true ∧ (P.indexCountLog2 - 4) % 4 ≠ 0 ∧
            i + 1 = treeHeight P.indexCountLog2) := fun h => hmask h.2
        rw [if_neg hnot, if_pos rfl, getLsbD_ones hmod]
        simp [hlt]

/-- `idxpyr_make` lays out a pyramid in which every index has the state `stateInit`. -/
theorem idxpyrMake_ok {n : ℕ} (h4 : 4 ≤ n) (h60 : n ≤ 60) (stateInit : Bool) :
    ∃ store h, idxpyrMake n stateInit =
        .ok (Pyramid.mk n stateInit store h4 h60 h).toIdxpyr ∧
      ∀ i < treeHeight n, ∀ x < 16 * rowLength n i,
        (Pyramid.mk n stateInit store h4 h60 h).bit i x =
          (stateInit && decide (x < 2 ^ (n - 4 * i))) := by
  let P : Pyramid := ⟨n, stateInit, List.replicate (rowStart n (treeHeight n)) 0#16, h4, h60,
    by simp⟩
  have htop : rowStart n (treeHeight n - 1) + 1 = P.store.length := P.rowStart_top
  have hlen : P.store.length = rowStart n (treeHeight n) := P.length_store
  have hsmall := P.store_length_lt
  have hmax : max n blockBitCountLog2 = n := max_eq_left h4
  have hshl : sizeShl 1 n = .ok (2 ^ n) := sizeShl_one (by simp only [sizeBits]; omega)
  have hblocks : sizeAdd (rowStart n (treeHeight n - 1)) 1 = P.store.length := by
    rw [sizeAdd_of_lt (by simp only [sizeBits]; omega), htop]
  have hbytes : sizeMul P.store.length sizeofBlock = 2 * P.store.length := by
    rw [sizeMul_of_lt (by simp only [sizeBits, sizeofBlock]; omega), sizeofBlock, Nat.mul_comm]
  have hrow0 : writeAt (rowTable n (treeHeight n)) 0 0 = .ok (rowTable n (treeHeight n)) := by
    rw [writeAt_of_lt (by simp), set_rowTable_zero]
  have hhalf : 2 * P.store.length / sizeofBlock = P.store.length := by
    simp only [sizeofBlock]
    omega
  have hstore : List.replicate P.store.length 0#16 = P.store := by rw [hlen]
  have hmake : idxpyrMake n stateInit = idxpyrSetAll P.toIdxpyr stateInit := by
    simp only [idxpyrMake, hmax, getHeight_ok h4 (by omega : n ≤ 63), ok_bind, hshl,
      makeRowOffsets_all h4 h60, hblocks, hbytes, hrow0, hhalf, hstore]
    rfl
  obtain ⟨store, h, hset, hbits⟩ := idxpyrSetAll_ok P stateInit
  exact ⟨store, h.trans P.length_store, hmake.trans hset, hbits⟩

/-! ### `INDEX_EXISTS()` -/

lemma sizeShl_indexCount (P : Pyramid) :
    sizeShl 1 P.toIdxpyr.indexCountLog2 = .ok (2 ^ P.indexCountLog2) := by
  have h60 := P.le_sixty
  apply sizeShl_one
  simp only [Pyramid.toIdxpyr, sizeBits]
  omega

lemma assertIndexExists_ok (P : Pyramid) {index : ℕ} (hindex : index < 2 ^ P.indexCountLog2) :
    assertIndexExists P.toIdxpyr index = .ok () := by
  simp only [assertIndexExists, sizeShl_indexCount, ok_bind, require_of hindex]

lemma assertIndexExists_fault (P : Pyramid) {index : ℕ}
    (hindex : ¬index < 2 ^ P.indexCountLog2) :
    assertIndexExists P.toIdxpyr index = .error .assertFailed := by
  simp only [assertIndexExists, sizeShl_indexCount, ok_bind, require_of_not hindex]

/-! ### `idxpyr_set` -/

/-- What `idxpyr_set` writes on level `k` of the path of `index`: the state itself on the lowest
level, and above it whether the block it left one level down is non-zero. -/
def pathState (n : ℕ) (store : List IdxpyrBlock) (index : ℕ) (state : Bool) : ℕ → Bool
  | 0 => state
  | k + 1 => blockAt n store k (index / 16 ^ (k + 1)) != 0#16

lemma div_pow_succ (index k : ℕ) : index / 16 ^ (k + 1) = index / 16 ^ k / 16 := by
  rw [pow_succ, Nat.div_div_eq_div_mul]

lemma path_lt_rowLength {n index i : ℕ} (h : index < 2 ^ n) :
    index / 16 ^ (i + 1) < rowLength n i := by
  have hpow : (16 : ℕ) ^ (i + 1) = 2 ^ (4 * (i + 1)) := by rw [pow_mul]; norm_num
  rw [rowLength, hpow]
  by_cases hn : 4 * (i + 1) ≤ n
  · rw [Nat.div_lt_iff_lt_mul (Nat.two_pow_pos _), ← pow_add]
    rwa [Nat.sub_add_cancel hn]
  · have hle : 2 ^ n ≤ 2 ^ (4 * (i + 1)) := Nat.pow_le_pow_right Nat.two_pos (by omega)
    rw [Nat.div_eq_of_lt (by omega)]
    exact Nat.two_pow_pos _

lemma setLoop_succ {n h index i : ℕ} (hh : h ≤ 15) (hindex : index < 2 ^ n) (hi : i < h)
    (count : ℕ) (lower : Bool) {store : List IdxpyrBlock} (hlen : store.length = rowStart n h) :
    setLoop (rowTable n h) (count + 1) i (index / 16 ^ i) lower store =
      setLoop (rowTable n h) count (i + 1) (index / 16 ^ (i + 1))
        (updateBit (blockAt n store i (index / 16 ^ (i + 1))) (index / 16 ^ i % 16) lower != 0#16)
        (store.set (rowStart n i + index / 16 ^ (i + 1))
          (updateBit (blockAt n store i (index / 16 ^ (i + 1))) (index / 16 ^ i % 16) lower)) := by
  have hj := path_lt_rowLength (i := i) hindex
  have hlt : rowStart n i + index / 16 ^ (i + 1) < store.length :=
    hlen ▸ extentStart_add_lt hi hj
  have hand : index / 16 ^ i &&& (blockBitCount - 1) = index / 16 ^ i % 16 :=
    Nat.and_two_pow_sub_one_eq_mod _ 4
  have hshr : (index / 16 ^ i) >>> blockBitCountLog2 = index / 16 ^ (i + 1) := by
    rw [Nat.shiftRight_eq_div_pow, div_pow_succ]
    rfl
  have hread : readAt store (rowStart n i + index / 16 ^ (i + 1)) =
      .ok (blockAt n store i (index / 16 ^ (i + 1))) := readAt_getD hlt _
  simp only [setLoop, hand, hshr, readAt_rowTable hi hh, ok_bind, hread, writeAt_of_lt hlt]

/-- The loop of `idxpyr_set` from level `i` on: it updates one bit of one block of every level
and leaves the levels below alone. -/
lemma setLoop_ok {n h index : ℕ} (hh : h ≤ 15) (hindex : index < 2 ^ n) (state : Bool)
    (count i : ℕ) (hi : i + count = h) (lower : Bool) (store : List IdxpyrBlock)
    (hlen : store.length = rowStart n h) :
    ∃ store', setLoop (rowTable n h) count i (index / 16 ^ i) lower store = .ok store' ∧
      store'.length = store.length ∧
      (∀ k < i, ∀ j < rowLength n k, blockAt n store' k j = blockAt n store k j) ∧
      ∀ k < h, i ≤ k → ∀ j < rowLength n k, blockAt n store' k j =
        if j = index / 16 ^ (k + 1) then
          updateBit (blockAt n store k j) (index / 16 ^ k % 16)
            (if k = i then lower else pathState n store' index state k)
        else blockAt n store k j := by
  induction count generalizing i lower store with
  | zero =>
    refine ⟨store, rfl, rfl, fun _ _ _ _ => rfl, fun k hk hik => ?_⟩
    omega
  | succ count ih =>
    have hih : i < h := by omega
    have hj := path_lt_rowLength (i := i) hindex
    let b := updateBit (blockAt n store i (index / 16 ^ (i + 1))) (index / 16 ^ i % 16) lower
    let store₁ := store.set (rowStart n i + index / 16 ^ (i + 1)) b
    have hlen₁ : store₁.length = rowStart n h := by simpa [store₁] using hlen
    have hset (k j : ℕ) (hkj : j < rowLength n k) : blockAt n store₁ k j =
        if k = i ∧ j = index / 16 ^ (i + 1) then b else blockAt n store k j :=
      blockAt_set hlen hih hj hkj b
    obtain ⟨store', hloop, hlen', hlow, hhigh⟩ := ih (i + 1) (by omega) (b != 0#16) store₁ hlen₁
    have hfront (k : ℕ) (hk : k < i) (j : ℕ) (hkj : j < rowLength n k) :
        blockAt n store' k j = blockAt n store k j := by
      rw [hlow k (by omega) j hkj, hset k j hkj, if_neg (by omega)]
    have hhere (j : ℕ) (hkj : j < rowLength n i) : blockAt n store' i j =
        if j = index / 16 ^ (i + 1) then b else blockAt n store i j := by
      rw [hlow i (by omega) j hkj, hset i j hkj]
      simp
    refine ⟨store', ?_, by simpa [store₁] using hlen', hfront, ?_⟩
    · rw [setLoop_succ hh hindex hih count lower hlen]
      exact hloop
    · intro k hk hik j hkj
      by_cases he : k = i
      · subst he
        rw [hhere j hkj, if_pos rfl]
        by_cases hpath : j = index / 16 ^ (k + 1)
        · rw [if_pos hpath, if_pos hpath, hpath]
        · rw [if_neg hpath, if_neg hpath]
      · have hpath : (if k = i + 1 then (b != 0#16) else pathState n store' index state k) =
            pathState n store' index state k := by
          by_cases hnext : k = i + 1
          · subst hnext
            rw [if_pos rfl, pathState, hhere _ hj, if_pos rfl]
          · rw [if_neg hnext]
        have hsame : blockAt n store₁ k j = blockAt n store k j := by
          rw [hset k j hkj, if_neg (by omega)]
        rw [hhigh k hk (by omega) j hkj, hpath, hsame, if_neg he]

/-- `idxpyr_set` on any contents: on every level the bit on the path of the index becomes
`pathState`, and no other bit changes. -/
theorem idxpyrSet_ok (P : Pyramid) {index : ℕ} (hindex : index < 2 ^ P.indexCountLog2)
    (state : Bool) :
    ∃ store h, idxpyrSet P.toIdxpyr index state = .ok (P.withStore store h).toIdxpyr ∧
      ∀ i < P.height, ∀ x < 16 * rowLength P.indexCountLog2 i,
        (P.withStore store h).bit i x =
          if x = index / 16 ^ i then pathState P.indexCountLog2 store index state i
          else P.bit i x := by
  obtain ⟨store, hloop, hlen, -, hblocks⟩ := setLoop_ok P.height_le hindex state P.height 0
    (Nat.zero_add _) state P.store P.length_store
  refine ⟨store, hlen, ?_, ?_⟩
  · rw [Pyramid.toIdxpyr_withStore]
    simp only [pow_zero, Nat.div_one] at hloop
    simp only [idxpyrSet, assertIndexExists_ok P hindex, ok_bind]
    simp only [Pyramid.toIdxpyr, hloop, ok_bind, pure_eq_ok]
  · intro i hi x hx
    have hstate : (if i = 0 then state else pathState P.indexCountLog2 store index state i) =
        pathState P.indexCountLog2 store index state i := by
      cases i <;> rfl
    rw [Pyramid.bit, Pyramid.block, Pyramid.bit, Pyramid.block]
    simp only [Pyramid.withStore]
    rw [hblocks i hi (Nat.zero_le i) (x / 16) (by omega), hstate]
    have hsplit := div_pow_succ index i
    by_cases hx' : x / 16 = index / 16 ^ (i + 1)
    · rw [if_pos hx', getLsbD_updateBit (Nat.mod_lt _ (by decide)) (Nat.mod_lt _ (by decide))]
      by_cases hmod : x % 16 = index / 16 ^ i % 16
      · rw [if_pos hmod, if_pos (by omega)]
      · rw [if_neg hmod, if_neg (by rintro rfl; exact hmod rfl)]
    · rw [if_neg hx', if_neg (by rintro rfl; exact hx' hsplit.symm)]

theorem idxpyrGet_ok (P : Pyramid) {index : ℕ} (hindex : index < 2 ^ P.indexCountLog2) :
    idxpyrGet P.toIdxpyr index = .ok (P.bit 0 index) := by
  have hand : index &&& (blockBitCount - 1) = index % 16 := Nat.and_two_pow_sub_one_eq_mod _ 4
  have hshr : index >>> blockBitCountLog2 = index / 16 := Nat.shiftRight_eq_div_pow _ _
  have hj : index / 16 < rowLength P.indexCountLog2 0 := by
    have h := path_lt_rowLength (i := 0) hindex
    simpa using h
  have hread := P.readAt_block P.height_pos hj
  simp only [idxpyrGet, assertIndexExists_ok P hindex, ok_bind, hand, hshr,
    P.readAt_rows P.height_pos, hread, pure_eq_ok]
  congr 1
  have hmod : index % 16 < 16 := Nat.mod_lt _ (by decide)
  rw [Bool.eq_iff_iff, bne_zero_iff]
  constructor
  · rintro ⟨c, hc, hbit⟩
    rw [BitVec.getLsbD_and, BitVec.getLsbD_shiftLeft, BitVec.getLsbD_one] at hbit
    simp only [Bool.and_eq_true, Bool.not_eq_true', decide_eq_true_eq, decide_eq_false_iff_not]
      at hbit
    have he : c = index % 16 := by omega
    rw [Pyramid.bit, ← he]
    exact hbit.1
  · intro hbit
    refine ⟨index % 16, hmod, ?_⟩
    rw [BitVec.getLsbD_and, BitVec.getLsbD_shiftLeft, BitVec.getLsbD_one]
    simpa [hmod, Pyramid.bit] using hbit

/-! ### `idxpyr_increaseSize` -/

lemma two_pow_div_pow {n i : ℕ} (h : 4 * (i + 1) ≤ n) : 2 ^ n / 16 ^ (i + 1) = rowLength n i := by
  have hpow : (16 : ℕ) ^ (i + 1) = 2 ^ (4 * (i + 1)) := by rw [pow_mul]; norm_num
  rw [hpow, Nat.pow_div h (by decide), rowLength]

lemma two_pow_div_pow_zero {n i : ℕ} (h : n < 4 * (i + 1)) : 2 ^ n / 16 ^ (i + 1) = 0 := by
  have hpow : (16 : ℕ) ^ (i + 1) = 2 ^ (4 * (i + 1)) := by rw [pow_mul]; norm_num
  rw [hpow, Nat.div_eq_of_lt (Nat.pow_lt_pow_right Nat.one_lt_two h)]

lemma copied_le (n i : ℕ) :
    2 ^ n / 16 ^ (i + 1) ≤ rowLength n i ∧ 2 ^ n / 16 ^ (i + 1) ≤ rowLength (n + 1) i := by
  by_cases h : 4 * (i + 1) ≤ n
  · rw [two_pow_div_pow h]
    exact ⟨le_rfl, Nat.pow_le_pow_right Nat.two_pos (by omega)⟩
  · rw [two_pow_div_pow_zero (by omega)]
    exact ⟨Nat.zero_le _, Nat.zero_le _⟩

lemma blockAt_copy {n n' i m : ℕ} {dst src : List IdxpyrBlock} (hm : m ≤ rowLength n i)
    (hdst : rowStart n i + m ≤ dst.length) (hsrc : rowStart n' i + m ≤ src.length) {k j : ℕ}
    (hj : j < rowLength n k) :
    blockAt n (dst.take (rowStart n i) ++ (src.drop (rowStart n' i)).take m ++
        dst.drop (rowStart n i + m)) k j =
      if k = i ∧ j < m then blockAt n' src k j else blockAt n dst k j := by
  rw [blockAt, List.getD_eq_getElem?_getD, getElem?_copy hdst hsrc]
  by_cases he : k = i ∧ j < m
  · obtain ⟨rfl, hjm⟩ := he
    rw [if_pos (by omega), if_pos ⟨rfl, hjm⟩, Nat.add_sub_cancel_left]
    rw [blockAt, List.getD_eq_getElem?_getD]
  · have hout : ¬(rowStart n i ≤ rowStart n k + j ∧ rowStart n k + j < rowStart n i + m) := by
      rintro ⟨hge, hlt⟩
      have hpos : rowStart n k + j = rowStart n i + (rowStart n k + j - rowStart n i) := by omega
      obtain ⟨rfl, hje⟩ := extentStart_add_inj hj (by omega) hpos
      exact he ⟨rfl, by omega⟩
    rw [if_neg he, if_neg hout, blockAt, List.getD_eq_getElem?_getD]

/-- The copying loop of `idxpyr_increaseSize` from level `i` on: of every row it replaces the
part that the smaller pyramid has, and nothing of its top row if that is only partly used. -/
lemma copyRows_ok (P : Pyramid) {h : ℕ} (hh : P.height ≤ h) (hh15 : h ≤ 15) (count i : ℕ)
    (hi : i + count = P.height) (store : List IdxpyrBlock)
    (hlen : store.length = rowStart (P.indexCountLog2 + 1) h) :
    ∃ store', copyRows P.toIdxpyr (rowTable (P.indexCountLog2 + 1) h) count i
        (2 ^ P.indexCountLog2 / 16 ^ i) store = .ok store' ∧
      store'.length = store.length ∧
      ∀ k < h, ∀ j < rowLength (P.indexCountLog2 + 1) k,
        blockAt (P.indexCountLog2 + 1) store' k j =
          if i ≤ k ∧ k < P.height ∧ j < 2 ^ P.indexCountLog2 / 16 ^ (k + 1) then P.block k j
          else blockAt (P.indexCountLog2 + 1) store k j := by
  induction count generalizing i store with
  | zero =>
    refine ⟨store, rfl, rfl, fun k hk j hj => ?_⟩
    rw [if_neg (by omega)]
  | succ count ih =>
    obtain ⟨hsmall, hbig⟩ := copied_le P.indexCountLog2 i
    have hdst : rowStart (P.indexCountLog2 + 1) i + 2 ^ P.indexCountLog2 / 16 ^ (i + 1) ≤
        store.length := by
      rw [hlen]
      exact extentStart_add_le (by omega) hbig
    have hsrc : rowStart P.indexCountLog2 i + 2 ^ P.indexCountLog2 / 16 ^ (i + 1) ≤
        P.store.length := by
      have hP : P.store.length = rowStart P.indexCountLog2 P.height := P.length_store
      rw [hP]
      exact extentStart_add_le (by omega) hsmall
    have hshr : (2 ^ P.indexCountLog2 / 16 ^ i) >>> blockBitCountLog2 =
        2 ^ P.indexCountLog2 / 16 ^ (i + 1) := by
      rw [Nat.shiftRight_eq_div_pow, div_pow_succ]
      rfl
    have hcopy : copyAt store (rowStart (P.indexCountLog2 + 1) i) P.toIdxpyr.store
        (rowStart P.indexCountLog2 i) (2 ^ P.indexCountLog2 / 16 ^ (i + 1)) = _ :=
      copyAt_of_le hdst hsrc
    obtain ⟨store', hloop, hlen', hblocks⟩ := ih (i + 1) (by omega) _
      ((length_copy hdst hsrc).trans hlen)
    refine ⟨store', ?_, hlen'.trans (length_copy hdst hsrc), ?_⟩
    · simp only [copyRows, hshr, readAt_rowTable (show i < h by omega) hh15,
        P.readAt_rows (show i < P.height by omega), ok_bind]
      rw [hcopy, ok_bind]
      exact hloop
    · intro k hk j hj
      rw [hblocks k hk j hj, blockAt_copy hbig hdst hsrc hj]
      by_cases he : k = i
      · subst he
        rw [if_neg (by omega)]
        by_cases hjm : j < 2 ^ P.indexCountLog2 / 16 ^ (k + 1)
        · rw [if_pos ⟨rfl, hjm⟩, if_pos ⟨le_rfl, by omega, hjm⟩]
          rfl
        · rw [if_neg (by tauto), if_neg (by tauto)]
      · have hiff : (i + 1 ≤ k ∧ k < P.height ∧ j < 2 ^ P.indexCountLog2 / 16 ^ (k + 1)) ↔
            (i ≤ k ∧ k < P.height ∧ j < 2 ^ P.indexCountLog2 / 16 ^ (k + 1)) := by omega
        have hother : ¬(k = i ∧ j < 2 ^ P.indexCountLog2 / 16 ^ (i + 1)) := fun hki => he hki.1
        simp only [hiff, if_neg hother]

/-- The top block that `idxpyr_increaseSize` writes: `fresh` is the top block of the new pyramid
and `old` that of the old one. -/
def grownTopBlock (n : ℕ) (fresh old : IdxpyrBlock) : IdxpyrBlock :=
  (fresh &&& ~~~BitVec.ofNat 16 (2 ^ 2 ^ ((n - 4) % 4) - 1)) |||
    (if (n - 4) % 4 = 0 then (if old ≠ 0#16 then 1#16 else 0#16) else old)

/-- `idxpyr_increaseSize` patches the top block of the pyramid `M` it makes after the copying loop
has left `store`. -/
lemma idxpyrIncreaseSize_eq {P M : Pyramid} {store : List IdxpyrBlock}
    (hmake : idxpyrMake (P.indexCountLog2 + 1) P.stateInit = .ok M.toIdxpyr)
    (hcopy : copyRows P.toIdxpyr M.toIdxpyr.rows P.height 0 (2 ^ P.indexCountLog2) M.store =
      .ok store) (hlen : store.length = M.store.length) :
    idxpyrIncreaseSize P.toIdxpyr = .ok { M.toIdxpyr with
      store := store.set (rowStart M.indexCountLog2 (M.height - 1))
        (grownTopBlock P.indexCountLog2 (M.block (M.height - 1) 0) (P.block (P.height - 1) 0)) } := by
  have hposM := M.height_pos
  have hpos := P.height_pos
  have hreadM : readAt M.toIdxpyr.rows (M.toIdxpyr.height - 1) =
      .ok (rowStart M.indexCountLog2 (M.height - 1)) :=
    M.readAt_rows (i := M.height - 1) (by omega)
  have hbkp : readAt M.toIdxpyr.store (rowStart M.indexCountLog2 (M.height - 1)) =
      .ok (M.block (M.height - 1) 0) := M.readAt_block (by omega) (rowLength_pos _ _)
  have hreadP : readAt P.toIdxpyr.rows (P.toIdxpyr.height - 1) =
      .ok (rowStart P.indexCountLog2 (P.height - 1)) :=
    P.readAt_rows (i := P.height - 1) (by omega)
  have htopP : readAt P.toIdxpyr.store (rowStart P.indexCountLog2 (P.height - 1)) =
      .ok (P.block (P.height - 1) 0) := P.readAt_block (by omega) (rowLength_pos _ _)
  have hmask := sizeShl_topMask (Nat.mod_lt (P.indexCountLog2 - 4) (show 0 < 4 by decide))
  have hcond : (1 <<< ((P.indexCountLog2 - 4) % 4) = 1) ↔ (P.indexCountLog2 - 4) % 4 = 0 := by
    rw [Nat.one_shiftLeft, Nat.pow_eq_one]
    omega
  have hwrite (b : IdxpyrBlock) : writeAt store (rowStart M.indexCountLog2 (M.height - 1)) b =
      .ok (store.set (rowStart M.indexCountLog2 (M.height - 1)) b) := by
    apply writeAt_of_lt
    have hlast := M.rowStart_top
    omega
  have hmake' : idxpyrMake (P.toIdxpyr.indexCountLog2 + 1) P.toIdxpyr.stateInit =
      .ok M.toIdxpyr := hmake
  have hcopy' : copyRows P.toIdxpyr M.toIdxpyr.rows P.toIdxpyr.height 0 (2 ^ P.indexCountLog2)
      M.toIdxpyr.store = .ok store := hcopy
  have hlog2 : P.toIdxpyr.indexCountLog2 = P.indexCountLog2 := rfl
  simp only [idxpyrIncreaseSize, hmake', ok_bind, hreadM, hbkp, sizeShl_indexCount, hcopy', hreadP,
    htopP]
  simp only [hlog2, blockBitCountLog2_eq, hmask, ok_bind, hcond, hwrite]
  rfl

/-- `idxpyr_increaseSize` on any contents: it makes a pyramid of twice the size, takes every row
below its top row over from the old pyramid as far as that has it, and merges the top blocks. -/
theorem idxpyrIncreaseSize_ok (P : Pyramid) (h60 : P.indexCountLog2 + 1 ≤ 60) :
    ∃ M Q : Pyramid,
      M.indexCountLog2 = P.indexCountLog2 + 1 ∧ M.stateInit = P.stateInit ∧
      Q.indexCountLog2 = P.indexCountLog2 + 1 ∧ Q.stateInit = P.stateInit ∧
      idxpyrMake (P.indexCountLog2 + 1) P.stateInit = .ok M.toIdxpyr ∧
      idxpyrIncreaseSize P.toIdxpyr = .ok Q.toIdxpyr ∧
      (∀ i < M.height, ∀ x < 16 * rowLength (P.indexCountLog2 + 1) i,
        M.bit i x = (P.stateInit && decide (x < 2 ^ (P.indexCountLog2 + 1 - 4 * i)))) ∧
      (∀ i, i + 1 < M.height → ∀ j < rowLength (P.indexCountLog2 + 1) i,
        Q.block i j = if j < rowLength P.indexCountLog2 i then P.block i j else M.block i j) ∧
      Q.block (M.height - 1) 0 =
        grownTopBlock P.indexCountLog2 (M.block (M.height - 1) 0) (P.block (P.height - 1) 0) := by
  have h4 := P.four_le
  obtain ⟨storeM, hlenM, hmake, hbitsM⟩ :=
    idxpyrMake_ok (show 4 ≤ P.indexCountLog2 + 1 by omega) h60 P.stateInit
  let M : Pyramid := ⟨P.indexCountLog2 + 1, P.stateInit, storeM, by omega, h60, hlenM⟩
  have hheight : P.height ≤ M.height ∧ M.height - 1 ≤ P.height := by
    simp only [Pyramid.height, treeHeight, M]
    omega
  have hposM := M.height_pos
  obtain ⟨store, hcopy, hlen, hblocks⟩ := copyRows_ok P hheight.1 M.height_le P.height 0
    (Nat.zero_add _) storeM hlenM
  rw [pow_zero, Nat.div_one] at hcopy
  let top := grownTopBlock P.indexCountLog2 (M.block (M.height - 1) 0) (P.block (P.height - 1) 0)
  let Q := M.withStore (store.set (rowStart (P.indexCountLog2 + 1) (M.height - 1)) top)
    ((List.length_set ..).trans hlen)
  have hone : 0 < rowLength (P.indexCountLog2 + 1) (M.height - 1) := rowLength_pos _ _
  have hset (i j : ℕ) (hj : j < rowLength (P.indexCountLog2 + 1) i) : Q.block i j =
      if i = M.height - 1 ∧ j = 0 then top else blockAt (P.indexCountLog2 + 1) store i j :=
    blockAt_set (hlen.trans hlenM) (show M.height - 1 < M.height by omega) hone hj top
  refine ⟨M, Q, rfl, rfl, rfl, rfl, hmake, ?_, hbitsM, ?_, ?_⟩
  · rw [idxpyrIncreaseSize_eq hmake hcopy hlen, Pyramid.toIdxpyr_withStore]
  · intro i hi j hj
    have h4i : 4 * (i + 1) ≤ P.indexCountLog2 := by
      simp only [M, Pyramid.height, treeHeight] at hi
      omega
    have hiP : i < P.height := by omega
    rw [hset i j hj, if_neg (by omega), hblocks i (by omega) j hj, two_pow_div_pow h4i]
    simp only [Nat.zero_le, hiP, true_and]
    rfl
  · rw [hset _ _ hone, if_pos ⟨rfl, rfl⟩]

end Utilc
