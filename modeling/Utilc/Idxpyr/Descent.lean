import Utilc.CLib.LowestBit
import Utilc.Idxpyr.Represents

/-!
# The descent of `idxpyr_getFirst`

In a pyramid that represents an array the descent follows the lowest bit of one non-zero block a
level and ends at the first true entry.
-/

namespace Utilc
open CLib

lemma leastBitIndex_twoPow : ∀ k < 32, leastBitIndex (BitVec.twoPow 32 k) = k := by
  decide

/-- `countTrailingZeros` of a non-zero block is the position of its lowest set bit. -/
lemma countTrailingZeros_block {block : IdxpyrBlock} (h : block ≠ 0#16) :
    ∃ c : ℕ, c < 16 ∧ countTrailingZeros (block.setWidth 32) = (c : ℤ) ∧
      IsLeast {i | block.getLsbD i = true} c := by
  have hne : block.setWidth 32 ≠ 0#32 := by
    intro h0
    apply h
    apply BitVec.eq_of_getLsbD_eq
    intro i hi
    have hbit := congrArg (fun v : BitVec 32 => v.getLsbD i) h0
    have hi32 : i < 32 := by omega
    simpa [BitVec.getLsbD_setWidth, hi32] using hbit
  obtain ⟨c, hc, hlow, hleast⟩ := and_not_pred_eq_twoPow hne
  have hsame : {i | (block.setWidth 32).getLsbD i = true} = {i | block.getLsbD i = true} := by
    ext i
    simp only [Set.mem_ofPred_eq, BitVec.getLsbD_setWidth]
    constructor
    · intro hi
      exact (Bool.and_eq_true _ _ ▸ hi).2
    · intro hi
      have hi16 := BitVec.lt_of_getLsbD hi
      simp [hi, show i < 32 by omega]
  rw [hsame] at hleast
  refine ⟨c, BitVec.lt_of_getLsbD hleast.1, ?_, hleast⟩
  rw [countTrailingZeros, if_neg hne, hlow, leastBitIndex_twoPow c hc]

/-- A round of the descent reads a block and goes to the bit of its lowest mark. -/
lemma getFirstRound_ok {P : Pyramid} {i l : ℕ} (hi : i < P.height)
    (hl : l < rowLength P.indexCountLog2 i) (hblock : P.block i l ≠ 0#16) :
    ∃ c, getFirstRound P.toIdxpyr i l = .ok (P.block i l, 16 * l + c) ∧
      IsLeast {c | c < 16 ∧ P.bit i (16 * l + c) = true} c := by
  obtain ⟨c, hc, hctz, hleast⟩ := countTrailingZeros_block hblock
  have hlarge : rowLength P.indexCountLog2 i ≤ 2 ^ 56 := by
    have h60 := P.le_sixty
    exact Nat.pow_le_pow_right Nat.two_pos (by omega)
  have hshl : sizeShl l blockBitCountLog2 = .ok (16 * l) := by
    rw [sizeShl, if_pos (by decide), blockBitCountLog2_eq, Nat.mod_eq_of_lt
      (by simp only [sizeBits]; omega), Nat.mul_comm]
    norm_num
  have hadd : sizeAdd (16 * l) c = 16 * l + c := sizeAdd_of_lt (by simp only [sizeBits]; omega)
  have hunsigned : toUnsigned 32 (c : ℤ) = c := toUnsigned_natCast (by omega)
  have hbit {k : ℕ} (hk : k < 16) : P.bit i (16 * l + k) = (P.block i l).getLsbD k := by
    rw [Pyramid.bit, Nat.mul_add_div (by decide), Nat.div_eq_of_lt hk, Nat.add_zero,
      Nat.mul_add_mod, Nat.mod_eq_of_lt hk]
  refine ⟨c, ?_, ⟨hc, ?_⟩, ?_⟩
  · simp only [getFirstRound, P.readAt_rows hi, ok_bind, P.readAt_block hi hl, hctz, hunsigned,
      hshl, hadd, pure_eq_ok]
  · rw [hbit hc]
    exact hleast.1
  · rintro k ⟨hk, hkbit⟩
    rw [hbit hk] at hkbit
    exact hleast.2 hkbit

/-- The blocks the rounds of the descent read from level `i - 1` down. -/
def getFirstBlocks (pyr : Idxpyr) : ℕ → ℕ → Checked (List IdxpyrBlock)
  | 0, _ => .ok []
  | i + 1, lowerBlockIndex => do
    let round ← getFirstRound pyr i lowerBlockIndex
    let blocks ← getFirstBlocks pyr i round.2
    return round.1 :: blocks

/-- From the least cell of a level that is on, the descent reads non-zero blocks only and ends at
the first true entry. -/
theorem getFirstLoop_ok {P : Pyramid} {A : BoolArray} (hA : Represents P A) (i l : ℕ)
    (hi : i < P.height) (hl : IsLeast {x | Summary 16 A.trues i x} l) :
    ∃ r blocks, getFirstLoop P.toIdxpyr i l = .ok r ∧ IsLeast A.trues r ∧
      getFirstBlocks P.toIdxpyr i l = .ok blocks ∧ ∀ block ∈ blocks, block ≠ 0#16 := by
  induction i generalizing l with
  | zero =>
    refine ⟨l, [], rfl, ?_, rfl, by simp⟩
    simpa using hl
  | succ i ih =>
    have hlrow : l < rowLength P.indexCountLog2 i := by
      have hcell := trues_summary_lt (hA.log2 ▸ P.four_mul_succ_le hi) hl.1
      rwa [hA.log2] at hcell
    have hbits := hA.bits i (by omega)
    have hne := (block_ne_zero_of_bits hbits hlrow).mpr hl.1
    obtain ⟨c, hround, hc⟩ := getFirstRound_ok (by omega) hlrow hne
    have hchild : IsLeast {c | c < 16 ∧ Summary 16 A.trues i (16 * l + c)} c := by
      refine ⟨⟨hc.1.1, (hbits _ ?_).mp hc.1.2⟩, ?_⟩
      · have hc16 := hc.1.1
        omega
      · rintro k ⟨hk, hsum⟩
        exact hc.2 ⟨hk, (hbits _ (by omega)).mpr hsum⟩
    obtain ⟨r, blocks, hloop, hr, hblocks, hnz⟩ :=
      ih (16 * l + c) (by omega) (isLeast_summary_child (by decide) hl hchild)
    refine ⟨r, P.block i l :: blocks, ?_, hr, ?_, ?_⟩
    · rw [getFirstLoop, hround, ok_bind]
      exact hloop
    · rw [getFirstBlocks, hround, ok_bind, hblocks]
      rfl
    · intro block hmem
      rcases List.mem_cons.mp hmem with rfl | hmem
      · exact hne
      · exact hnz block hmem

/-- The top block is non-zero exactly when some entry is true; its lowest bit is then the least
cell of the top level that is on. -/
lemma topBlock_spec {P : Pyramid} {A : BoolArray} (hA : Represents P A) :
    (P.block (P.height - 1) 0 = 0#16 → A.trues = ∅) ∧
      (P.block (P.height - 1) 0 ≠ 0#16 → ∃ c : ℕ, c < 16 ∧
        countTrailingZeros ((P.block (P.height - 1) 0).setWidth 32) = (c : ℤ) ∧
        IsLeast {x | Summary 16 A.trues (P.height - 1) x} c) := by
  have hpos := P.height_pos
  have htop : P.height - 1 < P.height := by omega
  have hcell {x : ℕ} (hx : Summary 16 A.trues (P.height - 1) x) : x < 16 := by
    have hlt := trues_summary_lt (hA.log2 ▸ P.four_mul_le_of_lt_height htop) hx
    have hle : 2 ^ (A.log2 - 4 * (P.height - 1)) ≤ 2 ^ 4 := by
      apply Nat.pow_le_pow_right Nat.two_pos
      rw [hA.log2]
      exact P.sub_le_four (by omega)
    omega
  have hbit {x : ℕ} (hx : x < 16) : (P.block (P.height - 1) 0).getLsbD x = true ↔
      Summary 16 A.trues (P.height - 1) x := by
    rw [← hA.bits _ htop x (by rw [P.rowLength_top]; omega), Pyramid.bit, Nat.div_eq_of_lt hx,
      Nat.mod_eq_of_lt hx]
  constructor
  · intro hzero
    by_contra hne
    obtain ⟨x, hx⟩ := (summary_nonempty (b := 16) (P.height - 1)).mpr
      (Set.nonempty_iff_ne_empty.mpr hne)
    have hon := (hbit (hcell hx)).mpr hx
    simp [hzero] at hon
  · intro hne
    obtain ⟨c, hc, hctz, hleast⟩ := countTrailingZeros_block hne
    refine ⟨c, hc, hctz, (hbit hc).mp hleast.1, ?_⟩
    intro x hx
    exact hleast.2 ((hbit (hcell hx)).mpr hx)

theorem represents_getFirst {P : Pyramid} {A : BoolArray} (hA : Represents P A) :
    idxpyrGetFirst P.toIdxpyr = .ok (A.first?.getD idxpyrEmpty) := by
  have hpos := P.height_pos
  have hrow : readAt P.toIdxpyr.rows (P.toIdxpyr.height - 1) =
      .ok (rowStart P.indexCountLog2 (P.height - 1)) :=
    P.readAt_rows (i := P.height - 1) (by omega)
  have hread : readAt P.toIdxpyr.store (rowStart P.indexCountLog2 (P.height - 1)) =
      .ok (P.block (P.height - 1) 0) := P.readAt_block (by omega) (rowLength_pos _ _)
  obtain ⟨hempty, hdescend⟩ := topBlock_spec hA
  simp only [idxpyrGetFirst, hrow, ok_bind, hread]
  by_cases hzero : P.block (P.height - 1) 0 = 0#16
  · rw [if_pos hzero, BoolArray.first?_eq_none (hempty hzero)]
    rfl
  · obtain ⟨c, hc, hctz, hleast⟩ := hdescend hzero
    obtain ⟨r, -, hloop, hr, -, -⟩ := getFirstLoop_ok hA (P.height - 1) c (by omega) hleast
    have hunsigned : toUnsigned sizeBits (c : ℤ) = c :=
      toUnsigned_natCast (by simp only [sizeBits]; omega)
    rw [if_neg hzero, hctz, hunsigned, BoolArray.first?_eq_some hr]
    exact hloop

end Utilc
