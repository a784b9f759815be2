import Utilc.Idxpyr.Refinement

/-!
# The summary rows of a pyramid

In every reachable pyramid a bit above the lowest row is set exactly when the block below it is
non-zero, so a descent from a non-zero top block reads non-zero blocks only.
-/

namespace Utilc
open CLib

/-- `pyr.rows[i][j]`. -/
def readBlock (pyr : Idxpyr) (i j : ℕ) : Checked IdxpyrBlock := do
  let row ← readAt pyr.rows i
  readAt pyr.store (row + j)

lemma readBlock_ok {P : Pyramid} {i j : ℕ} (hi : i < P.height)
    (hj : j < rowLength P.indexCountLog2 i) : readBlock P.toIdxpyr i j = .ok (P.block i j) := by
  rw [readBlock, P.readAt_rows hi, ok_bind]
  exact P.readAt_block hi hj

/-- The bits of the top row without a block below them are zero. -/
def UnusedClear (pyr : Idxpyr) : Prop :=
  2 ≤ pyr.height → ∃ topBlock, readBlock pyr (pyr.height - 1) 0 = .ok topBlock ∧
    ∀ x < 16, rowLength pyr.indexCountLog2 (pyr.height - 2) ≤ x → topBlock.getLsbD x = false

/-- Every summary bit tells whether its block is non-zero, the bits of the top row without a block
are zero, and the loop of `idxpyr_getFirst` finds a bit in every block it reads. -/
structure SummaryInvariant (pyr : Idxpyr) : Prop where
  summary : ∀ i, 1 ≤ i → i < pyr.height → ∀ j < rowLength pyr.indexCountLog2 (i - 1),
    ∃ below block, readBlock pyr (i - 1) j = .ok below ∧ readBlock pyr i (j / 16) = .ok block ∧
      (block.getLsbD (j % 16) = true ↔ below ≠ 0#16)
  unused : UnusedClear pyr
  descent : ∀ topBlock, readBlock pyr (pyr.height - 1) 0 = .ok topBlock → topBlock ≠ 0#16 →
    0 ≤ countTrailingZeros (topBlock.setWidth 32) ∧
    ∃ blocks result, getFirstBlocks pyr (pyr.height - 1)
        (toUnsigned sizeBits (countTrailingZeros (topBlock.setWidth 32))) = .ok blocks ∧
      getFirstLoop pyr (pyr.height - 1)
        (toUnsigned sizeBits (countTrailingZeros (topBlock.setWidth 32))) = .ok result ∧
      idxpyrGetFirst pyr = .ok result ∧
      ∀ block ∈ blocks, block ≠ 0#16 ∧ 0 ≤ countTrailingZeros (block.setWidth 32)

lemma countTrailingZeros_nonneg {block : IdxpyrBlock} (h : block ≠ 0#16) :
    0 ≤ countTrailingZeros (block.setWidth 32) := by
  obtain ⟨c, -, hctz, -⟩ := countTrailingZeros_block h
  rw [hctz]
  exact Int.natCast_nonneg c

lemma summary_bit_iff {P : Pyramid} {A : BoolArray} (hA : Represents P A) {i j : ℕ}
    (hi : i + 1 < P.height) (hj : j < rowLength P.indexCountLog2 i) :
    (P.block (i + 1) (j / 16)).getLsbD (j % 16) = true ↔ P.block i j ≠ 0#16 := by
  rw [block_ne_zero_of_bits (hA.bits i (by omega)) hj]
  exact hA.bits (i + 1) hi j (lt_sixteen_mul_rowLength hj)

lemma unused_bit {P : Pyramid} {A : BoolArray} (hA : Represents P A) (h2 : 2 ≤ P.height) {x : ℕ}
    (hx : x < 16) (hunused : rowLength P.indexCountLog2 (P.height - 2) ≤ x) :
    (P.block (P.height - 1) 0).getLsbD x = false := by
  have htop : P.height - 1 < P.height := by omega
  have hbit := hA.bits (P.height - 1) htop x (by rw [P.rowLength_top]; omega)
  rw [Pyramid.bit, Nat.div_eq_of_lt hx, Nat.mod_eq_of_lt hx] at hbit
  rw [← Bool.not_eq_true, hbit]
  intro hsum
  have hlt := trues_summary_lt (hA.log2 ▸ P.four_mul_le_of_lt_height htop) hsum
  have he : P.height - 2 + 1 = P.height - 1 := by omega
  rw [rowLength, he, ← hA.log2] at hunused
  omega

theorem Refines.summaryInvariant {pyr : Idxpyr} {A : BoolArray} (h : Refines pyr A) :
    SummaryInvariant pyr := by
  obtain ⟨P, rfl, hA⟩ := h
  have hpos := P.height_pos
  have hread : readBlock P.toIdxpyr (P.height - 1) 0 = .ok (P.block (P.height - 1) 0) :=
    readBlock_ok (by omega) (rowLength_pos _ _)
  refine ⟨?_, ?_, ?_⟩
  · intro i hi hih j hj
    obtain ⟨i, rfl⟩ : ∃ k, i = k + 1 := ⟨i - 1, by omega⟩
    change i + 1 < P.height at hih
    change j < rowLength P.indexCountLog2 i at hj
    have hpath : j / 16 < rowLength P.indexCountLog2 (i + 1) := by
      have hlt := lt_sixteen_mul_rowLength hj
      omega
    exact ⟨_, _, readBlock_ok (by omega) hj, readBlock_ok hih hpath, summary_bit_iff hA hih hj⟩
  · intro h2
    exact ⟨_, hread, fun x hx hunused => unused_bit hA h2 hx hunused⟩
  · intro topBlock htop hne
    have he : P.block (P.height - 1) 0 = topBlock := by
      change readBlock P.toIdxpyr (P.height - 1) 0 = _ at htop
      rw [hread] at htop
      exact Except.ok.inj htop
    subst he
    obtain ⟨c, hc, hctz, hleast⟩ := (topBlock_spec hA).2 hne
    obtain ⟨result, blocks, hloop, hresult, hblocks, hnz⟩ :=
      getFirstLoop_ok hA (P.height - 1) c (by omega) hleast
    have hunsigned : toUnsigned sizeBits (c : ℤ) = c :=
      toUnsigned_natCast (by simp only [sizeBits]; omega)
    have hfirst : idxpyrGetFirst P.toIdxpyr = .ok result := by
      rw [represents_getFirst hA, BoolArray.first?_eq_some hresult]
      rfl
    refine ⟨countTrailingZeros_nonneg hne, blocks, result, ?_, ?_, hfirst, ?_⟩
    · rw [hctz, hunsigned]
      exact hblocks
    · rw [hctz, hunsigned]
      exact hloop
    · intro block hmem
      exact ⟨hnz block hmem, countTrailingZeros_nonneg (hnz block hmem)⟩

theorem idxpyr_summary_invariant (pyr : Idxpyr) (h : IdxpyrReachable pyr) :
    SummaryInvariant pyr := by
  obtain ⟨A, hA⟩ := h.refines
  exact hA.summaryInvariant

theorem idxpyr_summary_invariant_grown :
    SummaryInvariant ⟨5, 2, [0, 2, 0, 0, 0, 0, 0, 0, 0, 0, 0, 0, 0, 0, 0], 6, false,
      [0x0008#16, 0x0000#16, 0x0001#16]⟩ :=
  idxpyr_summary_invariant _
    ⟨4, false, [.set 3 true, .increaseSize], [.void, .void], by decide⟩

end Utilc
