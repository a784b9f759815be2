import Utilc.Idxpyr.Batch
import Utilc.Idxpyr.Invariant

/-!
# Repairing a pyramid

Whatever a pyramid holds, once every index has been written only the bits of the top block that have no
block below them are left of it.
-/

namespace Utilc
open CLib

/-- Bits that no call for an index with a state in `last` writes. -/
def AgreeOffPaths (last : ℕ → Option Bool) (P M : Pyramid) : Prop :=
  ∀ i < P.height, ∀ x < 16 * rowLength P.indexCountLog2 i,
    ¬Summary 16 (written last) i x → P.bit i x = M.bit i x

/-! ### What a batch leaves of two pyramids -/

namespace Rewritten

variable {P M Q R : Pyramid} {last : ℕ → Option Bool}

lemma bit_of_offPath (h : Rewritten P last Q) {i x : ℕ} (hi : i < P.height)
    (hx : x < 16 * rowLength P.indexCountLog2 i) (hnot : ¬Summary 16 (written last) i x) :
    Q.bit i x = P.bit i x := by
  cases i with
  | zero =>
    have hnone : last x = none := by
      rw [summary_zero] at hnot
      exact not_not.mp hnot
    rw [h.entry x hx, hnone]
    rfl
  | succ i => exact h.offPath i hi x hx hnot

/-- Two pyramids become one exactly if they agree where the batch does not write. -/
theorem eq_iff (hlog2 : P.indexCountLog2 = M.indexCountLog2) (hinit : P.stateInit = M.stateInit)
    (hQ : Rewritten P last Q) (hR : Rewritten M last R) : Q = R ↔ AgreeOffPaths last P M := by
  have hheight : P.height = M.height := by rw [Pyramid.height, hlog2, Pyramid.height]
  constructor
  · intro he i hi x hx hnot
    have hbit := hR.bit_of_offPath (hheight ▸ hi) (hlog2 ▸ hx) hnot
    rw [← he, hQ.bit_of_offPath hi hx hnot] at hbit
    exact hbit
  · intro hoff
    have hheightQ : Q.height = P.height := by rw [Pyramid.height, hQ.log2, Pyramid.height]
    apply Pyramid.ext_bit
    · rw [hQ.log2, hlog2, hR.log2]
    · rw [hQ.stateInit, hinit, hR.stateInit]
    rw [hheightQ, hQ.log2]
    intro i
    induction i with
    | zero =>
      intro hi x hx
      cases hlast : last x with
      | none =>
        have hnot : ¬Summary 16 (written last) 0 x := by
          rw [summary_zero]
          exact not_not.mpr hlast
        rw [hQ.bit_of_offPath hi hx hnot, hR.bit_of_offPath (hheight ▸ hi) (hlog2 ▸ hx) hnot]
        exact hoff 0 hi x hx hnot
      | some state => rw [hQ.entry x hx, hR.entry x (hlog2 ▸ hx), hlast, Option.getD_some,
          Option.getD_some]
    | succ i ih =>
      intro hi x hx
      by_cases hpath : Summary 16 (written last) (i + 1) x
      · have hblock : Q.block i x = R.block i x := by
          have hlt := hQ.block_lt hpath
          rw [Pyramid.block_eq_iff_bit]
          intro c hc
          exact ih (by omega) _ (by omega)
        rw [hQ.onPath i hi x hpath, hR.onPath i (hheight ▸ hi) x hpath, hblock]
      · rw [hQ.bit_of_offPath hi hx hpath, hR.bit_of_offPath (hheight ▸ hi) (hlog2 ▸ hx) hpath]
        exact hoff (i + 1) hi x hx hpath

end Rewritten

/-! ### Batches that write every index -/

lemma mem_written_statesAfter (last : ℕ → Option Bool) (writes : List (ℕ × Bool)) (index : ℕ) :
    index ∈ written (statesAfter last writes) ↔ index ∈ writes.map Prod.fst ∨ index ∈ written last := by
  induction writes generalizing last with
  | nil => simp [statesAfter]
  | cons w writes ih =>
    have hrest := ih (Function.update last w.1 (some w.2))
    rw [Rewritten.mem_written_update] at hrest
    rw [or_left_comm] at hrest
    rw [List.map_cons, List.mem_cons, or_assoc]
    exact hrest

lemma written_lastState (writes : List (ℕ × Bool)) :
    written (lastState writes) = {index | index ∈ writes.map Prod.fst} := by
  ext index
  have hnone : index ∉ written fun _ => none := not_not.mpr rfl
  rw [lastState, mem_written_statesAfter, or_iff_left hnone]
  rfl

/-- On the other levels every bit has an index below it. -/
lemma unusedClear_iff (P : Pyramid) :
    UnusedClear P.toIdxpyr ↔ ∀ i < P.height, ∀ x < 16 * rowLength P.indexCountLog2 i,
      ¬x < 2 ^ (P.indexCountLog2 - 4 * i) → P.bit i x = false := by
  have hpos := P.height_pos
  have htop : readBlock P.toIdxpyr (P.height - 1) 0 = .ok (P.block (P.height - 1) 0) :=
    readBlock_ok (by omega) (rowLength_pos _ _)
  have hrow (h2 : 2 ≤ P.height) : rowLength P.indexCountLog2 (P.height - 2) =
      2 ^ (P.indexCountLog2 - 4 * (P.height - 1)) := by
    rw [rowLength]
    congr 3
    omega
  have hbit (x : ℕ) (hx : x < 16) : P.bit (P.height - 1) x = (P.block (P.height - 1) 0).getLsbD x := by
    rw [Pyramid.bit, Nat.div_eq_of_lt hx, Nat.mod_eq_of_lt hx]
  constructor
  · intro hclear i hi x hx hnot
    by_cases hlow : i + 1 < P.height
    · rw [sixteen_mul_rowLength (P.four_mul_succ_le hlow)] at hx
      exact absurd hx hnot
    · obtain rfl : i = P.height - 1 := by omega
      rw [P.rowLength_top] at hx
      by_cases h2 : 2 ≤ P.height
      · obtain ⟨topBlock, hread, hzero⟩ := hclear h2
        change readBlock P.toIdxpyr (P.height - 1) 0 = _ at hread
        rw [htop] at hread
        cases hread
        change ∀ x < 16, rowLength P.indexCountLog2 (P.height - 2) ≤ x → _ at hzero
        rw [hrow h2] at hzero
        rw [hbit x hx]
        exact hzero x hx (not_lt.mp hnot)
      · have hfour := P.four_le
        have hone : P.height - 1 = 0 := by omega
        have hpow : 2 ^ 4 ≤ 2 ^ P.indexCountLog2 := Nat.pow_le_pow_right Nat.two_pos hfour
        rw [hone, Nat.mul_zero, Nat.sub_zero] at hnot
        omega
  · intro hbits h2
    refine ⟨_, htop, fun x hx hge => ?_⟩
    change rowLength P.indexCountLog2 (P.height - 2) ≤ x at hge
    rw [hrow h2] at hge
    rw [← hbit x hx]
    apply hbits (P.height - 1) (by omega) x
    · rw [P.rowLength_top]
      omega
    · exact not_lt.mpr hge

lemma exists_made (P : Pyramid) :
    ∃ M : Pyramid, M.indexCountLog2 = P.indexCountLog2 ∧ M.stateInit = P.stateInit ∧
      idxpyrMake P.indexCountLog2 P.stateInit = .ok M.toIdxpyr ∧
      ∀ i < P.height, ∀ x < 16 * rowLength P.indexCountLog2 i,
        M.bit i x = (P.stateInit && decide (x < 2 ^ (P.indexCountLog2 - 4 * i))) := by
  obtain ⟨store, hlen, hmade, hbits⟩ := idxpyrMake_ok P.four_le P.le_sixty P.stateInit
  exact ⟨⟨P.indexCountLog2, P.stateInit, store, P.four_le, P.le_sixty, hlen⟩, rfl, rfl, hmade, hbits⟩

lemma toIdxpyr_inj {P Q : Pyramid} (h : P.toIdxpyr = Q.toIdxpyr) : P = Q := by
  obtain ⟨n, stateInit, store, _, _, _⟩ := P
  obtain ⟨n', stateInit', store', _, _, _⟩ := Q
  obtain rfl : n = n' := congrArg Idxpyr.indexCountLog2 h
  obtain rfl : stateInit = stateInit' := congrArg Idxpyr.stateInit h
  obtain rfl : store = store' := congrArg Idxpyr.store h
  rfl

/-- Writing every index makes a damaged pyramid what it makes of a new one, unless one of those bits
is set. -/
theorem setBatch_repairs {pyr made : Idxpyr} (h : LaidOut pyr)
    (hmake : idxpyrMake pyr.indexCountLog2 pyr.stateInit = .ok made) {writes : List (ℕ × Bool)}
    (hall : ∀ index, index ∈ writes.map Prod.fst ↔ index < 2 ^ pyr.indexCountLog2) :
    ∃ after fresh, setBatch pyr writes = .ok after ∧ setBatch made writes = .ok fresh ∧
      (after = fresh ↔ UnusedClear pyr) := by
  obtain ⟨P, rfl⟩ := h.exists_pyramid
  obtain ⟨M, hlog2, hinit, hmade, hbits⟩ := exists_made P
  change idxpyrMake P.indexCountLog2 P.stateInit = .ok made at hmake
  change ∀ index, _ ↔ index < 2 ^ P.indexCountLog2 at hall
  rw [hmade] at hmake
  cases hmake
  have hwrites : ∀ w ∈ writes, w.1 < 2 ^ P.indexCountLog2 :=
    fun w hw => (hall w.1).mp (List.mem_map_of_mem hw)
  obtain ⟨Q, hafter, hQ⟩ := (Rewritten.refl P).setBatch hwrites
  obtain ⟨R, hfresh, hR⟩ := (Rewritten.refl M).setBatch (hlog2 ▸ hwrites)
  change Rewritten P (lastState writes) Q at hQ
  change Rewritten M (lastState writes) R at hR
  refine ⟨Q.toIdxpyr, R.toIdxpyr, hafter, hfresh, ?_⟩
  have hwritten : written (lastState writes) = {index | index < 2 ^ P.indexCountLog2} := by
    rw [written_lastState]
    ext index
    exact hall index
  have hoff : AgreeOffPaths (lastState writes) P M ↔ UnusedClear P.toIdxpyr := by
    rw [unusedClear_iff, AgreeOffPaths, hwritten]
    apply forall₂_congr
    intro i hi
    apply forall₂_congr
    intro x hx
    rw [summary_lt_two_pow (P.four_mul_le_of_lt_height hi), hbits i hi x hx]
    apply forall_congr'
    intro hnot
    rw [decide_eq_false hnot, Bool.and_false]
  rw [← hoff, ← Rewritten.eq_iff hlog2.symm hinit.symm hQ hR]
  constructor
  · exact toIdxpyr_inj
  · rintro rfl
    rfl

theorem setBatch_repairs_inconsistent :
    ∃ after fresh,
      setBatch ⟨5, 2, [0, 2, 0, 0, 0, 0, 0, 0, 0, 0, 0, 0, 0, 0, 0], 6, false,
        [0x0008#16, 0x0000#16, 0x0002#16]⟩ ((List.range 32).map fun i => (i, true)) = .ok after ∧
      setBatch ⟨5, 2, [0, 2, 0, 0, 0, 0, 0, 0, 0, 0, 0, 0, 0, 0, 0], 6, false,
        [0x0000#16, 0x0000#16, 0x0000#16]⟩ ((List.range 32).map fun i => (i, true)) = .ok fresh ∧
      (after = fresh ↔ UnusedClear ⟨5, 2, [0, 2, 0, 0, 0, 0, 0, 0, 0, 0, 0, 0, 0, 0, 0], 6, false,
        [0x0008#16, 0x0000#16, 0x0002#16]⟩) := by
  have hlaid : LaidOut ⟨5, 2, [0, 2, 0, 0, 0, 0, 0, 0, 0, 0, 0, 0, 0, 0, 0], 6, false,
      [0x0008#16, 0x0000#16, 0x0002#16]⟩ := ⟨5, false, _, rfl, rfl, rfl⟩
  apply setBatch_repairs hlaid rfl
  intro index
  rw [List.map_map]
  simp

end Utilc
