import Utilc.CLib.Loops
import Utilc.Idxpyr.Canonical

/-!
# Draining a pyramid

Popping until nothing is left gives the set indices in increasing order, each once, and leaves a
store of zeros.
-/

namespace Utilc
open CLib

/-- One `idxpyr_popFirst`; it gives no index when it returns `IDXPYR_EMPTY`. -/
def idxpyrPopStep (pyr : Idxpyr) : Checked (Idxpyr × Option ℕ) := do
  let popped ← idxpyrPopFirst pyr
  return (popped.1, if popped.2 = idxpyrEmpty then none else some popped.2)

/-- `idxpyr_popFirst` until it returns `IDXPYR_EMPTY`, in at most `calls` calls. -/
def idxpyrPopAll (calls : ℕ) (pyr : Idxpyr) : Checked (Option (Idxpyr × List ℕ)) :=
  repeatUntil idxpyrPopStep calls pyr

/-- The indices for which `idxpyr_get` is true, in increasing order. -/
def setIndices (pyr : Idxpyr) : List ℕ :=
  (List.range (2 ^ pyr.indexCountLog2)).filter (fun index => idxpyrGet pyr index = .ok true)

/-- `pyr` stands for an array whose true entries are those of `todo`, in increasing order. -/
structure ToDrain (log2 : ℕ) (stateInit : Bool) (pyr : Idxpyr) (todo : List ℕ) : Prop where
  sorted : todo.Pairwise (· < ·)
  refines : ∃ (A : BoolArray) (P : Pyramid), pyr = P.toIdxpyr ∧ Represents P A ∧ A.log2 = log2 ∧
    A.stateInit = stateInit ∧ ∀ i, i ∈ A.trues ↔ i ∈ todo

lemma idxpyrPopStep_of_nil {log2 : ℕ} {stateInit : Bool} {pyr : Idxpyr}
    (h : ToDrain log2 stateInit pyr []) : idxpyrPopStep pyr = .ok (pyr, none) := by
  obtain ⟨A, P, rfl, hA, -, -, htrues⟩ := h.refines
  have hempty : A.trues = ∅ := by
    ext i
    simp [htrues]
  have hget := represents_getFirst hA
  rw [BoolArray.first?_eq_none hempty] at hget
  simp only [idxpyrPopStep, idxpyrPopFirst, hget, ok_bind, Option.getD_none]
  rfl

/-- A pop takes the first index off the list. -/
lemma idxpyrPopStep_of_cons {log2 : ℕ} {stateInit : Bool} {pyr : Idxpyr} {i : ℕ} {rest : List ℕ}
    (h : ToDrain log2 stateInit pyr (i :: rest)) :
    ∃ pyr', idxpyrPopStep pyr = .ok (pyr', some i) ∧ ToDrain log2 stateInit pyr' rest := by
  obtain ⟨hless, hsorted⟩ := List.pairwise_cons.mp h.sorted
  obtain ⟨A, P, rfl, hA, hlog2, hinit, htrues⟩ := h.refines
  have hleast : IsLeast A.trues i := by
    refine ⟨(htrues i).mpr List.mem_cons_self, fun j hj => ?_⟩
    rcases List.mem_cons.mp ((htrues j).mp hj) with rfl | hmem
    · exact le_rfl
    · exact (hless j hmem).le
  have hfirst := BoolArray.first?_eq_some hleast
  have hlt : i < 2 ^ P.indexCountLog2 := hA.first?_lt hfirst
  obtain ⟨Q, hpop, hQ⟩ := represents_popFirst hA
  rw [hfirst] at hpop hQ
  refine ⟨Q.toIdxpyr, ?_, hsorted, A.set i false, Q, rfl, hQ, hlog2, hinit, fun j => ?_⟩
  · have hne : i ≠ idxpyrEmpty := (lt_idxpyrEmpty hlt).ne
    simp only [idxpyrPopStep, hpop, ok_bind, pure_eq_ok, Option.getD_some, if_neg hne]
  · rw [BoolArray.mem_trues_set (hA.log2 ▸ hlt)]
    by_cases he : j = i
    · subst he
      have hnot : j ∉ rest := fun hmem => lt_irrefl j (hless j hmem)
      simp [hnot]
    · rw [if_neg he, htrues, List.mem_cons, or_iff_right he]

/-- A pyramid with no entry left is zero in every block. -/
lemma ToDrain.store_eq {P : Pyramid} {pyr : Idxpyr}
    (h : ToDrain P.indexCountLog2 P.stateInit pyr []) :
    pyr = { P.toIdxpyr with store := List.replicate P.store.length 0#16 } := by
  obtain ⟨A, Q, rfl, hA, hlog2, hinit, htrues⟩ := h.refines
  have hlen : (List.replicate P.store.length 0#16).length = P.store.length := List.length_replicate
  have hnone : ∀ i, i ∈ A.trues ↔ false = true ∧ i < 2 ^ A.log2 := by
    intro i
    simp [htrues]
  have hzero : Represents (P.withStore _ hlen) A := by
    apply represents_uniform (P := P.withStore _ hlen) hlog2 hinit hnone
    intro i hi x hx
    change x < 16 * rowLength P.indexCountLog2 i at hx
    have hx16 : x / 16 < rowLength P.indexCountLog2 i := by omega
    have hblock : (P.withStore _ hlen).block i (x / 16) = 0#16 := by
      simp only [Pyramid.block, Pyramid.withStore, P.length_store]
      exact blockAt_replicate hi hx16 0#16
    rw [Pyramid.bit, hblock]
    simp
  rw [hA.unique hzero, P.toIdxpyr_withStore]

lemma represents_toDrain {P : Pyramid} {A : BoolArray} (hA : Represents P A) :
    ToDrain P.indexCountLog2 P.stateInit P.toIdxpyr (setIndices P.toIdxpyr) where
  sorted := List.pairwise_lt_range.filter _
  refines := by
    refine ⟨A, P, rfl, hA, hA.log2, hA.stateInit, fun i => ?_⟩
    simp only [setIndices, List.mem_filter, List.mem_range, decide_eq_true_eq]
    constructor
    · intro hi
      have hlt : i < A.entries.length := by
        rw [A.length_entries]
        exact BoolArray.lt_of_mem_trues hi
      refine ⟨?_, ?_⟩
      · have hltA := BoolArray.lt_of_mem_trues hi
        rwa [hA.log2] at hltA
      · rw [represents_get hA hlt, (BoolArray.getElem_eq_true_iff hlt).mpr hi]
    · rintro ⟨hi, hget⟩
      have hlt : i < A.entries.length := by
        rw [A.length_entries, hA.log2]
        exact hi
      rw [represents_get hA hlt, Except.ok.injEq] at hget
      exact (BoolArray.getElem_eq_true_iff hlt).mp hget

/-- Draining ends with the call after the one that pops the last set index. It gives out the set
indices in increasing order, and every block is zero afterwards. -/
theorem idxpyr_drain (pyr : Idxpyr) (h : IdxpyrReachable pyr) :
    (setIndices pyr).Pairwise (· < ·) ∧
      (∀ index, index ∈ setIndices pyr ↔
        index < 2 ^ pyr.indexCountLog2 ∧ idxpyrGet pyr index = .ok true) ∧
      ∀ calls, idxpyrPopAll calls pyr = .ok (if (setIndices pyr).length < calls then
        some ({ pyr with store := List.replicate pyr.store.length 0#16 }, setIndices pyr)
      else none) := by
  obtain ⟨A, P, rfl, hA⟩ := h.refines
  have htodo := represents_toDrain hA
  refine ⟨htodo.sorted, fun index => ?_, ?_⟩
  · simp only [setIndices, List.mem_filter, List.mem_range, decide_eq_true_eq]
  · obtain ⟨after, hafter, hrun⟩ := repeatUntil_eq idxpyrPopStep
      (ToDrain P.indexCountLog2 P.stateInit)
      (fun pyr hnil => ⟨pyr, idxpyrPopStep_of_nil hnil, hnil⟩)
      (fun pyr i rest hcons => idxpyrPopStep_of_cons hcons) htodo
    rw [hafter.store_eq] at hrun
    exact hrun

theorem idxpyr_drain_grown :
    idxpyrPopAll 4 ⟨5, 2, [0, 2, 0, 0, 0, 0, 0, 0, 0, 0, 0, 0, 0, 0, 0], 6, true,
        [0x0008#16, 0x8001#16, 0x0003#16]⟩ =
      .ok (some (⟨5, 2, [0, 2, 0, 0, 0, 0, 0, 0, 0, 0, 0, 0, 0, 0, 0], 6, true,
        [0x0000#16, 0x0000#16, 0x0000#16]⟩, [3, 16, 31])) := by
  have hset : setIndices ⟨5, 2, [0, 2, 0, 0, 0, 0, 0, 0, 0, 0, 0, 0, 0, 0, 0], 6, true,
      [0x0008#16, 0x8001#16, 0x0003#16]⟩ = [3, 16, 31] := by decide
  have hreach : IdxpyrReachable ⟨5, 2, [0, 2, 0, 0, 0, 0, 0, 0, 0, 0, 0, 0, 0, 0, 0], 6, true,
      [0x0008#16, 0x8001#16, 0x0003#16]⟩ :=
    ⟨4, true, [.increaseSize, .setAll false, .set 3 true, .set 31 true, .set 16 true],
      [.void, .void, .void, .void, .void], by decide⟩
  have hdrain := (idxpyr_drain _ hreach).2.2 4
  rw [hset] at hdrain
  exact hdrain

end Utilc
