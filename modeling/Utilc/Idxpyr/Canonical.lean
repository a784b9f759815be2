import Utilc.Idxpyr.Refinement

/-!
# A pyramid is determined by its entries

Two pyramids that represent one array are equal in every block, summary rows and unused bits
included. Bulk writes therefore leave exactly the store that writing entry by entry leaves.
-/

namespace Utilc
open CLib

/-- Sets the entries of the indices in `order` one after another. -/
def setEach (pyr : Idxpyr) (state : ℕ → Bool) (order : List ℕ) : Checked Idxpyr :=
  order.foldlM (fun pyr index => idxpyrSet pyr index (state index)) pyr

/-- A new pyramid of twice the size into which the entries of `pyr` are written one by one. -/
def rebuildBigger (pyr : Idxpyr) : Checked Idxpyr := do
  let bigger ← idxpyrMake (pyr.indexCountLog2 + 1) pyr.stateInit
  (List.range (2 ^ pyr.indexCountLog2)).foldlM
    (fun bigger index => do
      let state ← idxpyrGet pyr index
      idxpyrSet bigger index state) bigger

theorem Represents.unique {P Q : Pyramid} {A : BoolArray} (hP : Represents P A)
    (hQ : Represents Q A) : P = Q := by
  have hn : P.indexCountLog2 = Q.indexCountLog2 := hP.log2.symm.trans hQ.log2
  apply Pyramid.ext_bit hn (hP.stateInit.symm.trans hQ.stateInit)
  intro i hi x hx
  have hiQ : i < Q.height := by rwa [Pyramid.height, ← hn]
  rw [Bool.eq_iff_iff, hP.bits i hi x hx, hQ.bits i hiQ x (hn ▸ hx)]

namespace BoolArray

lemma ext_entries {A B : BoolArray} (hlog2 : A.log2 = B.log2) (hinit : A.stateInit = B.stateInit)
    (h : ∀ i < 2 ^ A.log2, A.entries[i]? = B.entries[i]?) : A = B := by
  obtain ⟨n, s, l, hl⟩ := A
  obtain ⟨n', s', l', hl'⟩ := B
  dsimp only at hlog2 hinit h
  subst hlog2 hinit
  congr 1
  apply List.ext_getElem?
  intro i
  by_cases hi : i < 2 ^ n
  · exact h i hi
  · rw [List.getElem?_eq_none (by omega), List.getElem?_eq_none (by omega)]

/-- The array after the entries of the indices in `order` have been set. -/
def setEach (A : BoolArray) (state : ℕ → Bool) (order : List ℕ) : BoolArray :=
  order.foldl (fun A index => A.set index (state index)) A

@[simp] lemma setEach_log2 (A : BoolArray) (state : ℕ → Bool) (order : List ℕ) :
    (A.setEach state order).log2 = A.log2 := by
  induction order generalizing A with
  | nil => rfl
  | cons index order ih => exact ih (A.set index (state index))

@[simp] lemma setEach_stateInit (A : BoolArray) (state : ℕ → Bool) (order : List ℕ) :
    (A.setEach state order).stateInit = A.stateInit := by
  induction order generalizing A with
  | nil => rfl
  | cons index order ih => exact ih (A.set index (state index))

lemma getElem?_setEach (A : BoolArray) (state : ℕ → Bool) (order : List ℕ) {i : ℕ}
    (hi : i < 2 ^ A.log2) :
    (A.setEach state order).entries[i]? =
      if i ∈ order then some (state i) else A.entries[i]? := by
  induction order generalizing A with
  | nil => simp [setEach]
  | cons index order ih =>
    have hstep := ih (A.set index (state index)) hi
    change (A.setEach state (index :: order)).entries[i]? = _ at hstep
    have hlen : i < A.entries.length := A.length_entries.symm ▸ hi
    have hset : (A.set index (state index)).entries[i]? =
        if i = index then some (state i) else A.entries[i]? := by
      change (A.entries.set index (state index))[i]? = _
      rw [List.getElem?_set]
      by_cases he : i = index
      · subst he
        simp [hlen]
      · rw [if_neg he, if_neg (Ne.symm he)]
    rw [hstep, hset]
    by_cases hmem : i ∈ order
    · simp [hmem]
    · by_cases he : i = index <;> simp [hmem, he]

lemma setAll_eq_setEach (A : BoolArray) (state : Bool) {order : List ℕ}
    (hmem : ∀ i, i ∈ order ↔ i < 2 ^ A.log2) :
    A.setAll state = A.setEach (fun _ => state) order := by
  apply ext_entries
  · simp [setAll]
  · simp [setAll]
  · intro i hi
    change i < 2 ^ A.log2 at hi
    rw [getElem?_setEach A _ order hi, if_pos ((hmem i).mpr hi)]
    change (List.replicate (2 ^ A.log2) state)[i]? = _
    rw [List.getElem?_replicate, if_pos hi]

def state (A : BoolArray) (i : ℕ) : Bool := A.entries.getD i false

lemma getElem?_entries (A : BoolArray) {i : ℕ} (hi : i < 2 ^ A.log2) :
    A.entries[i]? = some (A.state i) := by
  have hlen : i < A.entries.length := A.length_entries.symm ▸ hi
  simp [state, hlen]

/-- A grown array is a new one into which the old entries are written. -/
lemma grow_eq_setEach (A : BoolArray) :
    A.grow = (make (A.log2 + 1) A.stateInit).setEach A.state (List.range (2 ^ A.log2)) := by
  apply ext_entries
  · rw [setEach_log2]
    rfl
  · rw [setEach_stateInit]
    rfl
  · intro i hi
    change i < 2 ^ (A.log2 + 1) at hi
    rw [getElem?_setEach _ _ _ hi]
    change (A.entries ++ List.replicate (2 ^ A.log2) A.stateInit)[i]? =
      if _ then _ else (List.replicate (2 ^ (A.log2 + 1)) A.stateInit)[i]?
    rw [List.getElem?_append, A.length_entries, List.getElem?_replicate, List.getElem?_replicate,
      if_pos hi]
    simp only [List.mem_range]
    by_cases hlt : i < 2 ^ A.log2
    · rw [if_pos hlt, if_pos hlt, A.getElem?_entries hlt]
    · have hrest : i - 2 ^ A.log2 < 2 ^ A.log2 := by
        rw [pow_succ] at hi
        omega
      rw [if_neg hlt, if_neg hlt, if_pos hrest]

end BoolArray

theorem represents_setEach {P : Pyramid} {A : BoolArray} (hA : Represents P A) (state : ℕ → Bool)
    (order : List ℕ) (horder : ∀ index ∈ order, index < 2 ^ P.indexCountLog2) :
    ∃ Q : Pyramid, setEach P.toIdxpyr state order = .ok Q.toIdxpyr ∧
      Represents Q (A.setEach state order) := by
  induction order generalizing P A with
  | nil => exact ⟨P, rfl, hA⟩
  | cons index order ih =>
    obtain ⟨Q, hset, hQ⟩ := represents_set hA (horder index (by simp)) (state index)
    have hlog2 : Q.indexCountLog2 = P.indexCountLog2 := hQ.log2.symm.trans hA.log2
    obtain ⟨R, hrest, hR⟩ := ih hQ (fun i hi => hlog2 ▸ horder i (by simp [hi]))
    refine ⟨R, ?_, hR⟩
    rw [setEach, List.foldlM_cons, hset, ok_bind]
    exact hrest

lemma copyEach_eq_setEach {P : Pyramid} {A : BoolArray} (hA : Represents P A) (order : List ℕ)
    (horder : ∀ i ∈ order, i < 2 ^ P.indexCountLog2) (start : Idxpyr) :
    order.foldlM (fun bigger index => do
      let s ← idxpyrGet P.toIdxpyr index
      idxpyrSet bigger index s) start = setEach start A.state order := by
  induction order generalizing start with
  | nil => rfl
  | cons index order ih =>
    have hlt := horder index (by simp)
    have hlen : index < A.entries.length := by rwa [A.length_entries, hA.log2]
    have hget : idxpyrGet P.toIdxpyr index = .ok (A.state index) := by
      rw [represents_get hA hlen]
      congr 1
      simp [BoolArray.state, hlen]
    rw [setEach, List.foldlM_cons, List.foldlM_cons, hget, ok_bind]
    congr 1
    funext next
    exact ih (fun i hi => horder i (by simp [hi])) next

/-! ### Bulk writes -/

/-- `idxpyr_setAll` leaves exactly the store of one `idxpyr_set` for every index, in any order. -/
theorem idxpyrSetAll_eq_setEach (pyr : Idxpyr) (h : IdxpyrReachable pyr) (state : Bool)
    (order : List ℕ) (horder : order.Perm (List.range (2 ^ pyr.indexCountLog2))) :
    ∃ after, idxpyrSetAll pyr state = .ok after ∧
      setEach pyr (fun _ => state) order = .ok after := by
  obtain ⟨A, P, rfl, hA⟩ := h.refines
  have hmem (i : ℕ) : i ∈ order ↔ i < 2 ^ P.indexCountLog2 := by
    rw [horder.mem_iff, List.mem_range]
    rfl
  obtain ⟨Q, hall, hQ⟩ := represents_setAll hA state
  obtain ⟨R, heach, hR⟩ := represents_setEach hA (fun _ => state) order (fun i hi => (hmem i).mp hi)
  rw [← hA.log2] at hmem
  rw [A.setAll_eq_setEach state hmem] at hQ
  have he : Q = R := hQ.unique hR
  exact ⟨Q.toIdxpyr, hall, he ▸ heach⟩

theorem idxpyrSetAll_eq_setEach_reverse :
    ∃ after, idxpyrSetAll ⟨4, 1, [0, 0, 0, 0, 0, 0, 0, 0, 0, 0, 0, 0, 0, 0, 0], 2, false,
        [0x0020#16]⟩ true = .ok after ∧
      setEach ⟨4, 1, [0, 0, 0, 0, 0, 0, 0, 0, 0, 0, 0, 0, 0, 0, 0], 2, false, [0x0020#16]⟩
        (fun _ => true) (List.range 16).reverse = .ok after :=
  idxpyrSetAll_eq_setEach _ ⟨4, false, [.set 5 true], [.void], by decide⟩ true
    (List.range 16).reverse (List.reverse_perm _)

/-- `idxpyr_increaseSize` leaves exactly the pyramid that is made from scratch at twice the size by
writing the old entries one by one. -/
theorem idxpyrIncreaseSize_eq_rebuild (pyr : Idxpyr) (h : IdxpyrReachable pyr)
    (hfit : FitsRows (pyr.indexCountLog2 + 1)) :
    ∃ after, idxpyrIncreaseSize pyr = .ok after ∧ rebuildBigger pyr = .ok after := by
  obtain ⟨A, P, rfl, hA⟩ := h.refines
  have h60 : P.indexCountLog2 + 1 ≤ 60 := fitsRows_iff.mp hfit
  have h4 := P.four_le
  obtain ⟨Q, hgrow, hQ⟩ := represents_increaseSize hA h60
  obtain ⟨M, hmake, hM⟩ := represents_make (show 4 ≤ P.indexCountLog2 + 1 by omega) h60 P.stateInit
  have hsmall (i : ℕ) (hi : i ∈ List.range (2 ^ P.indexCountLog2)) : i < 2 ^ M.indexCountLog2 := by
    have hlt := List.mem_range.mp hi
    have hnM : M.indexCountLog2 = P.indexCountLog2 + 1 := hM.log2.symm
    rw [hnM, pow_succ]
    omega
  obtain ⟨R, heach, hR⟩ := represents_setEach hM A.state (List.range (2 ^ P.indexCountLog2)) hsmall
  rw [A.grow_eq_setEach, hA.log2, hA.stateInit] at hQ
  have he : Q = R := hQ.unique hR
  have hmake' : idxpyrMake (P.toIdxpyr.indexCountLog2 + 1) P.toIdxpyr.stateInit =
      .ok M.toIdxpyr := hmake
  refine ⟨Q.toIdxpyr, hgrow, ?_⟩
  rw [rebuildBigger, hmake', ok_bind, he, ← heach]
  exact copyEach_eq_setEach hA _ (fun i hi => List.mem_range.mp hi) M.toIdxpyr

theorem idxpyrIncreaseSize_eq_rebuild_four :
    ∃ after, idxpyrIncreaseSize ⟨4, 1, [0, 0, 0, 0, 0, 0, 0, 0, 0, 0, 0, 0, 0, 0, 0], 2, true,
        [0xFFFE#16]⟩ = .ok after ∧
      rebuildBigger ⟨4, 1, [0, 0, 0, 0, 0, 0, 0, 0, 0, 0, 0, 0, 0, 0, 0], 2, true,
        [0xFFFE#16]⟩ = .ok after :=
  idxpyrIncreaseSize_eq_rebuild _ ⟨4, true, [.popFirst], [.index 0], by decide⟩ (by decide)

end Utilc
