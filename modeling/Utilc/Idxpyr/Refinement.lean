import Utilc.CLib.Runs
import Utilc.Idxpyr.Descent

/-!
# Runs of a pyramid refine runs of a plain array

`boolArrayStep` states what each call is for, on an array of booleans. A pyramid from `idxpyr_make`
and that array stay in step under every sequence of calls: they return the same values, and a call
faults exactly when the array has no step for it.
-/

namespace Utilc
open CLib

/-- The height of a pyramid for `2 ^ n` indices fits `rows[]`. -/
def FitsRows (n : ℕ) : Prop := treeHeight n ≤ idxpyrMaxHeight

instance (n : ℕ) : Decidable (FitsRows n) := inferInstanceAs (Decidable (_ ≤ _))

lemma fitsRows_iff {n : ℕ} : FitsRows n ↔ n ≤ 60 := by
  rw [FitsRows, treeHeight, idxpyrMaxHeight_eq]
  omega

/-- What a call does on the array; nothing when its argument or the new size is not admitted. -/
def boolArrayStep (A : BoolArray) : IdxpyrOp → Option (BoolArray × IdxpyrResult)
  | .get index => A.entries[index]?.map (fun state => (A, .state state))
  | .getFirst => some (A, .index (A.first?.getD idxpyrEmpty))
  | .popFirst =>
    match A.first? with
    | some index => some (A.set index false, .index index)
    | none => some (A, .index idxpyrEmpty)
  | .set index state =>
    if index < A.entries.length then some (A.set index state, .void) else none
  | .setAll state => some (A.setAll state, .void)
  | .increaseSize => if FitsRows (A.log2 + 1) then some (A.grow, .void) else none

/-- The run of the array that `idxpyrRun` is compared with. -/
def boolArrayRun (indexCountLog2 : ℕ) (stateInit : Bool) (ops : List IdxpyrOp) :
    Option (BoolArray × List IdxpyrResult) :=
  if FitsRows (max indexCountLog2 blockBitCountLog2) then
    runOps boolArrayStep (BoolArray.make (max indexCountLog2 blockBitCountLog2) stateInit) ops
  else none

def Refines (pyr : Idxpyr) (A : BoolArray) : Prop :=
  ∃ P : Pyramid, pyr = P.toIdxpyr ∧ Represents P A

/-! ### Sizes whose height does not fit -/

/-- `idxpyr_make` writes past the end of `rows[]`, or fails its assertion. -/
lemma idxpyrMake_fault {n : ℕ} (h : 60 < n) (stateInit : Bool) :
    ∃ e, idxpyrMake n stateInit = .error e := by
  have hmax : max n blockBitCountLog2 = n := max_eq_left (by rw [blockBitCountLog2_eq]; omega)
  by_cases h63 : n ≤ 63
  · refine ⟨.outOfBounds, ?_⟩
    interval_cases n <;> rfl
  · refine ⟨.assertFailed, ?_⟩
    have hnot : ¬(blockBitCountLog2 ≤ n ∧ n ≤ idxpyrMaxIndexCountLog2) := by
      rw [idxpyrMaxIndexCountLog2_eq]
      omega
    simp only [idxpyrMake, hmax, getHeight, require_of_not hnot, error_bind]

lemma idxpyrMake_max (n : ℕ) (stateInit : Bool) :
    idxpyrMake (max n blockBitCountLog2) stateInit = idxpyrMake n stateInit := by
  simp only [idxpyrMake, max_assoc, max_self]

lemma idxpyrIncreaseSize_fault {P : Pyramid} (h : 60 < P.indexCountLog2 + 1) :
    ∃ e, idxpyrIncreaseSize P.toIdxpyr = .error e := by
  obtain ⟨e, he⟩ := idxpyrMake_fault h P.stateInit
  refine ⟨e, ?_⟩
  have he' : idxpyrMake (P.toIdxpyr.indexCountLog2 + 1) P.toIdxpyr.stateInit = .error e := he
  simp only [idxpyrIncreaseSize, he', error_bind]

/-! ### The step and the run -/

lemma Represents.first?_lt {P : Pyramid} {A : BoolArray} (hA : Represents P A) {r : ℕ}
    (hr : A.first? = some r) : r < 2 ^ P.indexCountLog2 := by
  obtain ⟨hlt, -⟩ := List.findIdx?_eq_some_iff_getElem.mp hr
  rwa [A.length_entries, hA.log2] at hlt

lemma lt_idxpyrEmpty {P : Pyramid} {r : ℕ} (hr : r < 2 ^ P.indexCountLog2) : r < idxpyrEmpty := by
  have h60 := P.le_sixty
  have hpow : 2 ^ P.indexCountLog2 ≤ 2 ^ 60 := Nat.pow_le_pow_right Nat.two_pos h60
  simp only [idxpyrEmpty, sizeBits]
  omega

theorem represents_popFirst {P : Pyramid} {A : BoolArray} (hA : Represents P A) :
    ∃ Q : Pyramid, idxpyrPopFirst P.toIdxpyr = .ok (Q.toIdxpyr, A.first?.getD idxpyrEmpty) ∧
      Represents Q (match A.first? with | some index => A.set index false | none => A) := by
  have hget := represents_getFirst hA
  cases hfirst : A.first? with
  | none =>
    refine ⟨P, ?_, hA⟩
    rw [hfirst] at hget
    simp only [idxpyrPopFirst, hget, ok_bind, Option.getD_none]
    rfl
  | some r =>
    have hlt := hA.first?_lt hfirst
    obtain ⟨Q, hset, hQ⟩ := represents_set hA hlt false
    refine ⟨Q, ?_, hQ⟩
    have hne : r ≠ idxpyrEmpty := (lt_idxpyrEmpty hlt).ne
    rw [hfirst] at hget
    simp only [idxpyrPopFirst, hget, ok_bind, Option.getD_some, if_pos hne, hset]
    rfl

lemma represents_get {P : Pyramid} {A : BoolArray} (hA : Represents P A) {index : ℕ}
    (h : index < A.entries.length) :
    idxpyrGet P.toIdxpyr index = .ok A.entries[index] := by
  have hlt : index < 2 ^ P.indexCountLog2 := by rwa [A.length_entries, hA.log2] at h
  have hrow : index < 16 * rowLength P.indexCountLog2 0 := by
    have hpath := path_lt_rowLength (i := 0) hlt
    rw [pow_one] at hpath
    omega
  rw [idxpyrGet_ok P hlt]
  congr 1
  rw [Bool.eq_iff_iff, hA.bits 0 P.height_pos index hrow, summary_zero,
    BoolArray.getElem_eq_true_iff h]

theorem idxpyrStep_agree (pyr : Idxpyr) (A : BoolArray) (op : IdxpyrOp) (h : Refines pyr A) :
    Agree Refines (idxpyrStep pyr op) (boolArrayStep A op) := by
  obtain ⟨P, rfl, hA⟩ := h
  have hlen : A.entries.length = 2 ^ P.indexCountLog2 := by rw [A.length_entries, hA.log2]
  cases op with
  | get index =>
    by_cases hlt : index < A.entries.length
    · simp only [idxpyrStep, represents_get hA hlt, ok_bind, pure_eq_ok, boolArrayStep,
        List.getElem?_eq_getElem hlt, Option.map_some]
      exact ⟨rfl, P, rfl, hA⟩
    · have hfault := assertIndexExists_fault P (hlen ▸ hlt)
      simp only [idxpyrStep, idxpyrGet, hfault, error_bind, boolArrayStep,
        List.getElem?_eq_none (not_lt.mp hlt), Option.map_none]
      trivial
  | getFirst =>
    simp only [idxpyrStep, represents_getFirst hA, ok_bind, pure_eq_ok, boolArrayStep]
    exact ⟨rfl, P, rfl, hA⟩
  | popFirst =>
    obtain ⟨Q, hpop, hQ⟩ := represents_popFirst hA
    simp only [idxpyrStep, hpop, ok_bind, pure_eq_ok, boolArrayStep]
    cases hfirst : A.first? with
    | none =>
      rw [hfirst] at hQ
      exact ⟨rfl, Q, rfl, hQ⟩
    | some r =>
      rw [hfirst] at hQ
      exact ⟨rfl, Q, rfl, hQ⟩
  | set index state =>
    by_cases hlt : index < A.entries.length
    · obtain ⟨Q, hset, hQ⟩ := represents_set hA (hlen ▸ hlt) state
      simp only [idxpyrStep, hset, ok_bind, pure_eq_ok, boolArrayStep, if_pos hlt]
      exact ⟨rfl, Q, rfl, hQ⟩
    · have hfault := assertIndexExists_fault P (hlen ▸ hlt)
      simp only [idxpyrStep, idxpyrSet, hfault, error_bind, boolArrayStep, if_neg hlt]
      trivial
  | setAll state =>
    obtain ⟨Q, hset, hQ⟩ := represents_setAll hA state
    simp only [idxpyrStep, hset, ok_bind, pure_eq_ok, boolArrayStep]
    exact ⟨rfl, Q, rfl, hQ⟩
  | increaseSize =>
    have hlog2 := hA.log2
    by_cases hfit : FitsRows (A.log2 + 1)
    · have h60 := fitsRows_iff.mp hfit
      obtain ⟨Q, hgrow, hQ⟩ := represents_increaseSize hA (by omega)
      simp only [idxpyrStep, hgrow, ok_bind, pure_eq_ok, boolArrayStep, if_pos hfit]
      exact ⟨rfl, Q, rfl, hQ⟩
    · have h60 : ¬A.log2 + 1 ≤ 60 := fun hle => hfit (fitsRows_iff.mpr hle)
      obtain ⟨e, hfault⟩ := idxpyrIncreaseSize_fault (P := P) (by omega)
      simp only [idxpyrStep, hfault, error_bind, boolArrayStep, if_neg hfit]
      trivial

theorem idxpyrRun_agree (indexCountLog2 : ℕ) (stateInit : Bool) (ops : List IdxpyrOp) :
    Agree Refines (idxpyrRun indexCountLog2 stateInit ops)
      (boolArrayRun indexCountLog2 stateInit ops) := by
  unfold idxpyrRun boolArrayRun
  rw [← idxpyrMake_max]
  obtain ⟨n, hn⟩ : ∃ n, n = max indexCountLog2 blockBitCountLog2 := ⟨_, rfl⟩
  have h4 : 4 ≤ n := hn ▸ le_max_right _ _
  rw [← hn]
  by_cases hfit : FitsRows n
  · obtain ⟨P, hmake, hP⟩ := represents_make h4 (fitsRows_iff.mp hfit) stateInit
    rw [hmake, if_pos hfit]
    exact runOps_agree idxpyrStep_agree ⟨P, rfl, hP⟩ ops
  · have h60 : 60 < n := not_le.mp fun hle => hfit (fitsRows_iff.mpr hle)
    obtain ⟨e, hfault⟩ := idxpyrMake_fault h60 stateInit
    rw [hfault, if_neg hfit]
    trivial

theorem IdxpyrReachable.refines {pyr : Idxpyr} (h : IdxpyrReachable pyr) :
    ∃ A, Refines pyr A := by
  obtain ⟨n, stateInit, ops, results, hrun⟩ := h
  obtain ⟨A, -, hA⟩ := (idxpyrRun_agree n stateInit ops).of_ok hrun
  exact ⟨A, hA⟩

/-- What a caller observes of `pyr` is what the array `A` says. -/
structure Observes (pyr : Idxpyr) (A : BoolArray) : Prop where
  indexCountLog2 : pyr.indexCountLog2 = A.log2
  stateInit : pyr.stateInit = A.stateInit
  get : ∀ (index : ℕ) (h : index < A.entries.length),
    idxpyrGet pyr index = .ok A.entries[index]
  getFirst_empty : true ∉ A.entries → idxpyrGetFirst pyr = .ok idxpyrEmpty
  getFirst_least : true ∈ A.entries → ∃ index, idxpyrGetFirst pyr = .ok index ∧
    index ≠ idxpyrEmpty ∧ IsLeast {i | A.entries[i]? = some true} index

lemma Refines.observes {pyr : Idxpyr} {A : BoolArray} (h : Refines pyr A) : Observes pyr A := by
  obtain ⟨P, rfl, hA⟩ := h
  refine ⟨hA.log2.symm, hA.stateInit.symm, ?_, ?_, ?_⟩
  · intro index hlt
    exact represents_get hA hlt
  · intro hno
    have hempty : A.trues = ∅ := by
      ext i
      simp only [Set.mem_empty_iff_false, iff_false]
      intro hi
      exact hno (List.mem_of_getElem? hi)
    rw [represents_getFirst hA, BoolArray.first?_eq_none hempty]
    rfl
  · intro hyes
    have hne : A.trues.Nonempty := List.getElem?_of_mem hyes
    obtain ⟨r, hr⟩ : ∃ r, IsLeast A.trues r := ⟨_, isLeast_csInf hne⟩
    have hfirst := BoolArray.first?_eq_some hr
    refine ⟨r, ?_, (lt_idxpyrEmpty (hA.first?_lt hfirst)).ne, hr⟩
    rw [represents_getFirst hA, hfirst]
    rfl

/-- The pyramid refines a plain array of booleans: for every initial size and every sequence of
calls, the run from `idxpyr_make` and the run of the array return the same values and end in
states that show the same entries. The run faults only where the array has no step. -/
theorem idxpyr_refines_boolArray (indexCountLog2 : ℕ) (stateInit : Bool) (ops : List IdxpyrOp) :
    Agree Observes (idxpyrRun indexCountLog2 stateInit ops)
      (boolArrayRun indexCountLog2 stateInit ops) := by
  have h := idxpyrRun_agree indexCountLog2 stateInit ops
  exact h.mono fun pyr A hA => hA.observes

end Utilc
