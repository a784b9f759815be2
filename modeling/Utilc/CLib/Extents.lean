import Mathlib.Algebra.BigOperators.Group.Finset.Basic
import Mathlib.Algebra.Order.BigOperators.Group.Finset
import Mathlib.Tactic

/-!
# Arrays packed one after another

Arrays of lengths `len 0`, `len 1`, ... stored back to back. The extents of distinct arrays are
disjoint and together cover the store, so a store is determined by the contents of its arrays.
-/

namespace CLib

open Finset

variable {α : Type} {len : ℕ → ℕ}

/-- Where array `i` starts. -/
def extentStart (len : ℕ → ℕ) (i : ℕ) : ℕ := ∑ k ∈ range i, len k

@[simp] lemma extentStart_zero : extentStart len 0 = 0 := rfl

lemma extentStart_succ (i : ℕ) : extentStart len (i + 1) = extentStart len i + len i :=
  sum_range_succ _ _

lemma extentStart_mono {i j : ℕ} (h : i ≤ j) : extentStart len i ≤ extentStart len j :=
  sum_le_sum_of_subset (range_mono h)

lemma extentStart_add_le {i m h : ℕ} (hi : i < h) (hm : m ≤ len i) :
    extentStart len i + m ≤ extentStart len h := by
  have hnext : extentStart len (i + 1) ≤ extentStart len h := extentStart_mono hi
  rw [extentStart_succ] at hnext
  omega

lemma extentStart_add_lt {i j h : ℕ} (hi : i < h) (hj : j < len i) :
    extentStart len i + j < extentStart len h := extentStart_add_le hi hj

/-- Distinct arrays do not overlap. -/
lemma extentStart_add_inj {i i' j j' : ℕ} (hj : j < len i) (hj' : j' < len i')
    (he : extentStart len i + j = extentStart len i' + j') : i = i' ∧ j = j' := by
  rcases lt_trichotomy i i' with h | rfl | h
  · have hlt := extentStart_add_lt h hj
    omega
  · exact ⟨rfl, by omega⟩
  · have hlt := extentStart_add_lt h hj'
    omega

lemma exists_extent {p h : ℕ} (hp : p < extentStart len h) :
    ∃ i < h, ∃ j < len i, p = extentStart len i + j := by
  induction h with
  | zero => exact absurd hp (Nat.not_lt_zero p)
  | succ h ih =>
    by_cases hlt : p < extentStart len h
    · obtain ⟨i, hi, hrest⟩ := ih hlt
      exact ⟨i, by omega, hrest⟩
    · rw [extentStart_succ] at hp
      exact ⟨h, by omega, p - extentStart len h, by omega, by omega⟩

lemma ext_of_extents {a b : List α} {h : ℕ} (ha : a.length = extentStart len h)
    (hb : b.length = extentStart len h)
    (hab : ∀ i < h, ∀ j < len i, a[extentStart len i + j]? = b[extentStart len i + j]?) :
    a = b := by
  apply List.ext_getElem?
  intro p
  by_cases hp : p < extentStart len h
  · obtain ⟨i, hi, j, hj, rfl⟩ := exists_extent hp
    exact hab i hi j hj
  · rw [List.getElem?_eq_none (by omega), List.getElem?_eq_none (by omega)]

end CLib
