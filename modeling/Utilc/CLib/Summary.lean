import Mathlib.Order.Bounds.Basic
import Mathlib.Data.Set.Insert
import Mathlib.Tactic

/-!
# Summaries of a set of numbers

Level `i` of the summary of `S` with fan-out `b` has a cell `x` for the numbers from `b ^ i * x`
up to `b ^ i * (x + 1)`, and the cell is on when `S` has one of them. Level zero is `S` itself.
A cell of a level is on when one of its `b` children is, so the least element is found by
following the least child that is on from the top.
-/

namespace CLib

variable {b : ℕ} {S T : Set ℕ}

/-- Cell `x` of level `i` is on: some element of `S` lies below it. -/
def Summary (b : ℕ) (S : Set ℕ) (i x : ℕ) : Prop := ∃ y ∈ S, y / b ^ i = x

lemma summary_of_mem {y : ℕ} (hy : y ∈ S) (i : ℕ) : Summary b S i (y / b ^ i) := ⟨y, hy, rfl⟩

@[simp] lemma summary_zero (x : ℕ) : Summary b S 0 x ↔ x ∈ S := by
  simp [Summary]

/-- A cell is on exactly when one of its children is. -/
lemma summary_succ (hb : 0 < b) (i x : ℕ) :
    Summary b S (i + 1) x ↔ ∃ c < b, Summary b S i (b * x + c) := by
  constructor
  · rintro ⟨y, hy, rfl⟩
    refine ⟨y / b ^ i % b, Nat.mod_lt _ hb, y, hy, ?_⟩
    rw [pow_succ, ← Nat.div_div_eq_div_mul, Nat.div_add_mod]
  · rintro ⟨c, hc, y, hy, hyc⟩
    refine ⟨y, hy, ?_⟩
    rw [pow_succ, ← Nat.div_div_eq_div_mul, hyc, Nat.mul_add_div hb, Nat.div_eq_of_lt hc,
      Nat.add_zero]

/-- A cell depends only on the numbers below it. -/
lemma summary_congr {i x : ℕ} (h : ∀ y, y / b ^ i = x → (y ∈ S ↔ y ∈ T)) :
    Summary b S i x ↔ Summary b T i x := by
  constructor
  · rintro ⟨y, hy, hyx⟩
    exact ⟨y, (h y hyx).mp hy, hyx⟩
  · rintro ⟨y, hy, hyx⟩
    exact ⟨y, (h y hyx).mpr hy, hyx⟩

lemma summary_lt {i x n : ℕ} (hS : ∀ y ∈ S, y < b ^ i * n) (h : Summary b S i x) :
    x < n := by
  obtain ⟨y, hy, rfl⟩ := h
  exact Nat.div_lt_of_lt_mul (hS y hy)

lemma summary_nonempty (i : ℕ) : (∃ x, Summary b S i x) ↔ S.Nonempty := by
  constructor
  · rintro ⟨x, y, hy, -⟩
    exact ⟨y, hy⟩
  · rintro ⟨y, hy⟩
    exact ⟨_, summary_of_mem hy i⟩

/-- One step of the descent: below the least cell that is on, its least child that is on is the
least cell that is on one level down. -/
lemma isLeast_summary_child {i x c : ℕ} (hb : 0 < b) (hx : IsLeast {x | Summary b S (i + 1) x} x)
    (hc : IsLeast {c | c < b ∧ Summary b S i (b * x + c)} c) :
    IsLeast {x | Summary b S i x} (b * x + c) := by
  refine ⟨hc.1.2, ?_⟩
  rintro z ⟨y, hy, rfl⟩
  have hparent : y / b ^ i / b = y / b ^ (i + 1) := by
    rw [pow_succ, Nat.div_div_eq_div_mul]
  have hle : x ≤ y / b ^ i / b := hparent ▸ hx.2 (summary_of_mem hy (i + 1))
  have hsplit : b * (y / b ^ i / b) + y / b ^ i % b = y / b ^ i := Nat.div_add_mod _ _
  rcases hle.lt_or_eq with hlt | heq
  · have hmul : b * (x + 1) ≤ b * (y / b ^ i / b) := Nat.mul_le_mul_left b hlt
    have hcb := hc.1.1
    rw [Nat.mul_add, Nat.mul_one] at hmul
    omega
  · have hmod : c ≤ y / b ^ i % b := by
      refine hc.2 ⟨Nat.mod_lt _ hb, y, hy, ?_⟩
      rw [heq, hsplit]
    rw [← heq] at hsplit
    omega

end CLib
