import Utilc.CLib.Refines

/-!
# Costs of runs

What the operations of a run cost together, by a potential: an operation that costs more than is charged
for it has to lower the potential by the difference.
-/

namespace CLib

variable {σ ι ο ε : Type}

/-- The sum of the costs of the operations, each in the state in which it is executed. -/
def runCost (step : σ → ι → Except ε (σ × ο)) (cost : σ → ι → ℕ) : σ → List ι → ℕ
  | _, [] => 0
  | s, i :: is => cost s i + ((step s i).toOption.map fun r => runCost step cost r.1 is).getD 0

variable {step : σ → ι → Except ε (σ × ο)} {cost : σ → ι → ℕ} {s s' : σ} {i : ι} {is : List ι}
  {o : ο} {os : List ο}

lemma runCost_cons (h : step s i = .ok (s', o)) :
    runCost step cost s (i :: is) = cost s i + runCost step cost s' is := by
  rw [runCost, h]
  rfl

/-- Operations that raise the potential by what they cost. -/
theorem runCost_eq (I : σ → Prop) (potential : σ → ℕ)
    (hstep : ∀ s i s' o, I s → i ∈ is → step s i = .ok (s', o) →
      I s' ∧ cost s i + potential s = potential s')
    (hs : I s) (hrun : runOps step s is = .ok (s', os)) :
    runCost step cost s is + potential s = potential s' := by
  induction is generalizing s os with
  | nil =>
    obtain ⟨rfl, -⟩ := runOps_nil_ok.mp hrun
    exact Nat.zero_add _
  | cons i is ih =>
    obtain ⟨t, o, os', ht, hrest, -⟩ := runOps_cons_ok.mp hrun
    obtain ⟨hIt, hone⟩ := hstep s i t o hs List.mem_cons_self ht
    have htail := ih (fun s j s' o hI hj => hstep s j s' o hI (List.mem_cons_of_mem i hj)) hIt hrest
    rw [runCost_cons ht]
    omega

/-- Operations that cost no more than what is charged for them and what they take from the
potential. -/
theorem runCost_le {allowed : σ → ι → Prop} (I : σ → Prop) (potential : σ → ℤ) (charge : ι → ℕ)
    (hstep : ∀ s i s' o, I s → allowed s i → step s i = .ok (s', o) →
      I s' ∧ cost s i + potential s' ≤ charge i + potential s)
    (hs : I s) (hallowed : AllAllowed step allowed s is) (hrun : runOps step s is = .ok (s', os)) :
    runCost step cost s is + potential s' ≤ (is.map charge).sum + potential s := by
  induction is generalizing s os with
  | nil =>
    obtain ⟨rfl, -⟩ := runOps_nil_ok.mp hrun
    exact le_rfl
  | cons i is ih =>
    obtain ⟨t, o, os', ht, hrest, -⟩ := runOps_cons_ok.mp hrun
    obtain ⟨hIt, hone⟩ := hstep s i t o hs hallowed.1 ht
    have htail := ih hIt (hallowed.2 t o ht) hrest
    rw [runCost_cons ht, List.map_cons, List.sum_cons, Nat.cast_add, Nat.cast_add]
    omega

end CLib
