import Utilc.CLib.Checked

/-!
# Loops with a bound

A C loop becomes a recursion that takes a bound on its turns. It returns a value, or it stops at a
fault, or the turns were not enough. A result for some bound is the result of the loop.
-/

namespace CLib

/-- Why a loop stops without a result. -/
inductive Stop where
  | fault (f : Fault)
  | unfinished
  deriving DecidableEq, Repr

abbrev Bounded (α : Type) := Except Stop α

instance : MonadLift Checked Bounded where
  monadLift
    | .ok a => .ok a
    | .error f => .error (.fault f)

namespace Bounded

variable {α β : Type}

@[simp] lemma liftM_ok (a : α) : (liftM (.ok a : Checked α) : Bounded α) = .ok a := rfl

lemma liftM_eq_ok {x : Checked α} {a : α} : (liftM x : Bounded α) = .ok a ↔ x = .ok a := by
  cases x with
  | error f => exact ⟨nofun, nofun⟩
  | ok b => simp

@[simp] lemma ok_bind (a : α) (f : α → Bounded β) : (Except.ok a >>= f) = f a := rfl

@[simp] lemma error_bind (e : Stop) (f : α → Bounded β) :
    ((Except.error e : Bounded α) >>= f) = Except.error e := rfl

@[simp] lemma pure_eq_ok (a : α) : (pure a : Bounded α) = Except.ok a := rfl

lemma bind_eq_ok {x : Bounded α} {f : α → Bounded β} {b : β} :
    (x >>= f) = .ok b ↔ ∃ a, x = .ok a ∧ f a = .ok b := by
  cases x with
  | error e => simp
  | ok a => simp

/-- A loop over `0, ..., n - 1` each of whose turns keeps `P` going. -/
lemma foldlM_range {ε σ : Type} {f : σ → ℕ → Except ε σ} (P : ℕ → σ → Prop) {n : ℕ} {s : σ}
    (hs : P 0 s) (hstep : ∀ j < n, ∀ s, P j s → ∃ s', f s j = .ok s' ∧ P (j + 1) s') :
    ∃ s', (List.range n).foldlM f s = .ok s' ∧ P n s' := by
  induction n with
  | zero => exact ⟨s, rfl, hs⟩
  | succ n ih =>
    obtain ⟨mid, hmid, hP⟩ := ih fun j hj => hstep j (hj.trans (Nat.lt_succ_self n))
    obtain ⟨s', hs', hP'⟩ := hstep n (Nat.lt_succ_self n) mid hP
    refine ⟨s', ?_, hP'⟩
    have hlast : (Except.ok mid >>= fun t => [n].foldlM f t) = f mid n := by
      simp only [List.foldlM_cons, List.foldlM_nil, bind_pure]
      rfl
    rw [List.range_succ, List.foldlM_append, hmid, hlast, hs']

/-- The turns that a loop over a list takes, a turn without a result being its last one. -/
def loopTurns {ε σ ι : Type} (f : σ → ι → Except ε σ) : σ → List ι → ℕ
  | _, [] => 0
  | s, i :: is => 1 + ((f s i).toOption.map fun s' => loopTurns f s' is).getD 0

lemma loopTurns_of_ok {ε σ ι : Type} {f : σ → ι → Except ε σ} {s s' : σ} {is : List ι}
    (h : is.foldlM f s = .ok s') : loopTurns f s is = is.length := by
  induction is generalizing s with
  | nil => rfl
  | cons i is ih =>
    rw [List.foldlM_cons] at h
    cases hi : f s i with
    | error e =>
      rw [hi] at h
      cases h
    | ok mid =>
      rw [hi] at h
      rw [loopTurns, hi, List.length_cons, Nat.add_comm is.length]
      exact congrArg (1 + ·) (ih h)

end Bounded

end CLib
