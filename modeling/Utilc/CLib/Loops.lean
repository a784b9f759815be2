import Utilc.CLib.Checked

/-!
# Loops that run until a step has nothing left to give

`repeatUntil step rounds s` takes steps from `s` and collects their outputs until a step gives none. It
has no result when that takes more than `rounds` steps, so a result for all large `rounds` says that
the loop ends, and the least such number says when.
-/

namespace CLib

variable {σ ο : Type}

/-- At most `rounds` steps, up to the first one that gives no output. -/
def repeatUntil (step : σ → Checked (σ × Option ο)) : ℕ → σ → Checked (Option (σ × List ο))
  | 0, _ => .ok none
  | rounds + 1, s => do
    let r ← step s
    match r.2 with
    | none => return some (r.1, [])
    | some o => do
      let rest ← repeatUntil step rounds r.1
      return rest.map (fun t => (t.1, o :: t.2))

lemma repeatUntil_of_none {step : σ → Checked (σ × Option ο)} {s s' : σ}
    (h : step s = .ok (s', none)) (rounds : ℕ) :
    repeatUntil step (rounds + 1) s = .ok (some (s', [])) := by
  simp only [repeatUntil, h, ok_bind, pure_eq_ok]

lemma repeatUntil_of_some {step : σ → Checked (σ × Option ο)} {s s' : σ} {o : ο}
    (h : step s = .ok (s', some o)) (rounds : ℕ) :
    repeatUntil step (rounds + 1) s = (do
      let rest ← repeatUntil step rounds s'
      return rest.map (fun t => (t.1, o :: t.2))) := by
  simp only [repeatUntil, h, ok_bind]

/-- A loop gives out what is to do, if each step gives out the first part of it and the loop stops when
there is nothing to do. It takes one step more than there are parts. -/
theorem repeatUntil_eq (step : σ → Checked (σ × Option ο)) (ToDo : σ → List ο → Prop)
    (hnil : ∀ s, ToDo s [] → ∃ s', step s = .ok (s', none) ∧ ToDo s' [])
    (hcons : ∀ s o os, ToDo s (o :: os) → ∃ s', step s = .ok (s', some o) ∧ ToDo s' os)
    {s : σ} {os : List ο} (h : ToDo s os) :
    ∃ s', ToDo s' [] ∧ ∀ rounds, repeatUntil step rounds s =
      .ok (if os.length < rounds then some (s', os) else none) := by
  induction os generalizing s with
  | nil =>
    obtain ⟨s', hstep, hs'⟩ := hnil s h
    refine ⟨s', hs', fun rounds => ?_⟩
    cases rounds with
    | zero => rfl
    | succ rounds =>
      have hlt : ([] : List ο).length < rounds + 1 := Nat.succ_pos rounds
      rw [repeatUntil_of_none hstep, if_pos hlt]
  | cons o os ih =>
    obtain ⟨mid, hstep, hmid⟩ := hcons s o os h
    obtain ⟨s', hs', hrest⟩ := ih hmid
    refine ⟨s', hs', fun rounds => ?_⟩
    cases rounds with
    | zero => rfl
    | succ rounds =>
      rw [repeatUntil_of_some hstep, hrest, ok_bind, pure_eq_ok, List.length_cons]
      by_cases hlt : os.length < rounds
      · rw [if_pos hlt, if_pos (Nat.succ_lt_succ hlt), Option.map_some]
      · rw [if_neg hlt, if_neg (fun hlt' => hlt (Nat.lt_of_succ_lt_succ hlt')), Option.map_none]

end CLib
