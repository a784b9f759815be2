import Mathlib.Tactic

/-!
# Runs of a system that takes operations one after another

`runOps step s is` executes the operations `is` from `s` and collects their outputs; it stops at
the first operation that has no result. The same definition serves a program, whose steps may
fault, and its specification, whose steps may be undefined. `runOps_agree` lifts a step-by-step
agreement of the two to runs of any length.
-/

namespace CLib

variable {σ τ ι ο ε : Type}

/-- Executes operations in order and collects the outputs. -/
def runOps {m : Type → Type} [Monad m] (step : σ → ι → m (σ × ο)) : σ → List ι → m (σ × List ο)
  | s, [] => pure (s, [])
  | s, i :: is => do
    let r ← step s i
    let rs ← runOps step r.1 is
    pure (rs.1, r.2 :: rs.2)

lemma runOps_cons_ok {step : σ → ι → Except ε (σ × ο)} {s s' : σ} {i : ι} {is : List ι}
    {os : List ο} :
    runOps step s (i :: is) = .ok (s', os) ↔
      ∃ t o os', step s i = .ok (t, o) ∧ runOps step t is = .ok (s', os') ∧ os = o :: os' := by
  cases hs : step s i with
  | error e => simp [runOps, hs, bind, Except.bind]
  | ok r =>
    cases hr : runOps step r.1 is with
    | error e =>
      rcases r with ⟨t, o⟩
      simp_all [runOps, bind, Except.bind]
    | ok rs =>
      rcases r with ⟨t, o⟩
      rcases rs with ⟨t', os'⟩
      simp_all [runOps, bind, Except.bind, pure, Except.pure, eq_comm]

@[simp] lemma runOps_nil_ok {step : σ → ι → Except ε (σ × ο)} {s s' : σ} {os : List ο} :
    runOps step s [] = .ok (s', os) ↔ s' = s ∧ os = [] := by
  simp [runOps, pure, Except.pure, eq_comm]

/-- A property kept by every step holds after every run. -/
theorem runOps_invariant {step : σ → ι → Except ε (σ × ο)} (I : σ → Prop)
    (hstep : ∀ s i s' o, I s → step s i = .ok (s', o) → I s') {s s' : σ} {is : List ι}
    {os : List ο} (hs : I s) (hrun : runOps step s is = .ok (s', os)) : I s' := by
  induction is generalizing s os with
  | nil =>
    obtain ⟨rfl, -⟩ := runOps_nil_ok.mp hrun
    exact hs
  | cons i is ih =>
    obtain ⟨t, o, os', ht, hrest, -⟩ := runOps_cons_ok.mp hrun
    exact ih (hstep s i t o hs ht) hrest

/-- When every step hands out, in order, what was held before it and what it takes in, so does every
run. -/
theorem runOps_conserves {β : Type} {step : σ → ι → Except ε (σ × ο)} (I : σ → Prop)
    (held : σ → List β) (took : ι → List β) (gave : ο → List β)
    (hstep : ∀ s i s' o, I s → step s i = .ok (s', o) →
      I s' ∧ held s ++ took i = gave o ++ held s')
    {s s' : σ} {is : List ι} {os : List ο} (hs : I s) (hrun : runOps step s is = .ok (s', os)) :
    held s ++ is.flatMap took = os.flatMap gave ++ held s' := by
  induction is generalizing s os with
  | nil =>
    obtain ⟨rfl, rfl⟩ := runOps_nil_ok.mp hrun
    simp
  | cons i is ih =>
    obtain ⟨t, o, os', ht, hrest, rfl⟩ := runOps_cons_ok.mp hrun
    obtain ⟨hIt, hcons⟩ := hstep s i t o hs ht
    calc held s ++ (i :: is).flatMap took
        = (held s ++ took i) ++ is.flatMap took := by
          rw [List.flatMap_cons, List.append_assoc]
      _ = gave o ++ (held t ++ is.flatMap took) := by rw [hcons, List.append_assoc]
      _ = gave o ++ (os'.flatMap gave ++ held s') := by rw [ih hIt hrest]
      _ = (o :: os').flatMap gave ++ held s' := by
          rw [List.flatMap_cons, List.append_assoc]

/-- An outcome of a program agrees with an outcome of its specification: either neither has a
result, or both have the same output and related states. -/
def Agree (R : σ → τ → Prop) : Except ε (σ × ο) → Option (τ × ο) → Prop
  | .ok (s, o), some (t, o') => o = o' ∧ R s t
  | .error _, none => True
  | _, _ => False

namespace Agree

variable {R : σ → τ → Prop}

lemma of_ok {x : Except ε (σ × ο)} {y : Option (τ × ο)} {s : σ} {o : ο} (h : Agree R x y)
    (hx : x = .ok (s, o)) : ∃ t, y = some (t, o) ∧ R s t := by
  subst hx
  rcases y with _ | ⟨t, o'⟩
  · exact h.elim
  · obtain ⟨rfl, hR⟩ := h
    exact ⟨t, rfl, hR⟩

lemma of_some {x : Except ε (σ × ο)} {y : Option (τ × ο)} {t : τ} {o : ο} (h : Agree R x y)
    (hy : y = some (t, o)) : ∃ s, x = .ok (s, o) ∧ R s t := by
  subst hy
  rcases x with e | ⟨s, o'⟩
  · exact h.elim
  · obtain ⟨rfl, hR⟩ := h
    exact ⟨s, rfl, hR⟩

lemma mono {R' : σ → τ → Prop} {x : Except ε (σ × ο)} {y : Option (τ × ο)} (h : Agree R x y)
    (hR : ∀ s t, R s t → R' s t) : Agree R' x y := by
  rcases x with e | ⟨s, o⟩
  · rcases y with _ | ⟨t, o'⟩
    · trivial
    · exact h.elim
  · obtain ⟨t, rfl, hst⟩ := h.of_ok rfl
    exact ⟨rfl, hR s t hst⟩

end Agree

/-- Step-by-step agreement on the operations of a run gives agreement of the run. -/
theorem runOps_agree_of_mem {R : σ → τ → Prop} {step : σ → ι → Except ε (σ × ο)}
    {spec : τ → ι → Option (τ × ο)} {is : List ι}
    (h : ∀ s t, ∀ i ∈ is, R s t → Agree R (step s i) (spec t i)) {s : σ} {t : τ} (hst : R s t) :
    Agree R (runOps step s is) (runOps spec t is) := by
  induction is generalizing s t with
  | nil => exact ⟨rfl, hst⟩
  | cons i is ih =>
    have hi := h s t i List.mem_cons_self hst
    have hmem : ∀ s t, ∀ j ∈ is, R s t → Agree R (step s j) (spec t j) :=
      fun s t j hj => h s t j (List.mem_cons_of_mem _ hj)
    cases hs : step s i with
    | error e =>
      cases ht : spec t i with
      | some q => simp [hs, ht, Agree] at hi
      | none => simp [runOps, hs, ht, bind, Except.bind, Agree]
    | ok r =>
      obtain ⟨t', ht, hR⟩ := hi.of_ok hs
      have hrest := ih hmem hR
      cases hs' : runOps step r.1 is with
      | error e =>
        cases ht' : runOps spec t' is with
        | some q => simp [hs', ht', Agree] at hrest
        | none => simp [runOps, hs, ht, hs', ht', bind, Except.bind, Agree]
      | ok rs =>
        obtain ⟨t'', ht'', hR'⟩ := hrest.of_ok hs'
        simp [runOps, hs, ht, hs', ht'', bind, Except.bind, pure, Except.pure, Agree, hR']

/-- Step-by-step agreement gives agreement of whole runs. -/
theorem runOps_agree {R : σ → τ → Prop} {step : σ → ι → Except ε (σ × ο)}
    {spec : τ → ι → Option (τ × ο)} (h : ∀ s t i, R s t → Agree R (step s i) (spec t i))
    {s : σ} {t : τ} (hst : R s t) (is : List ι) :
    Agree R (runOps step s is) (runOps spec t is) :=
  runOps_agree_of_mem (fun s t i _ => h s t i) hst

end CLib
