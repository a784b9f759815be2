import Utilc.CLib.Runs

/-!
# Runs of a specification that leaves choices open

A specification as a relation between states says what an operation may give out. A program refines it
when, from related states, each operation that it is allowed to be asked for has a result that the
specification has too. What is allowed may depend on the state of the program.
-/

namespace CLib

variable {σ τ ι ο ε : Type}

/-- A run of a specification. -/
inductive SpecRun (spec : τ → ι → ο → τ → Prop) : τ → List ι → List ο → τ → Prop
  | nil (t : τ) : SpecRun spec t [] [] t
  | cons {t t' t'' : τ} {i : ι} {o : ο} {is : List ι} {os : List ο} (hstep : spec t i o t')
      (hrest : SpecRun spec t' is os t'') : SpecRun spec t (i :: is) (o :: os) t''

/-- Each operation is allowed in the state in which it is executed. -/
def AllAllowed (step : σ → ι → Except ε (σ × ο)) (allowed : σ → ι → Prop) : σ → List ι → Prop
  | _, [] => True
  | s, i :: is => allowed s i ∧ ∀ s' o, step s i = .ok (s', o) → AllAllowed step allowed s' is

lemma AllAllowed.cons_ok {step : σ → ι → Except ε (σ × ο)} {allowed : σ → ι → Prop} {s s' : σ} {i : ι}
    {is : List ι} {o : ο} (hi : allowed s i) (hone : step s i = .ok (s', o))
    (hrest : AllAllowed step allowed s' is) : AllAllowed step allowed s (i :: is) := by
  refine ⟨hi, fun t o' ht => ?_⟩
  rw [hone] at ht
  cases ht
  exact hrest

/-- A property kept by every allowed step holds after every run. -/
theorem runOps_allowed {step : σ → ι → Except ε (σ × ο)} {allowed : σ → ι → Prop} (I : σ → Prop)
    (hstep : ∀ s i s' o, I s → allowed s i → step s i = .ok (s', o) → I s') {s s' : σ} {is : List ι}
    {os : List ο} (hs : I s) (hallowed : AllAllowed step allowed s is)
    (hrun : runOps step s is = .ok (s', os)) : I s' := by
  induction is generalizing s os with
  | nil =>
    obtain ⟨rfl, -⟩ := runOps_nil_ok.mp hrun
    exact hs
  | cons i is ih =>
    obtain ⟨t, o, os', ht, hrest, -⟩ := runOps_cons_ok.mp hrun
    exact ih (hstep s i t o hs hallowed.1 ht) (hallowed.2 t o ht) hrest

/-- A step-by-step refinement gives every allowed run a result, which the specification has too. -/
theorem runOps_refines {R : σ → τ → Prop} {step : σ → ι → Except ε (σ × ο)} {allowed : σ → ι → Prop}
    {spec : τ → ι → ο → τ → Prop}
    (hstep : ∀ s t i, R s t → allowed s i →
      ∃ s' o t', step s i = .ok (s', o) ∧ spec t i o t' ∧ R s' t')
    {s : σ} {t : τ} {is : List ι} (hst : R s t) (hallowed : AllAllowed step allowed s is) :
    ∃ s' os t', runOps step s is = .ok (s', os) ∧ SpecRun spec t is os t' ∧ R s' t' := by
  induction is generalizing s t with
  | nil => exact ⟨s, [], t, rfl, SpecRun.nil t, hst⟩
  | cons i is ih =>
    obtain ⟨s₁, o, t₁, hone, hspec, hR⟩ := hstep s t i hst hallowed.1
    obtain ⟨s', os, t', hrun, hrest, hR'⟩ := ih hR (hallowed.2 s₁ o hone)
    refine ⟨s', o :: os, t', ?_, SpecRun.cons hspec hrest, hR'⟩
    exact runOps_cons_ok.mpr ⟨s₁, o, os, hone, hrun, rfl⟩

/-- Step-by-step agreement for the allowed operations gives agreement of an allowed run. -/
theorem runOps_agree_of_allowed {R : σ → τ → Prop} {step : σ → ι → Except ε (σ × ο)}
    {allowed : σ → ι → Prop} {spec : τ → ι → Option (τ × ο)}
    (h : ∀ s t i, R s t → allowed s i → Agree R (step s i) (spec t i)) {s : σ} {t : τ} {is : List ι}
    (hst : R s t) (hallowed : AllAllowed step allowed s is) :
    Agree R (runOps step s is) (runOps spec t is) := by
  induction is generalizing s t with
  | nil => exact ⟨rfl, hst⟩
  | cons i is ih =>
    have hi := h s t i hst hallowed.1
    unfold runOps
    cases hs : step s i with
    | error e =>
      rw [hs] at hi
      cases ht : spec t i with
      | none => trivial
      | some q =>
        rw [ht] at hi
        exact hi.elim
    | ok r =>
      obtain ⟨t', ht, hR⟩ := hi.of_ok hs
      have hrest := ih hR (hallowed.2 r.1 r.2 hs)
      rw [ht]
      cases hs' : runOps step r.1 is with
      | error e =>
        rw [hs'] at hrest
        cases ht' : runOps spec t' is with
        | none =>
          change Agree R (runOps step r.1 is >>= _) (runOps spec t' is >>= _)
          rw [hs', ht']
          trivial
        | some q =>
          rw [ht'] at hrest
          exact hrest.elim
      | ok rs =>
        obtain ⟨t'', ht'', hR'⟩ := hrest.of_ok hs'
        change Agree R (runOps step r.1 is >>= _) (runOps spec t' is >>= _)
        rw [hs', ht'']
        exact ⟨rfl, hR'⟩

end CLib
