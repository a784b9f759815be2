import Utilc.Idxpyr.Refinement

/-!
# A pyramid as a growing allocator of ids

A client that pops the first free index, grows the pyramid when there is none and sets an index
again to release it. It is compared with an allocator that only knows the set of held ids and
always takes the least natural number that is not held.
-/

namespace Utilc
open CLib

/-- Takes an id: `idxpyr_popFirst`, and on `IDXPYR_EMPTY` `idxpyr_increaseSize` and another
`idxpyr_popFirst`. -/
def takeId (pyr : Idxpyr) : Checked (Idxpyr × ℕ) := do
  let first ← idxpyrPopFirst pyr
  if first.2 = idxpyrEmpty then
    let bigger ← idxpyrIncreaseSize first.1
    idxpyrPopFirst bigger
  else
    return first

inductive IdOp where
  | take
  | release (id : ℕ)
  deriving DecidableEq, Repr

/-- A step of the client with the ids it holds. It releases only ids it holds. -/
def idStep (s : Idxpyr × Finset ℕ) : IdOp → Checked ((Idxpyr × Finset ℕ) × Option ℕ)
  | .take => do
    let (pyr, id) ← takeId s.1
    return ((pyr, insert id s.2), some id)
  | .release id => do
    require (id ∈ s.2) .assertFailed
    let pyr ← idxpyrSet s.1 id true
    return ((pyr, s.2.erase id), none)

def idRun (k : ℕ) (ops : List IdOp) : Checked ((Idxpyr × Finset ℕ) × List (Option ℕ)) := do
  let pyr ← idxpyrMake k true
  runOps idStep (pyr, ∅) ops

/-- The least natural number that is not held. -/
def leastFree (held : Finset ℕ) : ℕ := Nat.find held.exists_notMem

/-- The allocator that has ids below `2 ^ s.1` and holds `s.2`: it takes the least number not held
and grows only when that is out of range. -/
def leastIdStep (s : ℕ × Finset ℕ) : IdOp → Option ((ℕ × Finset ℕ) × Option ℕ)
  | .take =>
    if leastFree s.2 < 2 ^ s.1 then
      some ((s.1, insert (leastFree s.2) s.2), some (leastFree s.2))
    else if FitsRows (s.1 + 1) then
      some ((s.1 + 1, insert (leastFree s.2) s.2), some (leastFree s.2))
    else none
  | .release id => if id ∈ s.2 then some ((s.1, s.2.erase id), none) else none

def leastIdRun (k : ℕ) (ops : List IdOp) : Option ((ℕ × Finset ℕ) × List (Option ℕ)) :=
  if FitsRows (max k blockBitCountLog2) then
    runOps leastIdStep (max k blockBitCountLog2, ∅) ops
  else none

/-! ### The least free id -/

lemma isLeast_leastFree (held : Finset ℕ) : IsLeast {i | i ∉ held} (leastFree held) :=
  ⟨Nat.find_spec held.exists_notMem, fun _ hi => Nat.find_min' held.exists_notMem hi⟩

lemma leastFree_lt_iff {held : Finset ℕ} {m : ℕ} :
    leastFree held < m ↔ ¬∀ i < m, i ∈ held := by
  constructor
  · intro hlt hall
    exact (isLeast_leastFree held).1 (hall _ hlt)
  · intro hnot
    push Not at hnot
    obtain ⟨i, hi, hfree⟩ := hnot
    have hle := (isLeast_leastFree held).2 hfree
    omega

/-! ### The pyramid holds the complement of the held ids -/

/-- The pyramid of a client state marks exactly the ids that are not held. -/
structure MarksFree (A : BoolArray) (held : Finset ℕ) : Prop where
  stateInit : A.stateInit = true
  held_lt : ∀ i ∈ held, i < 2 ^ A.log2
  trues : ∀ i, i ∈ A.trues ↔ i < 2 ^ A.log2 ∧ i ∉ held

namespace MarksFree

variable {A : BoolArray} {held : Finset ℕ}

lemma first?_of_lt (h : MarksFree A held) (hlt : leastFree held < 2 ^ A.log2) :
    A.first? = some (leastFree held) := by
  apply BoolArray.first?_eq_some
  refine ⟨(h.trues _).mpr ⟨hlt, (isLeast_leastFree held).1⟩, ?_⟩
  intro i hi
  exact (isLeast_leastFree held).2 ((h.trues i).mp hi).2

lemma first?_of_not_lt (h : MarksFree A held) (hge : ¬leastFree held < 2 ^ A.log2) :
    A.first? = none := by
  apply BoolArray.first?_eq_none
  ext i
  simp only [Set.mem_empty_iff_false, iff_false]
  intro hi
  obtain ⟨hlt, hfree⟩ := (h.trues i).mp hi
  have hle := (isLeast_leastFree held).2 hfree
  omega

lemma pop (h : MarksFree A held) {id : ℕ} (hid : id < 2 ^ A.log2) :
    MarksFree (A.set id false) (insert id held) := by
  refine ⟨h.stateInit, ?_, ?_⟩
  · intro i hi
    rcases Finset.mem_insert.mp hi with rfl | hi
    · exact hid
    · exact h.held_lt i hi
  · intro i
    rw [BoolArray.mem_trues_set hid, Finset.mem_insert]
    by_cases he : i = id
    · simp [he]
    · rw [if_neg he, h.trues i]
      change _ ↔ i < 2 ^ A.log2 ∧ _
      tauto

lemma release (h : MarksFree A held) {id : ℕ} (hid : id ∈ held) :
    MarksFree (A.set id true) (held.erase id) := by
  have hlt := h.held_lt id hid
  refine ⟨h.stateInit, ?_, ?_⟩
  · intro i hi
    exact h.held_lt i (Finset.mem_of_mem_erase hi)
  · intro i
    rw [BoolArray.mem_trues_set hlt, Finset.mem_erase]
    change _ ↔ i < 2 ^ A.log2 ∧ _
    by_cases he : i = id
    · simp [he, hlt]
    · rw [if_neg he, h.trues i]
      tauto

lemma grow (h : MarksFree A held) : MarksFree A.grow held := by
  have hle : 2 ^ A.log2 ≤ 2 ^ (A.log2 + 1) := Nat.pow_le_pow_right Nat.two_pos (by omega)
  have hlog2 : A.grow.log2 = A.log2 + 1 := rfl
  refine ⟨h.stateInit, ?_, ?_⟩
  · intro i hi
    have hlt := h.held_lt i hi
    rw [hlog2]
    omega
  · intro i
    rw [BoolArray.mem_trues_grow, hlog2]
    by_cases hlt : i < 2 ^ A.log2
    · rw [if_pos hlt, h.trues i]
      have hlt' : i < 2 ^ (A.log2 + 1) := by omega
      simp [hlt, hlt']
    · have hfree : i ∉ held := fun hi => hlt (h.held_lt i hi)
      rw [if_neg hlt]
      simp [h.stateInit, hfree]

/-- All ids below a power of two are held, none above: the growth makes the next one available. -/
lemma leastFree_lt_grow (h : MarksFree A held) : leastFree held < 2 ^ A.grow.log2 := by
  have hfree : 2 ^ A.log2 ∉ held := fun hi => lt_irrefl _ (h.held_lt _ hi)
  have hle := (isLeast_leastFree held).2 hfree
  have hlt : 2 ^ A.log2 < 2 ^ (A.log2 + 1) := Nat.pow_lt_pow_right Nat.one_lt_two (by omega)
  change leastFree held < 2 ^ (A.log2 + 1)
  omega

end MarksFree

/-- What holds when the client is about to take an id: the first pop fails exactly when every id of
the pyramid is held, and after a growth the second pop yields an id. -/
structure TakeReady (pyr : Idxpyr) (held : Finset ℕ) : Prop where
  empty_iff : idxpyrPopFirst pyr = .ok (pyr, idxpyrEmpty) ↔ ∀ i < 2 ^ pyr.indexCountLog2, i ∈ held
  second_pop : (∀ i < 2 ^ pyr.indexCountLog2, i ∈ held) → FitsRows (pyr.indexCountLog2 + 1) →
    ∃ bigger next id, idxpyrIncreaseSize pyr = .ok bigger ∧
      idxpyrPopFirst bigger = .ok (next, id) ∧ id ≠ idxpyrEmpty

def IdsRelated (s : Idxpyr × Finset ℕ) (t : ℕ × Finset ℕ) : Prop :=
  s.1.indexCountLog2 = t.1 ∧ s.2 = t.2 ∧ ∃ A, Refines s.1 A ∧ MarksFree A s.2

lemma popFirst_some {P : Pyramid} {A : BoolArray} {id : ℕ} (hA : Represents P A)
    (hfirst : A.first? = some id) :
    ∃ Q : Pyramid, idxpyrPopFirst P.toIdxpyr = .ok (Q.toIdxpyr, id) ∧
      Represents Q (A.set id false) ∧ id ≠ idxpyrEmpty := by
  obtain ⟨Q, hpop, hQ⟩ := represents_popFirst hA
  rw [hfirst] at hpop hQ
  exact ⟨Q, hpop, hQ, (lt_idxpyrEmpty (hA.first?_lt hfirst)).ne⟩

lemma popFirst_none {P : Pyramid} {A : BoolArray} (hA : Represents P A)
    (hfirst : A.first? = none) :
    idxpyrPopFirst P.toIdxpyr = .ok (P.toIdxpyr, idxpyrEmpty) := by
  have hget := represents_getFirst hA
  rw [hfirst] at hget
  simp only [idxpyrPopFirst, hget, ok_bind, Option.getD_none]
  rfl

lemma MarksFree.takeReady {P : Pyramid} {A : BoolArray} {held : Finset ℕ} (hA : Represents P A)
    (h : MarksFree A held) : TakeReady P.toIdxpyr held := by
  have hlog2 := hA.log2
  have hall : (∀ i < 2 ^ P.indexCountLog2, i ∈ held) ↔ ¬leastFree held < 2 ^ A.log2 := by
    rw [leastFree_lt_iff, not_not, hlog2]
  refine ⟨?_, ?_⟩
  · change _ ↔ ∀ i < 2 ^ P.indexCountLog2, i ∈ held
    rw [hall]
    constructor
    · intro hpop hlt
      obtain ⟨Q, hpop', -, hne⟩ := popFirst_some hA (h.first?_of_lt hlt)
      rw [hpop'] at hpop
      exact hne (Prod.ext_iff.mp (Except.ok.inj hpop)).2
    · intro hge
      exact popFirst_none hA (h.first?_of_not_lt hge)
  · intro _ hfit
    have h60 : P.indexCountLog2 + 1 ≤ 60 := fitsRows_iff.mp hfit
    obtain ⟨B, hgrow, hB⟩ := represents_increaseSize hA h60
    obtain ⟨Q, hpop, -, hne⟩ := popFirst_some hB (h.grow.first?_of_lt h.leastFree_lt_grow)
    exact ⟨_, _, _, hgrow, hpop, hne⟩

/-! ### The step and the run -/

theorem idStep_agree (s : Idxpyr × Finset ℕ) (t : ℕ × Finset ℕ) (op : IdOp)
    (h : IdsRelated s t) : Agree IdsRelated (idStep s op) (leastIdStep t op) := by
  obtain ⟨pyr, held⟩ := s
  obtain ⟨n, held'⟩ := t
  obtain ⟨hn, hheld, A, ⟨P, rfl, hA⟩, hmarks⟩ := h
  dsimp only at hn hheld hA hmarks
  subst hn hheld
  have hlog2 : A.log2 = P.toIdxpyr.indexCountLog2 := hA.log2
  cases op with
  | take =>
    by_cases hlt : leastFree held < 2 ^ A.log2
    · obtain ⟨Q, hpop, hQ, hne⟩ := popFirst_some hA (hmarks.first?_of_lt hlt)
      simp only [idStep, takeId, hpop, ok_bind, if_neg hne, pure_eq_ok, leastIdStep, ← hlog2,
        if_pos hlt]
      exact ⟨rfl, hQ.log2.symm, rfl, _, ⟨Q, rfl, hQ⟩, hmarks.pop hlt⟩
    · have hpop := popFirst_none hA (hmarks.first?_of_not_lt hlt)
      by_cases hfit : FitsRows (A.log2 + 1)
      · have h60 := fitsRows_iff.mp hfit
        rw [hA.log2] at h60
        obtain ⟨B, hgrow, hB⟩ := represents_increaseSize hA h60
        have hlt' := hmarks.leastFree_lt_grow
        obtain ⟨Q, hpop', hQ, -⟩ := popFirst_some hB (hmarks.grow.first?_of_lt hlt')
        simp only [idStep, takeId, hpop, ok_bind, if_true, hgrow, hpop', pure_eq_ok, leastIdStep,
          ← hlog2, if_neg hlt, if_pos hfit]
        exact ⟨rfl, hQ.log2.symm, rfl, _, ⟨Q, rfl, hQ⟩, hmarks.grow.pop hlt'⟩
      · have h60 : ¬A.log2 + 1 ≤ 60 := fun hle => hfit (fitsRows_iff.mpr hle)
        rw [hA.log2] at h60
        obtain ⟨e, hfault⟩ := idxpyrIncreaseSize_fault (not_le.mp h60)
        simp only [idStep, takeId, hpop, ok_bind, if_true, hfault, error_bind, leastIdStep,
          ← hlog2, if_neg hlt, if_neg hfit]
        trivial
  | release id =>
    by_cases hid : id ∈ held
    · have hlt := hmarks.held_lt id hid
      rw [hA.log2] at hlt
      obtain ⟨Q, hset, hQ⟩ := represents_set hA hlt true
      simp only [idStep, require_of hid, ok_bind, hset, pure_eq_ok, leastIdStep, if_pos hid]
      exact ⟨rfl, hQ.log2.symm.trans hlog2, rfl, _, ⟨Q, rfl, hQ⟩, hmarks.release hid⟩
    · simp only [idStep, require_of_not hid, error_bind, leastIdStep, if_neg hid]
      trivial

theorem idRun_agree (k : ℕ) (ops : List IdOp) :
    Agree IdsRelated (idRun k ops) (leastIdRun k ops) := by
  unfold idRun leastIdRun
  rw [← idxpyrMake_max]
  obtain ⟨n, hn⟩ : ∃ n, n = max k blockBitCountLog2 := ⟨_, rfl⟩
  have h4 : 4 ≤ n := hn ▸ le_max_right _ _
  rw [← hn]
  by_cases hfit : FitsRows n
  · obtain ⟨P, hmake, hP⟩ := represents_make h4 (fitsRows_iff.mp hfit) true
    have hmarks : MarksFree (BoolArray.make n true) ∅ := by
      refine ⟨rfl, by simp, fun i => ?_⟩
      have hmem : i ∈ ((BoolArray.make n true).setAll true).trues ↔ _ :=
        BoolArray.mem_trues_setAll
      change i ∈ (BoolArray.make n true).trues ↔ _ at hmem
      rw [hmem]
      simp
    rw [hmake, if_pos hfit]
    exact runOps_agree idStep_agree ⟨hP.log2.symm, rfl, _, ⟨P, rfl, hP⟩, hmarks⟩ ops
  · have h60 : 60 < n := not_le.mp fun hle => hfit (fitsRows_iff.mpr hle)
    obtain ⟨e, hfault⟩ := idxpyrMake_fault h60 true
    rw [hfault, if_neg hfit]
    trivial

/-- An allocator on a pyramid never hands out a held id. In every interleaving of takes and
releases each take returns the least number not held at that moment, growth happens exactly when
all ids are held, and the pop after a growth succeeds. The run faults only where the height would
not fit `rows[]` or an id is released that is not held. -/
theorem idRun_takes_least_free (k : ℕ) (ops : List IdOp) :
    Agree (fun s t => s.1.indexCountLog2 = t.1 ∧ s.2 = t.2 ∧ TakeReady s.1 s.2)
      (idRun k ops) (leastIdRun k ops) := by
  have h := idRun_agree k ops
  cases hrun : idRun k ops with
  | error e =>
    cases hspec : leastIdRun k ops with
    | none => trivial
    | some r => simp [hrun, hspec, Agree] at h
  | ok r =>
    obtain ⟨t, hspec, hn, hheld, A, ⟨P, hP, hA⟩, hmarks⟩ := h.of_ok hrun
    rw [hspec]
    refine ⟨rfl, hn, hheld, ?_⟩
    rw [hP]
    exact hmarks.takeReady hA

end Utilc
