import Utilc.Circbuf.Queue

/-!
# Automatic growth

A buffer that only `circbuf_dynamicPut` enlarges has the least capacity that holds as many elements as
it ever had at once.
-/

namespace Utilc
open CLib

variable {α : Type}

/-- A queue and the largest length it has had. -/
structure PeakQueue (α : Type) where
  items : List α
  peak : ℕ
  length_le : items.length ≤ peak

namespace PeakQueue

def empty : PeakQueue α where
  items := []
  peak := 0
  length_le := by simp

def put (Q : PeakQueue α) (elem : α) : PeakQueue α where
  items := Q.items ++ [elem]
  peak := max Q.peak (Q.items.length + 1)
  length_le := by simp

def pop (Q : PeakQueue α) : PeakQueue α where
  items := Q.items.tail
  peak := Q.peak
  length_le := by
    have h := Q.length_le
    rw [List.length_tail]
    omega

end PeakQueue

def CircbufOp.IsDynamic : CircbufOp α → Prop
  | .dynamicPut _ => True
  | .popBack => True
  | _ => False

/-- What the calls do on a queue of at most `2 ^ 30` elements. -/
def peakStep (Q : PeakQueue α) : CircbufOp α → Option (PeakQueue α × Option α)
  | .dynamicPut elem => if Q.items.length < 2 ^ 30 then some (Q.put elem, none) else none
  | .popBack => Q.items.head?.map (fun elem => (Q.pop, some elem))
  | _ => none

/-! ### The least capacity -/

/-- `c` is the least exponent from `k` on whose power is not below `peak`. -/
def LeastLog2 (k peak c : ℕ) : Prop := IsLeast {c | k ≤ c ∧ peak ≤ 2 ^ c} c

namespace LeastLog2

variable {k peak c : ℕ}

lemma zero (k : ℕ) : LeastLog2 k 0 k := by
  refine ⟨⟨le_rfl, Nat.zero_le _⟩, ?_⟩
  rintro c ⟨hk, -⟩
  exact hk

/-- A larger peak that still fits. -/
lemma fits (h : LeastLog2 k peak c) {peak' : ℕ} (hle : peak ≤ peak') (hfits : peak' ≤ 2 ^ c) :
    LeastLog2 k peak' c := by
  refine ⟨⟨h.1.1, hfits⟩, ?_⟩
  rintro b ⟨hk, hb⟩
  exact h.2 ⟨hk, hle.trans hb⟩

/-- One element more than fits. -/
lemma doubled (h : LeastLog2 k (2 ^ c) c) : LeastLog2 k (2 ^ c + 1) (c + 1) := by
  have hpos := Nat.two_pow_pos c
  refine ⟨⟨h.1.1.trans (Nat.le_succ c), ?_⟩, ?_⟩
  · rw [pow_succ]
    omega
  · rintro b ⟨-, hb⟩
    exact (Nat.pow_lt_pow_iff_right (by decide : 1 < 2)).mp hb

end LeastLog2

/-! ### Runs -/

variable [Zero α]

/-- `buf` holds the elements of `Q` in the least capacity for its peak. -/
structure HoldsPeak (k : ℕ) (buf : Circbuf α) (Q : PeakQueue α) : Prop where
  ring : ∃ R : Ring α, buf = R.toCircbuf ∧ R.contents = Q.items
  least : LeastLog2 k Q.peak buf.capacityLog2

lemma HoldsPeak.dynamicPut {k : ℕ} {buf : Circbuf α} {Q : PeakQueue α} (h : HoldsPeak k buf Q)
    (elem : α) :
    Agree (HoldsPeak k) (circbufStep buf (.dynamicPut elem)) (peakStep Q (.dynamicPut elem)) := by
  obtain ⟨R, rfl, hitems⟩ := h.ring
  have hleast : LeastLog2 k Q.peak R.capacityLog2 := h.least
  have hlen : Q.items.length = R.length := by rw [← hitems, R.length_contents]
  have hpeak := Q.length_le
  have hcap := capacity_le R.log2_le
  have hle := R.length_le
  simp only [peakStep, hlen, circbufStep]
  by_cases hlt : R.length < 2 ^ R.capacityLog2
  · rw [Ring.dynamicPut_of_lt elem hlt, if_pos (hlt.trans_le hcap)]
    refine ⟨rfl, ⟨R.put elem hlt, rfl, ?_⟩, ?_⟩
    · rw [R.contents_put, hitems]
      rfl
    · apply hleast.fits (le_max_left _ _)
      apply max_le hleast.1.2
      rw [hlen]
      exact hlt
  · -- the buffer is full, so its length is the peak
    have hfull : R.length = 2 ^ R.capacityLog2 := by omega
    have hpeak' : Q.peak = 2 ^ R.capacityLog2 := by
      have hfits := hleast.1.2
      omega
    by_cases hlog2 : R.capacityLog2 + 1 ≤ 30
    · have hpow : 2 ^ R.capacityLog2 < 2 ^ 30 := Nat.pow_lt_pow_right Nat.one_lt_two hlog2
      obtain ⟨S, hput, hS, hcontents⟩ := Ring.dynamicPut_of_full elem hfull hlog2
      rw [hput, if_pos (hfull ▸ hpow)]
      refine ⟨rfl, ⟨S, rfl, ?_⟩, ?_⟩
      · rw [hcontents, hitems]
        rfl
      · have hgrown : (Q.put elem).peak = 2 ^ R.capacityLog2 + 1 := by
          change max Q.peak (Q.items.length + 1) = _
          rw [hlen, hfull, hpeak', max_eq_right (Nat.le_succ _)]
        rw [hpeak'] at hleast
        rw [hgrown]
        change LeastLog2 k _ S.capacityLog2
        rw [hS]
        exact hleast.doubled
    · have hpow : 2 ^ 30 ≤ 2 ^ R.capacityLog2 := Nat.pow_le_pow_right Nat.two_pos (by omega)
      rw [Ring.dynamicPut_fault hfull hlog2, if_neg (by omega)]
      trivial

lemma HoldsPeak.popBack {k : ℕ} {buf : Circbuf α} {Q : PeakQueue α} (h : HoldsPeak k buf Q) :
    Agree (HoldsPeak k) (circbufStep buf .popBack) (peakStep Q .popBack) := by
  obtain ⟨R, rfl, hitems⟩ := h.ring
  by_cases hlen : 0 < R.length
  · have hcons := Ring.contents_eq_cons hlen
    simp only [circbufStep, Ring.popBack_ok hlen, ok_bind, pure_eq_ok, peakStep, ← hitems, hcons,
      List.head?_cons, Option.map_some]
    refine ⟨rfl, ⟨R.popBack, rfl, ?_⟩, h.least⟩
    change R.popBack.contents = Q.items.tail
    rw [← hitems, hcons, List.tail_cons]
  · have hzero : ¬R.toCircbuf.length ≠ 0 := fun hne => hlen (Nat.pos_of_ne_zero hne)
    have hnil : R.contents = [] := by
      rw [← List.length_eq_zero_iff, R.length_contents]
      omega
    simp only [circbufStep, circbufPopBack, require_of_not hzero, error_bind, peakStep, ← hitems,
      hnil, List.head?_nil, Option.map_none]
    trivial

lemma holdsPeak_run {k : ℕ} (hk : k ≤ 30) {ops : List (CircbufOp α)}
    (hops : ∀ op ∈ ops, op.IsDynamic) :
    Agree (HoldsPeak k) (runOps circbufStep (Ring.make k hk).toCircbuf ops)
      (runOps peakStep PeakQueue.empty ops) := by
  apply runOps_agree_of_mem
  · intro buf Q op hop h
    have hdynamic := hops op hop
    cases op with
    | dynamicPut elem => exact h.dynamicPut elem
    | popBack => exact h.popBack
    | _ => exact hdynamic.elim
  · exact ⟨⟨Ring.make k hk, rfl, Ring.contents_make hk⟩, LeastLog2.zero k⟩

/-- The capacity of a buffer that is enlarged only by `circbuf_dynamicPut` is the least one, from the
first capacity on, for the peak of its length. Such a run returns exactly when no pop meets an empty
buffer and the peak is at most `2 ^ 30`. -/
theorem circbuf_growth_minimal {k : ℕ} (hk : k ≤ 30) {ops : List (CircbufOp α)}
    (hops : ∀ op ∈ ops, op.IsDynamic) :
    Agree (fun buf Q => buf.length = Q.items.length ∧ circbufContents buf = Q.items ∧
        IsLeast {c | k ≤ c ∧ Q.peak ≤ 2 ^ c} buf.capacityLog2)
      (circbufRun k ops) (runOps peakStep PeakQueue.empty ops) := by
  rw [circbufRun, Ring.make_ok hk, ok_bind]
  apply (holdsPeak_run hk hops).mono
  intro buf Q hQ
  have hleast := hQ.least
  obtain ⟨R, rfl, hitems⟩ := hQ.ring
  refine ⟨?_, R.circbufContents_eq.trans hitems, hleast⟩
  rw [← hitems, R.length_contents]
  rfl

/-- Three elements at once need four slots, and the capacity stays when they are popped. -/
theorem circbuf_growth_minimal_three :
    ∃ buf, circbufRun 0 [.dynamicPut 5, .dynamicPut 6, .dynamicPut 7, .popBack, .popBack] =
        .ok (buf, [none, none, none, some 5, some 6]) ∧
      IsLeast {c | 0 ≤ c ∧ 3 ≤ 2 ^ c} buf.capacityLog2 := by
  have hops : ∀ op ∈ [CircbufOp.dynamicPut 5, .dynamicPut 6, .dynamicPut 7, .popBack, .popBack],
      op.IsDynamic := by simp [CircbufOp.IsDynamic]
  obtain ⟨buf, hrun, -, -, hleast⟩ := (circbuf_growth_minimal (k := 0) (by decide) hops).of_some rfl
  exact ⟨buf, hrun, hleast⟩

end Utilc
