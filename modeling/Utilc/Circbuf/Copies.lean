import Utilc.CLib.Amortized
import Utilc.Circbuf.Bounds
import Utilc.Circbuf.Growth

/-!
# What growing costs

All the copying of a buffer that `circbuf_dynamicPut` enlarges, for any order of puts and pops, is less
than twice the largest number of elements that the buffer held at once.
-/

namespace Utilc
open CLib

variable {α : Type}

/-- The elements that a call copies from one array to another. -/
def circbufCopied (buf : Circbuf α) : CircbufOp α → ℕ
  | .put _ => 0
  | .dynamicPut _ =>
    if (circbufFull buf).toOption = some true then resizeN1 buf + resizeN2 buf else 0
  | .popBack => 0
  | .increaseSize => resizeN1 buf + resizeN2 buf
  | .resize _ => resizeN1 buf + resizeN2 buf

lemma Ring.resize_total (R : Ring α) :
    resizeN1 R.toCircbuf + resizeN2 R.toCircbuf = R.length := by
  rw [R.resizeN1_eq, R.resizeN2_eq]
  exact Nat.add_sub_cancel' beforeEnd_le

variable [Zero α]

/-- A call copies as many elements as slots are added. -/
lemma circbufCopied_step {R : Ring α} {op : CircbufOp α} {buf : Circbuf α} {out : Option α}
    (hop : op.IsDynamic) (hstep : circbufStep R.toCircbuf op = .ok (buf, out)) :
    (∃ Q : Ring α, buf = Q.toCircbuf) ∧
      circbufCopied R.toCircbuf op + 2 ^ R.toCircbuf.capacityLog2 = 2 ^ buf.capacityLog2 := by
  cases op with
  | dynamicPut elem =>
    obtain ⟨next, hput, hresult⟩ := bind_eq_ok.mp hstep
    cases hresult
    by_cases hlt : R.length < 2 ^ R.capacityLog2
    · rw [Ring.dynamicPut_of_lt elem hlt] at hput
      cases hput
      have hnone : circbufCopied R.toCircbuf (.dynamicPut elem) = 0 := by
        rw [circbufCopied, Ring.full_of_lt hlt]
        rfl
      rw [hnone, Nat.zero_add]
      exact ⟨⟨_, rfl⟩, rfl⟩
    · have hfull : R.length = 2 ^ R.capacityLog2 := le_antisymm R.length_le (not_lt.mp hlt)
      by_cases hlog2 : R.capacityLog2 + 1 ≤ 30
      · obtain ⟨Q, hQ, hcapacity, -⟩ := Ring.dynamicPut_of_full elem hfull hlog2
        rw [hQ] at hput
        cases hput
        have hall : circbufCopied R.toCircbuf (.dynamicPut elem) = R.length := by
          rw [circbufCopied, Ring.full_of_eq hfull]
          exact R.resize_total
        refine ⟨⟨Q, rfl⟩, ?_⟩
        change _ + 2 ^ R.capacityLog2 = 2 ^ Q.capacityLog2
        rw [hall, hfull, hcapacity, Nat.pow_succ, Nat.mul_two]
      · rw [Ring.dynamicPut_fault hfull hlog2] at hput
        cases hput
  | popBack =>
    obtain ⟨⟨next, elem⟩, hpop, hresult⟩ := bind_eq_ok.mp hstep
    cases hresult
    by_cases hlen : 0 < R.length
    · rw [Ring.popBack_ok hlen] at hpop
      cases hpop
      exact ⟨⟨R.popBack, rfl⟩, Nat.zero_add _⟩
    · have hzero : ¬R.toCircbuf.length ≠ 0 := fun hne => hlen (Nat.pos_of_ne_zero hne)
      simp only [circbufPopBack, require_of_not hzero, error_bind, reduceCtorEq] at hpop
  | _ => exact hop.elim

/-- The least capacity is less than twice the peak where it is not the first one. -/
lemma LeastLog2.lt_two_mul {k peak c : ℕ} (h : LeastLog2 k peak c) (hne : c ≠ k) :
    2 ^ c < 2 * peak := by
  have hkc : k ≤ c := h.1.1
  by_contra hle
  have hhalf : 2 * 2 ^ (c - 1) = 2 ^ c := mul_pow_sub_one (by omega) 2
  have hfits : c ≤ c - 1 := h.2 ⟨by omega, by omega⟩
  omega

/-- Growing copies as many elements in all as slots were added, which is at most twice the peak of the
length. -/
theorem circbuf_copies {k : ℕ} (hk : k ≤ 30) {ops : List (CircbufOp α)}
    (hops : ∀ op ∈ ops, op.IsDynamic) {made buf : Circbuf α} {outs : List (Option α)}
    (hmake : circbufMake k = .ok made) (hrun : runOps circbufStep made ops = .ok (buf, outs)) :
    runCost circbufStep circbufCopied made ops + 2 ^ k = 2 ^ buf.capacityLog2 ∧
      ∃ Q : PeakQueue α, runOps peakStep PeakQueue.empty ops = some (Q, outs) ∧
        runCost circbufStep circbufCopied made ops ≤ 2 * Q.peak := by
  rw [Ring.make_ok hk] at hmake
  cases hmake
  have hstep : ∀ (buf : Circbuf α) op next (out : Option α), (∃ R : Ring α, buf = R.toCircbuf) →
      op ∈ ops → circbufStep buf op = .ok (next, out) → (∃ Q : Ring α, next = Q.toCircbuf) ∧
        circbufCopied buf op + 2 ^ buf.capacityLog2 = 2 ^ next.capacityLog2 := by
    rintro _ op next out ⟨R, rfl⟩ hop hone
    exact circbufCopied_step (hops op hop) hone
  have htotal : runCost circbufStep circbufCopied (Ring.make k hk).toCircbuf ops + 2 ^ k =
      2 ^ buf.capacityLog2 := runCost_eq _ (fun buf => 2 ^ buf.capacityLog2) hstep ⟨_, rfl⟩ hrun
  obtain ⟨Q, hpeak, hQ⟩ := (holdsPeak_run hk hops).of_ok hrun
  refine ⟨htotal, Q, hpeak, ?_⟩
  by_cases hsame : buf.capacityLog2 = k
  · rw [hsame] at htotal
    omega
  · have hlt := hQ.least.lt_two_mul hsame
    have hpos := Nat.two_pow_pos k
    omega

theorem circbuf_copies_three :
    ∃ buf : Circbuf ℕ, runOps circbufStep ⟨[0], 0, 0, 0, 0⟩
        [.dynamicPut 5, .dynamicPut 6, .dynamicPut 7, .popBack] =
          .ok (buf, [none, none, none, some 5]) ∧
      runCost circbufStep circbufCopied ⟨[0], 0, 0, 0, 0⟩
        [.dynamicPut 5, .dynamicPut 6, .dynamicPut 7, .popBack] + 2 ^ 0 = 2 ^ buf.capacityLog2 := by
  have hops : ∀ op ∈ [CircbufOp.dynamicPut 5, .dynamicPut 6, .dynamicPut 7, .popBack],
      op.IsDynamic := by simp [CircbufOp.IsDynamic]
  exact ⟨_, rfl, (circbuf_copies (k := 0) (by decide) hops rfl rfl).1⟩

end Utilc
