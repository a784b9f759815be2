import Utilc.CLib.Loops
import Utilc.Circbuf.Queue

/-!
# The ways to walk a ring buffer

Stepping with `CIRCBUF_NEXT`, the loop of `circbuf_destroy` and popping until the buffer is empty give
the same elements in the same order. So a run that ends with `circbuf_destroy` pops or frees each
element that was put, once.
-/

namespace Utilc
open CLib

variable {α : Type}

/-- The elements that `count` steps of `CIRCBUF_NEXT` from `iter` on read. -/
def circbufWalk (buf : Circbuf α) : ℕ → ℕ → Checked (List α)
  | 0, _ => .ok []
  | count + 1, iter => do
    let step ← circbufNext buf iter
    let rest ← circbufWalk buf count step.2
    return step.1 :: rest

/-- One `circbuf_popBack`, if there is an element. -/
def circbufPopStep (buf : Circbuf α) : Checked (Circbuf α × Option α) :=
  if buf.length ≠ 0 then do
    let popped ← circbufPopBack buf
    return (popped.1, some popped.2)
  else .ok (buf, none)

/-- `circbuf_popBack` until `length` is zero, which is tested at most `tests` times. -/
def circbufPopAll (tests : ℕ) (buf : Circbuf α) : Checked (Option (Circbuf α × List α)) :=
  repeatUntil circbufPopStep tests buf

variable [Zero α]

def HoldsElems (buf : Circbuf α) (elems : List α) : Prop :=
  ∃ R : Ring α, buf = R.toCircbuf ∧ R.contents = elems

namespace Ring

lemma walk_eq (R : Ring α) (count iter : ℕ) :
    circbufWalk R.toCircbuf count iter = .ok (window 0 R.a iter count) := by
  induction count generalizing iter with
  | zero => rfl
  | succ count ih =>
    have hrest : window 0 R.a (iter % R.a.length + 1) count =
        window 0 R.a ((iter + 1) % R.a.length) count := by
      rw [← window_mod, Nat.mod_add_mod]
    simp only [circbufWalk, R.next_ok, ok_bind, ih, pure_eq_ok]
    rw [hrest, ← window_cons]

lemma destroyLoop_eq (R : Ring α) {count i : ℕ} (hi : i + count ≤ R.length) :
    destroyLoop R.toCircbuf count i = .ok (window 0 R.a (R.start + i) count) := by
  induction count generalizing i with
  | zero => rfl
  | succ count ih =>
    have hstart := R.start_lt
    have hlen := R.length_le
    have hsum : sizeAdd R.start i = R.start + i := sizeAdd_of_lt (R.lt_sizeBits (by omega))
    have hcell : (R.start + i) % 2 ^ R.capacityLog2 < R.a.length := by
      rw [R.length_a]
      exact Nat.mod_lt _ (Nat.two_pow_pos _)
    have hread := readAt_getD hcell 0
    have hrest := ih (i := i + 1) (by omega)
    simp only [destroyLoop, hrest]
    simp only [toCircbuf, hsum, and_rotationMask, hread, ok_bind, pure_eq_ok]
    rw [window_cons, window_mod, R.length_a, Nat.add_assoc]

lemma destroy_eq (R : Ring α) : circbufDestroy R.toCircbuf = .ok R.contents :=
  R.destroyLoop_eq (i := 0) (Nat.zero_add _).le

end Ring

lemma HoldsElems.popStep_of_nil {buf : Circbuf α} (h : HoldsElems buf []) :
    circbufPopStep buf = .ok (buf, none) := by
  obtain ⟨R, rfl, hnil⟩ := h
  have hzero : ¬R.toCircbuf.length ≠ 0 := by
    change ¬R.length ≠ 0
    rw [← R.length_contents, hnil]
    exact not_not.mpr rfl
  rw [circbufPopStep, if_neg hzero]

lemma HoldsElems.popStep_of_cons {buf : Circbuf α} {elem : α} {rest : List α}
    (h : HoldsElems buf (elem :: rest)) :
    ∃ buf', circbufPopStep buf = .ok (buf', some elem) ∧ HoldsElems buf' rest := by
  obtain ⟨R, rfl, hR⟩ := h
  have hpos : 0 < R.length := by
    rw [← R.length_contents, hR]
    exact Nat.succ_pos _
  have hne : R.toCircbuf.length ≠ 0 := hpos.ne'
  have hcons := Ring.contents_eq_cons hpos
  rw [hR, List.cons.injEq] at hcons
  refine ⟨R.popBack.toCircbuf, ?_, R.popBack, rfl, hcons.2.symm⟩
  rw [circbufPopStep, if_pos hne, Ring.popBack_ok hpos, ok_bind, ← hcons.1]
  rfl

/-- Popping until the buffer is empty gives its contents. -/
lemma Ring.popAll_eq (R : Ring α) :
    ∃ emptied : Circbuf α, emptied.length = 0 ∧ ∀ tests, circbufPopAll tests R.toCircbuf =
      .ok (if R.length < tests then some (emptied, R.contents) else none) := by
  obtain ⟨emptied, ⟨E, rfl, hempty⟩, hrun⟩ := repeatUntil_eq circbufPopStep HoldsElems
    (fun buf hnil => ⟨buf, hnil.popStep_of_nil, hnil⟩)
    (fun buf elem rest hcons => hcons.popStep_of_cons) ⟨R, rfl, rfl⟩
  rw [R.length_contents] at hrun
  refine ⟨E.toCircbuf, ?_, hrun⟩
  have hlen := E.length_contents
  rw [hempty] at hlen
  exact hlen.symm

/-- All ways to walk a reachable buffer give its contents, the front index designates the last of
them, and the elements put are the elements popped followed by the elements that `circbuf_destroy`
frees. -/
theorem circbuf_walks {k : ℕ} (hk : k ≤ 30) {ops : List (CircbufOp α)} {buf : Circbuf α}
    {results : List (Option α)} (hrun : circbufRun k ops = .ok (buf, results)) :
    circbufWalk buf buf.length buf.start = .ok (circbufContents buf) ∧
      circbufDestroy buf = .ok (circbufContents buf) ∧
      (∃ emptied : Circbuf α, emptied.length = 0 ∧ ∀ tests, circbufPopAll tests buf =
        .ok (if buf.length < tests then some (emptied, circbufContents buf) else none)) ∧
      (0 < buf.length → ∃ elem, readAt buf.a (circbufFrontIndex buf) = .ok elem ∧
        (circbufContents buf).getLast? = some elem) ∧
      ∀ freed, circbufDestroy buf = .ok freed →
        ops.flatMap CircbufOp.putElems = results.flatMap Option.toList ++ freed := by
  have hconserves := circbufRun_conserves hk hrun
  obtain ⟨R, rfl⟩ := circbufRun_ring hk hrun
  rw [R.circbufContents_eq] at hconserves ⊢
  refine ⟨R.walk_eq R.length R.start, R.destroy_eq, R.popAll_eq, Ring.readAt_frontIndex, ?_⟩
  intro freed hfreed
  rw [R.destroy_eq, Except.ok.injEq] at hfreed
  rw [← hfreed]
  exact hconserves

/-- A full buffer whose window wraps. -/
theorem circbuf_walks_wrapped :
    circbufWalk (⟨[5, 6, 3, 4], 2, 4, 2, 3⟩ : Circbuf ℕ) 4 2 = .ok [3, 4, 5, 6] ∧
      circbufDestroy (⟨[5, 6, 3, 4], 2, 4, 2, 3⟩ : Circbuf ℕ) = .ok [3, 4, 5, 6] := by
  have hrun : circbufRun 2 [.put 1, .put 2, .popBack, .popBack, .put 3, .put 4, .dynamicPut 5,
      .put 6] = .ok (⟨[5, 6, 3, 4], 2, 4, 2, 3⟩,
        [none, none, some 1, some 2, none, none, none, none]) := rfl
  obtain ⟨hwalk, hdestroy, -⟩ := circbuf_walks (by decide) hrun
  exact ⟨hwalk, hdestroy⟩

end Utilc
