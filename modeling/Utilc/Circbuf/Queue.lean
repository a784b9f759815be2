import Utilc.Circbuf.Ring

/-!
# Runs of a ring buffer refine runs of a queue

`queueStep` states what each call is for on a bounded queue. A buffer from `circbuf_make` and that
queue stay in step under every sequence of calls, so that what is popped and what remains is, in
order, what was put.
-/

namespace Utilc
open CLib

variable {α : Type}

/-- A queue of bounded length; the bound is a power of two. -/
structure BoundedQueue (α : Type) where
  items : List α
  capacityLog2 : ℕ
  log2_le : capacityLog2 ≤ 30
  fits : items.length ≤ 2 ^ capacityLog2

namespace BoundedQueue

/-- The queue with the given items and capacity, when there is one. -/
def ofItems (items : List α) (capacityLog2 : ℕ) : Option (BoundedQueue α) :=
  if h : capacityLog2 ≤ 30 ∧ items.length ≤ 2 ^ capacityLog2 then
    some ⟨items, capacityLog2, h.1, h.2⟩
  else none

lemma ofItems_of_le {items : List α} {n : ℕ} (hn : n ≤ 30) (h : items.length ≤ 2 ^ n) :
    ofItems items n = some ⟨items, n, hn, h⟩ := dif_pos ⟨hn, h⟩

lemma ofItems_of_not {items : List α} {n : ℕ} (h : ¬(n ≤ 30 ∧ items.length ≤ 2 ^ n)) :
    ofItems items n = none := dif_neg h

lemma ofItems_items {items : List α} {n : ℕ} {Q : BoundedQueue α} (h : ofItems items n = some Q) :
    Q.items = items := by
  unfold ofItems at h
  split at h
  · rw [← Option.some.inj h]
  · cases h

lemma nil_fits (n : ℕ) : ([] : List α).length ≤ 2 ^ n := Nat.zero_le _

def make (capacityLog2 : ℕ) (h : capacityLog2 ≤ 30) : BoundedQueue α :=
  ⟨[], capacityLog2, h, nil_fits capacityLog2⟩

end BoundedQueue

open BoundedQueue

/-- What a call does on the queue; nothing when the queue would not fit. -/
def queueStep (Q : BoundedQueue α) : CircbufOp α → Option (BoundedQueue α × Option α)
  | .put elem => (ofItems (Q.items ++ [elem]) Q.capacityLog2).map (fun Q' => (Q', none))
  | .dynamicPut elem =>
    let n := if Q.items.length < 2 ^ Q.capacityLog2 then Q.capacityLog2 else Q.capacityLog2 + 1
    (ofItems (Q.items ++ [elem]) n).map (fun Q' => (Q', none))
  | .popBack =>
    match Q.items with
    | [] => none
    | elem :: items => (ofItems items Q.capacityLog2).map (fun Q' => (Q', some elem))
  | .increaseSize => (ofItems Q.items (Q.capacityLog2 + 1)).map (fun Q' => (Q', none))
  | .resize newCapacityLog2 => (ofItems Q.items newCapacityLog2).map (fun Q' => (Q', none))

/-- The run of the queue that `circbufRun` is compared with. -/
def queueRun (capacityLog2 : ℕ) (h : capacityLog2 ≤ 30) (ops : List (CircbufOp α)) :
    Option (BoundedQueue α × List (Option α)) :=
  runOps queueStep (make capacityLog2 h) ops

def CircbufOp.putElems : CircbufOp α → List α
  | .put elem => [elem]
  | .dynamicPut elem => [elem]
  | _ => []

variable [Zero α]

def HoldsQueue (buf : Circbuf α) (Q : BoundedQueue α) : Prop :=
  ∃ R : Ring α, buf = R.toCircbuf ∧ R.contents = Q.items ∧ R.capacityLog2 = Q.capacityLog2

/-! ### One call -/

lemma agree_of_ring {x : Checked (Circbuf α)} {R : Ring α} {items : List α} (result : Option α)
    (hx : x = .ok R.toCircbuf) (hR : R.contents = items) :
    Agree HoldsQueue (do return (← x, result))
      ((ofItems items R.capacityLog2).map (fun Q' => (Q', result))) := by
  have hfits : items.length ≤ 2 ^ R.capacityLog2 := by
    rw [← hR, R.length_contents]
    exact R.length_le
  rw [hx, ofItems_of_le R.log2_le hfits]
  exact ⟨rfl, R, rfl, hR, rfl⟩

lemma agree_of_fault {x : Checked (Circbuf α)} {e : Fault} {items : List α} {n : ℕ}
    (result : Option α) (hx : x = .error e) (hn : ¬(n ≤ 30 ∧ items.length ≤ 2 ^ n)) :
    Agree HoldsQueue (do return (← x, result))
      ((ofItems items n).map (fun Q' => (Q', result))) := by
  rw [hx, ofItems_of_not hn]
  trivial

lemma put_agree (R : Ring α) (elem : α) :
    Agree HoldsQueue (circbufStep R.toCircbuf (.put elem))
      ((ofItems (R.contents ++ [elem]) R.capacityLog2).map (fun Q' => (Q', none))) := by
  have hle := R.length_le
  by_cases hlt : R.length < 2 ^ R.capacityLog2
  · exact agree_of_ring (R := R.put elem hlt) none (R.put_ok elem hlt) (R.contents_put elem hlt)
  · have hfull : R.length = 2 ^ R.capacityLog2 := by omega
    refine agree_of_fault none (e := .assertFailed) ?_ ?_
    · simp only [circbufPut, Ring.full_of_eq hfull, ok_bind]
      rfl
    · rw [List.length_append, R.length_contents, List.length_singleton]
      omega

lemma resize_agree (R : Ring α) (n : ℕ) :
    Agree HoldsQueue (circbufStep R.toCircbuf (.resize n))
      ((ofItems R.contents n).map (fun Q' => (Q', none))) := by
  by_cases hn : n ≤ 30
  · by_cases hle : R.length ≤ 2 ^ n
    · exact agree_of_ring none (R.resize_ok hn hle) (R.contents_resize hn hle)
    · refine agree_of_fault none (e := .assertFailed) ?_ ?_
      · have hnot : ¬R.toCircbuf.length ≤ 2 ^ n := hle
        simp only [circbufResize, intShl_one hn, ok_bind, require_of_not hnot, error_bind]
      · rw [R.length_contents]
        omega
  · exact agree_of_fault none (circbufResize_fault _ (by omega)) (by omega)

lemma dynamicPut_agree (R : Ring α) (elem : α) :
    Agree HoldsQueue (circbufStep R.toCircbuf (.dynamicPut elem))
      ((ofItems (R.contents ++ [elem])
        (if R.contents.length < 2 ^ R.capacityLog2 then R.capacityLog2
          else R.capacityLog2 + 1)).map (fun Q' => (Q', none))) := by
  have hle := R.length_le
  rw [R.length_contents]
  by_cases hlt : R.length < 2 ^ R.capacityLog2
  · rw [if_pos hlt]
    exact agree_of_ring (R := R.put elem hlt) none (Ring.dynamicPut_of_lt elem hlt)
      (R.contents_put elem hlt)
  · have hfull : R.length = 2 ^ R.capacityLog2 := by omega
    rw [if_neg hlt]
    by_cases hlog2 : R.capacityLog2 + 1 ≤ 30
    · obtain ⟨R', hput, hR', hcontents⟩ := Ring.dynamicPut_of_full elem hfull hlog2
      rw [← hR']
      exact agree_of_ring none hput hcontents
    · exact agree_of_fault none (Ring.dynamicPut_fault hfull hlog2 elem) (by omega)

lemma popBack_agree (R : Ring α) (Q : BoundedQueue α) (hitems : R.contents = Q.items)
    (hlog2 : R.capacityLog2 = Q.capacityLog2) :
    Agree HoldsQueue (circbufStep R.toCircbuf .popBack) (queueStep Q .popBack) := by
  by_cases hlen : 0 < R.length
  · have hcons := Ring.contents_eq_cons hlen
    have hR : R.popBack.contents.length ≤ 2 ^ R.capacityLog2 := by
      rw [Ring.length_contents]
      exact R.popBack.length_le
    simp only [queueStep, ← hitems, hcons, ← hlog2, ofItems_of_le R.log2_le hR, Option.map_some,
      circbufStep, Ring.popBack_ok hlen, ok_bind, pure_eq_ok]
    exact ⟨rfl, R.popBack, rfl, rfl, rfl⟩
  · have hzero : ¬R.toCircbuf.length ≠ 0 := fun h => hlen (Nat.pos_of_ne_zero h)
    have hnil : R.contents = [] := by
      rw [← List.length_eq_zero_iff, R.length_contents]
      omega
    simp only [queueStep, ← hitems, hnil, circbufStep, circbufPopBack, require_of_not hzero,
      error_bind]
    trivial

theorem circbufStep_agree (buf : Circbuf α) (Q : BoundedQueue α) (op : CircbufOp α)
    (h : HoldsQueue buf Q) : Agree HoldsQueue (circbufStep buf op) (queueStep Q op) := by
  obtain ⟨R, rfl, hitems, hlog2⟩ := h
  cases op with
  | put elem =>
    simp only [queueStep, ← hitems, ← hlog2]
    exact put_agree R elem
  | dynamicPut elem =>
    simp only [queueStep, ← hitems, ← hlog2]
    exact dynamicPut_agree R elem
  | popBack => exact popBack_agree R Q hitems hlog2
  | increaseSize =>
    simp only [queueStep, ← hitems, ← hlog2]
    exact resize_agree R (R.capacityLog2 + 1)
  | resize n =>
    simp only [queueStep, ← hitems]
    exact resize_agree R n

omit [Zero α] in
/-- A step of the queue gives out, in order, what it held and what was put. -/
lemma queueStep_conserves {Q Q' : BoundedQueue α} {op : CircbufOp α} {result : Option α}
    (h : queueStep Q op = some (Q', result)) :
    Q.items ++ op.putElems = result.toList ++ Q'.items := by
  cases op with
  | popBack =>
    cases hitems : Q.items with
    | nil => simp [queueStep, hitems] at h
    | cons elem items =>
      simp only [queueStep, hitems, Option.map_eq_some_iff, Prod.mk.injEq] at h
      obtain ⟨Q'', hQ, rfl, rfl⟩ := h
      rw [ofItems_items hQ]
      exact List.append_nil _
  | _ =>
    simp only [queueStep, Option.map_eq_some_iff, Prod.mk.injEq] at h
    obtain ⟨Q'', hQ, rfl, rfl⟩ := h
    simp [ofItems_items hQ, CircbufOp.putElems]

/-! ### Runs -/

lemma HoldsQueue.contents {buf : Circbuf α} {Q : BoundedQueue α} (h : HoldsQueue buf Q) :
    circbufContents buf = Q.items ∧ buf.length = Q.items.length ∧
      buf.capacityLog2 = Q.capacityLog2 := by
  obtain ⟨R, rfl, hitems, hlog2⟩ := h
  refine ⟨R.circbufContents_eq.trans hitems, ?_, hlog2⟩
  rw [← hitems, R.length_contents]
  rfl

lemma circbufRun_holdsQueue {k : ℕ} (hk : k ≤ 30) (ops : List (CircbufOp α)) :
    Agree HoldsQueue (circbufRun k ops) (queueRun k hk ops) := by
  have hmake : HoldsQueue (Ring.make k hk).toCircbuf (make (α := α) k hk) :=
    ⟨Ring.make k hk, rfl, Ring.contents_make hk, rfl⟩
  rw [circbufRun, Ring.make_ok hk, ok_bind]
  exact runOps_agree circbufStep_agree hmake ops

lemma circbufRun_ring {k : ℕ} (hk : k ≤ 30) {ops : List (CircbufOp α)} {buf : Circbuf α}
    {results : List (Option α)} (hrun : circbufRun k ops = .ok (buf, results)) :
    ∃ R : Ring α, buf = R.toCircbuf := by
  obtain ⟨Q, -, R, hbuf, -⟩ := (circbufRun_holdsQueue hk ops).of_ok hrun
  exact ⟨R, hbuf⟩

lemma circbufRun_conserves {k : ℕ} (hk : k ≤ 30) {ops : List (CircbufOp α)} {buf : Circbuf α}
    {results : List (Option α)} (hrun : circbufRun k ops = .ok (buf, results)) :
    ops.flatMap CircbufOp.putElems = results.flatMap Option.toList ++ circbufContents buf := by
  have hstep : ∀ (s : Circbuf α) (op : CircbufOp α) s' result, (∃ Q, HoldsQueue s Q) →
      circbufStep s op = .ok (s', result) → (∃ Q, HoldsQueue s' Q) ∧
        circbufContents s ++ op.putElems = result.toList ++ circbufContents s' := by
    rintro s op s' result ⟨Q, hQ⟩ hs
    obtain ⟨Q', hq, hQ'⟩ := (circbufStep_agree s Q op hQ).of_ok hs
    refine ⟨⟨Q', hQ'⟩, ?_⟩
    rw [hQ.contents.1, hQ'.contents.1]
    exact queueStep_conserves hq
  rw [circbufRun, Ring.make_ok hk, ok_bind] at hrun
  have hmake : HoldsQueue (Ring.make k hk).toCircbuf (make (α := α) k hk) :=
    ⟨Ring.make k hk, rfl, Ring.contents_make hk, rfl⟩
  have hconserves := runOps_conserves _ circbufContents _ _ hstep ⟨_, hmake⟩ hrun
  rwa [Ring.circbufContents_eq, Ring.contents_make, List.nil_append] at hconserves

/-- A buffer of at most `2 ^ 30` slots is a lossless queue. Each call has the effect it has on the
queue and faults exactly when the queue has no step for it; the values popped are the values put,
in order, up to those still held. -/
theorem circbuf_refines_queue {k : ℕ} (hk : k ≤ 30) (ops : List (CircbufOp α)) :
    Agree (fun buf Q => circbufContents buf = Q.items ∧ buf.length = Q.items.length ∧
        buf.capacityLog2 = Q.capacityLog2) (circbufRun k ops) (queueRun k hk ops) ∧
      ∀ buf results, circbufRun k ops = .ok (buf, results) →
        ops.flatMap CircbufOp.putElems =
          results.flatMap Option.toList ++ circbufContents buf := by
  refine ⟨?_, fun buf results hrun => circbufRun_conserves hk hrun⟩
  exact (circbufRun_holdsQueue hk ops).mono fun buf Q hQ => hQ.contents

/-- A window that wraps when the buffer grows and wraps again when it shrinks. -/
theorem circbuf_refines_queue_wrapped :
    ∃ buf, circbufRun 1 [.put 5, .put 6, .popBack, .put 7, .increaseSize, .dynamicPut 8, .popBack,
        .resize 1] =
          .ok (buf, [none, none, some 5, none, none, none, some 6, none]) ∧
      circbufContents buf = [7, 8] := by
  obtain ⟨buf, hrun, hcontents, -⟩ := (circbuf_refines_queue (α := ℕ) (by decide : 1 ≤ 30)
    [.put 5, .put 6, .popBack, .put 7, .increaseSize, .dynamicPut 8, .popBack, .resize 1]).1.of_some
    rfl
  exact ⟨buf, hrun, hcontents⟩

end Utilc
