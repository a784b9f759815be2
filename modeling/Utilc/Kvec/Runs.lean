import Utilc.CLib.Refines
import Utilc.Kvec.Growth

/-!
# Runs of a vector

Runs of all the macros give out what a list gives out, and the room of a vector that is used as a stack
follows from how deep the stack was.
-/

namespace Utilc
open CLib

variable {α : Type} {size : ℕ} {v : Kvec α} {xs : List (Option α)}

/-! ### Runs as lists -/

/-- What a caller does with a vector. `get` and `set` are `kv_A`, read and assigned to, and `reach` is
`kv_a`. -/
inductive KvOp (α : Type) where
  | push (x : α)
  | pushp (x : α)
  | pop
  | get (i : ℕ)
  | set (i : ℕ) (x : α)
  | reach (i : ℕ)
  | resize (s : ℕ)
  | copy (v0 : Kvec α)

def kvStep (size : ℕ) (v : Kvec α) : KvOp α → Checked (Kvec α × Option α)
  | .push x => do
    let v ← kvPush size v x
    return (v, none)
  | .pushp x => do
    let v ← kvPushpAssign size v x
    return (v, none)
  | .pop => do
    let r ← kvPop v
    return (r.1, some r.2)
  | .get i => do
    let x ← kvA v i
    return (v, some x)
  | .set i x => do
    let v ← kvAssign v i x
    return (v, none)
  | .reach i => kvaRead size v i
  | .resize s => return (kvResize size v s, none)
  | .copy v0 => do
    let v ← kvCopy size v v0
    return (v, none)

/-- What the macros expect: `kv_pop` and `kv_A` read only where something was written, `kv_A` assigns
only within the memory, memory is asked for only in sizes that a `size_t` can say, `kv_a` reaches for no
index from `2 ^ 63` on, and `kv_resize` leaves room for the elements. -/
def KvAllowed (size : ℕ) (v : Kvec α) : KvOp α → Prop
  | .push _ => size * kvPushRoom v < 2 ^ sizeBits
  | .pushp _ => size * kvPushRoom v < 2 ^ sizeBits
  | .pop => 0 < v.n ∧ ∃ x, v.a[v.n - 1]? = some (some x)
  | .get i => i < v.n ∧ ∃ x, v.a[i]? = some (some x)
  | .set i _ => i < v.m
  | .reach i => i < 2 ^ 63 ∧ size * kvReachRoom v i < 2 ^ sizeBits
  | .resize s => v.n ≤ s ∧ size * s < 2 ^ sizeBits
  | .copy v0 => ∃ ys, KvHolds size v0 ys

/-- The operations on a list whose elements may not have been written. -/
inductive KvSpec (size : ℕ) : List (Option α) → KvOp α → Option α → List (Option α) → Prop
  | push {xs x} : KvSpec size xs (.push x) none (xs ++ [some x])
  | pushp {xs x} : KvSpec size xs (.pushp x) none (xs ++ [some x])
  | pop {xs x} : KvSpec size (xs ++ [some x]) .pop (some x) xs
  | get {xs i x} (hget : xs[i]? = some (some x)) : KvSpec size xs (.get i) (some x) xs
  | set {xs i x} : KvSpec size xs (.set i x) none (xs.set i (some x))
  | reach {xs xs' i} (hreached : Reached xs xs' i) : KvSpec size xs (.reach i) xs'[i]?.join xs'
  | resize {xs s} : KvSpec size xs (.resize s) none xs
  | copy {xs v0 ys} (hsource : KvHolds size v0 ys) : KvSpec size xs (.copy v0) none ys

lemma kvInit_holds (size : ℕ) : KvHolds size (kvInit : Kvec α) [] :=
  ⟨rfl, le_rfl, rfl, Nat.two_pow_pos sizeBits⟩

/-- A list that ends with an element. -/
lemma eq_append_of_last {x : α} (h : KvHolds size v xs) (hpos : 0 < v.n)
    (hlast : v.a[v.n - 1]? = some (some x)) : ∃ ys, xs = ys ++ [some x] := by
  have hget : xs[xs.length - 1]? = some (some x) := by
    rw [h.length_eq, h.getElem?_eq (by omega), hlast]
  rw [← List.getLast?_eq_getElem?] at hget
  exact ⟨xs.dropLast, (List.dropLast_append_getLast? _ hget).symm⟩

/-- Every allowed step of the vector is a step of the list. -/
lemma kvStep_refines (hsize : 0 < size) (h : KvHolds size v xs) (op : KvOp α)
    (hallowed : KvAllowed size v op) :
    ∃ v' out xs', kvStep size v op = .ok (v', out) ∧ KvSpec size xs op out xs' ∧
      KvHolds size v' xs' := by
  cases op with
  | push x =>
    obtain ⟨v', hrun, -, h'⟩ := kvPush_eq h hsize hallowed x
    refine ⟨v', none, xs ++ [some x], ?_, KvSpec.push, h'⟩
    simp only [kvStep, hrun, ok_bind, pure_eq_ok]
  | pushp x =>
    obtain ⟨v', hrun, -, h'⟩ := kvPush_eq h hsize hallowed x
    refine ⟨v', none, xs ++ [some x], ?_, KvSpec.pushp, h'⟩
    simp only [kvStep, kvPushpAssign_eq, hrun, ok_bind, pure_eq_ok]
  | pop =>
    obtain ⟨hpos, x, hlast⟩ := hallowed
    obtain ⟨ys, rfl⟩ := eq_append_of_last h hpos hlast
    obtain ⟨v', hrun, -, h'⟩ := kvPop_eq h hsize
    refine ⟨v', some x, ys, ?_, KvSpec.pop, h'⟩
    simp only [kvStep, hrun, ok_bind, pure_eq_ok]
  | get i =>
    obtain ⟨hi, x, hcell⟩ := hallowed
    refine ⟨v, some x, xs, ?_, KvSpec.get ?_, h⟩
    · simp only [kvStep, kvA_of_some hcell, ok_bind, pure_eq_ok]
    · rw [h.getElem?_eq hi, hcell]
  | set i x =>
    have hcell : i < v.a.length := by
      rw [h.cells]
      exact hallowed
    refine ⟨_, none, _, ?_, KvSpec.set, h.set i x⟩
    simp only [kvStep, kvAssign_of_lt hcell, ok_bind, pure_eq_ok]
  | reach i =>
    obtain ⟨v', xs', hrun, -, h', hreached⟩ := kvaRead_eq h hsize hallowed.1 hallowed.2
    exact ⟨v', xs'[i]?.join, xs', hrun, KvSpec.reach hreached, h'⟩
  | resize s => exact ⟨_, none, xs, rfl, KvSpec.resize, h.resize hsize hallowed.1 hallowed.2⟩
  | copy v0 =>
    obtain ⟨ys, h0⟩ := hallowed
    obtain ⟨v', hrun, -, h'⟩ := kvCopy_eq h h0 hsize
    refine ⟨v', none, ys, ?_, KvSpec.copy h0, h'⟩
    simp only [kvStep, hrun, ok_bind, pure_eq_ok]

/-- Every run of a new vector within its bounds ends without a fault, and gives out what a list gives
out. -/
theorem kvRun_refines (hsize : 0 < size) (ops : List (KvOp α))
    (hallowed : AllAllowed (kvStep size) (KvAllowed size) kvInit ops) :
    ∃ v outs xs, runOps (kvStep size) kvInit ops = .ok (v, outs) ∧
      SpecRun (KvSpec size) [] ops outs xs ∧ KvHolds size v xs :=
  runOps_refines (fun _ _ op h hop => kvStep_refines hsize h op hop) (kvInit_holds size) hallowed

theorem kvRun_refines_reach :
    let ops := [.push 7, .reach 9, .set 9 8, .get 9, .reach 0]
    ∃ v outs xs, runOps (kvStep 4) kvInit ops = .ok (v, outs) ∧ SpecRun (KvSpec 4) [] ops outs xs ∧
      KvHolds (α := ℕ) 4 v xs := by
  apply kvRun_refines (Nat.succ_pos 3)
  refine AllAllowed.cons_ok (show 4 * 2 < 2 ^ 64 by decide) rfl ?_
  refine AllAllowed.cons_ok ⟨by decide, show 4 * 16 < 2 ^ 64 by decide⟩ rfl ?_
  refine AllAllowed.cons_ok (show 9 < 16 by decide) rfl ?_
  refine AllAllowed.cons_ok ⟨show 9 < 10 by decide, 8, rfl⟩ rfl ?_
  exact AllAllowed.cons_ok ⟨by decide, show 4 * 16 < 2 ^ 64 by decide⟩ rfl trivial

/-! ### The room of a stack -/

/-- The least room for `p` elements that doubling gives. -/
def kvRoom (p : ℕ) : ℕ := if p = 0 then 0 else max 2 (2 ^ Nat.clog 2 p)

/-- The number of elements and the largest number so far. -/
def kvDepth (d : ℕ × ℕ) : KvOp α → ℕ × ℕ
  | .push _ => (d.1 + 1, max d.2 (d.1 + 1))
  | .pushp _ => (d.1 + 1, max d.2 (d.1 + 1))
  | .pop => (d.1 - 1, d.2)
  | _ => d

/-- The operations of a stack. -/
def KvOp.stack : KvOp α → Bool
  | .push _ => true
  | .pushp _ => true
  | .pop => true
  | .get _ => true
  | _ => false

lemma le_kvRoom (p : ℕ) : p ≤ kvRoom p := by
  unfold kvRoom
  split
  · omega
  · exact (Nat.le_pow_clog Nat.one_lt_two p).trans (le_max_right _ _)

lemma kvRoom_of_ne {p : ℕ} (hp : p ≠ 0) : kvRoom p = max (2 ^ 1) (2 ^ Nat.clog 2 p) := if_neg hp

lemma kvRoom_succ_of_lt {p : ℕ} (hp : p < kvRoom p) : kvRoom (p + 1) = kvRoom p := by
  have hne : p ≠ 0 := by
    rintro rfl
    exact absurd hp (lt_irrefl 0)
  rw [kvRoom_of_ne hne] at hp ⊢
  rw [kvRoom_of_ne (Nat.succ_ne_zero p), max_two_pow_clog_succ, if_neg hp.ne']

lemma kvRoom_succ_of_eq {p : ℕ} (hp : kvRoom p = p) :
    kvRoom (p + 1) = if p ≠ 0 then p * 2 else 2 := by
  rcases Nat.eq_zero_or_pos p with rfl | hpos
  · decide
  · rw [kvRoom_of_ne hpos.ne'] at hp
    rw [kvRoom_of_ne (Nat.succ_ne_zero p), max_two_pow_clog_succ, if_pos hp, if_pos hpos.ne']

/-- Room grows only at a new largest number of elements. -/
lemma kvPushRoom_eq {p : ℕ} (hm : v.m = kvRoom p) (hn : v.n ≤ p) :
    kvPushRoom v = kvRoom (max p (v.n + 1)) := by
  have hp := le_kvRoom p
  unfold kvPushRoom
  by_cases hfull : v.n = v.m
  · have heq : p = v.n := by omega
    have hroom : kvRoom v.n = v.n := by
      rw [← heq, ← hm, ← hfull]
      exact heq.symm
    rw [if_pos hfull, heq, max_eq_right (Nat.le_succ _), kvRoom_succ_of_eq hroom, hfull]
  · rw [if_neg hfull, hm]
    rcases Nat.lt_or_ge v.n p with hlt | hge
    · rw [max_eq_left hlt]
    · have heq : v.n = p := le_antisymm hn hge
      rw [heq, max_eq_right (Nat.le_succ p), kvRoom_succ_of_lt (by omega)]

/-- A vector after stack operations with the depths `d`. -/
structure KvStack (size : ℕ) (v : Kvec α) (d : ℕ × ℕ) : Prop where
  holds : ∃ xs, KvHolds size v xs
  n_eq : v.n = d.1
  n_le : v.n ≤ d.2
  m_eq : v.m = kvRoom d.2

lemma KvStack.push {d : ℕ × ℕ} (h : KvStack size v d) (hsize : 0 < size)
    (hfits : size * kvPushRoom v < 2 ^ sizeBits) (x : α) :
    ∃ v', kvPush size v x = .ok v' ∧ KvStack size v' (d.1 + 1, max d.2 (d.1 + 1)) := by
  obtain ⟨xs, hxs⟩ := h.holds
  obtain ⟨v', hrun, hm, h'⟩ := kvPush_eq hxs hsize hfits x
  have hn : v'.n = v.n + 1 := by
    rw [← h'.length_eq, ← hxs.length_eq, List.length_append, List.length_singleton]
  refine ⟨v', hrun, ⟨_, h'⟩, ?_, ?_, ?_⟩
  · rw [hn, h.n_eq]
  · rw [hn, h.n_eq]
    exact le_max_right _ _
  · rw [hm, kvPushRoom_eq h.m_eq h.n_le, h.n_eq]

lemma kvStep_stack {d : ℕ × ℕ} (h : KvStack size v d) (hsize : 0 < size) {op : KvOp α}
    (hstack : op.stack = true) (hallowed : KvAllowed size v op) :
    ∃ v' out, kvStep size v op = .ok (v', out) ∧ KvStack size v' (kvDepth d op) := by
  cases op with
  | push x =>
    obtain ⟨v', hrun, h'⟩ := h.push hsize hallowed x
    refine ⟨v', none, ?_, h'⟩
    simp only [kvStep, hrun, ok_bind, pure_eq_ok]
  | pushp x =>
    obtain ⟨v', hrun, h'⟩ := h.push hsize hallowed x
    refine ⟨v', none, ?_, h'⟩
    simp only [kvStep, kvPushpAssign_eq, hrun, ok_bind, pure_eq_ok]
  | pop =>
    obtain ⟨xs, hxs⟩ := h.holds
    obtain ⟨hpos, x, hlast⟩ := hallowed
    obtain ⟨ys, rfl⟩ := eq_append_of_last hxs hpos hlast
    obtain ⟨v', hrun, hm, h'⟩ := kvPop_eq hxs hsize
    have hn : v'.n = v.n - 1 := by
      rw [← h'.length_eq, ← hxs.length_eq, List.length_append, List.length_singleton,
        Nat.add_sub_cancel]
    refine ⟨v', some x, ?_, ⟨ys, h'⟩, ?_, ?_, hm.trans h.m_eq⟩
    · simp only [kvStep, hrun, ok_bind, pure_eq_ok]
    · rw [hn, h.n_eq]
      rfl
    · rw [hn]
      exact (Nat.sub_le _ _).trans h.n_le
  | get i =>
    obtain ⟨hi, x, hcell⟩ := hallowed
    refine ⟨v, some x, ?_, h⟩
    simp only [kvStep, kvA_of_some hcell, ok_bind, pure_eq_ok]
  | set i x => cases hstack
  | reach i => cases hstack
  | resize s => cases hstack
  | copy v0 => cases hstack

lemma runOps_stack {d : ℕ × ℕ} (h : KvStack size v d) (hsize : 0 < size) {ops : List (KvOp α)}
    (hstack : ∀ op ∈ ops, op.stack = true)
    (hallowed : AllAllowed (kvStep size) (KvAllowed size) v ops) :
    ∃ v' outs, runOps (kvStep size) v ops = .ok (v', outs) ∧ KvStack size v' (ops.foldl kvDepth d) := by
  induction ops generalizing v d with
  | nil => exact ⟨v, [], rfl, h⟩
  | cons op ops ih =>
    obtain ⟨v₁, out, hone, h₁⟩ := kvStep_stack h hsize (hstack op List.mem_cons_self) hallowed.1
    obtain ⟨v', outs, hrun, h'⟩ :=
      ih h₁ (fun op' hop => hstack op' (List.mem_cons_of_mem op hop)) (hallowed.2 v₁ out hone)
    exact ⟨v', out :: outs, runOps_cons_ok.mpr ⟨v₁, out, outs, hone, hrun, rfl⟩, h'⟩

/-- A vector that is used as a stack has the least room that doubling gives for the largest number of
elements that it ever had. -/
theorem kvRun_room (hsize : 0 < size) (ops : List (KvOp α)) (hstack : ∀ op ∈ ops, op.stack = true)
    (hallowed : AllAllowed (kvStep size) (KvAllowed size) kvInit ops) :
    ∃ v outs, runOps (kvStep size) kvInit ops = .ok (v, outs) ∧
      v.n = (ops.foldl kvDepth (0, 0)).1 ∧ v.m = kvRoom (ops.foldl kvDepth (0, 0)).2 := by
  have hinit : KvStack size (kvInit : Kvec α) (0, 0) := ⟨⟨[], kvInit_holds size⟩, rfl, le_rfl, rfl⟩
  obtain ⟨v, outs, hrun, h⟩ := runOps_stack hinit hsize hstack hallowed
  exact ⟨v, outs, hrun, h.n_eq, h.m_eq⟩

theorem kvRun_room_three :
    ∃ v outs, runOps (kvStep 4) (kvInit : Kvec ℕ) [.push 7, .push 8, .pushp 9, .pop] = .ok (v, outs) ∧
      v.n = 2 ∧ v.m = 4 := by
  apply kvRun_room (Nat.succ_pos 3) _ (by decide)
  refine AllAllowed.cons_ok (show 4 * 2 < 2 ^ 64 by decide) rfl ?_
  refine AllAllowed.cons_ok (show 4 * 2 < 2 ^ 64 by decide) rfl ?_
  refine AllAllowed.cons_ok (show 4 * 4 < 2 ^ 64 by decide) rfl ?_
  exact AllAllowed.cons_ok ⟨show 0 < 3 by decide, 9, rfl⟩ rfl trivial

end Utilc
