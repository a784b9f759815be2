import Utilc.CLib.RoundUp
import Utilc.Kvec

/-!
# Vectors as lists

The macros of `kvec.h` that grow a vector or copy one, and what each macro does to the list that a
vector holds. A cell between the old end and an index that `kv_a` reaches for has whatever it had.
-/

namespace Utilc
open CLib

variable {α : Type}

/-- `kv_roundup32` of a `size_t`. -/
def kvRoundup32 (x : ℕ) : ℕ := (roundUp32 (BitVec.ofNat sizeBits x)).toNat

/-- What `kv_a` does before it gives out the cell `i`. -/
def kvReach (size : ℕ) (v : Kvec α) (i : ℕ) : Kvec α :=
  if v.m ≤ i then { kvResize size v (kvRoundup32 (sizeAdd i 1)) with n := sizeAdd i 1 }
  else if v.n ≤ i then { v with n := sizeAdd i 1 }
  else v

/-- `kv_a(type, v, i)`, which can only be read. A cell that was never written has no particular value. -/
def kvaRead (size : ℕ) (v : Kvec α) (i : ℕ) : Checked (Kvec α × Option α) := do
  let v := kvReach size v i
  let x ← readAt v.a i
  return (v, x)

/-- `kv_pushp` gives out the cell behind the last one. -/
def kvPushp (size : ℕ) (v : Kvec α) : Kvec α × ℕ :=
  let v := if v.n = v.m then kvResize size v (if v.m ≠ 0 then sizeMul v.m 2 else 2) else v
  ({ v with n := sizeAdd v.n 1 }, v.n)

/-- `*(kv_pushp(type, v)) = x`. -/
def kvPushpAssign (size : ℕ) (v : Kvec α) (x : α) : Checked (Kvec α) :=
  kvAssign (kvPushp size v).1 (kvPushp size v).2 x

def kvCopy (size : ℕ) (v1 v0 : Kvec α) : Checked (Kvec α) := do
  let v1 := if v1.m < v0.n then kvResize size v1 v0.n else v1
  let a ← copyAt v1.a 0 v0.a 0 v0.n
  return { v1 with n := v0.n, a := a }

/-! ### The list that a vector holds -/

/-- The vector holds the list `xs`, and its memory has room for `m` elements of the given size. -/
structure KvHolds (size : ℕ) (v : Kvec α) (xs : List (Option α)) : Prop where
  take_eq : v.a.take v.n = xs
  n_le : v.n ≤ v.m
  cells : v.a.length = v.m
  fits : size * v.m < 2 ^ sizeBits

variable {size : ℕ} {v : Kvec α} {xs : List (Option α)}

lemma take_realloc {a : List (Option α)} {n cells : ℕ} (hcells : n ≤ cells) (hn : n ≤ a.length) :
    (realloc a cells).take n = a.take n := by
  have hlen : n ≤ (a.take cells).length := by
    rw [List.length_take]
    exact le_min hcells hn
  rw [realloc, List.take_append_of_le_length hlen, List.take_take, min_eq_left hcells]

namespace KvHolds

lemma length_eq (h : KvHolds size v xs) : xs.length = v.n := by
  rw [← h.take_eq, List.length_take, h.cells, min_eq_left h.n_le]

lemma getElem?_eq (h : KvHolds size v xs) {i : ℕ} (hi : i < v.n) : xs[i]? = v.a[i]? := by
  rw [← h.take_eq, List.getElem?_take_of_lt hi]

lemma m_lt (h : KvHolds size v xs) (hsize : 0 < size) : v.m < 2 ^ sizeBits :=
  (Nat.le_mul_of_pos_left v.m hsize).trans_lt h.fits

/-- A vector with more room holds the same list. -/
lemma resize (h : KvHolds size v xs) (hsize : 0 < size) {s : ℕ} (hs : v.n ≤ s)
    (hfits : size * s < 2 ^ sizeBits) : KvHolds size (kvResize size v s) xs := by
  have hcells : (kvResize size v s).a = realloc v.a s := by
    rw [kvResize, sizeMul_of_lt hfits, Nat.mul_div_cancel_left s hsize]
  refine ⟨?_, hs, length_kvResize hsize hfits v, hfits⟩
  have hn : v.n ≤ v.a.length := h.n_le.trans_eq h.cells.symm
  change (kvResize size v s).a.take v.n = xs
  rw [hcells, take_realloc hs hn, h.take_eq]

/-- An element is written behind the last one. -/
lemma append (h : KvHolds size v xs) (hlt : v.n < v.m) (x : α) :
    KvHolds size { v with n := v.n + 1, a := v.a.set v.n (some x) } (xs ++ [some x]) := by
  have hcell : v.n < v.a.length := by
    rw [h.cells]
    exact hlt
  refine ⟨?_, hlt, ?_, h.fits⟩
  · change (v.a.set v.n (some x)).take (v.n + 1) = _
    rw [List.take_add_one, List.getElem?_set_self hcell, List.take_set_of_le le_rfl, h.take_eq]
    rfl
  · exact List.length_set.trans h.cells

/-- An element is written anywhere in the memory. -/
lemma set (h : KvHolds size v xs) (i : ℕ) (x : α) :
    KvHolds size { v with a := v.a.set i (some x) } (xs.set i (some x)) := by
  refine ⟨?_, h.n_le, List.length_set.trans h.cells, h.fits⟩
  change (v.a.set i (some x)).take v.n = _
  rw [List.take_set, h.take_eq]

end KvHolds

/-! ### The operations -/

/-- The room after `kv_push`. -/
def kvPushRoom (v : Kvec α) : ℕ := if v.n = v.m then if v.m ≠ 0 then v.m * 2 else 2 else v.m

/-- The room after `kv_a`. -/
def kvReachRoom (v : Kvec α) (i : ℕ) : ℕ := if v.m ≤ i then kvRoundup32 (i + 1) else v.m

/-- The two ways of appending do the same. -/
lemma kvPushpAssign_eq (size : ℕ) (v : Kvec α) (x : α) :
    kvPushpAssign size v x = kvPush size v x := by
  unfold kvPushpAssign kvPush kvPushp kvStaticPush kvAssign
  rfl

lemma kvPush_eq (h : KvHolds size v xs) (hsize : 0 < size)
    (hfits : size * kvPushRoom v < 2 ^ sizeBits) (x : α) :
    ∃ v', kvPush size v x = .ok v' ∧ v'.m = kvPushRoom v ∧ KvHolds size v' (xs ++ [some x]) := by
  have hroom : kvPushRoom v < 2 ^ sizeBits :=
    (Nat.le_mul_of_pos_left (kvPushRoom v) hsize).trans_lt hfits
  have hpush {w : Kvec α} (hw : KvHolds size w xs) (hm : w.m = kvPushRoom v) (hn : w.n < w.m) :
      ∃ v', kvStaticPush w x = .ok v' ∧ v'.m = kvPushRoom v ∧ KvHolds size v' (xs ++ [some x]) := by
    have hcell : w.n < w.a.length := by
      rw [hw.cells]
      exact hn
    refine ⟨{ w with n := w.n + 1, a := w.a.set w.n (some x) }, ?_, hm, hw.append hn x⟩
    rw [kvStaticPush, writeAt_of_lt hcell, ok_bind, sizeAdd_of_lt (by omega)]
    rfl
  unfold kvPush
  by_cases hfull : v.n = v.m
  · have hgrow : (if v.m ≠ 0 then sizeMul v.m 2 else 2) = kvPushRoom v := by
      unfold kvPushRoom at hroom ⊢
      rw [if_pos hfull] at hroom ⊢
      split
      · rename_i hne
        rw [if_pos hne] at hroom
        exact sizeMul_of_lt hroom
      · rfl
    have hlt : v.n < kvPushRoom v := by
      unfold kvPushRoom
      rw [if_pos hfull]
      split <;> omega
    rw [if_pos hfull, hgrow]
    exact hpush (h.resize hsize hlt.le hfits) rfl hlt
  · rw [if_neg hfull]
    exact hpush h (if_neg hfull).symm (lt_of_le_of_ne h.n_le hfull)

lemma kvPop_eq {x : α} (h : KvHolds size v (xs ++ [some x])) (hsize : 0 < size) :
    ∃ v', kvPop v = .ok (v', x) ∧ v'.m = v.m ∧ KvHolds size v' xs := by
  have hlen := h.length_eq
  have hm := h.m_lt hsize
  have hle := h.n_le
  rw [List.length_append, List.length_singleton] at hlen
  have hn : sizeSub v.n 1 = xs.length := by
    rw [sizeSub_of_le (by omega) (by omega)]
    omega
  have hcell : v.a[xs.length]? = some (some x) := by
    rw [← h.getElem?_eq (by omega), List.getElem?_append_right le_rfl, Nat.sub_self]
    rfl
  have hle' : xs.length ≤ v.m := by omega
  refine ⟨{ v with n := xs.length }, ?_, rfl, ?_, hle', h.cells, h.fits⟩
  · have hread : kvA { v with n := xs.length } xs.length = .ok x := kvA_of_some hcell
    unfold kvPop
    rw [hn]
    change (do
      let x ← kvA { v with n := xs.length } xs.length
      return ({ v with n := xs.length }, x)) = _
    rw [hread]
    rfl
  · have htake := congrArg (List.take xs.length) h.take_eq
    rwa [List.take_take, min_eq_left (by omega), List.take_left'] at htake
    rfl

/-- A list that goes on to the index `i`, with cells of no particular value behind the old ones. -/
structure Reached (xs xs' : List (Option α)) (i : ℕ) : Prop where
  length_eq : xs'.length = max xs.length (i + 1)
  frame : ∀ j < xs.length, xs'[j]? = xs[j]?

lemma kvRoundup32_bounds {i : ℕ} (hi : i < 2 ^ 63) :
    i + 1 ≤ kvRoundup32 (i + 1) ∧ kvRoundup32 (i + 1) ≤ 2 ^ 63 := by
  have hmod : (BitVec.ofNat sizeBits (i + 1)).toNat = i + 1 := by
    apply Nat.mod_eq_of_lt
    unfold sizeBits
    omega
  have hne : BitVec.ofNat sizeBits (i + 1) ≠ 0 := by
    intro he
    rw [he] at hmod
    exact (Nat.succ_ne_zero i) hmod.symm
  have hbounds := roundUp32_bounds hne (by decide : 63 < sizeBits) (by rw [hmod]; exact hi)
  rwa [hmod] at hbounds

lemma kvReach_holds (h : KvHolds size v xs) (hsize : 0 < size) {i : ℕ} (hi : i < 2 ^ 63)
    (hfits : size * kvReachRoom v i < 2 ^ sizeBits) :
    ∃ ys, KvHolds size (kvReach size v i) ys ∧ (kvReach size v i).m = kvReachRoom v i ∧
      Reached xs ys i := by
  have hsucc : sizeAdd i 1 = i + 1 := by
    apply sizeAdd_of_lt
    unfold sizeBits
    omega
  have hlen := h.length_eq
  -- more cells are taken into the list
  have hextend {w : Kvec α} (hw : KvHolds size w xs) (hn : w.n ≤ i) (hm : i < w.m) :
      ∃ ys, KvHolds size { w with n := i + 1 } ys ∧ ys.length = i + 1 ∧
        ∀ j < xs.length, ys[j]? = xs[j]? := by
    have hcells : i + 1 ≤ w.a.length := by
      rw [hw.cells]
      exact hm
    refine ⟨w.a.take (i + 1), ⟨rfl, hm, hw.cells, hw.fits⟩, ?_, fun j hj => ?_⟩
    · rw [List.length_take, min_eq_left hcells]
    · rw [hw.length_eq] at hj
      rw [List.getElem?_take_of_lt (by omega), ← hw.getElem?_eq hj]
  unfold kvReach kvReachRoom at *
  rw [hsucc]
  by_cases hfar : v.m ≤ i
  · simp only [if_pos hfar] at hfits ⊢
    have hbound := (kvRoundup32_bounds hi).1
    have hle := h.n_le
    have hgrown := h.resize hsize (by omega : v.n ≤ kvRoundup32 (i + 1)) hfits
    obtain ⟨ys, hys, hylen, hkeep⟩ := hextend hgrown (hle.trans hfar) hbound
    exact ⟨ys, hys, rfl, by omega, hkeep⟩
  · simp only [if_neg hfar] at hfits ⊢
    by_cases hbehind : v.n ≤ i
    · rw [if_pos hbehind]
      obtain ⟨ys, hys, hylen, hkeep⟩ := hextend h hbehind (not_le.mp hfar)
      exact ⟨ys, hys, rfl, by omega, hkeep⟩
    · rw [if_neg hbehind]
      exact ⟨xs, h, rfl, by omega, fun _ _ => rfl⟩

lemma kvaRead_eq (h : KvHolds size v xs) (hsize : 0 < size) {i : ℕ} (hi : i < 2 ^ 63)
    (hfits : size * kvReachRoom v i < 2 ^ sizeBits) :
    ∃ v' xs', kvaRead size v i = .ok (v', xs'[i]?.join) ∧ v'.m = kvReachRoom v i ∧
      KvHolds size v' xs' ∧ Reached xs xs' i := by
  obtain ⟨ys, hys, hm, hreached⟩ := kvReach_holds h hsize hi hfits
  have hin : i < (kvReach size v i).n := by
    rw [← hys.length_eq, hreached.length_eq]
    omega
  have hcell : i < (kvReach size v i).a.length := by
    rw [hys.cells]
    exact hin.trans_le hys.n_le
  refine ⟨kvReach size v i, ys, ?_, hm, hys, hreached⟩
  have hget := List.getElem?_eq_getElem hcell
  rw [kvaRead, hys.getElem?_eq hin, hget, readAt_eq_ok.mpr hget]
  rfl

lemma kvCopy_eq {v0 : Kvec α} {ys : List (Option α)} (h : KvHolds size v xs)
    (h0 : KvHolds size v0 ys) (hsize : 0 < size) :
    ∃ v', kvCopy size v v0 = .ok v' ∧ v'.m = max v.m v0.n ∧ KvHolds size v' ys := by
  have hfits0 : size * v0.n < 2 ^ sizeBits :=
    (Nat.mul_le_mul_left size h0.n_le).trans_lt h0.fits
  have hsrc : 0 + v0.n ≤ v0.a.length := by
    rw [h0.cells, Nat.zero_add]
    exact h0.n_le
  have hcopy {w : Kvec α} (hcells : w.a.length = w.m) (hfits : size * w.m < 2 ^ sizeBits)
      (hle : v0.n ≤ w.m) : ∃ v', (do
        let a ← copyAt w.a 0 v0.a 0 v0.n
        return { w with n := v0.n, a := a } : Checked (Kvec α)) = .ok v' ∧ v'.m = w.m ∧
        KvHolds size v' ys := by
    have hdst : 0 + v0.n ≤ w.a.length := by
      rw [hcells, Nat.zero_add]
      exact hle
    rw [copyAt_of_le hdst hsrc]
    refine ⟨_, rfl, rfl, ?_, hle, (length_copy hdst hsrc).trans hcells, hfits⟩
    have hlen : (v0.a.take v0.n).length = v0.n := by
      rw [List.length_take]
      omega
    change (w.a.take 0 ++ (v0.a.drop 0).take v0.n ++ w.a.drop (0 + v0.n)).take v0.n = ys
    rw [List.take_zero, List.nil_append, List.drop_zero, List.take_left' hlen, h0.take_eq]
  unfold kvCopy
  by_cases hless : v.m < v0.n
  · rw [if_pos hless, max_eq_right hless.le]
    exact hcopy (length_kvResize hsize hfits0 v) hfits0 le_rfl
  · rw [if_neg hless, max_eq_left (not_lt.mp hless)]
    exact hcopy h.cells h.fits (not_lt.mp hless)

end Utilc
