import Utilc.CLib.Checked
import Mathlib.Data.Nat.ModEq

/-!
# Windows of a circular array

`window d a start len` is the sequence of `len` elements that begins at `start` and continues at the
front of the array when it runs past the end.
-/

namespace CLib

variable {α : Type}

/-- The `len` elements of the circular array `a` from `start` on. -/
def window (d : α) (a : List α) (start len : ℕ) : List α :=
  (List.range len).map (fun i => a.getD ((start + i) % a.length) d)

@[simp] lemma length_window (d : α) (a : List α) (start len : ℕ) :
    (window d a start len).length = len := by
  simp [window]

lemma getElem?_window (d : α) (a : List α) (start : ℕ) {len i : ℕ} (hi : i < len) :
    (window d a start len)[i]? = some (a.getD ((start + i) % a.length) d) := by
  simp [window, hi]

lemma offset_injective {cap start i j : ℕ} (hi : i < cap) (hj : j < cap)
    (h : (start + i) % cap = (start + j) % cap) : i = j := by
  have hmod : start + i ≡ start + j [MOD cap] := h
  have hij : i % cap = j % cap := Nat.ModEq.add_left_cancel' start hmod
  rwa [Nat.mod_eq_of_lt hi, Nat.mod_eq_of_lt hj] at hij

lemma window_succ (d : α) (a : List α) (start len : ℕ) :
    window d a start (len + 1) =
      window d a start len ++ [a.getD ((start + len) % a.length) d] := by
  simp [window, List.range_succ]

/-- The first element, and the rest as the window of the next start. -/
lemma window_cons (d : α) (a : List α) (start len : ℕ) :
    window d a start (len + 1) =
      a.getD (start % a.length) d :: window d a ((start + 1) % a.length) len := by
  rw [window, List.range_succ_eq_map, List.map_cons, List.map_map, Nat.add_zero]
  congr 1
  apply List.map_congr_left
  intro i _
  rw [Function.comp_apply, Nat.mod_add_mod]
  congr 2
  omega

lemma window_mod (d : α) (a : List α) (start len : ℕ) :
    window d a (start % a.length) len = window d a start len := by
  simp only [window, Nat.mod_add_mod]

/-- Writing the cell after a window that leaves one free appends to the window. -/
lemma window_set (d : α) {a : List α} {start len : ℕ} (hlen : len < a.length) (x : α) :
    window d (a.set ((start + len) % a.length) x) start (len + 1) = window d a start len ++ [x] := by
  have hpos : 0 < a.length := by omega
  have hcell : (start + len) % a.length < a.length := Nat.mod_lt _ hpos
  rw [window_succ, List.length_set]
  congr 1
  · apply List.map_congr_left
    intro i hi
    have hil : i < len := List.mem_range.mp hi
    have hne : (start + len) % a.length ≠ (start + i) % a.length := by
      intro h
      have he := offset_injective hlen (hil.trans hlen) h
      omega
    rw [List.length_set, List.getD_eq_getElem?_getD, List.getElem?_set_ne hne,
      ← List.getD_eq_getElem?_getD]
  · rw [List.getD_eq_getElem?_getD, List.getElem?_set_self hcell]
    rfl

/-- How many elements of a window lie before the end of the array. -/
def beforeEnd (cap start len : ℕ) : ℕ := if cap - start < len then cap - start else len

lemma beforeEnd_le {cap start len : ℕ} : beforeEnd cap start len ≤ len := by
  unfold beforeEnd
  split <;> omega

lemma start_add_beforeEnd_le {cap start : ℕ} (h : start ≤ cap) (len : ℕ) :
    start + beforeEnd cap start len ≤ cap := by
  unfold beforeEnd
  split <;> omega

/-- The part before the end of the array is all there is, or it reaches the end. -/
lemma beforeEnd_of_lt {cap start len : ℕ} (h : beforeEnd cap start len < len) :
    beforeEnd cap start len = cap - start := by
  unfold beforeEnd at h ⊢
  split at h
  next hwrap => rw [if_pos hwrap]
  next => omega

/-! ### The cells of a window -/

def InWindow (cap start len cell : ℕ) : Prop := ∃ i < len, cell = (start + i) % cap

lemma inWindow_beforeEnd {cap start len i : ℕ} (hstart : start ≤ cap)
    (hi : i < beforeEnd cap start len) : InWindow cap start len (start + i) := by
  have hle := start_add_beforeEnd_le hstart len
  refine ⟨i, hi.trans_le beforeEnd_le, ?_⟩
  rw [Nat.mod_eq_of_lt (by omega)]

lemma inWindow_fromFront {cap start len i : ℕ} (hstart : start ≤ cap) (hlen : len ≤ cap)
    (hi : i < len - beforeEnd cap start len) : InWindow cap start len i := by
  have hend : beforeEnd cap start len = cap - start := beforeEnd_of_lt (by omega)
  refine ⟨beforeEnd cap start len + i, by omega, ?_⟩
  have he : start + (beforeEnd cap start len + i) = i + cap := by omega
  rw [he, Nat.add_mod_right, Nat.mod_eq_of_lt (by omega)]

lemma not_inWindow_after {cap start len : ℕ} (hlen : len < cap) :
    ¬InWindow cap start len ((start + len) % cap) := by
  rintro ⟨i, hi, he⟩
  have hsame := offset_injective hlen (hi.trans hlen) he
  omega

/-- Copying a window in two parts, up to the end of the array and from its front, lays it out from
the start of the destination. -/
theorem copy_window (d : α) {a dst : List α} {start len : ℕ} (hstart : start < a.length)
    (hlen : len ≤ a.length) (hdst : len ≤ dst.length) :
    (do
      let b ← copyAt dst 0 a start (beforeEnd a.length start len)
      copyAt b (beforeEnd a.length start len) a 0 (len - beforeEnd a.length start len)) =
      .ok (window d a start len ++ dst.drop len) := by
  obtain ⟨n, hn⟩ : ∃ n, n = beforeEnd a.length start len := ⟨_, rfl⟩
  have hnle : n ≤ len := hn ▸ beforeEnd_le
  have hfit : start + n ≤ a.length := hn ▸ start_add_beforeEnd_le hstart.le len
  have hwrap : n < len → n = a.length - start := by
    rw [hn]
    exact beforeEnd_of_lt
  rw [← hn]
  have hd1 : 0 + n ≤ dst.length := by omega
  have hlen1 : (dst.take 0 ++ (a.drop start).take n ++ dst.drop (0 + n)).length = dst.length :=
    length_copy hd1 hfit
  have hd2 : n + (len - n) ≤ (dst.take 0 ++ (a.drop start).take n ++ dst.drop (0 + n)).length := by
    rw [hlen1]
    omega
  have hs2 : 0 + (len - n) ≤ a.length := by omega
  rw [copyAt_of_le hd1 hfit, ok_bind, copyAt_of_le hd2 hs2]
  congr 1
  apply List.ext_getElem?
  intro k
  rw [getElem?_copy hd2 hs2, getElem?_copy hd1 hfit]
  by_cases hk : k < len
  · rw [List.getElem?_append_left (by simpa using hk), getElem?_window d a start hk]
    by_cases hkn : k < n
    · have hmod : (start + k) % a.length = start + k := Nat.mod_eq_of_lt (by omega)
      rw [if_neg (by omega), if_pos (by omega), hmod, Nat.sub_zero,
        List.getElem?_eq_getElem (by omega), List.getD_eq_getElem _ _ (by omega)]
    · have hn' := hwrap (by omega)
      have he : start + k = 0 + (k - n) + a.length := by omega
      have hmod : (start + k) % a.length = 0 + (k - n) := by
        rw [he, Nat.add_mod_right, Nat.mod_eq_of_lt (by omega)]
      rw [if_pos (by omega), hmod, List.getElem?_eq_getElem (by omega),
        List.getD_eq_getElem _ _ (by omega)]
  · rw [if_neg (by omega), if_neg (by omega), List.getElem?_append_right (by simp; omega),
      length_window, List.getElem?_drop]
    congr 1
    omega

end CLib
