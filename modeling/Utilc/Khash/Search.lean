import Utilc.Khash.Slots

/-!
# Searching the buckets

The loops of the table follow the path of a key: `probe` from its hash value. They are compared with
the first slot of the path at which a search has to stop.
-/

namespace Utilc
open CLib OpenAddressing

variable {K V : Type} {b : ℕ}

/-- The buckets that are searched for a key in a table of `n` buckets. -/
def khPath (hashFunc : K → BitVec 32) (n : ℕ) (key : K) : ℕ → ℕ := probe n (hashFunc key).toNat

lemma khPath_lt {hashFunc : K → BitVec 32} {n : ℕ} (hn : 0 < n) (key : K) (s : ℕ) :
    khPath hashFunc n key s < n := probe_lt hn _ s

lemma khAdd_of_lt {a c : ℕ} (h : a + c < 2 ^ 32) : khAdd a c = a + c := Nat.mod_eq_of_lt h

lemma khSub_of_le {a c : ℕ} (h : c ≤ a) (ha : a < 2 ^ 32) : khSub a c = a - c := by
  have he : a + (2 ^ 32 - c) = a - c + 2 ^ 32 := by omega
  rw [khSub, he, Nat.add_mod_right, Nat.mod_eq_of_lt (by omega)]

lemma khSub_one_pow (hb : b ≤ 31) : khSub (2 ^ b) 1 = 2 ^ b - 1 := by
  have hpow : 2 ^ b ≤ 2 ^ 31 := Nat.pow_le_pow_right Nat.two_pos hb
  exact khSub_of_le Nat.one_le_two_pow (by omega)

lemma khPath_zero (hashFunc : K → BitVec 32) (b : ℕ) (key : K) :
    (hashFunc key).toNat &&& (2 ^ b - 1) = khPath hashFunc (2 ^ b) key 0 :=
  Nat.and_two_pow_sub_one_eq_mod _ b

/-- `i = (i + (++step)) & mask`. -/
lemma khPath_succ (hb : b ≤ 31) (hashFunc : K → BitVec 32) (key : K) {s : ℕ} (hs : s + 1 < 2 ^ 32) :
    khAdd (khPath hashFunc (2 ^ b) key s) (khAdd s 1) &&& (2 ^ b - 1) =
      khPath hashFunc (2 ^ b) key (s + 1) := by
  unfold khPath
  rw [khAdd_of_lt hs, Nat.and_two_pow_sub_one_eq_mod, khAdd,
    Nat.mod_mod_of_dvd _ (Nat.pow_dvd_pow 2 (by omega)), probe_succ]

/-! ### The walk of the rehashing -/

/-- The walk comes to the first empty slot. -/
lemma khFindEmpty_eq (hb : b ≤ 31) (hashFunc : K → BitVec 32) (key : K) {newFlags : List (BitVec 32)}
    {slots : ℕ → Slot K (Option V)}
    (hshown : ∀ i < 2 ^ b, acIsEmpty newFlags i = .ok (slots i).isEmpty) {f : ℕ}
    (hf : f < 2 ^ b) (hempty : slots (khPath hashFunc (2 ^ b) key f) = .empty)
    (hfirst : ∀ s < f, slots (khPath hashFunc (2 ^ b) key s) ≠ .empty) {turns s : ℕ} (hs : s ≤ f)
    (hturns : f < turns + s) :
    khFindEmpty newFlags (2 ^ b - 1) turns (khPath hashFunc (2 ^ b) key s) s =
      .ok (khPath hashFunc (2 ^ b) key f) := by
  have hpow : 2 ^ b ≤ 2 ^ 31 := Nat.pow_le_pow_right Nat.two_pos hb
  induction turns generalizing s with
  | zero => omega
  | succ turns ih =>
    have hi : khPath hashFunc (2 ^ b) key s < 2 ^ b := khPath_lt (Nat.two_pow_pos b) key s
    simp only [khFindEmpty, hshown _ hi, Bounded.liftM_ok, Bounded.ok_bind, Bounded.pure_eq_ok]
    rcases Nat.eq_or_lt_of_le hs with rfl | hlt
    · rw [if_pos (Slot.isEmpty_iff.mpr hempty)]
    · rw [if_neg (mt Slot.isEmpty_iff.mp (hfirst s hlt)), khPath_succ hb hashFunc key (by omega),
        khAdd_of_lt (by omega)]
      exact ih hlt (by omega)

/-! ### Buckets -/

variable {h : KHash K V} {slots : ℕ → Slot K (Option V)}

/-- A table of `2 ^ b` buckets, whatever is in them. -/
structure HasBuckets (h : KHash K V) (b : ℕ) (slots : ℕ → Slot K (Option V)) : Prop where
  le : b ≤ 31
  count : h.nBuckets = 2 ^ b
  shows : ∀ i < 2 ^ b, Shows h.flags h.keys h.vals i (slots i)
  words : 2 ^ b ≤ 16 * h.flags.length
  cells : 2 ^ b ≤ h.keys.length

namespace HasBuckets

lemma mask_eq (hB : HasBuckets h b slots) : khSub h.nBuckets 1 = 2 ^ b - 1 := by
  rw [hB.count, khSub_one_pow hB.le]

lemma turns_eq (hB : HasBuckets h b slots) : khTurns h = 2 ^ (b + 1) := by
  rw [khTurns, hB.count, Nat.pow_succ']

lemma lt_turns (hB : HasBuckets h b slots) {f : ℕ} (hf : f < 2 ^ b) : f < khTurns h := by
  rw [hB.turns_eq, Nat.pow_succ']
  omega

lemma path_lt (hB : HasBuckets h b slots) (hashFunc : K → BitVec 32) (key : K) (s : ℕ) :
    khPath hashFunc (2 ^ b) key s < h.nBuckets := by
  rw [hB.count]
  exact khPath_lt (Nat.two_pow_pos b) key s

lemma word_lt (hB : HasBuckets h b slots) {i : ℕ} (hi : i < h.nBuckets) : i < 16 * h.flags.length := by
  rw [hB.count] at hi
  exact hi.trans_le hB.words

lemma shows_of_lt (hB : HasBuckets h b slots) {i : ℕ} (hi : i < h.nBuckets) :
    Shows h.flags h.keys h.vals i (slots i) := hB.shows i (hB.count ▸ hi)

lemma isEmpty_eq (hB : HasBuckets h b slots) {i : ℕ} (hi : i < h.nBuckets) :
    acIsEmpty h.flags i = .ok (slots i).isEmpty := (hB.shows_of_lt hi).acIsEmpty_eq (hB.word_lt hi)

lemma isDel_eq (hB : HasBuckets h b slots) {i : ℕ} (hi : i < h.nBuckets) :
    acIsDel h.flags i = .ok (slots i).isDeleted := (hB.shows_of_lt hi).acIsDel_eq (hB.word_lt hi)

lemma isEither_eq (hB : HasBuckets h b slots) {i : ℕ} (hi : i < h.nBuckets) :
    acIsEither h.flags i = .ok !(slots i).isLive := (hB.shows_of_lt hi).acIsEither_eq (hB.word_lt hi)

end HasBuckets

/-! ### The walk of `kh_get` and `kh_put` -/

/-- The first slot at which a search stops is among the first `2 ^ b` of its path. -/
lemma exists_first_stop_or (b : ℕ) (hashFunc : K → BitVec 32) (slots : ℕ → Slot K (Option V))
    (key : K) :
    (∃ f < 2 ^ b, Stops slots key (khPath hashFunc (2 ^ b) key f) ∧
      ∀ s < f, ¬Stops slots key (khPath hashFunc (2 ^ b) key s)) ∨
    ∀ i < 2 ^ b, ¬Stops slots key i := by
  classical
  by_cases hex : ∃ s, Stops slots key (khPath hashFunc (2 ^ b) key s)
  · refine Or.inl ⟨Nat.find hex, ?_, Nat.find_spec hex, fun s hs => Nat.find_min hex hs⟩
    have hlt : khPath hashFunc (2 ^ b) key (Nat.find hex) < 2 ^ b :=
      khPath_lt (Nat.two_pow_pos b) key (Nat.find hex)
    obtain ⟨t, ht, he⟩ := exists_probe_eq (hashFunc key).toNat hlt
    have hstop : Stops slots key (khPath hashFunc (2 ^ b) key t) := by
      change khPath hashFunc (2 ^ b) key t = _ at he
      rw [he]
      exact Nat.find_spec hex
    exact (Nat.find_min' hex hstop).trans_lt ht
  · refine Or.inr fun i hi hstop => ?_
    obtain ⟨s, -, rfl⟩ := exists_probe_eq (hashFunc key).toNat hi
    exact hex ⟨s, hstop⟩

variable [DecidableEq K]

lemma khPasses_eq (key : K) {i : ℕ} (hi : i < 16 * h.flags.length)
    (hshows : Shows h.flags h.keys h.vals i (slots i)) :
    ∃ c, khPasses h key i = .ok c ∧ (c = true ↔ ¬Stops slots key i) := by
  unfold khPasses
  rw [acIsEmpty_eq hi, acIsDel_eq hi, hshows.isEmpty_eq, hshows.isDeleted_eq, not_stops_iff]
  cases hslot : slots i with
  | empty => exact ⟨false, rfl, by simp⟩
  | deleted => exact ⟨true, rfl, by simp⟩
  | live key' v =>
    rw [hslot] at hshows
    refine ⟨decide (key' ≠ key), ?_, by simp⟩
    simp only [Slot.isEmpty, Slot.isDeleted, ok_bind, readCell_of_some hshows.2.2.1, pure_eq_ok,
      if_neg Bool.false_ne_true]

/-- The last deleted slot among the first `s` of a path, or `none`. -/
def lastDeleted (slots : ℕ → Slot K (Option V)) (path : ℕ → ℕ) (none : ℕ) : ℕ → ℕ
  | 0 => none
  | s + 1 => if (slots (path s)).isDeleted then path s else lastDeleted slots path none s

omit [DecidableEq K] in
lemma lastDeleted_cases (slots : ℕ → Slot K (Option V)) (path : ℕ → ℕ) (none s : ℕ) :
    lastDeleted slots path none s = none ∨
      ∃ t < s, lastDeleted slots path none s = path t ∧ slots (path t) = .deleted := by
  induction s with
  | zero => exact Or.inl rfl
  | succ s ih =>
    unfold lastDeleted
    by_cases hdel : (slots (path s)).isDeleted = true
    · rw [if_pos hdel]
      exact Or.inr ⟨s, Nat.lt_succ_self s, rfl, Slot.isDeleted_iff.mp hdel⟩
    · rw [if_neg hdel]
      rcases ih with hnone | ⟨t, ht, hlast⟩
      · exact Or.inl hnone
      · exact Or.inr ⟨t, ht.trans (Nat.lt_succ_self s), hlast⟩

/-- The walk comes to the first slot at which a search stops, and never back to its start. -/
lemma khWalk_eq (hb : b ≤ 31) (hashFunc : K → BitVec 32) (key : K)
    (hwords : 2 ^ b ≤ 16 * h.flags.length)
    (hshows : ∀ i < 2 ^ b, Shows h.flags h.keys h.vals i (slots i)) {f : ℕ} (hf : f < 2 ^ b)
    (hstop : Stops slots key (khPath hashFunc (2 ^ b) key f))
    (hfirst : ∀ s < f, ¬Stops slots key (khPath hashFunc (2 ^ b) key s)) (none : ℕ) {turns s : ℕ}
    (hs : s ≤ f) (hturns : f < turns + s) :
    khWalk h key (2 ^ b - 1) (khPath hashFunc (2 ^ b) key 0) turns (khPath hashFunc (2 ^ b) key s) s
        (lastDeleted slots (khPath hashFunc (2 ^ b) key) none s) =
      .ok ⟨khPath hashFunc (2 ^ b) key f,
        lastDeleted slots (khPath hashFunc (2 ^ b) key) none f, false⟩ := by
  have hpow : 2 ^ b ≤ 2 ^ 31 := Nat.pow_le_pow_right Nat.two_pos hb
  induction turns generalizing s with
  | zero => omega
  | succ turns ih =>
    have hi : khPath hashFunc (2 ^ b) key s < 2 ^ b := khPath_lt (Nat.two_pow_pos b) key s
    have hword := hi.trans_le hwords
    obtain ⟨c, hpasses, hc⟩ := khPasses_eq key hword (hshows _ hi)
    simp only [khWalk, hpasses, acIsDel_eq hword, (hshows _ hi).isDeleted_eq, Bounded.liftM_ok,
      Bounded.ok_bind, Bounded.pure_eq_ok]
    rcases Nat.eq_or_lt_of_le hs with rfl | hlt
    · rw [if_neg (fun h => hc.mp h hstop)]
    · -- the first buckets of a path are all different
      have hback : khPath hashFunc (2 ^ b) key (s + 1) ≠ khPath hashFunc (2 ^ b) key 0 := by
        intro he
        exact absurd (probe_injOn b _ (show s + 1 < 2 ^ b by omega) (Nat.two_pow_pos b) he) (by omega)
      rw [if_pos (hc.mpr (hfirst s hlt)), khPath_succ hb hashFunc key (by omega), if_neg hback,
        khAdd_of_lt (by omega)]
      exact ih hlt (by omega)

/-- The walk of `kh_get` and `kh_put` as they start it. -/
lemma HasBuckets.walk_stop (hB : HasBuckets h b slots) {hashFunc : K → BitVec 32} {key : K} {f : ℕ}
    (hf : f < 2 ^ b) (hstop : Stops slots key (khPath hashFunc (2 ^ b) key f))
    (hfirst : ∀ s < f, ¬Stops slots key (khPath hashFunc (2 ^ b) key s)) {turns : ℕ}
    (hturns : f < turns) :
    khWalk h key (2 ^ b - 1) (khPath hashFunc (2 ^ b) key 0) turns (khPath hashFunc (2 ^ b) key 0) 0
        h.nBuckets =
      .ok ⟨khPath hashFunc (2 ^ b) key f,
        lastDeleted slots (khPath hashFunc (2 ^ b) key) h.nBuckets f, false⟩ :=
  khWalk_eq hB.le hashFunc key hB.words hB.shows hf hstop hfirst h.nBuckets (Nat.zero_le f) hturns

/-- `kh_get` answers with the bucket at which its search stops, unless that one is empty. -/
lemma HasBuckets.khGet_stop (hB : HasBuckets h b slots) {hashFunc : K → BitVec 32} {key : K} {f : ℕ}
    (hf : f < 2 ^ b) (hstop : Stops slots key (khPath hashFunc (2 ^ b) key f))
    (hfirst : ∀ s < f, ¬Stops slots key (khPath hashFunc (2 ^ b) key s)) :
    khGet hashFunc h key = .ok (if (slots (khPath hashFunc (2 ^ b) key f)).isLive then
      khPath hashFunc (2 ^ b) key f else h.nBuckets) := by
  have hne : h.nBuckets ≠ 0 := by
    rw [hB.count]
    exact (Nat.two_pow_pos b).ne'
  unfold khGet
  simp only [if_pos hne, hB.mask_eq, khPath_zero hashFunc b,
    hB.walk_stop hf hstop hfirst (hB.lt_turns hf), Bounded.ok_bind, if_neg Bool.false_ne_true,
    hB.isEither_eq (hB.path_lt hashFunc key f), Bounded.liftM_ok, Bounded.pure_eq_ok]
  cases (slots (khPath hashFunc (2 ^ b) key f)).isLive <;> rfl

end Utilc
