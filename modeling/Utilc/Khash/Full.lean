import Utilc.Khash.Put

/-!
# Tables without an empty bucket

A search that meets no empty bucket goes through all the buckets twice and stops where it began. That is
enough for `kh_get`. `kh_put` comes to such a table when there are too many buckets to double them.
-/

namespace Utilc
open CLib OpenAddressing

variable {K V : Type} {hashFunc : K → BitVec 32} {isMap : Bool} {h : KHash K V} {b : ℕ}
  {slots : ℕ → Slot K (Option V)} {key : K}

/-! ### The way round -/

lemma lastDeleted_of_deleted (path : ℕ → ℕ) (none : ℕ) {s t : ℕ} (ht : t < s)
    (hdel : slots (path t) = .deleted) :
    ∃ r < s, lastDeleted slots path none s = path r ∧ slots (path r) = .deleted := by
  induction s with
  | zero => omega
  | succ s ih =>
    unfold lastDeleted
    by_cases hlast : (slots (path s)).isDeleted = true
    · rw [if_pos hlast]
      exact ⟨s, Nat.lt_succ_self s, rfl, Slot.isDeleted_iff.mp hlast⟩
    · rw [if_neg hlast]
      have hne : t ≠ s := by
        rintro rfl
        exact hlast (Slot.isDeleted_iff.mpr hdel)
      obtain ⟨r, hr, he, hslot⟩ := ih (by omega)
      exact ⟨r, hr.trans (Nat.lt_succ_self s), he, hslot⟩

variable [DecidableEq K]

/-- The walk that stops nowhere is back at its start after two rounds. -/
lemma khWalk_back (hB : HasBuckets h b slots) (hashFunc : K → BitVec 32)
    (hnone : ∀ i < 2 ^ b, ¬Stops slots key i) (none : ℕ) {turns s : ℕ} (hs : s + 1 < 2 ^ (b + 1))
    (hturns : 2 ^ (b + 1) ≤ turns + s + 1) :
    khWalk h key (2 ^ b - 1) (khPath hashFunc (2 ^ b) key 0) turns (khPath hashFunc (2 ^ b) key s) s
        (lastDeleted slots (khPath hashFunc (2 ^ b) key) none s) =
      .ok ⟨khPath hashFunc (2 ^ b) key 0,
        lastDeleted slots (khPath hashFunc (2 ^ b) key) none (2 ^ (b + 1) - 1), true⟩ := by
  have hpow : 2 ^ (b + 1) ≤ 2 ^ 32 := Nat.pow_le_pow_right Nat.two_pos (Nat.succ_le_succ hB.le)
  induction turns generalizing s with
  | zero => omega
  | succ turns ih =>
    have hi : khPath hashFunc (2 ^ b) key s < 2 ^ b := khPath_lt (Nat.two_pow_pos b) key s
    have hword := hi.trans_le hB.words
    have hshows := hB.shows _ hi
    obtain ⟨c, hpasses, hc⟩ := khPasses_eq key hword hshows
    simp only [khWalk, hpasses, acIsDel_eq hword, hshows.isDeleted_eq, Bounded.liftM_ok,
      Bounded.ok_bind, Bounded.pure_eq_ok]
    rw [if_pos (hc.mpr (hnone _ hi)), khPath_succ hB.le hashFunc key (by omega)]
    by_cases hlast : s + 1 = 2 ^ (b + 1) - 1
    · have hback : khPath hashFunc (2 ^ b) key (s + 1) = khPath hashFunc (2 ^ b) key 0 := by
        rw [hlast]
        exact probe_back b _
      rw [if_pos hback, hback, ← hlast]
      rfl
    · have haway : khPath hashFunc (2 ^ b) key (s + 1) ≠ khPath hashFunc (2 ^ b) key 0 :=
        probe_ne_start (Nat.succ_pos s) (by omega)
      rw [if_neg haway, khAdd_of_lt (by omega)]
      exact ih (by omega) (by omega)

namespace HasBuckets

/-- The walk of `kh_get` and `kh_put`, if it stops nowhere. -/
lemma walk_back (hB : HasBuckets h b slots) (hashFunc : K → BitVec 32)
    (hnone : ∀ i < 2 ^ b, ¬Stops slots key i) :
    khWalk h key (2 ^ b - 1) (khPath hashFunc (2 ^ b) key 0) (khTurns h)
        (khPath hashFunc (2 ^ b) key 0) 0 h.nBuckets =
      .ok ⟨khPath hashFunc (2 ^ b) key 0,
        lastDeleted slots (khPath hashFunc (2 ^ b) key) h.nBuckets (2 ^ (b + 1) - 1), true⟩ := by
  have htwo : 2 ^ 1 ≤ 2 ^ (b + 1) := Nat.pow_le_pow_right Nat.two_pos (Nat.succ_pos b)
  have hturns := hB.turns_eq
  exact khWalk_back hB hashFunc hnone h.nBuckets (s := 0) (by omega) (by omega)

end HasBuckets

/-! ### Looking up -/

/-- Whatever the buckets hold, `kh_get` ends with a bucket of the key or with the end of the table, and
without an empty bucket it misses no key. -/
theorem khGet_ends (hB : HasBuckets h b slots) (hashFunc : K → BitVec 32) (key : K) :
    ∃ x, khGet hashFunc h key = .ok x ∧
      (x = h.nBuckets ∨ x < h.nBuckets ∧ ∃ v, slots x = .live key v) ∧
      ((∀ i < h.nBuckets, slots i ≠ .empty) →
        (x = h.nBuckets ↔ ∀ i < h.nBuckets, ∀ v, slots i ≠ .live key v)) := by
  rcases exists_first_stop_or b hashFunc slots key with ⟨f, hf, hstop, hfirst⟩ | hnone
  · have hlt := hB.path_lt hashFunc key f
    rw [hB.khGet_stop hf hstop hfirst]
    rcases hstop with hempty | ⟨v, hlive⟩
    · refine ⟨h.nBuckets, ?_, Or.inl rfl, fun hfull => absurd hempty (hfull _ hlt)⟩
      rw [hempty]
      rfl
    · refine ⟨khPath hashFunc (2 ^ b) key f, ?_, Or.inr ⟨hlt, v, hlive⟩, fun _ => ?_⟩
      · rw [hlive]
        rfl
      · exact iff_of_false hlt.ne fun hmissing => hmissing _ hlt v hlive
  · have hne : h.nBuckets ≠ 0 := by
      rw [hB.count]
      exact (Nat.two_pow_pos b).ne'
    refine ⟨h.nBuckets, ?_, Or.inl rfl, fun _ => ?_⟩
    · unfold khGet
      simp only [if_pos hne, hB.mask_eq, khPath_zero hashFunc b, hB.walk_back hashFunc hnone,
        Bounded.ok_bind, if_true, Bounded.pure_eq_ok]
    · refine iff_of_true rfl fun i hi v hlive => ?_
      rw [hB.count] at hi
      exact hnone i hi (Or.inr ⟨v, hlive⟩)

/-- A table in which every bucket holds its own number. -/
def khFilled (b : ℕ) : KHash (BitVec 32) Bool where
  nBuckets := 2 ^ b
  size := 2 ^ b
  nOccupied := 2 ^ b
  upperBound := acHashUpper (2 ^ b)
  flags := List.replicate (acFsize (2 ^ b)) 0#32
  keys := (List.range (2 ^ b)).map fun i => some (BitVec.ofNat 32 i)
  vals := List.replicate (2 ^ b) (some true)

lemma khFilled_hasBuckets (hb : b ≤ 31) :
    HasBuckets (khFilled b) b fun i => .live (BitVec.ofNat 32 i) (some true) := by
  refine ⟨hb, rfl, fun i hi => ?_, ?_, ?_⟩
  · have hbit (c : ℕ) : fieldBit (khFilled b).flags i c = false := by
      rw [khFilled, fieldBit_replicate _ (div_lt_acFsize hi), BitVec.getLsbD_zero]
    refine ⟨hbit 1, hbit 0, ?_, ?_⟩
    · rw [khFilled, List.getElem?_map, List.getElem?_range hi]
      rfl
    · rw [khFilled, List.getD_eq_getElem?_getD, List.getElem?_replicate, if_pos hi]
      rfl
  · rw [khFilled, List.length_replicate]
    exact pow_le_acFsize b
  · rw [khFilled, List.length_map, List.length_range]

/-- A number of no bucket. -/
lemma khFilled_missing (hb : b ≤ 31) {k : BitVec 32} (hk : 2 ^ b ≤ k.toNat) :
    ∀ i < (khFilled b).nBuckets, ∀ v,
      Slot.live (BitVec.ofNat 32 i) (some true) ≠ Slot.live (V := Option Bool) k v := by
  rintro i hi v he
  have hpow : 2 ^ b ≤ 2 ^ 31 := Nat.pow_le_pow_right Nat.two_pos hb
  change i < 2 ^ b at hi
  cases he
  rw [BitVec.toNat_ofNat, Nat.mod_eq_of_lt (by omega)] at hk
  omega

theorem khGet_ends_filled : khGet (fun k => k) (khFilled 2) 9#32 = .ok 4 := by
  obtain ⟨x, hget, -, hfull⟩ := khGet_ends (khFilled_hasBuckets (by decide : 2 ≤ 31)) (fun k => k) 9#32
  have hx : x = 4 := (hfull fun _ _ => nofun).mpr (khFilled_missing (by decide) (by decide))
  rw [hget, hx]

/-! ### Inserting at the largest bucket count -/

omit [DecidableEq K] in
/-- Two bucket counts that `kh_put` asks for, of which none changes the table. -/
lemma khMakeRoom_largest (hcount : h.nBuckets = 2 ^ 31) (hsize : acHashUpper (2 ^ 31) ≤ h.size)
    (hashFunc : K → BitVec 32) (isMap : Bool) (alloc : Alloc) :
    khMakeRoom hashFunc isMap h alloc = .ok (h, 0) := by
  have hfour : acHashUpper 4 ≤ h.size := le_trans (by decide) hsize
  have hpred : khResize hashFunc isMap h (khSub h.nBuckets 1) alloc = .ok (h, 0) := by
    have hnew : khNewBuckets (2 ^ 31 - 1) = 2 ^ 31 := khNewBuckets_pred (by decide) le_rfl
    rw [hcount, khSub_one_pow le_rfl]
    unfold khResize
    rw [hnew, if_pos hsize]
    rfl
  have hsucc : khResize hashFunc isMap h (khAdd h.nBuckets 1) alloc = .ok (h, 0) := by
    -- the count of twice as many buckets does not fit
    have hnew : khNewBuckets (2 ^ 31 + 1) = 4 := by decide
    rw [hcount, khAdd_of_lt (by decide)]
    unfold khResize
    rw [hnew, if_pos hfour]
    rfl
  unfold khMakeRoom
  rw [hpred, hsucc, ite_self, Bounded.pure_eq_ok, ite_self]

/-- The deleted bucket `x` of `h` has become the one of `key`, and apart from the size nothing else has
changed. -/
structure Reused (hashFunc : K → BitVec 32) (b : ℕ) (h h' : KHash K V) (slots : ℕ → Slot K (Option V))
    (key : K) (x : ℕ) : Prop where
  deleted : slots x = .deleted
  buckets : HasBuckets h' b (Function.update slots x (.live key (h.vals.getD x none)))
  nBuckets : h'.nBuckets = h.nBuckets
  size : h'.size = khAdd h.size 1
  nOccupied : h'.nOccupied = h.nOccupied
  upperBound : h'.upperBound = h.upperBound
  vals : h'.vals = h.vals
  found : khGet hashFunc h' key = .ok x

omit [DecidableEq K] in
/-- An entry written to a bucket. -/
lemma HasBuckets.write (hB : HasBuckets h b slots) {x : ℕ} (hx : x < h.nBuckets) (key : K)
    {flags' : List (BitVec 32)} (hflags : Flagged h.flags flags' x false false) (size : ℕ) :
    HasBuckets { h with keys := h.keys.set x (some key), flags := flags', size := size } b
      (Function.update slots x (.live key (h.vals.getD x none))) := by
  have hcell : x < h.keys.length := by
    rw [hB.count] at hx
    exact hx.trans_le hB.cells
  have hcells : Written h.keys (h.keys.set x (some key)) h.vals h.vals x key (h.vals.getD x none) :=
    ⟨List.getElem?_set_self hcell, rfl, fun j hj => ⟨List.getElem?_set_ne hj.symm, rfl⟩⟩
  refine ⟨hB.le, hB.count, shows_write hB.shows hflags hcells, ?_, ?_⟩
  · rw [hflags.length_eq]
    exact hB.words
  · rw [List.length_set]
    exact hB.cells

/-- The only bucket of a key is found where no bucket is empty. -/
lemma HasBuckets.khGet_only (hB : HasBuckets h b slots) (hashFunc : K → BitVec 32) {x : ℕ}
    (hfull : ∀ i < h.nBuckets, slots i ≠ .empty) (hx : x < h.nBuckets) {v : Option V}
    (hlive : slots x = .live key v)
    (honly : ∀ i < h.nBuckets, ∀ w, slots i = .live key w → i = x) : khGet hashFunc h key = .ok x := by
  rcases exists_first_stop_or b hashFunc slots key with ⟨f, hf, hstop, hfirst⟩ | hnone
  · have hlt := hB.path_lt hashFunc key f
    rw [hB.khGet_stop hf hstop hfirst]
    rcases hstop with hempty | ⟨w, hw⟩
    · exact absurd hempty (hfull _ hlt)
    · rw [hw, honly _ hlt w hw]
      rfl
  · rw [hB.count] at hx
    exact absurd (Or.inr ⟨v, hlive⟩) (hnone x hx)

/-- A new key is put in a deleted bucket. -/
lemma HasBuckets.khOccupy_deleted (hB : HasBuckets h b slots) {x : ℕ} (hx : x < h.nBuckets)
    (hdel : slots x = .deleted) (hfull : ∀ i < h.nBuckets, slots i ≠ .empty)
    (hmissing : ∀ i < h.nBuckets, ∀ v, slots i ≠ .live key v) (hashFunc : K → BitVec 32) :
    ∃ h', khOccupy h key x = .ok (h', x, 2) ∧ Reused hashFunc b h h' slots key x := by
  have hcell : x < h.keys.length := by
    have hlt := hx
    rw [hB.count] at hlt
    exact hlt.trans_le hB.cells
  obtain ⟨flags', hset, hflags⟩ := acSetIsBothFalse_eq (hB.word_lt hx)
  have hB' := hB.write hx key hflags (khAdd h.size 1)
  refine ⟨_, ?_, hdel, hB', rfl, rfl, rfl, rfl, rfl, ?_⟩
  · simp only [khOccupy, hB.isEmpty_eq hx, hB.isDel_eq hx, hdel, Slot.isEmpty, Slot.isDeleted, ok_bind,
      if_neg Bool.false_ne_true, if_true, writeAt_of_lt hcell, hset, pure_eq_ok]
  · apply hB'.khGet_only hashFunc _ hx (Function.update_self _ _ _)
    · intro i hi w hlive
      by_contra hne
      rw [Function.update_of_ne hne] at hlive
      exact hmissing i hi w hlive
    · intro i hi
      by_cases he : i = x
      · rw [he, Function.update_self]
        intro hempty
        cases hempty
      · rw [Function.update_of_ne he]
        exact hfull i hi

/-- Where `kh_put` has neither an empty bucket nor a way to make room, it puts a new key in a deleted
bucket. If there is none either, it answers that the key is present, and gives out the bucket of another
key. -/
theorem khPut_full (hB : HasBuckets h 31 slots) (hsize : acHashUpper (2 ^ 31) ≤ h.size)
    (hfull : ∀ i < h.nBuckets, slots i ≠ .empty)
    (hmissing : ∀ i < h.nBuckets, ∀ v, slots i ≠ .live key v) (hashFunc : K → BitVec 32) (isMap : Bool)
    (alloc : Alloc) :
    khMakeRoom hashFunc isMap h alloc = .ok (h, 0) ∧
    ∃ h' x ret, khPut hashFunc isMap h key alloc = .ok (h', x, ret) ∧ x < h.nBuckets ∧
      (ret = 2 ∧ Reused hashFunc 31 h h' slots key x ∨
        (∀ i < h.nBuckets, slots i ≠ .deleted) ∧ ret = 0 ∧ h' = h ∧
          ∃ key' v, key' ≠ key ∧ slots x = .live key' v) := by
  have hnone : ∀ i < 2 ^ 31, ¬Stops slots key i := by
    intro i hi
    rw [← hB.count] at hi
    rintro (hempty | ⟨v, hlive⟩)
    · exact hfull i hi hempty
    · exact hmissing i hi v hlive
  have hmakeRoom := khMakeRoom_largest hB.count hsize hashFunc isMap alloc
  refine ⟨hmakeRoom, ?_⟩
  unfold khPut
  rw [hmakeRoom, Bounded.ok_bind, if_neg (lt_irrefl _)]
  have hlt := hB.path_lt hashFunc key 0
  have hoccupied {i : ℕ} (hi : i < h.nBuckets) : (slots i).isEmpty = false :=
    Bool.eq_false_iff.mpr (mt Slot.isEmpty_iff.mp (hfull i hi))
  simp only [khSite, hB.mask_eq, khPath_zero hashFunc 31, hB.isEmpty_eq hlt, hoccupied hlt,
    Bounded.liftM_ok, Bounded.ok_bind, Bounded.pure_eq_ok, if_neg Bool.false_ne_true,
    hB.walk_back hashFunc hnone, if_true]
  by_cases hdeleted : ∃ i < h.nBuckets, slots i = .deleted
  · obtain ⟨i, hi, hdel⟩ := hdeleted
    rw [hB.count] at hi
    obtain ⟨t, ht, rfl⟩ := exists_probe_eq (hashFunc key).toNat hi
    obtain ⟨r, -, hlast, hslot⟩ := lastDeleted_of_deleted (khPath hashFunc (2 ^ 31) key) h.nBuckets
      (ht.trans (by decide : 2 ^ 31 < 2 ^ (31 + 1) - 1)) hdel
    have hr := hB.path_lt hashFunc key r
    obtain ⟨h', hocc, hreused⟩ := hB.khOccupy_deleted hr hslot hfull hmissing hashFunc
    rw [hlast, if_neg hr.ne, Bounded.ok_bind, hocc]
    exact ⟨h', _, 2, rfl, hr, Or.inl ⟨rfl, hreused⟩⟩
  · push Not at hdeleted
    have hlast : lastDeleted slots (khPath hashFunc (2 ^ 31) key) h.nBuckets (2 ^ (31 + 1) - 1) =
        h.nBuckets := by
      rcases lastDeleted_cases slots (khPath hashFunc (2 ^ 31) key) h.nBuckets (2 ^ (31 + 1) - 1) with
        hlast | ⟨t, -, -, hdel⟩
      · exact hlast
      · exact absurd hdel (hdeleted _ (hB.path_lt hashFunc key t))
    have hsame : ¬(false = true ∧ h.nBuckets ≠ h.nBuckets) := fun hboth => hboth.2 rfl
    have hnot : (slots (khPath hashFunc (2 ^ 31) key 0)).isDeleted = false :=
      Bool.eq_false_iff.mpr (mt Slot.isDeleted_iff.mp (hdeleted _ hlt))
    rw [hlast, if_pos rfl, if_neg hsame]
    simp only [Bounded.ok_bind, khOccupy, hB.isEmpty_eq hlt, hB.isDel_eq hlt, hoccupied hlt, hnot, ok_bind,
      if_neg Bool.false_ne_true, pure_eq_ok]
    refine ⟨h, _, 0, rfl, hlt, Or.inr ⟨hdeleted, rfl, rfl, ?_⟩⟩
    cases hslot : slots (khPath hashFunc (2 ^ 31) key 0) with
    | empty => exact absurd hslot (hfull _ hlt)
    | deleted => exact absurd hslot (hdeleted _ hlt)
    | live key' v =>
      refine ⟨key', v, ?_, rfl⟩
      rintro rfl
      exact hmissing _ hlt v hslot

/-- The first number that has no bucket is taken for another one. -/
theorem khPut_full_filled :
    ∃ x, khPut (fun k => k) true (khFilled 31) (BitVec.ofNat 32 (2 ^ 31)) ⟨true, true, true⟩ =
      .ok (khFilled 31, x, 0) := by
  have hmissing := khFilled_missing le_rfl (k := BitVec.ofNat 32 (2 ^ 31)) (by decide)
  obtain ⟨-, h', x, ret, hput, -, hcase⟩ := khPut_full (khFilled_hasBuckets le_rfl)
    (show acHashUpper (2 ^ 31) ≤ 2 ^ 31 by decide) (fun _ _ => nofun) hmissing (fun k => k) true
    ⟨true, true, true⟩
  rcases hcase with ⟨-, hreused⟩ | ⟨-, rfl, rfl, -⟩
  · cases hreused.deleted
  · exact ⟨x, hput⟩

end Utilc
