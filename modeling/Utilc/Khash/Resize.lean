import Utilc.Khash.Rehash

/-!
# Resizing

`kh_resize` never changes the map that a table stands for, and a failed allocation leaves the table as
it was apart from cells that nothing refers to.
-/

namespace Utilc
open CLib OpenAddressing

variable {K V : Type} {hashFunc : K → BitVec 32} {isMap : Bool} {h : KHash K V}
  {slots : ℕ → Slot K (Option V)}

/-! ### The new number of buckets -/

/-- The number of buckets is the least power of two that is at least 4 and not below the requested
number. -/
lemma khNewBuckets_of_le {x : ℕ} (hx : x ≤ 2 ^ 31) : khNewBuckets x = max 4 (2 ^ Nat.clog 2 x) := by
  have hround : kroundup32 x = if x = 0 then 0 else 2 ^ Nat.clog 2 x := by
    have hmod : (BitVec.ofNat 32 x).toNat = x := Nat.mod_eq_of_lt (by omega)
    unfold kroundup32
    split
    · rename_i hzero
      rw [hzero]
      decide
    · rename_i hne
      have hword : BitVec.ofNat 32 x ≠ 0#32 := by
        intro he
        rw [he] at hmod
        exact hne hmod.symm
      have hclog : Nat.clog 2 x ≤ 31 := Nat.clog_le_of_le_pow hx
      rw [toNat_roundUp32 hword (by omega), hmod]
      exact Nat.mod_eq_of_lt (Nat.pow_lt_pow_right Nat.one_lt_two (by omega))
  unfold khNewBuckets
  rw [hround]
  by_cases hzero : x = 0
  · rw [if_pos hzero, hzero, Nat.clog_zero_right]
    rfl
  · rw [if_neg hzero]
    split <;> omega

/-- Whatever is requested, the number of buckets is a power of two from 4 to `2 ^ 31`. -/
lemma khNewBuckets_pow (x : ℕ) : ∃ b, 2 ≤ b ∧ b ≤ 31 ∧ khNewBuckets x = 2 ^ b := by
  unfold khNewBuckets
  by_cases hsmall : kroundup32 x < 4
  · rw [if_pos hsmall]
    exact ⟨2, le_rfl, by omega, rfl⟩
  · rw [if_neg hsmall]
    have hword : BitVec.ofNat 32 x ≠ 0#32 := by
      intro he
      rw [kroundup32, he] at hsmall
      exact hsmall (by decide)
    have hlt := (BitVec.ofNat 32 x).isLt
    have hround := toNat_roundUp32 hword hlt.le
    have hclog : Nat.clog 2 (BitVec.ofNat 32 x).toNat ≤ 32 := Nat.clog_le_of_le_pow hlt.le
    have hne : Nat.clog 2 (BitVec.ofNat 32 x).toNat ≠ 32 := by
      intro he
      rw [he, Nat.mod_self] at hround
      rw [kroundup32, hround] at hsmall
      exact hsmall (Nat.succ_pos 3)
    have hpow : 2 ^ Nat.clog 2 (BitVec.ofNat 32 x).toNat < 2 ^ 32 :=
      Nat.pow_lt_pow_right Nat.one_lt_two (by omega)
    rw [Nat.mod_eq_of_lt hpow] at hround
    refine ⟨_, ?_, by omega, hround⟩
    by_contra hlow
    have hfour : 2 ^ Nat.clog 2 (BitVec.ofNat 32 x).toNat < 2 ^ 2 :=
      Nat.pow_lt_pow_right Nat.one_lt_two (not_le.mp hlow)
    rw [kroundup32, hround] at hsmall
    omega

/-- A request becomes the least power of two, from 4 on, that is not below it. A request above `2 ^ 31`
has no such power in a `khint_t`, and becomes 4. -/
theorem khNewBuckets_isLeast {x : ℕ} (hx : x < 2 ^ 32) :
    (x ≤ 2 ^ 31 → IsLeast {p | (∃ k, p = 2 ^ k) ∧ 4 ≤ p ∧ x ≤ p} (khNewBuckets x)) ∧
      (2 ^ 31 < x → khNewBuckets x = 4) := by
  constructor
  · intro hle
    rw [khNewBuckets_of_le hle]
    constructor
    · have hclog : x ≤ 2 ^ Nat.clog 2 x := Nat.le_pow_clog Nat.one_lt_two x
      refine ⟨?_, le_max_left _ _, hclog.trans (le_max_right _ _)⟩
      rcases le_total 4 (2 ^ Nat.clog 2 x) with h | h
      · exact ⟨Nat.clog 2 x, max_eq_right h⟩
      · exact ⟨2, max_eq_left h⟩
    · rintro p ⟨⟨k, rfl⟩, hfour, hk⟩
      apply max_le hfour
      exact Nat.pow_le_pow_right Nat.two_pos (Nat.clog_le_of_le_pow hk)
  · intro hgt
    have hmod : (BitVec.ofNat 32 x).toNat = x := Nat.mod_eq_of_lt hx
    have hword : BitVec.ofNat 32 x ≠ 0#32 := by
      intro he
      rw [he, BitVec.toNat_zero] at hmod
      omega
    have hclog : Nat.clog 2 x = 32 := by
      apply le_antisymm
      · exact Nat.clog_le_of_le_pow hx.le
      · exact (Nat.lt_clog_iff_pow_lt Nat.one_lt_two).mpr hgt
    have hzero : kroundup32 x = 0 := by
      rw [kroundup32, toNat_roundUp32 hword (by omega), hmod, hclog, Nat.mod_self]
    rw [khNewBuckets, hzero]
    rfl

theorem khNewBuckets_isLeast_hundred :
    IsLeast {p | (∃ k, p = 2 ^ k) ∧ 4 ≤ p ∧ 100 ≤ p} (khNewBuckets 100) :=
  (khNewBuckets_isLeast (by decide : 100 < 2 ^ 32)).1 (by decide)

/-! ### The arrays -/

lemma Sound.withCells (hs : Sound hashFunc isMap h slots) {keys' : List (Option K)}
    {vals' : List (Option V)} (hroom : Room isMap h.nBuckets keys' vals')
    (hcells : ∀ i < h.nBuckets, keys'[i]? = h.keys[i]? ∧ vals'.getD i none = h.vals.getD i none) :
    Sound hashFunc isMap { h with keys := keys', vals := vals' } slots :=
  ⟨fun i hi => (hs.shows i hi).of_frame (fun _ _ => rfl) fun _ => hcells i hi, hs.words, hroom, hs.valid,
    hs.size_eq, hs.occupied_eq, hs.geometry, hs.occupied_le⟩

lemma getD_realloc {a : List (Option V)} {cells i : ℕ} (hcells : i < cells) (hi : i < a.length) :
    (realloc a cells).getD i none = a.getD i none := by
  rw [List.getD_eq_getElem?_getD, getElem?_realloc_of_lt hcells hi, ← List.getD_eq_getElem?_getD]

/-- An allocation that a resizing from `n` buckets to `newN` asks for fails: that of the flags, or that
of an array that has to grow. -/
def Refused (isMap : Bool) (n newN : ℕ) (alloc : Alloc) : Prop :=
  alloc.flags = false ∨ n < newN ∧ (alloc.keys = false ∨ isMap = true ∧ alloc.vals = false)

lemma khExpand_failed_iff (isMap : Bool) (h : KHash K V) (newN : ℕ) {alloc : Alloc}
    (hflags : alloc.flags = true) :
    (khExpand isMap h newN alloc).2 = false ↔ Refused isMap h.nBuckets newN alloc := by
  unfold khExpand Refused
  rw [hflags]
  by_cases hgrow : h.nBuckets < newN
  · rw [if_pos hgrow]
    cases alloc.keys <;> cases isMap <;> cases alloc.vals <;> simp [hgrow]
  · rw [if_neg hgrow]
    simp [hgrow]

/-- The arrays of an expanded table have room for both bucket counts. -/
lemma khExpand_eq (hs : Sound hashFunc isMap h slots) (newN : ℕ) (alloc : Alloc) :
    ∃ keys' vals' ok, khExpand isMap h newN alloc = ({ h with keys := keys', vals := vals' }, ok) ∧
      Sound hashFunc isMap { h with keys := keys', vals := vals' } slots ∧
      (ok = true → Room isMap (max h.nBuckets newN) keys' vals') := by
  unfold khExpand
  by_cases hgrow : h.nBuckets < newN
  · have hmax : max h.nBuckets newN = newN := max_eq_right hgrow.le
    have hkeyCells : ∀ i < h.nBuckets, (realloc h.keys newN)[i]? = h.keys[i]? := fun i hi =>
      getElem?_realloc_of_lt (hi.trans hgrow) (hi.trans_le hs.room.keys_le)
    have hkeys : newN ≤ (realloc h.keys newN).length := (length_realloc _ _).ge
    rw [if_pos hgrow, hmax]
    cases hk : alloc.keys with
    | false => exact ⟨h.keys, h.vals, false, rfl, hs, nofun⟩
    | true =>
      have hkeysOnly : Sound hashFunc isMap { h with keys := realloc h.keys newN } slots :=
        hs.withCells ⟨hgrow.le.trans hkeys, hs.room.vals_le, hs.room.vals_nil⟩
          fun i hi => ⟨hkeyCells i hi, rfl⟩
      cases isMap with
      | false =>
        exact ⟨realloc h.keys newN, h.vals, true, rfl, hkeysOnly,
          fun _ => ⟨hkeys, nofun, hs.room.vals_nil⟩⟩
      | true =>
        cases hv : alloc.vals with
        | false => exact ⟨realloc h.keys newN, h.vals, false, rfl, hkeysOnly, nofun⟩
        | true =>
          have hvals : newN ≤ (realloc h.vals newN).length := (length_realloc _ _).ge
          refine ⟨realloc h.keys newN, realloc h.vals newN, true, rfl, ?_,
            fun _ => ⟨hkeys, fun _ => hvals, nofun⟩⟩
          apply hs.withCells ⟨hgrow.le.trans hkeys, fun _ => hgrow.le.trans hvals, nofun⟩
          intro i hi
          exact ⟨hkeyCells i hi, getD_realloc (hi.trans hgrow) (hi.trans_le (hs.room.vals_le rfl))⟩
  · rw [if_neg hgrow, max_eq_left (not_lt.mp hgrow)]
    exact ⟨h.keys, h.vals, true, rfl, hs, fun _ => hs.room⟩

/-! ### The resizing -/

/-- The reallocations that only give memory back succeed. -/
def Shrinks (isMap : Bool) (h : KHash K V) (newN : ℕ) (alloc : Alloc) : Prop :=
  newN < h.nBuckets → alloc.keys = true ∧ (isMap = true → alloc.vals = true)

/-- The arrays that are left after a resizing have the cells of the new buckets. -/
lemma khShrink_eq {n newN : ℕ} {keys : List (Option K)} {vals : List (Option V)} {alloc : Alloc}
    (hroom : Room isMap (max n newN) keys vals)
    (hshrink : newN < n → alloc.keys = true ∧ (isMap = true → alloc.vals = true)) :
    Room isMap newN (if newN < n then khShrink alloc.keys keys newN else keys)
        (if newN < n ∧ isMap then khShrink alloc.vals vals newN else vals) ∧
      ∀ i < newN, (if newN < n then khShrink alloc.keys keys newN else keys)[i]? = keys[i]? ∧
        (if newN < n ∧ isMap then khShrink alloc.vals vals newN else vals).getD i none =
          vals.getD i none := by
  have hshort := hroom.mono (le_max_right n newN)
  by_cases hless : newN < n
  · obtain ⟨hk, hv⟩ := hshrink hless
    have hkeys : ∀ i < newN, (realloc keys newN)[i]? = keys[i]? := fun i hi =>
      getElem?_realloc_of_lt hi (hi.trans_le hshort.keys_le)
    simp only [hless, true_and, hk, khShrink, if_true]
    cases isMap with
    | false => exact ⟨⟨(length_realloc _ _).ge, nofun, hshort.vals_nil⟩, fun i hi => ⟨hkeys i hi, rfl⟩⟩
    | true =>
      rw [if_pos rfl, if_pos (hv rfl)]
      exact ⟨⟨(length_realloc _ _).ge, fun _ => (length_realloc _ _).ge, nofun⟩,
        fun i hi => ⟨hkeys i hi, getD_realloc hi (hi.trans_le (hshort.vals_le rfl))⟩⟩
  · rw [if_neg hless, if_neg fun hboth => hless hboth.1]
    exact ⟨hshort, fun i hi => ⟨rfl, rfl⟩⟩

variable [DecidableEq K]

/-- Rehashing leaves a table of the new size without deleted buckets that stands for the same map. -/
theorem khRehash_eq (hs : Sound hashFunc isMap h slots) {b : ℕ} (hb : 2 ≤ b) (hb' : b ≤ 31)
    (hroom : Room isMap (max h.nBuckets (2 ^ b)) h.keys h.vals)
    (hsize : h.size < acHashUpper (2 ^ b)) {alloc : Alloc} (hshrink : Shrinks isMap h (2 ^ b) alloc) :
    ∃ h', khRehash hashFunc isMap h (2 ^ b) alloc = .ok h' ∧ h'.nBuckets = 2 ^ b ∧ h'.size = h.size ∧
      h'.nOccupied = h.size ∧ h'.upperBound = acHashUpper (2 ^ b) ∧
      (∀ i < h'.nBuckets, acIsDel h'.flags i = .ok false) ∧
      ∃ slots', ∃ hs' : Sound hashFunc isMap h' slots',
        hs'.valid.toFinmap = hs.valid.toFinmap := by
  have hcard : (contents h.nBuckets slots).card < 2 ^ b := by
    rw [← hs.size_eq]
    exact hsize.trans (acHashUpper_lt hb)
  have hwords : 2 ^ b ≤ 16 * (List.replicate (acFsize (2 ^ b)) acAllEmpty).length := by
    rw [List.length_replicate]
    exact pow_le_acFsize b
  have hstart : Rehashing hashFunc isMap h.nBuckets b (contents h.nBuckets slots)
      ⟨h.flags, List.replicate (acFsize (2 ^ b)) acAllEmpty, h.keys, h.vals⟩ slots
      (fun _ => .empty) 0 := by
    refine ⟨hs.shows, fun i hi => ?_, hs.words, hwords, hroom, fun _ _ => rfl, Valid.empty _ _, ?_⟩
    · have hempty := shows_allEmpty (div_lt_acFsize hi) [] h.keys h.vals
      rwa [List.append_nil] at hempty
    · rw [contents_empty, Multiset.zero_add, Multiset.zero_add]
  obtain ⟨r, old, new, hrun, hr, hcontents⟩ := rehash_all hb' hs.valid.nodupKeys hcard hstart
  obtain ⟨hroom', hcells⟩ := khShrink_eq hr.room hshrink
  have hsize' : h.size = (contents (2 ^ b) new).card := by rw [hcontents, hs.size_eq]
  simp only [khRehash, hrun, Bounded.ok_bind, Bounded.pure_eq_ok]
  refine ⟨_, rfl, rfl, rfl, rfl, rfl, fun i hi => ?_, new, ⟨fun i hi => ?_, hr.newWords, hroom',
    hr.valid, hsize', ?_, Or.inr ⟨b, hb, hb', rfl, rfl⟩, hsize.le⟩, Finmap.ext hcontents⟩
  · change i < 2 ^ b at hi
    rw [← hr.noDeleted i hi]
    exact (hr.newShows i hi).acIsDel_eq (hi.trans_le hr.newWords)
  · exact (hr.newShows i hi).of_frame (fun _ _ => rfl) fun _ => hcells i hi
  · exact hsize'.trans (occupied_eq_card hr.noDeleted).symm

/-- What a resizing can do. -/
inductive Resized (isMap : Bool) (h : KHash K V) (newN : ℕ) (alloc : Alloc) : KHash K V × ℤ → Prop
  | tooSmall (hsize : acHashUpper (khNewBuckets newN) ≤ h.size) : Resized isMap h newN alloc (h, 0)
  | failed (keys : List (Option K)) (vals : List (Option V))
      (hroom : h.size < acHashUpper (khNewBuckets newN))
      (hrefused : Refused isMap h.nBuckets (khNewBuckets newN) alloc) :
      Resized isMap h newN alloc ({ h with keys := keys, vals := vals }, -1)
  | done (h' : KHash K V) (hn : h'.nBuckets = khNewBuckets newN) (hsize : h'.size = h.size)
      (hocc : h'.nOccupied = h.size) (hupper : h'.upperBound = acHashUpper (khNewBuckets newN))
      (hroom : h.size < acHashUpper (khNewBuckets newN))
      (hgranted : ¬Refused isMap h.nBuckets (khNewBuckets newN) alloc)
      (hclean : ∀ i < h'.nBuckets, acIsDel h'.flags i = .ok false) : Resized isMap h newN alloc (h', 0)

theorem khResize_eq (hs : Sound hashFunc isMap h slots) (newN : ℕ) {alloc : Alloc}
    (hshrink : Shrinks isMap h (khNewBuckets newN) alloc) :
    ∃ r, khResize hashFunc isMap h newN alloc = .ok r ∧ Resized isMap h newN alloc r ∧
      ∃ slots', ∃ hs' : Sound hashFunc isMap r.1 slots',
        hs'.valid.toFinmap = hs.valid.toFinmap := by
  unfold khResize
  by_cases hsmall : acHashUpper (khNewBuckets newN) ≤ h.size
  · rw [if_pos hsmall]
    exact ⟨(h, 0), rfl, Resized.tooSmall hsmall, slots, hs, rfl⟩
  · rw [if_neg hsmall]
    cases hflags : alloc.flags with
    | false =>
      exact ⟨(h, -1), rfl, Resized.failed h.keys h.vals (not_le.mp hsmall) (Or.inl hflags), slots, hs,
        rfl⟩
    | true =>
      obtain ⟨b, hb, hb', hpow⟩ := khNewBuckets_pow newN
      have hfailed := khExpand_failed_iff isMap h (khNewBuckets newN) hflags
      obtain ⟨keys', vals', ok, hexpand, hs', hroom⟩ := khExpand_eq hs (khNewBuckets newN) alloc
      rw [hexpand] at hfailed
      rw [if_pos rfl, hexpand]
      cases ok with
      | false =>
        exact ⟨_, rfl, Resized.failed keys' vals' (not_le.mp hsmall) (hfailed.mp rfl), slots, hs', rfl⟩
      | true =>
        have hgranted : ¬Refused isMap h.nBuckets (khNewBuckets newN) alloc :=
          fun hrefused => Bool.noConfusion (hfailed.mpr hrefused)
        have hroom' := hroom rfl
        rw [hpow] at hroom' hsmall hshrink
        obtain ⟨h', hrun, hn, hsize, hocc, hupper, hclean, slots', hs'', hmap⟩ :=
          khRehash_eq hs' hb hb' hroom' (not_le.mp hsmall) hshrink
        refine ⟨(h', 0), ?_, ?_, slots', hs'', hmap⟩
        · rw [if_pos rfl, hpow, hrun]
          rfl
        · rw [← hpow] at hn hupper hsmall
          exact Resized.done h' hn hsize hocc hupper (not_le.mp hsmall) hgranted hclean

end Utilc
