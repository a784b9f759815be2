import Utilc.Khash.Search

/-!
# What a table stands for

The invariant of the table, and what `kh_get`, `kh_put` and `kh_del` do to the finite map that the
buckets stand for.
-/

namespace Utilc
open CLib OpenAddressing

variable {K V : Type} {hashFunc : K → BitVec 32} {isMap : Bool} {h : KHash K V}
  {slots : ℕ → Slot K (Option V)}

/-- No bucket yet, or a power of two of them with the bound that belongs to it. -/
def Geometry (h : KHash K V) : Prop :=
  (h.nBuckets = 0 ∧ h.upperBound = 0) ∨
    ∃ b, 2 ≤ b ∧ b ≤ 31 ∧ h.nBuckets = 2 ^ b ∧ h.upperBound = acHashUpper (2 ^ b)

/-- A table whose buckets are `slots`. -/
structure Sound (hashFunc : K → BitVec 32) (isMap : Bool) (h : KHash K V)
    (slots : ℕ → Slot K (Option V)) : Prop where
  shows : ∀ i < h.nBuckets, Shows h.flags h.keys h.vals i (slots i)
  words : h.nBuckets ≤ 16 * h.flags.length
  room : Room isMap h.nBuckets h.keys h.vals
  valid : Valid (khPath hashFunc h.nBuckets) h.nBuckets slots
  size_eq : h.size = (contents h.nBuckets slots).card
  occupied_eq : h.nOccupied = occupied h.nBuckets slots
  geometry : Geometry h
  occupied_le : h.nOccupied ≤ h.upperBound

/-- The table stands for the map `m`. The value of a key in a set, or of a key whose value was never
written, is `none`. -/
def Denotes (hashFunc : K → BitVec 32) (isMap : Bool) (h : KHash K V)
    (m : Finmap fun _ : K => Option V) : Prop :=
  ∃ slots, ∃ hs : Sound hashFunc isMap h slots, hs.valid.toFinmap = m

lemma acHashUpper_lt {b : ℕ} (hb : 2 ≤ b) : acHashUpper (2 ^ b) < 2 ^ b := by
  have hpow : 2 ^ 2 ≤ 2 ^ b := Nat.pow_le_pow_right Nat.two_pos hb
  unfold acHashUpper
  omega

namespace Sound

lemma nBuckets_lt (hs : Sound hashFunc isMap h slots) : h.nBuckets < 2 ^ 32 := by
  rcases hs.geometry with ⟨hn, -⟩ | ⟨b, -, hb, hn, -⟩
  · rw [hn]
    exact Nat.two_pow_pos 32
  · rw [hn]
    exact Nat.pow_lt_pow_right Nat.one_lt_two (by omega)

lemma size_le (hs : Sound hashFunc isMap h slots) : h.size ≤ h.nOccupied := by
  rw [hs.size_eq, hs.occupied_eq]
  exact card_contents_le _ _

lemma pow_of_ne (hs : Sound hashFunc isMap h slots) (hn : h.nBuckets ≠ 0) :
    ∃ b, 2 ≤ b ∧ b ≤ 31 ∧ h.nBuckets = 2 ^ b ∧ h.upperBound = acHashUpper (2 ^ b) := by
  rcases hs.geometry with ⟨hzero, -⟩ | hpow
  · exact absurd hzero hn
  · exact hpow

lemma live_word (hs : Sound hashFunc isMap h slots) {i : ℕ} (hi : i < h.nBuckets) :
    i < 16 * h.flags.length := hi.trans_le hs.words

lemma hasBuckets (hs : Sound hashFunc isMap h slots) {b : ℕ} (hb : b ≤ 31)
    (hn : h.nBuckets = 2 ^ b) : HasBuckets h b slots where
  le := hb
  count := hn
  shows := hn ▸ hs.shows
  words := hn ▸ hs.words
  cells := hn ▸ hs.room.keys_le

/-- Every search comes to an empty slot unless it finds its key before. -/
lemma exists_stop (hs : Sound hashFunc isMap h slots) {b : ℕ} (hb : 2 ≤ b)
    (hn : h.nBuckets = 2 ^ b) (hu : h.upperBound = acHashUpper (2 ^ b)) (key : K) :
    ∃ f < 2 ^ b, Stops slots key (khPath hashFunc (2 ^ b) key f) ∧
      ∀ s < f, ¬Stops slots key (khPath hashFunc (2 ^ b) key s) := by
  have hroom : occupied h.nBuckets slots < h.nBuckets := by
    have hle := hs.occupied_le
    have hlt := acHashUpper_lt hb
    rw [← hs.occupied_eq]
    omega
  obtain ⟨i, hi, hempty⟩ := exists_empty hroom
  rw [hn] at hi
  rcases exists_first_stop_or b hashFunc slots key with hstop | hnone
  · exact hstop
  · exact absurd (Or.inl hempty) (hnone i hi)

lemma acIsEmpty_eq (hs : Sound hashFunc isMap h slots) {i : ℕ} (hi : i < h.nBuckets) :
    acIsEmpty h.flags i = .ok (slots i).isEmpty := (hs.shows i hi).acIsEmpty_eq (hs.live_word hi)

lemma acIsDel_eq (hs : Sound hashFunc isMap h slots) {i : ℕ} (hi : i < h.nBuckets) :
    acIsDel h.flags i = .ok (slots i).isDeleted := (hs.shows i hi).acIsDel_eq (hs.live_word hi)

lemma acIsEither_eq (hs : Sound hashFunc isMap h slots) {i : ℕ} (hi : i < h.nBuckets) :
    acIsEither h.flags i = .ok !(slots i).isLive := (hs.shows i hi).acIsEither_eq (hs.live_word hi)

end Sound

/-! ### Looking up -/

variable [DecidableEq K]

/-- `kh_get` ends at the bucket of the key, or at the end of the table when the key is not there. -/
theorem khGet_eq (hs : Sound hashFunc isMap h slots) (key : K) :
    ∃ x, khGet hashFunc h key = .ok x ∧
      (x = h.nBuckets ∧ hs.valid.toFinmap.lookup key = none ∨
        x < h.nBuckets ∧ ∃ v, slots x = .live key v) := by
  by_cases hzero : h.nBuckets = 0
  · unfold khGet
    rw [if_neg (not_not.mpr hzero)]
    refine ⟨0, rfl, Or.inl ⟨hzero.symm, ?_⟩⟩
    rw [hs.valid.lookup_eq_none]
    intro i hi
    omega
  · obtain ⟨b, hb, hb', hn, hu⟩ := hs.pow_of_ne hzero
    obtain ⟨f, hf, hstop, hfirst⟩ := hs.exists_stop hb hn hu key
    have hB := hs.hasBuckets hb' hn
    rw [hB.khGet_stop hf hstop hfirst]
    rcases hstop with hempty | ⟨v, hlive⟩
    · refine ⟨h.nBuckets, ?_, Or.inl ⟨rfl, ?_⟩⟩
      · rw [hempty]
        rfl
      · rw [← hn] at hempty hfirst
        exact hs.valid.lookup_of_empty hempty hfirst
    · refine ⟨khPath hashFunc (2 ^ b) key f, ?_, Or.inr ⟨hB.path_lt hashFunc key f, v, hlive⟩⟩
      rw [hlive]
      rfl

end Utilc
