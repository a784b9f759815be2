import Utilc.Khash.Resize

/-!
# Inserting with resizing

`kh_put` makes room before it searches. After that the table is never full, so the search ends.
-/

namespace Utilc
open CLib OpenAddressing

variable {K V : Type} {hashFunc : K → BitVec 32} {isMap : Bool} {h : KHash K V}
  {slots : ℕ → Slot K (Option V)}

/-! ### Requests of `kh_put` -/

/-- One bucket less than there are asks for as many as there are. -/
lemma khNewBuckets_pred {b : ℕ} (hb : 2 ≤ b) (hb' : b ≤ 31) : khNewBuckets (2 ^ b - 1) = 2 ^ b := by
  have hfour : 2 ^ 2 ≤ 2 ^ b := Nat.pow_le_pow_right Nat.two_pos hb
  have hbig : 2 ^ b ≤ 2 ^ 31 := Nat.pow_le_pow_right Nat.two_pos hb'
  have hclog : Nat.clog 2 (2 ^ b - 1) = b := by
    apply le_antisymm
    · exact Nat.clog_le_of_le_pow (Nat.sub_le _ _)
    · have hhalf : 2 * 2 ^ (b - 1) = 2 ^ b := mul_pow_sub_one (by omega) 2
      have hlt : b - 1 < Nat.clog 2 (2 ^ b - 1) :=
        (Nat.lt_clog_iff_pow_lt Nat.one_lt_two).mpr (by omega)
      omega
  rw [khNewBuckets_of_le (by omega), hclog]
  exact max_eq_right hfour

/-- One bucket more than there are asks for twice as many. -/
lemma khNewBuckets_succ {b : ℕ} (hb : 1 ≤ b) (hb' : b ≤ 30) :
    khNewBuckets (2 ^ b + 1) = 2 ^ (b + 1) := by
  have hbig : 2 ^ b ≤ 2 ^ 30 := Nat.pow_le_pow_right Nat.two_pos hb'
  have htwo : 2 ^ 1 ≤ 2 ^ b := Nat.pow_le_pow_right Nat.two_pos hb
  have hdouble : 2 ^ (b + 1) = 2 * 2 ^ b := Nat.pow_succ'
  have hclog : Nat.clog 2 (2 ^ b + 1) = b + 1 := by
    apply le_antisymm
    · exact Nat.clog_le_of_le_pow (by omega)
    · exact (Nat.lt_clog_iff_pow_lt Nat.one_lt_two).mpr (Nat.lt_succ_self _)
  rw [khNewBuckets_of_le (by omega), hclog, max_eq_right (by omega)]

/-- The bucket count grows only by doubling, and only while at most half of the buckets are free of
keys. -/
def Grown (h h' : KHash K V) : Prop :=
  h'.nBuckets = h.nBuckets ∨ h'.nBuckets = 4 ∧ h.nBuckets = 0 ∨
    h'.nBuckets = 2 * h.nBuckets ∧ h.nBuckets ≤ 2 * h.size

/-- The bucket count that `kh_put` asks for: the same one if less than half of the buckets have keys. -/
def PutBuckets (h : KHash K V) (n' : ℕ) : Prop :=
  n' = h.nBuckets ∧ 2 * h.size < h.nBuckets ∨ n' = 4 ∧ h.nBuckets = 0 ∨
    n' = 2 * h.nBuckets ∧ h.nBuckets ≤ 2 * h.size

lemma PutBuckets.grown {h h' : KHash K V} (hn : PutBuckets h h'.nBuckets) : Grown h h' := by
  rcases hn with ⟨hsame, -⟩ | hgrown
  · exact Or.inl hsame
  · exact Or.inr hgrown

/-- What the part of `kh_put` that makes room can do. -/
inductive RoomMade (isMap : Bool) (h : KHash K V) (alloc : Alloc) : KHash K V × ℤ → Prop
  | enough (hroom : h.nOccupied < h.upperBound) : RoomMade isMap h alloc (h, 0)
  | failed (keys : List (Option K)) (vals : List (Option V)) (n' : ℕ)
      (hfull : h.upperBound ≤ h.nOccupied) (hn : PutBuckets h n')
      (hrefused : Refused isMap h.nBuckets n' alloc) :
      RoomMade isMap h alloc ({ h with keys := keys, vals := vals }, -1)
  | resized (h' : KHash K V) (hfull : h.upperBound ≤ h.nOccupied)
      (hroom : h'.nOccupied < h'.upperBound) (hocc : h'.nOccupied = h.size)
      (hn : PutBuckets h h'.nBuckets) : RoomMade isMap h alloc (h', 0)

lemma Resized.roomMade {newN n' : ℕ} {alloc : Alloc} {r : KHash K V × ℤ}
    (hr : Resized isMap h newN alloc r) (hfull : h.upperBound ≤ h.nOccupied)
    (hnew : khNewBuckets newN = n') (hsize : h.size < acHashUpper n') (hn : PutBuckets h n') :
    RoomMade isMap h alloc r := by
  cases hr with
  | tooSmall hsmall =>
    rw [hnew] at hsmall
    exact absurd hsmall (not_le.mpr hsize)
  | failed keys vals hroom hrefused =>
    rw [hnew] at hrefused
    exact RoomMade.failed keys vals n' hfull hn hrefused
  | done h' hn' hsize' hocc hupper hroom hgranted hclean =>
    rw [← hocc, ← hupper] at hroom
    rw [← hnew, ← hn'] at hn
    exact RoomMade.resized h' hfull hroom hocc hn

variable [DecidableEq K]

/-- Room is made for fewer than `2 ^ 30` keys. -/
lemma khMakeRoom_eq (hs : Sound hashFunc isMap h slots) (hfew : h.size < 2 ^ 30) (alloc : Alloc) :
    ∃ r, khMakeRoom hashFunc isMap h alloc = .ok r ∧ RoomMade isMap h alloc r ∧
      ∃ slots', ∃ hs' : Sound hashFunc isMap r.1 slots',
        hs'.valid.toFinmap = hs.valid.toFinmap := by
  have htwice : khShl1 h.size = h.size * 2 := Nat.mod_eq_of_lt (by omega)
  unfold khMakeRoom
  by_cases hfull : h.upperBound ≤ h.nOccupied
  · rw [if_pos hfull, htwice]
    rcases hs.geometry with ⟨hn, hu⟩ | ⟨b, hb, hb', hn, hu⟩
    · -- the first bucket array
      have hrequest : khAdd h.nBuckets 1 = 1 := by rw [hn]; rfl
      have hnew : khNewBuckets 1 = 4 := by rw [khNewBuckets_of_le (by omega), Nat.clog_one_right]; rfl
      have hsize : h.size < acHashUpper 4 := by
        have hle := hs.size_le.trans hs.occupied_le
        rw [hu] at hle
        exact hle.trans_lt (by decide)
      have hshrink : Shrinks isMap h (khNewBuckets 1) alloc := fun hless => by omega
      rw [if_neg (by omega), hrequest]
      obtain ⟨r, hrun, hr, hsound⟩ := khResize_eq hs 1 hshrink
      exact ⟨r, hrun, hr.roomMade hfull hnew hsize (Or.inr (Or.inl ⟨rfl, hn⟩)), hsound⟩
    · have hfour : 2 ^ 2 ≤ 2 ^ b := Nat.pow_le_pow_right Nat.two_pos hb
      have hbig : 2 ^ b ≤ 2 ^ 31 := Nat.pow_le_pow_right Nat.two_pos hb'
      by_cases hdeleted : h.size * 2 < h.nBuckets
      · -- many buckets are deleted
        have hrequest : khSub h.nBuckets 1 = 2 ^ b - 1 := by rw [hn, khSub_one_pow hb']
        have hnew := khNewBuckets_pred hb hb'
        have hsize : h.size < acHashUpper (2 ^ b) := by
          unfold acHashUpper
          omega
        have hshrink : Shrinks isMap h (khNewBuckets (2 ^ b - 1)) alloc := fun hless => by omega
        rw [if_pos hdeleted, hrequest]
        obtain ⟨r, hrun, hr, hsound⟩ := khResize_eq hs (2 ^ b - 1) hshrink
        exact ⟨r, hrun, hr.roomMade hfull hnew hsize (Or.inl ⟨hn.symm, by omega⟩), hsound⟩
      · have hlt : b < 31 := by
          by_contra hge
          have hpow : 2 ^ 31 ≤ 2 ^ b := Nat.pow_le_pow_right Nat.two_pos (not_lt.mp hge)
          omega
        have hdouble : 2 ^ (b + 1) = 2 * 2 ^ b := Nat.pow_succ'
        have hrequest : khAdd h.nBuckets 1 = 2 ^ b + 1 := by rw [hn, khAdd_of_lt (by omega)]
        have hnew : khNewBuckets (2 ^ b + 1) = 2 ^ (b + 1) := khNewBuckets_succ (by omega) (by omega)
        have hsize : h.size < acHashUpper (2 ^ (b + 1)) := by
          have hle := hs.size_le.trans hs.occupied_le
          rw [hu] at hle
          unfold acHashUpper at hle ⊢
          omega
        have hshrink : Shrinks isMap h (khNewBuckets (2 ^ b + 1)) alloc := fun hless => by omega
        rw [if_neg hdeleted, hrequest]
        obtain ⟨r, hrun, hr, hsound⟩ := khResize_eq hs (2 ^ b + 1) hshrink
        exact ⟨r, hrun, hr.roomMade hfull hnew hsize (Or.inr (Or.inr (by omega))), hsound⟩
  · rw [if_neg hfull]
    exact ⟨(h, 0), rfl, RoomMade.enough (not_le.mp hfull), slots, hs, rfl⟩

/-! ### `kh_put` -/

/-- What `kh_put` does to the map `m`, with the value of the bucket that it returns. -/
inductive PutDone (m : Finmap fun _ : K => Option V) (key : K) :
    Finmap (fun _ : K => Option V) → Option V → ℤ → Prop
  | present (v : Option V) (hkey : m.lookup key = some v) : PutDone m key m v 0
  | inserted (v : Option V) (ret : ℤ) (hret : ret = 1 ∨ ret = 2) (hkey : m.lookup key = none) :
      PutDone m key (m.insert key v) v ret

/-- `kh_put` has failed without a change to the map, as an allocation did that it asked for, or it has
returned the bucket of the key. -/
def PutOutcome (hashFunc : K → BitVec 32) (isMap : Bool) (m : Finmap fun _ : K => Option V) (key : K)
    (alloc : Alloc) (h' : KHash K V) (x : ℕ) (ret : ℤ) : Prop :=
  ∃ slots', ∃ hs' : Sound hashFunc isMap h' slots',
    (ret = -1 ∧ (∃ n n', Refused isMap n n' alloc) ∧ hs'.valid.toFinmap = m) ∨
    ∃ v, x < h'.nBuckets ∧ slots' x = .live key v ∧ PutDone m key hs'.valid.toFinmap v ret

/-- `kh_put` after it has made room. -/
lemma khOccupy_outcome (hs : Sound hashFunc isMap h slots) (hroom : h.nOccupied < h.upperBound)
    (key : K) (alloc : Alloc) :
    ∃ h' x ret, (do
        let x ← khSite hashFunc h key
        khOccupy h key x : Bounded (KHash K V × ℕ × ℤ)) = .ok (h', x, ret) ∧
      h'.nBuckets = h.nBuckets ∧
      PutOutcome hashFunc isMap hs.valid.toFinmap key alloc h' x ret := by
  obtain ⟨x, h', ret, hrun, hx, hn, -, slots', hs', v, hlive, hcase⟩ := khOccupy_eq hs hroom key
  refine ⟨h', x, ret, hrun, hn, slots', hs', Or.inr ⟨v, hx, hlive, ?_⟩⟩
  rcases hcase with ⟨rfl, hmap⟩ | ⟨hret, hnew, hmap⟩
  · rw [hmap]
    apply PutDone.present
    rw [← hmap, hs'.valid.lookup_eq_some]
    exact ⟨x, hx, hlive⟩
  · rw [hmap]
    exact PutDone.inserted v ret hret hnew

theorem khPut_eq (hs : Sound hashFunc isMap h slots) (hfew : h.size < 2 ^ 30) (key : K)
    (alloc : Alloc) :
    ∃ h' x ret, khPut hashFunc isMap h key alloc = .ok (h', x, ret) ∧ Grown h h' ∧
      PutOutcome hashFunc isMap hs.valid.toFinmap key alloc h' x ret := by
  obtain ⟨r, hrun, hmade, slots₁, hs₁, hmap₁⟩ := khMakeRoom_eq hs hfew alloc
  have hput (hroom : r.1.nOccupied < r.1.upperBound) (hok : ¬r.2 < 0) (hn : Grown h r.1) :
      ∃ h' x ret, khPut hashFunc isMap h key alloc = .ok (h', x, ret) ∧ Grown h h' ∧
        PutOutcome hashFunc isMap hs.valid.toFinmap key alloc h' x ret := by
    obtain ⟨h', x, ret, hocc, hn', hout⟩ := khOccupy_outcome hs₁ hroom key alloc
    unfold Grown at hn
    rw [← hn'] at hn
    rw [hmap₁] at hout
    refine ⟨h', x, ret, ?_, hn, hout⟩
    unfold khPut
    rw [hrun, Bounded.ok_bind, if_neg hok, hocc]
  cases hmade with
  | enough hroom => exact hput hroom (lt_irrefl _) (Or.inl rfl)
  | failed keys vals n' hfull hn hrefused =>
    refine ⟨{ h with keys := keys, vals := vals }, h.nBuckets, -1, ?_, Or.inl rfl, slots₁, hs₁,
      Or.inl ⟨rfl, ⟨h.nBuckets, n', hrefused⟩, hmap₁⟩⟩
    unfold khPut
    rw [hrun, Bounded.ok_bind, if_pos (by omega)]
    rfl
  | resized h' hfull hroom hocc hn => exact hput hroom (lt_irrefl _) hn.grown

end Utilc
