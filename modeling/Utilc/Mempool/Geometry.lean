import Utilc.CLib.HighestBit
import Utilc.CLib.LowestBit
import Utilc.Mempool.ClusterRuns
import Utilc.Mempool.Ids

/-!
# The geometry of a pool

`mp_init` rounds the number of elements of a cluster up to a power of two and computes the size of a
cluster from it. The rounding is right for every number, but the sizes are not checked: some that
`testInitSettingsArg` accepts do not fit their types.
-/

namespace Utilc
open CLib

/-! ### `log2Envelope` -/

/-- A search for the highest set bit in which `findLastSet` has come as far as `s`. -/
def FindsLastSet (v : BitVec 64) (width : ℕ) (s : BitVec 64 × ℤ) : Prop :=
  ∃ pos : ℕ, s.2 = pos ∧ HighestBitSearch v s.1 pos width

/-- Each step of the cascade halves the part that is left. -/
lemma FindsLastSet.step {v : BitVec 64} {shift : ℕ} {s : BitVec 64 × ℤ} (mask : BitVec 64)
    (hmask : ∀ i < 64, mask.getLsbD i = decide (shift ≤ i ∧ i < 2 * shift))
    (h : FindsLastSet v (2 * shift) s) : FindsLastSet v shift (findLastSetStep mask shift s) := by
  obtain ⟨pos, hpos, hs⟩ := h
  have hupper := and_upperHalf_ne_zero_iff hmask hs.val_lt
  unfold findLastSetStep
  by_cases hne : s.1 &&& mask ≠ 0#64
  · rw [if_pos hne]
    refine ⟨pos + shift, ?_, hs.upper (hupper.mp hne)⟩
    rw [hpos, Nat.cast_add]
  · rw [if_neg hne]
    exact ⟨pos, hpos, hs.lower (not_le.mp fun hle => hne (hupper.mpr hle))⟩

/-- The last test of `findLastSet` is a step whose shift is not needed any more. -/
lemma findLastSet_eq {v : BitVec 64} (hv : v ≠ 0#64) :
    findLastSet v = (findLastSetStep 0x2#64 1 (findLastSetStep 0xC#64 2 (findLastSetStep 0xF0#64 4
      (findLastSetStep 0xFF00#64 8 (findLastSetStep 0xFFFF0000#64 16
        (findLastSetStep 0xFFFFFFFF00000000#64 32 (v, 0))))))).2 := by
  simp only [findLastSet, if_neg hv]
  rw [findLastSetStep.eq_def 0x2#64]
  split <;> rfl

/-- `findLastSet` finds the highest set bit. -/
lemma findLastSet_bounds {v : BitVec 64} (hv : v ≠ 0#64) :
    ∃ pos : ℕ, findLastSet v = pos ∧ pos < 64 ∧ 2 ^ pos ≤ v.toNat ∧ v.toNat < 2 ^ (pos + 1) := by
  have h64 : FindsLastSet v (2 * 32) (v, 0) := ⟨0, rfl, HighestBitSearch.start hv⟩
  have h32 : FindsLastSet v (2 * 16) _ := h64.step 0xFFFFFFFF00000000#64 (by decide)
  have h16 : FindsLastSet v (2 * 8) _ := h32.step 0xFFFF0000#64 (by decide)
  have h8 : FindsLastSet v (2 * 4) _ := h16.step 0xFF00#64 (by decide)
  have h4 : FindsLastSet v (2 * 2) _ := h8.step 0xF0#64 (by decide)
  have h2 : FindsLastSet v (2 * 1) _ := h4.step 0xC#64 (by decide)
  obtain ⟨pos, hpos, hs⟩ := h2.step 0x2#64 (by decide)
  obtain ⟨hlow, hhigh⟩ := hs.bounds
  refine ⟨pos, (findLastSet_eq hv).trans hpos, ?_, hlow, hhigh⟩
  exact (Nat.pow_lt_pow_iff_right Nat.one_lt_two).mp (hlow.trans_lt v.isLt)

lemma multipleBits_eq_false_iff {v : BitVec 64} (hv : v ≠ 0#64) {pos : ℕ} (hpos : pos < 64)
    (hlow : 2 ^ pos ≤ v.toNat) (hhigh : v.toNat < 2 ^ (pos + 1)) :
    multipleBits v = false ↔ v.toNat = 2 ^ pos := by
  obtain ⟨k, hk, hlowest, hleast⟩ := and_not_pred_eq_twoPow hv
  have htwo {j : ℕ} (hj : j < 64) : (BitVec.twoPow 64 j).toNat = 2 ^ j := by
    rw [BitVec.toNat_twoPow, Nat.mod_eq_of_lt (Nat.pow_lt_pow_right Nat.one_lt_two hj)]
  rw [multipleBits, hlowest, bne_eq_false_iff_eq]
  constructor
  · intro he
    have hgreatest := isGreatest_highestBit hlow hhigh
    have hkpos : pos = k := by
      have hbit := hgreatest.1
      change v.getLsbD pos = true at hbit
      rw [← he, BitVec.getLsbD_twoPow] at hbit
      simp only [Bool.and_eq_true, decide_eq_true_eq] at hbit
      exact hbit.2.symm
    rw [← he, htwo hk, hkpos]
  · intro he
    have hvt : v = BitVec.twoPow 64 pos := BitVec.eq_of_toNat_eq (by rw [he, htwo hpos])
    have hbit := hleast.1
    change v.getLsbD k = true at hbit
    rw [hvt, BitVec.getLsbD_twoPow] at hbit
    simp only [Bool.and_eq_true, decide_eq_true_eq] at hbit
    rw [hvt, hbit.2]

/-- `log2Envelope` is the rounded up logarithm. -/
lemma log2Envelope_eq_clog {v : BitVec 64} (hv : v ≠ 0#64) :
    log2Envelope v = Nat.clog 2 v.toNat := by
  obtain ⟨pos, hfind, hpos, hlow, hhigh⟩ := findLastSet_bounds hv
  have hunsigned : toUnsigned 32 (pos : ℤ) = pos := toUnsigned_natCast (by omega)
  have hmultiple := multipleBits_eq_false_iff hv hpos hlow hhigh
  rw [log2Envelope, if_neg hv, hfind, hunsigned, clog_of_highestBit hlow hhigh]
  cases hm : multipleBits v with
  | false => simp [hmultiple.mp hm]
  | true =>
    have hne : v.toNat ≠ 2 ^ pos := fun he => by simp [hmultiple.mpr he] at hm
    simp [hne]

/-- The rounding up to a power of two, and the search for the highest set bit that it is made of, for
every non-zero `size_t`. -/
theorem log2Envelope_isLeast (v : BitVec 64) (hv : v ≠ 0#64) :
    IsLeast {k | v.toNat ≤ 2 ^ k} (log2Envelope v) ∧
      (multipleBits v = false ↔ v.toNat = 2 ^ log2Envelope v) ∧
      (multipleBits v = true → 0 < log2Envelope v ∧ 2 ^ (log2Envelope v - 1) < v.toNat ∧
        v.toNat < 2 ^ log2Envelope v) ∧
      ∃ pos : ℕ, findLastSet v = pos ∧ IsGreatest {i | v.getLsbD i = true} pos := by
  obtain ⟨pos, hfind, hpos, hlow, hhigh⟩ := findLastSet_bounds hv
  have hmultiple := multipleBits_eq_false_iff hv hpos hlow hhigh
  have hclog := clog_of_highestBit hlow hhigh
  rw [log2Envelope_eq_clog hv]
  refine ⟨⟨Nat.le_pow_clog Nat.one_lt_two _, fun k hk => Nat.clog_le_of_le_pow hk⟩, ?_, ?_, pos, hfind,
    isGreatest_highestBit hlow hhigh⟩
  · rw [hmultiple, hclog]
    by_cases he : v.toNat = 2 ^ pos
    · rw [if_pos he]
    · rw [if_neg he]
      exact iff_of_false he hhigh.ne
  · intro hm
    have hne : v.toNat ≠ 2 ^ pos := fun he => by simp [hmultiple.mpr he] at hm
    rw [hclog, if_neg hne, Nat.add_sub_cancel]
    exact ⟨Nat.succ_pos pos, lt_of_le_of_ne hlow hne.symm, hhigh⟩

theorem log2Envelope_isLeast_five :
    IsLeast {k | (5#64).toNat ≤ 2 ^ k} (log2Envelope 5#64) ∧
      2 ^ (log2Envelope 5#64 - 1) < (5#64).toNat :=
  ⟨(log2Envelope_isLeast 5#64 (by decide)).1,
    ((log2Envelope_isLeast 5#64 (by decide)).2.2.1 (by decide)).2.1⟩

/-! ### `mp_init` -/

/-- The pool that `mp_init` leaves when its first cluster is at `fresh`. -/
def madePool (settings : MpPoolSettings) (fresh : ℕ) : MpPool :=
  let elementIndexBitCount := log2Envelope (BitVec.ofNat 64 settings.elementsPerCluster)
  { elementSize := settings.elementSize
    elementsPerCluster := 2 ^ elementIndexBitCount
    clusterSize := sizeMul (sizeAdd settings.elementSize sizeofMpId) (2 ^ elementIndexBitCount)
    clusterIndexOffset := elementIndexBitCount
    elementIndexMask := 2 ^ elementIndexBitCount - 1
    locationLut := kvResize sizeofMpId kvInit blockBitCount
    freeIds := initialIds
    clusterLut := ⟨4, 4, [some fresh, none, none, none]⟩
    allocatedClusterIndices := ⟨[0, 0, 0, 0], 0, 1, 2, 3⟩
    unallocatedClusterIndices := ⟨[0, 1, 2, 3], 1, 3, 2, 3⟩
    frontElementCount := 0
    frontElementIndex := 0
    freeClusters := kvResize sizeofPtr kvInit settings.freeClusterCountMax }

/-- The cluster that `mp_init` adds. -/
lemma addFrontCluster_first {pool : MpPool} (heap : Heap) (fresh : ℕ)
    (hlut : pool.clusterLut = ⟨4, 4, [none, none, none, none]⟩)
    (hallocated : pool.allocatedClusterIndices = ⟨[0, 0, 0, 0], 0, 0, 2, 3⟩)
    (hunallocated : pool.unallocatedClusterIndices = ⟨[0, 1, 2, 3], 0, 4, 2, 3⟩)
    (hfree : pool.freeClusters.n = 0) :
    addFrontCluster pool heap fresh = do
      let heap' ← heap.malloc fresh pool.clusterSize
      return ({ pool with
        clusterLut := ⟨4, 4, [some fresh, none, none, none]⟩
        allocatedClusterIndices := ⟨[0, 0, 0, 0], 0, 1, 2, 3⟩
        unallocatedClusterIndices := ⟨[0, 1, 2, 3], 1, 3, 2, 3⟩
        frontElementCount := 0
        frontElementIndex := 0 }, heap') := by
  have hempty : kvEmpty pool.freeClusters = true := by
    rw [kvEmpty, hfree]
    rfl
  have havailable : (pool.unallocatedClusterIndices.length != 0) = true := by
    rw [hunallocated]
    rfl
  have hpop : circbufPopBack (⟨[0, 1, 2, 3], 0, 4, 2, 3⟩ : Circbuf ℕ) =
      .ok (⟨[0, 1, 2, 3], 1, 3, 2, 3⟩, 0) := rfl
  have hput : circbufDynamicPut (⟨[0, 0, 0, 0], 0, 0, 2, 3⟩ : Circbuf ℕ) 0 =
      .ok ⟨[0, 0, 0, 0], 0, 1, 2, 3⟩ := rfl
  have hassign : kvAssign (⟨4, 4, [none, none, none, none]⟩ : Kvec ℕ) 0 fresh =
      .ok ⟨4, 4, [some fresh, none, none, none]⟩ := rfl
  simp only [addFrontCluster, if_pos havailable, ok_bind, placeFrontCluster, takeFreeCluster, hempty,
    Bool.not_true, Bool.false_eq_true, if_false]
  cases heap.malloc fresh pool.clusterSize with
  | error e => rfl
  | ok heap' => simp only [ok_bind, pure_eq_ok, hunallocated, hpop, hallocated, hput, hlut, hassign]

/-- What `mp_init` does with settings that it accepts and whose `int` shift fits. -/
lemma mpInit_eq (poolOut : MpPool) (heap : Heap) {settings : MpPoolSettings} (fresh : ℕ)
    (haccepted : testInitSettingsArg settings = none)
    (hlog2 : log2Envelope (BitVec.ofNat 64 settings.elementsPerCluster) ≤ 30) :
    mpInit poolOut heap settings fresh = do
      let heap' ← heap.malloc fresh (madePool settings fresh).clusterSize
      return (madePool settings fresh, heap', none) := by
  obtain ⟨k, hk⟩ : ∃ k, k = log2Envelope (BitVec.ofNat 64 settings.elementsPerCluster) := ⟨_, rfl⟩
  have hshl : intShl 1 k = .ok (2 ^ k) := intShl_one (hk ▸ hlog2)
  have hmask : sizeSub (2 ^ k) 1 = 2 ^ k - 1 := by
    apply sizeSub_of_le (Nat.two_pow_pos k)
    exact Nat.pow_lt_pow_right Nat.one_lt_two (by rw [sizeBits]; omega)
  obtain ⟨made, hmade, hids⟩ := bind_eq_ok.mp initialIds_eq
  obtain ⟨all, hall, hids⟩ := bind_eq_ok.mp hids
  simp only [mpInit, haccepted, ← hk, hshl, hmask, ok_bind, hmade, hall, hids, initClusterFifos_ok]
  rw [addFrontCluster_first heap fresh rfl rfl rfl rfl]
  simp only [madePool, ← hk]
  cases heap.malloc fresh (sizeMul (sizeAdd settings.elementSize sizeofMpId) (2 ^ k)) <;> rfl

lemma mpInit_rejected (poolOut : MpPool) (heap : Heap) {settings : MpPoolSettings} {error : MpError}
    (fresh : ℕ) (hrejected : testInitSettingsArg settings = some error) :
    mpInit poolOut heap settings fresh = .ok (poolOut, heap, some error) := by
  simp only [mpInit, hrejected]

lemma mpInit_overflow (poolOut : MpPool) (heap : Heap) {settings : MpPoolSettings} (fresh : ℕ)
    (haccepted : testInitSettingsArg settings = none)
    (hlog2 : 30 < log2Envelope (BitVec.ofNat 64 settings.elementsPerCluster)) :
    mpInit poolOut heap settings fresh = .error .shiftOverflow := by
  simp only [mpInit, haccepted, intShl_one_overflow hlog2, error_bind]

/-! ### Sizes that fit -/

/-- The values of a `size_t` that the settings of a pool can have. -/
def MpPoolSettings.SizeT (settings : MpPoolSettings) : Prop :=
  settings.elementSize < 2 ^ sizeBits ∧ settings.elementsPerCluster < 2 ^ sizeBits

/-- The geometry of `pool` is the exact one for `settings`, and everything on the way to it fits its
type. -/
structure GeometryExact (settings : MpPoolSettings) (pool : MpPool) : Prop where
  elementsPerCluster :
    IsLeast {p | (∃ k, p = 2 ^ k) ∧ settings.elementsPerCluster ≤ p} pool.elementsPerCluster
  shift : intShl 1 pool.clusterIndexOffset = .ok pool.elementsPerCluster
  elementIndexMask : pool.elementIndexMask + 1 = pool.elementsPerCluster
  clusterIndexOffset : 2 ^ pool.clusterIndexOffset = pool.elementsPerCluster
  elementStoreSize : settings.elementSize + sizeofMpId < 2 ^ sizeBits
  clusterSize : pool.clusterSize =
    (settings.elementSize + sizeofMpId) * pool.elementsPerCluster
  clusterSize_lt : pool.clusterSize < 2 ^ sizeBits

/-- `mp_init` computes the exact geometry, or returns an error and changes nothing. -/
structure GeometrySafe (settings : MpPoolSettings) : Prop where
  accepted : testInitSettingsArg settings = none → ∀ poolOut heap fresh, ¬Heap.Live heap fresh →
    ∃ pool heap', mpInit poolOut heap settings fresh = .ok (pool, heap', none) ∧
      GeometryExact settings pool
  rejected : ∀ error, testInitSettingsArg settings = some error → ∀ poolOut heap fresh,
    mpInit poolOut heap settings fresh = .ok (poolOut, heap, some error)

/-- The sizes of a cluster fit an `int` and a `size_t`. -/
def GeometryFits (settings : MpPoolSettings) : Prop :=
  settings.elementsPerCluster ≤ 2 ^ 30 ∧
    (settings.elementSize + sizeofMpId) * 2 ^ Nat.clog 2 settings.elementsPerCluster < 2 ^ sizeBits

instance (settings : MpPoolSettings) : Decidable (GeometryFits settings) :=
  inferInstanceAs (Decidable (_ ∧ _))

lemma elementsPerCluster_ne_zero {settings : MpPoolSettings}
    (haccepted : testInitSettingsArg settings = none) : settings.elementsPerCluster ≠ 0 := by
  intro hzero
  simp only [testInitSettingsArg, hzero, if_true] at haccepted
  split at haccepted <;> cases haccepted

lemma log2Envelope_of_accepted {settings : MpPoolSettings}
    (hcount : settings.elementsPerCluster < 2 ^ sizeBits)
    (haccepted : testInitSettingsArg settings = none) :
    log2Envelope (BitVec.ofNat 64 settings.elementsPerCluster) =
      Nat.clog 2 settings.elementsPerCluster := by
  have hval : (BitVec.ofNat 64 settings.elementsPerCluster).toNat = settings.elementsPerCluster :=
    (BitVec.toNat_ofNat ..).trans (Nat.mod_eq_of_lt hcount)
  have hne : BitVec.ofNat 64 settings.elementsPerCluster ≠ 0#64 := by
    intro hzero
    rw [hzero] at hval
    exact elementsPerCluster_ne_zero haccepted hval.symm
  rw [log2Envelope_eq_clog hne, hval]

/-- The rounded sum and the product of a geometry that fits do not wrap. -/
lemma GeometryFits.clusterSize {settings : MpPoolSettings} (h : GeometryFits settings) :
    settings.elementSize + sizeofMpId < 2 ^ sizeBits ∧
      sizeMul (sizeAdd settings.elementSize sizeofMpId)
        (2 ^ Nat.clog 2 settings.elementsPerCluster) =
      (settings.elementSize + sizeofMpId) * 2 ^ Nat.clog 2 settings.elementsPerCluster := by
  have hle : settings.elementSize + sizeofMpId ≤
      (settings.elementSize + sizeofMpId) * 2 ^ Nat.clog 2 settings.elementsPerCluster :=
    Nat.le_mul_of_pos_right _ (Nat.two_pow_pos _)
  have hsum : settings.elementSize + sizeofMpId < 2 ^ sizeBits := hle.trans_lt h.2
  exact ⟨hsum, by rw [sizeAdd_of_lt hsum, sizeMul_of_lt h.2]⟩

lemma isLeast_two_pow_clog (n : ℕ) : IsLeast {p | (∃ k, p = 2 ^ k) ∧ n ≤ p} (2 ^ Nat.clog 2 n) := by
  refine ⟨⟨⟨_, rfl⟩, Nat.le_pow_clog Nat.one_lt_two n⟩, ?_⟩
  rintro p ⟨⟨k, rfl⟩, hk⟩
  exact Nat.pow_le_pow_right Nat.two_pos (Nat.clog_le_of_le_pow hk)

lemma GeometryFits.exact {settings : MpPoolSettings} (h : GeometryFits settings) (fresh : ℕ)
    (hlog2 : log2Envelope (BitVec.ofNat 64 settings.elementsPerCluster) =
      Nat.clog 2 settings.elementsPerCluster) :
    GeometryExact settings (madePool settings fresh) where
  elementsPerCluster := by
    simp only [madePool, hlog2]
    exact isLeast_two_pow_clog _
  shift := by
    simp only [madePool, hlog2]
    exact intShl_one (Nat.clog_le_of_le_pow h.1)
  elementIndexMask := Nat.sub_add_cancel (Nat.two_pow_pos _)
  clusterIndexOffset := rfl
  elementStoreSize := h.clusterSize.1
  clusterSize := by
    simp only [madePool, hlog2]
    exact h.clusterSize.2
  clusterSize_lt := Nat.mod_lt _ (Nat.two_pow_pos _)

/-- The arithmetic of `mp_init` is exact for exactly the settings that it rejects or that fit. -/
theorem mp_geometrySafe_iff (settings : MpPoolSettings) (hsize : settings.SizeT) :
    GeometrySafe settings ↔ (testInitSettingsArg settings = none → GeometryFits settings) := by
  constructor
  · intro h haccepted
    have hlog2 := log2Envelope_of_accepted hsize.2 haccepted
    obtain ⟨pool, heap', hinit, hexact⟩ :=
      h.accepted haccepted MpPool.zero Heap.empty 0 (Heap.not_live_empty 0)
    by_cases hle : log2Envelope (BitVec.ofNat 64 settings.elementsPerCluster) ≤ 30
    · rw [mpInit_eq _ _ _ haccepted hle] at hinit
      obtain ⟨mid, -, hinit⟩ := bind_eq_ok.mp hinit
      cases hinit
      have hclusterSize := hexact.clusterSize
      have hlt := hexact.clusterSize_lt
      rw [hclusterSize] at hlt
      simp only [madePool, hlog2] at hlt
      rw [hlog2] at hle
      exact ⟨(Nat.clog_le_iff_le_pow Nat.one_lt_two).mp hle, hlt⟩
    · rw [mpInit_overflow _ _ _ haccepted (not_le.mp hle)] at hinit
      cases hinit
  · intro h
    refine ⟨fun haccepted poolOut heap fresh hfresh => ?_, fun error hrejected poolOut heap fresh =>
      mpInit_rejected poolOut heap fresh hrejected⟩
    have hfits := h haccepted
    have hlog2 := log2Envelope_of_accepted hsize.2 haccepted
    obtain ⟨heap', hmalloc⟩ := Heap.malloc_of_dead hfresh (madePool settings fresh).clusterSize
    refine ⟨madePool settings fresh, heap', ?_, hfits.exact fresh hlog2⟩
    rw [mpInit_eq _ _ _ haccepted (hlog2.le.trans (Nat.clog_le_of_le_pow hfits.1)), hmalloc]
    rfl

theorem mp_geometrySafe_iff_three : GeometrySafe ⟨6, 3, 1⟩ :=
  (mp_geometrySafe_iff ⟨6, 3, 1⟩ ⟨by decide, by decide⟩).mpr fun _ => by decide

/-- Elements of `2 ^ 63` bytes are accepted, and a cluster for two of them gets 4 bytes. -/
theorem mpInit_clusterSize_wraps :
    ∃ pool heap, mpInit MpPool.zero Heap.empty ⟨2 ^ 63, 2, 0⟩ 1000 = .ok (pool, heap, none) ∧
      pool.clusterSize = 4 ∧ ¬GeometrySafe ⟨2 ^ 63, 2, 0⟩ := by
  obtain ⟨heap', hmalloc⟩ := Heap.malloc_of_dead (Heap.not_live_empty 1000)
    (madePool ⟨2 ^ 63, 2, 0⟩ 1000).clusterSize
  have hinit : mpInit MpPool.zero Heap.empty ⟨2 ^ 63, 2, 0⟩ 1000 =
      .ok (madePool ⟨2 ^ 63, 2, 0⟩ 1000, heap', none) := by
    rw [mpInit_eq _ _ _ rfl (by decide), hmalloc]
    rfl
  refine ⟨_, heap', hinit, by decide, fun hsafe => ?_⟩
  obtain ⟨pool, mid, hinit', hexact⟩ :=
    hsafe.accepted rfl MpPool.zero Heap.empty 1000 (Heap.not_live_empty 1000)
  rw [hinit] at hinit'
  cases hinit'
  have hwrapped : (madePool ⟨2 ^ 63, 2, 0⟩ 1000).clusterSize ≠
      (2 ^ 63 + sizeofMpId) * (madePool ⟨2 ^ 63, 2, 0⟩ 1000).elementsPerCluster := by decide
  exact hwrapped hexact.clusterSize

end Utilc
