import Utilc.Mempool.Locations
import Utilc.Mempool.Slots

/-!
# Elements and blocks in runs of a pool

Whatever calls are made, an element lies in its own cluster together with its id, and `mp_destroy`
gives every block back.
-/

namespace Utilc
open CLib

/-! ### Elements inside their clusters -/

/-- The slot of an element lies in the block of its cluster. -/
def SlotInside (pool : MpPool) (heap : Heap) (c e : ℕ) : Prop :=
  ∃ block offset cells, getElementStore pool (packLocation pool c e) = .ok (block, offset) ∧
    kvA pool.clusterLut c = .ok block ∧ heap block = some cells ∧ cells.length = pool.clusterSize ∧
    offset + slotSize pool ≤ pool.clusterSize

/-- Clusters of `2 ^ k` elements whose size is the exact product. -/
structure PoolGeometry.Exact (G : PoolGeometry) (k : ℕ) : Prop where
  powerOfTwo : G.PowerOfTwo k
  clusterSize : G.clusterSize = (G.elementSize + sizeofMpId) * 2 ^ k
  clusterSize_lt : G.clusterSize < 2 ^ sizeBits

lemma madePool_exact {settings : MpPoolSettings} (fresh : ℕ)
    (haccepted : testInitSettingsArg settings = none) (hfits : GeometryFits settings) :
    (madePool settings fresh).geometry.Exact (Nat.clog 2 settings.elementsPerCluster) := by
  have hcount : settings.elementsPerCluster < 2 ^ sizeBits :=
    hfits.1.trans_lt (Nat.pow_lt_pow_right Nat.one_lt_two (by decide))
  have hlog2 := log2Envelope_of_accepted hcount haccepted
  have hexact := hfits.exact fresh hlog2
  have hsize := hexact.clusterSize
  simp only [madePool, hlog2] at hsize
  refine ⟨?_, ?_, hexact.clusterSize_lt⟩
  · rw [← hlog2]
    refine ⟨rfl, rfl, rfl, ?_⟩
    rw [hlog2]
    exact Nat.clog_le_of_le_pow hfits.1
  · simp only [madePool, MpPool.geometry, hlog2]
    exact hsize

/-- The shift takes the element index away. -/
lemma packLocation_shiftRight {pool : MpPool} {c e k : ℕ} (hoffset : pool.clusterIndexOffset = k)
    (he : e < 2 ^ k) : packLocation pool c e >>> k = c := by
  rw [packLocation, hoffset, ← Nat.shiftLeft_add_eq_or_of_lt he, Nat.shiftLeft_eq,
    Nat.shiftRight_eq_div_pow, Nat.mul_comm, Nat.mul_add_div (Nat.two_pow_pos k),
    Nat.div_eq_of_lt he, Nat.add_zero]

/-- The mask leaves at most the offset of the last element, also where it is not the one that was
meant. -/
lemma getElementStore_inside {pool : MpPool} {c e k block : ℕ} (hG : pool.geometry.Exact k)
    (h : IsLocation pool c e) (hblock : kvA pool.clusterLut c = .ok block) :
    ∃ offset, getElementStore pool (packLocation pool c e) = .ok (block, offset) ∧
      offset + slotSize pool ≤ pool.clusterSize := by
  have hk := hG.powerOfTwo.le
  have hcount : pool.elementsPerCluster = 2 ^ k := hG.powerOfTwo.elementsPerCluster
  have hoffset : pool.clusterIndexOffset = k := hG.powerOfTwo.clusterIndexOffset
  have hmask : pool.elementIndexMask = 2 ^ k - 1 := hG.powerOfTwo.elementIndexMask
  have hsize : pool.clusterSize = (pool.elementSize + sizeofMpId) * 2 ^ k := hG.clusterSize
  have hlt : pool.clusterSize < 2 ^ sizeBits := hG.clusterSize_lt
  have he := h.element_lt
  rw [hcount] at he
  have hcluster := packLocation_shiftRight (c := c) hoffset he
  have hshr : intShr (packLocation pool c e) k = .ok c := by
    rw [intShr, if_pos (by omega), hcluster]
  have hc : c % 2 ^ mpIdBits = c := by
    apply Nat.mod_eq_of_lt
    have hle : packLocation pool c e >>> k ≤ packLocation pool c e := Nat.shiftRight_le _ _
    rw [hcluster] at hle
    exact hle.trans_lt h.fits
  -- the last element ends where the cluster ends
  have hlast : (2 ^ k - 1) * (pool.elementSize + sizeofMpId) + (pool.elementSize + sizeofMpId) =
      pool.clusterSize := by
    rw [hsize, ← Nat.succ_mul, Nat.succ_eq_add_one, Nat.sub_add_cancel Nat.one_le_two_pow,
      Nat.mul_comm]
  have hadd : sizeAdd pool.elementSize sizeofMpId = pool.elementSize + sizeofMpId :=
    sizeAdd_of_lt (by omega)
  have hmul : sizeMul (2 ^ k - 1) (pool.elementSize + sizeofMpId) =
      (2 ^ k - 1) * (pool.elementSize + sizeofMpId) := sizeMul_of_lt (by omega)
  refine ⟨packLocation pool c e &&& (2 ^ k - 1) * (pool.elementSize + sizeofMpId), ?_, ?_⟩
  · simp only [getElementStore, hoffset, hshr, ok_bind, hc, hmask, hadd, hmul, hblock, pure_eq_ok]
  · have hle : packLocation pool c e &&& (2 ^ k - 1) * (pool.elementSize + sizeofMpId) ≤
        (2 ^ k - 1) * (pool.elementSize + sizeofMpId) := Nat.and_le_right
    unfold slotSize
    omega

lemma GoodPool.inside {G : PoolGeometry} {pool : MpPool} {heap : Heap} {c e k : ℕ}
    (h : GoodPool G (pool, heap)) (hG : G.Exact k) (hloc : IsLocation pool c e) :
    SlotInside pool heap c e := by
  obtain ⟨C, hC⟩ := h.clusters
  have hgeometry : pool.geometry = G := h.geometry
  obtain ⟨block, -, hblock, hlive⟩ := hC.exists_block hloc.allocated
  obtain ⟨cells, hcells⟩ := Option.isSome_iff_exists.mp hlive
  have hsize : pool.clusterSize = G.clusterSize := congrArg PoolGeometry.clusterSize hgeometry
  rw [← hgeometry] at hG
  obtain ⟨offset, hstore, hinside⟩ := getElementStore_inside hG hloc hblock
  refine ⟨block, offset, cells, hstore, hblock, hcells, ?_, hinside⟩
  rw [hsize]
  exact h.blocks block cells hcells

/-- Also in clusters of several elements, whose slots overlap, no element reaches past its cluster. -/
theorem poolRun_slotInside {poolOut : MpPool} {settings : MpPoolSettings} {fresh : ℕ}
    {ops : List PoolOp} {s : MpPool × Heap} {taken : List (Option Taken)}
    (haccepted : testInitSettingsArg settings = none) (hfits : GeometryFits settings)
    (hrun : poolRun poolOut settings fresh ops = .ok (s, taken)) {c e : ℕ}
    (hloc : IsLocation s.1 c e) : SlotInside s.1 s.2 c e :=
  (poolRun_goodPool hrun).inside (madePool_exact fresh haccepted hfits) hloc

theorem poolRun_slotInside_second :
    ∃ s taken, poolRun MpPool.zero ⟨2, 2, 1⟩ 1000 [.alloc 1008, .alloc 1016] = .ok (s, taken) ∧
      SlotInside s.1 s.2 0 1 := by
  obtain ⟨⟨s, taken⟩, hrun⟩ := exists_of_isOk
    (x := poolRun MpPool.zero ⟨2, 2, 1⟩ 1000 [.alloc 1008, .alloc 1016]) rfl
  have hloc : IsLocation s.1 0 1 := by
    cases hrun
    exact ⟨by decide, by decide, by decide⟩
  exact ⟨s, taken, hrun, poolRun_slotInside rfl (by decide) hrun hloc⟩

/-! ### Blocks -/

lemma HoldsClusters.freeMax_of_takeNextLocation {pool pool' : MpPool} {heap heap' : Heap}
    {C : Clusters ℕ} {fresh location : ℕ} (h : HoldsClusters pool heap C)
    (htake : takeNextLocation pool heap fresh = .ok (pool', heap', location)) :
    ∃ C' : Clusters ℕ, HoldsClusters pool' heap' C' ∧ C'.freeMax = C.freeMax := by
  obtain ⟨mid, hnext, hadd, hstay⟩ := takeNextLocation_cases htake
  by_cases hend : pool.frontElementIndex = pool.elementsPerCluster
  · obtain ⟨C', hC', hfront⟩ := h.of_addFrontCluster (hadd hend)
    exact ⟨C', hC'.of_takesNext hnext, hfront.freeMax⟩
  · obtain ⟨rfl, rfl⟩ := hstay hend
    exact ⟨C, h.of_takesNext hnext, rfl⟩

/-- Every call leaves the tables of some clusters, of which as many as before may be kept. -/
lemma HoldsClusters.of_poolStep {s s' : MpPool × Heap} {C : Clusters ℕ} {op : PoolOp}
    {taken : Option Taken} (h : HoldsClusters s.1 s.2 C) (hs : poolStep s op = .ok (s', taken)) :
    ∃ C' : Clusters ℕ, HoldsClusters s'.1 s'.2 C' ∧ C'.freeMax = C.freeMax := by
  cases op with
  | addFrontCluster fresh =>
    obtain ⟨r, hr, hresult⟩ := bind_eq_ok.mp hs
    cases hresult
    obtain ⟨C', hC', hfront⟩ := h.of_addFrontCluster hr
    exact ⟨C', hC', hfront.freeMax⟩
  | removeBackCluster =>
    obtain ⟨r, hr, hresult⟩ := bind_eq_ok.mp hs
    cases hresult
    exact h.of_removeBackCluster hr
  | takeNextLocation fresh =>
    obtain ⟨r, hr, hresult⟩ := bind_eq_ok.mp hs
    cases hresult
    exact h.freeMax_of_takeNextLocation hr
  | alloc fresh =>
    obtain ⟨t, -, hs⟩ := bind_eq_ok.mp hs
    obtain ⟨r, hr, hresult⟩ := bind_eq_ok.mp hs
    cases hresult
    obtain ⟨mid, heap₁, _, _, _, _, htake, hpop, -, hstore, -⟩ := mpAlloc_cases hr
    obtain ⟨C', hC', hmax⟩ := h.freeMax_of_takeNextLocation htake
    exact ⟨C', (hC'.of_changesIds (changesIds_of_popId hpop)).of_store hstore, hmax⟩
  | free id =>
    obtain ⟨r, hr, hresult⟩ := bind_eq_ok.mp hs
    cases hresult
    exact ⟨C, h.of_changesIds (changesIds_of_free hr), rfl⟩
  | set id bytes =>
    obtain ⟨r, hr, hresult⟩ := bind_eq_ok.mp hs
    cases hresult
    rcases mpSet_cases hr with ⟨hsame, -⟩ | ⟨_, _, _, -, -, hstore, -⟩
    · refine ⟨C, ?_, rfl⟩
      rw [hsame]
      exact h
    · exact ⟨C, h.of_store hstore, rfl⟩

/-- The pool owns its clusters after any calls, those on locations and ids included, and `mp_destroy`
then frees every block once. -/
theorem poolRun_ownsClusters {poolOut : MpPool} {settings : MpPoolSettings} {fresh : ℕ}
    {ops : List PoolOp} {s : MpPool × Heap} {taken : List (Option Taken)}
    (hrun : poolRun poolOut settings fresh ops = .ok (s, taken)) :
    OwnsClusters s.1 s.2 settings.freeClusterCountMax := by
  obtain ⟨s₀, hinit, hops⟩ := bind_eq_ok.mp hrun
  obtain ⟨C₀, hC₀, hfront⟩ := initPool_holdsClusters hinit
  have hstep : ∀ (s : MpPool × Heap) op s' (taken : Option Taken),
      (∃ C : Clusters ℕ, HoldsClusters s.1 s.2 C ∧ C.freeMax = settings.freeClusterCountMax) →
        poolStep s op = .ok (s', taken) →
          ∃ C : Clusters ℕ, HoldsClusters s'.1 s'.2 C ∧
            C.freeMax = settings.freeClusterCountMax := by
    rintro s op s' taken ⟨C, hC, hmax⟩ hs
    obtain ⟨C', hC', hmax'⟩ := hC.of_poolStep hs
    exact ⟨C', hC', hmax'.trans hmax⟩
  obtain ⟨C, hC, hmax⟩ := runOps_invariant _ hstep ⟨C₀, hC₀, hfront.freeMax⟩ hops
  rw [← hmax]
  exact hC.ownsClusters

theorem poolRun_ownsClusters_allocs :
    ∃ s taken, poolRun MpPool.zero ⟨2, 1, 1⟩ 1000
        [.alloc 1008, .alloc 1016, .free 1, .removeBackCluster] = .ok (s, taken) ∧
      OwnsClusters s.1 s.2 1 := by
  obtain ⟨⟨s, taken⟩, hrun⟩ := exists_of_isOk (x := poolRun MpPool.zero ⟨2, 1, 1⟩ 1000
    [.alloc 1008, .alloc 1016, .free 1, .removeBackCluster]) rfl
  exact ⟨s, taken, hrun, poolRun_ownsClusters hrun⟩

end Utilc
