import Utilc.Mempool.PoolRuns

/-!
# The slots of the elements

`getElementStore` means to lay the elements of a cluster out one after another. It masks the location
with `elementIndexMask * elementStoreSize`, since the product binds tighter, so only clusters of one
element have slots that do not overlap.
-/

namespace Utilc
open CLib

/-- The location that `takeNextLocation` makes of a cluster index and an element index. -/
def packLocation (pool : MpPool) (cluster element : ℕ) : ℕ :=
  cluster <<< pool.clusterIndexOffset ||| element

/-- An element of an allocated cluster whose location fits `mp_id_t`. -/
structure IsLocation (pool : MpPool) (cluster element : ℕ) : Prop where
  allocated : cluster ∈ circbufContents pool.allocatedClusterIndices
  element_lt : element < pool.elementsPerCluster
  fits : packLocation pool cluster element < 2 ^ mpIdBits

/-- The bytes of an element with the id behind it. -/
def slotSize (pool : MpPool) : ℕ := pool.elementSize + sizeofMpId

/-- The slot of an element is where it was and has the same bytes. -/
def SlotUnchanged (pool : MpPool) (heap : Heap) (pool' : MpPool) (heap' : Heap)
    (cluster element : ℕ) : Prop :=
  ∀ block offset, getElementStore pool (packLocation pool cluster element) = .ok (block, offset) →
    getElementStore pool' (packLocation pool' cluster element) = .ok (block, offset) ∧
      heap'.load block offset (slotSize pool) = heap.load block offset (slotSize pool)

/-- Every slot lies in its cluster, different elements have disjoint slots, and writing one of them or
its id leaves the others alone. `mp_set` does so whatever table of locations it finds its element in. -/
structure SlotsSafe (pool : MpPool) (heap : Heap) : Prop where
  inside : ∀ c e, IsLocation pool c e → ∃ block offset cells,
    getElementStore pool (packLocation pool c e) = .ok (block, offset) ∧
    kvA pool.clusterLut c = .ok block ∧ heap block = some cells ∧
    cells.length = pool.clusterSize ∧ offset + slotSize pool ≤ pool.clusterSize
  disjoint : ∀ c e c' e', IsLocation pool c e → IsLocation pool c' e' → (c, e) ≠ (c', e') →
    ∀ block offset block' offset',
      getElementStore pool (packLocation pool c e) = .ok (block, offset) →
      getElementStore pool (packLocation pool c' e') = .ok (block', offset') →
      block ≠ block' ∨ offset + slotSize pool ≤ offset' ∨ offset' + slotSize pool ≤ offset
  set : ∀ c e c' e', IsLocation pool c e → IsLocation pool c' e' → (c, e) ≠ (c', e') →
    ∀ lut id bytes heap', kvA lut id = .ok (packLocation pool c e) →
      mpSet { pool with locationLut := lut } heap id bytes = .ok (heap', none) →
      bytes.length = pool.elementSize → SlotUnchanged pool heap pool heap' c' e'
  alloc : ∀ fresh pool₁ heap₁ pool' heap' id c e c' e',
    takeNextLocation pool heap fresh = .ok (pool₁, heap₁, packLocation pool₁ c e) →
    IsLocation pool₁ c e → mpAlloc pool heap fresh = .ok (pool', heap', id) →
    IsLocation pool c' e' → (c, e) ≠ (c', e') → SlotUnchanged pool heap pool' heap' c' e'

/-! ### Clusters of one element -/

/-- The geometry of clusters of one element. -/
def oneElement (elementSize : ℕ) : PoolGeometry := ⟨elementSize, 1, elementSize + sizeofMpId, 0, 0⟩

/-- Two clusters do not share a block. -/
lemma Clusters.fst_eq_of_block {β : Type} (C : Clusters β) {i j : ℕ} {b : β}
    (hi : (i, b) ∈ C.allocated) (hj : (j, b) ∈ C.allocated) : i = j := by
  have hnodup := (List.nodup_append.mp C.blocks).1
  have he := List.inj_on_of_nodup_map hnodup hi hj rfl
  exact congrArg Prod.fst he

lemma HoldsClusters.exists_block {pool : MpPool} {heap : Heap} {C : Clusters ℕ}
    (h : HoldsClusters pool heap C) {c : ℕ}
    (hc : c ∈ circbufContents pool.allocatedClusterIndices) :
    ∃ b, (c, b) ∈ C.allocated ∧ kvA pool.clusterLut c = .ok b ∧ heap.Live b := by
  rw [h.allocated.contents] at hc
  obtain ⟨p, hp, rfl⟩ := List.mem_map.mp hc
  refine ⟨p.2, hp, kvA_of_some (h.lut p hp), ?_⟩
  rw [h.heap]
  exact List.mem_append_left _ (List.mem_map_of_mem hp)

section OneElement

variable {pool : MpPool} {heap : Heap} {n : ℕ}

lemma geometry_oneElement (h : pool.geometry = oneElement n) :
    pool.elementSize = n ∧ pool.elementsPerCluster = 1 ∧ pool.clusterSize = n + sizeofMpId ∧
      pool.clusterIndexOffset = 0 ∧ pool.elementIndexMask = 0 :=
  ⟨congrArg PoolGeometry.elementSize h, congrArg PoolGeometry.elementsPerCluster h,
    congrArg PoolGeometry.clusterSize h, congrArg PoolGeometry.clusterIndexOffset h,
    congrArg PoolGeometry.elementIndexMask h⟩

/-- The only element of a cluster is at its start. -/
lemma IsLocation.store_oneElement {c e b : ℕ} (h : IsLocation pool c e)
    (hG : pool.geometry = oneElement n) (hb : kvA pool.clusterLut c = .ok b) :
    e = 0 ∧ getElementStore pool (packLocation pool c e) = .ok (b, 0) := by
  obtain ⟨-, hcount, -, hoffset, hmask⟩ := geometry_oneElement hG
  have he : e = 0 := by
    have hlt := h.element_lt
    omega
  subst he
  have hpack : packLocation pool c 0 = c := by
    rw [packLocation, hoffset, Nat.shiftLeft_zero, Nat.or_zero]
  have hfits := h.fits
  rw [hpack] at hfits ⊢
  have hshr : intShr c 0 = .ok c := by
    rw [intShr, if_pos (by decide), Nat.shiftRight_zero]
  have hzero (x : ℕ) : sizeMul 0 x = 0 := by
    rw [sizeMul, Nat.zero_mul, Nat.zero_mod]
  refine ⟨rfl, ?_⟩
  simp only [getElementStore, hoffset, hmask, hshr, ok_bind, Nat.mod_eq_of_lt hfits, hzero,
    Nat.and_zero, hb, pure_eq_ok]

lemma slotUnchanged_oneElement {pool' : MpPool} {heap' : Heap} {c e b : ℕ}
    (h : IsLocation pool c e) (hG : pool.geometry = oneElement n) (h' : IsLocation pool' c e)
    (hG' : pool'.geometry = oneElement n) (hb : kvA pool.clusterLut c = .ok b)
    (hb' : kvA pool'.clusterLut c = .ok b) (hheap : heap' b = heap b) :
    SlotUnchanged pool heap pool' heap' c e := by
  intro block offset hstore
  rw [(h.store_oneElement hG hb).2] at hstore
  cases hstore
  exact ⟨(h'.store_oneElement hG' hb').2, Heap.load_congr hheap _ _⟩

/-- Different locations are in different clusters. -/
lemma cluster_ne_oneElement {c e c' e' : ℕ} (hG : pool.geometry = oneElement n)
    (h : e < pool.elementsPerCluster) (h' : e' < pool.elementsPerCluster)
    (hne : (c, e) ≠ (c', e')) : c ≠ c' := by
  obtain ⟨-, hcount, -⟩ := geometry_oneElement hG
  rintro rfl
  apply hne
  congr 1
  omega

/-- Adding a cluster or taking a location changes no block that is live, and leaves the clusters where
they are. -/
lemma HoldsClusters.of_takeNextLocation {pool' : MpPool} {heap' : Heap} {C : Clusters ℕ}
    {fresh location : ℕ} (h : HoldsClusters pool heap C)
    (htake : takeNextLocation pool heap fresh = .ok (pool', heap', location)) :
    ∃ C' : Clusters ℕ, HoldsClusters pool' heap' C' ∧ (∀ p ∈ C.allocated, p ∈ C'.allocated) ∧
      ∀ b, heap.Live b → heap' b = heap b := by
  obtain ⟨mid, hnext, hadd, hstay⟩ := takeNextLocation_cases htake
  by_cases hend : pool.frontElementIndex = pool.elementsPerCluster
  · obtain ⟨C', hC', hfront⟩ := h.of_addFrontCluster (hadd hend)
    refine ⟨C', hC'.of_takesNext hnext, ?_, ?_⟩
    · obtain ⟨p, hp⟩ := hfront.allocated
      intro q hq
      rw [hp]
      exact List.mem_append_left _ hq
    · intro b hb
      rcases (addsCluster_of_add (hadd hend)).heap with rfl | hmalloc
      · rfl
      · exact Heap.malloc_of_live hmalloc hb
  · obtain ⟨rfl, rfl⟩ := hstay hend
    exact ⟨C, h.of_takesNext hnext, fun p hp => hp, fun b _ => rfl⟩

lemma IsLocation.of_geometry {pool' : MpPool} {c e : ℕ} (h : IsLocation pool c e)
    (hgeometry : pool'.geometry = pool.geometry)
    (hallocated : c ∈ circbufContents pool'.allocatedClusterIndices) : IsLocation pool' c e := by
  have hcount : pool'.elementsPerCluster = pool.elementsPerCluster :=
    congrArg PoolGeometry.elementsPerCluster hgeometry
  have hoffset : pool'.clusterIndexOffset = pool.clusterIndexOffset :=
    congrArg PoolGeometry.clusterIndexOffset hgeometry
  refine ⟨hallocated, ?_, ?_⟩
  · rw [hcount]
    exact h.element_lt
  · rw [packLocation, hoffset]
    exact h.fits

/-- `mp_alloc` writes the id of the element it takes, which is in a cluster of its own. -/
lemma slotUnchanged_of_alloc {pool₁ pool' : MpPool} {heap₁ heap' : Heap} {fresh id c e c' e' : ℕ}
    (h : GoodPool (oneElement n) (pool, heap))
    (htake : takeNextLocation pool heap fresh = .ok (pool₁, heap₁, packLocation pool₁ c e))
    (hloc : IsLocation pool₁ c e) (halloc : mpAlloc pool heap fresh = .ok (pool', heap', id))
    (hloc' : IsLocation pool c' e') (hne : (c, e) ≠ (c', e')) :
    SlotUnchanged pool heap pool' heap' c' e' := by
  obtain ⟨C, hC⟩ := h.clusters
  obtain ⟨C₁, hC₁, hstay, hheap⟩ := hC.of_takeNextLocation htake
  obtain ⟨_, _, _, popped, cluster, offset, htaken, hpop, hstore, hwrite, -⟩ := mpAlloc_cases halloc
  rw [htake] at htaken
  cases htaken
  have hids := changesIds_of_popId hpop
  have hC' := hC₁.of_changesIds hids
  have hG : pool.geometry = oneElement n := h.geometry
  have hG' : pool'.geometry = oneElement n := (h.mpAlloc halloc).geometry
  have hpack : packLocation pool' c e = packLocation pool₁ c e := by
    obtain ⟨_, _, rfl⟩ := hids
    rfl
  -- the element that is taken
  have htakenLoc : IsLocation pool' c e := by
    apply hloc.of_geometry hids.geometry
    rw [hC'.allocated.contents, ← hC₁.allocated.contents]
    exact hloc.allocated
  obtain ⟨b, hmem, hb, -⟩ := hC'.exists_block htakenLoc.allocated
  rw [← hpack, (htakenLoc.store_oneElement hG' hb).2] at hstore
  cases hstore
  -- the other one
  obtain ⟨b', hmem', hb', hlive⟩ := hC.exists_block hloc'.allocated
  have hmem₁ := hstay _ hmem'
  have hother : IsLocation pool' c' e' := by
    apply hloc'.of_geometry (hG'.trans hG.symm)
    rw [hC'.allocated.contents]
    exact List.mem_map_of_mem hmem₁
  have hblocks : b' ≠ cluster := by
    rintro rfl
    exact cluster_ne_oneElement hG' htakenLoc.element_lt hother.element_lt hne
      (C₁.fst_eq_of_block hmem hmem₁)
  apply slotUnchanged_oneElement hloc' hG hother hG' hb' (kvA_of_some (hC'.lut _ hmem₁))
  rw [Heap.store_of_ne hwrite hblocks, hheap b' hlive]

/-- `mp_set` writes in the cluster of its element. -/
lemma slotUnchanged_of_set {heap' : Heap} {C : Clusters ℕ} {c e c' e' id : ℕ} {lut : Kvec ℕ}
    {bytes : List (Option (BitVec 8))} (hC : HoldsClusters pool heap C)
    (hG : pool.geometry = oneElement n) (hloc : IsLocation pool c e)
    (hloc' : IsLocation pool c' e') (hne : (c, e) ≠ (c', e'))
    (hid : kvA lut id = .ok (packLocation pool c e))
    (hset : mpSet { pool with locationLut := lut } heap id bytes = .ok (heap', none)) :
    SlotUnchanged pool heap pool heap' c' e' := by
  obtain ⟨b, hmem, hb, -⟩ := hC.exists_block hloc.allocated
  obtain ⟨b', hmem', hb', -⟩ := hC.exists_block hloc'.allocated
  rcases mpSet_cases hset with ⟨-, hnot⟩ | ⟨location, cluster, offset, hlut, hstore, hwrite, -⟩
  · exact absurd rfl hnot
  · change kvA lut id = .ok location at hlut
    change getElementStore pool location = .ok (cluster, offset) at hstore
    rw [hid] at hlut
    cases hlut
    rw [(hloc.store_oneElement hG hb).2] at hstore
    cases hstore
    have hother : b' ≠ b := by
      rintro rfl
      exact cluster_ne_oneElement hG hloc.element_lt hloc'.element_lt hne
        (C.fst_eq_of_block hmem hmem')
    exact slotUnchanged_oneElement hloc' hG hloc' hG hb' hb' (Heap.store_of_ne hwrite hother)

/-- Clusters of one element have safe slots. -/
lemma GoodPool.slotsSafe (h : GoodPool (oneElement n) (pool, heap)) : SlotsSafe pool heap := by
  obtain ⟨C, hC⟩ := h.clusters
  have hG : pool.geometry = oneElement n := h.geometry
  obtain ⟨hsize, hcount, hcluster, -⟩ := geometry_oneElement hG
  refine ⟨?_, ?_, ?_, ?_⟩
  · intro c e hloc
    obtain ⟨b, -, hb, hlive⟩ := hC.exists_block hloc.allocated
    obtain ⟨cells, hcells⟩ := Option.isSome_iff_exists.mp hlive
    refine ⟨b, 0, cells, (hloc.store_oneElement hG hb).2, hb, hcells, ?_, ?_⟩
    · rw [hcluster]
      exact h.blocks b cells hcells
    · rw [slotSize, hcluster, hsize, Nat.zero_add]
  · intro c e c' e' hloc hloc' hne block offset block' offset' hstore hstore'
    obtain ⟨b, hmem, hb, -⟩ := hC.exists_block hloc.allocated
    obtain ⟨b', hmem', hb', -⟩ := hC.exists_block hloc'.allocated
    rw [(hloc.store_oneElement hG hb).2] at hstore
    rw [(hloc'.store_oneElement hG hb').2] at hstore'
    cases hstore
    cases hstore'
    apply Or.inl
    rintro rfl
    exact cluster_ne_oneElement hG hloc.element_lt hloc'.element_lt hne
      (C.fst_eq_of_block hmem hmem')
  · intro c e c' e' hloc hloc' hne lut id bytes heap' hid hset _
    exact slotUnchanged_of_set hC hG hloc hloc' hne hid hset
  · intro fresh pool₁ heap₁ pool' heap' id c e c' e' htake hloc halloc hloc' hne
    exact slotUnchanged_of_alloc h htake hloc halloc hloc' hne

end OneElement

/-! ### Clusters of several elements -/

section SeveralElements

variable {settings : MpPoolSettings} {fresh e : ℕ}

lemma packLocation_madePool : packLocation (madePool settings fresh) 0 e = e := by
  rw [packLocation, Nat.zero_shiftLeft, Nat.zero_or]

/-- The first two elements of the first cluster. -/
lemma isLocation_madePool
    (hone : 0 < log2Envelope (BitVec.ofNat 64 settings.elementsPerCluster)) (he : e ≤ 1) :
    IsLocation (madePool settings fresh) 0 e := by
  have htwo := Nat.one_lt_two_pow hone.ne'
  refine ⟨?_, he.trans_lt htwo, ?_⟩
  · change 0 ∈ circbufContents (⟨[0, 0, 0, 0], 0, 1, 2, 3⟩ : Circbuf ℕ)
    exact List.mem_singleton.mpr rfl
  · rw [packLocation_madePool, mpIdBits]
    omega

/-- Their slots start at most `e` bytes into the cluster. -/
lemma getElementStore_madePool
    (hone : 0 < log2Envelope (BitVec.ofNat 64 settings.elementsPerCluster))
    (hlog2 : log2Envelope (BitVec.ofNat 64 settings.elementsPerCluster) ≤ 30) (he : e ≤ 1) :
    ∃ offset, offset ≤ e ∧ getElementStore (madePool settings fresh)
      (packLocation (madePool settings fresh) 0 e) = .ok (fresh, offset) := by
  have htwo := Nat.one_lt_two_pow hone.ne'
  have hshr : intShr e (log2Envelope (BitVec.ofNat 64 settings.elementsPerCluster)) = .ok 0 := by
    rw [intShr, if_pos (by omega), Nat.shiftRight_eq_div_pow, Nat.div_eq_of_lt (by omega)]
  refine ⟨e &&& sizeMul (madePool settings fresh).elementIndexMask
    (sizeAdd (madePool settings fresh).elementSize sizeofMpId), Nat.and_le_left, ?_⟩
  rw [packLocation_madePool]
  unfold getElementStore
  change (intShr e (log2Envelope (BitVec.ofNat 64 settings.elementsPerCluster)) >>= _) = _
  rw [hshr]
  rfl

/-- The first two slots of the first cluster overlap. -/
lemma not_slotsSafe_of_two (heap : Heap)
    (hone : 0 < log2Envelope (BitVec.ofNat 64 settings.elementsPerCluster))
    (hlog2 : log2Envelope (BitVec.ofNat 64 settings.elementsPerCluster) ≤ 30) :
    ¬SlotsSafe (madePool settings fresh) heap := by
  intro hsafe
  obtain ⟨offset, hoffset, hzero⟩ := getElementStore_madePool hone hlog2 (Nat.zero_le 1)
  obtain ⟨offset', hoffset', hfirst⟩ := getElementStore_madePool hone hlog2 (le_refl 1)
  have hapart := hsafe.disjoint 0 0 0 1 (isLocation_madePool hone (Nat.zero_le 1))
    (isLocation_madePool hone (le_refl 1)) (by decide) fresh offset fresh offset' hzero hfirst
  rw [slotSize, sizeofMpId] at hapart
  omega

end SeveralElements

/-- The slots of a pool stay apart in every run for exactly the settings of one element per cluster. -/
theorem mp_slotsSafe_iff (settings : MpPoolSettings)
    (haccepted : testInitSettingsArg settings = none) (hfits : GeometryFits settings) :
    (∀ poolOut fresh ops s taken, poolRun poolOut settings fresh ops = .ok (s, taken) →
      SlotsSafe s.1 s.2) ↔ settings.elementsPerCluster = 1 := by
  have hcount : settings.elementsPerCluster < 2 ^ sizeBits :=
    hfits.1.trans_lt (Nat.pow_lt_pow_right Nat.one_lt_two (by decide))
  have hlog2 := log2Envelope_of_accepted hcount haccepted
  have hle := hlog2.le.trans (Nat.clog_le_of_le_pow hfits.1)
  constructor
  · intro h
    by_contra hne
    have hpos := elementsPerCluster_ne_zero haccepted
    have htwo : 2 ≤ settings.elementsPerCluster := by omega
    obtain ⟨heap, hinit⟩ := initPool_of_accepted MpPool.zero 0 haccepted hle
    have hrun : poolRun MpPool.zero settings 0 [] = .ok ((madePool settings 0, heap), []) := by
      rw [poolRun, hinit]
      rfl
    have hsafe := h _ _ _ _ _ hrun
    refine not_slotsSafe_of_two heap ?_ hle hsafe
    rw [hlog2]
    exact Nat.clog_pos Nat.one_lt_two htwo
  · intro hone poolOut fresh ops s taken hrun
    have hgood := poolRun_goodPool hrun
    have hzero : log2Envelope (BitVec.ofNat 64 settings.elementsPerCluster) = 0 := by
      rw [hlog2, hone, Nat.clog_one_right]
    have hsize := hfits.clusterSize.2
    rw [hone, Nat.clog_one_right, Nat.pow_zero, Nat.mul_one] at hsize
    have hG : (madePool settings fresh).geometry = oneElement settings.elementSize := by
      simp only [madePool, MpPool.geometry, oneElement, hzero, Nat.pow_zero, hsize, Nat.sub_self]
    rw [hG] at hgood
    exact hgood.slotsSafe

theorem mp_slotsSafe_iff_one :
    ∃ s taken, poolRun MpPool.zero ⟨2, 1, 1⟩ 1000 [.alloc 1008, .alloc 1016] = .ok (s, taken) ∧
      SlotsSafe s.1 s.2 := by
  obtain ⟨⟨s, taken⟩, hrun⟩ := exists_of_isOk
    (x := poolRun MpPool.zero ⟨2, 1, 1⟩ 1000 [.alloc 1008, .alloc 1016]) rfl
  exact ⟨s, taken, hrun, (mp_slotsSafe_iff ⟨2, 1, 1⟩ rfl (by decide)).mpr rfl _ _ _ _ _ hrun⟩

/-- Both elements of a cluster of two start at its first byte. -/
theorem mpInit_slots_overlap :
    ∃ pool heap, initPool MpPool.zero ⟨2, 2, 2⟩ 1000 = .ok (pool, heap) ∧
      getElementStore pool (packLocation pool 0 0) = .ok (1000, 0) ∧
      getElementStore pool (packLocation pool 0 1) = .ok (1000, 0) ∧ ¬SlotsSafe pool heap := by
  obtain ⟨heap, hinit⟩ : ∃ heap, initPool MpPool.zero ⟨2, 2, 2⟩ 1000 =
      .ok (madePool ⟨2, 2, 2⟩ 1000, heap) := initPool_of_accepted _ _ rfl (by decide)
  exact ⟨_, heap, hinit, rfl, rfl, not_slotsSafe_of_two heap (by decide) (by decide)⟩

end Utilc
