import Utilc.Mempool.Model

/-!
# What the calls on a pool can change

The fields of a pool fall into three groups: the geometry, which no call changes, the tables of the
clusters, which `addFrontCluster` and `removeBackCluster` change, and the tables of the ids.
-/

namespace Utilc
open CLib

/-- The fields that `mp_init` sets once. -/
structure PoolGeometry where
  elementSize : ℕ
  elementsPerCluster : ℕ
  clusterSize : ℕ
  clusterIndexOffset : ℕ
  elementIndexMask : ℕ
  deriving DecidableEq, Repr

def MpPool.geometry (pool : MpPool) : PoolGeometry :=
  ⟨pool.elementSize, pool.elementsPerCluster, pool.clusterSize, pool.clusterIndexOffset,
    pool.elementIndexMask⟩

/-- Adding a cluster changes the tables of the clusters, the front is at its first element, and at most
one block is allocated. -/
structure AddsCluster (pool : MpPool) (heap : Heap) (fresh : ℕ) (pool' : MpPool) (heap' : Heap) :
    Prop where
  geometry : pool'.geometry = pool.geometry
  locationLut : pool'.locationLut = pool.locationLut
  freeIds : pool'.freeIds = pool.freeIds
  frontElementIndex : pool'.frontElementIndex = 0
  heap : heap' = heap ∨ heap.malloc fresh pool.clusterSize = .ok heap'

lemma takeFreeCluster_heap {pool : MpPool} {heap heap' : Heap} {fresh newFront : ℕ} {v : Kvec ℕ}
    (h : takeFreeCluster pool heap fresh = .ok (v, heap', newFront)) :
    heap' = heap ∨ heap.malloc fresh pool.clusterSize = .ok heap' := by
  by_cases hfree : !kvEmpty pool.freeClusters
  · simp only [takeFreeCluster, if_pos hfree] at h
    obtain ⟨_, -, h⟩ := bind_eq_ok.mp h
    cases h
    exact Or.inl rfl
  · simp only [takeFreeCluster, if_neg hfree] at h
    obtain ⟨mid, hmalloc, h⟩ := bind_eq_ok.mp h
    cases h
    exact Or.inr hmalloc

lemma addsCluster_of_place {pool pool' : MpPool} {heap heap' : Heap} {fresh : ℕ}
    (h : placeFrontCluster pool heap fresh = .ok (pool', heap')) :
    AddsCluster pool heap fresh pool' heap' := by
  obtain ⟨⟨v, mid, newFront⟩, htake, h⟩ := bind_eq_ok.mp h
  obtain ⟨_, -, h⟩ := bind_eq_ok.mp h
  obtain ⟨_, -, h⟩ := bind_eq_ok.mp h
  obtain ⟨_, -, h⟩ := bind_eq_ok.mp h
  cases h
  exact ⟨rfl, rfl, rfl, rfl, takeFreeCluster_heap htake⟩

lemma addsCluster_of_add {pool pool' : MpPool} {heap heap' : Heap} {fresh : ℕ}
    (h : addFrontCluster pool heap fresh = .ok (pool', heap')) :
    AddsCluster pool heap fresh pool' heap' := by
  by_cases hlen : pool.unallocatedClusterIndices.length != 0
  · simp only [addFrontCluster, if_pos hlen, ok_bind] at h
    exact addsCluster_of_place h
  · simp only [addFrontCluster, if_neg hlen] at h
    obtain ⟨mid, hgrow, h⟩ := bind_eq_ok.mp h
    obtain ⟨unallocated, -, hgrow⟩ := bind_eq_ok.mp hgrow
    cases hgrow
    obtain ⟨hgeometry, hlut, hids, hindex, hheap⟩ := addsCluster_of_place h
    exact ⟨hgeometry, hlut, hids, hindex, hheap⟩

/-- Removing a cluster frees at most one block. -/
lemma removeBackCluster_cases {pool pool' : MpPool} {heap heap' : Heap}
    (h : removeBackCluster pool heap = .ok (pool', heap')) :
    pool'.geometry = pool.geometry ∧ (heap' = heap ∨ ∃ back, heap.free back = .ok heap') := by
  obtain ⟨_, -, h⟩ := bind_eq_ok.mp h
  obtain ⟨_, -, h⟩ := bind_eq_ok.mp h
  obtain ⟨_, -, h⟩ := bind_eq_ok.mp h
  obtain ⟨back, -, h⟩ := bind_eq_ok.mp h
  by_cases hfull : !kvFull pool.freeClusters
  · simp only [if_pos hfull] at h
    obtain ⟨_, -, h⟩ := bind_eq_ok.mp h
    cases h
    exact ⟨rfl, Or.inl rfl⟩
  · simp only [if_neg hfull] at h
    obtain ⟨_, hfree, h⟩ := bind_eq_ok.mp h
    cases h
    exact ⟨rfl, Or.inr ⟨back, hfree⟩⟩

/-- `takeNextLocation` on a pool whose front has room: it takes the next element of the cluster whose
index was allocated last. -/
structure TakesNext (pool pool' : MpPool) (location : ℕ) : Prop where
  next : pool' = { pool with
    frontElementCount := sizeAdd pool.frontElementCount 1
    frontElementIndex := sizeAdd pool.frontElementIndex 1 }
  location : ∃ front shifted,
    readAt pool.allocatedClusterIndices.a (circbufFrontIndex pool.allocatedClusterIndices) =
      .ok front ∧ sizeShl front pool.clusterIndexOffset = .ok shifted ∧
    location = (shifted ||| pool.frontElementIndex) % 2 ^ mpIdBits

/-- A cluster is added first if the front one is full. -/
lemma takeNextLocation_cases {pool pool' : MpPool} {heap heap' : Heap} {fresh location : ℕ}
    (h : takeNextLocation pool heap fresh = .ok (pool', heap', location)) :
    ∃ mid, TakesNext mid pool' location ∧
      (pool.frontElementIndex = pool.elementsPerCluster →
        addFrontCluster pool heap fresh = .ok (mid, heap')) ∧
      (pool.frontElementIndex ≠ pool.elementsPerCluster → mid = pool ∧ heap' = heap) := by
  by_cases hend : pool.frontElementIndex = pool.elementsPerCluster
  · have hend' : (pool.frontElementIndex == pool.elementsPerCluster) = true := beq_iff_eq.mpr hend
    simp only [takeNextLocation, if_pos hend'] at h
    obtain ⟨⟨mid, heap₁⟩, hadd, h⟩ := bind_eq_ok.mp h
    obtain ⟨front, hfront, h⟩ := bind_eq_ok.mp h
    obtain ⟨shifted, hshl, h⟩ := bind_eq_ok.mp h
    cases h
    exact ⟨mid, ⟨rfl, front, shifted, hfront, hshl, rfl⟩, fun _ => hadd, fun hne => absurd hend hne⟩
  · have hend' : ¬(pool.frontElementIndex == pool.elementsPerCluster) = true :=
      fun heq => hend (beq_iff_eq.mp heq)
    simp only [takeNextLocation, if_neg hend', ok_bind] at h
    obtain ⟨front, hfront, h⟩ := bind_eq_ok.mp h
    obtain ⟨shifted, hshl, h⟩ := bind_eq_ok.mp h
    cases h
    exact ⟨pool, ⟨rfl, front, shifted, hfront, hshl, rfl⟩, fun heq => absurd heq hend,
      fun _ => ⟨rfl, rfl⟩⟩

lemma TakesNext.geometry {pool pool' : MpPool} {location : ℕ} (h : TakesNext pool pool' location) :
    pool'.geometry = pool.geometry := by
  rw [h.next]
  rfl

lemma takeNextLocation_ids {pool pool' : MpPool} {heap heap' : Heap} {fresh location : ℕ}
    (h : takeNextLocation pool heap fresh = .ok (pool', heap', location)) :
    pool'.locationLut = pool.locationLut ∧ pool'.freeIds = pool.freeIds := by
  obtain ⟨mid, hnext, hadd, hstay⟩ := takeNextLocation_cases h
  rw [hnext.next]
  by_cases hend : pool.frontElementIndex = pool.elementsPerCluster
  · have hframe := addsCluster_of_add (hadd hend)
    exact ⟨hframe.locationLut, hframe.freeIds⟩
  · rw [(hstay hend).1]
    exact ⟨rfl, rfl⟩

/-! ### `mp_init` -/

lemma initPool_eq_ok {poolOut pool : MpPool} {heap : Heap} {settings : MpPoolSettings} {fresh : ℕ}
    (h : initPool poolOut settings fresh = .ok (pool, heap)) :
    mpInit poolOut Heap.empty settings fresh = .ok (pool, heap, none) := by
  obtain ⟨⟨pool', heap', error⟩, hinit, hrest⟩ := bind_eq_ok.mp h
  obtain ⟨u, hnone, hresult⟩ := bind_eq_ok.mp hrest
  cases require_eq_ok.mp hnone
  cases hresult
  exact hinit

/-- `mp_init` makes the tables of the ids and of the clusters and adds the first cluster. -/
lemma initPool_cases {poolOut pool : MpPool} {heap : Heap} {settings : MpPoolSettings} {fresh : ℕ}
    (h : initPool poolOut settings fresh = .ok (pool, heap)) :
    ∃ made fifos : MpPool,
      (do
        let freeIds ← idxpyrMake blockBitCountLog2 true
        let freeIds ← idxpyrSetAll freeIds true
        idxpyrSet freeIds 0 false) = .ok made.freeIds ∧
      made.locationLut.n = 0 ∧ made.freeClusters = kvInit ∧ initClusterFifos made = .ok fifos ∧
      addFrontCluster
        { fifos with
          freeClusters := kvResize sizeofPtr fifos.freeClusters settings.freeClusterCountMax }
        Heap.empty fresh = .ok (pool, heap) := by
  have hinit := initPool_eq_ok h
  unfold mpInit at hinit
  split at hinit
  · cases hinit
  · obtain ⟨elementsPerCluster, -, hinit⟩ := bind_eq_ok.mp hinit
    obtain ⟨first, hfirst, hinit⟩ := bind_eq_ok.mp hinit
    obtain ⟨all, hall, hinit⟩ := bind_eq_ok.mp hinit
    obtain ⟨freeIds, hids, hinit⟩ := bind_eq_ok.mp hinit
    obtain ⟨fifos, hfifos, hinit⟩ := bind_eq_ok.mp hinit
    obtain ⟨added, hadd, hinit⟩ := bind_eq_ok.mp hinit
    cases hinit
    refine ⟨_, fifos, ?_, rfl, rfl, hfifos, hadd⟩
    simp only [hfirst, hall, hids, ok_bind]

/-! ### The tables of the ids -/

/-- Only the tables of the ids change. -/
def ChangesIds (pool pool' : MpPool) : Prop :=
  ∃ locationLut freeIds, pool' = { pool with locationLut := locationLut, freeIds := freeIds }

lemma ChangesIds.geometry {pool pool' : MpPool} (h : ChangesIds pool pool') :
    pool'.geometry = pool.geometry := by
  obtain ⟨_, _, rfl⟩ := h
  rfl

lemma changesIds_of_popId {pool pool' : MpPool} {location id : ℕ}
    (h : popId pool location = .ok (pool', id)) : ChangesIds pool pool' := by
  obtain ⟨⟨freeIds, popped⟩, -, h⟩ := bind_eq_ok.mp h
  by_cases hempty : popped = idxpyrEmpty
  · simp only [if_pos hempty] at h
    obtain ⟨_, -, h⟩ := bind_eq_ok.mp h
    obtain ⟨lut, -, h⟩ := bind_eq_ok.mp h
    obtain ⟨_, -, h⟩ := bind_eq_ok.mp h
    obtain ⟨ids, -, h⟩ := bind_eq_ok.mp h
    cases h
    exact ⟨lut, ids, rfl⟩
  · simp only [if_neg hempty] at h
    obtain ⟨lut, -, h⟩ := bind_eq_ok.mp h
    cases h
    exact ⟨lut, freeIds, rfl⟩

lemma changesIds_of_free {pool pool' : MpPool} {id : ℕ} {error : Option MpError}
    (h : mpFree pool id = .ok (pool', error)) : ChangesIds pool pool' := by
  obtain ⟨found, -, h⟩ := bind_eq_ok.mp h
  cases found with
  | some e =>
    cases h
    exact ⟨pool.locationLut, pool.freeIds, rfl⟩
  | none =>
    obtain ⟨freeIds, -, h⟩ := bind_eq_ok.mp h
    obtain ⟨lut, -, h⟩ := bind_eq_ok.mp h
    cases h
    exact ⟨lut, freeIds, rfl⟩

/-- `mp_alloc` takes a location and an id and stores the id in the element. -/
lemma mpAlloc_cases {pool pool' : MpPool} {heap heap' : Heap} {fresh id : ℕ}
    (h : mpAlloc pool heap fresh = .ok (pool', heap', id)) :
    ∃ mid heap₁ location popped cluster offset,
      takeNextLocation pool heap fresh = .ok (mid, heap₁, location) ∧
      popId mid location = .ok (pool', popped) ∧
      getElementStore pool' location = .ok (cluster, offset) ∧
      heap₁.store cluster (offset + pool'.elementSize) (idBytes popped) = .ok heap' ∧
      id = popped % 2 ^ mpIdBits := by
  obtain ⟨⟨mid, heap₁, location⟩, htake, h⟩ := bind_eq_ok.mp h
  obtain ⟨⟨pool₁, popped⟩, hpop, h⟩ := bind_eq_ok.mp h
  obtain ⟨⟨cluster, offset⟩, hstore, h⟩ := bind_eq_ok.mp h
  obtain ⟨heap₂, hwrite, h⟩ := bind_eq_ok.mp h
  cases h
  exact ⟨mid, heap₁, location, popped, cluster, offset, htake, hpop, hstore, hwrite, rfl⟩

end Utilc
