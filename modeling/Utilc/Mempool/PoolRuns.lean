import Utilc.Mempool.Frames
import Utilc.Mempool.Geometry

/-!
# Runs of a pool

Runs from `mp_init` of all calls on a pool, the private ones on clusters and locations included. Every
state reached owns its clusters, has the geometry `mp_init` gave it, and every block has the size of
a cluster.
-/

namespace Utilc
open CLib

inductive PoolOp where
  | addFrontCluster (fresh : ℕ)
  | removeBackCluster
  | takeNextLocation (fresh : ℕ)
  | alloc (fresh : ℕ)
  | free (id : ℕ)
  | set (id : ℕ) (bytes : List (Option (BitVec 8)))
  deriving DecidableEq, Repr

/-- A location that `takeNextLocation` returned, with the index at the front of
`allocatedClusterIndices` and the element index it was made of. -/
structure Taken where
  location : ℕ
  frontCluster : Option ℕ
  elementIndex : ℕ
  deriving DecidableEq, Repr

/-- What was taken when `takeNextLocation` left `pool` and returned `location`. -/
def takenFrom (pool : MpPool) (location : ℕ) : Taken where
  location := location
  frontCluster := (circbufContents pool.allocatedClusterIndices).getLast?
  elementIndex := pool.frontElementIndex - 1

/-- One call; `takeNextLocation` and `mp_alloc`, which calls it, show what they take. -/
def poolStep (s : MpPool × Heap) : PoolOp → Checked ((MpPool × Heap) × Option Taken)
  | .addFrontCluster fresh => do return (← addFrontCluster s.1 s.2 fresh, none)
  | .removeBackCluster => do return (← removeBackCluster s.1 s.2, none)
  | .takeNextLocation fresh => do
    let r ← takeNextLocation s.1 s.2 fresh
    return ((r.1, r.2.1), some (takenFrom r.1 r.2.2))
  | .alloc fresh => do
    let t ← takeNextLocation s.1 s.2 fresh
    let r ← mpAlloc s.1 s.2 fresh
    return ((r.1, r.2.1), some (takenFrom t.1 t.2.2))
  | .free id => do
    let r ← mpFree s.1 id
    return ((r.1, s.2), none)
  | .set id bytes => do
    let r ← mpSet s.1 s.2 id bytes
    return ((s.1, r.1), none)

/-- A pool from `mp_init` and the calls made on it. -/
def poolRun (poolOut : MpPool) (settings : MpPoolSettings) (fresh : ℕ) (ops : List PoolOp) :
    Checked ((MpPool × Heap) × List (Option Taken)) := do
  let s ← initPool poolOut settings fresh
  runOps poolStep s ops

/-! ### Frames -/

/-- The calls on locations and ids leave the tables of the clusters alone. -/
lemma HoldsClusters.frame {pool pool' : MpPool} {heap heap' : Heap} {C : Clusters ℕ}
    (h : HoldsClusters pool heap C) (hlut : pool'.clusterLut = pool.clusterLut)
    (hallocated : pool'.allocatedClusterIndices = pool.allocatedClusterIndices)
    (hunallocated : pool'.unallocatedClusterIndices = pool.unallocatedClusterIndices)
    (hfree : pool'.freeClusters = pool.freeClusters)
    (hlive : ∀ block, heap'.Live block ↔ heap.Live block) : HoldsClusters pool' heap' C where
  allocated := by
    rw [hallocated]
    exact h.allocated
  unallocated := by
    rw [hunallocated]
    exact h.unallocated
  count := by
    rw [hlut]
    exact h.count
  count_pos := h.count_pos
  cells := by
    rw [hlut]
    exact h.cells
  lut := by
    rw [hlut]
    exact h.lut
  kept := by
    rw [hfree]
    exact h.kept
  heap := by
    intro block
    rw [hlive, h.heap]

lemma HoldsClusters.of_takesNext {pool pool' : MpPool} {heap : Heap} {C : Clusters ℕ}
    {location : ℕ} (h : HoldsClusters pool heap C) (hnext : TakesNext pool pool' location) :
    HoldsClusters pool' heap C := by
  rw [hnext.next]
  exact h.frame rfl rfl rfl rfl fun _ => Iff.rfl

lemma HoldsClusters.of_changesIds {pool pool' : MpPool} {heap : Heap} {C : Clusters ℕ}
    (h : HoldsClusters pool heap C) (hids : ChangesIds pool pool') :
    HoldsClusters pool' heap C := by
  obtain ⟨_, _, rfl⟩ := hids
  exact h.frame rfl rfl rfl rfl fun _ => Iff.rfl

lemma HoldsClusters.of_store {pool : MpPool} {heap heap' : Heap} {C : Clusters ℕ}
    {block offset : ℕ} {bytes : List (Option (BitVec 8))} (h : HoldsClusters pool heap C)
    (hstore : heap.store block offset bytes = .ok heap') : HoldsClusters pool heap' C :=
  h.frame rfl rfl rfl rfl (Heap.live_store hstore)

/-- `mp_set` stores the bytes in the element of the id, or finds no such id. -/
lemma mpSet_cases {pool : MpPool} {heap heap' : Heap} {id : ℕ} {bytes : List (Option (BitVec 8))}
    {error : Option MpError} (h : mpSet pool heap id bytes = .ok (heap', error)) :
    heap' = heap ∧ error ≠ none ∨
    ∃ location cluster offset, kvA pool.locationLut id = .ok location ∧
      getElementStore pool location = .ok (cluster, offset) ∧
      heap.store cluster offset bytes = .ok heap' ∧ error = none := by
  obtain ⟨found, hfind, h⟩ := bind_eq_ok.mp h
  cases found with
  | error e =>
    cases h
    exact Or.inl ⟨rfl, Option.some_ne_none e⟩
  | ok elem =>
    obtain ⟨heap₁, hstore, h⟩ := bind_eq_ok.mp h
    cases h
    apply Or.inr
    obtain ⟨missing, -, hfind⟩ := bind_eq_ok.mp hfind
    cases missing with
    | some e => cases hfind
    | none =>
      obtain ⟨location, hlocation, hfind⟩ := bind_eq_ok.mp hfind
      obtain ⟨found, hfound, hfind⟩ := bind_eq_ok.mp hfind
      cases hfind
      exact ⟨location, elem.1, elem.2, hlocation, hfound, hstore, rfl⟩

/-! ### Every state that is reached -/

/-- The pool owns its clusters, with the geometry `G`, and every block is a cluster. -/
structure GoodPool (G : PoolGeometry) (s : MpPool × Heap) : Prop where
  clusters : ∃ C : Clusters ℕ, HoldsClusters s.1 s.2 C
  geometry : s.1.geometry = G
  blocks : s.2.Uniform G.clusterSize

namespace GoodPool

variable {G : PoolGeometry} {pool pool' : MpPool} {heap heap' : Heap}

lemma addFrontCluster {fresh : ℕ} (h : GoodPool G (pool, heap))
    (hadd : addFrontCluster pool heap fresh = .ok (pool', heap')) : GoodPool G (pool', heap') := by
  obtain ⟨C, hC⟩ := h.clusters
  obtain ⟨C', hC', -⟩ := hC.of_addFrontCluster hadd
  have hframe := addsCluster_of_add hadd
  have hsize : pool.clusterSize = G.clusterSize := congrArg PoolGeometry.clusterSize h.geometry
  refine ⟨⟨C', hC'⟩, hframe.geometry.trans h.geometry, ?_⟩
  rcases hframe.heap with rfl | hmalloc
  · exact h.blocks
  · rw [hsize] at hmalloc
    exact h.blocks.malloc hmalloc

lemma removeBackCluster (h : GoodPool G (pool, heap))
    (hremove : removeBackCluster pool heap = .ok (pool', heap')) : GoodPool G (pool', heap') := by
  obtain ⟨C, hC⟩ := h.clusters
  obtain ⟨C', hC', -⟩ := hC.of_removeBackCluster hremove
  obtain ⟨hgeometry, hheap⟩ := removeBackCluster_cases hremove
  refine ⟨⟨C', hC'⟩, hgeometry.trans h.geometry, ?_⟩
  rcases hheap with rfl | ⟨back, hfree⟩
  · exact h.blocks
  · exact h.blocks.free hfree

lemma takesNext {location : ℕ} (h : GoodPool G (pool, heap))
    (hnext : TakesNext pool pool' location) : GoodPool G (pool', heap) := by
  obtain ⟨C, hC⟩ := h.clusters
  exact ⟨⟨C, hC.of_takesNext hnext⟩, hnext.geometry.trans h.geometry, h.blocks⟩

lemma takeNextLocation {fresh location : ℕ} (h : GoodPool G (pool, heap))
    (htake : takeNextLocation pool heap fresh = .ok (pool', heap', location)) :
    GoodPool G (pool', heap') := by
  obtain ⟨mid, hnext, hadd, hstay⟩ := takeNextLocation_cases htake
  by_cases hend : pool.frontElementIndex = pool.elementsPerCluster
  · exact (h.addFrontCluster (hadd hend)).takesNext hnext
  · obtain ⟨rfl, rfl⟩ := hstay hend
    exact h.takesNext hnext

lemma changesIds (h : GoodPool G (pool, heap)) (hids : ChangesIds pool pool') :
    GoodPool G (pool', heap) := by
  obtain ⟨C, hC⟩ := h.clusters
  exact ⟨⟨C, hC.of_changesIds hids⟩, hids.geometry.trans h.geometry, h.blocks⟩

lemma store {block offset : ℕ} {bytes : List (Option (BitVec 8))} (h : GoodPool G (pool, heap))
    (hstore : heap.store block offset bytes = .ok heap') : GoodPool G (pool, heap') := by
  obtain ⟨C, hC⟩ := h.clusters
  exact ⟨⟨C, hC.of_store hstore⟩, h.geometry, h.blocks.store hstore⟩

lemma mpAlloc {fresh id : ℕ} (h : GoodPool G (pool, heap))
    (halloc : mpAlloc pool heap fresh = .ok (pool', heap', id)) : GoodPool G (pool', heap') := by
  obtain ⟨mid, heap₁, location, popped, cluster, offset, htake, hpop, -, hstore, -⟩ :=
    mpAlloc_cases halloc
  exact ((h.takeNextLocation htake).changesIds (changesIds_of_popId hpop)).store hstore

/-- Every call keeps the invariant. -/
lemma step {s s' : MpPool × Heap} {op : PoolOp} {taken : Option Taken} (h : GoodPool G s)
    (hs : poolStep s op = .ok (s', taken)) : GoodPool G s' := by
  obtain ⟨pool, heap⟩ := s
  cases op with
  | addFrontCluster fresh =>
    obtain ⟨r, hr, hresult⟩ := bind_eq_ok.mp hs
    cases hresult
    exact h.addFrontCluster hr
  | removeBackCluster =>
    obtain ⟨r, hr, hresult⟩ := bind_eq_ok.mp hs
    cases hresult
    exact h.removeBackCluster hr
  | takeNextLocation fresh =>
    obtain ⟨r, hr, hresult⟩ := bind_eq_ok.mp hs
    cases hresult
    exact h.takeNextLocation hr
  | alloc fresh =>
    obtain ⟨t, -, hs⟩ := bind_eq_ok.mp hs
    obtain ⟨r, hr, hresult⟩ := bind_eq_ok.mp hs
    cases hresult
    exact h.mpAlloc hr
  | free id =>
    obtain ⟨r, hr, hresult⟩ := bind_eq_ok.mp hs
    cases hresult
    exact h.changesIds (changesIds_of_free hr)
  | set id bytes =>
    obtain ⟨r, hr, hresult⟩ := bind_eq_ok.mp hs
    cases hresult
    rcases mpSet_cases hr with ⟨hsame, -⟩ | ⟨_, _, _, -, -, hstore, -⟩
    · rw [hsame]
      exact h
    · exact h.store hstore

end GoodPool

/-! ### `mp_init` -/

/-- `mp_init` leaves the pool `madePool`, and one block of the size of a cluster. -/
lemma initPool_made {poolOut pool : MpPool} {heap : Heap} {settings : MpPoolSettings} {fresh : ℕ}
    (h : initPool poolOut settings fresh = .ok (pool, heap)) :
    log2Envelope (BitVec.ofNat 64 settings.elementsPerCluster) ≤ 30 ∧
      pool = madePool settings fresh ∧
      Heap.empty.malloc fresh (madePool settings fresh).clusterSize = .ok heap := by
  have hinit := initPool_eq_ok h
  cases haccepted : testInitSettingsArg settings with
  | some error =>
    rw [mpInit_rejected _ _ _ haccepted] at hinit
    cases hinit
  | none =>
    by_cases hlog2 : log2Envelope (BitVec.ofNat 64 settings.elementsPerCluster) ≤ 30
    · rw [mpInit_eq _ _ _ haccepted hlog2] at hinit
      obtain ⟨heap₁, hmalloc, hinit⟩ := bind_eq_ok.mp hinit
      cases hinit
      exact ⟨hlog2, rfl, hmalloc⟩
    · rw [mpInit_overflow _ _ _ haccepted (not_le.mp hlog2)] at hinit
      cases hinit

lemma initPool_of_accepted (poolOut : MpPool) {settings : MpPoolSettings} (fresh : ℕ)
    (haccepted : testInitSettingsArg settings = none)
    (hlog2 : log2Envelope (BitVec.ofNat 64 settings.elementsPerCluster) ≤ 30) :
    ∃ heap, initPool poolOut settings fresh = .ok (madePool settings fresh, heap) := by
  obtain ⟨heap, hmalloc⟩ := Heap.malloc_of_dead (Heap.not_live_empty fresh)
    (madePool settings fresh).clusterSize
  refine ⟨heap, ?_⟩
  rw [initPool, mpInit_eq _ _ _ haccepted hlog2, hmalloc]
  rfl

/-- Of the accepted settings, `mp_init` completes for those with clusters of at most `2 ^ 30` elements. -/
lemma initPool_completes_iff (poolOut : MpPool) {settings : MpPoolSettings} (fresh : ℕ)
    (haccepted : testInitSettingsArg settings = none)
    (hcount : settings.elementsPerCluster < 2 ^ sizeBits) :
    (∃ s, initPool poolOut settings fresh = .ok s) ↔ settings.elementsPerCluster ≤ 2 ^ 30 := by
  have hlog2 := log2Envelope_of_accepted hcount haccepted
  constructor
  · rintro ⟨⟨pool, heap⟩, hinit⟩
    obtain ⟨hle, -⟩ := initPool_made hinit
    rw [hlog2] at hle
    exact (Nat.clog_le_iff_le_pow Nat.one_lt_two).mp hle
  · intro hle
    obtain ⟨heap, hinit⟩ := initPool_of_accepted poolOut fresh haccepted
      (hlog2.le.trans (Nat.clog_le_of_le_pow hle))
    exact ⟨_, hinit⟩

lemma initPool_goodPool {poolOut pool : MpPool} {heap : Heap} {settings : MpPoolSettings}
    {fresh : ℕ} (h : initPool poolOut settings fresh = .ok (pool, heap)) :
    GoodPool (madePool settings fresh).geometry (pool, heap) := by
  obtain ⟨C, hC, -⟩ := initPool_holdsClusters h
  obtain ⟨-, hmade, hmalloc⟩ := initPool_made h
  refine ⟨⟨C, hC⟩, by rw [hmade], ?_⟩
  exact (Heap.uniform_empty _).malloc hmalloc

lemma poolRun_goodPool {poolOut : MpPool} {s : MpPool × Heap} {settings : MpPoolSettings}
    {fresh : ℕ} {ops : List PoolOp} {taken : List (Option Taken)}
    (hrun : poolRun poolOut settings fresh ops = .ok (s, taken)) :
    GoodPool (madePool settings fresh).geometry s := by
  obtain ⟨s₀, hinit, hops⟩ := bind_eq_ok.mp hrun
  exact runOps_invariant _ (fun s op s' taken h hs => h.step hs) (initPool_goodPool hinit) hops

end Utilc
