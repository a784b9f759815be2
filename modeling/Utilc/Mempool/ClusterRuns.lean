import Utilc.CLib.Runs
import Utilc.Mempool.Clusters
import Utilc.Mempool.Frames

/-!
# Runs that add and remove clusters

From `mp_init` on, every cluster index is in exactly one of the two ring buffers, the blocks of the
allocated indices and the kept blocks are the live ones, each once, and `mp_destroy` frees each of
them once.
-/

namespace Utilc
open CLib

def ReadsBlocks (v : Kvec ℕ) (cells blocks : List ℕ) : Prop :=
  List.Forall₂ (fun i block => kvA v i = .ok block) cells blocks

/-- The ownership of clusters, in terms of the tables of the pool. -/
structure OwnsClusters (pool : MpPool) (heap : Heap) (freeClusterCountMax : ℕ) : Prop where
  indices : (circbufContents pool.allocatedClusterIndices ++
    circbufContents pool.unallocatedClusterIndices).Perm (List.range pool.clusterLut.m)
  blocks : ∃ allocated kept : List ℕ,
    ReadsBlocks pool.clusterLut (circbufContents pool.allocatedClusterIndices) allocated ∧
    ReadsBlocks pool.freeClusters (List.range pool.freeClusters.n) kept ∧
    (allocated ++ kept).Nodup ∧ (∀ block, heap.Live block ↔ block ∈ allocated ++ kept) ∧
    mpDestroy pool heap = heap.freeAll (allocated ++ kept)
  kept_le : pool.freeClusters.n ≤ freeClusterCountMax
  destroy : mpDestroy pool heap = .ok Heap.empty

/-! ### `mp_destroy` -/

lemma freeAllocated_eq (R : Ring ℕ) (lut : Kvec ℕ) {count iter : ℕ} {blocks : List ℕ}
    (h : ReadsBlocks lut (window 0 R.a iter count) blocks) (heap : Heap) :
    freeAllocated R.toCircbuf lut count iter heap = heap.freeAll blocks := by
  induction count generalizing iter blocks heap with
  | zero =>
    have hnil : blocks = [] := List.forall₂_nil_left_iff.mp h
    rw [hnil]
    rfl
  | succ count ih =>
    rw [window_cons] at h
    obtain ⟨block, rest, hread, hrest, rfl⟩ := List.forall₂_cons_left_iff.mp h
    rw [← Nat.mod_add_mod, window_mod] at hrest
    simp only [freeAllocated, R.next_ok, ok_bind, hread, Heap.freeAll]
    congr 1
    funext mid
    exact ih hrest mid

lemma freeFreeClusters_eq (v : Kvec ℕ) {count i : ℕ} {blocks : List ℕ}
    (h : ReadsBlocks v (List.range' i count) blocks) (heap : Heap) :
    freeFreeClusters v count i heap = heap.freeAll blocks := by
  induction count generalizing i blocks heap with
  | zero =>
    have hnil : blocks = [] := List.forall₂_nil_left_iff.mp h
    rw [hnil]
    rfl
  | succ count ih =>
    rw [List.range'_succ] at h
    obtain ⟨block, rest, hread, hrest, rfl⟩ := List.forall₂_cons_left_iff.mp h
    simp only [freeFreeClusters, ok_bind, hread, Heap.freeAll]
    congr 1
    funext mid
    exact ih hrest mid

lemma HoldsKept.reads {v : Kvec ℕ} {kept : List ℕ} {limit : ℕ} (h : HoldsKept v kept limit) :
    ReadsBlocks v (List.range v.n) kept := by
  obtain ⟨rest, hrest⟩ := h.items
  rw [ReadsBlocks, List.forall₂_iff_get]
  refine ⟨by rw [List.length_range, h.count], fun i hi hi' => ?_⟩
  apply kvA_of_some
  rw [List.get_eq_getElem, List.getElem_range, ← hrest,
    List.getElem?_append_left (by rwa [List.length_map]), List.getElem?_map,
    List.getElem?_eq_getElem hi', List.get_eq_getElem]
  rfl

lemma HoldsClusters.reads {pool : MpPool} {heap : Heap} {C : Clusters ℕ}
    (h : HoldsClusters pool heap C) :
    ReadsBlocks pool.clusterLut (C.allocated.map Prod.fst) (C.allocated.map Prod.snd) := by
  rw [ReadsBlocks, List.forall₂_map_left_iff, List.forall₂_map_right_iff, List.forall₂_same]
  exact fun p hp => kvA_of_some (h.lut p hp)

/-- Every block is freed once: those of the allocated indices, then the kept ones. -/
lemma HoldsClusters.mpDestroy_eq {pool : MpPool} {heap : Heap} {C : Clusters ℕ}
    (h : HoldsClusters pool heap C) : mpDestroy pool heap = heap.freeAll C.owned := by
  obtain ⟨R, hR, hcontents⟩ := h.allocated
  have hreads := h.reads
  rw [← hcontents] at hreads
  have hkept := h.kept.reads
  rw [List.range_eq_range'] at hkept
  have hfifos : destroyClusterFifos pool heap = heap.freeAll (C.allocated.map Prod.snd) := by
    rw [destroyClusterFifos, hR]
    exact freeAllocated_eq R pool.clusterLut hreads heap
  rw [mpDestroy, hfifos, Clusters.owned, Heap.freeAll_append]
  congr 1
  funext mid
  exact freeFreeClusters_eq pool.freeClusters hkept mid

lemma HoldsClusters.ownsClusters {pool : MpPool} {heap : Heap} {C : Clusters ℕ}
    (h : HoldsClusters pool heap C) : OwnsClusters pool heap C.freeMax where
  indices := by
    rw [h.allocated.contents, h.unallocated.contents, h.count]
    exact C.indices
  blocks := by
    refine ⟨C.allocated.map Prod.snd, C.free, ?_, h.kept.reads, C.blocks, h.heap, h.mpDestroy_eq⟩
    rw [h.allocated.contents]
    exact h.reads
  kept_le := by
    rw [h.kept.count]
    exact C.free_le
  destroy := by
    rw [h.mpDestroy_eq]
    exact Heap.freeAll_exact C.blocks h.heap

/-! ### `mp_init` -/

lemma initClusterFifos_ok (pool : MpPool) :
    initClusterFifos pool = .ok { pool with
      clusterLut := ⟨4, 4, [none, none, none, none]⟩
      allocatedClusterIndices := ⟨[0, 0, 0, 0], 0, 0, 2, 3⟩
      unallocatedClusterIndices := ⟨[0, 1, 2, 3], 0, 4, 2, 3⟩ } := rfl

lemma holdsClusters_init {pool : MpPool} {freeMax : ℕ}
    (hlut : pool.clusterLut = ⟨4, 4, [none, none, none, none]⟩)
    (hallocated : pool.allocatedClusterIndices = ⟨[0, 0, 0, 0], 0, 0, 2, 3⟩)
    (hunallocated : pool.unallocatedClusterIndices = ⟨[0, 1, 2, 3], 0, 4, 2, 3⟩)
    (hfree : pool.freeClusters = kvResize sizeofPtr kvInit freeMax) :
    HoldsClusters pool Heap.empty (Clusters.init 4 freeMax) where
  allocated := ⟨Ring.make 2 (by decide), hallocated, rfl⟩
  unallocated :=
    ⟨⟨[0, 1, 2, 3], 0, 4, 2, by decide, rfl, by decide, by decide⟩, hunallocated, rfl⟩
  count := by
    rw [hlut]
    rfl
  count_pos := Nat.succ_pos 3
  cells := by
    rw [hlut]
    rfl
  lut := by
    intro p hp
    cases hp
  kept := by
    rw [hfree]
    exact ⟨rfl, length_realloc _ _, rfl, List.nil_prefix⟩
  heap := by
    intro block
    exact iff_of_false (Heap.not_live_empty block) List.not_mem_nil

lemma initPool_holdsClusters {poolOut pool : MpPool} {heap : Heap} {settings : MpPoolSettings}
    {fresh : ℕ} (h : initPool poolOut settings fresh = .ok (pool, heap)) :
    ∃ C : Clusters ℕ, HoldsClusters pool heap C ∧
      (Clusters.init 4 settings.freeClusterCountMax).AddsFront C := by
  obtain ⟨made, fifos, -, -, hfree, hfifos, hadd⟩ := initPool_cases h
  rw [initClusterFifos_ok] at hfifos
  cases hfifos
  refine HoldsClusters.of_addFrontCluster
    (C := Clusters.init 4 settings.freeClusterCountMax) ?_ hadd
  apply holdsClusters_init rfl rfl rfl
  rw [hfree]

/-! ### Runs -/

lemma HoldsClusters.of_clusterStep {s s' : MpPool × Heap} {C : Clusters ℕ} {op : ClusterOp}
    {u : Unit} (h : HoldsClusters s.1 s.2 C) (hs : clusterStep s op = .ok (s', u)) :
    ∃ C' : Clusters ℕ, HoldsClusters s'.1 s'.2 C' ∧ C'.freeMax = C.freeMax := by
  cases op with
  | addFrontCluster fresh =>
    obtain ⟨r, hr, hresult⟩ := bind_eq_ok.mp hs
    cases hresult
    obtain ⟨C', hC', hfront⟩ := h.of_addFrontCluster hr
    exact ⟨C', hC', hfront.freeMax⟩
  | removeBackCluster =>
    obtain ⟨r, hr, hresult⟩ := bind_eq_ok.mp hs
    cases hresult
    exact h.of_removeBackCluster hr

/-- Fewer than `2 ^ 30` indices are needed, `malloc` succeeds, and a cluster is removed only when
there is one. -/
def ClusterOp.Admitted (pool : MpPool) (heap : Heap) : ClusterOp → Prop
  | .addFrontCluster fresh =>
    (pool.unallocatedClusterIndices.length = 0 → pool.clusterLut.m * 2 < 2 ^ 30) ∧
      (pool.freeClusters.n = 0 → ¬heap.Live fresh)
  | .removeBackCluster => pool.allocatedClusterIndices.length ≠ 0

lemma HoldsClusters.clusterStep {pool : MpPool} {heap : Heap} {C : Clusters ℕ} {op : ClusterOp}
    (h : HoldsClusters pool heap C) (hcount : pool.clusterLut.m < 2 ^ 30)
    (hmax : sizeofPtr * C.freeMax < 2 ^ sizeBits) (hop : op.Admitted pool heap) :
    ∃ s, clusterStep (pool, heap) op = .ok (s, ()) := by
  rw [h.count] at hcount
  cases op with
  | addFrontCluster fresh =>
    obtain ⟨hgrow, hfresh⟩ := hop
    rw [h.unallocated.length, h.count] at hgrow
    rw [h.kept.count] at hfresh
    obtain ⟨s, hs⟩ := h.addFrontCluster hcount.le
      (fun hnil => (hgrow (List.length_eq_zero_iff.mpr hnil)).le)
      (fun hnil => hfresh (List.length_eq_zero_iff.mpr hnil))
    exact ⟨s, by simp only [Utilc.clusterStep, hs, ok_bind, pure_eq_ok]⟩
  | removeBackCluster =>
    obtain ⟨s, hs⟩ := h.removeBackCluster hcount.le hop hmax
    exact ⟨s, by simp only [Utilc.clusterStep, hs, ok_bind, pure_eq_ok]⟩

/-- In every state that adding and removing clusters reaches, the pool owns its clusters, and if the
allocation of `freeClusters` has all its cells the next admitted change does not fault. -/
theorem mpPool_ownsClusters {poolOut pool : MpPool} {heap : Heap} {settings : MpPoolSettings}
    {fresh : ℕ} {ops : List ClusterOp}
    (hrun : clusterRun poolOut settings fresh ops = .ok (pool, heap)) :
    OwnsClusters pool heap settings.freeClusterCountMax ∧
      (pool.clusterLut.m < 2 ^ 30 → sizeofPtr * settings.freeClusterCountMax < 2 ^ sizeBits →
        ∀ op : ClusterOp, op.Admitted pool heap →
          ∃ s, clusterStep (pool, heap) op = .ok (s, ())) := by
  obtain ⟨s₀, hinit, hrest⟩ := bind_eq_ok.mp hrun
  obtain ⟨⟨s, results⟩, hops, hresult⟩ := bind_eq_ok.mp hrest
  cases hresult
  have hstep : ∀ (s : MpPool × Heap) op s' (u : Unit),
      (∃ C : Clusters ℕ, HoldsClusters s.1 s.2 C ∧ C.freeMax = settings.freeClusterCountMax) →
        clusterStep s op = .ok (s', u) →
          ∃ C : Clusters ℕ, HoldsClusters s'.1 s'.2 C ∧
            C.freeMax = settings.freeClusterCountMax := by
    rintro s op s' u ⟨C, hC, hmax⟩ hs
    obtain ⟨C', hC', hmax'⟩ := hC.of_clusterStep hs
    exact ⟨C', hC', hmax'.trans hmax⟩
  obtain ⟨C₀, hC₀, hfront⟩ := initPool_holdsClusters hinit
  obtain ⟨C, hC, hmax⟩ := runOps_invariant _ hstep ⟨C₀, hC₀, hfront.freeMax⟩ hops
  rw [← hmax]
  exact ⟨hC.ownsClusters, fun hcount hcells op hop => hC.clusterStep hcount hcells hop⟩

/-- Five clusters, for which the indices are doubled; two are removed and one is added again. -/
theorem mpPool_ownsClusters_recycled :
    ∃ pool heap, clusterRun MpPool.zero ⟨2, 2, 1⟩ 1000
        [.addFrontCluster 1008, .addFrontCluster 1016, .addFrontCluster 1024, .addFrontCluster 1032,
          .removeBackCluster, .removeBackCluster, .addFrontCluster 1040] = .ok (pool, heap) ∧
      OwnsClusters pool heap 1 := by
  obtain ⟨⟨pool, heap⟩, hrun⟩ := exists_of_isOk (x := clusterRun MpPool.zero ⟨2, 2, 1⟩ 1000
    [.addFrontCluster 1008, .addFrontCluster 1016, .addFrontCluster 1024, .addFrontCluster 1032,
      .removeBackCluster, .removeBackCluster, .addFrontCluster 1040]) rfl
  exact ⟨pool, heap, hrun, (mpPool_ownsClusters hrun).1⟩

end Utilc
