import Utilc.CLib.RoundUp
import Utilc.Mempool.Elements

/-!
# The memory that a pool uses

A pool that no cluster is removed from has one cluster for every `elementsPerCluster` locations that
were taken, rounded up, and freeing elements gives nothing back.
-/

namespace Utilc
open CLib

/-- The clusters that `t` locations need; the first one is there from the start. -/
def clustersFor (k t : ℕ) : ℕ := (t - 1) / 2 ^ k + 1

/-- The pool has `n` clusters with the first `n` indices, the least table for them, and no other
blocks. -/
structure UsesClusters (pool : MpPool) (heap : Heap) (n : ℕ) : Prop where
  indices : circbufContents pool.allocatedClusterIndices = List.range n
  table : pool.clusterLut.m = max 4 (2 ^ Nat.clog 2 n)
  blocks : ∃ blocks : List ℕ, ReadsBlocks pool.clusterLut (List.range n) blocks ∧ blocks.Nodup ∧
    ∀ b, heap.Live b ↔ b ∈ blocks

/-! ### The tables after a cluster is added -/

lemma placeFrontCluster_tables {pool pool' : MpPool} {heap heap' : Heap} {fresh : ℕ}
    (h : placeFrontCluster pool heap fresh = .ok (pool', heap')) :
    pool'.clusterLut.m = pool.clusterLut.m ∧
      (pool.freeClusters.n = 0 → pool'.freeClusters.n = 0) := by
  obtain ⟨⟨v, mid, newFront⟩, htake, h⟩ := bind_eq_ok.mp h
  obtain ⟨_, -, h⟩ := bind_eq_ok.mp h
  obtain ⟨_, -, h⟩ := bind_eq_ok.mp h
  obtain ⟨lut, hassign, h⟩ := bind_eq_ok.mp h
  obtain ⟨_, -, hassign⟩ := bind_eq_ok.mp hassign
  cases hassign
  cases h
  refine ⟨rfl, fun hnone => ?_⟩
  have hempty : kvEmpty pool.freeClusters = true := decide_eq_true hnone
  simp only [takeFreeCluster, hempty, Bool.not_true, Bool.false_eq_true, if_false] at htake
  obtain ⟨_, -, htake⟩ := bind_eq_ok.mp htake
  cases htake
  exact hnone

/-- The table doubles when all its indices are in use. -/
lemma addFrontCluster_tables {pool pool' : MpPool} {heap heap' : Heap} {fresh : ℕ}
    (h : addFrontCluster pool heap fresh = .ok (pool', heap')) :
    pool'.clusterLut.m = (if pool.unallocatedClusterIndices.length = 0 then
      sizeMul pool.clusterLut.m 2 else pool.clusterLut.m) ∧
      (pool.freeClusters.n = 0 → pool'.freeClusters.n = 0) := by
  by_cases hlen : pool.unallocatedClusterIndices.length = 0
  · have hnone : ¬(pool.unallocatedClusterIndices.length != 0) = true := by
      rw [hlen]
      decide
    simp only [addFrontCluster, if_neg hnone] at h
    obtain ⟨mid, hgrow, h⟩ := bind_eq_ok.mp h
    obtain ⟨_, -, hgrow⟩ := bind_eq_ok.mp hgrow
    cases hgrow
    rw [if_pos hlen]
    exact placeFrontCluster_tables h
  · have hsome : (pool.unallocatedClusterIndices.length != 0) = true := bne_iff_ne.mpr hlen
    simp only [addFrontCluster, if_pos hsome, ok_bind] at h
    rw [if_neg hlen]
    exact placeFrontCluster_tables h

/-! ### Counting -/

/-- After `t` locations the tables are those of the clusters for them. -/
structure CountsClusters (k : ℕ) (s : MpPool × Heap) (t : ℕ) : Prop where
  sequence : InSequence k s t
  started : s.1.frontElementIndex = 0 → t = 0
  noneKept : s.1.freeClusters.n = 0
  table : s.1.clusterLut.m = max 4 (2 ^ Nat.clog 2 (clustersFor k t))

namespace CountsClusters

variable {k t : ℕ} {pool pool' : MpPool} {heap heap' : Heap}

/-- `n` full clusters and the front one. -/
lemma clustersFor_eq {n e : ℕ} (he : e ≤ 2 ^ k) (hcount : n * 2 ^ k + e = t)
    (hstarted : e = 0 → t = 0) : clustersFor k t = n + 1 := by
  unfold clustersFor
  rcases Nat.eq_zero_or_pos e with rfl | hpos
  · have hzero := hstarted rfl
    subst hzero
    have hn : n = 0 := by
      rcases Nat.mul_eq_zero.mp (Nat.add_eq_zero_iff.mp hcount).1 with hn | hpow
      · exact hn
      · exact absurd hpow (Nat.two_pow_pos k).ne'
    rw [hn, Nat.zero_div]
  · have hpred : t - 1 = 2 ^ k * n + (e - 1) := by
      rw [Nat.mul_comm]
      omega
    rw [hpred, Nat.mul_add_div (Nat.two_pow_pos k), Nat.div_eq_of_lt (by omega), Nat.add_zero]

lemma frame (h : CountsClusters k (pool, heap) t) (hsequence : InSequence k (pool', heap') t)
    (hindex : pool'.frontElementIndex = pool.frontElementIndex)
    (hfree : pool'.freeClusters = pool.freeClusters) (hlut : pool'.clusterLut = pool.clusterLut) :
    CountsClusters k (pool', heap') t := by
  refine ⟨hsequence, ?_, ?_, ?_⟩
  · change pool'.frontElementIndex = 0 → t = 0
    rw [hindex]
    exact h.started
  · change pool'.freeClusters.n = 0
    rw [hfree]
    exact h.noneKept
  · change pool'.clusterLut.m = _
    rw [hlut]
    exact h.table

lemma changesIds (h : CountsClusters k (pool, heap) t) (hids : ChangesIds pool pool') :
    CountsClusters k (pool', heap) t := by
  have hsequence := h.sequence.changesIds hids
  obtain ⟨_, _, rfl⟩ := hids
  exact h.frame hsequence rfl rfl rfl

lemma store {block offset : ℕ} {bytes : List (Option (BitVec 8))}
    (h : CountsClusters k (pool, heap) t) (hstore : heap.store block offset bytes = .ok heap') :
    CountsClusters k (pool, heap') t := h.frame (h.sequence.store hstore) rfl rfl rfl

/-- The cluster after a full one. -/
lemma table_of_full {fresh : ℕ} (h : CountsClusters k (pool, heap) t)
    (hfull : pool.frontElementIndex = pool.elementsPerCluster)
    (hadd : addFrontCluster pool heap fresh = .ok (pool', heap')) :
    pool'.clusterLut.m = max 4 (2 ^ Nat.clog 2 (clustersFor k (t + 1))) := by
  obtain ⟨C, n, hC, -, hlen, hcount⟩ := h.sequence.clusters
  have hend : pool.frontElementIndex = 2 ^ k := hfull.trans h.sequence.geometry.elementsPerCluster
  change n * 2 ^ k + pool.frontElementIndex = t at hcount
  have hpos := Nat.two_pow_pos k
  have hbefore : clustersFor k t = n + 1 := clustersFor_eq hend.le hcount h.started
  have hafter : clustersFor k (t + 1) = n + 1 + 1 := by
    have hcount' : (n + 1) * 2 ^ k + 1 = t + 1 := by
      rw [hend] at hcount
      rw [Nat.succ_mul, hcount]
    exact clustersFor_eq (e := 1) Nat.one_le_two_pow hcount' nofun
  have htable : pool.clusterLut.m = max (2 ^ 2) (2 ^ Nat.clog 2 (n + 1)) := by
    rw [← hbefore]
    exact h.table
  have hsum := C.length_indices
  have hle := hC.indexCount_le
  have hm : pool.clusterLut.m = C.indexCount := hC.count
  rw [hlen] at hsum
  rw [(addFrontCluster_tables hadd).1, hC.unallocated.length, hafter]
  change _ = max (2 ^ 2) (2 ^ Nat.clog 2 (n + 1 + 1))
  rw [max_two_pow_clog_succ, ← htable]
  by_cases hnone : C.unallocated.length = 0
  · rw [if_pos hnone, if_pos (by omega), sizeMul_of_lt (by rw [sizeBits]; omega)]
    omega
  · rw [if_neg hnone, if_neg (by omega)]

lemma takeNextLocation {fresh location : ℕ} (h : CountsClusters k (pool, heap) t)
    (htake : takeNextLocation pool heap fresh = .ok (pool', heap', location)) :
    CountsClusters k (pool', heap') (t + 1) := by
  have hsequence := (h.sequence.takeNextLocation htake).1
  obtain ⟨mid, hnext, hadd, hstay⟩ := takeNextLocation_cases htake
  have hindex : pool'.frontElementIndex = sizeAdd mid.frontElementIndex 1 := by rw [hnext.next]
  have hfree : pool'.freeClusters = mid.freeClusters := by rw [hnext.next]
  have hlut : pool'.clusterLut = mid.clusterLut := by rw [hnext.next]
  by_cases hend : pool.frontElementIndex = pool.elementsPerCluster
  · have hmid := addsCluster_of_add (hadd hend)
    refine ⟨hsequence, ?_, ?_, ?_⟩
    · intro hzero
      change pool'.frontElementIndex = 0 at hzero
      rw [hindex, hmid.frontElementIndex] at hzero
      cases hzero
    · change pool'.freeClusters.n = 0
      rw [hfree]
      exact (addFrontCluster_tables (hadd hend)).2 h.noneKept
    · change pool'.clusterLut.m = _
      rw [hlut]
      exact h.table_of_full hend (hadd hend)
  · obtain ⟨rfl, rfl⟩ := hstay hend
    have hroom : mid.frontElementIndex < 2 ^ k := by
      refine lt_of_le_of_ne h.sequence.index_le fun he => ?_
      exact hend (he.trans h.sequence.geometry.elementsPerCluster.symm)
    rw [h.sequence.sizeAdd_index hroom] at hindex
    obtain ⟨C, n, -, -, -, hcount⟩ := h.sequence.clusters
    change n * 2 ^ k + mid.frontElementIndex = t at hcount
    have hbefore : clustersFor k t = n + 1 := clustersFor_eq hroom.le hcount h.started
    have hafter : clustersFor k (t + 1) = n + 1 :=
      clustersFor_eq (e := mid.frontElementIndex + 1) hroom (by omega) nofun
    refine ⟨hsequence, ?_, ?_, ?_⟩
    · intro hzero
      change pool'.frontElementIndex = 0 at hzero
      omega
    · change pool'.freeClusters.n = 0
      rw [hfree]
      exact h.noneKept
    · change pool'.clusterLut.m = _
      rw [hlut, hafter, ← hbefore]
      exact h.table

lemma step {s s' : MpPool × Heap} {op : PoolOp} {taken : Option Taken} (h : CountsClusters k s t)
    (hkeeps : op.KeepsClusters) (hs : poolStep s op = .ok (s', taken)) :
    CountsClusters k s' (if op.takes then t + 1 else t) := by
  obtain ⟨pool, heap⟩ := s
  cases op with
  | addFrontCluster fresh => exact hkeeps.elim
  | removeBackCluster => exact hkeeps.elim
  | takeNextLocation fresh =>
    obtain ⟨r, hr, hresult⟩ := bind_eq_ok.mp hs
    cases hresult
    exact h.takeNextLocation hr
  | alloc fresh =>
    obtain ⟨_, -, hs⟩ := bind_eq_ok.mp hs
    obtain ⟨made, hmade, hresult⟩ := bind_eq_ok.mp hs
    cases hresult
    obtain ⟨mid, heap₁, _, _, _, _, hmid, hpop, -, hstore, -⟩ := mpAlloc_cases hmade
    exact ((h.takeNextLocation hmid).changesIds (changesIds_of_popId hpop)).store hstore
  | free id =>
    obtain ⟨r, hr, hresult⟩ := bind_eq_ok.mp hs
    cases hresult
    exact h.changesIds (changesIds_of_free hr)
  | set id bytes =>
    obtain ⟨r, hr, hresult⟩ := bind_eq_ok.mp hs
    cases hresult
    rcases mpSet_cases hr with ⟨hsame, -⟩ | ⟨_, _, _, -, -, hstore, -⟩
    · rw [hsame]
      exact h
    · exact h.store hstore

lemma run {s s' : MpPool × Heap} {ops : List PoolOp} {taken : List (Option Taken)}
    (h : CountsClusters k s t) (hkeeps : ∀ op ∈ ops, op.KeepsClusters)
    (hrun : runOps poolStep s ops = .ok (s', taken)) :
    CountsClusters k s' (t + ops.countP PoolOp.takes) := by
  induction ops generalizing s t taken with
  | nil =>
    obtain ⟨rfl, -⟩ := runOps_nil_ok.mp hrun
    exact h
  | cons op ops ih =>
    obtain ⟨mid, out, outs, hstep, hrest, -⟩ := runOps_cons_ok.mp hrun
    have hmid := h.step (hkeeps op List.mem_cons_self) hstep
    have hlast := ih hmid (fun o ho => hkeeps o (List.mem_cons_of_mem _ ho)) hrest
    rw [List.countP_cons, Nat.add_comm (ops.countP _), ← Nat.add_assoc]
    cases htakes : op.takes with
    | true =>
      rw [htakes] at hlast
      exact hlast
    | false =>
      rw [htakes] at hlast
      exact hlast

lemma usesClusters {s : MpPool × Heap} (h : CountsClusters k s t) :
    UsesClusters s.1 s.2 (clustersFor k t) := by
  obtain ⟨C, n, hC, horder, hlen, hcount⟩ := h.sequence.clusters
  have hn := clustersFor_eq h.sequence.index_le hcount h.started
  have hindices : C.allocated.map Prod.fst = List.range (clustersFor k t) := by
    rw [horder.map_fst, hlen, hn]
  have hfree : C.free = [] := by
    apply List.eq_nil_of_length_eq_zero
    rw [← hC.kept.count, h.noneKept]
  have howned : C.owned = C.allocated.map Prod.snd := by
    rw [Clusters.owned, hfree, List.append_nil]
  refine ⟨?_, h.table, C.allocated.map Prod.snd, ?_, ?_, ?_⟩
  · rw [hC.allocated.contents, hindices]
  · rw [← hindices]
    exact hC.reads
  · exact (List.nodup_append.mp C.blocks).1
  · intro b
    rw [hC.heap, howned]

end CountsClusters

lemma initPool_countsClusters {poolOut pool : MpPool} {heap : Heap} {settings : MpPoolSettings}
    {fresh : ℕ} (h : initPool poolOut settings fresh = .ok (pool, heap)) :
    CountsClusters (log2Envelope (BitVec.ofNat 64 settings.elementsPerCluster)) (pool, heap) 0 := by
  have hsequence := initPool_inSequence h
  obtain ⟨-, rfl, -⟩ := initPool_made h
  have hone : clustersFor (log2Envelope (BitVec.ofNat 64 settings.elementsPerCluster)) 0 = 1 := by
    rw [clustersFor, Nat.zero_div]
  refine ⟨hsequence, fun _ => rfl, rfl, ?_⟩
  rw [hone]
  rfl

/-- The memory of a pool depends on nothing but the number of locations that were taken. -/
theorem poolRun_usesClusters {poolOut : MpPool} {settings : MpPoolSettings} {fresh : ℕ}
    {ops : List PoolOp} {s : MpPool × Heap} {taken : List (Option Taken)}
    (hkeeps : ∀ op ∈ ops, op.KeepsClusters)
    (hrun : poolRun poolOut settings fresh ops = .ok (s, taken)) :
    UsesClusters s.1 s.2 ((ops.countP PoolOp.takes - 1) / s.1.elementsPerCluster + 1) := by
  obtain ⟨s₀, hinit, hops⟩ := bind_eq_ok.mp hrun
  have hlast := (initPool_countsClusters hinit).run hkeeps hops
  rw [Nat.zero_add] at hlast
  have hcount : s.1.elementsPerCluster = _ := hlast.sequence.geometry.elementsPerCluster
  rw [hcount]
  exact hlast.usesClusters

theorem poolRun_usesClusters_five :
    ∃ s taken, poolRun MpPool.zero ⟨2, 2, 1⟩ 1000 [.alloc 1008, .alloc 1008, .free 1, .alloc 1008,
        .alloc 1016, .takeNextLocation 1016] = .ok (s, taken) ∧ UsesClusters s.1 s.2 3 := by
  obtain ⟨⟨s, taken⟩, hrun⟩ := exists_of_isOk (x := poolRun MpPool.zero ⟨2, 2, 1⟩ 1000
    [.alloc 1008, .alloc 1008, .free 1, .alloc 1008, .alloc 1016, .takeNextLocation 1016]) rfl
  have hkeeps : ∀ op ∈ [PoolOp.alloc 1008, .alloc 1008, .free 1, .alloc 1008, .alloc 1016,
      .takeNextLocation 1016], op.KeepsClusters := by
    intro op hop
    simp only [List.mem_cons, List.not_mem_nil, or_false] at hop
    rcases hop with rfl | rfl | rfl | rfl | rfl | rfl <;> trivial
  have huses := poolRun_usesClusters hkeeps hrun
  cases hrun
  exact ⟨_, _, rfl, huses⟩

end Utilc
