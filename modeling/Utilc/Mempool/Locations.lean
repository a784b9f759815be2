import Utilc.Mempool.PoolRuns

/-!
# The locations that are handed out

As long as no cluster is removed, the clusters get the indices 0, 1, 2, ... and the front one fills up
before the next one comes, so the locations count up from 0. They are cut to `mp_id_t`, and after
65535 of them comes the value that stands for no location.
-/

namespace Utilc
open CLib

def PoolOp.takes : PoolOp → Bool
  | .takeNextLocation _ => true
  | .alloc _ => true
  | _ => false

def PoolOp.KeepsClusters : PoolOp → Prop
  | .addFrontCluster _ => False
  | .removeBackCluster => False
  | _ => True

/-- The locations differ, none stands for no element, and each gives back the indices it was made
of. -/
structure LocationsUnique (pool : MpPool) (taken : List Taken) : Prop where
  distinct : (taken.map Taken.location).Nodup
  notSentinel : ∀ t ∈ taken, t.location ≠ noLocation
  cluster : ∀ t ∈ taken, t.frontCluster = some (t.location >>> pool.clusterIndexOffset)
  element : ∀ t ∈ taken, t.elementIndex = t.location &&& pool.elementIndexMask

/-- Clusters of `2 ^ k` elements. -/
structure PoolGeometry.PowerOfTwo (G : PoolGeometry) (k : ℕ) : Prop where
  elementsPerCluster : G.elementsPerCluster = 2 ^ k
  clusterIndexOffset : G.clusterIndexOffset = k
  elementIndexMask : G.elementIndexMask = 2 ^ k - 1
  le : k ≤ 30

/-- The location taken after `t` others. -/
def nthTaken (k t : ℕ) : Taken := ⟨t % 2 ^ mpIdBits, some (t / 2 ^ k), t % 2 ^ k⟩

lemma PoolGeometry.PowerOfTwo.locationsUnique_iff {pool : MpPool} {k : ℕ}
    (h : pool.geometry.PowerOfTwo k) (n : ℕ) :
    LocationsUnique pool ((List.range n).map (nthTaken k)) ↔ n ≤ noLocation := by
  have hoffset : pool.clusterIndexOffset = k := h.clusterIndexOffset
  have hmask : pool.elementIndexMask = 2 ^ k - 1 := h.elementIndexMask
  constructor
  · intro hunique
    by_contra hlong
    have hmem : nthTaken k noLocation ∈ (List.range n).map (nthTaken k) :=
      List.mem_map_of_mem (List.mem_range.mpr (not_le.mp hlong))
    exact hunique.notSentinel _ hmem rfl
  · intro hn
    have hfits {t : ℕ} (ht : t < n) : t % 2 ^ mpIdBits = t := by
      apply Nat.mod_eq_of_lt
      unfold noLocation at hn
      omega
    refine ⟨?_, ?_, ?_, ?_⟩
    · have hid : ((List.range n).map (nthTaken k)).map Taken.location = List.range n := by
        rw [List.map_map]
        calc (List.range n).map (Taken.location ∘ nthTaken k)
            = (List.range n).map id :=
              List.map_congr_left fun t ht => hfits (List.mem_range.mp ht)
          _ = List.range n := List.map_id _
      rw [hid]
      exact List.nodup_range
    · intro t ht
      obtain ⟨i, hi, rfl⟩ := List.mem_map.mp ht
      have hlt := List.mem_range.mp hi
      change i % 2 ^ mpIdBits ≠ noLocation
      rw [hfits hlt]
      exact (hlt.trans_le hn).ne
    · intro t ht
      obtain ⟨i, hi, rfl⟩ := List.mem_map.mp ht
      change some (i / 2 ^ k) = some ((i % 2 ^ mpIdBits) >>> pool.clusterIndexOffset)
      rw [hfits (List.mem_range.mp hi), hoffset, Nat.shiftRight_eq_div_pow]
    · intro t ht
      obtain ⟨i, hi, rfl⟩ := List.mem_map.mp ht
      change i % 2 ^ k = (i % 2 ^ mpIdBits) &&& pool.elementIndexMask
      rw [hfits (List.mem_range.mp hi), hmask, Nat.and_two_pow_sub_one_eq_mod]

/-! ### Taking a location -/

/-- `t` locations have been taken: the clusters have the indices from 0 on, and all but the front one
are full. -/
structure InSequence (k : ℕ) (s : MpPool × Heap) (t : ℕ) : Prop where
  geometry : s.1.geometry.PowerOfTwo k
  clusters : ∃ C : Clusters ℕ, ∃ n, HoldsClusters s.1 s.2 C ∧ C.InOrder ∧
    C.allocated.length = n + 1 ∧ n * 2 ^ k + s.1.frontElementIndex = t
  index_le : s.1.frontElementIndex ≤ 2 ^ k

/-- The shift and the cut to `mp_id_t` keep the low bits of the count. -/
lemma packed_mod {k n e : ℕ} (hk : k ≤ 30) (he : e < 2 ^ k) :
    (n * 2 ^ k % 2 ^ sizeBits ||| e) % 2 ^ mpIdBits = (n * 2 ^ k + e) % 2 ^ mpIdBits := by
  have hsplit : 2 ^ sizeBits = 2 ^ k * 2 ^ (sizeBits - k) := by
    rw [← Nat.pow_add, Nat.add_sub_cancel' (by rw [sizeBits]; omega)]
  have hor : (n * 2 ^ k % 2 ^ sizeBits ||| e) = n * 2 ^ k % 2 ^ sizeBits + e := by
    rw [Nat.mul_comm n, hsplit, Nat.mul_mod_mul_left, Nat.two_pow_add_eq_or_of_lt he]
  have hdvd : 2 ^ mpIdBits ∣ 2 ^ sizeBits := Nat.pow_dvd_pow 2 (by decide)
  rw [hor, Nat.add_mod, Nat.mod_mod_of_dvd _ hdvd, ← Nat.add_mod]

/-- What is cut to `mp_id_t` is the number of elements before the one that is taken. -/
lemma TakesNext.location_eq {pool pool' : MpPool} {location k n : ℕ}
    (h : TakesNext pool pool' location) (hG : pool.geometry.PowerOfTwo k)
    (hroom : pool.frontElementIndex < 2 ^ k)
    (hread : readAt pool.allocatedClusterIndices.a
      (circbufFrontIndex pool.allocatedClusterIndices) = .ok n) :
    location = (n * 2 ^ k + pool.frontElementIndex) % 2 ^ mpIdBits := by
  have hk := hG.le
  have hoffset : pool.clusterIndexOffset = k := hG.clusterIndexOffset
  obtain ⟨front, shifted, hfront, hshl, hlocation⟩ := h.location
  rw [hread] at hfront
  cases hfront
  rw [hoffset, sizeShl, if_pos (by rw [sizeBits]; omega)] at hshl
  cases hshl
  rw [hlocation, packed_mod hk hroom]

namespace InSequence

variable {k t : ℕ} {pool pool' : MpPool} {heap heap' : Heap}

lemma frame (h : InSequence k (pool, heap) t) (hgeometry : pool'.geometry = pool.geometry)
    (hindex : pool'.frontElementIndex = pool.frontElementIndex)
    (hclusters : ∀ C : Clusters ℕ, HoldsClusters pool heap C → HoldsClusters pool' heap' C) :
    InSequence k (pool', heap') t := by
  obtain ⟨C, n, hC, horder, hlen, hcount⟩ := h.clusters
  refine ⟨?_, ⟨C, n, hclusters C hC, horder, hlen, ?_⟩, ?_⟩
  · rw [hgeometry]
    exact h.geometry
  · rw [hindex]
    exact hcount
  · rw [hindex]
    exact h.index_le

lemma changesIds (h : InSequence k (pool, heap) t) (hids : ChangesIds pool pool') :
    InSequence k (pool', heap) t := by
  have hindex : pool'.frontElementIndex = pool.frontElementIndex := by
    obtain ⟨_, _, rfl⟩ := hids
    rfl
  exact h.frame hids.geometry hindex fun _ hC => hC.of_changesIds hids

lemma store {block offset : ℕ} {bytes : List (Option (BitVec 8))} (h : InSequence k (pool, heap) t)
    (hstore : heap.store block offset bytes = .ok heap') : InSequence k (pool, heap') t :=
  h.frame rfl rfl fun _ hC => hC.of_store hstore

/-- A full front cluster is followed by the one with the next index. -/
lemma addFrontCluster {fresh : ℕ} (h : InSequence k (pool, heap) t)
    (hfull : pool.frontElementIndex = pool.elementsPerCluster)
    (hadd : addFrontCluster pool heap fresh = .ok (pool', heap')) :
    InSequence k (pool', heap') t ∧ pool'.frontElementIndex = 0 := by
  obtain ⟨C, n, hC, horder, hlen, hcount⟩ := h.clusters
  obtain ⟨C', hC', hfront⟩ := hC.of_addFrontCluster hadd
  have hframe := addsCluster_of_add hadd
  have hend : pool.frontElementIndex = 2 ^ k := hfull.trans h.geometry.elementsPerCluster
  refine ⟨⟨?_, ⟨C', n + 1, hC', hfront.inOrder horder, ?_, ?_⟩, ?_⟩, hframe.frontElementIndex⟩
  · rw [hframe.geometry]
    exact h.geometry
  · obtain ⟨p, hp⟩ := hfront.allocated
    rw [hp, List.length_append, List.length_singleton, hlen]
  · change (n + 1) * 2 ^ k + pool'.frontElementIndex = t
    change n * 2 ^ k + pool.frontElementIndex = t at hcount
    rw [hend] at hcount
    rw [hframe.frontElementIndex, Nat.succ_mul, Nat.add_zero]
    exact hcount
  · change pool'.frontElementIndex ≤ 2 ^ k
    rw [hframe.frontElementIndex]
    exact Nat.zero_le _

/-- The element index does not wrap. -/
lemma sizeAdd_index (h : InSequence k (pool, heap) t) (hroom : pool.frontElementIndex < 2 ^ k) :
    sizeAdd pool.frontElementIndex 1 = pool.frontElementIndex + 1 := by
  have hpow : 2 ^ k ≤ 2 ^ 30 := Nat.pow_le_pow_right Nat.two_pos h.geometry.le
  apply sizeAdd_of_lt
  rw [sizeBits]
  omega

/-- Taking an element of a front cluster that has room. -/
lemma takesNext {location : ℕ} (h : InSequence k (pool, heap) t)
    (hroom : pool.frontElementIndex < 2 ^ k) (hnext : TakesNext pool pool' location) :
    InSequence k (pool', heap) (t + 1) ∧ takenFrom pool' location = nthTaken k t := by
  obtain ⟨C, n, hC, horder, hlen, hcount⟩ := h.clusters
  change n * 2 ^ k + pool.frontElementIndex = t at hcount
  have hlast := horder.getLast?_fst hlen
  have hdiv : t / 2 ^ k = n := by
    rw [← hcount, Nat.mul_comm, Nat.mul_add_div (Nat.two_pow_pos k), Nat.div_eq_of_lt hroom,
      Nat.add_zero]
  have hmod : t % 2 ^ k = pool.frontElementIndex := by
    rw [← hcount, Nat.mul_comm, Nat.mul_add_mod, Nat.mod_eq_of_lt hroom]
  have hsucc := h.sizeAdd_index hroom
  have hlocation : location = t % 2 ^ mpIdBits := by
    rw [← hcount]
    exact hnext.location_eq h.geometry hroom (hC.allocated.readAt_front hlast)
  have hfields := hnext.next
  constructor
  · refine ⟨?_, ⟨C, n, hC.of_takesNext hnext, horder, hlen, ?_⟩, ?_⟩
    · rw [hnext.geometry]
      exact h.geometry
    · change n * 2 ^ k + pool'.frontElementIndex = t + 1
      simp only [hfields, hsucc]
      omega
    · change pool'.frontElementIndex ≤ 2 ^ k
      simp only [hfields, hsucc]
      exact hroom
  · have hcontents : circbufContents pool'.allocatedClusterIndices = C.allocated.map Prod.fst := by
      rw [hfields]
      exact hC.allocated.contents
    have hindex : pool'.frontElementIndex - 1 = pool.frontElementIndex := by
      simp only [hfields, hsucc, Nat.add_sub_cancel]
    rw [takenFrom, nthTaken, hcontents, hlast, hindex, hdiv, hmod, hlocation]

/-- `takeNextLocation` takes the next location in the sequence. -/
lemma takeNextLocation {fresh location : ℕ} (h : InSequence k (pool, heap) t)
    (htake : takeNextLocation pool heap fresh = .ok (pool', heap', location)) :
    InSequence k (pool', heap') (t + 1) ∧ takenFrom pool' location = nthTaken k t := by
  obtain ⟨mid, hnext, hadd, hstay⟩ := takeNextLocation_cases htake
  by_cases hend : pool.frontElementIndex = pool.elementsPerCluster
  · obtain ⟨hmid, hzero⟩ := h.addFrontCluster hend (hadd hend)
    apply hmid.takesNext _ hnext
    rw [hzero]
    exact Nat.two_pow_pos k
  · obtain ⟨rfl, rfl⟩ := hstay hend
    apply h.takesNext _ hnext
    have hne : mid.frontElementIndex ≠ 2 ^ k := fun he =>
      hend (he.trans h.geometry.elementsPerCluster.symm)
    exact lt_of_le_of_ne h.index_le hne

/-- What one call takes and how the sequence goes on. -/
lemma step {s s' : MpPool × Heap} {op : PoolOp} {taken : Option Taken} (h : InSequence k s t)
    (hkeeps : op.KeepsClusters) (hs : poolStep s op = .ok (s', taken)) :
    (op.takes = true → InSequence k s' (t + 1) ∧ taken = some (nthTaken k t)) ∧
      (op.takes = false → InSequence k s' t ∧ taken = none) := by
  obtain ⟨pool, heap⟩ := s
  cases op with
  | addFrontCluster fresh => exact hkeeps.elim
  | removeBackCluster => exact hkeeps.elim
  | takeNextLocation fresh =>
    obtain ⟨r, hr, hresult⟩ := bind_eq_ok.mp hs
    cases hresult
    obtain ⟨hnext, htaken⟩ := h.takeNextLocation hr
    exact ⟨fun _ => ⟨hnext, congrArg some htaken⟩, fun hfalse => (nomatch hfalse)⟩
  | alloc fresh =>
    obtain ⟨r, hr, hs⟩ := bind_eq_ok.mp hs
    obtain ⟨made, hmade, hresult⟩ := bind_eq_ok.mp hs
    cases hresult
    obtain ⟨hnext, htaken⟩ := h.takeNextLocation hr
    obtain ⟨mid, heap₁, location, _, _, _, hmid, hpop, -, hstore, -⟩ := mpAlloc_cases hmade
    rw [hr] at hmid
    cases hmid
    refine ⟨fun _ => ⟨?_, congrArg some htaken⟩, fun hfalse => (nomatch hfalse)⟩
    exact (hnext.changesIds (changesIds_of_popId hpop)).store hstore
  | free id =>
    obtain ⟨r, hr, hresult⟩ := bind_eq_ok.mp hs
    cases hresult
    exact ⟨fun htrue => (nomatch htrue), fun _ => ⟨h.changesIds (changesIds_of_free hr), rfl⟩⟩
  | set id bytes =>
    obtain ⟨r, hr, hresult⟩ := bind_eq_ok.mp hs
    cases hresult
    refine ⟨fun htrue => (nomatch htrue), fun _ => ⟨?_, rfl⟩⟩
    rcases mpSet_cases hr with ⟨hsame, -⟩ | ⟨_, _, _, -, -, hstore, -⟩
    · rw [hsame]
      exact h
    · exact h.store hstore

/-- In a run the locations come in order. -/
lemma run {s s' : MpPool × Heap} {ops : List PoolOp} {taken : List (Option Taken)}
    (h : InSequence k s t) (hkeeps : ∀ op ∈ ops, op.KeepsClusters)
    (hrun : runOps poolStep s ops = .ok (s', taken)) :
    InSequence k s' (t + ops.countP PoolOp.takes) ∧
      taken.filterMap id = (List.range' t (ops.countP PoolOp.takes)).map (nthTaken k) := by
  induction ops generalizing s t taken with
  | nil =>
    obtain ⟨rfl, rfl⟩ := runOps_nil_ok.mp hrun
    exact ⟨h, rfl⟩
  | cons op ops ih =>
    obtain ⟨mid, out, outs, hstep, hrest, rfl⟩ := runOps_cons_ok.mp hrun
    have hkeeps' : ∀ o ∈ ops, o.KeepsClusters := fun o ho => hkeeps o (List.mem_cons_of_mem _ ho)
    obtain ⟨htake, hother⟩ := h.step (hkeeps op List.mem_cons_self) hstep
    cases htakes : op.takes with
    | true =>
      obtain ⟨hmid, rfl⟩ := htake htakes
      obtain ⟨hlast, houts⟩ := ih hmid hkeeps' hrest
      rw [List.countP_cons_of_pos htakes]
      constructor
      · rwa [Nat.add_assoc, Nat.add_comm 1] at hlast
      · rw [List.filterMap_cons_some (f := id) rfl, houts, List.range'_succ, List.map_cons]
    | false =>
      obtain ⟨hmid, rfl⟩ := hother htakes
      obtain ⟨hlast, houts⟩ := ih hmid hkeeps' hrest
      have hneg : ¬op.takes = true := by
        rw [htakes]
        exact Bool.false_ne_true
      rw [List.countP_cons_of_neg hneg]
      refine ⟨hlast, ?_⟩
      rw [List.filterMap_cons_none (f := id) rfl, houts]

/-- Nothing goes wrong while the front cluster has room. -/
lemma takeNextLocation_of_room (h : InSequence k (pool, heap) t) (fresh : ℕ)
    (hroom : pool.frontElementIndex < 2 ^ k) :
    ∃ pool' location, Utilc.takeNextLocation pool heap fresh = .ok (pool', heap, location) ∧
      pool'.frontElementIndex = pool.frontElementIndex + 1 := by
  obtain ⟨C, n, hC, horder, hlen, -⟩ := h.clusters
  have hk := h.geometry.le
  have hend : ¬(pool.frontElementIndex == pool.elementsPerCluster) = true := by
    rw [beq_iff_eq]
    exact (hroom.trans_eq h.geometry.elementsPerCluster.symm).ne
  have hlast := horder.getLast?_fst hlen
  have hoffset : pool.clusterIndexOffset < sizeBits := by
    have hle : pool.clusterIndexOffset = k := h.geometry.clusterIndexOffset
    rw [hle, sizeBits]
    omega
  simp only [Utilc.takeNextLocation, if_neg hend, ok_bind, hC.allocated.readAt_front hlast, sizeShl,
    if_pos hoffset, pure_eq_ok]
  exact ⟨_, _, rfl, h.sizeAdd_index hroom⟩

lemma runs_of_room {s : MpPool × Heap} {n : ℕ} (h : InSequence k s t) (fresh : ℕ)
    (hroom : s.1.frontElementIndex + n ≤ 2 ^ k) :
    ∃ s' taken, runOps poolStep s (List.replicate n (.takeNextLocation fresh)) =
      .ok (s', taken) := by
  induction n generalizing s t with
  | zero => exact ⟨s, [], rfl⟩
  | succ n ih =>
    obtain ⟨pool, heap⟩ := s
    change pool.frontElementIndex + (n + 1) ≤ 2 ^ k at hroom
    obtain ⟨pool', location, htake, hindex⟩ := h.takeNextLocation_of_room fresh (by omega)
    have hnext := (h.takeNextLocation htake).1
    have hroom' : pool'.frontElementIndex + n ≤ 2 ^ k := by
      rw [hindex]
      omega
    obtain ⟨s', taken, hrest⟩ := ih hnext hroom'
    have hstep : poolStep (pool, heap) (.takeNextLocation fresh) =
        .ok ((pool', heap), some (takenFrom pool' location)) := by
      simp only [poolStep, htake, ok_bind, pure_eq_ok]
    exact ⟨s', _, runOps_cons_ok.mpr ⟨_, _, _, hstep, hrest, rfl⟩⟩

end InSequence

/-! ### Runs from `mp_init` -/

lemma initPool_inSequence {poolOut pool : MpPool} {heap : Heap} {settings : MpPoolSettings}
    {fresh : ℕ} (h : initPool poolOut settings fresh = .ok (pool, heap)) :
    InSequence (log2Envelope (BitVec.ofNat 64 settings.elementsPerCluster)) (pool, heap) 0 := by
  obtain ⟨C, hC, hfront⟩ := initPool_holdsClusters h
  obtain ⟨hlog2, rfl, -⟩ := initPool_made h
  obtain ⟨p, hp⟩ := hfront.allocated
  refine ⟨⟨rfl, rfl, rfl, hlog2⟩, ⟨C, 0, hC, hfront.inOrder rfl, ?_, ?_⟩, Nat.zero_le _⟩
  · rw [hp]
    rfl
  · rw [Nat.zero_mul, Nat.zero_add]
    rfl

/-- Among the calls that complete on the pool that `mp_init` makes of accepted settings, the locations
are unique and decodable for exactly those with an `mp_init` that completes, and with no more locations
than there are values of `mp_id_t` beside the one for no element. -/
theorem mp_locationsUnique_iff {poolOut : MpPool} {settings : MpPoolSettings} {fresh : ℕ}
    {ops : List PoolOp} (haccepted : testInitSettingsArg settings = none)
    (hcount : settings.elementsPerCluster < 2 ^ sizeBits) (hkeeps : ∀ op ∈ ops, op.KeepsClusters)
    (hcalls : ∀ s, initPool poolOut settings fresh = .ok s →
      ∃ s' taken, runOps poolStep s ops = .ok (s', taken)) :
    (∃ s taken, poolRun poolOut settings fresh ops = .ok (s, taken) ∧
      LocationsUnique s.1 (taken.filterMap id)) ↔
      settings.elementsPerCluster ≤ 2 ^ 30 ∧ ops.countP PoolOp.takes ≤ noLocation := by
  have hiff : ∀ {s taken}, poolRun poolOut settings fresh ops = .ok (s, taken) →
      (LocationsUnique s.1 (taken.filterMap id) ↔ ops.countP PoolOp.takes ≤ noLocation) := by
    intro s taken hrun
    obtain ⟨s₀, hinit, hops⟩ := bind_eq_ok.mp hrun
    obtain ⟨hlast, htaken⟩ := (initPool_inSequence hinit).run hkeeps hops
    rw [htaken, ← List.range_eq_range']
    exact hlast.geometry.locationsUnique_iff _
  rw [← initPool_completes_iff poolOut fresh haccepted hcount]
  constructor
  · rintro ⟨s, taken, hrun, hunique⟩
    obtain ⟨s₀, hinit, -⟩ := bind_eq_ok.mp hrun
    exact ⟨⟨s₀, hinit⟩, (hiff hrun).mp hunique⟩
  · rintro ⟨⟨s₀, hinit⟩, hfew⟩
    obtain ⟨s, taken, hops⟩ := hcalls s₀ hinit
    have hrun : poolRun poolOut settings fresh ops = .ok (s, taken) := by
      rw [poolRun, hinit, ok_bind, hops]
    exact ⟨s, taken, hrun, (hiff hrun).mpr hfew⟩

theorem mp_locationsUnique_iff_four :
    ∃ s taken, poolRun MpPool.zero ⟨2, 2, 2⟩ 1000 [.takeNextLocation 1008, .takeNextLocation 1008,
        .alloc 1016, .free 1, .takeNextLocation 1024] = .ok (s, taken) ∧
      LocationsUnique s.1 (taken.filterMap id) := by
  obtain ⟨⟨s, taken⟩, hrun⟩ := exists_of_isOk (x := poolRun MpPool.zero ⟨2, 2, 2⟩ 1000
    [.takeNextLocation 1008, .takeNextLocation 1008, .alloc 1016, .free 1,
      .takeNextLocation 1024]) rfl
  have hkeeps : ∀ op ∈ [PoolOp.takeNextLocation 1008, .takeNextLocation 1008, .alloc 1016, .free 1,
      .takeNextLocation 1024], op.KeepsClusters := by
    intro op hop
    simp only [List.mem_cons, List.not_mem_nil, or_false] at hop
    rcases hop with rfl | rfl | rfl | rfl | rfl <;> trivial
  refine (mp_locationsUnique_iff rfl (by decide) hkeeps fun s₀ hinit => ⟨s, taken, ?_⟩).mpr
    ⟨by decide, by decide⟩
  rwa [poolRun, hinit, ok_bind] at hrun

/-- The last element of a cluster of 65536 has the location that stands for no element. -/
theorem takeNextLocation_noLocation :
    ∃ s taken, poolRun MpPool.zero ⟨1, 65536, 0⟩ 1000
        (List.replicate 65536 (.takeNextLocation 1008)) = .ok (s, taken) ∧
      ⟨noLocation, some 0, 65535⟩ ∈ taken.filterMap id ∧
      ¬LocationsUnique s.1 (taken.filterMap id) := by
  obtain ⟨heap, hinit⟩ : ∃ heap, initPool MpPool.zero ⟨1, 65536, 0⟩ 1000 =
      .ok (madePool ⟨1, 65536, 0⟩ 1000, heap) := initPool_of_accepted _ _ rfl (by decide)
  have hlog2 : log2Envelope (BitVec.ofNat 64 65536) = 16 := by decide
  have hstart := initPool_inSequence hinit
  rw [hlog2] at hstart
  have hroom : (madePool ⟨1, 65536, 0⟩ 1000).frontElementIndex + 65536 ≤ 2 ^ 16 := by decide
  have htakes : (PoolOp.takeNextLocation 1008).takes = true := rfl
  obtain ⟨s, taken, hops⟩ : ∃ s taken, runOps poolStep (madePool ⟨1, 65536, 0⟩ 1000, heap)
      (List.replicate 65536 (.takeNextLocation 1008)) = .ok (s, taken) :=
    hstart.runs_of_room 1008 hroom
  have hkeeps : ∀ op ∈ List.replicate 65536 (PoolOp.takeNextLocation 1008), op.KeepsClusters := by
    intro op hop
    rw [List.eq_of_mem_replicate hop]
    trivial
  obtain ⟨hlast, htaken⟩ := hstart.run hkeeps hops
  rw [List.countP_replicate, if_pos htakes, ← List.range_eq_range'] at htaken
  refine ⟨s, taken, ?_, ?_, ?_⟩
  · rw [poolRun, hinit, ok_bind, hops]
  · have hlastTaken : nthTaken 16 65535 = ⟨noLocation, some 0, 65535⟩ := by decide
    rw [htaken, ← hlastTaken]
    exact List.mem_map_of_mem (List.mem_range.mpr (Nat.lt_succ_self 65535))
  · rw [htaken, hlast.geometry.locationsUnique_iff]
    decide

end Utilc
