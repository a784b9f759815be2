import Utilc.CLib.Refines
import Utilc.Idxpyr.Allocator
import Utilc.Mempool.Ids
import Utilc.Mempool.Usage

/-!
# What a pool gives out

`mp_init` makes the table of locations with 16 cells and counts none of them. So a pool gives out the
ids 1 to 15, then 0, and then writes behind the table, and whatever it has given out, no call that takes
an id ever finds an element.
-/

namespace Utilc
open CLib

/-- The id that `mp_alloc` gives out after `t` others. -/
def idAfter (t : ℕ) : ℕ := if t < 15 then t + 1 else 0

/-- What a caller sees who counts his allocations: 15 ids in order, then 0, and then a fault. An id is
never found. -/
def dispenseStep (t : ℕ) : MpOp → Option (ℕ × MpResult)
  | .alloc _ => if t < 16 then some (t + 1, .id (idAfter t)) else none
  | .free id => if id ≠ 0 then some (t, .error (some .invalidId)) else none

/-- The calls that take the id say that there is no such element, and change nothing. -/
structure FindsNothing (pool : MpPool) (heap : Heap) (id : ℕ) : Prop where
  exist : mpIdExists pool id = .ok false
  free : mpFree pool id = .ok (pool, some .invalidId)
  get : mpGet pool heap id = .ok (.error .invalidId)
  getPtr : mpGetPtr pool id = .ok (.error .invalidId)
  set : ∀ bytes, mpSet pool heap id bytes = .ok (heap, some .invalidId)

/-! ### The tables of the ids -/

/-- The tables after `t` ids were given out. The sixteenth id is the first one to be counted. -/
structure GaveIds (pool : MpPool) (t : ℕ) : Prop where
  le : t ≤ 16
  count : pool.locationLut.n = t - 15
  max : pool.locationLut.m = 16
  cells : pool.locationLut.a.length = 16
  ids : ∃ (P : Pyramid) (A : BoolArray), pool.freeIds = P.toIdxpyr ∧ Represents P A ∧
    MarksFree A (Finset.range (min (t + 1) 16)) ∧ A.log2 = if t < 16 then 4 else 5

lemma leastFree_range (m : ℕ) : leastFree (Finset.range m) = m := by
  apply (isLeast_leastFree (Finset.range m)).unique
  refine ⟨fun hm => lt_irrefl m (Finset.mem_range.mp hm), fun i hi => ?_⟩
  exact not_lt.mp fun hlt => hi (Finset.mem_range.mpr hlt)

lemma marksFree_setAll (n : ℕ) : MarksFree ((BoolArray.make n true).setAll true) ∅ := by
  refine ⟨rfl, fun i hi => absurd hi (Finset.notMem_empty i), fun i => ?_⟩
  rw [BoolArray.mem_trues_setAll]
  simp only [true_and, Finset.notMem_empty, not_false_eq_true, and_true]
  rfl

/-- `mp_init` leaves all ids but 0. -/
lemma gaveIds_madePool (settings : MpPoolSettings) (fresh : ℕ) :
    GaveIds (madePool settings fresh) 0 := by
  refine ⟨Nat.zero_le 16, rfl, rfl, rfl, ?_⟩
  obtain ⟨P, hmake, hP⟩ := represents_make (le_refl 4) (by omega) true
  obtain ⟨Q, hall, hQ⟩ := represents_setAll hP true
  have hpos : 0 < 2 ^ Q.indexCountLog2 := Nat.two_pow_pos _
  obtain ⟨S, hset, hS⟩ := represents_set hQ hpos false
  have hrun : (do
      let freeIds ← idxpyrMake blockBitCountLog2 true
      let freeIds ← idxpyrSetAll freeIds true
      idxpyrSet freeIds 0 false) = .ok S.toIdxpyr := by
    have hlog2 : blockBitCountLog2 = 4 := blockBitCountLog2_eq
    rw [hlog2, hmake, ok_bind, hall, ok_bind, hset]
  rw [initialIds_eq] at hrun
  have hmarks := (marksFree_setAll 4).pop (Nat.two_pow_pos _ : 0 < 2 ^ 4)
  exact ⟨S, _, Except.ok.inj hrun, hS, hmarks, rfl⟩

namespace GaveIds

variable {pool pool' : MpPool} {heap heap' : Heap} {t : ℕ}

lemma frame (h : GaveIds pool t) (hlut : pool'.locationLut = pool.locationLut)
    (hids : pool'.freeIds = pool.freeIds) : GaveIds pool' t := by
  obtain ⟨hle, hcount, hmax, hcells, hpyramid⟩ := h
  rw [← hlut] at hcount hmax hcells
  rw [← hids] at hpyramid
  exact ⟨hle, hcount, hmax, hcells, hpyramid⟩

/-! ### Giving out an id -/

/-- One of the first 15 ids comes from the pyramid. -/
lemma popId_of_lt (h : GaveIds pool t) (ht : t < 15) (location : ℕ) :
    ∃ pool', popId pool location = .ok (pool', t + 1) ∧ GaveIds pool' (t + 1) := by
  obtain ⟨P, A, hpyr, hA, hmarks, hlog2⟩ := h.ids
  rw [min_eq_left (by omega)] at hmarks
  rw [if_pos (by omega)] at hlog2
  have hlt : leastFree (Finset.range (t + 1)) < 2 ^ A.log2 := by
    rw [leastFree_range, hlog2]
    omega
  have hfirst := hmarks.first?_of_lt hlt
  rw [leastFree_range] at hfirst hlt
  obtain ⟨Q, hpop, hQ, hne⟩ := popFirst_some hA hfirst
  have hcell : t + 1 < pool.locationLut.a.length := by
    rw [h.cells]
    omega
  refine ⟨{ pool with
    freeIds := Q.toIdxpyr
    locationLut := { pool.locationLut with
      a := pool.locationLut.a.set (t + 1) (some location) } }, ?_, ?_⟩
  · simp only [popId, hpyr, hpop, ok_bind, if_neg hne, kvAssign_of_lt hcell, pure_eq_ok]
  · have hcount : pool.locationLut.n = t + 1 - 15 := by
      rw [h.count]
      omega
    refine ⟨by omega, hcount, h.max, List.length_set.trans h.cells, Q, _, rfl, hQ, ?_, ?_⟩
    · rw [min_eq_left (by omega), Finset.range_add_one]
      exact hmarks.pop hlt
    · rw [if_pos (by omega)]
      exact hlog2

/-- The pyramid has no id left: the sixteenth one is the number of locations that are counted. -/
lemma popId_fifteen (h : GaveIds pool 15) (location : ℕ) :
    ∃ pool', popId pool location = .ok (pool', 0) ∧ GaveIds pool' 16 := by
  obtain ⟨P, A, hpyr, hA, hmarks, hlog2⟩ := h.ids
  have hrange : Finset.range (min (15 + 1) 16) = Finset.range 16 := rfl
  have hlog2' : A.log2 = 4 := hlog2
  rw [hrange] at hmarks
  have hge : ¬leastFree (Finset.range 16) < 2 ^ A.log2 := by
    rw [leastFree_range, hlog2']
    decide
  have hpop := popFirst_none hA (hmarks.first?_of_not_lt hge)
  have h60 : P.indexCountLog2 + 1 ≤ 60 := by
    rw [← hA.log2, hlog2']
    decide
  obtain ⟨B, hgrow, hB⟩ := represents_increaseSize hA h60
  obtain ⟨Q, hset, hQ⟩ := represents_set hB (Nat.two_pow_pos _ : 0 < 2 ^ B.indexCountLog2) false
  have hzero : pool.locationLut.n = 0 := h.count
  have hcell : 0 < pool.locationLut.a.length := by
    rw [h.cells]
    decide
  have hpush : kvPush sizeofMpId pool.locationLut location =
      .ok { pool.locationLut with n := 1, a := pool.locationLut.a.set 0 (some location) } := by
    have hroom : ¬pool.locationLut.n = pool.locationLut.m := by
      rw [hzero, h.max]
      decide
    have hwrite : writeAt pool.locationLut.a pool.locationLut.n (some location) =
        .ok (pool.locationLut.a.set 0 (some location)) := by rw [hzero, writeAt_of_lt hcell]
    simp only [kvPush, if_neg hroom, kvStaticPush, hwrite, ok_bind, pure_eq_ok]
    rw [hzero]
    rfl
  refine ⟨{ pool with
    locationLut := { pool.locationLut with n := 1, a := pool.locationLut.a.set 0 (some location) }
    freeIds := Q.toIdxpyr }, ?_, ?_⟩
  · have hfits : 0 % 2 ^ mpIdBits = 0 := rfl
    have hlast : sizeSub 1 1 = 0 := rfl
    simp only [popId, newId, hpyr, hpop, ok_bind, if_true, hzero, hfits, require_of, hpush, hgrow,
      hlast, hset, pure_eq_ok]
  · refine ⟨le_rfl, rfl, h.max, List.length_set.trans h.cells, Q, _, rfl, hQ, ?_, ?_⟩
    · have hpos : 0 < 2 ^ A.grow.log2 := Nat.two_pow_pos _
      have hinsert : insert 0 (Finset.range 16) = Finset.range (min (16 + 1) 16) := by decide
      rw [← hinsert]
      exact hmarks.grow.pop hpos
    · change A.log2 + 1 = 5
      rw [hlog2']

/-- The next id of the pyramid has no cell. -/
lemma popId_fault (h : GaveIds pool 16) (location : ℕ) :
    popId pool location = .error .outOfBounds := by
  obtain ⟨P, A, hpyr, hA, hmarks, hlog2⟩ := h.ids
  have hrange : Finset.range (min (16 + 1) 16) = Finset.range 16 := rfl
  have hlog2' : A.log2 = 5 := hlog2
  rw [hrange] at hmarks
  have hlt : leastFree (Finset.range 16) < 2 ^ A.log2 := by
    rw [leastFree_range, hlog2']
    decide
  have hfirst := hmarks.first?_of_lt hlt
  rw [leastFree_range] at hfirst
  obtain ⟨Q, hpop, -, hne⟩ := popFirst_some hA hfirst
  have hcell : ¬16 < pool.locationLut.a.length := by
    rw [h.cells]
    decide
  have hfault : kvAssign pool.locationLut 16 location = .error .outOfBounds := by
    rw [kvAssign, writeAt, if_neg hcell]
    rfl
  simp only [Utilc.popId, hpyr, hpop, ok_bind, if_neg hne, hfault, error_bind]

lemma popId (h : GaveIds pool t) (ht : t < 16) (location : ℕ) :
    ∃ pool', popId pool location = .ok (pool', idAfter t) ∧ GaveIds pool' (t + 1) := by
  unfold idAfter
  by_cases hlt : t < 15
  · rw [if_pos hlt]
    exact h.popId_of_lt hlt location
  · have hlast : t = 15 := by omega
    subst hlast
    exact h.popId_fifteen location

lemma of_mpAlloc {fresh id : ℕ} (h : GaveIds pool t)
    (halloc : mpAlloc pool heap fresh = .ok (pool', heap', id)) :
    t < 16 ∧ id = idAfter t ∧ GaveIds pool' (t + 1) := by
  obtain ⟨mid, heap₁, location, popped, _, _, htake, hpop, -, -, hid⟩ := mpAlloc_cases halloc
  obtain ⟨hlut, hids⟩ := takeNextLocation_ids htake
  have hmid := h.frame hlut hids
  by_cases ht : t < 16
  · obtain ⟨next, hnext, hgave⟩ := hmid.popId ht location
    rw [hnext] at hpop
    cases hpop
    refine ⟨ht, ?_, hgave⟩
    rw [hid]
    apply Nat.mod_eq_of_lt
    unfold idAfter mpIdBits
    split <;> omega
  · have hlast : t = 16 := le_antisymm h.le (not_lt.mp ht)
    subst hlast
    rw [hmid.popId_fault] at hpop
    cases hpop

/-! ### Finding an id -/

lemma idExists (h : GaveIds pool t) {id : ℕ} (hid : id ≠ 0) : idExists pool id = .ok false := by
  have hle := h.le
  have hcount := h.count
  rw [Utilc.idExists, if_neg (by omega)]

lemma findsNothing (h : GaveIds pool t) (heap : Heap) {id : ℕ} (hid : id ≠ 0) :
    FindsNothing pool heap id := by
  have htest : testIdExists pool id = .ok (some .invalidId) := by
    simp only [testIdExists, require_of hid, ok_bind, h.idExists hid]
    rfl
  have hmissing : findElement pool id = .ok (.error .invalidId) := by
    simp only [findElement, htest, ok_bind, pure_eq_ok]
  refine ⟨h.idExists hid, ?_, ?_, hmissing, fun bytes => ?_⟩
  · simp only [mpFree, htest, ok_bind, pure_eq_ok]
  · simp only [mpGet, hmissing, ok_bind, pure_eq_ok]
  · simp only [mpSet, hmissing, ok_bind, pure_eq_ok]

/-! ### Runs of all calls -/

lemma of_removeBackCluster (h : GaveIds pool t)
    (hremove : removeBackCluster pool heap = .ok (pool', heap')) : GaveIds pool' t := by
  obtain ⟨_, -, hrest⟩ := bind_eq_ok.mp hremove
  obtain ⟨_, -, hrest⟩ := bind_eq_ok.mp hrest
  obtain ⟨_, -, hrest⟩ := bind_eq_ok.mp hrest
  obtain ⟨back, -, hrest⟩ := bind_eq_ok.mp hrest
  by_cases hfull : !kvFull pool.freeClusters
  · simp only [if_pos hfull] at hrest
    obtain ⟨_, -, hrest⟩ := bind_eq_ok.mp hrest
    cases hrest
    exact h.frame rfl rfl
  · simp only [if_neg hfull] at hrest
    obtain ⟨_, -, hrest⟩ := bind_eq_ok.mp hrest
    cases hrest
    exact h.frame rfl rfl

lemma of_mpFree {id : ℕ} {error : Option MpError} (h : GaveIds pool t)
    (hfree : mpFree pool id = .ok (pool', error)) : pool' = pool := by
  by_cases hid : id = 0
  · have hzero : ¬id ≠ 0 := not_not.mpr hid
    simp only [mpFree, testIdExists, require_of_not hzero, error_bind, reduceCtorEq] at hfree
  · rw [(h.findsNothing Heap.empty hid).free] at hfree
    cases hfree
    rfl

end GaveIds

def PoolOp.allocates : PoolOp → Bool
  | .alloc _ => true
  | _ => false

lemma GaveIds.step {s s' : MpPool × Heap} {op : PoolOp} {taken : Option Taken} {t : ℕ}
    (h : GaveIds s.1 t) (hs : poolStep s op = .ok (s', taken)) :
    GaveIds s'.1 (if op.allocates then t + 1 else t) := by
  cases op with
  | addFrontCluster fresh =>
    obtain ⟨r, hr, hresult⟩ := bind_eq_ok.mp hs
    cases hresult
    have hadd := addsCluster_of_add hr
    exact h.frame hadd.locationLut hadd.freeIds
  | removeBackCluster =>
    obtain ⟨r, hr, hresult⟩ := bind_eq_ok.mp hs
    cases hresult
    exact h.of_removeBackCluster hr
  | takeNextLocation fresh =>
    obtain ⟨r, hr, hresult⟩ := bind_eq_ok.mp hs
    cases hresult
    obtain ⟨hlut, hids⟩ := takeNextLocation_ids hr
    exact h.frame hlut hids
  | alloc fresh =>
    obtain ⟨_, -, hs⟩ := bind_eq_ok.mp hs
    obtain ⟨r, hr, hresult⟩ := bind_eq_ok.mp hs
    cases hresult
    exact (h.of_mpAlloc hr).2.2
  | free id =>
    obtain ⟨r, hr, hresult⟩ := bind_eq_ok.mp hs
    cases hresult
    change GaveIds r.1 t
    rw [h.of_mpFree hr]
    exact h
  | set id bytes =>
    obtain ⟨r, hr, hresult⟩ := bind_eq_ok.mp hs
    cases hresult
    exact h

lemma GaveIds.run {s s' : MpPool × Heap} {ops : List PoolOp} {taken : List (Option Taken)} {t : ℕ}
    (h : GaveIds s.1 t) (hrun : runOps poolStep s ops = .ok (s', taken)) :
    GaveIds s'.1 (t + ops.countP PoolOp.allocates) := by
  induction ops generalizing s t taken with
  | nil =>
    obtain ⟨rfl, -⟩ := runOps_nil_ok.mp hrun
    exact h
  | cons op ops ih =>
    obtain ⟨mid, out, outs, hstep, hrest, -⟩ := runOps_cons_ok.mp hrun
    have hlast := ih (h.step hstep) hrest
    rw [List.countP_cons, Nat.add_comm (ops.countP _), ← Nat.add_assoc]
    cases hallocates : op.allocates with
    | true =>
      rw [hallocates] at hlast
      exact hlast
    | false =>
      rw [hallocates] at hlast
      exact hlast

/-- After any calls on a pool, the calls that take an id find no element, and `mp_alloc` was called at
most 16 times. -/
theorem poolRun_findsNothing {poolOut : MpPool} {settings : MpPoolSettings} {fresh : ℕ}
    {ops : List PoolOp} {s : MpPool × Heap} {taken : List (Option Taken)}
    (hrun : poolRun poolOut settings fresh ops = .ok (s, taken)) :
    ops.countP PoolOp.allocates ≤ 16 ∧ ∀ id ≠ 0, FindsNothing s.1 s.2 id := by
  obtain ⟨⟨pool, heap⟩, hinit, hops⟩ := bind_eq_ok.mp hrun
  obtain ⟨-, rfl, -⟩ := initPool_made hinit
  have hlast := GaveIds.run (gaveIds_madePool settings fresh) hops
  rw [Nat.zero_add] at hlast
  exact ⟨hlast.le, fun id hid => hlast.findsNothing s.2 hid⟩

theorem poolRun_findsNothing_two :
    ∃ s taken, poolRun MpPool.zero ⟨2, 2, 1⟩ 1000 [.alloc 1008, .alloc 1008, .free 1] =
        .ok (s, taken) ∧ FindsNothing s.1 s.2 2 := by
  obtain ⟨⟨s, taken⟩, hrun⟩ := exists_of_isOk
    (x := poolRun MpPool.zero ⟨2, 2, 1⟩ 1000 [.alloc 1008, .alloc 1008, .free 1]) rfl
  exact ⟨s, taken, hrun, (poolRun_findsNothing hrun).2 2 (by decide)⟩

/-! ### Runs of `mp_alloc` and `mp_free` -/

/-- `malloc` returns an address that is not live. -/
def MpAllowed (s : MpPool × Heap) : MpOp → Prop
  | .alloc fresh => ¬s.2.Live fresh
  | .free _ => True

/-- What holds after `t` allocations. -/
structure AfterAllocs (G : PoolGeometry) (k : ℕ) (s : MpPool × Heap) (t : ℕ) : Prop where
  geometry : G.Exact k
  good : GoodPool G s
  counts : CountsClusters k s t
  ids : GaveIds s.1 t

lemma takeNextLocation_of_full {pool mid : MpPool} {heap heap' : Heap} {fresh : ℕ}
    (hfull : pool.frontElementIndex = pool.elementsPerCluster)
    (hadd : addFrontCluster pool heap fresh = .ok (mid, heap'))
    (hroom : mid.frontElementIndex ≠ mid.elementsPerCluster) :
    takeNextLocation pool heap fresh = takeNextLocation mid heap' fresh := by
  have hend : (pool.frontElementIndex == pool.elementsPerCluster) = true := beq_iff_eq.mpr hfull
  have hmid : ¬(mid.frontElementIndex == mid.elementsPerCluster) = true :=
    fun he => hroom (beq_iff_eq.mp he)
  simp only [takeNextLocation, if_pos hend, if_neg hmid, hadd, ok_bind]

/-- There is a location after few others, if `malloc` has a block. -/
lemma CountsClusters.takeNextLocation_ok {pool : MpPool} {heap : Heap} {k t fresh : ℕ}
    (h : CountsClusters k (pool, heap) t) (ht : t ≤ 16) (hfresh : ¬heap.Live fresh) :
    ∃ pool' heap' location, Utilc.takeNextLocation pool heap fresh = .ok (pool', heap', location) := by
  by_cases hroom : pool.frontElementIndex < 2 ^ k
  · obtain ⟨pool', location, htake, -⟩ := h.sequence.takeNextLocation_of_room fresh hroom
    exact ⟨pool', heap, location, htake⟩
  · have hcount : pool.elementsPerCluster = 2 ^ k := h.sequence.geometry.elementsPerCluster
    have hfull : pool.frontElementIndex = pool.elementsPerCluster := by
      rw [hcount]
      exact le_antisymm h.sequence.index_le (not_lt.mp hroom)
    obtain ⟨C, n, hC, -, -, -⟩ := h.sequence.clusters
    have hfew : C.indexCount ≤ 2 ^ 5 := by
      have hm : pool.clusterLut.m = C.indexCount := hC.count
      have hneeded : clustersFor k t ≤ 2 ^ 5 := by
        have hdiv : (t - 1) / 2 ^ k ≤ t - 1 := Nat.div_le_self _ _
        unfold clustersFor
        omega
      have htable : pool.clusterLut.m = max 4 (2 ^ Nat.clog 2 (clustersFor k t)) := h.table
      rw [← hm, htable]
      apply max_le (by decide)
      exact Nat.pow_le_pow_right Nat.two_pos (Nat.clog_le_of_le_pow hneeded)
    obtain ⟨⟨mid, heap'⟩, hadd⟩ :=
      hC.addFrontCluster (hfew.trans (by decide)) (fun _ => by omega) (fun _ => hfresh)
    obtain ⟨hmid, hzero⟩ := h.sequence.addFrontCluster hfull hadd
    have hmidCount : mid.elementsPerCluster = 2 ^ k := hmid.geometry.elementsPerCluster
    have hpos := Nat.two_pow_pos k
    obtain ⟨pool', location, htake, -⟩ := hmid.takeNextLocation_of_room fresh (by omega)
    refine ⟨pool', heap', location, ?_⟩
    rw [takeNextLocation_of_full hfull hadd (by omega), htake]

/-- The location that is taken is the one of the element behind the last one. -/
lemma isLocation_of_taken {pool : MpPool} {k t location : ℕ} (hG : pool.geometry.PowerOfTwo k)
    (ht : t < 2 ^ mpIdBits) (htaken : takenFrom pool location = nthTaken k t) :
    IsLocation pool (t / 2 ^ k) (t % 2 ^ k) ∧ packLocation pool (t / 2 ^ k) (t % 2 ^ k) = location := by
  have hoffset : pool.clusterIndexOffset = k := hG.clusterIndexOffset
  have hcount : pool.elementsPerCluster = 2 ^ k := hG.elementsPerCluster
  have hmod : t % 2 ^ k < 2 ^ k := Nat.mod_lt _ (Nat.two_pow_pos k)
  have hpack : packLocation pool (t / 2 ^ k) (t % 2 ^ k) = t := by
    rw [packLocation, hoffset, ← Nat.shiftLeft_add_eq_or_of_lt hmod, Nat.shiftLeft_eq,
      Nat.div_add_mod']
  have hlocation : location = t := by
    have he : location = t % 2 ^ mpIdBits := congrArg Taken.location htaken
    rw [he, Nat.mod_eq_of_lt ht]
  have hfront : (circbufContents pool.allocatedClusterIndices).getLast? = some (t / 2 ^ k) :=
    congrArg Taken.frontCluster htaken
  refine ⟨⟨List.mem_of_getLast? hfront, ?_, ?_⟩, hpack.trans hlocation.symm⟩
  · rw [hcount]
    exact hmod
  · rw [hpack]
    exact ht

namespace AfterAllocs

variable {G : PoolGeometry} {k t fresh : ℕ} {pool : MpPool} {heap : Heap}

/-- The next id is given out, and it is stored behind its element. -/
lemma alloc (h : AfterAllocs G k (pool, heap) t) (ht : t < 16) (hfresh : ¬heap.Live fresh) :
    ∃ pool' heap', mpAlloc pool heap fresh = .ok (pool', heap', idAfter t) ∧
      AfterAllocs G k (pool', heap') (t + 1) := by
  obtain ⟨mid, heap₁, location, htake⟩ := h.counts.takeNextLocation_ok ht.le hfresh
  obtain ⟨hsequence, htaken⟩ := h.counts.sequence.takeNextLocation htake
  obtain ⟨hlut, hids⟩ := takeNextLocation_ids htake
  obtain ⟨pool', hpop, hgave⟩ := (h.ids.frame hlut hids).popId ht location
  have hchanges := changesIds_of_popId hpop
  have hgood := (h.good.takeNextLocation htake).changesIds hchanges
  have hcounts := (h.counts.takeNextLocation htake).changesIds hchanges
  -- the element in its cluster
  have htaken' : takenFrom pool' location = nthTaken k t := by
    rw [← htaken]
    obtain ⟨_, _, rfl⟩ := hchanges
    rfl
  have hbits : t < 2 ^ mpIdBits := ht.trans (by decide)
  obtain ⟨hloc, hpack⟩ := isLocation_of_taken hcounts.sequence.geometry hbits htaken'
  obtain ⟨block, offset, cells, hstore, -, hcells, hsize, hinside⟩ := hgood.inside h.geometry hloc
  rw [hpack] at hstore
  have hle : offset + pool'.elementSize + (idBytes (idAfter t)).length ≤ cells.length := by
    rw [hsize, Nat.add_assoc]
    exact hinside
  obtain ⟨heap', hwrite⟩ := Heap.store_of_le hcells hle
  have hid : idAfter t % 2 ^ mpIdBits = idAfter t := by
    apply Nat.mod_eq_of_lt
    unfold idAfter mpIdBits
    split <;> omega
  refine ⟨pool', heap', ?_, h.geometry, hgood.store hwrite, hcounts.store hwrite, hgave⟩
  simp only [mpAlloc, htake, hpop, hstore, hwrite, hid, ok_bind, pure_eq_ok]

/-- Nothing is left to be given out. -/
lemma alloc_fault (h : AfterAllocs G k (pool, heap) 16) (hfresh : ¬heap.Live fresh) :
    mpAlloc pool heap fresh = .error .outOfBounds := by
  obtain ⟨mid, heap₁, location, htake⟩ := h.counts.takeNextLocation_ok le_rfl hfresh
  obtain ⟨hlut, hids⟩ := takeNextLocation_ids htake
  simp only [mpAlloc, htake, (h.ids.frame hlut hids).popId_fault location, ok_bind, error_bind]

lemma step_agree {s : MpPool × Heap} (h : AfterAllocs G k s t) (op : MpOp) (hop : MpAllowed s op) :
    Agree (AfterAllocs G k) (mpStep s op) (dispenseStep t op) := by
  obtain ⟨pool, heap⟩ := s
  cases op with
  | alloc fresh =>
    by_cases ht : t < 16
    · obtain ⟨pool', heap', halloc, h'⟩ := h.alloc ht hop
      simp only [mpStep, halloc, ok_bind, pure_eq_ok, dispenseStep, if_pos ht]
      exact ⟨rfl, h'⟩
    · have hlast : t = 16 := le_antisymm h.ids.le (not_lt.mp ht)
      subst hlast
      simp only [mpStep, h.alloc_fault hop, error_bind, dispenseStep, if_neg ht]
      trivial
  | free id =>
    by_cases hid : id ≠ 0
    · simp only [mpStep, (h.ids.findsNothing heap hid).free, ok_bind, pure_eq_ok, dispenseStep,
        if_pos hid]
      exact ⟨rfl, h⟩
    · simp only [mpStep, mpFree, testIdExists, require_of_not hid, error_bind, dispenseStep,
        if_neg hid]
      trivial

end AfterAllocs

/-- A pool whose geometry fits gives out what a counter gives out, in every run of `mp_alloc` and
`mp_free`, and faults exactly where the counter has nothing left. -/
theorem mpRun_dispenses {settings : MpPoolSettings} (haccepted : testInitSettingsArg settings = none)
    (hfits : GeometryFits settings) {poolOut pool : MpPool} {heap : Heap} {fresh : ℕ}
    (hinit : initPool poolOut settings fresh = .ok (pool, heap)) {ops : List MpOp}
    (hallowed : AllAllowed mpStep MpAllowed (pool, heap) ops) :
    Agree (fun s _ => ∀ id ≠ 0, FindsNothing s.1 s.2 id) (runOps mpStep (pool, heap) ops)
      (runOps dispenseStep 0 ops) := by
  have hcounts := initPool_countsClusters hinit
  have hgood := initPool_goodPool hinit
  have hlog2 : log2Envelope (BitVec.ofNat 64 settings.elementsPerCluster) =
      Nat.clog 2 settings.elementsPerCluster := by
    apply log2Envelope_of_accepted _ haccepted
    exact hfits.1.trans_lt (Nat.pow_lt_pow_right Nat.one_lt_two (by decide))
  rw [hlog2] at hcounts
  obtain ⟨-, rfl, -⟩ := initPool_made hinit
  have hstart : AfterAllocs (madePool settings fresh).geometry (Nat.clog 2 settings.elementsPerCluster)
      (madePool settings fresh, heap) 0 :=
    ⟨madePool_exact fresh haccepted hfits, hgood, hcounts, gaveIds_madePool settings fresh⟩
  apply (runOps_agree_of_allowed (fun s t op h hop => h.step_agree op hop) hstart hallowed).mono
  intro s t h id hid
  exact h.ids.findsNothing s.2 hid

theorem mpRun_dispenses_two :
    ∃ pool heap, initPool MpPool.zero ⟨2, 2, 2⟩ 1000 = .ok (pool, heap) ∧
      Agree (fun s _ => ∀ id ≠ 0, FindsNothing s.1 s.2 id)
        (runOps mpStep (pool, heap) [.alloc 1008, .free 1]) (some (1, [.id 1, .error (some .invalidId)])) := by
  obtain ⟨heap, hinit⟩ : ∃ heap, initPool MpPool.zero ⟨2, 2, 2⟩ 1000 =
      .ok (madePool ⟨2, 2, 2⟩ 1000, heap) := initPool_of_accepted _ _ rfl (by decide)
  obtain ⟨-, -, hmalloc⟩ := initPool_made hinit
  have hfresh : ¬heap.Live 1008 := by
    rw [(Heap.malloc_eq_ok hmalloc).2]
    rintro (he | hlive)
    · exact absurd he (by decide)
    · exact Heap.not_live_empty 1008 hlive
  refine ⟨_, heap, hinit, ?_⟩
  exact mpRun_dispenses rfl (by decide) hinit ⟨hfresh, fun _ _ _ => ⟨trivial, fun _ _ _ => trivial⟩⟩

end Utilc
