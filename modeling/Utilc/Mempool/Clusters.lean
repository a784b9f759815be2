import Utilc.Circbuf.Ring
import Utilc.Mempool.Model
import Utilc.Mempool.Ownership

/-!
# The pool owns its clusters

`HoldsClusters` says which `Clusters` the two ring buffers, the lookup table and the list of kept
blocks of a pool stand for. Adding a cluster at the front and removing one at the back keep it, with
the operation of the same meaning on the `Clusters`.
-/

namespace Utilc
open CLib

def HoldsIndices (buf : Circbuf ℕ) (items : List ℕ) : Prop :=
  ∃ R : Ring ℕ, buf = R.toCircbuf ∧ R.contents = items

/-- `v` holds the blocks `kept`, in the cells that `kv_resize` gave it for at most `limit`. -/
structure HoldsKept (v : Kvec ℕ) (kept : List ℕ) (limit : ℕ) : Prop where
  max : v.m = limit
  cells : v.a.length = sizeMul sizeofPtr limit / sizeofPtr
  count : v.n = kept.length
  items : kept.map some <+: v.a

/-- The tables of `pool` are those of `C`, and the live blocks are the ones `C` owns. -/
structure HoldsClusters (pool : MpPool) (heap : Heap) (C : Clusters ℕ) : Prop where
  allocated : HoldsIndices pool.allocatedClusterIndices (C.allocated.map Prod.fst)
  unallocated : HoldsIndices pool.unallocatedClusterIndices C.unallocated
  count : pool.clusterLut.m = C.indexCount
  count_pos : 0 < C.indexCount
  cells : pool.clusterLut.a.length = C.indexCount
  lut : ∀ p ∈ C.allocated, pool.clusterLut.a[p.1]? = some (some p.2)
  kept : HoldsKept pool.freeClusters C.free C.freeMax
  heap : ∀ block, heap.Live block ↔ block ∈ C.owned

/-! ### The ring buffers -/

lemma HoldsIndices.length {buf : Circbuf ℕ} {items : List ℕ} (h : HoldsIndices buf items) :
    buf.length = items.length := by
  obtain ⟨R, rfl, rfl⟩ := h
  rw [R.length_contents]
  rfl

lemma HoldsIndices.length_le {buf : Circbuf ℕ} {items : List ℕ} (h : HoldsIndices buf items) :
    items.length ≤ 2 ^ 30 := by
  obtain ⟨R, -, rfl⟩ := h
  rw [R.length_contents]
  exact R.length_le.trans (capacity_le R.log2_le)

lemma HoldsIndices.contents {buf : Circbuf ℕ} {items : List ℕ} (h : HoldsIndices buf items) :
    circbufContents buf = items := by
  obtain ⟨R, rfl, rfl⟩ := h
  exact R.circbufContents_eq

/-- The index that was put last is read at the front. -/
lemma HoldsIndices.readAt_front {buf : Circbuf ℕ} {items : List ℕ} {i : ℕ}
    (h : HoldsIndices buf items) (hlast : items.getLast? = some i) :
    readAt buf.a (circbufFrontIndex buf) = .ok i := by
  obtain ⟨R, rfl, rfl⟩ := h
  have hne : R.contents ≠ [] := by
    intro hnil
    rw [hnil] at hlast
    cases hlast
  have hlen : 0 < R.length := by
    rw [← R.length_contents]
    exact List.length_pos_of_ne_nil hne
  obtain ⟨elem, hread, hfront⟩ := Ring.readAt_frontIndex hlen
  rw [hlast] at hfront
  cases hfront
  exact hread

lemma HoldsIndices.popBack {buf : Circbuf ℕ} {i : ℕ} {items : List ℕ}
    (h : HoldsIndices buf (i :: items)) :
    ∃ buf', circbufPopBack buf = .ok (buf', i) ∧ HoldsIndices buf' items := by
  obtain ⟨R, rfl, hR⟩ := h
  have hlen : 0 < R.length := by
    rw [← R.length_contents, hR]
    exact Nat.succ_pos _
  have hcons := Ring.contents_eq_cons hlen
  rw [hR, List.cons.injEq] at hcons
  refine ⟨R.popBack.toCircbuf, ?_, R.popBack, rfl, hcons.2.symm⟩
  rw [Ring.popBack_ok hlen, ← hcons.1]

lemma HoldsIndices.of_popBack {buf buf' : Circbuf ℕ} {i : ℕ} {items : List ℕ}
    (h : HoldsIndices buf items) (hpop : circbufPopBack buf = .ok (buf', i)) :
    ∃ rest, items = i :: rest ∧ HoldsIndices buf' rest := by
  cases items with
  | nil =>
    have hzero : ¬buf.length ≠ 0 := not_not.mpr h.length
    simp only [circbufPopBack, require_of_not hzero, error_bind, reduceCtorEq] at hpop
  | cons j rest =>
    obtain ⟨next, hnext, hrest⟩ := h.popBack
    rw [hnext] at hpop
    cases hpop
    exact ⟨rest, rfl, hrest⟩

lemma HoldsIndices.dynamicPut {buf : Circbuf ℕ} {items : List ℕ} (h : HoldsIndices buf items)
    (hlen : items.length < 2 ^ 30) (i : ℕ) :
    ∃ buf', circbufDynamicPut buf i = .ok buf' ∧ HoldsIndices buf' (items ++ [i]) := by
  obtain ⟨R, rfl, rfl⟩ := h
  rw [R.length_contents] at hlen
  obtain ⟨Q, hput, hcontents⟩ := Ring.dynamicPut_ok hlen i
  exact ⟨_, hput, Q, rfl, hcontents⟩

lemma HoldsIndices.of_dynamicPut {buf buf' : Circbuf ℕ} {items : List ℕ} {i : ℕ}
    (h : HoldsIndices buf items) (hput : circbufDynamicPut buf i = .ok buf') :
    HoldsIndices buf' (items ++ [i]) := by
  obtain ⟨R, rfl, rfl⟩ := h
  obtain ⟨Q, hbuf, hcontents⟩ := Ring.dynamicPut_eq_ok hput
  exact ⟨Q, hbuf, hcontents⟩

lemma HoldsIndices.of_putIndices {count index : ℕ} {buf buf' : Circbuf ℕ} {items : List ℕ}
    (h : HoldsIndices buf items) (hindex : index + count < 2 ^ sizeBits)
    (hput : putIndices circbufDynamicPut count index buf = .ok buf') :
    HoldsIndices buf' (items ++ List.range' index count) := by
  induction count generalizing index buf items with
  | zero =>
    cases hput
    rwa [List.range'_zero, List.append_nil]
  | succ count ih =>
    obtain ⟨mid, hmid, hrest⟩ := bind_eq_ok.mp hput
    have hsucc : sizeAdd index 1 = index + 1 := sizeAdd_of_lt (by omega)
    rw [hsucc] at hrest
    have hfinal := ih (h.of_dynamicPut hmid) (by omega) hrest
    rwa [List.append_assoc, List.singleton_append, ← List.range'_succ] at hfinal

lemma HoldsIndices.putIndices {count index : ℕ} {buf : Circbuf ℕ} {items : List ℕ}
    (h : HoldsIndices buf items) (hlen : items.length + count ≤ 2 ^ 30) :
    ∃ buf', putIndices circbufDynamicPut count index buf = .ok buf' := by
  induction count generalizing index buf items with
  | zero => exact ⟨buf, rfl⟩
  | succ count ih =>
    obtain ⟨mid, hmid, hmid'⟩ := h.dynamicPut (by omega) index
    have hlen' : (items ++ [index]).length + count ≤ 2 ^ 30 := by
      rw [List.length_append, List.length_singleton]
      omega
    obtain ⟨buf', hrest⟩ : ∃ buf', Utilc.putIndices circbufDynamicPut count (sizeAdd index 1) mid =
        .ok buf' := ih hmid' hlen'
    exact ⟨buf', by simp only [Utilc.putIndices, hmid, ok_bind, hrest]⟩

/-! ### More indices -/

lemma HoldsClusters.indexCount_le {pool : MpPool} {heap : Heap} {C : Clusters ℕ}
    (h : HoldsClusters pool heap C) : C.indexCount ≤ 2 ^ 31 := by
  have ha := h.allocated.length_le
  have hu := h.unallocated.length_le
  have hsum := C.length_indices
  rw [List.length_map] at ha
  omega

lemma HoldsClusters.of_addClusterIndices {pool pool' : MpPool} {heap : Heap} {C : Clusters ℕ}
    (h : HoldsClusters pool heap C) (hadd : addClusterIndices pool = .ok pool') :
    HoldsClusters pool' heap C.grow := by
  have hle := h.indexCount_le
  have hmul : sizeMul pool.clusterLut.m 2 = C.indexCount * 2 := by
    rw [h.count, sizeMul_of_lt (by rw [sizeBits]; omega)]
  obtain ⟨unallocated, hput, hpool⟩ := bind_eq_ok.mp hadd
  rw [h.count] at hput
  have hindices := h.unallocated.of_putIndices (by rw [sizeBits]; omega) hput
  cases hpool
  have hlen : (kvResize sizeofPtr pool.clusterLut (sizeMul pool.clusterLut.m 2)).a.length =
      C.indexCount * 2 := by
    rw [length_kvResize (by decide) (by rw [hmul, sizeBits, sizeofPtr]; omega), hmul]
  exact {
    allocated := h.allocated
    unallocated := hindices
    count := hmul
    count_pos := Nat.mul_pos h.count_pos (by decide)
    cells := hlen
    lut := by
      intro p hp
      have hcell := h.lut p hp
      have hlt : p.1 < pool.clusterLut.a.length := (List.getElem?_eq_some_iff.mp hcell).1
      rw [← hcell]
      refine getElem?_realloc ?_ hlt
      have hreq := hlen
      rw [kvResize, length_realloc] at hreq
      rw [hreq, h.cells]
      omega
    kept := h.kept
    heap := h.heap }

lemma HoldsClusters.addClusterIndices {pool : MpPool} {heap : Heap} {C : Clusters ℕ}
    (h : HoldsClusters pool heap C) (hnone : C.unallocated = [])
    (hcount : C.indexCount ≤ 2 ^ 30) : ∃ pool', addClusterIndices pool = .ok pool' := by
  have hlen : C.unallocated.length + pool.clusterLut.m ≤ 2 ^ 30 := by
    rw [hnone, List.length_nil, h.count]
    omega
  obtain ⟨buf', hput⟩ : ∃ buf', putIndices circbufDynamicPut pool.clusterLut.m pool.clusterLut.m
      pool.unallocatedClusterIndices = .ok buf' := h.unallocated.putIndices hlen
  simp only [Utilc.addClusterIndices, hput, ok_bind, pure_eq_ok]
  exact ⟨_, rfl⟩

/-! ### The kept blocks -/

lemma HoldsKept.lt_sizeBits {v : Kvec ℕ} {kept : List ℕ} {limit : ℕ} (h : HoldsKept v kept limit) :
    v.a.length < 2 ^ sizeBits := by
  rw [h.cells]
  exact (Nat.div_le_self _ _).trans_lt (Nat.mod_lt _ (Nat.two_pow_pos _))

lemma HoldsKept.pop {v : Kvec ℕ} {kept : List ℕ} {b limit : ℕ}
    (h : HoldsKept v (kept ++ [b]) limit) :
    ∃ v', kvPop v = .ok (v', b) ∧ HoldsKept v' kept limit := by
  obtain ⟨rest, hrest⟩ := h.items
  have hcell : v.a[kept.length]? = some (some b) := by
    rw [← hrest, List.map_append, List.append_assoc,
      List.getElem?_append_right (by rw [List.length_map]), List.length_map, Nat.sub_self]
    rfl
  have hlt : kept.length < v.a.length := (List.getElem?_eq_some_iff.mp hcell).1
  have hbound := h.lt_sizeBits
  have hn := h.count
  rw [List.length_append, List.length_singleton] at hn
  have hsub : sizeSub v.n 1 = kept.length := by
    rw [sizeSub_of_le (by omega) (by omega), hn, Nat.add_sub_cancel]
  refine ⟨{ v with n := kept.length }, ?_, h.max, h.cells, rfl, some b :: rest, ?_⟩
  · have hread : kvA { v with n := kept.length } kept.length = .ok b := kvA_of_some hcell
    simp only [kvPop, hsub, hread, ok_bind, pure_eq_ok]
  · rw [← hrest, List.map_append, List.append_assoc]
    rfl

lemma HoldsKept.push {v : Kvec ℕ} {kept : List ℕ} {limit : ℕ} (h : HoldsKept v kept limit)
    (hlt : v.n < v.a.length) (b : ℕ) :
    ∃ v', kvStaticPush v b = .ok v' ∧ HoldsKept v' (kept ++ [b]) limit := by
  have hbound := h.lt_sizeBits
  have hsucc : sizeAdd v.n 1 = v.n + 1 := sizeAdd_of_lt (by omega)
  refine ⟨{ v with n := v.n + 1, a := v.a.set v.n (some b) }, ?_, h.max, ?_, ?_, ?_⟩
  · simp only [kvStaticPush, writeAt_of_lt hlt, ok_bind, pure_eq_ok, hsucc]
  · rw [List.length_set, h.cells]
  · rw [List.length_append, List.length_singleton, h.count]
  · obtain ⟨rest, hrest⟩ := h.items
    cases rest with
    | nil =>
      rw [← hrest, List.append_nil, List.length_map, h.count] at hlt
      omega
    | cons x rest =>
      refine ⟨rest, ?_⟩
      rw [← hrest, h.count, List.set_append_right _ _ (by rw [List.length_map]), List.length_map,
        Nat.sub_self, List.set_cons_zero, List.map_append, List.append_assoc]
      rfl

/-! ### A cluster at the front -/

lemma HoldsClusters.takeFreeCluster_cases {pool : MpPool} {heap : Heap} {C : Clusters ℕ}
    (h : HoldsClusters pool heap C) (fresh : ℕ) :
    (C.free = [] ∧ takeFreeCluster pool heap fresh =
      (do return (pool.freeClusters, ← heap.malloc fresh pool.clusterSize, fresh))) ∨
    ∃ kept b v, C.free = kept ++ [b] ∧ HoldsKept v kept C.freeMax ∧
      takeFreeCluster pool heap fresh = .ok (v, heap, b) := by
  have hcount := h.kept.count
  rcases List.eq_nil_or_concat C.free with hnil | ⟨kept, b, hkept⟩
  · have hempty : kvEmpty pool.freeClusters = true := by
      rw [kvEmpty, hcount, hnil]
      rfl
    refine Or.inl ⟨hnil, ?_⟩
    simp only [takeFreeCluster, hempty, Bool.not_true, Bool.false_eq_true, if_false]
  · rw [List.concat_eq_append] at hkept
    have hnonempty : kvEmpty pool.freeClusters = false := by
      rw [kvEmpty, hcount, hkept, List.length_append]
      exact decide_eq_false (Nat.succ_ne_zero _)
    have hk := h.kept
    rw [hkept] at hk
    obtain ⟨v, hpop, hv⟩ := hk.pop
    refine Or.inr ⟨kept, b, v, hkept, hv, ?_⟩
    simp only [takeFreeCluster, hnonempty, Bool.not_false, if_true, hpop, ok_bind, pure_eq_ok]

/-- The block for the next index is one that nothing owns as an allocated one. -/
lemma HoldsClusters.of_takeFreeCluster {pool : MpPool} {heap heap' : Heap} {C : Clusters ℕ}
    {fresh i b : ℕ} {rest : List ℕ} {v : Kvec ℕ} (h : HoldsClusters pool heap C)
    (hi : C.unallocated = i :: rest) (htake : takeFreeCluster pool heap fresh = .ok (v, heap', b)) :
    ∃ C' : Clusters ℕ, C'.allocated = C.allocated ++ [(i, b)] ∧ C'.unallocated = rest ∧
      C'.indexCount = C.indexCount ∧ C'.freeMax = C.freeMax ∧ HoldsKept v C'.free C.freeMax ∧
      ∀ block, heap'.Live block ↔ block ∈ C'.owned := by
  rcases h.takeFreeCluster_cases fresh with ⟨-, htake'⟩ | ⟨kept, c, v', hkept, hv', htake'⟩
  · rw [htake'] at htake
    obtain ⟨mid, hmalloc, hresult⟩ := bind_eq_ok.mp htake
    cases hresult
    obtain ⟨hdead, hlive⟩ := Heap.malloc_eq_ok hmalloc
    have hfresh : fresh ∉ C.owned := fun hmem => hdead ((h.heap fresh).mpr hmem)
    refine ⟨C.addFresh hi hfresh, rfl, rfl, rfl, rfl, h.kept, fun block => ?_⟩
    rw [hlive, h.heap, C.mem_owned_addFresh hi hfresh]
  · rw [htake'] at htake
    cases htake
    refine ⟨C.addKept hi hkept, rfl, rfl, rfl, rfl, hv', fun block => ?_⟩
    rw [h.heap, C.mem_owned_addKept hi hkept]

lemma HoldsClusters.takeFreeCluster {pool : MpPool} {heap : Heap} {C : Clusters ℕ} {fresh : ℕ}
    (h : HoldsClusters pool heap C) (hfresh : C.free = [] → ¬heap.Live fresh) :
    ∃ v heap' b, takeFreeCluster pool heap fresh = .ok (v, heap', b) := by
  rcases h.takeFreeCluster_cases fresh with ⟨hnil, htake⟩ | ⟨kept, b, v, -, -, htake⟩
  · obtain ⟨heap', hmalloc⟩ := Heap.malloc_of_dead (hfresh hnil) pool.clusterSize
    rw [htake, hmalloc]
    exact ⟨_, _, _, rfl⟩
  · exact ⟨v, heap, b, htake⟩

/-- Every index that is left has a cell. -/
lemma HoldsClusters.lt_cells {pool : MpPool} {heap : Heap} {C : Clusters ℕ} {i : ℕ}
    (h : HoldsClusters pool heap C) (hi : i ∈ C.unallocated) : i < pool.clusterLut.a.length := by
  rw [h.cells]
  exact C.index_lt (List.mem_append_right _ hi)

lemma lut_assign {C : Clusters ℕ} {a : List (Option ℕ)} {i b : ℕ} (hi : i ∈ C.unallocated)
    (hcells : a.length = C.indexCount) (hlut : ∀ p ∈ C.allocated, a[p.1]? = some (some p.2)) :
    ∀ p ∈ C.allocated ++ [(i, b)], (a.set i (some b))[p.1]? = some (some p.2) := by
  intro p hp
  rcases List.mem_append.mp hp with hold | hnew
  · rw [List.getElem?_set_ne (C.ne_of_unallocated hi hold).symm]
    exact hlut p hold
  · rw [List.mem_singleton] at hnew
    have hlt : i < a.length := by
      rw [hcells]
      exact C.index_lt (List.mem_append_right _ hi)
    rw [hnew, List.getElem?_set_self hlt]

lemma HoldsClusters.of_placeFrontCluster {pool pool' : MpPool} {heap heap' : Heap}
    {C : Clusters ℕ} {fresh : ℕ} (h : HoldsClusters pool heap C)
    (hplace : placeFrontCluster pool heap fresh = .ok (pool', heap')) :
    ∃ C' : Clusters ℕ, HoldsClusters pool' heap' C' ∧ C.AddsFront C' := by
  obtain ⟨⟨v, mid, b⟩, htake, hrest⟩ := bind_eq_ok.mp hplace
  obtain ⟨⟨unallocated, j⟩, hpop, hrest⟩ := bind_eq_ok.mp hrest
  obtain ⟨allocated, hput, hrest⟩ := bind_eq_ok.mp hrest
  obtain ⟨lut, hassign, hresult⟩ := bind_eq_ok.mp hrest
  cases hresult
  obtain ⟨rest, hi, hu⟩ := h.unallocated.of_popBack hpop
  have hmem : j ∈ C.unallocated := hi ▸ List.mem_cons_self
  obtain ⟨C', hallocated, hunallocated, hcount, hmax, hkept, hheap⟩ := h.of_takeFreeCluster hi htake
  rw [kvAssign_of_lt (h.lt_cells hmem)] at hassign
  cases hassign
  refine ⟨C', ?_, Clusters.addsFront_of_next hi hallocated hunallocated hcount hmax⟩
  exact {
    allocated := by
      rw [hallocated, List.map_append]
      exact h.allocated.of_dynamicPut hput
    unallocated := by
      rw [hunallocated]
      exact hu
    count := h.count.trans hcount.symm
    count_pos := by
      rw [hcount]
      exact h.count_pos
    cells := by
      rw [List.length_set, h.cells, hcount]
    lut := by
      rw [hallocated]
      exact lut_assign hmem h.cells h.lut
    kept := by
      rw [hmax]
      exact hkept
    heap := hheap }

lemma HoldsClusters.placeFrontCluster {pool : MpPool} {heap : Heap} {C : Clusters ℕ} {fresh : ℕ}
    (h : HoldsClusters pool heap C) (hsome : C.unallocated ≠ []) (hcount : C.indexCount ≤ 2 ^ 30)
    (hfresh : C.free = [] → ¬heap.Live fresh) :
    ∃ s, placeFrontCluster pool heap fresh = .ok s := by
  obtain ⟨i, rest, hi⟩ := List.exists_cons_of_ne_nil hsome
  have hmem : i ∈ C.unallocated := hi ▸ List.mem_cons_self
  have hsum := C.length_indices
  obtain ⟨v, heap', b, htake⟩ := h.takeFreeCluster hfresh
  have hu := h.unallocated
  rw [hi] at hu hsum
  obtain ⟨unallocated, hpop, -⟩ := hu.popBack
  have hlen : (C.allocated.map Prod.fst).length < 2 ^ 30 := by
    rw [List.length_map]
    rw [List.length_cons] at hsum
    omega
  obtain ⟨allocated, hput, -⟩ := h.allocated.dynamicPut hlen i
  have hlt := h.lt_cells hmem
  simp only [Utilc.placeFrontCluster, htake, hpop, hput, kvAssign_of_lt hlt, ok_bind, pure_eq_ok]
  exact ⟨_, rfl⟩

lemma HoldsClusters.of_addFrontCluster {pool pool' : MpPool} {heap heap' : Heap}
    {C : Clusters ℕ} {fresh : ℕ} (h : HoldsClusters pool heap C)
    (hadd : addFrontCluster pool heap fresh = .ok (pool', heap')) :
    ∃ C' : Clusters ℕ, HoldsClusters pool' heap' C' ∧ C.AddsFront C' := by
  by_cases hlen : pool.unallocatedClusterIndices.length != 0
  · simp only [addFrontCluster, if_pos hlen, ok_bind] at hadd
    exact h.of_placeFrontCluster hadd
  · simp only [addFrontCluster, if_neg hlen] at hadd
    obtain ⟨mid, hgrow, hplace⟩ := bind_eq_ok.mp hadd
    obtain ⟨C', hC', hfront⟩ := (h.of_addClusterIndices hgrow).of_placeFrontCluster hplace
    exact ⟨C', hC', hfront.allocated, hfront.freeMax, fun horder => hfront.inOrder horder.grow⟩

/-- A cluster can be added if there is an index for it, or if their number can be doubled. -/
lemma HoldsClusters.addFrontCluster {pool : MpPool} {heap : Heap} {C : Clusters ℕ} {fresh : ℕ}
    (h : HoldsClusters pool heap C) (hcount : C.indexCount ≤ 2 ^ 30)
    (hgrow : C.unallocated = [] → C.indexCount * 2 ≤ 2 ^ 30)
    (hfresh : C.free = [] → ¬heap.Live fresh) :
    ∃ s, addFrontCluster pool heap fresh = .ok s := by
  by_cases hnil : C.unallocated = []
  · have hlen : ¬(pool.unallocatedClusterIndices.length != 0) := by
      rw [h.unallocated.length, hnil]
      decide
    obtain ⟨mid, hmid⟩ := h.addClusterIndices hnil hcount
    have hgrown : C.grow.unallocated ≠ [] := by
      have hpos := h.count_pos
      have hnew : C.grow.unallocated = List.range' C.indexCount C.indexCount :=
        congrArg (· ++ List.range' C.indexCount C.indexCount) hnil
      rw [hnew, Ne, List.range'_eq_nil_iff]
      omega
    obtain ⟨s, hs⟩ := (h.of_addClusterIndices hmid).placeFrontCluster hgrown (hgrow hnil) hfresh
    exact ⟨s, by simp only [Utilc.addFrontCluster, if_neg hlen, hmid, ok_bind, hs]⟩
  · have hlen : pool.unallocatedClusterIndices.length != 0 := by
      rw [h.unallocated.length]
      simpa using hnil
    obtain ⟨s, hs⟩ := h.placeFrontCluster hnil hcount hfresh
    exact ⟨s, by simp only [Utilc.addFrontCluster, if_pos hlen, ok_bind, hs]⟩

/-! ### A cluster at the back -/

lemma HoldsClusters.of_back {pool : MpPool} {heap heap' : Heap} {C : Clusters ℕ} {i b : ℕ}
    {rest : List (ℕ × ℕ)} (h : HoldsClusters pool heap C) (hC : C.allocated = (i, b) :: rest)
    (C' : Clusters ℕ) (hallocated : C'.allocated = rest) (hunallocated : C'.unallocated = C.unallocated ++ [i])
    (hcount : C'.indexCount = C.indexCount) (hmax : C'.freeMax = C.freeMax)
    {allocated unallocated : Circbuf ℕ} (ha : HoldsIndices allocated (rest.map Prod.fst))
    (hu : HoldsIndices unallocated (C.unallocated ++ [i])) {v : Kvec ℕ}
    (hkept : HoldsKept v C'.free C.freeMax) (hheap : ∀ block, heap'.Live block ↔ block ∈ C'.owned) :
    HoldsClusters
      { pool with
        allocatedClusterIndices := allocated
        unallocatedClusterIndices := unallocated
        freeClusters := v } heap' C' where
  allocated := by
    rw [hallocated]
    exact ha
  unallocated := by
    rw [hunallocated]
    exact hu
  count := h.count.trans hcount.symm
  count_pos := by
    rw [hcount]
    exact h.count_pos
  cells := h.cells.trans hcount.symm
  lut := by
    rw [hallocated]
    intro p hp
    apply h.lut p
    rw [hC]
    exact List.mem_cons_of_mem _ hp
  kept := by
    rw [hmax]
    exact hkept
  heap := hheap

lemma kvFull_eq {v : Kvec ℕ} {kept : List ℕ} {limit : ℕ} (h : HoldsKept v kept limit) :
    kvFull v = decide (limit ≤ kept.length) := by
  rw [kvFull, h.max, h.count]

lemma lt_of_kvStaticPush {v v' : Kvec ℕ} {b : ℕ} (h : kvStaticPush v b = .ok v') :
    v.n < v.a.length := by
  obtain ⟨a, hwrite, -⟩ := bind_eq_ok.mp h
  exact (writeAt_eq_ok.mp hwrite).1

/-- The oldest index is given up, and its block is kept if there is room for it. -/
lemma HoldsClusters.of_removeBackCluster {pool pool' : MpPool} {heap heap' : Heap} {C : Clusters ℕ}
    (h : HoldsClusters pool heap C)
    (hremove : removeBackCluster pool heap = .ok (pool', heap')) :
    ∃ C' : Clusters ℕ, HoldsClusters pool' heap' C' ∧ C'.freeMax = C.freeMax := by
  obtain ⟨-, -, hrest⟩ := bind_eq_ok.mp hremove
  obtain ⟨⟨allocated, _⟩, hpop, hrest⟩ := bind_eq_ok.mp hrest
  obtain ⟨unallocated, hput, hrest⟩ := bind_eq_ok.mp hrest
  obtain ⟨_, hitems, ha⟩ := h.allocated.of_popBack hpop
  obtain ⟨⟨i, b⟩, rest, hC, rfl, rfl⟩ := List.map_eq_cons_iff.mp hitems
  have hu := h.unallocated.of_dynamicPut hput
  have hback : kvA pool.clusterLut i = .ok b := kvA_of_some (h.lut (i, b) (hC ▸ List.mem_cons_self))
  simp only [hback, ok_bind, kvFull_eq h.kept] at hrest
  by_cases hfull : C.freeMax ≤ C.free.length
  · simp only [hfull, decide_true, Bool.not_true, Bool.false_eq_true, if_false] at hrest
    obtain ⟨mid, hfree, hresult⟩ := bind_eq_ok.mp hrest
    cases hresult
    obtain ⟨-, hlive⟩ := Heap.free_eq_ok hfree
    refine ⟨C.freeBack hC, ?_, rfl⟩
    refine h.of_back hC (C.freeBack hC) rfl rfl rfl rfl ha hu h.kept (fun block => ?_)
    rw [hlive, h.heap, C.mem_owned_freeBack hC]
  · simp only [hfull, decide_false, Bool.not_false, if_true] at hrest
    obtain ⟨v, hpush, hresult⟩ := bind_eq_ok.mp hrest
    cases hresult
    obtain ⟨v', hpush', hv⟩ := h.kept.push (lt_of_kvStaticPush hpush) b
    rw [hpush'] at hpush
    cases hpush
    refine ⟨C.keepBack hC (not_le.mp hfull), ?_, rfl⟩
    refine h.of_back hC (C.keepBack hC (not_le.mp hfull)) rfl rfl rfl rfl ha hu hv (fun block => ?_)
    rw [h.heap, C.mem_owned_keepBack hC]

/-- A cluster can be removed if there is one, and if the list for its block has the cells that it
was meant to have. -/
lemma HoldsClusters.removeBackCluster {pool : MpPool} {heap : Heap} {C : Clusters ℕ}
    (h : HoldsClusters pool heap C) (hcount : C.indexCount ≤ 2 ^ 30)
    (hsome : pool.allocatedClusterIndices.length ≠ 0)
    (hmax : sizeofPtr * C.freeMax < 2 ^ sizeBits) : ∃ s, removeBackCluster pool heap = .ok s := by
  have hsum := C.length_indices
  cases hC : C.allocated with
  | nil =>
    rw [h.allocated.length, hC] at hsome
    exact absurd rfl hsome
  | cons p rest =>
    obtain ⟨i, b⟩ := p
    have ha := h.allocated
    rw [hC] at ha
    obtain ⟨allocated, hpop, -⟩ := HoldsIndices.popBack ha
    have hlen : C.unallocated.length < 2 ^ 30 := by
      rw [hC, List.length_cons] at hsum
      omega
    obtain ⟨unallocated, hput, -⟩ := h.unallocated.dynamicPut hlen i
    have hback : kvA pool.clusterLut i = .ok b := kvA_of_some (h.lut (i, b) (hC ▸ List.mem_cons_self))
    simp only [Utilc.removeBackCluster, require_of hsome, hpop, hput, hback, ok_bind,
      kvFull_eq h.kept]
    by_cases hfull : C.freeMax ≤ C.free.length
    · have hlive : heap.Live b := by
        rw [h.heap, Clusters.owned, hC]
        exact List.mem_append_left _ List.mem_cons_self
      obtain ⟨heap', hfree, -⟩ := Heap.free_of_live hlive
      simp only [hfull, decide_true, Bool.not_true, Bool.false_eq_true, if_false, hfree, ok_bind,
        pure_eq_ok]
      exact ⟨_, rfl⟩
    · have hcells : pool.freeClusters.a.length = C.freeMax := by
        rw [h.kept.cells, sizeMul_of_lt hmax, Nat.mul_div_cancel_left _ (by decide)]
      have hlt : pool.freeClusters.n < pool.freeClusters.a.length := by
        rw [hcells, h.kept.count]
        exact not_le.mp hfull
      obtain ⟨v, hpush, -⟩ := h.kept.push hlt b
      simp only [hfull, decide_false, Bool.not_false, if_true, hpush, ok_bind, pure_eq_ok]
      exact ⟨_, rfl⟩

end Utilc
