import Mathlib.Data.Finset.Basic
import Utilc.Mempool.Frames

/-!
# The ids of a pool

An id is meant to exist from the `mp_alloc` that returns it to the `mp_free` that takes it.
`mp_init` reserves the cells of the location table without counting them, so the table says that it
is empty, and an id that `mp_alloc` records in a reserved cell does not exist. The ids are in order
exactly as long as none is allocated.
-/

namespace Utilc
open CLib

/-- The ids returned and not freed since. -/
def liveAfter (live : Finset ℕ) : MpOp → MpResult → Finset ℕ
  | .alloc _, .id id => insert id live
  | .free id, .error none => live.erase id
  | _, _ => live

/-- The calls that take an id find exactly the live ones; for any other one they return an error and
change nothing. -/
structure IdsAgree (pool : MpPool) (heap : Heap) (live : Finset ℕ) : Prop where
  exist : ∀ id < 2 ^ mpIdBits, mpIdExists pool id = .ok (decide (id ∈ live))
  found : ∀ id < 2 ^ mpIdBits, id ≠ 0 → id ∈ live →
    (∃ pool', mpFree pool id = .ok (pool', none)) ∧
    (∃ out, mpGet pool heap id = .ok (.ok out)) ∧
    (∃ data, mpGetPtr pool id = .ok (.ok data)) ∧
    ∀ bytes, bytes.length = pool.elementSize → ∃ heap', mpSet pool heap id bytes = .ok (heap', none)
  missing : ∀ id < 2 ^ mpIdBits, id ≠ 0 → id ∉ live →
    mpFree pool id = .ok (pool, some .invalidId) ∧
    mpGet pool heap id = .ok (.error .invalidId) ∧
    mpGetPtr pool id = .ok (.error .invalidId) ∧
    ∀ bytes, mpSet pool heap id bytes = .ok (heap, some .invalidId)

/-- The calls `ops` succeed, an id that one of them returns is neither 0 nor live, and the ids agree
before each call and at the end. -/
def IdLifecycle : MpPool × Heap → Finset ℕ → List MpOp → Prop
  | s, live, [] => IdsAgree s.1 s.2 live
  | s, live, op :: ops =>
    IdsAgree s.1 s.2 live ∧ ∃ s' result, mpStep s op = .ok (s', result) ∧
      (∀ id, result = .id id → id ≠ 0 ∧ id ∉ live) ∧ IdLifecycle s' (liveAfter live op result) ops

lemma IdLifecycle.agree {s : MpPool × Heap} {live : Finset ℕ} {ops : List MpOp}
    (h : IdLifecycle s live ops) : IdsAgree s.1 s.2 live := by
  cases ops with
  | nil => exact h
  | cons op ops => exact h.1

/-! ### The location table after `mp_init` -/

/-- The pyramid of `mp_init`: 16 free ids without 0. -/
def initialIds : Idxpyr := ⟨4, 1, List.replicate idxpyrMaxHeight 0, 2, true, [0xFFFE#16]⟩

lemma initialIds_eq :
    (do
      let freeIds ← idxpyrMake blockBitCountLog2 true
      let freeIds ← idxpyrSetAll freeIds true
      idxpyrSet freeIds 0 false) = .ok initialIds := rfl

/-- No location is counted and the pyramid is as `mp_init` leaves it. -/
def NoIds (pool : MpPool) : Prop := pool.locationLut.n = 0 ∧ pool.freeIds = initialIds

/-- The first `mp_alloc` records a location in a reserved cell and leaves the count at 0. -/
lemma NoIds.mpAlloc {pool pool' : MpPool} {heap heap' : Heap} {fresh id : ℕ} (h : NoIds pool)
    (halloc : mpAlloc pool heap fresh = .ok (pool', heap', id)) : pool'.locationLut.n = 0 := by
  obtain ⟨mid, heap₁, location, id₁, _, _, htake, hpop, -⟩ := mpAlloc_cases halloc
  obtain ⟨hlut, hids⟩ := takeNextLocation_ids htake
  have hfirst : idxpyrPopFirst mid.freeIds =
      .ok (⟨4, 1, List.replicate idxpyrMaxHeight 0, 2, true, [0xFFFC#16]⟩, 1) := by
    rw [hids, h.2]
    rfl
  have hne : ¬1 = idxpyrEmpty := by decide
  simp only [popId, hfirst, ok_bind, if_neg hne] at hpop
  obtain ⟨lut, hassign, hpop⟩ := bind_eq_ok.mp hpop
  obtain ⟨a, -, hassign⟩ := bind_eq_ok.mp hassign
  cases hassign
  cases hpop
  show mid.locationLut.n = 0
  rw [hlut]
  exact h.1

lemma initPool_noIds {poolOut pool : MpPool} {heap : Heap} {settings : MpPoolSettings} {fresh : ℕ}
    (h : initPool poolOut settings fresh = .ok (pool, heap)) : NoIds pool := by
  obtain ⟨made, fifos, hids, hlut, -, hfifos, hadd⟩ := initPool_cases h
  rw [initialIds_eq] at hids
  have hframe := addsCluster_of_add hadd
  cases hfifos
  constructor
  · rw [hframe.locationLut]
    exact hlut
  · rw [hframe.freeIds]
    exact (Except.ok.inj hids).symm

/-! ### The calls that take an id -/

lemma NoIds.testIdExists {pool : MpPool} (h : NoIds pool) {id : ℕ} (hid : id ≠ 0) :
    testIdExists pool id = .ok (some .invalidId) := by
  have hnot : ¬id < pool.locationLut.n := by
    rw [h.1]
    exact Nat.not_lt_zero id
  simp only [Utilc.testIdExists, require_of hid, ok_bind, idExists, if_neg hnot]
  rfl

lemma NoIds.agree {pool : MpPool} (h : NoIds pool) (heap : Heap) : IdsAgree pool heap ∅ where
  exist := by
    intro id _
    have hnot : ¬id < pool.locationLut.n := by
      rw [h.1]
      exact Nat.not_lt_zero id
    simp only [mpIdExists, idExists, if_neg hnot, Finset.notMem_empty, decide_false]
  found := by
    intro id _ _ hmem
    exact absurd hmem (Finset.notMem_empty id)
  missing := by
    intro id _ hid _
    have hmissing : findElement pool id = .ok (.error .invalidId) := by
      simp only [findElement, h.testIdExists hid, ok_bind, pure_eq_ok]
    refine ⟨?_, ?_, hmissing, fun bytes => ?_⟩
    · simp only [mpFree, h.testIdExists hid, ok_bind, pure_eq_ok]
    · simp only [mpGet, hmissing, ok_bind, pure_eq_ok]
    · simp only [mpSet, hmissing, ok_bind, pure_eq_ok]

/-! ### Runs -/

lemma NoIds.lifecycle_of_free {pool : MpPool} (h : NoIds pool) (heap : Heap) {ops : List MpOp}
    (hids : ∀ id, MpOp.free id ∈ ops → id ≠ 0 ∧ id < 2 ^ mpIdBits)
    (hnone : ∀ fresh, MpOp.alloc fresh ∉ ops) : IdLifecycle (pool, heap) ∅ ops := by
  induction ops with
  | nil => exact h.agree heap
  | cons op ops ih =>
    cases op with
    | alloc fresh => exact absurd List.mem_cons_self (hnone fresh)
    | free id =>
      obtain ⟨hid, hlt⟩ := hids id List.mem_cons_self
      have hfree := ((h.agree heap).missing id hlt hid (Finset.notMem_empty id)).1
      refine ⟨h.agree heap, (pool, heap), .error (some .invalidId), ?_, ?_, ?_⟩
      · simp only [mpStep, hfree, ok_bind, pure_eq_ok]
      · intro id' hresult
        cases hresult
      · exact ih (fun id' hmem => hids id' (List.mem_cons_of_mem _ hmem))
          (fun fresh hmem => hnone fresh (List.mem_cons_of_mem _ hmem))

lemma NoIds.not_lifecycle_of_alloc {pool : MpPool} (h : NoIds pool) (heap : Heap) {ops : List MpOp}
    (hids : ∀ id, MpOp.free id ∈ ops → id ≠ 0 ∧ id < 2 ^ mpIdBits) {fresh : ℕ}
    (hmem : MpOp.alloc fresh ∈ ops) : ¬IdLifecycle (pool, heap) ∅ ops := by
  induction ops with
  | nil => cases hmem
  | cons op ops ih =>
    rintro ⟨-, s', result, hstep, -, hnext⟩
    cases op with
    | alloc fresh' =>
      obtain ⟨⟨pool', heap', id⟩, halloc, hresult⟩ := bind_eq_ok.mp hstep
      cases hresult
      have hlt : id < 2 ^ mpIdBits := by
        obtain ⟨_, _, _, popped, _, _, -, -, -, -, hid⟩ := mpAlloc_cases halloc
        rw [hid]
        exact Nat.mod_lt _ (Nat.two_pow_pos _)
      -- the id is live, and the table has no entry that is counted
      have hexist := hnext.agree.exist id hlt
      have hnot : ¬id < pool'.locationLut.n := by
        rw [h.mpAlloc halloc]
        exact Nat.not_lt_zero id
      simp [mpIdExists, idExists, hnot, liveAfter] at hexist
    | free id =>
      obtain ⟨hid, hlt⟩ := hids id List.mem_cons_self
      have hfree := ((h.agree heap).missing id hlt hid (Finset.notMem_empty id)).1
      simp only [mpStep, hfree, ok_bind, pure_eq_ok, Except.ok.injEq, Prod.mk.injEq] at hstep
      obtain ⟨rfl, rfl⟩ := hstep
      have hrest : MpOp.alloc fresh ∈ ops := by
        rcases List.mem_cons.mp hmem with heq | hrest
        · cases heq
        · exact hrest
      exact ih (fun id' hmem' => hids id' (List.mem_cons_of_mem _ hmem')) hrest hnext

/-- The ids of a pool are in order along a run exactly when the run allocates none. -/
theorem mp_idLifecycle_iff {poolOut pool : MpPool} {heap : Heap} {settings : MpPoolSettings}
    {fresh : ℕ} (hinit : initPool poolOut settings fresh = .ok (pool, heap)) {ops : List MpOp}
    (hids : ∀ id, MpOp.free id ∈ ops → id ≠ 0 ∧ id < 2 ^ mpIdBits) :
    IdLifecycle (pool, heap) ∅ ops ↔ ∀ fresh, MpOp.alloc fresh ∉ ops := by
  have hno := initPool_noIds hinit
  constructor
  · intro h fresh' hmem
    exact hno.not_lifecycle_of_alloc heap hids hmem h
  · exact hno.lifecycle_of_free heap hids

theorem mp_idLifecycle_iff_frees :
    ∃ pool heap, initPool MpPool.zero ⟨2, 2, 2⟩ 1000 = .ok (pool, heap) ∧
      IdLifecycle (pool, heap) ∅ [.free 1, .free 65535] := by
  obtain ⟨⟨pool, heap⟩, hinit⟩ := exists_of_isOk (x := initPool MpPool.zero ⟨2, 2, 2⟩ 1000) rfl
  refine ⟨pool, heap, hinit, (mp_idLifecycle_iff hinit ?_).mpr (by simp)⟩
  intro id hmem
  simp only [List.mem_cons, MpOp.free.injEq, List.not_mem_nil, or_false] at hmem
  rcases hmem with rfl | rfl <;> decide

/-- The first id that `mp_alloc` returns does not exist. -/
theorem mpAlloc_id_not_existing :
    ∃ pool heap pool' heap', initPool MpPool.zero ⟨2, 2, 2⟩ 1000 = .ok (pool, heap) ∧
      mpAlloc pool heap 1008 = .ok (pool', heap', 1) ∧ mpIdExists pool' 1 = .ok false ∧
      ¬IdLifecycle (pool, heap) ∅ [.alloc 1008] := by
  have hrun : (do
      let made ← initPool MpPool.zero ⟨2, 2, 2⟩ 1000
      let result ← mpAlloc made.1 made.2 1008
      let existing ← mpIdExists result.1 1
      return (result.2.2, existing)) = .ok (1, false) := rfl
  obtain ⟨⟨pool, heap⟩, hinit, hrun⟩ := bind_eq_ok.mp hrun
  obtain ⟨⟨pool', heap', id⟩, halloc, hrun⟩ := bind_eq_ok.mp hrun
  obtain ⟨existing, hexist, hrun⟩ := bind_eq_ok.mp hrun
  cases hrun
  refine ⟨pool, heap, pool', heap', hinit, halloc, hexist, ?_⟩
  rintro ⟨-, s', result, hstep, -, hnext⟩
  simp only [mpStep, halloc, ok_bind, pure_eq_ok, Except.ok.injEq, Prod.mk.injEq] at hstep
  obtain ⟨rfl, rfl⟩ := hstep
  have hlive := hnext.exist 1 (by decide)
  rw [hexist] at hlive
  simp [liveAfter] at hlive

end Utilc
