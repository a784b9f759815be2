import Utilc.Idxpyr.Refinement

/-!
# The order of writes

`idxpyr_set` rewrites bits that later calls rewrite again. Whatever the blocks held before, what a
batch of calls leaves depends only on the last state it writes to each index.
-/

namespace Utilc
open CLib

/-- The calls `idxpyr_set(index, state)` of `writes`, one after another. -/
def setBatch (pyr : Idxpyr) (writes : List (ℕ × Bool)) : Checked Idxpyr :=
  writes.foldlM (fun pyr w => idxpyrSet pyr w.1 w.2) pyr

/-- The states after `writes`, of the indices that have one. -/
def statesAfter (last : ℕ → Option Bool) (writes : List (ℕ × Bool)) : ℕ → Option Bool :=
  writes.foldl (fun last w => Function.update last w.1 (some w.2)) last

/-- The last state that `writes` gives to each index. -/
def lastState (writes : List (ℕ × Bool)) : ℕ → Option Bool := statesAfter (fun _ => none) writes

/-- A pyramid with the fields that `idxpyr_make` gives it and any contents of the blocks. -/
def LaidOut (pyr : Idxpyr) : Prop :=
  ∃ indexCountLog2 stateInit made, idxpyrMake indexCountLog2 stateInit = .ok made ∧
    pyr.store.length = made.store.length ∧ pyr = { made with store := pyr.store }

lemma LaidOut.exists_pyramid {pyr : Idxpyr} (h : LaidOut pyr) : ∃ P : Pyramid, pyr = P.toIdxpyr := by
  obtain ⟨n, stateInit, made, hmake, hlen, hpyr⟩ := h
  have hreach : IdxpyrReachable made := by
    refine ⟨n, stateInit, [], [], ?_⟩
    rw [idxpyrRun, hmake, ok_bind, runOps]
    rfl
  obtain ⟨A, M, rfl, -⟩ := hreach.refines
  have hstore : pyr.store.length = M.store.length := hlen
  refine ⟨M.withStore pyr.store hstore, ?_⟩
  rw [M.toIdxpyr_withStore]
  exact hpyr

/-- The indices that have a state. -/
def written (last : ℕ → Option Bool) : Set ℕ := {index | last index ≠ none}

/-- `Q` is what is left of `P` when the indices with a state in `last` have been set to it. Above the
lowest row the bits on their paths tell whether the block below is non-zero, and no other bit has
changed. -/
structure Rewritten (P : Pyramid) (last : ℕ → Option Bool) (Q : Pyramid) : Prop where
  log2 : Q.indexCountLog2 = P.indexCountLog2
  stateInit : Q.stateInit = P.stateInit
  index_lt : ∀ index ∈ written last, index < 2 ^ P.indexCountLog2
  entry : ∀ x < 16 * rowLength P.indexCountLog2 0, Q.bit 0 x = (last x).getD (P.bit 0 x)
  onPath : ∀ i, i + 1 < P.height → ∀ x, Summary 16 (written last) (i + 1) x →
    Q.bit (i + 1) x = (Q.block i x != 0#16)
  offPath : ∀ i, i + 1 < P.height → ∀ x < 16 * rowLength P.indexCountLog2 (i + 1),
    ¬Summary 16 (written last) (i + 1) x → Q.bit (i + 1) x = P.bit (i + 1) x

namespace Rewritten

variable {P Q R : Pyramid} {last : ℕ → Option Bool}

lemma refl (P : Pyramid) : Rewritten P (fun _ => none) P where
  log2 := rfl
  stateInit := rfl
  index_lt := by
    intro index h
    exact absurd rfl h
  entry := by
    intro x _
    rfl
  onPath := by
    rintro i _ x ⟨y, hy, -⟩
    exact absurd rfl hy
  offPath := by
    intro i _ x _ _
    rfl

lemma block_lt (h : Rewritten P last Q) {i x : ℕ} (hx : Summary 16 (written last) (i + 1) x) :
    x < rowLength P.indexCountLog2 i := by
  obtain ⟨y, hy, rfl⟩ := hx
  exact path_lt_rowLength (h.index_lt y hy)

/-- Level by level the bits are determined, since a bit on a path is determined by the level below. -/
theorem unique (hQ : Rewritten P last Q) (hR : Rewritten P last R) : Q = R := by
  have hheight : Q.height = P.height := by rw [Pyramid.height, hQ.log2, Pyramid.height]
  apply Pyramid.ext_bit (hQ.log2.trans hR.log2.symm) (hQ.stateInit.trans hR.stateInit.symm)
  rw [hheight, hQ.log2]
  intro i
  induction i with
  | zero =>
    intro _ x hx
    rw [hQ.entry x hx, hR.entry x hx]
  | succ i ih =>
    intro hi x hx
    by_cases hpath : Summary 16 (written last) (i + 1) x
    · have hblock : Q.block i x = R.block i x := by
        have hlt := hQ.block_lt hpath
        rw [Pyramid.block_eq_iff_bit]
        intro c hc
        exact ih (by omega) _ (by omega)
      rw [hQ.onPath i hi x hpath, hR.onPath i hi x hpath, hblock]
    · rw [hQ.offPath i hi x hx hpath, hR.offPath i hi x hx hpath]

/-- A bit that is not on the path of `index` is not changed by a call for it, and neither is the
block below a bit that is not on the path. -/
lemma block_eq_of_offPath {S : Pyramid} {index i x : ℕ} {written : ℕ → Bool}
    (hbits : ∀ y < 16 * rowLength Q.indexCountLog2 i,
      S.bit i y = if y = index / 16 ^ i then written i else Q.bit i y)
    (hx : x < rowLength Q.indexCountLog2 i) (hne : x ≠ index / 16 ^ (i + 1)) :
    S.block i x = Q.block i x := by
  rw [Pyramid.block_eq_iff_bit]
  intro c hc
  rw [hbits _ (by omega), if_neg]
  intro he
  apply hne
  rw [div_pow_succ, ← he, Nat.mul_add_div (by decide), Nat.div_eq_of_lt hc, Nat.add_zero]

lemma mem_written_update {index i : ℕ} {state : Bool} :
    i ∈ written (Function.update last index (some state)) ↔ i = index ∨ i ∈ written last := by
  change Function.update last index (some state) i ≠ none ↔ i = index ∨ last i ≠ none
  by_cases h : i = index
  · subst h
    simp
  · simp [h]

/-- A block is on a path of the longer batch if it is on the path of its last index or on a path of
the batch before. -/
lemma summary_written_update {index : ℕ} {state : Bool} (i x : ℕ) :
    Summary 16 (written (Function.update last index (some state))) i x ↔
      x = index / 16 ^ i ∨ Summary 16 (written last) i x := by
  constructor
  · rintro ⟨y, hy, rfl⟩
    rcases mem_written_update.mp hy with rfl | hold
    · exact Or.inl rfl
    · exact Or.inr ⟨y, hold, rfl⟩
  · rintro (rfl | ⟨y, hy, rfl⟩)
    · exact ⟨index, mem_written_update.mpr (Or.inl rfl), rfl⟩
    · exact ⟨y, mem_written_update.mpr (Or.inr hy), rfl⟩

/-- A call for `index` turns what a batch leaves into what the longer batch leaves. -/
theorem step (h : Rewritten P last Q) {index : ℕ} (hindex : index < 2 ^ P.indexCountLog2)
    (state : Bool) :
    ∃ S : Pyramid, idxpyrSet Q.toIdxpyr index state = .ok S.toIdxpyr ∧
      Rewritten P (Function.update last index (some state)) S := by
  have hheight : Q.height = P.height := by rw [Pyramid.height, h.log2, Pyramid.height]
  rw [← h.log2] at hindex
  obtain ⟨store, hlen, hset, hbits⟩ := idxpyrSet_ok Q hindex state
  rw [hheight] at hbits
  have hrow (i x : ℕ) (hx : x < rowLength P.indexCountLog2 i) :
      x < rowLength Q.indexCountLog2 i := by rwa [h.log2]
  refine ⟨Q.withStore store hlen, hset, ?_⟩
  exact {
    log2 := h.log2
    stateInit := h.stateInit
    index_lt := by
      intro i hi
      rcases mem_written_update.mp hi with rfl | hold
      · rwa [← h.log2]
      · exact h.index_lt i hold
    entry := by
      intro x hx
      have hxQ := hrow 0 (x / 16) (by omega)
      rw [hbits 0 P.height_pos x (by omega), pow_zero, Nat.div_one]
      by_cases he : x = index
      · rw [if_pos he, he, Function.update_self]
        rfl
      · rw [if_neg he, Function.update_of_ne he, h.entry x hx]
    onPath := by
      intro i hi x hx
      have hlt : x < rowLength Q.indexCountLog2 i := by
        rcases (summary_written_update (i + 1) x).mp hx with rfl | hold
        · exact path_lt_rowLength hindex
        · exact hrow i x (h.block_lt hold)
      rw [hbits (i + 1) hi x (lt_sixteen_mul_rowLength hlt)]
      by_cases he : x = index / 16 ^ (i + 1)
      · rw [if_pos he, he, pathState]
        rfl
      · have hold : Summary 16 (written last) (i + 1) x :=
          ((summary_written_update (i + 1) x).mp hx).resolve_left he
        rw [if_neg he, h.onPath i hi x hold,
          block_eq_of_offPath (hbits i (by omega)) hlt he]
    offPath := by
      intro i hi x hx hnot
      rw [summary_written_update, not_or] at hnot
      have hxQ := hrow (i + 1) (x / 16) (by omega)
      rw [hbits (i + 1) hi x (by omega), if_neg hnot.1, h.offPath i hi x hx hnot.2] }

end Rewritten

/-! ### Batches -/

/-- A batch leaves what is determined by the states it ends with. -/
lemma Rewritten.setBatch {P Q : Pyramid} {last : ℕ → Option Bool} (h : Rewritten P last Q)
    {writes : List (ℕ × Bool)} (hwrites : ∀ w ∈ writes, w.1 < 2 ^ P.indexCountLog2) :
    ∃ R : Pyramid, setBatch Q.toIdxpyr writes = .ok R.toIdxpyr ∧
      Rewritten P (statesAfter last writes) R := by
  induction writes generalizing last Q with
  | nil => exact ⟨Q, rfl, h⟩
  | cons w writes ih =>
    obtain ⟨S, hset, hS⟩ := h.step (hwrites w List.mem_cons_self) w.2
    obtain ⟨R, hrest, hR⟩ := ih hS fun v hv => hwrites v (List.mem_cons_of_mem _ hv)
    refine ⟨R, ?_, hR⟩
    rw [Utilc.setBatch, List.foldlM_cons, hset, ok_bind]
    exact hrest

/-- Batches that end with the same states leave the same pyramid. -/
lemma setBatch_eq_of_lastState {P : Pyramid} {writes writes' : List (ℕ × Bool)}
    (hwrites : ∀ w ∈ writes, w.1 < 2 ^ P.indexCountLog2)
    (hwrites' : ∀ w ∈ writes', w.1 < 2 ^ P.indexCountLog2)
    (h : lastState writes = lastState writes') :
    ∃ after, setBatch P.toIdxpyr writes = .ok after ∧ setBatch P.toIdxpyr writes' = .ok after := by
  obtain ⟨Q, hQok, hQ⟩ := (Rewritten.refl P).setBatch hwrites
  obtain ⟨R, hRok, hR⟩ := (Rewritten.refl P).setBatch hwrites'
  change Rewritten P (lastState writes) Q at hQ
  change Rewritten P (lastState writes') R at hR
  rw [← h] at hR
  rw [← hQ.unique hR] at hRok
  exact ⟨Q.toIdxpyr, hQok, hRok⟩

/-- The store after a batch of `idxpyr_set` calls is determined by the last state of each index, for
any contents of the blocks before. -/
theorem idxpyrSet_orderIndependent (pyr : Idxpyr) (h : LaidOut pyr) :
    (∀ i j s t, i < 2 ^ pyr.indexCountLog2 → j < 2 ^ pyr.indexCountLog2 →
      (i ≠ j → ∃ after, (do idxpyrSet (← idxpyrSet pyr i s) j t) = .ok after ∧
        (do idxpyrSet (← idxpyrSet pyr j t) i s) = .ok after) ∧
      (i = j → ∃ after, (do idxpyrSet (← idxpyrSet pyr i s) j t) = .ok after ∧
        idxpyrSet pyr j t = .ok after)) ∧
    ∀ writes writes', (∀ w ∈ writes, w.1 < 2 ^ pyr.indexCountLog2) →
      (∀ w ∈ writes', w.1 < 2 ^ pyr.indexCountLog2) → lastState writes = lastState writes' →
      ∃ after, setBatch pyr writes = .ok after ∧ setBatch pyr writes' = .ok after := by
  obtain ⟨P, rfl⟩ := h.exists_pyramid
  have hone (i : ℕ) (s : Bool) : setBatch P.toIdxpyr [(i, s)] = idxpyrSet P.toIdxpyr i s := by
    rw [setBatch, List.foldlM_cons]
    exact bind_pure _
  have htwo (i j : ℕ) (s t : Bool) : setBatch P.toIdxpyr [(i, s), (j, t)] =
      (do idxpyrSet (← idxpyrSet P.toIdxpyr i s) j t) := by
    rw [setBatch, List.foldlM_cons]
    congr 1
    funext pyr
    rw [List.foldlM_cons]
    exact bind_pure _
  refine ⟨fun i j s t hi hj => ⟨fun hne => ?_, fun he => ?_⟩,
    fun writes writes' hwrites hwrites' => setBatch_eq_of_lastState hwrites hwrites'⟩
  · rw [← htwo, ← htwo]
    apply setBatch_eq_of_lastState
    · exact List.forall_mem_cons.mpr ⟨hi, List.forall_mem_singleton.mpr hj⟩
    · exact List.forall_mem_cons.mpr ⟨hj, List.forall_mem_singleton.mpr hi⟩
    · exact Function.update_comm hne _ _ _
  · subst he
    rw [← htwo, ← hone]
    apply setBatch_eq_of_lastState
    · exact List.forall_mem_cons.mpr ⟨hi, List.forall_mem_singleton.mpr hi⟩
    · exact List.forall_mem_singleton.mpr hi
    · exact Function.update_idem _ _ _

/-- Blocks with a mark that the upper row misses, and one that it shows but that is not there. -/
theorem idxpyrSet_orderIndependent_inconsistent :
    ∃ after,
      setBatch ⟨5, 2, [0, 2, 0, 0, 0, 0, 0, 0, 0, 0, 0, 0, 0, 0, 0], 6, false,
        [0x0008#16, 0x0000#16, 0x0002#16]⟩ [(3, false), (20, true), (3, true)] = .ok after ∧
      setBatch ⟨5, 2, [0, 2, 0, 0, 0, 0, 0, 0, 0, 0, 0, 0, 0, 0, 0], 6, false,
        [0x0008#16, 0x0000#16, 0x0002#16]⟩ [(3, true), (20, true)] = .ok after := by
  apply (idxpyrSet_orderIndependent _ ?_).2
  · decide
  · decide
  · funext i
    by_cases h3 : i = 3
    · subst h3
      rfl
    · by_cases h20 : i = 20
      · subst h20
        rfl
      · simp [lastState, statesAfter, h3, h20]
  · exact ⟨5, false, _, rfl, rfl, rfl⟩

end Utilc
