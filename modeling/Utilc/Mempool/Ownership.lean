import Mathlib.Data.List.Perm.Basic
import Mathlib.Tactic

/-!
# Who owns the clusters

The clusters of a pool without its tables: which indices stand for which blocks, which indices are
left, and which blocks are kept for later. A value of `Clusters` has every index once and no block
twice; the operations are what adding a cluster at the front and removing one at the back are for.
-/

namespace Utilc

variable {β : Type}

/-- The allocated indices with their blocks, oldest first, the unallocated ones in the order in which
they are taken, and the kept blocks, of which the last is taken first. -/
structure Clusters (β : Type) where
  allocated : List (ℕ × β)
  unallocated : List ℕ
  free : List β
  indexCount : ℕ
  freeMax : ℕ
  indices : (allocated.map Prod.fst ++ unallocated).Perm (List.range indexCount)
  blocks : (allocated.map Prod.snd ++ free).Nodup
  free_le : free.length ≤ freeMax

namespace Clusters

/-- Every block that has been allocated and not given back. -/
def owned (C : Clusters β) : List β := C.allocated.map Prod.snd ++ C.free

lemma length_indices (C : Clusters β) :
    C.allocated.length + C.unallocated.length = C.indexCount := by
  have h := C.indices.length_eq
  rwa [List.length_append, List.length_map, List.length_range] at h

lemma index_lt (C : Clusters β) {i : ℕ} (hi : i ∈ C.allocated.map Prod.fst ++ C.unallocated) :
    i < C.indexCount := List.mem_range.mp (C.indices.subset hi)

lemma ne_of_unallocated (C : Clusters β) {i : ℕ} (hi : i ∈ C.unallocated) {p : ℕ × β}
    (hp : p ∈ C.allocated) : p.1 ≠ i := by
  have hnodup : (C.allocated.map Prod.fst ++ C.unallocated).Nodup :=
    C.indices.nodup_iff.mpr List.nodup_range
  have hdisjoint := List.disjoint_of_nodup_append hnodup
  intro h
  exact hdisjoint (List.mem_map_of_mem hp) (h ▸ hi)

def init (indexCount freeMax : ℕ) : Clusters β where
  allocated := []
  unallocated := List.range indexCount
  free := []
  indexCount := indexCount
  freeMax := freeMax
  indices := List.Perm.refl _
  blocks := List.nodup_nil
  free_le := Nat.zero_le _

lemma range_mul_two (n : ℕ) : List.range (n * 2) = List.range n ++ List.range' n n := by
  have happend := List.range'_append_1 (s := 0) (m := n) (n := n)
  rw [Nat.zero_add] at happend
  rw [mul_two, List.range_eq_range', List.range_eq_range', happend]

/-- As many new indices as there are. -/
def grow (C : Clusters β) : Clusters β where
  allocated := C.allocated
  unallocated := C.unallocated ++ List.range' C.indexCount C.indexCount
  free := C.free
  indexCount := C.indexCount * 2
  freeMax := C.freeMax
  indices := by
    rw [range_mul_two, ← List.append_assoc]
    exact C.indices.append_right _
  blocks := C.blocks
  free_le := C.free_le

/-- The next index gets a new block. -/
def addFresh (C : Clusters β) {i : ℕ} {rest : List ℕ} (hi : C.unallocated = i :: rest) {b : β}
    (hb : b ∉ C.owned) : Clusters β where
  allocated := C.allocated ++ [(i, b)]
  unallocated := rest
  free := C.free
  indexCount := C.indexCount
  freeMax := C.freeMax
  indices := by
    have h := C.indices
    rw [hi] at h
    simpa using h
  blocks := by
    have hperm : ((C.allocated ++ [(i, b)]).map Prod.snd ++ C.free).Perm (b :: C.owned) := by
      rw [List.map_append, List.append_assoc]
      exact List.perm_middle
    exact hperm.nodup_iff.mpr (List.nodup_cons.mpr ⟨hb, C.blocks⟩)
  free_le := C.free_le

/-- The next index gets the block that was kept last. -/
def addKept (C : Clusters β) {i : ℕ} {rest : List ℕ} (hi : C.unallocated = i :: rest)
    {kept : List β} {b : β} (hb : C.free = kept ++ [b]) : Clusters β where
  allocated := C.allocated ++ [(i, b)]
  unallocated := rest
  free := kept
  indexCount := C.indexCount
  freeMax := C.freeMax
  indices := by
    have h := C.indices
    rw [hi] at h
    simpa using h
  blocks := by
    have hperm : ((C.allocated ++ [(i, b)]).map Prod.snd ++ kept).Perm
        (C.allocated.map Prod.snd ++ C.free) := by
      rw [List.map_append, List.append_assoc, hb]
      exact (List.perm_append_comm).append_left _
    exact hperm.nodup_iff.mpr C.blocks
  free_le := by
    have h := C.free_le
    rw [hb, List.length_append] at h
    omega

lemma indices_removed (C : Clusters β) {i : ℕ} {b : β} {rest : List (ℕ × β)}
    (hC : C.allocated = (i, b) :: rest) :
    (rest.map Prod.fst ++ (C.unallocated ++ [i])).Perm (List.range C.indexCount) := by
  have h := C.indices
  rw [hC, List.map_cons, List.cons_append] at h
  rw [← List.append_assoc]
  exact (List.perm_append_singleton i _).trans h

/-- The oldest index becomes unallocated and its block is kept. -/
def keepBack (C : Clusters β) {i : ℕ} {b : β} {rest : List (ℕ × β)}
    (hC : C.allocated = (i, b) :: rest) (hfree : C.free.length < C.freeMax) : Clusters β where
  allocated := rest
  unallocated := C.unallocated ++ [i]
  free := C.free ++ [b]
  indexCount := C.indexCount
  freeMax := C.freeMax
  indices := C.indices_removed hC
  blocks := by
    have h := C.blocks
    rw [hC, List.map_cons, List.cons_append] at h
    rw [← List.append_assoc]
    exact (List.perm_append_singleton b _).nodup_iff.mpr h
  free_le := by
    rw [List.length_append, List.length_singleton]
    exact hfree

/-- The oldest index becomes unallocated and its block is given back. -/
def freeBack (C : Clusters β) {i : ℕ} {b : β} {rest : List (ℕ × β)}
    (hC : C.allocated = (i, b) :: rest) : Clusters β where
  allocated := rest
  unallocated := C.unallocated ++ [i]
  free := C.free
  indexCount := C.indexCount
  freeMax := C.freeMax
  indices := C.indices_removed hC
  blocks := by
    have h := C.blocks
    rw [hC, List.map_cons, List.cons_append] at h
    exact (List.nodup_cons.mp h).2
  free_le := C.free_le

/-! ### Indices in order -/

/-- The indices have been taken in order, and none has come back. -/
def InOrder (C : Clusters β) : Prop :=
  C.allocated.map Prod.fst ++ C.unallocated = List.range C.indexCount

lemma InOrder.grow {C : Clusters β} (h : C.InOrder) : C.grow.InOrder := by
  change C.allocated.map Prod.fst ++ (C.unallocated ++ List.range' C.indexCount C.indexCount) =
    List.range (C.indexCount * 2)
  rw [range_mul_two, ← List.append_assoc]
  exact congrArg (· ++ _) h

/-- The cluster that is `n` places from the back has the index `n`. -/
lemma InOrder.map_fst {C : Clusters β} (h : C.InOrder) :
    C.allocated.map Prod.fst = List.range C.allocated.length := by
  have hsum := C.length_indices
  have htake := congrArg (List.take C.allocated.length) h
  rw [List.take_left' (List.length_map _), List.take_range, min_eq_left (by omega)] at htake
  exact htake

lemma InOrder.getLast?_fst {C : Clusters β} (h : C.InOrder) {n : ℕ}
    (hlen : C.allocated.length = n + 1) : (C.allocated.map Prod.fst).getLast? = some n := by
  rw [h.map_fst, hlen, List.getLast?_range, if_neg (Nat.succ_ne_zero n), Nat.add_sub_cancel]

/-- `C'` has one more cluster than `C`, at the front. -/
structure AddsFront (C C' : Clusters β) : Prop where
  allocated : ∃ p, C'.allocated = C.allocated ++ [p]
  freeMax : C'.freeMax = C.freeMax
  inOrder : C.InOrder → C'.InOrder

lemma addsFront_of_next {C C' : Clusters β} {i : ℕ} {b : β} {rest : List ℕ}
    (hi : C.unallocated = i :: rest) (hallocated : C'.allocated = C.allocated ++ [(i, b)])
    (hunallocated : C'.unallocated = rest) (hcount : C'.indexCount = C.indexCount)
    (hmax : C'.freeMax = C.freeMax) : AddsFront C C' where
  allocated := ⟨(i, b), hallocated⟩
  freeMax := hmax
  inOrder := by
    intro h
    unfold InOrder at h ⊢
    rw [hi] at h
    rw [hallocated, hunallocated, hcount, ← h]
    simp

/-! ### The blocks owned after an operation -/

lemma mem_owned_addFresh (C : Clusters β) {i : ℕ} {rest : List ℕ}
    (hi : C.unallocated = i :: rest) {b : β} (hb : b ∉ C.owned) (c : β) :
    c ∈ (C.addFresh hi hb).owned ↔ c = b ∨ c ∈ C.owned := by
  simp only [owned, addFresh, List.map_append, List.mem_append, List.map_cons, List.map_nil,
    List.mem_singleton]
  tauto

lemma mem_owned_addKept (C : Clusters β) {i : ℕ} {rest : List ℕ}
    (hi : C.unallocated = i :: rest) {kept : List β} {b : β} (hb : C.free = kept ++ [b]) (c : β) :
    c ∈ (C.addKept hi hb).owned ↔ c ∈ C.owned := by
  simp only [owned, addKept, hb, List.map_append, List.mem_append, List.map_cons, List.map_nil,
    List.mem_singleton]
  tauto

lemma mem_owned_keepBack (C : Clusters β) {i : ℕ} {b : β} {rest : List (ℕ × β)}
    (hC : C.allocated = (i, b) :: rest) (hfree : C.free.length < C.freeMax) (c : β) :
    c ∈ (C.keepBack hC hfree).owned ↔ c ∈ C.owned := by
  simp only [owned, keepBack, hC, List.mem_append, List.map_cons, List.mem_cons,
    List.not_mem_nil, or_false]
  tauto

lemma mem_owned_freeBack (C : Clusters β) {i : ℕ} {b : β} {rest : List (ℕ × β)}
    (hC : C.allocated = (i, b) :: rest) (c : β) :
    c ∈ (C.freeBack hC).owned ↔ c ≠ b ∧ c ∈ C.owned := by
  have hnodup := C.blocks
  rw [hC, List.map_cons, List.cons_append, List.nodup_cons] at hnodup
  have howned : C.owned = b :: (C.freeBack hC).owned := by
    simp only [owned, freeBack, hC, List.map_cons, List.cons_append]
  rw [howned, List.mem_cons]
  have hb : b ∉ (C.freeBack hC).owned := hnodup.1
  constructor
  · intro h
    exact ⟨ne_of_mem_of_not_mem h hb, Or.inr h⟩
  · rintro ⟨hne, hcb | hmem⟩
    · exact absurd hcb hne
    · exact hmem

end Clusters

end Utilc
