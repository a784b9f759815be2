import Utilc.CLib.Checked

/-!
# The heap

A heap gives the bytes of every live block. `malloc` may hand out any address that is not live, and
whoever calls the model names it. Freeing an address that is not live is a fault: frees that do not
fault free no block twice, and frees that leave the heap empty lose none.
-/

namespace CLib

/-- The blocks by address. A byte that was never written has no value. -/
abbrev Heap := ℕ → Option (List (Option (BitVec 8)))

namespace Heap

def empty : Heap := fun _ => none

def Live (heap : Heap) (block : ℕ) : Prop := (heap block).isSome

instance (heap : Heap) (block : ℕ) : Decidable (heap.Live block) :=
  inferInstanceAs (Decidable ((heap block).isSome = true))

def malloc (heap : Heap) (block size : ℕ) : Checked Heap :=
  if heap.Live block then .error .outOfMemory
  else .ok (Function.update heap block (some (List.replicate size none)))

def free (heap : Heap) (block : ℕ) : Checked Heap :=
  if heap.Live block then .ok (Function.update heap block none) else .error .badFree

/-- `memcpy(block + offset, bytes, ...)`. -/
def store (heap : Heap) (block offset : ℕ) (bytes : List (Option (BitVec 8))) : Checked Heap :=
  match heap block with
  | none => .error .outOfBounds
  | some cells => do
    let cells ← copyAt cells offset bytes 0 bytes.length
    return Function.update heap block (some cells)

def load (heap : Heap) (block offset size : ℕ) : Checked (List (Option (BitVec 8))) :=
  match heap block with
  | none => .error .outOfBounds
  | some cells =>
    if offset + size ≤ cells.length then .ok ((cells.drop offset).take size)
    else .error .outOfBounds

def freeAll : Heap → List ℕ → Checked Heap
  | heap, [] => .ok heap
  | heap, block :: blocks => do
    let heap ← heap.free block
    heap.freeAll blocks

@[simp] lemma not_live_empty (block : ℕ) : ¬empty.Live block := by
  simp [Live, empty]

lemma eq_empty {heap : Heap} (h : ∀ block, ¬heap.Live block) : heap = empty := by
  funext block
  exact Option.not_isSome_iff_eq_none.mp (h block)

lemma live_update_some {heap : Heap} {block c : ℕ} {cells : List (Option (BitVec 8))} :
    Live (Function.update heap block (some cells)) c ↔ c = block ∨ heap.Live c := by
  by_cases h : c = block
  · subst h
    simp [Live]
  · simp [Live, h]

lemma live_update_none {heap : Heap} {block c : ℕ} :
    Live (Function.update heap block none) c ↔ c ≠ block ∧ heap.Live c := by
  by_cases h : c = block
  · subst h
    simp [Live]
  · simp [Live, h]

lemma malloc_eq_ok {heap heap' : Heap} {block size : ℕ} (h : heap.malloc block size = .ok heap') :
    ¬heap.Live block ∧ ∀ c, heap'.Live c ↔ c = block ∨ heap.Live c := by
  unfold malloc at h
  split at h
  · cases h
  next hdead =>
    cases h
    exact ⟨hdead, fun c => live_update_some⟩

lemma malloc_of_dead {heap : Heap} {block : ℕ} (h : ¬heap.Live block) (size : ℕ) :
    ∃ heap', heap.malloc block size = .ok heap' := ⟨_, if_neg h⟩

lemma free_of_live {heap : Heap} {block : ℕ} (h : heap.Live block) :
    ∃ heap', heap.free block = .ok heap' ∧ ∀ c, heap'.Live c ↔ c ≠ block ∧ heap.Live c :=
  ⟨_, if_pos h, fun _ => live_update_none⟩

lemma free_eq_ok {heap heap' : Heap} {block : ℕ} (h : heap.free block = .ok heap') :
    heap.Live block ∧ ∀ c, heap'.Live c ↔ c ≠ block ∧ heap.Live c := by
  unfold free at h
  split at h
  next hlive =>
    cases h
    exact ⟨hlive, fun c => live_update_none⟩
  · cases h

lemma store_eq_ok {heap heap' : Heap} {block offset : ℕ} {bytes : List (Option (BitVec 8))}
    (h : heap.store block offset bytes = .ok heap') :
    ∃ cells cells', heap block = some cells ∧ cells'.length = cells.length ∧
      heap' = Function.update heap block (some cells') := by
  unfold store at h
  split at h
  · cases h
  next cells hcells =>
    obtain ⟨cells', hcopy, hresult⟩ := bind_eq_ok.mp h
    cases hresult
    refine ⟨cells, cells', hcells, ?_, rfl⟩
    unfold copyAt at hcopy
    split at hcopy
    next hfit =>
      cases hcopy
      exact length_copy hfit.1 hfit.2
    next => cases hcopy

lemma live_store {heap heap' : Heap} {block offset : ℕ} {bytes : List (Option (BitVec 8))}
    (h : heap.store block offset bytes = .ok heap') (c : ℕ) : heap'.Live c ↔ heap.Live c := by
  obtain ⟨cells, cells', hcells, -, rfl⟩ := store_eq_ok h
  rw [live_update_some, or_iff_right_iff_imp]
  rintro rfl
  rw [Live, hcells]
  rfl

lemma store_of_le {heap : Heap} {block offset : ℕ} {cells bytes : List (Option (BitVec 8))}
    (hcells : heap block = some cells) (hle : offset + bytes.length ≤ cells.length) :
    ∃ heap', heap.store block offset bytes = .ok heap' := by
  have hsrc : 0 + bytes.length ≤ bytes.length := by rw [Nat.zero_add]
  simp only [store, hcells, copyAt_of_le hle hsrc, ok_bind, pure_eq_ok]
  exact ⟨_, rfl⟩

/-- A store changes one block. -/
lemma store_of_ne {heap heap' : Heap} {block offset : ℕ} {bytes : List (Option (BitVec 8))}
    (h : heap.store block offset bytes = .ok heap') {c : ℕ} (hc : c ≠ block) : heap' c = heap c := by
  obtain ⟨cells, cells', -, -, rfl⟩ := store_eq_ok h
  exact Function.update_of_ne hc _ _

lemma malloc_of_live {heap heap' : Heap} {block size : ℕ} (h : heap.malloc block size = .ok heap')
    {c : ℕ} (hc : heap.Live c) : heap' c = heap c := by
  unfold malloc at h
  split at h
  · cases h
  next hdead =>
    cases h
    have hne : c ≠ block := by
      rintro rfl
      exact hdead hc
    exact Function.update_of_ne hne _ _

lemma load_congr {heap heap' : Heap} {block : ℕ} (h : heap' block = heap block) (offset size : ℕ) :
    heap'.load block offset size = heap.load block offset size := by
  rw [load, load, h]

/-! ### Blocks of one size -/

def Uniform (heap : Heap) (size : ℕ) : Prop := ∀ block cells, heap block = some cells →
  cells.length = size

lemma uniform_empty (size : ℕ) : empty.Uniform size := by
  intro block cells h
  cases h

lemma Uniform.update {heap : Heap} {size : ℕ} (h : heap.Uniform size) (block : ℕ)
    {cells : Option (List (Option (BitVec 8)))} (hcells : ∀ c, cells = some c → c.length = size) :
    Uniform (Function.update heap block cells) size := by
  intro b c hb
  by_cases he : b = block
  · subst he
    rw [Function.update_self] at hb
    exact hcells c hb
  · rw [Function.update_of_ne he] at hb
    exact h b c hb

lemma Uniform.malloc {heap heap' : Heap} {size block : ℕ} (h : heap.Uniform size)
    (hmalloc : heap.malloc block size = .ok heap') : heap'.Uniform size := by
  unfold Heap.malloc at hmalloc
  split at hmalloc
  · cases hmalloc
  next =>
    cases hmalloc
    apply h.update
    intro c hc
    rw [← Option.some.inj hc, List.length_replicate]

lemma Uniform.free {heap heap' : Heap} {size block : ℕ} (h : heap.Uniform size)
    (hfree : heap.free block = .ok heap') : heap'.Uniform size := by
  unfold Heap.free at hfree
  split at hfree
  next =>
    cases hfree
    apply h.update
    intro c hc
    cases hc
  next => cases hfree

lemma Uniform.store {heap heap' : Heap} {size block offset : ℕ}
    {bytes : List (Option (BitVec 8))} (h : heap.Uniform size)
    (hstore : heap.store block offset bytes = .ok heap') : heap'.Uniform size := by
  obtain ⟨cells, cells', hcells, hlen, rfl⟩ := store_eq_ok hstore
  apply h.update
  intro c hc
  rw [← Option.some.inj hc, hlen]
  exact h block cells hcells

/-! ### Freeing several blocks -/

lemma freeAll_append (heap : Heap) (bs cs : List ℕ) :
    heap.freeAll (bs ++ cs) = (do (← heap.freeAll bs).freeAll cs) := by
  induction bs generalizing heap with
  | nil => rfl
  | cons b bs ih =>
    cases hb : heap.free b with
    | error e => simp [freeAll, hb]
    | ok heap' => simp [freeAll, hb, ih]

/-- Distinct live blocks can be freed, and nothing else is. -/
lemma freeAll_ok {heap : Heap} {blocks : List ℕ} (hnodup : blocks.Nodup)
    (hlive : ∀ block ∈ blocks, heap.Live block) :
    ∃ heap', heap.freeAll blocks = .ok heap' ∧ ∀ c, heap'.Live c ↔ c ∉ blocks ∧ heap.Live c := by
  induction blocks generalizing heap with
  | nil => exact ⟨heap, rfl, by simp⟩
  | cons block blocks ih =>
    obtain ⟨hnot, hnodup'⟩ := List.nodup_cons.mp hnodup
    obtain ⟨mid, hmid, hmidlive⟩ := free_of_live (hlive block List.mem_cons_self)
    have hrest : ∀ b ∈ blocks, mid.Live b := by
      intro b hb
      rw [hmidlive]
      exact ⟨ne_of_mem_of_not_mem hb hnot, hlive b (List.mem_cons_of_mem _ hb)⟩
    obtain ⟨heap', hok, hlive'⟩ := ih hnodup' hrest
    refine ⟨heap', by rw [freeAll, hmid, ok_bind, hok], fun c => ?_⟩
    rw [hlive', hmidlive, List.mem_cons, not_or]
    tauto

/-- Freeing exactly the live blocks, each once, empties the heap. -/
theorem freeAll_exact {heap : Heap} {blocks : List ℕ} (hnodup : blocks.Nodup)
    (hlive : ∀ block, heap.Live block ↔ block ∈ blocks) : heap.freeAll blocks = .ok empty := by
  obtain ⟨heap', hok, hlive'⟩ := freeAll_ok hnodup (fun block hb => (hlive block).mpr hb)
  have hdead : ∀ c, ¬heap'.Live c := by
    intro c
    rw [hlive', hlive]
    tauto
  rw [hok, eq_empty hdead]

end Heap

end CLib
