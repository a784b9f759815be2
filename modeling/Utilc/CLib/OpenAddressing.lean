import Mathlib.Algebra.BigOperators.Group.Finset.Basic
import Mathlib.Algebra.Order.BigOperators.Group.Finset
import Mathlib.Data.Finmap
import Mathlib.Tactic

/-!
# Open addressing

A table whose entries lie in numbered slots. The key of an entry has a path of slots, and a search
follows it until it finds the key or an empty slot; a slot whose entry was removed is marked deleted,
so that searches go on past it. `Valid` is what makes such searches right. The paths, the number of
slots, the keys and the values are arbitrary.
-/

namespace CLib

open Finset

/-- The content of a slot. -/
inductive Slot (K V : Type) where
  | empty
  | deleted
  | live (key : K) (val : V)
  deriving DecidableEq, Repr

namespace Slot

variable {K V : Type}

def isEmpty : Slot K V → Bool
  | .empty => true
  | _ => false

def isDeleted : Slot K V → Bool
  | .deleted => true
  | _ => false

def isLive : Slot K V → Bool
  | .live _ _ => true
  | _ => false

def entries : Slot K V → Multiset (Sigma fun _ : K => V)
  | .live key val => {⟨key, val⟩}
  | _ => 0

/-- 1 for a slot that a search goes past or stops in front of, 0 for an empty one. -/
def weight (s : Slot K V) : ℕ := if s.isEmpty then 0 else 1

lemma isEmpty_iff {s : Slot K V} : s.isEmpty = true ↔ s = .empty := by
  cases s <;> simp [isEmpty]

lemma isDeleted_iff {s : Slot K V} : s.isDeleted = true ↔ s = .deleted := by
  cases s <;> simp [isDeleted]

lemma isLive_iff {s : Slot K V} : s.isLive = true ↔ ∃ k v, s = .live k v := by
  cases s <;> simp [isLive]

lemma weight_of_ne {s : Slot K V} (h : s ≠ .empty) : s.weight = 1 := by
  rw [weight, if_neg (mt isEmpty_iff.mp h)]

lemma mem_entries {s : Slot K V} {k : K} {v : V} : ⟨k, v⟩ ∈ s.entries ↔ s = .live k v := by
  cases s with
  | empty => simp [entries]
  | deleted => simp [entries]
  | live k' v' => simp [entries, eq_comm]

lemma card_entries_le (s : Slot K V) : s.entries.card ≤ s.weight := by
  cases s <;> simp [entries, weight, isEmpty]

/-- Nothing in the slot counts as an entry. -/
lemma entries_of_not_live {s : Slot K V} (h : ∀ k v, s ≠ .live k v) : s.entries = 0 := by
  cases s with
  | empty => rfl
  | deleted => rfl
  | live k v => exact absurd rfl (h k v)

end Slot

/-- A sum over the slots after one of them has changed. -/
lemma sum_update {α M : Type} [AddCommMonoid M] (f : α → M) (slots : ℕ → α) {n i : ℕ} (hi : i < n)
    (x : α) :
    ∑ j ∈ range n, f (Function.update slots i x j) + f (slots i) =
      ∑ j ∈ range n, f (slots j) + f x := by
  have hmem : i ∈ range n := mem_range.mpr hi
  have hrest : ∑ j ∈ (range n).erase i, f (Function.update slots i x j) =
      ∑ j ∈ (range n).erase i, f (slots j) := by
    apply sum_congr rfl
    intro j hj
    rw [Function.update_of_ne (ne_of_mem_erase hj)]
  rw [← add_sum_erase _ _ hmem, ← add_sum_erase _ (fun j => f (slots j)) hmem, hrest,
    Function.update_self]
  ac_rfl

namespace OpenAddressing

variable {K V : Type}

/-- The entries of the first `n` slots. -/
def contents (n : ℕ) (slots : ℕ → Slot K V) : Multiset (Sigma fun _ : K => V) :=
  ∑ i ∈ range n, (slots i).entries

/-- How many of the first `n` slots are not empty. -/
def occupied (n : ℕ) (slots : ℕ → Slot K V) : ℕ := ∑ i ∈ range n, (slots i).weight

lemma mem_contents {n : ℕ} {slots : ℕ → Slot K V} {k : K} {v : V} :
    ⟨k, v⟩ ∈ contents n slots ↔ ∃ i < n, slots i = .live k v := by
  simp only [contents, Multiset.mem_sum, mem_range, Slot.mem_entries]

lemma card_contents_le (n : ℕ) (slots : ℕ → Slot K V) :
    (contents n slots).card ≤ occupied n slots := by
  unfold contents occupied
  rw [Multiset.card_sum]
  exact sum_le_sum fun i _ => (slots i).card_entries_le

lemma occupied_le (n : ℕ) (slots : ℕ → Slot K V) : occupied n slots ≤ n := by
  calc occupied n slots ≤ ∑ _i ∈ range n, 1 := by
        apply sum_le_sum
        intro i _
        unfold Slot.weight
        split <;> omega
    _ = n := by rw [sum_const, card_range, smul_eq_mul, mul_one]

/-- Slots that are not empty are counted by `occupied`. -/
lemma card_le_occupied {n : ℕ} {slots : ℕ → Slot K V} {used : Finset ℕ}
    (hused : ∀ i ∈ used, i < n ∧ slots i ≠ .empty) : used.card ≤ occupied n slots := by
  have hsub : used ⊆ range n := fun i hi => mem_range.mpr (hused i hi).1
  calc used.card = ∑ _i ∈ used, 1 := card_eq_sum_ones used
    _ = ∑ i ∈ used, (slots i).weight :=
        sum_congr rfl fun i hi => (Slot.weight_of_ne (hused i hi).2).symm
    _ ≤ occupied n slots := sum_le_sum_of_subset hsub

/-- Without deleted slots a slot that is not empty holds an entry. -/
lemma occupied_eq_card {n : ℕ} {slots : ℕ → Slot K V} (h : ∀ i < n, (slots i).isDeleted = false) :
    occupied n slots = (contents n slots).card := by
  unfold contents occupied
  rw [Multiset.card_sum]
  apply sum_congr rfl
  intro i hi
  have hdel := h i (mem_range.mp hi)
  cases hslot : slots i with
  | empty => rfl
  | deleted =>
    rw [hslot] at hdel
    cases hdel
  | live k v => rfl

/-- An entry that is deleted. -/
lemma contents_delete {n x : ℕ} {slots : ℕ → Slot K V} {k : K} {v : V} (hx : x < n)
    (hlive : slots x = .live k v) :
    contents n slots = ⟨k, v⟩ ::ₘ contents n (Function.update slots x .deleted) := by
  have hsum := sum_update Slot.entries slots hx .deleted
  rw [hlive] at hsum
  rw [← Multiset.singleton_add, Multiset.add_comm]
  exact (Multiset.add_zero _).symm.trans hsum.symm

/-- A table that is not full has an empty slot. -/
lemma exists_empty {n : ℕ} {slots : ℕ → Slot K V} (h : occupied n slots < n) :
    ∃ i < n, slots i = .empty := by
  by_contra hall
  push Not at hall
  have hfull : occupied n slots = n := by
    calc occupied n slots = ∑ _i ∈ range n, 1 :=
          sum_congr rfl fun i hi => Slot.weight_of_ne (hall i (mem_range.mp hi))
      _ = n := by rw [sum_const, card_range, smul_eq_mul, mul_one]
  omega

lemma contents_empty (n : ℕ) : contents n (fun _ => (.empty : Slot K V)) = 0 := sum_const_zero

lemma occupied_empty (n : ℕ) : occupied n (fun _ => (.empty : Slot K V)) = 0 := sum_const_zero

/-! ### Valid tables -/

/-- No key is there twice, and between the start of the path of an entry and the entry itself no slot
is empty. -/
structure Valid (path : K → ℕ → ℕ) (n : ℕ) (slots : ℕ → Slot K V) : Prop where
  nodupKeys : (contents n slots).NodupKeys
  reach : ∀ i < n, ∀ k v, slots i = .live k v →
    ∃ s, path k s = i ∧ ∀ t < s, slots (path k t) ≠ .empty

/-- A search for `k` that stops at slot `i`. -/
def Stops (slots : ℕ → Slot K V) (k : K) (i : ℕ) : Prop :=
  slots i = .empty ∨ ∃ v, slots i = .live k v

/-- A path that leads to an empty slot comes to a first one. -/
lemma exists_first_empty {path : ℕ → ℕ} {slots : ℕ → Slot K V} {s : ℕ}
    (h : slots (path s) = .empty) :
    ∃ f ≤ s, slots (path f) = .empty ∧ ∀ t < f, slots (path t) ≠ .empty := by
  classical
  have hex : ∃ t, slots (path t) = .empty := ⟨s, h⟩
  exact ⟨Nat.find hex, Nat.find_min' hex h, Nat.find_spec hex, fun t ht => Nat.find_min hex ht⟩

lemma not_stops_iff {slots : ℕ → Slot K V} {k : K} {i : ℕ} :
    ¬Stops slots k i ↔ slots i = .deleted ∨ ∃ k' v, k' ≠ k ∧ slots i = .live k' v := by
  unfold Stops
  cases hi : slots i with
  | empty => simp
  | deleted => simp
  | live k' v' => simp [eq_comm]

namespace Valid

variable {path : K → ℕ → ℕ} {n : ℕ} {slots : ℕ → Slot K V}

/-- The finite map that a table stands for. -/
def toFinmap (h : Valid path n slots) : Finmap fun _ : K => V := ⟨contents n slots, h.nodupKeys⟩

lemma lookup_eq_some [DecidableEq K] (h : Valid path n slots) {k : K} {v : V} :
    h.toFinmap.lookup k = some v ↔ ∃ i < n, slots i = .live k v := by
  rw [Finmap.lookup_eq_some_iff]
  exact mem_contents

lemma lookup_eq_none [DecidableEq K] (h : Valid path n slots) {k : K} :
    h.toFinmap.lookup k = none ↔ ∀ i < n, ∀ v, slots i ≠ .live k v := by
  rw [Option.eq_none_iff_forall_ne_some]
  simp only [ne_eq, h.lookup_eq_some, not_exists, not_and]
  exact ⟨fun hall i hi v => hall v i hi, fun hall v i hi => hall i hi v⟩

/-- A search that comes to an empty slot has not missed the key. -/
lemma lookup_of_empty [DecidableEq K] (h : Valid path n slots) {k : K} {s : ℕ}
    (hempty : slots (path k s) = .empty) (hpassed : ∀ t < s, ¬Stops slots k (path k t)) :
    h.toFinmap.lookup k = none := by
  rw [h.lookup_eq_none]
  intro i hi v hlive
  obtain ⟨r, rfl, hreach⟩ := h.reach i hi k v hlive
  rcases lt_trichotomy r s with hr | rfl | hr
  · exact hpassed r hr (Or.inr ⟨v, hlive⟩)
  · rw [hempty] at hlive
    cases hlive
  · exact hreach s hr hempty

/-- A table without entries. -/
lemma empty (path : K → ℕ → ℕ) (n : ℕ) : Valid path n (fun _ => (.empty : Slot K V)) := by
  constructor
  · rw [contents_empty]
    exact List.nodupKeys_nil
  · intro i hi k v hlive
    cases hlive

/-! ### Changing a table -/

lemma reach_update (h : Valid path n slots) {x : ℕ} {slot : Slot K V} (hslot : slot ≠ .empty) {i : ℕ}
    (hi : i < n) {k : K} {v : V} (hlive : slots i = .live k v) :
    ∃ s, path k s = i ∧ ∀ t < s, Function.update slots x slot (path k t) ≠ .empty := by
  obtain ⟨s, hs, hreach⟩ := h.reach i hi k v hlive
  refine ⟨s, hs, fun t ht => ?_⟩
  by_cases he : path k t = x
  · rwa [he, Function.update_self]
  · rw [Function.update_of_ne he]
    exact hreach t ht

/-- A new entry in a slot on the path of its key that is free, with no empty slot before it. -/
lemma insert [DecidableEq K] (h : Valid path n slots) {k : K} {s x : ℕ} (hx : x < n)
    (hpath : path k s = x) (hfree : ∀ k v, slots x ≠ .live k v)
    (hpassed : ∀ t < s, slots (path k t) ≠ .empty) (hnew : h.toFinmap.lookup k = none) (v : V) :
    ∃ h' : Valid path n (Function.update slots x (.live k v)),
      h'.toFinmap = h.toFinmap.insert k v ∧
      contents n (Function.update slots x (.live k v)) = ⟨k, v⟩ ::ₘ contents n slots := by
  have hsum := sum_update Slot.entries slots hx (.live k v)
  have hcontents : contents n (Function.update slots x (.live k v)) = ⟨k, v⟩ ::ₘ contents n slots := by
    rw [Slot.entries_of_not_live hfree, Multiset.add_zero] at hsum
    rw [← Multiset.singleton_add, Multiset.add_comm]
    exact hsum
  have hvalid : Valid path n (Function.update slots x (.live k v)) := by
    constructor
    · rw [hcontents, ← Multiset.nodup_keys, Multiset.keys_cons, Multiset.nodup_cons]
      refine ⟨?_, h.nodupKeys.nodup_keys⟩
      rw [Finmap.lookup_eq_none] at hnew
      exact hnew
    · intro i hi k' v' hlive
      by_cases he : i = x
      · subst he
        rw [Function.update_self] at hlive
        cases hlive
        refine ⟨s, hpath, fun t ht => ?_⟩
        by_cases het : path k t = i
        · rw [het, Function.update_self]
          exact nofun
        · rw [Function.update_of_ne het]
          exact hpassed t ht
      · rw [Function.update_of_ne he] at hlive
        have hslot : Slot.live k v ≠ .empty := nofun
        exact h.reach_update hslot hi hlive
  refine ⟨hvalid, ?_, hcontents⟩
  apply Finmap.ext
  rw [Finmap.entries_insert_of_notMem (Finmap.lookup_eq_none.mp hnew)]
  exact hcontents

/-- Removing an entry. -/
lemma delete [DecidableEq K] (h : Valid path n slots) {k : K} {v : V} {x : ℕ} (hx : x < n)
    (hlive : slots x = .live k v) :
    ∃ h' : Valid path n (Function.update slots x .deleted),
      h'.toFinmap = h.toFinmap.erase k ∧
      contents n slots = ⟨k, v⟩ ::ₘ contents n (Function.update slots x .deleted) := by
  have hcontents := contents_delete hx hlive
  have hkeys := h.nodupKeys.nodup_keys
  rw [hcontents, Multiset.keys_cons, Multiset.nodup_cons] at hkeys
  have hvalid : Valid path n (Function.update slots x .deleted) := by
    constructor
    · exact Multiset.nodup_keys.mp hkeys.2
    · intro i hi k' v' hlive'
      by_cases he : i = x
      · subst he
        rw [Function.update_self] at hlive'
        cases hlive'
      · rw [Function.update_of_ne he] at hlive'
        have hslot : (Slot.deleted : Slot K V) ≠ .empty := nofun
        exact h.reach_update hslot hi hlive'
  refine ⟨hvalid, ?_, hcontents⟩
  apply Finmap.ext_lookup
  intro k'
  by_cases hk : k' = k
  · subst hk
    rw [Finmap.lookup_erase, Finmap.lookup_eq_none]
    exact hkeys.1
  · rw [Finmap.lookup_erase_ne hk]
    apply Option.ext
    intro w
    rw [hvalid.lookup_eq_some, h.lookup_eq_some]
    constructor
    · rintro ⟨i, hi, hw⟩
      by_cases he : i = x
      · subst he
        rw [Function.update_self] at hw
        cases hw
      · rw [Function.update_of_ne he] at hw
        exact ⟨i, hi, hw⟩
    · rintro ⟨i, hi, hw⟩
      have he : i ≠ x := by
        rintro rfl
        rw [hlive] at hw
        cases hw
        exact hk rfl
      exact ⟨i, hi, by rwa [Function.update_of_ne he]⟩

/-- Another value for an entry. -/
lemma setVal [DecidableEq K] (h : Valid path n slots) {k : K} {v : V} {x : ℕ} (hx : x < n)
    (hlive : slots x = .live k v) (w : V) :
    ∃ h' : Valid path n (Function.update slots x (.live k w)),
      h'.toFinmap = h.toFinmap.insert k w := by
  obtain ⟨hdeleted, hmap, hcontents⟩ := h.delete hx hlive
  obtain ⟨s, hs, hreach⟩ := h.reach x hx k v hlive
  have hfree : ∀ k v, Function.update slots x .deleted x ≠ .live k v := by
    rw [Function.update_self]
    exact nofun
  have hpassed : ∀ t < s, Function.update slots x .deleted (path k t) ≠ .empty := by
    intro t ht
    by_cases he : path k t = x
    · rw [he, Function.update_self]
      exact nofun
    · rw [Function.update_of_ne he]
      exact hreach t ht
  have hnew : hdeleted.toFinmap.lookup k = none := by
    rw [hmap, Finmap.lookup_erase]
  have hinsert := hdeleted.insert hx hs hfree hpassed hnew w
  rw [Function.update_idem] at hinsert
  obtain ⟨h', hmap', -⟩ := hinsert
  refine ⟨h', ?_⟩
  rw [hmap', hmap]
  apply Finmap.ext_lookup
  intro k'
  by_cases hk : k' = k
  · subst hk
    rw [Finmap.lookup_insert, Finmap.lookup_insert]
  · rw [Finmap.lookup_insert_of_ne _ hk, Finmap.lookup_insert_of_ne _ hk, Finmap.lookup_erase_ne hk]

end Valid

end OpenAddressing

end CLib
