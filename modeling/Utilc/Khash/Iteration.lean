import Utilc.Khash.Reachable

/-!
# Iterating over a table

`kh_foreach` runs its code once for each key of a map, with the value that a search for the key finds.
-/

namespace Utilc
open CLib OpenAddressing

variable {K V : Type}

/-- The entry of a slot whose value was written. -/
def assignedEntry : Slot K (Option V) → Option (K × V)
  | .live k v => v.map fun v => (k, v)
  | _ => none

/-- The entries of the first `n` slots in their order. -/
def entriesInOrder (slots : ℕ → Slot K (Option V)) (n : ℕ) : List (K × V) :=
  (List.range n).filterMap fun i => assignedEntry (slots i)

/-- An entry as the maps have it. -/
def toSigma (e : K × V) : Sigma fun _ : K => Option V := ⟨e.1, some e.2⟩

variable {hashFunc : K → BitVec 32} {h : KHash K V} {slots : ℕ → Slot K (Option V)}

lemma contents_eq_entriesInOrder {n : ℕ}
    (hassigned : ∀ i < n, ∀ k v, slots i = .live k v → v.isSome = true) :
    contents n slots = ↑((entriesInOrder slots n).map toSigma) := by
  induction n with
  | zero => rfl
  | succ n ih =>
    have hlast : (slots n).entries = ↑((assignedEntry (slots n)).toList.map toSigma) := by
      cases hslot : slots n with
      | empty => rfl
      | deleted => rfl
      | live k v =>
        obtain ⟨w, rfl⟩ := Option.isSome_iff_exists.mp (hassigned n (Nat.lt_succ_self n) k v hslot)
        rfl
    have hprev := ih fun i hi => hassigned i (hi.trans (Nat.lt_succ_self n))
    have hsplit : entriesInOrder slots (n + 1) =
        entriesInOrder slots n ++ (assignedEntry (slots n)).toList := by
      unfold entriesInOrder
      rw [List.range_succ, List.filterMap_append]
      cases hslot : assignedEntry (slots n) <;> simp [hslot]
    unfold contents at hprev ⊢
    rw [Finset.sum_range_succ, hprev, hlast, hsplit, List.map_append, Multiset.coe_add]

/-- The loop over some buckets runs the code for their entries in order. -/
lemma khForeach_foldlM (hs : Sound hashFunc true h slots)
    (hassigned : ∀ i < h.nBuckets, ∀ k v, slots i = .live k v → v.isSome = true) {β : Type}
    (code : β → K → V → β) {is : List ℕ} (his : ∀ i ∈ is, i < h.nBuckets) (acc : β) :
    is.foldlM (fun acc i => do
      if ← khExist h i then
        let k ← khKey h i
        let v ← khVal h i
        return code acc k v
      else return acc) acc =
      (.ok ((is.filterMap fun i => assignedEntry (slots i)).foldl (fun acc e => code acc e.1 e.2) acc) :
        Checked β) := by
  induction is generalizing acc with
  | nil => rfl
  | cons i is ih =>
    have hi := his i List.mem_cons_self
    have hrest := ih fun j hj => his j (List.mem_cons_of_mem i hj)
    have hexist : khExist h i = .ok (slots i).isLive := by
      rw [khExist, hs.acIsEither_eq hi]
      change Except.ok (!!(slots i).isLive) = _
      rw [Bool.not_not]
    rw [List.foldlM_cons, hexist, ok_bind]
    have hskip (hnone : assignedEntry (slots i) = none) :
        (i :: is).filterMap (fun i => assignedEntry (slots i)) =
          is.filterMap fun i => assignedEntry (slots i) := List.filterMap_cons_none hnone
    cases hslot : slots i with
    | empty =>
      rw [hskip (by rw [hslot]; rfl)]
      exact hrest acc
    | deleted =>
      rw [hskip (by rw [hslot]; rfl)]
      exact hrest acc
    | live k v =>
      obtain ⟨w, rfl⟩ := Option.isSome_iff_exists.mp (hassigned i hi k v hslot)
      have hvisit : (i :: is).filterMap (fun i => assignedEntry (slots i)) =
          (k, w) :: is.filterMap fun i => assignedEntry (slots i) :=
        List.filterMap_cons_some (by rw [hslot]; rfl)
      have hshows := hs.shows i hi
      rw [hslot] at hshows
      have hkey : khKey h i = .ok k := readCell_of_some hshows.2.2.1
      have hval : khVal h i = .ok w := by
        apply readCell_of_some
        have hlt : i < h.vals.length := hi.trans_le (hs.room.vals_le rfl)
        have hget := hshows.2.2.2
        rw [List.getD_eq_getElem _ _ hlt] at hget
        rw [List.getElem?_eq_getElem hlt, hget]
      rw [hvisit, List.foldl_cons, hkey, hval]
      exact hrest (code acc k w)

/-- One list of entries, in which each key that a search finds is once, is what every `kh_foreach` runs
its code for. -/
theorem khForeach_eq [DecidableEq K] (hr : KhReachable hashFunc true h) :
    ∃ entries : List (K × V), (entries.map Prod.fst).Nodup ∧ entries.length = h.size ∧
      (∀ key val, (key, val) ∈ entries ↔ khSees hashFunc true h key = .ok (.found (some val))) ∧
      ∀ {β : Type} (code : β → K → V → β) (acc : β),
        khForeach h code acc = .ok (entries.foldl (fun acc e => code acc e.1 e.2) acc) := by
  obtain ⟨m, hm⟩ := hr.refines
  obtain ⟨⟨slots, hs, rfl⟩, hassigned⟩ := id hm
  have hvalues : ∀ i < h.nBuckets, ∀ k v, slots i = .live k v → v.isSome = true := by
    intro i hi k v hlive
    exact hassigned k v (hs.valid.lookup_eq_some.mpr ⟨i, hi, hlive⟩)
  have hcontents := contents_eq_entriesInOrder hvalues
  refine ⟨entriesInOrder slots h.nBuckets, ?_, ?_, fun key val => ?_, fun code acc => ?_⟩
  · have hkeys := hs.valid.nodupKeys.nodup_keys
    rw [hcontents] at hkeys
    have hmap : ((entriesInOrder slots h.nBuckets).map toSigma).map Sigma.fst =
        (entriesInOrder slots h.nBuckets).map Prod.fst := by
      rw [List.map_map]
      rfl
    rw [← hmap]
    exact hkeys
  · rw [hs.size_eq, hcontents, Multiset.coe_card, List.length_map]
  · have hmem : (key, val) ∈ entriesInOrder slots h.nBuckets ↔
        hs.valid.toFinmap.lookup key = some (some val) := by
      rw [Finmap.lookup_eq_some_iff]
      change _ ↔ _ ∈ contents h.nBuckets slots
      rw [hcontents, Multiset.mem_coe, List.mem_map]
      constructor
      · intro hentry
        exact ⟨(key, val), hentry, rfl⟩
      · rintro ⟨⟨k, v⟩, hentry, he⟩
        cases he
        exact hentry
    rw [hmem, khSees_eq hm]
    cases hlookup : hs.valid.toFinmap.lookup key with
    | none => exact ⟨nofun, nofun⟩
    | some v => simp
  · exact khForeach_foldlM hs hvalues code (fun i hi => List.mem_range.mp hi) acc

theorem khForeach_eq_sample : ∃ entries : List (BitVec 32 × Bool), entries.length = khSample.size ∧
    khForeach khSample (fun acc _ _ => acc + 1) 0 =
      .ok (entries.foldl (fun acc _ => acc + 1) 0) := by
  obtain ⟨entries, -, hlength, -, hrun⟩ := khForeach_eq khSample_reachable
  exact ⟨entries, hlength, hrun _ _⟩

end Utilc
