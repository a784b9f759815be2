import Utilc.Khash.Table

/-!
# Changing a table in place

`kh_put` without its resizing, `kh_del`, `kh_clear` and the assignment of a value.
-/

namespace Utilc
open CLib OpenAddressing

variable {K V : Type} {hashFunc : K → BitVec 32} {isMap : Bool} {h : KHash K V}
  {slots : ℕ → Slot K (Option V)}

/-- A bucket in which an entry for `key` can be put. -/
structure FreeFor (hashFunc : K → BitVec 32) (n : ℕ) (slots : ℕ → Slot K (Option V)) (key : K)
    (x : ℕ) : Prop where
  not_live : (slots x).isLive = false
  reached : ∃ s, khPath hashFunc n key s = x ∧ ∀ t < s, slots (khPath hashFunc n key t) ≠ .empty

/-! ### Inserting -/

/-- `kh_put` decides on the bucket of the key, or on a bucket that is free for it. -/
lemma khSite_eq [DecidableEq K] (hs : Sound hashFunc isMap h slots) (hn : h.nBuckets ≠ 0) (key : K) :
    ∃ x < h.nBuckets, khSite hashFunc h key = .ok x ∧
      ((∃ v, slots x = .live key v) ∨
        hs.valid.toFinmap.lookup key = none ∧ FreeFor hashFunc h.nBuckets slots key x) := by
  obtain ⟨b, hb, hb', hpow, hu⟩ := hs.pow_of_ne hn
  obtain ⟨f, hf, hstop, hfirst⟩ := hs.exists_stop hb hpow hu key
  have hB := hs.hasBuckets hb' hpow
  have hwalk := hB.walk_stop hf hstop hfirst (hB.lt_turns hf)
  have hlt := hB.path_lt hashFunc key
  have hpassed {s : ℕ} (hsf : s ≤ f) : ∀ t < s, slots (khPath hashFunc (2 ^ b) key t) ≠ .empty :=
    fun t ht hempty => hfirst t (ht.trans_le hsf) (Or.inl hempty)
  have hfree {s : ℕ} (hsf : s ≤ f) (hnot : (slots (khPath hashFunc (2 ^ b) key s)).isLive = false) :
      FreeFor hashFunc h.nBuckets slots key (khPath hashFunc (2 ^ b) key s) := by
    rw [hpow]
    exact ⟨hnot, s, rfl, hpassed hsf⟩
  have hnone (hempty : slots (khPath hashFunc (2 ^ b) key f) = .empty) :
      hs.valid.toFinmap.lookup key = none := by
    rw [← hpow] at hempty hfirst
    exact hs.valid.lookup_of_empty hempty hfirst
  simp only [khSite, hB.mask_eq, khPath_zero hashFunc b, hs.acIsEmpty_eq (hlt _), Bounded.liftM_ok,
    Bounded.ok_bind, Bounded.pure_eq_ok, hwalk, if_neg Bool.false_ne_true, if_true]
  by_cases hfirstEmpty : slots (khPath hashFunc (2 ^ b) key 0) = .empty
  · rw [if_pos (Slot.isEmpty_iff.mpr hfirstEmpty)]
    have hf : f = 0 := by
      by_contra hpos
      exact hpassed le_rfl 0 (Nat.pos_of_ne_zero hpos) hfirstEmpty
    subst hf
    have hnot : (slots (khPath hashFunc (2 ^ b) key 0)).isLive = false := by
      rw [hfirstEmpty]
      rfl
    exact ⟨_, hlt 0, rfl, Or.inr ⟨hnone hfirstEmpty, hfree le_rfl hnot⟩⟩
  · rw [if_neg (mt Slot.isEmpty_iff.mp hfirstEmpty)]
    rcases hstop with hempty | ⟨v, hlive⟩
    · have hnot : (slots (khPath hashFunc (2 ^ b) key f)).isLive = false := by
        rw [hempty]
        rfl
      rcases lastDeleted_cases slots (khPath hashFunc (2 ^ b) key) h.nBuckets f with
        hlast | ⟨t, ht, hlast, hdel⟩
      · rw [if_neg (fun hboth => hboth.2 hlast)]
        exact ⟨_, hlt f, rfl, Or.inr ⟨hnone hempty, hfree le_rfl hnot⟩⟩
      · have hboth : (slots (khPath hashFunc (2 ^ b) key f)).isEmpty = true ∧
            lastDeleted slots (khPath hashFunc (2 ^ b) key) h.nBuckets f ≠ h.nBuckets := by
          rw [hempty, hlast]
          exact ⟨rfl, (hlt t).ne⟩
        rw [if_pos hboth, hlast]
        have hnot : (slots (khPath hashFunc (2 ^ b) key t)).isLive = false := by
          rw [hdel]
          rfl
        exact ⟨_, hlt t, rfl, Or.inr ⟨hnone hempty, hfree ht.le hnot⟩⟩
    · have hempty : ¬(slots (khPath hashFunc (2 ^ b) key f)).isEmpty = true := by
        rw [hlive]
        exact Bool.false_ne_true
      rw [if_neg (fun hboth => hempty hboth.1)]
      exact ⟨_, hlt f, rfl, Or.inl ⟨v, hlive⟩⟩

/-- A new entry leaves a sound table. -/
lemma Sound.insert [DecidableEq K] (hs : Sound hashFunc isMap h slots) {key : K} {x : ℕ}
    (hx : x < h.nBuckets) (hfree : FreeFor hashFunc h.nBuckets slots key x)
    (hnew : hs.valid.toFinmap.lookup key = none) {flags' : List (BitVec 32)}
    (hflags : Flagged h.flags flags' x false false) {occ : ℕ}
    (hocc : occ + (slots x).weight = h.nOccupied + 1) (hle : occ ≤ h.upperBound) :
    ∃ hs' : Sound hashFunc isMap
        { h with
          keys := h.keys.set x (some key)
          flags := flags'
          size := h.size + 1
          nOccupied := occ }
        (Function.update slots x (.live key (h.vals.getD x none))),
      hs'.valid.toFinmap = hs.valid.toFinmap.insert key (h.vals.getD x none) := by
  obtain ⟨s, hpath, hpassed⟩ := hfree.reached
  have hnot : ∀ k v, slots x ≠ .live k v := by
    intro k v he
    have hlive := hfree.not_live
    rw [he] at hlive
    cases hlive
  obtain ⟨hvalid, hmap, hcontents⟩ :=
    hs.valid.insert hx hpath hnot hpassed hnew (h.vals.getD x none)
  have hkey : x < h.keys.length := hx.trans_le hs.room.keys_le
  have hcells : Written h.keys (h.keys.set x (some key)) h.vals h.vals x key
      (h.vals.getD x none) :=
    ⟨List.getElem?_set_self hkey, rfl, fun j hj => ⟨List.getElem?_set_ne hj.symm, rfl⟩⟩
  refine ⟨⟨shows_write hs.shows hflags hcells, ?_, ?_, hvalid, ?_, ?_, hs.geometry, hle⟩, hmap⟩
  · rw [hflags.length_eq]
    exact hs.words
  · refine ⟨?_, hs.room.vals_le, hs.room.vals_nil⟩
    rw [List.length_set]
    exact hs.room.keys_le
  · rw [hcontents, Multiset.card_cons, hs.size_eq]
  · have hsum : occupied h.nBuckets (Function.update slots x (.live key (h.vals.getD x none))) +
        (slots x).weight = occupied h.nBuckets slots + 1 := sum_update Slot.weight slots hx _
    rw [← hs.occupied_eq] at hsum
    exact Nat.add_right_cancel (hocc.trans hsum.symm)

/-- `kh_put` where no resizing is needed. A new key takes over the value that its cell had. -/
lemma khOccupy_eq [DecidableEq K] (hs : Sound hashFunc isMap h slots)
    (hroom : h.nOccupied < h.upperBound) (key : K) :
    ∃ x h' ret, (do
        let x ← khSite hashFunc h key
        khOccupy h key x : Bounded (KHash K V × ℕ × ℤ)) = .ok (h', x, ret) ∧
      x < h'.nBuckets ∧ h'.nBuckets = h.nBuckets ∧ h'.upperBound = h.upperBound ∧
      ∃ slots', ∃ hs' : Sound hashFunc isMap h' slots', ∃ v, slots' x = .live key v ∧
        (ret = 0 ∧ hs'.valid.toFinmap = hs.valid.toFinmap ∨
          (ret = 1 ∨ ret = 2) ∧ hs.valid.toFinmap.lookup key = none ∧
            hs'.valid.toFinmap = hs.valid.toFinmap.insert key v) := by
  have hne : h.nBuckets ≠ 0 := by
    intro hzero
    rcases hs.geometry with ⟨-, hu⟩ | ⟨b, -, -, hpow, -⟩
    · omega
    · exact absurd hzero (hpow ▸ (Nat.two_pow_pos b).ne')
  obtain ⟨x, hx, hsite, hcase⟩ := khSite_eq hs hne key
  have hword := hs.live_word hx
  have hupper : h.upperBound < h.nBuckets := by
    obtain ⟨b, hb, -, hpow, hu⟩ := hs.pow_of_ne hne
    rw [hpow, hu]
    exact acHashUpper_lt hb
  have hn := hs.nBuckets_lt
  have hsize := hs.size_le
  have hsucc : khAdd h.size 1 = h.size + 1 := khAdd_of_lt (by omega)
  have hoccSucc : khAdd h.nOccupied 1 = h.nOccupied + 1 := khAdd_of_lt (by omega)
  simp only [hsite, Bounded.ok_bind, khOccupy, hs.acIsEmpty_eq hx, hs.acIsDel_eq hx, ok_bind,
    writeAt_of_lt (hx.trans_le hs.room.keys_le), pure_eq_ok]
  rcases hcase with ⟨v, hlive⟩ | ⟨hnew, hfree⟩
  · refine ⟨x, h, 0, ?_, hx, rfl, rfl, slots, hs, v, hlive, Or.inl ⟨rfl, rfl⟩⟩
    rw [hlive]
    rfl
  · obtain ⟨flags', hok, hflags⟩ := acSetIsBothFalse_eq hword
    simp only [hok, ok_bind, hsucc, hoccSucc]
    cases hslot : slots x with
    | empty =>
      have hocc : h.nOccupied + 1 + (slots x).weight = h.nOccupied + 1 := by
        rw [hslot]
        rfl
      obtain ⟨hs', hmap⟩ := hs.insert hx hfree hnew hflags hocc hroom
      exact ⟨x, _, 1, rfl, hx, rfl, rfl, _, hs', _, Function.update_self _ _ _,
        Or.inr ⟨Or.inl rfl, hnew, hmap⟩⟩
    | deleted =>
      have hocc : h.nOccupied + (slots x).weight = h.nOccupied + 1 := by
        rw [hslot]
        rfl
      obtain ⟨hs', hmap⟩ := hs.insert hx hfree hnew hflags hocc hroom.le
      exact ⟨x, _, 2, rfl, hx, rfl, rfl, _, hs', _, Function.update_self _ _ _,
        Or.inr ⟨Or.inr rfl, hnew, hmap⟩⟩
    | live k v =>
      have hlive := hfree.not_live
      rw [hslot] at hlive
      cases hlive

/-! ### Removing -/

/-- `kh_del` of the bucket of an entry removes the entry. -/
lemma khDel_live [DecidableEq K] (hs : Sound hashFunc isMap h slots) {key : K} {v : Option V} {x : ℕ}
    (hx : x < h.nBuckets) (hlive : slots x = .live key v) :
    ∃ h', khDel h x = .ok h' ∧ h'.nBuckets = h.nBuckets ∧ ∃ slots', ∃ hs' : Sound hashFunc isMap h' slots',
      hs'.valid.toFinmap = hs.valid.toFinmap.erase key := by
  obtain ⟨hvalid, hmap, hcontents⟩ := hs.valid.delete hx hlive
  obtain ⟨flags', hok, hflags⟩ := acSetIsDelTrue_eq (hs.live_word hx)
  rw [(hs.shows x hx).isEmpty_eq, hlive] at hflags
  have hsize : h.size = (contents h.nBuckets (Function.update slots x .deleted)).card + 1 := by
    rw [hs.size_eq, hcontents, Multiset.card_cons]
  have hsucc : khSub h.size 1 = h.size - 1 := by
    have hn := hs.nBuckets_lt
    have hle : h.size ≤ h.nBuckets := by
      rw [hs.size_eq]
      exact (card_contents_le _ _).trans (occupied_le _ _)
    exact khSub_of_le (by omega) (by omega)
  refine ⟨{ h with flags := flags', size := h.size - 1 }, ?_, rfl, Function.update slots x .deleted,
    ⟨?_, ?_, hs.room, hvalid, ?_, ?_, hs.geometry, hs.occupied_le⟩, hmap⟩
  · simp only [khDel, if_pos hx.ne, hs.acIsEither_eq hx, hlive, Slot.isLive, ok_bind, hok, hsucc,
      pure_eq_ok]
    rfl
  · exact shows_delete hs.shows hflags fun _ _ => ⟨rfl, rfl⟩
  · rw [hflags.length_eq]
    exact hs.words
  · exact Nat.sub_eq_of_eq_add hsize
  · have hsum : occupied h.nBuckets (Function.update slots x .deleted) + (slots x).weight =
        occupied h.nBuckets slots + 1 := sum_update Slot.weight slots hx _
    rw [hlive] at hsum
    exact hs.occupied_eq.trans (Nat.add_right_cancel hsum).symm

/-- `kh_del` of the end of the table does nothing. -/
lemma khDel_end (h : KHash K V) : khDel h h.nBuckets = .ok h := if_neg (not_not.mpr rfl)

/-! ### Values -/

/-- `kh_value` of the bucket of an entry sets the value of its key. -/
lemma khSetVal_live [DecidableEq K] (hs : Sound hashFunc true h slots) {key : K} {v : Option V} {x : ℕ}
    (hx : x < h.nBuckets) (hlive : slots x = .live key v) (w : V) :
    ∃ h', khSetVal h x w = .ok h' ∧ h'.nBuckets = h.nBuckets ∧ ∃ slots', ∃ hs' : Sound hashFunc true h' slots',
      hs'.valid.toFinmap = hs.valid.toFinmap.insert key (some w) := by
  obtain ⟨hvalid, hmap⟩ := hs.valid.setVal hx hlive (some w)
  have hval : x < h.vals.length := hx.trans_le (hs.room.vals_le rfl)
  have hshows : ∀ i < h.nBuckets, Shows h.flags h.keys (h.vals.set x (some w)) i
      (Function.update slots x (.live key (some w)) i) := by
    intro i hi
    have hi' := hs.shows i hi
    by_cases he : i = x
    · subst he
      rw [hlive] at hi'
      rw [Function.update_self]
      refine ⟨hi'.1, hi'.2.1, hi'.2.2.1, ?_⟩
      rw [List.getD_eq_getElem?_getD, List.getElem?_set_self hval, Option.getD_some]
    · rw [Function.update_of_ne he]
      apply hi'.of_frame fun _ _ => rfl
      intro _
      refine ⟨rfl, ?_⟩
      rw [List.getD_eq_getElem?_getD, List.getElem?_set_ne (Ne.symm he), ← List.getD_eq_getElem?_getD]
  have hroom : Room true h.nBuckets h.keys (h.vals.set x (some w)) := by
    refine ⟨hs.room.keys_le, fun _ => ?_, nofun⟩
    rw [List.length_set]
    exact hs.room.vals_le rfl
  have hweight : (slots x).weight = 1 := by
    rw [hlive]
    rfl
  refine ⟨{ h with vals := h.vals.set x (some w) }, ?_, rfl, Function.update slots x (.live key (some w)),
    ⟨hshows, hs.words, hroom, hvalid, ?_, ?_, hs.geometry, hs.occupied_le⟩, hmap⟩
  · rw [khSetVal, writeAt_of_lt hval]
    rfl
  · have hsum := sum_update Slot.entries slots hx (.live key (some w))
    have hcard := congrArg Multiset.card hsum
    rw [hlive, Multiset.card_add, Multiset.card_add] at hcard
    exact hs.size_eq.trans (Nat.add_right_cancel hcard).symm
  · have hsum := sum_update Slot.weight slots hx (.live key (some w))
    rw [hweight] at hsum
    exact hs.occupied_eq.trans (Nat.add_right_cancel hsum).symm

/-! ### Clearing -/

lemma acFsize_le {n : ℕ} {flags : List (BitVec 32)} (hn : n ≤ 16 * flags.length)
    (hflags : flags ≠ []) : acFsize n ≤ flags.length := by
  have hpos := List.length_pos_of_ne_nil hflags
  unfold acFsize
  rw [Nat.shiftRight_eq_div_pow]
  split <;> omega

/-- `memset` makes all the buckets empty whose flags are in the words that it writes. -/
lemma shows_allEmpty {n i : ℕ} (hi : i / 16 < n) (rest : List (BitVec 32)) (keys : List (Option K))
    (vals : List (Option V)) : Shows (List.replicate n acAllEmpty ++ rest) keys vals i .empty := by
  have hall : ∀ f < 16, acAllEmpty.getLsbD (2 * f + 1) = true ∧ acAllEmpty.getLsbD (2 * f + 0) = false := by
    decide
  have hbit (c : ℕ) : fieldBit (List.replicate n acAllEmpty ++ rest) i c =
      acAllEmpty.getLsbD (2 * (i % 16) + c) := by
    rw [fieldBit, List.getD_append _ _ _ _ (by rwa [List.length_replicate])]
    exact fieldBit_replicate acAllEmpty hi c
  obtain ⟨hempty, hdel⟩ := hall (i % 16) (Nat.mod_lt i (Nat.succ_pos 15))
  exact ⟨(hbit 1).trans hempty, (hbit 0).trans hdel⟩

lemma div_lt_acFsize {b i : ℕ} (hi : i < 2 ^ b) : i / 16 < acFsize (2 ^ b) := by
  unfold acFsize
  split
  · omega
  · rename_i hge
    have hb : 4 ≤ b := by
      by_contra hlt
      have hpow : 2 ^ b < 2 ^ 4 := Nat.pow_lt_pow_right Nat.one_lt_two (not_le.mp hlt)
      omega
    have hsplit : 2 ^ 4 * 2 ^ (b - 4) = 2 ^ b := pow_mul_pow_sub 2 hb
    rw [Nat.shiftRight_eq_div_pow]
    omega

lemma pow_le_acFsize (b : ℕ) : 2 ^ b ≤ 16 * acFsize (2 ^ b) := by
  have hpos := Nat.two_pow_pos b
  have hlast := div_lt_acFsize (Nat.sub_lt hpos Nat.one_pos)
  omega

theorem khClear_eq (hs : Sound hashFunc isMap h slots) :
    ∃ h', khClear h = .ok h' ∧ h'.nBuckets = h.nBuckets ∧ Denotes hashFunc isMap h' ∅ := by
  have hmap (n : ℕ) : (Valid.empty (khPath hashFunc n) n).toFinmap = (∅ : Finmap fun _ : K => Option V) :=
    Finmap.ext (contents_empty n)
  unfold khClear
  by_cases hflags : h.flags = []
  · have hn : h.nBuckets = 0 := by
      have hwords := hs.words
      rw [hflags] at hwords
      exact Nat.le_zero.mp hwords
    have hslots : Sound hashFunc isMap h fun _ => .empty := by
      have hzero : occupied 0 slots = 0 := rfl
      have hocc := hs.occupied_eq
      have hsize := hs.size_le
      rw [hn, hzero] at hocc
      refine ⟨fun i hi => ?_, hs.words, hs.room, Valid.empty _ _, ?_, ?_, hs.geometry, hs.occupied_le⟩
      · omega
      · rw [contents_empty, Multiset.card_zero]
        omega
      · rw [occupied_empty, hocc]
    rw [if_neg (not_not.mpr hflags)]
    exact ⟨h, rfl, rfl, _, hslots, hmap _⟩
  · rw [if_pos hflags]
    have hle := acFsize_le hs.words hflags
    have hfill : fillAt h.flags 0 (acFsize h.nBuckets) acAllEmpty =
        .ok (List.replicate (acFsize h.nBuckets) acAllEmpty ++ h.flags.drop (acFsize h.nBuckets)) := by
      rw [fillAt, if_pos (by omega), List.take_zero, List.nil_append, Nat.zero_add]
    rw [hfill]
    refine ⟨_, rfl, rfl, fun _ => .empty,
      ⟨?_, ?_, hs.room, Valid.empty _ _, ?_, ?_, hs.geometry, Nat.zero_le _⟩, hmap _⟩
    · intro i hi
      apply shows_allEmpty
      rcases hs.geometry with ⟨hn, -⟩ | ⟨b, -, -, hn, -⟩
      · have hi' : i < h.nBuckets := hi
        omega
      · rw [hn]
        apply div_lt_acFsize
        rw [← hn]
        exact hi
    · have hlen : (List.replicate (acFsize h.nBuckets) acAllEmpty ++
          h.flags.drop (acFsize h.nBuckets)).length = h.flags.length := by
        rw [List.length_append, List.length_replicate, List.length_drop]
        omega
      change h.nBuckets ≤ 16 * (List.length _)
      rw [hlen]
      exact hs.words
    · exact congrArg Multiset.card (contents_empty h.nBuckets).symm
    · exact (occupied_empty h.nBuckets).symm

end Utilc
