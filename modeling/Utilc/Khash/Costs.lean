import Utilc.Khash.Reachable

/-!
# Costs

How long a search takes, and how many buckets the keys of a run need.
-/

namespace Utilc
open CLib OpenAddressing

variable {K V : Type} [DecidableEq K] {hashFunc : K → BitVec 32} {isMap : Bool} {h : KHash K V}

/-! ### Searches -/

omit [DecidableEq K] in
/-- The buckets that a search goes past are different ones, none of them empty. -/
lemma walk_le_occupied {b f : ℕ} {slots : ℕ → Slot K (Option V)} {key : K} (hf : f < 2 ^ b)
    (hpassed : ∀ s < f, ¬Stops slots key (khPath hashFunc (2 ^ b) key s)) :
    f ≤ occupied (2 ^ b) slots := by
  have hinj : Set.InjOn (khPath hashFunc (2 ^ b) key) (Finset.range f) := by
    intro s hs t ht he
    have hs' := Finset.mem_range.mp hs
    have ht' := Finset.mem_range.mp ht
    exact probe_injOn b _ (hs'.trans hf) (ht'.trans hf) he
  calc f = ((Finset.range f).image (khPath hashFunc (2 ^ b) key)).card := by
        rw [Finset.card_image_of_injOn hinj, Finset.card_range]
    _ ≤ occupied (2 ^ b) slots := by
        apply card_le_occupied
        intro i hi
        obtain ⟨s, hs, rfl⟩ := Finset.mem_image.mp hi
        refine ⟨khPath_lt (Nat.two_pow_pos b) key s, fun hempty => ?_⟩
        exact hpassed s (Finset.mem_range.mp hs) (Or.inl hempty)

/-- The loop of `kh_get` and `kh_put` tests at most one bucket more than there are buckets in use, and
does not come back to where it started. -/
theorem khWalk_turns (hr : KhReachable hashFunc isMap h) (hn : h.nBuckets ≠ 0) (key : K) :
    ∃ w : Walk, w.back = false ∧ ∀ turns, h.nOccupied < turns →
      khWalk h key (khSub h.nBuckets 1) ((hashFunc key).toNat &&& khSub h.nBuckets 1) turns
        ((hashFunc key).toNat &&& khSub h.nBuckets 1) 0 h.nBuckets = .ok w := by
  obtain ⟨m, ⟨slots, hs, -⟩, -⟩ := hr.refines
  obtain ⟨b, hb, hb', hpow, hu⟩ := hs.pow_of_ne hn
  obtain ⟨f, hf, hstop, hfirst⟩ := hs.exists_stop hb hpow hu key
  have hB := hs.hasBuckets hb' hpow
  have hocc := hs.occupied_eq
  rw [hpow] at hocc
  have hle : f ≤ occupied (2 ^ b) slots := walk_le_occupied hf hfirst
  rw [hB.mask_eq, khPath_zero]
  exact ⟨_, rfl, fun turns hturns => hB.walk_stop hf hstop hfirst (by omega)⟩

theorem khWalk_turns_sample : ∃ w : Walk, w.back = false ∧ ∀ turns, khSample.nOccupied < turns →
    khWalk khSample 9#32 (khSub 4 1) ((khIntHashFunc 9#32).toNat &&& khSub 4 1) turns
      ((khIntHashFunc 9#32).toNat &&& khSub 4 1) 0 4 = .ok w :=
  khWalk_turns khSample_reachable (Nat.succ_ne_zero 3) 9#32

/-! ### Buckets -/

/-- The operations apart from `kh_resize`, while there are at most `limit` keys. -/
def KhWithin (limit : ℕ) (h : KHash K V) (op : KhOp K V) : Prop :=
  h.size ≤ limit ∧ ∀ newN alloc, op ≠ .resize newN alloc

omit [DecidableEq K] in
lemma Grown.le {h h' : KHash K V} {limit : ℕ} (hg : Grown h h') (hsize : h.size ≤ limit)
    (hn : h.nBuckets ≤ max 4 (4 * limit)) : h'.nBuckets ≤ max 4 (4 * limit) := by
  rcases hg with hsame | ⟨hfour, -⟩ | ⟨hdouble, hhalf⟩
  · rwa [hsame]
  · rw [hfour]
    exact le_max_left _ _
  · omega

lemma khStep_within {limit : ℕ} (hlimit : limit < 2 ^ 30) {m : Finmap fun _ : K => Option V}
    (hm : KhRefines hashFunc isMap h m) (hn : h.nBuckets ≤ max 4 (4 * limit)) {op : KhOp K V}
    (hwithin : KhWithin limit h op) :
    ∃ h' out m', khStep hashFunc isMap h op = .ok (h', out) ∧ KhSpec isMap m op out m' ∧
      KhRefines hashFunc isMap h' m' ∧ h'.nBuckets ≤ max 4 (4 * limit) := by
  obtain ⟨hsize, hno⟩ := hwithin
  cases op with
  | get key =>
    obtain ⟨out, hrun, hspec⟩ := khStep_get hm key
    exact ⟨h, out, m, hrun, hspec, hm, hn⟩
  | put key val alloc =>
    obtain ⟨h', out, m', hrun, hgrown, hspec, hm'⟩ :=
      khStep_put hm (hsize.trans_lt hlimit) key val alloc
    exact ⟨h', out, m', hrun, hspec, hm', hgrown.le hsize hn⟩
  | del key =>
    obtain ⟨h', hrun, hsame, hm'⟩ := khStep_del hm key
    exact ⟨h', .done, m.erase key, hrun, KhSpec.del, hm', hsame.trans_le hn⟩
  | resize newN alloc => exact absurd rfl (hno newN alloc)
  | clear =>
    obtain ⟨h', hrun, hsame, hm'⟩ := khStep_clear hm
    exact ⟨h', .done, ∅, hrun, KhSpec.clear, hm', hsame.trans_le hn⟩

lemma khRun_within (hashFunc : K → BitVec 32) (isMap : Bool) {limit : ℕ} (hlimit : limit < 2 ^ 30)
    {ops : List (KhOp K V)}
    (hwithin : AllAllowed (khStep hashFunc isMap) (KhWithin limit) khInit ops) :
    ∃ h outs, runOps (khStep hashFunc isMap) khInit ops = .ok (h, outs) ∧
      h.nBuckets ≤ max 4 (4 * limit) := by
  have hinit : KhRefines hashFunc isMap (khInit : KHash K V) ∅ ∧
      (khInit : KHash K V).nBuckets ≤ max 4 (4 * limit) := ⟨khInit_refines hashFunc isMap, Nat.zero_le _⟩
  have hstep (h : KHash K V) (m : Finmap fun _ : K => Option V) (op : KhOp K V)
      (hm : KhRefines hashFunc isMap h m ∧ h.nBuckets ≤ max 4 (4 * limit)) (hop : KhWithin limit h op) :=
    khStep_within hlimit hm.1 hm.2 hop
  obtain ⟨h, outs, m, hrun, -, -, hn⟩ := runOps_refines hstep hinit hwithin
  exact ⟨h, outs, hrun, hn⟩

/-- A table that never has more than `limit` keys never gets more than four buckets for each of them,
however many keys come and go. -/
theorem khRun_nBuckets (hashFunc : K → BitVec 32) (isMap : Bool) {limit : ℕ} (hlimit : limit < 2 ^ 30)
    (ops : List (KhOp K V))
    (hwithin : AllAllowed (khStep hashFunc isMap) (KhWithin limit) khInit ops) :
    ∃ h outs, runOps (khStep hashFunc isMap) khInit ops = .ok (h, outs) ∧
      h.nBuckets ≤ max 4 (4 * limit) := khRun_within hashFunc isMap hlimit hwithin

/-- Four keys that come and go. The last one comes to a table of four buckets of which three are
deleted. -/
def khComeAndGo : List (KhOp (BitVec 32) Bool) :=
  [.put 5#32 true ⟨true, true, true⟩, .del 5#32, .put 6#32 true ⟨true, true, true⟩, .del 6#32,
    .put 7#32 true ⟨true, true, true⟩, .del 7#32, .put 8#32 true ⟨true, true, true⟩]

lemma allAllowed_khComeAndGo :
    AllAllowed (khStep khIntHashFunc true) (KhWithin 1) khInit khComeAndGo := by
  refine AllAllowed.cons_ok ⟨by decide, fun _ _ => nofun⟩ rfl ?_
  refine AllAllowed.cons_ok ⟨by decide, fun _ _ => nofun⟩ rfl ?_
  refine AllAllowed.cons_ok ⟨by decide, fun _ _ => nofun⟩ rfl ?_
  refine AllAllowed.cons_ok ⟨by decide, fun _ _ => nofun⟩ rfl ?_
  refine AllAllowed.cons_ok ⟨by decide, fun _ _ => nofun⟩ rfl ?_
  refine AllAllowed.cons_ok ⟨by decide, fun _ _ => nofun⟩ rfl ?_
  exact AllAllowed.cons_ok ⟨by decide, fun _ _ => nofun⟩ rfl trivial

theorem khRun_nBuckets_put :
    ∃ h outs, runOps (khStep khIntHashFunc true) khInit khComeAndGo = .ok (h, outs) ∧
      h.nBuckets ≤ max 4 (4 * 1) :=
  khRun_nBuckets _ _ (by decide : 1 < 2 ^ 30) _ allAllowed_khComeAndGo

end Utilc
