import Utilc.Khash.Updates

/-!
# Rehashing

`kh_resize` moves the entries to their new buckets within the same arrays. An entry whose new bucket
still holds an old one kicks that one out and takes its place. At every moment the entries are those in
new buckets, those in old buckets and the one in hand.
-/

namespace Utilc
open CLib OpenAddressing

variable {K V : Type}

/-- In the midst of a rehashing from `nBuckets` buckets to `2 ^ b`: the slots of the old table, those of
the new one, and what is in hand. -/
structure Rehashing (hashFunc : K → BitVec 32) (isMap : Bool) (nBuckets b : ℕ)
    (entries : Multiset (Sigma fun _ : K => Option V)) (r : Rehash K V)
    (old new : ℕ → Slot K (Option V)) (hand : Multiset (Sigma fun _ : K => Option V)) : Prop where
  oldShows : ∀ i < nBuckets, Shows r.flags r.keys r.vals i (old i)
  newShows : ∀ i < 2 ^ b, Shows r.newFlags r.keys r.vals i (new i)
  oldWords : nBuckets ≤ 16 * r.flags.length
  newWords : 2 ^ b ≤ 16 * r.newFlags.length
  room : Room isMap (max nBuckets (2 ^ b)) r.keys r.vals
  noDeleted : ∀ i < 2 ^ b, (new i).isDeleted = false
  valid : Valid (khPath hashFunc (2 ^ b)) (2 ^ b) new
  balance : contents (2 ^ b) new + hand + contents nBuckets old = entries

/-- The bucket `i` of the new table that an entry goes to, and the flags with the bucket taken. -/
structure Place (hashFunc : K → BitVec 32) (b : ℕ) (r : Rehash K V) (new : ℕ → Slot K (Option V))
    (key : K) (val : Option V) (i : ℕ) (newFlags : List (BitVec 32)) : Prop where
  lt : i < 2 ^ b
  found : khFindEmpty r.newFlags (2 ^ b - 1) (2 ^ b) ((hashFunc key).toNat &&& (2 ^ b - 1)) 0 = .ok i
  taken : acSetIsEmptyFalse r.newFlags i = .ok newFlags
  flags : Flagged r.newFlags newFlags i false false
  empty : new i = .empty
  valid : Valid (khPath hashFunc (2 ^ b)) (2 ^ b) (Function.update new i (.live key val))
  contents_eq : contents (2 ^ b) (Function.update new i (.live key val)) =
    ⟨key, val⟩ ::ₘ contents (2 ^ b) new

section Rehash

variable {hashFunc : K → BitVec 32} {isMap : Bool} {nBuckets b : ℕ}
  {entries hand : Multiset (Sigma fun _ : K => Option V)} {r : Rehash K V}
  {old new : ℕ → Slot K (Option V)} {key : K} {val : Option V}

lemma khOldLive_eq (hr : Rehashing hashFunc isMap nBuckets b entries r old new hand) (i : ℕ) :
    khOldLive nBuckets r.flags i = .ok (decide (i < nBuckets) && (old i).isLive) := by
  unfold khOldLive
  by_cases hi : i < nBuckets
  · rw [if_pos hi, acIsEither_eq (hi.trans_le hr.oldWords), (hr.oldShows i hi).either_eq,
      decide_eq_true hi, Bool.true_and]
    change Except.ok (!!(old i).isLive) = _
    rw [Bool.not_not]
  · rw [if_neg hi, decide_eq_false hi]
    rfl

/-- There is a place for the entry in hand. -/
lemma exists_place [DecidableEq K] (hb : b ≤ 31) (hnodup : entries.NodupKeys)
    (hcard : entries.card < 2 ^ b)
    (hr : Rehashing hashFunc isMap nBuckets b entries r old new {⟨key, val⟩}) :
    ∃ i newFlags, Place hashFunc b r new key val i newFlags := by
  have hroom : occupied (2 ^ b) new < 2 ^ b := by
    have hsum := congrArg Multiset.card hr.balance
    rw [Multiset.card_add, Multiset.card_add] at hsum
    rw [occupied_eq_card hr.noDeleted]
    omega
  obtain ⟨i, hi, hempty⟩ := exists_empty hroom
  obtain ⟨s, hs, rfl⟩ := exists_probe_eq (hashFunc key).toNat hi
  have hpath : new (khPath hashFunc (2 ^ b) key s) = .empty := hempty
  obtain ⟨f, hf, hfirst, hpassed⟩ := exists_first_empty hpath
  have hlt : khPath hashFunc (2 ^ b) key f < 2 ^ b := khPath_lt (Nat.two_pow_pos b) key f
  have hword := hlt.trans_le hr.newWords
  have hshown : ∀ i < 2 ^ b, acIsEmpty r.newFlags i = .ok (new i).isEmpty := by
    intro i hi
    rw [acIsEmpty_eq (hi.trans_le hr.newWords), (hr.newShows i hi).isEmpty_eq]
  have hfound := khFindEmpty_eq hb hashFunc key hshown (hf.trans_lt hs) hfirst hpassed (Nat.zero_le f)
    (hf.trans_lt hs)
  rw [← khPath_zero] at hfound
  obtain ⟨newFlags, htaken, hflags⟩ := acSetIsEmptyFalse_eq hword
  rw [(hr.newShows _ hlt).isDeleted_eq, hfirst] at hflags
  have hnew : hr.valid.toFinmap.lookup key = none := by
    rw [Finmap.lookup_eq_none]
    have hkeys := hnodup.nodup_keys
    rw [← hr.balance, Multiset.add_comm (contents (2 ^ b) new), Multiset.singleton_add,
      Multiset.cons_add, Multiset.keys_cons, Multiset.nodup_cons] at hkeys
    intro hmem
    apply hkeys.1
    obtain ⟨e, he, hkey⟩ := Multiset.mem_map.mp hmem
    exact Multiset.mem_map.mpr ⟨e, Multiset.mem_add.mpr (Or.inl he), hkey⟩
  have hnot : ∀ k v, new (khPath hashFunc (2 ^ b) key f) ≠ .live k v := by
    rw [hfirst]
    exact nofun
  obtain ⟨hvalid, -, hcontents⟩ := hr.valid.insert hlt rfl hnot hpassed hnew val
  exact ⟨_, newFlags, hlt, hfound, htaken, hflags, hfirst, hvalid, hcontents⟩

/-- The entry in hand is written to its place, where no old entry is left. -/
lemma Rehashing.place (hr : Rehashing hashFunc isMap nBuckets b entries r old new {⟨key, val⟩})
    {i : ℕ} {newFlags : List (BitVec 32)} (hp : Place hashFunc b r new key val i newFlags)
    {keys' : List (Option K)} {vals' : List (Option V)}
    (hroom : Room isMap (max nBuckets (2 ^ b)) keys' vals')
    (hcells : Written r.keys keys' r.vals vals' i key val)
    (hfree : i < nBuckets → (old i).isLive = false) :
    Rehashing hashFunc isMap nBuckets b entries ⟨r.flags, newFlags, keys', vals'⟩ old
      (Function.update new i (.live key val)) 0 := by
  refine ⟨shows_frame hr.oldShows hfree hcells.frame, shows_write hr.newShows hp.flags hcells,
    hr.oldWords, ?_, hroom, fun j hj => ?_, hp.valid, ?_⟩
  · change 2 ^ b ≤ 16 * newFlags.length
    rw [hp.flags.length_eq]
    exact hr.newWords
  · by_cases he : j = i
    · rw [he, Function.update_self]
      rfl
    · rw [Function.update_of_ne he]
      exact hr.noDeleted j hj
  · rw [hp.contents_eq, ← hr.balance, Multiset.add_zero, ← Multiset.singleton_add,
      Multiset.add_comm {_}]

/-- The entry in hand is written to its place, and the old entry that was there is in hand. -/
lemma Rehashing.kickOut (hr : Rehashing hashFunc isMap nBuckets b entries r old new {⟨key, val⟩})
    {i : ℕ} {newFlags : List (BitVec 32)} (hp : Place hashFunc b r new key val i newFlags)
    {keys' : List (Option K)} {vals' : List (Option V)}
    (hroom : Room isMap (max nBuckets (2 ^ b)) keys' vals')
    (hcells : Written r.keys keys' r.vals vals' i key val) (hi : i < nBuckets) {key' : K}
    {val' : Option V} (hlive : old i = .live key' val') {flags' : List (BitVec 32)}
    (hflags : Flagged r.flags flags' i false true) :
    Rehashing hashFunc isMap nBuckets b entries ⟨flags', newFlags, keys', vals'⟩
      (Function.update old i .deleted) (Function.update new i (.live key val)) {⟨key', val'⟩} := by
  refine ⟨shows_delete hr.oldShows hflags hcells.frame, shows_write hr.newShows hp.flags hcells, ?_, ?_,
    hroom, fun j hj => ?_, hp.valid, ?_⟩
  · change nBuckets ≤ 16 * flags'.length
    rw [hflags.length_eq]
    exact hr.oldWords
  · change 2 ^ b ≤ 16 * newFlags.length
    rw [hp.flags.length_eq]
    exact hr.newWords
  · by_cases he : j = i
    · rw [he, Function.update_self]
      rfl
    · rw [Function.update_of_ne he]
      exact hr.noDeleted j hj
  · rw [hp.contents_eq, ← hr.balance, contents_delete hi hlive, ← Multiset.singleton_add,
      ← Multiset.singleton_add]
    ac_rfl

/-- The kick-out loop ends. It has taken entries from old buckets only to put them in new ones. -/
theorem khKickOut_eq [DecidableEq K] (hb : b ≤ 31) (hnodup : entries.NodupKeys)
    (hcard : entries.card < 2 ^ b) {turns : ℕ}
    (hr : Rehashing hashFunc isMap nBuckets b entries r old new {⟨key, val⟩})
    (hval : FitsVal isMap val) (hturns : (contents nBuckets old).card < turns) :
    ∃ r' old' new', khKickOut hashFunc isMap nBuckets (2 ^ b) turns r key val = .ok r' ∧
      Rehashing hashFunc isMap nBuckets b entries r' old' new' 0 ∧
      ∀ i, (old i).isLive = false → (old' i).isLive = false := by
  induction turns generalizing r old new key val with
  | zero => omega
  | succ turns ih =>
    obtain ⟨i, newFlags, hp⟩ := exists_place hb hnodup hcard hr
    have himax : i < max nBuckets (2 ^ b) := lt_max_of_lt_right hp.lt
    obtain ⟨vals', hkeys, hvals, hroom, hcells⟩ := hr.room.write himax key hval
    simp only [khKickOut, khSub_one_pow hb, hp.found, hp.taken, khOldLive_eq hr, hkeys, hvals,
      hr.room.readVal himax, Bounded.liftM_ok, Bounded.ok_bind, Bounded.pure_eq_ok]
    by_cases hlive : i < nBuckets ∧ (old i).isLive = true
    · obtain ⟨hi, hlive⟩ := hlive
      obtain ⟨key', val', hold⟩ := Slot.isLive_iff.mp hlive
      obtain ⟨flags', hset, hflags⟩ := acSetIsDelTrue_eq (hi.trans_le hr.oldWords)
      have hshows := hr.oldShows i hi
      rw [hshows.isEmpty_eq, hold] at hflags
      rw [hold] at hshows
      have hnext := hr.kickOut hp hroom hcells hi hold hflags
      have hturns' : (contents nBuckets (Function.update old i .deleted)).card < turns := by
        rw [contents_delete hi hold, Multiset.card_cons] at hturns
        omega
      have hval' : FitsVal isMap val' := by
        rw [← hshows.2.2.2]
        exact hr.room.fitsVal i
      obtain ⟨r', old', new', hrun, hr', hkeep⟩ := ih hnext hval' hturns'
      refine ⟨r', old', new', ?_, hr', fun j hj => hkeep j ?_⟩
      · rw [decide_eq_true hi, hlive, Bool.true_and, if_pos rfl, readCell_of_some hshows.2.2.1, hset,
          hshows.2.2.2]
        exact hrun
      · by_cases he : j = i
        · rw [he, Function.update_self]
          rfl
        · rwa [Function.update_of_ne he]
    · have hfalse : (decide (i < nBuckets) && (old i).isLive) = false := by
        rw [Bool.eq_false_iff, ne_eq, Bool.and_eq_true, decide_eq_true_iff]
        exact hlive
      have hfree : i < nBuckets → (old i).isLive = false := by
        intro hi
        rw [Bool.eq_false_iff]
        exact fun h => hlive ⟨hi, h⟩
      refine ⟨_, old, _, ?_, hr.place hp hroom hcells hfree, fun _ h => h⟩
      rw [hfalse, if_neg Bool.false_ne_true]

/-- The entry of an old bucket is taken in hand. -/
lemma Rehashing.take (hr : Rehashing hashFunc isMap nBuckets b entries r old new 0) {j : ℕ}
    (hj : j < nBuckets) (hlive : old j = .live key val) {flags' : List (BitVec 32)}
    (hflags : Flagged r.flags flags' j false true) :
    Rehashing hashFunc isMap nBuckets b entries { r with flags := flags' }
      (Function.update old j .deleted) new {⟨key, val⟩} := by
  refine ⟨shows_delete hr.oldShows hflags fun _ _ => ⟨rfl, rfl⟩, hr.newShows, ?_, hr.newWords, hr.room,
    hr.noDeleted, hr.valid, ?_⟩
  · change nBuckets ≤ 16 * flags'.length
    rw [hflags.length_eq]
    exact hr.oldWords
  · rw [← hr.balance, contents_delete hj hlive, ← Multiset.singleton_add]
    ac_rfl

/-- One turn of the loop over the old buckets. -/
lemma khRehashBucket_eq [DecidableEq K] (hb : b ≤ 31) (hnodup : entries.NodupKeys)
    (hcard : entries.card < 2 ^ b) (hr : Rehashing hashFunc isMap nBuckets b entries r old new 0)
    {j : ℕ} (hj : j < nBuckets) :
    ∃ r' old' new', khRehashBucket hashFunc isMap nBuckets (2 ^ b) r j = .ok r' ∧
      Rehashing hashFunc isMap nBuckets b entries r' old' new' 0 ∧ (old' j).isLive = false ∧
      ∀ i, (old i).isLive = false → (old' i).isLive = false := by
  have hword := hj.trans_le hr.oldWords
  have hshows := hr.oldShows j hj
  simp only [khRehashBucket, acIsEither_eq hword, hshows.either_eq, Bounded.liftM_ok, Bounded.ok_bind,
    Bounded.pure_eq_ok]
  cases hlive : (old j).isLive with
  | false => exact ⟨r, old, new, rfl, hr, hlive, fun _ h => h⟩
  | true =>
    obtain ⟨key, val, hold⟩ := Slot.isLive_iff.mp hlive
    obtain ⟨flags', hset, hflags⟩ := acSetIsDelTrue_eq hword
    rw [hshows.isEmpty_eq, hold] at hflags
    rw [hold] at hshows
    have hjmax : j < max nBuckets (2 ^ b) := lt_max_of_lt_left hj
    have hval : FitsVal isMap val := by
      rw [← hshows.2.2.2]
      exact hr.room.fitsVal j
    have hturns : (contents nBuckets (Function.update old j .deleted)).card < nBuckets + 1 :=
      Nat.lt_succ_of_le ((card_contents_le _ _).trans (occupied_le _ _))
    obtain ⟨r', old', new', hrun, hr', hkeep⟩ :=
      khKickOut_eq hb hnodup hcard (hr.take hj hold hflags) hval hturns
    refine ⟨r', old', new', ?_, hr', hkeep j ?_, fun i hi => hkeep i ?_⟩
    · rw [Bool.not_true, if_neg Bool.false_ne_true, readCell_of_some hshows.2.2.1,
        hr.room.readVal hjmax, hset, hshows.2.2.2]
      exact hrun
    · rw [Function.update_self]
      rfl
    · by_cases he : i = j
      · rw [he, Function.update_self]
        rfl
      · rwa [Function.update_of_ne he]

/-- The loop over the old buckets moves all the entries. -/
theorem rehash_all [DecidableEq K] (hb : b ≤ 31) (hnodup : entries.NodupKeys)
    (hcard : entries.card < 2 ^ b) (hr : Rehashing hashFunc isMap nBuckets b entries r old new 0) :
    ∃ r' old' new', (List.range nBuckets).foldlM (khRehashBucket hashFunc isMap nBuckets (2 ^ b)) r =
        .ok r' ∧
      Rehashing hashFunc isMap nBuckets b entries r' old' new' 0 ∧
      contents (2 ^ b) new' = entries := by
  obtain ⟨r', hrun, old', new', hr', hdone⟩ := Bounded.foldlM_range
    (fun j r' => ∃ old' new', Rehashing hashFunc isMap nBuckets b entries r' old' new' 0 ∧
      ∀ i < j, (old' i).isLive = false)
    ⟨old, new, hr, fun i hi => absurd hi (Nat.not_lt_zero i)⟩
    (by
      rintro j hj r₁ ⟨old₁, new₁, hr₁, hdone⟩
      obtain ⟨r₂, old₂, new₂, hrun, hr₂, hj', hkeep⟩ := khRehashBucket_eq hb hnodup hcard hr₁ hj
      refine ⟨r₂, hrun, old₂, new₂, hr₂, fun i hi => ?_⟩
      rcases Nat.lt_succ_iff_lt_or_eq.mp hi with hlt | rfl
      · exact hkeep i (hdone i hlt)
      · exact hj')
  refine ⟨r', old', new', hrun, hr', ?_⟩
  have hnone : contents nBuckets old' = 0 := by
    apply Finset.sum_eq_zero
    intro i hi
    apply Slot.entries_of_not_live
    intro k v hlive
    have hnot := hdone i (Finset.mem_range.mp hi)
    rw [hlive] at hnot
    cases hnot
  have hbalance := hr'.balance
  rwa [hnone, Multiset.add_zero, Multiset.add_zero] at hbalance

end Rehash

end Utilc
