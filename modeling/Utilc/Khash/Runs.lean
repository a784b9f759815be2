import Utilc.CLib.Refines
import Utilc.Khash.Hashes
import Utilc.Khash.Put

/-!
# Runs of a hash table

A caller that looks keys up, assigns values to keys, removes keys, resizes and clears sees a finite
map, whatever the hash function is and whichever allocations fail.
-/

namespace Utilc
open CLib OpenAddressing

variable {K V : Type}

/-- What a caller does. `put` is `kh_put` and the assignment through `kh_value`; `del` is `kh_get` and
`kh_del`. -/
inductive KhOp (K V : Type) where
  | get (key : K)
  | put (key : K) (val : V) (alloc : Alloc)
  | del (key : K)
  | resize (newN : ℕ) (alloc : Alloc)
  | clear

/-- What the caller sees. -/
inductive KhOut (V : Type) where
  | missing
  | found (val : Option V)
  | ret (r : ℤ)
  | done

section Step

variable (hashFunc : K → BitVec 32) (isMap : Bool)

/-- The value in a bucket; a set has none. -/
def khFetch (h : KHash K V) (x : ℕ) : Checked (Option V) :=
  if isMap then some <$> khVal h x else return none

def khAssign (h : KHash K V) (x : ℕ) (val : V) : Checked (KHash K V) :=
  if isMap then khSetVal h x val else return h

def khStep [DecidableEq K] (h : KHash K V) : KhOp K V → Bounded (KHash K V × KhOut V)
  | .get key => do
    let x ← khGet hashFunc h key
    if x = khEnd h then return (h, .missing)
    else
      let val ← khFetch isMap h x
      return (h, .found val)
  | .put key val alloc => do
    let r ← khPut hashFunc isMap h key alloc
    if r.2.2 < 0 then return (r.1, .ret r.2.2)
    else
      let h ← khAssign isMap r.1 r.2.1 val
      return (h, .ret r.2.2)
  | .del key => do
    let x ← khGet hashFunc h key
    let h ← khDel h x
    return (h, .done)
  | .resize newN alloc => do
    let r ← khResize hashFunc isMap h newN alloc
    return (r.1, .ret r.2)
  | .clear => do
    let h ← khClear h
    return (h, .done)

end Step

/-- A table takes new keys while it has fewer than `2 ^ 30` of them, and giving memory back succeeds. -/
def KhAllowed (isMap : Bool) (h : KHash K V) : KhOp K V → Prop
  | .put _ _ _ => h.size < 2 ^ 30
  | .resize newN alloc => Shrinks isMap h (khNewBuckets newN) alloc
  | _ => True

/-! ### The specification -/

/-- The value that a key has after an assignment. -/
def khValueOf (isMap : Bool) (val : V) : Option V := if isMap then some val else none

/-- The operations on a finite map. One fails only where an allocation fails that it asks for; the
bucket counts `n` and `n'`, on which that depends, are no part of the map. -/
inductive KhSpec [DecidableEq K] (isMap : Bool) :
    Finmap (fun _ : K => Option V) → KhOp K V → KhOut V → Finmap (fun _ : K => Option V) → Prop
  | missing {m key} (hkey : m.lookup key = none) : KhSpec isMap m (.get key) .missing m
  | found {m key val} (hkey : m.lookup key = some val) : KhSpec isMap m (.get key) (.found val) m
  | updated {m key val alloc} (hkey : key ∈ m) :
      KhSpec isMap m (.put key val alloc) (.ret 0) (m.insert key (khValueOf isMap val))
  | inserted {m key val alloc ret} (hkey : key ∉ m) (hret : ret = 1 ∨ ret = 2) :
      KhSpec isMap m (.put key val alloc) (.ret ret) (m.insert key (khValueOf isMap val))
  | putFailed {m key val alloc n n'} (hrefused : Refused isMap n n' alloc) :
      KhSpec isMap m (.put key val alloc) (.ret (-1)) m
  | del {m key} : KhSpec isMap m (.del key) .done (m.erase key)
  | resized {m newN alloc} : KhSpec isMap m (.resize newN alloc) (.ret 0) m
  | resizeFailed {m newN alloc n} (hrefused : Refused isMap n (khNewBuckets newN) alloc) :
      KhSpec isMap m (.resize newN alloc) (.ret (-1)) m
  | clear {m} : KhSpec isMap m .clear .done ∅

/-- Each key of a map has a value. -/
def Assigned [DecidableEq K] (isMap : Bool) (m : Finmap fun _ : K => Option V) : Prop :=
  ∀ key val, m.lookup key = some val → val.isSome = isMap

/-- The table stands for the map, in which every key has a value. -/
def KhRefines [DecidableEq K] (hashFunc : K → BitVec 32) (isMap : Bool) (h : KHash K V)
    (m : Finmap fun _ : K => Option V) : Prop := Denotes hashFunc isMap h m ∧ Assigned isMap m

variable [DecidableEq K] {hashFunc : K → BitVec 32} {isMap : Bool} {h : KHash K V}
  {slots : ℕ → Slot K (Option V)} {m : Finmap fun _ : K => Option V}

lemma isSome_khValueOf (val : V) : (khValueOf isMap val).isSome = isMap := by
  cases isMap <;> rfl

lemma Assigned.insert (hm : Assigned isMap m) (key : K) (val : V) :
    Assigned isMap (m.insert key (khValueOf isMap val)) := by
  intro key' val' hkey
  by_cases he : key' = key
  · subst he
    rw [Finmap.lookup_insert] at hkey
    cases hkey
    exact isSome_khValueOf val
  · rw [Finmap.lookup_insert_of_ne _ he] at hkey
    exact hm key' val' hkey

lemma Assigned.erase (hm : Assigned isMap m) (key : K) : Assigned isMap (m.erase key) := by
  intro key' val' hkey
  by_cases he : key' = key
  · subst he
    rw [Finmap.lookup_erase] at hkey
    cases hkey
  · rw [Finmap.lookup_erase_ne he] at hkey
    exact hm key' val' hkey

lemma assigned_empty : Assigned isMap (∅ : Finmap fun _ : K => Option V) := by
  intro key val hkey
  rw [Finmap.lookup_empty] at hkey
  cases hkey

/-! ### One step -/

omit [DecidableEq K] in
/-- The value that a live bucket shows. -/
lemma khFetch_eq (hs : Sound hashFunc isMap h slots) {x : ℕ} (hx : x < h.nBuckets) {key : K}
    {val : Option V} (hlive : slots x = .live key val) (hval : val.isSome = isMap) :
    khFetch isMap h x = .ok val := by
  have hshows := hs.shows x hx
  rw [hlive] at hshows
  unfold khFetch
  cases isMap with
  | false =>
    rw [Option.isSome_eq_false_iff, Option.isNone_iff_eq_none] at hval
    rw [hval]
    rfl
  | true =>
    obtain ⟨w, rfl⟩ := Option.isSome_iff_exists.mp hval
    have hcell : h.vals[x]? = some (some w) := by
      have hlt : x < h.vals.length := hx.trans_le (hs.room.vals_le rfl)
      have hget := hshows.2.2.2
      rw [List.getD_eq_getElem _ _ hlt] at hget
      rw [List.getElem?_eq_getElem hlt, hget]
    rw [if_pos rfl, khVal, readCell_of_some hcell]
    rfl

lemma khStep_get (hm : KhRefines hashFunc isMap h m) (key : K) :
    ∃ out, khStep hashFunc isMap h (.get key) = .ok (h, out) ∧ KhSpec isMap m (.get key) out m := by
  obtain ⟨⟨slots, hs, rfl⟩, hassigned⟩ := hm
  obtain ⟨x, hrun, hcase⟩ := khGet_eq hs key
  simp only [khStep, hrun, Bounded.ok_bind, Bounded.pure_eq_ok]
  rcases hcase with ⟨hend, hnone⟩ | ⟨hx, val, hlive⟩
  · rw [khEnd, if_pos hend]
    exact ⟨.missing, rfl, KhSpec.missing hnone⟩
  · have hkey : hs.valid.toFinmap.lookup key = some val := hs.valid.lookup_eq_some.mpr ⟨x, hx, hlive⟩
    rw [khEnd, if_neg hx.ne, khFetch_eq hs hx hlive (hassigned key val hkey)]
    exact ⟨.found val, rfl, KhSpec.found hkey⟩

lemma khStep_del (hm : KhRefines hashFunc isMap h m) (key : K) :
    ∃ h', khStep hashFunc isMap h (.del key) = .ok (h', .done) ∧ h'.nBuckets = h.nBuckets ∧
      KhRefines hashFunc isMap h' (m.erase key) := by
  obtain ⟨⟨slots, hs, rfl⟩, hassigned⟩ := hm
  obtain ⟨x, hrun, hcase⟩ := khGet_eq hs key
  simp only [khStep, hrun, Bounded.ok_bind, Bounded.pure_eq_ok]
  rcases hcase with ⟨hend, hnone⟩ | ⟨hx, val, hlive⟩
  · rw [hend, khDel_end]
    refine ⟨h, rfl, rfl, ⟨slots, hs, ?_⟩, hassigned.erase key⟩
    apply Finmap.ext_lookup
    intro key'
    by_cases he : key' = key
    · rw [he, hnone, Finmap.lookup_erase]
    · rw [Finmap.lookup_erase_ne he]
  · obtain ⟨h', hdel, hn, slots', hs', hmap⟩ := khDel_live hs hx hlive
    rw [hdel]
    exact ⟨h', rfl, hn, ⟨slots', hs', hmap⟩, hassigned.erase key⟩

lemma khStep_clear (hm : KhRefines hashFunc isMap h m) :
    ∃ h', khStep hashFunc isMap h .clear = .ok (h', .done) ∧ h'.nBuckets = h.nBuckets ∧
      KhRefines hashFunc isMap h' ∅ := by
  obtain ⟨⟨slots, hs, -⟩, -⟩ := hm
  obtain ⟨h', hrun, hn, hempty⟩ := khClear_eq hs
  refine ⟨h', ?_, hn, hempty, assigned_empty⟩
  simp only [khStep, hrun, Bounded.liftM_ok, Bounded.ok_bind, Bounded.pure_eq_ok]

/-- The assignment to the bucket of a key; a set keeps its entry as it is. -/
lemma khAssign_eq (hs : Sound hashFunc isMap h slots) {x : ℕ} (hx : x < h.nBuckets) {key : K}
    {v : Option V} (hlive : slots x = .live key v) (val : V) :
    ∃ h', khAssign isMap h x val = .ok h' ∧ h'.nBuckets = h.nBuckets ∧
      ∃ slots', ∃ hs' : Sound hashFunc isMap h' slots',
        hs'.valid.toFinmap = hs.valid.toFinmap.insert key (khValueOf isMap val) := by
  cases isMap with
  | true => exact khSetVal_live hs hx hlive val
  | false =>
    have hv : v = none := by
      have hshows := hs.shows x hx
      rw [hlive] at hshows
      rw [← hshows.2.2.2]
      exact hs.room.fitsVal x rfl
    have hkey : hs.valid.toFinmap.lookup key = some none := by
      rw [hs.valid.lookup_eq_some, ← hv]
      exact ⟨x, hx, hlive⟩
    refine ⟨h, rfl, rfl, slots, hs, ?_⟩
    apply Finmap.ext_lookup
    intro key'
    by_cases he : key' = key
    · rw [he, hkey, Finmap.lookup_insert]
      rfl
    · rw [Finmap.lookup_insert_of_ne _ he]

lemma khStep_put (hm : KhRefines hashFunc isMap h m) (hfew : h.size < 2 ^ 30) (key : K) (val : V)
    (alloc : Alloc) :
    ∃ h' out m', khStep hashFunc isMap h (.put key val alloc) = .ok (h', out) ∧ Grown h h' ∧
      KhSpec isMap m (.put key val alloc) out m' ∧ KhRefines hashFunc isMap h' m' := by
  obtain ⟨⟨slots, hs, rfl⟩, hassigned⟩ := hm
  obtain ⟨h₁, x, ret, hput, hgrown, slots₁, hs₁, hcase⟩ := khPut_eq hs hfew key alloc
  simp only [khStep, hput, Bounded.ok_bind, Bounded.pure_eq_ok]
  rcases hcase with ⟨rfl, ⟨n, n', hrefused⟩, hmap⟩ | ⟨v, hx, hlive, hdone⟩
  · rw [if_pos (by omega)]
    exact ⟨h₁, .ret (-1), _, rfl, hgrown, KhSpec.putFailed hrefused, ⟨slots₁, hs₁, hmap⟩, hassigned⟩
  · obtain ⟨h₂, hassign, hn, slots₂, hs₂, hmap⟩ := khAssign_eq hs₁ hx hlive val
    have hgrown' : Grown h h₂ := by
      unfold Grown
      rw [hn]
      exact hgrown
    have hrefines : hs₂.valid.toFinmap = hs.valid.toFinmap.insert key (khValueOf isMap val) →
        KhRefines hashFunc isMap h₂ (hs.valid.toFinmap.insert key (khValueOf isMap val)) :=
      fun hinsert => ⟨⟨slots₂, hs₂, hinsert⟩, hassigned.insert key val⟩
    generalize hm : hs.valid.toFinmap = m at hdone hrefines
    generalize hm₁ : hs₁.valid.toFinmap = m₁ at hdone hmap
    rw [hassign]
    cases hdone with
    | present v hkey =>
      rw [if_neg (by omega)]
      refine ⟨h₂, .ret 0, _, rfl, hgrown', KhSpec.updated ?_, hrefines hmap⟩
      exact Finmap.mem_of_lookup_eq_some hkey
    | inserted v ret hret hkey =>
      rw [if_neg (by omega)]
      refine ⟨h₂, .ret ret, _, rfl, hgrown', KhSpec.inserted ?_ hret, hrefines ?_⟩
      · exact Finmap.lookup_eq_none.mp hkey
      · rw [hmap, Finmap.insert_insert]

lemma khStep_resize (hm : KhRefines hashFunc isMap h m) (newN : ℕ) {alloc : Alloc}
    (hshrink : Shrinks isMap h (khNewBuckets newN) alloc) :
    ∃ h' out, khStep hashFunc isMap h (.resize newN alloc) = .ok (h', out) ∧
      KhSpec isMap m (.resize newN alloc) out m ∧ KhRefines hashFunc isMap h' m := by
  obtain ⟨⟨slots, hs, rfl⟩, hassigned⟩ := hm
  obtain ⟨r, hrun, hresized, slots', hs', hmap⟩ := khResize_eq hs newN hshrink
  simp only [khStep, hrun, Bounded.ok_bind, Bounded.pure_eq_ok]
  refine ⟨r.1, .ret r.2, rfl, ?_, ⟨slots', hs', hmap⟩, hassigned⟩
  cases hresized with
  | tooSmall hsmall => exact KhSpec.resized
  | failed keys vals hroom hrefused => exact KhSpec.resizeFailed hrefused
  | done h' hn hsize hocc hupper hroom hgranted hclean => exact KhSpec.resized

/-- Every allowed step of the table is a step of the map. -/
lemma khStep_refines (hm : KhRefines hashFunc isMap h m) (op : KhOp K V)
    (hallowed : KhAllowed isMap h op) :
    ∃ h' out m', khStep hashFunc isMap h op = .ok (h', out) ∧ KhSpec isMap m op out m' ∧
      KhRefines hashFunc isMap h' m' := by
  cases op with
  | get key =>
    obtain ⟨out, hrun, hspec⟩ := khStep_get hm key
    exact ⟨h, out, m, hrun, hspec, hm⟩
  | put key val alloc =>
    obtain ⟨h', out, m', hrun, -, hspec, hm'⟩ := khStep_put hm hallowed key val alloc
    exact ⟨h', out, m', hrun, hspec, hm'⟩
  | del key =>
    obtain ⟨h', hrun, -, hm'⟩ := khStep_del hm key
    exact ⟨h', .done, m.erase key, hrun, KhSpec.del, hm'⟩
  | resize newN alloc =>
    obtain ⟨h', out, hrun, hspec, hm'⟩ := khStep_resize hm newN hallowed
    exact ⟨h', out, m, hrun, hspec, hm'⟩
  | clear =>
    obtain ⟨h', hrun, -, hm'⟩ := khStep_clear hm
    exact ⟨h', .done, ∅, hrun, KhSpec.clear, hm'⟩

/-! ### Runs -/

lemma khInit_refines (hashFunc : K → BitVec 32) (isMap : Bool) :
    KhRefines hashFunc isMap (khInit : KHash K V) ∅ := by
  have hs : Sound hashFunc isMap (khInit : KHash K V) fun _ => .empty :=
    ⟨fun i hi => absurd hi (Nat.not_lt_zero i), le_rfl, ⟨le_rfl, fun _ => le_rfl, fun _ => rfl⟩,
      Valid.empty _ _, rfl, rfl, Or.inl ⟨rfl, rfl⟩, le_rfl⟩
  exact ⟨⟨_, hs, Finmap.ext (contents_empty 0)⟩, assigned_empty⟩

/-- Every run of a new table ends without a fault, and everything that it gives out a finite map gives
out too. -/
theorem khRun_refines (hashFunc : K → BitVec 32) (isMap : Bool) (ops : List (KhOp K V))
    (hallowed : AllAllowed (khStep hashFunc isMap) (KhAllowed isMap) khInit ops) :
    ∃ h outs m, runOps (khStep hashFunc isMap) khInit ops = .ok (h, outs) ∧
      SpecRun (KhSpec isMap) ∅ ops outs m ∧ KhRefines hashFunc isMap h m :=
  runOps_refines (fun _ _ op hm hop => khStep_refines hm op hop) (khInit_refines hashFunc isMap) hallowed

theorem khRun_refines_del :
    let ops := [.put 5#32 true ⟨true, true, true⟩, .get 5#32, .del 5#32, .get 5#32]
    ∃ h outs m, runOps (khStep khIntHashFunc true) khInit ops = .ok (h, outs) ∧
      SpecRun (KhSpec true) ∅ ops outs m ∧ KhRefines khIntHashFunc true h m := by
  apply khRun_refines
  refine AllAllowed.cons_ok (show _ < 2 ^ 30 by decide) rfl ?_
  exact ⟨trivial, fun _ _ _ => ⟨trivial, fun _ _ _ => ⟨trivial, fun _ _ _ => trivial⟩⟩⟩

end Utilc
