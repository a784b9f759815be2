import Utilc.Khash.Runs

/-!
# Tables that runs lead to

What a resizing and an iteration do to a table that any allowed run has left behind.
-/

namespace Utilc
open CLib OpenAddressing

variable {K V : Type} [DecidableEq K] {hashFunc : K → BitVec 32} {isMap : Bool} {h : KHash K V}
  {m : Finmap fun _ : K => Option V}

/-- A table that an allowed run of a new table leads to. -/
def KhReachable (hashFunc : K → BitVec 32) (isMap : Bool) (h : KHash K V) : Prop :=
  ∃ ops outs, AllAllowed (khStep hashFunc isMap) (KhAllowed isMap) khInit ops ∧
    runOps (khStep hashFunc isMap) khInit ops = .ok (h, outs)

lemma KhReachable.refines (hr : KhReachable hashFunc isMap h) : ∃ m, KhRefines hashFunc isMap h m := by
  obtain ⟨ops, outs, hallowed, hrun⟩ := hr
  apply runOps_allowed (fun h => ∃ m, KhRefines hashFunc isMap h m) _ ⟨∅, khInit_refines _ _⟩ hallowed hrun
  rintro h op h' out ⟨m, hm⟩ hop hstep
  obtain ⟨h₁, out₁, m', hrun₁, -, hm'⟩ := khStep_refines hm op hop
  rw [hrun₁] at hstep
  cases hstep
  exact ⟨m', hm'⟩

/-- A table with values for the keys 5 and 6, and with a deleted bucket between theirs. -/
def khSample : KHash (BitVec 32) Bool where
  nBuckets := 4
  size := 2
  nOccupied := 3
  upperBound := 3
  flags := [0xaaaaaa12#32]
  keys := [none, some 5#32, some 9#32, some 6#32]
  vals := [none, some true, some false, some false]

lemma khSample_reachable : KhReachable khIntHashFunc true khSample := by
  refine ⟨[.put 5#32 true ⟨true, true, true⟩, .put 9#32 false ⟨true, true, true⟩,
    .put 6#32 false ⟨true, true, true⟩, .del 9#32], [.ret 1, .ret 1, .ret 1, .done], ?_, rfl⟩
  refine AllAllowed.cons_ok (show _ < 2 ^ 30 by decide) rfl ?_
  refine AllAllowed.cons_ok (show _ < 2 ^ 30 by decide) rfl ?_
  refine AllAllowed.cons_ok (show _ < 2 ^ 30 by decide) rfl ?_
  exact ⟨trivial, fun _ _ _ => trivial⟩

/-- What a caller learns about a key. -/
def khSees (hashFunc : K → BitVec 32) (isMap : Bool) (h : KHash K V) (key : K) : Bounded (KhOut V) := do
  let r ← khStep hashFunc isMap h (.get key)
  return r.2

lemma khSees_eq (hm : KhRefines hashFunc isMap h m) (key : K) :
    khSees hashFunc isMap h key = .ok ((m.lookup key).elim .missing .found) := by
  obtain ⟨out, hrun, hspec⟩ := khStep_get hm key
  simp only [khSees, hrun, Bounded.ok_bind, Bounded.pure_eq_ok]
  cases hspec with
  | missing hkey =>
    rw [hkey]
    rfl
  | found hkey =>
    rw [hkey]
    rfl

/-- Resizing shows the caller nothing but the bucket counts. It fails exactly where the keys have room in
the new number of buckets and an allocation fails that is asked for, and leaves the flags then; where
none fails it leaves no deleted bucket. -/
theorem khResize_sees (hr : KhReachable hashFunc isMap h) (newN : ℕ) (alloc : Alloc)
    (hshrink : khNewBuckets newN < h.nBuckets →
      alloc.keys = true ∧ (isMap = true → alloc.vals = true)) :
    ∃ h' ret, khResize hashFunc isMap h newN alloc = .ok (h', ret) ∧
      (∀ key, khSees hashFunc isMap h' key = khSees hashFunc isMap h key) ∧ h'.size = h.size ∧
      (acHashUpper (khNewBuckets newN) ≤ h.size ∧ ret = 0 ∧ h' = h ∨
        h.size < acHashUpper (khNewBuckets newN) ∧ Refused isMap h.nBuckets (khNewBuckets newN) alloc ∧
          ret = -1 ∧ h'.nBuckets = h.nBuckets ∧ h'.nOccupied = h.nOccupied ∧ h'.flags = h.flags ∨
        h.size < acHashUpper (khNewBuckets newN) ∧ ¬Refused isMap h.nBuckets (khNewBuckets newN) alloc ∧
          ret = 0 ∧ h'.nBuckets = khNewBuckets newN ∧ h'.nOccupied = h'.size ∧
          ∀ i < h'.nBuckets, acIsDel h'.flags i = .ok false) := by
  obtain ⟨m, ⟨slots, hs, rfl⟩, hassigned⟩ := hr.refines
  obtain ⟨r, hrun, hresized, slots', hs', hmap⟩ := khResize_eq hs newN hshrink
  have hsees (key : K) : khSees hashFunc isMap r.1 key = khSees hashFunc isMap h key := by
    rw [khSees_eq ⟨⟨slots, hs, rfl⟩, hassigned⟩, khSees_eq ⟨⟨slots', hs', hmap⟩, hassigned⟩]
  refine ⟨r.1, r.2, hrun, hsees, ?_⟩
  cases hresized with
  | tooSmall hsmall => exact ⟨rfl, Or.inl ⟨hsmall, rfl, rfl⟩⟩
  | failed keys vals hroom hrefused =>
    exact ⟨rfl, Or.inr (Or.inl ⟨hroom, hrefused, rfl, rfl, rfl, rfl⟩)⟩
  | done h' hn hsize hocc hupper hroom hgranted hclean =>
    exact ⟨hsize, Or.inr (Or.inr ⟨hroom, hgranted, rfl, hn, hocc.trans hsize.symm, hclean⟩)⟩

theorem khResize_sees_sample :
    ∃ h', khResize khIntHashFunc true khSample 100 ⟨true, true, true⟩ = .ok (h', 0) ∧
      (∀ key, khSees khIntHashFunc true h' key = khSees khIntHashFunc true khSample key) ∧
      h'.nBuckets = 128 ∧ h'.nOccupied = 2 ∧ ∀ i < 128, acIsDel h'.flags i = .ok false := by
  have hnew : khNewBuckets 100 = 128 := by decide
  obtain ⟨h', ret, hrun, hsees, hsize, hcase⟩ :=
    khResize_sees khSample_reachable 100 ⟨true, true, true⟩ fun _ => ⟨rfl, fun _ => rfl⟩
  rw [hnew] at hcase
  rcases hcase with ⟨hsmall, -⟩ | ⟨-, hrefused, -⟩ | ⟨-, -, rfl, hn, hocc, hclean⟩
  · exact absurd hsmall (by decide)
  · simp [Refused] at hrefused
  · exact ⟨h', hrun, hsees, hn, hocc.trans hsize, hn ▸ hclean⟩

end Utilc
