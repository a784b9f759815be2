import Utilc.CLib.Amortized
import Utilc.Khash.Costs

/-!
# What making room costs

`kh_put` now and then goes through all the buckets to make room. Most of them were filled since it did
so last, so that over a run there is a constant number of rounds for each call. What the loops inside a
round do is not counted.
-/

namespace Utilc
open CLib OpenAddressing

variable {K V : Type} {hashFunc : K → BitVec 32} {isMap : Bool} {h h' : KHash K V}

section Rounds

variable (hashFunc : K → BitVec 32) (isMap : Bool)

/-- The turns of the loop over the old buckets in `khRehash`. -/
def khRehashRounds (h : KHash K V) (newN : ℕ) : ℕ :=
  Bounded.loopTurns (khRehashBucket hashFunc isMap h.nBuckets newN)
    ⟨h.flags, List.replicate (acFsize newN) acAllEmpty, h.keys, h.vals⟩ (List.range h.nBuckets)

/-- The turns of that loop in `kh_resize`. -/
def khResizeRounds (h : KHash K V) (newN : ℕ) (alloc : Alloc) : ℕ :=
  if acHashUpper (khNewBuckets newN) ≤ h.size then 0
  else if alloc.flags then
    let expanded := khExpand isMap h (khNewBuckets newN) alloc
    if expanded.2 then khRehashRounds hashFunc isMap expanded.1 (khNewBuckets newN) else 0
  else 0

/-- The turns of that loop when `kh_put` makes room. -/
def khMakeRoomRounds (h : KHash K V) (alloc : Alloc) : ℕ :=
  if h.upperBound ≤ h.nOccupied then
    if khShl1 h.size < h.nBuckets then khResizeRounds hashFunc isMap h (khSub h.nBuckets 1) alloc
    else khResizeRounds hashFunc isMap h (khAdd h.nBuckets 1) alloc
  else 0

def khRounds (h : KHash K V) : KhOp K V → ℕ
  | .put _ _ alloc => khMakeRoomRounds hashFunc isMap h alloc
  | .resize newN alloc => khResizeRounds hashFunc isMap h newN alloc
  | _ => 0

end Rounds

def KhOp.isPut : KhOp K V → Bool
  | .put _ _ _ => true
  | _ => false

/-! ### The rounds of a call -/

/-- A rehashing that completes has gone through all the old buckets. -/
lemma khRehashRounds_eq {newN : ℕ} {alloc : Alloc}
    (hrun : khRehash hashFunc isMap h newN alloc = .ok h') :
    khRehashRounds hashFunc isMap h newN = h.nBuckets := by
  obtain ⟨r, hloop, -⟩ := Bounded.bind_eq_ok.mp hrun
  rw [khRehashRounds, Bounded.loopTurns_of_ok hloop, List.length_range]

lemma khExpand_nBuckets (isMap : Bool) (h : KHash K V) (newN : ℕ) (alloc : Alloc) :
    (khExpand isMap h newN alloc).1.nBuckets = h.nBuckets := by
  unfold khExpand
  split
  · split
    · split
      · split <;> rfl
      · rfl
    · rfl
  · rfl

/-- A call goes through all the buckets, or it has not begun to. -/
lemma khResizeRounds_cases {newN : ℕ} {alloc : Alloc} {ret : ℤ}
    (hrun : khResize hashFunc isMap h newN alloc = .ok (h', ret)) :
    khResizeRounds hashFunc isMap h newN alloc = 0 ∨
      ret = 0 ∧ khResizeRounds hashFunc isMap h newN alloc = h.nBuckets := by
  unfold khResize at hrun
  unfold khResizeRounds
  by_cases hsmall : acHashUpper (khNewBuckets newN) ≤ h.size
  · exact Or.inl (if_pos hsmall)
  · rw [if_neg hsmall] at hrun ⊢
    cases hflags : alloc.flags with
    | false => exact Or.inl rfl
    | true =>
      rw [hflags, if_pos rfl] at hrun
      rw [if_pos rfl]
      cases hok : (khExpand isMap h (khNewBuckets newN) alloc).2 with
      | false =>
        apply Or.inl
        simp only [hok, if_neg Bool.false_ne_true]
      | true =>
        simp only [hok, if_true] at hrun ⊢
        obtain ⟨next, hrehash, hresult⟩ := Bounded.bind_eq_ok.mp hrun
        cases hresult
        rw [khRehashRounds_eq hrehash, khExpand_nBuckets]
        exact Or.inr ⟨rfl, rfl⟩

lemma khMakeRoomRounds_cases {alloc : Alloc} {ret : ℤ}
    (hrun : khMakeRoom hashFunc isMap h alloc = .ok (h', ret)) :
    khMakeRoomRounds hashFunc isMap h alloc = 0 ∨
      ret = 0 ∧ khMakeRoomRounds hashFunc isMap h alloc = h.nBuckets := by
  unfold khMakeRoom at hrun
  unfold khMakeRoomRounds
  by_cases hfull : h.upperBound ≤ h.nOccupied
  · rw [if_pos hfull] at hrun ⊢
    by_cases hdeleted : khShl1 h.size < h.nBuckets
    · rw [if_pos hdeleted] at hrun ⊢
      exact khResizeRounds_cases hrun
    · rw [if_neg hdeleted] at hrun ⊢
      exact khResizeRounds_cases hrun
  · exact Or.inl (if_neg hfull)

/-! ### The counts after a call -/

lemma khAdd_le (a b : ℕ) : khAdd a b ≤ a + b := Nat.mod_le _ _

/-- At most one more bucket is in use. -/
lemma khOccupy_counts {key : K} {x x' : ℕ} {ret : ℤ} (hrun : khOccupy h key x = .ok (h', x', ret)) :
    h'.nBuckets = h.nBuckets ∧ h'.nOccupied ≤ h.nOccupied + 1 := by
  obtain ⟨empty, -, hrun⟩ := bind_eq_ok.mp hrun
  cases empty with
  | true =>
    obtain ⟨_, -, hrun⟩ := bind_eq_ok.mp hrun
    obtain ⟨_, -, hrun⟩ := bind_eq_ok.mp hrun
    cases hrun
    exact ⟨rfl, khAdd_le _ _⟩
  | false =>
    obtain ⟨deleted, -, hrun⟩ := bind_eq_ok.mp hrun
    cases deleted with
    | true =>
      obtain ⟨_, -, hrun⟩ := bind_eq_ok.mp hrun
      obtain ⟨_, -, hrun⟩ := bind_eq_ok.mp hrun
      cases hrun
      exact ⟨rfl, Nat.le_succ _⟩
    | false =>
      cases hrun
      exact ⟨rfl, Nat.le_succ _⟩

lemma khAssign_counts {x : ℕ} {val : V} (hrun : khAssign isMap h x val = .ok h') :
    h'.nBuckets = h.nBuckets ∧ h'.nOccupied = h.nOccupied := by
  cases isMap with
  | false =>
    cases hrun
    exact ⟨rfl, rfl⟩
  | true =>
    obtain ⟨_, -, hrun⟩ := bind_eq_ok.mp hrun
    cases hrun
    exact ⟨rfl, rfl⟩

lemma khDel_counts {x : ℕ} (hrun : khDel h x = .ok h') :
    h'.nBuckets = h.nBuckets ∧ h'.nOccupied = h.nOccupied := by
  unfold khDel at hrun
  by_cases hx : x ≠ h.nBuckets
  · rw [if_pos hx] at hrun
    obtain ⟨either, -, hrun⟩ := bind_eq_ok.mp hrun
    cases either with
    | true =>
      cases hrun
      exact ⟨rfl, rfl⟩
    | false =>
      obtain ⟨_, -, hrun⟩ := bind_eq_ok.mp hrun
      cases hrun
      exact ⟨rfl, rfl⟩
  · rw [if_neg hx] at hrun
    cases hrun
    exact ⟨rfl, rfl⟩

lemma khClear_counts (hrun : khClear h = .ok h') :
    h'.nBuckets = h.nBuckets ∧ h'.nOccupied ≤ h.nOccupied := by
  unfold khClear at hrun
  by_cases hflags : h.flags ≠ []
  · rw [if_pos hflags] at hrun
    obtain ⟨_, -, hrun⟩ := bind_eq_ok.mp hrun
    cases hrun
    exact ⟨rfl, Nat.zero_le _⟩
  · rw [if_neg hflags] at hrun
    cases hrun
    exact ⟨rfl, le_rfl⟩

/-! ### The potential -/

/-- Four rounds for each bucket in use pay for going through all of them. -/
def khPotential (h : KHash K V) : ℤ := 4 * h.nOccupied - h.nBuckets

lemma khPotential_le {charge : ℕ} (hn : h'.nBuckets = h.nBuckets)
    (hocc : 4 * h'.nOccupied ≤ 4 * h.nOccupied + charge) :
    khPotential h' ≤ charge + khPotential h := by
  unfold khPotential
  omega

variable [DecidableEq K]

/-- Making room is paid for by the buckets that it takes out of use, or by those that it adds. -/
lemma khMakeRoom_potential {slots : ℕ → Slot K (Option V)}
    (hs : Sound hashFunc isMap h slots) (hfew : h.size < 2 ^ 30) {alloc : Alloc}
    {r : KHash K V × ℤ} (hrun : khMakeRoom hashFunc isMap h alloc = .ok r) :
    khMakeRoomRounds hashFunc isMap h alloc + khPotential r.1 ≤ khPotential h := by
  obtain ⟨r', hrun', hmade, -⟩ := khMakeRoom_eq hs hfew alloc
  rw [hrun] at hrun'
  cases hrun'
  have hrounds := khMakeRoomRounds_cases hrun
  cases hmade with
  | enough hroom =>
    have hzero : khMakeRoomRounds hashFunc isMap h alloc = 0 := if_neg (not_le.mpr hroom)
    rw [hzero]
    exact (zero_add _).le
  | failed keys vals n' hfull hn hrefused =>
    rcases hrounds with hzero | ⟨hret, -⟩
    · rw [hzero]
      exact (zero_add _).le
    · cases hret
  | resized h' hfull hroom hocc hn =>
    have hle : khMakeRoomRounds hashFunc isMap h alloc ≤ h.nBuckets := by
      rcases hrounds with hzero | ⟨-, hall⟩
      · omega
      · exact hall.le
    have hsize := hs.size_le
    unfold khPotential
    rw [hocc]
    rcases hn with ⟨hsame, hhalf⟩ | ⟨hfour, hnone⟩ | ⟨hdouble, hhalf⟩
    · -- fewer than half of the buckets have keys, but 77 of 100 are in use
      have hupper : h.upperBound = acHashUpper h.nBuckets := by
        rcases hs.geometry with ⟨hn, -⟩ | ⟨b, -, -, hn, hu⟩
        · omega
        · rw [hn, hu]
      unfold acHashUpper at hupper
      rw [hsame]
      omega
    · rw [hfour]
      omega
    · rw [hdouble]
      omega

lemma khPut_potential {slots : ℕ → Slot K (Option V)}
    (hs : Sound hashFunc isMap h slots) (hfew : h.size < 2 ^ 30) {key : K} {alloc : Alloc} {x : ℕ}
    {ret : ℤ} (hrun : khPut hashFunc isMap h key alloc = .ok (h', x, ret)) :
    khMakeRoomRounds hashFunc isMap h alloc + khPotential h' ≤ 4 + khPotential h := by
  obtain ⟨r, hroom, hrun⟩ := Bounded.bind_eq_ok.mp hrun
  have hpotential := khMakeRoom_potential hs hfew hroom
  by_cases hfailed : r.2 < 0
  · rw [if_pos hfailed] at hrun
    cases hrun
    omega
  · rw [if_neg hfailed] at hrun
    obtain ⟨site, -, hrun⟩ := Bounded.bind_eq_ok.mp hrun
    obtain ⟨hn, hocc⟩ := khOccupy_counts (Bounded.liftM_eq_ok.mp hrun)
    have hlast : khPotential h' ≤ (4 : ℕ) + khPotential r.1 := khPotential_le hn (by omega)
    omega

/-- What is charged for a call. -/
def khCharge (op : KhOp K V) : ℕ := if op.isPut then 4 else 0

lemma khStep_potential {limit : ℕ} (hlimit : limit < 2 ^ 30) {m : Finmap fun _ : K => Option V}
    (hm : KhRefines hashFunc isMap h m) {op : KhOp K V} {out : KhOut V} (hwithin : KhWithin limit h op)
    (hstep : khStep hashFunc isMap h op = .ok (h', out)) :
    khRounds hashFunc isMap h op + khPotential h' ≤ khCharge op + khPotential h := by
  obtain ⟨hsize, hno⟩ := hwithin
  cases op with
  | get key =>
    obtain ⟨_, -, hstep⟩ := Bounded.bind_eq_ok.mp hstep
    split at hstep
    · cases hstep
      exact le_rfl
    · obtain ⟨_, -, hstep⟩ := Bounded.bind_eq_ok.mp hstep
      cases hstep
      exact le_rfl
  | put key val alloc =>
    obtain ⟨⟨slots, hs, -⟩, -⟩ := hm
    obtain ⟨⟨mid, x, ret⟩, hput, hstep⟩ := Bounded.bind_eq_ok.mp hstep
    have hpotential := khPut_potential hs (hsize.trans_lt hlimit) hput
    split at hstep
    · cases hstep
      exact hpotential
    · obtain ⟨_, hassign, hstep⟩ := Bounded.bind_eq_ok.mp hstep
      cases hstep
      obtain ⟨hn, hocc⟩ := khAssign_counts (Bounded.liftM_eq_ok.mp hassign)
      have hlast : khPotential h' = khPotential mid := by
        unfold khPotential
        rw [hn, hocc]
      rw [hlast]
      exact hpotential
  | del key =>
    obtain ⟨_, -, hstep⟩ := Bounded.bind_eq_ok.mp hstep
    obtain ⟨_, hdel, hstep⟩ := Bounded.bind_eq_ok.mp hstep
    cases hstep
    obtain ⟨hn, hocc⟩ := khDel_counts (Bounded.liftM_eq_ok.mp hdel)
    exact (zero_add _).le.trans (khPotential_le hn (by omega))
  | resize newN alloc => exact absurd rfl (hno newN alloc)
  | clear =>
    obtain ⟨_, hclear, hstep⟩ := Bounded.bind_eq_ok.mp hstep
    cases hstep
    obtain ⟨hn, hocc⟩ := khClear_counts (Bounded.liftM_eq_ok.mp hclear)
    exact (zero_add _).le.trans (khPotential_le hn (by omega))

omit [DecidableEq K] in
lemma sum_khCharge (ops : List (KhOp K V)) : (ops.map khCharge).sum = 4 * ops.countP KhOp.isPut := by
  induction ops with
  | nil => rfl
  | cons op ops ih =>
    rw [List.map_cons, List.sum_cons, ih, List.countP_cons]
    unfold khCharge
    split <;> omega

/-- In a run without `kh_resize` the loop over the old buckets takes four rounds for each `kh_put`, and
one more for each bucket that there is room for. -/
theorem khRun_rounds (hashFunc : K → BitVec 32) (isMap : Bool) {limit : ℕ} (hlimit : limit < 2 ^ 30)
    (ops : List (KhOp K V))
    (hwithin : AllAllowed (khStep hashFunc isMap) (KhWithin limit) khInit ops) :
    runCost (khStep hashFunc isMap) (khRounds hashFunc isMap) khInit ops ≤
      4 * ops.countP KhOp.isPut + max 4 (4 * limit) := by
  obtain ⟨h, outs, hrun, hn⟩ := khRun_within hashFunc isMap hlimit hwithin
  have hinit : ∃ m, KhRefines hashFunc isMap (khInit : KHash K V) m ∧
      (khInit : KHash K V).nBuckets ≤ max 4 (4 * limit) :=
    ⟨∅, khInit_refines hashFunc isMap, Nat.zero_le _⟩
  have hstep : ∀ (h : KHash K V) op h' (out : KhOut V),
      (∃ m, KhRefines hashFunc isMap h m ∧ h.nBuckets ≤ max 4 (4 * limit)) →
      KhWithin limit h op → khStep hashFunc isMap h op = .ok (h', out) →
        (∃ m, KhRefines hashFunc isMap h' m ∧ h'.nBuckets ≤ max 4 (4 * limit)) ∧
          khRounds hashFunc isMap h op + khPotential h' ≤ khCharge op + khPotential h := by
    rintro h op h' out ⟨m, hm, hle⟩ hop hone
    obtain ⟨h₁, out₁, m', hrun₁, -, hm', hle'⟩ := khStep_within hlimit hm hle hop
    rw [hone] at hrun₁
    cases hrun₁
    exact ⟨⟨m', hm', hle'⟩, khStep_potential hlimit hm hop hone⟩
  have htotal := runCost_le _ khPotential khCharge hstep hinit hwithin hrun
  have hzero : khPotential (khInit : KHash K V) = 0 := rfl
  rw [sum_khCharge, hzero] at htotal
  unfold khPotential at htotal
  omega

theorem khRun_rounds_put :
    runCost (khStep khIntHashFunc true) (khRounds khIntHashFunc true) khInit khComeAndGo = 4 ∧
      runCost (khStep khIntHashFunc true) (khRounds khIntHashFunc true) khInit khComeAndGo ≤
        4 * khComeAndGo.countP KhOp.isPut + max 4 (4 * 1) :=
  ⟨rfl, khRun_rounds _ _ (by decide : 1 < 2 ^ 30) _ allAllowed_khComeAndGo⟩

end Utilc
