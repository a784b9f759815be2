import Utilc.CLib.Bounded
import Utilc.CLib.PackedFields
import Utilc.CLib.RoundUp

/-!
# The hash table

The functions that `KHASH_INIT` makes in `khash.h`. The key and value types, `__hash_func` and
`kh_is_map` are parameters as they are there; `__hash_equal` is equality. A null pointer is an array
without cells, and a cell that was never written has no value. The answers of the allocator are an
argument of the functions that ask it.
-/

namespace Utilc
open CLib

/-! ### `khint_t` arithmetic -/

def khAdd (a b : ℕ) : ℕ := (a + b) % 2 ^ 32

def khSub (a b : ℕ) : ℕ := (a + (2 ^ 32 - b)) % 2 ^ 32

def khShl1 (a : ℕ) : ℕ := a * 2 % 2 ^ 32

def kroundup32 (x : ℕ) : ℕ := (roundUp32 (BitVec.ofNat 32 x)).toNat

/-- `(khint_t)(n * __ac_HASH_UPPER + 0.5)` with the factor 0.77. It is only taken of powers of two,
where the rounding of the floating point product does not show. -/
def acHashUpper (n : ℕ) : ℕ := (77 * n + 50) / 100

/-! ### Flags -/

def acIsEmpty : List (BitVec 32) → ℕ → Checked Bool := testField 2#32

def acIsDel : List (BitVec 32) → ℕ → Checked Bool := testField 1#32

def acIsEither : List (BitVec 32) → ℕ → Checked Bool := testField 3#32

def acSetIsEmptyFalse : List (BitVec 32) → ℕ → Checked (List (BitVec 32)) := clearField 2#32

def acSetIsBothFalse : List (BitVec 32) → ℕ → Checked (List (BitVec 32)) := clearField 3#32

def acSetIsDelTrue : List (BitVec 32) → ℕ → Checked (List (BitVec 32)) := setField 1#32

/-- Words of flags for `m` buckets. -/
def acFsize (m : ℕ) : ℕ := if m < 16 then 1 else m >>> 4

/-- `memset` with `0xaa` makes every bucket empty. -/
def acAllEmpty : BitVec 32 := 0xaaaaaaaa#32

/-! ### The table -/

/-- `kh_##name##_t`. -/
structure KHash (K V : Type) where
  nBuckets : ℕ
  size : ℕ
  nOccupied : ℕ
  upperBound : ℕ
  flags : List (BitVec 32)
  keys : List (Option K)
  vals : List (Option V)
  deriving DecidableEq, Repr

/-- Which of the allocations of a call succeed. -/
structure Alloc where
  flags : Bool
  keys : Bool
  vals : Bool
  deriving DecidableEq, Repr

variable {K V : Type}

/-- The value of a cell that has one. -/
def readCell {α : Type} (a : List (Option α)) (i : ℕ) : Checked α := do
  let x ← readAt a i
  x.elim (.error .uninitialized) .ok

def khInit : KHash K V := ⟨0, 0, 0, 0, [], [], []⟩

def khClear (h : KHash K V) : Checked (KHash K V) :=
  if h.flags ≠ [] then do
    let flags ← fillAt h.flags 0 (acFsize h.nBuckets) acAllEmpty
    return { h with flags := flags, size := 0, nOccupied := 0 }
  else return h

/-! ### Searching -/

/-- `!__ac_isempty(h->flags, i) && (__ac_isdel(h->flags, i) || !__hash_equal(h->keys[i], key))`. -/
def khPasses [DecidableEq K] (h : KHash K V) (key : K) (i : ℕ) : Checked Bool := do
  if ← acIsEmpty h.flags i then return false
  else if ← acIsDel h.flags i then return true
  else
    let key' ← readCell h.keys i
    return key' ≠ key

/-- Where a walk ended, the last deleted bucket that it went past, and whether it ended because it was
back at its first bucket. -/
structure Walk where
  i : ℕ
  site : ℕ
  back : Bool
  deriving DecidableEq, Repr

/-- The loop that `kh_get` and `kh_put` share; `kh_get` does without `site`. -/
def khWalk [DecidableEq K] (h : KHash K V) (key : K) (mask last : ℕ) :
    ℕ → ℕ → ℕ → ℕ → Bounded Walk
  | 0, _, _, _ => .error .unfinished
  | turns + 1, i, step, site => do
    if ← khPasses h key i then
      let del ← acIsDel h.flags i
      let site := if del then i else site
      let step := khAdd step 1
      let i := khAdd i step &&& mask
      if i = last then return ⟨i, site, true⟩
      else khWalk h key mask last turns i step site
    else return ⟨i, site, false⟩

/-- A walk is back at its first bucket after at most two moves for each bucket. -/
def khTurns (h : KHash K V) : ℕ := 2 * h.nBuckets

section Hashed

variable (hashFunc : K → BitVec 32) (isMap : Bool)

def khGet [DecidableEq K] (h : KHash K V) (key : K) : Bounded ℕ :=
  if h.nBuckets ≠ 0 then do
    let mask := khSub h.nBuckets 1
    let i := (hashFunc key).toNat &&& mask
    let w ← khWalk h key mask i (khTurns h) i 0 h.nBuckets
    if w.back then return h.nBuckets
    else
      let either ← acIsEither h.flags w.i
      return if either then h.nBuckets else w.i
  else return 0

/-! ### Resizing -/

/-- What the rehashing of `kh_resize` works on. -/
structure Rehash (K V : Type) where
  flags : List (BitVec 32)
  newFlags : List (BitVec 32)
  keys : List (Option K)
  vals : List (Option V)
  deriving DecidableEq, Repr

/-- `while (!__ac_isempty(new_flags, i)) i = (i + (++step)) & new_mask`. -/
def khFindEmpty (newFlags : List (BitVec 32)) (newMask : ℕ) : ℕ → ℕ → ℕ → Bounded ℕ
  | 0, _, _ => .error .unfinished
  | turns + 1, i, step => do
    if ← acIsEmpty newFlags i then return i
    else
      let step := khAdd step 1
      khFindEmpty newFlags newMask turns (khAdd i step &&& newMask) step

/-- `if (kh_is_map) val = h->vals[i]`. -/
def khReadVal (vals : List (Option V)) (i : ℕ) : Checked (Option V) :=
  if isMap then readAt vals i else return none

/-- `if (kh_is_map) h->vals[i] = val`. -/
def khWriteVal (vals : List (Option V)) (i : ℕ) (val : Option V) : Checked (List (Option V)) :=
  if isMap then writeAt vals i val else return vals

/-- `i < h->n_buckets && __ac_iseither(h->flags, i) == 0`. -/
def khOldLive (nBuckets : ℕ) (flags : List (BitVec 32)) (i : ℕ) : Checked Bool :=
  if i < nBuckets then not <$> acIsEither flags i else return false

/-- The kick-out loop. Each turn but the last takes an entry out of the old table. -/
def khKickOut (nBuckets newN : ℕ) : ℕ → Rehash K V → K → Option V → Bounded (Rehash K V)
  | 0, _, _, _ => .error .unfinished
  | turns + 1, r, key, val => do
    let newMask := khSub newN 1
    let i ← khFindEmpty r.newFlags newMask newN ((hashFunc key).toNat &&& newMask) 0
    let newFlags ← acSetIsEmptyFalse r.newFlags i
    let live ← khOldLive nBuckets r.flags i
    if live then
      let key' ← readCell r.keys i
      let keys ← writeAt r.keys i (some key)
      let val' ← khReadVal isMap r.vals i
      let vals ← khWriteVal isMap r.vals i val
      let flags ← acSetIsDelTrue r.flags i
      khKickOut nBuckets newN turns ⟨flags, newFlags, keys, vals⟩ key' val'
    else
      let keys ← writeAt r.keys i (some key)
      let vals ← khWriteVal isMap r.vals i val
      return ⟨r.flags, newFlags, keys, vals⟩

/-- The body of the loop over the old buckets. -/
def khRehashBucket (nBuckets newN : ℕ) (r : Rehash K V) (j : ℕ) : Bounded (Rehash K V) := do
  if ← acIsEither r.flags j then return r
  else
    let key ← readCell r.keys j
    let val ← khReadVal isMap r.vals j
    let flags ← acSetIsDelTrue r.flags j
    khKickOut hashFunc isMap nBuckets newN (nBuckets + 1) { r with flags := flags } key val

/-- The expansion of the arrays; the second result says whether it succeeded. -/
def khExpand (h : KHash K V) (newN : ℕ) (alloc : Alloc) : KHash K V × Bool :=
  if h.nBuckets < newN then
    if alloc.keys then
      let h := { h with keys := realloc h.keys newN }
      if isMap then
        if alloc.vals then ({ h with vals := realloc h.vals newN }, true) else (h, false)
      else (h, true)
    else (h, false)
  else (h, true)

/-- `realloc` to fewer cells; its result is not checked. -/
def khShrink {α : Type} (granted : Bool) (a : List (Option α)) (cells : ℕ) : List (Option α) :=
  if granted then realloc a cells else []

/-- What is done when rehashing is needed. -/
def khRehash (h : KHash K V) (newN : ℕ) (alloc : Alloc) : Bounded (KHash K V) := do
  let newFlags := List.replicate (acFsize newN) acAllEmpty
  let r ← (List.range h.nBuckets).foldlM (khRehashBucket hashFunc isMap h.nBuckets newN)
    ⟨h.flags, newFlags, h.keys, h.vals⟩
  return {
    nBuckets := newN
    size := h.size
    nOccupied := h.size
    upperBound := acHashUpper newN
    flags := r.newFlags
    keys := if newN < h.nBuckets then khShrink alloc.keys r.keys newN else r.keys
    vals := if newN < h.nBuckets ∧ isMap then khShrink alloc.vals r.vals newN else r.vals }

/-- The bucket count that is made of a requested one. -/
def khNewBuckets (newN : ℕ) : ℕ := if kroundup32 newN < 4 then 4 else kroundup32 newN

def khResize (h : KHash K V) (newN : ℕ) (alloc : Alloc) : Bounded (KHash K V × ℤ) :=
  if acHashUpper (khNewBuckets newN) ≤ h.size then return (h, 0)
  else if alloc.flags then
    let expanded := khExpand isMap h (khNewBuckets newN) alloc
    if expanded.2 then do
      let h ← khRehash hashFunc isMap expanded.1 (khNewBuckets newN) alloc
      return (h, 0)
    else return (expanded.1, -1)
  else return (h, -1)

/-! ### Inserting and removing -/

/-- The bucket that `kh_put` decides on. -/
def khSite [DecidableEq K] (h : KHash K V) (key : K) : Bounded ℕ := do
  let mask := khSub h.nBuckets 1
  let i := (hashFunc key).toNat &&& mask
  if ← acIsEmpty h.flags i then return i
  else
    let w ← khWalk h key mask i (khTurns h) i 0 h.nBuckets
    let x := if w.back then w.site else h.nBuckets
    if x = h.nBuckets then
      let empty ← acIsEmpty h.flags w.i
      return if empty ∧ w.site ≠ h.nBuckets then w.site else w.i
    else return x

/-- What `kh_put` does after it has found a bucket. -/
def khOccupy (h : KHash K V) (key : K) (x : ℕ) : Checked (KHash K V × ℕ × ℤ) := do
  if ← acIsEmpty h.flags x then
    let keys ← writeAt h.keys x (some key)
    let flags ← acSetIsBothFalse h.flags x
    return ({ h with
      keys := keys
      flags := flags
      size := khAdd h.size 1
      nOccupied := khAdd h.nOccupied 1 }, x, 1)
  else if ← acIsDel h.flags x then
    let keys ← writeAt h.keys x (some key)
    let flags ← acSetIsBothFalse h.flags x
    return ({ h with keys := keys, flags := flags, size := khAdd h.size 1 }, x, 2)
  else return (h, x, 0)

/-- The part of `kh_put` that makes room: it clears the deleted buckets or expands the table. -/
def khMakeRoom (h : KHash K V) (alloc : Alloc) : Bounded (KHash K V × ℤ) :=
  if h.upperBound ≤ h.nOccupied then
    if khShl1 h.size < h.nBuckets then khResize hashFunc isMap h (khSub h.nBuckets 1) alloc
    else khResize hashFunc isMap h (khAdd h.nBuckets 1) alloc
  else return (h, 0)

/-- `kh_put` returns a bucket and sets `*ret`. -/
def khPut [DecidableEq K] (h : KHash K V) (key : K) (alloc : Alloc) :
    Bounded (KHash K V × ℕ × ℤ) := do
  let r ← khMakeRoom hashFunc isMap h alloc
  if r.2 < 0 then return (r.1, r.1.nBuckets, -1)
  else
    let x ← khSite hashFunc r.1 key
    khOccupy r.1 key x

end Hashed

def khDel (h : KHash K V) (x : ℕ) : Checked (KHash K V) :=
  if x ≠ h.nBuckets then do
    if ← acIsEither h.flags x then return h
    else
      let flags ← acSetIsDelTrue h.flags x
      return { h with flags := flags, size := khSub h.size 1 }
  else return h

/-! ### Reading the buckets -/

def khExist (h : KHash K V) (x : ℕ) : Checked Bool := not <$> acIsEither h.flags x

def khKey (h : KHash K V) (x : ℕ) : Checked K := readCell h.keys x

def khVal (h : KHash K V) (x : ℕ) : Checked V := readCell h.vals x

/-- `kh_value(h, x) = v`. -/
def khSetVal (h : KHash K V) (x : ℕ) (v : V) : Checked (KHash K V) := do
  let vals ← writeAt h.vals x (some v)
  return { h with vals := vals }

def khEnd (h : KHash K V) : ℕ := h.nBuckets

/-- `kh_foreach`, with code that adds to an accumulator. -/
def khForeach {β : Type} (h : KHash K V) (code : β → K → V → β) (acc : β) : Checked β :=
  (List.range (khEnd h)).foldlM (fun acc i => do
    if ← khExist h i then
      let k ← khKey h i
      let v ← khVal h i
      return code acc k v
    else return acc) acc

end Utilc
