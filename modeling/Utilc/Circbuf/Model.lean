import Utilc.CLib.Checked
import Utilc.CLib.Runs

/-!
# The ring buffer

`circbuf.h` and `circbuf.c`. The elements are pointers in the source; here they have any type with
a zero, which is `NULL`.
-/

namespace Utilc
open CLib

/-- `circbuf_t`. -/
structure Circbuf (α : Type) where
  a : List α
  start : ℕ
  length : ℕ
  capacityLog2 : ℕ
  rotationMask : ℕ
  deriving DecidableEq, Repr

variable {α : Type}

/-! ### `circbuf.h` -/

/-- `CIRCBUF_FULL`; the capacity in it is an `int`. -/
def circbufFull (buf : Circbuf α) : Checked Bool := do
  let capacity ← intShl 1 buf.capacityLog2
  return decide (capacity ≤ buf.length)

/-- `CIRCBUF_NEXT`: the element at `iter` and the next `iter`. -/
def circbufNext (buf : Circbuf α) (iter : ℕ) : Checked (α × ℕ) := do
  let iter := iter &&& buf.rotationMask
  let elem ← readAt buf.a iter
  return (elem, sizeAdd iter 1)

def circbufFrontIndex (buf : Circbuf α) : ℕ :=
  sizeSub (sizeAdd buf.start buf.length) (if buf.length ≠ 0 then 1 else 0) &&& buf.rotationMask

/-! ### `circbuf.c` -/

/-- The largest `capacityLog2` that the assertion of `circbuf_make` admits. -/
def addressablePtrCountLog2 : ℕ :=
  let ptrSizeLog2 := 1 + sizeofPtr / 4
  sizeofSize * 8 - ptrSizeLog2

def circbufMake [Zero α] (capacityLog2 : ℕ) : Checked (Circbuf α) := do
  require (capacityLog2 ≤ addressablePtrCountLog2) .assertFailed
  let capacity ← sizeShl 1 capacityLog2
  return ⟨calloc sizeofPtr capacity, 0, 0, capacityLog2, sizeSub capacity 1⟩

def circbufPut (buf : Circbuf α) (elem : α) : Checked (Circbuf α) := do
  let full ← circbufFull buf
  require (full = false) .assertFailed
  let postEnd := sizeAdd buf.start buf.length &&& buf.rotationMask
  let length := sizeAdd buf.length 1
  let a ← writeAt buf.a postEnd elem
  return { buf with a := a, length := length }

def circbufPopBack (buf : Circbuf α) : Checked (Circbuf α × α) := do
  require (buf.length ≠ 0) .assertFailed
  let result ← readAt buf.a buf.start
  let start := sizeAdd buf.start 1 &&& buf.rotationMask
  return ({ buf with start := start, length := sizeSub buf.length 1 }, result)

def circbufResize [Zero α] (buf : Circbuf α) (newCapacityLog2 : ℕ) : Checked (Circbuf α) := do
  let bound ← intShl 1 newCapacityLog2
  require (buf.length ≤ bound) .assertFailed
  let newBuf ← circbufMake newCapacityLog2
  let capacity ← intShl 1 buf.capacityLog2
  let isWrapped := decide (sizeSub capacity buf.start < buf.length)
  let n1 := if isWrapped then sizeSub capacity buf.start else buf.length
  let n2 := if isWrapped then sizeSub buf.length n1 else 0
  let a ← copyAt newBuf.a 0 buf.a buf.start n1
  let a ← copyAt a n1 buf.a 0 n2
  return { newBuf with a := a, length := buf.length }

def circbufIncreaseSize [Zero α] (buf : Circbuf α) : Checked (Circbuf α) :=
  circbufResize buf (buf.capacityLog2 + 1)

def circbufDynamicPut [Zero α] (buf : Circbuf α) (elem : α) : Checked (Circbuf α) := do
  let full ← circbufFull buf
  let buf ← if full then circbufResize buf (buf.capacityLog2 + 1) else .ok buf
  circbufPut buf elem

/-- The loop of `circbuf_destroy`: `count` rounds, the next one for offset `i`. It gives the elements
that are freed, in order. -/
def destroyLoop (buf : Circbuf α) : ℕ → ℕ → Checked (List α)
  | 0, _ => .ok []
  | count + 1, i => do
    let index := sizeAdd buf.start i &&& buf.rotationMask
    let elem ← readAt buf.a index
    let rest ← destroyLoop buf count (i + 1)
    return elem :: rest

/-- `circbuf_destroy`: the elements it frees before the array. -/
def circbufDestroy (buf : Circbuf α) : Checked (List α) := destroyLoop buf buf.length 0

/-! ### Runs -/

inductive CircbufOp (α : Type) where
  | put (elem : α)
  | dynamicPut (elem : α)
  | popBack
  | increaseSize
  | resize (newCapacityLog2 : ℕ)
  deriving DecidableEq, Repr

variable [Zero α]

/-- One call; only `circbuf_popBack` returns an element. -/
def circbufStep (buf : Circbuf α) : CircbufOp α → Checked (Circbuf α × Option α)
  | .put elem => do return (← circbufPut buf elem, none)
  | .dynamicPut elem => do return (← circbufDynamicPut buf elem, none)
  | .popBack => do
    let (buf, result) ← circbufPopBack buf
    return (buf, some result)
  | .increaseSize => do return (← circbufIncreaseSize buf, none)
  | .resize newCapacityLog2 => do return (← circbufResize buf newCapacityLog2, none)

/-- A buffer from `circbuf_make` and the calls made on it. -/
def circbufRun (capacityLog2 : ℕ) (ops : List (CircbufOp α)) :
    Checked (Circbuf α × List (Option α)) := do
  let buf ← circbufMake capacityLog2
  runOps circbufStep buf ops

/-- The elements from `start` on: `a[(start + i) & rotationMask]` for `i < length`. -/
def circbufContents (buf : Circbuf α) : List α :=
  (List.range buf.length).map (fun i => buf.a.getD (buf.start + i &&& buf.rotationMask) 0)

end Utilc
