import Utilc.CLib.Checked
import Utilc.CLib.Runs

/-!
# The index pyramid

`idxpyr.c` and the macros it takes from `utilMacros.h`. A pyramid marks indices in the blocks of
its lowest row; a bit of every higher row says whether the block below it has a mark. All rows lie
in one store.
-/

namespace Utilc
open CLib

/-! ### `utilMacros.h` -/

def umSmallLog2 (val : ℕ) : ℕ :=
  if val > 4 then 3 else if val > 2 then 2 else if val > 1 then 1 else 0

/-- `UM_BIT_COUNT_LOG2` of a type of `size` bytes. -/
def umBitCountLog2 (size : ℕ) : ℕ := umSmallLog2 size + 3

/-- `UM_BIT_COUNT` of a type of `size` bytes. -/
def umBitCount (size : ℕ) : ℕ := size <<< 3

/-! ### `idxpyr.h` -/

/-- `idxpyr_block_t`, a `uint16_t`. -/
abbrev IdxpyrBlock := BitVec 16

def sizeofBlock : ℕ := 2

/-- `UM_BIT_COUNT_LOG2(idxpyr_block_t)`. -/
def blockBitCountLog2 : ℕ := umBitCountLog2 sizeofBlock

/-- `UM_BIT_COUNT(idxpyr_block_t)`. -/
def blockBitCount : ℕ := umBitCount sizeofBlock

/-- `IDXPYR_EMPTY`, that is `(size_t) -1`. -/
def idxpyrEmpty : ℕ := 2 ^ sizeBits - 1

def idxpyrMaxIndexCountLog2 : ℕ := umBitCount sizeofSize - 1

def idxpyrMaxLastRowBlockCountLog2 : ℕ := idxpyrMaxIndexCountLog2 - blockBitCountLog2

/-- `IDXPYR_MAX_HEIGHT`, the size of `rows[]`. -/
def idxpyrMaxHeight : ℕ :=
  idxpyrMaxLastRowBlockCountLog2 / blockBitCountLog2 +
    (if idxpyrMaxLastRowBlockCountLog2 % blockBitCountLog2 ≠ 0 then 1 else 0)

@[simp] lemma blockBitCountLog2_eq : blockBitCountLog2 = 4 := rfl

@[simp] lemma idxpyrMaxIndexCountLog2_eq : idxpyrMaxIndexCountLog2 = 63 := rfl

@[simp] lemma idxpyrMaxHeight_eq : idxpyrMaxHeight = 15 := rfl

/-- `idxpyr_t`. A row pointer is the offset in blocks of the row in the allocated `store`. -/
structure Idxpyr where
  indexCountLog2 : ℕ
  height : ℕ
  rows : List ℕ
  storeSize : ℕ
  stateInit : Bool
  store : List IdxpyrBlock
  deriving DecidableEq, Repr

/-! ### `idxpyr.c`: private functions -/

/-- `getHeight`; heights start with 1. -/
def getHeight (indexCountLog2 : ℕ) : Checked ℕ := do
  require (blockBitCountLog2 ≤ indexCountLog2 ∧ indexCountLog2 ≤ idxpyrMaxIndexCountLog2)
    .assertFailed
  let lastRowBlockCountLog2 := indexCountLog2 - blockBitCountLog2
  return 1 + lastRowBlockCountLog2 / blockBitCountLog2 +
    (if lastRowBlockCountLog2 % blockBitCountLog2 ≠ 0 then 1 else 0)

/-- The binary search of `countTrailingZeros` for the position of the only set bit. -/
def leastBitIndex (leastBit : BitVec 32) : ℕ :=
  (if leastBit &&& 0xFFFF0000#32 ≠ 0#32 then 16 else 0) +
  (if leastBit &&& 0xFF00FF00#32 ≠ 0#32 then 8 else 0) +
  (if leastBit &&& 0xF0F0F0F0#32 ≠ 0#32 then 4 else 0) +
  (if leastBit &&& 0xCCCCCCCC#32 ≠ 0#32 then 2 else 0) +
  (if leastBit &&& 0xAAAAAAAA#32 ≠ 0#32 then 1 else 0)

def countTrailingZeros (val : BitVec 32) : ℤ :=
  if val = 0#32 then -1 else leastBitIndex (val &&& ~~~(val - 1#32))

/-- Conversion of an `int` to an unsigned type of `w` bits. -/
def toUnsigned (w : ℕ) (z : ℤ) : ℕ := (z % 2 ^ w).toNat

lemma toUnsigned_natCast {w c : ℕ} (h : c < 2 ^ w) : toUnsigned w (c : ℤ) = c := by
  have hcast : ((c : ℤ) % 2 ^ w) = ((c % 2 ^ w : ℕ) : ℤ) := by push_cast; rfl
  rw [toUnsigned, hcast, Int.toNat_natCast, Nat.mod_eq_of_lt h]

/-! ### `idxpyr.c`: interface functions -/

/-- `INDEX_EXISTS()` under `assert`. -/
def assertIndexExists (pyr : Idxpyr) (index : ℕ) : Checked Unit := do
  let indexCount ← sizeShl 1 pyr.indexCountLog2
  require (index < indexCount) .assertFailed

def idxpyrSetAll (pyr : Idxpyr) (state : Bool) : Checked Idxpyr := do
  let setPattern : IdxpyrBlock := if state then 0xFFFF#16 else 0#16
  let row ← readAt pyr.rows 0
  let store ← fillAt pyr.store row (pyr.storeSize / sizeofBlock) setPattern
  let lastRowBlockCountLog2 := pyr.indexCountLog2 - blockBitCountLog2
  let topBlockActiveBitCountLog2 := lastRowBlockCountLog2 % blockBitCountLog2
  if state = false ∨ topBlockActiveBitCountLog2 = 0 then
    return { pyr with store := store }
  else
    -- fix top block
    let topBlock ← readAt pyr.rows (pyr.height - 1)
    let activeBits ← sizeShl 1 (1 <<< topBlockActiveBitCountLog2)
    let store ← writeAt store topBlock (BitVec.ofNat 16 (activeBits - 1))
    return { pyr with store := store }

/-- The offset loop of `idxpyr_make`: `count` rounds, the next one for row `i`. -/
def makeRowOffsets : ℕ → ℕ → ℕ → ℕ → List ℕ → Checked (List ℕ × ℕ)
  | 0, _, rowOffset, _, rows => .ok (rows, rowOffset)
  | count + 1, i, rowOffset, lowerRowLength, rows => do
    let lowerRowLength := lowerRowLength >>> blockBitCountLog2
    let rowOffset := sizeAdd rowOffset lowerRowLength
    let rows ← writeAt rows i rowOffset
    makeRowOffsets count (i + 1) rowOffset lowerRowLength rows

def idxpyrMake (indexCountLog2 : ℕ) (stateInit : Bool) : Checked Idxpyr := do
  let indexCountLog2 := max indexCountLog2 blockBitCountLog2
  let height ← getHeight indexCountLog2
  let lowerRowLength ← sizeShl 1 indexCountLog2
  let (rows, rowOffset) ←
    makeRowOffsets (height - 1) 1 0 lowerRowLength (List.replicate idxpyrMaxHeight 0)
  let totalBlockCount := sizeAdd rowOffset 1
  let storeSize := sizeMul totalBlockCount sizeofBlock
  -- the second loop adds the address of the store to the offsets, which are already relative to it
  let rows ← writeAt rows 0 0
  -- `malloc` leaves the blocks undetermined; `idxpyrSetAll` overwrites all of them
  let store := List.replicate (storeSize / sizeofBlock) 0#16
  idxpyrSetAll ⟨indexCountLog2, height, rows, storeSize, stateInit, store⟩ stateInit

/-- One round of the loop of `idxpyr_getFirst`: the block it reads and the next
`lowerBlockIndex`. -/
def getFirstRound (pyr : Idxpyr) (i lowerBlockIndex : ℕ) : Checked (IdxpyrBlock × ℕ) := do
  let row ← readAt pyr.rows i
  let block ← readAt pyr.store (row + lowerBlockIndex)
  let bit := toUnsigned 32 (countTrailingZeros (block.setWidth 32))
  let shifted ← sizeShl lowerBlockIndex blockBitCountLog2
  return (block, sizeAdd shifted bit)

/-- The loop of `idxpyr_getFirst` from level `count - 1` down to level 0. -/
def getFirstLoop (pyr : Idxpyr) : ℕ → ℕ → Checked ℕ
  | 0, lowerBlockIndex => .ok lowerBlockIndex
  | i + 1, lowerBlockIndex => do
    let round ← getFirstRound pyr i lowerBlockIndex
    getFirstLoop pyr i round.2

def idxpyrGetFirst (pyr : Idxpyr) : Checked ℕ := do
  let row ← readAt pyr.rows (pyr.height - 1)
  let topBlock ← readAt pyr.store row
  if topBlock = 0#16 then
    return idxpyrEmpty
  else
    getFirstLoop pyr (pyr.height - 1)
      (toUnsigned sizeBits (countTrailingZeros (topBlock.setWidth 32)))

def idxpyrGet (pyr : Idxpyr) (index : ℕ) : Checked Bool := do
  assertIndexExists pyr index
  let bit := index &&& (blockBitCount - 1)
  let blockIndex := index >>> blockBitCountLog2
  let row ← readAt pyr.rows 0
  let block ← readAt pyr.store (row + blockIndex)
  return block &&& (1#16 <<< bit) != 0#16

/-- `block` with one bit set or cleared. -/
def updateBit (block : IdxpyrBlock) (bit : ℕ) (state : Bool) : IdxpyrBlock :=
  if state then block ||| (1#16 <<< bit) else block &&& ~~~(1#16 <<< bit)

/-- The loop of `idxpyr_set`: `count` rounds, the next one for level `i`. -/
def setLoop (rows : List ℕ) : ℕ → ℕ → ℕ → Bool → List IdxpyrBlock → Checked (List IdxpyrBlock)
  | 0, _, _, _, store => .ok store
  | count + 1, i, index, lowerBlockState, store => do
    let bit := index &&& (blockBitCount - 1)
    let index := index >>> blockBitCountLog2
    let row ← readAt rows i
    let block ← readAt store (row + index)
    let block := updateBit block bit lowerBlockState
    let store ← writeAt store (row + index) block
    setLoop rows count (i + 1) index (block != 0#16) store

def idxpyrSet (pyr : Idxpyr) (index : ℕ) (state : Bool) : Checked Idxpyr := do
  assertIndexExists pyr index
  let store ← setLoop pyr.rows pyr.height 0 index state pyr.store
  return { pyr with store := store }

def idxpyrPopFirst (pyr : Idxpyr) : Checked (Idxpyr × ℕ) := do
  let result ← idxpyrGetFirst pyr
  if result ≠ idxpyrEmpty then
    let pyr ← idxpyrSet pyr result false
    return (pyr, result)
  else
    return (pyr, result)

/-- The loop of `idxpyr_increaseSize` that copies the rows of `pyr` into the store of the bigger
pyramid: `count` rounds, the next one for level `i`. -/
def copyRows (pyr : Idxpyr) (biggerRows : List ℕ) :
    ℕ → ℕ → ℕ → List IdxpyrBlock → Checked (List IdxpyrBlock)
  | 0, _, _, store => .ok store
  | count + 1, i, rowLength, store => do
    let rowLength := rowLength >>> blockBitCountLog2
    let biggerRow ← readAt biggerRows i
    let row ← readAt pyr.rows i
    let store ← copyAt store biggerRow pyr.store row rowLength
    copyRows pyr biggerRows count (i + 1) rowLength store

def idxpyrIncreaseSize (pyr : Idxpyr) : Checked Idxpyr := do
  let biggerPyr ← idxpyrMake (pyr.indexCountLog2 + 1) pyr.stateInit
  let biggerPyrTopBlock ← readAt biggerPyr.rows (biggerPyr.height - 1)
  let biggerPyrTopBlockBkp ← readAt biggerPyr.store biggerPyrTopBlock
  let rowLength ← sizeShl 1 pyr.indexCountLog2
  let store ← copyRows pyr biggerPyr.rows pyr.height 0 rowLength biggerPyr.store
  let lastRowBlockCountLog2 := pyr.indexCountLog2 - blockBitCountLog2
  -- also covers the case of height increase
  let topBlockBitCountToReset := 1 <<< (lastRowBlockCountLog2 % blockBitCountLog2)
  let topRow ← readAt pyr.rows (pyr.height - 1)
  let topBlock ← readAt pyr.store topRow
  let resetBits :=
    if topBlockBitCountToReset = 1 then (if topBlock ≠ 0#16 then 1#16 else 0#16) else topBlock
  let resetLimit ← sizeShl 1 topBlockBitCountToReset
  let resetMask := BitVec.ofNat 16 (resetLimit - 1)
  let store ←
    writeAt store biggerPyrTopBlock ((biggerPyrTopBlockBkp &&& ~~~resetMask) ||| resetBits)
  return { biggerPyr with store := store }

/-! ### Runs -/

inductive IdxpyrOp where
  | get (index : ℕ)
  | getFirst
  | popFirst
  | set (index : ℕ) (state : Bool)
  | setAll (state : Bool)
  | increaseSize
  deriving DecidableEq, Repr

inductive IdxpyrResult where
  | void
  | state (state : Bool)
  | index (index : ℕ)
  deriving DecidableEq, Repr

def idxpyrStep (pyr : Idxpyr) : IdxpyrOp → Checked (Idxpyr × IdxpyrResult)
  | .get index => do return (pyr, .state (← idxpyrGet pyr index))
  | .getFirst => do return (pyr, .index (← idxpyrGetFirst pyr))
  | .popFirst => do
    let (pyr, index) ← idxpyrPopFirst pyr
    return (pyr, .index index)
  | .set index state => do return (← idxpyrSet pyr index state, .void)
  | .setAll state => do return (← idxpyrSetAll pyr state, .void)
  | .increaseSize => do return (← idxpyrIncreaseSize pyr, .void)

/-- A pyramid from `idxpyr_make` and the calls made on it. -/
def idxpyrRun (indexCountLog2 : ℕ) (stateInit : Bool) (ops : List IdxpyrOp) :
    Checked (Idxpyr × List IdxpyrResult) := do
  let pyr ← idxpyrMake indexCountLog2 stateInit
  runOps idxpyrStep pyr ops

/-- Some sequence of calls leads from `idxpyr_make` to `pyr`. -/
def IdxpyrReachable (pyr : Idxpyr) : Prop :=
  ∃ indexCountLog2 stateInit ops results,
    idxpyrRun indexCountLog2 stateInit ops = .ok (pyr, results)

end Utilc
