import Utilc.CLib.Heap
import Utilc.CLib.Runs
import Utilc.Circbuf.Model
import Utilc.Idxpyr.Model
import Utilc.Kvec

/-!
# The memory pool

`mempoolEbr.h` and `mempoolEbr.c`. Elements lie in clusters; the clusters are the blocks of the
heap. A location packs the index of a cluster and the index of an element in it.

`mp_init` calls `idxpyr_make` without the second argument it has, and `mp_alloc` calls
`idxpyr_increaseSize` with one it has not. The missing argument is read as `true` and the other one
is ignored.
-/

namespace Utilc
open CLib

/-! ### `mempoolEbr.h` -/

/-- Bits of `mp_id_t`, a `uint16_t`. -/
def mpIdBits : ℕ := 16

def sizeofMpId : ℕ := 2

/-- `(mp_id_t) -1`. -/
def noLocation : ℕ := 2 ^ mpIdBits - 1

/-- `MP_ERROR_ELEMENT_SIZE`, `MP_ERROR_ELEMENTS_PER_CLUSTER` and `MP_ERROR_INVALID_ID`. -/
inductive MpError where
  | elementSize
  | elementsPerCluster
  | invalidId
  deriving DecidableEq, Repr

structure MpPoolSettings where
  elementSize : ℕ
  elementsPerCluster : ℕ
  freeClusterCountMax : ℕ
  deriving DecidableEq, Repr

/-- `mp_pool_t`; a cluster is known by the address of its block. -/
structure MpPool where
  elementSize : ℕ
  elementsPerCluster : ℕ
  clusterSize : ℕ
  clusterIndexOffset : ℕ
  elementIndexMask : ℕ
  locationLut : Kvec ℕ
  freeIds : Idxpyr
  clusterLut : Kvec ℕ
  allocatedClusterIndices : Circbuf ℕ
  unallocatedClusterIndices : Circbuf ℕ
  frontElementCount : ℕ
  frontElementIndex : ℕ
  freeClusters : Kvec ℕ
  deriving DecidableEq, Repr

/-- A pool of zero bytes, as `memset` leaves it. -/
def MpPool.zero : MpPool :=
  ⟨0, 0, 0, 0, 0, kvInit, ⟨0, 0, List.replicate idxpyrMaxHeight 0, 0, false, []⟩, kvInit,
    ⟨[], 0, 0, 0, 0⟩, ⟨[], 0, 0, 0, 0⟩, 0, 0, kvInit⟩

/-! ### `mempoolEbr.c`: private functions -/

def testInitSettingsArg (s : MpPoolSettings) : Option MpError :=
  if s.elementSize = 0 then some .elementSize
  else if s.elementsPerCluster = 0 then some .elementsPerCluster
  else none

/-- One step of the binary search of `findLastSet`. -/
def findLastSetStep (mask : BitVec 64) (shift : ℕ) (s : BitVec 64 × ℤ) : BitVec 64 × ℤ :=
  if s.1 &&& mask ≠ 0#64 then (s.1 >>> shift, s.2 + shift) else s

def findLastSet (val : BitVec 64) : ℤ :=
  if val = 0#64 then -1
  else
    let s := findLastSetStep 0xFFFFFFFF00000000#64 32 (val, 0)
    let s := findLastSetStep 0xFFFF0000#64 16 s
    let s := findLastSetStep 0xFF00#64 8 s
    let s := findLastSetStep 0xF0#64 4 s
    let s := findLastSetStep 0xC#64 2 s
    if s.1 &&& 0x2#64 ≠ 0#64 then s.2 + 1 else s.2

def multipleBits (val : BitVec 64) : Bool := val &&& ~~~(val - 1#64) != val

def log2Envelope (val : BitVec 64) : ℕ :=
  if val = 0#64 then 0
  else
    let lastSet := toUnsigned 32 (findLastSet val)
    if multipleBits val then lastSet + 1 else lastSet

/-- A loop that puts `count` indices from `index` on, with `circbuf_put` or `circbuf_dynamicPut`. -/
def putIndices (put : Circbuf ℕ → ℕ → Checked (Circbuf ℕ)) :
    ℕ → ℕ → Circbuf ℕ → Checked (Circbuf ℕ)
  | 0, _, buf => .ok buf
  | count + 1, index, buf => do
    let buf ← put buf index
    putIndices put count (sizeAdd index 1) buf

def initClusterFifos (pool : MpPool) : Checked MpPool := do
  let initialClusterIndexCountLog2 := 2
  let initialClusterIndexCount ← intShl 1 initialClusterIndexCountLog2
  let allocated ← circbufMake 2
  let clusterLut := kvResize sizeofPtr kvInit initialClusterIndexCount
  let clusterLut := { clusterLut with n := clusterLut.m }
  let unallocated ← circbufMake initialClusterIndexCountLog2
  let unallocated ← putIndices circbufPut initialClusterIndexCount 0 unallocated
  return { pool with
    clusterLut := clusterLut
    allocatedClusterIndices := allocated
    unallocatedClusterIndices := unallocated }

def addClusterIndices (pool : MpPool) : Checked MpPool := do
  let unallocatedIndex := pool.clusterLut.m
  let unallocatedIndexCount := pool.clusterLut.m
  let clusterLut := kvResize sizeofPtr pool.clusterLut (sizeMul pool.clusterLut.m 2)
  let clusterLut := { clusterLut with n := clusterLut.m }
  let unallocated ← putIndices circbufDynamicPut unallocatedIndexCount unallocatedIndex
    pool.unallocatedClusterIndices
  return { pool with clusterLut := clusterLut, unallocatedClusterIndices := unallocated }

/-- `newFront` of `addFrontCluster`, popped from `freeClusters` or allocated at `fresh`. -/
def takeFreeCluster (pool : MpPool) (heap : Heap) (fresh : ℕ) : Checked (Kvec ℕ × Heap × ℕ) :=
  let isFreeClusterAvailable := !kvEmpty pool.freeClusters
  if isFreeClusterAvailable then do
    let (freeClusters, newFront) ← kvPop pool.freeClusters
    return (freeClusters, heap, newFront)
  else do
    let heap ← heap.malloc fresh pool.clusterSize
    return (pool.freeClusters, heap, fresh)

/-- The part of `addFrontCluster` for which an index is available. -/
def placeFrontCluster (pool : MpPool) (heap : Heap) (fresh : ℕ) : Checked (MpPool × Heap) := do
  let (freeClusters, heap, newFront) ← takeFreeCluster pool heap fresh
  let (unallocated, newFrontIndex) ← circbufPopBack pool.unallocatedClusterIndices
  let allocated ← circbufDynamicPut pool.allocatedClusterIndices newFrontIndex
  let clusterLut ← kvAssign pool.clusterLut newFrontIndex newFront
  let pool := { pool with
    clusterLut := clusterLut
    allocatedClusterIndices := allocated
    unallocatedClusterIndices := unallocated
    frontElementCount := 0
    frontElementIndex := 0
    freeClusters := freeClusters }
  return (pool, heap)

/-- `addFrontCluster`; if it allocates, `malloc` returns `fresh`. -/
def addFrontCluster (pool : MpPool) (heap : Heap) (fresh : ℕ) : Checked (MpPool × Heap) := do
  let isClusterIndexAvailable := pool.unallocatedClusterIndices.length != 0
  let pool ← if isClusterIndexAvailable then .ok pool else addClusterIndices pool
  placeFrontCluster pool heap fresh

def removeBackCluster (pool : MpPool) (heap : Heap) : Checked (MpPool × Heap) := do
  require (pool.allocatedClusterIndices.length ≠ 0) .assertFailed
  let (allocated, backIndex) ← circbufPopBack pool.allocatedClusterIndices
  let unallocated ← circbufDynamicPut pool.unallocatedClusterIndices backIndex
  let back ← kvA pool.clusterLut backIndex
  let pool := { pool with
    allocatedClusterIndices := allocated, unallocatedClusterIndices := unallocated }
  if !kvFull pool.freeClusters then
    let freeClusters ← kvStaticPush pool.freeClusters back
    return ({ pool with freeClusters := freeClusters }, heap)
  else
    let heap ← heap.free back
    return (pool, heap)

def idExists (pool : MpPool) (id : ℕ) : Checked Bool :=
  if id < pool.locationLut.n then do
    let location ← kvA pool.locationLut id
    return location != noLocation
  else .ok false

def testIdExists (pool : MpPool) (id : ℕ) : Checked (Option MpError) := do
  require (id ≠ 0) .assertFailed
  let existing ← idExists pool id
  return if existing then none else some .invalidId

def takeNextLocation (pool : MpPool) (heap : Heap) (fresh : ℕ) : Checked (MpPool × Heap × ℕ) := do
  let isFrontElementIndexAtEnd := pool.frontElementIndex == pool.elementsPerCluster
  let (pool, heap) ←
    if isFrontElementIndexAtEnd then addFrontCluster pool heap fresh else .ok (pool, heap)
  let frontClusterIndexIndex := circbufFrontIndex pool.allocatedClusterIndices
  let frontClusterIndex ← readAt pool.allocatedClusterIndices.a frontClusterIndexIndex
  let shifted ← sizeShl frontClusterIndex pool.clusterIndexOffset
  let location := shifted ||| pool.frontElementIndex
  let pool := { pool with
    frontElementCount := sizeAdd pool.frontElementCount 1
    frontElementIndex := sizeAdd pool.frontElementIndex 1 }
  return (pool, heap, location % 2 ^ mpIdBits)

/-- `getElementStore`: the block of the cluster and the offset in it. The product binds tighter than
the mask. -/
def getElementStore (pool : MpPool) (location : ℕ) : Checked (ℕ × ℕ) := do
  let shifted ← intShr location pool.clusterIndexOffset
  let clusterIndex := shifted % 2 ^ mpIdBits
  let elementStoreSize := sizeAdd pool.elementSize sizeofMpId
  let elementStoreOffset := location &&& sizeMul pool.elementIndexMask elementStoreSize
  let cluster ← kvA pool.clusterLut clusterIndex
  return (cluster, elementStoreOffset)

/-- The loop of `destroyClusterFifos`: `count` rounds. -/
def freeAllocated (allocated : Circbuf ℕ) (clusterLut : Kvec ℕ) : ℕ → ℕ → Heap → Checked Heap
  | 0, _, heap => .ok heap
  | count + 1, iter, heap => do
    let (index, iter) ← circbufNext allocated iter
    let cluster ← kvA clusterLut index
    let heap ← heap.free cluster
    freeAllocated allocated clusterLut count iter heap

def destroyClusterFifos (pool : MpPool) (heap : Heap) : Checked Heap :=
  freeAllocated pool.allocatedClusterIndices pool.clusterLut pool.allocatedClusterIndices.length
    pool.allocatedClusterIndices.start heap

/-! ### `mempoolEbr.c`: interface functions -/

/-- `mp_init`; its result says which error it sets, if any. The first cluster is allocated at
`fresh`. -/
def mpInit (poolOut : MpPool) (heap : Heap) (settings : MpPoolSettings) (fresh : ℕ) :
    Checked (MpPool × Heap × Option MpError) :=
  match testInitSettingsArg settings with
  | some error => .ok (poolOut, heap, some error)
  | none => do
    let elementIndexBitCount := log2Envelope (BitVec.ofNat 64 settings.elementsPerCluster)
    let elementsPerCluster ← intShl 1 elementIndexBitCount
    let elementStoreSize := sizeAdd settings.elementSize sizeofMpId
    let freeIds ← idxpyrMake blockBitCountLog2 true
    let freeIds ← idxpyrSetAll freeIds true
    -- scratch illegal id 0
    let freeIds ← idxpyrSet freeIds 0 false
    let poolOut := { MpPool.zero with
      elementSize := settings.elementSize
      elementsPerCluster := elementsPerCluster
      clusterSize := sizeMul elementStoreSize elementsPerCluster
      clusterIndexOffset := elementIndexBitCount
      elementIndexMask := sizeSub elementsPerCluster 1
      locationLut := kvResize sizeofMpId MpPool.zero.locationLut blockBitCount
      freeIds := freeIds }
    let poolOut ← initClusterFifos poolOut
    let poolOut := { poolOut with
      freeClusters := kvResize sizeofPtr poolOut.freeClusters settings.freeClusterCountMax }
    let (poolOut, heap) ← addFrontCluster poolOut heap fresh
    return (poolOut, heap, none)

def idBytes (id : ℕ) : List (Option (BitVec 8)) :=
  [some (BitVec.ofNat 8 id), some (BitVec.ofNat 8 (id >>> 8))]

/-- The branch of `mp_alloc` for an id that the pyramid does not have. -/
def newId (pool : MpPool) (location : ℕ) : Checked (MpPool × ℕ) := do
  let newId := pool.locationLut.n
  let id := newId % 2 ^ mpIdBits
  require (id = newId) .assertFailed
  let locationLut ← kvPush sizeofMpId pool.locationLut location
  let freeIds ← idxpyrIncreaseSize pool.freeIds
  let freeIds ← idxpyrSet freeIds (sizeSub locationLut.n 1) false
  return ({ pool with locationLut := locationLut, freeIds := freeIds }, id)

def popId (pool : MpPool) (location : ℕ) : Checked (MpPool × ℕ) := do
  let (freeIds, id) ← idxpyrPopFirst pool.freeIds
  let pool := { pool with freeIds := freeIds }
  if id = idxpyrEmpty then
    newId pool location
  else
    let locationLut ← kvAssign pool.locationLut id location
    return ({ pool with locationLut := locationLut }, id)

/-- `mp_alloc`: the id it writes to `idOut`. -/
def mpAlloc (pool : MpPool) (heap : Heap) (fresh : ℕ) : Checked (MpPool × Heap × ℕ) := do
  let (pool, heap, location) ← takeNextLocation pool heap fresh
  let (pool, id) ← popId pool location
  let (cluster, offset) ← getElementStore pool location
  let heap ← heap.store cluster (offset + pool.elementSize) (idBytes id)
  return (pool, heap, id % 2 ^ mpIdBits)

def mpFree (pool : MpPool) (id : ℕ) : Checked (MpPool × Option MpError) := do
  match ← testIdExists pool id with
  | some error => return (pool, some error)
  | none =>
    let freeIds ← idxpyrSet pool.freeIds id false
    let locationLut ← kvAssign pool.locationLut id noLocation
    return ({ pool with freeIds := freeIds, locationLut := locationLut }, none)

def mpIdExists (pool : MpPool) (id : ℕ) : Checked Bool := idExists pool id

/-- The element of an id, where `mp_get`, `mp_getPtr` and `mp_set` find it. -/
def findElement (pool : MpPool) (id : ℕ) : Checked (Except MpError (ℕ × ℕ)) := do
  match ← testIdExists pool id with
  | some error => return .error error
  | none =>
    let location ← kvA pool.locationLut id
    let elem ← getElementStore pool location
    return .ok elem

/-- `mp_get`: the bytes it copies to `out`. -/
def mpGet (pool : MpPool) (heap : Heap) (id : ℕ) :
    Checked (Except MpError (List (Option (BitVec 8)))) := do
  match ← findElement pool id with
  | .error error => return .error error
  | .ok (cluster, offset) =>
    let out ← heap.load cluster offset pool.elementSize
    return .ok out

/-- `mp_getPtr`: the pointer it writes to `data`. -/
def mpGetPtr (pool : MpPool) (id : ℕ) : Checked (Except MpError (ℕ × ℕ)) := findElement pool id

/-- `mp_set`; `bytes` are the `elementSize` bytes at `in`. -/
def mpSet (pool : MpPool) (heap : Heap) (id : ℕ) (bytes : List (Option (BitVec 8))) :
    Checked (Heap × Option MpError) := do
  match ← findElement pool id with
  | .error error => return (heap, some error)
  | .ok (cluster, offset) =>
    let heap ← heap.store cluster offset bytes
    return (heap, none)

/-- The loop of `mp_destroy` over `freeClusters`: `count` rounds, the next one for cell `i`. -/
def freeFreeClusters (freeClusters : Kvec ℕ) : ℕ → ℕ → Heap → Checked Heap
  | 0, _, heap => .ok heap
  | count + 1, i, heap => do
    let cluster ← kvA freeClusters i
    let heap ← heap.free cluster
    freeFreeClusters freeClusters count (i + 1) heap

/-- `mp_destroy`: the heap of clusters it leaves. -/
def mpDestroy (pool : MpPool) (heap : Heap) : Checked Heap := do
  let heap ← destroyClusterFifos pool heap
  freeFreeClusters pool.freeClusters pool.freeClusters.n 0 heap

/-! ### Runs -/

/-- A pool that `mp_init` accepts, as the tests make it. -/
def initPool (poolOut : MpPool) (settings : MpPoolSettings) (fresh : ℕ) :
    Checked (MpPool × Heap) := do
  let (pool, heap, error) ← mpInit poolOut Heap.empty settings fresh
  require (error = none) .assertFailed
  return (pool, heap)

inductive ClusterOp where
  | addFrontCluster (fresh : ℕ)
  | removeBackCluster
  deriving DecidableEq, Repr

def clusterStep (s : MpPool × Heap) : ClusterOp → Checked ((MpPool × Heap) × Unit)
  | .addFrontCluster fresh => do return (← addFrontCluster s.1 s.2 fresh, ())
  | .removeBackCluster => do return (← removeBackCluster s.1 s.2, ())

/-- A pool from `mp_init` and the changes made to its clusters. -/
def clusterRun (poolOut : MpPool) (settings : MpPoolSettings) (fresh : ℕ) (ops : List ClusterOp) :
    Checked (MpPool × Heap) := do
  let s ← initPool poolOut settings fresh
  let (s, _) ← runOps clusterStep s ops
  return s

inductive MpOp where
  | alloc (fresh : ℕ)
  | free (id : ℕ)
  deriving DecidableEq, Repr

inductive MpResult where
  | id (id : ℕ)
  | error (error : Option MpError)
  deriving DecidableEq, Repr

def mpStep (s : MpPool × Heap) : MpOp → Checked ((MpPool × Heap) × MpResult)
  | .alloc fresh => do
    let (pool, heap, id) ← mpAlloc s.1 s.2 fresh
    return ((pool, heap), .id id)
  | .free id => do
    let (pool, error) ← mpFree s.1 id
    return ((pool, s.2), .error error)

end Utilc
