import Mathlib.Data.List.Basic

/-!
# The pool allocator

Blocks are taken from the end of the pool, put on the free list of their
bucket and taken from there again; what the pool does not hold comes from the
heap.  Addresses are offsets into the pool.  A function gives nothing where an
assertion fails or the code writes outside of its memory.
-/

namespace Coast

inductive EMemState where
  | eFree
  | eUsed
  | eUsedNotPooled
  deriving DecidableEq, Repr

/-- What stands in front of a block. -/
structure MemoryHeader where
  fUsableSize : Nat
  fState : EMemState
  fNextFree : Option Nat
  deriving DecidableEq, Repr

def alignedSize : Nat := 32

def sizeLimit : Nat := 18446744073709551616

def toLong (n : Nat) : Int := if n < 9223372036854775808 then n else n - 18446744073709551616

/-- `fAllocated`, or nothing for the `NullMemTracker`. -/
abbrev MemTracker := Option (BitVec 64)

namespace MemTracker

def trackAlloc (tracker : MemTracker) (mh : MemoryHeader) : MemTracker :=
  tracker.map (· + BitVec.ofNat 64 mh.fUsableSize)

def trackFree (tracker : MemTracker) (mh : MemoryHeader) : MemTracker :=
  tracker.map (· - BitVec.ofNat 64 mh.fUsableSize)

def currentlyAllocated (tracker : MemTracker) : BitVec 64 := tracker.getD 0

end MemTracker

/-- The chunks of one size and its list of free ones. -/
structure PoolBucket where
  fSize : Nat
  fUsableSize : Nat
  fFirstFree : Option Nat
  deriving DecidableEq, Repr

/-- A block that was handed out, by the address of its header. -/
inductive Block where
  | pool (mh : Nat)
  | heap (mh : Nat)
  deriving DecidableEq, Repr

/-- The blocks of `::calloc` and the memory that they take. -/
structure GlobalHeap where
  blocks : Nat → Option MemoryHeader
  count : Nat
  inUse : Nat

/-- The last bucket only keeps `fFirstFree`, where the part of the pool ends
that was never handed out.  The code fixes `fgMinPayloadSize` to 16. -/
structure PoolAllocator where
  fgMinPayloadSize : Nat
  fAllocSz : Nat
  fPoolBuckets : List PoolBucket
  fFirstFree : Nat
  memory : Nat → Option MemoryHeader
  fTracker : MemTracker
  fpPoolTotalExcessTracker : MemTracker

def writeHeader (memory : Nat → Option MemoryHeader) (mh : Nat)
    (header : MemoryHeader) : Nat → Option MemoryHeader :=
  fun o =>
    if o = mh then some header
    else if o < mh + alignedSize ∧ mh < o + alignedSize then none
    else memory o

/-- Whatever is written into these bytes may look like a header. -/
def scribble (memory : Nat → Option MemoryHeader) (start len : Nat)
    (contents : Nat → Option MemoryHeader) : Nat → Option MemoryHeader :=
  fun o =>
    if o < start + len ∧ start < o + alignedSize then contents o
    else memory o

namespace PoolAllocator

def bucketsFrom (sz : Nat) : Nat → List PoolBucket
  | 0 => []
  | number + 1 =>
    ⟨(sz + alignedSize) % sizeLimit, sz, none⟩ :: bucketsFrom (2 * sz % sizeLimit) number

def initializePool (this : PoolAllocator) : PoolAllocator :=
  { this with
    fPoolBuckets := bucketsFrom (this.fgMinPayloadSize % sizeLimit) this.fPoolBuckets.length
    fFirstFree := this.fAllocSz }

def makeTracker (level : Int) : MemTracker := if 1 ≤ level ∧ level ≤ 4 then some 0 else none

/-- A pool of one piece of memory that no chunk has been taken of. -/
def create (fgMinPayloadSize poolSize maxPoolBuckets : Nat) (level : Int) : PoolAllocator where
  fgMinPayloadSize := fgMinPayloadSize
  fAllocSz := poolSize * 1024 % sizeLimit
  fPoolBuckets := bucketsFrom (fgMinPayloadSize % sizeLimit) maxPoolBuckets
  fFirstFree := poolSize * 1024 % sizeLimit
  memory := fun _ => none
  fTracker := makeTracker level
  fpPoolTotalExcessTracker := makeTracker level

def findBucketBySize (buckets : List PoolBucket) (allocSize : Nat) : Option Nat :=
  buckets.findIdx? fun bucket => allocSize ≤ bucket.fSize

def setFirstFree (this : PoolAllocator) (order : Nat) (first : Option Nat) : PoolAllocator :=
  { this with
    fPoolBuckets := this.fPoolBuckets.modify order fun bucket =>
      { bucket with fFirstFree := first } }

def setHeader (this : PoolAllocator) (mh : Nat) (header : MemoryHeader) : PoolAllocator :=
  { this with memory := writeHeader this.memory mh header }

def removeHeaderFromBucket (this : PoolAllocator) (order : Nat) : Option (PoolAllocator × Nat) := do
  let bucket ← this.fPoolBuckets[order]?
  let mh ← bucket.fFirstFree
  let header ← this.memory mh
  some ((this.setHeader mh { header with fState := .eUsed }).setFirstFree
    order header.fNextFree, mh)

/-- A chunk is cut off the end of what is left. -/
def makeHeaderFromBucket (this : PoolAllocator) (order lastFree : Nat) :
    Option (PoolAllocator × Nat) := do
  let bucket ← this.fPoolBuckets[order]?
  if bucket.fSize ≤ lastFree ∧ lastFree - bucket.fSize + alignedSize ≤ this.fAllocSz then
    some (this.setHeader (lastFree - bucket.fSize)
      ⟨bucket.fUsableSize, .eUsed, none⟩, lastFree - bucket.fSize)
  else none

def insertFreeHeaderIntoBucket (this : PoolAllocator) (mh order : Nat) : Option PoolAllocator := do
  let bucket ← this.fPoolBuckets[order]?
  let header ← this.memory mh
  some ((this.setHeader mh
    ⟨header.fUsableSize, .eFree, bucket.fFirstFree⟩).setFirstFree order (some mh))

def trackAlloc (this : PoolAllocator) (mh : Nat) : Option PoolAllocator := do
  let header ← this.memory mh
  some { this with fTracker := this.fTracker.trackAlloc header }

def splitBucket (this : PoolAllocator) (requested fSize buketEnd : Nat) : Nat → Option PoolAllocator
  | 0 => some this
  | nbuckets + 1 => do
      let (this, mh) ← this.makeHeaderFromBucket requested buketEnd
      let this ← this.insertFreeHeaderIntoBucket mh requested
      this.splitBucket requested fSize (buketEnd - fSize) nbuckets

def firstFilled (buckets : List PoolBucket) (order : Nat) : Option Nat :=
  ((buckets.drop order).findIdx? fun bucket =>
    bucket.fFirstFree.isSome).map (order + ·)

/-- The last resort.  The heap and the pool lie apart in the address
space, so that no more than that is granted. -/
def allocOnHeap (this : PoolAllocator) (heap : GlobalHeap) (allocSize : Nat)
    (granted : Bool) : Option (PoolAllocator × GlobalHeap × Option Block) :=
  if granted ∧ heap.inUse + allocSize + this.fAllocSz < sizeLimit then
    if allocSize < alignedSize then none
    else
      let header : MemoryHeader := ⟨allocSize - alignedSize, .eUsedNotPooled, none⟩
      some
        ({ this with
            fpPoolTotalExcessTracker := this.fpPoolTotalExcessTracker.trackAlloc header },
          ⟨fun o => if o = heap.count then some header else heap.blocks o,
            heap.count + 1, heap.inUse + allocSize⟩,
          some (.heap heap.count))
  else some (this, heap, none)

def reuse (this : PoolAllocator) (heap : GlobalHeap) (order : Nat) :
    Option (PoolAllocator × GlobalHeap × Option Block) := do
  let (this, mh) ← this.removeHeaderFromBucket order
  let this ← this.trackAlloc mh
  some (this, heap, some (.pool mh))

def carve (this : PoolAllocator) (heap : GlobalHeap) (order : Nat) :
    Option (PoolAllocator × GlobalHeap × Option Block) := do
  let (this, mh) ← this.makeHeaderFromBucket order this.fFirstFree
  let this ← { this with fFirstFree := mh }.trackAlloc mh
  some (this, heap, some (.pool mh))

/-- A larger free chunk is split into chunks of the requested size. -/
def split (this : PoolAllocator) (heap : GlobalHeap) (requested larger : Nat) :
    Option (PoolAllocator × GlobalHeap × Option Block) := do
  let requestedBucket ← this.fPoolBuckets[requested]?
  let bucket ← this.fPoolBuckets[larger]?
  let (this, mh) ← this.removeHeaderFromBucket larger
  let nbuckets := bucket.fSize / requestedBucket.fSize
  let this ← this.splitBucket requested requestedBucket.fSize
    (mh + requestedBucket.fSize * nbuckets) nbuckets
  this.reuse heap requested

/-- A free chunk, a new one, a part of a larger one, or the heap, in this order. -/
def alloc (this : PoolAllocator) (heap : GlobalHeap) (allocSize : Nat)
    (granted : Bool) : Option (PoolAllocator × GlobalHeap × Option Block) :=
  match findBucketBySize this.fPoolBuckets allocSize with
  | none => this.allocOnHeap heap allocSize granted
  | some order => do
      let bucket ← this.fPoolBuckets[order]?
      if bucket.fFirstFree.isSome then this.reuse heap order
      else if toLong bucket.fSize < (this.fFirstFree : Int) then
        this.carve heap order
      else
        match firstFilled this.fPoolBuckets order with
        | none => this.allocOnHeap heap allocSize granted
        | some larger => do
            let bucket ← this.fPoolBuckets[larger]?
            if 0 < bucket.fSize then this.split heap order larger
            else this.allocOnHeap heap allocSize granted

/-- The state in the header says where the block belongs. -/
def free (this : PoolAllocator) (heap : GlobalHeap) : Block → Option (PoolAllocator × GlobalHeap)
  | .pool mh => do
      let header ← this.memory mh
      match header.fState with
      | .eUsed => do
          let order ← findBucketBySize this.fPoolBuckets (header.fUsableSize + alignedSize)
          let bucket ← this.fPoolBuckets[order]?
          if header.fUsableSize + alignedSize = bucket.fSize then do
            let this ←
              { this with
                fTracker := this.fTracker.trackFree header
              }.insertFreeHeaderIntoBucket mh order
            some (this, heap)
          else none
      | _ => none
  | .heap mh => do
      let header ← heap.blocks mh
      match header.fState with
      | .eUsedNotPooled =>
        some
          ({ this with
              fpPoolTotalExcessTracker := this.fpPoolTotalExcessTracker.trackFree header },
            { heap with
              blocks := fun o => if o = mh then none else heap.blocks o
              inUse := heap.inUse - (header.fUsableSize + alignedSize) })
      | _ => none

def currentlyAllocated (this : PoolAllocator) : BitVec 64 :=
  this.fTracker.currentlyAllocated + this.fpPoolTotalExcessTracker.currentlyAllocated

def refresh (this : PoolAllocator) : PoolAllocator :=
  if this.currentlyAllocated = 0 then this.initializePool else this

def allocSize (n size : Nat) : Nat := (n * size + alignedSize) % sizeLimit

end PoolAllocator

/-- A block a client has, with what it asked for and got. -/
structure Handed where
  block : Block
  requested : Nat
  fUsableSize : Nat
  deriving DecidableEq, Repr

/-- The pool, the heap behind it, and the blocks that clients have. -/
structure PoolSystem where
  pool : PoolAllocator
  heap : GlobalHeap
  live : List Handed

namespace PoolSystem

def usableSize (pool : PoolAllocator) (heap : GlobalHeap) : Block → Option Nat
  | .pool mh => (pool.memory mh).map MemoryHeader.fUsableSize
  | .heap mh => (heap.blocks mh).map MemoryHeader.fUsableSize

/-- What is handed out is recorded with its usable size. -/
def request (this : PoolSystem) (requested allocSize : Nat)
    (granted : Bool) : Option (PoolSystem × Option Handed) := do
  let (pool, heap, block) ← this.pool.alloc this.heap allocSize granted
  match block with
  | none => some (⟨pool, heap, this.live⟩, none)
  | some block => do
      let usable ← usableSize pool heap block
      let handed : Handed := ⟨block, requested, usable⟩
      some (⟨pool, heap, handed :: this.live⟩, some handed)

/-- A client writes into a block that it has, within its usable size. -/
def write (this : PoolSystem) (handed : Handed) (len : Nat)
    (contents : Nat → Option MemoryHeader) : Option PoolSystem :=
  if len ≤ handed.fUsableSize then
    match handed.block with
    | .pool mh =>
      some { this with
        pool := { this.pool with
          memory := scribble this.pool.memory (mh + alignedSize) len contents } }
    | .heap _ => some this
  else none

/-- What clients do. -/
inductive Op where
  | malloc (size : Nat) (granted : Bool)
  | calloc (n : Int) (size : Nat) (granted : Bool)
  | free (block : Block)
  | refresh
  /-- A client writes into a block. -/
  | write (handed : Handed) (contents : Nat → Option MemoryHeader)

def toSize (n : Int) : Nat := (n % 18446744073709551616).toNat

/-- One call of a client; none for a block that is not handed out. -/
def step (this : PoolSystem) : Op → Option PoolSystem
  | .malloc size granted => do
      let (after, _) ← this.request size (PoolAllocator.allocSize size 1) granted
      some after
  | .calloc n size granted => do
      let (after, handed) ← this.request (toSize n * size)
        (PoolAllocator.allocSize (toSize n) size) granted
      match handed with
      | none => some after
      | some handed =>
        after.write handed (toSize n * size % sizeLimit) fun _ => none
  | .free block => do
      let (pool, heap) ← this.pool.free this.heap block
      some ⟨pool, heap, this.live.filter fun handed =>
        handed.block ≠ block⟩
  | .refresh => some { this with pool := this.pool.refresh }
  | .write handed contents =>
    if handed ∈ this.live then
      this.write handed handed.fUsableSize contents
    else none

def run (this : PoolSystem) : List Op → Option PoolSystem
  | [] => some this
  | op :: ops => do
      let after ← this.step op
      after.run ops

end PoolSystem

end Coast
