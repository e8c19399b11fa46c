import Takibi.Smp.Cores

/-! The runtime page allocator: per-page metadata with a doubly linked free list through it,
the places that hold the frames of free pages, runs of pages, mapping references, and pages
that each CPU has reserved. Every function here runs under the allocator's lock. -/

namespace Takibi.Page
open Function List

export Smp (Cpu)

def pageSize : ℕ := 4096
def bootstrapPageCount : ℕ := 2048
def usizeMax : ℕ := 0xFFFFFFFFFFFFFFFF
def pageMapRefCeiling : ℕ := 0xFFFFFFFF
def u32 (n : ℕ) : ℕ := n % 2 ^ 32

inductive PageOwnerTag
  | unowned
  | unavailable
  | pageTable
  | userPage
  | poolChunk
  | kernelStack
  | allocatorMetadata
  | execArgs
  | profileBuffer
  | bootFixture
  deriving DecidableEq, Repr

structure PageMeta where
  occupied : Bool
  owner : PageOwnerTag
  mapRefcount : ℕ
  nextFree : ℕ
  prevFree : ℕ
  physical : ℕ
  deriving DecidableEq, Repr

structure PageExtent where
  start : ℕ
  stop : ℕ
  firstIndex : ℕ
  deriving DecidableEq, Repr

def PageExtent.pages (e : PageExtent) : ℕ := (e.stop - e.start) / pageSize

/-- `BootPagePool` once the runtime tables are in place, with the tables that its lock guards.
A page is `placed` while its frame is in its place. -/
structure Pool where
  pageCount : ℕ
  metas : ℕ → PageMeta
  extents : List PageExtent
  placed : ℕ → Bool
  freeHead : ℕ
  freeCount : ℕ
  nextGeneration : ℕ
  runGeneration : ℕ
  doubleRemoveCount : ℕ
  reservedTotal : ℕ
  reservedByCpu : Cpu → ℕ
  reserveActive : Cpu → Bool
  reserveOverdrawn : Cpu → ℕ

namespace Pool
variable (pool : Pool)

def setMeta (index : ℕ) (f : PageMeta → PageMeta) : Pool :=
  { pool with metas := update pool.metas index (f (pool.metas index)) }

/-! ## Addresses -/

def extentOf (physical : ℕ) : Option PageExtent :=
  pool.extents.find? fun e => e.start ≤ physical && physical < e.stop

def indexForPhysical (physical : ℕ) : Option ℕ :=
  let pageAddress := physical - physical % pageSize
  (pool.extentOf pageAddress).map fun e => e.firstIndex + (pageAddress - e.start) / pageSize

def physicalForIndex (wanted : ℕ) : Option ℕ :=
  if wanted < pool.pageCount then some (pool.metas wanted).physical else none

/-! ## The free list -/

def setNext (index value : ℕ) : Pool :=
  pool.setMeta index fun m => { m with nextFree := u32 value }

def setPrev (index value : ℕ) : Pool :=
  if index < pool.pageCount then pool.setMeta index fun m => { m with prevFree := u32 value }
  else pool

def setAfter (prev value : ℕ) : Pool :=
  if prev < pool.pageCount then pool.setNext prev value else { pool with freeHead := value }

def setFreeCount (count : ℕ) : Pool := { pool with freeCount := count }

def runtimeLinkHead (index : ℕ) : Pool :=
  let head := pool.freeHead
  let linked := ((pool.setNext index head).setPrev index pool.pageCount).setPrev head index
  { linked with freeHead := index, freeCount := pool.freeCount + 1 }

/-- `false`, with nothing changed, where the neighbours do not point back. -/
def runtimeUnlink (index : ℕ) : Bool × Pool :=
  let next := (pool.metas index).nextFree
  let prev := (pool.metas index).prevFree
  if index ≥ pool.pageCount then (false, pool)
  else if prev < pool.pageCount ∧ (pool.metas prev).nextFree ≠ index then (false, pool)
  else if ¬ prev < pool.pageCount ∧ pool.freeHead ≠ index then (false, pool)
  else if next < pool.pageCount ∧ (pool.metas next).prevFree ≠ index then (false, pool)
  else
    let cut := (pool.setAfter prev next).setPrev next prev
    (true, ((cut.setNext index pool.pageCount).setPrev index pool.pageCount).setFreeCount
      (pool.freeCount - 1))

def runtimeFreelistRebuild : Pool :=
  (List.range pool.pageCount).reverse.foldl
    (fun pool index =>
      if (pool.metas index).occupied = false ∧ (pool.metas index).owner = .unowned then
        pool.runtimeLinkHead index
      else pool)
    { pool with freeHead := pool.pageCount, freeCount := 0 }

/-! ## Frames -/

variable (physical count : ℕ)

def framesAt : Option ℕ :=
  (pool.extentOf physical).bind fun e =>
    let first := (physical - e.start) / pageSize
    if count = 0 ∨ first ≥ e.pages ∨ count > e.pages - first then none
    else some (e.firstIndex + first)

def setPlaced (first count : ℕ) (full : Bool) : Pool :=
  { pool with placed := fun i => if first ≤ i ∧ i < first + count then full else pool.placed i }

def framesTake : Option Pool :=
  (pool.framesAt physical count).bind fun first =>
    if ∀ k < count, pool.placed (first + k) = true then some (pool.setPlaced first count false)
    else none

def framesGive : Option Pool :=
  (pool.extentOf physical).bind fun e =>
    if (physical - e.start) % pageSize ≠ 0 then none
    else (pool.framesAt physical count).bind fun first =>
      if ∀ k < count, pool.placed (first + k) = false then some (pool.setPlaced first count true)
      else none

/-! ## Reservations -/

variable (cpu : Cpu)

def reserveAdmits (count : ℕ) : Bool :=
  let own := pool.reservedByCpu cpu
  if own > pool.reservedTotal then false
  else
    let others := pool.reservedTotal - own
    if pool.freeCount < others then false else pool.freeCount - others ≥ count

def reserveConsume (count : ℕ) : Pool :=
  if pool.reserveActive cpu = false then pool
  else
    let own := pool.reservedByCpu cpu
    let drawn := min count own
    { pool with
      reserveOverdrawn := update pool.reserveOverdrawn cpu
        (if count > own then (pool.reserveOverdrawn cpu + (count - own)) % 2 ^ 64
        else pool.reserveOverdrawn cpu)
      reservedByCpu := update pool.reservedByCpu cpu (own - drawn)
      reservedTotal := pool.reservedTotal - drawn }

def reserve (count : ℕ) : Bool × Pool :=
  if pool.reserveActive cpu = false ∧ pool.reservedTotal ≤ pool.freeCount ∧
      pool.freeCount - pool.reservedTotal ≥ count then
    (true, { pool with
      reservedByCpu := update pool.reservedByCpu cpu count
      reservedTotal := pool.reservedTotal + count
      reserveActive := update pool.reserveActive cpu true
      reserveOverdrawn := update pool.reserveOverdrawn cpu 0 })
  else (false, pool)

def reservationRelease : ℕ × Pool :=
  (pool.reserveOverdrawn cpu, { pool with
    reservedTotal := pool.reservedTotal - pool.reservedByCpu cpu
    reservedByCpu := update pool.reservedByCpu cpu 0
    reserveActive := update pool.reserveActive cpu false
    reserveOverdrawn := update pool.reserveOverdrawn cpu 0 })

end Pool

/-! ## Single pages -/

def freelistGenerationAfter (generation : ℕ) : ℕ :=
  if generation = usizeMax then 0 else generation + 1

structure PageOwner where
  index : ℕ
  physical : ℕ
  generation : ℕ
  deriving DecidableEq, Repr

def occupy (tag : PageOwnerTag) (m : PageMeta) : PageMeta :=
  { m with occupied := true, owner := tag, mapRefcount := 0 }

def vacate (m : PageMeta) : PageMeta :=
  { m with occupied := false, owner := .unowned, mapRefcount := 0 }

namespace Pool
variable (pool : Pool)

/-- A place found empty leaves the page occupied, with no owner. -/
def ownerFromPlaces (index physical generation : ℕ) : Option PageOwner × Pool :=
  match pool.framesTake physical 1 with
  | none => (none, pool)
  | some pool => (some ⟨index, physical, generation⟩, pool)

def popHead : Pool :=
  let next := (pool.metas pool.freeHead).nextFree
  { pool with freeHead := next, freeCount := pool.freeCount - 1 }.setPrev next pool.pageCount

def pageAllocLocked (cpu : Cpu) (tag : PageOwnerTag) : Option PageOwner × Pool :=
  let index := pool.freeHead
  if pool.nextGeneration = 0 then (none, pool)
  else if index ≥ pool.pageCount then (none, pool)
  else if pool.reserveAdmits cpu 1 = false then (none, pool)
  else
    let generation := pool.nextGeneration
    let taken := ((pool.reserveConsume cpu 1).popHead.setMeta index (occupy tag))
    let taken := { taken with nextGeneration := freelistGenerationAfter generation }
    match taken.physicalForIndex index with
    | none => (none, taken)
    | some physical => taken.ownerFromPlaces index physical generation

def pageAlloc (cpu : Cpu) (tag : PageOwnerTag) : Option PageOwner × Pool :=
  if tag = .unowned ∨ tag = .unavailable then (none, pool) else pool.pageAllocLocked cpu tag

def countDoubleRemove (n : ℕ) : Pool := { pool with doubleRemoveCount := pool.doubleRemoveCount + n }
def releaseIndex (index : ℕ) : Pool := (pool.setMeta index vacate).runtimeLinkHead index

def pageFree (owner : PageOwner) : Pool :=
  match pool.framesGive owner.physical 1 with
  | none => pool.countDoubleRemove 1
  | some pool =>
    if owner.index ≥ pool.pageCount then pool
    else if (pool.metas owner.index).occupied = false then pool.countDoubleRemove 1
    else pool.releaseIndex owner.index

/-! ## Runs -/

def runIsFree (first count : ℕ) : Bool :=
  (List.range count).all fun k =>
    let index := first + k
    let m := pool.metas index
    index < pool.pageCount && m.owner ≠ .unavailable && m.occupied = false &&
      (k = 0 || m.physical = (pool.metas (index - 1)).physical + pageSize)

end Pool

inductive PageMappingRetainResult
  | notMapped
  | refCeilingReached
  | retained
  deriving DecidableEq, Repr

structure PageRunOwner where
  first : ℕ
  physical : ℕ
  count : ℕ
  generation : ℕ
  deriving DecidableEq, Repr

namespace Pool
variable (pool : Pool)

def unlinkRun (candidate : ℕ) : (count : ℕ) → ℕ × Pool
  | 0 => (0, pool)
  | count + 1 =>
    let (unlinked, pool) := unlinkRun candidate count
    let (one, pool) := pool.runtimeUnlink (candidate + count)
    (if one then unlinked + 1 else unlinked, pool)

def occupyRun (tag : PageOwnerTag) (candidate : ℕ) : (count : ℕ) → Pool
  | 0 => pool
  | count + 1 =>
    let pool := occupyRun tag candidate count
    if candidate + count < pool.pageCount then pool.setMeta (candidate + count) (occupy tag)
    else pool

/-- A run whose pages were not all on the list stays occupied, with no owner. -/
def runClaim (candidate physical count : ℕ) (tag : PageOwnerTag) : Option PageRunOwner × Pool :=
  if pool.runIsFree candidate count = false then (none, pool)
  else
    match pool.framesTake physical count with
    | none => (none, pool)
    | some pool =>
      let (unlinked, pool) := pool.unlinkRun candidate count
      let pool := pool.occupyRun tag candidate count
      if unlinked ≠ count then (none, pool)
      else
        let generation := pool.runGeneration
        (some ⟨candidate, physical, count, generation⟩,
          { pool with runGeneration := freelistGenerationAfter generation })

def runScan (e : PageExtent) (count : ℕ) (tag : PageOwnerTag) (pool : Pool) (physical : ℕ) :
    Option PageRunOwner × Pool :=
  let alignment := count * pageSize
  if _h : 0 < alignment ∧ physical < e.stop ∧ alignment ≤ e.stop - physical then
    let candidate := e.firstIndex + (physical - e.start) / pageSize
    match pool.runClaim candidate physical count tag with
    | (some run, pool) => (some run, pool)
    | (none, pool) =>
      if physical > usizeMax - alignment then (none, pool)
      else runScan e count tag pool (physical + alignment)
  else (none, pool)
termination_by e.stop - physical
decreasing_by omega

/-- The first aligned address of an extent; `none` past the last `usize`. -/
def runStart (e : PageExtent) (alignment : ℕ) : Option ℕ :=
  let skew := e.start % alignment
  if skew = 0 then some e.start
  else if e.start > usizeMax - (alignment - skew) then none
  else some (e.start + (alignment - skew))

def runSearch (count : ℕ) (tag : PageOwnerTag) : List PageExtent → Pool → Option PageRunOwner × Pool
  | [], pool => (none, pool)
  | e :: extents, pool =>
    match runStart e (count * pageSize) with
    | none => runSearch count tag extents pool
    | some physical =>
      match runScan e count tag pool physical with
      | (some run, pool) => (some run, pool)
      | (none, pool) => runSearch count tag extents pool

def claimHead (count : ℕ) (tag : PageOwnerTag) : Option PageRunOwner × Pool :=
  if count = 1 ∧ pool.freeHead < pool.pageCount then
    match pool.physicalForIndex pool.freeHead with
    | none => (none, pool)
    | some physical => pool.runClaim pool.freeHead physical count tag
  else (none, pool)

def allocContiguousLocked (count : ℕ) (tag : PageOwnerTag) : Option PageRunOwner × Pool :=
  if count < 1 then (none, pool)
  else if pool.runGeneration = 0 then (none, pool)
  else if tag = .unowned ∨ tag = .unavailable then (none, pool)
  else if count * pageSize > usizeMax then (none, pool)
  else
    match pool.claimHead count tag with
    | (some run, pool) => (some run, pool)
    | (none, pool) => runSearch count tag pool.extents pool

/-- `page_alloc_contiguous`: a run is drawn from the CPU's own reservation first. -/
def pageAllocContiguous (cpu : Cpu) (count : ℕ) (tag : PageOwnerTag) : Option PageRunOwner × Pool :=
  if pool.reserveAdmits cpu count = false then (none, pool)
  else
    match pool.allocContiguousLocked count tag with
    | (none, pool) => (none, pool)
    | (some run, pool) => (some run, pool.reserveConsume cpu count)

def releaseRunIndex (index : ℕ) : Pool :=
  if index < pool.pageCount then
    if (pool.metas index).occupied = false then pool.countDoubleRemove 1
    else pool.releaseIndex index
  else pool

def runReleaseIndices (first : ℕ) : (count : ℕ) → Pool
  | 0 => pool
  | count + 1 => (runReleaseIndices first count).releaseRunIndex (first + count)

def pageRunFree (owner : PageRunOwner) : Pool :=
  match pool.framesGive owner.physical owner.count with
  | none => pool.countDoubleRemove owner.count
  | some pool => pool.runReleaseIndices owner.first owner.count

def runReclaimFrames (first : ℕ) : (count : ℕ) → Pool
  | 0 => pool
  | count + 1 =>
    let pool := runReclaimFrames first count
    match pool.physicalForIndex (first + count) with
    | none => pool
    | some physical => (pool.framesGive physical 1).getD pool

def pageRunTransferredReleasePhysical (physical count : ℕ) : Pool :=
  if physical % pageSize ≠ 0 then pool
  else
    match pool.indexForPhysical physical with
    | none => pool
    | some index => (pool.runReclaimFrames index count).runReleaseIndices index count

/-! ## Mappings -/

def pageMappingInstall (owner : PageOwner) : Pool :=
  pool.setMeta owner.index fun m => { m with mapRefcount := 1 }

def pageMappingRetainPhysical (physical limit : ℕ) : PageMappingRetainResult × Pool :=
  if physical % pageSize ≠ 0 then (.notMapped, pool)
  else
    match pool.indexForPhysical physical with
    | none => (.notMapped, pool)
    | some index =>
      let current := (pool.metas index).mapRefcount
      if (pool.metas index).occupied = false ∨ current = 0 then (.notMapped, pool)
      else if current ≥ limit ∨ current ≥ pageMapRefCeiling then (.refCeilingReached, pool)
      else (.retained, pool.setMeta index fun m => { m with mapRefcount := u32 (current + 1) })

def transferredReleaseLocked (index physical : ℕ) : Pool :=
  if index ≥ pool.pageCount then pool
  else if (pool.metas index).occupied = false then pool.countDoubleRemove 1
  else
    match pool.framesGive physical 1 with
    | none => pool.countDoubleRemove 1
    | some pool => pool.releaseIndex index

def pageTransferredReleasePhysical (physical : ℕ) : Pool :=
  if physical % pageSize ≠ 0 then pool
  else
    match pool.indexForPhysical physical with
    | none => pool
    | some index => pool.transferredReleaseLocked index physical

def pageMappingReleasePhysical (physical : ℕ) : Pool :=
  if physical % pageSize ≠ 0 then pool
  else
    match pool.indexForPhysical physical with
    | none => pool
    | some index =>
      let current := (pool.metas index).mapRefcount
      if (pool.metas index).occupied = false ∨ current = 0 then pool.countDoubleRemove 1
      else
        let released := pool.setMeta index fun m => { m with mapRefcount := u32 (current - 1) }
        if current - 1 = 0 then released.transferredReleaseLocked index physical else released

end Pool
end Takibi.Page
