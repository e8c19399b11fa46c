import Takibi.Boot.MemoryMap
import Takibi.Page.Pool

/-! The hand-over from the bootstrap pages to the runtime tables: how large the tables are and
where they go, one entry for each page of each region, the state of the bootstrap pages carried
across, the free list and the places of the frames. -/

namespace Takibi.Page
open Boot List

def sizeofPageMeta : ℕ := 24
def sizeofPageExtent : ℕ := 24
def pageExtentSlotBytes : ℕ := 64

structure Memory where
  regionAt : ℕ → RegionResult
  regionCount : ℕ
  dtb : ℕ
  blobSize : ℕ

namespace Memory
variable (memory : Memory)

def blobOverlaps (base size : ℕ) : Bool :=
  if size = 0 ∨ memory.blobSize = 0 ∨ base > usizeMax - size ∨ memory.dtb > usizeMax - memory.blobSize then
    false
  else base < memory.dtb + memory.blobSize && memory.dtb < base + size

def scanRegions {σ : Type} (step : σ → Region → Option σ) : (remaining index : ℕ) → σ → Option σ
  | 0, _, s => some s
  | remaining + 1, index, s =>
    match memory.regionAt index with
    | .found r => (step s r).bind (scanRegions step remaining (index + 1))
    | _ => none

end Memory

/-- What boot leaves of the bootstrap allocator: where its pages start, their metadata, and the
counters that the runtime allocator goes on with. -/
structure Bootstrap where
  usableRamStart : ℕ
  metas : ℕ → PageMeta
  runGeneration : ℕ
  doubleRemoveCount : ℕ
  counted : ∀ i, (metas i).mapRefcount < 2 ^ 32

def Bootstrap.address (boot : Bootstrap) (i : ℕ) : ℕ := (boot.usableRamStart + i * pageSize) % 2 ^ 64

/-! ## Rounding inward -/

def regionAlignedStart (usableRamStart : ℕ) (r : Region) : ℕ :=
  let start := if r.base < usableRamStart then usableRamStart else r.base
  if start % pageSize ≠ 0 then
    let padding := pageSize - start % pageSize
    if start > usizeMax - padding then usizeMax else start + padding
  else start

def regionAlignedEnd (r : Region) : ℕ := r.stop - r.stop % pageSize

/-! ## The plan -/

structure MetadataPlan where
  base : ℕ
  span : ℕ
  totalPages : ℕ
  deriving DecidableEq, Repr

section Plan
variable (memory : Memory) (boot : Bootstrap)

def addPages (total : ℕ) (r : Region) : Option ℕ :=
  let start := regionAlignedStart boot.usableRamStart r
  let stop := regionAlignedEnd r
  if start < stop then
    let pages := (stop - start) / pageSize
    if total > usizeMax - pages then none else some (total + pages)
  else some total

def metadataSpan (totalPages regionCount : ℕ) : Option ℕ :=
  if totalPages = 0 ∨ totalPages > 0xFFFFFFFF ∨ totalPages > usizeMax / sizeofPageMeta then none
  else
    let metadataBytes := totalPages * sizeofPageMeta
    if regionCount > usizeMax / sizeofPageExtent then none
    else
      let extentBytes := regionCount * sizeofPageExtent
      if metadataBytes > usizeMax - extentBytes then none
      else if regionCount > usizeMax / pageExtentSlotBytes then none
      else
        let slotBytes := regionCount * pageExtentSlotBytes
        if metadataBytes + extentBytes > usizeMax - slotBytes ∨
            metadataBytes + extentBytes + slotBytes > usizeMax - totalPages then none
        else
          let payload := metadataBytes + extentBytes + slotBytes + totalPages
          if payload > usizeMax - (pageSize - 1) then none
          else
            let pages := (payload + pageSize - 1) / pageSize
            if pages = 0 ∨ pages > usizeMax / pageSize then none else some (pages * pageSize)

def overlapsBootstrap (candidate stop : ℕ) : Bool :=
  (List.range bootstrapPageCount).any fun i =>
    (boot.metas i).occupied && candidate ≤ boot.address i && boot.address i < stop

def placeMetadata (span : ℕ) : (remaining index : ℕ) → Option ℕ
  | 0, _ => none
  | remaining + 1, index =>
    match memory.regionAt index with
    | .found r =>
      let start := regionAlignedStart boot.usableRamStart r
      let stop := regionAlignedEnd r
      if start < stop ∧ span ≤ stop - start ∧ overlapsBootstrap boot (stop - span) stop = false ∧
          memory.blobOverlaps (stop - span) span = false then some (stop - span)
      else placeMetadata span remaining (index + 1)
    | _ => none

/-- `page_allocator_plan_metadata`; `none` where the plan is not valid. -/
def planMetadata : Option MetadataPlan := do
  let totalPages ← memory.scanRegions (addPages boot) memory.regionCount 0 0
  let span ← metadataSpan totalPages memory.regionCount
  let base ← placeMetadata memory boot span memory.regionCount 0
  return ⟨base, span, totalPages⟩

end Plan

/-! ## The tables -/

structure Tables where
  metas : ℕ → PageMeta
  extents : List PageExtent
  index : ℕ

section Fill
variable (memory : Memory) (boot : Bootstrap) (plan : MetadataPlan)

def freshMeta (physical : ℕ) : PageMeta :=
  let free : PageMeta := ⟨false, .unowned, 0, u32 plan.totalPages, u32 plan.totalPages, physical⟩
  if memory.blobOverlaps physical pageSize then { free with owner := .unavailable }
  else if plan.base ≤ physical ∧ physical < plan.base + plan.span then
    { free with occupied := true, owner := .allocatorMetadata }
  else free

def fillPages (stop : ℕ) (t : Tables) (physical : ℕ) : Option Tables :=
  if physical < stop then
    if t.index ≥ plan.totalPages then none
    else
      fillPages stop { t with
          metas := Function.update t.metas t.index (freshMeta memory plan physical)
          index := t.index + 1 } (physical + pageSize)
  else some t
termination_by stop - physical
decreasing_by
  simp only [pageSize]
  omega

def fillRegion (t : Tables) (r : Region) : Option Tables :=
  let start := regionAlignedStart boot.usableRamStart r
  let stop := regionAlignedEnd r
  let extents := if start < stop then t.extents ++ [⟨start, stop, t.index⟩] else t.extents
  fillPages memory plan stop { t with extents := extents } start

def migrate (m boot : PageMeta) : PageMeta :=
  { m with occupied := true, owner := boot.owner, mapRefcount := boot.mapRefcount }

def migratePage (pool : Pool) (i : ℕ) : Option Pool :=
  if (boot.metas i).occupied then
    match pool.indexForPhysical (boot.address i) with
    | none => none
    | some index =>
      if (pool.metas index).owner ≠ .unowned then none
      else some (pool.setMeta index fun m => migrate m (boot.metas i))
  else some pool

def tablesPool (t : Tables) : Pool where
  pageCount := plan.totalPages
  metas := t.metas
  extents := t.extents
  placed := fun _ => false
  freeHead := plan.totalPages
  freeCount := 0
  nextGeneration := 1
  runGeneration := boot.runGeneration
  doubleRemoveCount := boot.doubleRemoveCount
  reservedTotal := 0
  reservedByCpu := fun _ => 0
  reserveActive := fun _ => false
  reserveOverdrawn := fun _ => 0

/-- `page_allocator_fill_metadata`, over tables with anything in them; `none` for `false`. -/
def fillMetadata (metas : ℕ → PageMeta) : Option Pool := do
  let t ← memory.scanRegions (fillRegion memory boot plan) memory.regionCount 0 ⟨metas, [], 0⟩
  if t.index ≠ plan.totalPages then none
  else
    let pool ← (List.range bootstrapPageCount).foldlM (migratePage boot) (tablesPool boot plan t)
    return pool.runtimeFreelistRebuild

/-- `page_allocator_build_frames`: the frame of a page that is not free is taken out. -/
def buildFrames (pool : Pool) : Pool :=
  { pool with placed := fun i =>
      !((pool.metas i).occupied || (pool.metas i).owner = .unavailable) }

end Fill

def applyMemory (memory : Memory) (boot : Bootstrap) (metas : ℕ → PageMeta) : Option Pool := do
  let plan ← planMetadata memory boot
  let pool ← fillMetadata memory boot plan metas
  return buildFrames pool

end Takibi.Page
