import Takibi.Concurrent.Code
import Takibi.Smp.Cores

/-! The block layer: block operations in flight each hold a slot with a set of cached blocks and one
read-ahead run, and learn of one another's writes from counts that are summed without a lock. -/

namespace Takibi.Block
open Concurrent Function List

export Smp (kernelMaxCores)

abbrev blockCacheSlots : ℕ := 16
abbrev blockCacheBuckets : ℕ := 64
abbrev blockRunBlocks : ℕ := 64
def kernelBlockSize : ℕ := 1024

abbrev Slot := Fin kernelMaxCores
abbrev Bucket := Fin blockCacheBuckets
abbrev Word := Slot × Bucket

structure Key where
  backend : ℕ
  block : ℕ
  deriving DecidableEq, Repr

structure KernelBlockDevice where
  backend : ℕ
  length : ℕ
  deriving DecidableEq, Repr

variable {D : Type}

structure CacheEntry (D : Type) where
  key : Key
  valid : Bool
  epoch : ℕ
  used : ℕ
  data : D

structure Run (D : Type) where
  backend : ℕ
  first : ℕ
  count : ℕ
  epoch : ℕ
  next : ℕ
  nextBackend : ℕ
  data : ℕ → D

structure SlotState (D : Type) where
  entries : Fin blockCacheSlots → CacheEntry D
  tick : ℕ
  run : Run D

/-- What an operation does in one step. The device is accessed under its lock, and the state of a slot by
its holder. -/
inductive Access (D : Type)
  | acquire
  | release (slot : Slot)
  | load (word : Word)
  | store (word : Word) (value : ℕ)
  | get (slot : Slot)
  | set (slot : Slot) (state : SlotState D)
  | deviceRead (key : Key)
  | deviceReadRun (backend first count : ℕ)
  | deviceWrite (key : Key) (source : D)

@[reducible] def Access.Answer : Access D → Type
  | .acquire => Slot
  | .load _ => ℕ
  | .get _ => SlotState D
  | .deviceRead _ => Option D
  | .deviceReadRun .. => Option (ℕ → D)
  | .deviceWrite .. => Bool
  | .release _ | .store .. | .set .. => Unit

abbrev BlockCode (D α : Type) := Code (Access D) Access.Answer α

namespace Access

def acquireSlot : BlockCode D Slot := Code.call Access.acquire
def releaseSlot (slot : Slot) : BlockCode D Unit := Code.call (Access.release slot)
def loadWord (word : Word) : BlockCode D ℕ := Code.call (Access.load word)
def storeWord (word : Word) (value : ℕ) : BlockCode D Unit := Code.call (Access.store word value)
def getSlot (slot : Slot) : BlockCode D (SlotState D) := Code.call (Access.get slot)
def setSlot (slot : Slot) (state : SlotState D) : BlockCode D Unit := Code.call (Access.set slot state)
def readDevice (key : Key) : BlockCode D (Option D) := Code.call (Access.deviceRead key)

def readDeviceRun (backend first count : ℕ) : BlockCode D (Option (ℕ → D)) :=
  Code.call (Access.deviceReadRun backend first count)

def writeDevice (key : Key) (source : D) : BlockCode D Bool := Code.call (Access.deviceWrite key source)

end Access

open Access

def modifySlot (slot : Slot) (f : SlotState D → SlotState D) : BlockCode D Unit := do
  let state ← getSlot slot
  setSlot slot (f state)

/-! ## The cache -/

def blockCacheBucket (block : ℕ) : Bucket := ⟨block % blockCacheBuckets, Nat.mod_lt _ (by decide)⟩

def sumCounts (words : List Word) : BlockCode D ℕ :=
  words.foldlM (fun epoch word => do return epoch + (← loadWord word)) 0

def bucketWords (bucket : Bucket) : List Word := (List.finRange kernelMaxCores).map fun core => (core, bucket)
def allWords : List Word := (List.finRange kernelMaxCores).product (List.finRange blockCacheBuckets)
def blockCacheBucketEpoch (bucket : Bucket) : BlockCode D ℕ := sumCounts (bucketWords bucket)
def blockCacheWriteEpoch : BlockCode D ℕ := sumCounts allWords

def blockCacheCountWrite (slot : Slot) (bucket : Bucket) : BlockCode D Unit := do
  let published := (← loadWord (slot, bucket)) + 1
  storeWord (slot, bucket) published

def SlotState.touch (state : SlotState D) (k : Fin blockCacheSlots) : SlotState D :=
  let tick := state.tick + 1
  { state with
    tick
    entries := update state.entries k { state.entries k with used := tick } }

def blockCacheTouch (slot : Slot) (k : Fin blockCacheSlots) : BlockCode D Unit :=
  modifySlot slot (·.touch k)

def blockCacheFind (slot : Slot) (key : Key) : BlockCode D (Option (Fin blockCacheSlots)) := do
  let epoch ← blockCacheBucketEpoch (blockCacheBucket key.block)
  let state ← getSlot slot
  return (List.finRange blockCacheSlots).find? fun k =>
    (state.entries k).valid && (state.entries k).epoch == epoch && (state.entries k).key == key

def blockCacheVictimFrom (slot : Slot) (key : Key) :
    List (Fin blockCacheSlots) → Fin blockCacheSlots → ℕ → BlockCode D (Fin blockCacheSlots)
  | [], victim, _ => return victim
  | k :: ks, victim, oldest => do
    let entry := (← getSlot slot).entries k
    if entry.valid = false then return k
    if entry.epoch ≠ (← blockCacheBucketEpoch (blockCacheBucket entry.key.block)) then return k
    if entry.key = key then return k
    if entry.used < oldest then
      blockCacheVictimFrom slot key ks k entry.used
    else
      blockCacheVictimFrom slot key ks victim oldest

/-- The entry a fill takes: an empty or stale one, the one that holds the block, or the least recently
used. -/
def blockCacheVictim (slot : Slot) (key : Key) : BlockCode D (Fin blockCacheSlots) :=
  blockCacheVictimFrom slot key (List.finRange blockCacheSlots) 0 0xFFFFFFFFFFFFFFFF

def SlotState.keep (state : SlotState D) (k : Fin blockCacheSlots) (key : Key) (source : D) (epoch : ℕ) :
    SlotState D :=
  { state with
    entries := update state.entries k
      { state.entries k with key, epoch, valid := true, data := source } }

def blockCacheStore (slot : Slot) (key : Key) (source : D) (epoch : ℕ) : BlockCode D Unit := do
  let k ← blockCacheVictim slot key
  modifySlot slot (·.keep k key source epoch)
  blockCacheTouch slot k

def blockCacheRead (slot : Slot) (key : Key) : BlockCode D (Option D) := do
  match ← blockCacheFind slot key with
  | none => return none
  | some k => do
    let state ← getSlot slot
    blockCacheTouch slot k
    return some (state.entries k).data

def blockCacheEpochOf (key : Key) : BlockCode D ℕ := blockCacheBucketEpoch (blockCacheBucket key.block)

def blockCacheFill (slot : Slot) (key : Key) (source : D) (epoch : ℕ) : BlockCode D Unit :=
  blockCacheStore slot key source epoch

def blockCacheNoteWrite (slot : Slot) (key : Key) (source : D) (written : Bool) (epochBefore : ℕ) :
    BlockCode D Unit := do
  blockCacheCountWrite slot (blockCacheBucket key.block)
  if written then blockCacheStore slot key source (epochBefore + 1)

def blockCacheForgetAll (slot : Slot) : BlockCode D Unit :=
  (List.finRange blockCacheBuckets).forM fun bucket => blockCacheCountWrite slot bucket

def blockCacheEpochNow : BlockCode D ℕ := blockCacheWriteEpoch

/-! ## The read-ahead run -/

variable (device : KernelBlockDevice)

def KernelBlockDevice.blockCount : ℕ := device.length / kernelBlockSize
def KernelBlockDevice.key (block : ℕ) : Key := ⟨device.backend, block⟩

def blockRunHitHere (slot : Slot) (device : KernelBlockDevice) (block : ℕ) : BlockCode D Bool := do
  let run := (← getSlot slot).run
  if run.count ≠ 0 ∧ run.backend = device.backend then
    let epoch ← blockCacheEpochNow
    return decide (run.epoch = epoch ∧ run.first ≤ block ∧ block - run.first < run.count)
  else
    return false

def blockRunTake (slot : Slot) (device : KernelBlockDevice) (block : ℕ) : BlockCode D (Option D) := do
  if (← blockRunHitHere slot device block) = false then return none
  let run := (← getSlot slot).run
  let offset := block - run.first
  if offset ≥ blockRunBlocks then return none
  return some (run.data offset)

def blockRunWanted (slot : Slot) (device : KernelBlockDevice) (block : ℕ) : BlockCode D Bool := do
  let run := (← getSlot slot).run
  return decide (run.next = block ∧ run.nextBackend = device.backend)

def blockRunNoteSingle (slot : Slot) (device : KernelBlockDevice) (block : ℕ) : BlockCode D Unit :=
  modifySlot slot fun state =>
    { state with run := { state.run with next := block + 1, nextBackend := device.backend } }

def blockRunRead (slot : Slot) (device : KernelBlockDevice) (first : ℕ) : BlockCode D Bool := do
  let available := device.blockCount
  if first ≥ available then return false
  let count := min (available - first) blockRunBlocks
  modifySlot slot fun state => { state with run := { state.run with count := 0 } }
  let epoch ← blockCacheEpochNow
  match ← readDeviceRun device.backend first count with
  | none => return false
  | some data => do
    modifySlot slot fun state =>
      { state with
        run := {
          backend := device.backend
          first
          epoch
          count
          next := first + count
          nextBackend := device.backend
          data } }
    return true

/-- A read that continues the slot's last one reads a run. A run that was read and then cannot answer is
left to the single read. -/
def blockRunContinue (slot : Slot) (device : KernelBlockDevice) (block : ℕ) : BlockCode D (Option D) := do
  if (← blockRunWanted slot device block) then
    if (← blockRunRead slot device block) then
      return (← blockRunTake slot device block)
  return none

/-! ## The operations -/

def blockReadWith (slot : Slot) (device : KernelBlockDevice) (block : ℕ) : BlockCode D (Option D) := do
  let key := device.key block
  match ← blockCacheRead slot key with
  | some bytes => return some bytes
  | none => do
    let epoch ← blockCacheEpochOf key
    match ← blockRunTake slot device block with
    | some bytes => do
      blockCacheFill slot key bytes epoch
      return some bytes
    | none => do
      match ← blockRunContinue slot device block with
      | some bytes => do
        blockCacheFill slot key bytes epoch
        return some bytes
      | none => do
        match ← readDevice key with
        | none => return none
        | some bytes => do
          blockRunNoteSingle slot device block
          blockCacheFill slot key bytes epoch
          return some bytes

def blockRead (block : ℕ) : BlockCode D (Option D) := do
  if block ≥ device.blockCount then return none
  let slot ← acquireSlot
  let result ← blockReadWith slot device block
  releaseSlot slot
  return result

def blockWrite (block : ℕ) (source : D) : BlockCode D Bool := do
  if block ≥ device.blockCount then return false
  let slot ← acquireSlot
  let epoch ← blockCacheEpochOf (device.key block)
  let written ← writeDevice (device.key block) source
  blockCacheNoteWrite slot (device.key block) source written epoch
  releaseSlot slot
  return written

def blockForgetAll : BlockCode D Unit := do
  let slot ← acquireSlot
  blockCacheForgetAll slot
  releaseSlot slot

def writeAround (sources : List (Key × D)) : BlockCode D Unit := do
  sources.forM fun (key, source) => do
    let _ ← writeDevice key source
  blockForgetAll

inductive Op (D : Type)
  | read (device : KernelBlockDevice) (block : ℕ)
  | write (device : KernelBlockDevice) (block : ℕ) (source : D)
  | around (sources : List (Key × D))
  deriving DecidableEq

def Op.code : Op D → BlockCode D (Option D)
  | .read device block => blockRead device block
  | .write device block source => do
    let _ ← blockWrite device block source
    return none
  | .around sources => do
    writeAround sources
    return none

/-! ## The machine -/

structure Put (D : Type) where
  writer : Option ℕ
  data : D
  time : ℕ

structure Call (D : Type) where
  op : Op D
  start : ℕ
  known : Word → ℕ
  stop : Option ℕ
  answer : Option D

/-- The counts and the devices. The rest is what happened so far: the writes each block took, the
operations that counted in each word, and the operations themselves. -/
structure Disk (D : Type) where
  writes : Word → ℕ
  device : Key → D
  puts : Key → List (Put D)
  counted : Word → List ℕ
  calls : ℕ → Option (Call D)
  clock : ℕ

structure Machine (D : Type) where
  disk : Disk D
  holder : Slot → Option ℕ
  slots : Slot → SlotState D

structure Choice where
  slot : Slot
  fails : Bool

variable (disk : Disk D) (t : ℕ)

def Disk.put (key : Key) (source : D) : Disk D :=
  { disk with
    device := update disk.device key source
    puts := update disk.puts key (disk.puts key ++ [⟨some t, source, disk.clock⟩])
    clock := disk.clock + 1 }

def Disk.store (word : Word) (value : ℕ) : Disk D :=
  { disk with
    writes := update disk.writes word value
    counted := update disk.counted word (disk.counted word ++ [t]) }

def Machine.perform (a : Access D) (choice : Choice) (m : Machine D) : Option (a.Answer × Machine D) :=
  match a with
  | .acquire =>
    if m.holder choice.slot = none then
      some (choice.slot, { m with holder := update m.holder choice.slot (some t) })
    else none
  | .release slot => some ((), { m with holder := update m.holder slot none })
  | .load word => some (m.disk.writes word, m)
  | .store word value => some ((), { m with disk := m.disk.store t word value })
  | .get slot => some (m.slots slot, m)
  | .set slot state => some ((), { m with slots := update m.slots slot state })
  | .deviceRead key => some (if choice.fails then none else some (m.disk.device key), m)
  | .deviceReadRun backend first _ =>
    some (if choice.fails then none else some fun offset => m.disk.device ⟨backend, first + offset⟩, m)
  | .deviceWrite key source =>
    if choice.fails then some (false, m) else some (true, { m with disk := m.disk.put t key source })

def Disk.start (op : Op D) : Disk D :=
  { disk with
    calls := update disk.calls t (some ⟨op, disk.clock, disk.writes, none, none⟩)
    clock := disk.clock + 1 }

def Disk.finish (answer : Option D) : Disk D :=
  { disk with
    calls := update disk.calls t ((disk.calls t).map fun call => { call with stop := some disk.clock, answer })
    clock := disk.clock + 1 }

def layer (D : Type) : System (Machine D) ℕ (Access D) Access.Answer (Option D) (Op D) Choice where
  code := Op.code
  start := fun t op m => { m with disk := m.disk.start t op }
  perform := Machine.perform
  finish := fun t answer m => { m with disk := m.disk.finish t answer }

def boot (first : Key → D) (blank : D) : Machine D where
  disk := {
    writes := fun _ => 0
    device := first
    puts := fun key => [⟨none, first key, 0⟩]
    counted := fun _ => []
    calls := fun _ => none
    clock := 1 }
  holder := fun _ => none
  slots := fun _ => {
    entries := fun _ => ⟨⟨0, 0⟩, false, 0, 0, blank⟩
    tick := 0
    run := ⟨0, 0, 0, 0, 0, 0, fun _ => blank⟩ }

end Takibi.Block
