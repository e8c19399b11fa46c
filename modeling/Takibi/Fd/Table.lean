import Takibi.Stamped.Pool
import Takibi.Control.Scan
import Mathlib.Data.List.AList

/-! The descriptor tables: a table is a chain of blocks of sixteen slots, each slot names a shared object, and
an object counts the slots that name it. The region pools are stamped pools, and a pin is held within one call
only, so that retiring a record frees it. -/

namespace Takibi.Fd
open Stamped Control

inductive UnifiedFdKind
  | empty
  | terminal
  | openFile
  | directory
  | listener
  | connection
  | pipeRead
  | pipeWrite
  deriving DecidableEq, Repr

def fdBlockSlots : ℕ := 16
def processFdLimitDefaultSoft : ℕ := 1024
def processFdLimitDefaultHard : ℕ := 4096

structure FdEntry where
  kind : UnifiedFdKind
  closeOnExec : Bool
  object : ℕ
  generation : ℕ
  deriving DecidableEq, Repr

def FdEntry.unused : FdEntry := ⟨.empty, false, 0, 0⟩
def FdEntry.handle (entry : FdEntry) : Handle := ⟨entry.object, entry.generation⟩

structure FdBlock where
  slot : Vector FdEntry fdBlockSlots

def FdBlock.fresh : FdBlock := ⟨Vector.replicate fdBlockSlots FdEntry.unused⟩
def chainEntries (blocks : List FdBlock) : List FdEntry := blocks.flatMap fun block => block.slot.toList

structure ProcessFdContext where
  blocks : List FdBlock
  fdLimitSoft : ℕ
  fdLimitHard : ℕ

structure UnifiedFdCloneUndo where
  blocks : List FdBlock
  installs : ℕ

structure PipeEnd where
  pipe : Handle
  reader : Bool
  deriving DecidableEq, Repr

structure SharedObject where
  kind : UnifiedFdKind
  pipe : Handle
  refs : ℕ

def SharedObject.pipeEnd (object : SharedObject) : Option PipeEnd :=
  if object.kind = .pipeRead then some ⟨object.pipe, true⟩
  else if object.kind = .pipeWrite then some ⟨object.pipe, false⟩
  else none

structure Pipe where
  readerOpen : Bool
  writerOpen : Bool

def Pipe.isOpen (pipe : Pipe) (reader : Bool) : Bool := if reader then pipe.readerOpen else pipe.writerOpen

def pipeEndMark (reader : Bool) (pipe : Pipe) : Pipe :=
  if reader then { pipe with readerOpen := false } else { pipe with writerOpen := false }

inductive UnifiedObjectResult
  | invalid
  | full
  | allocated (handle : Handle)

inductive UnifiedObjectRetainResult
  | invalid
  | overflow
  | ok

inductive UnifiedObjectReleaseResult
  | invalid
  | stillHeld
  | freed

inductive UnifiedFdInstallResult
  | invalid
  | refOverflow
  | noMemory
  | ok
  deriving DecidableEq

inductive UnifiedFdResult
  | invalid
  | ok
  deriving DecidableEq

inductive UnifiedOpenResult
  | invalid
  | full
  | ok
  deriving DecidableEq

inductive UnifiedFdAllocResult
  | full
  | allocated (fd : ℕ)
  deriving DecidableEq, Repr

structure Shared where
  objects : Pool SharedObject
  pipes : Pool Pipe
  endCloses : PipeEnd → ℕ
  fdBlocks : ℕ
  fdSlotTotal : ℕ
  room : ℕ
  refBoundBreaks : ℕ
  doubleReleases : ℕ

namespace Shared
variable (shared : Shared)

/-- `place` is the slot the object pool grants, or `none` where it is full. -/
def unifiedObjectAllocFirst (object : SharedObject) (place : Option ℕ) : UnifiedObjectResult × Shared :=
  if object.kind = .empty then (.invalid, shared)
  else
    match place.bind fun slot => shared.objects.alloc slot { object with refs := 0 } with
    | none => (.full, shared)
    | some (handle, objects) => (.allocated handle, { shared with objects })

def unifiedObjectFree (handle : Handle) : Shared := { shared with objects := shared.objects.retire handle }

def storeRefs (handle : Handle) (f : ℕ → ℕ) : Shared :=
  { shared with objects := shared.objects.modify handle fun object => { object with refs := f object.refs } }

def unifiedObjectRetain (handle : Handle) : UnifiedObjectRetainResult × Shared :=
  match shared.objects.find handle with
  | none => (.invalid, shared)
  | some object =>
    if shared.fdSlotTotal ≤ object.refs then (.overflow, shared)
    else (.ok, shared.storeRefs handle (· + 1))

def unifiedObjectReleaseLocked (handle : Handle) : UnifiedObjectReleaseResult × Shared :=
  match shared.objects.find handle with
  | none => (.invalid, shared)
  | some object =>
    if object.refs < 1 then (.invalid, { shared with doubleReleases := shared.doubleReleases + 1 })
    else
      let stored := shared.storeRefs handle (· - 1)
      if object.refs < 2 then (.freed, stored.unifiedObjectFree handle) else (.stillHeld, stored)

def pipeEndClose (pipeEnd : PipeEnd) : Shared :=
  let closed := { shared with
    endCloses := Function.update shared.endCloses pipeEnd (shared.endCloses pipeEnd + 1) }
  match shared.pipes.find pipeEnd.pipe with
  | none => closed
  | some pipe =>
    let marked := shared.pipes.modify pipeEnd.pipe (pipeEndMark pipeEnd.reader)
    if pipe.isOpen (!pipeEnd.reader) then { closed with pipes := marked }
    else { closed with pipes := marked.retire pipeEnd.pipe }

def unifiedObjectRelease (handle : Handle) : UnifiedObjectReleaseResult × Shared :=
  match shared.unifiedObjectReleaseLocked handle with
  | (.freed, released) =>
    match (shared.objects.find handle).bind SharedObject.pipeEnd with
    | some pipeEnd => (.freed, released.pipeEndClose pipeEnd)
    | none => (.freed, released)
  | other => other

def fdBlockAlloc : Option Shared :=
  if shared.room = 0 then none
  else some { shared with
    room := shared.room - 1
    fdBlocks := shared.fdBlocks + 1
    fdSlotTotal := shared.fdSlotTotal + fdBlockSlots }

def fdBlockFree : Shared :=
  { shared with
    fdBlocks := shared.fdBlocks - 1
    fdSlotTotal :=
      if fdBlockSlots ≤ shared.fdSlotTotal then shared.fdSlotTotal - fdBlockSlots else shared.fdSlotTotal }

/-- `fd_blocks_release`: the storage of a chain, whatever its slots hold. -/
def fdBlocksRelease : List FdBlock → Shared → Shared
  | [], shared => shared
  | _ :: blocks, shared => fdBlocksRelease blocks shared.fdBlockFree

end Shared

def nextOpen (start : ℕ) : ℕ → List FdEntry → Option ℕ
  | _, [] => none
  | fd, entry :: entries =>
    if start ≤ fd ∧ entry.kind ≠ .empty then some fd else nextOpen start (fd + 1) entries

/-- The scan of `unified_fd_alloc`: the slots of the chain from `fd` on, and past its end every descriptor. -/
def allocScan (limit first : ℕ) : ℕ → List FdEntry → UnifiedFdAllocResult
  | base, [] =>
    let fd := if base < first then first else base
    if limit ≤ fd then .full else .allocated fd
  | fd, entry :: entries =>
    if limit ≤ fd then .full
    else if first ≤ fd ∧ entry.kind = .empty then .allocated fd
    else allocScan limit first (fd + 1) entries

namespace ProcessFdContext
variable (ctx : ProcessFdContext)

def fresh : ProcessFdContext := ⟨[], processFdLimitDefaultSoft, processFdLimitDefaultHard⟩
def entries : List FdEntry := chainEntries ctx.blocks

def entryAt (fd : ℕ) : Option FdEntry :=
  ctx.blocks[fd / fdBlockSlots]?.map fun block =>
    block.slot.get ⟨fd % fdBlockSlots, Nat.mod_lt _ (by decide)⟩

def setEntry (fd : ℕ) (entry : FdEntry) : ProcessFdContext :=
  { ctx with
    blocks := ctx.blocks.modify (fd / fdBlockSlots) fun block =>
      ⟨block.slot.set (fd % fdBlockSlots) entry (Nat.mod_lt _ (by decide))⟩ }

def appendBlock : ProcessFdContext := { ctx with blocks := ctx.blocks ++ [FdBlock.fresh] }

end ProcessFdContext

structure FdState where
  shared : Shared
  contexts : AList fun _ : ℕ => ProcessFdContext
  /-- The chains of failed clones that `unified_fd_clone_undo_finish` has not released. -/
  undos : List UnifiedFdCloneUndo
  pageAllocatorTotalCount : ℕ

namespace FdState
variable (s : FdState)

def setContext (process : ℕ) (ctx : ProcessFdContext) : FdState :=
  { s with contexts := s.contexts.insert process ctx }

variable (process fd : ℕ)

def entryAt : Option FdEntry := (s.contexts.lookup process).bind (·.entryAt fd)

def setEntry (entry : FdEntry) : FdState :=
  match s.contexts.lookup process with
  | none => s
  | some ctx => s.setContext process (ctx.setEntry fd entry)

def appendBlock (process : ℕ) : FdState :=
  match s.contexts.lookup process with
  | none => s
  | some ctx => s.setContext process ctx.appendBlock

def slotCount (process : ℕ) : ℕ :=
  match s.contexts.lookup process with
  | none => 0
  | some ctx => ctx.entries.length

def unifiedFdContextEnsure (process : ℕ) (granted : Bool) : FdState :=
  match s.contexts.lookup process with
  | some _ => s
  | none => if granted then s.setContext process .fresh else s

def unifiedFdNextOpen (process start : ℕ) : Option ℕ :=
  match s.contexts.lookup process with
  | none => none
  | some ctx => nextOpen start 0 ctx.entries

def unifiedFdAlloc (process first : ℕ) : UnifiedFdAllocResult :=
  match s.contexts.lookup process with
  | none => .full
  | some ctx => allocScan ctx.fdLimitSoft first 0 ctx.entries

def unifiedProcessFdLimitConfigure (process soft hard : ℕ) : UnifiedFdResult × FdState :=
  if hard < soft then (.invalid, s)
  else if s.pageAllocatorTotalCount * fdBlockSlots < hard then (.invalid, s)
  else
    match s.contexts.lookup process with
    | none => (.invalid, s)
    | some ctx => (.ok, s.setContext process { ctx with fdLimitSoft := soft, fdLimitHard := hard })

/-- `fd_block_ensure`, where the chain lacks `missing` blocks. Blocks made before a refusal stay in the chain. -/
def fdBlockEnsure (process : ℕ) : ℕ → FdState → Bool × FdState
  | 0, s => (true, s)
  | missing + 1, s =>
    match s.shared.fdBlockAlloc with
    | none => (false, s)
    | some shared => fdBlockEnsure process missing ({ s with shared }.appendBlock process)

def installEntry (handle : Handle) (kind : UnifiedFdKind) : UnifiedFdInstallResult × FdState :=
  match s.entryAt process fd with
  | none => (.noMemory, s)
  | some entry =>
    if entry.kind ≠ .empty ∨ kind = .empty then (.invalid, s)
    else
      match s.shared.unifiedObjectRetain handle with
      | (.invalid, shared) => (.invalid, { s with shared })
      | (.overflow, shared) =>
        (.refOverflow, { s with shared := { shared with refBoundBreaks := shared.refBoundBreaks + 1 } })
      | (.ok, shared) =>
        (.ok, { s with shared }.setEntry process fd ⟨kind, false, handle.slot, handle.generation⟩)

def unifiedFdInstall (handle : Handle) : UnifiedFdInstallResult × FdState :=
  match s.contexts.lookup process with
  | none => (.invalid, s)
  | some ctx =>
    if ctx.fdLimitSoft ≤ fd then (.invalid, s)
    else
      match s.shared.objects.find handle with
      | none => (.invalid, s)
      | some object =>
        match fdBlockEnsure process (fd / fdBlockSlots + 1 - ctx.blocks.length) s with
        | (false, s) => (.noMemory, s)
        | (true, s) => s.installEntry process fd handle object.kind

def unifiedFdClose : UnifiedFdResult × FdState :=
  match s.entryAt process fd with
  | none => (.invalid, s)
  | some entry =>
    if entry.kind ≠ .empty ∧ (s.shared.objects.find entry.handle).isSome then
      match s.shared.unifiedObjectRelease entry.handle with
      | (.invalid, shared) => (.invalid, { s with shared })
      | (_, shared) => (.ok, { s with shared }.setEntry process fd .unused)
    else (.invalid, s)

def unifiedFdDuplicate (process oldFd newFd : ℕ) : UnifiedFdInstallResult × FdState :=
  if oldFd = newFd then (.invalid, s)
  else
    match s.entryAt process oldFd with
    | none => (.invalid, s)
    | some entry =>
      if entry.kind = .empty then (.invalid, s) else s.unifiedFdInstall process newFd entry.handle

def unifiedFdSetCloseOnExec (value : Bool) : UnifiedFdResult × FdState :=
  match s.entryAt process fd with
  | none => (.invalid, s)
  | some entry =>
    if entry.kind ≠ .empty then (.ok, s.setEntry process fd { entry with closeOnExec := value })
    else (.invalid, s)

def unifiedFdCloseOnExec : Bool := ((s.entryAt process fd).map (·.closeOnExec)).getD false

def unifiedFdCloseExecDescriptors (process : ℕ) : FdState :=
  let body (fd : ℕ) (s : FdState) : Except FdState FdState :=
    .ok (if s.unifiedFdCloseOnExec process fd then (s.unifiedFdClose process fd).2 else s)
  match scan (·.unifiedFdNextOpen process) body (s.slotCount process + 1) 0 s with
  | .ok s' => s'
  | .error s' => s'

def destroyBody (s : FdState) : Except FdState FdState :=
  match s.unifiedFdClose process fd with
  | (.invalid, s) => .error s
  | (.ok, s) => .ok s

def unifiedFdDestroy (process : ℕ) : UnifiedFdResult × FdState :=
  match s.contexts.lookup process with
  | none => (.invalid, s)
  | some ctx =>
    match scan (·.unifiedFdNextOpen process) (destroyBody process) (ctx.entries.length + 1) 0 s with
    | .ok s' => (.ok, s')
    | .error s' => (.invalid, s')

def unifiedFdContextRelease (process : ℕ) : FdState :=
  match s.contexts.lookup process with
  | none => s
  | some ctx =>
    { s with
      shared := Shared.fdBlocksRelease ctx.blocks s.shared
      contexts := s.contexts.erase process }

/-- What the functions that make an object have in common: an object that could not be installed has no
holder and is freed again. -/
def unifiedObjectCreate (object : SharedObject) (place : Option ℕ) : UnifiedOpenResult × FdState :=
  match s.shared.unifiedObjectAllocFirst object place with
  | (.invalid, shared) => (.invalid, { s with shared })
  | (.full, shared) => (.full, { s with shared })
  | (.allocated handle, shared) =>
    match { s with shared }.unifiedFdInstall process fd handle with
    | (.ok, s) => (.ok, s)
    | (.noMemory, s) => (.full, { s with shared := s.shared.unifiedObjectFree handle })
    | (_, s) => (.invalid, { s with shared := s.shared.unifiedObjectFree handle })

variable (place : Option ℕ)

def unifiedFileOpen : UnifiedOpenResult × FdState :=
  s.unifiedObjectCreate process fd ⟨.openFile, ⟨0, 0⟩, 0⟩ place

def unifiedDirectoryOpen : UnifiedOpenResult × FdState :=
  s.unifiedObjectCreate process fd ⟨.directory, ⟨0, 0⟩, 0⟩ place

def unifiedListenerCreate : UnifiedOpenResult × FdState :=
  s.unifiedObjectCreate process fd ⟨.listener, ⟨0, 0⟩, 0⟩ place

def unifiedConnectionCreate : UnifiedOpenResult × FdState :=
  s.unifiedObjectCreate process fd ⟨.connection, ⟨0, 0⟩, 0⟩ place

def unifiedPipeEndCreate (pipeEnd : PipeEnd) (place : Option ℕ) : UnifiedOpenResult × FdState :=
  s.unifiedObjectCreate process fd
    ⟨if pipeEnd.reader then .pipeRead else .pipeWrite, pipeEnd.pipe, 0⟩ place

def unifiedTerminalStdioOpen (process : ℕ) (place : Option ℕ) : UnifiedOpenResult × FdState :=
  match s.unifiedObjectCreate process 0 ⟨.terminal, ⟨0, 0⟩, 0⟩ place with
  | (.ok, s) =>
    match s.unifiedFdDuplicate process 0 1 with
    | (.ok, s) =>
      match s.unifiedFdDuplicate process 0 2 with
      | (.ok, s) => (.ok, s)
      | (result, s) =>
        (if result = .noMemory then .full else .invalid,
          ((s.unifiedFdClose process 1).2.unifiedFdClose process 0).2)
    | (result, s) => (if result = .noMemory then .full else .invalid, (s.unifiedFdClose process 0).2)
  | other => other

def pipeEndClose (pipeEnd : PipeEnd) : FdState := { s with shared := s.shared.pipeEndClose pipeEnd }

inductive Pipe2Result
  | emfile
  | enfile
  | efault
  | ok (readFd writeFd : ℕ)

def pipe2Write (process readFd : ℕ) (pipe : Handle) (place : Option ℕ) (cloexec fault : Bool) :
    Pipe2Result × FdState :=
  match s.unifiedFdAlloc process 0 with
  | .full => (.emfile, (s.unifiedFdClose process readFd).2.pipeEndClose ⟨pipe, false⟩)
  | .allocated writeFd =>
    match s.unifiedPipeEndCreate process writeFd ⟨pipe, false⟩ place with
    | (.invalid, s) => (.emfile, (s.unifiedFdClose process readFd).2.pipeEndClose ⟨pipe, false⟩)
    | (.full, s) => (.enfile, (s.unifiedFdClose process readFd).2.pipeEndClose ⟨pipe, false⟩)
    | (.ok, s) =>
      let s :=
        if cloexec then
          ((s.unifiedFdSetCloseOnExec process readFd true).2.unifiedFdSetCloseOnExec process writeFd true).2
        else s
      if fault then (.efault, ((s.unifiedFdClose process readFd).2.unifiedFdClose process writeFd).2)
      else (.ok readFd writeFd, s)

/-- `pipe2` from its `pipe_alloc` on: `pipePlace`, `readPlace` and `writePlace` are the slots the pools grant,
and `fault` says that the store of the two numbers faults. -/
def syscallPipe2 (process : ℕ) (pipePlace readPlace writePlace : Option ℕ) (cloexec fault : Bool) :
    Pipe2Result × FdState :=
  match pipePlace.bind fun slot => s.shared.pipes.alloc slot ⟨true, true⟩ with
  | none => (.enfile, s)
  | some (pipe, pipes) =>
    let s : FdState := { s with shared := { s.shared with pipes } }
    match s.unifiedFdAlloc process 0 with
    | .full => (.emfile, (s.pipeEndClose ⟨pipe, true⟩).pipeEndClose ⟨pipe, false⟩)
    | .allocated readFd =>
      match s.unifiedPipeEndCreate process readFd ⟨pipe, true⟩ readPlace with
      | (.invalid, s) => (.emfile, (s.pipeEndClose ⟨pipe, true⟩).pipeEndClose ⟨pipe, false⟩)
      | (.full, s) => (.enfile, (s.pipeEndClose ⟨pipe, true⟩).pipeEndClose ⟨pipe, false⟩)
      | (.ok, s) => s.pipe2Write process readFd pipe writePlace cloexec fault

inductive UnifiedFdCloneResult
  | invalid
  | failed
  | ok

def cloneValid (parent fd : ℕ) (s : FdState) : Except Unit FdState :=
  match s.entryAt parent fd with
  | none => .error ()
  | some entry =>
    match s.shared.objects.find entry.handle with
    | none => .error ()
    | some object => if object.kind ≠ entry.kind ∨ object.refs = 0 then .error () else .ok s

def cloneCopy (parent child : ℕ) (fault : Option ℕ) (fd : ℕ) (progress : FdState × ℕ) :
    Except (FdState × ℕ) (FdState × ℕ) :=
  match progress.1.entryAt parent fd with
  | none => .error progress
  | some entry =>
    if fault = some progress.2 then .error progress
    else
      match progress.1.unifiedFdInstall child fd entry.handle with
      | (.ok, s) =>
        if entry.closeOnExec then
          match s.unifiedFdSetCloseOnExec child fd true with
          | (.invalid, s) => .error (s, progress.2 + 1)
          | (.ok, s) => .ok (s, progress.2 + 1)
        else .ok (s, progress.2 + 1)
      | (_, s) => .error (s, progress.2)

def unifiedFdCloneDetach (child installs : ℕ) : FdState :=
  match s.contexts.lookup child with
  | none => s
  | some ctx =>
    { s.setContext child { ctx with blocks := [] } with undos := ⟨ctx.blocks, installs⟩ :: s.undos }

def unifiedFdCloneRun (parent child : ℕ) (fault : Option ℕ) : UnifiedFdCloneResult × FdState :=
  if parent = child then (.invalid, s)
  else
    match s.contexts.lookup parent, s.contexts.lookup child with
    | some parentCtx, some childCtx =>
      if (s.unifiedFdNextOpen child 0).isSome then (.invalid, s)
      else
        match scan (·.unifiedFdNextOpen parent) (cloneValid parent) (parentCtx.entries.length + 1) 0 s with
        | .error _ => (.invalid, s)
        | .ok s =>
          let s := s.setContext child
            { childCtx with fdLimitSoft := parentCtx.fdLimitSoft, fdLimitHard := parentCtx.fdLimitHard }
          match scan (·.1.unifiedFdNextOpen parent) (cloneCopy parent child fault)
              (parentCtx.entries.length + 1) 0 (s, 0) with
          | .error (s, installs) => (.failed, s.unifiedFdCloneDetach child installs)
          | .ok (s, _) => (.ok, s)
    | _, _ => (.invalid, s)

def undoEntry (shared : Shared) (entry : FdEntry) : Shared :=
  if entry.kind ≠ .empty ∧ (shared.objects.find entry.handle).isSome then
    (shared.unifiedObjectRelease entry.handle).2
  else shared

def undoBlock (shared : Shared) (block : FdBlock) : Shared :=
  (block.slot.toList.foldl undoEntry shared).fdBlockFree

def unifiedFdCloneUndoFinish (index : ℕ) : FdState :=
  match s.undos[index]? with
  | none => s
  | some undo =>
    { s with
      shared := undo.blocks.foldl undoBlock s.shared
      undos := s.undos.eraseIdx index }

end FdState

inductive FdEvent
  | memory (room : ℕ)
  | contextEnsure (process : ℕ) (granted : Bool)
  | contextRelease (process : ℕ)
  | limitConfigure (process soft hard : ℕ)
  | fileOpen (process fd : ℕ) (place : Option ℕ)
  | directoryOpen (process fd : ℕ) (place : Option ℕ)
  | listenerCreate (process fd : ℕ) (place : Option ℕ)
  | connectionCreate (process fd : ℕ) (place : Option ℕ)
  | terminalStdioOpen (process : ℕ) (place : Option ℕ)
  | pipe2 (process : ℕ) (pipePlace readPlace writePlace : Option ℕ) (cloexec fault : Bool)
  | install (process fd : ℕ) (handle : Handle)
  | duplicate (process oldFd newFd : ℕ)
  | close (process fd : ℕ)
  | setCloseOnExec (process fd : ℕ) (value : Bool)
  | closeExec (process : ℕ)
  | clone (parent child : ℕ) (fault : Option ℕ)
  | undoFinish (index : ℕ)
  | destroy (process : ℕ)

def FdState.step (s : FdState) : FdEvent → FdState
  | .memory room => { s with shared := { s.shared with room } }
  | .contextEnsure process granted => s.unifiedFdContextEnsure process granted
  | .contextRelease process => s.unifiedFdContextRelease process
  | .limitConfigure process soft hard => (s.unifiedProcessFdLimitConfigure process soft hard).2
  | .fileOpen process fd place => (s.unifiedFileOpen process fd place).2
  | .directoryOpen process fd place => (s.unifiedDirectoryOpen process fd place).2
  | .listenerCreate process fd place => (s.unifiedListenerCreate process fd place).2
  | .connectionCreate process fd place => (s.unifiedConnectionCreate process fd place).2
  | .terminalStdioOpen process place => (s.unifiedTerminalStdioOpen process place).2
  | .pipe2 process pipePlace readPlace writePlace cloexec fault =>
    (s.syscallPipe2 process pipePlace readPlace writePlace cloexec fault).2
  | .install process fd handle => (s.unifiedFdInstall process fd handle).2
  | .duplicate process oldFd newFd => (s.unifiedFdDuplicate process oldFd newFd).2
  | .close process fd => (s.unifiedFdClose process fd).2
  | .setCloseOnExec process fd value => (s.unifiedFdSetCloseOnExec process fd value).2
  | .closeExec process => s.unifiedFdCloseExecDescriptors process
  | .clone parent child fault => (s.unifiedFdCloneRun parent child fault).2
  | .undoFinish index => s.unifiedFdCloneUndoFinish index
  | .destroy process => (s.unifiedFdDestroy process).2

def FdState.boot (pages : ℕ) : FdState where
  shared := ⟨.empty, .empty, fun _ => 0, 0, 0, 0, 0, 0⟩
  contexts := ∅
  undos := []
  pageAllocatorTotalCount := pages

end Takibi.Fd
