import Takibi.WorldStop.Model

/-! Address space identifiers: numbers are handed out from a counter, and a rollover takes all of them
back at once. A core may refill its TLB at any time with the pair of number and root that it has in
TTBR0. -/

namespace Takibi.Mm
open Function

export Smp (Cpu)

/-- What the allocator knows of a root; a generation of 0 is one that never had a number. -/
structure Backing where
  live : Bool
  asid : ℕ
  generation : ℕ
  deriving DecidableEq, Repr

structure AsidState where
  next : ℕ
  generation : ℕ
  rolloverCount : ℕ
  deriving DecidableEq, Repr

/-- Where a core is in an activation: after its preparation, or before the write of TTBR0 with what it
has read. -/
inductive Activity
  | idle
  | prepared (root : ℕ)
  | installing (asid root : ℕ)
  deriving DecidableEq, Repr

structure Core where
  installed : ℕ × ℕ
  tlb : List (ℕ × ℕ)
  activity : Activity
  deriving DecidableEq, Repr

structure Machine where
  asid : AsidState
  backing : ℕ → Backing
  cores : Cpu → Core

inductive Event
  | fill (cpu : Cpu)
  | prepare (cpu : Cpu) (root : ℕ)
  | rollover
  | check (cpu : Cpu)
  | cancel (cpu : Cpu)
  | activate (cpu : Cpu) (root : ℕ)
  | install (cpu : Cpu)
  | clear (root : ℕ)
  deriving DecidableEq, Repr

namespace Machine
variable (m : Machine) (asidLast : ℕ) (cpu : Cpu)

def setCore (core : Core) : Machine := { m with cores := update m.cores cpu core }

def setActivity (activity : Activity) : Machine :=
  m.setCore cpu { m.cores cpu with activity := activity }

def flush (f : ℕ × ℕ → Bool) : Machine :=
  { m with cores := fun cpu => { m.cores cpu with tlb := (m.cores cpu).tlb.filter f } }

variable (root : ℕ)

def generationIsCurrent : Bool :=
  (m.backing root).generation ≠ 0 && (m.backing root).generation = m.asid.generation

def asidRollover : Machine :=
  { m.flush fun _ => false with
    asid := ⟨2, m.asid.generation + 1, m.asid.rolloverCount + 1⟩ }

def assign : Machine :=
  { m with
    asid := { m.asid with next := m.asid.next + 1 }
    backing := update m.backing root
      { m.backing root with asid := m.asid.next, generation := m.asid.generation } }

/-- `asid_rollover_stopped`, with every other core in its holding pen. -/
def asidRolloverStopped : Machine := if m.asid.next > asidLast then m.asidRollover else m
def needsAsid : Bool := root ≠ 0 && !m.generationIsCurrent root

/-- `address_space_prepare_activation`: it leaves the core idle where the root is not live, and where
a rollover is needed. -/
def prepareActivation : Machine :=
  if (m.backing root).live = false then m
  else if m.needsAsid root then
    if m.asid.next > asidLast then m
    else (m.assign root).setActivity cpu (.prepared root)
  else m.setActivity cpu (.prepared root)

def checkActivation : Machine :=
  if (m.backing root).live = false then m.setActivity cpu .idle
  else if m.needsAsid root then m.setActivity cpu .idle
  else m.setActivity cpu (.installing (m.backing root).asid root)

/-- `address_space_refresh_asid`: `asid_assign` rolls over by itself. -/
def refreshAsid : Machine :=
  if m.needsAsid root then (m.asidRolloverStopped asidLast).assign root else m

/-- `address_space_activate_root` up to its write of TTBR0; it falls back on root 0. -/
def activateRoot : Machine :=
  if (m.backing root).live then
    let m' := m.refreshAsid asidLast root
    m'.setActivity cpu (.installing (m'.backing root).asid root)
  else m.setActivity cpu (.installing (m.backing 0).asid 0)

def step : Event → Option Machine
  | .fill cpu =>
    some (m.setCore cpu { m.cores cpu with tlb := (m.cores cpu).installed :: (m.cores cpu).tlb })
  | .prepare cpu root =>
    if (m.cores cpu).activity = .idle then some (m.prepareActivation asidLast cpu root) else none
  | .rollover => some (m.asidRolloverStopped asidLast)
  | .check cpu =>
    match (m.cores cpu).activity with
    | .prepared root => some (m.checkActivation cpu root)
    | _ => none
  | .cancel cpu =>
    match (m.cores cpu).activity with
    | .prepared _ => some (m.setActivity cpu .idle)
    | _ => none
  | .activate cpu root =>
    if (m.cores cpu).activity = .idle then some (m.activateRoot asidLast cpu root) else none
  | .install cpu =>
    match (m.cores cpu).activity with
    | .installing asid root =>
      some (m.setCore cpu { m.cores cpu with installed := (asid, root), activity := .idle })
    | _ => none
  | .clear root =>
    some (if (m.backing root).live && (m.backing root).asid ≠ 0 then
      m.flush fun pair => pair.1 ≠ (m.backing root).asid else m)

def runs : List Event → Machine → Option Machine
  | [], m => some m
  | e :: es, m => (m.step asidLast e).bind (runs es)

def initial (live : ℕ → Bool) : Machine where
  asid := ⟨2, 1, 0⟩
  backing root := if root = 0 then ⟨true, 1, 1⟩ else ⟨live root, 0, 0⟩
  cores _ := ⟨(1, 0), [], .idle⟩

/-! ## What is asked of it -/

/-- No core runs a root under a number for which its TLB has an entry of another live root. -/
def Isolated (m : Machine) : Prop :=
  ∀ cpu, ∀ pair ∈ (m.cores cpu).tlb, (m.backing pair.2).live = true →
    (m.cores cpu).installed.1 = pair.1 → (m.cores cpu).installed.2 = pair.2

def rolls (e : Event) : Bool :=
  match e with
  | .rollover => m.asid.next > asidLast
  | .activate _ root => (m.backing root).live && m.needsAsid root && decide (m.asid.next > asidLast)
  | _ => false

def coreQuiet (core : Core) : Bool :=
  core.installed.2 = 0 &&
    match core.activity with
    | .installing _ root => root = 0
    | _ => true

def Quiet (m : Machine) : Prop := ∀ cpu, coreQuiet (m.cores cpu) = true

instance (m : Machine) : Decidable m.Quiet := inferInstanceAs (Decidable (∀ _, _))

def quietRun : List Event → Machine → Bool
  | [], _ => true
  | e :: es, m => (!m.rolls asidLast e || m.Quiet) && ((m.step asidLast e).elim true (quietRun es))

end Machine
end Takibi.Mm
