import Takibi.Smp.Cores

/-! The world stop: one core asks the others to wait, in the interrupt handler that each of them takes
the request with, and the start of a core is reserved through the same gate. Every access of a shared
word is one step. -/

namespace Takibi.WorldStop
open Function

export Smp (kernelMaxCores Cpu)

def usizeMax : ℕ := 2 ^ 64 - 1

def worldStopClaimStop : ℕ := 1
def worldStopClaimStart : ℕ := 2

/-- PSCI INVALID_PARAMETERS: the core does not exist. -/
def statusAbsent : ℕ := 0xFFFFFFFFFFFFFFFE
def inMask (mask cpu : ℕ) : Bool := mask &&& (1 <<< cpu) ≠ 0

/-- Where a handler is in `world_stop_hold`: at its load of `requested`, at its load of `owner`, at
the store of its acknowledgement, in the waiting loop, and at the last store. -/
inductive Frame
  | entered
  | loaded (generation : ℕ)
  | checked (generation : ℕ)
  | waiting (generation : ℕ)
  | leaving (generation : ℕ)
  deriving DecidableEq, Repr

/-- Where a core is in `world_stop_begin`, `world_stop_machine_begin`, their releases,
`cpu_start_reserve` and `cpu_start_finish`: each case is at an access of a shared word, or has a token
in its hands. -/
inductive Task
  | idle
  | claimStop (cores spins : ℕ)
  | claimMachine (spins : ℕ)
  | capture (spins : ℕ)
  | advance (mask spins : ℕ)
  | nameOwner (mask generation spins : ℕ)
  | request (mask generation spins : ℕ)
  | scan (mask generation remaining cpu : ℕ) (complete : Bool) (stoppedMask : ℕ)
  | stopped (mask generation : ℕ)
  | stoppedSome (mask generation stoppedMask : ℕ)
  | kept (mask generation : ℕ)
  | withdraw (generation : ℕ)
  | claimStart (core : Cpu)
  | join (core : Cpu)
  | joined (core : Cpu) (mask : ℕ)
  | reserved (core : Cpu) (wasPresent : Bool)
  | leave (core : Cpu)
  | left (core : Cpu) (mask : ℕ)
  | free
  deriving DecidableEq, Repr

/-- `WorldStop`, with what runs on each core: its task, and over it the handlers that interrupted it,
the innermost first. `published` has the generations that were ever requested, the last first; no
code reads it. -/
structure World where
  claimed : ℕ
  owner : ℕ
  generation : ℕ
  requested : ℕ
  ack : Cpu → ℕ
  participants : ℕ
  tasks : Cpu → Task
  frames : Cpu → List Frame
  published : List ℕ

/-- What can happen: an interrupt; an access by what runs on a core, where `inTime` tells whether the
second of a machine stop's claim has not yet passed; and what a task that is idle or has a token does
next. -/
inductive Event
  | interrupt (cpu : Cpu)
  | run (cpu : Cpu) (inTime : Bool)
  | stop (cpu : Cpu) (cores spins : ℕ)
  | machineStop (cpu : Cpu) (spins : ℕ)
  | release (cpu : Cpu)
  | keepForever (cpu : Cpu)
  | reserve (cpu core : Cpu)
  | finish (cpu : Cpu) (status : ℕ)
  deriving DecidableEq, Repr

namespace World
variable (w : World) (cpu : Cpu)

def setTask (t : Task) : World := { w with tasks := update w.tasks cpu t }
def setFrames (frames : List Frame) : World := { w with frames := update w.frames cpu frames }
def setAck (value : ℕ) : World := { w with ack := update w.ack cpu value }

def handle (rest : List Frame) : Frame → World
  | .entered =>
    if w.requested = 0 then w.setFrames cpu rest
    else w.setFrames cpu (.loaded w.requested :: rest)
  | .loaded generation =>
    if w.owner = cpu.val + 1 then w.setFrames cpu rest
    else w.setFrames cpu (.checked generation :: rest)
  | .checked generation => (w.setAck cpu generation).setFrames cpu (.waiting generation :: rest)
  | .waiting generation =>
    if w.requested = generation then w
    else w.setFrames cpu (.leaving generation :: rest)
  | .leaving _ => (w.setAck cpu 0).setFrames cpu rest

/-- `world_stop_claim_as`: a compare-exchange of the gate from 0. -/
def claimAs (holder : ℕ) (acquired : Task) (refused : ℕ → Task) : World :=
  if w.claimed = 0 then { w.setTask cpu acquired with claimed := holder }
  else w.setTask cpu (refused w.claimed)

def endPass (mask generation remaining : ℕ) (complete : Bool) (stoppedMask : ℕ) : World :=
  if complete = false ∧ remaining ≠ 0 then
    w.setTask cpu (.scan mask generation (remaining - 1) 0 true 0)
  else if complete then w.setTask cpu (.stopped mask generation)
  else w.setTask cpu (.stoppedSome mask generation stoppedMask)

def look (mask generation remaining : ℕ) (i : Cpu) (complete : Bool) (stoppedMask : ℕ) : World :=
  if inMask mask i ∧ i ≠ cpu then
    if w.ack i ≠ generation then
      w.setTask cpu (.scan mask generation remaining (i.val + 1) false stoppedMask)
    else
      w.setTask cpu (.scan mask generation remaining (i.val + 1) complete (stoppedMask ||| (1 <<< i.val)))
  else w.setTask cpu (.scan mask generation remaining (i.val + 1) complete stoppedMask)

def perform (inTime : Bool) : Task → Option World
  | .claimStop cores spins =>
    some (w.claimAs cpu worldStopClaimStop (.advance ((1 <<< cores) - 1) spins) fun _ => .idle)
  | .claimMachine spins =>
    some (w.claimAs cpu worldStopClaimStop (.capture spins) fun current =>
      if current = worldStopClaimStart ∧ inTime then .claimMachine spins else .idle)
  | .capture spins =>
    let mask := w.participants ||| 1
    some (w.setTask cpu (if inMask mask cpu then .advance mask spins else .free))
  | .advance mask spins =>
    if w.generation = usizeMax then some (w.setTask cpu .free)
    else
      some { w.setTask cpu (.nameOwner mask (w.generation + 1) spins) with
        generation := w.generation + 1 }
  | .nameOwner mask generation spins =>
    some { w.setTask cpu (.request mask generation spins) with owner := cpu.val + 1 }
  | .request mask generation spins =>
    some { w.setTask cpu (.scan mask generation spins kernelMaxCores false 0) with
      requested := generation
      published := generation :: w.published }
  | .scan mask generation remaining i complete stoppedMask =>
    if hi : i < kernelMaxCores then some (w.look cpu mask generation remaining ⟨i, hi⟩ complete stoppedMask)
    else some (w.endPass cpu mask generation remaining complete stoppedMask)
  | .withdraw _ => some { w.setTask cpu .free with requested := 0 }
  | .claimStart core => some (w.claimAs cpu worldStopClaimStart (.join core) fun _ => .idle)
  | .join core => some (w.setTask cpu (.joined core (w.participants ||| 1)))
  | .joined core mask =>
    some { w.setTask cpu (.reserved core (inMask mask core)) with
      participants := mask ||| (1 <<< core.val) }
  | .leave core => some (w.setTask cpu (.left core w.participants))
  | .left core mask =>
    some { w.setTask cpu .free with participants := mask &&& (usizeMax ^^^ (1 <<< core.val)) }
  | .free => some { w.setTask cpu .idle with claimed := 0 }
  | _ => none

def run (inTime : Bool) : Option World :=
  match w.frames cpu with
  | frame :: rest => some (w.handle cpu rest frame)
  | [] => w.perform cpu inTime (w.tasks cpu)

def decide (f : Task → Option Task) : Option World :=
  if w.frames cpu = [] then (f (w.tasks cpu)).map (w.setTask cpu) else none

def step : Event → Option World
  | .interrupt cpu => some (w.setFrames cpu (.entered :: w.frames cpu))
  | .run cpu inTime => w.run cpu inTime
  | .stop cpu cores spins =>
    w.decide cpu fun
      | .idle =>
        if cores = 0 ∨ cores > kernelMaxCores ∨ cpu.val ≥ cores then some .idle
        else some (.claimStop cores spins)
      | _ => none
  | .machineStop cpu spins =>
    w.decide cpu fun
      | .idle => some (.claimMachine spins)
      | _ => none
  | .release cpu =>
    w.decide cpu fun
      | .stopped _ generation | .stoppedSome _ generation _ => some (.withdraw generation)
      | _ => none
  | .keepForever cpu =>
    w.decide cpu fun
      | .stopped mask generation => some (.kept mask generation)
      | _ => none
  | .reserve cpu core =>
    w.decide cpu fun
      | .idle => if core.val = 0 ∨ cpu.val ≠ 0 then some .idle else some (.claimStart core)
      | _ => none
  | .finish cpu status =>
    w.decide cpu fun
      | .reserved core wasPresent =>
        if status = statusAbsent ∧ wasPresent = false then some (.leave core) else some .free
      | _ => none

def initial : World where
  claimed := 0
  owner := 0
  generation := 0
  requested := 0
  ack _ := 0
  participants := 0
  tasks _ := .idle
  frames _ := []
  published := []

end World
end Takibi.WorldStop
