import Takibi.Smp.Cores

/-! The console owner: one word says who has the console beyond ordinary queued output. It is
taken and given back by bounded loops of compare-exchanges, on several cores at once. -/

namespace Takibi.Printk
open Function

export Smp (Cpu)

inductive Priority
  | emergency
  | debugger
  | panic
  deriving DecidableEq, Repr

def Priority.value : Priority → ℕ
  | emergency => 1
  | debugger => 2
  | panic => 3

def ownerMask : ℕ := 0xFFFF
def terminalBit : ℕ := 0x10000
def takeAttempts : ℕ := 16
def ownerWord (cpu : Cpu) (priority : ℕ) : ℕ := (priority <<< 8) ||| ((cpu.val &&& 0xFF) + 1)

/-- Every priority but the debugger's is a path that never gives the console back. -/
def Priority.terminal : Priority → ℕ
  | debugger => 0
  | _ => terminalBit

inductive StandDown
  | took (found : ℕ)
  | outranked
  deriving DecidableEq, Repr

inductive Attempt
  | done (result : StandDown)
  | swap (desired : ℕ) (result : StandDown)
  deriving DecidableEq, Repr

def takeOwner (cpu : Cpu) (p : Priority) (current : ℕ) : Attempt :=
  let mine := ownerWord cpu p.value
  let sticky := (current &&& terminalBit) ||| p.terminal
  if (current >>> 8) &&& 0xFF ≥ p.value then
    if current ||| sticky = current then .done .outranked
    else .swap (current ||| sticky) .outranked
  else .swap (sticky ||| mine) (.took (current &&& ownerMask))

/-- The word that a resume tries to swap in; `none` where the owner is another. -/
def restored (cpu : Cpu) (found current : ℕ) : Option ℕ :=
  if current &&& ownerMask ≠ ownerWord cpu Priority.debugger.value then none
  else some ((current &&& terminalBit) ||| found)

/-- A call in progress: how many exchanges failed, and the word that was loaded last. -/
inductive Call
  | idle
  | claim (p : Priority) (failed : ℕ) (loaded : Option ℕ)
  | resume (found failed : ℕ) (loaded : Option ℕ)
  deriving DecidableEq, Repr

/-- A core: its call, and the token of the DDB session that it is in. `changes` counts how often
the word was changed since the call began, and `epoch` tells in which life of the console the token
was taken; no code reads them. -/
structure Core where
  call : Call
  session : Option StandDown
  changes : ℕ
  epoch : ℕ
  deriving DecidableEq, Repr

/-- `epoch` counts re-initialisations, and `entered` tells whether a claim of a path that never
returns has ended since the last one. -/
structure Console where
  owner : ℕ
  armed : ℕ
  cores : Cpu → Core
  epoch : ℕ
  entered : Bool

def Console.isLive (s : Console) : Bool := s.armed ≠ 0 && s.owner = 0

inductive Event
  | claim (cpu : Cpu) (p : Priority)
  | resume (cpu : Cpu)
  | load (cpu : Cpu)
  | exchange (cpu : Cpu)
  | activate
  | resetArmed
  | resetOwner
  deriving DecidableEq, Repr

namespace Console
variable (s : Console) (cpu : Cpu)

def setCore (core : Core) : Console := { s with cores := update s.cores cpu core }

def write (desired : ℕ) : Console :=
  { s with
    owner := desired
    cores := fun cpu =>
      if desired = s.owner then s.cores cpu
      else { s.cores cpu with changes := (s.cores cpu).changes + 1 } }

def finishClaim (p : Priority) (result : StandDown) : Console :=
  let core := { s.cores cpu with call := .idle }
  match p with
  | .debugger => s.setCore cpu { core with session := some result, epoch := s.epoch }
  | _ => { s.setCore cpu core with entered := true }

def finishResume : Console :=
  s.setCore cpu { s.cores cpu with call := .idle, session := none }

def beginCall (call : Call) : Console :=
  s.setCore cpu { s.cores cpu with call := call, changes := 0 }

def retryClaim (p : Priority) (failed : ℕ) : Console :=
  if failed + 1 < takeAttempts then
    s.setCore cpu { s.cores cpu with call := .claim p (failed + 1) none }
  else s.finishClaim cpu p .outranked

def retryResume (found failed : ℕ) : Console :=
  if failed + 1 < takeAttempts then
    s.setCore cpu { s.cores cpu with call := .resume found (failed + 1) none }
  else s.finishResume cpu

def load : Option Console :=
  match (s.cores cpu).call with
  | .claim p failed none =>
    match takeOwner cpu p s.owner with
    | .done result => some (s.finishClaim cpu p result)
    | .swap _ _ => some (s.setCore cpu { s.cores cpu with call := .claim p failed (some s.owner) })
  | .resume found failed none =>
    match restored cpu found s.owner with
    | none => some (s.finishResume cpu)
    | some _ => some (s.setCore cpu { s.cores cpu with call := .resume found failed (some s.owner) })
  | _ => none

def exchange : Option Console :=
  match (s.cores cpu).call with
  | .claim p failed (some loaded) =>
    match takeOwner cpu p loaded with
    | .done _ => none
    | .swap desired result =>
      if s.owner = loaded then some ((s.write desired).finishClaim cpu p result)
      else some (s.retryClaim cpu p failed)
  | .resume found failed (some loaded) =>
    match restored cpu found loaded with
    | none => none
    | some desired =>
      if s.owner = loaded then some ((s.write desired).finishResume cpu)
      else some (s.retryResume cpu found failed)
  | _ => none

/-- A core in a DDB session does not open another; it may enter a path that never returns. -/
def step : Event → Option Console
  | .claim cpu p =>
    if (s.cores cpu).call = .idle ∧ (p = .debugger → (s.cores cpu).session = none) then
      some (s.beginCall cpu (.claim p 0 none))
    else none
  | .resume cpu =>
    match (s.cores cpu).call, (s.cores cpu).session with
    | .idle, some (.took found) => some (s.beginCall cpu (.resume found 0 none))
    | .idle, some .outranked => some (s.finishResume cpu)
    | _, _ => none
  | .load cpu => s.load cpu
  | .exchange cpu => s.exchange cpu
  | .activate => some { s with armed := 1 }
  | .resetArmed => some { s with armed := 0 }
  | .resetOwner => some { s.write 0 with epoch := s.epoch + 1, entered := false }

def run : List Event → Console → Option Console
  | [], s => some s
  | e :: es, s => (s.step e).bind (run es)

def initial : Console where
  owner := 0
  armed := 0
  cores _ := ⟨.idle, none, 0, 0⟩
  epoch := 0
  entered := false

end Console
end Takibi.Printk
