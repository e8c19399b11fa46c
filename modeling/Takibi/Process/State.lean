import Mathlib.Tactic

/-! A process record's scheduling state and what it waits for, as one value. -/

namespace Takibi.Process

inductive ProcessWaitReason
  | none
  | uartRx
  | childExit
  | netRx
  | deadline
  | signal
  | uartTx
  | pipe
  deriving DecidableEq, Repr

inductive ProcessSlotState
  | free
  | ready
  | running
  | blocked
  | exited
  | constructing
  | reaping
  deriving DecidableEq, Repr

inductive ProcessRecordState
  | free
  | ready
  | running
  | blocked (reason : ProcessWaitReason)
  | exited
  | constructing
  /-- A `wait4` parent that the exit of `child` woke and that no CPU has started. -/
  | readyWait4 (child : ℕ)
  | resuming (child : ℕ)
  | reaping
  deriving DecidableEq, Repr

namespace ProcessRecordState

def kind : ProcessRecordState → ProcessSlotState
  | free => .free
  | ready => .ready
  | running => .running
  | blocked _ => .blocked
  | exited => .exited
  | constructing => .constructing
  | readyWait4 _ => .ready
  | resuming _ => .running
  | reaping => .reaping

def waitReason : ProcessRecordState → ProcessWaitReason
  | blocked reason => reason
  | readyWait4 _ => .childExit
  | resuming _ => .childExit
  | _ => .none

def start : ProcessRecordState → ProcessRecordState
  | readyWait4 child => resuming child
  | _ => running

def yield : ProcessRecordState → ProcessRecordState
  | resuming child => readyWait4 child
  | _ => ready

def settle : ProcessRecordState → ProcessRecordState
  | readyWait4 _ => ready
  | resuming _ => running
  | blocked _ => blocked .none
  | state => state

end ProcessRecordState
end Takibi.Process
