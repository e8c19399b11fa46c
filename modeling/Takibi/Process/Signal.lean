import Takibi.Process.State

/-! Signals and the waits they end: raising a signal, the last look before a wait is published, and the
syscalls that change masks, actions and the signals a process waits for. -/

namespace Takibi.Process
open Function

abbrev SignalSet := BitVec 64

def processSignalActions : ℕ := 31
def processSigkillBit : SignalSet := 256
def signalBit (index : ℕ) : SignalSet := 1#64 <<< index

inductive SignalDefault
  | terminate
  | ignore
  deriving DecidableEq, Repr

def signalDefaultAction (signum : ℕ) : SignalDefault :=
  if signum ∈ [17, 23, 28, 18, 19, 20, 21, 22] then .ignore else .terminate

inductive UartBlockDelivery
  | scalar
  | read
  deriving DecidableEq, Repr

inductive Control
  | user
  | blocking
  | suspendCall
  deriving DecidableEq, Repr

structure ProcessRecord where
  state : ProcessRecordState
  signalMask : SignalSet
  pendingSignals : SignalSet
  sigwaitSet : SignalSet
  sigwaitSuspend : Bool
  /-- 0 is the default action, 1 ignores, and anything else is a handler. -/
  handler : Fin processSignalActions → ℕ
  pendingBlockReason : ProcessWaitReason
  deadlineTicks : ℕ
  deadlineResult : ℕ
  uartBlockDelivery : UartBlockDelivery
  pipeWait : ℕ
  control : Control
  x0 : Option ℕ

section Record
variable (record : ProcessRecord)

def processSignalIgnored (index : Fin processSignalActions) : Bool :=
  if record.handler index = 1 then true
  else if record.handler index ≠ 0 then false
  else signalDefaultAction (index + 1) = .ignore

def processSignalTerminates (index : Fin processSignalActions) : Bool :=
  let bit := signalBit index
  if bit ≠ processSigkillBit ∧ record.signalMask &&& bit ≠ 0 then false
  else if record.handler index ≠ 0 then false
  else signalDefaultAction (index + 1) = .terminate

/-- The signal that interrupts a sleeping syscall: the lowest that is pending, caught and not masked. -/
def processSignalInterruptOf : Option (Fin processSignalActions) :=
  if record.sigwaitSuspend then none
  else
    let available := record.pendingSignals &&& ~~~record.signalMask
    (List.finRange processSignalActions).find? fun index =>
      available &&& signalBit index != 0 && record.handler index > 1

def scheduledProcessWaitSettle : ProcessRecord :=
  { record with state := record.state.settle, pendingBlockReason := .none }

def scheduledProcessWake : ProcessRecord := { scheduledProcessWaitSettle record with state := .ready }

/-- The last look before a wait publishes Blocked. `arrived` is the answer of the device, the child list or
the transmit queue for the reasons that have one. -/
def kernelProcessBlockWouldMiss (reason : ProcessWaitReason) (arrived : Bool) : Bool :=
  if reason ≠ .none ∧ (processSignalInterruptOf record).isSome then true
  else
    match reason with
    | .none => false
    | .uartRx => arrived
    | .uartTx => arrived
    | .childExit => arrived
    | .netRx => false
    | .pipe => record.pipeWait == 0
    | .deadline => false
    | .signal =>
      let terminating : SignalSet := signalBit 1 ||| signalBit 2 ||| signalBit 14
      let wanted := record.sigwaitSet ||| (terminating &&& ~~~record.signalMask)
      record.pendingSignals &&& wanted != 0

def wakeFatal : ProcessRecord := scheduledProcessWake { record with deadlineTicks := 0, deadlineResult := 0 }

variable (signum : ℕ)

def wakeSigwait (bit : SignalSet) : ProcessRecord :=
  let record :=
    if record.sigwaitSuspend then { record with sigwaitSuspend := false }
    else { record with x0 := some signum, pendingSignals := record.pendingSignals &&& ~~~bit }
  scheduledProcessWake { record with sigwaitSet := 0, deadlineTicks := 0, deadlineResult := 0 }

/-- A raise that interrupts another wait. The reason of a wait with a deadline is kept for the rerun. -/
def wakeInterrupted : ProcessRecord :=
  let reason := record.state.waitReason
  let woken := scheduledProcessWake record
  if reason = .deadline ∨ reason = .signal then { woken with pendingBlockReason := reason } else woken

def signalHandled : Bool :=
  if h : signum - 1 < processSignalActions then record.handler ⟨signum - 1, h⟩ > 1 else false

def signalTerminates : Bool :=
  if h : signum - 1 < processSignalActions then processSignalTerminates record ⟨signum - 1, h⟩ else false

def kernelProcessSignalDeliver : Option ProcessRecord :=
  if signum = 0 ∨ signum > 64 ∨ record.state = .free ∨ record.state = .exited ∨ record.state = .reaping then none
  else
    let bit := signalBit (signum - 1)
    let handled := signalHandled record signum
    let terminates := signalTerminates record signum
    let masked := decide (record.signalMask &&& bit ≠ 0 ∧ bit ≠ processSigkillBit)
    if masked = false ∧ handled = false ∧ terminates = false then some record
    else
      let record := { record with pendingSignals := record.pendingSignals ||| bit }
      if terminates ∧ record.state.kind = .blocked then some (wakeFatal record)
      else if record.state.kind = .blocked ∧ record.state.waitReason = .signal ∧ record.sigwaitSet &&& bit ≠ 0 then
        some (wakeSigwait record signum bit)
      else if handled ∧ masked = false ∧ (processSignalInterruptOf record).isSome ∧ record.state.kind = .blocked then
        some (wakeInterrupted record)
      else some record

/-- `kernel_process_current_signal_interrupt`: a caught signal abandons the wait that a syscall chose. -/
def kernelProcessCurrentSignalInterrupt : ProcessRecord :=
  if (processSignalInterruptOf record).isSome then
    { record with
      pendingBlockReason := .none
      deadlineTicks := 0
      deadlineResult := 0
      sigwaitSet := 0
      uartBlockDelivery := .scalar
      control := .user }
  else record

/-- SIGKILL and SIGSTOP cannot be blocked. -/
def setSignalMask (mask : SignalSet) : ProcessRecord :=
  { record with signalMask := mask &&& ~~~(signalBit 8 ||| signalBit 18) }

def blockRetry : ProcessRecord :=
  { record with
    pendingBlockReason := if record.pendingBlockReason = .childExit then .none else record.pendingBlockReason
    control := if record.sigwaitSuspend then .suspendCall else .user }

/-- `kernel_process_block_to_idle` and `kernel_process_block_reserved`: publish the wait, unless it would miss
its event. The commit of a successor's address space can be refused after that, which undoes it. -/
def kernelProcessBlock (arrived committed : Bool) : ProcessRecord :=
  let reason := record.pendingBlockReason
  if kernelProcessBlockWouldMiss record reason arrived then blockRetry record
  else
    let blocked := { record with
      state := .blocked reason
      control := if record.sigwaitSuspend then .suspendCall else .user }
    if committed then blocked else { scheduledProcessWake blocked with state := .running }

end Record

def spawned (mask : SignalSet) (handler : Fin processSignalActions → ℕ) : ProcessRecord where
  state := .constructing
  signalMask := mask
  pendingSignals := 0
  sigwaitSet := 0
  sigwaitSuspend := false
  handler := handler
  pendingBlockReason := .none
  deadlineTicks := 0
  deadlineResult := 0
  uartBlockDelivery := .scalar
  pipeWait := 0
  control := .user
  x0 := none

/-! ## Processes -/

inductive OwnStep
  | setMask (mask : SignalSet)
  | writeAction (index : Fin processSignalActions) (handler : ℕ)
  | discardIgnored (index : Fin processSignalActions)
  | clearPending (bits : SignalSet)
  | restore (index : Fin 64)
  | choose (reason : ProcessWaitReason) (uart : UartBlockDelivery) (pipe : ℕ)
  | chooseDeadline (reason : ProcessWaitReason) (ticks result : ℕ)
  | chooseTimedwait (set : SignalSet)
  | chooseSuspend (set : SignalSet)
  | endSuspend
  | interrupt
  | block (arrived committed : Bool)
  | retry
  | exit

def OwnStep.apply (record : ProcessRecord) : OwnStep → Option ProcessRecord
  | .setMask mask => if record.control = .user then some (setSignalMask record mask) else none
  | .writeAction index handler =>
    if record.control = .user then some { record with handler := update record.handler index handler }
    else none
  | .discardIgnored index =>
    if processSignalIgnored record index then
      some { record with pendingSignals := record.pendingSignals &&& ~~~signalBit index }
    else some record
  | .clearPending bits => some { record with pendingSignals := record.pendingSignals &&& ~~~bits }
  | .restore index => some { record with pendingSignals := record.pendingSignals ||| signalBit index }
  | .choose reason uart pipe =>
    if record.control = .user ∧ reason ≠ .none ∧ reason ≠ .signal then
      some { record with
        pendingBlockReason := reason
        uartBlockDelivery := uart
        pipeWait := pipe
        control := .blocking }
    else none
  | .chooseDeadline reason ticks result =>
    if record.control = .user ∧ (reason = .deadline ∨ reason = .uartRx) then
      some { record with
        pendingBlockReason := reason
        deadlineTicks := ticks
        deadlineResult := result
        control := .blocking }
    else none
  | .chooseTimedwait set =>
    if record.control = .user then
      some { record with sigwaitSet := set, pendingBlockReason := .signal, control := .blocking }
    else none
  | .chooseSuspend set =>
    if record.control ≠ .blocking then
      some { record with
        sigwaitSuspend := true
        sigwaitSet := set
        pendingBlockReason := .signal
        control := .blocking }
    else none
  | .endSuspend =>
    if record.control ≠ .blocking then some { record with sigwaitSuspend := false, control := .user } else none
  | .interrupt => if record.control = .blocking then some (kernelProcessCurrentSignalInterrupt record) else none
  | .block arrived committed =>
    if record.control = .blocking then some (kernelProcessBlock record arrived committed) else none
  | .retry => if record.control = .blocking then some (blockRetry record) else none
  | .exit => some { record with state := .exited }

inductive SignalEvent
  | spawn (slot : ℕ) (mask : SignalSet) (handler : Fin processSignalActions → ℕ)
  | publish (slot : ℕ)
  | send (slot signum : ℕ)
  | own (slot : ℕ) (step : OwnStep)
  | wake (slot : ℕ)
  | expire (slot : ℕ)
  | wakeKeepingWait4 (slot child : ℕ)
  | pipeWake (slot : ℕ)
  | start (slot : ℕ)
  | yield (slot : ℕ)
  | settle (slot : ℕ)
  | reap (slot : ℕ)
  | remove (slot : ℕ)

abbrev Processes := ℕ → ProcessRecord

variable (processes : Processes)

def stepSlot (slot : ℕ) (kind : ProcessSlotState) (f : ProcessRecord → Option ProcessRecord) :
    Option Processes :=
  if (processes slot).state.kind = kind then
    (f (processes slot)).map (update processes slot)
  else none

def SignalEvent.step : SignalEvent → Option Processes
  | .spawn slot mask handler => stepSlot processes slot .free fun _ => some (spawned mask handler)
  | .publish slot => stepSlot processes slot .constructing fun record => some { record with state := .ready }
  | .send slot signum => (kernelProcessSignalDeliver (processes slot) signum).map (update processes slot)
  | .own slot step => if (processes slot).state = .running then
      (step.apply (processes slot)).map (update processes slot) else none
  | .wake slot => stepSlot processes slot .blocked fun record => some (scheduledProcessWake record)
  | .expire slot => stepSlot processes slot .blocked fun record =>
    some { scheduledProcessWake record with deadlineTicks := 0, deadlineResult := 0, sigwaitSet := 0 }
  | .wakeKeepingWait4 slot child => stepSlot processes slot .blocked fun record =>
    if record.state.waitReason = .childExit then some { record with state := .readyWait4 child } else none
  | .pipeWake slot =>
    let record := { processes slot with pipeWait := 0 }
    if record.state.kind = .free ∨ record.state.kind = .constructing then none
    else if record.state = .blocked .pipe then some (update processes slot (scheduledProcessWake record))
    else some (update processes slot record)
  | .start slot => stepSlot processes slot .ready fun record => some { record with state := record.state.start }
  | .yield slot => stepSlot processes slot .running fun record => some { record with state := record.state.yield }
  | .settle slot =>
    if (processes slot).state.kind ≠ .blocked ∧ (processes slot).state.waitReason = .childExit then
      some (update processes slot (scheduledProcessWaitSettle (processes slot)))
    else none
  | .reap slot => stepSlot processes slot .exited fun record => some { record with state := .reaping }
  | .remove slot => stepSlot processes slot .reaping fun record => some { record with state := .free }

def runSignals (events : List SignalEvent) : Option Processes :=
  events.foldlM SignalEvent.step processes

def noProcesses : Processes := fun _ => { spawned 0 (fun _ => 0) with state := .free }

end Takibi.Process
