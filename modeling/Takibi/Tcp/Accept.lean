import Takibi.Tcp.Connection

/-! The accept handshake of a listening connection: the accept step takes segments itself, and receives of
other processes route segments to it. -/

namespace Takibi.Tcp
variable (conn : TcpConnection)

def acceptBegin (port : Port) (now counterFrequency : ℤ) : TcpConnection :=
  { conn with
    state := .listen
    localPort := port
    acceptStartAt := now
    acceptDeadlineTicks := counterFrequency * 30
    acceptRetryTicks := counterFrequency / 5
    acceptSynAckSentAt := now
    acceptSynAckRetries := 0 }

structure AcceptClock where
  syn : ℤ
  retry : ℤ
  finish : ℤ

structure SynAckTimer where
  sentAt : ℤ
  retries : ℕ
  deriving DecidableEq

inductive AcceptTaken
  | syn
  | reset
  | completed
  deriving DecidableEq, Repr

def acceptCompleted (seg : Segment) : TcpConnection :=
  let conn := { conn with state := .established }
  if seg.header.tcpHdrLen = 20 ∧ seg.header.tcpLen > 20 then
    let payloadLength := seg.header.tcpLen - 20
    if payloadLength ≥ 1 ∧ payloadLength ≤ 1460 then
      match conn.frameFill (seg.body.take payloadLength) with
      | none => conn
      | some conn => conn.recordPayload payloadLength
    else conn
  else conn

variable (timer : SynAckTimer)

/-- A segment that the accept step handles itself, `none` if it is another connection's. -/
def acceptSegment (seg : Segment) (isn : Seq) (now : ℤ) :
    Option (TcpConnection × SynAckTimer × AcceptTaken) :=
  if seg.header.dstPort ≠ conn.localPort then none
  else if conn.state = .listen ∧ seg.syn then
    let conn := { conn with
      remoteIp := seg.source
      remotePort := seg.header.srcPort
      rcvNxt := seg.header.seq + 1
      sndNxt := isn + 1
      state := .synRcvd }
    some (conn, ⟨now, 0⟩, .syn)
  else if conn.state = .synRcvd ∧ seg.header.srcPort = conn.remotePort ∧ seg.source = conn.remoteIp ∧ seg.rst then
    some ({ conn with state := .listen }, { timer with retries := 0 }, .reset)
  else if (seg.header.srcPort = conn.remotePort ∧ seg.source = conn.remoteIp) ∧
      tcpAckCompletesHandshake conn.state timer.retries conn.sndNxt conn.rcvNxt seg.header then
    some (acceptCompleted conn seg, timer, .completed)
  else none

/-- The retransmission of the SYN-ACK, giving up after the limit and backing off after that. -/
def acceptTimer (now : ℤ) : TcpConnection × SynAckTimer :=
  if conn.state = .synRcvd ∧ timer.retries < tcpRetryLimit ∧ now - timer.sentAt ≥ conn.acceptRetryTicks then
    (conn, ⟨now, timer.retries + 1⟩)
  else if conn.state = .synRcvd ∧ timer.retries = tcpRetryLimit ∧ now - timer.sentAt ≥ conn.acceptRetryTicks then
    ({ conn with state := .listen }, { timer with retries := tcpAcceptAbandoned })
  else if conn.state = .listen ∧ timer.retries ≥ tcpAcceptAbandoned ∧ timer.retries < tcpAcceptAbandonedLast then
    let backoff := if timer.retries > tcpAcceptAbandoned then conn.acceptRetryTicks * 4 else conn.acceptRetryTicks * 2
    if now - timer.sentAt ≥ backoff then (conn, ⟨now, timer.retries + 1⟩) else (conn, timer)
  else (conn, timer)

inductive KernelTcpAcceptStep
  | pending
  | accepted
  | gaveUp
  deriving DecidableEq, Repr

structure AcceptOutcome where
  conn : TcpConnection
  entries : List Entry
  result : KernelTcpAcceptStep
  taken : Option AcceptTaken

def acceptFinish (entries : List Entry) (clock : AcceptClock) (taken : Option AcceptTaken) : AcceptOutcome :=
  let (conn, timer) := acceptTimer conn timer clock.retry
  let conn := { conn with acceptSynAckSentAt := timer.sentAt, acceptSynAckRetries := timer.retries }
  let late := clock.finish - conn.acceptStartAt ≥ conn.acceptDeadlineTicks
  ⟨conn, entries, if late then .gaveUp else .pending, taken⟩

/-- `tx` says whether the connection's Tx frame is in its place; without it, no received frame is taken. -/
def kernelTcpAcceptStep (current : ℕ) (conn : TcpConnection) (entries : List Entry) (tx : Bool)
    (frame : Option Segment) (isn : Seq) (clock : AcceptClock) : AcceptOutcome :=
  if conn.state = .established then ⟨conn, entries, .accepted, none⟩
  else if tx = false then ⟨conn, entries, .gaveUp, none⟩
  else
    let timer : SynAckTimer := ⟨conn.acceptSynAckSentAt, conn.acceptSynAckRetries⟩
    match frame with
    | none => acceptFinish conn timer entries clock none
    | some seg =>
      match acceptSegment conn timer seg isn clock.syn with
      | some (conn, _, .completed) => ⟨conn, entries, .accepted, some .completed⟩
      | some (conn, timer, taken) => acceptFinish conn timer entries clock (some taken)
      | none =>
        match tcpRouteReceivedSegment current seg entries with
        | (entries, .noReceiver) => acceptFinish conn timer entries clock none
        | (entries, _) => ⟨conn, entries, .pending, none⟩

/-! ## The listening connection among the others -/

/-- The SYN that was answered last, with the sequence number of its SYN-ACK. -/
structure Answered where
  ip : Ip
  port : Port
  seq : Seq
  isn : Seq
  deriving DecidableEq

/-- The connection of an accept, between the connections the walk meets before and after it. -/
structure Listening where
  address : ℕ
  conn : TcpConnection
  busy : Bool
  live : Bool
  before : List Entry
  after : List Entry
  answered : Option Answered

inductive ListenEvent
  | accept (frame : Option Segment) (isn : Seq) (clock : AcceptClock)
  | acceptFrameMissing
  | park
  | other (current : ℕ) (seg : Segment)
  | change (before after : List Entry)

def ListenEvent.segment : ListenEvent → Option Segment
  | .accept frame _ _ => frame
  | .other _ seg => some seg
  | _ => none

def answeredAfter (answered : Option Answered) (frame : Option Segment) (isn : Seq) :
    Option AcceptTaken → Option Answered
  | some .syn => frame.map fun seg => ⟨seg.source, seg.header.srcPort, seg.header.seq, isn⟩
  | some .reset => none
  | _ => answered

def Listening.accept (s : Listening) (tx : Bool) (frame : Option Segment) (isn : Seq) (clock : AcceptClock) :
    Option Listening :=
  if s.busy ∨ ¬s.live then none
  else
    let out := kernelTcpAcceptStep s.address s.conn (s.before ++ s.after) tx frame isn clock
    some { s with
      conn := out.conn
      busy := true
      live := out.result != .gaveUp
      before := out.entries.take s.before.length
      after := out.entries.drop s.before.length
      answered := answeredAfter s.answered frame isn out.taken }

def Listening.step (s : Listening) : ListenEvent → Option Listening
  | .accept frame isn clock => s.accept true frame isn clock
  | .acceptFrameMissing => s.accept false none 0 ⟨0, 0, 0⟩
  | .park => some { s with busy := false }
  | .other current seg =>
    if current = s.address ∨ ¬s.live then none
    else
      let entries := (tcpRouteReceivedSegment current seg
        (s.before ++ ⟨s.address, s.busy, s.conn⟩ :: s.after)).1
      some { s with
        conn := (entries[s.before.length]?).elim s.conn Entry.conn
        before := entries.take s.before.length
        after := entries.drop (s.before.length + 1) }
  | .change before after => some { s with before, after }

def Listening.run (s : Listening) (events : List ListenEvent) : Option Listening := events.foldlM Listening.step s

def listeningAt (address : ℕ) (conn : TcpConnection) (port : Port) (now counterFrequency : ℤ)
    (before after : List Entry) : Listening :=
  ⟨address, acceptBegin conn port now counterFrequency, false, true, before, after, none⟩

end Takibi.Tcp
