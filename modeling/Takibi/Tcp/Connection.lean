import Mathlib.Tactic

/-! TCP connections: what a received segment does to the connection it is for, when the connection's own
reader takes it and when the receive of another process does. -/

namespace Takibi.Tcp

abbrev Seq := BitVec 32
abbrev Port := BitVec 16
abbrev Ip := BitVec 32
abbrev Bytes := List UInt8

def tcpFlagFin : BitVec 8 := 0x01
def tcpFlagSyn : BitVec 8 := 0x02
def tcpFlagRst : BitVec 8 := 0x04
def tcpFlagAck : BitVec 8 := 0x10

def tcpRetryLimit : ℕ := 3
def tcpAcceptAbandoned : ℕ := tcpRetryLimit + 1
def tcpAcceptAbandonedRetx : ℕ := 2
def tcpAcceptAbandonedLast : ℕ := tcpAcceptAbandoned + tcpAcceptAbandonedRetx

structure TcpSegmentHeader where
  tcpLen : ℕ
  tcpHdrLen : ℕ
  srcPort : Port
  dstPort : Port
  flags : BitVec 8
  seq : Seq
  ack : Seq
  deriving DecidableEq, Repr

def TcpSegmentHeader.has (header : TcpSegmentHeader) (mask : BitVec 8) : Bool := header.flags &&& mask != 0

/-- A segment that passed `tcp_parse_segment`. `body` is the frame from byte 54 on: the payload, if the
header has no options. -/
structure Segment where
  source : Ip
  header : TcpSegmentHeader
  body : Bytes
  hdr_min : 20 ≤ header.tcpHdrLen
  hdr_le : header.tcpHdrLen ≤ header.tcpLen
  len_le : header.tcpLen ≤ 1480
  body_length : body.length = header.tcpLen - 20
  deriving DecidableEq

namespace Segment
variable (seg : Segment)

def payloadLength : ℕ := seg.header.tcpLen - seg.header.tcpHdrLen

def fin : Bool := seg.header.has tcpFlagFin
def syn : Bool := seg.header.has tcpFlagSyn
def rst : Bool := seg.header.has tcpFlagRst
def ack : Bool := seg.header.has tcpFlagAck

lemma payloadLength_le : seg.payloadLength ≤ 1460 := by
  have hmin := seg.hdr_min
  have hlen := seg.len_le
  rw [payloadLength]
  omega

end Segment

inductive ConnState
  | listen
  | synRcvd
  | established
  | lastAck
  deriving DecidableEq, Repr

structure TcpConnection where
  state : ConnState
  remoteIp : Ip
  remotePort : Port
  localPort : Port
  sndNxt : Seq
  rcvNxt : Seq
  receivedLength : ℕ
  connectionOpen : Bool
  peerFin : Bool
  peerReset : Bool
  resetErrorPending : Bool
  socketBufferLength : ℕ
  socketBufferOffset : ℕ
  acceptStartAt : ℤ
  acceptDeadlineTicks : ℤ
  acceptRetryTicks : ℤ
  acceptSynAckSentAt : ℤ
  acceptSynAckRetries : ℕ
  rx : Bytes
  deriving DecidableEq

/-- Whether the segment is the final ACK of the connection's pending accept handshake, one in `synRcvd` or
one that was abandoned but is remembered. -/
def tcpAckCompletesHandshake (state : ConnState) (retries : ℕ) (sndNxt rcvNxt : Seq)
    (header : TcpSegmentHeader) : Bool :=
  if state ≠ .synRcvd ∧ (state ≠ .listen ∨ retries < tcpAcceptAbandoned) then false
  else if header.has tcpFlagAck = false then false
  else if header.has (tcpFlagSyn ||| tcpFlagRst) then false
  else if header.ack ≠ sndNxt then false
  else header.seq == rcvNxt

namespace TcpConnection
variable (conn : TcpConnection)

def tupleMatches (seg : Segment) : Bool :=
  conn.remotePort == seg.header.srcPort && conn.localPort == seg.header.dstPort && seg.source == conn.remoteIp

def peerOpen : Bool := conn.peerFin == false && conn.peerReset == false
def buffered : Bytes := (conn.rx.take conn.socketBufferLength).drop conn.socketBufferOffset

def copyRx (source : Bytes) : TcpConnection :=
  { conn with rx := source ++ conn.rx.drop source.length }

def frameFill (source : Bytes) : Option TcpConnection :=
  if source.length > 1514 then none else some (conn.copyRx source)

def recordPayload (length : ℕ) : TcpConnection :=
  { conn with
    rcvNxt := conn.rcvNxt + BitVec.ofNat 32 length
    receivedLength := length
    socketBufferLength := length
    socketBufferOffset := 0 }

def takeFin : TcpConnection := { conn with rcvNxt := conn.rcvNxt + 1, peerFin := true }

def takeReset : TcpConnection :=
  { conn with
    peerReset := true
    resetErrorPending := if conn.peerFin = false then true else conn.resetErrorPending }

end TcpConnection

/-! ## A segment taken by another process -/

inductive TcpReceiveRouteResult
  | noReceiver
  | routed
  | ack
  deriving DecidableEq, Repr

/-- What a routed segment does to one connection of the walk, `none` if the walk goes on. -/
def routeToTarget (seg : Segment) (target : TcpConnection) : Option (TcpConnection × TcpReceiveRouteResult) :=
  let payload := seg.body.take seg.payloadLength
  if target.tupleMatches seg && tcpAckCompletesHandshake target.state target.acceptSynAckRetries
      target.sndNxt target.rcvNxt seg.header then
    let target := { target with state := .established }
    if seg.payloadLength > 0 then
      match target.frameFill payload with
      | none => some (target, .ack)
      | some target => some (target.recordPayload seg.payloadLength, .ack)
    else some (target, .routed)
  else if target.tupleMatches seg && target.state = .established && target.connectionOpen && target.peerOpen then
    if seg.payloadLength = 0 then
      if seg.header.seq = target.rcvNxt then
        if seg.rst then some (target.takeReset, .routed)
        else if seg.fin then some (target.takeFin, .ack)
        else none
      else none
    else
      let occupied := target.socketBufferOffset < target.socketBufferLength
      if seg.header.seq ≠ target.rcvNxt ∨ occupied then some (target, .ack)
      else
        match target.frameFill payload with
        | none => some (target, .routed)
        | some target =>
          let target := target.recordPayload seg.payloadLength
          if seg.fin then some (target.takeFin, .ack) else some (target, .routed)
  else none

/-- A live connection of the pool. Its owner may be held by another process. -/
structure Entry where
  address : ℕ
  busy : Bool
  conn : TcpConnection
  deriving DecidableEq

def routeWalk (current : ℕ) (seg : Segment) : List Entry → List Entry × TcpReceiveRouteResult
  | [] => ([], .noReceiver)
  | entry :: entries =>
    let next : List Entry × TcpReceiveRouteResult :=
      let (rest, result) := routeWalk current seg entries
      (entry :: rest, result)
    if entry.address = current ∨ entry.busy then next
    else
      match routeToTarget seg entry.conn with
      | none => next
      | some (conn, result) => ({ entry with conn } :: entries, result)

def tcpRouteReceivedSegment (current : ℕ) (seg : Segment) (entries : List Entry) :
    List Entry × TcpReceiveRouteResult :=
  if seg.header.tcpHdrLen ≠ 20 ∨ seg.ack = false then (entries, .noReceiver)
  else if seg.payloadLength > 1460 then (entries, .noReceiver)
  else routeWalk current seg entries

/-! ## A segment taken by the connection's own reader -/

inductive TcpReceiveDisposition
  | protocolDrop
  | ackOnly
  | payload (length : ℕ) (fin : Bool)
  | peerReset
  | peerFinAck
  /-- Not the reader's: it is routed. -/
  | elsewhere
  deriving DecidableEq, Repr

def receiveDisposition (conn : TcpConnection) (seg : Segment) : TcpConnection × TcpReceiveDisposition :=
  let matchesCurrent := conn.tupleMatches seg
  if matchesCurrent && seg.rst then
    if seg.header.seq = conn.rcvNxt ∧ conn.peerOpen then (conn.takeReset, .peerReset)
    else (conn, .protocolDrop)
  else if matchesCurrent && conn.peerOpen && seg.fin && seg.header.tcpLen == seg.header.tcpHdrLen &&
      seg.header.seq == conn.rcvNxt then (conn.takeFin, .peerFinAck)
  else if matchesCurrent && conn.peerFin && seg.fin && seg.header.seq + 1 == conn.rcvNxt then (conn, .ackOnly)
  else if matchesCurrent && conn.peerOpen && seg.ack && seg.header.tcpHdrLen == 20 &&
      seg.header.tcpLen > 20 then
    let payloadLength := seg.header.tcpLen - 20
    if seg.header.seq ≠ conn.rcvNxt then (conn, .ackOnly)
    else if payloadLength ≥ 1 ∧ payloadLength ≤ 1460 then
      (conn.copyRx (seg.body.take payloadLength), .payload payloadLength seg.fin)
    else (conn, .protocolDrop)
  else (conn, .elsewhere)

def receiveSegment (conn : TcpConnection) (seg : Segment) : TcpConnection × TcpReceiveDisposition × Bool :=
  match receiveDisposition conn seg with
  | (conn, .ackOnly) => (conn, .ackOnly, true)
  | (conn, .peerFinAck) => (conn, .peerFinAck, true)
  | (conn, .payload length fin) =>
    let conn := { conn with rcvNxt := conn.rcvNxt + BitVec.ofNat 32 length, receivedLength := length }
    if fin then (conn.takeFin, .payload length fin, true) else (conn, .payload length fin, false)
  | (conn, disposition) => (conn, disposition, false)

end Takibi.Tcp
