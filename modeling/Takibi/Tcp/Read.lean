import Takibi.Tcp.Accept

/-! `read` on a connection: bytes that are buffered, or the next segment that the reader takes itself. -/

namespace Takibi.Tcp

inductive TcpPeerReadAnswer
  | opened
  | eof
  | reset
  deriving DecidableEq, Repr

variable (conn : TcpConnection)

def tcpConnectionPeerReadAnswer : TcpConnection × TcpPeerReadAnswer :=
  if conn.peerFin then (conn, .eof)
  else if conn.resetErrorPending then ({ conn with resetErrorPending := false }, .reset)
  else if conn.peerReset then (conn, .eof)
  else (conn, .opened)

inductive ReadAnswer
  | transferred (bytes : Bytes)
  | netWait
  | ebadf
  | econnreset
  | eagain
  | efault
  deriving DecidableEq, Repr

inductive Arrival
  | noCapability
  | timedOut
  | nothing
  | segment (seg : Segment)
  deriving DecidableEq

structure ReadInput where
  requested : ℕ
  arrival : Arrival
  rangeFault : Bool
  copyFault : Bool
  deriving DecidableEq

def TcpConnection.copyOut (offset amount : ℕ) : Bytes := (conn.rx.drop offset).take amount

def readBuffered (input : ReadInput) : TcpConnection × ReadAnswer :=
  let available := conn.socketBufferLength - conn.socketBufferOffset
  let buffered := if input.requested > available then available else input.requested
  if input.rangeFault then (conn, .efault)
  else if input.copyFault then (conn, .efault)
  else
    ({ conn with socketBufferOffset := conn.socketBufferOffset + buffered },
      .transferred (conn.copyOut conn.socketBufferOffset buffered))

def readReceived (input : ReadInput) : TcpConnection × ReadAnswer :=
  let received := conn.receivedLength
  let conn := { conn with socketBufferLength := received }
  let amount := if received > input.requested then input.requested else received
  -- A fault of the range check leaves the old offset.
  if input.rangeFault then (conn, .efault)
  else if input.copyFault then ({ conn with socketBufferOffset := 0 }, .efault)
  else ({ conn with socketBufferOffset := amount }, .transferred (conn.copyOut 0 amount))

def readAnswerOf : TcpConnection × ReadAnswer :=
  match tcpConnectionPeerReadAnswer conn with
  | (conn, .opened) => (conn, .netWait)
  | (conn, .eof) => (conn, .transferred [])
  | (conn, .reset) => (conn, .econnreset)

def readSegment (current : ℕ) (conn : TcpConnection) (entries : List Entry) (input : ReadInput) (seg : Segment) :
    (TcpConnection × ReadAnswer) × List Entry :=
  match receiveSegment conn seg with
  | (conn, .payload _ _, _) => (readReceived conn input, entries)
  | (conn, .peerReset, _) => (readAnswerOf conn, entries)
  | (conn, .peerFinAck, _) => (readAnswerOf conn, entries)
  | (conn, .elsewhere, _) => ((conn, .netWait), (tcpRouteReceivedSegment current seg entries).1)
  | (conn, .protocolDrop, _) => ((conn, .netWait), entries)
  | (conn, .ackOnly, _) => ((conn, .netWait), entries)

def readOpen (current : ℕ) (conn : TcpConnection) (entries : List Entry) (input : ReadInput) :
    (TcpConnection × ReadAnswer) × List Entry :=
  if input.requested = 0 then ((conn, .transferred []), entries)
  else if conn.socketBufferOffset < conn.socketBufferLength then (readBuffered conn input, entries)
  else
    match input.arrival with
    | .noCapability => ((conn, .netWait), entries)
    | .timedOut => ((conn, .eagain), entries)
    | .nothing => ((conn, .netWait), entries)
    | .segment seg => readSegment current conn entries input seg

def connectionRead (current : ℕ) (conn : TcpConnection) (entries : List Entry) (input : ReadInput) :
    (TcpConnection × ReadAnswer) × List Entry :=
  if conn.connectionOpen = false then ((conn, .ebadf), entries)
  else if conn.socketBufferOffset ≥ conn.socketBufferLength then
    match tcpConnectionPeerReadAnswer conn with
    | (conn, .opened) => readOpen current conn entries input
    | (conn, .eof) => ((conn, .transferred []), entries)
    | (conn, .reset) => ((conn, .econnreset), entries)
  else readOpen current conn entries input

/-! ## A connection from its accept on -/

def tcpConnectionOpenSlot (rx : Bytes) : TcpConnection where
  state := .listen
  remoteIp := 0
  remotePort := 0
  localPort := 7
  sndNxt := 0
  rcvNxt := 0
  receivedLength := 0
  connectionOpen := false
  peerFin := false
  peerReset := false
  resetErrorPending := false
  socketBufferLength := 0
  socketBufferOffset := 0
  acceptStartAt := 0
  acceptDeadlineTicks := 0
  acceptRetryTicks := 0
  acceptSynAckSentAt := 0
  acceptSynAckRetries := 0
  rx := rx

def acceptOpen : TcpConnection :=
  { conn with connectionOpen := true, socketBufferLength := 0, socketBufferOffset := 0 }

structure Stream where
  link : Listening
  transferred : Bytes

inductive StreamEvent
  | accept (frame : Option Segment) (isn : Seq) (clock : AcceptClock)
  | acceptFrameMissing
  | other (current : ℕ) (seg : Segment)
  | read (input : ReadInput)
  | park
  | change (before after : List Entry)

def ReadAnswer.bytes : ReadAnswer → Bytes
  | .transferred bytes => bytes
  | _ => []

def Listening.accepts (s : Listening) (tx : Bool) (frame : Option Segment) (isn : Seq) (clock : AcceptClock) : Bool :=
  (kernelTcpAcceptStep s.address s.conn (s.before ++ s.after) tx frame isn clock).result == .accepted

def Stream.accept (s : Stream) (tx : Bool) (frame : Option Segment) (isn : Seq) (clock : AcceptClock) :
    Option Stream :=
  if s.link.conn.connectionOpen then none
  else do
    let link ← s.link.accept tx frame isn clock
    if s.link.accepts tx frame isn clock then some { s with link := { link with conn := acceptOpen link.conn } }
    else some { s with link }

def Stream.step (s : Stream) : StreamEvent → Option Stream
  | .accept frame isn clock => s.accept true frame isn clock
  | .acceptFrameMissing => s.accept false none 0 ⟨0, 0, 0⟩
  | .other current seg => (s.link.step (.other current seg)).map fun link => { s with link }
  | .read input =>
    if s.link.busy ∨ ¬s.link.live then none
    else
      let others := s.link.before ++ s.link.after
      let out := connectionRead s.link.address s.link.conn others input
      some ⟨{ s.link with
        conn := out.1.1
        busy := true
        before := out.2.take s.link.before.length
        after := out.2.drop s.link.before.length }, s.transferred ++ out.1.2.bytes⟩
  | .park => (s.link.step .park).map fun link => { s with link }
  | .change before after => (s.link.step (.change before after)).map fun link => { s with link }

def streamAt (address : ℕ) (rx : Bytes) (port : Port) (now counterFrequency : ℤ) (before after : List Entry) :
    Stream :=
  ⟨listeningAt address (tcpConnectionOpenSlot rx) port now counterFrequency before after, []⟩

end Takibi.Tcp
