import Takibi.Tcp.AcceptSound
import Takibi.Tcp.Read

/-! The bytes that reads transfer are the peer's stream, and what was acknowledged and not transferred is
buffered. -/

namespace Takibi.Tcp
open TcpConnection Segment List Option ReadAnswer Bool

def Segment.payload (seg : Segment) : Bytes := seg.body.drop (seg.header.tcpHdrLen - 20)

variable {seg : Segment}

lemma Segment.payload_of_plain (h : seg.header.tcpHdrLen = 20) : seg.payload = seg.body := by
  rw [payload, h]
  rfl

lemma Segment.length_payload (seg : Segment) : seg.payload.length = seg.payloadLength := by
  have hmin := seg.hdr_min
  rw [payload, length_drop, seg.body_length, payloadLength]
  omega

/-- A segment that the peer sent, when `got` bytes of its stream have come in order. -/
inductive FromPeer (irs : Seq) (stream : Bytes) (got : ℕ) (seg : Segment) : Prop
  | syn (syn : seg.syn = true) (ack : seg.ack = false) (fin : seg.fin = false) (rst : seg.rst = false)
  | reset (rst : seg.rst = true)
  | ack (bare : seg.payloadLength = 0) (fin : seg.fin = false)
  | data (k : ℕ) (seq : seg.header.seq = irs + 1 + BitVec.ofNat 32 k) (ahead : k < got + 2 ^ 32)
      (behind : got < k + 2 ^ 32) (fits : k + seg.payloadLength ≤ stream.length)
      (payload : seg.payload = (stream.drop k).take seg.payloadLength)
      (fin : seg.fin = true → k + seg.payloadLength = stream.length)

structure Delivered (irs : Seq) (stream : Bytes) (conn : TcpConnection) (transferred : Bytes) : Prop where
  held : transferred ++ conn.buffered <+: stream
  rcvNxt : conn.rcvNxt = irs + 1 + BitVec.ofNat 32 (transferred ++ conn.buffered).length +
    if conn.peerFin = true then 1 else 0
  ended : conn.peerFin = true → transferred ++ conn.buffered = stream

variable {result : TcpReceiveRouteResult} {current : ℕ} {answered : Option Answered}

variable {transferred' : Bytes} {entries : List Entry}

section Delivered
variable {irs : Seq} {stream transferred : Bytes} {conn : TcpConnection}

lemma ofNat_inj_of_window {k got : ℕ} (hahead : k < got + 2 ^ 32) (hbehind : got < k + 2 ^ 32)
    (h : BitVec.ofNat 32 k = BitVec.ofNat 32 got) : k = got := by
  have hmod : k % 2 ^ 32 = got % 2 ^ 32 := by
    simpa [BitVec.toNat_ofNat] using congrArg BitVec.toNat h
  omega

section
variable (h : Delivered irs stream conn transferred)
include h

lemma Delivered.position {k : ℕ} (hpeer : conn.peerFin = false)
    (hseq : seg.header.seq = conn.rcvNxt) (hk : seg.header.seq = irs + 1 + BitVec.ofNat 32 k)
    (hahead : k < (transferred ++ conn.buffered).length + 2 ^ 32)
    (hbehind : (transferred ++ conn.buffered).length < k + 2 ^ 32) :
    k = (transferred ++ conn.buffered).length := by
  refine ofNat_inj_of_window hahead hbehind ?_
  have hrcv : conn.rcvNxt = irs + 1 + BitVec.ofNat 32 (transferred ++ conn.buffered).length := by
    simpa [hpeer] using h.rcvNxt
  exact (BitVec.add_right_inj _).mp (hk.symm.trans (hseq.trans hrcv))

variable {conn' : TcpConnection}

lemma Delivered.of_eq
    (hheld : transferred' ++ conn'.buffered = transferred ++ conn.buffered)
    (hrcv : conn'.rcvNxt = conn.rcvNxt) (hfin : conn'.peerFin = conn.peerFin) :
    Delivered irs stream conn' transferred' := by
  refine ⟨hheld ▸ h.held, ?_, fun hended => ?_⟩
  · rw [hheld, hrcv, hfin, h.rcvNxt]
  · rw [hheld]
    exact h.ended (hfin ▸ hended)

lemma Delivered.extend (hpeer : conn.peerFin = false)
    (hseg : FromPeer irs stream (transferred ++ conn.buffered).length seg)
    (hkind : seg.ack = true ∨ seg.fin = true) (hrst : seg.rst = false)
    (hseq : seg.header.seq = conn.rcvNxt)
    (hheld : transferred' ++ conn'.buffered = transferred ++ conn.buffered ++ seg.payload)
    (hrcv : conn'.rcvNxt = conn.rcvNxt + BitVec.ofNat 32 seg.payloadLength + if seg.fin = true then 1 else 0)
    (hfin : conn'.peerFin = seg.fin) : Delivered irs stream conn' transferred' := by
  cases hseg with
  | syn _ hack hfin' _ =>
    obtain h | h := hkind
    · exact nomatch hack.symm.trans h
    · exact nomatch hfin'.symm.trans h
  | reset hreset => exact nomatch hrst.symm.trans hreset
  | ack hbare hfin' =>
    have hpayload : seg.payload = [] := eq_nil_of_length_eq_zero (seg.length_payload.trans hbare)
    refine h.of_eq ?_ ?_ ?_
    · rw [hheld, hpayload, append_nil]
    · rw [hrcv, hbare, hfin', if_neg Bool.false_ne_true]
      exact (BitVec.add_zero _).trans (BitVec.add_zero _)
    · rw [hfin, hfin', hpeer]
  | data k hk hahead hbehind hfits hpayload hlast =>
    have hgot := h.position hpeer hseq hk hahead hbehind
    -- What is held now is the stream up to the end of the segment.
    have htake : transferred' ++ conn'.buffered = stream.take (k + seg.payloadLength) := by
      rw [hheld, hpayload, take_add, hgot, ← prefix_iff_eq_take.mp h.held]
    have hlength : (transferred' ++ conn'.buffered).length = k + seg.payloadLength := by
      rw [htake, length_take, min_eq_left hfits]
    refine ⟨htake ▸ take_prefix _ _, ?_, fun hended => ?_⟩
    · rw [hlength, hrcv, ← hseq, hk, hfin, BitVec.ofNat_add, ← BitVec.add_assoc]
    · rw [htake, hlast (hfin ▸ hended), take_length]

end

lemma buffered_advance (conn : TcpConnection) {amount : ℕ}
    (hamount : amount ≤ conn.socketBufferLength - conn.socketBufferOffset) :
    conn.copyOut conn.socketBufferOffset amount ++
      { conn with socketBufferOffset := conn.socketBufferOffset + amount }.buffered = conn.buffered := by
  have hcopy : conn.copyOut conn.socketBufferOffset amount = conn.buffered.take amount := by
    rw [copyOut, buffered, drop_take, take_take, min_eq_left hamount]
  have hrest : { conn with socketBufferOffset := conn.socketBufferOffset + amount }.buffered =
      conn.buffered.drop amount := drop_drop.symm
  rw [hcopy, hrest, take_append_drop]

lemma buffered_nil (hempty : conn.socketBufferOffset ≥ conn.socketBufferLength) : conn.buffered = [] := by
  rw [buffered, drop_eq_nil_iff]
  exact (length_take_le _ _).trans hempty

/-! ## Reads -/

def tookPayload (conn : TcpConnection) (seg : Segment) : TcpConnection :=
  let conn := { conn.copyRx seg.body with
    rcvNxt := conn.rcvNxt + BitVec.ofNat 32 seg.payloadLength
    receivedLength := seg.payloadLength }
  if seg.fin then conn.takeFin else conn

structure InOrder (conn : TcpConnection) (seg : Segment) : Prop where
  tuple : conn.tupleMatches seg = true
  peer : conn.peerOpen = true
  rst : seg.rst = false
  seq : seg.header.seq = conn.rcvNxt

lemma receiveSegment_cases (conn : TcpConnection) (seg : Segment) :
    (∃ acked, receiveSegment conn seg = (conn, .protocolDrop, acked) ∨ receiveSegment conn seg = (conn, .ackOnly, acked) ∨
        receiveSegment conn seg = (conn, .elsewhere, acked)) ∨
      (∃ acked, receiveSegment conn seg = (conn.takeReset, .peerReset, acked)) ∨
      (∃ acked, receiveSegment conn seg = (conn.takeFin, .peerFinAck, acked) ∧ InOrder conn seg ∧ seg.fin = true ∧
        seg.payloadLength = 0) ∨
      (∃ acked, receiveSegment conn seg = (tookPayload conn seg, .payload seg.payloadLength seg.fin, acked) ∧
        InOrder conn seg ∧ seg.ack = true ∧ seg.header.tcpHdrLen = 20) := by
  have hhdr := seg.hdr_le
  rw [receiveSegment, receiveDisposition]
  dsimp only
  split_ifs with hreset htaken hfin hagain hdata hseq hlength
  · exact .inr (.inl ⟨_, rfl⟩)
  · exact .inl ⟨_, .inl rfl⟩
  · simp only [and_eq_true, beq_iff_eq] at hfin
    obtain ⟨⟨⟨⟨htuple, hpeer⟩, hfin⟩, hbare⟩, hseq⟩ := hfin
    have hrst : seg.rst = false := by simpa [htuple] using hreset
    refine .inr (.inr (.inl ⟨_, rfl, ⟨htuple, hpeer, hrst, hseq⟩, hfin, ?_⟩))
    rw [payloadLength, hbare, Nat.sub_self]
  · exact .inl ⟨_, .inr (.inl rfl)⟩
  · exact .inl ⟨_, .inr (.inl rfl)⟩
  · simp only [and_eq_true, beq_iff_eq, decide_eq_true_eq] at hdata
    obtain ⟨⟨⟨⟨htuple, hpeer⟩, hack⟩, hplain⟩, hlonger⟩ := hdata
    have hrst : seg.rst = false := by simpa [htuple] using hreset
    have hpayload : seg.header.tcpLen - 20 = seg.payloadLength := by rw [payloadLength, hplain]
    have hbody : seg.body.take (seg.header.tcpLen - 20) = seg.body := by rw [← seg.body_length, take_length]
    rw [hbody, hpayload]
    refine .inr (.inr (.inr ⟨seg.fin, ?_, ⟨htuple, hpeer, hrst, not_not.mp hseq⟩, hack, hplain⟩))
    rw [tookPayload]
    cases seg.fin <;> rfl
  · exact .inl ⟨_, .inl rfl⟩
  · exact .inl ⟨_, .inr (.inr rfl)⟩

lemma tookPayload_spec (seg : Segment) (hpeer : conn.peerFin = false) :
    (tookPayload conn seg).rx = seg.body ++ conn.rx.drop seg.body.length ∧
      (tookPayload conn seg).receivedLength = seg.payloadLength ∧
      (tookPayload conn seg).rcvNxt = conn.rcvNxt + BitVec.ofNat 32 seg.payloadLength + (if seg.fin = true then 1 else 0) ∧
      (tookPayload conn seg).peerFin = seg.fin ∧
      (tookPayload conn seg).socketBufferOffset = conn.socketBufferOffset := by
  rw [tookPayload]
  cases hfin : seg.fin with
  | true => exact ⟨rfl, rfl, rfl, rfl, rfl⟩
  | false => exact ⟨rfl, rfl, (BitVec.add_zero _).symm, hpeer, rfl⟩

lemma TcpConnection.peerFin_of_peerOpen (h : conn.peerOpen = true) : conn.peerFin = false := by
  rw [peerOpen] at h
  simp only [and_eq_true, beq_iff_eq] at h
  exact h.1

lemma buffered_of_frame {frame rest : Bytes} {n : ℕ} (hrx : conn.rx = frame ++ rest) (hn : frame.length = n)
    (hlength : conn.socketBufferLength = n) : conn.buffered = frame.drop conn.socketBufferOffset := by
  rw [buffered, hrx, hlength, ← hn, take_left]

lemma copyOut_of_frame {frame rest : Bytes} {amount : ℕ} (hrx : conn.rx = frame ++ rest)
    (hamount : amount ≤ frame.length) : conn.copyOut 0 amount = frame.take amount := by
  rw [copyOut, hrx, drop_zero, take_append_of_le_length hamount]

variable {input : ReadInput}

section
variable (h : Delivered irs stream conn transferred)
include h

lemma readReceived_spec (hempty : conn.buffered = [])
    (hseg : FromPeer irs stream (transferred ++ conn.buffered).length seg) (hin : InOrder conn seg)
    (hack : seg.ack = true) (hplain : seg.header.tcpHdrLen = 20)
    (hfault : input.rangeFault = true → conn.socketBufferOffset = 0) :
    Delivered irs stream (readReceived (tookPayload conn seg) input).1
      (transferred ++ (readReceived (tookPayload conn seg) input).2.bytes) := by
  have hpeer := peerFin_of_peerOpen hin.peer
  obtain ⟨hrx, hlength, hrcv, hfin, hoffset⟩ := tookPayload_spec seg hpeer
  have hbody : seg.body.length = seg.payloadLength := by
    rw [← payload_of_plain hplain, length_payload]
  -- Whatever the answer, what was taken and what is left are the payload.
  have hextend : ∀ conn' : TcpConnection, ∀ bytes, conn'.rx = (tookPayload conn seg).rx →
      conn'.socketBufferLength = (tookPayload conn seg).receivedLength →
      conn'.rcvNxt = (tookPayload conn seg).rcvNxt → conn'.peerFin = (tookPayload conn seg).peerFin →
      bytes ++ seg.body.drop conn'.socketBufferOffset = seg.body →
        Delivered irs stream conn' (transferred ++ bytes) := by
    intro conn' bytes hrx' hlength' hrcv' hfin' hheld
    refine h.extend hpeer hseg (.inl hack) hin.rst hin.seq ?_ (hrcv'.trans hrcv) (hfin'.trans hfin)
    rw [buffered_of_frame (hrx'.trans hrx) hbody (hlength'.trans hlength), append_assoc, hheld, hempty,
      append_nil, payload_of_plain hplain]
  have hcopied : ∀ amount ≤ seg.body.length,
      (tookPayload conn seg).copyOut 0 amount ++ seg.body.drop amount = seg.body := by
    intro amount hamount
    rw [copyOut_of_frame hrx hamount, take_append_drop]
  rw [readReceived]
  dsimp only
  split_ifs with hrange hcopy hmore
  · refine hextend _ [] rfl rfl rfl rfl ?_
    dsimp only
    rw [hoffset, hfault hrange, nil_append, drop_zero]
  · exact hextend _ [] rfl rfl rfl rfl rfl
  · exact hextend _ _ rfl rfl rfl rfl (hcopied _ (by omega))
  · exact hextend _ _ rfl rfl rfl rfl (hcopied _ (by omega))

lemma readAnswerOf_spec :
    Delivered irs stream (readAnswerOf conn).1 (transferred ++ (readAnswerOf conn).2.bytes) := by
  rw [readAnswerOf, tcpConnectionPeerReadAnswer]
  split_ifs <;> exact h.of_eq (by simp [bytes, buffered]) rfl rfl

lemma Delivered.takeReset : Delivered irs stream conn.takeReset transferred := h.of_eq rfl rfl rfl

lemma Delivered.takeFin (hseg : FromPeer irs stream (transferred ++ conn.buffered).length seg)
    (hin : InOrder conn seg) (hfin : seg.fin = true) (hbare : seg.payloadLength = 0) :
    Delivered irs stream conn.takeFin transferred := by
  have hpayload : seg.payload = [] := eq_nil_of_length_eq_zero (seg.length_payload.trans hbare)
  refine h.extend (peerFin_of_peerOpen hin.peer) hseg (.inr hfin) hin.rst hin.seq ?_ ?_ ?_
  · rw [hpayload, append_nil]
    rfl
  · rw [hbare, if_pos hfin]
    exact congrArg (· + 1) (BitVec.add_zero _).symm
  · exact hfin.symm

end

def PeerOnly (irs : Seq) (stream : Bytes) (conn : TcpConnection) (transferred : Bytes) (seg : Segment) : Prop :=
  conn.tupleMatches seg = true → FromPeer irs stream (transferred ++ conn.buffered).length seg

lemma readSegment_spec
    (h : Delivered irs stream conn transferred) (hempty : conn.buffered = [])
    (hseg : PeerOnly irs stream conn transferred seg)
    (hfault : input.rangeFault = true → conn.socketBufferOffset = 0) :
    Delivered irs stream (readSegment current conn entries input seg).1.1
      (transferred ++ (readSegment current conn entries input seg).1.2.bytes) := by
  have hsame : Delivered irs stream conn (transferred ++ []) := by
    rw [append_nil]
    exact h
  rw [readSegment]
  obtain ⟨_, hrecv | hrecv | hrecv⟩ | ⟨_, hrecv⟩ | ⟨_, hrecv, hin, hfin, hbare⟩ | ⟨_, hrecv, hin, hack, hplain⟩ :=
    receiveSegment_cases conn seg
  all_goals rw [hrecv]
  · exact hsame
  · exact hsame
  · exact hsame
  · exact readAnswerOf_spec h.takeReset
  · exact readAnswerOf_spec (h.takeFin (hseg hin.tuple) hin hfin hbare)
  · exact readReceived_spec h hempty (hseg hin.tuple) hin hack hplain hfault

section
variable (h : Delivered irs stream conn transferred)
  (hseg : ∀ seg, input.arrival = .segment seg → PeerOnly irs stream conn transferred seg ∧
    (input.rangeFault = true → conn.socketBufferOffset < conn.socketBufferLength ∨ conn.socketBufferOffset = 0))
include h hseg

lemma readOpen_spec :
    Delivered irs stream (readOpen current conn entries input).1.1
      (transferred ++ (readOpen current conn entries input).1.2.bytes) := by
  have hsame : Delivered irs stream conn (transferred ++ []) := by
    rw [append_nil]
    exact h
  rw [readOpen]
  split_ifs with hzero hbuffered
  · exact hsame
  · rw [readBuffered]
    split_ifs
    · exact hsame
    · exact hsame
    all_goals
      refine h.of_eq ?_ rfl rfl
      rw [append_assoc]
      exact congrArg (transferred ++ ·) (buffered_advance conn (by omega))
  · have hempty := buffered_nil (Nat.not_lt.mp hbuffered)
    cases harrival : input.arrival with
    | noCapability => exact hsame
    | timedOut => exact hsame
    | nothing => exact hsame
    | segment seg =>
      obtain ⟨hpeer, hfault⟩ := hseg seg harrival
      exact readSegment_spec h hempty hpeer fun hrange => (hfault hrange).resolve_left hbuffered

lemma connectionRead_spec (current : ℕ) (entries : List Entry) :
    Delivered irs stream (connectionRead current conn entries input).1.1
      (transferred ++ (connectionRead current conn entries input).1.2.bytes) := by
  rw [connectionRead, tcpConnectionPeerReadAnswer]
  split_ifs
  · exact h.of_eq (by simp [bytes]) rfl rfl
  · exact h.of_eq (by simp [bytes]) rfl rfl
  · exact h.of_eq (by simp [bytes, buffered]) rfl rfl
  · exact h.of_eq (by simp [bytes]) rfl rfl
  · exact readOpen_spec h hseg
  · exact readOpen_spec h hseg

end

/-! ## Routed segments -/

def routedPayload (conn : TcpConnection) (seg : Segment) : TcpConnection :=
  let conn := (conn.copyRx seg.body).recordPayload seg.payloadLength
  if seg.fin then conn.takeFin else conn

lemma routeToTarget_cases (hstate : conn.state = .established)
    (hplain : seg.header.tcpHdrLen = 20) (hrst : seg.rst = true → seg.payloadLength = 0)
    (hroute : routeToTarget seg conn = some (conn', result)) :
    conn.connectionOpen = true ∧ (conn' = conn ∨ conn' = conn.takeReset ∨
      InOrder conn seg ∧ (seg.fin = true ∧ seg.payloadLength = 0 ∧ conn' = conn.takeFin ∨
        conn.socketBufferOffset ≥ conn.socketBufferLength ∧ conn' = routedPayload conn seg)) := by
  have hdone : tcpAckCompletesHandshake conn.state conn.acceptSynAckRetries conn.sndNxt conn.rcvNxt seg.header =
      false := by
    rw [tcpAckCompletesHandshake, if_pos]
    simp [hstate]
  have hbody : seg.body.take seg.payloadLength = seg.body := by
    rw [payloadLength, hplain, ← seg.body_length, take_length]
  have hsmall : ¬seg.body.length > 1514 := by
    have hlen := seg.len_le
    have hlength := seg.body_length
    omega
  rw [routeToTarget, hbody, hdone, Bool.and_false, if_neg Bool.false_ne_true] at hroute
  dsimp only at hroute
  split_ifs at hroute with hopen hbare hseq hreset hfin hlate hlast
  all_goals
    simp only [and_eq_true, decide_eq_true_eq] at hopen
    obtain ⟨⟨⟨htuple, -⟩, hopen⟩, hpeer⟩ := hopen
    refine ⟨hopen, ?_⟩
  · simp only [some.injEq, Prod.mk.injEq] at hroute
    exact .inr (.inl hroute.1.symm)
  · simp only [some.injEq, Prod.mk.injEq] at hroute
    exact .inr (.inr ⟨⟨htuple, hpeer, eq_false_iff.mpr hreset, hseq⟩, .inl ⟨hfin, hbare, hroute.1.symm⟩⟩)
  · simp only [some.injEq, Prod.mk.injEq] at hroute
    exact .inl hroute.1.symm
  all_goals
    push Not at hlate
    have hreset : seg.rst = false := eq_false_iff.mpr fun hset => hbare (hrst hset)
    refine .inr (.inr ⟨⟨htuple, hpeer, hreset, hlate.1⟩, .inr ⟨hlate.2, ?_⟩⟩)
    rw [frameFill, if_neg hsmall] at hroute
    simp only [some.injEq, Prod.mk.injEq] at hroute
    rw [routedPayload]
  · rw [if_pos hlast]
    exact hroute.1.symm
  · rw [if_neg hlast]
    exact hroute.1.symm

lemma routeToTarget_delivered
    (h : Delivered irs stream conn transferred) (hstate : conn.state = .established)
    (hseg : PeerOnly irs stream conn transferred seg) (hplain : seg.header.tcpHdrLen = 20)
    (hack : seg.ack = true) (hrst : seg.rst = true → seg.payloadLength = 0)
    (hroute : routeToTarget seg conn = some (conn', result)) :
    Delivered irs stream conn' transferred := by
  obtain ⟨-, rfl | rfl | ⟨hin, ⟨hfin, hbare, rfl⟩ | ⟨hempty, rfl⟩⟩⟩ := routeToTarget_cases hstate hplain hrst hroute
  · exact h
  · exact h.takeReset
  · exact h.takeFin (hseg hin.tuple) hin hfin hbare
  · have hpeer := peerFin_of_peerOpen hin.peer
    have hbody : seg.body.length = seg.payloadLength := by
      rw [← payload_of_plain hplain, length_payload]
    have hheld : (routedPayload conn seg).buffered = seg.body := by
      rw [routedPayload]
      cases seg.fin <;> exact buffered_of_frame rfl hbody rfl
    refine h.extend hpeer (hseg hin.tuple) (.inl hack) hin.rst hin.seq ?_ ?_ ?_
    · rw [hheld, buffered_nil hempty, append_nil, payload_of_plain hplain]
    · rw [routedPayload]
      cases seg.fin
      · exact (BitVec.add_zero _).symm
      · rfl
    · rw [routedPayload]
      cases seg.fin
      · exact hpeer
      · rfl

end Delivered

/-! ## The accept -/

section Accept
variable {conn : TcpConnection} {timer : SynAckTimer} {isn : Seq}

structure SameReader (conn conn' : TcpConnection) : Prop where
  rx : conn'.rx = conn.rx
  socketBufferLength : conn'.socketBufferLength = conn.socketBufferLength
  socketBufferOffset : conn'.socketBufferOffset = conn.socketBufferOffset
  peerFin : conn'.peerFin = conn.peerFin
  connectionOpen : conn'.connectionOpen = conn.connectionOpen

lemma SameReader.acceptFinish (conn : TcpConnection) (timer : SynAckTimer) (entries : List Entry)
    (clock : AcceptClock) (taken : Option AcceptTaken) :
    SameReader conn (acceptFinish conn timer entries clock taken).conn ∧
      (acceptFinish conn timer entries clock taken).conn.remoteIp = conn.remoteIp ∧
      (acceptFinish conn timer entries clock taken).conn.remotePort = conn.remotePort ∧
      (acceptFinish conn timer entries clock taken).result ≠ .accepted ∧
      (acceptFinish conn timer entries clock taken).taken = taken ∧
      (conn.state ≠ .established → (acceptFinish conn timer entries clock taken).conn.state ≠ .established) := by
  rw [Tcp.acceptFinish, acceptTimer]
  dsimp only
  generalize (if timer.retries > tcpAcceptAbandoned then _ else _ : ℤ) = backoff
  split_ifs <;> refine ⟨⟨rfl, rfl, rfl, rfl, rfl⟩, rfl, rfl, fun h => (by cases h), rfl, ?_⟩ <;>
    first | exact fun h => h | exact fun _ h => by cases h

def AnsweredPeer (conn : TcpConnection) (answered : Option Answered) : Prop :=
  ∀ a, answered = some a → conn.remoteIp = a.ip ∧ conn.remotePort = a.port

lemma kernelTcpAcceptStep_cases (current : ℕ) (conn : TcpConnection)
    (entries : List Entry) (tx : Bool) (frame : Option Segment) (isn : Seq) (clock : AcceptClock)
    (hpeer : AnsweredPeer conn answered) :
    let out := kernelTcpAcceptStep current conn entries tx frame isn clock
    (conn.state = .established ∧ out.conn = conn ∧ out.result = .accepted ∧ out.taken = none) ∨
      (conn.state ≠ .established ∧ out.result = .accepted ∧ out.taken = some .completed ∧
        ∃ seg, frame = some seg ∧ out.conn = acceptCompleted conn seg) ∨
      (conn.state ≠ .established ∧ out.result ≠ .accepted ∧ out.conn.state ≠ .established ∧
        SameReader conn out.conn ∧ AnsweredPeer out.conn (answeredAfter answered frame isn out.taken)) := by
  rw [kernelTcpAcceptStep]
  by_cases hdone : conn.state = .established
  · rw [if_pos hdone]
    exact .inl ⟨hdone, rfl, rfl, rfl⟩
  rw [if_neg hdone]
  have hsame : SameReader conn conn := ⟨rfl, rfl, rfl, rfl, rfl⟩
  by_cases htx : tx = false
  · rw [if_pos htx]
    exact .inr (.inr ⟨hdone, fun h => (by cases h), hdone, hsame, hpeer⟩)
  rw [if_neg htx]
  generalize (⟨conn.acceptSynAckSentAt, conn.acceptSynAckRetries⟩ : SynAckTimer) = timer
  -- A step that ends in the timer leaves the reader's side alone.
  have hfinish : ∀ conn' timer' entries' taken, SameReader conn conn' → conn'.state ≠ .established →
      AnsweredPeer conn' (answeredAfter answered frame isn taken) →
      let out := acceptFinish conn' timer' entries' clock taken
      conn.state ≠ .established ∧ out.result ≠ .accepted ∧ out.conn.state ≠ .established ∧
        SameReader conn out.conn ∧ AnsweredPeer out.conn (answeredAfter answered frame isn out.taken) := by
    intro conn' timer' entries' taken hreader hstate hpeer'
    obtain ⟨hsame, hip, hport, hresult, htaken, hnext⟩ := SameReader.acceptFinish conn' timer' entries' clock taken
    refine ⟨hdone, hresult, hnext hstate, ⟨hsame.rx.trans hreader.rx, hsame.2.trans hreader.2, hsame.3.trans hreader.3,
      hsame.4.trans hreader.4, hsame.5.trans hreader.5⟩, ?_⟩
    rw [htaken]
    intro a ha
    rw [hip, hport]
    exact hpeer' a ha
  cases frame with
  | none => exact .inr (.inr (hfinish conn timer entries none hsame hdone hpeer))
  | some seg =>
    dsimp only
    rcases hsegment : acceptSegment conn timer seg isn clock.syn with _ | ⟨conn', timer', taken⟩
    · rcases tcpRouteReceivedSegment current seg entries with ⟨entries', result⟩
      cases result with
      | noReceiver => exact .inr (.inr (hfinish conn timer entries' none hsame hdone hpeer))
      | routed | ack => exact .inr (.inr ⟨hdone, fun h => (by cases h), hdone, hsame, hpeer⟩)
    · obtain ⟨rfl, rfl, rfl⟩ | ⟨rfl, rfl, rfl⟩ | ⟨rfl, rfl, -⟩ := acceptSegment_cases hsegment
      · refine .inr (.inr (hfinish _ _ entries _ ⟨rfl, rfl, rfl, rfl, rfl⟩ (fun h => by cases h) ?_))
        intro a ha
        cases ha
        exact ⟨rfl, rfl⟩
      · exact .inr (.inr (hfinish _ _ entries _ ⟨rfl, rfl, rfl, rfl, rfl⟩ (fun h => by cases h) fun _ h => by
          cases h))
      · exact .inr (.inl ⟨hdone, rfl, rfl, seg, rfl, rfl⟩)

lemma acceptCompleted_of_bare (hbare : seg.header.tcpHdrLen = 20 → seg.payloadLength = 0) :
    acceptCompleted conn seg = { conn with state := .established } := by
  have hnone : ¬(seg.header.tcpHdrLen = 20 ∧ seg.header.tcpLen > 20) := by
    rintro ⟨hplain, hlonger⟩
    have hzero := hbare hplain
    rw [payloadLength] at hzero
    omega
  rw [acceptCompleted, if_neg hnone]

lemma routeToTarget_of_bare {conn' : TcpConnection}
    (hbare : seg.payloadLength = 0) (hcompletes : routeCompletes conn seg = true)
    (h : routeToTarget seg conn = some (conn', result)) : conn' = { conn with state := .established } := by
  rw [routeCompletes] at hcompletes
  rw [routeToTarget, if_pos hcompletes, if_neg (by omega)] at h
  simp only [some.injEq, Prod.mk.injEq] at h
  exact h.1.symm

end Accept

/-! ## Runs -/

structure SameEnd (conn conn' : TcpConnection) : Prop where
  state : conn'.state = conn.state
  remoteIp : conn'.remoteIp = conn.remoteIp
  remotePort : conn'.remotePort = conn.remotePort
  localPort : conn'.localPort = conn.localPort
  connectionOpen : conn'.connectionOpen = conn.connectionOpen

lemma SameEnd.trans {a b c : TcpConnection} (hab : SameEnd a b) (hbc : SameEnd b c) : SameEnd a c :=
  ⟨hbc.1.trans hab.1, hbc.2.trans hab.2, hbc.3.trans hab.3, hbc.4.trans hab.4, hbc.5.trans hab.5⟩

variable (conn : TcpConnection)

lemma SameEnd.readAnswerOf : SameEnd conn (readAnswerOf conn).1 := by
  rw [Tcp.readAnswerOf, tcpConnectionPeerReadAnswer]
  split_ifs <;> exact ⟨rfl, rfl, rfl, rfl, rfl⟩

lemma SameEnd.readReceived (input : ReadInput) : SameEnd conn (readReceived conn input).1 := by
  rw [Tcp.readReceived]
  dsimp only
  split_ifs <;> exact ⟨rfl, rfl, rfl, rfl, rfl⟩

lemma SameEnd.tookPayload (seg : Segment) : SameEnd conn (tookPayload conn seg) := by
  rw [Tcp.tookPayload]
  cases seg.fin <;> exact ⟨rfl, rfl, rfl, rfl, rfl⟩

lemma SameEnd.readSegment (current : ℕ) (conn : TcpConnection) (entries : List Entry) (input : ReadInput)
    (seg : Segment) : SameEnd conn (readSegment current conn entries input seg).1.1 := by
  rw [Tcp.readSegment]
  obtain ⟨_, hrecv | hrecv | hrecv⟩ | ⟨_, hrecv⟩ | ⟨_, hrecv, -⟩ | ⟨_, hrecv, -⟩ := receiveSegment_cases conn seg
  all_goals rw [hrecv]
  · exact ⟨rfl, rfl, rfl, rfl, rfl⟩
  · exact ⟨rfl, rfl, rfl, rfl, rfl⟩
  · exact ⟨rfl, rfl, rfl, rfl, rfl⟩
  · have hreset : SameEnd conn conn.takeReset := ⟨rfl, rfl, rfl, rfl, rfl⟩
    exact hreset.trans (SameEnd.readAnswerOf _)
  · have hfin : SameEnd conn conn.takeFin := ⟨rfl, rfl, rfl, rfl, rfl⟩
    exact hfin.trans (SameEnd.readAnswerOf _)
  · exact (SameEnd.tookPayload conn seg).trans (SameEnd.readReceived _ input)

lemma SameEnd.connectionRead (current : ℕ) (conn : TcpConnection) (entries : List Entry) (input : ReadInput) :
    SameEnd conn (connectionRead current conn entries input).1.1 := by
  have hopen : SameEnd conn (readOpen current conn entries input).1.1 := by
    rw [readOpen, readBuffered]
    split_ifs
    all_goals first
      | exact ⟨rfl, rfl, rfl, rfl, rfl⟩
      | cases input.arrival with
        | segment seg => exact SameEnd.readSegment current conn entries input seg
        | _ => exact ⟨rfl, rfl, rfl, rfl, rfl⟩
  rw [Tcp.connectionRead, tcpConnectionPeerReadAnswer]
  split_ifs <;> first | exact hopen | exact ⟨rfl, rfl, rfl, rfl, rfl⟩

structure Stream.Ok (streams : Answered → Bytes) (port : Port) (s : Stream) : Prop where
  link : s.link.Ok port
  peer : AnsweredPeer s.link.conn s.link.answered
  unopened : s.link.conn.connectionOpen = false → s.link.conn.buffered = [] ∧ s.transferred = []
  idle : s.link.conn.state ≠ .established → s.link.conn.connectionOpen = false ∧ s.link.conn.peerFin = false
  delivered : ∀ a, s.link.answered = some a → s.link.conn.state = .established →
    Delivered a.seq (streams a) s.link.conn s.transferred

/-- What a received segment may be: the peer of an established connection sends its stream, and the final ACK
of a handshake carries no data. -/
structure Fair (streams : Answered → Bytes) (port : Port) (s : Stream) (seg : Segment) : Prop where
  peer : ∀ a, s.link.answered = some a → s.link.conn.state = .established →
    PeerOnly a.seq (streams a) s.link.conn s.transferred seg
  bare : ∀ a, s.link.answered = some a → s.link.conn.state ≠ .established → Completes a port seg →
    seg.header.tcpHdrLen = 20 → seg.payloadLength = 0

/-- The steps that lose nothing: besides, a reset that another process takes has no payload, and the range
check of a read that received a segment faults only with the offset at the start. -/
def Stream.Meets (streams : Answered → Bytes) (port : Port) (s : Stream) : StreamEvent → Prop
  | .accept frame _ _ => ∀ seg, frame = some seg → Fair streams port s seg
  | .other _ seg => Fair streams port s seg ∧ (seg.rst = true → seg.payloadLength = 0)
  | .read input => ∀ seg, input.arrival = .segment seg → Fair streams port s seg ∧
      (input.rangeFault = true →
        s.link.conn.socketBufferOffset < s.link.conn.socketBufferLength ∨ s.link.conn.socketBufferOffset = 0)
  | .acceptFrameMissing | .park | .change _ _ => True

section Runs
variable {streams : Answered → Bytes} {port : Port} {s s' : Stream}

lemma Stream.Ok.completed {a : Answered} {conn : TcpConnection} (hok : s.Ok streams port)
    (ha : s.link.answered = some a) (hstate : s.link.conn.state ≠ .established)
    (hbuffered : conn.buffered = []) (hrcv : conn.rcvNxt = s.link.conn.rcvNxt)
    (hfin : conn.peerFin = s.link.conn.peerFin) : Delivered a.seq (streams a) conn s.transferred := by
  obtain ⟨hopen, hpeerFin⟩ := hok.idle hstate
  have hnone := (hok.unopened hopen).2
  refine ⟨?_, ?_, fun hended => ?_⟩
  · rw [hnone, hbuffered]
    exact nil_prefix
  · rw [hnone, hbuffered, hrcv, hfin, hpeerFin, (hok.link.pending ha hstate).rcvNxt]
    simp
  · rw [hfin, hpeerFin] at hended
    cases hended

lemma Handshake.acceptOpen {conn : TcpConnection} {retries : ℕ}
    (h : Handshake conn retries answered) : Handshake (acceptOpen conn) retries answered := by
  cases answered with
  | none => exact h
  | some a => exact h.imp (fun h => h) fun h => { h with }

section
variable (hok : s.Ok streams port)
include hok

lemma Stream.Ok.accept {tx : Bool} {frame : Option Segment} {isn : Seq} {clock : AcceptClock}
    (hmeets : ∀ seg, frame = some seg → Fair streams port s seg)
    (h : s.accept tx frame isn clock = some s') :
    s'.Ok streams port := by
  obtain ⟨hopened, h⟩ := ite_none_left_eq_some.mp h
  have hunopened : s.link.conn.connectionOpen = false := eq_false_iff.mpr hopened
  obtain ⟨hbuffered, hnone⟩ := hok.unopened hunopened
  obtain ⟨link, hlink, h⟩ := bind_eq_some_iff.mp h
  obtain ⟨hlinkOk, hcompletes⟩ := hok.link.accept hlink
  rw [Listening.accepts] at h
  have hcases := kernelTcpAcceptStep_cases s.link.address s.link.conn (s.link.before ++ s.link.after) tx frame isn clock
    hok.peer
  obtain ⟨-, hlink⟩ := ite_none_left_eq_some.mp hlink
  generalize kernelTcpAcceptStep s.link.address s.link.conn (s.link.before ++ s.link.after) tx frame isn clock = out
    at h hlink hcases
  cases hlink
  obtain ⟨hdone, hconn, hresult, htaken⟩ | ⟨hstate, hresult, htaken, seg, rfl, hconn⟩ |
    ⟨hstate, hresult, hstate', hreader, hpeer⟩ := hcases
  · rw [if_pos (beq_iff_eq.mpr hresult), some.injEq] at h
    subst h
    refine ⟨⟨hlinkOk.localPort, hlinkOk.handshake.acceptOpen⟩, ?_, fun h => (by cases h), fun hne => ?_, fun a ha _ => ?_⟩
    · rw [htaken, hconn]
      exact hok.peer
    · exact absurd (hconn ▸ hdone) hne
    · rw [htaken] at ha
      have hrcv : out.conn.rcvNxt = s.link.conn.rcvNxt := congrArg rcvNxt hconn
      have hfin : out.conn.peerFin = s.link.conn.peerFin := congrArg peerFin hconn
      refine (hok.delivered a ha hdone).of_eq ?_ hrcv hfin
      rw [hbuffered]
      rfl
  · rw [if_pos (beq_iff_eq.mpr hresult), some.injEq] at h
    subst h
    have hestablished : out.conn.state = .established := hconn ▸ (state_acceptCompleted s.link.conn seg).1
    obtain ⟨_, a, hseg, ha, hfinal⟩ := hcompletes hstate hestablished
    cases hseg
    rw [acceptCompleted_of_bare ((hmeets seg rfl).bare a ha hstate hfinal)] at hconn
    refine ⟨⟨hlinkOk.localPort, hlinkOk.handshake.acceptOpen⟩, ?_, fun h => (by cases h), fun hne => ?_, fun a' ha' _ => ?_⟩
    · rw [htaken, hconn]
      exact hok.peer
    · exact absurd hestablished hne
    · rw [htaken] at ha'
      have hrcv : out.conn.rcvNxt = s.link.conn.rcvNxt := by rw [hconn]
      have hfin : out.conn.peerFin = s.link.conn.peerFin := by rw [hconn]
      exact hok.completed ha' hstate rfl hrcv hfin
  · rw [if_neg (by simpa using hresult), some.injEq] at h
    subst h
    have hbuffered' : out.conn.buffered = [] := by
      rw [buffered, hreader.rx, hreader.socketBufferLength, hreader.socketBufferOffset]
      exact hbuffered
    refine ⟨hlinkOk, hpeer, fun _ => ⟨hbuffered', hnone⟩, fun _ => ?_, fun a _ hdone => absurd hdone hstate'⟩
    exact ⟨hreader.connectionOpen.trans hunopened, hreader.peerFin.trans (hok.idle hstate).2⟩

lemma Stream.Ok.step_other (hmeets : s.Meets streams port (.other current seg))
    (h : s.step (.other current seg) = some s') : s'.Ok streams port := by
  obtain ⟨hfair, hrst⟩ := hmeets
  obtain ⟨link, hlink, rfl⟩ := map_eq_some_iff.mp h
  obtain ⟨hlinkOk, hcompletes⟩ := hok.link.step_other hlink
  obtain ⟨hanswered, ⟨hconn, -⟩ | ⟨hreaches, hack, result, hroute⟩⟩ := Listening.step_other hlink
  · refine ⟨hlinkOk, ?_, ?_, ?_, ?_⟩ <;> dsimp only <;> rw [hconn]
    · rw [hanswered]
      exact hok.peer
    · exact hok.unopened
    · exact hok.idle
    · rw [hanswered]
      exact hok.delivered
  by_cases hstate : s.link.conn.state = .established
  · have hdelivered : ∀ a, link.answered = some a → Delivered a.seq (streams a) link.conn s.transferred := by
      intro a ha
      rw [hanswered] at ha
      exact routeToTarget_delivered (hok.delivered a ha hstate) hstate (hfair.peer a ha hstate) hreaches.plain hack hrst
        hroute
    obtain ⟨hopen, hcases⟩ := routeToTarget_cases hstate hreaches.plain hrst hroute
    have hend : SameEnd s.link.conn link.conn := by
      obtain hconn | hconn | ⟨-, ⟨-, -, hconn⟩ | ⟨-, hconn⟩⟩ := hcases
      all_goals rw [hconn]
      · exact ⟨rfl, rfl, rfl, rfl, rfl⟩
      · exact ⟨rfl, rfl, rfl, rfl, rfl⟩
      · exact ⟨rfl, rfl, rfl, rfl, rfl⟩
      · rw [routedPayload]
        cases seg.fin <;> exact ⟨rfl, rfl, rfl, rfl, rfl⟩
    refine ⟨hlinkOk, ?_, fun hclosed => ?_, fun hne => ?_, fun a ha _ => hdelivered a ha⟩
    · rw [hanswered]
      intro a ha
      rw [hend.remoteIp, hend.remotePort]
      exact hok.peer a ha
    · exact nomatch (hend.connectionOpen.trans hopen).symm.trans hclosed
    · exact absurd (hend.state.trans hstate) hne
  · cases hroutes : routeCompletes s.link.conn seg with
    | false =>
      rw [routeToTarget_of_not_completes hroutes hstate] at hroute
      cases hroute
    | true =>
      obtain ⟨a, ha, hfinal⟩ := hok.link.handshake.of_routeCompletes hroutes
      rw [hok.link.localPort] at hfinal
      have hconn := routeToTarget_of_bare (hfair.bare a ha hstate hfinal hreaches.plain) hroutes hroute
      obtain ⟨hopen, hpeerFin⟩ := hok.idle hstate
      obtain ⟨hbuffered, hnone⟩ := hok.unopened hopen
      have hbuffered' : link.conn.buffered = [] := by
        rw [hconn]
        exact hbuffered
      refine ⟨hlinkOk, ?_, fun _ => ⟨hbuffered', hnone⟩, fun hne => absurd (congrArg state hconn) hne,
        fun a' ha' _ => ?_⟩
      · rw [hanswered, hconn]
        exact hok.peer
      · rw [hanswered] at ha'
        exact hok.completed ha' hstate hbuffered' (by rw [hconn]) (by rw [hconn])

lemma Stream.Ok.step_read {input : ReadInput} (hmeets : s.Meets streams port (.read input))
    (h : s.step (.read input) = some s') : s'.Ok streams port := by
  rw [Stream.step] at h
  split_ifs at h
  simp only [some.injEq] at h
  subst h
  cases hopen : s.link.conn.connectionOpen with
  | false =>
    have hsame : connectionRead s.link.address s.link.conn (s.link.before ++ s.link.after) input =
        ((s.link.conn, .ebadf), s.link.before ++ s.link.after) := by
      rw [connectionRead, if_pos hopen]
    rw [hsame]
    refine ⟨⟨hok.link.localPort, hok.link.handshake⟩, hok.peer, fun hclosed => ?_, hok.idle, fun a ha hdone => ?_⟩
    · obtain ⟨hbuffered, hnone⟩ := hok.unopened hclosed
      exact ⟨hbuffered, by rw [hnone]; rfl⟩
    · dsimp only [bytes]
      rw [append_nil]
      exact hok.delivered a ha hdone
  | true =>
    have hstate : s.link.conn.state = .established := by
      by_contra hne
      exact nomatch hopen.symm.trans (hok.idle hne).1
    have hend := SameEnd.connectionRead s.link.address s.link.conn (s.link.before ++ s.link.after) input
    have hread : ∀ a, s.link.answered = some a → _ := fun a ha =>
      connectionRead_spec (hok.delivered a ha hstate) (fun seg harrival =>
        ⟨(hmeets seg harrival).1.peer a ha hstate, (hmeets seg harrival).2⟩) s.link.address (s.link.before ++ s.link.after)
    refine ⟨⟨hend.localPort.trans hok.link.localPort, ?_⟩, fun a ha => ?_, fun hclosed => ?_, fun hne => ?_,
      fun a ha _ => hread a ha⟩
    · have hhandshake := hok.link.handshake
      cases hold : s.link.answered with
      | none =>
        rw [hold] at hhandshake
        exact nomatch hstate.symm.trans hhandshake.1
      | some a => exact .inl (hend.state.trans hstate)
    · dsimp only
      rw [hend.remoteIp, hend.remotePort]
      exact hok.peer a ha
    · exact nomatch (hend.connectionOpen.trans hopen).symm.trans hclosed
    · exact absurd (hend.state.trans hstate) hne

lemma Stream.Ok.step {e : StreamEvent} (hmeets : s.Meets streams port e)
    (h : s.step e = some s') : s'.Ok streams port := by
  cases e with
  | accept frame isn clock => exact hok.accept hmeets h
  | acceptFrameMissing => exact hok.accept (fun _ hseg => by cases hseg) h
  | other current seg => exact hok.step_other hmeets h
  | read input => exact hok.step_read hmeets h
  | park | change before after =>
    cases h
    exact ⟨⟨hok.link.localPort, hok.link.handshake⟩, hok.peer, hok.unopened, hok.idle, hok.delivered⟩

end
end Runs

def Stream.run (s : Stream) (events : List StreamEvent) : Option Stream := events.foldlM Stream.step s

def Stream.MeetsAll (streams : Answered → Bytes) (port : Port) (s : Stream) : List StreamEvent → Prop
  | [] => True
  | e :: events => s.Meets streams port e ∧ ∀ s', s.step e = some s' → s'.MeetsAll streams port events

lemma Stream.ok_streamAt (streams : Answered → Bytes) (address : ℕ) (rx : Bytes) (port : Port)
    (now counterFrequency : ℤ) (before after : List Entry) :
    (streamAt address rx port now counterFrequency before after).Ok streams port :=
  ⟨Listening.ok_listeningAt .., nofun, fun _ => ⟨rfl, rfl⟩, fun _ => ⟨rfl, rfl⟩, nofun⟩

lemma Stream.Ok.run {streams : Answered → Bytes} {port : Port} {s s' : Stream} {events : List StreamEvent}
    (hok : s.Ok streams port) (hmeets : s.MeetsAll streams port events) (h : s.run events = some s') :
    s'.Ok streams port := by
  induction events generalizing s with
  | nil =>
    cases h
    exact hok
  | cons e events ih =>
    obtain ⟨mid, hstep, hrun⟩ := bind_eq_some_iff.mp h
    exact ih (hok.step hmeets.1 hstep) (hmeets.2 mid hstep) hrun

/-- In every run whose steps meet the condition, what reads transferred begins the peer's stream, and what is
buffered goes on from there up to `rcvNxt`. -/
theorem tcp_delivers (streams : Answered → Bytes) (address : ℕ) (rx : Bytes) (port : Port)
    (now counterFrequency : ℤ) (before after : List Entry) (events : List StreamEvent) (s : Stream)
    (hmeets : (streamAt address rx port now counterFrequency before after).MeetsAll streams port events)
    (hrun : (streamAt address rx port now counterFrequency before after).run events = some s) (a : Answered)
    (ha : s.link.answered = some a) (hstate : s.link.conn.state = .established) :
    s.transferred ++ s.link.conn.buffered <+: streams a ∧
      (s.link.conn.peerFin = true → s.transferred ++ s.link.conn.buffered = streams a) ∧
      s.link.conn.rcvNxt = a.seq + 1 + BitVec.ofNat 32 (s.transferred ++ s.link.conn.buffered).length +
        if s.link.conn.peerFin = true then 1 else 0 := by
  have hok := (Stream.ok_streamAt streams address rx port now counterFrequency before after).run hmeets hrun
  have hdelivered := hok.delivered a ha hstate
  exact ⟨hdelivered.held, hdelivered.ended, hdelivered.rcvNxt⟩

def acceptedWith (body : Bytes) (h : body.length ≤ 1460) : List StreamEvent :=
  [.accept (some (segmentAt tcpFlagSyn 1 [] nil_fits)) 0 ⟨0, 0, 0⟩, .park,
    .accept (some (segmentAt tcpFlagAck 2 body h)) 0 ⟨0, 0, 0⟩, .park]

def readOf (seg : Segment) (rangeFault : Bool) : StreamEvent := .read ⟨4, .segment seg, rangeFault, false⟩

lemma fromPeer_oneByte : FromPeer 1 [7] 0 oneByte :=
  .data 0 (by decide) (by decide) (by decide) (by decide) (by decide) (by decide)

lemma acceptedWith_meets : (streamAt 1 [] 80 0 1 [] []).MeetsAll (fun _ => [7]) 80
    (acceptedWith [] (by decide) ++ [readOf oneByte false]) := by
  refine ⟨fun seg _ => ⟨nofun, nofun⟩, fun _ h => ?_⟩
  cases h
  refine ⟨trivial, fun _ h => ?_⟩
  cases h
  refine ⟨fun seg hseg => ⟨fun a _ hdone => (nomatch hdone), fun a _ _ _ _ => ?_⟩, fun _ h => ?_⟩
  · cases hseg
    rfl
  cases h
  refine ⟨trivial, fun _ h => ?_⟩
  cases h
  refine ⟨fun seg hseg => ?_, fun _ _ => trivial⟩
  cases hseg
  refine ⟨⟨fun a ha _ _ => ?_, fun a _ hne => absurd rfl hne⟩, nofun⟩
  cases ha
  exact fromPeer_oneByte

theorem tcp_delivers_oneByte : ∃ s, (streamAt 1 [] 80 0 1 [] []).run
      (acceptedWith [] (by decide) ++ [readOf oneByte false]) = some s ∧ s.transferred = [7] ∧
    s.transferred ++ s.link.conn.buffered <+: [7] :=
  ⟨_, rfl, rfl, (tcp_delivers (fun _ => [7]) 1 [] 80 0 1 [] [] (acceptedWith [] (by decide) ++ [readOf oneByte false]) _
    acceptedWith_meets rfl ⟨0x0A000202, 4000, 1, 0⟩ rfl rfl).1⟩

/-- The accept forgets the byte that came with the final ACK: it is acknowledged, and neither transferred nor
buffered. -/
theorem finalAck_data_lost : ∃ s, (streamAt 1 [] 80 0 1 [] []).run (acceptedWith [7] (by decide)) = some s ∧
    s.link.answered = some ⟨0x0A000202, 4000, 1, 0⟩ ∧ s.link.conn.state = .established ∧
      s.link.conn.rcvNxt = 1 + 1 + 1 ∧ s.transferred = [] ∧ s.link.conn.buffered = [] :=
  ⟨_, rfl, rfl, rfl, rfl, rfl, rfl⟩

end Takibi.Tcp
