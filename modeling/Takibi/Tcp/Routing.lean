import Takibi.Tcp.Connection

/-! Which process receives a segment: the connection's own reader and a receive of another process, which
routes it, each have their own copy of what is done with it. -/

namespace Takibi.Tcp
open TcpConnection Segment List
variable {conn : TcpConnection} {seg : Segment} {current address : ℕ} {before after : List Entry}

def kernelTcpReceiveOnce (current : ℕ) (conn : TcpConnection) (seg : Segment) (entries : List Entry) :
    TcpConnection × List Entry × TcpReceiveDisposition × Bool :=
  match receiveSegment conn seg with
  | (conn, .elsewhere, _) =>
    let (entries, result) := tcpRouteReceivedSegment current seg entries
    (conn, entries, .elsewhere, decide (result = .ack))
  | (conn, disposition, acked) => (conn, entries, disposition, acked)

/-- What is seen of a connection after a segment was taken: its state, the bytes to be read and whether an
acknowledgement was sent. -/
structure View where
  rcvNxt : Seq
  peerFin : Bool
  peerReset : Bool
  resetErrorPending : Bool
  buffered : Bytes
  acked : Bool
  deriving DecidableEq

def viewOf (conn : TcpConnection) (buffered : Bytes) (acked : Bool) : View :=
  ⟨conn.rcvNxt, conn.peerFin, conn.peerReset, conn.resetErrorPending, buffered, acked⟩

def ownView (current : ℕ) (conn : TcpConnection) (seg : Segment) (entries : List Entry) : View :=
  match kernelTcpReceiveOnce current conn seg entries with
  | (conn, _, .payload length _, acked) => viewOf conn (conn.rx.take length) acked
  | (conn, _, _, acked) => viewOf conn conn.buffered acked

def Segment.plain (seg : Segment) : Bool := seg.ack && seg.header.tcpHdrLen == 20

def Alike (conn : TcpConnection) (seg : Segment) : Prop :=
  if seg.rst then
    conn.peerOpen → if seg.plain then seg.payloadLength = 0 else seg.header.seq ≠ conn.rcvNxt
  else
    seg.fin → (conn.peerFin → seg.header.seq + 1 ≠ conn.rcvNxt) ∧
      (conn.peerOpen → seg.payloadLength = 0 → seg.header.seq = conn.rcvNxt → seg.plain)

lemma Segment.plain_iff : seg.plain = true ↔ seg.ack = true ∧ seg.header.tcpHdrLen = 20 := by
  simp [plain]

lemma Segment.body_length_of_plain (h : seg.plain = true) : seg.body.length = seg.payloadLength := by
  rw [seg.body_length, payloadLength, (plain_iff.mp h).2]

/-! ## The walk -/

lemma routeToTarget_of_not_matches (h : conn.tupleMatches seg = false) : routeToTarget seg conn = none := by
  simp [routeToTarget, h]

lemma routeWalk_append (current : ℕ) (h : ∀ entry ∈ before, entry.conn.tupleMatches seg = false)
    (entries : List Entry) : routeWalk current seg (before ++ entries) =
      (before ++ (routeWalk current seg entries).1, (routeWalk current seg entries).2) := by
  induction before with
  | nil => rfl
  | cons entry before ih =>
    have hentry := routeToTarget_of_not_matches (h entry (mem_cons_self ..))
    have hrest := ih fun e he => h e (mem_cons_of_mem _ he)
    simp only [cons_append, routeWalk, hentry, hrest, ite_self]

variable {entries : List Entry}

lemma routeWalk_of_not_matches (current : ℕ)
    (h : ∀ entry ∈ entries, entry.conn.tupleMatches seg = false) :
    routeWalk current seg entries = (entries, .noReceiver) := by
  have hwalk := routeWalk_append current h []
  simpa [routeWalk] using hwalk

lemma tcpRouteReceivedSegment_of_not_matches (current : ℕ)
    (h : ∀ entry ∈ entries, entry.conn.tupleMatches seg = false) :
    tcpRouteReceivedSegment current seg entries = (entries, .noReceiver) := by
  simp only [tcpRouteReceivedSegment, routeWalk_of_not_matches current h, ite_self]

def routed (conn : TcpConnection) (seg : Segment) : TcpConnection × TcpReceiveRouteResult :=
  if seg.plain then (routeToTarget seg conn).getD (conn, .noReceiver) else (conn, .noReceiver)

lemma tcpRouteReceivedSegment_eq_routed (haddr : address ≠ current)
    (hbefore : ∀ entry ∈ before, entry.conn.tupleMatches seg = false)
    (hafter : ∀ entry ∈ after, entry.conn.tupleMatches seg = false) :
    tcpRouteReceivedSegment current seg (before ++ ⟨address, false, conn⟩ :: after) =
      (before ++ ⟨address, false, (routed conn seg).1⟩ :: after, (routed conn seg).2) := by
  have hlen := not_lt.mpr seg.payloadLength_le
  rw [tcpRouteReceivedSegment, routeWalk_append current hbefore, routeWalk,
    routeWalk_of_not_matches current hafter]
  cases hack : seg.ack with
  | false => simp [routed, plain, hack]
  | true =>
    by_cases hhdr : seg.header.tcpHdrLen = 20
    · cases htarget : routeToTarget seg conn <;> simp [routed, plain, hack, hhdr, hlen, htarget, haddr]
    · simp [routed, plain, hack, hhdr]

/-! ## The two receivers -/

def received (conn : TcpConnection) (seg : Segment) : View :=
  match receiveSegment conn seg with
  | (conn, .payload length _, acked) => viewOf conn (conn.rx.take length) acked
  | (conn, _, acked) => viewOf conn conn.buffered acked

lemma acked_of_elsewhere {conn' : TcpConnection} {acked : Bool}
    (h : receiveSegment conn seg = (conn', .elsewhere, acked)) : acked = false := by
  rw [receiveSegment] at h
  split at h
  · cases h
  · cases h
  · split at h <;> cases h
  · exact (Prod.mk.inj (Prod.mk.inj h).2).2.symm

lemma ownView_eq_received (h : ∀ entry ∈ entries, entry.conn.tupleMatches seg = false) :
    ownView address conn seg entries = received conn seg := by
  rw [ownView, kernelTcpReceiveOnce, received, tcpRouteReceivedSegment_of_not_matches address h]
  rcases hreceive : receiveSegment conn seg with ⟨conn', disposition, acked⟩
  cases disposition with
  | elsewhere =>
    obtain rfl := acked_of_elsewhere hreceive
    rfl
  | _ => rfl

def routedView (conn : TcpConnection) (seg : Segment) : View :=
  viewOf (routed conn seg).1 (routed conn seg).1.buffered (decide ((routed conn seg).2 = .ack))

section Established
variable (htuple : conn.tupleMatches seg = true) (hstate : conn.state = .established)
variable (hopen : conn.connectionOpen = true) (hempty : conn.socketBufferLength ≤ conn.socketBufferOffset)

lemma routedView_of_not_plain (hplain : seg.plain = false) :
    routedView conn seg = viewOf conn conn.buffered false := by
  simp [routedView, routed, hplain]

include htuple hstate hopen

lemma routedView_of_done (hdone : conn.peerOpen = false) : routedView conn seg = viewOf conn conn.buffered false := by
  have hnone : routeToTarget seg conn = none := by
    simp [routeToTarget, htuple, hstate, hopen, hdone, tcpAckCompletesHandshake]
  simp [routedView, routed, hnone]

lemma routedView_of_bare (hplain : seg.plain = true) (hpeer : conn.peerOpen = true)
    (hbare : seg.payloadLength = 0) : routedView conn seg =
      if seg.header.seq = conn.rcvNxt ∧ seg.rst then viewOf conn.takeReset conn.buffered false
      else if seg.header.seq = conn.rcvNxt ∧ seg.fin then viewOf conn.takeFin conn.buffered true
      else viewOf conn conn.buffered false := by
  by_cases hseq : seg.header.seq = conn.rcvNxt
  · cases hrst : seg.rst <;> cases hfin : seg.fin <;>
      simp [routedView, routed, hplain, routeToTarget, htuple, hstate, hopen, hpeer, tcpAckCompletesHandshake,
        hbare, hseq, hrst, hfin, buffered, takeReset, takeFin]
  · simp [routedView, routed, hplain, routeToTarget, htuple, hstate, hopen, hpeer, tcpAckCompletesHandshake,
      hbare, hseq]

include hempty

lemma routedView_of_payload (hplain : seg.plain = true) (hpeer : conn.peerOpen = true)
    (hpayload : seg.payloadLength ≠ 0) : routedView conn seg =
      if seg.header.seq ≠ conn.rcvNxt then viewOf conn conn.buffered true
      else
        let conn' := { conn with rcvNxt := conn.rcvNxt + BitVec.ofNat 32 seg.payloadLength }
        if seg.fin then viewOf conn'.takeFin seg.body true else viewOf conn' seg.body false := by
  have hvacant : ¬conn.socketBufferOffset < conn.socketBufferLength := not_lt.mpr hempty
  have hbody := seg.body_length_of_plain hplain
  have htake : seg.body.take seg.payloadLength = seg.body := take_of_length_le hbody.le
  have hfill : conn.frameFill seg.body = some (conn.copyRx seg.body) := by
    refine if_neg (not_lt.mpr ?_)
    have hle := seg.payloadLength_le
    omega
  by_cases hseq : seg.header.seq = conn.rcvNxt
  · have hread : (seg.body ++ conn.rx.drop seg.body.length).take seg.payloadLength = seg.body := by
      rw [← hbody, take_left]
    cases hfin : seg.fin <;>
      simp [routedView, routed, hplain, routeToTarget, htuple, hstate, hopen, hpeer, tcpAckCompletesHandshake,
        hpayload, hseq, hvacant, hfin, htake, hfill, recordPayload, copyRx,
        takeFin, buffered, hread, viewOf]
  · simp [routedView, routed, hplain, routeToTarget, htuple, hstate, hopen, hpeer, tcpAckCompletesHandshake,
      hpayload, hseq]

end Established

lemma receiveDisposition_of_matches (htuple : conn.tupleMatches seg = true) : receiveDisposition conn seg =
    if seg.rst then
      if seg.header.seq = conn.rcvNxt ∧ conn.peerOpen then (conn.takeReset, .peerReset) else (conn, .protocolDrop)
    else if (conn.peerOpen ∧ seg.fin) ∧ seg.payloadLength = 0 ∧ seg.header.seq = conn.rcvNxt then
      (conn.takeFin, .peerFinAck)
    else if (conn.peerFin ∧ seg.fin) ∧ seg.header.seq + 1 = conn.rcvNxt then (conn, .ackOnly)
    else if (conn.peerOpen ∧ seg.plain) ∧ seg.payloadLength ≠ 0 then
      if seg.header.seq ≠ conn.rcvNxt then (conn, .ackOnly)
      else (conn.copyRx seg.body, .payload seg.payloadLength seg.fin)
    else (conn, .elsewhere) := by
  have hle := seg.hdr_le
  have hmax := seg.len_le
  have hbare : seg.header.tcpLen = seg.header.tcpHdrLen ↔ seg.payloadLength = 0 := by
    rw [payloadLength]
    omega
  have hdata : (conn.peerOpen && seg.ack && seg.header.tcpHdrLen == 20 && decide (seg.header.tcpLen > 20)) = true ↔
      (conn.peerOpen = true ∧ seg.plain = true) ∧ seg.payloadLength ≠ 0 := by
    simp only [Bool.and_eq_true, beq_iff_eq, decide_eq_true_eq, plain_iff, payloadLength]
    constructor
    · rintro ⟨⟨⟨hpeer, hack⟩, hhdr⟩, hlen⟩
      exact ⟨⟨hpeer, hack, hhdr⟩, by omega⟩
    · rintro ⟨⟨hpeer, hack, hhdr⟩, hlen⟩
      exact ⟨⟨⟨hpeer, hack⟩, hhdr⟩, by omega⟩
  rw [receiveDisposition]
  simp only [htuple, Bool.true_and]
  refine if_congr Iff.rfl rfl (if_congr ?_ rfl (if_congr ?_ rfl ?_))
  · simp only [Bool.and_eq_true, beq_iff_eq, hbare, and_assoc]
  · simp only [Bool.and_eq_true, beq_iff_eq]
  by_cases hpayload : (conn.peerOpen = true ∧ seg.plain = true) ∧ seg.payloadLength ≠ 0
  · have hhdr := (plain_iff.mp hpayload.1.2).2
    have hlen : seg.header.tcpLen - 20 = seg.payloadLength := by rw [payloadLength, hhdr]
    have htake : seg.body.take seg.payloadLength = seg.body :=
      take_of_length_le (seg.body_length_of_plain hpayload.1.2).le
    have hrange : seg.payloadLength ≥ 1 ∧ seg.payloadLength ≤ 1460 :=
      ⟨Nat.one_le_iff_ne_zero.mpr hpayload.2, seg.payloadLength_le⟩
    rw [if_pos (hdata.mpr hpayload), if_pos hpayload, hlen, if_pos hrange, htake]
  · rw [if_neg (mt hdata.mp hpayload), if_neg hpayload]

lemma TcpConnection.peerFin_of_open (h : conn.peerOpen = true) : conn.peerFin = false ∧ conn.peerReset = false := by
  simpa [peerOpen] using h

section Received
variable (htuple : conn.tupleMatches seg = true)
include htuple

lemma received_of_reset (hrst : seg.rst = true) : received conn seg =
    if seg.header.seq = conn.rcvNxt ∧ conn.peerOpen then viewOf conn.takeReset conn.buffered false
    else viewOf conn conn.buffered false := by
  rw [received, receiveSegment, receiveDisposition_of_matches htuple, if_pos hrst]
  split_ifs <;> rfl

lemma received_of_done (hrst : seg.rst = false) (hdone : conn.peerOpen = false) : received conn seg =
    viewOf conn conn.buffered (decide ((conn.peerFin ∧ seg.fin) ∧ seg.header.seq + 1 = conn.rcvNxt)) := by
  rw [received, receiveSegment, receiveDisposition_of_matches htuple, if_neg (Bool.eq_false_iff.mp hrst),
    if_neg (by simp [hdone])]
  by_cases hagain : (conn.peerFin = true ∧ seg.fin = true) ∧ seg.header.seq + 1 = conn.rcvNxt
  · rw [if_pos hagain, decide_eq_true hagain]
  · rw [if_neg hagain, if_neg (by simp [hdone]), decide_eq_false hagain]

lemma received_of_bare (hrst : seg.rst = false) (hpeer : conn.peerOpen = true)
    (hbare : seg.plain = false ∨ seg.payloadLength = 0) : received conn seg =
      if seg.fin ∧ seg.payloadLength = 0 ∧ seg.header.seq = conn.rcvNxt then viewOf conn.takeFin conn.buffered true
      else viewOf conn conn.buffered false := by
  have hdata : ¬((conn.peerOpen = true ∧ seg.plain = true) ∧ seg.payloadLength ≠ 0) := by
    rintro ⟨⟨-, hplain⟩, hpayload⟩
    obtain h | h := hbare
    · rw [h] at hplain
      cases hplain
    · exact hpayload h
  rw [received, receiveSegment, receiveDisposition_of_matches htuple, if_neg (Bool.eq_false_iff.mp hrst)]
  by_cases hfin : seg.fin = true ∧ seg.payloadLength = 0 ∧ seg.header.seq = conn.rcvNxt
  · rw [if_pos ⟨⟨hpeer, hfin.1⟩, hfin.2⟩, if_pos hfin]
    rfl
  · rw [if_neg fun h => hfin ⟨h.1.2, h.2⟩, if_neg (by simp [peerFin_of_open hpeer]), if_neg hdata,
      if_neg hfin]

lemma received_of_payload (hrst : seg.rst = false) (hplain : seg.plain = true) (hpeer : conn.peerOpen = true)
    (hpayload : seg.payloadLength ≠ 0) : received conn seg =
      if seg.header.seq ≠ conn.rcvNxt then viewOf conn conn.buffered true
      else
        let conn' := { conn with rcvNxt := conn.rcvNxt + BitVec.ofNat 32 seg.payloadLength }
        if seg.fin then viewOf conn'.takeFin seg.body true else viewOf conn' seg.body false := by
  have hread : (seg.body ++ conn.rx.drop seg.body.length).take seg.payloadLength = seg.body := by
    rw [← seg.body_length_of_plain hplain, take_left]
  rw [received, receiveSegment, receiveDisposition_of_matches htuple, if_neg (Bool.eq_false_iff.mp hrst),
    if_neg fun h => hpayload h.2.1, if_neg (by simp [peerFin_of_open hpeer]),
    if_pos ⟨⟨hpeer, hplain⟩, hpayload⟩]
  by_cases hseq : seg.header.seq ≠ conn.rcvNxt
  · rw [if_pos hseq, if_pos hseq]
  · rw [if_neg hseq, if_neg hseq]
    cases hfin : seg.fin <;> simp [viewOf, copyRx, takeFin, hread]

end Received

section Alike
variable (htuple : conn.tupleMatches seg = true) (hstate : conn.state = .established)
variable (hopen : conn.connectionOpen = true) (hempty : conn.socketBufferLength ≤ conn.socketBufferOffset)
include htuple hstate hopen hempty

lemma routedView_eq_reset_iff (hrst : seg.rst = true) (hpeer : conn.peerOpen = true) :
    routedView conn seg = received conn seg ↔
      if seg.plain then seg.payloadLength = 0 else seg.header.seq ≠ conn.rcvNxt := by
  have hreset : conn.peerReset = false := (conn.peerFin_of_open hpeer).2
  rw [received_of_reset htuple hrst]
  cases hplain : seg.plain with
  | false =>
    rw [routedView_of_not_plain hplain]
    by_cases hseq : seg.header.seq = conn.rcvNxt <;> simp [hseq, hpeer, viewOf, takeReset, hreset]
  | true =>
    by_cases hbare : seg.payloadLength = 0
    · rw [routedView_of_bare htuple hstate hopen hplain hpeer hbare]
      by_cases hseq : seg.header.seq = conn.rcvNxt <;> simp [hseq, hpeer, hrst, hbare]
    · rw [routedView_of_payload htuple hstate hopen hempty hplain hpeer hbare]
      by_cases hseq : seg.header.seq = conn.rcvNxt
      · cases hfin : seg.fin <;> simp [hseq, hpeer, hbare, viewOf, takeReset, takeFin, hreset]
      · simp [hseq, hbare, viewOf]

lemma routedView_eq_iff_alike : routedView conn seg = received conn seg ↔ Alike conn seg := by
  rw [Alike]
  cases hrst : seg.rst with
  | true =>
    cases hpeer : conn.peerOpen with
    | true => simpa using routedView_eq_reset_iff htuple hstate hopen hempty hrst hpeer
    | false =>
      rw [received_of_reset htuple hrst, routedView_of_done htuple hstate hopen hpeer]
      simp [hpeer]
  | false =>
    cases hpeer : conn.peerOpen with
    | false =>
      rw [received_of_done htuple hrst hpeer, routedView_of_done htuple hstate hopen hpeer]
      cases hfin : seg.fin <;> cases hdone : conn.peerFin <;> simp [viewOf]
    | true =>
      have hfinless := (conn.peerFin_of_open hpeer).1
      cases hplain : seg.plain with
      | false =>
        rw [routedView_of_not_plain hplain, received_of_bare htuple hrst hpeer (.inl hplain)]
        cases hfin : seg.fin <;> by_cases hbare : seg.payloadLength = 0 <;>
          by_cases hseq : seg.header.seq = conn.rcvNxt <;>
            simp [hbare, hseq, viewOf, takeFin, hfinless]
      | true =>
        have halike : routedView conn seg = received conn seg := by
          by_cases hbare : seg.payloadLength = 0
          · rw [routedView_of_bare htuple hstate hopen hplain hpeer hbare,
              received_of_bare htuple hrst hpeer (.inr hbare)]
            by_cases hseq : seg.header.seq = conn.rcvNxt <;> simp [hrst, hbare, hseq]
          · rw [routedView_of_payload htuple hstate hopen hempty hplain hpeer hbare,
              received_of_payload htuple hrst hplain hpeer hbare]
        simp [halike, hfinless]

end Alike

/-- A segment for an established, open connection with nothing to be read leaves the same state and is
acknowledged the same whichever process takes it, if and only if it is one of `Alike`. -/
theorem receiver_alike (current address : ℕ) (conn : TcpConnection) (seg : Segment) (before after : List Entry)
    (haddr : address ≠ current) (hbefore : ∀ entry ∈ before, entry.conn.tupleMatches seg = false)
    (hafter : ∀ entry ∈ after, entry.conn.tupleMatches seg = false) (htuple : conn.tupleMatches seg = true)
    (hstate : conn.state = .established) (hopen : conn.connectionOpen = true)
    (hempty : conn.socketBufferLength ≤ conn.socketBufferOffset) :
    ∃ conn' result, tcpRouteReceivedSegment current seg (before ++ ⟨address, false, conn⟩ :: after) =
        (before ++ ⟨address, false, conn'⟩ :: after, result) ∧
      (viewOf conn' conn'.buffered (decide (result = .ack)) = ownView address conn seg (before ++ after) ↔
        Alike conn seg) := by
  refine ⟨_, _, tcpRouteReceivedSegment_eq_routed haddr hbefore hafter, ?_⟩
  have hothers : ∀ entry ∈ before ++ after, entry.conn.tupleMatches seg = false := by
    intro entry hentry
    obtain h | h := mem_append.mp hentry
    · exact hbefore entry h
    · exact hafter entry h
  rw [ownView_eq_received hothers]
  exact routedView_eq_iff_alike htuple hstate hopen hempty

def readerAt (peerFin : Bool) : TcpConnection where
  state := .established
  remoteIp := 0x0A000202
  remotePort := 4000
  localPort := 80
  sndNxt := 1
  rcvNxt := 2
  receivedLength := 0
  connectionOpen := true
  peerFin := peerFin
  peerReset := false
  resetErrorPending := false
  socketBufferLength := 0
  socketBufferOffset := 0
  acceptStartAt := 0
  acceptDeadlineTicks := 30
  acceptRetryTicks := 1
  acceptSynAckSentAt := 0
  acceptSynAckRetries := 0
  rx := []

def segmentAt (flags : BitVec 8) (seq : Seq) (body : Bytes) (hbody : body.length ≤ 1460) : Segment where
  source := 0x0A000202
  header := ⟨20 + body.length, 20, 4000, 80, flags, seq, 1⟩
  body := body
  hdr_min := le_rfl
  hdr_le := Nat.le_add_right ..
  len_le := Nat.add_le_add_left hbody 20
  body_length := (Nat.add_sub_cancel_left ..).symm

lemma nil_fits : ([] : Bytes).length ≤ 1460 := by decide

def oneByte : Segment := segmentAt tcpFlagAck 2 [7] (by decide)

theorem receiver_alike_inOrder : ∃ conn' result,
    tcpRouteReceivedSegment 2 oneByte [⟨1, false, readerAt false⟩] = ([⟨1, false, conn'⟩], result) ∧
      (viewOf conn' conn'.buffered (decide (result = .ack)) = ownView 1 (readerAt false) oneByte [] ↔
        Alike (readerAt false) oneByte) :=
  receiver_alike 2 1 (readerAt false) oneByte [] [] (by decide) (forall_mem_nil _) (forall_mem_nil _)
    (by decide) rfl rfl le_rfl

/-- The peer's FIN again, because the acknowledgement of the first was lost. -/
def finAgain : Segment := segmentAt (tcpFlagAck ||| tcpFlagFin) 1 [] nil_fits

/-- The reader acknowledges the FIN again. Routed, it is dropped. -/
theorem finAgain_not_alike : (readerAt true).tupleMatches finAgain = true ∧
    (ownView 1 (readerAt true) finAgain []).acked = true ∧
      tcpRouteReceivedSegment 2 finAgain [⟨1, false, readerAt true⟩] =
        ([⟨1, false, readerAt true⟩], .noReceiver) := by
  decide

end Takibi.Tcp
