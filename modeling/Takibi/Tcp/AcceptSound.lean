import Takibi.Tcp.Accept
import Takibi.Tcp.Routing

/-! An accept needs a completed handshake, and a completed handshake is an accept, in every interleaving of
the accept's steps and the receives of other processes. -/

namespace Takibi.Tcp
open TcpConnection Bool Option Nat
variable {conn : TcpConnection} {seg : Segment} {timer : SynAckTimer} {isn : Seq}

structure Completes (a : Answered) (port : Port) (seg : Segment) : Prop where
  ack : seg.ack = true
  syn : seg.syn = false
  rst : seg.rst = false
  ip : seg.source = a.ip
  srcPort : seg.header.srcPort = a.port
  dstPort : seg.header.dstPort = port
  ackNumber : seg.header.ack = a.isn + 1
  seq : seg.header.seq = a.seq + 1

lemma has_syn_or_rst (header : TcpSegmentHeader) :
    header.has (tcpFlagSyn ||| tcpFlagRst) = (header.has tcpFlagSyn || header.has tcpFlagRst) := by
  have hflags : ∀ flags : BitVec 8, (flags &&& (tcpFlagSyn ||| tcpFlagRst) != 0) =
      (flags &&& tcpFlagSyn != 0 || flags &&& tcpFlagRst != 0) := by decide
  exact hflags header.flags

def Awaiting (state : ConnState) (retries : ℕ) : Prop :=
  state = .synRcvd ∨ state = .listen ∧ tcpAcceptAbandoned ≤ retries

variable {retries : ℕ} {state : ConnState}

lemma tcpAckCompletesHandshake_iff {sndNxt rcvNxt : Seq} :
    tcpAckCompletesHandshake state retries sndNxt rcvNxt seg.header = true ↔
      Awaiting state retries ∧ seg.ack = true ∧ seg.syn = false ∧ seg.rst = false ∧
        seg.header.ack = sndNxt ∧ seg.header.seq = rcvNxt := by
  have hawaiting : Awaiting state retries ↔
      ¬(state ≠ .synRcvd ∧ (state ≠ .listen ∨ retries < tcpAcceptAbandoned)) := by
    rw [Awaiting]
    by_cases hsyn : state = .synRcvd <;> by_cases hlisten : state = .listen <;> simp [hsyn, hlisten]
  rw [tcpAckCompletesHandshake, has_syn_or_rst, hawaiting]
  constructor
  · intro h
    split_ifs at h with hstate hack hflags hnumber
    have hnone : seg.syn = false ∧ seg.rst = false := by simpa [Segment.syn, Segment.rst] using hflags
    exact ⟨hstate, of_not_eq_false hack, hnone.1, hnone.2, not_not.mp hnumber, beq_iff_eq.mp h⟩
  · rintro ⟨hstate, hack, hsyn, hrst, hnumber, hseq⟩
    have hflags : ¬(seg.header.has tcpFlagSyn || seg.header.has tcpFlagRst) = true := by
      simpa [Segment.syn, Segment.rst] using And.intro hsyn hrst
    have hset : ¬seg.header.has tcpFlagAck = false := eq_false_iff.not_left.mpr hack
    rw [if_neg hstate, if_neg hset, if_neg hflags, if_neg (not_not.mpr hnumber), beq_iff_eq.mpr hseq]

structure Pending (a : Answered) (conn : TcpConnection) (retries : ℕ) : Prop where
  awaiting : Awaiting conn.state retries
  remoteIp : conn.remoteIp = a.ip
  remotePort : conn.remotePort = a.port
  rcvNxt : conn.rcvNxt = a.seq + 1
  sndNxt : conn.sndNxt = a.isn + 1

def Handshake (conn : TcpConnection) (retries : ℕ) : Option Answered → Prop
  | none => conn.state = .listen ∧ retries < tcpAcceptAbandoned
  | some a => conn.state = .established ∨ Pending a conn retries

lemma Awaiting.ne_established (h : Awaiting state retries) : state ≠ .established := by
  rintro rfl
  obtain h | h := h
  · cases h
  · cases h.1

variable {answered : Option Answered} {a : Answered} {conn' : TcpConnection} {clock : AcceptClock}

lemma Handshake.pending (h : Handshake conn retries answered)
    (hawaiting : Awaiting conn.state retries) :
    ∃ a, answered = some a ∧ Pending a conn retries := by
  cases answered with
  | none =>
    obtain ⟨hstate, hretries⟩ := h
    obtain hw | hw := hawaiting
    · rw [hstate] at hw
      cases hw
    · omega
  | some a => exact ⟨a, rfl, h.resolve_left hawaiting.ne_established⟩

lemma Handshake.completes (h : Handshake conn retries answered)
    (hport : seg.header.dstPort = conn.localPort) (hsrc : seg.header.srcPort = conn.remotePort)
    (hip : seg.source = conn.remoteIp)
    (hcompletes : tcpAckCompletesHandshake conn.state retries conn.sndNxt conn.rcvNxt seg.header = true) :
    ∃ a, answered = some a ∧ Completes a conn.localPort seg := by
  obtain ⟨hawaiting, hack, hsyn, hrst, hnumber, hseq⟩ := tcpAckCompletesHandshake_iff.mp hcompletes
  obtain ⟨a, rfl, hpending⟩ := h.pending hawaiting
  exact ⟨a, rfl, hack, hsyn, hrst, hip.trans hpending.remoteIp, hsrc.trans hpending.remotePort, hport,
    hnumber.trans hpending.sndNxt, hseq.trans hpending.rcvNxt⟩

lemma Pending.completes (h : Pending a conn retries) (hseg : Completes a conn.localPort seg) :
    tcpAckCompletesHandshake conn.state retries conn.sndNxt conn.rcvNxt seg.header = true :=
  tcpAckCompletesHandshake_iff.mpr ⟨h.awaiting, hseg.ack, hseg.syn, hseg.rst, hseg.ackNumber.trans h.sndNxt.symm,
    hseg.seq.trans h.rcvNxt.symm⟩

/-! ## The accept step -/

lemma state_acceptCompleted (conn : TcpConnection) (seg : Segment) :
    (acceptCompleted conn seg).state = .established ∧ (acceptCompleted conn seg).localPort = conn.localPort := by
  rw [acceptCompleted]
  dsimp only
  split_ifs
  · rw [frameFill]
    split_ifs <;> exact ⟨rfl, rfl⟩
  · exact ⟨rfl, rfl⟩
  · exact ⟨rfl, rfl⟩

lemma acceptSegment_cases {timer' : SynAckTimer} {taken : AcceptTaken} {now : ℤ}
    (h : acceptSegment conn timer seg isn now = some (conn', timer', taken)) :
    (taken = .syn ∧ timer' = ⟨now, 0⟩ ∧ conn' = { conn with
        remoteIp := seg.source
        remotePort := seg.header.srcPort
        rcvNxt := seg.header.seq + 1
        sndNxt := isn + 1
        state := .synRcvd }) ∨
      (taken = .reset ∧ timer' = { timer with retries := 0 } ∧ conn' = { conn with state := .listen }) ∨
      (taken = .completed ∧ conn' = acceptCompleted conn seg ∧ seg.header.dstPort = conn.localPort ∧
        seg.header.srcPort = conn.remotePort ∧ seg.source = conn.remoteIp ∧
          tcpAckCompletesHandshake conn.state timer.retries conn.sndNxt conn.rcvNxt seg.header = true) := by
  rw [acceptSegment] at h
  split_ifs at h with hport hsyn hreset hcompletes
  all_goals
    simp only [some.injEq, Prod.mk.injEq] at h
    obtain ⟨rfl, rfl, rfl⟩ := h
  · exact .inl ⟨rfl, rfl, rfl⟩
  · exact .inr (.inl ⟨rfl, rfl, rfl⟩)
  · exact .inr (.inr ⟨rfl, rfl, not_not.mp hport, hcompletes.1.1, hcompletes.1.2, hcompletes.2⟩)

lemma Handshake.acceptTimer (h : Handshake conn timer.retries answered) (now : ℤ) :
    Handshake (acceptTimer conn timer now).1 (acceptTimer conn timer now).2.retries answered ∧
      (acceptTimer conn timer now).1.localPort = conn.localPort ∧
        ((acceptTimer conn timer now).1.state = .established → conn.state = .established) := by
  rw [Tcp.acceptTimer]
  dsimp only
  generalize (if timer.retries > tcpAcceptAbandoned then _ else _ : ℤ) = backoff
  split_ifs with hretry hgive habandoned hbackoff
  · obtain ⟨a, rfl, hpending⟩ := h.pending (.inl hretry.1)
    exact ⟨.inr { hpending with awaiting := .inl hretry.1 }, rfl, fun hstate => hstate⟩
  · obtain ⟨a, rfl, hpending⟩ := h.pending (.inl hgive.1)
    exact ⟨.inr { hpending with awaiting := .inr ⟨rfl, le_rfl⟩ }, rfl, nofun⟩
  · obtain ⟨a, rfl, hpending⟩ := h.pending (.inr ⟨habandoned.1, habandoned.2.1⟩)
    exact ⟨.inr { hpending with awaiting := .inr ⟨habandoned.1, habandoned.2.1.trans (le_succ _)⟩ },
      rfl, fun hstate => hstate⟩
  · exact ⟨h, rfl, fun hstate => hstate⟩
  · exact ⟨h, rfl, fun hstate => hstate⟩

lemma acceptFinish_spec {entries : List Entry} {taken : Option AcceptTaken}
    (h : Handshake conn timer.retries answered) :
    let out := acceptFinish conn timer entries clock taken
    Handshake out.conn out.conn.acceptSynAckRetries answered ∧ out.conn.localPort = conn.localPort ∧
      (out.conn.state = .established → conn.state = .established) := by
  obtain ⟨hnext, hport, hstate⟩ := h.acceptTimer clock.retry
  refine ⟨?_, hport, hstate⟩
  cases answered with
  | none => exact hnext
  | some a => exact hnext.imp (fun h => h) fun hpending => { hpending with }

lemma kernelTcpAcceptStep_spec (current : ℕ) (entries : List Entry) (tx : Bool) (frame : Option Segment)
    (isn : Seq) (clock : AcceptClock) (h : Handshake conn conn.acceptSynAckRetries answered) :
    let out := kernelTcpAcceptStep current conn entries tx frame isn clock
    Handshake out.conn out.conn.acceptSynAckRetries (answeredAfter answered frame isn out.taken) ∧
      out.conn.localPort = conn.localPort ∧
      (conn.state ≠ .established → out.conn.state = .established →
        ∃ seg a, frame = some seg ∧ answered = some a ∧ Completes a conn.localPort seg) := by
  rw [kernelTcpAcceptStep]
  by_cases hdone : conn.state = .established
  · rw [if_pos hdone]
    exact ⟨h, rfl, fun hne => absurd hdone hne⟩
  rw [if_neg hdone]
  by_cases htx : tx = false
  · rw [if_pos htx]
    exact ⟨h, rfl, fun hne hdone' => absurd hdone' hne⟩
  rw [if_neg htx]
  -- The step's copies are the connection's own, until the segment or the timer changes them.
  generalize htimer : (⟨conn.acceptSynAckSentAt, conn.acceptSynAckRetries⟩ : SynAckTimer) = timer
  have hknown : Handshake conn timer.retries answered := by
    rw [← htimer]
    exact h
  cases frame with
  | none =>
    obtain ⟨hnext, hport, hstate⟩ := acceptFinish_spec hknown
    exact ⟨hnext, hport, fun hne hdone' => absurd (hstate hdone') hne⟩
  | some seg =>
    dsimp only
    rcases hsegment : acceptSegment conn timer seg isn clock.syn with _ | ⟨conn', timer', taken⟩
    · rcases tcpRouteReceivedSegment current seg entries with ⟨entries', result⟩
      cases result with
      | noReceiver =>
        obtain ⟨hnext, hport, hstate⟩ := acceptFinish_spec hknown
        exact ⟨hnext, hport, fun hne hdone' => absurd (hstate hdone') hne⟩
      | routed | ack => exact ⟨h, rfl, fun hne hdone' => absurd hdone' hne⟩
    · obtain ⟨rfl, rfl, rfl⟩ | ⟨rfl, rfl, rfl⟩ | ⟨rfl, rfl, hport, hsrc, hip, hcompletes⟩ :=
        acceptSegment_cases hsegment
      · have hsyn : Handshake { conn with
            remoteIp := seg.source
            remotePort := seg.header.srcPort
            rcvNxt := seg.header.seq + 1
            sndNxt := isn + 1
            state := .synRcvd } (⟨clock.syn, 0⟩ : SynAckTimer).retries
            (some ⟨seg.source, seg.header.srcPort, seg.header.seq, isn⟩) :=
          .inr ⟨.inl rfl, rfl, rfl, rfl, rfl⟩
        obtain ⟨hnext, hport, hstate⟩ := acceptFinish_spec hsyn
        exact ⟨hnext, hport, fun _ hdone' => nomatch hstate hdone'⟩
      · have hreset : Handshake { conn with state := .listen } { timer with retries := 0 }.retries none :=
          ⟨rfl, succ_pos _⟩
        obtain ⟨hnext, hport, hstate⟩ := acceptFinish_spec hreset
        exact ⟨hnext, hport, fun _ hdone' => nomatch hstate hdone'⟩
      · obtain ⟨hestablished, hlocal⟩ := state_acceptCompleted conn seg
        obtain ⟨a, rfl, hseg⟩ := hknown.completes hport hsrc hip hcompletes
        exact ⟨.inl hestablished, hlocal, fun _ _ => ⟨seg, a, rfl, rfl, hseg⟩⟩

/-! ## Routed segments -/

def Entry.takes (entry : Entry) (current : ℕ) (seg : Segment) : Bool :=
  entry.address != current && !entry.busy && (routeToTarget seg entry.conn).isSome

section Walk
variable {current : ℕ} {before after : List Entry} {entry : Entry}

lemma routeWalk_skip (hentry : entry.takes current seg = false) (entries : List Entry) :
    routeWalk current seg (entry :: entries) =
      (entry :: (routeWalk current seg entries).1, (routeWalk current seg entries).2) := by
  rw [routeWalk]
  by_cases hskip : entry.address = current ∨ entry.busy = true
  · rw [if_pos hskip]
  · rw [if_neg hskip]
    push Not at hskip
    have hnone : routeToTarget seg entry.conn = none := by
      simpa [Entry.takes, hskip.1, hskip.2] using hentry
    rw [hnone]

lemma routeWalk_stop (hentry : entry.takes current seg = true) (entries : List Entry) :
    ∃ conn result, routeToTarget seg entry.conn = some (conn, result) ∧
      routeWalk current seg (entry :: entries) = ({ entry with conn } :: entries, result) := by
  simp only [Entry.takes, and_eq_true, bne_iff_ne, not_eq_true'] at hentry
  obtain ⟨⟨haddr, hbusy⟩, htaken⟩ := hentry
  obtain ⟨⟨conn, result⟩, hsome⟩ := isSome_iff_exists.mp htaken
  refine ⟨conn, result, hsome, ?_⟩
  rw [routeWalk, if_neg (by simp [haddr, hbusy]), hsome]

lemma routeWalk_getElem? (current : ℕ) (seg : Segment) (before after : List Entry) (entry : Entry) :
    (routeWalk current seg (before ++ entry :: after)).1[before.length]? =
      some (if before.any (Entry.takes · current seg) = false ∧ entry.takes current seg = true then
        { entry with conn := (routeToTarget seg entry.conn).elim entry.conn Prod.fst } else entry) := by
  induction before with
  | nil =>
    cases hentry : entry.takes current seg with
    | true =>
      obtain ⟨conn, result, hsome, hwalk⟩ := routeWalk_stop hentry after
      simp [hwalk, hsome]
    | false => simp [routeWalk_skip hentry]
  | cons e before ih =>
    cases he : e.takes current seg with
    | true =>
      obtain ⟨conn, result, -, hwalk⟩ := routeWalk_stop he (before ++ entry :: after)
      simp [hwalk, he]
    | false => simp [routeWalk_skip he, ih, he]

end Walk

def routeCompletes (conn : TcpConnection) (seg : Segment) : Bool :=
  conn.tupleMatches seg &&
    tcpAckCompletesHandshake conn.state conn.acceptSynAckRetries conn.sndNxt conn.rcvNxt seg.header

lemma routeToTarget_of_completes (h : routeCompletes conn seg = true) :
    ∃ conn' result, routeToTarget seg conn = some (conn', result) ∧ conn'.state = .established ∧
      conn'.localPort = conn.localPort := by
  rw [routeCompletes] at h
  rw [routeToTarget]
  dsimp only
  rw [if_pos h]
  split_ifs
  · rw [frameFill]
    split_ifs <;> exact ⟨_, _, rfl, rfl, rfl⟩
  · exact ⟨_, _, rfl, rfl, rfl⟩

lemma routeToTarget_of_not_completes (h : routeCompletes conn seg = false) (hstate : conn.state ≠ .established) :
    routeToTarget seg conn = none := by
  rw [routeCompletes] at h
  have hclosed : (conn.tupleMatches seg && conn.state = .established && conn.connectionOpen &&
      conn.peerOpen) = false := by
    simp [hstate]
  rw [routeToTarget]
  dsimp only
  rw [if_neg (eq_false_iff.mp h), if_neg (eq_false_iff.mp hclosed)]

lemma Handshake.of_routeCompletes (h : Handshake conn conn.acceptSynAckRetries answered)
    (hroute : routeCompletes conn seg = true) :
    ∃ a, answered = some a ∧ Completes a conn.localPort seg := by
  rw [routeCompletes, tupleMatches] at hroute
  simp only [and_eq_true, beq_iff_eq] at hroute
  obtain ⟨⟨⟨hsrc, hport⟩, hip⟩, hcompletes⟩ := hroute
  exact h.completes hport.symm hsrc.symm hip hcompletes

lemma Pending.routeCompletes (h : Pending a conn conn.acceptSynAckRetries)
    (hseg : Completes a conn.localPort seg) : routeCompletes conn seg = true := by
  rw [Tcp.routeCompletes, tupleMatches, h.completes hseg, hseg.srcPort, hseg.dstPort, hseg.ip,
    h.remotePort, h.remoteIp]
  simp

lemma routeToTarget_of_established {result : TcpReceiveRouteResult}
    (h : routeToTarget seg conn = some (conn', result)) (hstate : conn.state = .established) :
    conn'.state = .established ∧ conn'.localPort = conn.localPort := by
  cases hcompletes : routeCompletes conn seg with
  | true =>
    obtain ⟨conn'', result', hroute, hdone, hport⟩ := routeToTarget_of_completes hcompletes
    obtain ⟨rfl, -⟩ : conn' = conn'' ∧ result = result' := by simpa [h] using hroute
    exact ⟨hdone, hport⟩
  | false =>
    rw [routeCompletes] at hcompletes
    rw [routeToTarget] at h
    dsimp only at h
    rw [if_neg (eq_false_iff.mp hcompletes), frameFill] at h
    split_ifs at h <;>
    · simp only [some.injEq, Prod.mk.injEq] at h
      obtain ⟨rfl, -⟩ := h
      exact ⟨hstate, rfl⟩

/-! ## Runs -/

/-- A segment with an ACK that another process takes gets to the listening connection. -/
structure Reaches (s : Listening) (current : ℕ) (seg : Segment) : Prop where
  plain : seg.header.tcpHdrLen = 20
  free : s.busy = false
  first : s.before.any (Entry.takes · current seg) = false

structure Listening.Ok (s : Listening) (port : Port) : Prop where
  localPort : s.conn.localPort = port
  handshake : Handshake s.conn s.conn.acceptSynAckRetries s.answered

section Runs
variable {s s' : Listening} {port : Port} {current : ℕ}

lemma Listening.step_other (h : s.step (.other current seg) = some s') : s'.answered = s.answered ∧
      (s'.conn = s.conn ∧ (seg.ack = true → Reaches s current seg → routeToTarget seg s.conn = none) ∨
        Reaches s current seg ∧ seg.ack = true ∧ ∃ result, routeToTarget seg s.conn = some (s'.conn, result)) := by
  rw [Listening.step] at h
  split_ifs at h with haddr
  simp only [some.injEq] at h
  subst h
  refine ⟨rfl, ?_⟩
  dsimp only
  rw [tcpRouteReceivedSegment]
  push Not at haddr
  by_cases hplain : seg.header.tcpHdrLen ≠ 20 ∨ seg.ack = false
  · rw [if_pos hplain]
    refine .inl ⟨by simp, fun hack hreaches => ?_⟩
    simp [hreaches.plain, hack] at hplain
  rw [if_neg hplain, if_neg (Nat.not_lt.mpr seg.payloadLength_le), routeWalk_getElem?]
  push Not at hplain
  dsimp only [elim_some]
  split_ifs with htakes
  · obtain ⟨hfirst, htakes⟩ := htakes
    simp only [Entry.takes, and_eq_true, bne_iff_ne, not_eq_true'] at htakes
    obtain ⟨⟨-, hfree⟩, hsome⟩ := htakes
    obtain ⟨⟨conn, result⟩, hroute⟩ := isSome_iff_exists.mp hsome
    rw [hroute]
    exact .inr ⟨⟨hplain.1, hfree, hfirst⟩, eq_true_of_not_eq_false hplain.2, result, rfl⟩
  · refine .inl ⟨rfl, fun _ hreaches => ?_⟩
    by_contra hsome
    refine htakes ⟨hreaches.first, ?_⟩
    have hisSome : (routeToTarget seg s.conn).isSome = true := isSome_iff_ne_none.mpr hsome
    simp [Entry.takes, hreaches.free, haddr.1.symm, hisSome]

lemma Listening.Ok.step_other (hok : s.Ok port) (h : s.step (.other current seg) = some s') :
    s'.Ok port ∧ (s.conn.state ≠ .established → s'.conn.state = .established →
      ∃ a, s.answered = some a ∧ Completes a port seg) := by
  obtain ⟨hanswered, ⟨hconn, -⟩ | ⟨-, -, result, hroute⟩⟩ := Listening.step_other h
  · refine ⟨⟨?_, ?_⟩, fun hne hdone => absurd (hconn ▸ hdone) hne⟩
    · rw [hconn]
      exact hok.localPort
    · rw [hconn, hanswered]
      exact hok.handshake
  · by_cases hstate : s.conn.state = .established
    · obtain ⟨hdone, hport⟩ := routeToTarget_of_established hroute hstate
      refine ⟨⟨hport.trans hok.localPort, ?_⟩, fun hne => absurd hstate hne⟩
      rw [hanswered]
      have hhandshake := hok.handshake
      cases hold : s.answered with
      | none =>
        rw [hold] at hhandshake
        exact nomatch hstate.symm.trans hhandshake.1
      | some a => exact .inl hdone
    · cases hcompletes : routeCompletes s.conn seg with
      | false =>
        rw [routeToTarget_of_not_completes hcompletes hstate] at hroute
        cases hroute
      | true =>
        obtain ⟨conn, result', hroute', hdone, hport⟩ := routeToTarget_of_completes hcompletes
        obtain ⟨hconn, -⟩ : s'.conn = conn ∧ result = result' := by simpa [hroute] using hroute'
        obtain ⟨a, ha, hseg⟩ := hok.handshake.of_routeCompletes hcompletes
        rw [hok.localPort] at hseg
        refine ⟨⟨by rw [hconn, hport, hok.localPort], ?_⟩, fun _ _ => ⟨a, ha, hseg⟩⟩
        rw [hanswered, ha]
        exact .inl (hconn ▸ hdone)

lemma Listening.Ok.accept {tx : Bool} {frame : Option Segment} (hok : s.Ok port)
    (h : s.accept tx frame isn clock = some s') :
    s'.Ok port ∧ (s.conn.state ≠ .established → s'.conn.state = .established →
      ∃ seg a, frame = some seg ∧ s.answered = some a ∧ Completes a port seg) := by
  obtain ⟨-, h⟩ := ite_none_left_eq_some.mp h
  cases h
  obtain ⟨hhandshake, hport, hcompletes⟩ :=
    kernelTcpAcceptStep_spec s.address (s.before ++ s.after) tx frame isn clock hok.handshake
  rw [hok.localPort] at hport hcompletes
  exact ⟨⟨hport, hhandshake⟩, hcompletes⟩

lemma Listening.Ok.step {e : ListenEvent} (hok : s.Ok port) (h : s.step e = some s') :
    s'.Ok port ∧ (s.conn.state ≠ .established → s'.conn.state = .established →
      ∃ seg a, e.segment = some seg ∧ s.answered = some a ∧ Completes a port seg) := by
  cases e with
  | accept frame isn clock => exact hok.accept h
  | acceptFrameMissing =>
    obtain ⟨hok', hcompletes⟩ := hok.accept h
    refine ⟨hok', fun hne hdone => ?_⟩
    obtain ⟨seg, a, hseg, -⟩ := hcompletes hne hdone
    cases hseg
  | park | change before after =>
    cases h
    exact ⟨⟨hok.localPort, hok.handshake⟩, fun hne hdone => absurd hdone hne⟩
  | other current seg =>
    obtain ⟨hok', hcompletes⟩ := hok.step_other h
    refine ⟨hok', fun hne hdone => ?_⟩
    obtain ⟨a, ha, hseg⟩ := hcompletes hne hdone
    exact ⟨seg, a, rfl, ha, hseg⟩

lemma Listening.Ok.run {events : List ListenEvent} (hok : s.Ok port) (h : s.run events = some s') :
    s'.Ok port := by
  induction events generalizing s with
  | nil =>
    cases h
    exact hok
  | cons e events ih =>
    obtain ⟨mid, hstep, hrun⟩ := bind_eq_some_iff.mp h
    exact ih (hok.step hstep).1 hrun

lemma Listening.ok_listeningAt (address : ℕ) (conn : TcpConnection) (port : Port) (now counterFrequency : ℤ)
    (before after : List Entry) :
    (listeningAt address conn port now counterFrequency before after).Ok port :=
  ⟨rfl, rfl, succ_pos _⟩

lemma Listening.Ok.pending (hok : s.Ok port) (ha : s.answered = some a)
    (hstate : s.conn.state ≠ .established) : Pending a s.conn s.conn.acceptSynAckRetries := by
  have hhandshake := hok.handshake
  rw [ha] at hhandshake
  exact hhandshake.resolve_left hstate

lemma Listening.Ok.accept_completes (hok : s.Ok port)
    (ha : s.answered = some a) (hstate : s.conn.state ≠ .established) (hseg : Completes a port seg)
    (h : s.step (.accept (some seg) isn clock) = some s') : s'.conn.state = .established := by
  have hpending := hok.pending ha hstate
  rw [← hok.localPort] at hseg
  have hsegment : acceptSegment s.conn ⟨s.conn.acceptSynAckSentAt, s.conn.acceptSynAckRetries⟩ seg isn clock.syn =
      some (acceptCompleted s.conn seg, ⟨s.conn.acceptSynAckSentAt, s.conn.acceptSynAckRetries⟩, .completed) := by
    rw [acceptSegment, if_neg (not_not.mpr hseg.dstPort), if_neg (by simp [hseg.syn]), if_neg (by simp [hseg.rst]),
      if_pos ⟨⟨hseg.srcPort.trans hpending.remotePort.symm, hseg.ip.trans hpending.remoteIp.symm⟩,
        hpending.completes hseg⟩]
  obtain ⟨-, h⟩ := ite_none_left_eq_some.mp h
  cases h
  dsimp only
  rw [kernelTcpAcceptStep, if_neg hstate, if_neg (by decide)]
  dsimp only
  rw [hsegment]
  exact (state_acceptCompleted s.conn seg).1

lemma Listening.Ok.other_completes_iff (hok : s.Ok port)
    (ha : s.answered = some a) (hstate : s.conn.state ≠ .established) (hseg : Completes a port seg)
    (h : s.step (.other current seg) = some s') : s'.conn.state = .established ↔ Reaches s current seg := by
  have hpending := hok.pending ha hstate
  rw [← hok.localPort] at hseg
  obtain ⟨conn, result, hroute, hdone, -⟩ := routeToTarget_of_completes (hpending.routeCompletes hseg)
  obtain ⟨-, ⟨hconn, hnone⟩ | ⟨hreaches, -, result', hroute'⟩⟩ := Listening.step_other h
  · rw [hconn]
    refine ⟨fun h => absurd h hstate, fun hreaches => ?_⟩
    rw [hnone hseg.ack hreaches] at hroute
    cases hroute
  · obtain ⟨hconn, -⟩ : s'.conn = conn ∧ result' = result := by simpa [hroute'] using hroute
    exact iff_of_true (hconn ▸ hdone) hreaches

end Runs

/-- A listening connection becomes established only through the final ACK of the SYN it last
answered: in the accept's own step, and in the receive of another process if and only if it gets
to the connection. -/
theorem accept_needs_handshake (address : ℕ) (conn : TcpConnection) (port : Port) (now counterFrequency : ℤ)
    (before after : List Entry) (events : List ListenEvent) (s : Listening)
    (hrun : (listeningAt address conn port now counterFrequency before after).run events = some s) :
    (∀ e s', s.step e = some s' → s.conn.state ≠ .established → s'.conn.state = .established →
      ∃ seg a, e.segment = some seg ∧ s.answered = some a ∧ Completes a port seg) ∧
    ∀ a seg, s.answered = some a → s.conn.state ≠ .established → Completes a port seg →
      (∀ isn clock s', s.step (.accept (some seg) isn clock) = some s' → s'.conn.state = .established) ∧
      ∀ current s', s.step (.other current seg) = some s' →
        (s'.conn.state = .established ↔ Reaches s current seg) := by
  have hok := (Listening.ok_listeningAt address conn port now counterFrequency before after).run hrun
  refine ⟨fun e s' hstep => (hok.step hstep).2, fun a seg ha hstate hseg => ⟨?_, ?_⟩⟩
  · intro isn clock s' hstep
    exact hok.accept_completes ha hstate hseg hstep
  · intro current s' hstep
    exact hok.other_completes_iff ha hstate hseg hstep

def greeting : List ListenEvent :=
  [.accept (some (segmentAt tcpFlagSyn 1 [] nil_fits)) 0 ⟨0, 0, 0⟩, .park]

def greeted : Option Listening := (listeningAt 1 (readerAt false) 80 0 1 [] []).run greeting

def ackWithOption : Segment where
  source := 0x0A000202
  header := ⟨24, 24, 4000, 80, tcpFlagAck, 2, 1⟩
  body := [1, 1, 1, 1]
  hdr_min := by decide
  hdr_le := by decide
  len_le := by decide
  body_length := by decide

lemma completes_ackWithOption : Completes ⟨0x0A000202, 4000, 1, 0⟩ 80 ackWithOption := by
  constructor <;> decide

theorem accept_needs_handshake_greeted : ∃ s, greeted = some s ∧ s.answered = some ⟨0x0A000202, 4000, 1, 0⟩ ∧
    ∀ isn clock s', s.step (.accept (some ackWithOption) isn clock) = some s' → s'.conn.state = .established :=
  ⟨_, rfl, rfl, ((accept_needs_handshake 1 (readerAt false) 80 0 1 [] [] greeting _ rfl).2 _ _ rfl (by decide)
    completes_ackWithOption).1⟩

/-- The option keeps the route from the listener: the final ACK is dropped. -/
theorem ackWithOption_dropped : ∃ s s', greeted = some s ∧ s.answered = some ⟨0x0A000202, 4000, 1, 0⟩ ∧
    s.busy = false ∧ s.conn.state = .synRcvd ∧ Completes ⟨0x0A000202, 4000, 1, 0⟩ 80 ackWithOption ∧
      s.step (.other 2 ackWithOption) = some s' ∧ s'.conn.state = .synRcvd :=
  ⟨_, _, rfl, rfl, rfl, rfl, completes_ackWithOption, rfl, rfl⟩

end Takibi.Tcp
