import Takibi.Process.Signal

/-! No process sleeps beside a signal that should end its wait, if none that terminates it was raised between
its decision to wait and the publication of the wait. -/

namespace Takibi.Process
open OwnStep SignalEvent ProcessRecord List
open Option (ite_none_left_eq_some ite_none_right_eq_some map_eq_some_iff)
section Bits
variable {set other : SignalSet} {i j : ℕ}

lemma getLsbD_signalBit (hi : i < 64) : (signalBit i).getLsbD j = decide (j = i) := by
  rw [signalBit, ← BitVec.twoPow_eq, BitVec.getLsbD_twoPow]
  simp [hi, eq_comm]

lemma and_eq_zero_iff : set &&& other = 0 ↔ ∀ i, set.getLsbD i = true → other.getLsbD i = false := by
  have hbits : set &&& other = 0 ↔ ∀ i < 64, set.getLsbD i = true → other.getLsbD i = false := by
    simp [BitVec.eq_of_getLsbD_eq_iff]
  exact hbits.trans ⟨fun h i hi => h i (BitVec.lt_of_getLsbD hi) hi, fun h i _ => h i⟩

lemma and_ne_zero_of_getLsbD (h : set.getLsbD i = true) (h' : other.getLsbD i = true) : set &&& other ≠ 0 :=
  fun hzero => nomatch h'.symm.trans (and_eq_zero_iff.mp hzero i h)

lemma and_signalBit_ne_zero (hi : i < 64) : set &&& signalBit i ≠ 0 ↔ set.getLsbD i = true := by
  rw [Ne, and_eq_zero_iff]
  simp [getLsbD_signalBit hi]

end Bits

section Record
variable {record : ProcessRecord}

def Caught (record : ProcessRecord) (index : Fin processSignalActions) : Prop :=
  record.pendingSignals.getLsbD index = true ∧ record.signalMask.getLsbD index = false ∧ record.handler index > 1

lemma lt_64 (index : Fin processSignalActions) : (index : ℕ) < 64 := index.isLt.trans (by decide)

lemma processSignalInterruptOf_isSome_iff : (processSignalInterruptOf record).isSome = true ↔
      record.sigwaitSuspend = false ∧ ∃ index, Caught record index := by
  rw [processSignalInterruptOf]
  cases record.sigwaitSuspend with
  | true => simp
  | false =>
    simp only [Bool.false_eq_true, if_false, find?_isSome, mem_finRange, true_and, Bool.and_eq_true,
      bne_iff_ne, decide_eq_true_eq, Caught]
    refine exists_congr fun index => ?_
    rw [and_signalBit_ne_zero (lt_64 index)]
    simp [lt_64 index, and_assoc]

lemma processSignalInterruptOf_eq_none (hsuspend : record.sigwaitSuspend = false)
    (h : (processSignalInterruptOf record).isSome = false) (index : Fin processSignalActions) :
    ¬Caught record index := by
  intro hcaught
  rw [processSignalInterruptOf_isSome_iff.mpr ⟨hsuspend, index, hcaught⟩] at h
  cases h

def Fatal (record : ProcessRecord) (index : Fin processSignalActions) : Prop :=
  record.pendingSignals.getLsbD index = true ∧ processSignalTerminates record index = true

structure ProcessRecord.Ok (record : ProcessRecord) : Prop where
  fatal : record.state.kind = .blocked → ∀ index, ¬Fatal record index
  interrupt : record.state.kind = .blocked → (processSignalInterruptOf record).isSome = false
  accepted : record.state = .blocked .signal → record.pendingSignals &&& record.sigwaitSet = 0
  blocking : record.control = .blocking →
    record.state.kind ≠ .blocked ∧ record.state.waitReason = .none ∧ record.pendingBlockReason ≠ .none
  waiting : record.sigwaitSuspend = true →
    record.state.kind ≠ .blocked ∧ record.state.waitReason = .none ∨ record.state = .blocked .signal
  suspend : record.sigwaitSuspend = true →
    record.control = .suspendCall ∨ record.control = .blocking ∧ record.pendingBlockReason = .signal

lemma ProcessRecord.ok_of_unblocked (hkind : record.state.kind ≠ .blocked)
    (hblocking : record.control = .blocking → record.state.waitReason = .none ∧ record.pendingBlockReason ≠ .none)
    (hwaiting : record.sigwaitSuspend = true → record.state.waitReason = .none)
    (hsuspend : record.sigwaitSuspend = true →
      record.control = .suspendCall ∨ record.control = .blocking ∧ record.pendingBlockReason = .signal) : record.Ok :=
  ⟨fun h => absurd h hkind, fun h => absurd h hkind, fun h => absurd (congrArg ProcessRecordState.kind h) hkind,
    fun h => ⟨hkind, hblocking h⟩, fun h => .inl ⟨hkind, hwaiting h⟩, hsuspend⟩

variable {record' : ProcessRecord}

lemma ProcessRecord.Ok.of_idle (h : record.Ok) (hkind : record'.state.kind ≠ .blocked)
    (hreason : record'.state.waitReason = .none) (hcontrol : record'.control = record.control)
    (hpending : record'.pendingBlockReason = record.pendingBlockReason)
    (hsuspend : record'.sigwaitSuspend = record.sigwaitSuspend) : record'.Ok := by
  refine ok_of_unblocked hkind (fun hblocking => ⟨hreason, ?_⟩) (fun _ => hreason) ?_
  · rw [hpending]
    exact (h.blocking (hcontrol ▸ hblocking)).2.2
  · rw [hcontrol, hpending, hsuspend]
    exact h.suspend

lemma ProcessRecord.Ok.of_wake (h : record.Ok) (hblocked : record.state.kind = .blocked)
    (hstate : record'.state = .ready) (hcontrol : record'.control = record.control)
    (hsuspend : record'.sigwaitSuspend = true → record.sigwaitSuspend = true) : record'.Ok := by
  have hcontrol' : record'.control ≠ .blocking := by
    rw [hcontrol]
    exact fun hblocking => (h.blocking hblocking).1 hblocked
  have hkind : record'.state.kind ≠ .blocked := by
    rw [hstate]
    nofun
  refine ok_of_unblocked hkind (fun h => absurd h hcontrol') (fun _ => by rw [hstate]; rfl) fun hflag => ?_
  rw [hcontrol]
  refine .inl ((h.suspend (hsuspend hflag)).resolve_right fun hblocking => ?_)
  exact (h.blocking hblocking.1).1 hblocked

lemma ProcessRecord.ok_of_unwaiting (hkind : record.state.kind ≠ .blocked) (hcontrol : record.control ≠ .blocking)
    (hsuspend : record.sigwaitSuspend = false) : record.Ok :=
  ok_of_unblocked hkind (fun h => absurd h hcontrol) (fun h => (nomatch hsuspend.symm.trans h))
    fun h => nomatch hsuspend.symm.trans h

section
variable (h : record.Ok)
include h

lemma ProcessRecord.Ok.of_childExit (hreason : record.state.waitReason = .childExit) :
    record.control ≠ .blocking ∧ record.sigwaitSuspend = false := by
  refine ⟨fun hblocking => ?_, Bool.eq_false_iff.mpr fun hflag => ?_⟩
  · exact nomatch hreason.symm.trans (h.blocking hblocking).2.1
  · obtain ⟨-, hwait⟩ | hwait := h.waiting hflag
    · exact nomatch hreason.symm.trans hwait
    · rw [hwait] at hreason
      cases hreason

/-! ## Raising a signal -/

lemma ProcessRecord.Ok.raise {signum : ℕ} (hsignum : signum - 1 < 64)
    (hfatal : ∀ hlt : signum - 1 < processSignalActions, record.state.kind = .blocked →
      processSignalTerminates record ⟨signum - 1, hlt⟩ = false)
    (hcaught : ∀ hlt : signum - 1 < processSignalActions, record.state.kind = .blocked →
      record.sigwaitSuspend = false → record.signalMask.getLsbD (signum - 1) = false → ¬record.handler ⟨signum - 1, hlt⟩ > 1)
    (haccepted : record.state = .blocked .signal → record.sigwaitSet.getLsbD (signum - 1) = false) :
    { record with pendingSignals := record.pendingSignals ||| signalBit (signum - 1) }.Ok := by
  have hpending : ∀ i, (record.pendingSignals ||| signalBit (signum - 1)).getLsbD i = true →
      record.pendingSignals.getLsbD i = true ∨ i = signum - 1 := by
    intro i hi
    simpa [BitVec.getLsbD_or, getLsbD_signalBit hsignum] using hi
  refine ⟨fun hblocked index hindex => ?_, fun hblocked => ?_, fun hstate => ?_, h.blocking, h.waiting, h.suspend⟩
  · obtain ⟨hset, hterminates⟩ := hindex
    obtain hold | hnew := hpending index hset
    · exact h.fatal hblocked index ⟨hold, hterminates⟩
    · have hindex : index = ⟨signum - 1, hnew ▸ index.isLt⟩ := Fin.ext hnew
      rw [hindex] at hterminates
      exact nomatch (hfatal (hnew ▸ index.isLt) hblocked).symm.trans hterminates
  · by_contra hsome
    obtain ⟨hsuspend, index, hset, hmask, hhandler⟩ :=
      processSignalInterruptOf_isSome_iff.mp (Bool.of_not_eq_false hsome)
    obtain hold | hnew := hpending index hset
    · have hcaught : Caught record index := ⟨hold, hmask, hhandler⟩
      exact processSignalInterruptOf_eq_none (show record.sigwaitSuspend = false from hsuspend)
        (h.interrupt hblocked) index hcaught
    · have hindex : index = ⟨signum - 1, hnew ▸ index.isLt⟩ := Fin.ext hnew
      rw [hindex] at hmask hhandler
      exact hcaught (hnew ▸ index.isLt) hblocked hsuspend hmask hhandler
  · refine and_eq_zero_iff.mpr fun i hi => ?_
    obtain hold | rfl := hpending i hi
    · exact and_eq_zero_iff.mp (h.accepted hstate) i hold
    · exact haccepted hstate

lemma ProcessRecord.Ok.wakes (hblocked : record.state.kind = .blocked) (pending : SignalSet)
    (signum : ℕ) (bit : SignalSet) :
    (wakeFatal { record with pendingSignals := pending }).Ok ∧
      (wakeSigwait { record with pendingSignals := pending } signum bit).Ok ∧
        (wakeInterrupted { record with pendingSignals := pending }).Ok := by
  refine ⟨h.of_wake hblocked rfl rfl fun hflag => hflag, ?_, ?_⟩
  · rw [wakeSigwait]
    dsimp only
    split_ifs with hsuspend
    · exact h.of_wake hblocked rfl rfl nofun
    · exact h.of_wake hblocked rfl rfl fun hflag => hflag
  · rw [wakeInterrupted]
    dsimp only
    split_ifs <;> exact h.of_wake hblocked rfl rfl fun hflag => hflag

lemma kernelProcessSignalDeliver_ok {signum : ℕ}
    (hdeliver : kernelProcessSignalDeliver record signum = some record') : record'.Ok := by
  rw [kernelProcessSignalDeliver] at hdeliver
  obtain ⟨htarget, hdeliver⟩ := ite_none_left_eq_some.mp hdeliver
  push Not at htarget
  have hsignum : signum - 1 < 64 := by omega
  have hwakes := fun hblocked => h.wakes hblocked (record.pendingSignals ||| signalBit (signum - 1)) signum
    (signalBit (signum - 1))
  dsimp only at hdeliver
  split_ifs at hdeliver with hdiscard hfatal hwait hinterrupt
  all_goals
    cases hdeliver
  · exact h
  · exact (hwakes hfatal.2).1
  · exact (hwakes hwait.1).2.1
  · exact (hwakes hinterrupt.2.2.2).2.2
  · refine h.raise hsignum (fun hlt hblocked => ?_) (fun hlt hblocked hsuspend hmask hhandler => ?_) fun hstate => ?_
    · refine Bool.eq_false_iff.mpr fun hterminates => hfatal ⟨?_, hblocked⟩
      rw [signalTerminates, dif_pos hlt]
      exact hterminates
    · refine hinterrupt ⟨?_, ?_, ?_, hblocked⟩
      · rw [signalHandled, dif_pos hlt]
        exact decide_eq_true hhandler
      · refine decide_eq_false fun hmasked => ?_
        rw [and_signalBit_ne_zero hsignum, hmask] at hmasked
        cases hmasked.1
      · refine processSignalInterruptOf_isSome_iff.mpr ⟨hsuspend, ⟨signum - 1, hlt⟩, ?_, hmask, hhandler⟩
        simp [BitVec.getLsbD_or, getLsbD_signalBit hsignum]
    · by_contra hset
      refine hwait ⟨?_, ?_, (and_signalBit_ne_zero hsignum).mpr (Bool.of_not_eq_false hset)⟩
      · rw [hstate]
        rfl
      · rw [hstate]
        rfl

/-! ## Publishing a wait -/

lemma blockRetry_ok (hblocking : record.control = .blocking) : (blockRetry record).Ok := by
  obtain ⟨hkind, hreason, -⟩ := h.blocking hblocking
  refine ok_of_unblocked hkind (fun h => ?_) (fun _ => hreason) fun hflag => ?_
  · rw [blockRetry] at h
    dsimp only at h
    split_ifs at h
  · rw [blockRetry]
    exact .inl (if_pos hflag)

end

lemma wouldMiss_signal {arrived : Bool} {i : ℕ} (hi : i < 64) (hpending : record.pendingSignals.getLsbD i = true)
    (hwanted : record.sigwaitSet.getLsbD i = true ∨ i ∈ [1, 2, 14] ∧ record.signalMask.getLsbD i = false) :
    kernelProcessBlockWouldMiss record .signal arrived = true := by
  rw [kernelProcessBlockWouldMiss]
  split_ifs
  · rfl
  · refine bne_iff_ne.mpr (and_ne_zero_of_getLsbD hpending ?_)
    rw [BitVec.getLsbD_or]
    obtain hset | ⟨hindex, hmask⟩ := hwanted
    · rw [hset, Bool.true_or]
    · have hterminating : (signalBit 1 ||| signalBit 2 ||| signalBit 14).getLsbD i = true := by
        rw [BitVec.getLsbD_or, BitVec.getLsbD_or, getLsbD_signalBit (by decide), getLsbD_signalBit (by decide),
          getLsbD_signalBit (by decide)]
        simpa [or_assoc] using hindex
      rw [BitVec.getLsbD_and, hterminating, BitVec.getLsbD_not, hmask, decide_eq_true hi]
      exact Bool.or_true _

lemma processSignalTerminates_mask {index : Fin processSignalActions} (h : processSignalTerminates record index = true)
    (hindex : index.val ∈ [1, 2, 14]) : record.signalMask.getLsbD index = false := by
  rw [processSignalTerminates] at h
  by_contra hmask
  have hset : record.signalMask &&& signalBit index ≠ 0 :=
    (and_signalBit_ne_zero (lt_64 index)).mpr (Bool.of_not_eq_false hmask)
  have hkill : signalBit index ≠ processSigkillBit := by
    simp only [mem_cons, not_mem_nil, or_false] at hindex
    obtain h | h | h := hindex <;> rw [h] <;> decide
  rw [if_pos ⟨hkill, hset⟩] at h
  cases h

lemma kernelProcessBlock_ok {arrived committed : Bool} (h : record.Ok) (hblocking : record.control = .blocking)
    (hmeets : ∀ index, Fatal record index → record.pendingBlockReason = .signal ∧ index.val ∈ [1, 2, 14]) :
    (kernelProcessBlock record arrived committed).Ok := by
  obtain ⟨-, hwait, hreason⟩ := h.blocking hblocking
  rw [kernelProcessBlock]
  dsimp only
  by_cases hmiss : kernelProcessBlockWouldMiss record record.pendingBlockReason arrived = true
  · rw [if_pos hmiss]
    exact blockRetry_ok h hblocking
  rw [if_neg hmiss]
  -- Only the flag of `rt_sigsuspend` and its rewound frame outlive the call.
  have hcontrol : ∀ state pending, ProcessRecord.Ok { record with
      state := state
      pendingBlockReason := pending
      control := if record.sigwaitSuspend then .suspendCall else .user } ↔
      (state.kind = .blocked → (∀ index, ¬Fatal record index) ∧ (processSignalInterruptOf record).isSome = false) ∧
        (state = .blocked .signal → record.pendingSignals &&& record.sigwaitSet = 0) ∧
          (record.sigwaitSuspend = true →
            state.kind ≠ .blocked ∧ state.waitReason = .none ∨ state = .blocked .signal) := by
    intro state pending
    refine ⟨fun hok => ⟨fun hb => ⟨hok.fatal hb, hok.interrupt hb⟩, hok.accepted, hok.waiting⟩, fun hok => ?_⟩
    refine ⟨fun hb => (hok.1 hb).1, fun hb => (hok.1 hb).2, hok.2.1, fun hc => ?_, hok.2.2, fun hflag => .inl ?_⟩
    · dsimp only at hc
      split_ifs at hc
    · dsimp only
      exact if_pos hflag
  cases committed with
  | true =>
    rw [if_pos rfl]
    refine (hcontrol (.blocked record.pendingBlockReason) record.pendingBlockReason).mpr ⟨fun _ => ⟨?_, ?_⟩, ?_, ?_⟩
    · intro index hfatal
      obtain ⟨hsignal, hindex⟩ := hmeets index hfatal
      rw [hsignal] at hmiss
      exact hmiss (wouldMiss_signal (lt_64 index) hfatal.1
        (.inr ⟨hindex, processSignalTerminates_mask hfatal.2 hindex⟩))
    · refine Bool.eq_false_iff.mpr fun hsome => hmiss ?_
      rw [kernelProcessBlockWouldMiss.eq_def, if_pos ⟨hreason, hsome⟩]
    · intro hstate
      have hsignal : record.pendingBlockReason = .signal := by simpa using hstate
      rw [hsignal] at hmiss
      refine and_eq_zero_iff.mpr fun i hi => Bool.eq_false_iff.mpr fun hset => ?_
      exact hmiss (wouldMiss_signal (BitVec.lt_of_getLsbD hi) hi (.inl hset))
    · intro hflag
      obtain hcall | ⟨-, hsignal⟩ := h.suspend hflag
      · rw [hblocking] at hcall
        cases hcall
      · rw [hsignal]
        exact .inr rfl
  | false =>
    rw [if_neg Bool.false_ne_true]
    exact (hcontrol .running .none).mpr ⟨nofun, nofun, fun _ => .inl ⟨nofun, rfl⟩⟩

/-! ## Steps and runs -/

/-- The signals that the process would die of are pending when it publishes a wait only if the last look of a
signal wait sees them. -/
def OwnStep.Meets (record : ProcessRecord) : OwnStep → Prop
  | .block _ _ => ∀ index, Fatal record index → record.pendingBlockReason = .signal ∧ index.val ∈ [1, 2, 14]
  | _ => True

lemma ProcessRecord.Ok.of_running (hstate : record'.state = .running)
    (hblocking : record'.control = .blocking → record'.pendingBlockReason ≠ .none)
    (hsuspend : record'.sigwaitSuspend = true →
      record'.control = .suspendCall ∨ record'.control = .blocking ∧ record'.pendingBlockReason = .signal) :
    record'.Ok := by
  have hkind : record'.state.kind ≠ .blocked := by
    rw [hstate]
    nofun
  have hwait : record'.state.waitReason = .none := by
    rw [hstate]
    rfl
  exact ok_of_unblocked hkind (fun h => ⟨hwait, hblocking h⟩) (fun _ => hwait) hsuspend

lemma ProcessRecord.Ok.not_suspend (h : record.Ok) (hcontrol : record.control = .user) :
    record.sigwaitSuspend = false := by
  refine Bool.eq_false_iff.mpr fun hflag => ?_
  obtain hcall | ⟨hcall, -⟩ := h.suspend hflag <;> exact nomatch hcontrol.symm.trans hcall

lemma kernelProcessCurrentSignalInterrupt_ok (h : record.Ok) (hstate : record.state = .running) :
    (kernelProcessCurrentSignalInterrupt record).Ok := by
  rw [kernelProcessCurrentSignalInterrupt]
  split_ifs with hsome
  · have hflag := (processSignalInterruptOf_isSome_iff.mp hsome).1
    exact .of_running hstate nofun fun hset => nomatch hflag.symm.trans hset
  · exact h

lemma OwnStep.apply_ok {step : OwnStep} (h : record.Ok) (hstate : record.state = .running)
    (hmeets : step.Meets record) (hstep : step.apply record = some record') :
    record'.Ok := by
  have hsame : ∀ {record' : ProcessRecord}, record'.state = record.state → record'.control = record.control →
      record'.pendingBlockReason = record.pendingBlockReason → record'.sigwaitSuspend = record.sigwaitSuspend →
        record'.Ok := by
    intro record' hstate' hcontrol hreason hflag
    refine .of_running (hstate'.trans hstate) ?_ ?_
    · rw [hcontrol, hreason]
      exact fun hb => (h.blocking hb).2.2
    · rw [hcontrol, hreason, hflag]
      exact h.suspend
  cases step with
  | setMask mask | writeAction index handler =>
    obtain ⟨-, rfl⟩ := by simpa [apply] using hstep
    exact hsame rfl rfl rfl rfl
  | discardIgnored index =>
    rw [apply] at hstep
    split_ifs at hstep <;> cases hstep
    · exact hsame rfl rfl rfl rfl
    · exact h
  | clearPending bits | restore index =>
    cases hstep
    exact hsame rfl rfl rfl rfl
  | choose reason uart pipe =>
    obtain ⟨hguard, ⟨⟩⟩ := ite_none_right_eq_some.mp hstep
    exact .of_running hstate (fun _ => hguard.2.1) fun hflag => nomatch (h.not_suspend hguard.1).symm.trans hflag
  | chooseDeadline reason ticks result =>
    obtain ⟨hguard, ⟨⟩⟩ := ite_none_right_eq_some.mp hstep
    refine .of_running hstate (fun _ hnone => ?_) fun hflag => nomatch (h.not_suspend hguard.1).symm.trans hflag
    obtain hreason | hreason := hguard.2 <;> exact nomatch hreason.symm.trans hnone
  | chooseTimedwait set =>
    obtain ⟨hguard, ⟨⟩⟩ := ite_none_right_eq_some.mp hstep
    exact .of_running hstate (fun _ => nofun) fun hflag => nomatch (h.not_suspend hguard).symm.trans hflag
  | chooseSuspend set =>
    obtain ⟨hguard, ⟨⟩⟩ := ite_none_right_eq_some.mp hstep
    exact .of_running hstate (fun _ => nofun) fun _ => .inr ⟨rfl, rfl⟩
  | endSuspend =>
    obtain ⟨-, ⟨⟩⟩ := ite_none_right_eq_some.mp hstep
    exact .of_running hstate nofun nofun
  | interrupt =>
    obtain ⟨-, ⟨⟩⟩ := ite_none_right_eq_some.mp hstep
    exact kernelProcessCurrentSignalInterrupt_ok h hstate
  | block arrived committed =>
    obtain ⟨hblocking, ⟨⟩⟩ := ite_none_right_eq_some.mp hstep
    exact kernelProcessBlock_ok h hblocking hmeets
  | retry =>
    obtain ⟨hblocking, ⟨⟩⟩ := ite_none_right_eq_some.mp hstep
    exact blockRetry_ok h hblocking
  | exit =>
    cases hstep
    exact h.of_idle nofun rfl rfl rfl rfl

end Record

def SignalEvent.Meets (processes : Processes) : SignalEvent → Prop
  | .own slot step => step.Meets (processes slot)
  | _ => True

variable {record : ProcessRecord}

section Runs
variable {processes processes' : Processes}

lemma update_ok {slot : ℕ} (h : ∀ slot, (processes slot).Ok) (hrecord : record.Ok) (p : ℕ) :
    (Function.update processes slot record p).Ok :=
  (Function.forall_update_iff processes fun _ => Ok).mpr ⟨hrecord, fun p _ => h p⟩ p

lemma stepSlot_ok {slot : ℕ} {kind : ProcessSlotState} {f : ProcessRecord → Option ProcessRecord}
    (h : ∀ slot, (processes slot).Ok)
    (hf : ∀ record', (processes slot).state.kind = kind → f (processes slot) = some record' → record'.Ok)
    (hstep : stepSlot processes slot kind f = some processes') (p : ℕ) : (processes' p).Ok := by
  obtain ⟨hkind, hstep⟩ := ite_none_right_eq_some.mp hstep
  obtain ⟨record, hrecord, rfl⟩ := map_eq_some_iff.mp hstep
  exact update_ok h (hf record hkind hrecord) p

lemma spawned_ok (mask : SignalSet) (handler : Fin processSignalActions → ℕ) : (spawned mask handler).Ok :=
  ⟨nofun, nofun, nofun, nofun, nofun, nofun⟩

lemma SignalEvent.step_ok {event : SignalEvent} (h : ∀ slot, (processes slot).Ok) (hmeets : event.Meets processes)
    (hstep : event.step processes = some processes') (p : ℕ) : (processes' p).Ok := by
  cases event with
  | spawn slot mask handler =>
    rw [step] at hstep
    refine stepSlot_ok h (fun record' _ hrecord => ?_) hstep p
    cases hrecord
    exact spawned_ok mask handler
  | publish slot | reap slot | remove slot =>
    rw [step] at hstep
    refine stepSlot_ok h (fun record' _ hrecord => ?_) hstep p
    cases hrecord
    exact (h slot).of_idle nofun rfl rfl rfl rfl
  | send slot signum =>
    obtain ⟨record, hrecord, rfl⟩ := map_eq_some_iff.mp hstep
    exact update_ok h (kernelProcessSignalDeliver_ok (h slot) hrecord) p
  | own slot step =>
    obtain ⟨hstate, hstep⟩ := ite_none_right_eq_some.mp hstep
    obtain ⟨record, hrecord, rfl⟩ := map_eq_some_iff.mp hstep
    exact update_ok h (apply_ok (h slot) hstate hmeets hrecord) p
  | wake slot | expire slot =>
    rw [step] at hstep
    refine stepSlot_ok h (fun record' hkind hrecord => ?_) hstep p
    cases hrecord
    exact (h slot).of_wake hkind rfl rfl fun hflag => hflag
  | wakeKeepingWait4 slot child =>
    rw [step] at hstep
    refine stepSlot_ok h (fun record' hkind hrecord => ?_) hstep p
    obtain ⟨hreason, hrecord⟩ := ite_none_right_eq_some.mp hrecord
    cases hrecord
    obtain ⟨hcontrol, hsuspend⟩ := (h slot).of_childExit hreason
    exact ok_of_unwaiting nofun hcontrol hsuspend
  | pipeWake slot =>
    rw [step] at hstep
    dsimp only at hstep
    have hnamed : ∀ slot, { processes slot with pipeWait := 0 }.Ok := fun slot =>
      ⟨(h slot).fatal, (h slot).interrupt, (h slot).accepted, (h slot).blocking, (h slot).waiting, (h slot).suspend⟩
    split_ifs at hstep with hfree hblocked <;> cases hstep
    · have hkind : (processes slot).state.kind = .blocked := by
        rw [hblocked]
        rfl
      refine update_ok h ?_ p
      exact (hnamed slot).of_wake hkind rfl rfl fun hflag => hflag
    · exact update_ok h (hnamed slot) p
  | start slot | yield slot =>
    rw [step] at hstep
    refine stepSlot_ok h (fun record' hkind hrecord => ?_) hstep p
    cases hrecord
    cases hstate : (processes slot).state <;> rw [hstate] at hkind <;> try cases hkind
    · exact (h slot).of_idle nofun rfl rfl rfl rfl
    · obtain ⟨hcontrol, hsuspend⟩ := (h slot).of_childExit (by rw [hstate]; rfl)
      exact ok_of_unwaiting nofun hcontrol hsuspend
  | settle slot =>
    obtain ⟨⟨hkind, hreason⟩, hstep⟩ := ite_none_right_eq_some.mp hstep
    cases hstep
    obtain ⟨hcontrol, hsuspend⟩ := (h slot).of_childExit hreason
    refine update_ok h ?_ p
    refine ok_of_unwaiting ?_ hcontrol hsuspend
    rw [scheduledProcessWaitSettle]
    cases hstate : (processes slot).state <;> rw [hstate] at hkind <;> exact hkind

def MeetsAll (processes : Processes) : List SignalEvent → Prop
  | [] => True
  | event :: events => event.Meets processes ∧ ∀ processes', event.step processes = some processes' →
      MeetsAll processes' events

lemma MeetsAll.cons {event : SignalEvent} {events : List SignalEvent} (hmeets : event.Meets processes)
    (hstep : event.step processes = some processes') (h : MeetsAll processes' events) :
    MeetsAll processes (event :: events) :=
  ⟨hmeets, fun _ hstep' => Option.some.inj (hstep.symm.trans hstep') ▸ h⟩

lemma runSignals_ok {events : List SignalEvent} (h : ∀ slot, (processes slot).Ok) (hmeets : MeetsAll processes events)
    (hrun : runSignals processes events = some processes') (p : ℕ) : (processes' p).Ok := by
  induction events generalizing processes with
  | nil =>
    cases hrun
    exact h p
  | cons event events ih =>
    obtain ⟨mid, hstep, hrun⟩ := Option.bind_eq_some_iff.mp hrun
    exact ih (fun slot => event.step_ok h hmeets.1 hstep slot) (hmeets.2 mid hstep) hrun

end Runs

structure Undisturbed (record : ProcessRecord) (reason : ProcessWaitReason) : Prop where
  fatal : ∀ index : Fin processSignalActions, record.pendingSignals &&& signalBit index ≠ 0 →
    processSignalTerminates record index = false
  caught : reason ≠ .signal → ∀ index : Fin processSignalActions,
    record.pendingSignals &&& ~~~record.signalMask &&& signalBit index ≠ 0 → record.handler index ≤ 1
  accepted : reason = .signal → record.pendingSignals &&& record.sigwaitSet = 0

lemma ProcessRecord.Ok.undisturbed {reason : ProcessWaitReason} (h : record.Ok)
    (hstate : record.state = .blocked reason) : Undisturbed record reason := by
  have hkind : record.state.kind = .blocked := by
    rw [hstate]
    rfl
  refine ⟨fun index hpending => ?_, fun hreason index hpending => ?_, fun hreason => h.accepted (hreason ▸ hstate)⟩
  · refine Bool.eq_false_iff.mpr fun hterminates => h.fatal hkind index ⟨?_, hterminates⟩
    exact (and_signalBit_ne_zero (lt_64 index)).mp hpending
  · have hsuspend : record.sigwaitSuspend = false := by
      refine Bool.eq_false_iff.mpr fun hflag => ?_
      obtain ⟨hwait, -⟩ | hwait := h.waiting hflag
      · exact hwait hkind
      · rw [hstate] at hwait
        exact hreason (by simpa using hwait)
    rw [and_signalBit_ne_zero (lt_64 index), BitVec.getLsbD_and, BitVec.getLsbD_not] at hpending
    simp only [Bool.and_eq_true, Bool.not_eq_true', decide_eq_true_eq] at hpending
    refine Nat.not_lt.mp fun hhandler => ?_
    exact processSignalInterruptOf_eq_none hsuspend (h.interrupt hkind) index ⟨hpending.1, hpending.2.2, hhandler⟩

/-- In every run in which no wait is published beside a signal the process would die of, other than one that
the last look of a signal wait sees, no Blocked process has a pending signal that should end its wait. -/
theorem signals_end_waits (events : List SignalEvent) (processes : Processes)
    (hmeets : MeetsAll noProcesses events) (hrun : runSignals noProcesses events = some processes) (slot : ℕ)
    (reason : ProcessWaitReason) (hstate : (processes slot).state = .blocked reason) :
    Undisturbed (processes slot) reason := by
  have hstart : ∀ slot, (noProcesses slot).Ok := fun _ => ⟨nofun, nofun, nofun, nofun, nofun, nofun⟩
  exact (runSignals_ok hstart hmeets hrun slot).undisturbed hstate

def choosesToWait (slot : ℕ) (mask : SignalSet) : List SignalEvent :=
  [.spawn slot mask (fun _ => 0), .publish slot, .start slot, .own slot (.choose .childExit .scalar 0)]

/-- SIGTERM comes to process 1, which masks it, before its wait is published; SIGKILL comes to process 2
when it is Blocked. -/
def signalsBesideWaits : List SignalEvent :=
  choosesToWait 1 (signalBit 14) ++ [.send 1 15, .own 1 (.block false true)] ++
    (choosesToWait 2 0 ++ [.own 2 (.block false true), .send 2 9])

lemma signalsBesideWaits_meets : MeetsAll noProcesses signalsBesideWaits := by
  refine .cons trivial rfl <| .cons trivial rfl <| .cons trivial rfl <| .cons trivial rfl <| .cons trivial rfl ?_
  refine .cons (fun index hfatal => ?_) rfl ?_
  · have hnone : ∀ index : Fin processSignalActions, (signalBit 14).getLsbD index = true →
        processSignalTerminates (spawned (signalBit 14) fun _ => 0) index = false := by decide
    have hterminates : processSignalTerminates (spawned (signalBit 14) fun _ => 0) index = true := hfatal.2
    rw [hnone index hfatal.1] at hterminates
    cases hterminates
  refine .cons trivial rfl <| .cons trivial rfl <| .cons trivial rfl <| .cons trivial rfl ?_
  refine .cons (fun index hfatal => ?_) rfl <| .cons trivial rfl trivial
  have hpending : (0 : SignalSet).getLsbD index = true := hfatal.1
  simp at hpending

theorem signals_end_waits_maskedTerm : ∃ processes,
    runSignals noProcesses signalsBesideWaits = some processes ∧ (processes 2).state = .ready ∧
      (processes 1).state = .blocked .childExit ∧ (processes 1).pendingSignals = signalBit 14 ∧
        Undisturbed (processes 1) .childExit :=
  ⟨_, rfl, rfl, rfl, rfl, signals_end_waits signalsBesideWaits _ signalsBesideWaits_meets rfl 1 .childExit rfl⟩

/-- SIGKILL comes after the decision to wait and before the wait is published. The process sleeps beside it. -/
theorem kill_missed : ∃ processes,
    runSignals noProcesses (choosesToWait 1 0 ++ [.send 1 9, .own 1 (.block false true)]) = some processes ∧
      (processes 1).state = .blocked .childExit ∧ (processes 1).pendingSignals &&& signalBit 8 ≠ 0 ∧
        processSignalTerminates (processes 1) ⟨8, by decide⟩ = true :=
  ⟨_, rfl, rfl, by decide, by decide⟩

end Takibi.Process
