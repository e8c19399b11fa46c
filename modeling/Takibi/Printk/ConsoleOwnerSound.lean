import Takibi.Printk.ConsoleOwner

/-! What holds of the console owner along every run: the words are pairs of a mark and an owner,
the mark stays until the console is initialised again, and a debugger's session gives back what it
found. -/

namespace Takibi.Printk
open Function Console Call Nat

instance : Fintype Priority where
  elems := {.emergency, .debugger, .panic}
  complete p := by cases p <;> decide

/-! ## Words as pairs -/

abbrev Owner := Option (Priority × Cpu)

def rank : Owner → ℕ
  | none => 0
  | some (p, _) => p.value

def encode (mark : Bool) (o : Owner) : ℕ :=
  (if mark then terminalBit else 0) |||
    match o with
    | none => 0
    | some (p, cpu) => ownerWord cpu p.value

def claimOf (cpu : Cpu) (p : Priority) (mark : Bool) (o : Owner) : Attempt :=
  if p.value ≤ rank o then
    if mark || p = .debugger then .done .outranked else .swap (encode true o) .outranked
  else .swap (encode (mark || p ≠ .debugger) (some (p, cpu))) (.took (encode false o))

lemma takeOwner_encode : ∀ (cpu : Cpu) (p : Priority) (mark : Bool) (o : Owner),
    takeOwner cpu p (encode mark o) = claimOf cpu p mark o := by
  decide +kernel

lemma restored_encode : ∀ (cpu : Cpu) (found : Owner) (mark : Bool) (o : Owner),
    restored cpu (encode false found) (encode mark o) =
      if o = some (.debugger, cpu) then some (encode mark found) else none := by
  decide +kernel

lemma encode_inj : ∀ (mark : Bool) (o : Owner) (mark' : Bool) (o' : Owner),
    encode mark o = encode mark' o' → mark = mark' ∧ o = o' := by
  decide +kernel

lemma encode_and_mask : ∀ (mark : Bool) (o : Owner),
    encode mark o &&& ownerMask = encode false o ∧
      ((encode mark o &&& terminalBit = terminalBit) ↔ mark = true) ∧
      (encode mark o >>> 8) &&& 0xFF = rank o := by
  decide +kernel

/-! ## What a core knows -/

structure ClaimOk (mark : Bool) (o : Owner) (cpu : Cpu) (core : Core) (p : Priority) (failed : ℕ)
    (loaded : Option ℕ) : Prop where
  bounded : failed < takeAttempts
  disturbed : failed ≤ core.changes
  loaded : ∀ w, loaded = some w → (encode mark o ≠ w → failed < core.changes) ∧
    ∃ mark' o', w = encode mark' o' ∧ ∃ desired result, claimOf cpu p mark' o' = .swap desired result
  closed : p = .debugger → core.session = none

structure ResumeOk (mark : Bool) (o : Owner) (cpu : Cpu) (core : Core) (found failed : ℕ)
    (loaded : Option ℕ) : Prop where
  token : core.session = some (.took found)
  idle : loaded = none → failed = 0 ∨ failed = 1 ∧ (o ≠ some (.debugger, cpu) ∨ mark = true) ∨
    failed = 2 ∧ o ≠ some (.debugger, cpu)
  loaded : ∀ w, loaded = some w → ∃ mark', w = encode mark' (some (.debugger, cpu)) ∧
    (failed = 0 ∨ failed = 1 ∧ mark' = true) ∧
    (encode mark o = w ∨ o ≠ some (.debugger, cpu) ∨ mark = true ∧ mark' = false)

def CallOk (mark : Bool) (o : Owner) (cpu : Cpu) (core : Core) : Prop :=
  match core.call with
  | .idle => True
  | .claim p failed loaded => ClaimOk mark o cpu core p failed loaded
  | .resume found failed loaded => ResumeOk mark o cpu core found failed loaded

structure CoreOk (mark : Bool) (o : Owner) (epoch : ℕ) (cpu : Cpu) (core : Core) : Prop where
  call : CallOk mark o cpu core
  epoch_le : core.epoch ≤ epoch
  owns : o = some (.debugger, cpu) → core.epoch = epoch ∧ ∃ found, core.session = some (.took found)
  token : ∀ found, core.session = some (.took found) →
    ∃ o', found = encode false o' ∧ (o' = none ∨ ∃ c, o' = some (.emergency, c)) ∧
      (mark = false → core.epoch = epoch → o = some (.debugger, cpu) ∧ o' = none)

structure ConsoleOk (s : Console) (mark : Bool) (o : Owner) : Prop where
  owner : s.owner = encode mark o
  entered : s.entered = mark
  unmarked : mark = false → o = none ∨ ∃ cpu, o = some (.debugger, cpu)
  cores : ∀ cpu, CoreOk mark o s.epoch cpu (s.cores cpu)

structure Spares (mark : Bool) (o : Owner) (epoch : ℕ) (mark' : Bool) (o' : Owner) (epoch' : ℕ)
    (cpu : Cpu) : Prop where
  gains : o' = some (.debugger, cpu) → o = some (.debugger, cpu) ∧ (mark = true → mark' = true) ∧
    epoch' = epoch
  keeps : mark' = false → epoch' = epoch →
    mark = false ∧ (o = some (.debugger, cpu) → o' = some (.debugger, cpu))
  epoch_le : epoch ≤ epoch'

variable {loaded : Option ℕ}

section Frame
variable {mark mark' : Bool} {o o' : Owner} {epoch epoch' : ℕ} {cpu : Cpu} {core : Core}

def disturb (changed : Prop) [Decidable changed] (core : Core) : Core :=
  if changed then { core with changes := core.changes + 1 } else core

lemma disturb_rest (changed : Prop) [Decidable changed] (core : Core) :
    (disturb changed core).session = core.session ∧ (disturb changed core).epoch = core.epoch ∧
      (disturb changed core).call = core.call := by
  unfold disturb
  split_ifs <;> exact ⟨rfl, rfl, rfl⟩

lemma ResumeOk.spares {found failed : ℕ}
    (h : ResumeOk mark o cpu core found failed loaded)
    (hs : Spares mark o epoch mark' o' epoch' cpu) {core' : Core}
    (hsession : core'.session = core.session) :
    ResumeOk mark' o' cpu core' found failed loaded := by
  have hgains : o ≠ some (.debugger, cpu) → o' ≠ some (.debugger, cpu) := fun hne heq =>
    hne (hs.gains heq).1
  have hmarked : mark = true → o' ≠ some (.debugger, cpu) ∨ mark' = true := fun hmark => by
    by_cases hmine : o' = some (.debugger, cpu)
    · exact .inr ((hs.gains hmine).2.1 hmark)
    · exact .inl hmine
  refine ⟨hsession.trans h.token, fun hnone => ?_, fun w hw => ?_⟩
  · obtain hzero | ⟨hone, hlost | hmark⟩ | ⟨htwo, hlost⟩ := h.idle hnone
    · exact .inl hzero
    · exact .inr (.inl ⟨hone, .inl (hgains hlost)⟩)
    · exact .inr (.inl ⟨hone, hmarked hmark⟩)
    · exact .inr (.inr ⟨htwo, hgains hlost⟩)
  · obtain ⟨m, rfl, hfailed, hword⟩ := h.loaded w hw
    refine ⟨m, rfl, hfailed, ?_⟩
    obtain hsame | hlost | ⟨hmark, hm⟩ := hword
    · obtain ⟨rfl, rfl⟩ := encode_inj _ _ _ _ hsame
      by_cases hmine : o' = some (.debugger, cpu)
      · have hmono := (hs.gains hmine).2.1
        cases mark with
        | true => exact .inl (by rw [hmono rfl, hmine])
        | false =>
          cases mark' with
          | true => exact .inr (.inr ⟨rfl, rfl⟩)
          | false => exact .inl (by rw [hmine])
      · exact .inr (.inl hmine)
    · exact .inr (.inl (hgains hlost))
    · exact (hmarked hmark).elim (fun hlost => .inr (.inl hlost)) fun hm' => .inr (.inr ⟨hm', hm⟩)

lemma ClaimOk.spares {p : Priority} {failed : ℕ}
    (h : ClaimOk mark o cpu core p failed loaded) (mark' : Bool) (o' : Owner) :
    ClaimOk mark' o' cpu (disturb (encode mark' o' ≠ encode mark o) core) p failed loaded := by
  by_cases hchanged : encode mark' o' ≠ encode mark o
  · rw [disturb, if_pos hchanged]
    refine ⟨h.bounded, h.disturbed.trans (le_succ _), fun w hw => ?_, h.closed⟩
    exact ⟨fun _ => lt_succ_of_le h.disturbed, (h.loaded w hw).2⟩
  · rw [disturb, if_neg hchanged]
    rw [not_not] at hchanged
    refine ⟨h.bounded, h.disturbed, fun w hw => ?_, h.closed⟩
    rw [hchanged]
    exact h.loaded w hw

lemma CoreOk.spares (h : CoreOk mark o epoch cpu core)
    (hs : Spares mark o epoch mark' o' epoch' cpu) :
    CoreOk mark' o' epoch' cpu (disturb (encode mark' o' ≠ encode mark o) core) := by
  obtain ⟨hsession, hepoch, hcall⟩ := disturb_rest (encode mark' o' ≠ encode mark o) core
  refine ⟨?_, ?_, fun hmine => ?_, fun found hfound => ?_⟩
  · have hbefore := h.call
    unfold CallOk at hbefore ⊢
    rw [hcall]
    cases hc : core.call with
    | idle => trivial
    | claim p failed loaded =>
      rw [hc] at hbefore
      exact ClaimOk.spares hbefore mark' o'
    | resume found failed loaded =>
      rw [hc] at hbefore
      exact ResumeOk.spares hbefore hs hsession
  · rw [hepoch]
    exact h.epoch_le.trans hs.epoch_le
  · obtain ⟨hbefore, -, hsame⟩ := hs.gains hmine
    rw [hepoch, hsession, hsame]
    exact h.owns hbefore
  · rw [hsession] at hfound
    rw [hepoch]
    obtain ⟨o₀, hencode, hkind, hlive⟩ := h.token found hfound
    refine ⟨o₀, hencode, hkind, fun hmark hep => ?_⟩
    have hsame : epoch' = epoch := le_antisymm (hep ▸ h.epoch_le) hs.epoch_le
    obtain ⟨hunmarked, hmine⟩ := hs.keeps hmark hsame
    obtain ⟨howns, hnone⟩ := hlive hunmarked (hep.trans hsame)
    exact ⟨hmine howns, hnone⟩

end Frame

/-! ## One step -/

def Core.calm (core : Core) : Bool :=
  match core.call with
  | .claim p _ _ => p = .debugger || core.changes < takeAttempts
  | _ => true

/-- Each claim of a path that never returns has seen the word changed fewer times than it tries. -/
def Calm (s : Console) : Prop := ∀ cpu, (s.cores cpu).calm = true

instance (s : Console) : Decidable (Calm s) := inferInstanceAs (Decidable (∀ _, _))

def Accesses (s : Console) (cpu : Cpu) (s' : Console) : Prop :=
  s.step (.load cpu) = some s' ∨ s.step (.exchange cpu) = some s'

variable {result : StandDown} {changes : ℕ}

section Step
variable {s s' : Console} {mark mark' : Bool} {o o' : Owner} {cpu : Cpu} {core : Core} {p : Priority}
  {found failed : ℕ} {loaded : Option ℕ}

lemma ConsoleOk.setCore (h : ConsoleOk s mark o) (hcore : CoreOk mark o s.epoch cpu core) :
    ConsoleOk (s.setCore cpu core) mark o where
  owner := h.owner
  entered := h.entered
  unmarked := h.unmarked
  cores := (forall_update_iff s.cores (CoreOk mark o s.epoch)).mpr ⟨hcore, fun c _ => h.cores c⟩

lemma write_cores (s : Console) (desired : ℕ) (c : Cpu) :
    (s.write desired).cores c = disturb (desired ≠ s.owner) (s.cores c) := by
  simp only [write, disturb]
  split_ifs <;> first | rfl | contradiction

lemma ConsoleOk.write (h : ConsoleOk s mark o) {entered : Bool}
    (hspares : ∀ c ≠ cpu, Spares mark o s.epoch mark' o' s.epoch c)
    (hunmarked : mark' = false → o' = none ∨ ∃ cpu, o' = some (.debugger, cpu))
    (hcore : CoreOk mark' o' s.epoch cpu core) (hentered : entered = mark') :
    ConsoleOk { (s.write (encode mark' o')).setCore cpu core with entered := entered } mark' o' := by
  refine ⟨rfl, hentered, hunmarked, (forall_update_iff _ (CoreOk mark' o' s.epoch)).mpr ⟨hcore, fun c hc => ?_⟩⟩
  rw [write_cores, h.owner]
  exact (h.cores c).spares (hspares c hc)

variable {epoch : ℕ}

lemma CoreOk.idle (h : CoreOk mark o epoch cpu core) :
    CoreOk mark o epoch cpu { core with call := .idle, changes := changes } :=
  ⟨trivial, h.epoch_le, h.owns, h.token⟩

lemma CoreOk.close (h : CoreOk mark o epoch cpu core) (hother : o ≠ some (.debugger, cpu)) :
    CoreOk mark o epoch cpu { core with call := .idle, session := none } :=
  ⟨trivial, h.epoch_le, fun hmine => absurd hmine hother, nofun⟩

lemma CoreOk.outranked (hother : o ≠ some (.debugger, cpu)) :
    CoreOk mark o epoch cpu ⟨.idle, some .outranked, changes, epoch⟩ :=
  ⟨trivial, le_rfl, fun hmine => absurd hmine hother, nofun⟩

lemma CoreOk.not_owner (h : CoreOk mark o epoch cpu core) (hsession : core.session = none) :
    o ≠ some (.debugger, cpu) := by
  intro hmine
  obtain ⟨-, found, hfound⟩ := h.owns hmine
  rw [hsession] at hfound
  cases hfound

lemma claimOf_done (h : claimOf cpu p mark o = .done result) :
    result = .outranked ∧ (p ≠ .debugger → mark = true) := by
  rw [claimOf] at h
  split_ifs at h with hrank hmark
  simp only [Bool.or_eq_true, decide_eq_true_iff] at hmark
  exact ⟨(Attempt.done.inj h).symm, fun hp => hmark.resolve_right hp⟩

lemma claimOf_swap {desired : ℕ} (h : claimOf cpu p mark o = .swap desired result) :
    desired = encode true o ∧ result = .outranked ∧ p ≠ .debugger ∨
      rank o < p.value ∧ result = .took (encode false o) ∧
        desired = encode (mark || p ≠ .debugger) (some (p, cpu)) := by
  rw [claimOf] at h
  split_ifs at h with hrank hmark
  · obtain ⟨rfl, rfl⟩ := Attempt.swap.inj h
    simp only [Bool.or_eq_true, decide_eq_true_iff, not_or] at hmark
    exact .inl ⟨rfl, rfl, hmark.2⟩
  · obtain ⟨rfl, rfl⟩ := Attempt.swap.inj h
    exact .inr ⟨not_le.mp hrank, rfl, rfl⟩

section
variable (h : ConsoleOk s mark o)
include h

lemma ConsoleOk.claimOk (hcall : (s.cores cpu).call = .claim p failed loaded) :
    ClaimOk mark o cpu (s.cores cpu) p failed loaded := by
  have hok := (h.cores cpu).call
  rwa [CallOk, hcall] at hok

lemma ConsoleOk.resumeOk (hcall : (s.cores cpu).call = .resume found failed loaded) :
    ResumeOk mark o cpu (s.cores cpu) found failed loaded := by
  have hok := (h.cores cpu).call
  rwa [CallOk, hcall] at hok

lemma ConsoleOk.claim_access (hcall : (s.cores cpu).call = .claim p failed loaded)
    (haccess : Accesses s cpu s') :
    (∃ result, loaded = none ∧ claimOf cpu p mark o = .done result ∧ s' = s.finishClaim cpu p result) ∨
    (∃ desired result, loaded = none ∧ claimOf cpu p mark o = .swap desired result ∧
      s' = s.setCore cpu { s.cores cpu with call := .claim p failed (some s.owner) }) ∨
    (∃ desired result, loaded = some s.owner ∧ claimOf cpu p mark o = .swap desired result ∧
      s' = (s.write desired).finishClaim cpu p result) ∨
    (∃ w, loaded = some w ∧ s.owner ≠ w ∧ s' = s.retryClaim cpu p failed) := by
  obtain hstep | hstep := haccess
  · simp only [step, load, hcall] at hstep
    cases loaded with
    | some w => cases hstep
    | none =>
      dsimp only at hstep
      rw [h.owner, takeOwner_encode] at hstep
      cases hattempt : claimOf cpu p mark o with
      | done result =>
        rw [hattempt] at hstep
        exact .inl ⟨result, rfl, rfl, (Option.some.inj hstep).symm⟩
      | swap desired result =>
        rw [hattempt, ← h.owner] at hstep
        exact .inr (.inl ⟨desired, result, rfl, rfl, (Option.some.inj hstep).symm⟩)
  · simp only [step, exchange, hcall] at hstep
    cases loaded with
    | none => cases hstep
    | some w =>
      dsimp only at hstep
      cases hattempt : takeOwner cpu p w with
      | done result =>
        rw [hattempt] at hstep
        cases hstep
      | swap desired result =>
        rw [hattempt] at hstep
        dsimp only at hstep
        split_ifs at hstep with hword
        · rw [← hword, h.owner, takeOwner_encode] at hattempt
          exact .inr (.inr (.inl ⟨desired, result, by rw [hword], hattempt, (Option.some.inj hstep).symm⟩))
        · exact .inr (.inr (.inr ⟨w, rfl, hword, (Option.some.inj hstep).symm⟩))

lemma ConsoleOk.resume_access (hcall : (s.cores cpu).call = .resume found failed loaded)
    (haccess : Accesses s cpu s') :
    (loaded = none ∧ o ≠ some (.debugger, cpu) ∧ s' = s.finishResume cpu) ∨
    (loaded = none ∧ o = some (.debugger, cpu) ∧
      s' = s.setCore cpu { s.cores cpu with call := .resume found failed (some s.owner) }) ∨
    (∃ w o', loaded = some w ∧ found = encode false o' ∧ o = some (.debugger, cpu) ∧
      s' = (s.write (encode mark o')).finishResume cpu) ∨
    (∃ w, loaded = some w ∧ s.owner ≠ w ∧ failed < 2 ∧
      s' = s.setCore cpu { s.cores cpu with call := .resume found (failed + 1) none }) := by
  have hresume := h.resumeOk hcall
  obtain ⟨o', rfl, -⟩ := (h.cores cpu).token found hresume.token
  obtain hstep | hstep := haccess
  · simp only [step, load, hcall] at hstep
    cases loaded with
    | some w => cases hstep
    | none =>
      dsimp only at hstep
      rw [h.owner, restored_encode] at hstep
      by_cases hmine : o = some (.debugger, cpu)
      · rw [if_pos hmine, ← h.owner] at hstep
        exact .inr (.inl ⟨rfl, hmine, (Option.some.inj hstep).symm⟩)
      · rw [if_neg hmine] at hstep
        exact .inl ⟨rfl, hmine, (Option.some.inj hstep).symm⟩
  · simp only [step, exchange, hcall] at hstep
    cases loaded with
    | none => cases hstep
    | some w =>
      obtain ⟨m, rfl, hfailed, -⟩ := hresume.loaded w rfl
      dsimp only at hstep
      rw [restored_encode, if_pos rfl] at hstep
      dsimp only at hstep
      split_ifs at hstep with hsame
      · obtain ⟨rfl, rfl⟩ := encode_inj _ _ _ _ (h.owner.symm.trans hsame)
        exact .inr (.inr (.inl ⟨_, o', rfl, rfl, rfl, (Option.some.inj hstep).symm⟩))
      · have hfew : failed < 2 := by omega
        rw [retryResume, if_pos (by simp only [takeAttempts]; omega)] at hstep
        exact .inr (.inr (.inr ⟨_, rfl, hsame, hfew, (Option.some.inj hstep).symm⟩))

lemma ConsoleOk.setCall {call : Call}
    (hok : CallOk mark o cpu { s.cores cpu with call := call, changes := changes }) :
    ConsoleOk (s.setCore cpu { s.cores cpu with call := call, changes := changes }) mark o :=
  h.setCore ⟨hok, (h.cores cpu).epoch_le, (h.cores cpu).owns, (h.cores cpu).token⟩

lemma ConsoleOk.claim (hsession : p = .debugger → (s.cores cpu).session = none) :
    ConsoleOk (s.beginCall cpu (.claim p 0 none)) mark o :=
  h.setCall ⟨by decide, le_rfl, nofun, hsession⟩

lemma ConsoleOk.resume (hsession : (s.cores cpu).session = some (.took found)) :
    ConsoleOk (s.beginCall cpu (.resume found 0 none)) mark o :=
  h.setCall ⟨hsession, fun _ => .inl rfl, nofun⟩

lemma ConsoleOk.finishOutranked (hsession : p = .debugger → (s.cores cpu).session = none)
    (hmark : p ≠ .debugger → mark = true) :
    ConsoleOk (s.finishClaim cpu p .outranked) mark o := by
  have hcore := h.cores cpu
  cases p with
  | debugger => exact h.setCore (.outranked (hcore.not_owner (hsession rfl)))
  | emergency | panic =>
    have hset : ConsoleOk (s.setCore cpu { s.cores cpu with call := .idle }) mark o :=
      h.setCore hcore.idle
    exact { hset with entered := (hmark nofun).symm }

lemma ConsoleOk.takeDebugger (hrank : rank o < Priority.debugger.value) :
    ConsoleOk ((s.write (encode mark (some (.debugger, cpu)))).finishClaim cpu .debugger
      (.took (encode false o))) mark (some (.debugger, cpu)) := by
  have hfound : o = none ∨ ∃ c, o = some (.emergency, c) := by
    match o, hrank with
    | none, _ => exact .inl rfl
    | some (.emergency, c), _ => exact .inr ⟨c, rfl⟩
  refine h.write (fun c hc => ?_) (fun _ => .inr ⟨cpu, rfl⟩) ?_ h.entered
  · refine ⟨fun hmine => ?_, fun hmark _ => ⟨hmark, fun hmine => ?_⟩, le_rfl⟩
    · obtain rfl : cpu = c := by simpa using hmine
      exact absurd rfl hc
    · rw [hmine] at hrank
      exact absurd hrank (lt_irrefl _)
  · refine ⟨trivial, le_rfl, fun _ => ⟨rfl, _, rfl⟩, fun found hsession => ?_⟩
    obtain rfl : encode false o = found := by simpa using hsession
    refine ⟨o, rfl, hfound, fun hmark _ => ⟨rfl, ?_⟩⟩
    obtain hnone | ⟨c, hdebugger⟩ := h.unmarked hmark
    · exact hnone
    · rw [hdebugger] at hrank
      exact absurd hrank (lt_irrefl _)

lemma ConsoleOk.enter (hp : p ≠ .debugger) (ho : o' = o ∨ o' = some (p, cpu)) :
    ConsoleOk ((s.write (encode true o')).finishClaim cpu p result) true o' := by
  have hgains : ∀ c, o' = some (.debugger, c) → o = some (.debugger, c) := by
    rintro c hmine
    obtain rfl | rfl := ho
    · exact hmine
    · obtain ⟨rfl, -⟩ : p = .debugger ∧ cpu = c := by simpa using hmine
      exact absurd rfl hp
  have hspares : ∀ c, Spares mark o s.epoch true o' s.epoch c := fun c =>
    ⟨fun hmine => ⟨hgains c hmine, fun _ => rfl, rfl⟩, nofun, le_rfl⟩
  have hcore : CoreOk true o' s.epoch cpu
      { (s.write (encode true o')).cores cpu with call := .idle } := by
    rw [write_cores, h.owner]
    exact ((h.cores cpu).spares (hspares cpu)).idle
  have hwritten := h.write (fun c _ => hspares c) nofun hcore rfl
  cases p with
  | debugger => exact absurd rfl hp
  | emergency => exact hwritten
  | panic => exact hwritten

end

lemma ConsoleOk.giveBack (h : ConsoleOk s mark (some (.debugger, cpu)))
    (hsession : (s.cores cpu).session = some (.took (encode false o'))) :
    ConsoleOk ((s.write (encode mark o')).finishResume cpu) mark o' := by
  have hcore := h.cores cpu
  obtain ⟨o₀, hencode, hkind, hlive⟩ := hcore.token _ hsession
  obtain ⟨-, rfl⟩ := encode_inj _ _ _ _ hencode
  have hgone : ∀ c, o' ≠ some (.debugger, c) := by
    intro c
    obtain rfl | ⟨c', rfl⟩ := hkind
    · nofun
    · simp
  refine h.write (fun c hc => ?_) (fun hmark => ?_) ?_ h.entered
  · refine ⟨fun hmine => absurd hmine (hgone c), fun hmark _ => ⟨hmark, fun hmine => ?_⟩, le_rfl⟩
    obtain rfl : cpu = c := by simpa using hmine
    exact absurd rfl hc
  · exact .inl (hlive hmark (hcore.owns rfl).1).2
  · have hepoch : ((s.write (encode mark o')).cores cpu).epoch = (s.cores cpu).epoch := by
      rw [write_cores, (disturb_rest ..).2.1]
    exact ⟨trivial, hepoch.trans_le hcore.epoch_le, fun hmine => absurd hmine (hgone cpu), nofun⟩

section
variable (h : ConsoleOk s mark o)
include h

lemma ConsoleOk.retryClaim (hcalm : Calm s) {w : ℕ}
    (hcall : (s.cores cpu).call = .claim p failed (some w)) (hlost : s.owner ≠ w) :
    ConsoleOk (s.retryClaim cpu p failed) mark o := by
  have hclaim := h.claimOk hcall
  have hchanged : failed < (s.cores cpu).changes := (hclaim.loaded w rfl).1 (h.owner ▸ hlost)
  unfold Console.retryClaim
  split_ifs with hmore
  · exact h.setCall ⟨hmore, hchanged, nofun, hclaim.closed⟩
  · -- Only a debugger's claim is worn out.
    refine h.finishOutranked hclaim.closed fun hp => ?_
    have hfew := hcalm cpu
    simp only [Core.calm, hcall, Bool.or_eq_true, decide_eq_true_iff] at hfew
    have := hfew.resolve_left hp
    omega

lemma ConsoleOk.afterClaim (hcalm : Calm s) (hcall : (s.cores cpu).call = .claim p failed loaded)
    (haccess : Accesses s cpu s') : ∃ mark' o', ConsoleOk s' mark' o' := by
  have hclaim := h.claimOk hcall
  obtain ⟨result, rfl, hdone, rfl⟩ | ⟨desired, result, rfl, hswap, rfl⟩ |
    ⟨desired, result, -, hswap, rfl⟩ | ⟨w, rfl, hlost, rfl⟩ := h.claim_access hcall haccess
  · obtain ⟨rfl, hmark⟩ := claimOf_done hdone
    exact ⟨mark, o, h.finishOutranked hclaim.closed hmark⟩
  · refine ⟨mark, o, h.setCall ⟨hclaim.bounded, hclaim.disturbed, fun w hw => ?_, hclaim.closed⟩⟩
    cases hw
    exact ⟨fun hne => absurd h.owner.symm hne, mark, o, h.owner, desired, result, hswap⟩
  · obtain ⟨rfl, -, hp⟩ | ⟨hrank, rfl, rfl⟩ := claimOf_swap hswap
    · exact ⟨true, o, h.enter hp (.inl rfl)⟩
    · by_cases hp : p = .debugger
      · subst hp
        simp only [ne_eq, not_true_eq_false, decide_false, Bool.or_false]
        exact ⟨mark, _, h.takeDebugger hrank⟩
      · simp only [ne_eq, hp, not_false_eq_true, decide_true, Bool.or_true]
        exact ⟨true, _, h.enter hp (.inr rfl)⟩
  · exact ⟨mark, o, h.retryClaim hcalm hcall hlost⟩

lemma ConsoleOk.afterResume (hcall : (s.cores cpu).call = .resume found failed loaded)
    (haccess : Accesses s cpu s') : ∃ mark' o', ConsoleOk s' mark' o' := by
  have hresume := h.resumeOk hcall
  obtain ⟨rfl, hother, rfl⟩ | ⟨rfl, rfl, rfl⟩ | ⟨w, o', rfl, rfl, rfl, rfl⟩ | ⟨w, rfl, hsame, -, rfl⟩ :=
    h.resume_access hcall haccess
  · exact ⟨mark, o, h.setCore ((h.cores cpu).close hother)⟩
  · refine ⟨mark, _, h.setCall ⟨hresume.token, nofun, fun w hw => ?_⟩⟩
    cases hw
    refine ⟨mark, h.owner, ?_, .inl h.owner.symm⟩
    obtain hzero | ⟨hone, hlost | hmark⟩ | ⟨-, hlost⟩ := hresume.idle rfl
    · exact .inl hzero
    · exact absurd rfl hlost
    · exact .inr ⟨hone, hmark⟩
    · exact absurd rfl hlost
  · exact ⟨mark, o', h.giveBack hresume.token⟩
  · obtain ⟨m, rfl, hfailed, hword⟩ := hresume.loaded w rfl
    have hlost := hword.resolve_left fun heq => hsame (h.owner.trans heq)
    refine ⟨mark, o, h.setCall ⟨hresume.token, fun _ => ?_, nofun⟩⟩
    obtain rfl | ⟨rfl, rfl⟩ := hfailed
    · exact .inr (.inl ⟨rfl, hlost.imp_right And.left⟩)
    · exact .inr (.inr ⟨rfl, hlost.resolve_right fun hm => Bool.noConfusion hm.2⟩)

lemma ConsoleOk.access (hcalm : Calm s) (haccess : Accesses s cpu s') :
    ∃ mark' o', ConsoleOk s' mark' o' := by
  cases hcall : (s.cores cpu).call with
  | idle =>
    simp only [Accesses, step, load, exchange, hcall, reduceCtorEq, or_self] at haccess
  | claim p failed loaded => exact h.afterClaim hcalm hcall haccess
  | resume found failed loaded => exact h.afterResume hcall haccess

lemma ConsoleOk.resetOwner :
    ConsoleOk { s.write 0 with epoch := s.epoch + 1, entered := false } false none := by
  refine ⟨rfl, rfl, fun _ => .inl rfl, fun cpu => ?_⟩
  have hcores : (s.write 0).cores cpu = disturb (encode false none ≠ encode mark o) (s.cores cpu) := by
    rw [write_cores, h.owner]
    rfl
  change CoreOk false none (s.epoch + 1) cpu ((s.write 0).cores cpu)
  rw [hcores]
  exact (h.cores cpu).spares ⟨nofun, fun _ hepoch => absurd hepoch (succ_ne_self _), le_succ _⟩

lemma ConsoleOk.step {e : Event} (hcalm : Calm s) (hstep : s.step e = some s') :
    ∃ mark' o', ConsoleOk s' mark' o' := by
  cases e with
  | claim cpu p =>
    obtain ⟨hidle, heq⟩ := Option.ite_none_right_eq_some.mp hstep
    cases heq
    exact ⟨mark, o, h.claim hidle.2⟩
  | resume cpu =>
    simp only [Console.step] at hstep
    split at hstep
    · next found hcall hsession =>
      cases hstep
      exact ⟨mark, o, h.resume hsession⟩
    · next hcall hsession =>
      cases hstep
      refine ⟨mark, o, h.setCore ((h.cores cpu).close fun hmine => ?_)⟩
      obtain ⟨-, found, hfound⟩ := (h.cores cpu).owns hmine
      rw [hsession] at hfound
      cases hfound
    · cases hstep
  | load cpu => exact h.access hcalm (.inl hstep)
  | exchange cpu => exact h.access hcalm (.inr hstep)
  | activate | resetArmed =>
    cases hstep
    exact ⟨mark, o, { h with }⟩
  | resetOwner =>
    cases hstep
    exact ⟨false, none, h.resetOwner⟩

end

/-! ## Runs -/

def Calmly (s s' : Console) : Prop := Calm s ∧ ∃ e, s.step e = some s'

lemma initial_ok : ConsoleOk .initial false none :=
  ⟨rfl, rfl, fun _ => .inl rfl, fun _ => ⟨trivial, le_rfl, nofun, nofun⟩⟩

lemma run_ok (hrun : Relation.ReflTransGen Calmly .initial s) : ∃ mark o, ConsoleOk s mark o := by
  induction hrun with
  | refl => exact ⟨false, none, initial_ok⟩
  | tail _ hstep ih =>
    obtain ⟨mark, o, hok⟩ := ih
    obtain ⟨hcalm, e, heq⟩ := hstep
    exact hok.step hcalm heq

def Call.left : Call → ℕ
  | .idle => 0
  | .claim _ failed none | .resume _ failed none => 2 * (takeAttempts - failed)
  | .claim _ failed (some _) | .resume _ failed (some _) => 2 * (takeAttempts - failed) - 1

/-- What is promised of the console in one state: of the owner, of the queue, and of the calls that
are in progress. -/
structure ConsoleSound (s : Console) : Prop where
  priority : ∀ cpu p failed loaded s', (s.cores cpu).call = .claim p failed loaded →
    Accesses s cpu s' → s'.owner &&& ownerMask = s.owner &&& ownerMask ∨ (s.owner >>> 8) &&& 0xFF < p.value
  dead : s.entered = true → s.isLive = false
  restores : ∀ cpu found failed loaded s', (s.cores cpu).call = .resume found failed loaded →
    Accesses s cpu s' → (s'.cores cpu).call = .idle → (s.cores cpu).epoch = s.epoch →
    s'.entered = false → s'.owner = found
  ends : ∀ cpu, (s.cores cpu).call ≠ .idle → (s.cores cpu).call.left ≤ 2 * takeAttempts ∧
    ∃ s', Accesses s cpu s' ∧ (s'.cores cpu).call.left < (s.cores cpu).call.left
  reports : ∀ cpu failed loaded s', (s.cores cpu).call = .claim .debugger failed loaded →
    Accesses s cpu s' → (s'.cores cpu).call = .idle →
    (s'.cores cpu).session = some (.took (s.owner &&& ownerMask)) ∧
        s'.owner &&& ownerMask = ownerWord cpu Priority.debugger.value ∨
      (s'.cores cpu).session = some .outranked ∧ s'.owner = s.owner

lemma write_owner (s : Console) (word : ℕ) : (s.write word).owner = word := rfl

lemma finishClaim_owner (s : Console) (cpu : Cpu) (p : Priority) (result : StandDown) :
    (s.finishClaim cpu p result).owner = s.owner := by
  cases p <;> rfl

lemma finishClaim_call (s : Console) (cpu : Cpu) (p : Priority) (result : StandDown) :
    ((s.finishClaim cpu p result).cores cpu).call = .idle := by
  cases p <;> simp [finishClaim, setCore]

lemma setCore_self (s : Console) (cpu : Cpu) (core : Core) : (s.setCore cpu core).cores cpu = core :=
  update_self ..

lemma retryClaim_owner (s : Console) (cpu : Cpu) (p : Priority) (failed : ℕ) :
    (s.retryClaim cpu p failed).owner = s.owner := by
  unfold retryClaim
  split_ifs
  · rfl
  · exact finishClaim_owner ..

section
variable (h : ConsoleOk s mark o)
include h

lemma ConsoleOk.accesses (hbusy : (s.cores cpu).call ≠ .idle) : ∃ s', Accesses s cpu s' := by
  match hcall : (s.cores cpu).call with
  | .idle => exact absurd hcall hbusy
  | .claim p failed none =>
    have hload : ∃ s', s.load cpu = some s' := by
      simp only [load, hcall]
      cases takeOwner cpu p s.owner <;> exact ⟨_, rfl⟩
    exact hload.imp fun _ => .inl
  | .resume found failed none =>
    have hload : ∃ s', s.load cpu = some s' := by
      simp only [load, hcall]
      cases restored cpu found s.owner <;> exact ⟨_, rfl⟩
    exact hload.imp fun _ => .inl
  | .claim p failed (some w) =>
    obtain ⟨-, mark', o', rfl, desired, result, hswap⟩ := (h.claimOk hcall).loaded w rfl
    have hexchange : ∃ s', s.exchange cpu = some s' := by
      simp only [exchange, hcall, takeOwner_encode, hswap]
      split_ifs <;> exact ⟨_, rfl⟩
    exact hexchange.imp fun _ => .inr
  | .resume found failed (some w) =>
    have hresume := h.resumeOk hcall
    obtain ⟨o', rfl, -⟩ := (h.cores cpu).token found hresume.token
    obtain ⟨m, rfl, -⟩ := hresume.loaded w rfl
    have hexchange : ∃ s', s.exchange cpu = some s' := by
      simp only [exchange, hcall, restored_encode]
      split_ifs <;> exact ⟨_, rfl⟩
    exact hexchange.imp fun _ => .inr

variable (haccess : Accesses s cpu s')
include haccess

lemma ConsoleOk.priority (hcall : (s.cores cpu).call = .claim p failed loaded) :
    s'.owner &&& ownerMask = s.owner &&& ownerMask ∨ (s.owner >>> 8) &&& 0xFF < p.value := by
  obtain ⟨result, -, -, rfl⟩ | ⟨-, -, -, -, rfl⟩ | ⟨desired, result, -, hswap, rfl⟩ | ⟨w, -, -, rfl⟩ :=
    h.claim_access hcall haccess
  · exact .inl (by rw [finishClaim_owner])
  · exact .inl rfl
  · obtain ⟨rfl, -, -⟩ | ⟨hrank, -⟩ := claimOf_swap hswap
    · left
      rw [finishClaim_owner, write_owner, h.owner, (encode_and_mask true o).1, (encode_and_mask mark o).1]
    · right
      rw [h.owner, (encode_and_mask mark o).2.2]
      exact hrank
  · exact .inl (by rw [retryClaim_owner])

lemma ConsoleOk.reports (hcall : (s.cores cpu).call = .claim .debugger failed loaded)
    (hidle : (s'.cores cpu).call = .idle) :
    (s'.cores cpu).session = some (.took (s.owner &&& ownerMask)) ∧
        s'.owner &&& ownerMask = ownerWord cpu Priority.debugger.value ∨
      (s'.cores cpu).session = some .outranked ∧ s'.owner = s.owner := by
  have hsession : ∀ (s : Console) result,
      ((s.finishClaim cpu .debugger result).cores cpu).session = some result := fun s result => by
    simp [Console.finishClaim, Console.setCore]
  obtain ⟨result, -, hdone, rfl⟩ | ⟨-, -, -, -, rfl⟩ | ⟨desired, result, -, hswap, rfl⟩ | ⟨w, -, -, rfl⟩ :=
    h.claim_access hcall haccess
  · right
    rw [hsession, (claimOf_done hdone).1]
    exact ⟨rfl, finishClaim_owner ..⟩
  · rw [setCore_self] at hidle
    cases hidle
  · obtain ⟨-, -, hp⟩ | ⟨-, rfl, rfl⟩ := claimOf_swap hswap
    · exact absurd rfl hp
    · left
      rw [hsession, finishClaim_owner, write_owner, h.owner, (encode_and_mask mark o).1,
        (encode_and_mask _ _).1]
      exact ⟨rfl, zero_or _⟩
  · unfold Console.retryClaim at hidle ⊢
    split_ifs at hidle ⊢
    · rw [setCore_self] at hidle
      cases hidle
    · rw [hsession]
      exact .inr ⟨rfl, finishClaim_owner ..⟩

lemma ConsoleOk.restores (hcall : (s.cores cpu).call = .resume found failed loaded)
    (hidle : (s'.cores cpu).call = .idle) (hepoch : (s.cores cpu).epoch = s.epoch) (hentered : s'.entered = false) :
    s'.owner = found := by
  obtain ⟨-, hother, rfl⟩ | ⟨-, -, rfl⟩ | ⟨w, o', -, rfl, -, rfl⟩ | ⟨w, -, -, -, rfl⟩ :=
    h.resume_access hcall haccess
  · -- Without a mark the session still has the console.
    obtain ⟨_, _, _, hlive⟩ := (h.cores cpu).token found (h.resumeOk hcall).token
    exact absurd (hlive (h.entered.symm.trans hentered) hepoch).1 hother
  · rw [setCore_self] at hidle
    cases hidle
  · obtain rfl : mark = false := h.entered.symm.trans hentered
    rfl
  · rw [setCore_self] at hidle
    cases hidle

lemma ConsoleOk.access_left (hbusy : (s.cores cpu).call ≠ .idle) :
    (s'.cores cpu).call.left < (s.cores cpu).call.left := by
  cases hcall : (s.cores cpu).call with
  | idle => exact absurd hcall hbusy
  | claim p failed loaded =>
    have hbounded := (h.claimOk hcall).bounded
    have hsome : ∀ w, 0 < (Call.claim p failed (some w)).left := fun w => by
      simp only [left]
      omega
    obtain ⟨result, rfl, -, rfl⟩ | ⟨_, _, rfl, -, rfl⟩ | ⟨desired, result, rfl, -, rfl⟩ | ⟨w, rfl, -, rfl⟩ :=
      h.claim_access hcall haccess
    · rw [finishClaim_call]
      simp only [left]
      omega
    · rw [setCore_self]
      simp only [left]
      omega
    · rw [finishClaim_call]
      exact hsome _
    · unfold Console.retryClaim
      split_ifs
      · rw [setCore_self]
        simp only [left]
        omega
      · rw [finishClaim_call]
        exact hsome w
  | resume found failed loaded =>
    have hresume := h.resumeOk hcall
    have hidle : ∀ s : Console, ((s.finishResume cpu).cores cpu).call = .idle := fun s => by
      rw [finishResume, setCore_self]
    have hfew : failed ≤ 2 := by
      cases loaded with
      | none =>
        obtain hzero | ⟨hone, -⟩ | ⟨htwo, -⟩ := hresume.idle rfl <;> omega
      | some w =>
        obtain ⟨m, -, hfailed, -⟩ := hresume.loaded w rfl
        omega
    have hattempts : takeAttempts = 16 := rfl
    obtain ⟨rfl, -, rfl⟩ | ⟨rfl, -, rfl⟩ | ⟨w, o', rfl, -, -, rfl⟩ | ⟨w, rfl, -, -, rfl⟩ :=
      h.resume_access hcall haccess
    all_goals
      simp only [hidle, setCore_self, left]
      omega

end

lemma Call.left_le (call : Call) : call.left ≤ 2 * takeAttempts := by
  unfold left
  split <;> omega

/-- Of every run in which no claim of a path that never returns is worn out, whatever the cores do
between its accesses. -/
theorem console_owner (hrun : Relation.ReflTransGen Calmly .initial s) : ConsoleSound s := by
  obtain ⟨mark, o, hok⟩ := run_ok hrun
  refine ⟨fun cpu p failed loaded s' hcall haccess => hok.priority haccess hcall, fun hentered => ?_,
    fun cpu found failed loaded s' hcall haccess => hok.restores haccess hcall, fun cpu hbusy => ?_,
    fun cpu failed loaded s' hcall haccess => hok.reports haccess hcall⟩
  · have hmark : mark = true := hok.entered.symm.trans hentered
    have hne : s.owner ≠ 0 := by
      rw [hok.owner, hmark]
      exact fun hzero => Bool.noConfusion (encode_inj true o false none hzero).1
    simp [isLive, hne]
  · obtain ⟨s', haccess⟩ := hok.accesses hbusy
    exact ⟨left_le _, s', haccess, hok.access_left haccess hbusy⟩

end Step

def Console.calmRun : List Event → Console → Option Console
  | [], s => some s
  | e :: es, s => if Calm s then (s.step e).bind (calmRun es) else none

lemma Console.calmRun_reaches {es : List Event} {s s' : Console} (h : s.calmRun es = some s') :
    Relation.ReflTransGen Calmly s s' := by
  induction es generalizing s with
  | nil =>
    cases h
    exact .refl
  | cons e es ih =>
    obtain ⟨hcalm, hbind⟩ := Option.ite_none_right_eq_some.mp h
    obtain ⟨s₁, hstep, hrest⟩ := Option.bind_eq_some_iff.mp hbind
    exact .head ⟨hcalm, e, hstep⟩ (ih hrest)

open scoped Smp

def sessionInterrupted : List Event :=
  [.activate, .claim 0 .debugger, .load 0, .exchange 0, .claim 1 .emergency, .load 1, .exchange 1,
    .resume 0, .load 0, .exchange 0]

theorem console_owner_sessionInterrupted : ∃ s, initial.calmRun sessionInterrupted = some s ∧
    s.entered = true ∧ ConsoleSound s := by
  have hends : (initial.calmRun sessionInterrupted).map (·.entered) = some true := by
    decide +kernel
  obtain ⟨s, hrun, hentered⟩ := Option.map_eq_some_iff.mp hends
  exact ⟨s, hrun, hentered, console_owner (calmRun_reaches hrun)⟩

/-- The debugger of core 0 opens and closes sessions between each load and exchange of an emergency
of core 1, whose attempts then all fail. -/
def wornOut : List Event :=
  [.activate, .claim 1 .emergency] ++ (List.replicate 8
    [.load 1, .claim 0 .debugger, .load 0, .exchange 0, .exchange 1,
      .load 1, .resume 0, .load 0, .exchange 0, .exchange 1]).flatten

theorem emergency_worn_out : ∃ s, initial.run wornOut = some s ∧
    s.entered = true ∧ s.isLive = true := by
  have hends : (initial.run wornOut).map (fun s => (s.entered, s.isLive)) = some (true, true) := by
    decide +kernel
  obtain ⟨s, hrun, hlive⟩ := Option.map_eq_some_iff.mp hends
  exact ⟨s, hrun, (Prod.mk.inj hlive).1, (Prod.mk.inj hlive).2⟩

end Takibi.Printk
