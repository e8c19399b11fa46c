import Takibi.Process.State

/-! The interval timers of the processes, which the ticks of the cores fire. -/

namespace Takibi.Process.Itimer
open List Function Option

structure ProcessItimerReal where
  due : ℕ
  intervalTicks : ℕ
  intervalUs : ℕ
  deriving DecidableEq

/-- `raised` counts the SIGALRM raised for the slot so far; no code reads it. -/
structure Record where
  state : ProcessSlotState
  timer : ProcessItimerReal
  raised : ℕ
  deriving DecidableEq

/-- `firing` are the cores whose tick has found something due and goes for the run lock. -/
structure Machine where
  records : List Record
  itimerDue : ℕ
  clock : ℕ
  firing : ℕ → Bool

def live : ProcessSlotState → Bool
  | .free | .constructing | .exited | .reaping => false
  | _ => true

def Record.armed (r : Record) : Bool := live r.state && r.timer.due != 0
def checkedAddUsize (a b : ℕ) : Option ℕ := if a + b < 2 ^ 64 then some (a + b) else none

/-- The due time after firing at `now`; 0 disarms. -/
def rearm (timer : ProcessItimerReal) (now : ℕ) : ℕ :=
  if timer.intervalTicks = 0 then 0
  else
    let rearmed := (checkedAddUsize timer.due timer.intervalTicks).getD 0
    if rearmed ≠ 0 ∧ rearmed ≤ now then (checkedAddUsize now timer.intervalTicks).getD 0 else rearmed

def Record.fireIfDue (now : ℕ) (r : Record) : Record :=
  if r.armed ∧ r.timer.due ≤ now then
    { r with timer := { r.timer with due := rearm r.timer now }, raised := r.raised + 1 }
  else r

def earlier (earliest due : ℕ) : ℕ := if due ≠ 0 ∧ (earliest = 0 ∨ due < earliest) then due else earliest

/-- One round of the walk over the records, with the earliest due time so far. -/
def round (now : ℕ) (walked : List Record × ℕ) (r : Record) : List Record × ℕ :=
  let r := r.fireIfDue now
  (walked.1 ++ [r], if live r.state then earlier walked.2 r.timer.due else walked.2)

def walk (now : ℕ) (records : List Record) : List Record × ℕ := records.foldl (round now) ([], 0)

namespace Machine
variable (m : Machine)

def currentItimerRealSwap (slot : ℕ) (timer : ProcessItimerReal) (replace : Bool) :
    Option (ProcessItimerReal × Machine) := do
  let r ← m.records[slot]?
  if r.state ≠ .running then none
  else if replace then
    some (r.timer, { m with
      records := m.records.set slot { r with timer }
      itimerDue := earlier m.itimerDue timer.due })
  else some (r.timer, m)

def moves (s t : ProcessSlotState) : Bool :=
  (live s && (live t || t = .exited)) ||
    (s, t) ∈ [(.free, .constructing), (.free, .ready), (.constructing, .ready), (.exited, .reaping)]

/-- Forks, scheduling and exits, and the removal of a record, which resets it. -/
def move (slot : ℕ) (state : ProcessSlotState) : Option Machine := do
  let r ← m.records[slot]?
  if state = .free then some { m with records := m.records.set slot { r with state, timer := ⟨0, 0, 0⟩ } }
  else if moves r.state state then some { m with records := m.records.set slot { r with state } }
  else none

/-- What a tick does without the lock. -/
def look (cpu counter : ℕ) : Machine :=
  { m with
    clock := counter
    firing := update m.firing cpu (decide (m.itimerDue ≠ 0 ∧ m.itimerDue ≤ counter)) }

def itimerFire (cpu counter : ℕ) : Machine :=
  let walked := walk counter m.records
  ⟨walked.1, walked.2, counter, update m.firing cpu false⟩

end Machine

inductive Event
  | swap (slot : ℕ) (timer : ProcessItimerReal) (replace : Bool)
  | move (slot : ℕ) (state : ProcessSlotState)
  | look (cpu counter : ℕ)
  | fire (cpu counter : ℕ)

/-- The counter has 64 bits and does not go back. -/
def Machine.step (m : Machine) : Event → Option Machine
  | .swap slot timer replace => (m.currentItimerRealSwap slot timer replace).map Prod.snd
  | .move slot state => m.move slot state
  | .look cpu counter =>
    if m.firing cpu ∨ counter < m.clock ∨ 2 ^ 64 ≤ counter then none else some (m.look cpu counter)
  | .fire cpu counter =>
    if m.firing cpu = false ∨ counter < m.clock ∨ 2 ^ 64 ≤ counter then none else some (m.itimerFire cpu counter)

def Machine.run (m : Machine) (events : List Event) : Option Machine := events.foldlM Machine.step m

/-- A slot that the pool does not have yet is free. -/
def boot (slots : ℕ) : Machine := ⟨replicate slots ⟨.free, ⟨0, 0, 0⟩, 0⟩, 0, 0, fun _ => false⟩

/-! ## The earliest due time -/

structure Sound (m : Machine) : Prop where
  early : ∀ r ∈ m.records, r.armed → m.itimerDue ≠ 0 ∧ m.itimerDue ≤ r.timer.due
  fresh : ∀ r ∈ m.records, r.state = .free ∨ r.state = .constructing → r.timer.due = 0

section Steps
variable {m m' : Machine} {slot now : ℕ} {r r' : Record} {e : Event} {timer : ProcessItimerReal}

lemma armed_iff : r.armed ↔ live r.state ∧ r.timer.due ≠ 0 := by simp [Record.armed]

lemma earlier_of_before {earliest : ℕ} (due : ℕ) {q : ℕ} (h : earliest ≠ 0 ∧ earliest ≤ q) :
    earlier earliest due ≠ 0 ∧ earlier earliest due ≤ q := by
  unfold earlier
  split_ifs <;> omega

lemma earlier_of_due {earliest due : ℕ} (h : due ≠ 0) : earlier earliest due ≠ 0 ∧ earlier earliest due ≤ due := by
  unfold earlier
  split_ifs <;> omega

lemma walk_spec (now : ℕ) (records : List Record) : (walk now records).1 = records.map (Record.fireIfDue now) ∧
    ∀ r ∈ (walk now records).1, r.armed → (walk now records).2 ≠ 0 ∧ (walk now records).2 ≤ r.timer.due := by
  induction records using reverseRecOn with
  | nil => exact ⟨rfl, nofun⟩
  | append_singleton records r ih =>
    obtain ⟨hmap, hearly⟩ := ih
    rw [walk, foldl_append, foldl_cons, foldl_nil, ← walk, round, map_append, ← hmap]
    refine ⟨rfl, fun q hq harmed => ?_⟩
    dsimp only at hq ⊢
    rcases mem_append.mp hq with hq | hq
    · split_ifs
      · exact earlier_of_before _ (hearly q hq harmed)
      · exact hearly q hq harmed
    · rw [mem_singleton.mp hq] at harmed ⊢
      rw [if_pos (armed_iff.mp harmed).1]
      exact earlier_of_due (armed_iff.mp harmed).2

lemma Sound.set (h : Sound m) (hearly : r.armed → m.itimerDue ≠ 0 ∧ m.itimerDue ≤ r.timer.due)
    (hfresh : r.state = .free ∨ r.state = .constructing → r.timer.due = 0) :
    Sound { m with records := m.records.set slot r } := by
  refine ⟨fun q hq => ?_, fun q hq => ?_⟩
  · obtain hq | rfl := mem_or_eq_of_mem_set hq
    · exact h.early q hq
    · exact hearly
  · obtain hq | rfl := mem_or_eq_of_mem_set hq
    · exact h.fresh q hq
    · exact hfresh

lemma Sound.swap {replace : Bool} {old : ProcessItimerReal} (h : Sound m)
    (hswap : m.currentItimerRealSwap slot timer replace = some (old, m')) : Sound m' := by
  obtain ⟨r, -, hswap⟩ := bind_eq_some_iff.mp hswap
  split_ifs at hswap with hstate <;> cases hswap
  · have hlower : Sound { m with itimerDue := earlier m.itimerDue timer.due } :=
      ⟨fun q hq harmed => earlier_of_before _ (h.early q hq harmed), h.fresh⟩
    refine hlower.set (fun harmed => earlier_of_due (armed_iff.mp harmed).2) fun hnew => ?_
    simp_all
  · exact h

lemma Sound.move {state : ProcessSlotState} (h : Sound m) (hmove : m.move slot state = some m') : Sound m' := by
  obtain ⟨r, hr, hmove⟩ := bind_eq_some_iff.mp hmove
  split_ifs at hmove with hfree hmoves <;> cases hmove
  · exact h.set (fun harmed => absurd rfl (armed_iff.mp harmed).2) fun _ => rfl
  · have hmem := mem_of_getElem? hr
    refine h.set (fun harmed => ?_) fun hnew => ?_
    · obtain ⟨hlive, hdue⟩ := armed_iff.mp harmed
      by_cases hbefore : live r.state
      · exact h.early r hmem (armed_iff.mpr ⟨hbefore, hdue⟩)
      · refine absurd (h.fresh r hmem ?_) hdue
        cases hs : r.state <;> cases state <;> simp_all [Machine.moves, live]
    · refine h.fresh r hmem ?_
      cases hs : r.state <;> cases state <;> simp_all [Machine.moves, live]

lemma Sound.fire (h : Sound m) (cpu counter : ℕ) : Sound (m.itimerFire cpu counter) := by
  obtain ⟨hmap, hearly⟩ := walk_spec counter m.records
  refine ⟨hearly, fun q hq hnew => ?_⟩
  change q ∈ (walk counter m.records).1 at hq
  rw [hmap] at hq
  obtain ⟨r, hr, rfl⟩ := mem_map.mp hq
  unfold Record.fireIfDue at hnew ⊢
  split_ifs at hnew ⊢ with hdue
  · have hlive := (armed_iff.mp hdue.1).1
    obtain hnew | hnew : r.state = .free ∨ r.state = .constructing := hnew <;>
    · rw [hnew] at hlive
      cases hlive
  · exact h.fresh r hr hnew

lemma Sound.step (h : Sound m) (hstep : m.step e = some m') : Sound m' := by
  cases e with
  | swap slot timer replace =>
    obtain ⟨⟨old, m''⟩, hswap, rfl⟩ := map_eq_some_iff.mp hstep
    exact h.swap hswap
  | move slot state => exact h.move hstep
  | look cpu counter =>
    obtain ⟨-, hstep⟩ := ite_none_left_eq_some.mp hstep
    cases hstep
    exact ⟨h.early, h.fresh⟩
  | fire cpu counter =>
    obtain ⟨-, hstep⟩ := ite_none_left_eq_some.mp hstep
    cases hstep
    exact h.fire cpu counter

lemma Sound.run (events : List Event) (h : Sound m) (hrun : m.run events = some m') : Sound m' := by
  induction events generalizing m with
  | nil =>
    cases hrun
    exact h
  | cons e events ih =>
    obtain ⟨m₁, hstep, hrun⟩ := bind_eq_some_iff.mp hrun
    exact ih (h.step hstep) hrun

lemma sound_boot (slots : ℕ) : Sound (boot slots) := by
  refine ⟨fun r hr harmed => ?_, fun r hr _ => ?_⟩
  · rw [eq_of_mem_replicate hr] at harmed
    cases harmed
  · rw [eq_of_mem_replicate hr]

/-! ## The expiries -/

/-- The due time that an expiry at `now` leaves. -/
def Rearmed (timer : ProcessItimerReal) (now due : ℕ) : Prop :=
  (due ≠ 0 → now < due) ∧
  if timer.intervalTicks = 0 then due = 0
  else
    let next := if now < timer.due + timer.intervalTicks then timer.due else now
    due = if next + timer.intervalTicks < 2 ^ 64 then next + timer.intervalTicks else 0

/-- SIGALRM is raised, once, by an expiry and by nothing else. -/
def Raises : Event → Record → Record → Prop
  | .fire _ now, r, r' =>
    if r.armed ∧ r.timer.due ≤ now then
      r'.state = r.state ∧ r'.raised = r.raised + 1 ∧ Rearmed r.timer now r'.timer.due
    else r' = r
  | _, r, r' => r'.raised = r.raised

/-- Whether the event neither replaces the timer of the slot nor ends its process. -/
def Event.spares (slot : ℕ) : Event → Bool
  | .swap s _ replace => s ≠ slot || !replace
  | .move s state => s ≠ slot || live state
  | _ => true

lemma rearm_spec (hnow : now < 2 ^ 64) : Rearmed timer now (rearm timer now) := by
  unfold Rearmed rearm checkedAddUsize
  grind

/-- What an event that spares the slot does to its timer before it is raised. -/
def Follows (slot : ℕ) (e : Event) (r r' : Record) : Prop :=
  Raises e r r' ∧ (e.spares slot → r.armed → r.raised < r'.raised ∨ r'.armed ∧ r'.timer.due = r.timer.due)

lemma follows_self (h : Raises e r r) : Follows slot e r r := ⟨h, fun _ harmed => .inr ⟨harmed, rfl⟩⟩

lemma set_follows {records : List Record} {s : ℕ} {q q' : Record} (hq : records[s]? = some q)
    (hr : records[slot]? = some r) (h : Raises e r r) (hself : s = slot → Follows slot e q q') :
    ∃ r', (records.set s q')[slot]? = some r' ∧ Follows slot e r r' := by
  by_cases hs : s = slot
  · subst hs
    cases hq.symm.trans hr
    exact ⟨q', getElem?_set_self (List.getElem?_eq_some_iff.mp hr).1, hself rfl⟩
  · exact ⟨r, (getElem?_set_ne hs).trans hr, follows_self h⟩

lemma step_record (hstep : m.step e = some m') (hr : m.records[slot]? = some r) :
    m.clock ≤ m'.clock ∧ ∃ r', m'.records[slot]? = some r' ∧ Follows slot e r r' := by
  cases e with
  | swap s timer replace =>
    obtain ⟨⟨old, m''⟩, hswap, rfl⟩ := map_eq_some_iff.mp hstep
    obtain ⟨q, hq, hswap⟩ := bind_eq_some_iff.mp hswap
    split_ifs at hswap with hstate hreplace <;> cases hswap
    · exact ⟨le_rfl, set_follows hq hr rfl fun hs => ⟨rfl, fun hspares => by simp_all [Event.spares]⟩⟩
    · exact ⟨le_rfl, r, hr, follows_self rfl⟩
  | move s state =>
    obtain ⟨q, hq, hmove⟩ := bind_eq_some_iff.mp hstep
    split_ifs at hmove with hfree hmoves <;> cases hmove
    · exact ⟨le_rfl, set_follows hq hr rfl fun hs => ⟨rfl, fun hspares => by simp_all [Event.spares, live]⟩⟩
    · refine ⟨le_rfl, set_follows hq hr rfl fun hs => ⟨rfl, fun hspares harmed => .inr ⟨?_, rfl⟩⟩⟩
      simp_all [Event.spares, armed_iff]
  | look cpu counter =>
    obtain ⟨hcounter, hstep⟩ := ite_none_left_eq_some.mp hstep
    cases hstep
    exact ⟨not_lt.mp fun hlt => hcounter (.inr (.inl hlt)), r, hr, follows_self rfl⟩
  | fire cpu now =>
    obtain ⟨hcounter, hstep⟩ := ite_none_left_eq_some.mp hstep
    cases hstep
    refine ⟨not_lt.mp fun hlt => hcounter (.inr (.inl hlt)), r.fireIfDue now, ?_, ?_⟩
    · change (walk now m.records).1[slot]? = _
      rw [(walk_spec now m.records).1, getElem?_map, hr, map_some]
    · dsimp only [Follows, Raises, Record.fireIfDue]
      split_ifs with hdue
      · have hnow := not_le.mp fun hle => hcounter (.inr (.inr hle))
        exact ⟨⟨rfl, rfl, rearm_spec hnow⟩, fun _ _ => .inl (Nat.lt_succ_self _)⟩
      · exact ⟨rfl, fun _ harmed => .inr ⟨harmed, rfl⟩⟩

lemma Raises.le (h : Raises e r r') : r.raised ≤ r'.raised := by
  cases e with
  | fire cpu now =>
    dsimp only [Raises] at h
    split_ifs at h
    · omega
    · rw [h]
  | _ => exact h.ge

lemma run_pending {raised due : ℕ} (events : List Event) (hspares : ∀ e ∈ events, e.spares slot)
    (hrun : m.run events = some m') (hr : m.records[slot]? = some r)
    (hpending : raised < r.raised ∨ raised ≤ r.raised ∧ r.armed ∧ r.timer.due = due) :
    m.clock ≤ m'.clock ∧ ∃ r', m'.records[slot]? = some r' ∧
      (raised < r'.raised ∨ raised ≤ r'.raised ∧ r'.armed ∧ r'.timer.due = due) := by
  induction events generalizing m r with
  | nil =>
    cases hrun
    exact ⟨le_rfl, r, hr, hpending⟩
  | cons e events ih =>
    obtain ⟨m₁, hstep, hrun⟩ := bind_eq_some_iff.mp hrun
    obtain ⟨hclock, r₁, hr₁, hraises, hkeeps⟩ := step_record hstep hr
    obtain ⟨he, hspares⟩ := forall_mem_cons.mp hspares
    have hle := hraises.le
    refine (ih hspares hrun hr₁ ?_).imp_left hclock.trans
    obtain hlt | ⟨hge, harmed, hdue⟩ := hpending
    · exact .inl (hlt.trans_le hle)
    · obtain hlt | ⟨harmed₁, hdue₁⟩ := hkeeps he harmed
      · exact .inl (hge.trans_lt hlt)
      · exact .inr ⟨hge.trans hle, harmed₁, hdue₁.trans hdue⟩

/-- No timer is missed and none expires early. -/
theorem itimer_exact (slots : ℕ) (events : List Event) (hrun : (boot slots).run events = some m) :
    (∀ r ∈ m.records, r.armed → m.itimerDue ≠ 0 ∧ m.itimerDue ≤ r.timer.due) ∧
    ∀ slot r, m.records[slot]? = some r →
      (∀ e m', m.step e = some m' → ∃ r', m'.records[slot]? = some r' ∧ Raises e r r') ∧
      ∀ cpu counter m₁, r.armed → r.timer.due ≤ counter → m.step (.look cpu counter) = some m₁ → m₁.firing cpu ∧
        ∀ between m₂ now m₃, (∀ e ∈ between, e.spares slot) → m₁.run between = some m₂ →
          m₂.step (.fire cpu now) = some m₃ → ∃ r', m₃.records[slot]? = some r' ∧ r.raised < r'.raised := by
  have hsound : Sound m := (sound_boot slots).run events hrun
  refine ⟨hsound.early, fun slot r hr => ⟨fun e m' hstep => ?_, fun cpu counter m₁ harmed hdue hlook => ?_⟩⟩
  · obtain ⟨-, r', hr', hraises, -⟩ := step_record hstep hr
    exact ⟨r', hr', hraises⟩
  · obtain ⟨-, hlook⟩ := ite_none_left_eq_some.mp hlook
    cases hlook
    have hearly := hsound.early r (mem_of_getElem? hr) harmed
    refine ⟨?_, fun between m₂ now m₃ hspares hbetween hfire => ?_⟩
    · exact (update_self ..).trans (decide_eq_true ⟨hearly.1, hearly.2.trans hdue⟩)
    · -- Whoever fires first between the look and the lock raises the signal; if nobody does, this core still finds it due.
      obtain ⟨hclock, r₂, hr₂, hpending⟩ := run_pending between hspares hbetween hr (.inr ⟨le_rfl, harmed, rfl⟩)
      obtain ⟨hnow, r₃, hr₃, hraises, -⟩ := step_record hfire hr₂
      refine ⟨r₃, hr₃, ?_⟩
      obtain hlt | ⟨hge, harmed₂, hdue₂⟩ := hpending
      · exact hlt.trans_le hraises.le
      · obtain ⟨-, hfire⟩ := ite_none_left_eq_some.mp hfire
        cases hfire
        dsimp only [Raises] at hraises
        rw [if_pos ⟨harmed₂, hdue₂.trans_le (hdue.trans (hclock.trans hnow))⟩] at hraises
        omega

theorem itimer_exact_interval : (((boot 2).run [.move 1 .ready, .move 1 .running, .swap 1 ⟨5, 3, 3⟩ true, .look 0 6,
    .fire 0 7]).bind fun m => m.records[1]?) = some ⟨.running, ⟨8, 3, 3⟩, 1⟩ ∧
    ∃ r' : Record, some ⟨.running, ⟨8, 3, 3⟩, 1⟩ = some r' ∧ 0 < r'.raised :=
  ⟨rfl, (((itimer_exact 2 [.move 1 .ready, .move 1 .running, .swap 1 ⟨5, 3, 3⟩ true] rfl).2 1
    ⟨.running, ⟨5, 3, 3⟩, 0⟩ rfl).2 0 6 _ rfl (by decide) rfl).2 [] _ 7 _ nofun rfl rfl⟩

end Steps
end Takibi.Process.Itimer
