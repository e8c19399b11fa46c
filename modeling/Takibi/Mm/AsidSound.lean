import Takibi.Mm.Asid

/-! A number belongs to one root within a generation. A rollover takes it away from roots that are
still installed, so that isolation needs every rollover to find root 0 on every core. -/

namespace Takibi.Mm
open Function Machine Option List Bool Nat

/-! ## Root 0 -/

structure Kept (m : Machine) : Prop where
  boot : m.backing 0 = ⟨true, 1, 1⟩
  reserved : ∀ root ≠ 0, (m.backing root).asid ≠ 1
  next : 2 ≤ m.asid.next
  generation : m.asid.generation ≠ 0
  stamps : ∀ root, (m.backing root).generation ≤ m.asid.generation

def Valid (m : Machine) (pair : ℕ × ℕ) : Prop :=
  pair = (1, 0) ∨ pair.2 ≠ 0 ∧ m.generationIsCurrent pair.2 = true ∧ pair.1 = (m.backing pair.2).asid

def ActivityValid (m : Machine) : Activity → Prop
  | .installing asid root => Valid m (asid, root)
  | _ => True

structure CoreValid (m : Machine) (core : Core) : Prop where
  installed : Valid m core.installed
  tlb : ∀ pair ∈ core.tlb, Valid m pair
  activity : ActivityValid m core.activity

structure Sound (m : Machine) : Prop where
  owned : ∀ root ≠ 0, m.generationIsCurrent root = true →
    2 ≤ (m.backing root).asid ∧ (m.backing root).asid < m.asid.next
  distinct : ∀ root root', root ≠ 0 → root' ≠ 0 → m.generationIsCurrent root = true →
    m.generationIsCurrent root' = true → (m.backing root).asid = (m.backing root').asid → root = root'
  cores : ∀ cpu, CoreValid m (m.cores cpu)

section Steps
variable {m m' : Machine} {asidLast root : ℕ} {cpu : Cpu} {core : Core} {activity : Activity}

lemma Kept.setCore (h : Kept m) (cpu : Cpu) (core : Core) : Kept (m.setCore cpu core) :=
  { h with }

lemma Kept.setActivity (h : Kept m) (cpu : Cpu) (activity : Activity) :
    Kept (m.setActivity cpu activity) := h.setCore cpu _

lemma Kept.rolloverStopped (h : Kept m) (asidLast : ℕ) : Kept (m.asidRolloverStopped asidLast) := by
  unfold asidRolloverStopped
  split_ifs
  · exact ⟨h.boot, h.reserved, le_rfl, succ_ne_zero _, fun root => (h.stamps root).trans (le_succ _)⟩
  · exact h

lemma assign_self (m : Machine) (root : ℕ) : (m.assign root).backing root =
    { m.backing root with asid := m.asid.next, generation := m.asid.generation } := update_self ..

lemma Kept.assign (h : Kept m) (hroot : root ≠ 0) : Kept (m.assign root) := by
  have hother : ∀ r ≠ root, (m.assign root).backing r = m.backing r := fun r hr => update_of_ne hr _ _
  refine ⟨(hother 0 hroot.symm).trans h.boot, fun r hr => ?_, h.next.trans (le_succ _), h.generation,
    fun r => ?_⟩
  · by_cases hrr : r = root
    · have hnext := h.next
      rw [hrr, assign_self]
      dsimp only
      omega
    · rw [hother r hrr]
      exact h.reserved r hr
  · by_cases hrr : r = root
    · rw [hrr, assign_self]
      exact le_rfl
    · rw [hother r hrr]
      exact h.stamps r

lemma ne_zero_of_needsAsid (h : m.needsAsid root = true) : root ≠ 0 ∧ m.generationIsCurrent root = false := by
  simpa [needsAsid] using h

/-! ## Pairs -/

lemma Sound.root_eq (h : Sound m) {pair pair' : ℕ × ℕ} (hp : Valid m pair) (hp' : Valid m pair')
    (hsame : pair.1 = pair'.1) : pair.2 = pair'.2 := by
  obtain rfl | ⟨hne, hcurrent, hasid⟩ := hp
  · obtain rfl | ⟨hne', hcurrent', hasid'⟩ := hp'
    · rfl
    · have := (h.owned _ hne' hcurrent').1
      omega
  · obtain rfl | ⟨hne', hcurrent', hasid'⟩ := hp'
    · have := (h.owned _ hne hcurrent).1
      omega
    · exact h.distinct _ _ hne hne' hcurrent hcurrent' (by rw [← hasid, ← hasid', hsame])

lemma ActivityValid.imp (h : ActivityValid m activity)
    (hpair : ∀ asid root, activity = .installing asid root → Valid m (asid, root) → Valid m' (asid, root)) :
    ActivityValid m' activity := by
  cases activity with
  | installing asid root => exact hpair asid root rfl h
  | idle | prepared => trivial

lemma Sound.setCore (h : Sound m) (hcore : CoreValid m core) : Sound (m.setCore cpu core) := by
  refine ⟨h.owned, h.distinct, fun c => ?_⟩
  by_cases hc : c = cpu
  · subst hc
    have hself : (m.setCore c core).cores c = core := update_self ..
    rw [hself]
    exact { hcore with }
  · have hother : (m.setCore cpu core).cores c = m.cores c := update_of_ne hc ..
    rw [hother]
    exact { h.cores c with }

lemma Sound.setActivity (h : Sound m) (cpu : Cpu) (hactivity : ActivityValid m activity) :
    Sound (m.setActivity cpu activity) :=
  h.setCore ⟨(h.cores cpu).installed, (h.cores cpu).tlb, hactivity⟩

lemma Sound.flush (h : Sound m) (f : ℕ × ℕ → Bool) : Sound (m.flush f) :=
  ⟨h.owned, h.distinct, fun cpu => ⟨(h.cores cpu).installed,
    fun pair hpair => (h.cores cpu).tlb pair (mem_of_mem_filter hpair), (h.cores cpu).activity⟩⟩

lemma Sound.assign (h : Sound m) (hkept : Kept m) (hneeds : m.needsAsid root = true) :
    Sound (m.assign root) ∧ Valid (m.assign root) (((m.assign root).backing root).asid, root) := by
  obtain ⟨hroot, hstale⟩ := ne_zero_of_needsAsid hneeds
  have hother : ∀ r ≠ root, (m.assign root).backing r = m.backing r := fun r hr => update_of_ne hr _ _
  have hcurrent : ∀ r ≠ root, (m.assign root).generationIsCurrent r = m.generationIsCurrent r :=
    fun r hr => by
      simp only [Machine.generationIsCurrent, hother r hr]
      rfl
  have hmine : (m.assign root).generationIsCurrent root = true := by
    simp only [Machine.generationIsCurrent, assign_self]
    simp [Machine.assign, hkept.generation]
  have hasid : ((m.assign root).backing root).asid = m.asid.next := by rw [assign_self]
  have hkeep : ∀ {pair}, Valid m pair → Valid (m.assign root) pair := fun {pair} hp => by
    obtain hboot | ⟨hne, hcur, heq⟩ := hp
    · exact .inl hboot
    · have hr : pair.2 ≠ root := fun hr => by
        rw [hr, hstale] at hcur
        cases hcur
      exact .inr ⟨hne, (hcurrent _ hr).trans hcur, by rw [hother _ hr]; exact heq⟩
  refine ⟨⟨fun r hr hcur => ?_, fun r r' hr hr' hcur hcur' heq => ?_, fun cpu => ?_⟩,
    .inr ⟨hroot, hmine, rfl⟩⟩
  · have hnext : (m.assign root).asid.next = m.asid.next + 1 := rfl
    rw [hnext]
    by_cases hrr : r = root
    · rw [hrr, hasid]
      exact ⟨hkept.next, lt_succ_self _⟩
    · rw [hcurrent r hrr] at hcur
      rw [hother r hrr]
      exact ⟨(h.owned r hr hcur).1, (h.owned r hr hcur).2.trans (lt_succ_self _)⟩
  · by_cases hrr : r = root <;> by_cases hrr' : r' = root
    · rw [hrr, hrr']
    · rw [hcurrent r' hrr'] at hcur'
      rw [hrr, hasid, hother r' hrr'] at heq
      exact absurd heq (h.owned r' hr' hcur').2.ne'
    · rw [hcurrent r hrr] at hcur
      rw [hrr', hasid, hother r hrr] at heq
      exact absurd heq (h.owned r hr hcur).2.ne
    · rw [hcurrent r hrr] at hcur
      rw [hcurrent r' hrr'] at hcur'
      rw [hother r hrr, hother r' hrr'] at heq
      exact h.distinct r r' hr hr' hcur hcur' heq
  · have hc := h.cores cpu
    refine ⟨hkeep hc.installed, fun pair hpair => hkeep (hc.tlb pair hpair), ?_⟩
    exact hc.activity.imp fun asid r _ => hkeep

lemma quiet_core (h : m.Quiet) (cpu : Cpu) : (m.cores cpu).installed.2 = 0 ∧
    ∀ asid root, (m.cores cpu).activity = .installing asid root → root = 0 := by
  have hquiet := h cpu
  simp only [coreQuiet, and_eq_true, decide_eq_true_iff] at hquiet
  refine ⟨hquiet.1, fun asid root hactivity => ?_⟩
  have hroot := hquiet.2
  rw [hactivity] at hroot
  exact of_decide_eq_true hroot

lemma Sound.rollover (h : Sound m) (hkept : Kept m) (hquiet : m.Quiet) : Sound m.asidRollover := by
  have hnone : ∀ root, m.asidRollover.generationIsCurrent root = false := fun root => by
    have hle := hkept.stamps root
    have hgeneration : m.asidRollover.asid.generation = m.asid.generation + 1 := rfl
    have hbacking : m.asidRollover.backing root = m.backing root := rfl
    simp only [generationIsCurrent, hgeneration, hbacking, and_eq_false_iff]
    right
    simp only [decide_eq_false_iff_not]
    omega
  refine ⟨fun root _ hcur => ?_, fun root _ _ _ hcur => ?_, fun cpu => ⟨?_, fun pair hpair => ?_, ?_⟩⟩
  · rw [hnone root] at hcur
    cases hcur
  · rw [hnone root] at hcur
    cases hcur
  · obtain hboot | ⟨hne, -⟩ := (h.cores cpu).installed
    · exact .inl hboot
    · exact absurd (quiet_core hquiet cpu).1 hne
  · simp [Machine.asidRollover, Machine.flush] at hpair
  · refine (h.cores cpu).activity.imp fun asid root hactivity hact => ?_
    obtain hboot | ⟨hne, -⟩ := hact
    · exact .inl hboot
    · exact absurd ((quiet_core hquiet cpu).2 asid root hactivity) hne

lemma Sound.rolloverStopped (h : Sound m) (hkept : Kept m)
    (hquiet : m.asid.next > asidLast → m.Quiet) : Sound (m.asidRolloverStopped asidLast) := by
  unfold asidRolloverStopped
  split_ifs with hfull
  · exact h.rollover hkept (hquiet hfull)
  · exact h

lemma needsAsid_rolloverStopped (hkept : Kept m) (hneeds : m.needsAsid root = true) :
    (m.asidRolloverStopped asidLast).needsAsid root = true := by
  unfold asidRolloverStopped
  split_ifs
  · have hle := hkept.stamps root
    have hroot := (ne_zero_of_needsAsid hneeds).1
    have hbacking : m.asidRollover.backing root = m.backing root := rfl
    have hgeneration : m.asidRollover.asid.generation = m.asid.generation + 1 := rfl
    simp only [needsAsid, generationIsCurrent, hbacking, hgeneration]
    have hne : (m.backing root).generation ≠ m.asid.generation + 1 := by omega
    simp [hroot, hne]
  · exact hneeds

lemma valid_of_not_needsAsid (hkept : Kept m) (hneeds : ¬ m.needsAsid root = true) :
    Valid m ((m.backing root).asid, root) := by
  by_cases hroot : root = 0
  · rw [hroot, hkept.boot]
    exact .inl rfl
  · refine .inr ⟨hroot, ?_, rfl⟩
    simpa [needsAsid, hroot] using hneeds

lemma Kept.step (h : Kept m) {e : Event} (hstep : m.step asidLast e = some m') :
    Kept m' ∧ (Sound m → (m.rolls asidLast e = true → m.Quiet) → Sound m') := by
  cases e with
  | fill cpu =>
    cases hstep
    refine ⟨h.setCore cpu _, fun hs _ => ?_⟩
    have hc := hs.cores cpu
    refine hs.setCore ⟨hc.installed, fun pair hpair => ?_, hc.activity⟩
    obtain rfl | hpair := mem_cons.mp hpair
    · exact hc.installed
    · exact hc.tlb pair hpair
  | prepare cpu root =>
    obtain ⟨-, heq⟩ := ite_none_right_eq_some.mp hstep
    cases heq
    unfold prepareActivation
    split_ifs with hlive hneeds hfull
    · exact ⟨h, fun hs _ => hs⟩
    · exact ⟨h, fun hs _ => hs⟩
    · exact ⟨(h.assign (ne_zero_of_needsAsid hneeds).1).setActivity cpu _,
        fun hs _ => (hs.assign h hneeds).1.setActivity cpu trivial⟩
    · exact ⟨h.setActivity cpu _, fun hs _ => hs.setActivity cpu trivial⟩
  | rollover =>
    cases hstep
    exact ⟨h.rolloverStopped asidLast, fun hs hquiet =>
      hs.rolloverStopped h fun hfull => hquiet (decide_eq_true hfull)⟩
  | check cpu =>
    simp only [Machine.step] at hstep
    split at hstep
    · cases hstep
      unfold checkActivation
      split_ifs with hlive hneeds
      · exact ⟨h.setActivity cpu _, fun hs _ => hs.setActivity cpu trivial⟩
      · exact ⟨h.setActivity cpu _, fun hs _ => hs.setActivity cpu trivial⟩
      · exact ⟨h.setActivity cpu _, fun hs _ => hs.setActivity cpu (valid_of_not_needsAsid h hneeds)⟩
    · cases hstep
  | cancel cpu =>
    simp only [Machine.step] at hstep
    split at hstep
    · cases hstep
      exact ⟨h.setActivity cpu _, fun hs _ => hs.setActivity cpu trivial⟩
    · cases hstep
  | activate cpu root =>
    obtain ⟨-, heq⟩ := ite_none_right_eq_some.mp hstep
    cases heq
    unfold activateRoot
    split_ifs with hlive
    · unfold refreshAsid
      split_ifs with hneeds
      · have hrolled := h.rolloverStopped asidLast
        refine ⟨(hrolled.assign (ne_zero_of_needsAsid hneeds).1).setActivity cpu _, fun hs hquiet => ?_⟩
        have hsound : Sound (m.asidRolloverStopped asidLast) := hs.rolloverStopped h fun hfull =>
          hquiet (by simp [rolls, hlive, hneeds, hfull])
        obtain ⟨hsound, hvalid⟩ := hsound.assign hrolled (needsAsid_rolloverStopped h hneeds)
        exact hsound.setActivity cpu hvalid
      · exact ⟨h.setActivity cpu _, fun hs _ => hs.setActivity cpu (valid_of_not_needsAsid h hneeds)⟩
    · exact ⟨h.setActivity cpu _, fun hs _ =>
        hs.setActivity cpu (valid_of_not_needsAsid h (by simp [needsAsid]))⟩
  | install cpu =>
    simp only [Machine.step] at hstep
    split at hstep
    · next asid root hactivity =>
      cases hstep
      refine ⟨h.setCore cpu _, fun hs _ => ?_⟩
      have hact := (hs.cores cpu).activity
      rw [hactivity] at hact
      exact hs.setCore ⟨hact, (hs.cores cpu).tlb, trivial⟩
    · cases hstep
  | clear root =>
    cases hstep
    split_ifs
    · exact ⟨{ h with }, fun hs _ => hs.flush _⟩
    · exact ⟨h, fun hs _ => hs⟩

end Steps

/-! ## Runs -/

section Runs
variable {m : Machine} {asidLast : ℕ} {es : List Event} {live : ℕ → Bool}

lemma initial_kept (live : ℕ → Bool) : Kept (.initial live) := by
  refine ⟨rfl, fun root hroot => ?_, le_rfl, one_ne_zero, fun root => ?_⟩
  · simp [initial, hroot]
  · by_cases hroot : root = 0 <;> simp [initial, hroot]

lemma initial_sound (live : ℕ → Bool) : Sound (.initial live) := by
  have hnone : ∀ root ≠ 0, (initial live).generationIsCurrent root = false := fun root hroot => by
    simp [generationIsCurrent, initial, hroot]
  refine ⟨fun root hroot hcur => ?_, fun root _ hroot _ hcur => ?_,
    fun cpu => ⟨.inl rfl, fun _ hpair => absurd hpair not_mem_nil, trivial⟩⟩
  · rw [hnone root hroot] at hcur
    cases hcur
  · rw [hnone root hroot] at hcur
    cases hcur

lemma Kept.runs {m₀ : Machine} (h : Kept m₀) (hrun : m₀.runs asidLast es = some m) :
    Kept m ∧ (Sound m₀ → m₀.quietRun asidLast es = true → Sound m) := by
  induction es generalizing m₀ with
  | nil =>
    cases hrun
    exact ⟨h, fun hs _ => hs⟩
  | cons e es ih =>
    obtain ⟨m₁, hstep, hrest⟩ := bind_eq_some_iff.mp hrun
    obtain ⟨hkept, hsound⟩ := h.step hstep
    refine ⟨(ih hkept hrest).1, fun hs hquiet => ?_⟩
    simp only [quietRun, hstep, elim_some, and_eq_true, or_eq_true,
      not_eq_true', decide_eq_true_iff] at hquiet
    have hrolls : m₀.rolls asidLast e = true → m₀.Quiet := fun hr =>
      hquiet.1.resolve_left (by rw [hr]; exact Bool.noConfusion)
    exact (ih hkept hrest).2 (hsound hs hrolls) hquiet.2

end Runs

open scoped Smp

def quietRollover : List Event :=
  [.activate 0 1, .install 0, .fill 0, .activate 1 2, .install 1, .fill 1, .activate 0 0, .install 0,
    .activate 1 0, .install 1, .prepare 1 3, .rollover, .prepare 1 3, .check 1, .install 1, .fill 1]

/-- With the numbers of 8 bits: root 1 stays on core 1 while core 0 uses all numbers up and rolls
over. Root 255 then gets the number under which core 1 still runs root 1, and follows it there. -/
def staleNumber : List Event :=
  [.prepare 1 1, .check 1, .install 1] ++
    ((List.range' 2 253).flatMap fun root => [.activate 0 root, .install 0]) ++
    [.prepare 0 255, .rollover, .fill 1, .prepare 0 255, .check 0, .install 0,
      .prepare 1 255, .check 1, .install 1]

end Takibi.Mm
