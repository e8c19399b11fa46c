import Mathlib.Tactic

/-! Readers and mutators of ext2. A reader raises the count and then reads the lock, a mutator takes the lock and
then waits for the count to be 0. Each step is one access to a shared word. -/

namespace Takibi.Ext2
open Function List Bool BitVec Finset

def spinLockFree : BitVec 64 := 0
def spinLockHeld : BitVec 64 := 1

inductive Place
  | idle
  | counted
  | refused
  | admitted
  | trylock
  | spinning
  | draining
  | guarded
  deriving DecidableEq, Repr

def Place.inCount : Place → Bool
  | .counted | .refused | .admitted => true
  | _ => false

def Place.holdsLock : Place → Bool
  | .draining | .guarded => true
  | _ => false

inductive Call
  | readEnter
  | readLeave
  | mutationTake
  | mutationGive
  deriving DecidableEq, Repr

variable {Core : Type} [DecidableEq Core]

structure MutationLock (Core : Type) where
  lock : BitVec 64
  readers : BitVec 64
  place : Core → Place

namespace MutationLock

def boot : MutationLock Core := ⟨spinLockFree, 0, fun _ => .idle⟩

/-- The next access of `core`, which makes the call `call` where it is in none. A reader that was admitted may
leave, a mutator with its guard may give it back. -/
def step (w : MutationLock Core) (event : Core × Call) : MutationLock Core :=
  let goto (place : Place) : Core → Place := update w.place event.1 place
  match w.place event.1, event.2 with
  | .idle, .readEnter => { w with readers := w.readers + 1, place := goto .counted }
  | .idle, .mutationTake => { w with place := goto .trylock }
  | .counted, _ => { w with place := goto (if w.lock ≠ spinLockFree then .refused else .admitted) }
  -- the enter answers false
  | .refused, _ => { w with readers := w.readers + 0xFFFFFFFFFFFFFFFF, place := goto .idle }
  | .admitted, .readLeave => { w with readers := w.readers + 0xFFFFFFFFFFFFFFFF, place := goto .idle }
  | .trylock, _ =>
    if w.lock = spinLockFree then { w with lock := spinLockHeld, place := goto .draining }
    else { w with place := goto .spinning }
  | .spinning, _ => { w with place := goto (if w.lock ≠ spinLockFree then .spinning else .trylock) }
  | .draining, _ => { w with place := goto (if w.readers ≠ 0 then .draining else .guarded) }
  | .guarded, .mutationGive => { w with lock := spinLockFree, place := goto .idle }
  | _, _ => w

def run (w : MutationLock Core) (events : List (Core × Call)) : MutationLock Core := events.foldl step w

variable [Fintype Core]

def count (w : MutationLock Core) : ℕ := (Finset.univ.filter fun core => (w.place core).inCount).card

/-- The lock word says whether a core holds the lock, the count word counts the readers, and no reader is admitted
beside a guard. -/
structure Sound (w : MutationLock Core) : Prop where
  lock : w.lock = spinLockFree ↔ ∀ core, (w.place core).holdsLock = false
  one : ∀ core core', (w.place core).holdsLock → (w.place core').holdsLock → core = core'
  readers : w.readers = BitVec.ofNat 64 w.count
  apart : ∀ core core', w.place core = .guarded → w.place core' ≠ .admitted

variable {w : MutationLock Core}

lemma count_update (core : Core) (place : Place) (lock readers : BitVec 64) :
    (⟨lock, readers, update w.place core place⟩ : MutationLock Core).count + (w.place core).inCount.toNat =
      w.count + place.inCount.toNat := by
  simp only [count, card_filter]
  rw [← add_sum_erase _ _ (mem_univ core),
    ← add_sum_erase _ (fun core => if (w.place core).inCount then 1 else 0) (mem_univ core),
    sum_congr rfl fun other mem => by rw [update_of_ne (ne_of_mem_erase mem)], update_self]
  simp only [Bool.toNat, cond_eq_ite]
  omega

namespace Sound
variable {core : Core} {before place : Place} {lock readers : BitVec 64} (sound : Sound w)
  (here : w.place core = before)
  (counted : ∀ n, n + before.inCount.toNat = w.count + place.inCount.toNat → readers = BitVec.ofNat 64 n)
include sound here

section
variable (guarded : place = .guarded → ∀ other, w.place other ≠ .admitted)
  (admitted : place = .admitted → ∀ other, w.place other ≠ .guarded)
include guarded admitted

section

include counted

lemma move
    (locked : lock = spinLockFree ↔ place.holdsLock = false ∧ ∀ other ≠ core, (w.place other).holdsLock = false)
    (one : place.holdsLock → ∀ other ≠ core, (w.place other).holdsLock = false) :
    Sound ⟨lock, readers, update w.place core place⟩ where
  lock := locked.trans (forall_update_iff w.place fun _ place => place.holdsLock = false).symm
  one := by
    have := sound.one
    grind
  readers := counted _ (here ▸ count_update core place lock readers)
  apart := by
    have := sound.apart
    grind

lemma quiet (same : place.holdsLock = before.holdsLock) :
    Sound ⟨w.lock, readers, update w.place core place⟩ := by
  refine sound.move here counted guarded admitted ?_ ?_
  · rw [same, sound.lock]
    grind
  · have := sound.one
    grind

end

lemma goto (same : place.holdsLock = before.holdsLock) (inCount : place.inCount = before.inCount) :
    Sound { w with place := update w.place core place } :=
  sound.quiet here (fun n moved => sound.readers.trans (congrArg _ (by rw [inCount] at moved; omega)))
    guarded admitted same

end

lemma lower (same : before.holdsLock = false) (inCount : before.inCount) :
    Sound { w with readers := w.readers + 0xFFFFFFFFFFFFFFFF, place := update w.place core .idle } := by
  refine sound.quiet here (fun n lowered => ?_) nofun nofun same.symm
  rw [inCount] at lowered
  rw [sound.readers, ← show n + 1 = w.count from lowered, ofNat_add, BitVec.add_assoc]
  exact BitVec.add_zero _

omit here

variable (few : Fintype.card Core < 2 ^ 64)
include few

omit [DecidableEq Core] in
lemma readers_toNat : w.readers.toNat = w.count := by
  have small : w.count < 2 ^ 64 := (card_filter_le _ _).trans_lt few
  rw [sound.readers, toNat_ofNat, Nat.mod_eq_of_lt small]

lemma step (event : Core × Call) : Sound (w.step event) := by
  obtain ⟨core, call⟩ := event
  unfold MutationLock.step
  cases here : w.place core with
  | idle =>
    cases call with
    | readEnter =>
      refine sound.quiet here (fun n raised => ?_) nofun nofun rfl
      rw [sound.readers, show n = w.count + 1 from raised, ofNat_add]
      rfl
    | mutationTake => exact sound.goto here nofun nofun rfl rfl
    | readLeave | mutationGive => exact sound
  | counted =>
    dsimp only
    split_ifs with held
    · exact sound.goto here nofun nofun rfl rfl
    · refine sound.goto here nofun (fun _ other guarded => ?_) rfl rfl
      have := sound.lock.mp (not_not.mp held) other
      rw [guarded] at this
      cases this
  | refused => exact sound.lower here rfl rfl
  | admitted =>
    cases call with
    | readLeave => exact sound.lower here rfl rfl
    | _ => exact sound
  | trylock =>
    dsimp only
    split_ifs with free
    · have unheld := sound.lock.mp free
      exact sound.move here (fun n moved => sound.readers.trans (congrArg _ moved.symm))
        nofun nofun (iff_of_false (by decide) nofun) fun _ other _ => unheld other
    · exact sound.goto here nofun nofun rfl rfl
  | spinning =>
    dsimp only
    split_ifs
    · exact sound.goto here nofun nofun rfl rfl
    · exact sound.goto here nofun nofun rfl rfl
  | draining =>
    dsimp only
    split_ifs with busy
    · exact sound.goto here nofun nofun rfl rfl
    · refine sound.goto here (fun _ other admitted => ?_) nofun rfl rfl
      have empty : w.count = 0 := by
        rw [← sound.readers_toNat few, not_not.mp busy]
        rfl
      have unseen := filter_eq_empty_iff.mp (card_eq_zero.mp empty) (mem_univ other)
      rw [admitted] at unseen
      exact unseen rfl
  | guarded =>
    cases call with
    | mutationGive =>
      have alone : ∀ other ≠ core, (w.place other).holdsLock = false := by
        intro other ne
        by_contra held
        exact ne (sound.one other core (by simpa using held) (here ▸ rfl))
      exact sound.move here (fun n moved => sound.readers.trans (congrArg _ moved.symm))
        nofun nofun (iff_of_true rfl ⟨rfl, alone⟩) nofun
    | _ => exact sound

lemma run (events : List (Core × Call)) : Sound (w.run events) := by
  induction events generalizing w with
  | nil => exact sound
  | cons event events ih => exact ih (sound.step few event)

end Sound

omit [DecidableEq Core] in
lemma sound_boot : Sound (boot : MutationLock Core) where
  lock := iff_of_true rfl fun _ => rfl
  one := nofun
  readers := by simp [count, boot, Place.inCount]
  apart := nofun

omit [Fintype Core] in
lemma step_place_of_ne {core : Core} {event : Core × Call} (ne : core ≠ event.1) :
    (w.step event).place core = w.place core := by
  unfold step
  dsimp only
  split
  case h_6 => split_ifs <;> exact update_of_ne ne ..
  case h_10 => rfl
  all_goals exact update_of_ne ne ..

lemma held_of_refused (sound : Sound w) (few : Fintype.card Core < 2 ^ 64) {core : Core}
    (began : w.place core = .counted) (events : List (Core × Call))
    (inside : ∀ past, past <+: events → (w.run past).place core = .counted ∨ (w.run past).place core = .refused)
    (refused : (w.run events).place core = .refused) :
    ∃ past, past <+: events ∧ ∃ other, ((w.run past).place other).holdsLock := by
  induction events generalizing w with
  | nil => cases began.symm.trans refused
  | cons event events ih =>
    have sound' := sound.step few event
    rcases inside [event] ⟨events, rfl⟩ with still | left
    · obtain ⟨past, early, held⟩ := ih sound' still
        (fun past early => inside (event :: past) (cons_prefix_cons.mpr ⟨rfl, early⟩)) refused
      exact ⟨event :: past, cons_prefix_cons.mpr ⟨rfl, early⟩, held⟩
    · refine ⟨[], nil_prefix, ?_⟩
      by_contra unheld
      have free : w.lock = spinLockFree := sound.lock.mpr (by simpa [run] using unheld)
      by_cases mine : core = event.1
      · have : (w.step event).place core = .admitted := by simp [step, ← mine, began, free]
        cases this.symm.trans left
      · cases began.symm.trans ((step_place_of_ne mine).symm.trans left)

end MutationLock

open MutationLock

/-- Readers and mutators exclude each other in every interleaving. -/
theorem readers_mutators_exclude [Fintype Core] (few : Fintype.card Core < 2 ^ 64) (events : List (Core × Call)) :
    let w : MutationLock Core := boot.run events
    (∀ core, w.place core = .guarded →
      (∀ other, w.place other = .guarded → other = core) ∧ ∀ other, w.place other ≠ .admitted) ∧
    w.readers.toNat = (univ.filter fun core => (w.place core).inCount).card ∧
    ∀ core during, w.place core = .idle →
      (∀ past, past <+: during → ((w.step (core, .readEnter)).run past).place core = .counted ∨
        ((w.step (core, .readEnter)).run past).place core = .refused) →
      ((w.step (core, .readEnter)).run during).place core = .refused →
      ∃ past, past <+: during ∧ ∃ other, (((w.step (core, .readEnter)).run past).place other).holdsLock := by
  intro w
  have sound : Sound w := sound_boot.run few events
  refine ⟨fun core guarded => ⟨fun other guarded' => ?_, (sound.apart core · guarded)⟩, sound.readers_toNat few,
    fun core during idle inside refused => ?_⟩
  · exact sound.one other core (guarded' ▸ rfl) (guarded ▸ rfl)
  · refine held_of_refused (sound.step few _) few ?_ during inside refused
    simp [step, idle]

/-- A mutator waits for a reader to leave. The reader that comes back beside the guard is refused. -/
def readerThenMutator : List (Fin 2 × Call) :=
  [(1, .readEnter), (1, .readEnter), (0, .mutationTake), (0, .mutationTake), (0, .mutationTake), (1, .readLeave),
    (0, .mutationTake)]

theorem readers_mutators_exclude_refusal :
    let w : MutationLock (Fin 2) := boot.run readerThenMutator
    let early : MutationLock (Fin 2) := boot.run (readerThenMutator.take 5)
    (early.place 1 = .admitted ∧ early.place 0 = .draining ∧
      early.readers.toNat = (univ.filter fun core => (early.place core).inCount).card) ∧
    w.place 0 = .guarded ∧ (∀ other, w.place other ≠ .admitted) ∧
    (w.run [(1, .readEnter), (1, .readEnter)]).place 1 = .refused ∧
    ∃ past, past <+: [(1, .readEnter)] ∧ ∃ other, (((w.step (1, .readEnter)).run past).place other).holdsLock := by
  intro w early
  have law := @readers_mutators_exclude (Fin 2) _ _ (by simp) readerThenMutator
  have refused : (w.run [(1, .readEnter), (1, .readEnter)]).place 1 = .refused := by decide
  refine ⟨⟨by decide, by decide, (readers_mutators_exclude (by simp) (readerThenMutator.take 5)).2.1⟩, by decide,
    (law.1 0 (by decide)).2, refused, law.2.2 1 [(1, .readEnter)] (by decide) (fun past start => ?_) refused⟩
  obtain rfl | rfl : past = [] ∨ past = [(1, .readEnter)] := by
    rcases past with _ | ⟨event, _ | ⟨event', past⟩⟩
    · exact .inl rfl
    · exact .inr (start.eq_of_length rfl)
    · have := start.length_le
      simp at this
  · exact .inl (by decide)
  · exact .inr refused

end Takibi.Ext2
