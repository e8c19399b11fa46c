import Mathlib.Tactic

/-! Programs that share a state: each access is one step, and the steps of several programs come in any
order. A program is verified on its own, against what the others may do in between. -/

namespace Takibi.Concurrent
open Function Option

inductive Code (A : Type) (R : A → Type) (α : Type)
  | ret (a : α)
  | act (a : A) (k : R a → Code A R α)

namespace Code
variable {A : Type} {R : A → Type} {α β : Type}

def bind (c : Code A R α) (f : α → Code A R β) : Code A R β :=
  match c with
  | .ret a => f a
  | .act a k => .act a fun r => (k r).bind f

instance : Monad (Code A R) where
  pure := .ret
  bind := bind

def call (a : A) : Code A R (R a) := .act a .ret

@[simp] lemma pure_eq (a : α) : (pure a : Code A R α) = .ret a := rfl

end Code

/-! ## One program -/

/-- What a program may do in one access, what the others may do between two of its accesses, and what
they are guaranteed of each of its accesses. `rely s s` says that `s` may be found at all. -/
structure Env (S A : Type) (R : A → Type) where
  exec : (a : A) → S → R a → S → Prop
  rely : S → S → Prop
  guar : S → S → Prop
  refl : ∀ {s s'}, rely s s' → rely s' s'
  trans : ∀ {s s' s''}, rely s s' → rely s' s'' → rely s s''
  after : ∀ {s s'}, guar s s' → rely s' s'

section Safe
variable {S A : Type} {R : A → Type} {α β : Type} {E : Env S A R}

/-- Whatever the others do between the accesses of the program, each access does what is guaranteed to
them, and the program ends in a state of `Q`. -/
def Env.Safe (E : Env S A R) (Q : α → S → Prop) : Code A R α → S → Prop
  | .ret a, s => ∀ s', E.rely s s' → Q a s'
  | .act a k, s => ∀ s', E.rely s s' → ∀ r s'', E.exec a s' r s'' → E.guar s' s'' ∧ E.Safe Q (k r) s''

def Env.Stable (E : Env S A R) (P : S → Prop) : Prop := ∀ s s', E.rely s s' → P s → P s'

def Env.Triple (E : Env S A R) (P : S → Prop) (c : Code A R α) (Q : α → S → Prop) : Prop :=
  ∀ s, E.rely s s → P s → E.Safe Q c s

namespace Env
variable {P P' : S → Prop} {Q Q' : α → S → Prop} {c : Code A R α} {s s' : S} {f : α → Code A R β}

lemma Safe.stable (h : E.Safe Q c s) (hs : E.rely s s') : E.Safe Q c s' := by
  cases c with
  | ret a | act a k => exact fun s'' hs' => h s'' (E.trans hs hs')

lemma Safe.mono (h : E.Safe Q c s) (hQ : ∀ a s, E.rely s s → Q a s → Q' a s) : E.Safe Q' c s := by
  induction c generalizing s with
  | ret a => exact fun s' hs => hQ a s' (E.refl hs) (h s' hs)
  | act a k ih =>
    intro s' hs r s'' hexec
    obtain ⟨hguar, hrest⟩ := h s' hs r s'' hexec
    exact ⟨hguar, ih r hrest⟩

lemma Safe.of_rely (h : ∀ s', E.rely s s' → E.Safe Q c s') : E.Safe Q c s := by
  cases c with
  | ret a | act a k => exact fun s' hs => h s' hs s' (E.refl hs)

lemma Safe.bind {Q' : β → S → Prop} (h : E.Safe Q c s)
    (hf : ∀ a, E.Triple (Q a) (f a) Q') : E.Safe Q' (c >>= f) s := by
  induction c generalizing s with
  | ret a => exact Safe.of_rely fun s' hs => hf a s' (E.refl hs) (h s' hs)
  | act a k ih =>
    intro s' hs r s'' hexec
    obtain ⟨hguar, hrest⟩ := h s' hs r s'' hexec
    exact ⟨hguar, ih r hrest⟩

lemma Triple.bind {Q' : β → S → Prop} (h : E.Triple P c Q)
    (hf : ∀ a, E.Triple (Q a) (f a) Q') : E.Triple P (c >>= f) Q' := fun s hs hP =>
  (h s hs hP).bind hf

lemma Triple.pre (h : E.Triple P c Q) (hP : ∀ s, E.rely s s → P' s → P s) : E.Triple P' c Q :=
  fun s hs hP' => h s hs (hP s hs hP')

lemma Triple.post (h : E.Triple P c Q) (hQ : ∀ a s, E.rely s s → Q a s → Q' a s) : E.Triple P c Q' :=
  fun s hs hP => (h s hs hP).mono hQ

lemma Triple.ret {a : α} (hP : E.Stable P) (h : ∀ s, E.rely s s → P s → Q a s) :
    E.Triple P (.ret a) Q := fun s _ hs s' hss' => h s' (E.refl hss') (hP s s' hss' hs)

lemma Triple.ite {p : Prop} [Decidable p] {c' : Code A R α} (h : p → E.Triple P c Q)
    (h' : ¬p → E.Triple P c' Q) : E.Triple P (if p then c else c') Q := by
  split_ifs with hp
  · exact h hp
  · exact h' hp

lemma Triple.call {a : A} {Q : R a → S → Prop} (hP : E.Stable P)
    (h : ∀ s r s', E.rely s s → P s → E.exec a s r s' → E.guar s s' ∧ Q r s')
    (hQ : ∀ r, E.Stable (Q r)) : E.Triple P (Code.call a) Q := by
  intro s _ hs s' hss' r s'' hexec
  obtain ⟨hguar, hr⟩ := h s' r s'' (E.refl hss') (hP s s' hss' hs) hexec
  exact ⟨hguar, fun s₃ hs₃ => hQ r s'' s₃ hs₃ hr⟩

lemma Triple.since (h : ∀ s₀, E.rely s₀ s₀ → P s₀ → E.Triple (E.rely s₀) c Q) : E.Triple P c Q :=
  fun s hs hP => h s hs hP s hs hs

lemma Stable.and (hP : E.Stable P) (hP' : E.Stable P') : E.Stable fun s => P s ∧ P' s :=
  fun s s' hs h => ⟨hP s s' hs h.1, hP' s s' hs h.2⟩

lemma Stable.const (p : Prop) : E.Stable fun _ => p := fun _ _ _ h => h

lemma stable_rely (s₀ : S) : E.Stable (E.rely s₀) := fun _ _ hs h => E.trans h hs

end Env
end Safe

/-! ## Several programs -/

inductive Thread (A : Type) (R : A → Type) (V : Type)
  | idle
  | running (c : Code A R V)
  | ended

structure Pool (S T A : Type) (R : A → Type) (V : Type) where
  state : S
  threads : T → Thread A R V

structure System (S T A : Type) (R : A → Type) (V O C : Type) where
  code : O → Code A R V
  start : T → O → S → S
  perform : T → (a : A) → C → S → Option (R a × S)
  finish : T → V → S → S

inductive Event (T O C : Type)
  | start (t : T) (o : O)
  | access (t : T) (c : C)
  | finish (t : T)

section Pool
variable {S T A : Type} {R : A → Type} {V O C : Type} [DecidableEq T] (sys : System S T A R V O C)

def System.step (p : Pool S T A R V) : Event T O C → Option (Pool S T A R V)
  | .start t o =>
    match p.threads t with
    | .idle => some ⟨sys.start t o p.state, update p.threads t (.running (sys.code o))⟩
    | _ => none
  | .access t c =>
    match p.threads t with
    | .running (.act a k) =>
      (sys.perform t a c p.state).map fun (r, s) => ⟨s, update p.threads t (.running (k r))⟩
    | _ => none
  | .finish t =>
    match p.threads t with
    | .running (.ret v) => some ⟨sys.finish t v p.state, update p.threads t .ended⟩
    | _ => none

def System.run (p : Pool S T A R V) (events : List (Event T O C)) :
    Option (Pool S T A R V) := events.foldlM sys.step p

def System.exec (t : T) (a : A) (s : S) (r : R a) (s' : S) : Prop :=
  ∃ c, sys.perform t a c s = some (r, s')

structure Proof (sys : System S T A R V O C) where
  inv : S → Prop
  rely : T → S → S → Prop
  post : T → V → S → Prop
  fresh : T → S → Prop
  refl : ∀ t s, inv s → rely t s s
  inv_of_rely : ∀ {t s s'}, rely t s s' → inv s'
  trans : ∀ {t s s' s''}, rely t s s' → rely t s' s'' → rely t s s''
  fresh_of_rely : ∀ {t s s'}, rely t s s' → fresh t s → fresh t s'

variable {sys}

def Proof.env (P : Proof sys) (t : T) : Env S A R where
  exec := sys.exec t
  rely := P.rely t
  guar := fun s s' => P.inv s' ∧ ∀ u ≠ t, P.rely u s s'
  refl := fun h => P.refl t _ (P.inv_of_rely h)
  trans := P.trans
  after := fun h => P.refl t _ h.1

structure Proof.Sound (P : Proof sys) : Prop where
  start : ∀ t o s, P.inv s → P.fresh t s → P.inv (sys.start t o s) ∧
    (∀ u ≠ t, P.rely u s (sys.start t o s)) ∧ (P.env t).Safe (P.post t) (sys.code o) (sys.start t o s)
  finish : ∀ t v s, P.inv s → P.post t v s → P.inv (sys.finish t v s) ∧
    ∀ u ≠ t, P.rely u s (sys.finish t v s)

structure Proof.Holds (P : Proof sys) (p : Pool S T A R V) : Prop where
  inv : P.inv p.state
  idle : ∀ t, p.threads t = .idle → P.fresh t p.state
  running : ∀ t c, p.threads t = .running c → (P.env t).Safe (P.post t) c p.state

variable {P : Proof sys} {p p' : Pool S T A R V}

lemma Proof.Holds.update (h : P.Holds p) {t : T} {s' : S} {thread : Thread A R V} (hinv : P.inv s')
    (hrely : ∀ u ≠ t, P.rely u p.state s') (hidle : thread ≠ .idle)
    (hrunning : ∀ c, thread = .running c → (P.env t).Safe (P.post t) c s') :
    P.Holds ⟨s', Function.update p.threads t thread⟩ := by
  have hself : Function.update p.threads t thread t = thread := update_self ..
  have hother : ∀ u ≠ t, Function.update p.threads t thread u = p.threads u := fun u hu =>
    update_of_ne hu ..
  refine ⟨hinv, fun u hu => ?_, fun u c hu => ?_⟩
  · by_cases hut : u = t
    · rw [hut] at hu
      exact absurd (hself.symm.trans hu) hidle
    · exact P.fresh_of_rely (hrely u hut) (h.idle u ((hother u hut).symm.trans hu))
  · by_cases hut : u = t
    · rw [hut] at hu ⊢
      exact hrunning c (hself.symm.trans hu)
    · exact (h.running u c ((hother u hut).symm.trans hu)).stable (hrely u hut)

lemma Proof.Sound.step (hP : P.Sound) (h : P.Holds p) {e : Event T O C} (hstep : sys.step p e = some p') :
    P.Holds p' := by
  cases e with
  | start t o =>
    simp only [System.step] at hstep
    cases ht : p.threads t with
    | idle =>
      rw [ht] at hstep
      cases hstep
      obtain ⟨hinv, hrely, hsafe⟩ := hP.start t o p.state h.inv (h.idle t ht)
      refine h.update hinv hrely nofun fun c hc => ?_
      obtain rfl := Thread.running.inj hc
      exact hsafe
    | running c | ended => rw [ht] at hstep; cases hstep
  | access t choice =>
    simp only [System.step] at hstep
    rcases ht : p.threads t with _ | (_ | ⟨a, k⟩) | _ <;> rw [ht] at hstep <;> try cases hstep
    obtain ⟨⟨r, s'⟩, hperform, rfl⟩ := map_eq_some_iff.mp hstep
    obtain ⟨⟨hinv, hrely⟩, hsafe⟩ :=
      h.running t _ ht p.state (P.refl t _ h.inv) r s' ⟨choice, hperform⟩
    refine h.update hinv hrely nofun fun c hc => ?_
    obtain rfl := Thread.running.inj hc
    exact hsafe
  | finish t =>
    simp only [System.step] at hstep
    rcases ht : p.threads t with _ | (v | _) | _ <;> rw [ht] at hstep <;> try cases hstep
    obtain ⟨hinv, hrely⟩ :=
      hP.finish t v p.state h.inv (h.running t _ ht p.state (P.refl t _ h.inv))
    exact h.update hinv hrely nofun nofun

lemma Proof.Sound.run (hP : P.Sound) {events : List (Event T O C)} (h : P.Holds p)
    (hrun : sys.run p events = some p') : P.Holds p' := by
  induction events generalizing p with
  | nil =>
    cases hrun
    exact h
  | cons e events ih =>
    rw [System.run, List.foldlM_cons] at hrun
    obtain ⟨p₁, hstep, hrest⟩ := bind_eq_some_iff.mp hrun
    exact ih (hP.step h hstep) hrest

end Pool
end Takibi.Concurrent
