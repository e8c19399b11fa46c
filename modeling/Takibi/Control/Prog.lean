import Mathlib.Tactic

/-! Structured programs over arbitrary actions: sequences, choices, loops left by
`brk`, `cont` and `ret`, and scopes; no run leaves `stop`. A run ends with one of four exits; what a
run that has not ended is about to do is a separate relation. The weakest
precondition at the end speaks of both. -/

namespace Takibi.Control
open List
variable {A S : Type}

inductive Prog (A : Type)
  | skip
  | act (a : A)
  | seq (p q : Prog A)
  | choose (p q : Prog A)
  | loop (body : Prog A)
  | scope (p : Prog A)
  | brk
  | cont
  | ret
  | stop

def Prog.choices : List (Prog A) → Prog A
  | [] => .stop
  | p :: ps => .choose p (choices ps)

def Prog.acts : Prog A → List A
  | .act a => [a]
  | .seq p q | .choose p q => p.acts ++ q.acts
  | .loop p | .scope p => p.acts
  | _ => []

inductive Exit
  | normal
  | brk
  | cont
  | ret
  deriving DecidableEq, Repr

/-- What an action may do to a state, and the state in which a scope is left,
from those at its two ends. -/
structure Sem (A S : Type) where
  step : A → S → S → Prop
  leave : S → S → S

inductive Run (M : Sem A S) : Prog A → S → Exit → S → Prop
  | skip {s} : Run M .skip s .normal s
  | act {a s t} : M.step a s t → Run M (.act a) s .normal t
  | seq {p q s x t u} : Run M p s .normal t → Run M q t x u → Run M (.seq p q) s x u
  | seqExit {p q s x t} : Run M p s x t → x ≠ .normal → Run M (.seq p q) s x t
  | left {p q s x t} : Run M p s x t → Run M (.choose p q) s x t
  | right {p q s x t} : Run M q s x t → Run M (.choose p q) s x t
  | next {p s x t y u} : Run M p s x t → x = .normal ∨ x = .cont → Run M (.loop p) t y u →
      Run M (.loop p) s y u
  | leave {p s t} : Run M p s .brk t → Run M (.loop p) s .normal t
  | ret {p s t} : Run M p s .ret t → Run M (.loop p) s .ret t
  | scope {p s x t} : Run M p s x t → Run M (.scope p) s x (M.leave s t)
  | brk {s} : Run M .brk s .brk s
  | cont {s} : Run M .cont s .cont s
  | exit {s} : Run M .ret s .ret s

def Prog.exits : Prog A → List Exit
  | .brk => [.brk]
  | .cont => [.cont]
  | .ret => [.ret]
  | .seq p q | .choose p q => p.exits ++ q.exits
  | .loop p => p.exits.filter (· = .ret)
  | .scope p => p.exits
  | _ => []

lemma Run.mem_exits {M : Sem A S} {p : Prog A} {s t : S} {x : Exit} (h : Run M p s x t) :
    x = .normal ∨ x ∈ p.exits := by
  induction h with
  | skip | act _ | leave _ _ => exact .inl rfl
  | seq _ _ _ ih | right _ ih => exact ih.imp_right (mem_append_right _)
  | seqExit _ _ ih | left _ ih => exact ih.imp_right (mem_append_left _)
  | next _ _ _ _ ih | scope _ ih => exact ih
  | ret _ ih => exact .inr (mem_filter.mpr ⟨ih.resolve_left nofun, rfl⟩)
  | brk | cont | exit => exact .inr (mem_singleton.mpr rfl)

lemma Prog.mem_exits_choices {ps : List (Prog A)} {x : Exit} :
    x ∈ (Prog.choices ps).exits ↔ ∃ p ∈ ps, x ∈ p.exits := by
  induction ps with
  | nil => simp [choices, exits]
  | cons p ps ih => simp [choices, exits, ih]

section Inversion
variable {M : Sem A S} {p q : Prog A} {s t : S} {x : Exit}

lemma Run.of_scope (h : Run M (.scope p) s x t) : ∃ u, Run M p s x u := by
  cases h with
  | scope hp => exact ⟨_, hp⟩

lemma Run.of_seq (h : Run M (.seq p q) s .normal t) : ∃ u, Run M p s .normal u ∧ Run M q u .normal t := by
  cases h with
  | seq hp hq => exact ⟨_, hp, hq⟩
  | seqExit _ hne => exact absurd rfl hne

end Inversion

inductive Reach (M : Sem A S) : Prog A → S → A → S → Prop
  | act {a s} : Reach M (.act a) s a s
  | first {p q s a t} : Reach M p s a t → Reach M (.seq p q) s a t
  | then {p q s t a u} : Run M p s .normal t → Reach M q t a u → Reach M (.seq p q) s a u
  | left {p q s a t} : Reach M p s a t → Reach M (.choose p q) s a t
  | right {p q s a t} : Reach M q s a t → Reach M (.choose p q) s a t
  | body {p s a t} : Reach M p s a t → Reach M (.loop p) s a t
  | next {p s x t a u} : Run M p s x t → x = .normal ∨ x = .cont → Reach M (.loop p) t a u →
      Reach M (.loop p) s a u
  | scope {p s a t} : Reach M p s a t → Reach M (.scope p) s a t

lemma Reach.mem_acts {M : Sem A S} {p : Prog A} {s t : S} {a : A} (h : Reach M p s a t) : a ∈ p.acts := by
  induction h with
  | act => exact mem_singleton.mpr rfl
  | first _ ih | left _ ih => exact mem_append_left _ ih
  | «then» _ _ ih | right _ ih => exact mem_append_right _ ih
  | body _ ih | next _ _ _ ih | scope _ ih => exact ih

lemma Prog.mem_acts_choices {ps : List (Prog A)} {a : A} :
    a ∈ (Prog.choices ps).acts ↔ ∃ p ∈ ps, a ∈ p.acts := by
  induction ps with
  | nil => simp [choices, acts]
  | cons p ps ih => simp [choices, acts, ih]

structure Post (S : Type) where
  normal : S → Prop
  brk : S → Prop
  cont : S → Prop
  ret : S → Prop

namespace Post

def on (Q : Post S) : Exit → S → Prop
  | .normal => Q.normal
  | .brk => Q.brk
  | .cont => Q.cont
  | .ret => Q.ret

def comap (f : S → S) (Q : Post S) : Post S where
  normal := Q.normal ∘ f
  brk := Q.brk ∘ f
  cont := Q.cont ∘ f
  ret := Q.ret ∘ f

lemma on_comap (f : S → S) (Q : Post S) (x : Exit) (s : S) : (Q.comap f).on x s ↔ Q.on x (f s) := by
  cases x <;> rfl

end Post

structure WP (M : Sem A S) (ok : A → S → Prop) (p : Prog A) (Q : Post S) (s : S) : Prop where
  ends : ∀ x t, Run M p s x t → Q.on x t
  safe : ∀ a t, Reach M p s a t → ok a t

section Rules
variable {M : Sem A S} {ok : A → S → Prop} {p q : Prog A} {Q Q' : Post S} {s : S}

lemma WP.mono (h : WP M ok p Q s) (hQ : ∀ x t, Q.on x t → Q'.on x t) : WP M ok p Q' s :=
  ⟨fun x t hr => hQ x t (h.ends x t hr), h.safe⟩

lemma WP.mono_ok {ok' : A → S → Prop} (h : WP M ok p Q s) (hok : ∀ a t, ok a t → ok' a t) : WP M ok' p Q s :=
  ⟨h.ends, fun a t hr => hok a t (h.safe a t hr)⟩

lemma wp_skip (h : Q.normal s) : WP M ok .skip Q s := by
  constructor
  · rintro x t ⟨⟩
    exact h
  · rintro a t ⟨⟩

lemma wp_brk (h : Q.brk s) : WP M ok .brk Q s := by
  constructor
  · rintro x t ⟨⟩
    exact h
  · rintro a t ⟨⟩

lemma wp_cont (h : Q.cont s) : WP M ok .cont Q s := by
  constructor
  · rintro x t ⟨⟩
    exact h
  · rintro a t ⟨⟩

lemma wp_ret (h : Q.ret s) : WP M ok .ret Q s := by
  constructor
  · rintro x t ⟨⟩
    exact h
  · rintro a t ⟨⟩

lemma wp_stop : WP M ok .stop Q s := by
  constructor
  · rintro x t ⟨⟩
  · rintro a t ⟨⟩

lemma wp_act {a : A} (hok : ok a s) (h : ∀ t, M.step a s t → Q.normal t) : WP M ok (.act a) Q s := by
  constructor
  · rintro x t ⟨⟩
    exact h t ‹_›
  · rintro b t ⟨⟩
    exact hok

lemma wp_seq (h : WP M ok p { Q with normal := WP M ok q Q } s) : WP M ok (.seq p q) Q s := by
  constructor
  · intro x t hr
    cases hr with
    | seq hp hq => exact (h.ends .normal _ hp).ends x t hq
    | seqExit hp hx =>
      have := h.ends x t hp
      cases x with
      | normal => exact absurd rfl hx
      | _ => exact this
  · intro a t hr
    cases hr with
    | first hp => exact h.safe a t hp
    | «then» hp hq => exact (h.ends .normal _ hp).safe a t hq

lemma wp_choose (hp : WP M ok p Q s) (hq : WP M ok q Q s) : WP M ok (.choose p q) Q s := by
  constructor
  · intro x t hr
    cases hr with
    | left h => exact hp.ends x t h
    | right h => exact hq.ends x t h
  · intro a t hr
    cases hr with
    | left h => exact hp.safe a t h
    | right h => exact hq.safe a t h

lemma wp_choices {ps : List (Prog A)} (h : ∀ p ∈ ps, WP M ok p Q s) : WP M ok (.choices ps) Q s := by
  induction ps with
  | nil => exact wp_stop
  | cons p ps ih =>
    refine wp_choose (h p (mem_cons_self ..)) (ih fun q hq => ?_)
    exact h q (mem_cons_of_mem _ hq)

lemma wp_loop (I : S → Prop) (hs : I s)
    (hbody : ∀ t, I t → WP M ok p ⟨I, Q.normal, I, Q.ret⟩ t) : WP M ok (.loop p) Q s := by
  constructor
  · intro x t hr
    generalize hc : Prog.loop p = c at hr
    induction hr with
    | next hp hx _ _ ih =>
      cases hc
      have hI := (hbody _ hs).ends _ _ hp
      rcases hx with rfl | rfl
      · exact ih hI rfl
      · exact ih hI rfl
    | leave hp _ =>
      cases hc
      exact (hbody _ hs).ends .brk _ hp
    | ret hp _ =>
      cases hc
      exact (hbody _ hs).ends .ret _ hp
    | _ => cases hc
  · intro a t hr
    generalize hc : Prog.loop p = c at hr
    induction hr with
    | body hp _ =>
      cases hc
      exact (hbody _ hs).safe _ _ hp
    | next hp hx _ ih =>
      cases hc
      have hI := (hbody _ hs).ends _ _ hp
      rcases hx with rfl | rfl
      · exact ih hI rfl
      · exact ih hI rfl
    | _ => cases hc

lemma wp_scope (h : WP M ok p (Q.comap (M.leave s)) s) : WP M ok (.scope p) Q s := by
  constructor
  · intro x t hr
    cases hr with
    | scope hp => exact (Q.on_comap _ x _).mp (h.ends x _ hp)
  · intro a t hr
    cases hr with
    | scope hp => exact h.safe a t hp

end Rules
end Takibi.Control
