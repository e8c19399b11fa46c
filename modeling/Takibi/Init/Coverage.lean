import Takibi.Init.Pred
import Takibi.Numeric.Fallible

/-! The deciders over linear terms: entailment of a nonnegative term by path
facts, and coverage of a goal interval by a chain of intervals. -/

namespace Takibi.Init
open Numeric Option Lin
variable {κ : Type} [LinearOrder κ]

abbrev Interval (κ : Type) := Lin κ × Lin κ
abbrev Eqs (κ : Type) := List (κ × Lin κ)

/-- Linear facts of the path: terms `t` with `t ≥ 0` and definitions
`x = min(l, r)`. -/
structure Facts (κ : Type) where
  ge : List (Lin κ)
  mins : List (κ × Lin κ × Lin κ)
  deriving DecidableEq, Repr

def noFacts : Facts κ := ⟨[], []⟩

variable (eqs : Eqs κ)

def normalize (x : Lin κ) : Option (Lin κ) :=
  eqs.foldlM (fun x e => subst e.1 e.2 x) x

def normalizeFacts (f : Facts κ) : Option (Facts κ) := do
  let ge ← f.ge.mapM (normalize eqs)
  let mins ← f.mins.mapM fun d => do
    let l ← normalize eqs d.2.1
    let r ← normalize eqs d.2.2
    return (d.1, l, r)
  return ⟨ge, mins⟩

def sharesSign (t g : Lin κ) : Bool :=
  t.m.any fun p =>
    let j := coeff p.1 g
    decide (j ≠ 0) && decide ((j.toInt > 0) ↔ (p.2.toInt > 0))

def viaFact (go : Lin κ → Option Bool) (t g : Lin κ) : Option Bool :=
  if sharesSign t g then do go (← sub t g) else some false

def viaMin (go : Lin κ → Option Bool) (t : Lin κ) (d : κ × Lin κ × Lin κ) : Option Bool :=
  let k := coeff d.1 t
  if k = 0 then some false
  else do
    let rest : Lin κ := { t with m := AssocMap.remove d.1 t.m }
    let ta ← add rest (← scale k d.2.1)
    let tb ← add rest (← scale k d.2.2)
    if k.toInt > 0 then
      if ← go ta then go tb else return false
    else
      if ← go ta then return true else go tb

def entailsGo (f : Facts κ) : Nat → Lin κ → Option Bool
  | depth, t =>
    if 0 ≤ t.c.toInt ∧ ∀ p ∈ t.m, 0 ≤ p.2.toInt then some true
    else match depth with
      | 0 => some false
      | depth + 1 => do
        if ← f.ge.anyM (viaFact (entailsGo f depth) t) then return true
        f.mins.anyM (viaMin (entailsGo f depth) t)

def entails (f : Facts κ) (t : Lin κ) : Bool := (entailsGo f 4 t).getD false

def geM (f : Facts κ) (x y : Lin κ) : Option Bool := do
  return entails f (← sub x y)

def reaches (f : Facts κ) (ivs : List (Interval κ)) (b cur : Lin κ) : Option Bool :=
  ivs.anyM fun iv => do
    if ← geM f cur iv.1 then geM f iv.2 b else return false

def step (f : Facts κ) (cur : Lin κ) (pool : List (Interval κ)) : Option (Option (Lin κ)) :=
  pool.findSomeM? fun iv => do
    if ← geM f cur iv.1 then
      if ← geM f iv.2 cur then
        if iv.2 = cur then return none else return some iv.2
      else return none
    else return none

def walk (f : Facts κ) (ivs : List (Interval κ)) (b : Lin κ) :
    Nat → Lin κ → Lin κ → List (Interval κ) → Option (Option (Lin κ))
  | fuel, cur, report, pool => do
    if ← geM f cur b then return none
    match fuel with
    | 0 => return some report
    | fuel + 1 =>
      if ← reaches f ivs b cur then return none
      match ← step f cur pool with
      | some hi =>
        let advanced := entails f (← sub (← sub hi cur) (const 1))
        walk f ivs b fuel hi (if advanced then hi else report) (pool.filter fun iv => iv.2 ≠ hi)
      | none => return some report

def uncoveredM (facts : Facts κ) (ivs : List (Interval κ)) (goal : Interval κ) : Option (Option (Lin κ)) := do
  let facts ← normalizeFacts eqs facts
  let ivs ← ivs.mapM fun iv => do
    let lo ← normalize eqs iv.1
    let hi ← normalize eqs iv.2
    return (lo, hi)
  let b ← normalize eqs goal.2
  let a ← normalize eqs goal.1
  walk facts ivs b (ivs.length + 1) a a ivs

/-- `none`: covered. `some cur`: the first point the walk could not cover. -/
def uncovered (facts : Facts κ) (ivs : List (Interval κ)) (goal : Interval κ) : Option (Lin κ) :=
  (uncoveredM eqs facts ivs goal).getD (some goal.1)

/-! ## What the deciders mean under an assignment -/

variable {eqs} {ρ : κ → Int} {t : Lin κ} {k : Int}

def Eqs.Holds (ρ : κ → Int) (eqs : Eqs κ) : Prop := ∀ e ∈ eqs, ρ e.1 = e.2.eval ρ

structure Facts.Holds (ρ : κ → Int) (f : Facts κ) : Prop where
  ge : ∀ t ∈ f.ge, 0 ≤ t.eval ρ
  mins : ∀ d ∈ f.mins, ρ d.1 = min (d.2.1.eval ρ) (d.2.2.eval ρ)

def Interval.Has (ρ : κ → Int) (iv : Interval κ) (k : Int) : Prop :=
  iv.1.eval ρ ≤ k ∧ k < iv.2.eval ρ

lemma eval_normalize (he : eqs.Holds ρ) {x z : Lin κ}
    (h : normalize eqs x = some z) : z.eval ρ = x.eval ρ := by
  induction eqs generalizing x with
  | nil =>
    rw [← some.inj h]
  | cons e eqs ih =>
    simp only [normalize, List.foldlM_cons, bind_eq_bind, bind_eq_some_iff] at h
    obtain ⟨y, hy, hz⟩ := h
    rw [ih (fun e' h' => he e' (List.mem_cons_of_mem _ h')) hz,
      eval_subst ρ (he e (List.mem_cons_self ..)) hy]

lemma normalizeFacts_holds (he : eqs.Holds ρ) {f g : Facts κ} (hf : f.Holds ρ)
    (h : normalizeFacts eqs f = some g) : g.Holds ρ := by
  simp only [normalizeFacts, bind_eq_bind, bind_eq_some_iff, pure_def, some.injEq] at h
  obtain ⟨ge, hge, mins, hmins, rfl⟩ := h
  constructor
  · intro t ht
    obtain ⟨s, hs, hn⟩ := mem_of_mapM hge ht
    rw [eval_normalize he hn]
    exact hf.ge s hs
  · intro d hd
    obtain ⟨d', hd', hn⟩ := mem_of_mapM hmins hd
    simp only [bind_eq_some_iff, some.injEq] at hn
    obtain ⟨l, hl, r, hr, rfl⟩ := hn
    rw [eval_normalize he hl, eval_normalize he hr]
    exact hf.mins d' hd'

omit [LinearOrder κ] in
lemma eval_nonneg_of_coeffs (hρ : ∀ a, 0 ≤ ρ a)
    (h : 0 ≤ t.c.toInt ∧ ∀ p ∈ t.m, 0 ≤ p.2.toInt) : 0 ≤ t.eval ρ :=
  add_nonneg h.1 (AssocMap.weigh_nonneg h.2 hρ)

lemma min_expand_pos {x a b r : Int} (hx : x = min a b) (ha : 0 ≤ r + k * a)
    (hb : 0 ≤ r + k * b) : 0 ≤ k * x + r := by
  rcases min_cases a b with ⟨h, _⟩ | ⟨h, _⟩ <;> rw [hx, h] <;> linarith

lemma min_expand_neg {x a b r : Int} (hx : x = min a b) (hk : k ≤ 0)
    (h : 0 ≤ r + k * a ∨ 0 ≤ r + k * b) : 0 ≤ k * x + r := by
  have ha : k * a ≤ k * x := mul_le_mul_of_nonpos_left (hx ▸ min_le_left a b) hk
  have hb : k * b ≤ k * x := mul_le_mul_of_nonpos_left (hx ▸ min_le_right a b) hk
  rcases h with h | h <;> linarith

section Search
variable {go : Lin κ → Option Bool} (hgo : ∀ {s}, go s = some true → 0 ≤ s.eval ρ)
include hgo

lemma viaFact_sound {g : Lin κ} (hg : 0 ≤ g.eval ρ) (h : viaFact go t g = some true) : 0 ≤ t.eval ρ := by
  unfold viaFact at h
  split_ifs at h with hsign
  · obtain ⟨s, hs, h⟩ := bind_eq_some_iff.mp h
    have hrest := hgo h
    rw [eval_sub ρ hs] at hrest
    linarith
  · simp at h

lemma viaMin_sound {d : κ × Lin κ × Lin κ}
    (hd : ρ d.1 = min (d.2.1.eval ρ) (d.2.2.eval ρ)) (h : viaMin go t d = some true) :
    0 ≤ t.eval ρ := by
  simp only [viaMin] at h
  split at h
  · simp at h
  simp only [bind_eq_bind, bind_eq_some_iff] at h
  obtain ⟨sa, hsa, ta, hta, sb, hsb, tb, htb, h⟩ := h
  have ea := eval_add ρ hta
  have eb := eval_add ρ htb
  rw [eval_scale ρ hsa] at ea
  rw [eval_scale ρ hsb] at eb
  rw [eval_remove ρ d.1 t]
  split_ifs at h with hk
  · obtain ⟨u, hu, h⟩ := bind_eq_some_iff.mp h
    cases u with
    | false => simp at h
    | true => exact min_expand_pos hd (ea ▸ hgo hu) (eb ▸ hgo h)
  · refine min_expand_neg hd (not_lt.mp hk) ?_
    obtain ⟨u, hu, h⟩ := bind_eq_some_iff.mp h
    cases u with
    | false => exact Or.inr (eb ▸ hgo h)
    | true => exact Or.inl (ea ▸ hgo hu)

end Search

variable {f facts : Facts κ} {pool : List (Interval κ)} {goal : Interval κ}

section
variable (hf : f.Holds ρ)
include hf

section
variable (hρ : ∀ a, 0 ≤ ρ a)
include hρ

lemma entailsGo_sound {depth : Nat} (h : entailsGo f depth t = some true) : 0 ≤ t.eval ρ := by
  induction depth generalizing t with
  | zero =>
    unfold entailsGo at h
    split_ifs at h with hc
    · exact eval_nonneg_of_coeffs hρ hc
    · simp at h
  | succ depth ih =>
    unfold entailsGo at h
    split_ifs at h with hc
    · exact eval_nonneg_of_coeffs hρ hc
    obtain ⟨byFact, hfact, h⟩ := bind_eq_some_iff.mp h
    cases byFact with
    | true =>
      obtain ⟨g, hg, hvia⟩ := anyM_eq_true hfact
      exact viaFact_sound ih (hf.ge g hg) hvia
    | false =>
      obtain ⟨d, hd, hvia⟩ := anyM_eq_true h
      exact viaMin_sound ih (hf.mins d hd) hvia

lemma entails_sound (h : entails f t = true) : 0 ≤ t.eval ρ := by
  unfold entails at h
  cases hgo : entailsGo f 4 t with
  | none => simp [hgo] at h
  | some b =>
    rw [hgo, getD_some] at h
    exact entailsGo_sound hf hρ (h ▸ hgo)

lemma geM_sound {x y : Lin κ} (h : geM f x y = some true) : y.eval ρ ≤ x.eval ρ := by
  simp only [geM, bind_eq_bind, bind_eq_some_iff, pure_def, some.injEq] at h
  obtain ⟨s, hs, he⟩ := h
  have := entails_sound hf hρ he
  rw [eval_sub ρ hs] at this
  linarith

variable {ivs : List (Interval κ)}

lemma reaches_sound {b cur : Lin κ} (h : reaches f ivs b cur = some true) :
    ∃ iv ∈ ivs, iv.1.eval ρ ≤ cur.eval ρ ∧ b.eval ρ ≤ iv.2.eval ρ := by
  obtain ⟨iv, hiv, hge⟩ := anyM_eq_true h
  obtain ⟨lo, hlo, hhi⟩ := bind_eq_some_iff.mp hge
  cases lo with
  | false => simp at hhi
  | true => exact ⟨iv, hiv, geM_sound hf hρ hlo, geM_sound hf hρ hhi⟩

lemma step_sound {cur hi : Lin κ} (h : step f cur pool = some (some hi)) :
    ∃ iv ∈ pool, iv.2 = hi ∧ iv.1.eval ρ ≤ cur.eval ρ := by
  obtain ⟨iv, hiv, hge⟩ := findSomeM?_eq_some h
  obtain ⟨lo, hlo, hge⟩ := bind_eq_some_iff.mp hge
  cases lo with
  | false => simp at hge
  | true =>
    refine ⟨iv, hiv, ?_, geM_sound hf hρ hlo⟩
    obtain ⟨c, hc, hge⟩ := bind_eq_some_iff.mp hge
    cases c with
    | false => simp at hge
    | true =>
      simp only [if_true] at hge
      split_ifs at hge with heq
      · simp at hge
      · exact some.inj (some.inj hge)

end
end

def CoveredTo (ρ : κ → Int) (ivs : List (Interval κ)) (a z : Int) : Prop :=
  ∀ k, a ≤ k → k < z → ∃ iv ∈ ivs, iv.Has ρ k

omit [LinearOrder κ] in
lemma CoveredTo.mono {a y z : Int} (h : CoveredTo ρ ivs a z) (hy : y ≤ z) : CoveredTo ρ ivs a y :=
  fun k hk hky => h k hk (hky.trans_le hy)

omit [LinearOrder κ] in
lemma CoveredTo.extend {a z : Int} {iv : Interval κ} (h : CoveredTo ρ ivs a z) (hiv : iv ∈ ivs)
    (hlo : iv.1.eval ρ ≤ z) :
    CoveredTo ρ ivs a (iv.2.eval ρ) := by
  intro k hk hkhi
  rcases lt_or_ge k z with hlt | hge
  · exact h k hk hlt
  · exact ⟨iv, hiv, hlo.trans hge, hkhi⟩

lemma walk_sound (hf : f.Holds ρ) (hρ : ∀ a, 0 ≤ ρ a) {a : Int} {b : Lin κ} {fuel : Nat}
    {cur report : Lin κ} (hpool : pool ⊆ ivs)
    (hcov : CoveredTo ρ ivs a (cur.eval ρ)) (h : walk f ivs b fuel cur report pool = some none) :
    CoveredTo ρ ivs a (b.eval ρ) := by
  induction fuel generalizing cur report pool with
  | zero =>
    unfold walk at h
    obtain ⟨done, hdone, h⟩ := bind_eq_some_iff.mp h
    cases done with
    | true => exact hcov.mono (geM_sound hf hρ hdone)
    | false => simp at h
  | succ fuel ih =>
    unfold walk at h
    obtain ⟨done, hdone, h⟩ := bind_eq_some_iff.mp h
    cases done with
    | true => exact hcov.mono (geM_sound hf hρ hdone)
    | false =>
      obtain ⟨ends, hends, h⟩ := bind_eq_some_iff.mp h
      cases ends with
      | true =>
        obtain ⟨iv, hiv, hlo, hhi⟩ := reaches_sound hf hρ hends
        exact (hcov.extend hiv hlo).mono hhi
      | false =>
        obtain ⟨next, hnext, h⟩ := bind_eq_some_iff.mp h
        cases next with
        | none => simp at h
        | some hi =>
          obtain ⟨_, _, h⟩ := bind_eq_some_iff.mp h
          obtain ⟨_, _, h⟩ := bind_eq_some_iff.mp h
          obtain ⟨iv, hiv, rfl, hlo⟩ := step_sound hf hρ hnext
          exact ih (fun iv' h' => hpool (List.mem_of_mem_filter h')) (hcov.extend (hpool hiv) hlo) h

lemma uncoveredM_sound (hρ : ∀ a, 0 ≤ ρ a)
    (he : eqs.Holds ρ) (hf : facts.Holds ρ) (h : uncoveredM eqs facts ivs goal = some none)
    (hk : goal.Has ρ k) :
    ∃ iv ∈ ivs, iv.Has ρ k := by
  simp only [uncoveredM, bind_eq_bind, bind_eq_some_iff] at h
  obtain ⟨g, hg, ns, hns, b, hb, a, ha, h⟩ := h
  have hcov := walk_sound (a := a.eval ρ) (normalizeFacts_holds he hf hg) hρ
    (List.Subset.refl ns) (fun k h1 h2 => absurd h1 (not_le.mpr h2)) h
  rw [eval_normalize he ha, eval_normalize he hb] at hcov
  obtain ⟨iv, hiv, hin⟩ := hcov k hk.1 hk.2
  obtain ⟨iv₀, hiv₀, hn⟩ := mem_of_mapM hns hiv
  simp only [bind_eq_some_iff, pure_def, some.injEq] at hn
  obtain ⟨lo, hlo, hi, hhi, rfl⟩ := hn
  refine ⟨iv₀, hiv₀, ?_⟩
  rwa [Interval.Has, eval_normalize he hlo, eval_normalize he hhi] at hin

/-- A goal that the walk reports as covered is covered: each of its points lies
in one of the intervals, for every assignment of usize values to the atoms that
the path's equalities and facts hold of. -/
theorem uncovered_none_covers {eqs : Eqs κ} {facts : Facts κ} {ivs : List (Interval κ)}
    {goal : Interval κ} (h : uncovered eqs facts ivs goal = none)
    {ρ : κ → Int} (hρ : ∀ a, 0 ≤ ρ a ∧ ρ a < 2 ^ 64) (he : eqs.Holds ρ) (hf : facts.Holds ρ)
    {k : Int} (hk : goal.Has ρ k) : ∃ iv ∈ ivs, iv.Has ρ k := by
  unfold uncovered at h
  cases hu : uncoveredM eqs facts ivs goal with
  | none => simp [hu] at h
  | some r =>
    rw [hu, getD_some] at h
    exact uncoveredM_sound (fun a => (hρ a).1) he hf (h ▸ hu) hk

/-- A prefix `[0, n)` chains into `[x, n + 1)`, for `x` the minimum of `n` and another
value, and that reaches an end known to be at most `n + 1`. The atoms are `n`,
`n + 1`, the end, `x` and the other value. -/
theorem uncovered_none_covers_chain :
    let eqs : Eqs Nat := [(1, ⟨1, [(0, 1)]⟩)]
    let facts : Facts Nat := ⟨[⟨0, [(1, 1), (2, -1)]⟩], [(3, .atom 0, .atom 4)]⟩
    let ivs : List (Interval Nat) := [(.const 0, .atom 0), (.atom 3, .atom 1)]
    let ρ : Nat → Int := fun a => [5, 6, 6, 4, 4].getD a 0
    uncovered eqs facts ivs (.const 0, .atom 2) = none ∧ facts.Holds ρ ∧ ∃ iv ∈ ivs, iv.Has ρ 5 := by
  intro eqs facts ivs ρ
  have h : uncovered eqs facts ivs (.const 0, .atom 2) = none := by decide
  have hf : facts.Holds ρ := by
    constructor
    · simp [facts, ρ, eval, AssocMap.weigh]
    · simp [facts, ρ]
  have hρ : ∀ a, 0 ≤ ρ a ∧ ρ a < 2 ^ 64 := by
    rintro (_ | _ | _ | _ | _ | a) <;> simp [ρ]
  refine ⟨h, hf, uncovered_none_covers h hρ ?_ hf ?_⟩
  · simp [eqs, ρ, Eqs.Holds, eval, AssocMap.weigh]
  · simp [ρ, Interval.Has]

end Takibi.Init
