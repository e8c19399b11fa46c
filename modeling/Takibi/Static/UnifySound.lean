import Takibi.Static.Unify

/-! What a call of `unifyStatic` does to the store, and the equality it leaves. -/

namespace Takibi.Static
open Numeric Effect SparsePoly List

inductive Outcome (fuel : Nat) (s1 s2 t1 t2 : StaticTerm) (st₁ : Store) :
    Except UnifyError Unit → Store → Prop
  | poly {st'} (h : unifyStaticPoly fuel s1 s2 st₁ = some (.ok (), st')) :
      Outcome fuel s1 s2 t1 t2 st₁ (.ok ()) st'
  | shapes {e st₂ st'} (h : unifyStaticPoly fuel s1 s2 st₁ = some (.error e, st₂))
      (hf : factors fuel s1 s2 e st₂ = some (.error e, st')) :
      Outcome fuel s1 s2 t1 t2 st₁ (.error e) st'
  | left {e e' st₂ st₃ st' a1 a2 b1 b2}
      (h : unifyStaticPoly fuel s1 s2 st₁ = some (.error e, st₂))
      (hf : factors fuel s1 s2 e st₂ = some (.ok ((a1, a2), (b1, b2)), st₃))
      (ha : unifyStatic fuel a1 a2 st₃ = some (.error e', st')) :
      Outcome fuel s1 s2 t1 t2 st₁ (.error e') st'
  | both {e st₂ st₃ st₄ st' res a1 a2 b1 b2}
      (h : unifyStaticPoly fuel s1 s2 st₁ = some (.error e, st₂))
      (hf : factors fuel s1 s2 e st₂ = some (.ok ((a1, a2), (b1, b2)), st₃))
      (ha : unifyStatic fuel a1 a2 st₃ = some (.ok (), st₄))
      (hb : unifyStatic fuel b1 b2 st₄ = some (res, st')) :
      Outcome fuel s1 s2 t1 t2 st₁ res st'
  | same (h : t1 = t2) : Outcome fuel s1 s2 t1 t2 st₁ (.ok ()) st₁
  | link {r t} (ht : t1 = .var r ∧ t2 = t ∨ t2 = .var r ∧ t1 = t) (hr : st₁.find? r = none)
      (hu : ∀ u, Occurs u t → u ≠ r ∧ st₁.find? u = none) :
      Outcome fuel s1 s2 t1 t2 st₁ (.ok ()) (st₁.link r t)
  | mismatch {e} : Outcome fuel s1 s2 t1 t2 st₁ (.error e) st₁

/-! ## The normal form -/

structure Solved (st : Store) (s1 s2 : StaticTerm) (st' : Store) (p : StaticPoly) (st₁ st₂ : Store)
    (r : Nat) (coef : Native) : Prop where
  poly : PolyOf st (.sub s1 s2) p st₁
  compressed : Compressed st₁ st₂
  mem : ([toLex (true, r)], coef) ∈ p
  coef_eq : coef = 1 ∨ coef = -1
  alone : ∀ q ∈ p, q.1 = [toLex (true, r)] ∨ toLex (true, r) ∉ q.1
  unbound : st₂.find? r = none
  linked : st' = st₂.link r (solution p (toLex (true, r)) coef)

lemma solvable_cons {p : StaticPoly} {q : List Key × Native} {qs : StaticPoly}
    (h : p.filter (solvable p) = q :: qs) :
    ∃ r coef, q = ([toLex (true, r)], coef) ∧ q ∈ p ∧ (coef = 1 ∨ coef = -1) ∧
      ∀ q ∈ p, q.1 = [toLex (true, r)] ∨ toLex (true, r) ∉ q.1 := by
  have hq : q ∈ p.filter (solvable p) := by
    rw [h]
    exact mem_cons_self ..
  obtain ⟨hmem, hs⟩ := mem_filter.mp hq
  obtain ⟨m, coef⟩ := q
  unfold solvable at hs
  split at hs
  · rename_i k hk
    obtain rfl : m = [k] := hk
    simp only [Bool.and_eq_true, Bool.or_eq_true, decide_eq_true_eq, all_eq_true] at hs
    obtain ⟨⟨h1, hcoef⟩, hall⟩ := hs
    have hk1 : k = toLex (true, (ofLex k).2) := congrArg toLex (Prod.ext h1 rfl)
    refine ⟨(ofLex k).2, coef, by rw [← hk1], hmem, hcoef, fun q hq => ?_⟩
    rw [← hk1]
    exact hall q hq
  · simp at hs

variable {fuel : Nat} {s1 s2 t1 t2 : StaticTerm} {st st' : Store} {res : Except UnifyError Unit}

lemma unifyStaticPoly_cases (h : unifyStaticPoly fuel s1 s2 st = some (res, st')) :
    ((∃ e, res = .error e) ∧ Compressed st st') ∨
    (res = .ok () ∧ PolyOf st (.sub s1 s2) [] st') ∨
    (res = .ok () ∧ ∃ p st₁ st₂ r coef, Solved st s1 s2 st' p st₁ st₂ r coef) := by
  have hpoly : ∀ {e}, staticPoly fuel (.sub s1 s2) st = some (.error e, st') →
      Compressed st st' := fun h => keeps_staticPoly fuel _ h
  cases hp : staticPoly fuel (.sub s1 s2) st with
  | none =>
    cases res with
    | ok u =>
      obtain ⟨_, _, h, _⟩ := Mut.bind_ok.mp h
      rw [hp] at h
      cases h
    | error e =>
      rcases Mut.bind_error.mp h with h | ⟨_, _, h, _⟩ <;> (rw [hp] at h; cases h)
  | some r =>
    obtain ⟨pres, st₁⟩ := r
    cases pres with
    | error e =>
      have h' : some ((.error e : Except UnifyError Unit), st₁) = some (res, st') := by
        rw [← h, unifyStaticPoly]
        simp only [bind, Mut.bind, hp]
      cases h'
      exact Or.inl ⟨⟨e, rfl⟩, hpoly hp⟩
    | ok p =>
      have hof := staticPoly_ok hp
      unfold unifyStaticPoly at h
      simp only [bind, Mut.bind, hp] at h
      split_ifs at h with hnil
      · cases Mut.pure_eq.mp h
        exact Or.inr (Or.inl ⟨rfl, hnil ▸ hof⟩)
      · cases hfil : p.filter (solvable p) with
        | nil =>
          rw [hfil] at h
          cases Mut.raise_eq.mp h
          exact Or.inl ⟨⟨_, rfl⟩, hof.compressed⟩
        | cons q qs =>
          obtain ⟨r, coef, rfl, hmem, hcoef, halone⟩ := solvable_cons hfil
          rw [hfil] at h
          have hfree : st₁.find? r = none :=
            hof.free _ hmem _ (mem_singleton.mpr rfl) rfl
          change Mut.bind (staticRepr fuel (.var r)) _ st₁ = _ at h
          unfold Mut.bind at h
          cases hr : staticRepr fuel (.var r) st₁ with
          | none =>
            rw [hr] at h
            cases h
          | some x =>
            obtain ⟨rres, st₂⟩ := x
            obtain ⟨t', rfl, hrep⟩ := staticRepr_spec hr
            obtain rfl : t' = .var r := by
              rcases hrep.start with ht | ⟨r', hr', hfind⟩
              · exact ht
              · cases hr'
                rw [(hrep.compressed.unbound r).mpr hfree] at hfind
                cases hfind
            rw [hr] at h
            cases Mut.modify_eq.mp h
            exact Or.inr (Or.inr ⟨rfl, p, st₁, st₂, r, coef, hof, hrep.compressed, hmem, hcoef,
              halone, (hrep.compressed.unbound r).mpr hfree, rfl⟩)

structure Refines (st st' : Store) : Prop where
  acyclic : Acyclic st → Acyclic st'
  models : ∀ {R : Type} [CommRing R] (v : Val R), v.Models st' → v.Models st

lemma Refines.trans {st₁ st₂ st₃ : Store} (h : Refines st₁ st₂) (h' : Refines st₂ st₃) : Refines st₁ st₃ :=
  ⟨fun hst => h'.acyclic (h.acyclic hst), fun v hv => h.models v (h'.models v hv)⟩

lemma Compressed.refines (h : Compressed st st') : Refines st st' :=
  ⟨h.acyclic, fun v => (h.models v).mp⟩

lemma Refines.link {st : Store} {r : Nat} {t : StaticTerm} (hr : st.find? r = none)
    (ht : ∀ u, Occurs u t → u ≠ r ∧ st.find? u = none) : Refines st (st.link r t) :=
  ⟨fun hst => hst.link ht, fun _ hv => hv.of_link hr⟩

section Solved
variable {st₁ st₂ : Store} {p : StaticPoly} {r : Nat} {coef : Native}

lemma Solved.refines (h : Solved st s1 s2 st' p st₁ st₂ r coef) : Refines st st' := by
  refine (h.poly.compressed.trans h.compressed).refines.trans ?_
  rw [h.linked]
  refine Refines.link h.unbound fun u hu => ?_
  obtain ⟨q, hq, hk⟩ := occurs_staticOfPoly hu
  obtain ⟨q', hq', hkey⟩ : ∃ q' ∈ p.filter (fun q : List Key × Native =>
      decide (q.1 ≠ [toLex (true, r)])), q'.1 = q.1 := by
    split_ifs at hq
    · obtain ⟨q', hq', rfl⟩ := mem_map.mp hq
      exact ⟨q', hq', rfl⟩
    · exact ⟨q, hq, rfl⟩
  obtain ⟨hmem, hne⟩ := mem_filter.mp hq'
  rw [← hkey] at hk
  refine ⟨?_, (h.compressed.unbound u).mpr (h.poly.free q' hmem _ hk rfl)⟩
  rintro rfl
  exact (h.alone q' hmem).elim (by simpa using hne) fun hnot => hnot hk

def Exact (R : Type) [CommRing R] (st : Store) (t : StaticTerm) : Prop :=
  ∀ ⦃p st₁⦄, PolyOf st t p st₁ → (∀ q ∈ p, NegExact R q.2) ∧
    ∀ v : Val R, v.Models st → value (fun c : Native => ((c.toInt : Int) : R)) v.atom p = v.eval t

variable {R : Type} [CommRing R]

lemma negExact_neg {c : Native} (h : NegExact R c) : NegExact R (-c) := by
  unfold NegExact at *
  rw [h, neg_neg, neg_neg]

lemma Solved.eval_eq (h : Solved st s1 s2 st' p st₁ st₂ r coef) (hex : Exact R st (.sub s1 s2))
    {v : Val R} (hv : v.Models st') : v.eval s1 = v.eval s2 := by
  obtain ⟨hneg, hval⟩ := hex h.poly
  have hp := hval v (h.refines.models v hv)
  have hsplit := value_filter_add (φ := fun c : Native => ((c.toInt : Int) : R)) (ρ := v.atom)
    (fun q => decide (q.1 = [toLex (true, r)])) p
  have hkey := h.poly.normal.filter_key h.mem
  simp only at hkey
  rw [hkey, value_cons, value_nil, add_zero] at hsplit
  have hat : v.atom (toLex (true, r)) = v.var r := rfl
  simp only [map_singleton, prod_singleton, hat] at hsplit
  have hlink : v.var r = _ := (h.linked ▸ hv).link_eq
  set rest := p.filter fun q => decide (q.1 ≠ [toLex (true, r)]) with hrest
  have hrest' : (p.filter fun q => !decide (q.1 = [toLex (true, r)])) = rest := by
    simp [hrest]
  rw [hrest'] at hsplit
  have hnr : ∀ q ∈ rest, NegExact R q.2 := fun q hq => hneg q (mem_of_mem_filter hq)
  rw [Val.eval] at hp
  rcases h.coef_eq with hc | hc
  · have hone : ((1 : Native).toInt : R) = 1 := by simp
    have hsol : v.var r = -value (fun c : Native => ((c.toInt : Int) : R)) v.atom rest := by
      rw [hlink, solution, if_pos hc, eval_staticOfPoly v, SparsePoly.neg,
        value_map_coeff (fun c : Native => -c) (φ := fun c : Native => ((c.toInt : Int) : R))
          (c := -1), neg_one_mul]
      · intro q hq
        rw [neg_one_mul]
        exact hnr q hq
      · intro q hq
        obtain ⟨q', hq', rfl⟩ := mem_map.mp hq
        exact negExact_neg (hnr q' hq')
    rw [hc, hone] at hsplit
    linear_combination hsol + hsplit - hp
  · have hone : ((-1 : Native).toInt : R) = -1 := by
      rw [show (-1 : Native).toInt = -1 by decide]
      simp
    have hsol : v.var r = value (fun c : Native => ((c.toInt : Int) : R)) v.atom rest := by
      have hne : coef ≠ 1 := by rw [hc]; decide
      rw [hlink, solution, if_neg hne, eval_staticOfPoly v hnr]
    rw [hc, hone] at hsplit
    linear_combination -hsol + hsplit - hp

end Solved

lemma unifyStaticPoly_refines (h : unifyStaticPoly fuel s1 s2 st = some (res, st')) : Refines st st' := by
  rcases unifyStaticPoly_cases h with ⟨_, hc⟩ | ⟨_, hp⟩ | ⟨_, p, st₁, st₂, r, coef, hs⟩
  · exact hc.refines
  · exact hp.compressed.refines
  · exact hs.refines

lemma unifyStaticPoly_error {e : UnifyError}
    (h : unifyStaticPoly fuel s1 s2 st = some (.error e, st')) : Compressed st st' := by
  rcases unifyStaticPoly_cases h with ⟨_, hc⟩ | ⟨hres, _⟩ | ⟨hres, _⟩
  · exact hc
  · cases hres
  · cases hres

lemma unifyStaticPoly_eval_eq {R : Type} [CommRing R] (hex : Exact R st (.sub s1 s2))
    (h : unifyStaticPoly fuel s1 s2 st = some (.ok (), st'))
    {v : Val R} (hv : v.Models st') :
    v.eval s1 = v.eval s2 := by
  rcases unifyStaticPoly_cases h with ⟨⟨e, hres⟩, _⟩ | ⟨_, hp⟩ | ⟨_, p, st₁, st₂, r, coef, hs⟩
  · cases hres
  · have hzero := (hex hp).2 v ((hp.compressed.models v).mp hv)
    rw [value_nil, Val.eval] at hzero
    exact (sub_eq_zero.mp hzero.symm)
  · exact hs.eval_eq hex hv

/-! ## One call -/

lemma factors_cases {e : UnifyError}
    {res : Except UnifyError ((StaticTerm × StaticTerm) × StaticTerm × StaticTerm)}
    (h : factors fuel s1 s2 e st = some (res, st')) :
    Compressed st st' ∧ (res = .error e ∨ ∃ a1 a2 b1 b2, res = .ok ((a1, a2), (b1, b2)) ∧
      ∀ {R : Type} [CommRing R] (v : Val R), v.Models st → v.eval a1 = v.eval a2 →
        v.eval b1 = v.eval b2 → v.eval s1 = v.eval s2) := by
  unfold factors at h
  cases h2 : staticRepr fuel s2 st with
  | none =>
    simp only [bind, Mut.bind, h2] at h
    cases h
  | some r2 =>
    obtain ⟨_, st₁⟩ := r2
    obtain ⟨t2, rfl, hr2⟩ := staticRepr_spec h2
    cases h1 : staticRepr fuel s1 st₁ with
    | none =>
      simp only [bind, Mut.bind, h2, h1] at h
      cases h
    | some r1 =>
      obtain ⟨_, st₂⟩ := r1
      obtain ⟨t1, rfl, hr1⟩ := staticRepr_spec h1
      simp only [bind, Mut.bind, h2, h1] at h
      have hc := hr2.compressed.trans hr1.compressed
      have hval : ∀ {R : Type} [CommRing R] (v : Val R), v.Models st →
          v.eval s1 = v.eval t1 ∧ v.eval s2 = v.eval t2 := fun v hv =>
        ⟨(hr1.eval ((hr2.compressed.models v).mpr hv)).symm, (hr2.eval hv).symm⟩
      split at h
      case h_4 =>
        cases Mut.raise_eq.mp h
        exact ⟨hc, Or.inl rfl⟩
      all_goals
        cases Mut.pure_eq.mp h
        refine ⟨hc, Or.inr ⟨_, _, _, _, rfl, fun v hv ha hb => ?_⟩⟩
        rw [(hval v hv).1, (hval v hv).2, Val.eval, Val.eval, ha, hb]

lemma unifyAtoms_cases (h1 : ∀ r, t1 = .var r → st.find? r = none)
    (h2 : ∀ r, t2 = .var r → st.find? r = none)
    (harith : ¬ (isArithmetic t1 || isArithmetic t2) = true)
    (h : unifyAtoms (unifyStatic fuel) t1 t2 st = some (res, st')) :
    Outcome fuel s1 s2 t1 t2 st res st' := by
  have hvar : ∀ r t, st.find? r = none → t ≠ .var r → (∀ u, t = .var u → st.find? u = none) →
      isArithmetic t = false → (t1 = .var r ∧ t2 = t ∨ t2 = .var r ∧ t1 = t) →
      unifyVar (unifyStatic fuel) r t st = some (res, st') →
      Outcome fuel s1 s2 t1 t2 st res st' := by
    intro r t hr hne hres hat ht h
    have h' : (Mut.modify (Store.link r t) : M Unit) st = some (res, st') := by
      simpa [unifyVar, bind, Mut.bind, Mut.get, hr] using h
    cases Mut.modify_eq.mp h'
    refine .link ht hr fun u hu => ?_
    cases t with
    | var w =>
      cases hu
      exact ⟨fun h => hne (h ▸ rfl), hres u rfl⟩
    | add a b | sub a b | mul a b => cases hat
    | _ => exact hu.elim
  have hdone : ∀ {p : Prop} [Decidable p] {e : UnifyError}, (p → t1 = t2) →
      (if p then (pure () : M Unit) else Mut.raise e) st = some (res, st') →
      Outcome fuel s1 s2 t1 t2 st res st' := by
    intro p _ e hp h
    split_ifs at h with hc
    · cases Mut.pure_eq.mp h
      exact .same (hp hc)
    · cases Mut.raise_eq.mp h
      exact .mismatch
  simp only [Bool.or_eq_true, not_or, Bool.not_eq_true] at harith
  unfold unifyAtoms at h
  split at h
  · exact hdone (by rintro rfl; rfl) h
  · exact hdone (by rintro rfl; rfl) h
  · exact hdone (by rintro ⟨rfl, rfl⟩; rfl) h
  · exact hdone (by rintro rfl; rfl) h
  · split_ifs at h with heq
    · cases Mut.pure_eq.mp h
      exact .same heq.symm
    · exact hvar _ _ (h1 _ rfl) heq h2 harith.2 (Or.inl ⟨rfl, rfl⟩) h
  · rename_i r hne
    exact hvar _ _ (h2 _ rfl) (fun heq => hne r heq) h1 harith.1 (Or.inr ⟨rfl, rfl⟩) h
  · cases Mut.raise_eq.mp h
    exact .mismatch

lemma catching_factors_cases (h : Mut.catching (unifyStaticPoly fuel s1 s2) (fun polyError => do
        let ops ← factors fuel s1 s2 polyError
        unifyStatic fuel ops.1.1 ops.1.2
        unifyStatic fuel ops.2.1 ops.2.2) st = some (res, st')) :
    Outcome fuel s1 s2 t1 t2 st res st' := by
  rcases Mut.catching_cases.mp h with ⟨u, rfl, hp⟩ | ⟨e, st₂, hp, h⟩
  · exact .poly hp
  rcases Mut.bind_cases.mp h with ⟨e', rfl, hf⟩ | ⟨⟨⟨a1, a2⟩, b1, b2⟩, st₃, hf, h⟩
  · rcases (factors_cases hf).2 with he | ⟨_, _, _, _, he, _⟩
    · cases he
      exact .shapes hp hf
    · cases he
  rcases Mut.bind_cases.mp h with ⟨e', rfl, ha⟩ | ⟨u, st₄, ha, hb⟩
  · exact .left hp hf ha
  · exact .both hp hf ha hb

lemma unifyStatic_cases (h : unifyStatic (fuel + 1) s1 s2 st = some (res, st')) :
    ∃ t1 t2 st₁, Compressed st st₁ ∧
      (∀ x : M Unit, (do
        let _ ← staticRepr fuel s2
        let _ ← staticRepr fuel s1
        x : M Unit) st = x st₁) ∧
      (∀ {R : Type} [CommRing R] (v : Val R), v.Models st → v.eval s1 = v.eval t1 ∧ v.eval s2 = v.eval t2) ∧
      Outcome fuel s1 s2 t1 t2 st₁ res st' := by
  unfold unifyStatic at h
  cases h2 : staticRepr fuel s2 st with
  | none =>
    simp only [bind, Mut.bind, h2] at h
    cases h
  | some r2 =>
    obtain ⟨_, st₁⟩ := r2
    obtain ⟨t2, rfl, hr2⟩ := staticRepr_spec h2
    cases h1 : staticRepr fuel s1 st₁ with
    | none =>
      simp only [bind, Mut.bind, h2, h1] at h
      cases h
    | some r1 =>
      obtain ⟨_, st₂⟩ := r1
      obtain ⟨t1, rfl, hr1⟩ := staticRepr_spec h1
      simp only [bind, Mut.bind, h2, h1] at h
      refine ⟨t1, t2, st₂, hr2.compressed.trans hr1.compressed,
        fun x => by simp only [bind, Mut.bind, h2, h1], fun v hv =>
        ⟨(hr1.eval ((hr2.compressed.models v).mpr hv)).symm, (hr2.eval hv).symm⟩, ?_⟩
      have hres1 := hr1.resolved
      have hres2 : ∀ r, t2 = .var r → st₂.find? r = none := fun r hr =>
        (hr1.compressed.unbound r).mpr (hr2.resolved r hr)
      clear h1 h2 hr1 hr2
      split_ifs at h with harith
      · exact catching_factors_cases h
      · exact unifyAtoms_cases hres1 hres2 harith h

lemma unifyStatic_refines (h : unifyStatic fuel s1 s2 st = some (res, st')) : Refines st st' := by
  induction fuel generalizing s1 s2 st st' res with
  | zero => exact (Mut.stuck_eq.mp h).elim
  | succ fuel ih =>
    obtain ⟨t1, t2, st₁, hc, _, _, hout⟩ := unifyStatic_cases h
    refine hc.refines.trans ?_
    cases hout with
    | poly hp => exact unifyStaticPoly_refines hp
    | shapes hp hf => exact (unifyStaticPoly_refines hp).trans (factors_cases hf).1.refines
    | left hp hf ha =>
      exact (unifyStaticPoly_refines hp).trans ((factors_cases hf).1.refines.trans (ih ha))
    | both hp hf ha hb =>
      exact (unifyStaticPoly_refines hp).trans
        ((factors_cases hf).1.refines.trans ((ih ha).trans (ih hb)))
    | same | mismatch => exact (Compressed.refl _).refines
    | link _ hr hu => exact Refines.link hr hu

end Takibi.Static
