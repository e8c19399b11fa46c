import Takibi.Static.UnifySound

/-! Sequences of unification calls. The coefficients of the normal form are
native words, so a call is exact only where the coefficients of its terms'
difference, as integer polynomials, are in range. -/

namespace Takibi.Static
open Numeric Effect SparsePoly MvPolynomial List

/-! ## Terms as integer polynomials -/

inductive Sym
  | param (id : Nat)
  | global (name : String)
  | enum (name case : String)
  | var (id : Nat)
  deriving DecidableEq

noncomputable def symVal : Val (MvPolynomial Sym Int) where
  param id := X (.param id)
  global name := X (.global name)
  enum name case := X (.enum name case)
  var id := X (.var id)

/-- The polynomials that the terms stand for under the links of `st`. -/
structure Generic (st : Store) (g : Val (MvPolynomial Sym Int)) : Prop where
  models : g.Models st
  agree : g.Agree st symVal

structure Call where
  st : Store
  s1 : StaticTerm
  s2 : StaticTerm

/-- As integer polynomials, the two terms of the call differ by coefficients
smaller than `2^62` in magnitude. -/
def Call.Fits (c : Call) : Prop :=
  ∀ g, Generic c.st g → ∀ m, |coeff m (g.eval (.sub c.s1 c.s2))| < 2 ^ 62

def calls : Nat → Store → StaticTerm → StaticTerm → List Call
  | 0, _, _, _ => []
  | fuel + 1, st, s1, s2 =>
    ⟨st, s1, s2⟩ ::
      match (do
        let _ ← staticRepr fuel s2
        let _ ← staticRepr fuel s1
        unifyStaticPoly fuel s1 s2 : M Unit) st with
      | some (.error e, st) =>
        match factors fuel s1 s2 e st with
        | some (.ok ((a1, a2), (b1, b2)), st) =>
          calls fuel st a1 a2 ++
            match unifyStatic fuel a1 a2 st with
            | some (.ok (), st) => calls fuel st b1 b2
            | _ => []
        | _ => []
      | _ => []

section Values
variable {R : Type} [CommRing R]

def Val.sym (v : Val R) : Sym → R
  | .param id => v.param id
  | .global name => v.global name
  | .enum name case => v.enum name case
  | .var id => v.var id

lemma Generic.eval_eq {st : Store} {g : Val (MvPolynomial Sym Int)} (hst : Acyclic st)
    (hg : Generic st g) {v : Val R} (hv : v.Models st) (t : StaticTerm) :
    v.eval t = eval₂Hom (Int.castRingHom R) v.sym (g.eval t) := by
  rw [← Val.eval_map]
  refine hst.eval_eq hv (hg.models.map _) ⟨?_, ?_, ?_, fun r hr => ?_⟩ t
  · funext id
    simp [Val.map, hg.agree.param, symVal, Val.sym]
  · funext name
    simp [Val.map, hg.agree.global, symVal, Val.sym]
  · funext name case
    simp [Val.map, hg.agree.enum, symVal, Val.sym]
  · simp [Val.map, hg.agree.var r hr, symVal, Val.sym]

end Values

def keySym (k : Key) : Sym := if (ofLex k).1 then .var (ofLex k).2 else .param (ofLex k).2

lemma keySym_injective : Function.Injective keySym := by
  intro k k' h
  apply ofLex.injective
  unfold keySym at h
  cases hk : (ofLex k).1 <;> cases hk' : (ofLex k').1 <;>
    simp only [hk, hk', if_true, if_false, Bool.false_eq_true, Sym.param.injEq, Sym.var.injEq,
      reduceCtorEq] at h
  all_goals exact Prod.ext (hk.trans hk'.symm) h

variable {R : Type}

lemma atom_eq_sym [CommRing R] (v : Val R) (k : Key) : v.atom k = v.sym (keySym k) := by
  unfold Val.atom atomTerm keySym
  split_ifs <;> rfl

lemma eq_of_cast_native {a b : Int} (ha : Native.Fits a) (hb : Native.Fits b)
    (h : (a : Native) = (b : Native)) : a = b := by
  rw [← Native.toInt_ofInt_of_fits ha, ← Native.toInt_ofInt_of_fits hb]
  exact congrArg BitVec.toInt h

section Exact
variable {st : Store} {t : StaticTerm} {g : Val (MvPolynomial Sym Int)}

lemma polyOf_eq_generic {p : StaticPoly} {st₁ : Store} (hp : PolyOf st t p st₁)
    (hg : Generic st g) (hfit : ∀ m, Native.Fits (coeff m (g.eval t))) :
    g.eval t = value (fun c : Native => C c.toInt) (fun k => X (keySym k)) p := by
  set φ : MvPolynomial Sym Int →+* MvPolynomial Sym Native :=
    MvPolynomial.map (Int.castRingHom Native) with hφ
  have hatom : ∀ q ∈ p, ∀ k ∈ q.1, (g.map φ).atom k = X (keySym k) := by
    intro q hq k hk
    rw [atom_eq_sym]
    have hfree := hp.free q hq k hk
    unfold keySym
    split_ifs with h1
    · have hnone := (hp.compressed.unbound _).mp (hfree h1)
      simp [Val.sym, Val.map, hg.agree.var _ hnone, symVal, hφ]
    · simp [Val.sym, Val.map, hg.agree.param, symVal, hφ]
  have hnative : φ (g.eval t) = value (fun c : Native => C c) (fun k => X (keySym k)) p := by
    rw [← Val.eval_map, ← hp.value C (hg.models.map φ)]
    exact value_congr hatom
  have hlift : φ (value (fun c : Native => C c.toInt) (fun k => X (keySym k)) p) =
      value (fun c : Native => C c) (fun k => X (keySym k)) p := by
    rw [map_value]
    congr 1
    · funext c
      have hc : ((c.toInt : Int) : Native) = c := BitVec.ofInt_toInt
      rw [Function.comp_apply, hφ, map_C, eq_intCast, hc]
    · funext k
      simp [hφ]
  ext m
  have hcoeff : Native.Fits
      (coeff m (value (fun c : Native => C c.toInt) (fun k => X (keySym k)) p)) := by
    by_cases hm : ∃ q ∈ p, expo keySym q.1 = m
    · obtain ⟨q, hq, rfl⟩ := hm
      rw [coeff_value_of_mem keySym keySym_injective _ hp.normal hq]
      exact Native.fits_toInt q.2
    · rw [coeff_value_of_forall_ne keySym _ fun q hq h => hm ⟨q, hq, h⟩]
      decide
  refine eq_of_cast_native (hfit m) hcoeff ?_
  have := congrArg (coeff m) (hnative.trans hlift.symm)
  simpa [hφ, coeff_map] using this

lemma value_eq_eval {p : StaticPoly} {st₁ : Store} (hst : Acyclic st) (hg : Generic st g)
    (hfit : ∀ m, Native.Fits (coeff m (g.eval t))) (hp : PolyOf st t p st₁) {v : Val Int}
    (hv : v.Models st) : value (fun c : Native => (c.toInt : Int)) v.atom p = v.eval t := by
  rw [hg.eval_eq hst hv t, polyOf_eq_generic hp hg hfit, map_value]
  congr 1
  · funext c
    simp
  · funext k
    rw [atom_eq_sym]
    simp

lemma exact_int (hst : Acyclic st) (hg : Generic st g)
    (hfit : ∀ m, |coeff m (g.eval t)| < 2 ^ 62) : Exact Int st t := by
  have hfits : ∀ m, Native.Fits (coeff m (g.eval t)) := by
    intro m
    have := abs_lt.mp (hfit m)
    constructor <;> omega
  intro p st₁ hp
  have heq := polyOf_eq_generic hp hg hfits
  refine ⟨fun q hq => ?_, fun v hv => value_eq_eval hst hg hfits hp hv⟩
  · have hc := hfit (expo keySym q.1)
    rw [heq, coeff_value_of_mem keySym keySym_injective _ hp.normal hq] at hc
    rw [NegExact, Native.toInt_neg_of_ne]
    · simp
    · have := abs_lt.mp hc
      omega

end Exact

lemma Call.Fits.exact {c : Call} (h : c.Fits) (hst : Acyclic c.st) : Exact Int c.st (.sub c.s1 c.s2) := by
  obtain ⟨g, hm, ha⟩ := hst.exists_models symVal
  exact exact_int hst ⟨hm, ha⟩ (h g ⟨hm, ha⟩)

/-! ## One call -/

variable {st st' : Store} {ds : List Done}

lemma Exact.compressed [CommRing R] {t : StaticTerm} (h : Exact R st t)
    (hc : Compressed st st') : Exact R st' t := by
  intro p st₁ hp
  have hp' : PolyOf st t p st₁ :=
    ⟨hc.trans hp.compressed, hp.normal, hp.free, fun ψ v hv => hp.value ψ ((hc.models v).mpr hv)⟩
  exact ⟨(h hp').1, fun v hv => (h hp').2 v ((hc.models v).mp hv)⟩

lemma unifyStatic_eval_eq [CommRing R] {fuel : Nat} {s1 s2 : StaticTerm}
    (hst : Acyclic st)
    (hcalls : ∀ c ∈ calls fuel st s1 s2, Acyclic c.st → Exact R c.st (.sub c.s1 c.s2))
    (h : unifyStatic fuel s1 s2 st = some (.ok (), st')) {v : Val R} (hv : v.Models st') :
    v.eval s1 = v.eval s2 := by
  induction fuel generalizing s1 s2 st st' with
  | zero => exact (Mut.stuck_eq.mp h).elim
  | succ fuel ih =>
    have hback := (unifyStatic_refines h).models v hv
    obtain ⟨t1, t2, st₁, hc, hrun, heval, hout⟩ := unifyStatic_cases h
    have hself : Exact R st₁ (.sub s1 s2) :=
      (hcalls ⟨st, s1, s2⟩ (mem_cons_self ..) hst).compressed hc
    cases hout with
    | poly hp => exact unifyStaticPoly_eval_eq hself hp hv
    | @both e st₂ st₃ st₄ _ _ a1 a2 b1 b2 hp hf ha hb =>
      have hst₃ : Acyclic st₃ :=
        ((unifyStaticPoly_refines hp).trans (factors_cases hf).1.refines).acyclic (hc.acyclic hst)
      have hsub : ∀ c ∈ calls fuel st₃ a1 a2 ++ calls fuel st₄ b1 b2,
          Acyclic c.st → Exact R c.st (.sub c.s1 c.s2) := by
        intro c hmem
        refine hcalls c ?_
        rw [calls, hrun, hp]
        simp only [hf, ha]
        exact mem_cons_of_mem _ hmem
      have hv₄ := (unifyStatic_refines hb).models v hv
      have hab := ih hst₃ (fun c hmem => hsub c (mem_append_left _ hmem)) ha hv₄
      have hbb := ih ((unifyStatic_refines ha).acyclic hst₃)
        (fun c hmem => hsub c (mem_append_right _ hmem)) hb hv
      obtain ⟨hcf, hres⟩ := factors_cases hf
      rcases hres with hres | ⟨_, _, _, _, hres, hops⟩
      · cases hres
      · cases hres
        have hv₂ := (hcf.models v).mp ((unifyStatic_refines ha).models v hv₄)
        exact hops v hv₂ hab hbb
    | same heq => rw [(heval v hback).1, (heval v hback).2, heq]
    | @link r t ht hr hu =>
      rw [(heval v hback).1, (heval v hback).2]
      rcases ht with ⟨rfl, rfl⟩ | ⟨rfl, rfl⟩
      · exact hv.link_eq
      · exact hv.link_eq.symm

/-! ## Runs -/

structure Done where
  fuel : Nat
  call : Call
  res : Except UnifyError Unit

inductive Runs : Store → List Done → Store → Prop
  | nil (st : Store) : Runs st [] st
  | cons {fuel : Nat} {s1 s2 : StaticTerm} {res : Except UnifyError Unit} {st st₁ st' : Store}
      {ds : List Done} (h : unifyStatic fuel s1 s2 st = some (res, st₁)) (hs : Runs st₁ ds st') :
      Runs st (⟨fuel, ⟨st, s1, s2⟩, res⟩ :: ds) st'

lemma Runs.refines (h : Runs st ds st') : Refines st st' := by
  induction h with
  | nil st => exact (Compressed.refl st).refines
  | cons h _ ih => exact (unifyStatic_refines h).trans ih

/-- The difference of the terms of the call, and of every call it makes on
operands, is in range. -/
def Done.Fits (d : Done) : Prop :=
  ∀ c ∈ calls d.fuel d.call.st d.call.s1 d.call.s2, c.Fits

lemma Runs.eval_eq (h : Runs st ds st') (hst : Acyclic st) {d : Done}
    (hd : d ∈ ds) (hfits : d.Fits) (hres : d.res = .ok ()) {v : Val Int} (hv : v.Models st') :
    v.eval d.call.s1 = v.eval d.call.s2 := by
  -- the head call speaks of its own store, which the rest of the run refines
  induction h with
  | nil => simp at hd
  | cons h hs ih =>
    rcases mem_cons.mp hd with rfl | hd
    · cases hres
      exact unifyStatic_eval_eq hst (fun c hc hcst => (hfits c hc).exact hcst) h
        (hs.refines.models v hv)
    · exact ih ((unifyStatic_refines h).acyclic hst) hd hv

/-- In every run of calls from a store without links whose terms' differences are in range: the
links stay acyclic; under every assignment of the unbound variables the two terms of each call
that returned are equal integers, also after the later calls; and a raise of the normal form links
no variable. -/
theorem runs_unifyStatic_sound {st : Store} {ds : List Done} (h : Runs [] ds st)
    (hfits : ∀ d ∈ ds, d.Fits) :
    Acyclic st ∧
    (∀ t, (∃ fuel t' st', staticRepr fuel t st = some (.ok t', st')) ∧ PolyHalts st t) ∧
    (∀ a : Val Int, ∃ v : Val Int, v.Models st ∧ v.Agree st a) ∧
    (∀ d ∈ ds, d.res = .ok () → ∀ v : Val Int, v.Models st →
      v.eval d.call.s1 = v.eval d.call.s2) ∧
    (∀ fuel s1 s2 e st₀ st', unifyStaticPoly fuel s1 s2 st₀ = some (.error e, st') →
      ∀ r, st₀.find? r = none → st'.find? r = none) := by
  have hst := h.refines.acyclic acyclic_nil
  refine ⟨hst, fun t => ⟨staticRepr_terminates hst t, staticPoly_terminates hst t⟩,
    fun a => hst.exists_models a, fun d hd hres v hv => ?_,
    fun fuel s1 s2 e st₀ st' he r hr => ?_⟩
  · exact h.eval_eq acyclic_nil hd (hfits d hd) hres hv
  · exact ((unifyStaticPoly_error he).unbound r).mpr hr

/-- `p + 1` against `v0`, which it solves, and then `v0 + 1` against `v1`. -/
theorem runs_unifyStatic_sound_solveTwice :
    let d₁ : Done := ⟨6, ⟨[], .add (.param 0) (.const 1), .var 0⟩, .ok ()⟩
    let solved : Nat × StaticTerm := (0, .add (.const 1) (.param 0))
    let d₂ : Done := ⟨6, ⟨[solved], .add (.var 0) (.const 1), .var 1⟩, .ok ()⟩
    let st : Store := [(1, .add (.const 2) (.param 0)), solved, solved]
    Runs [] [d₁, d₂] st ∧ Acyclic st ∧ ∀ v : Val Int, v.Models st →
      v.eval (.add (.param 0) (.const 1)) = v.eval (.var 0) ∧
        v.eval (.add (.var 0) (.const 1)) = v.eval (.var 1) := by
  intro d₁ solved d₂ st
  have hrun : Runs [] [d₁, d₂] st := .cons (by decide) (.cons (by decide) (.nil st))
  have hfits₁ : d₁.Fits := by
    intro c hc
    have hcalls : calls 6 [] (.add (.param 0) (.const 1)) (.var 0) = [d₁.call] := rfl
    obtain rfl : c = d₁.call := mem_singleton.mp (by rw [← hcalls]; exact hc)
    intro g hg m
    have hval : g.eval (.sub (.add (.param 0) (.const 1)) (.var 0)) =
        X (.param 0) + 1 - X (.var 0) := by
      simp [Val.eval, hg.agree.param, hg.agree.var 0 rfl, symVal]
    simp only [d₁, hval, coeff_sub, coeff_add, coeff_X, coeff_one]
    split_ifs <;> norm_num
  have hfits₂ : d₂.Fits := by
    intro c hc
    have hcalls : calls 6 [solved] (.add (.var 0) (.const 1)) (.var 1) = [d₂.call] := rfl
    obtain rfl : c = d₂.call := mem_singleton.mp (by rw [← hcalls]; exact hc)
    intro g hg m
    have hsolved : g.var 0 = 1 + X (.param 0) := by
      rw [hg.models 0 _ rfl]
      simp [Val.eval, hg.agree.param, symVal]
    have hval : g.eval (.sub (.add (.var 0) (.const 1)) (.var 1)) =
        1 + X (.param 0) + 1 - X (.var 1) := by
      simp [Val.eval, hsolved, hg.agree.var 1 rfl, symVal]
    simp only [d₂, hval, coeff_sub, coeff_add, coeff_X, coeff_one]
    split_ifs <;> norm_num
  obtain ⟨hst, -, -, heval, -⟩ := runs_unifyStatic_sound hrun
    (forall_mem_cons.mpr ⟨hfits₁, forall_mem_singleton.mpr hfits₂⟩)
  exact ⟨hrun, hst, fun v hv => ⟨heval d₁ mem_cons_self rfl v hv,
    heval d₂ (mem_cons_of_mem _ mem_cons_self) rfl v hv⟩⟩

/-- `2^61 * 4` against `0`: the product of the coefficients wraps to zero, and
the call returns. -/
theorem unifyStatic_wraps :
    Runs [] [⟨6, ⟨[], .mul (.const 2305843009213693952) (.const 4), .const 0⟩, .ok ()⟩] [] ∧
      ¬ ∀ v : Val Int, v.Models [] →
        v.eval (.mul (.const 2305843009213693952) (.const 4)) = v.eval (.const 0) := by
  refine ⟨.cons (by decide) (.nil []), fun h => ?_⟩
  have hv := h ⟨fun _ => 0, fun _ => 0, fun _ _ => 0, fun _ => 0⟩
    (fun r t ht => by simp [AssocMap.find?] at ht)
  revert hv
  decide

end Takibi.Static
