import Takibi.Numeric.SparsePoly
import Takibi.Static.Repr
import Mathlib.Data.BitVec

/-! The polynomial normal form of static arithmetic, over native coefficients. -/

namespace Takibi.Static
open Numeric Effect SparsePoly Mut List

/-- `(false, id)` is a rigid parameter, `(true, id)` an unbound variable; the
source writes 0 and 1. -/
abbrev Key := Bool ×ₗ Nat
abbrev StaticPoly := Poly Key Native

def atomTerm (k : Key) : StaticTerm :=
  if (ofLex k).1 then .var (ofLex k).2 else .param (ofLex k).2

def polyBinary (go : StaticTerm → M StaticPoly) (f : StaticPoly → StaticPoly → StaticPoly)
    (a b : StaticTerm) : M StaticPoly := do
  let q ← go b
  let p ← go a
  return f p q

def polyNode (go : StaticTerm → M StaticPoly) : StaticTerm → M StaticPoly
  | .const n => return norm [([], n)]
  | .global name => raise (.globalArithmetic name)
  | .enum name case => raise (.enumArithmetic name case)
  | .param id => return [([toLex (false, id)], 1)]
  | .var id => return [([toLex (true, id)], 1)]
  | .add a b => polyBinary go (fun p q => norm (p ++ q)) a b
  | .sub a b => polyBinary go (fun p q => norm (p ++ neg q)) a b
  | .mul a b => polyBinary go mul a b

def staticPoly : Nat → StaticTerm → M StaticPoly
  | 0, _ => stuck
  | fuel + 1, t => do polyNode (staticPoly fuel) (← staticRepr fuel t)

def nativeAbs (c : Native) : Native := if 0 ≤ c.toInt then c else -c

def monomial : List Key → StaticTerm
  | [] => .const 1
  | k :: rest => rest.foldl (fun acc k => .mul acc (atomTerm k)) (atomTerm k)

def term (m : List Key) (c : Native) : StaticTerm :=
  if m = [] then .const (nativeAbs c)
  else if nativeAbs c = 1 then monomial m
  else .mul (.const (nativeAbs c)) (monomial m)

def staticOfPoly (p : StaticPoly) : StaticTerm :=
  match p.filter (fun q => decide (0 < q.2.toInt)) ++
      p.filter (fun q => !decide (0 < q.2.toInt)) with
  | [] => .const 0
  | (m, c) :: rest =>
    rest.foldl (fun acc q => if 0 < q.2.toInt then .add acc (term q.1 q.2) else
        .sub acc (term q.1 q.2))
      (if 0 < c.toInt then term m c else .sub (.const 0) (term m c))

/-! ## The normal form of a term -/

def Free (st : Store) (k : Key) : Prop :=
  (ofLex k).1 = true → st.find? (ofLex k).2 = none

lemma Free.compressed {st st' : Store} (h : Compressed st st') {k : Key} (hk : Free st k) : Free st' k :=
  fun h1 => (h.unbound _).mpr (hk h1)

def Val.atom {R : Type} [CommRing R] (v : Val R) (k : Key) : R := v.eval (atomTerm k)

structure PolyOf (st : Store) (t : StaticTerm) (p : StaticPoly) (st' : Store) : Prop where
  compressed : Compressed st st'
  normal : Normal p
  free : Over (Free st') p
  value : ∀ {S : Type} [CommRing S] (ψ : Native →+* S) {v : Val S}, v.Models st →
    value ψ v.atom p = v.eval t

lemma map_native {S : Type} [CommRing S] (ψ : Native →+* S) (n : Native) : ψ n = ((n.toInt : Int) : S) := by
  rw [← map_intCast ψ]
  congr 1
  exact BitVec.ofInt_toInt.symm

variable {t t' : StaticTerm} {f : StaticPoly → StaticPoly → StaticPoly} {go : StaticTerm → M StaticPoly} {p : StaticPoly}

section Nodes
variable {st st' st₁ st₂ : Store} {a b : StaticTerm} {q : StaticPoly}

lemma PolyOf.represents (hr : Represents st t t' st₁)
    (h : PolyOf st₁ t' p st₂) : PolyOf st t p st₂ where
  compressed := hr.compressed.trans h.compressed
  normal := h.normal
  free := h.free
  value ψ v hv := by rw [h.value ψ ((hr.compressed.models v).mpr hv), hr.eval hv]

lemma polyOf_const (n : Native) : PolyOf st (.const n) (norm [([], n)]) st where
  compressed := .refl st
  normal := normal_norm (by simp)
  free := Over.norm (by simp [Over])
  value ψ v _ := by simp [value_norm, Val.eval, map_native ψ n]

lemma polyOf_atom {k : Key} (hk : Free st k) : PolyOf st (atomTerm k) [([k], 1)] st where
  compressed := .refl st
  normal := ⟨by simp, by simp⟩
  free r hr k' hk' := by
    rw [mem_singleton.mp hr] at hk'
    exact mem_singleton.mp hk' ▸ hk
  value ψ v _ := by
    have hone : ψ (1 : Native) = 1 := map_one ψ
    rw [value_cons, value_nil, hone, add_zero, one_mul, map_singleton, prod_singleton]
    rfl

lemma PolyOf.binary (hb : PolyOf st b q st₁) (ha : PolyOf st₁ a p st₂)
    (hn : ∀ {p q}, Normal p → Normal q → Normal (f p q))
    (ho : ∀ {F p q}, Over F p → Over F q → Over F (f p q))
    (hf : ∀ {S : Type} [CommRing S] (ψ : Native →+* S) (v : Val S),
      v.eval a = SparsePoly.value ψ v.atom p → v.eval b = SparsePoly.value ψ v.atom q →
        SparsePoly.value ψ v.atom (f p q) = v.eval t) :
    PolyOf st t (f p q) st₂ where
  compressed := hb.compressed.trans ha.compressed
  normal := hn ha.normal hb.normal
  free := ho ha.free fun r hr k hk => (hb.free r hr k hk).compressed ha.compressed
  value ψ v hv := hf ψ v (ha.value ψ ((hb.compressed.models v).mpr hv)).symm (hb.value ψ hv).symm

lemma polyBinary_ok {r : StaticPoly} (h : polyBinary go f a b st = some (.ok r, st')) :
    ∃ p q st₁, go b st = some (.ok q, st₁) ∧ go a st₁ = some (.ok p, st') ∧ r = f p q := by
  obtain ⟨q, st₁, hq, h⟩ := bind_ok.mp h
  obtain ⟨p, st₂, hp, h⟩ := bind_ok.mp h
  obtain ⟨hr, rfl⟩ := Prod.mk.inj (pure_eq.mp h)
  cases hr
  exact ⟨p, q, st₁, hq, hp, rfl⟩

end Nodes

lemma staticPoly_ok {fuel : Nat} {st st' : Store}
    (h : staticPoly fuel t st = some (.ok p, st')) : PolyOf st t p st' := by
  induction fuel generalizing t st st' p with
  | zero => exact (stuck_eq.mp h).elim
  | succ fuel ih =>
    obtain ⟨t', st₁, hrepr, h⟩ := bind_ok.mp h
    have hr := staticRepr_ok hrepr
    refine PolyOf.represents hr ?_
    cases t' with
    | const n =>
      obtain ⟨hp, rfl⟩ := Prod.mk.inj (pure_eq.mp h)
      cases hp
      exact polyOf_const n
    | global name | enum name case => cases (Prod.mk.inj (raise_eq.mp h)).1
    | param id =>
      obtain ⟨hp, rfl⟩ := Prod.mk.inj (pure_eq.mp h)
      cases hp
      exact polyOf_atom (k := toLex (false, id)) (fun h => nomatch h)
    | var id =>
      obtain ⟨hp, rfl⟩ := Prod.mk.inj (pure_eq.mp h)
      cases hp
      exact polyOf_atom (k := toLex (true, id)) (fun _ => hr.resolved id rfl)
    | add a b =>
      obtain ⟨p, q, st₂, hq, hp, rfl⟩ := polyBinary_ok h
      refine (ih hq).binary (ih hp) (fun hp hq => normal_norm ?_)
        (fun hp hq => (hp.append hq).norm) fun ψ v ha hb => ?_
      · intro r hr
        rcases mem_append.mp hr with hr | hr
        · exact hp.sorted r hr
        · exact hq.sorted r hr
      · rw [value_norm, value_append, Val.eval, ha, hb]
    | sub a b =>
      obtain ⟨p, q, st₂, hq, hp, rfl⟩ := polyBinary_ok h
      refine (ih hq).binary (ih hp) (f := fun p q => norm (p ++ neg q))
        (fun hp hq => normal_norm ?_) (fun hp hq => (hp.append hq.neg).norm) fun ψ v ha hb => ?_
      · intro r hr
        rcases mem_append.mp hr with hr | hr
        · exact hp.sorted r hr
        · obtain ⟨r', hr', rfl⟩ := mem_map.mp hr
          exact hq.sorted r' hr'
      · rw [value_norm, value_append, value_neg, Val.eval, ha, hb, sub_eq_add_neg]
    | mul a b =>
      obtain ⟨p, q, st₂, hq, hp, rfl⟩ := polyBinary_ok h
      refine (ih hq).binary (ih hp) (fun _ _ => normal_mul _ _) (fun hp hq => hp.mul hq)
        fun ψ v ha hb => ?_
      rw [value_mul, Val.eval, ha, hb]

lemma keeps_polyNode (hgo : ∀ t, Mut.Keeps Compressed (go t))
    (t : StaticTerm) : Mut.Keeps Compressed (polyNode go t) := by
  have hbin : ∀ f a b, Mut.Keeps Compressed (polyBinary go f a b) := fun f a b =>
    (hgo b).bind fun _ => (hgo a).bind fun _ => keeps_pure _
  cases t with
  | global name | enum name case => exact keeps_raise _
  | add a b | sub a b | mul a b => exact hbin _ a b
  | _ => exact keeps_pure _

lemma keeps_staticPoly (fuel : Nat) (t : StaticTerm) : Mut.Keeps Compressed (staticPoly fuel t) := by
  induction fuel generalizing t with
  | zero => exact keeps_stuck
  | succ fuel ih => exact (keeps_staticRepr fuel t).bind (keeps_polyNode ih)

/-! ## Termination -/

section Termination

lemma staticPoly_le_succ (fuel : Nat) (t : StaticTerm) :
    Mut.Le (staticPoly fuel t) (staticPoly (fuel + 1) t) := by
  induction fuel generalizing t with
  | zero => exact stuck_le _
  | succ fuel ih =>
    refine (staticRepr_le_succ fuel t).bind fun t' => ?_
    cases t' with
    | add a b | sub a b | mul a b =>
      exact (ih b).bind fun _ => (ih a).bind fun _ => Mut.Le.refl _
    | _ => exact Mut.Le.refl _

lemma staticPoly_mono {n m : Nat} (h : n ≤ m) (t : StaticTerm) :
    Mut.Le (staticPoly n t) (staticPoly m t) := by
  induction h with
  | refl => exact Mut.Le.refl _
  | step _ ih => exact ih.trans (staticPoly_le_succ _ t)

def PolyHalts (st : Store) (t : StaticTerm) : Prop := ∃ fuel r, staticPoly fuel t st = some r

lemma polyHalts_of_repr {st st₁ : Store} {n : Nat}
    (hr : staticRepr n t st = some (.ok t', st₁))
    (hsub : ∀ a b, (t' = .add a b ∨ t' = .sub a b ∨ t' = .mul a b) →
      PolyHalts st₁ b ∧ ∀ st₂, Compressed st₁ st₂ → PolyHalts st₂ a) : PolyHalts st t := by
  have hnode : ∃ m r, polyNode (staticPoly m) t' st₁ = some r := by
    have hbin : ∀ f a b, (t' = .add a b ∨ t' = .sub a b ∨ t' = .mul a b) →
        ∃ m r, polyBinary (staticPoly m) f a b st₁ = some r := by
      intro f a b hab
      obtain ⟨⟨nb, ⟨resb, stb⟩, hb⟩, ha⟩ := hsub a b hab
      cases resb with
      | error e => exact ⟨nb, (.error e, stb), bind_error.mpr (Or.inl hb)⟩
      | ok q =>
        obtain ⟨na, ⟨resa, sta⟩, ha⟩ := ha stb (keeps_staticPoly nb b hb)
        have hb' := staticPoly_mono (le_max_left nb na) b hb
        have ha' := staticPoly_mono (le_max_right nb na) a ha
        cases resa with
        | error e =>
          exact ⟨max nb na, (.error e, sta),
            bind_error.mpr (Or.inr ⟨q, stb, hb', bind_error.mpr (Or.inl ha')⟩)⟩
        | ok p =>
          exact ⟨max nb na, (.ok (f p q), sta), bind_ok.mpr ⟨q, stb, hb', bind_ok.mpr ⟨p, sta, ha', rfl⟩⟩⟩
    cases t' with
    | add a b | sub a b | mul a b => exact hbin _ a b (by simp)
    | _ => exact ⟨0, _, rfl⟩
  obtain ⟨m, ⟨res, st'⟩, hm⟩ := hnode
  have hr' := staticRepr_mono (le_max_left n m) t hr
  have hle : Mut.Le (polyNode (staticPoly m) t') (polyNode (staticPoly (max n m)) t') := by
    cases t' with
    | add a b | sub a b | mul a b =>
      exact (staticPoly_mono (le_max_right n m) b).bind fun _ =>
        (staticPoly_mono (le_max_right n m) a).bind fun _ => Mut.Le.refl _
    | _ => exact Mut.Le.refl _
  refine ⟨max n m + 1, (res, st'), ?_⟩
  cases res with
  | ok p => exact bind_ok.mpr ⟨t', st₁, hr', hle hm⟩
  | error e => exact bind_error.mpr (Or.inr ⟨t', st₁, hr', hle hm⟩)

lemma polyHalts_of_vars {st₀ : Store}
    (hvar : ∀ u, Occurs u t → ∀ st, Compressed st₀ st → PolyHalts st (.var u))
    {st : Store} (hst : Compressed st₀ st) : PolyHalts st t := by
  induction t generalizing st with
  | var r => exact hvar r rfl st hst
  | add a b iha ihb | sub a b iha ihb | mul a b iha ihb =>
    refine polyHalts_of_repr (n := 1) rfl fun a' b' h => ?_
    simp only [StaticTerm.add.injEq, StaticTerm.sub.injEq, StaticTerm.mul.injEq, reduceCtorEq,
      false_or, or_false] at h
    obtain ⟨rfl, rfl⟩ := h
    exact ⟨ihb (fun u hu => hvar u (Or.inr hu)) hst,
      fun st₂ h₂ => iha (fun u hu => hvar u (Or.inl hu)) (hst.trans h₂)⟩
  | _ => exact polyHalts_of_repr (n := 1) rfl (by simp)

lemma staticPoly_terminates {st₀ : Store} (h₀ : Acyclic st₀) (t : StaticTerm) : PolyHalts st₀ t := by
  suffices hvar : ∀ u st, Compressed st₀ st → PolyHalts st (.var u) from
    polyHalts_of_vars (fun u _ => hvar u) (.refl st₀)
  intro u
  induction u using h₀.wf.transGen.induction with
  | _ u ih =>
    intro st hst
    obtain ⟨n, t', st₁, hr⟩ := staticRepr_terminates (hst.acyclic h₀) (.var u)
    have hrep := staticRepr_ok hr
    have hst₁ := hst.trans hrep.compressed
    refine polyHalts_of_repr hr fun a b hab => ?_
    -- the variables of an operand lie strictly below `u`
    have hbelow : ∀ w, Occurs w t' → Relation.TransGen (Points st₀) w u := by
      intro w hw
      have hlt : ∀ {x y}, Relation.TransGen (Points st) x y → Relation.TransGen (Points st₀) x y := by
        intro x y hxy
        induction hxy with
        | single h => exact hst.points h
        | tail _ h ih => exact ih.trans (hst.points h)
      rcases hrep.below w hw with hw' | ⟨x, hx, hwx⟩
      · rcases hrep.start with heq | ⟨r, heq, hfind⟩
        · subst heq
          rcases hab with h | h | h <;> cases h
        · cases heq
          have : Points st₁ w u := ⟨t', hfind, hw⟩
          exact hst₁.points this
      · cases hx
        exact hlt hwx
    have hop : ∀ w, Occurs w a ∨ Occurs w b → Occurs w t' := by
      intro w hw
      rcases hab with rfl | rfl | rfl <;> exact hw
    exact ⟨polyHalts_of_vars (fun w hw => ih w (hbelow w (hop w (Or.inr hw)))) hst₁,
      fun st₂ h₂ => polyHalts_of_vars (fun w hw => ih w (hbelow w (hop w (Or.inl hw))))
        (hst₁.trans h₂)⟩

end Termination

/-! ## Terms of a polynomial -/

section OfPoly
variable {R : Type} [CommRing R] (v : Val R)

lemma eval_monomial (m : List Key) : v.eval (monomial m) = (m.map v.atom).prod := by
  cases m with
  | nil => simp [monomial, Val.eval]
  | cons k rest =>
    have hfold : ∀ acc, v.eval (rest.foldl (fun acc k => .mul acc (atomTerm k)) acc) =
        v.eval acc * (rest.map v.atom).prod := by
      induction rest with
      | nil => simp
      | cons k rest ih =>
        intro acc
        rw [foldl_cons, ih, map_cons, prod_cons, ← mul_assoc]
        rfl
    rw [monomial, hfold, map_cons, prod_cons]
    rfl

lemma eval_term (m : List Key) (c : Native) :
    v.eval (term m c) = ((nativeAbs c).toInt : R) * (m.map v.atom).prod := by
  unfold term
  split_ifs with hm hc
  · simp [hm, Val.eval]
  · simp [hc, eval_monomial]
  · rw [Val.eval, eval_monomial]
    rfl

def NegExact (R : Type) [CommRing R] (c : Native) : Prop :=
  (((-c).toInt : Int) : R) = -((c.toInt : Int) : R)

lemma eval_staticOfPoly (h : ∀ q ∈ p, NegExact R q.2) :
    v.eval (staticOfPoly p) = value (fun c : Native => ((c.toInt : Int) : R)) v.atom p := by
  have hsub : ∀ c : Native, NegExact R c → ¬ 0 < c.toInt → ∀ m : List Key,
      -v.eval (term m c) = ((c.toInt : Int) : R) * (m.map v.atom).prod := by
    intro c hneg hc m
    rw [eval_term, nativeAbs]
    split_ifs with h0
    · have : c.toInt = 0 := le_antisymm (not_lt.mp hc) h0
      simp [this]
    · rw [hneg, neg_mul, neg_neg]
  have hadd : ∀ c : Native, 0 < c.toInt → ∀ m : List Key,
      v.eval (term m c) = ((c.toInt : Int) : R) * (m.map v.atom).prod := by
    intro c hc m
    rw [eval_term, nativeAbs, if_pos hc.le]
  have hfold : ∀ (rest : StaticPoly) acc, (∀ q ∈ rest, NegExact R q.2) →
      v.eval (rest.foldl (fun acc q => if 0 < q.2.toInt then .add acc (term q.1 q.2) else
        .sub acc (term q.1 q.2)) acc) =
        v.eval acc + value (fun c : Native => ((c.toInt : Int) : R)) v.atom rest := by
    intro rest
    induction rest with
    | nil => simp
    | cons q rest ih =>
      intro acc hq
      rw [foldl_cons, ih _ fun r hr => hq r (mem_cons_of_mem _ hr), value_cons]
      split_ifs with hc
      · rw [Val.eval, hadd q.2 hc]
        ring
      · rw [Val.eval, ← hsub q.2 (hq q (mem_cons_self ..)) hc]
        ring
  rw [value_filter_add (fun q => decide (0 < q.2.toInt)) p, ← value_append, staticOfPoly]
  have hall : ∀ q ∈ p.filter (fun q => decide (0 < q.2.toInt)) ++
      p.filter (fun q => !decide (0 < q.2.toInt)), NegExact R q.2 := by
    intro q hq
    rcases mem_append.mp hq with hq | hq <;> exact h q (mem_of_mem_filter hq)
  generalize p.filter (fun q => decide (0 < q.2.toInt)) ++
    p.filter (fun q => !decide (0 < q.2.toInt)) = ps at hall
  cases ps with
  | nil => simp [Val.eval]
  | cons q rest =>
    obtain ⟨m, c⟩ := q
    simp only
    rw [hfold rest _ fun r hr => hall r (mem_cons_of_mem _ hr), value_cons]
    split_ifs with hc
    · rw [hadd c hc]
    · rw [← hsub c (hall (m, c) (mem_cons_self ..)) hc]
      simp [Val.eval]

lemma occurs_atomTerm {k : Key} {u : Nat} (h : Occurs u (atomTerm k)) : k = toLex (true, u) := by
  unfold atomTerm at h
  split_ifs at h with h1
  · cases h
    exact congrArg toLex (Prod.ext h1 rfl)
  · exact h.elim

lemma occurs_staticOfPoly {u : Nat} (h : Occurs u (staticOfPoly p)) : ∃ q ∈ p, toLex (true, u) ∈ q.1 := by
  suffices hk : ∃ q ∈ p, ∃ k ∈ q.1, Occurs u (atomTerm k) by
    obtain ⟨q, hq, k, hk, hu⟩ := hk
    exact ⟨q, hq, occurs_atomTerm hu ▸ hk⟩
  have hmono : ∀ m : List Key, Occurs u (monomial m) → ∃ k ∈ m, Occurs u (atomTerm k) := by
    intro m hm
    cases m with
    | nil => exact hm.elim
    | cons k rest =>
      have hfold : ∀ acc, Occurs u (rest.foldl (fun acc k => .mul acc (atomTerm k)) acc) →
          Occurs u acc ∨ ∃ k ∈ rest, Occurs u (atomTerm k) := by
        clear hm
        induction rest with
        | nil => exact fun acc h => Or.inl h
        | cons k' rest ih =>
          intro acc h
          rcases ih _ h with (h | h) | ⟨k, hk, h⟩
          · exact Or.inl h
          · exact Or.inr ⟨k', mem_cons_self .., h⟩
          · exact Or.inr ⟨k, mem_cons_of_mem _ hk, h⟩
      rcases hfold _ hm with h | ⟨k', hk', h⟩
      · exact ⟨k, mem_cons_self .., h⟩
      · exact ⟨k', mem_cons_of_mem _ hk', h⟩
  have hterm : ∀ m c, Occurs u (term m c) → ∃ k ∈ m, Occurs u (atomTerm k) := by
    intro m c ht
    unfold term at ht
    split_ifs at ht
    · exact ht.elim
    · exact hmono m ht
    · exact hmono m (ht.resolve_left id)
  have hfold : ∀ (rest : StaticPoly) acc,
      Occurs u (rest.foldl (fun acc q => if 0 < q.2.toInt then .add acc (term q.1 q.2) else
        .sub acc (term q.1 q.2)) acc) →
      Occurs u acc ∨ ∃ q ∈ rest, ∃ k ∈ q.1, Occurs u (atomTerm k) := by
    intro rest
    induction rest with
    | nil => exact fun acc h => Or.inl h
    | cons q rest ih =>
      intro acc h
      rw [foldl_cons] at h
      rcases ih _ h with h | ⟨r, hr, h⟩
      · split_ifs at h <;> exact h.imp id fun h => ⟨q, mem_cons_self .., hterm q.1 q.2 h⟩
      · exact Or.inr ⟨r, mem_cons_of_mem _ hr, h⟩
  have hmem : ∀ q ∈ p.filter (fun q => decide (0 < q.2.toInt)) ++
      p.filter (fun q => !decide (0 < q.2.toInt)), q ∈ p := by
    intro q hq
    rcases mem_append.mp hq with hq | hq <;> exact mem_of_mem_filter hq
  unfold staticOfPoly at h
  generalize p.filter (fun q => decide (0 < q.2.toInt)) ++
    p.filter (fun q => !decide (0 < q.2.toInt)) = ps at h hmem
  cases ps with
  | nil => exact h.elim
  | cons q rest =>
    obtain ⟨m, c⟩ := q
    rcases hfold rest _ h with h | ⟨r, hr, h⟩
    · refine ⟨(m, c), hmem _ (mem_cons_self ..), hterm m c ?_⟩
      split_ifs at h
      · exact h
      · exact h.resolve_left id
    · exact ⟨r, hmem r (mem_cons_of_mem _ hr), h⟩

end OfPoly
end Takibi.Static
