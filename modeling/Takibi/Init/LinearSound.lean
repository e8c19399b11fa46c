import Takibi.Init.ConstCoverage
import Takibi.Init.Linear

/-! The linear reading is exact at the 64-bit unsigned types: no step it accepts
wraps there. At narrower or signed types its limit lies past the type's. -/

namespace Takibi.Init
open Numeric Takibi.Types Syntax Range Option Lin Bool Nat

/-! ## Exactness where the words are wide enough -/

section Judgements
variable {env : Flow} {st : State} {m : Memory} (h : m.Agrees env st)
include h

lemma nonneg_sound {t : Lin Atom} (ht : nonneg st t = some true) : 0 ≤ t.eval m.atoms := by
  simp only [nonneg, bind_eq_bind, bind_eq_some_iff, pure_def, some.injEq] at ht
  obtain ⟨f, hf, t', ht', hent⟩ := ht
  rw [← eval_normalize h.eqs ht']
  exact entails_sound (normalizeFacts_holds h.eqs h.facts hf) (fun a => (h.word a).1) hent

lemma fitsAbove_sound {t : Lin Atom} (ht : fitsAbove st t = some true) : t.eval m.atoms < 2 ^ 64 := by
  simp only [fitsAbove, bind_eq_bind, bind_eq_some_iff] at ht
  obtain ⟨f, hf, t', ht', d, hd, hrest⟩ := ht
  have hfacts := normalizeFacts_holds h.eqs h.facts hf
  have hsound := fun {u : Lin Atom} => entails_sound hfacts (t := u) (fun a => (h.word a).1)
  rw [← eval_normalize h.eqs ht']
  split_ifs at hrest with hlimit
  · have hle := hsound hlimit
    rw [eval_sub _ hd, eval_const, limit_toInt] at hle
    omega
  · obtain ⟨a, -, ha⟩ := anyM_eq_true hrest
    simp only [bind_eq_some_iff, pure_def, some.injEq] at ha
    obtain ⟨d, hd, hent⟩ := ha
    have hle := hsound hent
    rw [eval_sub _ hd, eval_atom] at hle
    have := (h.word a).2
    omega

lemma prod_sound {k : Native} {y t : Lin Atom} (ht : prod st k y = some t) :
    t.eval m.atoms = k.toInt * y.eval m.atoms ∧ t.eval m.atoms < 2 ^ 64 := by
  simp only [prod, bind_eq_bind, bind_eq_some_iff] at ht
  obtain ⟨u, hu, b, hb, hif⟩ := ht
  split_ifs at hif with hb'
  cases hif
  exact ⟨eval_scale _ hu, fitsAbove_sound h (by rw [hb, hb'])⟩

end Judgements

lemma leafConst_eq {c : Option Native} {l : Lin Atom} (h : leafConst c = some l) :
    ∃ k, c = some k ∧ l = .const k ∧ 0 ≤ k.toInt ∧ k.toInt < 2 ^ 64 := by
  unfold leafConst at h
  split at h
  · rename_i k
    split_ifs at h with hk
    rw [limit_toInt] at hk
    exact ⟨k, rfl, (some.inj h).symm, hk.1, by omega⟩
  · cases h

lemma Lin.eval_of_isEmpty {x : Lin Atom} (hx : x.m.isEmpty = true) (ρ : Atom → Int) :
    x.eval ρ = x.c.toInt := by
  rw [List.isEmpty_iff] at hx
  simp [eval, hx, AssocMap.weigh]

structure Reads (env : Flow) (m : Memory) (l : Lin Atom) (e : Expr) (z : Int) : Prop where
  term : l.eval m.atoms = z
  nonneg : 0 ≤ z
  word : z < 2 ^ 64
  unwrapped : m.eval env id e = some z

section Cases
variable {env : Flow} {st : State} {e : Expr}

lemma lin_cases {l : Lin Atom} (h : lin env st e = some l) :
    (∃ n, e = .intLit n ∧ leafConst (intOfIntlit n) = some l) ∨
    (∃ x id, e = .var x ∧ env.idForExpr x = some id ∧
      (l = .atom (.v id) ∨ l = .atom (.version id (st.vers id)))) ∨
    (∃ x, e = .var x ∧ env.idForExpr x = none ∧ leafConst (find env.consts x) = some l) ∨
    (∃ ty, e = .sizeOf ty ∧ leafConst (env.sizeOf ty) = some l) ∨
    (∃ a b x y, e = .binOp .add a b ∧ lin env st a = some x ∧ lin env st b = some y ∧
      add x y = some l ∧ fitsAbove st l = some true) ∨
    (∃ a b x y, e = .binOp .sub a b ∧ lin env st a = some x ∧ lin env st b = some y ∧
      sub x y = some l ∧ nonneg st l = some true) ∨
    (∃ a b x y, e = .binOp .mul a b ∧ lin env st a = some x ∧ lin env st b = some y ∧
      (x.m.isEmpty = true ∧ prod st x.c y = some l ∨ y.m.isEmpty = true ∧ prod st y.c x = some l)) ∨
    ∃ b, e = .fieldGet b "len" ∧
      ((∃ v, viewOf env st b = some v ∧ v.len = some l) ∨ bindingLen env b = some l) := by
  rw [lin.eq_def] at h
  split at h
  · exact .inl ⟨_, rfl, h⟩
  · split at h
    · rename_i x _ id hid
      refine .inr (.inl ⟨x, id, rfl, hid, ?_⟩)
      split_ifs at h
      · exact .inl (some.inj h).symm
      · exact .inr (some.inj h).symm
    · exact .inr (.inr (.inl ⟨_, rfl, ‹_›, h⟩))
  · exact .inr (.inr (.inr (.inl ⟨_, rfl, h⟩)))
  · simp only [bind_eq_bind, bind_eq_some_iff] at h
    obtain ⟨x, hx, y, hy, t, ht, b, hb, hif⟩ := h
    split_ifs at hif with hb'
    cases hif
    exact .inr (.inr (.inr (.inr (.inl ⟨_, _, x, y, rfl, hx, hy, ht, by rw [hb, hb']⟩))))
  · simp only [bind_eq_bind, bind_eq_some_iff] at h
    obtain ⟨x, hx, y, hy, t, ht, b, hb, hif⟩ := h
    split_ifs at hif with hb'
    cases hif
    exact .inr (.inr (.inr (.inr (.inr (.inl ⟨_, _, x, y, rfl, hx, hy, ht, by rw [hb, hb']⟩)))))
  · simp only [bind_eq_bind, bind_eq_some_iff] at h
    obtain ⟨x, hx, y, hy, hif⟩ := h
    refine .inr (.inr (.inr (.inr (.inr (.inr (.inl ⟨_, _, x, y, rfl, hx, hy, ?_⟩))))))
    split_ifs at hif with hxm hym
    · exact .inl ⟨hxm, hif⟩
    · exact .inr ⟨hym, hif⟩
  · refine .inr (.inr (.inr (.inr (.inr (.inr (.inr ⟨_, rfl, ?_⟩))))))
    split at h
    · exact .inl ⟨_, ‹_›, h⟩
    · exact .inr h
  · cases h

lemma viewOf_cases {v : View} (h : viewOf env st e = some v) :
    (∃ x id, e = .var x ∧ env.idForExpr x = some id ∧ env.aliases id = some v) ∨
    leafView env e = some v ∨
    (∃ b lo hi v₀ x y d, e = .sliceOf b lo hi ∧ viewOf env st b = some v₀ ∧
      lin env st lo = some x ∧ lin env st hi = some y ∧ sub y x = some d ∧ v.len = some d) ∨
    ∃ t inner, e = .cast t inner ∧ viewOf env st inner = some v := by
  rw [viewOf.eq_def] at h
  split at h
  · split at h
    · rename_i x _ v' hv
      obtain ⟨id, hid, hal⟩ := bind_eq_some_iff.mp hv
      exact .inl ⟨x, id, rfl, hid, hal.trans h⟩
    · exact .inr (.inl h)
  · simp only [bind_eq_bind, bind_eq_some_iff, pure_def, some.injEq] at h
    obtain ⟨v₀, hv₀, x, hx, y, hy, off, -, d, hd, rfl⟩ := h
    exact .inr (.inr (.inl ⟨_, _, _, v₀, x, y, d, rfl, hv₀, hx, hy, hd, rfl⟩))
  · refine .inr (.inr (.inr ⟨_, _, rfl, ?_⟩))
    split at h
    · split_ifs at h
      rw [← h]
      assumption
    · split_ifs at h
      rw [← h]
      assumption
    · cases h
  · exact .inr (.inl h)

lemma length_of_place {p : Place} (h : env.place e = some p) (m : Memory) (r : Int → Int) :
    m.length env r e = m.lengthAt e := by
  cases e <;> first | cases h | rw [Memory.length]
  all_goals nofun

lemma leafView_eq {v : View} (h : leafView env e = some v) :
    ∃ p, env.place e = some p ∧ p.inside = false ∧ v.len = env.leafLen p := by
  unfold leafView at h
  split at h
  · rename_i p hp
    split_ifs at h with hcond
    simp only [and_eq_true, not_eq_true'] at hcond
    exact ⟨p, hp, hcond.1, by rw [← some.inj h]⟩
  · cases h

end Cases

section Exact
variable {env : Flow} {st : State} {m : Memory} (h : m.Agrees env st) {r : Int → Int}
  {e : Expr} {l : Lin Atom} {v : View} {z n : Int}
  (hr : ∀ z, 0 ≤ z → z < 2 ^ 64 → r z = z)

structure Spans (env : Flow) (m : Memory) (v : View) (e : Expr) (n : Int) : Prop where
  term : ∀ l, v.len = some l → l.eval m.atoms = n
  nonneg : 0 ≤ n
  word : n < 2 ^ 64
  unwrapped : m.length env id e = some n

include hr in
lemma Reads.leaf {c : Option Native} {n : Native}
    (hl : leafConst c = some l) (hc : c = some n) (hz : r n.toInt = z)
    (hid : m.eval env id e = some n.toInt) : Reads env m l e z := by
  obtain ⟨k, hk, rfl, hlo, hhi⟩ := leafConst_eq hl
  obtain rfl : k = n := some.inj (hk.symm.trans hc)
  rw [hr _ hlo hhi] at hz
  subst hz
  exact ⟨by simp, hlo, hhi, hid⟩

include hr in
lemma Reads.sub {a b : Expr} {x y : Lin Atom} {u w : Int} (ha : Reads env m x a u)
    (hb : Reads env m y b w) (hd : sub x y = some l) (hnn : 0 ≤ l.eval m.atoms)
    (hz : r (u - w) = z) : Reads env m l (.binOp .sub a b) z := by
  have hdiff : l.eval m.atoms = u - w := by rw [eval_sub _ hd, ha.term, hb.term]
  rw [hdiff] at hnn
  have hlt : u - w < 2 ^ 64 := by
    have := ha.word
    have := hb.nonneg
    omega
  rw [hr _ hnn hlt] at hz
  subst hz
  exact ⟨hdiff, hnn, hlt, by simp [Memory.eval, ha.unwrapped, hb.unwrapped]⟩

include h in
lemma lengthAt_spans (hv : leafView env e = some v)
    (hn : m.length env r e = some n) : Spans env m v e n := by
  obtain ⟨p, hp, hin, hlen⟩ := leafView_eq hv
  rw [length_of_place hp] at hn
  refine ⟨fun l hl => h.places e p l n hp hin (hlen ▸ hl) hn, (h.wordLength e n hn).1,
    (h.wordLength e n hn).2, ?_⟩
  rw [length_of_place hp, hn]

include h in
lemma alias_spans {x : String} {id : Nat} (hid : env.idForExpr x = some id)
    (hv : env.aliases id = some v) (hn : m.length env r (.var x) = some n) :
    Spans env m v (.var x) n := by
  have hat : ∀ r, m.length env r (.var x) = m.lengthAt (.var x) := fun r => by
    rw [Memory.length] <;> nofun
  rw [hat] at hn
  exact ⟨fun l hl => h.aliases x id v l n hid hv hl hn, (h.wordLength _ n hn).1,
    (h.wordLength _ n hn).2, by rw [hat, hn]⟩

include h in
lemma bindingLen_reads {b : Expr} (hl : bindingLen env b = some l)
    (hn : m.length env r b = some n) : Reads env m l (.fieldGet b "len") n := by
  unfold bindingLen at hl
  split at hl
  · rename_i x
    have hat : ∀ r, m.length env r (.var x) = m.lengthAt (.var x) := fun r => by
      rw [Memory.length] <;> nofun
    rw [hat] at hn
    split at hl
    · rename_i id hid
      split_ifs at hl
      rw [← some.inj hl]
      exact ⟨by rw [eval_atom, h.lengths x id n hid hn]; rfl, (h.wordLength _ n hn).1,
        (h.wordLength _ n hn).2, by rw [Memory.eval, hat, hn]⟩
    · cases hl
  · cases hl

structure ReadsBelow (env : Flow) (st : State) (m : Memory) (r : Int → Int) (k : Nat) : Prop where
  lin : ∀ e, sizeOf e < k → ∀ l z, lin env st e = some l → m.eval env r e = some z → Reads env m l e z
  view : ∀ e, sizeOf e < k → ∀ v n, viewOf env st e = some v → m.length env r e = some n → Spans env m v e n

include h hr in
lemma ReadsBelow.eval (ih : ReadsBelow env st m r (sizeOf e))
    (hl : Init.lin env st e = some l) (hz : m.eval env r e = some z) :
    Reads env m l e z := by
  obtain ⟨n, rfl, hl⟩ | ⟨x, id, rfl, hid, hl⟩ | ⟨x, rfl, hid, hl⟩ | ⟨ty, rfl, hl⟩ |
    ⟨a, b, x, y, rfl, hx, hy, hadd, hfit⟩ | ⟨a, b, x, y, rfl, hx, hy, hsub, hnn⟩ |
    ⟨a, b, x, y, rfl, hx, hy, hprod⟩ | ⟨b, rfl, hlen⟩ := lin_cases hl
  · obtain ⟨k, hk, -⟩ := leafConst_eq hl
    have hn := intOfIntlit_eq hk
    rw [Memory.eval, hn, some.injEq] at hz
    exact .leaf hr hl hk hz (by rw [Memory.eval, hn]; rfl)
  · simp only [Memory.eval, hid, some.injEq] at hz
    have hval : l.eval m.atoms = m.value id := by
      rcases hl with rfl | rfl
      · rw [eval_atom]; rfl
      · rw [eval_atom]; exact h.current id
    have hw := h.word (.v id)
    subst hz
    exact ⟨hval, hw.1, hw.2, by simp only [Memory.eval, hid]⟩
  · obtain ⟨k, hk, -⟩ := leafConst_eq hl
    obtain ⟨n, hn, hlit⟩ := bind_eq_some_iff.mp hk
    have hnk := intOfIntlit_eq hlit
    simp only [Memory.eval, hid, hn, map_some, hnk, some.injEq] at hz
    exact .leaf hr hl hk hz (by simp [Memory.eval, hid, hn, hnk])
  · obtain ⟨k, hk, -⟩ := leafConst_eq hl
    rw [Memory.eval, hk, map_some, some.injEq] at hz
    exact .leaf hr hl hk hz (by rw [Memory.eval, hk]; rfl)
  · simp only [Memory.eval, bind_eq_bind, bind_eq_some_iff, pure_def, some.injEq] at hz
    obtain ⟨u, hu, w, hw, hz⟩ := hz
    have ha := ih.lin a (by simp; omega) x u hx hu
    have hb := ih.lin b (by simp) y w hy hw
    have hsum : l.eval m.atoms = u + w := by rw [eval_add _ hadd, ha.term, hb.term]
    have hlt := fitsAbove_sound h hfit
    rw [hsum] at hlt
    have hnn := add_nonneg ha.nonneg hb.nonneg
    rw [hr _ hnn hlt] at hz
    subst hz
    exact ⟨hsum, hnn, hlt, by simp [Memory.eval, ha.unwrapped, hb.unwrapped]⟩
  · simp only [Memory.eval, bind_eq_bind, bind_eq_some_iff, pure_def, some.injEq] at hz
    obtain ⟨u, hu, w, hw, hz⟩ := hz
    have ha := ih.lin a (by simp; omega) x u hx hu
    have hb := ih.lin b (by simp) y w hy hw
    exact ha.sub hr hb hsub (nonneg_sound h hnn) hz
  · simp only [Memory.eval, bind_eq_bind, bind_eq_some_iff, pure_def, some.injEq] at hz
    obtain ⟨u, hu, w, hw, hz⟩ := hz
    have ha := ih.lin a (by simp; omega) x u hx hu
    have hb := ih.lin b (by simp) y w hy hw
    have hmul : l.eval m.atoms = u * w ∧ l.eval m.atoms < 2 ^ 64 := by
      rcases hprod with ⟨hxm, hp⟩ | ⟨hym, hp⟩
      · obtain ⟨heq, hlt⟩ := prod_sound h hp
        rw [← eval_of_isEmpty hxm m.atoms, ha.term, hb.term] at heq
        exact ⟨heq, hlt⟩
      · obtain ⟨heq, hlt⟩ := prod_sound h hp
        rw [← eval_of_isEmpty hym m.atoms, ha.term, hb.term, mul_comm] at heq
        exact ⟨heq, hlt⟩
    have hlt := hmul.1 ▸ hmul.2
    have hnn := mul_nonneg ha.nonneg hb.nonneg
    rw [hr _ hnn hlt] at hz
    subst hz
    exact ⟨hmul.1, hnn, hlt, by simp [Memory.eval, ha.unwrapped, hb.unwrapped]⟩
  · rw [Memory.eval] at hz
    rcases hlen with ⟨v, hv, hlen⟩ | hlen
    · have hs := ih.view b (by simp; omega) v z hv hz
      exact ⟨hs.term l hlen, hs.nonneg, hs.word, by rw [Memory.eval, hs.unwrapped]⟩
    · exact bindingLen_reads h hlen hz

include h in
lemma ReadsBelow.length (ih : ReadsBelow env st m r (sizeOf e))
    (hv : viewOf env st e = some v) (hn : m.length env r e = some n) :
    Spans env m v e n := by
  obtain ⟨x, id, rfl, hid, hal⟩ | hleaf | ⟨b, lo, hi, v₀, x, y, d, rfl, hb, hlo, hhi, hd, hlen⟩ |
    ⟨t, inner, rfl, hin⟩ := viewOf_cases hv
  · exact alias_spans h hid hal hn
  · exact lengthAt_spans h hleaf hn
  · simp only [Memory.length, bind_eq_bind, bind_eq_some_iff, pure_def] at hn
    obtain ⟨w, hw, l, hl, u, hu, hif⟩ := hn
    split_ifs at hif with hbounds
    cases hif
    have hs := ih.view b (by simp; omega) v₀ w hb hw
    have hrl := ih.lin lo (by simp; omega) x l hlo hl
    have hru := ih.lin hi (by simp) y u hhi hu
    refine ⟨fun l' hl' => ?_, by omega, by have := hru.word; omega, ?_⟩
    · cases hlen.symm.trans hl'
      rw [eval_sub _ hd, hrl.term, hru.term]
    · simp [Memory.length, hs.unwrapped, hrl.unwrapped, hru.unwrapped, hbounds]
  · rw [Memory.length] at hn
    have hs := ih.view inner (by simp) v n hin hn
    exact ⟨hs.term, hs.nonneg, hs.word, by rw [Memory.length, hs.unwrapped]⟩

include h hr in
lemma readsBelow (k : Nat) : ReadsBelow env st m r k := by
  induction k with
  | zero => exact ⟨fun e he => absurd he (not_lt_zero _), fun e he => absurd he (not_lt_zero _)⟩
  | succ k ih =>
    have hsub : ∀ e : Expr, sizeOf e < k + 1 → ReadsBelow env st m r (sizeOf e) := fun e he =>
      ⟨fun a ha => ih.lin a (by omega), fun a ha => ih.view a (by omega)⟩
    exact ⟨fun e he l z hl hz => (hsub e he).eval h hr hl hz,
      fun e he v n hv hn => (hsub e he).length h hv hn⟩

include h hr in
lemma lin_reads (hl : lin env st e = some l) (hz : m.eval env r e = some z) : Reads env m l e z :=
  (readsBelow h hr (sizeOf e + 1)).lin e (lt_succ_self _) l z hl hz

lemma nonnegConst_eq {o : Option (Lin Atom)} (hl : nonnegConst o = some l) : o = some l := by
  unfold nonnegConst at hl
  split at hl
  · split_ifs at hl
    rw [some.inj hl]
  · cases hl

lemma side_cases (hl : side env st e = some l) : lin env st e = some l ∨
    (∃ b, e = .fieldGet b "len" ∧ bindingLen env b = some l) ∨
    ∃ a b x y, e = .binOp .sub a b ∧ side env st a = some x ∧ side env st b = some y ∧
      sub x y = some l ∧ entails st.facts l = true := by
  rw [side.eq_def] at hl
  split at hl
  · exact .inl (nonnegConst_eq hl)
  · exact .inl (nonnegConst_eq hl)
  · rename_i x
    split at hl
    · rename_i id hid
      left
      split_ifs at hl with himm hver
      · rw [lin]
        simp only [and_eq_true] at himm
        simp only [hid, himm.1, if_true, hl]
      · have hnot : env.immutableVar x id = false := by
          simp only [Flow.versionable, and_eq_true, not_eq_true'] at hver
          exact hver.1.1.1
        rw [lin]
        simp only [hid, hnot, false_eq_true, if_false, hver, if_true, hl]
    · exact .inl (nonnegConst_eq hl)
  · split_ifs at hl with hview
    · exact .inl hl
    · refine .inr (.inl ⟨_, rfl, ?_⟩)
      split at hl
      · split at hl
        · split at hl
          · exact hl
          · cases hl
        · cases hl
      · cases hl
  · simp only [bind_eq_bind, bind_eq_some_iff] at hl
    obtain ⟨x, hx, y, hy, d, hd, hif⟩ := hl
    split_ifs at hif with hent
    cases hif
    exact .inr (.inr ⟨_, _, x, y, rfl, hx, hy, hd, hent⟩)
  · cases hl

include h hr in
lemma side_reads (hl : side env st e = some l)
    (hz : m.eval env r e = some z) : Reads env m l e z := by
  induction hk : sizeOf e using Nat.strong_induction_on generalizing e l z with
  | _ k ih =>
    obtain hlin | ⟨b, rfl, hlen⟩ | ⟨a, b, x, y, rfl, hx, hy, hd, hent⟩ := side_cases hl
    · exact lin_reads h hr hlin hz
    · rw [Memory.eval] at hz
      exact bindingLen_reads h hlen hz
    · simp only [Memory.eval, bind_eq_bind, bind_eq_some_iff, pure_def, some.injEq] at hz
      obtain ⟨u, hu, w, hw, hz⟩ := hz
      have ha := ih (sizeOf a) (by rw [← hk]; simp; omega) hx hu rfl
      have hb := ih (sizeOf b) (by rw [← hk]; simp) hy hw rfl
      exact ha.sub hr hb hd (entails_sound h.facts (fun a => (h.word a).1) hent) hz

end Exact

/-! ## Where the limit is not the width's -/

/-- In every state that the tables, equalities and facts describe, a term read from
an expression of type `t` has the machine's value, and nothing wrapped. -/
def ExactAt (tgt : Target) (t : IntTy) : Prop :=
  ∀ (env : Flow) (st : State) (m : Memory), m.Agrees env st → ∀ e l, lin env st e = some l ∨ side env st e = some l →
    ∀ z, m.eval env (wrap tgt t) e = some z → l.eval m.atoms = z ∧ m.eval env id e = some z

def emptyFlow : Flow where
  idForExpr := fun _ => none
  consts := fun _ => none
  mutableId := fun _ => false
  written := fun _ _ => false
  letMut := fun _ => false
  addrTaken := fun _ => false
  idType := fun _ => none
  sizeOf := fun _ => none
  roots := fun _ => none
  aliases := fun _ => none

def emptyState : State := ⟨[], noFacts, fun _ => 0⟩
def emptyMemory : Memory := ⟨fun _ => 0, fun _ _ => 0, fun _ => 0, fun _ => none⟩

lemma emptyMemory_agrees : emptyMemory.Agrees emptyFlow emptyState where
  current := fun _ => rfl
  word := by rintro (_ | _ | _) <;> simp [Memory.atoms, emptyMemory]
  wordLength := nofun
  lengths := nofun
  aliases := nofun
  places := fun _ _ _ _ _ _ _ => nofun
  eqs := fun e he => nomatch he
  facts := ⟨nofun, nofun⟩

def literalSum (w : Nat) : Expr :=
  .binOp .add (.intLit (BitVec.ofNat 64 (2 ^ w - 1))) (.intLit 1)

lemma lin_literalSum {w : Nat} (hw : w = 8 ∨ w = 16 ∨ w = 32) :
    lin emptyFlow emptyState (literalSum w) = some (.const (BitVec.ofNat 63 (2 ^ w))) := by
  obtain rfl | rfl | rfl := hw
  · decide
  · decide
  · decide

lemma not_exactAt_of_narrow {tgt : Target} {t : IntTy}
    (hw : t.bits tgt = 8 ∨ t.bits tgt = 16 ∨ t.bits tgt = 32) : ¬ ExactAt tgt t := by
  intro hexact
  have hz : emptyMemory.eval emptyFlow (wrap tgt t) (literalSum (t.bits tgt)) = some 0 := by
    cases t <;> cases tgt <;> decide
  have hl := (hexact _ _ _ emptyMemory_agrees _ _ (.inl (lin_literalSum hw)) 0 hz).1
  rw [eval_const] at hl
  revert hl
  obtain hw | hw | hw := hw <;> rw [hw] <;> decide

def pairFlow : Flow :=
  { emptyFlow with
    idForExpr := fun x => if x = "a" then some 0 else if x = "c" then some 1 else none }

def pairState : State := ⟨[], ⟨[⟨0, [(.v 0, -2), (.v 1, 1)]⟩], []⟩, fun _ => 0⟩

def pairMemory : Memory :=
  ⟨fun id => if id = 0 then 2 ^ 62 else 2 ^ 63, fun id _ => if id = 0 then 2 ^ 62 else 2 ^ 63,
    fun _ => 0, fun _ => none⟩

lemma pairMemory_agrees : pairMemory.Agrees pairFlow pairState where
  current := fun _ => rfl
  word := by
    rintro (id | id | ⟨id, k⟩)
    · simp only [Memory.atoms, pairMemory]
      split_ifs <;> decide
    · simp [Memory.atoms, pairMemory]
    · simp only [Memory.atoms, pairMemory]
      split_ifs <;> decide
  wordLength := nofun
  lengths := nofun
  aliases := nofun
  places := fun _ _ _ _ _ _ _ => nofun
  eqs := fun e he => nomatch he
  facts := ⟨by simp [pairState, eval, AssocMap.weigh, Memory.atoms, pairMemory], nofun⟩

def doubled : Expr := .binOp .add (.var "a") (.var "a")

lemma lin_doubled : lin pairFlow pairState doubled = some ⟨0, [(.v 0, 2)]⟩ := by
  decide

lemma not_exactAt_of_signed {tgt : Target} {t : IntTy} (hs : t.signed = true)
    (hw : t.bits tgt = 64) : ¬ ExactAt tgt t := by
  intro hexact
  have hz : pairMemory.eval pairFlow (wrap tgt t) doubled = some (-2 ^ 63) := by
    revert hs hw
    cases t <;> cases tgt <;> decide
  have hl := (hexact _ _ _ pairMemory_agrees _ _ (.inl lin_doubled) _ hz).1
  revert hl
  decide

/-- The reading is exact at the 64-bit unsigned types and at no other. -/
theorem lin_side_exact_iff (tgt : Target) (t : IntTy) :
    ExactAt tgt t ↔ t.signed = false ∧ t.bits tgt = 64 := by
  constructor
  · intro hexact
    have hwidth : t.bits tgt = 8 ∨ t.bits tgt = 16 ∨ t.bits tgt = 32 ∨ t.bits tgt = 64 := by
      cases t <;> cases tgt <;> decide
    have hw : t.bits tgt = 64 := by
      by_contra hne
      refine not_exactAt_of_narrow ?_ hexact
      omega
    refine ⟨?_, hw⟩
    rw [← not_eq_true]
    exact fun hs => not_exactAt_of_signed hs hw hexact
  · rintro ⟨hs, hw⟩ env st m hm e l hl z hz
    have hr : ∀ z, 0 ≤ z → z < 2 ^ 64 → wrap tgt t z = z := fun z hlo hhi => by
      refine Machine.read_ofInt (t.bits_pos tgt) ?_
      simp only [Machine.Holds, Machine.least, Machine.limit, hs, hw, false_eq_true, if_false]
      exact ⟨hlo, hhi⟩
    have hreads : Reads env m l e z := by
      rcases hl with hl | hl
      · exact lin_reads hm hr hl hz
      · exact side_reads hm hr hl hz
    exact ⟨hreads.term, hreads.unwrapped⟩

/-- On a 32-bit target the sum of two words is read past the word it wraps to. -/
theorem lin_wraps_32 : emptyMemory.Agrees emptyFlow emptyState ∧
      lin emptyFlow emptyState (literalSum 32) = some (.const 4294967296) ∧
      (const 4294967296 : Lin Atom).eval emptyMemory.atoms = 4294967296 ∧
      emptyMemory.eval emptyFlow (wrap .bits32 .usize) (literalSum 32) = some 0 :=
  ⟨emptyMemory_agrees, by decide, by decide, by decide⟩

end Takibi.Init
