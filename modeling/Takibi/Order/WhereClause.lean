import Takibi.Order.RuntimeBounds
import Takibi.Range.Sound
import Takibi.Static.Run

/-! `where` clauses between static terms: shown by a path of the order graph, or
by a lower bound of the difference's normal form over the atoms' intervals. -/

namespace Takibi.Order
open Numeric Effect Static SparsePoly Range Mut List Option

abbrev AtomBounds := Key → Option (Native × Native)

inductive WhereError
  | falseHere (fname : String) (a : StaticTerm) (cmp : WhereCmp) (b : StaticTerm)
  | cannotBeShown (fname : String) (a : StaticTerm) (cmp : WhereCmp) (b : StaticTerm)
  deriving DecidableEq

def boundsStaticNode (fuel : Nat) (t : StaticTerm) : M (Option Node) :=
  catching (do return some (.static (← staticPoly fuel t))) fun _ => return none

/-- The least and the greatest product of the atoms, each of which must have an
interval that is not empty and not negative. -/
def productBounds (bounds : AtomBounds) : Native → Native → List Key → Option (Native × Native)
  | lo, hi, [] => some (lo, hi)
  | lo, hi, k :: rest =>
    match bounds k with
    | some (klo, khi) =>
      if 0 ≤ klo.toInt ∧ klo.toInt ≤ khi.toInt then do
        let lo ← checkedMul lo klo
        let hi ← checkedMul hi khi
        productBounds bounds lo hi rest
      else none
    | none => none

def monomialLowerBound (bounds : AtomBounds) (c : Native) (atoms : List Key) : Option Native := do
  let (plo, phi) ← productBounds bounds 1 1 atoms
  checkedMul c (if 0 < c.toInt then plo else phi)

def termLowerBound (bounds : AtomBounds) (q : List Key × Native) : Option Native :=
  match q.1 with
  | [] => some q.2
  | [k] => do
    let (lo, hi) ← bounds k
    checkedMul q.2 (if 0 < q.2.toInt then lo else hi)
  | atoms => monomialLowerBound bounds q.2 atoms

def lowerBound (bounds : AtomBounds) (p : StaticPoly) : Option Native :=
  p.foldl (fun acc q => do checkedAdd (← acc) (← termLowerBound bounds q)) (some 0)

def slack (cmp : WhereCmp) (a b : StaticTerm) : StaticTerm :=
  match cmp with
  | .lt => .sub (.sub b a) (.const 1)
  | .le => .sub b a

def relational (relations : Facts Node) (cmp : WhereCmp) : Option Node → Option Node → Bool
  | some a, some b => proves relations a cmp b
  | _, _ => false

/-- A path of the graph or a lower bound that is not negative discharges the
clause; the rest is refused, with the text for a clause between constants. -/
def verdict (fname : String) (bounds : AtomBounds) (cmp : WhereCmp) (a b : StaticTerm)
    (byPath : Bool) (poly : StaticPoly) : Except WhereError Unit :=
  if byPath then .ok ()
  else
    match lowerBound bounds poly with
    | some l =>
      if 0 ≤ l.toInt then .ok ()
      else if poly.all fun q => q.1.isEmpty then .error (.falseHere fname a cmp b)
      else .error (.cannotBeShown fname a cmp b)
    | none => .error (.cannotBeShown fname a cmp b)

def checkWhereClause (fuel : Nat) (fname : String) (bounds : AtomBounds) (relations : Facts Node)
    (cmp : WhereCmp) (a b : StaticTerm) : M (Except WhereError Unit) := do
  let nb ← boundsStaticNode fuel b
  let na ← boundsStaticNode fuel a
  let poly ← staticPoly fuel (slack cmp a b)
  return verdict fname bounds cmp a b (relational relations cmp na nb) poly

/-! ## Lower bounds -/

/-- The integer a normal form stands for, its coefficients taken as they are. -/
def polyValue (ρ : Key → Int) (p : StaticPoly) : Int := value (fun c : Native => c.toInt) ρ p

def Respects (ρ : Key → Int) (bounds : AtomBounds) : Prop :=
  ∀ k lo hi, bounds k = some (lo, hi) → lo.toInt ≤ ρ k ∧ ρ k ≤ hi.toInt

variable {l : Native} {t : StaticTerm} {p : StaticPoly}

section Lower
variable {bounds : AtomBounds} {ρ : Key → Int} (hρ : Respects ρ bounds)
include hρ

lemma productBounds_sound {atoms : List Key} {lo hi plo phi : Native} {z : Int}
    (hlo : 0 ≤ lo.toInt) (hz : lo.toInt ≤ z ∧ z ≤ hi.toInt)
    (h : productBounds bounds lo hi atoms = some (plo, phi)) :
    plo.toInt ≤ z * (atoms.map ρ).prod ∧ z * (atoms.map ρ).prod ≤ phi.toInt := by
  induction atoms generalizing lo hi z with
  | nil =>
    cases h
    simpa using hz
  | cons k atoms ih =>
    unfold productBounds at h
    cases hk : bounds k with
    | none => simp [hk] at h
    | some b =>
      obtain ⟨klo, khi⟩ := b
      simp only [hk] at h
      split_ifs at h with hpos
      obtain ⟨lo', hlo', h⟩ := bind_eq_some_iff.mp h
      obtain ⟨hi', hhi', h⟩ := bind_eq_some_iff.mp h
      have hmlo := typeInf_checkedMul_toInt hlo'
      have hmhi := typeInf_checkedMul_toInt hhi'
      obtain ⟨hk1, hk2⟩ := hρ k klo khi hk
      have hz' : lo'.toInt ≤ z * ρ k ∧ z * ρ k ≤ hi'.toInt := by
        rw [hmlo, hmhi]
        constructor
        · exact mul_le_mul hz.1 hk1 hpos.1 (hlo.trans hz.1)
        · exact mul_le_mul hz.2 hk2 (hpos.1.trans hk1) ((hlo.trans hz.1).trans hz.2)
      have hlo0 : 0 ≤ lo'.toInt := hmlo ▸ mul_nonneg hlo hpos.1
      have hrest := ih hlo0 hz' h
      rwa [map_cons, prod_cons, ← mul_assoc]

omit hρ in
lemma pick_end_le {c lo hi : Native} {z : Int} (hz : lo.toInt ≤ z ∧ z ≤ hi.toInt)
    (h : checkedMul c (if 0 < c.toInt then lo else hi) = some l) : l.toInt ≤ c.toInt * z := by
  rw [typeInf_checkedMul_toInt h]
  split_ifs with hc
  · exact mul_le_mul_of_nonneg_left hz.1 hc.le
  · exact mul_le_mul_of_nonpos_left hz.2 (not_lt.mp hc)

lemma termLowerBound_sound {q : List Key × Native}
    (h : termLowerBound bounds q = some l) : l.toInt ≤ q.2.toInt * (q.1.map ρ).prod := by
  obtain ⟨atoms, c⟩ := q
  unfold termLowerBound at h
  split at h
  next hm =>
    simp only at hm
    subst hm
    simp [← some.inj h]
  next k hm =>
    simp only at hm
    subst hm
    obtain ⟨⟨lo, hi⟩, hk, h⟩ := bind_eq_some_iff.mp h
    simpa using pick_end_le (hρ k lo hi hk) h
  next =>
    obtain ⟨⟨plo, phi⟩, hp, h⟩ := bind_eq_some_iff.mp h
    have hone : (1 : Native).toInt = 1 := toInt_one
    have hz := productBounds_sound hρ (z := 1) (by rw [hone]; decide) ⟨hone.le, hone.ge⟩ hp
    rw [one_mul] at hz
    exact pick_end_le hz h

lemma lowerBound_sound (h : lowerBound bounds p = some l) : l.toInt ≤ polyValue ρ p := by
  have hfold : ∀ (p : StaticPoly) (acc : Option Native) (l : Native),
      p.foldl (fun acc q => do checkedAdd (← acc) (← termLowerBound bounds q)) acc = some l →
        ∃ s, acc = some s ∧ l.toInt ≤ s.toInt + polyValue ρ p := by
    intro p
    induction p with
    | nil => exact fun acc l h => ⟨l, h, by simp [polyValue]⟩
    | cons q p ih =>
      intro acc l h
      rw [foldl_cons] at h
      obtain ⟨s', hs', hle⟩ := ih _ _ h
      obtain ⟨s, hs, hs'⟩ := bind_eq_some_iff.mp hs'
      obtain ⟨t, ht, hs'⟩ := bind_eq_some_iff.mp hs'
      have hsum := typeInf_checkedAdd_toInt hs'
      have hterm := termLowerBound_sound hρ ht
      refine ⟨s, hs, ?_⟩
      rw [polyValue, value_cons]
      unfold polyValue at hle
      omega
  obtain ⟨s, hs, hle⟩ := hfold p (some 0) l h
  cases hs
  simpa using hle

end Lower

/-! ## Soundness -/

lemma PolyOf.weaken {st st₁ st₂ : Store}
    (h : Compressed st st₁) (hp : PolyOf st₁ t p st₂) : PolyOf st t p st₂ where
  compressed := h.trans hp.compressed
  normal := hp.normal
  free := hp.free
  value ψ v hv := hp.value ψ ((h.models v).mpr hv)

/-- The coefficients of the integer polynomial of the term are native integers. -/
def Fits (st : Store) (t : StaticTerm) : Prop :=
  ∀ g, Generic st g → ∀ m, -2 ^ 62 ≤ MvPolynomial.coeff m (g.eval t) ∧
    MvPolynomial.coeff m (g.eval t) < 2 ^ 62

lemma Fits.polyValue_eq {st st₁ : Store} {v : Val Int} (h : Fits st t) (hst : Acyclic st)
    (hp : PolyOf st t p st₁) (hv : v.Models st) : polyValue v.atom p = v.eval t := by
  obtain ⟨g, hm, ha⟩ := hst.exists_models symVal
  refine value_eq_eval hst ⟨hm, ha⟩ (fun m => ?_) hp hv
  have := h g ⟨hm, ha⟩ m
  constructor <;> omega

def Extends (w : Node → Int) (v : Val Int) : Prop := ∀ p, w (.static p) = polyValue v.atom p

variable {fname : String}

section Check
variable {st st' : Store} {fuel : Nat} {a b : StaticTerm} {cmp : WhereCmp} {v : Val Int}

lemma boundsStaticNode_ok {node : Option Node}
    (h : boundsStaticNode fuel t st = some (.ok node, st')) :
    Compressed st st' ∧ ∀ n, node = some n → ∃ p, n = .static p ∧ PolyOf st t p st' := by
  unfold boundsStaticNode at h
  rcases catching_cases.mp h with ⟨n, hn, hok⟩ | ⟨e, st₁, hraise, hret⟩
  · cases hn
    obtain ⟨p, st₂, hp, hok⟩ := bind_ok.mp hok
    obtain ⟨hn, rfl⟩ := Prod.mk.inj (pure_eq.mp hok)
    cases hn
    have hpoly := staticPoly_ok hp
    exact ⟨hpoly.compressed, fun n hn => ⟨p, (some.inj hn).symm, hpoly⟩⟩
  · obtain ⟨hn, rfl⟩ := Prod.mk.inj (pure_eq.mp hret)
    cases hn
    have hkeep : Mut.Keeps Compressed (do return some (Node.static (← staticPoly fuel t)) :
        M (Option Node)) := (keeps_staticPoly fuel t).bind fun _ => keeps_pure _
    exact ⟨hkeep hraise, nofun⟩

lemma slack_eval (cmp : WhereCmp) (a b : StaticTerm) (v : Val Int) :
    0 ≤ v.eval (slack cmp a b) ↔ cmp.Holds (v.eval a) (v.eval b) := by
  have hone : (1 : Native).toInt = 1 := toInt_one
  cases cmp with
  | lt =>
    simp only [slack, Val.eval, WhereCmp.Holds, hone, Int.cast_id]
    omega
  | le =>
    simp only [slack, Val.eval, WhereCmp.Holds]
    omega

variable {relations : Facts Node}

lemma relational_eq_true {na nb : Option Node} (h : relational relations cmp na nb = true) :
    ∃ x y, na = some x ∧ nb = some y ∧ proves relations x cmp y = true := by
  cases na with
  | none => simp [relational] at h
  | some x =>
    cases nb with
    | none => simp [relational] at h
    | some y => exact ⟨x, y, rfl, rfl, h⟩

variable {bounds : AtomBounds}

lemma verdict_ok {byPath : Bool} {poly : StaticPoly}
    (h : verdict fname bounds cmp a b byPath poly = .ok ()) :
    byPath = true ∨ ∃ l, lowerBound bounds poly = some l ∧ 0 ≤ l.toInt := by
  cases byPath with
  | true => exact Or.inl rfl
  | false =>
    right
    cases hl : lowerBound bounds poly with
    | none => simp [verdict, hl] at h
    | some l =>
      refine ⟨l, rfl, ?_⟩
      by_contra hneg
      simp only [verdict, hl, hneg, Bool.false_eq_true, if_false] at h
      split at h <;> simp at h

lemma verdict_of_lowerBound {byPath : Bool} {poly : StaticPoly} (hl : lowerBound bounds poly = some l)
    (hpos : 0 ≤ l.toInt) : verdict fname bounds cmp a b byPath poly = .ok () := by
  cases byPath <;> simp [verdict, hl, hpos]

lemma checkWhereClause_ok
    (h : checkWhereClause fuel fname bounds relations cmp a b st = some (.ok (.ok ()), st')) :
    (∃ pa pb st₁ st₂, PolyOf st b pb st₁ ∧ PolyOf st a pa st₂ ∧
      proves relations (.static pa) cmp (.static pb) = true) ∨
    ∃ p l, PolyOf st (slack cmp a b) p st' ∧ lowerBound bounds p = some l ∧ 0 ≤ l.toInt := by
  obtain ⟨nb, st₁, hb, h⟩ := bind_ok.mp h
  obtain ⟨na, st₂, ha, h⟩ := bind_ok.mp h
  obtain ⟨p, st₃, hp, h⟩ := bind_ok.mp h
  obtain ⟨hcb, hnb⟩ := boundsStaticNode_ok hb
  obtain ⟨hca, hna⟩ := boundsStaticNode_ok ha
  obtain ⟨hres, rfl⟩ := Prod.mk.inj (pure_eq.mp h)
  rcases verdict_ok (Except.ok.inj hres).symm with hpath | hbound
  · left
    obtain ⟨x, y, rfl, rfl, hproves⟩ := relational_eq_true hpath
    obtain ⟨pa, rfl, hpa⟩ := hna x rfl
    obtain ⟨pb, rfl, hpb⟩ := hnb y rfl
    exact ⟨pa, pb, st₁, st₂, hpb, PolyOf.weaken hcb hpa, hproves⟩
  · right
    obtain ⟨l, hl, hpos⟩ := hbound
    exact ⟨p, l, PolyOf.weaken (hcb.trans hca) (staticPoly_ok hp), hl, hpos⟩

lemma checkWhereClause_eq {pa pb : StaticPoly} {st₁ st₂ : Store}
    (hb : staticPoly fuel b st = some (.ok pb, st₁))
    (ha : staticPoly fuel a st₁ = some (.ok pa, st₂))
    (hp : staticPoly fuel (slack cmp a b) st₂ = some (.ok p, st')) :
    checkWhereClause fuel fname bounds relations cmp a b st = some (.ok (verdict fname bounds cmp a b
      (proves relations (.static pa) cmp (.static pb)) p), st') := by
  have hnode : ∀ {t q} {st st' : Store}, staticPoly fuel t st = some (.ok q, st') →
      boundsStaticNode fuel t st = some (.ok (some (.static q)), st') := fun h =>
    catching_cases.mpr (Or.inl ⟨_, rfl, bind_ok.mpr ⟨_, _, h, rfl⟩⟩)
  exact bind_ok.mpr ⟨_, _, hnode hb, bind_ok.mpr ⟨_, _, hnode ha, bind_ok.mpr ⟨p, st', hp, rfl⟩⟩⟩

/-- An accepted clause holds, for all values of the atoms in their intervals that
satisfy the order facts, where the coefficients of the terms and of their
difference are in range. -/
theorem checkWhereClause_sound {fname : String} {bounds : AtomBounds} {relations : Facts Node}
    (hst : Acyclic st) (ha : Fits st a) (hb : Fits st b) (hd : Fits st (slack cmp a b))
    (h : checkWhereClause fuel fname bounds relations cmp a b st = some (.ok (.ok ()), st'))
    (hv : v.Models st) (hbounds : Respects v.atom bounds) {w : Node → Int} (hw : Extends w v)
    (hrel : relations.Holds w) : cmp.Holds (v.eval a) (v.eval b) := by
  rcases checkWhereClause_ok h with ⟨pa, pb, st₁, st₂, hpb, hpa, hproves⟩ | ⟨p, l, hp, hl, hpos⟩
  · have hea : polyValue v.atom pa = v.eval a := ha.polyValue_eq hst hpa hv
    have heb : polyValue v.atom pb = v.eval b := hb.polyValue_eq hst hpb hv
    have hholds := hrel.proves hproves
    rwa [hw pa, hw pb, hea, heb] at hholds
  · have hed : polyValue v.atom p = v.eval (slack cmp a b) := hd.polyValue_eq hst hp hv
    have hle := lowerBound_sound hbounds hl
    rw [hed] at hle
    exact (slack_eval cmp a b v).mp (hpos.trans hle)

end Check

def staticValue (v : Val Int) : Node → Int
  | .static p => polyValue v.atom p
  | .local .. => 0

def paramNode (id : Nat) : Node := .static [([toLex (false, id)], 1)]

lemma staticValue_paramNode (v : Val Int) (id : Nat) : staticValue v (paramNode id) = v.param id := by
  simp [staticValue, paramNode, polyValue, value, Val.atom, atomTerm, Val.eval]

/-- `n < m` from the order facts `n < k` and `k ≤ m`. -/
theorem checkWhereClause_sound_chain :
    let relations := add (paramNode 0) .lt (paramNode 2) (add (paramNode 2) .le (paramNode 1) [])
    (∃ st', checkWhereClause 6 "f" (fun _ => none) relations .lt (.param 0) (.param 1) [] =
        some (.ok (.ok ()), st')) ∧
      ∀ v : Val Int, v.Models [] → v.param 0 < v.param 2 → v.param 2 ≤ v.param 1 →
        v.param 0 < v.param 1 := by
  intro relations
  have hpath : proves relations (paramNode 0) .lt (paramNode 1) = true :=
    proves_lt_iff.mpr ⟨paramNode 0, paramNode 2, .refl, by simp [relations, add],
      .single ⟨false, by simp [relations, add]⟩⟩
  have hrun : checkWhereClause 6 "f" (fun _ => none) relations .lt (.param 0) (.param 1) [] =
      some (.ok (.ok ()), []) := by
    rw [checkWhereClause_eq (by rfl) (by rfl) (by rfl)]
    rw [paramNode, paramNode] at hpath
    rw [hpath]
    rfl
  have hparam : ∀ id, Fits [] (.param id) := by
    intro id g hg m
    simp only [Val.eval, hg.agree.param, symVal, MvPolynomial.coeff_X]
    split_ifs <;> norm_num
  have hslack : Fits [] (slack .lt (.param 0) (.param 1)) := by
    intro g hg m
    simp only [slack, Val.eval, hg.agree.param, symVal, MvPolynomial.coeff_sub, MvPolynomial.coeff_X,
      toInt_one, Int.cast_one, MvPolynomial.coeff_one]
    split_ifs <;> norm_num
  refine ⟨⟨[], hrun⟩, fun v hv hlt hle => ?_⟩
  have hrel : relations.Holds (staticValue v) := by
    refine .add (.add (forall_mem_nil _) ?_) ?_
    all_goals rw [staticValue_paramNode, staticValue_paramNode]
    · exact hle
    · exact hlt
  have hbounds : Respects v.atom fun _ => none := fun k lo hi h => by cases h
  exact checkWhereClause_sound acyclic_nil (hparam 0) (hparam 1) hslack hrun hv hbounds (fun _ => rfl) hrel

/-- `2^61 * 4 ≤ 0` is accepted: the coefficient wraps to zero, in the node of the
term and in the difference. -/
theorem checkWhereClause_wraps : let a : StaticTerm := .mul (.const 2305843009213693952) (.const 4)
    checkWhereClause 6 "f" (fun _ => none) [] .le a (.const 0) [] = some (.ok (.ok ()), []) ∧
      ∃ (v : Val Int) (w : Node → Int), v.Models [] ∧ Respects v.atom (fun _ => none) ∧
        Extends w v ∧ Facts.Holds [] w ∧ ¬ WhereCmp.le.Holds (v.eval a) (v.eval (.const 0)) := by
  intro a
  let v : Val Int := ⟨fun _ => 0, fun _ => 0, fun _ _ => 0, fun _ => 0⟩
  have hrun : checkWhereClause 6 "f" (fun _ => none) [] .le a (.const 0) [] = some (.ok (.ok ()), []) := by
    rw [checkWhereClause_eq (by rfl) (by rfl) (by rfl), verdict_of_lowerBound (l := 0) (by rfl) (by decide)]
  refine ⟨hrun, v, staticValue v, ?_, ?_, fun p => rfl, ?_, ?_⟩
  · intro r t ht
    simp [AssocMap.find?] at ht
  · intro k lo hi hk
    simp at hk
  · intro e he
    simp at he
  · decide

end Takibi.Order
