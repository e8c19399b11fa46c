import Takibi.Numeric.Fallible
import Takibi.Range.ExprFacts

/-! When the facts of an expression are true. They are where the outer type a cast
hands down gives every operand the value it has at its own type. -/

namespace Takibi.Range
open Numeric Takibi.Types Syntax ValueFacts Machine Option BitVec
variable {tgt : Target} {tbl : ConstTable} {decl : String → Option IntTy}

/-! ## The machine's values -/

lemma wrap_holds (t : IntTy) (z : Int) : t.Holds tgt (wrap tgt t z) :=
  holds_read _ _

variable {t : IntTy} {z x : Int}

lemma wrap_of_holds (h : t.Holds tgt z) : wrap tgt t z = z :=
  read_ofInt (t.bits_pos tgt) h

lemma arith_holds {op : BinOp} {y z : Int} (h : arith tgt t op x y = some z) : t.Holds tgt z := by
  unfold arith at h
  split at h
  case h_4 =>
    split_ifs at h
    exact some.inj h ▸ wrap_holds _ _
  case h_5 => cases h
  all_goals exact some.inj h ▸ wrap_holds _ _

variable {e : Expr} {ρ : Env}

lemma Eval.holds (hρ : ∀ name t z, ρ name = some (t, z) → t.Holds tgt z)
    (h : Eval tgt tbl decl ρ e t z) : t.Holds tgt z := by
  cases h with
  | bound hb => exact hρ _ _ _ hb
  | i32Min => cases tgt <;> decide
  | arith _ _ h => exact arith_holds h
  | other _ hz => exact hz
  | _ => exact wrap_holds _ _

lemma read_setWidth (t : IntTy) (n : BitVec 64) :
    read t.signed (n.setWidth (t.bits tgt)) = wrap tgt t n.toInt := by
  rw [wrap, ← setWidth_ofInt (bits_le tgt t), ofInt_toInt]

lemma Eval.eq_constEval (hconst : ∀ name n, tbl name = some n → ρ name = none)
    {w : BitVec (t.bits tgt)} (hw : constEval tgt tbl t e = some w)
    (h : Eval tgt tbl decl ρ e t z) : z = read t.signed w := by
  induction e using constEval.induct generalizing z w with
  | case1 =>
    cases h with
    | i32Min =>
      rw [constEval] at hw
      rw [← some.inj hw]
      cases tgt <;> decide
    | other ho _ => cases ho
  | case2 n =>
    cases h with
    | lit n t =>
      rw [constEval] at hw
      rw [← some.inj hw, read_setWidth]
    | other ho _ => cases ho
  | case3 name =>
    rw [constEval] at hw
    obtain ⟨n, hn, hw⟩ := map_eq_some_iff.mp hw
    cases h with
    | const hρ htbl _ =>
      rw [hn] at htbl
      rw [← hw, read_setWidth, some.inj htbl]
    | bound hb =>
      rw [hconst name n hn] at hb
      cases hb
    | other ho _ => cases ho
  | case4 a b iha ihb =>
    simp only [constEval, bind_eq_bind, bind_eq_some_iff] at hw
    obtain ⟨wa, hwa, wb, hwb, hw⟩ := hw
    cases h with
    | arith ha hb hz =>
      rw [← some.inj hz, ← some.inj hw, iha hwa ha, ihb hwb hb, wrap, ofInt_add, ofInt_read, ofInt_read]
    | other ho _ => cases ho
  | case5 a b iha ihb =>
    simp only [constEval, bind_eq_bind, bind_eq_some_iff] at hw
    obtain ⟨wa, hwa, wb, hwb, hw⟩ := hw
    cases h with
    | arith ha hb hz =>
      rw [← some.inj hz, ← some.inj hw, iha hwa ha, ihb hwb hb, wrap, ofInt_sub]
    | other ho _ => cases ho
  | case6 a b iha ihb =>
    simp only [constEval, bind_eq_bind, bind_eq_some_iff] at hw
    obtain ⟨wa, hwa, wb, hwb, hw⟩ := hw
    cases h with
    | arith ha hb hz =>
      rw [← some.inj hz, ← some.inj hw, iha hwa ha, ihb hwb hb, wrap, ofInt_mul, ofInt_read, ofInt_read]
    | other ho _ => cases ho
  | case7 a b iha ihb =>
    simp only [constEval, bind_eq_bind, bind_eq_some_iff] at hw
    obtain ⟨wa, hwa, wb, hwb, hw⟩ := hw
    split_ifs at hw
    cases h with
    | arith ha hb hz =>
      simp only [Range.arith] at hz
      split_ifs at hz
      rw [← some.inj hz, ← some.inj hw, iha hwa ha, ihb hwb hb, wrap, ofInt_tdiv]
    | other ho _ => cases ho
  | case8 e h1 h2 h3 h4 h5 h6 h7 =>
    rw [constEval] at hw
    · cases hw
    all_goals assumption

/-! ## Exact facts -/

@[simp] lemma isSigned_factsBase (t : IntTy) : (factsBase tgt t).isSigned = t.signed := by
  cases t <;> rfl

@[simp] lemma bits_factsBase (t : IntTy) : (factsBase tgt t).bits = t.bits tgt := rfl

lemma holds_factsBase : (factsBase tgt t).Holds z ↔ t.Holds tgt z := by
  rw [Base.Holds, isSigned_factsBase, bits_factsBase]

lemma normal_mathematical (base : Base) (v : BitVec 64) : (mathematical base v).Normal := by
  unfold mathematical
  split
  · exact normal_ofSignedInt64 v
  · exact normal_positive v

lemma castInteger_factsBase (t : IntTy) (v : Integer) :
    (castInteger (factsBase tgt t) v).toInt = wrap tgt t v.toInt := by
  rw [(castInteger_spec _ _).2, isSigned_factsBase, bits_factsBase]
  rfl

lemma wrap_mathematical (t : IntTy) (base : Base) (n : BitVec 64) :
    wrap tgt t (mathematical base n).toInt = wrap tgt t n.toInt := by
  unfold wrap mathematical
  split
  · rw [toInt_ofSignedInt64]
  · rw [ofUnsignedInt64, toInt_positive, ← setWidth_ofInt (bits_le tgt t),
      ← setWidth_ofInt (bits_le tgt t) n.toInt, ofInt_toInt, ofInt_natCast,
      ofNat_toNat, setWidth_eq]

lemma wrap_eq_mathematical {base : Base} {n : BitVec 64}
    (h : t.Holds tgt (mathematical base n).toInt) :
    wrap tgt t n.toInt = (mathematical base n).toInt := by
  rw [← wrap_mathematical t base n, wrap_of_holds h]

lemma factsLimit (tgt : Target) (t : IntTy) : let limit := productLimitOfBaseBits t.signed (t.bits tgt)
    limit.toInt ≤ (whole tgt t).hi ∧ (whole tgt t).lo ≤ (if t.signed then -limit else 0).toInt := by
  cases t <;> cases tgt <;> decide

variable {k : Native}

section
variable (hk : foldWithinFactsBase tbl (factsBase tgt t) e = some k)
include hk

lemma fold_spec : (t.signed = false → 0 ≤ k.toInt) ∧
      ∃ w, constEval tgt tbl t e = some w ∧ read t.signed w = k.toInt := by
  unfold foldWithinFactsBase at hk
  simp only [isSigned_factsBase, bits_factsBase] at hk
  obtain ⟨hhi, hlo⟩ := factsLimit tgt t
  have hin : ∀ z, _ ≤ z → z < _ → t.Holds tgt z := fun z hz1 hz2 =>
    ⟨hlo.trans hz1, hz2.trans_le hhi⟩
  obtain ⟨⟨hklo, -⟩, hw⟩ := constEval_of_foldedValueWithin hin hk
  refine ⟨fun hs => ?_, hw⟩
  rw [hs] at hklo
  exact hklo

lemma mathematical_fold : (mathematical (factsBase tgt t) (k.signExtend 64)).toInt = k.toInt := by
  have hext : (k.signExtend 64).toInt = k.toInt := toInt_signExtend_of_le (by decide)
  unfold mathematical
  split
  · rw [toInt_ofSignedInt64, hext]
  · rename_i hs
    have hsig : t.signed = false := by
      cases hts : t.signed with
      | false => rfl
      | true => simp [factsBase, hts] at hs
    have hk0 := (fold_spec hk).1 hsig
    rw [ofUnsignedInt64, toInt_positive, ← hext, toInt_eq_toNat_of_msb]
    rw [← hext] at hk0
    by_contra hm
    have := toInt_neg_iff.mpr (msb_eq_true_iff_two_mul_ge.mp (by simpa using hm))
    omega

lemma Eval.eq_fold (hconst : ∀ name n, tbl name = some n → ρ name = none) (h : Eval tgt tbl decl ρ e t z) :
    z = k.toInt := by
  obtain ⟨-, w, hw, hread⟩ := fold_spec hk
  exact (Eval.eq_constEval hconst hw h).trans hread

end

/-- What the facts taken at `t` say of a value `z`, which need not be of type `t`. -/
structure Tells (tgt : Target) (t : IntTy) (z : Int) (f : Facts) : Prop where
  normal : f.Normal
  exact : ∀ k ∈ f.exact, k.toInt = z
  has : t.Holds tgt z → f.Has z

variable {s : IntTy}

lemma tells_unknown : Tells tgt t z (unknown (factsBase tgt t)) where
  normal := unknown_normal _
  exact := nofun
  has hz := unknown_has (holds_factsBase.mpr hz)

variable {f : Facts} {r : Option Facts}

lemma tells_exact {base : Base} {v : Integer} (hv : v.toInt = z) (hf : IsExact base v f) :
    Tells tgt t z f where
  normal := hf.normal
  exact k hk := by
    rw [hf.exact] at hk
    cases hk
    exact hv
  has _ := hv ▸ hf.has

lemma tells_orUnknown {v : Integer} (hn : v.Normal) (hv : t.Holds tgt v.toInt → v.toInt = z) :
    Tells tgt t z (orUnknown (factsBase tgt t) (exact (factsBase tgt t) v)) := by
  cases hx : exact (factsBase tgt t) v with
  | error e => exact tells_unknown
  | ok f =>
    have hf := exact_ok hn hx
    exact tells_exact (hv (holds_factsBase.mp hf.holds)) hf

/-! ## Facts at the outer type -/

/-- An expression whose facts are a fold: no literal, product, cast or local. -/
def Folded (ρ : Env) : Expr → Prop
  | .intLit _ | .binOp .mul _ _ | .cast _ _ => False
  | .var name => ρ name = none
  | _ => True

/-- An evaluation of an expression of type `s` in which every part that something is
known of, taken at `t`, has the value that it has at its own type: a cast inside
gives what a cast of its operand to `t` gives, a product does not wrap, a constant
of another type folds there too. `ok` says the same of the locals it reads. -/
inductive Straight (tgt : Target) (tbl : ConstTable) (decl : String → Option IntTy)
    (var : String → VarFacts) (ok : String → Prop) (ρ : Env) (t : IntTy) :
    Expr → IntTy → Int → Prop
  | unknown {e : Expr} {s : IntTy} {z : Int} : Eval tgt tbl decl ρ e s z →
      (∀ f, plainFacts tbl var (factsBase tgt t) e = .ok (some f) →
        f = ValueFacts.unknown (factsBase tgt t)) →
      Straight tgt tbl decl var ok ρ t e s z
  | lit {n : BitVec 64} {s : IntTy} : wrap tgt s n.toInt = wrap tgt t n.toInt →
      Straight tgt tbl decl var ok ρ t (.intLit n) s (wrap tgt s n.toInt)
  | bound {name : String} {s : IntTy} {z : Int} : ρ name = some (s, z) → ok name →
      Straight tgt tbl decl var ok ρ t (.var name) s z
  | fold {e : Expr} {s : IntTy} {z : Int} : Folded ρ e → Eval tgt tbl decl ρ e s z →
      s = t ∨ (foldWithinFactsBase tbl (factsBase tgt s) e).isSome →
      Straight tgt tbl decl var ok ρ t e s z
  | mul {a b : Expr} {s : IntTy} {x y : Int} : Straight tgt tbl decl var ok ρ t a s x →
      Straight tgt tbl decl var ok ρ t b s y → s.Holds tgt (x * y) →
      Straight tgt tbl decl var ok ρ t (.binOp .mul a b) s (x * y)
  | castLit {ty : Ty} {n : BitVec 64} {s : IntTy} : castBase ty = some s → Passes ty (wrap tgt s n.toInt) →
      wrap tgt s n.toInt = wrap tgt t n.toInt →
      Straight tgt tbl decl var ok ρ t (.cast ty (.intLit n)) s (wrap tgt s n.toInt)
  | cast {ty : Ty} {e : Expr} {s' s : IntTy} {x : Int} : (∀ n, e ≠ .intLit n) → castBase ty = some s →
      Straight tgt tbl decl var ok ρ t e s' x → Passes ty (wrap tgt s x) →
      wrap tgt s x = wrap tgt t x → Straight tgt tbl decl var ok ρ t (.cast ty e) s (wrap tgt s x)

/-- What is known of the locals is true of their values; of a recorded initializer
where `ok` is asked for. -/
structure VarsTell (tgt : Target) (var : String → VarFacts) (ok : String → Prop) (ρ : Env) : Prop where
  bound : ∀ name t z, ρ name = some (t, z) → t.Holds tgt z ∧
    ∃ source excluded, var name = .bound source excluded ∧
      (∀ k ∈ excluded, k.Normal ∧ z ≠ k.toInt) ∧
      (ok name → ∀ f, source = some (.ok (some f)) → Tells tgt t z f)
  free : ∀ name, ρ name = none → var name = .constant

lemma foldedValue_of_within {lo hi : Native} (h : foldedValueWithin tbl lo hi e = some k) :
    foldedValue tbl e = some k := by
  induction e using foldedValueWithin.induct generalizing k with
  | case1 op a b f hf iha ihb =>
    simp only [foldedValueWithin, hf, bind_eq_bind, bind_eq_some_iff] at h
    obtain ⟨x, hx, y, hy, r, hr, hk⟩ := h
    obtain ⟨rfl, -⟩ := inside_eq hk
    simp [foldedValue, hf, iha hx, ihb hy, hr]
  | case2 op a b hf => simp [foldedValueWithin, hf] at h
  | case3 e hop =>
    rw [foldedValueWithin] at h
    · obtain ⟨v, hv, hk⟩ := bind_eq_some_iff.mp h
      obtain ⟨rfl, -⟩ := inside_eq hk
      exact hv
    · exact hop

lemma tells_foldFacts (hconst : ∀ name n, tbl name = some n → ρ name = none)
    (h : Eval tgt tbl decl ρ e s z)
    (hst : s = t ∨ (foldWithinFactsBase tbl (factsBase tgt s) e).isSome) :
    Tells tgt t z (foldFacts tbl (factsBase tgt t) e) := by
  unfold foldFacts
  cases hk : foldWithinFactsBase tbl (factsBase tgt t) e with
  | none => exact tells_unknown
  | some k =>
    refine tells_orUnknown (normal_mathematical _ _) fun _ => ?_
    rw [mathematical_fold hk]
    rcases hst with rfl | hfold
    · exact (h.eq_fold hk hconst).symm
    · obtain ⟨k', hk'⟩ := isSome_iff_exists.mp hfold
      have hkk : k' = k := some.inj
        ((foldedValue_of_within hk').symm.trans (foldedValue_of_within hk))
      rw [h.eq_fold hk' hconst, hkk]

lemma Tells.foldl_addExclusion (h : Tells tgt t z f) {ks : List Integer}
    (hks : ∀ k ∈ ks, k.Normal ∧ z ≠ k.toInt) :
    Tells tgt t z (ks.foldl addExclusion f) where
  normal := h.normal.foldl_addExclusion fun k hk => (hks k hk).1
  exact k hk := h.exact k ((ValueFacts.foldl_addExclusion f ks).1 ▸ hk)
  has hz := (h.has hz).foldl_addExclusion fun k hk => (hks k hk).2

lemma tells_castExact {f g : Facts} (hf : Tells tgt t x f)
    (hr : castExact (factsBase tgt t) f = .ok r)
    (hg : r.getD (unknown (factsBase tgt t)) = g) : Tells tgt t (wrap tgt t x) g := by
  unfold castExact at hr
  subst hg
  split at hr
  · rename_i k hk
    cases hx : exact (factsBase tgt t) (castInteger (factsBase tgt t) k) with
    | error e =>
      rw [hx] at hr
      cases hr
    | ok g =>
      rw [hx] at hr
      cases hr
      have hn := (castInteger_spec (factsBase tgt t) k).1
      refine tells_exact ?_ (exact_ok hn hx)
      rw [castInteger_factsBase, hf.exact k hk]
  · cases hr
    exact tells_unknown

lemma tells_multiplyExact {y : Int} {fa fb g : Facts} (ha : Tells tgt t x fa)
    (hb : Tells tgt t y fb) (hr : multiplyExact fa fb = .ok r)
    (hg : r.getD (unknown (factsBase tgt t)) = g) : Tells tgt t (x * y) g := by
  subst hg
  cases r with
  | none => exact tells_unknown
  | some f =>
    obtain ⟨kx, ky, hkx, hky⟩ := multiplyExact_some hr
    obtain rfl := ha.exact kx hkx
    obtain rfl := hb.exact ky hky
    obtain ⟨k, hk, hf⟩ := multiplyExact_ok hkx hky (ha.normal.exact kx hkx)
      (hb.normal.exact ky hky) hr
    exact tells_exact hk hf

lemma getD_ok {x : Except InvalidArgument (Option Facts)} {d f : Facts}
    (h : (do return some ((← x).getD d) : FactsResult) = .ok (some f)) :
    ∃ r, x = .ok r ∧ r.getD d = f := by
  obtain ⟨r, hx, hr⟩ := bind_eq_ok.mp h
  exact ⟨r, hx, some.inj (Except.ok.inj hr)⟩

variable {var : String → VarFacts} {ok : String → Prop} {ty : NumTy}

lemma plainFacts_folded (hvar : VarsTell tgt var ok ρ) (he : Folded ρ e) (base : Base) :
    plainFacts tbl var base e = .ok (some (foldFacts tbl base e)) := by
  cases e with
  | intLit n => cases he
  | cast ty e => cases he
  | binOp op a b => cases op <;> first | rfl | cases he
  | var name => rw [plainFacts, hvar.free name he]
  | _ => rfl

lemma plainFacts_tells (hvar : VarsTell tgt var ok ρ)
    (hconst : ∀ name n, tbl name = some n → ρ name = none)
    (h : plainFacts tbl var (factsBase tgt t) e = .ok (some f))
    (hst : Straight tgt tbl decl var ok ρ t e s z) : Tells tgt t z f := by
  induction hst generalizing f with
  | unknown _ hf => exact hf f h ▸ tells_unknown
  | @lit n s hwrap =>
    rw [plainFacts] at h
    cases h
    refine tells_orUnknown (normal_mathematical _ _) fun hv => ?_
    rw [hwrap, wrap_eq_mathematical hv]
  | @bound name s z hb hok =>
    obtain ⟨hz, source, excluded, hname, hex, htell⟩ := hvar.bound name s z hb
    rw [plainFacts, hname] at h
    cases source with
    | none =>
      cases h
      exact tells_unknown.foldl_addExclusion hex
    | some r =>
      cases r with
      | error e => cases h
      | ok r =>
        obtain ⟨g, rfl, rfl⟩ := map_eq_some_iff.mp (Except.ok.inj h)
        have hg := (htell hok g rfl).foldl_addExclusion hex
        exact ⟨hg.normal, hg.exact, fun _ => hg.has hz⟩
  | fold hfolded he hs =>
    rw [plainFacts_folded hvar hfolded] at h
    cases h
    exact tells_foldFacts hconst he hs
  | mul _ _ _ iha ihb =>
    rw [plainFacts] at h
    obtain ⟨fa, hfa, h⟩ := bind_eq_ok.mp h
    obtain ⟨fb, hfb, h⟩ := bind_eq_ok.mp h
    cases fa with
    | none => exact some.inj (Except.ok.inj h) ▸ tells_unknown
    | some fa =>
      cases fb with
      | none => exact some.inj (Except.ok.inj h) ▸ tells_unknown
      | some fb =>
        obtain ⟨r, hr, hg⟩ := getD_ok h
        exact tells_multiplyExact (iha hfa) (ihb hfb) hr hg
  | @castLit cty n s _ _ hwrap =>
    rw [plainFacts] at h
    obtain ⟨g, hx, h⟩ := bind_eq_ok.mp h
    obtain ⟨r, hr, hg⟩ := getD_ok h
    have hn := (castInteger_spec (factsBase tgt t) (mathematical (factsBase tgt t) n)).1
    have hval : (castInteger (factsBase tgt t) (mathematical (factsBase tgt t) n)).toInt =
        wrap tgt t n.toInt := by
      rw [castInteger_factsBase, wrap_mathematical]
    have hcast := tells_castExact (tells_exact hval (exact_ok hn hx)) hr hg
    rwa [wrap_of_holds (wrap_holds t n.toInt), ← hwrap] at hcast
  | @cast cty e s' s x hnl _ _ _ hwrap ih =>
    rw [plainFacts] at h
    swap
    · exact hnl
    obtain ⟨fe, hfe, h⟩ := bind_eq_ok.mp h
    rw [hwrap]
    cases fe with
    | none => exact some.inj (Except.ok.inj h) ▸ tells_unknown
    | some fe =>
      obtain ⟨r, hr, hg⟩ := getD_ok h
      exact tells_castExact (ih hfe) hr hg

/-! ## Scopes -/

def env : List Local → List (IntTy × Int) → Env
  | l :: ls, v :: vs, name => if l.name = name then some v else env ls vs name
  | _, _, _ => none

def InTy (ty : NumTy) (z : Int) : Prop :=
  ∀ lo hi b, ty = .refinedInt lo hi b → lo.toInt ≤ z ∧ z < hi.toInt

/-- The values the locals have in an execution: none of those its path excludes, and
an immutable one the value of its initializer. No local has a constant's name. -/
def Runs (tgt : Target) (tbl : ConstTable) (decl : String → Option IntTy) :
    List Local → List (IntTy × Int) → Prop
  | [], [] => True
  | l :: ls, (t, z) :: vs =>
    Runs tgt tbl decl ls vs ∧ tbl l.name = none ∧ t.Holds tgt z ∧
      (∀ k ∈ l.excluded, k.Normal ∧ z ≠ k.toInt) ∧
      ∀ e ty, l.source = some (e, ty) →
        canonTy ty = some t ∧ InTy ty z ∧ ∃ s, Eval tgt tbl decl (env ls vs) e s z
  | _, _ => False

/-- The recorded initializer of the local that `name` means evaluates straight at
the local's type, and so do those it reads. A refined type needs nothing of it. -/
def StraightLocal (tgt : Target) (tbl : ConstTable) (decl : String → Option IntTy) :
    List Local → List (IntTy × Int) → String → Prop
  | l :: ls, (t, z) :: vs, name =>
    if l.name = name then
      ∀ e ty, l.source = some (e, ty) → (∀ lo hi b, ty ≠ .refinedInt lo hi b) →
        ∃ s, Straight tgt tbl decl (localFacts tgt tbl ls) (StraightLocal tgt tbl decl ls vs)
          (env ls vs) t e s z
    else StraightLocal tgt tbl decl ls vs name
  | _, _, _ => True

lemma toInt_ofNative (k : Native) : (ofSignedInt64 (k.signExtend 64)).toInt = k.toInt := by
  rw [toInt_ofSignedInt64, toInt_signExtend_of_le (by decide)]

lemma interval_facts {lo hi : Native} (h1 : lo.toInt ≤ z) (h2 : z < hi.toInt) :
    Tells tgt t z (orUnknown (factsBase tgt t) (interval (factsBase tgt t)
      (ofSignedInt64 (lo.signExtend 64)) (ofSignedInt64 ((hi - 1).signExtend 64)))) := by
  cases hx : interval (factsBase tgt t) (ofSignedInt64 (lo.signExtend 64))
    (ofSignedInt64 ((hi - 1).signExtend 64)) with
  | error e => exact tells_unknown
  | ok f =>
    have hhi : z ≤ (ofSignedInt64 ((hi - 1).signExtend 64)).toInt := by
      rw [toInt_ofNative, toInt_pred (h1.trans_lt h2)]
      omega
    obtain ⟨-, hhas, hn⟩ := interval_ok (normal_ofSignedInt64 _) (normal_ofSignedInt64 _) hx
      ((toInt_ofNative lo).le.trans h1) hhi
    exact ⟨hn, fun k hk => (hhas.exact k hk).symm, fun _ => hhas⟩

lemma exprFacts_tells (hvar : VarsTell tgt var ok ρ)
    (hconst : ∀ name n, tbl name = some n → ρ name = none) (hty : canonTy ty = some t)
    (hin : InTy ty z) (h : exprFacts tgt tbl var ty e = .ok (some f))
    (hplain : (∀ lo hi b, ty ≠ .refinedInt lo hi b) →
      ∃ s, Straight tgt tbl decl var ok ρ t e s z) :
    Tells tgt t z f := by
  have hb : valueFactsBaseOfTy tgt ty = some (factsBase tgt t) := by
    rw [valueFactsBaseOfTy, hty, map_some]
  rw [exprFacts, hb] at h
  cases ty with
  | refinedInt lo hi b =>
    cases h
    exact interval_facts (hin lo hi b rfl).1 (hin lo hi b rfl).2
  | _ =>
    obtain ⟨s, hst⟩ := hplain nofun
    exact plainFacts_tells hvar hconst h hst

variable {vs : List (IntTy × Int)} {Γ : List Local}

lemma env_const (h : Runs tgt tbl decl Γ vs) : ∀ name n, tbl name = some n → env Γ vs name = none := by
  intro name n hn
  induction Γ generalizing vs with
  | nil =>
    cases vs with
    | nil => rfl
    | cons v vs => cases h
  | cons l ls ih =>
    cases vs with
    | nil => cases h
    | cons v vs =>
      obtain ⟨hls, hl, -⟩ := h
      have hne : l.name ≠ name := by
        rintro rfl
        rw [hl] at hn
        cases hn
      simp only [env, if_neg hne]
      exact ih hls

lemma localFacts_tell (h : Runs tgt tbl decl Γ vs) :
    VarsTell tgt (localFacts tgt tbl Γ) (StraightLocal tgt tbl decl Γ vs) (env Γ vs) := by
  induction Γ generalizing vs with
  | nil =>
    cases vs with
    | nil => exact ⟨nofun, fun _ _ => rfl⟩
    | cons v vs => cases h
  | cons l ls ih =>
    cases vs with
    | nil => cases h
    | cons v vs =>
      obtain ⟨t, z⟩ := v
      obtain ⟨hls, hl, hz, hex, hsrc⟩ := h
      have ihls := ih hls
      constructor
      · intro name t' z' hname
        simp only [env] at hname
        split_ifs at hname with heq
        · cases hname
          refine ⟨hz, _, _, by rw [localFacts, if_pos heq], hex, fun hok f hf => ?_⟩
          rw [StraightLocal, if_pos heq] at hok
          obtain ⟨⟨e, ty⟩, hsource, hfacts⟩ := map_eq_some_iff.mp hf
          obtain ⟨hty, hin, -⟩ := hsrc e ty hsource
          exact exprFacts_tells ihls (env_const hls) hty hin hfacts (hok e ty hsource)
        · rw [localFacts, StraightLocal, if_neg heq, if_neg heq]
          exact ihls.bound name t' z' hname
      · intro name hname
        simp only [env] at hname
        split_ifs at hname with heq
        rw [localFacts, if_neg heq]
        exact ihls.free name hname

lemma exprFacts_some
    (hvar : ∀ name src ex, var name = .bound (some src) ex → src ≠ .ok none)
    (hty : canonTy ty = some t) : exprFacts tgt tbl var ty e ≠ .ok none := by
  have hb : valueFactsBaseOfTy tgt ty = some (factsBase tgt t) := by
    rw [valueFactsBaseOfTy, hty, map_some]
  have hplain : plainFacts tbl var (factsBase tgt t) e ≠ .ok none := by
    intro h
    unfold plainFacts at h
    split at h
    · cases h
    · obtain ⟨l, -, h⟩ := bind_eq_ok.mp h
      obtain ⟨r, -, h⟩ := bind_eq_ok.mp h
      split at h
      · obtain ⟨p, -, h⟩ := bind_eq_ok.mp h
        cases h
      · cases h
    · obtain ⟨f, -, h⟩ := bind_eq_ok.mp h
      obtain ⟨c, -, h⟩ := bind_eq_ok.mp h
      cases h
    · obtain ⟨f, -, h⟩ := bind_eq_ok.mp h
      split at h
      · obtain ⟨c, -, h⟩ := bind_eq_ok.mp h
        cases h
      · cases h
    · split at h
      · rename_i hsrc
        obtain ⟨f, hf, h⟩ := bind_eq_ok.mp h
        cases f with
        | none => exact hvar _ _ _ hsrc hf
        | some f => cases h
      · cases h
      · cases h
    · cases h
  rw [exprFacts, hb]
  cases ty with
  | refinedInt lo hi b => nofun
  | _ => exact hplain

lemma localFacts_some (h : Runs tgt tbl decl Γ vs) :
    ∀ name src ex, localFacts tgt tbl Γ name = .bound (some src) ex → src ≠ .ok none := by
  induction Γ generalizing vs with
  | nil => exact fun _ _ _ h => by cases h
  | cons l ls ih =>
    cases vs with
    | nil => cases h
    | cons v vs =>
      obtain ⟨hls, -, -, -, hsrc⟩ := h
      intro name src ex hname
      rw [localFacts] at hname
      split_ifs at hname
      · obtain ⟨⟨e, ty⟩, hsource, rfl⟩ := map_eq_some_iff.mp (VarFacts.bound.inj hname).1
        exact exprFacts_some (ih hls) (hsrc e ty hsource).1
      · exact ih hls name src ex hname

lemma bounds_of_compare (hf : f.Has z) (hn : f.Normal) {lo hi : Integer} (hlo : lo.Normal)
    (hhi : hi.Normal)
    (h : compareInteger f.interval.lo lo ≠ .lt ∧ compareInteger f.interval.hi hi = .lt) :
    lo.toInt ≤ z ∧ z < hi.toInt := by
  rw [ne_eq, compareInteger_lt hn.lo hlo, compareInteger_lt hn.hi hhi, not_lt] at h
  exact ⟨h.1.trans hf.lower, hf.upper.trans_lt h.2⟩

/-- `let a: u32 = 256; let b: u32 = ((a as u8) as u32);` -/
def narrowed : List Local :=
  [⟨"b", some (.cast (.int .u32) (.cast (.int .u8) (.var "a")), .int .u32), []⟩,
    ⟨"a", some (.intLit 256, .int .u32), []⟩]

lemma narrowed_runs :
    Runs .bits64 (fun _ => none) (fun _ => none) narrowed [(.u32, 0), (.u32, 256)] := by
  refine ⟨⟨trivial, rfl, by decide, nofun, ?_⟩, rfl, by decide, nofun, ?_⟩
  · rintro e ty ⟨⟩
    exact ⟨rfl, nofun, .u32, .lit 256 .u32⟩
  · rintro e ty ⟨⟩
    refine ⟨rfl, nofun, .u32, ?_⟩
    have hnarrow : Eval .bits64 (fun _ => none) (fun _ => none)
        (env [⟨"a", some (.intLit 256, .int .u32), []⟩] [(.u32, 256)])
        (.cast (.int .u8) (.var "a")) .u8 (wrap .bits64 .u8 256) :=
      .cast (fun _ => Expr.noConfusion) rfl (.bound rfl) fun _ _ _ => Ty.noConfusion
    exact .cast (fun _ => Expr.noConfusion) rfl hnarrow fun _ _ _ => Ty.noConfusion

end Takibi.Range
