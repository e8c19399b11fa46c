import Takibi.Range.ExprFacts

/-! Alignment of pointer arithmetic: the checker keeps `*align(N) T` over an offset
that it can show to be a multiple of `N`, whatever width the offset wraps at. -/

namespace Takibi.Range
open Numeric Takibi.Types Syntax Bool Option BitVec Int

def boundValue (tbl : ConstTable) : Expr → Option Native
  | .intLit n => intOfIntlit n
  | .var name => find tbl name
  | _ => none

def abs (a : Native) : Native := if a.toInt < 0 then -a else a

lemma natAbs_srem_lt {a b : Native} (h : ¬ b = 0) : (a.srem b).toInt.natAbs < b.toInt.natAbs := by
  have hne : b.toInt ≠ 0 := fun hz => h (toInt_inj.mp (by simpa using hz))
  rw [toInt_srem, natAbs_tmod]
  exact Nat.mod_lt _ (natAbs_pos.mpr hne)

def gcd (a b : Native) : Native := if b = 0 then abs a else gcd b (a.srem b)
termination_by b.toInt.natAbs
decreasing_by exact natAbs_srem_lt ‹_›

def nonzeroBound (tbl : ConstTable) (e : Expr) : Option Native :=
  (boundValue tbl e).filter (· ≠ 0)

def provableMultipleOf (tbl : ConstTable) (e : Expr) : Option Native :=
  match nonzeroBound tbl e with
  | some n => some (abs n)
  | none =>
    match e with
    | .cast _ inner => provableMultipleOf tbl inner
    | .binOp .mul a b =>
      match nonzeroBound tbl a, nonzeroBound tbl b with
      | some n, _ => some (abs n)
      | none, some n => some (abs n)
      | none, none => none
    | .binOp .add a b | .binOp .sub a b =>
      match provableMultipleOf tbl a, provableMultipleOf tbl b with
      | some ka, some kb => some (gcd ka kb)
      | _, _ => none
    | _ => none

def elemStrideAligned (aligns : String → Option Native) (n : Native) : Ty → Bool
  | .struct sname => (aligns sname).any fun m => m.srem n = 0
  | _ => false

def alignedOffset (aligns : String → Option Native) (tbl : ConstTable) (n : Native) (elem : Ty)
    (e : Expr) : Ty :=
  if elemStrideAligned aligns n elem then .alignedPtr n elem
  else
    match provableMultipleOf tbl e with
    | some k => if k.srem n = 0 then .alignedPtr n elem else .ptr elem
    | none => .ptr elem

/-! ## The generated code -/

/-- How the generated code carries a value: an integer of a type, the address of
elements of a size, or a single bit. -/
inductive Shape
  | int (t : IntTy)
  | pointer (size : Nat)
  | bool
  deriving DecidableEq, Repr

/-- What the code around an expression fixes: the constants with their types, the
types under the enumerations, and the size of each type. -/
structure Context where
  tgt : Target
  tbl : ConstTable
  decl : String → Option IntTy
  enums : String → Option IntTy
  size : Ty → Nat

namespace Context
variable (c : Context)

def base : Ty → Option IntTy
  | .int t | .refinedInt _ _ t | .multiple _ t => some t
  | .struct name => c.enums name
  | _ => none

def pointee : Ty → Option Ty
  | .ptr t | .alignedPtr _ t => some t
  | _ => none

def Unread : Expr → Prop
  | .intLit _ | .cast _ _ => False
  | .binOp op _ _ => op ≠ .add ∧ op ≠ .sub ∧ op ≠ .mul
  | .var name => c.tbl name = none
  | _ => True

/-- An operation on values of `t` is done at the type's width, or at the 32 bits
that narrow values are widened to. -/
def Width (t : IntTy) (w : Nat) : Prop := w = t.bits c.tgt ∨ w = max 32 (t.bits c.tgt)

end Context

def wrapAt (s : Bool) (w : Nat) (z : Int) : Int := Machine.read s (BitVec.ofInt w z)

def ringOp : BinOp → Option (Int → Int → Int)
  | .add => some (· + ·)
  | .sub => some (· - ·)
  | .mul => some (· * ·)
  | _ => none

/-- `Carries c env e sh z`: the code of `e` yields `z` in the shape `sh`, where `env` has the
values of all other expressions. A literal takes the type it is used at, and a wire-endian value
stands for the number it encodes. -/
inductive Carries (c : Context) (env : Expr → Option (Shape × Int)) : Expr → Shape → Int → Prop
  | lit (n t) : Carries c env (.intLit n) (.int t) (wrap c.tgt t n.toInt)
  | const {name n t} : c.tbl name = some n → c.decl name = some t →
      Carries c env (.var name) (.int t) (wrap c.tgt t n.toInt)
  | other {e sh z} : c.Unread e → env e = some (sh, z) → Carries c env e sh z
  | arith {op f a b t x y w} : ringOp op = some f → Carries c env a (.int t) x →
      Carries c env b (.int t) y → c.Width t w →
      Carries c env (.binOp op a b) (.int t) (wrapAt t.signed w (f x y))
  | pointerAdd {a b k t x y} : Carries c env a (.pointer k) x → Carries c env b (.int t) y →
      Carries c env (.binOp .add a b) (.pointer k) (wrap c.tgt .usize (x + y * k))
  | addPointer {a b k t x y} : Carries c env a (.int t) x → Carries c env b (.pointer k) y →
      Carries c env (.binOp .add a b) (.pointer k) (wrap c.tgt .usize (y + x * k))
  | pointerSub {a b k t x y} : Carries c env a (.pointer k) x → Carries c env b (.int t) y →
      Carries c env (.binOp .sub a b) (.pointer k) (wrap c.tgt .usize (x - y * k))
  -- a difference of addresses counts elements
  | pointerDiff {a b k x y} : Carries c env a (.pointer k) x → Carries c env b (.pointer k) y →
      (k : Int) ∣ wrap c.tgt .isize (x - y) →
      Carries c env (.binOp .sub a b) (.int .isize) (wrap c.tgt .isize (x - y) / k)
  | castInt {ty e t t' x s w} : c.base ty = some t' → Carries c env e (.int t) x → c.Width t w →
      Carries c env (.cast ty e) (.int t') (wrap c.tgt t' (wrapAt s w x))
  | castAddress {ty e t' k x} : c.base ty = some t' → Carries c env e (.pointer k) x →
      Carries c env (.cast ty e) (.int t') (wrap c.tgt t' x)
  | castPointer {ty p e t x s w} : Context.pointee ty = some p → Carries c env e (.int t) x →
      c.Width t w →
      Carries c env (.cast ty e) (.pointer (c.size p)) (wrap c.tgt .usize (wrapAt s w x))
  | castPointee {ty p e k x} : Context.pointee ty = some p → Carries c env e (.pointer k) x →
      Carries c env (.cast ty e) (.pointer (c.size p)) x
  | castBool {e t x} : Carries c env e (.int t) x →
      Carries c env (.cast .bool e) .bool (if x = 0 then 0 else 1)
  | castBit {ty e t' x} (s : Bool) : c.base ty = some t' → Carries c env e .bool x →
      Carries c env (.cast ty e) (.int t') (wrap c.tgt t' (if s then -x else x))

/-! ## What the analysis looks through -/

def isAddress : Expr → Bool
  | .cast ty _ => (Context.pointee ty).isSome
  | .binOp .add a b => isAddress a || isAddress b
  | .binOp .sub a b => isAddress a && !isAddress b
  | _ => false

/-- Nothing the analysis looks through is a cast to `bool` or a difference of two
addresses. -/
def keepsMultiples : Expr → Bool
  | .cast .bool _ => false
  | .cast _ e => keepsMultiples e
  | .binOp .add a b => keepsMultiples a && keepsMultiples b
  | .binOp .sub a b => keepsMultiples a && keepsMultiples b && !(isAddress a && isAddress b)
  | _ => true

/-! ## Powers of two survive every wrap -/

section Wrap
variable {m : Nat}

lemma two_pow_dvd_wrapAt (s : Bool) (w : Nat) {z : Int} (h : (2 : Int) ^ m ∣ z) :
    (2 : Int) ^ m ∣ wrapAt s w z := by
  have hmod : wrapAt s w z ≡ z [ZMOD 2 ^ w] := by
    have := congrArg BitVec.toNat (Machine.ofInt_read s (BitVec.ofInt w z))
    simp only [toNat_ofInt] at this
    unfold Int.ModEq wrapAt
    have hpos : (0 : Int) < 2 ^ w := by positivity
    have ha := emod_nonneg (Machine.read s (BitVec.ofInt w z)) hpos.ne'
    have hb := emod_nonneg z hpos.ne'
    push_cast at this
    omega
  rcases Nat.le_total m w with hmw | hmw
  · have hdvd : (2 : Int) ^ m ∣ wrapAt s w z - z := (pow_dvd_pow 2 hmw).trans hmod.symm.dvd
    simpa using dvd_add hdvd h
  · have hzero : BitVec.ofInt w z = 0 := by
      have hz : (2 : Int) ^ w ∣ z := (pow_dvd_pow 2 hmw).trans h
      apply eq_of_toNat_eq
      rw [toNat_ofInt]
      push_cast
      rw [emod_eq_zero_of_dvd hz]
      rfl
    unfold wrapAt
    rw [hzero]
    cases s <;> simp [Machine.read]

lemma two_pow_dvd_wrap {tgt : Target} {t : IntTy} {z : Int} (h : (2 : Int) ^ m ∣ z) :
    (2 : Int) ^ m ∣ wrap tgt t z := two_pow_dvd_wrapAt t.signed (t.bits tgt) h

end Wrap

/-! ## The native arithmetic of the analysis -/

lemma dvd_toInt_abs {d : Int} {a : Native} : d ∣ (abs a).toInt ↔ d ∣ a.toInt := by
  unfold abs
  split_ifs
  · by_cases hmin : a.toInt = -4611686018427387904
    · -- the least word is its own opposite
      have : -a = a := by
        have ha : a = Native.minInt := toInt_inj.mp (hmin.trans Native.minInt_toInt.symm)
        rw [ha]
        decide
      rw [this]
    · rw [Native.toInt_neg_of_ne hmin, dvd_neg]
  · rfl

lemma dvd_of_dvd_gcd {d : Int} {a b : Native} (h : d ∣ (gcd a b).toInt) : d ∣ a.toInt ∧ d ∣ b.toInt := by
  induction a, b using gcd.induct with
  | case1 a =>
    rw [gcd, if_pos rfl, dvd_toInt_abs] at h
    exact ⟨h, by simp⟩
  | case2 a b hb ih =>
    rw [gcd, if_neg hb] at h
    obtain ⟨hdb, hdr⟩ := ih h
    rw [toInt_srem] at hdr
    refine ⟨?_, hdb⟩
    rw [← tmod_add_mul_tdiv a.toInt b.toInt]
    exact dvd_add hdr (dvd_mul_of_dvd_left hdb _)

lemma nonzeroBound_some {tbl : ConstTable} {e : Expr} {n : Native}
    (h : nonzeroBound tbl e = some n) : boundValue tbl e = some n := by
  unfold nonzeroBound at h
  exact (filter_eq_some_iff.mp h).1

lemma intOfIntlit_eq {k : BitVec 64} {i : Native} (h : intOfIntlit k = some i) : k.toInt = i.toInt := by
  have hi := Native.fits_toInt i
  unfold Native.Fits at hi
  rw [intOfIntlit_toInt h, toInt_ofInt]
  rw [bmod_def]
  omega

/-! ## Soundness -/

variable {a b e : Expr} {k : Native}

section Analysis
variable {tbl : ConstTable} {op : BinOp}

@[simp] lemma provableMultipleOf_cast (ty : Ty) (e : Expr) :
    provableMultipleOf tbl (.cast ty e) = provableMultipleOf tbl e := by
  rw [provableMultipleOf]
  rfl

lemma provableMultipleOf_leaf (hcast : ∀ ty a, e ≠ .cast ty a)
    (hop : ∀ op a b, e ≠ .binOp op a b) (h : provableMultipleOf tbl e = some k) :
    ∃ n, boundValue tbl e = some n ∧ k = abs n := by
  unfold provableMultipleOf at h
  split at h
  · exact ⟨_, nonzeroBound_some ‹_›, (some.inj h).symm⟩
  · split at h
    · exact absurd rfl (hcast _ _)
    · exact absurd rfl (hop _ _ _)
    · exact absurd rfl (hop _ _ _)
    · exact absurd rfl (hop _ _ _)
    · cases h

lemma provableMultipleOf_mul (h : provableMultipleOf tbl (.binOp .mul a b) = some k) :
    ∃ n, (boundValue tbl a = some n ∨ boundValue tbl b = some n) ∧ k = abs n := by
  rw [provableMultipleOf] at h
  simp only [nonzeroBound, boundValue, filter_none] at h
  split at h
  · rename_i n hn
    exact ⟨n, .inl (nonzeroBound_some hn), (some.inj h).symm⟩
  · rename_i n _ hn
    exact ⟨n, .inr (nonzeroBound_some hn), (some.inj h).symm⟩
  · cases h

lemma provableMultipleOf_sum (hop : op = .add ∨ op = .sub)
    (h : provableMultipleOf tbl (.binOp op a b) = some k) :
    ∃ ka kb, provableMultipleOf tbl a = some ka ∧ provableMultipleOf tbl b = some kb ∧ k = gcd ka kb := by
  obtain rfl | rfl := hop
  all_goals
    rw [provableMultipleOf] at h
    simp only [nonzeroBound, boundValue, filter_none] at h
    split at h
    · exact ⟨_, _, ‹_›, ‹_›, (some.inj h).symm⟩
    · cases h

end Analysis

section Sound
variable {c : Context} {env : Expr → Option (Shape × Int)} {sh : Shape} {z : Int}
  {m : Nat}

lemma Carries.dvd_of_bound (h : Carries c env e sh z) {n : Native}
    (hn : boundValue c.tbl e = some n) (hd : (2 : Int) ^ m ∣ n.toInt) : (2 : Int) ^ m ∣ z := by
  cases h with
  | lit k t =>
    rw [intOfIntlit_eq hn]
    exact two_pow_dvd_wrap hd
  | @const name k t hk =>
    have hlit : intOfIntlit k = some n := by simpa [boundValue, find, hk] using hn
    rw [intOfIntlit_eq hlit]
    exact two_pow_dvd_wrap hd
  | other ho =>
    cases e with
    | intLit => exact ho.elim
    | var name =>
      have hnone : c.tbl name = none := ho
      simp [boundValue, find, hnone] at hn
    | _ => cases hn
  | _ => cases hn

lemma Context.Unread.provableMultipleOf (h : c.Unread e) : provableMultipleOf c.tbl e = none := by
  unfold Range.provableMultipleOf
  cases e with
  | intLit => exact h.elim
  | cast => exact h.elim
  | var name =>
    have hnone : c.tbl name = none := h
    simp [nonzeroBound, boundValue, find, hnone]
  | binOp op a b =>
    obtain ⟨hadd, hsub, hmul⟩ := h
    cases op <;> simp_all [nonzeroBound, boundValue]
  | _ => simp [nonzeroBound, boundValue]

def Shape.isPointer : Shape → Bool
  | .pointer _ => true
  | _ => false

lemma Context.pointee_of_base {ty : Ty} {t : IntTy} (h : c.base ty = some t) : Context.pointee ty = none := by
  cases ty <;> first | rfl | cases h

lemma Carries.isAddress_eq (h : Carries c env e sh z)
    (hk : provableMultipleOf c.tbl e = some k) : isAddress e = sh.isPointer := by
  induction h generalizing k with
  | lit | const => rfl
  | other ho => rw [ho.provableMultipleOf] at hk; cases hk
  | @arith op f a b t x y w hop _ _ _ iha ihb =>
    cases op <;> simp only [ringOp, reduceCtorEq] at hop
    · obtain ⟨ka, kb, hka, hkb, -⟩ := provableMultipleOf_sum (.inl rfl) hk
      simp [isAddress, iha hka, ihb hkb, Shape.isPointer]
    · obtain ⟨ka, kb, hka, hkb, -⟩ := provableMultipleOf_sum (.inr rfl) hk
      simp [isAddress, iha hka, Shape.isPointer]
    · rfl
  | pointerAdd _ _ iha ihb | addPointer _ _ iha ihb =>
    obtain ⟨ka, kb, hka, hkb, -⟩ := provableMultipleOf_sum (.inl rfl) hk
    simp [isAddress, iha hka, ihb hkb, Shape.isPointer]
  | pointerSub _ _ iha ihb | pointerDiff _ _ _ iha ihb =>
    obtain ⟨ka, kb, hka, hkb, -⟩ := provableMultipleOf_sum (.inr rfl) hk
    simp [isAddress, iha hka, ihb hkb, Shape.isPointer]
  | castInt hb | castAddress hb | castBit _ hb =>
    simp [isAddress, Context.pointee_of_base hb, Shape.isPointer]
  | castPointer hp | castPointee hp => simp [isAddress, hp, Shape.isPointer]
  | castBool => rfl

lemma keepsMultiples_cast {ty : Ty} (h : keepsMultiples (.cast ty e) = true) :
    ty ≠ .bool ∧ keepsMultiples e = true := by
  cases ty <;> simp_all [keepsMultiples]

lemma keepsMultiples_sum (hop : op = .add ∨ op = .sub)
    (h : keepsMultiples (.binOp op a b) = true) :
    keepsMultiples a = true ∧ keepsMultiples b = true := by
  obtain rfl | rfl := hop
  all_goals
    simp only [keepsMultiples, and_eq_true] at h
  · exact h
  · exact h.1

lemma provableMultipleOf_sum_dvd (hop : op = .add ∨ op = .sub)
    (hk : provableMultipleOf c.tbl (.binOp op a b) = some k)
    (hkeep : keepsMultiples (.binOp op a b) = true) (hd : (2 : Int) ^ m ∣ k.toInt) {x y : Int}
    (iha : keepsMultiples a = true → ∀ {k : Native}, provableMultipleOf c.tbl a = some k →
      (2 : Int) ^ m ∣ k.toInt → (2 : Int) ^ m ∣ x)
    (ihb : keepsMultiples b = true → ∀ {k : Native}, provableMultipleOf c.tbl b = some k →
      (2 : Int) ^ m ∣ k.toInt → (2 : Int) ^ m ∣ y) :
    (2 : Int) ^ m ∣ x ∧ (2 : Int) ^ m ∣ y := by
  obtain ⟨ka, kb, hka, hkb, rfl⟩ := provableMultipleOf_sum hop hk
  obtain ⟨hda, hdb⟩ := dvd_of_dvd_gcd hd
  obtain ⟨hkeepa, hkeepb⟩ := keepsMultiples_sum hop hkeep
  exact ⟨iha hkeepa hka hda, ihb hkeepb hkb hdb⟩

lemma Carries.dvd (h : Carries c env e sh z) (hkeep : keepsMultiples e = true) {k : Native}
    (hk : provableMultipleOf c.tbl e = some k) (hd : (2 : Int) ^ m ∣ k.toInt) :
    (2 : Int) ^ m ∣ z := by
  induction h generalizing k with
  | lit n t =>
    obtain ⟨i, hi, rfl⟩ := provableMultipleOf_leaf (by rintro _ _ ⟨⟩) (by rintro _ _ _ ⟨⟩) hk
    exact (Carries.lit n t : Carries c env _ _ _).dvd_of_bound hi (dvd_toInt_abs.mp hd)
  | const hn ht =>
    obtain ⟨i, hi, rfl⟩ := provableMultipleOf_leaf (by rintro _ _ ⟨⟩) (by rintro _ _ _ ⟨⟩) hk
    exact (Carries.const hn ht : Carries c env _ _ _).dvd_of_bound hi (dvd_toInt_abs.mp hd)
  | other ho => rw [ho.provableMultipleOf] at hk; cases hk
  | @arith op f a b t x y w hop ha hb _ iha ihb =>
    apply two_pow_dvd_wrapAt
    cases op <;> simp only [ringOp, reduceCtorEq, some.injEq] at hop
    · obtain ⟨hx, hy⟩ := provableMultipleOf_sum_dvd (.inl rfl) hk hkeep hd iha ihb
      rw [← hop]
      exact dvd_add hx hy
    · obtain ⟨hx, hy⟩ := provableMultipleOf_sum_dvd (.inr rfl) hk hkeep hd iha ihb
      rw [← hop]
      exact dvd_sub hx hy
    · obtain ⟨n, hn | hn, rfl⟩ := provableMultipleOf_mul hk <;> rw [← hop]
      · exact dvd_mul_of_dvd_left (ha.dvd_of_bound hn (dvd_toInt_abs.mp hd)) _
      · exact dvd_mul_of_dvd_right (hb.dvd_of_bound hn (dvd_toInt_abs.mp hd)) _
  | pointerAdd _ _ iha ihb =>
    obtain ⟨hx, hy⟩ := provableMultipleOf_sum_dvd (.inl rfl) hk hkeep hd iha ihb
    exact two_pow_dvd_wrap (dvd_add hx (dvd_mul_of_dvd_left hy _))
  | addPointer _ _ iha ihb =>
    obtain ⟨hx, hy⟩ := provableMultipleOf_sum_dvd (.inl rfl) hk hkeep hd iha ihb
    exact two_pow_dvd_wrap (dvd_add hy (dvd_mul_of_dvd_left hx _))
  | pointerSub _ _ iha ihb =>
    obtain ⟨hx, hy⟩ := provableMultipleOf_sum_dvd (.inr rfl) hk hkeep hd iha ihb
    exact two_pow_dvd_wrap (dvd_sub hx (dvd_mul_of_dvd_left hy _))
  | pointerDiff ha hb _ =>
    -- both operands are addresses, which the condition rules out
    obtain ⟨ka, kb, hka, hkb, -⟩ := provableMultipleOf_sum (.inr rfl) hk
    simp [keepsMultiples, ha.isAddress_eq hka, hb.isAddress_eq hkb, Shape.isPointer] at hkeep
  | castInt _ _ _ ih | castPointer _ _ _ ih =>
    rw [provableMultipleOf_cast] at hk
    exact two_pow_dvd_wrap (two_pow_dvd_wrapAt _ _ (ih (keepsMultiples_cast hkeep).2 hk hd))
  | castAddress _ _ ih =>
    rw [provableMultipleOf_cast] at hk
    exact two_pow_dvd_wrap (ih (keepsMultiples_cast hkeep).2 hk hd)
  | castPointee _ _ ih =>
    rw [provableMultipleOf_cast] at hk
    exact ih (keepsMultiples_cast hkeep).2 hk hd
  | castBool => exact absurd rfl (keepsMultiples_cast hkeep).1
  | castBit s _ _ ih =>
    rw [provableMultipleOf_cast] at hk
    have hx := ih (keepsMultiples_cast hkeep).2 hk hd
    apply two_pow_dvd_wrap
    split_ifs
    · exact (dvd_neg).mpr hx
    · exact hx

lemma alignedOffset_dvd {aligns : String → Option Native} {tbl : ConstTable} {n : Native}
    {elem : Ty} (hstride : elemStrideAligned aligns n elem = false)
    (h : alignedOffset aligns tbl n elem e = .alignedPtr n elem) :
    ∃ k, provableMultipleOf tbl e = some k ∧ n.toInt ∣ k.toInt := by
  unfold alignedOffset at h
  rw [hstride] at h
  simp only [false_eq_true, if_false] at h
  split at h
  · rename_i k hk
    refine ⟨k, hk, ?_⟩
    split_ifs at h with hz
    have hrem := congrArg BitVec.toInt hz
    rw [toInt_srem] at hrem
    exact dvd_of_tmod_eq_zero (by simpa using hrem)
  · cases h

/-- Away from casts to `bool` and differences of addresses, a power of two that divides what the
analysis shows divides the value, and an aligned pointer moved by that many elements keeps its
alignment. -/
theorem provableMultipleOf_sound (hkeep : keepsMultiples e = true) (h : Carries c env e sh z) :
    (∀ k m, provableMultipleOf c.tbl e = some k → (2 : Int) ^ m ∣ k.toInt → (2 : Int) ^ m ∣ z) ∧
    ∀ aligns n elem m address, n.toInt = 2 ^ m → elemStrideAligned aligns n elem = false →
      alignedOffset aligns c.tbl n elem e = .alignedPtr n elem → (2 : Int) ^ m ∣ address →
      (2 : Int) ^ m ∣ wrap c.tgt .usize (address + z * c.size elem) ∧
        (2 : Int) ^ m ∣ wrap c.tgt .usize (address - z * c.size elem) := by
  refine ⟨fun k m hk hd => h.dvd hkeep hk hd, ?_⟩
  intro aligns n elem m address hn hstride hty haddress
  obtain ⟨k, hk, hd⟩ := alignedOffset_dvd hstride hty
  rw [hn] at hd
  have hz := dvd_mul_of_dvd_left (h.dvd hkeep hk hd) (c.size elem : Int)
  exact ⟨two_pow_dvd_wrap (dvd_add haddress hz), two_pow_dvd_wrap (dvd_sub haddress hz)⟩

end Sound

/-! ## Where the analysis is wrong -/

def hostContext : Context where
  tgt := .bits64
  tbl := fun name => if name = "STEP" then some 8 else none
  decl := fun name => if name = "STEP" then some .isize else none
  enums := fun _ => none
  size
    | .int t => t.bits .bits64 / 8
    | _ => 8

def oneEnv : Expr → Option (Shape × Int)
  | .var "i" => some (.int .isize, 1)
  | _ => none

def stepOffset : Expr := .binOp .mul (.var "i") (.var "STEP")

lemma carries_stepOffset : Carries hostContext oneEnv stepOffset (.int .isize) 8 := by
  have hunread : hostContext.Unread (.var "i") := rfl
  have hi : Carries hostContext oneEnv (.var "i") (.int .isize) 1 := .other hunread rfl
  have hstep : Carries hostContext oneEnv (.var "STEP") (.int .isize) 8 := .const (n := 8) rfl rfl
  exact Carries.arith (f := (· * ·)) (w := 64) rfl hi hstep (.inl rfl)

theorem provableMultipleOf_sound_stepOffset :
    keepsMultiples stepOffset = true ∧ Carries hostContext oneEnv stepOffset (.int .isize) 8 ∧
      provableMultipleOf hostContext.tbl stepOffset = some 8 ∧ (2 : Int) ^ 3 ∣ 8 :=
  ⟨rfl, carries_stepOffset, rfl,
    (provableMultipleOf_sound rfl carries_stepOffset).1 8 3 rfl (by decide)⟩

/-- `(64 as *u32) - (32 as *u32)`: the addresses are multiples of 32, and eight
elements lie between them. -/
def addressDifference : Expr :=
  .binOp .sub (.cast (.ptr (.int .u32)) (.intLit 64)) (.cast (.ptr (.int .u32)) (.intLit 32))

def truthOffset : Expr := .cast (.int .isize) (.cast .bool stepOffset)

lemma carries_addressDifference : Carries hostContext oneEnv addressDifference (.int .isize) 8 := by
  have hhi : Carries hostContext oneEnv (.cast (.ptr (.int .u32)) (.intLit 64)) (.pointer 4) 64 :=
    .castPointer (p := .int .u32) (s := true) (w := 64) rfl (.lit 64 .isize) (.inl rfl)
  have hlo : Carries hostContext oneEnv (.cast (.ptr (.int .u32)) (.intLit 32)) (.pointer 4) 32 :=
    .castPointer (p := .int .u32) (s := true) (w := 64) rfl (.lit 32 .isize) (.inl rfl)
  exact .pointerDiff hhi hlo (by decide)

lemma carries_truthOffset : Carries hostContext oneEnv truthOffset (.int .isize) (-1) :=
  .castBit true rfl (.castBool carries_stepOffset)

lemma gcd_64_32 : gcd 64 32 = 32 := by
  rw [gcd, if_neg (by decide), show (64 : Native).srem 32 = 0 by decide, gcd, if_pos rfl]
  decide

lemma provableMultipleOf_addressDifference :
    provableMultipleOf hostContext.tbl addressDifference = some 32 := by
  have : provableMultipleOf hostContext.tbl addressDifference = some (gcd 64 32) := rfl
  rw [this, gcd_64_32]

/-- Both are taken for multiples they are not, and an aligned byte pointer moved by
the first keeps its type. -/
theorem provableMultipleOf_unsound :
    (provableMultipleOf hostContext.tbl addressDifference = some 32 ∧
      Carries hostContext oneEnv addressDifference (.int .isize) 8 ∧ ¬ (2 : Int) ^ 5 ∣ 8) ∧
    (alignedOffset (fun _ => none) hostContext.tbl 32 (.int .u8) addressDifference =
        .alignedPtr 32 (.int .u8) ∧ ¬ (2 : Int) ^ 5 ∣ wrap .bits64 .usize (64 + 8 * 1)) ∧
    provableMultipleOf hostContext.tbl truthOffset = some 8 ∧
      Carries hostContext oneEnv truthOffset (.int .isize) (-1) ∧ ¬ (2 : Int) ^ 3 ∣ -1 := by
  refine ⟨⟨provableMultipleOf_addressDifference, carries_addressDifference, by decide⟩,
    ⟨?_, by decide⟩, rfl, carries_truthOffset, by decide⟩
  unfold alignedOffset
  rw [provableMultipleOf_addressDifference]
  rfl

end Takibi.Range
