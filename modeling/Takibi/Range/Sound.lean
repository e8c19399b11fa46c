import Takibi.Numeric.IntRange
import Takibi.Range.Rules

/-! Every derived range holds of the machine's result. The rules compute integer
range arithmetic on the operands' ranges, and no native step of it wraps. -/

namespace Takibi.Range
open Numeric Takibi.Types Syntax Machine IntRange Option Native Int

/-! ## Range arithmetic over the integers -/

/-- The range of a result from its operands' ranges; `whole` holds every
operand's value. -/
inductive Derives (whole : IntRange) : ArithOp → IntRange → IntRange → IntRange → Prop
  | add (r s) : Derives whole .add r s (r.add s)
  | sub (r s) : Derives whole .sub r s (r.sub s)
  | mul (r s) : 0 ≤ r.lo → 0 ≤ s.lo → Derives whole .mul r s (r.mul s)
  | mulRight (r) {k} : 0 < k → Derives whole .mul r (.single k) (r.mul (.single k))
  | mulLeft (r) {k} : 0 < k → Derives whole .mul (.single k) r (r.mul (.single k))
  | div (j) {k} : k ≠ 0 → Derives whole .div (.single j) (.single k) (.single (j.tdiv k))
  | mod (r) {m} : 0 ≤ r.lo → 0 < m → Derives whole .mod r (.single m) ⟨0, m⟩
  | bandRight (r) {k} : 0 ≤ k → Derives whole .band r (.single k) ⟨0, k + 1⟩
  | bandLeft (r) {k} : 0 ≤ k → Derives whole .band (.single k) r ⟨0, k + 1⟩
  | min (r s) : Derives whole .min r s ⟨Min.min r.lo s.lo, Min.min r.hi s.hi⟩
  | minLeft (r s) : Derives whole .min r s ⟨whole.lo, r.hi⟩
  | minRight (r s) : Derives whole .min r s ⟨whole.lo, s.hi⟩
  | max (r s) : Derives whole .max r s ⟨Max.max r.lo s.lo, Max.max r.hi s.hi⟩
  | maxLeft (r s) : Derives whole .max r s ⟨r.lo, whole.hi⟩
  | maxRight (r s) : Derives whole .max r s ⟨s.lo, whole.hi⟩

def machine {w : Nat} (op : ArithOp) (s : Bool) (x y : BitVec w) : Option (BitVec w) :=
  match op with
  | .add => some (x + y)
  | .sub => some (x - y)
  | .mul => some (x * y)
  | .div => if y = 0 then none else some (div s x y)
  | .mod => if y = 0 then none else some (rem s x y)
  | .band => some (x &&& y)
  | .min => some (min s x y)
  | .max => some (max s x y)

def whole (tgt : Target) (base : IntTy) : IntRange :=
  ⟨least base.signed (base.bits tgt), limit base.signed (base.bits tgt)⟩

lemma ne_zero_of_read {w : Nat} {s : Bool} {y : BitVec w} (h : read s y ≠ 0) : y ≠ 0 := by
  rintro rfl
  exact h (by simp [Machine.read])

variable {base : IntTy} {op : ArithOp}

lemma Derives.machine_has {tgt : Target} {r s q : IntRange} (h : Derives (whole tgt base) op r s q)
    (hin : (whole tgt base).lo ≤ q.lo ∧ q.hi ≤ (whole tgt base).hi) {x y : BitVec (base.bits tgt)}
    (hx : r.Has (read base.signed x)) (hy : s.Has (read base.signed y)) :
    ∃ z, machine op base.signed x y = some z ∧ q.Has (read base.signed z) := by
  have hpos := base.bits_pos tgt
  have hxw := holds_read base.signed x
  have hyw := holds_read base.signed y
  have hholds : ∀ z, q.Has z → base.Holds tgt z := fun z hz =>
    ⟨hin.1.trans hz.1, hz.2.trans_le hin.2⟩
  cases h with
  | add =>
    have hq := has_add hx hy
    exact ⟨_, rfl, by rwa [read_add hpos (hholds _ hq)]⟩
  | sub =>
    have hq := has_sub hx hy
    exact ⟨_, rfl, by rwa [read_sub hpos (hholds _ hq)]⟩
  | mul _ _ hr hs =>
    have hq := has_mul hr hs hx hy
    exact ⟨_, rfl, by rwa [read_mul hpos (hholds _ hq)]⟩
  | mulRight _ hk =>
    obtain rfl := has_single.mp hy
    have hq := has_mul_single hk hx
    exact ⟨_, rfl, by rwa [read_mul hpos (hholds _ hq)]⟩
  | mulLeft _ hk =>
    obtain rfl := has_single.mp hx
    have hq := has_mul_single hk hy
    rw [mul_comm] at hq
    exact ⟨_, rfl, by rwa [read_mul hpos (hholds _ hq)]⟩
  | div j hk =>
    obtain rfl := has_single.mp hx
    obtain rfl := has_single.mp hy
    have hq := has_single.mpr (rfl : (read base.signed x).tdiv (read base.signed y) = _)
    refine ⟨_, if_neg (ne_zero_of_read hk), ?_⟩
    rwa [read_div hpos (hholds _ hq)]
  | mod _ hr hm =>
    obtain rfl := has_single.mp hy
    refine ⟨_, if_neg (ne_zero_of_read hm.ne'), ?_⟩
    rw [read_rem]
    exact has_rem hm (hr.trans hx.1)
  | bandRight _ hk =>
    obtain rfl := has_single.mp hy
    obtain ⟨h1, h2⟩ := read_and x hk
    exact ⟨_, rfl, h1, lt_add_one_of_le h2⟩
  | bandLeft _ hk =>
    obtain rfl := has_single.mp hx
    obtain ⟨h1, h2⟩ := read_and y hk
    refine ⟨_, rfl, ?_⟩
    rw [BitVec.and_comm]
    exact ⟨h1, lt_add_one_of_le h2⟩
  | min =>
    refine ⟨_, rfl, ?_⟩
    rw [read_min]
    exact ⟨min_le_min hx.1 hy.1, lt_min (min_lt_of_left_lt hx.2) (min_lt_of_right_lt hy.2)⟩
  | minLeft =>
    refine ⟨_, rfl, ?_⟩
    rw [read_min]
    exact ⟨le_min hxw.1 hyw.1, min_lt_of_left_lt hx.2⟩
  | minRight =>
    refine ⟨_, rfl, ?_⟩
    rw [read_min]
    exact ⟨le_min hxw.1 hyw.1, min_lt_of_right_lt hy.2⟩
  | max =>
    refine ⟨_, rfl, ?_⟩
    rw [read_max]
    exact ⟨max_le_max hx.1 hy.1, max_lt (lt_max_of_lt_left hx.2) (lt_max_of_lt_right hy.2)⟩
  | maxLeft =>
    refine ⟨_, rfl, ?_⟩
    rw [read_max]
    exact ⟨le_max_of_le_left hx.1, max_lt hxw.2 hyw.2⟩
  | maxRight =>
    refine ⟨_, rfl, ?_⟩
    rw [read_max]
    exact ⟨le_max_of_le_right hy.1, max_lt hxw.2 hyw.2⟩

lemma Derives.of_eq {w r s q : IntRange} {lo hi : Int}
    (h : Derives w op r s q) (hlo : lo = q.lo) (hhi : hi = q.hi) :
    Derives w op r s ⟨lo, hi⟩ := by
  subst hlo hhi
  exact h

/-! ## What an operand is known to be -/

variable {tgt : Target} {tbl : ConstTable}

inductive OperandRange (tgt : Target) (tbl : ConstTable) (base : IntTy) :
    NumTy → Expr → IntRange → Prop
  | const {t e k} : foldAtBase tgt tbl false base e = some k →
      OperandRange tgt tbl base t e (.single k.toInt)
  | refined {t lo hi b e} : t.refined? = some (lo, hi, b) →
      OperandRange tgt tbl base t e ⟨lo.toInt, hi.toInt⟩
  | any {t e} : OperandRange tgt tbl base t e (whole tgt base)

/-- `w` is a value the operand can have, at the operation's base: a constant
expression has the machine's value of it, a refined one a value in its range. -/
structure Takes (tgt : Target) (tbl : ConstTable) (base : IntTy) (t : NumTy) (e : Expr)
    (w : BitVec (base.bits tgt)) : Prop where
  const : ∀ w', constEval tgt tbl base e = some w' → w = w'
  refined : ∀ lo hi b, t.refined? = some (lo, hi, b) →
    lo.toInt ≤ read base.signed w ∧ read base.signed w < hi.toInt

lemma productLimitOfTy_toInt {limit : Native} (h : productLimitOfTy tgt base = some limit) :
    0 < limit.toInt ∧ limit.toInt ≤ (whole tgt base).hi ∧
      (-limit).toInt = -limit.toInt ∧ (base.signed → (whole tgt base).lo ≤ -limit.toInt) ∧
      (base.signed = false → (whole tgt base).lo = 0) := by
  cases base <;> simp only [productLimitOfTy, some.injEq, reduceCtorEq] at h <;>
    subst h <;> cases tgt <;> decide

lemma productLimitOfTy_isSome (h : base.wire = false) : ∃ limit, productLimitOfTy tgt base = some limit := by
  cases base <;> first | exact ⟨_, rfl⟩ | cases h

variable {e : Expr} {k : Native}

lemma foldAtBase_spec (h : foldAtBase tgt tbl false base e = some k) : (k + 1).toInt = k.toInt + 1 ∧
      ∃ w, constEval tgt tbl base e = some w ∧ read base.signed w = k.toInt := by
  obtain ⟨limit, hl, hk⟩ := bind_eq_some_iff.mp h
  obtain ⟨hpos, hhi, hneg, hlo, hlo0⟩ := productLimitOfTy_toInt hl
  simp only [Bool.false_eq_true, false_and, if_false] at hk
  have hin : ∀ z, (if base.signed then -limit else 0).toInt ≤ z → z < limit.toInt → base.Holds tgt z := by
    intro z hz1 hz2
    refine ⟨le_trans ?_ hz1, hz2.trans_le hhi⟩
    cases hs : base.signed with
    | true =>
      rw [if_pos rfl, hneg, ← hs]
      exact hlo hs
    | false =>
      rw [if_neg Bool.false_ne_true, ← hs]
      exact (hlo0 hs).le
  obtain ⟨⟨-, hlt⟩, hw⟩ := constEval_of_foldedValueWithin hin hk
  refine ⟨toInt_add_of_fits ?_, hw⟩
  have h1 := lower k
  have h2 := upper limit
  constructor <;> simp <;> omega

variable {w : BitVec (base.bits tgt)} {t : NumTy}

lemma OperandRange.has {r : IntRange} (hr : OperandRange tgt tbl base t e r)
    (hw : Takes tgt tbl base t e w) : r.Has (read base.signed w) := by
  cases hr with
  | const h =>
    obtain ⟨-, w', hw', hk⟩ := foldAtBase_spec h
    rw [hw.const w' hw']
    exact has_single.mpr hk
  | refined ht => exact hw.refined _ _ _ ht
  | any => exact holds_read base.signed w

/-! ## The checker's own arithmetic -/

section Native
variable {a b r : Native}

lemma typeInf_checkedAdd_toInt (h : checkedAdd a b = some r) : r.toInt = a.toInt + b.toInt := by
  unfold checkedAdd at h
  simp only at h
  split_ifs at h with hs
  rw [← some.inj h]
  apply toInt_add_of_sign <;> grind

lemma typeInf_checkedSub_toInt (h : checkedSub a b = some r) : r.toInt = a.toInt - b.toInt := by
  unfold checkedSub at h
  split_ifs at h with hb
  have hne : b.toInt ≠ -4611686018427387904 := fun hb' =>
    hb (BitVec.toInt_inj.mp (by rw [hb', minInt_toInt]))
  rw [typeInf_checkedAdd_toInt h, toInt_neg_of_ne hne]
  ring

lemma typeInf_checkedMul_toInt (h : checkedMul a b = some r) : r.toInt = a.toInt * b.toInt :=
  checkedMul_toInt h

lemma toInt_one : (1 : Native).toInt = 1 := by decide

lemma toInt_neg_one : (-1 : Native).toInt = -1 := by decide

lemma toInt_succ (h : a.toInt < 0x80000000) : (a + 1).toInt = a.toInt + 1 := by
  have h1 := lower a
  rw [toInt_add_of_fits, toInt_one]
  rw [toInt_one]
  constructor <;> omega

lemma toInt_pred (h : a.toInt < b.toInt) : (b - 1).toInt = b.toInt - 1 := by
  have h1 := lower a
  have h2 := upper b
  rw [toInt_sub_of_fits, toInt_one]
  rw [toInt_one]
  constructor <;> omega

end Native

structure NativeExact (tgt : Target) (tbl : ConstTable) (base : IntTy) (t : NumTy) (e : Expr) :
    Prop where
  pred : ∀ lo hi b, t.refined? = some (lo, hi, b) → (hi - 1).toInt = hi.toInt - 1
  succ : ∀ k, foldAtBase tgt tbl false base e = some k → (k + 1).toInt = k.toInt + 1

lemma Takes.nativeExact (hw : Takes tgt tbl base t e w) : NativeExact tgt tbl base t e where
  pred lo hi b ht :=
    have h := hw.refined lo hi b ht
    toInt_pred (h.1.trans_lt h.2)
  succ _ hk := (foldAtBase_spec hk).1

/-! ## The rules derive integer ranges -/

structure Inside (tgt : Target) (base : IntTy) (lo hi : Native) : Prop where
  lower : (whole tgt base).lo ≤ lo.toInt
  upper : hi.toInt ≤ (whole tgt base).hi

variable {lo hi : Native}

lemma refinedOrBase_inv {b base : IntTy} {lo? hi? : Option Native}
    (h : refinedOrBase tgt b lo? hi? = .refinedInt lo hi base) :
    b = base ∧ lo? = some lo ∧ hi? = some hi ∧ (base.wire = false → Inside tgt base lo hi) := by
  unfold refinedOrBase at h
  split at h
  · rename_i lo' hi' hr
    cases h
    unfold rangeWithinBase at hr
    split at hr
    · rename_i lo'' hi''
      split_ifs at hr with hlt hneg
      have hkeep : lo'' = lo ∧ hi'' = hi ∧ (b.wire = false → Inside tgt b lo'' hi'') := by
        split at hr
        · rename_i hnone
          cases hr
          refine ⟨rfl, rfl, fun hw => ?_⟩
          obtain ⟨limit, hl⟩ := @productLimitOfTy_isSome b tgt hw
          rw [hnone] at hl
          cases hl
        · rename_i limit hl
          split_ifs at hr with hin
          cases hr
          obtain ⟨-, hhi, hnl, hlo, hlo0⟩ := productLimitOfTy_toInt hl
          refine ⟨rfl, rfl, fun _ => ⟨?_, hin.1.trans hhi⟩⟩
          cases hs : b.signed with
          | true => exact (hlo hs).trans (hnl ▸ hin.2)
          | false =>
            rw [hlo0 hs]
            simpa [hs] using hneg
      obtain ⟨rfl, rfl, hin⟩ := hkeep
      exact ⟨rfl, rfl, rfl, hin⟩
    · cases hr
  · cases h

/-- A result with the range from `lo` to `hi` at `base`. Nothing limits a range while its base is open;
such a one is asked to end inside the base that a later use decides. -/
inductive RangeAt (tgt : Target) (base : IntTy) (lo hi : Native) : NumTy → Prop
  | known : RangeAt tgt base lo hi (.refinedInt lo hi base)
  | decided : hi.toInt ≤ (whole tgt base).hi → RangeAt tgt base lo hi (.openRange lo hi)

lemma whole_lo_nonpos (tgt : Target) (base : IntTy) : (whole tgt base).lo ≤ 0 := by
  cases base <;> cases tgt <;> decide

lemma refinedOrOpen_inv {b : Option IntTy} {lo? hi? : Option Native}
    (h : RangeAt tgt base lo hi (refinedOrOpen tgt b lo? hi?)) :
    (∀ b', b = some b' → b' = base) ∧ lo? = some lo ∧ hi? = some hi ∧
      (base.wire = false → Inside tgt base lo hi) := by
  generalize hq : refinedOrOpen tgt b lo? hi? = q at h
  unfold refinedOrOpen at hq
  cases h with
  | known =>
    split at hq
    · obtain ⟨rfl, hrange⟩ := refinedOrBase_inv hq
      exact ⟨fun b' hb => (some.inj hb).symm, hrange⟩
    · split_ifs at hq
    · cases hq
  | decided hhi =>
    split at hq
    · unfold refinedOrBase at hq
      split at hq <;> cases hq
    · split_ifs at hq with hlo
      cases hq
      exact ⟨fun b' hb => (by cases hb), rfl, rfl, fun _ => ⟨(whole_lo_nonpos tgt base).trans hlo.2, hhi⟩⟩
    · cases hq

lemma not_rangeAt_ofBase (b : Option IntTy) : ¬ RangeAt tgt base lo hi (.ofBase b) := by
  cases b <;> intro h <;> cases h

/-! An open range takes the base of the other operand, and a constant there was folded before
that base was known. -/

def Leaves (tgt : Target) (tbl : ConstTable) (base : IntTy) (e : Expr) : Prop :=
  ∀ m, leafMax tbl e = some m → base.Holds tgt m.toInt

def NumTy.Open (t : NumTy) : Prop := t.refined?.any fun r => r.2.2.isNone

lemma foldedValueWithin_mono {lo hi lo' hi' : Native} (hlo : lo'.toInt ≤ lo.toInt) (hhi : hi.toInt ≤ hi'.toInt)
    (h : foldedValueWithin tbl lo hi e = some k) : foldedValueWithin tbl lo' hi' e = some k := by
  have hinside : ∀ {v k}, inside lo hi v = some k → inside lo' hi' v = some k := by
    intro v k hv
    obtain ⟨rfl, h1, h2⟩ := inside_eq hv
    rw [inside, if_pos ⟨hlo.trans h1, h2.trans_le hhi⟩]
  induction e using foldedValueWithin.induct generalizing k with
  | case1 op a b f hf iha ihb =>
    simp only [foldedValueWithin, hf, bind_eq_bind, bind_eq_some_iff] at h ⊢
    obtain ⟨x, hx, y, hy, r, hr, hk⟩ := h
    exact ⟨x, iha hx, y, ihb hy, r, hr, hinside hk⟩
  | case2 op a b hf => simp [foldedValueWithin, hf] at h
  | case3 e hop =>
    rw [foldedValueWithin] at h ⊢
    · obtain ⟨v, hv, hk⟩ := bind_eq_some_iff.mp h
      exact bind_eq_some_iff.mpr ⟨v, hv, hinside hk⟩
    all_goals exact hop

lemma foldedValueWithin_inside {lo hi : Native} (h : foldedValueWithin tbl lo hi e = some k) :
    lo.toInt ≤ k.toInt ∧ k.toInt < hi.toInt := by
  unfold foldedValueWithin at h
  split at h
  · split at h
    · simp only [bind_eq_bind, bind_eq_some_iff] at h
      obtain ⟨x, -, y, -, r, -, hk⟩ := h
      obtain ⟨rfl, hin⟩ := inside_eq hk
      exact hin
    · cases h
  · obtain ⟨v, -, hk⟩ := bind_eq_some_iff.mp h
    obtain ⟨rfl, hin⟩ := inside_eq hk
    exact hin

lemma foldedValueUnresolved_nonneg (h : foldedValueUnresolved tbl e = some k) : 0 ≤ k.toInt := by
  obtain ⟨m, -, h⟩ := bind_eq_some_iff.mp h
  split_ifs at h <;> exact (foldedValueWithin_inside h).1

lemma productLimitOfTy_spans {limit : Native} (h : productLimitOfTy tgt base = some limit) :
    (if base.signed then -limit else 0).toInt ≤ (0 : Native).toInt ∧ (128 : Native).toInt ≤ limit.toInt ∧
      Min.min (whole tgt base).hi 0x80000000 ≤ limit.toInt := by
  cases base <;> simp only [productLimitOfTy, some.injEq, reduceCtorEq] at h <;>
    subst h <;> cases tgt <;> decide

lemma foldAtBase_of_unresolved (hw : base.wire = false) (hleaves : Leaves tgt tbl base e)
    (h : foldedValueUnresolved tbl e = some k) : foldAtBase tgt tbl false base e = some k := by
  obtain ⟨limit, hlimit⟩ := @productLimitOfTy_isSome base tgt hw
  obtain ⟨hlower, hleast, hmost⟩ := productLimitOfTy_spans hlimit
  have hfold : ∀ bound : Native, bound.toInt ≤ limit.toInt → foldedValueWithin tbl 0 bound e = some k →
      foldAtBase tgt tbl false base e = some k := fun bound hbound h =>
    bind_eq_some_iff.mpr ⟨limit, hlimit, foldedValueWithin_mono hlower (by simpa using hbound) h⟩
  obtain ⟨m, hm, h⟩ := bind_eq_some_iff.mp h
  split_ifs at h with hm0 hbig
  · refine hfold _ ?_ h
    have hlt := (lt_min (hleaves m hm).2 hm0.2).trans_le hmost
    rw [toInt_succ hm0.2]
    omega
  · exact hfold _ hleast h

/-- A fold at the base that an operand's range has gives the fold at the base of the result. -/
lemma foldAt_base {b : Option IntTy} (hw : base.wire = false) (hb : ∀ b', b = some b' → b' = base)
    (hleaves : b = none → Leaves tgt tbl base e) (h : foldAt tgt tbl b e = some k) :
    foldAtBase tgt tbl false base e = some k := by
  cases b with
  | some b =>
    obtain rfl := hb b rfl
    exact h
  | none => exact foldAtBase_of_unresolved hw (hleaves rfl) h

lemma unifyAtBase_inv {b ct : Option IntTy} (h : unifyAtBase t b = some ct)
    (hct : ∀ b', ct = some b' → b' = base) : ∀ b', b = some b' → b' = base := by
  rintro b' rfl
  rw [unifyAtBase] at h
  split_ifs at h
  exact hct b' (some.inj h).symm

variable {q : NumTy}

lemma withConst_inv {b : Option IntTy} {range : Native → Option Native × Option Native}
    (hw : base.wire = false) (hq : RangeAt tgt base lo hi q) (hleaves : b = none → Leaves tgt tbl base e)
    (h : withConst tgt tbl b t e range = some q) :
    ∃ k, foldAtBase tgt tbl false base e = some k ∧
      (range k).1 = some lo ∧ (range k).2 = some hi ∧ Inside tgt base lo hi := by
  unfold withConst at h
  split at h
  · rename_i k hk
    obtain ⟨ct, hct, rfl⟩ := map_eq_some_iff.mp h
    obtain ⟨hbase, h1, h2, hin⟩ := refinedOrOpen_inv hq
    exact ⟨k, foldAt_base hw (unifyAtBase_inv hct hbase) hleaves hk, h1, h2, hin hw⟩
  · obtain ⟨ct, -, rfl⟩ := map_eq_some_iff.mp h
    exact (not_rangeAt_ofBase ct hq).elim

structure Derived (tgt : Target) (tbl : ConstTable) (op : ArithOp) (t1 : NumTy) (e1 : Expr)
    (t2 : NumTy) (e2 : Expr) (lo hi : Native) (base : IntTy) : Prop where
  inside : Inside tgt base lo hi
  derives : ∃ r s, OperandRange tgt tbl base t1 e1 r ∧ OperandRange tgt tbl base t2 e2 s ∧
    Derives (whole tgt base) op r s ⟨lo.toInt, hi.toInt⟩

def NumTy.Proper (t : NumTy) : Prop := ∀ lo hi b, t.refined? = some (lo, hi, b) → lo.toInt < hi.toInt

section Derived
variable {t1 t2 : NumTy} {e1 e2 : Expr} {lo hi : Native}

lemma open_of_refined {t : NumTy} {lo hi : Native} {b : Option IntTy} (h : t.refined? = some (lo, hi, b))
    (hb : b = none) : t.Open := by
  rw [NumTy.Open, h, hb]
  rfl

/-- The rule folds the constant of its left operand while the base is open. `&` folds it only
where the right operand is no constant. -/
def FoldsLeft (tbl : ConstTable) (t1 t2 : NumTy) (e2 : Expr) (q : NumTy) : ArithOp → Prop
  | .add | .sub => t2.Open ∧ t1.refined? = none
  | .mul => t2.Open
  | .mod => False
  | .band => q.Open ∧ foldedValueUnresolved tbl e2 = none
  | .div | .min | .max => q.Open

def FoldsRight (t1 t2 q : NumTy) : ArithOp → Prop
  | .add | .sub => t1.Open ∧ t2.refined? = none
  | .mul => t1.Open
  | .div | .mod | .band | .min | .max => q.Open

lemma open_of_rangeAt {lo? hi? : Option Native} (hq : RangeAt tgt base lo hi (refinedOrOpen tgt none lo? hi?)) :
    (refinedOrOpen tgt none lo? hi?).Open := by
  cases lo? with
  | none => cases hq
  | some lo =>
    cases hi? with
    | none => cases hq
    | some hi =>
      rw [refinedOrOpen] at hq ⊢
      split_ifs at hq ⊢
      · rfl
      · cases hq

section
variable (hw : base.wire = false) (hq : RangeAt tgt base lo hi q)
include hw hq

section
variable (hleft : t2.Open ∧ t1.refined? = none → Leaves tgt tbl base e1)
  (hright : t1.Open ∧ t2.refined? = none → Leaves tgt tbl base e2)
include hleft hright

lemma addRule_derived (h : addRule tgt tbl t1 e1 t2 e2 = some q) :
    Derived tgt tbl .add t1 e1 t2 e2 lo hi base := by
  unfold addRule at h
  split at h
  · rename_i a b base1 c d base2 h1 h2
    obtain ⟨ct, -, rfl⟩ := map_eq_some_iff.mp h
    obtain ⟨-, hlo, hhi, hin⟩ := refinedOrOpen_inv hq
    obtain ⟨s, hs, hhi⟩ := bind_eq_some_iff.mp hhi
    refine ⟨hin hw, _, _, .refined h1, .refined h2, .of_eq (.add _ _) ?_ ?_⟩
    · exact typeInf_checkedAdd_toInt hlo
    · rw [typeInf_checkedAdd_toInt hhi, typeInf_checkedAdd_toInt hs, toInt_neg_one]
      rfl
  · rename_i a b ct h1 h2
    obtain ⟨k, hk, hlo, hhi, hin⟩ := withConst_inv hw hq (fun hb => hright ⟨open_of_refined h1 hb, h2⟩) h
    refine ⟨hin, _, _, .refined h1, .const hk, .of_eq (.add _ _) ?_ ?_⟩
    · exact typeInf_checkedAdd_toInt hlo
    · rw [typeInf_checkedAdd_toInt hhi]
      simp only [IntRange.add, IntRange.single]
      ring
  · rename_i c d ct h1 h2
    obtain ⟨k, hk, hlo, hhi, hin⟩ := withConst_inv hw hq (fun hb => hleft ⟨open_of_refined h2 hb, h1⟩) h
    refine ⟨hin, _, _, .const hk, .refined h2, .of_eq (.add _ _) ?_ ?_⟩
    · rw [typeInf_checkedAdd_toInt hlo]
      exact add_comm _ _
    · rw [typeInf_checkedAdd_toInt hhi]
      simp only [IntRange.add, IntRange.single]
      ring
  · obtain ⟨ct, -, rfl⟩ := map_eq_some_iff.mp h
    exact (not_rangeAt_ofBase ct hq).elim

lemma subRule_derived (ht2 : t2.Proper) (h : subRule tgt tbl t1 e1 t2 e2 = some q) :
    Derived tgt tbl .sub t1 e1 t2 e2 lo hi base := by
  unfold subRule at h
  split at h
  · rename_i a b base1 c d base2 h1 h2
    obtain ⟨ct, -, rfl⟩ := map_eq_some_iff.mp h
    obtain ⟨-, hlo, hhi, hin⟩ := refinedOrOpen_inv hq
    refine ⟨hin hw, _, _, .refined h1, .refined h2, .of_eq (.sub _ _) ?_ ?_⟩
    · rw [typeInf_checkedSub_toInt hlo, toInt_pred (ht2 _ _ _ h2)]
      rfl
    · exact typeInf_checkedSub_toInt hhi
  · rename_i a b ct h1 h2
    obtain ⟨k, hk, hlo, hhi, hin⟩ := withConst_inv hw hq (fun hb => hright ⟨open_of_refined h1 hb, h2⟩) h
    refine ⟨hin, _, _, .refined h1, .const hk, .of_eq (.sub _ _) ?_ ?_⟩
    · rw [typeInf_checkedSub_toInt hlo]
      simp only [IntRange.sub, IntRange.single]
      ring
    · exact typeInf_checkedSub_toInt hhi
  · rename_i c d ct h1 h2
    obtain ⟨k, hk, hlo, hhi, hin⟩ := withConst_inv hw hq (fun hb => hleft ⟨open_of_refined h2 hb, h1⟩) h
    obtain ⟨t, hkt, hhi⟩ := bind_eq_some_iff.mp hhi
    refine ⟨hin, _, _, .const hk, .refined h2, .of_eq (.sub _ _) ?_ ?_⟩
    · rw [typeInf_checkedSub_toInt hlo, toInt_pred (ht2 _ _ _ h2)]
      rfl
    · rw [typeInf_checkedAdd_toInt hhi, typeInf_checkedSub_toInt hkt, toInt_one]
      simp only [IntRange.sub, IntRange.single]
      ring
  · obtain ⟨ct, -, rfl⟩ := map_eq_some_iff.mp h
    exact (not_rangeAt_ofBase ct hq).elim

end

omit hw in
lemma mulConst_inv {a b : Native} {B : Option IntTy} {t : NumTy} (hab : a.toInt < b.toInt)
    (h : mulConst tgt a b B k t = some q) :
    (∀ b', B = some b' → b' = base) ∧ (base.wire = false → Inside tgt base lo hi) ∧
      (⟨lo.toInt, hi.toInt⟩ : IntRange) = IntRange.mul ⟨a.toInt, b.toInt⟩ (.single k.toInt) := by
  obtain ⟨ct, hct, rfl⟩ := map_eq_some_iff.mp h
  obtain ⟨hbase, hlo, hhi, hin⟩ := refinedOrOpen_inv hq
  obtain ⟨p, hp, hhi⟩ := bind_eq_some_iff.mp hhi
  refine ⟨unifyAtBase_inv hct hbase, hin, ?_⟩
  ext
  · exact typeInf_checkedMul_toInt hlo
  · rw [typeInf_checkedAdd_toInt hhi, typeInf_checkedMul_toInt hp, toInt_pred hab, toInt_one]
    simp only [IntRange.mul, IntRange.single, add_sub_cancel_right]

omit hw hq in
lemma canonTy_of_refined {t : NumTy} {lo hi : Native} {b : Option IntTy} (h : t.refined? = some (lo, hi, b)) :
    canonTy t = b := by
  cases t <;> simp_all [NumTy.refined?, canonTy]

lemma mulRule_derived (hleft : t2.Open → Leaves tgt tbl base e1) (hright : t1.Open → Leaves tgt tbl base e2)
    (ht1 : t1.Proper) (ht2 : t2.Proper) (h : mulRule tgt tbl t1 e1 t2 e2 = some q) :
    Derived tgt tbl .mul t1 e1 t2 e2 lo hi base := by
  unfold mulRule at h
  simp only at h
  split at h
  · rename_i a b B k h1 hk
    obtain ⟨hfold, hpos⟩ := filter_eq_some_iff.mp hk
    rw [canonTy_of_refined h1] at hfold
    obtain ⟨hB, hin, hmul⟩ := mulConst_inv hq (ht1 _ _ _ h1) h
    have hconst := foldAt_base hw hB (fun hb => hright (open_of_refined h1 hb)) hfold
    refine ⟨hin hw, _, _, .refined h1, .const hconst, ?_⟩
    rw [hmul]
    exact .mulRight _ (of_decide_eq_true hpos)
  · rename_i a b B k h2 hk _
    obtain ⟨hfold, hpos⟩ := filter_eq_some_iff.mp hk
    rw [canonTy_of_refined h2] at hfold
    obtain ⟨hB, hin, hmul⟩ := mulConst_inv hq (ht2 _ _ _ h2) h
    have hconst := foldAt_base hw hB (fun hb => hleft (open_of_refined h2 hb)) hfold
    refine ⟨hin hw, _, _, .const hconst, .refined h2, ?_⟩
    rw [hmul]
    exact .mulLeft _ (of_decide_eq_true hpos)
  · rename_i h1 h2 _ _
    obtain ⟨ct, -, rfl⟩ := map_eq_some_iff.mp h
    obtain ⟨-, hlo, hhi, hin⟩ := refinedOrOpen_inv hq
    unfold refinedProductRange at hlo hhi
    split_ifs at hlo hhi with hneg
    obtain ⟨p, hp, hhi⟩ := bind_eq_some_iff.mp hhi
    simp only [not_or, not_lt] at hneg
    refine ⟨hin hw, _, _, .refined h1, .refined h2, .of_eq (.mul _ _ hneg.1 hneg.2.1) ?_ ?_⟩
    · exact typeInf_checkedMul_toInt hlo
    · rw [typeInf_checkedAdd_toInt hhi, typeInf_checkedMul_toInt hp,
        toInt_pred (ht1 _ _ _ h1), toInt_pred (ht2 _ _ _ h2), toInt_one]
      rfl
  · obtain ⟨ct, -, rfl⟩ := map_eq_some_iff.mp h
    exact (not_rangeAt_ofBase ct hq).elim

omit hw hq in
lemma foldAtBase_div (h : foldAtBase tgt tbl false base (.binOp .div e1 e2) = some k) :
    ∃ x y, foldAtBase tgt tbl false base e1 = some x ∧ foldAtBase tgt tbl false base e2 = some y ∧
      y.toInt ≠ 0 ∧ k.toInt = x.toInt.tdiv y.toInt := by
  obtain ⟨limit, hl, h⟩ := bind_eq_some_iff.mp h
  simp only [foldedValueWithin, checkedOp, bind_eq_bind, bind_eq_some_iff] at h
  obtain ⟨x, hx, y, hy, q, hq, hk⟩ := h
  obtain ⟨rfl, -⟩ := inside_eq hk
  obtain ⟨hy0, hdiv⟩ := checkedDiv_toInt hq
  exact ⟨x, y, bind_eq_some_iff.mpr ⟨limit, hl, hx⟩, bind_eq_some_iff.mpr ⟨limit, hl, hy⟩, hy0, hdiv⟩

omit hw hq in
lemma Leaves.div (h1 : Leaves tgt tbl base e1) (h2 : Leaves tgt tbl base e2) :
    Leaves tgt tbl base (.binOp .div e1 e2) := by
  intro m hm
  simp only [leafMax, checkedOp, bind_eq_bind, bind_eq_some_iff] at hm
  obtain ⟨x, hx, y, hy, hm⟩ := hm
  cases hm
  split_ifs
  · exact h2 y hy
  · exact h1 x hx

lemma divRule_derived (hleft : q.Open → Leaves tgt tbl base e1) (hright : q.Open → Leaves tgt tbl base e2)
    (h : divRule tgt tbl t1 e1 t2 e2 = some q) :
    Derived tgt tbl .div t1 e1 t2 e2 lo hi base := by
  obtain ⟨ct, hct, h⟩ := bind_eq_some_iff.mp h
  split_ifs at h
  split at h
  · rename_i k hk
    cases h
    obtain ⟨hbase, hlo, hhi, hin⟩ := refinedOrOpen_inv hq
    have hleaves : ct = none → Leaves tgt tbl base (.binOp .div e1 e2) := by
      rintro rfl
      exact (hleft (open_of_rangeAt hq)).div (hright (open_of_rangeAt hq))
    obtain ⟨x, y, hx, hy, hy0, hdiv⟩ := foldAtBase_div (foldAt_base hw hbase hleaves hk)
    refine ⟨hin hw, _, _, .const hx, .const hy, .of_eq (.div _ hy0) ?_ ?_⟩
    · rw [← some.inj hlo]
      exact hdiv
    · rw [typeInf_checkedAdd_toInt hhi, toInt_one, hdiv]
      rfl
  · cases h
    exact (not_rangeAt_ofBase ct hq).elim

omit hw hq in
lemma unifyCanon_left {a : IntTy} {ct : Option IntTy} (ha : canonTy t1 = some a)
    (h : unifyCanon t1 t2 = some ct) : ct = some a := by
  unfold unifyCanon unifyBases at h
  rw [ha] at h
  split at h <;> grind

omit hw hq in
lemma isUnsignedTy_canon (h : isUnsignedTy t1) : ∃ a, canonTy t1 = some a ∧ a.signed = false := by
  unfold isUnsignedTy at h
  split at h <;> first | exact ⟨_, rfl, rfl⟩ | cases h

/-- What an inverted rule says of a constant that it folded at the common base. -/
lemma const_of_foldAt {ct : Option IntTy} {lo? hi? : Option Native} (hres : refinedOrOpen tgt ct lo? hi? = q)
    (hleaves : ct = none → q.Open → Leaves tgt tbl base e) (hk : foldAt tgt tbl ct e = some k) :
    foldAtBase tgt tbl false base e = some k := by
  subst hres
  refine foldAt_base hw (refinedOrOpen_inv hq).1 ?_ hk
  rintro rfl
  exact hleaves rfl (open_of_rangeAt hq)

lemma modRule_derived (hright : q.Open → Leaves tgt tbl base e2) (h : modRule tgt tbl t1 t2 e2 = some q) :
    Derived tgt tbl .mod t1 e1 t2 e2 lo hi base := by
  obtain ⟨ct, hct, h⟩ := bind_eq_some_iff.mp h
  split at h
  · cases h
  split at h
  · rename_i m hm
    split at h
    · rename_i hpos
      have hkept : refinedOrOpen tgt ct (some 0) (some m) = q →
          foldAtBase tgt tbl false base e2 = some m ∧ Inside tgt base lo hi ∧ lo = 0 ∧ hi = m ∧
            ∀ b', ct = some b' → b' = base := by
        intro hres
        have hfold := const_of_foldAt hw hq hres (fun _ => hright) hm
        subst hres
        obtain ⟨hbase, hlo, hhi, hin⟩ := refinedOrOpen_inv hq
        exact ⟨hfold, hin hw, (some.inj hlo).symm, (some.inj hhi).symm, hbase⟩
      split at h
      · rename_i lo1 hi1 b h1
        split_ifs at h with hlo1
        · obtain ⟨hfold, hin, rfl, rfl, -⟩ := hkept (some.inj h)
          exact ⟨hin, _, _, .refined h1, .const hfold, .mod _ hlo1 hpos⟩
        · cases h
          exact (not_rangeAt_ofBase ct hq).elim
      · split_ifs at h with hu
        · obtain ⟨hfold, hin, rfl, rfl, hbase⟩ := hkept (some.inj h)
          obtain ⟨a, ha, hs⟩ := isUnsignedTy_canon hu
          obtain rfl := hbase a (unifyCanon_left ha hct)
          refine ⟨hin, _, _, .any, .const hfold, .mod _ ?_ hpos⟩
          simp [whole, least, hs]
        · cases h
          exact (not_rangeAt_ofBase ct hq).elim
    · cases h
      exact (not_rangeAt_ofBase ct hq).elim
  · cases h
    exact (not_rangeAt_ofBase ct hq).elim

lemma bandRule_derived (hleft : q.Open ∧ foldedValueUnresolved tbl e2 = none → Leaves tgt tbl base e1)
    (hright : q.Open → Leaves tgt tbl base e2) (h : bandRule tgt tbl t1 e1 t2 e2 = some q) :
    Derived tgt tbl .band t1 e1 t2 e2 lo hi base := by
  obtain ⟨ct, hct, h⟩ := bind_eq_some_iff.mp h
  split_ifs at h
  · cases h
    exact (not_rangeAt_ofBase ct hq).elim
  simp only at h
  have hmask : ∀ k, refinedOrOpen tgt ct (some 0) (checkedAdd k 1) = q →
      Inside tgt base lo hi ∧ (⟨lo.toInt, hi.toInt⟩ : IntRange) = ⟨0, k.toInt + 1⟩ := by
    rintro k rfl
    obtain ⟨-, hlo, hhi, hin⟩ := refinedOrOpen_inv hq
    refine ⟨hin hw, ?_⟩
    rw [typeInf_checkedAdd_toInt hhi, toInt_one, ← some.inj hlo]
    rfl
  split at h
  · rename_i k hk
    obtain ⟨hfold, hpos⟩ := filter_eq_some_iff.mp hk
    obtain ⟨hin, hr⟩ := hmask k (some.inj h)
    refine ⟨hin, _, _, .any, .const (const_of_foldAt hw hq (some.inj h) (fun _ => hright) hfold), ?_⟩
    rw [hr]
    exact .bandRight _ (of_decide_eq_true hpos)
  · rename_i hnone
    split at h
    · rename_i k hk
      obtain ⟨hfold, hpos⟩ := filter_eq_some_iff.mp hk
      obtain ⟨hin, hr⟩ := hmask k (some.inj h)
      have hleaves : ct = none → q.Open → Leaves tgt tbl base e1 := by
        rintro rfl hopen
        refine hleft ⟨hopen, eq_none_iff_forall_ne_some.mpr fun k' hk' => ?_⟩
        have hnonneg := decide_eq_true (foldedValueUnresolved_nonneg hk')
        cases hnone.symm.trans (filter_eq_some_iff.mpr ⟨hk', hnonneg⟩)
      refine ⟨hin, _, _, .const (const_of_foldAt hw hq (some.inj h) hleaves hfold), .any, ?_⟩
      rw [hr]
      exact .bandLeft _ (of_decide_eq_true hpos)
    · cases h
      exact (not_rangeAt_ofBase ct hq).elim

/-! `min` and `max` take a bound that an operand does not give from the base. -/

omit hw hq in
lemma sentinels_toInt {ct : Option IntTy} (hct : ∀ b, ct = some b → b = base) :
    (∀ v ∈ (sentinels tgt ct).1, v.toInt = (whole tgt base).lo) ∧
      ∀ v ∈ (sentinels tgt ct).2, v.toInt = (whole tgt base).hi := by
  cases ct with
  | none => constructor <;> intro v hv <;> cases hv
  | some b =>
    obtain rfl := hct b rfl
    constructor <;> intro v hv <;> cases b <;> cases tgt <;>
      first
      | (cases hv; decide)
      | cases hv

omit hw hq in
lemma pick_toInt (fname : MinMax) (a b : Native) : (pick fname a b).toInt =
      match fname with
      | .min => min a.toInt b.toInt
      | .max => max a.toInt b.toInt := by
  cases fname <;> simp only [pick] <;> split_ifs <;> omega

omit hq in
lemma rangeOf_operandRange {ct : Option IntTy} {t : NumTy} {e : Expr} {p : Native × Native}
    (hct : ∀ b, ct = some b → b = base) (hleaves : ct = none → Leaves tgt tbl base e)
    (h : rangeOf tgt tbl ct t e = some p) :
    OperandRange tgt tbl base t e ⟨p.1.toInt, p.2.toInt⟩ := by
  unfold rangeOf at h
  split at h
  · rename_i k hk
    cases h
    have hfold : foldAtBase tgt tbl false base e = some k := by
      refine foldAt_base hw hct hleaves ?_
      unfold boundAt at hk
      split at hk <;> first | exact hk | cases hk
    simp only [(foldAtBase_spec hfold).1]
    exact .const hfold
  · obtain ⟨r, hr, rfl⟩ := map_eq_some_iff.mp h
    exact .refined hr

def MinMax.toOp : MinMax → ArithOp
  | .min => .min
  | .max => .max

omit hw hq in
lemma minMaxRange_derives {fname : MinMax} {ct : Option IntTy} {ra rb : Option (Native × Native)}
    (hct : ∀ b, ct = some b → b = base) (h : minMaxRange tgt fname ct ra rb = some (lo, hi))
    (ha : ∀ p ∈ ra, OperandRange tgt tbl base t1 e1 ⟨p.1.toInt, p.2.toInt⟩)
    (hb : ∀ p ∈ rb, OperandRange tgt tbl base t2 e2 ⟨p.1.toInt, p.2.toInt⟩) :
    ∃ r s, OperandRange tgt tbl base t1 e1 r ∧ OperandRange tgt tbl base t2 e2 s ∧
      Derives (whole tgt base) fname.toOp r s ⟨lo.toInt, hi.toInt⟩ := by
  obtain ⟨hslo, hshi⟩ := @sentinels_toInt base tgt ct hct
  unfold minMaxRange at h
  simp only at h
  split at h
  · rename_i lo' hi' hlo hhi
    cases h
    cases fname with
    | min =>
      rcases ra with _ | a <;> rcases rb with _ | b
      · exact ⟨_, _, .any, .any, .of_eq (.minLeft _ _) (hslo _ hlo) (hshi _ hhi)⟩
      · cases hhi
        exact ⟨_, _, .any, hb b rfl, .of_eq (.minRight _ _) (hslo _ hlo) rfl⟩
      · cases hhi
        exact ⟨_, _, ha a rfl, .any, .of_eq (.minLeft _ _) (hslo _ hlo) rfl⟩
      · rw [← some.inj hlo, ← some.inj hhi]
        exact ⟨_, _, ha a rfl, hb b rfl, .of_eq (.min _ _) (pick_toInt ..) (pick_toInt ..)⟩
    | max =>
      rcases ra with _ | a <;> rcases rb with _ | b
      · exact ⟨_, _, .any, .any, .of_eq (.maxLeft _ _) (hslo _ hlo) (hshi _ hhi)⟩
      · cases hlo
        exact ⟨_, _, .any, hb b rfl, .of_eq (.maxRight _ _) rfl (hshi _ hhi)⟩
      · cases hlo
        exact ⟨_, _, ha a rfl, .any, .of_eq (.maxLeft _ _) rfl (hshi _ hhi)⟩
      · rw [← some.inj hlo, ← some.inj hhi]
        exact ⟨_, _, ha a rfl, hb b rfl, .of_eq (.max _ _) (pick_toInt ..) (pick_toInt ..)⟩
  · cases h

lemma minMaxRule_derived (fname : MinMax) (hleft : q.Open → Leaves tgt tbl base e1)
    (hright : q.Open → Leaves tgt tbl base e2) (h : minMaxRule tgt tbl fname t1 e1 t2 e2 = some q) :
    Derived tgt tbl fname.toOp t1 e1 t2 e2 lo hi base := by
  obtain ⟨ct, -, h⟩ := bind_eq_some_iff.mp h
  split at h
  · rename_i lo' hi' hr
    cases h
    obtain ⟨hct, hlo, hhi, hin⟩ := refinedOrOpen_inv hq
    have hopen : ct = none → (refinedOrOpen tgt ct (some lo') (some hi')).Open := by
      rintro rfl
      exact open_of_rangeAt hq
    cases hlo
    cases hhi
    exact ⟨hin hw, minMaxRange_derives hct hr
      (fun _ => rangeOf_operandRange hw hct fun h => hleft (hopen h))
      fun _ => rangeOf_operandRange hw hct fun h => hright (hopen h)⟩
  · cases h
    exact (not_rangeAt_ofBase ct hq).elim

lemma rule_derived (ht1 : t1.Proper) (ht2 : t2.Proper)
    (hleft : FoldsLeft tbl t1 t2 e2 q op → Leaves tgt tbl base e1)
    (hright : FoldsRight t1 t2 q op → Leaves tgt tbl base e2) (h : rule tgt tbl op t1 e1 t2 e2 = some q) :
    Derived tgt tbl op t1 e1 t2 e2 lo hi base := by
  unfold rule at h
  cases op with
  | add => split_ifs at h; exact addRule_derived hw hq hleft hright h
  | sub => split_ifs at h; exact subRule_derived hw hq hleft hright ht2 h
  | mul => split_ifs at h; exact mulRule_derived hw hq hleft hright ht1 ht2 h
  | div => split_ifs at h; exact divRule_derived hw hq hleft hright h
  | mod => split_ifs at h; exact modRule_derived hw hq hright h
  | band => exact bandRule_derived hw hq hleft hright h
  | min => exact minMaxRule_derived hw hq .min hleft hright h
  | max => exact minMaxRule_derived hw hq .max hleft hright h

end
end Derived

/-! ## Casts -/

def toHost (tgt : Target) : (t : IntTy) → BitVec (t.bits tgt) → BitVec (t.bits tgt)
  | .u16be, w => BitVec.extractLsb' 0 8 (n := 16) w ++ BitVec.extractLsb' 8 8 (n := 16) w
  | .u32be, w =>
    BitVec.extractLsb' 0 8 (n := 32) w ++ BitVec.extractLsb' 8 8 (n := 32) w ++
      BitVec.extractLsb' 16 8 (n := 32) w ++ BitVec.extractLsb' 24 8 (n := 32) w
  | .i8, w | .i16, w | .i32, w | .i64, w | .u8, w | .u16, w | .u32, w | .u64, w
  | .isize, w | .usize, w => w

def logical (tgt : Target) (t : IntTy) (w : BitVec (t.bits tgt)) : Int :=
  read t.signed (toHost tgt t w)

def machineCast (tgt : Target) (src t : IntTy) (w : BitVec (src.bits tgt)) : BitVec (t.bits tgt) :=
  convert src.signed (toHost tgt src w) (t.bits tgt)

lemma castRule_refined {src : NumTy} {t base : IntTy} (ht : t.wire = false)
    (h : castRule tgt src t = some (.refinedInt lo hi base)) :
    Inside tgt t lo hi ∧ ∃ b, src.refined? = some (lo, hi, b) := by
  unfold castRule at h
  have hkept : ∀ {lo' hi' b}, src.refined? = some (lo', hi', b) →
      refinedOrBase tgt t (some lo') (some hi') = .refinedInt lo hi base →
        Inside tgt t lo hi ∧ ∃ b, src.refined? = some (lo, hi, b) := by
    intro lo' hi' b hsrc h
    obtain ⟨rfl, hlo, hhi, hin⟩ := refinedOrBase_inv h
    cases hlo
    cases hhi
    exact ⟨hin ht, b, hsrc⟩
  split at h
  · split_ifs at h
    split at h
    · exact hkept rfl (some.inj h)
    · cases h
  · split at h
    · rename_i hsrc
      split_ifs at h
      · exact hkept hsrc (some.inj h)
      · cases h
    · cases h

lemma read_machineCast {src t : IntTy} (hin : Inside tgt t lo hi) {w : BitVec (src.bits tgt)}
    (hlo : lo.toInt ≤ logical tgt src w) (hhi : logical tgt src w < hi.toInt) :
    read t.signed (machineCast tgt src t w) = logical tgt src w :=
  read_convert (t.bits_pos tgt) ⟨hin.lower.trans hlo, hhi.trans_le hin.upper⟩

/-! ## Operands whose type is not resolved yet -/

lemma holds_small (tgt : Target) (t : IntTy) {z : Int} (h0 : 0 ≤ z) (h : z < 128) : t.Holds tgt z := by
  have hw : (whole tgt t).lo ≤ 0 ∧ 128 ≤ (whole tgt t).hi := by
    cases t <;> cases tgt <;> decide
  exact ⟨hw.1.trans h0, h.trans_le hw.2⟩

lemma constEval_of_foldedValueUnresolved {t : IntTy} {m : Native}
    (h : foldedValueUnresolved tbl e = some k) (hm : leafMax tbl e = some m)
    (ht : t.Holds tgt m.toInt) :
    ∃ w, constEval tgt tbl t e = some w ∧ read t.signed w = k.toInt := by
  simp only [foldedValueUnresolved, hm, bind_eq_bind, bind_some] at h
  split_ifs at h with hm0 hbig
  · have hsucc := toInt_succ hm0.2
    refine (constEval_of_foldedValueWithin (fun z hz1 hz2 => ?_) h).2
    have hz0 : 0 ≤ z := hz1
    exact ⟨(holds_small tgt t le_rfl (by decide)).1.trans hz0, (show z ≤ m.toInt by omega).trans_lt ht.2⟩
  · refine (constEval_of_foldedValueWithin (fun z hz1 hz2 => ?_) h).2
    exact holds_small tgt t hz1 hz2

/-! ## Derived ranges are sound -/

lemma Takes.proper (hw : Takes tgt tbl base t e w) : t.Proper := fun lo hi b ht =>
  have h := hw.refined lo hi b ht
  h.1.trans_lt h.2

lemma Takes.of_eval (heval : constEval tgt tbl base e = some w)
    (hrange : ∀ lo hi b, t.refined? = some (lo, hi, b) →
      lo.toInt ≤ read base.signed w ∧ read base.signed w < hi.toInt) :
    Takes tgt tbl base t e w :=
  ⟨fun _ h => some.inj (heval.symm.trans h), hrange⟩

end Takibi.Range
