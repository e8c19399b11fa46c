import Takibi.Numeric.Machine

/-! Integer facts of one expression: an interval, an exact value and a few excluded
ones. Integers are a sign and a 64-bit magnitude, so that the values of every
base from `-2 ^ 63` to `2 ^ 64 - 1` are in reach. -/

namespace Takibi.ValueFacts
open Numeric List Nat

inductive Signedness
  | signed
  | unsigned
  deriving DecidableEq, Repr

structure Base where
  signedness : Signedness
  bits : Nat
  width : bits = 8 ∨ bits = 16 ∨ bits = 32 ∨ bits = 64
  deriving DecidableEq

inductive Sign
  | negative
  | zero
  | positive
  deriving DecidableEq, Repr

structure Integer where
  sign : Sign
  magnitude : BitVec 64
  deriving DecidableEq, Repr

structure Interval where
  lo : Integer
  hi : Integer
  deriving DecidableEq, Repr

structure Facts where
  base : Base
  interval : Interval
  exact : Option Integer
  excluded : List Integer
  deriving DecidableEq

inductive InvalidArgument
  | exact
  | interval
  | baseMismatch
  deriving DecidableEq, Repr

/-! ## Integers -/

def compareMagnitude (a b : BitVec 64) : Ordering := compare a.toNat b.toNat

def compareInteger (a b : Integer) : Ordering :=
  match a.sign, b.sign with
  | .negative, .negative => compareMagnitude b.magnitude a.magnitude
  | .negative, _ => .lt
  | _, .negative => .gt
  | .zero, .zero => .eq
  | .zero, .positive => .lt
  | .positive, .zero => .gt
  | .positive, .positive => compareMagnitude a.magnitude b.magnitude

def equalInteger (a b : Integer) : Bool := compareInteger a b = .eq
def zero : Integer := ⟨.zero, 0⟩

def positive (magnitude : BitVec 64) : Integer :=
  if magnitude = 0 then zero else ⟨.positive, magnitude⟩

def negative (magnitude : BitVec 64) : Integer :=
  if magnitude = 0 then zero else ⟨.negative, magnitude⟩

def ofSignedInt64 (value : BitVec 64) : Integer :=
  if value = 0 then zero
  else if 0 < value.toInt then positive value
  else negative (-value)

def ofUnsignedInt64 (value : BitVec 64) : Integer := positive value
def powerOfTwo (bits : Nat) : BitVec 64 := 1#64 <<< bits

variable (base : Base)

def fullInterval : Interval :=
  match base.signedness with
  | .unsigned =>
    if base.bits = 64 then ⟨zero, positive (-1)⟩
    else ⟨zero, positive (powerOfTwo base.bits - 1)⟩
  | .signed =>
    if base.bits = 64 then ⟨negative (BitVec.intMin 64), positive (BitVec.intMax 64)⟩
    else ⟨negative (powerOfTwo (base.bits - 1)), positive (powerOfTwo (base.bits - 1) - 1)⟩

/-! ## Facts -/

def unknown : Facts := ⟨base, fullInterval base, none, []⟩

def intervalExcludes (interval : Interval) (value : Integer) : Bool :=
  compareInteger value interval.lo = .lt ∨ compareInteger value interval.hi = .gt

def excludes (facts : Facts) (value : Integer) : Bool :=
  intervalExcludes facts.interval value || facts.excluded.any (equalInteger value)

def maxExcludedValues : Nat := 2

def addExclusion (facts : Facts) (value : Integer) : Facts :=
  if excludes facts value then facts
  else if maxExcludedValues ≤ facts.excluded.length then facts
  else { facts with excluded := value :: facts.excluded }

def exact (value : Integer) : Except InvalidArgument Facts :=
  let full := fullInterval base
  if compareInteger value full.lo = .lt ∨ compareInteger value full.hi = .gt then
    .error .exact
  else
    let facts : Facts := ⟨base, ⟨value, value⟩, some value, []⟩
    .ok (if equalInteger value zero then facts else addExclusion facts zero)

def interval (lo hi : Integer) : Except InvalidArgument Facts :=
  let full := fullInterval base
  if compareInteger lo hi = .gt ∨ compareInteger lo full.lo = .lt ∨ compareInteger hi full.hi = .gt then
    .error .interval
  else
    let exact := if equalInteger lo hi then some lo else none
    let facts : Facts := ⟨base, ⟨lo, hi⟩, exact, []⟩
    .ok (if intervalExcludes facts.interval zero then addExclusion facts zero else facts)

def sameBase (a b : Base) : Bool := a.signedness = b.signedness ∧ a.bits = b.bits

def multiplyExact (a b : Facts) : Except InvalidArgument (Option Facts) :=
  if !sameBase a.base b.base then .error .baseMismatch
  else
    match a.exact, b.exact with
    | some x, some y =>
      if x.sign = .zero ∨ y.sign = .zero then (exact a.base zero).map some
      else
        let resultSign : Sign := if x.sign = y.sign then .positive else .negative
        let full := fullInterval a.base
        let limit := if x.sign = y.sign then full.hi.magnitude else full.lo.magnitude
        if x.magnitude.toNat ≤ (limit.udiv y.magnitude).toNat then
          (exact a.base ⟨resultSign, x.magnitude * y.magnitude⟩).map some
        else .ok none
    | _, _ => .ok none

def castInteger (value : Integer) : Integer :=
  let raw : BitVec 64 :=
    match value.sign with
    | .zero => 0
    | .positive => value.magnitude
    | .negative => -value.magnitude
  let raw := if base.bits = 64 then raw else raw &&& (powerOfTwo base.bits - 1)
  match base.signedness with
  | .unsigned => ofUnsignedInt64 raw
  | .signed =>
    if raw &&& (1#64 <<< (base.bits - 1)) = 0 then positive raw
    else negative (if base.bits = 64 then -raw else powerOfTwo base.bits - raw)

def castExact (facts : Facts) : Except InvalidArgument (Option Facts) :=
  match facts.exact with
  | some value => (exact base (castInteger base value)).map some
  | none => .ok none

/-! ## What integers and facts mean -/

def Integer.toInt (a : Integer) : Int :=
  match a.sign with
  | .negative => -a.magnitude.toNat
  | .zero => 0
  | .positive => a.magnitude.toNat

def Integer.Normal (a : Integer) : Prop := a.magnitude = 0 ↔ a.sign = .zero
def Base.isSigned : Bool := base.signedness = .signed

structure Facts.Has (f : Facts) (z : Int) : Prop where
  lower : f.interval.lo.toInt ≤ z
  upper : z ≤ f.interval.hi.toInt
  exact : ∀ k ∈ f.exact, z = k.toInt
  excluded : ∀ k ∈ f.excluded, z ≠ k.toInt

structure Facts.Normal (f : Facts) : Prop where
  lo : f.interval.lo.Normal
  hi : f.interval.hi.Normal
  exact : ∀ k ∈ f.exact, k.Normal
  excluded : ∀ k ∈ f.excluded, k.Normal

lemma toNat_pos_of_ne {m : BitVec 64} (h : m ≠ 0) : 0 < m.toNat := by
  rcases Nat.eq_zero_or_pos m.toNat with h0 | h0
  · exact absurd (BitVec.eq_of_toNat_eq h0) h
  · exact h0

lemma Integer.Normal.cases {a : Integer} (h : a.Normal) :
    (a.sign = .negative ∧ 0 < a.magnitude.toNat) ∨ (a.sign = .zero ∧ a.magnitude = 0) ∨
      (a.sign = .positive ∧ 0 < a.magnitude.toNat) := by
  unfold Normal at h
  cases hs : a.sign <;> simp [hs] at h
  · exact .inl ⟨rfl, toNat_pos_of_ne h⟩
  · exact .inr (.inl ⟨rfl, h⟩)
  · exact .inr (.inr ⟨rfl, toNat_pos_of_ne h⟩)

lemma compareInteger_eq {a b : Integer} (ha : a.Normal) (hb : b.Normal) :
    compareInteger a b = compare a.toInt b.toInt := by
  unfold compareInteger Integer.toInt compareMagnitude
  rcases ha.cases with ⟨sa, pa⟩ | ⟨sa, pa⟩ | ⟨sa, pa⟩ <;>
    rcases hb.cases with ⟨sb, pb⟩ | ⟨sb, pb⟩ | ⟨sb, pb⟩ <;>
    simp only [sa, sb, compare, compareOfLessAndEq] <;>
    split_ifs <;> first | rfl | omega

section Compare
variable {a b : Integer} (ha : a.Normal) (hb : b.Normal)
include ha hb

lemma compareInteger_lt : compareInteger a b = .lt ↔ a.toInt < b.toInt := by
  rw [compareInteger_eq ha hb, compare_lt_iff_lt]

lemma compareInteger_gt : compareInteger a b = .gt ↔ b.toInt < a.toInt := by
  rw [compareInteger_eq ha hb, compare_gt_iff_gt]

lemma equalInteger_iff : equalInteger a b ↔ a.toInt = b.toInt := by
  rw [equalInteger, decide_eq_true_iff, compareInteger_eq ha hb, compare_eq_iff_eq]

end Compare

@[simp] lemma normal_zero : zero.Normal := ⟨fun _ => rfl, fun _ => rfl⟩

@[simp] lemma toInt_zero : zero.toInt = 0 := rfl

variable (m : BitVec 64)

lemma normal_positive : (positive m).Normal := by
  unfold positive
  split_ifs with h
  · exact normal_zero
  · exact ⟨fun h0 => absurd h0 h, nofun⟩

lemma normal_negative : (negative m).Normal := by
  unfold negative
  split_ifs with h
  · exact normal_zero
  · exact ⟨fun h0 => absurd h0 h, nofun⟩

@[simp] lemma toInt_positive : (positive m).toInt = m.toNat := by
  unfold positive
  split_ifs with h
  · simp [h]
  · rfl

@[simp] lemma toInt_negative : (negative m).toInt = -m.toNat := by
  unfold negative
  split_ifs with h
  · simp [h]
  · rfl

lemma normal_ofSignedInt64 (v : BitVec 64) : (ofSignedInt64 v).Normal := by
  unfold ofSignedInt64
  split_ifs
  · exact normal_zero
  · exact normal_positive _
  · exact normal_negative _

lemma toInt_ofSignedInt64 (v : BitVec 64) : (ofSignedInt64 v).toInt = v.toInt := by
  have hlt := v.isLt
  unfold ofSignedInt64
  split_ifs with h0 hpos
  · simp [h0]
  · rw [toInt_positive, BitVec.toInt_eq_toNat_cond]
    rw [BitVec.toInt_eq_toNat_cond] at hpos
    split_ifs at hpos ⊢
    · rfl
    · omega
  · have hne := toNat_pos_of_ne h0
    rw [toInt_negative, BitVec.toNat_neg, BitVec.toInt_eq_toNat_cond]
    rw [BitVec.toInt_eq_toNat_cond] at hpos
    split_ifs at hpos ⊢ <;> omega

/-! ## Bases -/

def Base.Holds (z : Int) : Prop := Machine.Holds base.isSigned base.bits z

lemma fullInterval_normal : (fullInterval base).lo.Normal ∧ (fullInterval base).hi.Normal := by
  unfold fullInterval
  split <;> split_ifs <;>
    exact ⟨by first | exact normal_zero | exact normal_negative _, normal_positive _⟩

lemma fullInterval_iff (z : Int) :
    (fullInterval base).lo.toInt ≤ z ∧ z ≤ (fullInterval base).hi.toInt ↔ base.Holds z := by
  obtain ⟨s, bits, hw⟩ := base
  rcases hw with rfl | rfl | rfl | rfl <;> cases s <;>
    simp [fullInterval, Base.Holds, Base.isSigned, Machine.Holds, Machine.least, Machine.limit,
      powerOfTwo] <;> omega

/-! ## The operations -/

variable {f : Facts} {v x : Integer} {z : Int} {ks : List Integer} {n : Nat}

lemma Facts.Has.addExclusion (h : f.Has z) (hv : z ≠ v.toInt) : (addExclusion f v).Has z := by
  unfold ValueFacts.addExclusion
  split_ifs
  · exact h
  · exact h
  · refine ⟨h.lower, h.upper, h.exact, fun k hk => ?_⟩
    rcases mem_cons.mp hk with rfl | hk
    · exact hv
    · exact h.excluded k hk

lemma Facts.Normal.addExclusion (h : f.Normal) (hv : v.Normal) : (addExclusion f v).Normal := by
  unfold ValueFacts.addExclusion
  split_ifs
  · exact h
  · exact h
  · refine ⟨h.lo, h.hi, h.exact, fun k hk => ?_⟩
    rcases mem_cons.mp hk with rfl | hk
    · exact hv
    · exact h.excluded k hk

@[simp] lemma exact_addExclusion (f : Facts) (v : Integer) : (addExclusion f v).exact = f.exact := by
  unfold addExclusion
  split_ifs <;> rfl

@[simp] lemma base_addExclusion (f : Facts) (v : Integer) : (addExclusion f v).base = f.base := by
  unfold addExclusion
  split_ifs <;> rfl

lemma Facts.Has.foldl_addExclusion (h : f.Has z)
    (hks : ∀ k ∈ ks, z ≠ k.toInt) : (ks.foldl ValueFacts.addExclusion f).Has z := by
  induction ks generalizing f with
  | nil => exact h
  | cons k ks ih =>
    exact ih (h.addExclusion (hks k (mem_cons_self ..)))
      fun k' hk' => hks k' (mem_cons_of_mem _ hk')

lemma Facts.Normal.foldl_addExclusion (h : f.Normal)
    (hks : ∀ k ∈ ks, k.Normal) : (ks.foldl ValueFacts.addExclusion f).Normal := by
  induction ks generalizing f with
  | nil => exact h
  | cons k ks ih =>
    exact ih (h.addExclusion (hks k (mem_cons_self ..)))
      fun k' hk' => hks k' (mem_cons_of_mem _ hk')

lemma foldl_addExclusion (f : Facts) (ks : List Integer) :
    (ks.foldl addExclusion f).exact = f.exact ∧ (ks.foldl addExclusion f).base = f.base := by
  induction ks generalizing f with
  | nil => exact ⟨rfl, rfl⟩
  | cons k ks ih =>
    obtain ⟨h1, h2⟩ := ih (addExclusion f k)
    exact ⟨h1.trans (exact_addExclusion f k), h2.trans (base_addExclusion f k)⟩

lemma unknown_has {base : Base} (h : base.Holds z) : (unknown base).Has z := by
  obtain ⟨h1, h2⟩ := (fullInterval_iff base z).mpr h
  exact ⟨h1, h2, nofun, nofun⟩

lemma unknown_normal : (unknown base).Normal :=
  ⟨(fullInterval_normal base).1, (fullInterval_normal base).2, nofun, nofun⟩

structure IsExact (b : Base) (value : Integer) (f : Facts) : Prop where
  base : f.base = b
  exact : f.exact = some value
  holds : b.Holds value.toInt
  has : f.Has value.toInt
  normal : f.Normal

lemma exact_ok {base : Base} {value : Integer} (hn : value.Normal)
    (h : exact base value = .ok f) : IsExact base value f := by
  unfold exact at h
  simp only at h
  obtain ⟨hlo, hhi⟩ := fullInterval_normal base
  have hhas : Facts.Has ⟨base, ⟨value, value⟩, some value, []⟩ value.toInt :=
    ⟨le_rfl, le_rfl, fun k hk => by rw [Option.some.inj hk], nofun⟩
  have hnormal : Facts.Normal ⟨base, ⟨value, value⟩, some value, []⟩ :=
    ⟨hn, hn, fun k hk => Option.some.inj hk ▸ hn, nofun⟩
  split_ifs at h with hout hz
  all_goals
    simp only [compareInteger_lt hn hlo, compareInteger_gt hn hhi, not_or, not_lt] at hout
    cases h
  · exact ⟨rfl, rfl, (fullInterval_iff base _).mp hout, hhas, hnormal⟩
  · rw [equalInteger_iff hn normal_zero] at hz
    exact ⟨by simp, by simp, (fullInterval_iff base _).mp hout, hhas.addExclusion hz,
      hnormal.addExclusion normal_zero⟩

lemma interval_ok {base : Base} {lo hi : Integer} (hlo : lo.Normal) (hhi : hi.Normal)
    (h : interval base lo hi = .ok f) (hz1 : lo.toInt ≤ z) (hz2 : z ≤ hi.toInt) :
    f.base = base ∧ f.Has z ∧ f.Normal := by
  unfold interval at h
  simp only at h
  have hfacts : ∀ z, lo.toInt ≤ z → z ≤ hi.toInt →
      Facts.Has ⟨base, ⟨lo, hi⟩, if equalInteger lo hi then some lo else none, []⟩ z := by
    intro z h1 h2
    refine ⟨h1, h2, fun k hk => ?_, nofun⟩
    split_ifs at hk with heq
    · rw [equalInteger_iff hlo hhi] at heq
      rw [← Option.some.inj hk]
      omega
    · cases hk
  have hnormal : Facts.Normal ⟨base, ⟨lo, hi⟩, if equalInteger lo hi then some lo else none, []⟩ := by
    refine ⟨hlo, hhi, fun k hk => ?_, nofun⟩
    split_ifs at hk
    · exact Option.some.inj hk ▸ hlo
    · cases hk
  generalize (if equalInteger lo hi then some lo else none : Option Integer) = ex
    at h hfacts hnormal
  split_ifs at h with hout hz
  all_goals cases h
  · refine ⟨by simp, (hfacts z hz1 hz2).addExclusion ?_, hnormal.addExclusion normal_zero⟩
    simp only [intervalExcludes, compareInteger_lt normal_zero hlo,
      compareInteger_gt normal_zero hhi, decide_eq_true_eq] at hz
    simp only [toInt_zero] at hz ⊢
    omega
  · exact ⟨rfl, hfacts z hz1 hz2, hnormal⟩

lemma map_some_ok {x : Except InvalidArgument Facts} (h : x.map some = .ok (some f)) : x = .ok f := by
  cases x with
  | error e => cases h
  | ok g =>
    cases h
    rfl

lemma toNat_mul_of_le_div {x y limit : BitVec 64} (hy : 0 < y.toNat)
    (h : x.toNat ≤ (limit.udiv y).toNat) : (x * y).toNat = x.toNat * y.toNat := by
  rw [BitVec.udiv_eq, BitVec.toNat_udiv, le_div_iff_mul_le hy] at h
  rw [BitVec.toNat_mul, mod_eq_of_lt (h.trans_lt limit.isLt)]

lemma Integer.Normal.pos (h : x.Normal) (hs : x.sign ≠ .zero) : 0 < x.magnitude.toNat := by
  rcases h.cases with h | h | h
  · exact h.2
  · exact absurd h.1 hs
  · exact h.2

lemma product_normal {y : Integer} (hx : x.Normal) (hy : y.Normal) (hxs : x.sign ≠ .zero)
    (hys : y.sign ≠ .zero)
    (hmul : (x.magnitude * y.magnitude).toNat = x.magnitude.toNat * y.magnitude.toNat)
    {k : Integer} (hk : k = ⟨if x.sign = y.sign then .positive else .negative, x.magnitude * y.magnitude⟩) :
    k.Normal ∧ k.toInt = x.toInt * y.toInt := by
  have hne : x.magnitude * y.magnitude ≠ 0 := by
    intro h0
    rw [h0] at hmul
    exact absurd hmul (Nat.mul_pos (hx.pos hxs) (hy.pos hys)).ne
  subst hk
  constructor
  · refine ⟨fun h0 => absurd h0 hne, fun hs => ?_⟩
    simp only at hs
    split_ifs at hs
  · simp only [Integer.toInt, hmul]
    cases hsx : x.sign <;> cases hsy : y.sign <;> simp_all

lemma multiplyExact_ok {a b f : Facts} {y : Integer} (hx : a.exact = some x)
    (hy : b.exact = some y) (hxn : x.Normal) (hyn : y.Normal)
    (h : multiplyExact a b = .ok (some f)) :
    ∃ k : Integer, k.toInt = x.toInt * y.toInt ∧ IsExact a.base k f := by
  unfold multiplyExact at h
  rw [hx, hy] at h
  cases hb : sameBase a.base b.base with
  | false => simp [hb] at h
  | true =>
    simp only [hb, Bool.not_true, Bool.false_eq_true, if_false] at h
    by_cases hz : x.sign = .zero ∨ y.sign = .zero
    · rw [if_pos hz] at h
      refine ⟨zero, ?_, exact_ok normal_zero (map_some_ok h)⟩
      rw [toInt_zero]
      rcases hz with hz | hz <;> simp [Integer.toInt, hz]
    · rw [if_neg hz] at h
      obtain ⟨hxs, hys⟩ := not_or.mp hz
      generalize (if x.sign = y.sign then (fullInterval a.base).hi.magnitude
        else (fullInterval a.base).lo.magnitude) = limit at h
      by_cases hfit : x.magnitude.toNat ≤ (limit.udiv y.magnitude).toNat
      · rw [if_pos hfit] at h
        obtain ⟨hn, hmul⟩ := product_normal hxn hyn hxs hys
          (toNat_mul_of_le_div (hyn.pos hys) hfit) rfl
        exact ⟨_, hmul, exact_ok hn (map_some_ok h)⟩
      · rw [if_neg hfit] at h
        cases h

lemma multiplyExact_some {a b f : Facts} (h : multiplyExact a b = .ok (some f)) :
    ∃ x y, a.exact = some x ∧ b.exact = some y := by
  unfold multiplyExact at h
  split_ifs at h
  split at h
  · rename_i x y hx hy
    exact ⟨x, y, hx, hy⟩
  · cases h

lemma Facts.Has.ne_of_excludes (h : f.Has z) (hn : f.Normal) (hv : v.Normal) (hx : excludes f v) :
    z ≠ v.toInt := by
  simp only [excludes, intervalExcludes, Bool.or_eq_true, decide_eq_true_eq,
    compareInteger_lt hv hn.lo, compareInteger_gt hv hn.hi, any_eq_true] at hx
  have h1 := h.lower
  have h2 := h.upper
  rcases hx with hx | ⟨k, hk, heq⟩
  · omega
  · rw [equalInteger_iff hv (hn.excluded k hk)] at heq
    rw [heq]
    exact h.excluded k hk

/-! ## Casts -/

lemma raw_eq_ofInt : (match v.sign with
      | .zero => 0
      | .positive => v.magnitude
      | .negative => -v.magnitude) = BitVec.ofInt 64 v.toInt := by
  unfold Integer.toInt
  cases v.sign with
  | negative => simp [BitVec.ofInt_neg]
  | zero => rfl
  | positive => simp

lemma toNat_powerOfTwo (hn : n < 64) : (powerOfTwo n).toNat = 2 ^ n := by
  have h : powerOfTwo n = BitVec.twoPow 64 n := rfl
  rw [h, BitVec.toNat_twoPow, mod_eq_of_lt (Nat.pow_lt_pow_right (by decide) hn)]

lemma toNat_and_mask (hn : n < 64) (x : BitVec 64) : (x &&& (powerOfTwo n - 1)).toNat = x.toNat % 2 ^ n := by
  have hmask : (powerOfTwo n - 1).toNat = 2 ^ n - 1 := by
    rw [BitVec.toNat_sub_of_le, toNat_powerOfTwo hn]
    · rfl
    · rw [BitVec.le_def, toNat_powerOfTwo hn]
      exact Nat.two_pow_pos n
  rw [BitVec.toNat_and, hmask, and_two_pow_sub_one_eq_mod]

lemma and_signBit (hn : n < 64) (x : BitVec 64) (hx : x.toNat < 2 ^ (n + 1)) :
    x &&& powerOfTwo n = 0 ↔ x.toNat < 2 ^ n := by
  have hand : x &&& powerOfTwo n = if x.getLsbD n then powerOfTwo n else 0 :=
    BitVec.and_twoPow x n
  have hne : powerOfTwo n ≠ 0 := by
    intro h0
    have h1 := toNat_powerOfTwo hn
    rw [h0] at h1
    exact (Nat.two_pow_pos n).ne h1
  constructor
  · intro h
    by_contra hle
    have hbit : x.getLsbD n = true :=
      testBit_of_two_pow_le_and_two_pow_add_one_gt (not_lt.mp hle) hx
    rw [hand, if_pos hbit] at h
    exact hne h
  · intro h
    have hbit : x.getLsbD n = false := testBit_lt_two_pow h
    rw [hand, hbit]
    rfl

lemma toNat_masked {bits : Nat} (hbits : bits ≤ 64) (z : Int) : (if bits = 64 then BitVec.ofInt 64 z
      else BitVec.ofInt 64 z &&& (powerOfTwo bits - 1)).toNat = (BitVec.ofInt bits z).toNat := by
  split_ifs with h
  · subst h
    rfl
  · rw [toNat_and_mask (lt_of_le_of_ne hbits h), ← Machine.setWidth_ofInt hbits, BitVec.toNat_setWidth]

lemma castInteger_spec (v : Integer) : (castInteger base v).Normal ∧
      (castInteger base v).toInt = Machine.read base.isSigned (BitVec.ofInt base.bits v.toInt) := by
  obtain ⟨s, bits, hw⟩ := base
  have hbits : bits ≤ 64 := by omega
  have hpos : 0 < bits := by omega
  have hm := toNat_masked hbits v.toInt
  have hlt := (BitVec.ofInt bits v.toInt).isLt
  unfold castInteger
  simp only [raw_eq_ofInt]
  generalize (if bits = 64 then BitVec.ofInt 64 v.toInt
    else BitVec.ofInt 64 v.toInt &&& (powerOfTwo bits - 1)) = m at hm ⊢
  cases s with
  | unsigned =>
    refine ⟨normal_positive m, ?_⟩
    rw [ofUnsignedInt64, toInt_positive, hm]
    rfl
  | signed =>
    have hhalf : 2 ^ bits = 2 * 2 ^ (bits - 1) := by
      rw [← pow_succ', succ_eq_add_one, Nat.sub_add_cancel hpos]
    have hsign := and_signBit (n := bits - 1) (by omega) m
      (by rw [Nat.sub_add_cancel hpos, hm]; exact hlt)
    have hread : Machine.read true (BitVec.ofInt bits v.toInt) =
        if 2 * m.toNat < 2 ^ bits then (m.toNat : Int) else (m.toNat : Int) - (2 ^ bits : Nat) := by
      rw [hm]
      exact BitVec.toInt_eq_toNat_cond _
    change (if m &&& powerOfTwo (bits - 1) = 0 then positive m
      else negative (if bits = 64 then -m else powerOfTwo bits - m)).Normal ∧
      (if m &&& powerOfTwo (bits - 1) = 0 then positive m
        else negative (if bits = 64 then -m else powerOfTwo bits - m)).toInt =
        Machine.read true (BitVec.ofInt bits v.toInt)
    have hmlt : m.toNat < 2 ^ bits := by rw [hm]; exact hlt
    rw [hread]
    by_cases hneg : m.toNat < 2 ^ (bits - 1)
    · rw [if_pos (hsign.mpr hneg), if_pos (show 2 * m.toNat < 2 ^ bits by omega)]
      exact ⟨normal_positive m, toInt_positive m⟩
    · rw [if_neg (hneg ∘ hsign.mp), if_neg (show ¬ 2 * m.toNat < 2 ^ bits by omega)]
      refine ⟨normal_negative _, ?_⟩
      have hflip : (if bits = 64 then -m else powerOfTwo bits - m).toNat = 2 ^ bits - m.toNat := by
        have hhalfpos := Nat.two_pow_pos (bits - 1)
        split_ifs with h64
        · subst h64
          rw [BitVec.toNat_neg, mod_eq_of_lt (by omega)]
        · have hp := toNat_powerOfTwo (lt_of_le_of_ne hbits h64)
          rw [BitVec.toNat_sub_of_le (by rw [BitVec.le_def, hp]; exact hmlt.le), hp]
      rw [toInt_negative, hflip]
      omega

end Takibi.ValueFacts
