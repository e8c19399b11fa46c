import Takibi.Range.ValueFacts
import Mathlib.Data.Int.ModEq

/-! Joins of integer facts, and the facts that the operations can build. -/

namespace Takibi.ValueFacts
open Numeric List Int

def keepExcluded (a b : Facts) (kept : List Integer) (value : Integer) : List Integer :=
  if kept.any (equalInteger value) || !(excludes a value && excludes b value) ||
      decide (maxExcludedValues ≤ kept.length) then kept
  else value :: kept

def join (a b : Facts) : Except InvalidArgument Facts :=
  if !sameBase a.base b.base then .error .baseMismatch
  else
    let lo := if compareInteger a.interval.lo b.interval.lo ≠ .gt
      then a.interval.lo else b.interval.lo
    let hi := if compareInteger a.interval.hi b.interval.hi ≠ .lt
      then a.interval.hi else b.interval.hi
    let exact := match a.exact, b.exact with
      | some x, some y => if equalInteger x y then some x else none
      | _, _ => none
    let excluded := (a.excluded ++ b.excluded).foldl (keepExcluded a b) []
    .ok ⟨a.base, ⟨lo, hi⟩, exact, excluded⟩

def proveNonzero (facts : Facts) : Facts := addExclusion facts zero

inductive Integer.Built : Integer → Prop
  | zero : Built zero
  | positive (m : BitVec 64) : Built (positive m)
  | negative (m : BitVec 64) : Built (negative m)
  | ofSignedInt64 (v : BitVec 64) : Built (ofSignedInt64 v)
  | ofUnsignedInt64 (v : BitVec 64) : Built (ofUnsignedInt64 v)
  | castInteger (base : Base) {v : Integer} : Built v → Built (castInteger base v)

inductive Facts.Built : Facts → Prop
  | unknown (base : Base) : Built (unknown base)
  | exact {base : Base} {v : Integer} {f : Facts} : v.Built → ValueFacts.exact base v = .ok f → Built f
  | interval {base : Base} {lo hi : Integer} {f : Facts} :
      lo.Built → hi.Built → ValueFacts.interval base lo hi = .ok f → Built f
  | addExclusion {f : Facts} {v : Integer} : Built f → v.Built → Built (addExclusion f v)
  | proveNonzero {f : Facts} : Built f → Built (proveNonzero f)
  | join {a b f : Facts} : Built a → Built b → ValueFacts.join a b = .ok f → Built f

/-! ## Joins -/

variable {z : Int}

section Join
variable {a b f : Facts}

lemma mem_keepExcluded {kept : List Integer} {value k : Integer}
    (h : k ∈ keepExcluded a b kept value) :
    k ∈ kept ∨ (k = value ∧ excludes a k = true ∧ excludes b k = true) := by
  unfold keepExcluded at h
  split_ifs at h with hkeep
  · exact Or.inl h
  · rcases mem_cons.mp h with rfl | h
    · simp only [Bool.or_eq_true, not_or, Bool.not_eq_true', Bool.not_eq_false, Bool.and_eq_true] at hkeep
      exact Or.inr ⟨rfl, hkeep.1.2⟩
    · exact Or.inl h

lemma mem_join_excluded {k : Integer}
    (h : k ∈ (a.excluded ++ b.excluded).foldl (keepExcluded a b) []) :
    k ∈ a.excluded ++ b.excluded ∧ excludes a k = true ∧ excludes b k = true := by
  have hfold : ∀ (values kept : List Integer), k ∈ values.foldl (keepExcluded a b) kept →
      k ∈ kept ∨ (k ∈ values ∧ excludes a k = true ∧ excludes b k = true) := by
    intro values
    induction values with
    | nil => exact fun kept h => Or.inl h
    | cons value values ih =>
      intro kept h
      rw [foldl_cons] at h
      rcases ih _ h with h | ⟨hmem, hex⟩
      · rcases mem_keepExcluded h with h | ⟨rfl, hex⟩
        · exact Or.inl h
        · exact Or.inr ⟨mem_cons_self .., hex⟩
      · exact Or.inr ⟨mem_cons_of_mem _ hmem, hex⟩
  rcases hfold _ _ h with h | h
  · simp at h
  · exact h

lemma join_ok (ha : a.Normal) (hb : b.Normal) (h : join a b = .ok f) : f.base = a.base ∧
    f.interval.lo.toInt = min a.interval.lo.toInt b.interval.lo.toInt ∧
    f.interval.hi.toInt = max a.interval.hi.toInt b.interval.hi.toInt ∧
    (∀ k ∈ f.exact, k ∈ a.exact ∧ ∃ y ∈ b.exact, k.toInt = y.toInt) ∧
    f.excluded = (a.excluded ++ b.excluded).foldl (keepExcluded a b) [] ∧ f.Normal := by
  have hbase : sameBase a.base b.base = true := by
    by_contra hne
    rw [Bool.not_eq_true] at hne
    simp [join, hne] at h
  simp only [join, hbase, Bool.not_true, Bool.false_eq_true, if_false] at h
  cases h
  have hex : ∀ k ∈ (match a.exact, b.exact with
      | some x, some y => if equalInteger x y then some x else none
      | _, _ => none : Option Integer), k ∈ a.exact ∧ ∃ y ∈ b.exact, k.toInt = y.toInt := by
    intro k hk
    split at hk
    next x y hx hy =>
      split_ifs at hk with heq
      · cases hk
        exact ⟨hx, y, hy, (equalInteger_iff (ha.exact _ hx) (hb.exact _ hy)).mp heq⟩
      · cases hk
    next => cases hk
  refine ⟨rfl, ?_, ?_, hex, rfl, ⟨?_, ?_, fun k hk => ha.exact k (hex k hk).1, fun k hk => ?_⟩⟩
  · simp only [ne_eq, compareInteger_gt ha.lo hb.lo, not_lt]
    split_ifs with hle
    · exact (min_eq_left hle).symm
    · exact (min_eq_right (not_le.mp hle).le).symm
  · simp only [ne_eq, compareInteger_lt ha.hi hb.hi, not_lt]
    split_ifs with hle
    · exact (max_eq_left hle).symm
    · exact (max_eq_right (not_le.mp hle).le).symm
  · simp only
    split_ifs
    · exact ha.lo
    · exact hb.lo
  · simp only
    split_ifs
    · exact ha.hi
    · exact hb.hi
  · rcases mem_append.mp (mem_join_excluded hk).1 with hk | hk
    · exact ha.excluded k hk
    · exact hb.excluded k hk

lemma join_has (ha : a.Normal) (hb : b.Normal) (h : join a b = .ok f)
    (hz : a.Has z ∨ b.Has z) : f.Has z := by
  obtain ⟨-, hlo, hhi, hex, hexcl, hn⟩ := join_ok ha hb h
  refine ⟨?_, ?_, fun k hk => ?_, fun k hk => ?_⟩
  · rw [hlo]
    rcases hz with hz | hz
    · exact (min_le_left _ _).trans hz.lower
    · exact (min_le_right _ _).trans hz.lower
  · rw [hhi]
    rcases hz with hz | hz
    · exact hz.upper.trans (le_max_left _ _)
    · exact hz.upper.trans (le_max_right _ _)
  · obtain ⟨hka, y, hy, heq⟩ := hex k hk
    rcases hz with hz | hz
    · exact hz.exact k hka
    · exact (hz.exact y hy).trans heq.symm
  · have hkn := hn.excluded k hk
    rw [hexcl] at hk
    obtain ⟨-, hxa, hxb⟩ := mem_join_excluded hk
    rcases hz with hz | hz
    · exact hz.ne_of_excludes ha hkn hxa
    · exact hz.ne_of_excludes hb hkn hxb

end Join

variable {v : Integer}

lemma Facts.Has.of_addExclusion {f : Facts}
    (h : (ValueFacts.addExclusion f v).Has z) : f.Has z := by
  unfold ValueFacts.addExclusion at h
  split_ifs at h
  · exact h
  · exact h
  · exact ⟨h.lower, h.upper, h.exact, fun k hk => h.excluded k (mem_cons_of_mem _ hk)⟩

/-! ## Normal forms -/

lemma Integer.Built.normal (h : v.Built) : v.Normal := by
  cases h with
  | zero => exact normal_zero
  | positive m => exact normal_positive m
  | negative m => exact normal_negative m
  | ofSignedInt64 v => exact normal_ofSignedInt64 v
  | ofUnsignedInt64 v => exact normal_positive v
  | castInteger base _ => exact (castInteger_spec base _).1

lemma Facts.Built.normal {f : Facts} (h : f.Built) : f.Normal := by
  induction h with
  | unknown base => exact unknown_normal base
  | exact hv h => exact (exact_ok hv.normal h).normal
  | @interval base lo hi f hlo hhi h =>
    have hle : lo.toInt ≤ hi.toInt := by
      by_contra hgt
      unfold ValueFacts.interval at h
      rw [if_pos (Or.inl ((compareInteger_gt hlo.normal hhi.normal).mpr (not_le.mp hgt)))] at h
      cases h
    exact (interval_ok hlo.normal hhi.normal h le_rfl hle).2.2
  | addExclusion _ hv ih => exact ih.addExclusion hv.normal
  | proveNonzero _ ih => exact ih.addExclusion normal_zero
  | join _ _ h iha ihb => exact (join_ok iha ihb h).2.2.2.2.2

/-! ## Casts and products -/

lemma castInteger_modEq (base : Base) (v : Integer) :
    (castInteger base v).toInt ≡ v.toInt [ZMOD 2 ^ base.bits] := by
  rw [(castInteger_spec base v).2]
  have h := congrArg BitVec.toNat (Machine.ofInt_read base.isSigned (BitVec.ofInt base.bits v.toInt))
  rw [BitVec.toNat_ofInt, BitVec.toNat_ofInt] at h
  have hpos : (0 : Int) < ((2 ^ base.bits : Nat) : Int) := by positivity
  have h1 := emod_nonneg (Machine.read base.isSigned (BitVec.ofInt base.bits v.toInt)) hpos.ne'
  have h2 := emod_nonneg v.toInt hpos.ne'
  have hmod := congrArg (Nat.cast : Nat → Int) h
  rw [toNat_of_nonneg h1, toNat_of_nonneg h2] at hmod
  push_cast at hmod
  exact hmod

lemma ofInt_eq_of_modEq {n : Nat} {x y : Int} (h : x ≡ y [ZMOD 2 ^ n]) :
    BitVec.ofInt n x = BitVec.ofInt n y := by
  apply BitVec.eq_of_toNat_eq
  rw [BitVec.toNat_ofInt, BitVec.toNat_ofInt]
  push_cast
  exact congrArg toNat h

lemma castInteger_unique (base : Base) (v : Integer) (hz : base.Holds z)
    (h : z ≡ v.toInt [ZMOD 2 ^ base.bits]) : z = (castInteger base v).toInt := by
  have hpos : 0 < base.bits := by
    obtain ⟨s, bits, hw⟩ := base
    simp only
    omega
  rw [(castInteger_spec base v).2, ← ofInt_eq_of_modEq h, Machine.read_ofInt hpos hz]

lemma fullInterval_magnitudes (base : Base) :
    (fullInterval base).lo.toInt = -((fullInterval base).lo.magnitude.toNat : Int) ∧
      (fullInterval base).hi.toInt = (fullInterval base).hi.magnitude.toNat := by
  obtain ⟨s, bits, hw⟩ := base
  rcases hw with rfl | rfl | rfl | rfl <;> cases s <;> decide

lemma exact_of_holds {base : Base} (hn : v.Normal) (h : base.Holds v.toInt) : ∃ f, exact base v = .ok f := by
  obtain ⟨hlo, hhi⟩ := fullInterval_normal base
  obtain ⟨h1, h2⟩ := (fullInterval_iff base v.toInt).mpr h
  unfold exact
  simp only
  rw [if_neg]
  · exact ⟨_, rfl⟩
  · rw [compareInteger_lt hn hlo, compareInteger_gt hn hhi]
    omega

lemma fits_iff {base : Base} {x y : Integer} (hx : x.Normal) (hy : y.Normal)
    (hxs : x.sign ≠ .zero) (hys : y.sign ≠ .zero) :
    x.magnitude.toNat ≤ ((if x.sign = y.sign then (fullInterval base).hi.magnitude
        else (fullInterval base).lo.magnitude).udiv y.magnitude).toNat ↔
      base.Holds (x.toInt * y.toInt) := by
  obtain ⟨hlo, hhi⟩ := fullInterval_magnitudes base
  have hpx := hx.pos hxs
  have hpy := hy.pos hys
  have hprod : (0 : Int) < x.magnitude.toNat * y.magnitude.toNat := by positivity
  rw [← fullInterval_iff, hlo, hhi, BitVec.udiv_eq, BitVec.toNat_udiv, Nat.le_div_iff_mul_le hpy]
  have hnat : ∀ n : Nat, x.magnitude.toNat * y.magnitude.toNat ≤ n ↔
      (x.magnitude.toNat : Int) * y.magnitude.toNat ≤ n := fun n => by norm_cast
  rw [hnat]
  cases hsx : x.sign <;> cases hsy : y.sign <;>
    simp only [hsx, hsy, ne_eq, not_true_eq_false, reduceCtorEq, if_true, if_false,
      Integer.toInt] at hxs hys ⊢
  · rw [neg_mul_neg]
    omega
  · rw [neg_mul]
    omega
  · rw [mul_neg]
    omega
  · omega

lemma multiplyExact_iff {a b : Facts} (ha : a.Normal) (hb : b.Normal)
    (hbase : sameBase a.base b.base = true) :
    (∃ f, multiplyExact a b = .ok (some f)) ↔
      ∃ x y, a.exact = some x ∧ b.exact = some y ∧ a.base.Holds (x.toInt * y.toInt) := by
  constructor
  · rintro ⟨f, h⟩
    obtain ⟨x, y, hx, hy⟩ := multiplyExact_some h
    obtain ⟨k, hmul, hk⟩ := multiplyExact_ok hx hy (ha.exact x hx) (hb.exact y hy) h
    exact ⟨x, y, hx, hy, hmul ▸ hk.holds⟩
  · rintro ⟨x, y, hx, hy, hholds⟩
    have hxn := ha.exact x hx
    have hyn := hb.exact y hy
    unfold multiplyExact
    rw [hx, hy]
    simp only [hbase, Bool.not_true, Bool.false_eq_true, if_false]
    by_cases hz : x.sign = .zero ∨ y.sign = .zero
    · have hzero : a.base.Holds zero.toInt := by
        rw [toInt_zero]
        rcases hz with hz | hz <;> simpa [Integer.toInt, hz] using hholds
      obtain ⟨f, hf⟩ := exact_of_holds normal_zero hzero
      exact ⟨f, by rw [if_pos hz, hf]; rfl⟩
    · obtain ⟨hxs, hys⟩ := not_or.mp hz
      have hfit := (fits_iff hxn hyn hxs hys).mpr hholds
      obtain ⟨hn, hmul⟩ := product_normal hxn hyn hxs hys
        (toNat_mul_of_le_div (hyn.pos hys) hfit) rfl
      rw [← hmul] at hholds
      obtain ⟨f, hf⟩ := exact_of_holds hn hholds
      exact ⟨f, by rw [if_neg hz, if_pos hfit, hf]; rfl⟩

lemma exists_built (hlo : -2 ^ 63 ≤ z) (hhi : z < 2 ^ 64) : ∃ v : Integer, v.Built ∧ v.toInt = z := by
  rcases le_or_gt 0 z with hz | hz
  · refine ⟨positive (BitVec.ofNat 64 z.toNat), .positive _, ?_⟩
    rw [toInt_positive, BitVec.toNat_ofNat]
    omega
  · refine ⟨negative (BitVec.ofNat 64 (-z).toNat), .negative _, ?_⟩
    rw [toInt_negative, BitVec.toNat_ofNat]
    omega

/-- What is built stays in normal form, where the comparison is the order of the integers; a join
holds of what either side holds of; an exclusion takes away at most its value; a cast gives the
one integer of the base congruent to the value; and a product is exact where it is known and fits.
-/
theorem valueFacts_overApproximate : (∀ v : Integer, v.Built → v.Normal) ∧
    (∀ f : Facts, f.Built → f.Normal) ∧
    (∀ x y : Integer, x.Normal → y.Normal → compareInteger x y = compare x.toInt y.toInt) ∧
    (∀ a b f : Facts, a.Built → b.Built → join a b = .ok f → ∀ z, a.Has z ∨ b.Has z → f.Has z) ∧
    (∀ (f : Facts) (v : Integer), f.Built → v.Built → ∀ z,
      ((addExclusion f v).Has z → f.Has z) ∧ (f.Has z → z ≠ v.toInt → (addExclusion f v).Has z)) ∧
    (∀ z : Int, -2 ^ 63 ≤ z → z < 2 ^ 64 → ∃ v : Integer, v.Built ∧ v.toInt = z) ∧
    (∀ (base : Base) (v : Integer), v.Built →
      base.Holds (castInteger base v).toInt ∧
      (castInteger base v).toInt ≡ v.toInt [ZMOD 2 ^ base.bits] ∧
      ∀ z, base.Holds z → z ≡ v.toInt [ZMOD 2 ^ base.bits] → z = (castInteger base v).toInt) ∧
    (∀ a b : Facts, a.Built → b.Built → sameBase a.base b.base = true →
      ((∃ f, multiplyExact a b = .ok (some f)) ↔
        ∃ x y, a.exact = some x ∧ b.exact = some y ∧ a.base.Holds (x.toInt * y.toInt)) ∧
      ∀ f x y, multiplyExact a b = .ok (some f) → a.exact = some x → b.exact = some y →
        f.base = a.base ∧ ∃ k, f.exact = some k ∧ k.toInt = x.toInt * y.toInt ∧ f.Normal) := by
  refine ⟨fun v hv => hv.normal, fun f hf => hf.normal, fun x y hx hy => compareInteger_eq hx hy,
    fun a b f ha hb h z hz => join_has ha.normal hb.normal h hz,
    fun f v _ _ z => ⟨fun h => h.of_addExclusion, fun h hne => h.addExclusion hne⟩,
    fun z hlo hhi => exists_built hlo hhi,
    fun base v _ => ⟨?_, castInteger_modEq base v, fun z hz h => castInteger_unique base v hz h⟩,
    fun a b ha hb hbase => ⟨multiplyExact_iff ha.normal hb.normal hbase, ?_⟩⟩
  · rw [(castInteger_spec base v).2]
    exact Machine.holds_read _ _
  · intro f x y h hx hy
    obtain ⟨k, hmul, hk⟩ :=
      multiplyExact_ok hx hy (ha.normal.exact x hx) (hb.normal.exact y hy) h
    exact ⟨hk.base, k, hk.exact, hmul, hk.normal⟩

end Takibi.ValueFacts
