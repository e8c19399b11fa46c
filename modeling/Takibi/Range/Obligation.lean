import Takibi.Range.Sound

/-! The formula of a range obligation, two bits wider than the base it speaks of. -/

namespace Takibi.Range
open Numeric Takibi.Types Machine BitVec
variable {w : ℕ}

/-- The character `i` of the literal, the first of which is the highest bit. -/
def bitsOf (v : Native) (w : ℕ) (i : Fin w) : Bool :=
  let bit := w - 1 - i
  if 62 ≤ bit then v.toInt < 0 else v.sshiftRight bit &&& 1 = 1

/-- Terms of SMT-LIB over one constant of `w` bits, with the number of their bits. -/
inductive Term (w : ℕ) : ℕ → Type
  | name : Term w w
  | bv {n : ℕ} (bits : Fin n → Bool) : Term w n
  | signExtend {n : ℕ} (k : ℕ) (t : Term w n) : Term w (n + k)
  | zeroExtend {n : ℕ} (k : ℕ) (t : Term w n) : Term w (n + k)

inductive Formula (w : ℕ)
  | and (p q : Formula w)
  | bvsle {n : ℕ} (a b : Term w n)
  | bvslt {n : ℕ} (a b : Term w n)

def Term.eval (v : BitVec w) {n : ℕ} : Term w n → BitVec n
  | .name => v
  | .bv bits => (ofBoolListBE (List.ofFn bits)).cast List.length_ofFn
  | .signExtend k t => (t.eval v).signExtend (_ + k)
  | .zeroExtend k t => (t.eval v).zeroExtend (_ + k)

def Formula.Holds (v : BitVec w) : Formula w → Prop
  | .and p q => p.Holds v ∧ q.Holds v
  | .bvsle a b => (a.eval v).sle (b.eval v)
  | .bvslt a b => (a.eval v).slt (b.eval v)

def ext (signed : Bool) (t : Term w w) : Term w (w + 2) := if signed then .signExtend 2 t else .zeroExtend 2 t

def inRange (signed : Bool) (w : ℕ) (lo hi : Native) : Formula w :=
  .and (.bvsle (.bv (bitsOf lo (w + 2))) (ext signed .name)) (.bvslt (ext signed .name) (.bv (bitsOf hi (w + 2))))

lemma and_one_eq {n : ℕ} (x : BitVec (n + 1)) : decide (x &&& 1 = 1) = x.getLsbD 0 := by
  rw [show (1 : BitVec (n + 1)) = 1#(n + 1) from rfl, and_one_eq_setWidth_ofBool_getLsbD]
  cases x.getLsbD 0 <;> simp

lemma eval_bitsOf (v : Native) (x : ℕ) (u : BitVec w) : (Term.bv (bitsOf v x)).eval u = v.signExtend x := by
  refine eq_of_getMsbD_eq fun i hi => ?_
  rw [Term.eval, getMsbD_cast, getMsbD_ofBoolListBE, List.getD_eq_getElem?_getD, List.getElem?_ofFn, dif_pos hi,
    Option.getD_some, bitsOf, getMsbD_eq_getLsbD, getLsbD_signExtend]
  have hbit : x - 1 - i < x := by omega
  simp only [hi, hbit, decide_true, Bool.true_and]
  generalize x - 1 - i = bit
  by_cases hsign : 62 ≤ bit
  · rw [if_pos hsign, ← msb_eq_toInt]
    split_ifs with hlast
    · rw [show bit = 62 by omega, msb_eq_getLsbD_last]
    · rfl
  · have hlow : bit < 63 := by omega
    rw [if_neg hsign, if_pos hlow, and_one_eq, getLsbD_sshiftRight]
    simp [hlow]

lemma toInt_bitsOf {v : Native} (u : BitVec w) (hlo : -2 ^ (w + 1) ≤ v.toInt) (hhi : v.toInt < 2 ^ (w + 1)) :
    ((Term.bv (bitsOf v (w + 2))).eval u).toInt = v.toInt := by
  rw [eval_bitsOf]
  rcases le_total 63 (w + 2) with hwide | hnarrow
  · exact toInt_signExtend_of_le hwide
  · rw [toInt_signExtend_eq_toInt_bmod_of_le _ hnarrow, Int.bmod_eq_of_le] <;>
    · push_cast
      rw [pow_succ]
      omega

lemma toInt_ext (signed : Bool) (v : BitVec w) : ((ext signed .name).eval v).toInt = read signed v := by
  cases signed with
  | true => exact toInt_signExtend_of_le (Nat.le_add_right w 2)
  | false =>
    change (v.setWidth (w + 2)).toInt = v.toNat
    have hlt : (v.toNat : ℤ) < 2 ^ w := by exact_mod_cast v.isLt
    rw [toInt_setWidth, Int.bmod_eq_of_le] <;>
    · push_cast
      rw [pow_succ, pow_succ]
      omega

variable {tgt : Target} {base : IntTy} {lo hi : Native} {l u : Option Native} {signed : Bool}

lemma Inside.wide (h : Inside tgt base lo hi) :
    -2 ^ (base.bits tgt + 1) ≤ lo.toInt ∧ hi.toInt < 2 ^ (base.bits tgt + 1) := by
  have hpow : (2 : ℤ) ^ (base.bits tgt - 1) ≤ 2 ^ base.bits tgt := by gcongr <;> omega
  have hnext : (2 : ℤ) ^ (base.bits tgt + 1) = 2 ^ base.bits tgt * 2 := pow_succ ..
  have hpos : (0 : ℤ) < 2 ^ base.bits tgt := by positivity
  obtain ⟨hlower, hupper⟩ := h
  rw [whole, least] at hlower
  rw [whole, limit] at hupper
  dsimp only at hlower hupper
  split_ifs at hlower hupper <;> omega

lemma rangeWithinBase_lt (h : rangeWithinBase tgt base l u = some (lo, hi)) : lo.toInt < hi.toInt := by
  unfold rangeWithinBase at h
  split at h
  · split_ifs at h with hlt
    split at h
    · cases h
      exact hlt
    · split_ifs at h
      cases h
      exact hlt
  · cases h

lemma obligationWidth_eq (h : obligationWidth tgt base = some (w, signed)) :
    base.bits tgt = w ∧ base.signed = signed ∧ base.wire = false := by
  cases base <;> cases h <;> exact ⟨rfl, rfl, rfl⟩

/-- At every base that obligations are written for, the formula of an admitted range holds of the words whose reading
is in it. -/
theorem inRange_exact (hwidth : obligationWidth tgt base = some (w, signed))
    (hrange : rangeWithinBase tgt base l u = some (lo, hi)) (v : BitVec w) :
    (inRange signed w lo hi).Holds v ↔ lo.toInt ≤ read signed v ∧ read signed v < hi.toInt := by
  obtain ⟨rfl, rfl, hwire⟩ := obligationWidth_eq hwidth
  have hrefined : refinedOrBase tgt base l u = .refinedInt lo hi base := by rw [refinedOrBase, hrange]
  obtain ⟨-, -, -, hinside⟩ := refinedOrBase_inv hrefined
  obtain ⟨hlower, hupper⟩ := (hinside hwire).wide
  have hlt := rangeWithinBase_lt hrange
  rw [inRange, Formula.Holds, Formula.Holds, Formula.Holds, sle_iff_toInt_le, slt_iff_toInt_lt, toInt_ext,
    toInt_bitsOf v hlower (hlt.trans hupper), toInt_bitsOf v (hlower.trans hlt.le) hupper]

/-- `{-128..<128 as i8}`, at its least value. -/
theorem inRange_exact_i8 : rangeWithinBase .bits64 .i8 (some (-128)) (some 128) = some (-128, 128) ∧
    (inRange true 8 (-128) 128).Holds 0x80#8 := by
  have hrange : rangeWithinBase .bits64 .i8 (some (-128)) (some 128) = some (-128, 128) := by decide
  have hwidth : obligationWidth .bits64 .i8 = some (8, true) := rfl
  exact ⟨hrange, (inRange_exact hwidth hrange 0x80#8).mpr (by decide)⟩

end Takibi.Range
