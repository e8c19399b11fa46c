import Mathlib.Tactic

/-! Native integers of a 64-bit OCaml host: 63-bit two's complement words.
Every operation wraps; the lemmas say when the wrapped result is the integer one. -/

namespace Takibi.Numeric
open Int

abbrev Native := BitVec 63

namespace Native

def minInt : Native := BitVec.ofInt 63 (-(2 ^ 62))
def maxInt : Native := BitVec.ofInt 63 (2 ^ 62 - 1)
def Fits (z : Int) : Prop := -4611686018427387904 ≤ z ∧ z ≤ 4611686018427387903

instance (z : Int) : Decidable (Fits z) := inferInstanceAs (Decidable (_ ∧ _))

@[simp] lemma minInt_toInt : minInt.toInt = -4611686018427387904 := by decide

@[simp] lemma maxInt_toInt : maxInt.toInt = 4611686018427387903 := by decide

lemma fits_toInt (a : Native) : Fits a.toInt := by
  have h1 := BitVec.le_toInt a
  have h2 := BitVec.toInt_lt (x := a)
  norm_num at h1 h2
  exact ⟨h1, by omega⟩

lemma lower (a : Native) : -4611686018427387904 ≤ a.toInt := (fits_toInt a).1

lemma upper (a : Native) : a.toInt ≤ 4611686018427387903 := (fits_toInt a).2

lemma bmod_of_fits {z : Int} (h : Fits z) : z.bmod (2 ^ 63) = z := by
  obtain ⟨h1, h2⟩ := h
  apply bmod_eq_of_le <;> norm_num <;> omega

lemma toInt_ofInt_of_fits {z : Int} (h : Fits z) : (BitVec.ofInt 63 z).toInt = z := by
  rw [BitVec.toInt_ofInt, bmod_of_fits h]

variable {a b : Native}

lemma toInt_add_of_fits (h : Fits (a.toInt + b.toInt)) : (a + b).toInt = a.toInt + b.toInt := by
  rw [BitVec.toInt_add, bmod_of_fits h]

lemma toInt_sub_of_fits (h : Fits (a.toInt - b.toInt)) : (a - b).toInt = a.toInt - b.toInt := by
  rw [BitVec.toInt_sub, bmod_of_fits h]

lemma toInt_mul_of_fits (h : Fits (a.toInt * b.toInt)) : (a * b).toInt = a.toInt * b.toInt := by
  rw [BitVec.toInt_mul, bmod_of_fits h]

lemma toInt_neg_of_ne {a : Native} (h : a.toInt ≠ -4611686018427387904) : (-a).toInt = -a.toInt := by
  have h1 := lower a
  have h2 := upper a
  rw [BitVec.toInt_neg, bmod_of_fits ⟨by omega, by omega⟩]

lemma bmod_word (z : Int) : ∃ m : Int, z.bmod (2 ^ 63) = z - 9223372036854775808 * m :=
  ⟨z.bdiv (2 ^ 63), bmod_eq_self_sub_mul_bdiv z (2 ^ 63)⟩

lemma toInt_add_word (a b : Native) :
    ∃ m : Int, (a + b).toInt = a.toInt + b.toInt - 9223372036854775808 * m := by
  rw [BitVec.toInt_add]
  exact bmod_word _

lemma toInt_mul_word (a b : Native) :
    ∃ m : Int, (a * b).toInt = a.toInt * b.toInt - 9223372036854775808 * m := by
  rw [BitVec.toInt_mul]
  exact bmod_word _

lemma toInt_add_of_sign (hpos : 0 ≤ a.toInt → 0 ≤ b.toInt → 0 ≤ (a + b).toInt)
    (hneg : a.toInt < 0 → b.toInt < 0 → (a + b).toInt < 0) :
    (a + b).toInt = a.toInt + b.toInt := by
  have ha := fits_toInt a
  have hb := fits_toInt b
  have hs := fits_toInt (a + b)
  unfold Fits at ha hb hs
  obtain ⟨m, hm⟩ := toInt_add_word a b
  omega

lemma toInt_mul_of_sdiv (hb : b.toInt ≠ 0) (hq : (a * b).sdiv b = a)
    (hba : ¬ (b.toInt = -1 ∧ a.toInt = -4611686018427387904)) :
    (a * b).toInt = a.toInt * b.toInt := by
  have ha := fits_toInt a
  have hbf := fits_toInt b
  obtain ⟨m, hm⟩ := toInt_mul_word a b
  have hpf := fits_toInt (a * b)
  unfold Fits at ha hbf hpf
  by_cases hne : a * b ≠ BitVec.intMin 63 ∨ b ≠ -1#63
  · have hd := BitVec.toInt_sdiv_of_ne_or_ne (a * b) b hne
    rw [hq] at hd
    have hr := tmod_add_tdiv_mul (a * b).toInt b.toInt
    rw [← hd] at hr
    have hlt : ((a * b).toInt.tmod b.toInt).natAbs < b.toInt.natAbs := by
      rw [natAbs_tmod]
      exact Nat.mod_lt _ (natAbs_pos.mpr hb)
    -- the remainder is the distance between the wrapped and the integer product
    have hrm : (a * b).toInt.tmod b.toInt = -(9223372036854775808 * m) := by linarith
    rw [hrm] at hlt
    have hzero : m = 0 := by omega
    rw [hm, hzero]
    ring
  · simp only [not_or, not_not] at hne
    have hb1 : b.toInt = -1 := by rw [hne.2]; decide
    have hpi : (a * b).toInt = -4611686018427387904 := by rw [hne.1]; decide
    have : a.toInt ≠ -4611686018427387904 := fun h => hba ⟨hb1, h⟩
    rw [hb1] at hm ⊢
    omega

end Native
end Takibi.Numeric
