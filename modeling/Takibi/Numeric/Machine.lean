import Mathlib.Tactic
import Mathlib.Data.BitVec

/-! Machine words of any width, read as signed or unsigned integers, and the
integer value of the operations on them. -/

namespace Takibi.Numeric.Machine
open BitVec Nat
variable {w : Nat} {s : Bool}

def read (s : Bool) (x : BitVec w) : Int := if s then x.toInt else x.toNat
def least (s : Bool) (w : Nat) : Int := if s then -2 ^ (w - 1) else 0
def limit (s : Bool) (w : Nat) : Int := if s then 2 ^ (w - 1) else 2 ^ w
def Holds (s : Bool) (w : Nat) (z : Int) : Prop := least s w ≤ z ∧ z < limit s w

instance (s : Bool) (w : Nat) (z : Int) : Decidable (Holds s w z) :=
  inferInstanceAs (Decidable (_ ∧ _))

lemma two_pow_pred (hw : 0 < w) : (2 : Int) ^ w = 2 * 2 ^ (w - 1) := by
  obtain ⟨n, rfl⟩ := exists_eq_succ_of_ne_zero hw.ne'
  rw [succ_sub_one, pow_succ, mul_comm]

lemma holds_read (s : Bool) (x : BitVec w) : Holds s w (read s x) := by
  unfold Holds least limit read
  cases s with
  | true => exact ⟨le_toInt x, toInt_lt⟩
  | false =>
    simp only [Bool.false_eq_true, if_false]
    exact ⟨Int.natCast_nonneg _, by exact_mod_cast x.isLt⟩

lemma ofInt_read (s : Bool) (x : BitVec w) : BitVec.ofInt w (read s x) = x := by
  unfold read
  split_ifs
  · exact ofInt_toInt
  · rw [ofInt_natCast, ofNat_toNat, setWidth_eq]

lemma read_ofInt (hw : 0 < w) {z : Int} (h : Holds s w z) : read s (BitVec.ofInt w z) = z := by
  obtain ⟨h1, h2⟩ := h
  have hp := two_pow_pred hw
  have hpos : (0 : Int) < 2 ^ (w - 1) := by positivity
  unfold read least limit at *
  cases s with
  | true =>
    simp only [if_true] at *
    rw [toInt_ofInt, Int.bmod_eq_of_le]
    · push_cast
      omega
    · push_cast
      omega
  | false =>
    simp only [Bool.false_eq_true, if_false] at *
    rw [toNat_ofInt]
    push_cast
    rw [Int.emod_eq_of_lt h1 h2]
    exact Int.toNat_of_nonneg h1

lemma read_eq (hw : 0 < w) {z : Int} {x : BitVec w} (h : Holds s w z)
    (hx : BitVec.ofInt w z = x) : read s x = z := by
  rw [← hx, read_ofInt hw h]

section Ring
variable {x y : BitVec w}

lemma read_add (hw : 0 < w) (h : Holds s w (read s x + read s y)) : read s (x + y) = read s x + read s y :=
  read_eq hw h (by rw [ofInt_add, ofInt_read, ofInt_read])

lemma ofInt_sub (x y : BitVec w) : BitVec.ofInt w (read s x - read s y) = x - y := by
  rw [Int.sub_eq_add_neg, ofInt_add, ofInt_neg, ofInt_read, ofInt_read, sub_eq_add_neg]

lemma read_sub (hw : 0 < w) (h : Holds s w (read s x - read s y)) : read s (x - y) = read s x - read s y :=
  read_eq hw h (ofInt_sub x y)

lemma read_mul (hw : 0 < w) (h : Holds s w (read s x * read s y)) : read s (x * y) = read s x * read s y :=
  read_eq hw h (by rw [ofInt_mul, ofInt_read, ofInt_read])

end Ring

/-! ## Division and remainder -/

def div (s : Bool) (x y : BitVec w) : BitVec w := if s then x.sdiv y else x.udiv y
def rem (s : Bool) (x y : BitVec w) : BitVec w := if s then x.srem y else x.umod y

lemma ofInt_tdiv (s : Bool) (x y : BitVec w) : BitVec.ofInt w ((read s x).tdiv (read s y)) = div s x y := by
  unfold read div
  cases s with
  | true =>
    apply eq_of_toInt_eq
    simp only [if_true, toInt_ofInt, toInt_sdiv]
  | false =>
    simp only [Bool.false_eq_true, if_false]
    rw [Int.tdiv_eq_ediv_of_nonneg (Int.natCast_nonneg _), ← Int.natCast_ediv,
      ofInt_natCast, ← toNat_udiv, ofNat_toNat, setWidth_eq,
      udiv_eq]

lemma read_div (hw : 0 < w) {x y : BitVec w} (h : Holds s w ((read s x).tdiv (read s y))) :
    read s (div s x y) = (read s x).tdiv (read s y) :=
  read_eq hw h (ofInt_tdiv s x y)

variable (x y : BitVec w)

lemma read_rem : read s (rem s x y) = (read s x).tmod (read s y) := by
  unfold read rem
  cases s with
  | true => simp only [if_true, toInt_srem]
  | false =>
    simp only [Bool.false_eq_true, if_false, umod_eq, toNat_umod]
    rw [Int.tmod_eq_emod_of_nonneg (Int.natCast_nonneg _)]
    norm_cast

/-! ## Masks -/

lemma read_and (x : BitVec w) {y : BitVec w} (hy : 0 ≤ read s y) :
    0 ≤ read s (x &&& y) ∧ read s (x &&& y) ≤ read s y := by
  unfold read at *
  have hle : (x &&& y).toNat ≤ y.toNat := by
    rw [toNat_and]
    exact and_le_right
  cases s with
  | true =>
    simp only [if_true] at *
    have hmsb : y.msb = false := by
      by_contra h
      have := toInt_neg_iff.mpr (msb_eq_true_iff_two_mul_ge.mp (by simpa using h))
      omega
    have hand : (x &&& y).msb = false := by rw [msb_and, hmsb, Bool.and_false]
    rw [toInt_eq_toNat_of_msb hmsb, toInt_eq_toNat_of_msb hand]
    omega
  | false =>
    simp only [Bool.false_eq_true, if_false] at *
    omega

/-! ## Order -/

def lt (s : Bool) (x y : BitVec w) : Bool := if s then x.slt y else x.ult y

lemma lt_iff : lt s x y = true ↔ read s x < read s y := by
  unfold lt read
  cases s with
  | true => simp [slt_iff_toInt_lt]
  | false => simp [ult_iff_lt, lt_def]

def min (s : Bool) (x y : BitVec w) : BitVec w := if lt s x y then x else y
def max (s : Bool) (x y : BitVec w) : BitVec w := if lt s y x then x else y

lemma read_min : read s (min s x y) = Min.min (read s x) (read s y) := by
  unfold min
  split_ifs with h
  · exact (min_eq_left ((lt_iff x y).mp h).le).symm
  · exact (min_eq_right (not_lt.mp fun hlt => h ((lt_iff x y).mpr hlt))).symm

lemma read_max : read s (max s x y) = Max.max (read s x) (read s y) := by
  unfold max
  split_ifs with h
  · exact (max_eq_left ((lt_iff y x).mp h).le).symm
  · exact (max_eq_right (not_lt.mp fun hlt => h ((lt_iff y x).mpr hlt))).symm

/-! ## Conversion -/

def convert (s : Bool) (x : BitVec w) (w' : Nat) : BitVec w' :=
  if s then x.signExtend w' else x.setWidth w'

lemma convert_eq_ofInt (s : Bool) (x : BitVec w) (w' : Nat) :
    convert s x w' = BitVec.ofInt w' (read s x) := by
  unfold convert read
  split_ifs
  · rfl
  · rw [ofInt_natCast]
    exact (ofNat_toNat w' x).symm

lemma setWidth_ofInt {w' : Nat} (h : w ≤ w') (z : Int) :
    (BitVec.ofInt w' z).setWidth w = BitVec.ofInt w z := by
  apply eq_of_toNat_eq
  rw [toNat_setWidth, toNat_ofInt, toNat_ofInt]
  have hz' : (0 : Int) ≤ z % 2 ^ w' := Int.emod_nonneg _ (by positivity)
  have hz : (0 : Int) ≤ z % 2 ^ w := Int.emod_nonneg _ (by positivity)
  zify
  rw [Int.toNat_of_nonneg hz', Int.toNat_of_nonneg hz]
  exact Int.emod_emod_of_dvd z (pow_dvd_pow 2 h)

lemma read_convert {s' : Bool} {w' : Nat} (hw' : 0 < w') {x : BitVec w}
    (h : Holds s' w' (read s x)) : read s' (convert s x w') = read s x :=
  read_eq hw' h (convert_eq_ofInt s x w').symm

end Takibi.Numeric.Machine
