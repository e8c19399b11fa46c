import Mathlib.Tactic

/-! Half-open ranges of integers and the range of each operation on them. -/

namespace Takibi.Numeric
open Int

@[ext]
structure IntRange where
  lo : Int
  hi : Int

namespace IntRange
variable {r s : IntRange} {x y : Int}

def Has (r : IntRange) (z : Int) : Prop := r.lo ≤ z ∧ z < r.hi
def single (k : Int) : IntRange := ⟨k, k + 1⟩

lemma has_single {k z : Int} : (single k).Has z ↔ z = k := by
  simp only [single, Has]
  omega

protected def add (r s : IntRange) : IntRange := ⟨r.lo + s.lo, r.hi + s.hi - 1⟩

protected def sub (r s : IntRange) : IntRange := ⟨r.lo - (s.hi - 1), r.hi - s.lo⟩

protected def mul (r s : IntRange) : IntRange := ⟨r.lo * s.lo, (r.hi - 1) * (s.hi - 1) + 1⟩

lemma has_add (hx : r.Has x) (hy : s.Has y) : (r.add s).Has (x + y) := by
  simp only [Has, IntRange.add] at *
  omega

lemma has_sub (hx : r.Has x) (hy : s.Has y) : (r.sub s).Has (x - y) := by
  simp only [Has, IntRange.sub] at *
  omega

lemma has_mul (hr : 0 ≤ r.lo) (hs : 0 ≤ s.lo) (hx : r.Has x) (hy : s.Has y) : (r.mul s).Has (x * y) := by
  obtain ⟨hx1, hx2⟩ := hx
  obtain ⟨hy1, hy2⟩ := hy
  constructor
  · exact mul_le_mul hx1 hy1 hs (hr.trans hx1)
  · have : x * y ≤ (r.hi - 1) * (s.hi - 1) :=
      mul_le_mul (by omega) (by omega) (hs.trans hy1) (by omega)
    exact lt_add_one_of_le this

lemma has_mul_single {k : Int} (hk : 0 < k) (hx : r.Has x) : (r.mul (single k)).Has (x * k) := by
  obtain ⟨hx1, hx2⟩ := hx
  constructor
  · exact mul_le_mul_of_nonneg_right hx1 hk.le
  · have : x * k ≤ (r.hi - 1) * (k + 1 - 1) := by
      rw [add_sub_cancel_right]
      exact mul_le_mul_of_nonneg_right (by omega) hk.le
    exact lt_add_one_of_le this

lemma has_rem {m : Int} (hm : 0 < m) (hx : 0 ≤ x) : (⟨0, m⟩ : IntRange).Has (x.tmod m) :=
  ⟨tmod_nonneg _ hx, tmod_lt_of_pos _ hm⟩

end IntRange
end Takibi.Numeric
