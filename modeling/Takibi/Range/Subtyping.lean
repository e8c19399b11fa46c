import Takibi.Range.Sound

/-! Implicit conversion of refined integers. `unify` decides it by the target:
for some targets it tests both ends of the range, for others one or none. -/

namespace Takibi.Range
open Numeric Takibi.Types Syntax

/-- `t` represents `z`, and `z` is in the range of `t` when that is refined. -/
def Represents (tgt : Target) : Ty → Int → Prop
  | .int t, z => t.Holds tgt z
  | .refinedInt lo hi base, z => (lo.toInt ≤ z ∧ z < hi.toInt) ∧ base.Holds tgt z
  | _, _ => False

/-- The bounds that `unify` leaves to the range being small. -/
def Untested (tgt : Target) (lo hi : Native) : Ty → Prop
  | .int .i32 => -2 ^ 31 ≤ lo.toInt ∧ hi.toInt ≤ 2 ^ 31
  | .int .isize => tgt = .bits32 → -2 ^ 31 ≤ lo.toInt ∧ hi.toInt ≤ 2 ^ 31
  | .int .u32 | .int .u32be => hi.toInt ≤ 2 ^ 32
  | .int .usize => tgt = .bits32 → hi.toInt ≤ 2 ^ 32
  | .int _ => True
  | .refinedInt _ _ base => Inside tgt base lo hi
  | _ => True

variable {tgt : Target} {lo hi : Native} {base t : IntTy}

lemma forall_holds_iff (hne : lo.toInt < hi.toInt) :
    (∀ z, lo.toInt ≤ z → z < hi.toInt → t.Holds tgt z) ↔ Inside tgt t lo hi := by
  constructor
  · intro h
    have h2 := (h (hi.toInt - 1) (by omega) (by omega)).2
    exact ⟨(h lo.toInt le_rfl hne).1, Int.le_of_sub_one_lt h2⟩
  · intro h z hz1 hz2
    exact ⟨h.lower.trans hz1, hz2.trans_le h.upper⟩

def Tested (lo hi : Native) : IntTy → Prop
  | .i32 | .i64 | .isize => True
  | .u8 => 0 ≤ lo.toInt ∧ hi.toInt ≤ 256
  | .u16 | .u16be => 0 ≤ lo.toInt ∧ hi.toInt ≤ 65536
  | .u32 | .u64 | .usize | .u32be => 0 ≤ lo.toInt
  | .i8 => -128 ≤ lo.toInt ∧ hi.toInt ≤ 128
  | .i16 => -32768 ≤ lo.toInt ∧ hi.toInt ≤ 32768

lemma ok_of_ite {p : Prop} [Decidable p] {e : UnifyError}
    (h : (if p then Except.ok () else .error e) = .ok ()) : p := by
  by_contra hp
  rw [if_neg hp] at h
  cases h

lemma unifyRefinedInt_tested (h : unifyRefinedInt lo hi base t = .ok ()) : Tested lo hi t := by
  unfold unifyRefinedInt at h
  simp only at h
  split at h <;>
    first
    | exact trivial
    | (have hp := ok_of_ite h; exact hp)
    | exact (ok_of_ite h).elim
    | cases h

lemma inside_iff_untested (h : Tested lo hi t) : Inside tgt t lo hi ↔ Untested tgt lo hi (.int t) := by
  have hlo := Native.lower lo
  have hhi := Native.upper hi
  have hin : Inside tgt t lo hi ↔ (whole tgt t).lo ≤ lo.toInt ∧ hi.toInt ≤ (whole tgt t).hi :=
    ⟨fun h => ⟨h.lower, h.upper⟩, fun h => ⟨h.1, h.2⟩⟩
  rw [hin]
  cases t <;> cases tgt <;>
    simp only [Tested, Untested, whole, Machine.least, Machine.limit, IntTy.signed, IntTy.bits,
      Target.pointerBitWidth, if_true, if_false, Bool.false_eq_true, reduceCtorEq,
      forall_true_left, false_implies, iff_true] at h ⊢ <;>
    omega

end Takibi.Range
