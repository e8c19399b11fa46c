import Takibi.Syntax.Ast

/-! Compile-time integer constants: the checker folds them on native words, the
machine evaluates them at the width of their type. -/

namespace Takibi.Range
open Numeric Takibi.Types Syntax Native Machine Option

abbrev ConstTable := String → Option (BitVec 64)

def intOfIntlit (k : BitVec 64) : Option Native :=
  let i : Native := k.setWidth 63
  if i.signExtend 64 = k then some i else none

def find (tbl : ConstTable) (name : String) : Option Native := (tbl name).bind intOfIntlit

namespace ConstEnv
variable (a b : Native)

def checkedAdd : Option Native :=
  if (b.toInt > 0 ∧ a.toInt > (maxInt - b).toInt) ∨ (b.toInt < 0 ∧ a.toInt < (minInt - b).toInt) then none
  else some (a + b)

def checkedSub : Option Native :=
  if (b.toInt > 0 ∧ a.toInt < (minInt + b).toInt) ∨ (b.toInt < 0 ∧ a.toInt > (maxInt + b).toInt) then none
  else some (a - b)

def checkedMul : Option Native :=
  if a = 0 ∨ b = 0 then some 0
  else if (a = minInt ∧ b = -1) ∨ (b = minInt ∧ a = -1) then none
  else if (a * b).sdiv b = a then some (a * b) else none

def checkedDiv : Option Native :=
  if b = 0 ∨ (a = minInt ∧ b = -1) then none else some (a.sdiv b)

end ConstEnv

open ConstEnv

def checkedOp : BinOp → Option (Native → Native → Option Native)
  | .add => some checkedAdd
  | .sub => some checkedSub
  | .mul => some checkedMul
  | .div => some checkedDiv
  | _ => none

def foldedValue (tbl : ConstTable) : Expr → Option Native
  | .call "i32_min" [] => some (BitVec.ofInt 63 (-2147483648))
  | .intLit n => intOfIntlit n
  | .var name => find tbl name
  | .binOp op a b => do
    let f ← checkedOp op
    f (← foldedValue tbl a) (← foldedValue tbl b)
  | _ => none

def inside (lo hi : Native) (v : Native) : Option Native :=
  if lo.toInt ≤ v.toInt ∧ v.toInt < hi.toInt then some v else none

def foldedValueWithin (tbl : ConstTable) (lo hi : Native) : Expr → Option Native
  | .binOp op a b =>
    match checkedOp op with
    | some f => do
      let x ← foldedValueWithin tbl lo hi a
      let y ← foldedValueWithin tbl lo hi b
      inside lo hi (← f x y)
    | none => none
  | e => do inside lo hi (← foldedValue tbl e)

def leafMax (tbl : ConstTable) : Expr → Option Native
  | .binOp op a b =>
    match checkedOp op with
    | some _ => do
      let x ← leafMax tbl a
      let y ← leafMax tbl b
      return if x.toInt < y.toInt then y else x
    | none => none
  | e => foldedValue tbl e

def foldedValueUnresolved (tbl : ConstTable) (e : Expr) : Option Native := do
  let m ← leafMax tbl e
  if 0 ≤ m.toInt ∧ m.toInt < 0x80000000 then
    foldedValueWithin tbl 0 (if (128 : Native).toInt < (m + 1).toInt then m + 1 else 128) e
  else none

/-! ## The machine's value of a constant -/

def constEval (tgt : Target) (tbl : ConstTable) (t : IntTy) : Expr → Option (BitVec (t.bits tgt))
  | .call "i32_min" [] => some (BitVec.ofInt _ (-2147483648))
  | .intLit n => some (n.setWidth _)
  | .var name => (tbl name).map fun n => n.setWidth _
  | .binOp .add a b => do return (← constEval tgt tbl t a) + (← constEval tgt tbl t b)
  | .binOp .sub a b => do return (← constEval tgt tbl t a) - (← constEval tgt tbl t b)
  | .binOp .mul a b => do return (← constEval tgt tbl t a) * (← constEval tgt tbl t b)
  | .binOp .div a b => do
    let x ← constEval tgt tbl t a
    let y ← constEval tgt tbl t b
    if y = 0 then none else return div t.signed x y
  | _ => none

/-! ## Folding is the machine's evaluation -/

section Checked
variable {a b r : Native}

lemma checkedAdd_toInt (h : checkedAdd a b = some r) : r.toInt = a.toInt + b.toInt := by
  unfold checkedAdd at h
  split_ifs at h with hw
  rw [← some.inj h]
  have ha := fits_toInt a
  have hb := fits_toInt b
  unfold Native.Fits at ha hb
  simp only [not_or, not_and, not_lt, gt_iff_lt] at hw
  apply toInt_add_of_fits
  constructor
  · rcases lt_or_ge b.toInt 0 with hneg | hpos
    · have := hw.2 hneg
      rw [toInt_sub_of_fits ⟨by simp; omega, by simp; omega⟩, minInt_toInt] at this
      omega
    · omega
  · rcases lt_or_ge 0 b.toInt with hpos | hneg
    · have := hw.1 hpos
      rw [toInt_sub_of_fits ⟨by simp; omega, by simp; omega⟩, maxInt_toInt] at this
      omega
    · omega

lemma checkedSub_toInt (h : checkedSub a b = some r) : r.toInt = a.toInt - b.toInt := by
  unfold checkedSub at h
  split_ifs at h with hw
  rw [← some.inj h]
  have ha := fits_toInt a
  have hb := fits_toInt b
  unfold Native.Fits at ha hb
  simp only [not_or, not_and, not_lt, gt_iff_lt] at hw
  apply toInt_sub_of_fits
  constructor
  · rcases lt_or_ge 0 b.toInt with hpos | hneg
    · have := hw.1 hpos
      rw [toInt_add_of_fits ⟨by simp; omega, by simp; omega⟩, minInt_toInt] at this
      omega
    · omega
  · rcases lt_or_ge b.toInt 0 with hneg | hpos
    · have := hw.2 hneg
      rw [toInt_add_of_fits ⟨by simp; omega, by simp; omega⟩, maxInt_toInt] at this
      omega
    · omega

lemma checkedMul_toInt (h : checkedMul a b = some r) : r.toInt = a.toInt * b.toInt := by
  unfold checkedMul at h
  split_ifs at h with hz hm hq
  · rw [← some.inj h]
    rcases hz with rfl | rfl <;> simp
  · simp only [not_or, not_and] at hz hm
    rw [← some.inj h]
    apply toInt_mul_of_sdiv _ hq
    · rintro ⟨hb, ha⟩
      refine hm.1 (BitVec.toInt_inj.mp ?_) (BitVec.toInt_inj.mp ?_)
      · rw [ha, minInt_toInt]
      · rw [hb]
        decide
    · intro hb
      exact hz.2 (BitVec.toInt_inj.mp (by simpa using hb))

lemma checkedDiv_toInt (h : checkedDiv a b = some r) : b.toInt ≠ 0 ∧ r.toInt = a.toInt.tdiv b.toInt := by
  unfold checkedDiv at h
  split_ifs at h with hw
  simp only [not_or, not_and] at hw
  rw [← some.inj h]
  refine ⟨fun hb => hw.1 (BitVec.toInt_inj.mp (by simpa using hb)), ?_⟩
  apply BitVec.toInt_sdiv_of_ne_or_ne
  by_cases ha : a = minInt
  · exact Or.inr (hw.2 ha)
  · exact Or.inl ha

end Checked

lemma intOfIntlit_toInt {k : BitVec 64} {i : Native} (h : intOfIntlit k = some i) :
    k = BitVec.ofInt 64 i.toInt := by
  unfold intOfIntlit at h
  simp only at h
  split_ifs at h with hk
  rw [← hk, ← some.inj h]
  rfl

section Machine
variable {tgt : Target} {tbl : ConstTable} {t : IntTy}

lemma bits_le (tgt : Target) (t : IntTy) : t.bits tgt ≤ 64 := by
  cases t <;> cases tgt <;> decide

lemma read_literal {k : BitVec 64} {i : Native} (h : intOfIntlit k = some i)
    (hi : t.Holds tgt i.toInt) :
    read t.signed (k.setWidth (t.bits tgt)) = i.toInt := by
  rw [intOfIntlit_toInt h, setWidth_ofInt (bits_le tgt t)]
  exact read_ofInt (t.bits_pos tgt) hi

lemma constEval_leaf {e : Expr} {k : Native} (hop : ∀ op a b, e ≠ .binOp op a b)
    (h : foldedValue tbl e = some k) (hk : t.Holds tgt k.toInt) :
    ∃ w, constEval tgt tbl t e = some w ∧ read t.signed w = k.toInt := by
  unfold foldedValue at h
  split at h
  · refine ⟨_, by rw [constEval], ?_⟩
    rw [← some.inj h] at hk ⊢
    exact read_ofInt (t.bits_pos tgt) hk
  · exact ⟨_, by rw [constEval], read_literal h hk⟩
  · obtain ⟨n, hn, hi⟩ := bind_eq_some_iff.mp h
    exact ⟨_, by rw [constEval, hn]; rfl, read_literal hi hk⟩
  · exact absurd rfl (hop _ _ _)
  · cases h

lemma inside_eq {lo hi v r : Native} (h : inside lo hi v = some r) :
    r = v ∧ lo.toInt ≤ r.toInt ∧ r.toInt < hi.toInt := by
  unfold inside at h
  split_ifs at h with hin
  rw [← some.inj h]
  exact ⟨rfl, hin⟩

lemma constEval_of_foldedValueWithin {lo hi : Native}
    (hin : ∀ z, lo.toInt ≤ z → z < hi.toInt → t.Holds tgt z) {e : Expr} {k : Native}
    (h : foldedValueWithin tbl lo hi e = some k) :
    (lo.toInt ≤ k.toInt ∧ k.toInt < hi.toInt) ∧
      ∃ w, constEval tgt tbl t e = some w ∧ read t.signed w = k.toInt := by
  induction e using foldedValueWithin.induct generalizing k with
  | case1 op a b f hf iha ihb =>
    simp only [foldedValueWithin, hf, bind_eq_bind, bind_eq_some_iff] at h
    obtain ⟨x, hx, y, hy, r, hr, hk⟩ := h
    obtain ⟨_, wa, hwa, hra⟩ := iha hx
    obtain ⟨_, wb, hwb, hrb⟩ := ihb hy
    obtain ⟨rfl, hkin⟩ := inside_eq hk
    have hk' := hin _ hkin.1 hkin.2
    refine ⟨hkin, ?_⟩
    have hpos := t.bits_pos tgt
    cases op <;> simp only [checkedOp, some.injEq, reduceCtorEq] at hf <;> subst hf
    · have hs := checkedAdd_toInt hr
      refine ⟨wa + wb, by simp [constEval, hwa, hwb], ?_⟩
      rw [read_add hpos (by rwa [hra, hrb, ← hs]), hra, hrb, hs]
    · have hs := checkedSub_toInt hr
      refine ⟨wa - wb, by simp [constEval, hwa, hwb], ?_⟩
      rw [read_sub hpos (by rwa [hra, hrb, ← hs]), hra, hrb, hs]
    · have hs := checkedMul_toInt hr
      refine ⟨wa * wb, by simp [constEval, hwa, hwb], ?_⟩
      rw [read_mul hpos (by rwa [hra, hrb, ← hs]), hra, hrb, hs]
    · obtain ⟨hne, hs⟩ := checkedDiv_toInt hr
      have hwb0 : wb ≠ 0 := by
        rintro rfl
        rw [← hrb] at hne
        exact hne (by simp [Machine.read])
      refine ⟨div t.signed wa wb, ?_, ?_⟩
      · simp only [constEval, hwa, hwb, bind_eq_bind, bind_some, if_neg hwb0]
        rfl
      · rw [read_div hpos (by rwa [hra, hrb, ← hs]), hra, hrb, hs]
  | case2 op a b hf => simp [foldedValueWithin, hf] at h
  | case3 e hop =>
    rw [foldedValueWithin] at h
    · obtain ⟨v, hv, hk⟩ := bind_eq_some_iff.mp h
      obtain ⟨rfl, hkin⟩ := inside_eq hk
      exact ⟨hkin, constEval_leaf hop hv (hin _ hkin.1 hkin.2)⟩
    · exact hop

end Machine
end Takibi.Range
