import Takibi.Numeric.AssocMap
import Takibi.Numeric.Native

/-! Linear integer terms of the initialization predicate, over native
coefficients whose arithmetic raises `Overflow` instead of wrapping. A result
`none` of a checked operation is that exception. -/

namespace Takibi.Init
open Numeric AssocMap Option
section Checked

def limit : Native := 1 <<< 60

/-- The largest magnitude of a constant or coefficient, `1 lsl 62 - 1`. -/
def edge : Native := (1 <<< 62) - 1

def chk (v : Native) : Option Native :=
  if v.toInt > edge.toInt ∨ v.toInt < (-edge).toInt then none else some v

def chkAdd (a b : Native) : Option Native :=
  let s := a + b
  -- native wrap: the sign of the sum disagrees with both operands
  if (0 ≤ a.toInt ∧ 0 ≤ b.toInt ∧ s.toInt < 0) ∨ (a.toInt < 0 ∧ b.toInt < 0 ∧ 0 ≤ s.toInt) then
    none
  else chk s

def chkMul (a b : Native) : Option Native :=
  if a = 0 ∨ b = 0 then some 0
  else
    let p := a * b
    if p.sdiv b ≠ a ∨ (a = Native.minInt ∧ b = -1) ∨ (b = Native.minInt ∧ a = -1) then none
    else chk p

lemma chk_eq {v w : Native} (h : chk v = some w) : w = v := by
  unfold chk at h
  split_ifs at h
  exact (some.inj h).symm

lemma chkAdd_toInt {a b s : Native} (h : chkAdd a b = some s) : s.toInt = a.toInt + b.toInt := by
  unfold chkAdd at h
  simp only at h
  split_ifs at h with hw
  rw [chk_eq h]
  apply Native.toInt_add_of_sign <;> omega

lemma chkMul_toInt {a b p : Native} (h : chkMul a b = some p) : p.toInt = a.toInt * b.toInt := by
  unfold chkMul at h
  simp only at h
  split_ifs at h with hz hw
  · rw [← some.inj h]
    rcases hz with rfl | rfl <;> simp
  · simp only [not_or, not_and, not_not] at hz hw
    rw [chk_eq h]
    apply Native.toInt_mul_of_sdiv _ hw.1
    · rintro ⟨hb, ha⟩
      refine hw.2.1 (BitVec.toInt_inj.mp ?_) (BitVec.toInt_inj.mp ?_)
      · rw [ha, Native.minInt_toInt]
      · rw [hb]
        decide
    · intro hb
      exact hz.2 (BitVec.toInt_inj.mp (by simpa using hb))

end Checked

structure Lin (κ : Type) where
  c : Native
  m : List (κ × Native)
  deriving DecidableEq, Repr

namespace Lin
variable {κ : Type}

def const (c : Native) : Lin κ := ⟨c, []⟩
def atom (a : κ) : Lin κ := ⟨0, [(a, 1)]⟩

variable (ρ : κ → Int)

def eval (x : Lin κ) : Int :=
  x.c.toInt + weigh BitVec.toInt ρ x.m

@[simp] lemma eval_const (c : Native) : (const c : Lin κ).eval ρ = c.toInt := by
  simp [eval, const, weigh]

@[simp] lemma eval_atom (a : κ) : (atom a).eval ρ = ρ a := by
  simp [eval, atom, weigh]

variable [LinearOrder κ]

def add (x y : Lin κ) : Option (Lin κ) := do
  let c ← chkAdd x.c y.c
  let m ← unionM (fun a b => (chkAdd a b).map fun s => if s = 0 then none else some s) x.m y.m
  return ⟨c, m⟩

def scale (k : Native) (x : Lin κ) : Option (Lin κ) :=
  if k = 0 then some (const 0)
  else do
    let c ← chkMul k x.c
    let m ← mapM (fun a => chkMul k a) x.m
    return ⟨c, m⟩

def sub (x y : Lin κ) : Option (Lin κ) := do
  add x (← scale (-1) y)

def coeff (a : κ) (x : Lin κ) : Native := (find? a x.m).getD 0

def subst (a : κ) (t x : Lin κ) : Option (Lin κ) :=
  match find? a x.m with
  | none => some x
  | some k => do
    let s ← scale k t
    add { x with m := remove a x.m } s

variable (ρ : κ → Int)

lemma eval_add {x y z : Lin κ} (h : add x y = some z) : z.eval ρ = x.eval ρ + y.eval ρ := by
  simp only [add, bind_eq_bind, bind_eq_some_iff, pure_def, some.injEq] at h
  obtain ⟨c, hc, m, hm, rfl⟩ := h
  have hw := weigh_unionM (w := BitVec.toInt) ρ (fun {a b r} hr => by
    obtain ⟨s, hs, rfl⟩ := map_eq_some_iff.mp hr
    rw [← chkAdd_toInt hs]
    split_ifs with h0
    · simp [h0]
    · rfl) hm
  simp only [eval, chkAdd_toInt hc, hw]
  ring

omit [LinearOrder κ] in
lemma eval_scale {k : Native} {x z : Lin κ} (h : scale k x = some z) : z.eval ρ = k.toInt * x.eval ρ := by
  unfold scale at h
  split_ifs at h with hk
  · rw [← some.inj h, hk]
    simp
  · simp only [bind_eq_bind, bind_eq_some_iff, pure_def, some.injEq] at h
    obtain ⟨c, hc, m, hm, rfl⟩ := h
    have hw := weigh_mapM (ρ := ρ) (w := BitVec.toInt) (c := k.toInt) (fun hb => chkMul_toInt hb) hm
    simp only [eval, chkMul_toInt hc, hw]
    ring

lemma eval_sub {x y z : Lin κ} (h : sub x y = some z) : z.eval ρ = x.eval ρ - y.eval ρ := by
  simp only [sub, bind_eq_bind, bind_eq_some_iff] at h
  obtain ⟨s, hs, hz⟩ := h
  have h1 : (-1 : Native).toInt = -1 := by decide
  rw [eval_add ρ hz, eval_scale ρ hs, h1]
  ring

lemma eval_remove (a : κ) (x : Lin κ) : x.eval ρ = (coeff a x).toInt * ρ a +
      ({ x with m := remove a x.m } : Lin κ).eval ρ := by
  unfold coeff
  cases hf : find? a x.m with
  | none =>
    rw [remove_of_find?_none hf]
    simp
  | some k =>
    simp only [eval, weigh_remove hf, getD_some]
    ring

lemma eval_subst {a : κ} {t x z : Lin κ} (hρ : ρ a = t.eval ρ) (h : subst a t x = some z) :
    z.eval ρ = x.eval ρ := by
  unfold subst at h
  cases hf : find? a x.m with
  | none =>
    rw [hf] at h
    rw [← some.inj h]
  | some k =>
    simp only [hf, bind_eq_bind, bind_eq_some_iff] at h
    obtain ⟨s, hs, hz⟩ := h
    rw [eval_add ρ hz, eval_scale ρ hs, eval_remove ρ a x, coeff, hf, hρ, getD_some]
    ring

end Lin
end Takibi.Init
