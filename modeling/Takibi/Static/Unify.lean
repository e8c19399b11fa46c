import Takibi.Static.Poly

/-! Unification of static terms. -/

namespace Takibi.Static
open Numeric Effect SparsePoly Mut

/-- The monomial is one unbound variable with coefficient 1 or -1, and the
variable appears in no other monomial. -/
def solvable (p : StaticPoly) (q : List Key × Native) : Bool :=
  match q.1 with
  | [k] => (ofLex k).1 && (decide (q.2 = 1) || decide (q.2 = -1)) &&
      p.all fun r => decide (r.1 = q.1) || decide (k ∉ r.1)
  | _ => false

def solution (p : StaticPoly) (k : Key) (coef : Native) : StaticTerm :=
  let rest := p.filter fun q => decide (q.1 ≠ [k])
  staticOfPoly (if coef = 1 then neg rest else rest)

def unifyStaticPoly (fuel : Nat) (s1 s2 : StaticTerm) : M Unit := do
  let p ← staticPoly fuel (.sub s1 s2)
  if p = [] then return ()
  else
    match p.filter (solvable p) with
    | ([k], coef) :: _ => do
      match ← staticRepr fuel (atomTerm k) with
      | .var r => modify (Store.link r (solution p k coef))
      | _ => stuck
    | _ => raise (.mismatch s1 s2)

def isArithmetic : StaticTerm → Bool
  | .add _ _ | .sub _ _ | .mul _ _ => true
  | _ => false

/-- The pairs of operands of two terms of the same shape; the error of the
normal form is raised again otherwise. -/
def factors (fuel : Nat) (s1 s2 : StaticTerm) (polyError : UnifyError) :
    M ((StaticTerm × StaticTerm) × StaticTerm × StaticTerm) := do
  let t2 ← staticRepr fuel s2
  let t1 ← staticRepr fuel s1
  match t1, t2 with
  | .mul a1 b1, .mul a2 b2 => return ((a1, a2), (b1, b2))
  | .add a1 b1, .add a2 b2 => return ((a1, a2), (b1, b2))
  | .sub a1 b1, .sub a2 b2 => return ((a1, a2), (b1, b2))
  | _, _ => raise polyError

/-- `SVar r` against `t`; `staticRepr` has followed the variable's own link. -/
def unifyVar (again : StaticTerm → StaticTerm → M Unit) (r : Nat) (t : StaticTerm) : M Unit := do
  match (← get).find? r with
  | some t' => again t' t
  | none => modify (Store.link r t)

def unifyAtoms (again : StaticTerm → StaticTerm → M Unit) : StaticTerm → StaticTerm → M Unit
  | .const a, .const b => if a = b then return () else raise (.mismatch (.const a) (.const b))
  | .global a, .global b =>
    if a = b then return () else raise (.mismatch (.global a) (.global b))
  | .enum e1 c1, .enum e2 c2 =>
    if e1 = e2 ∧ c1 = c2 then return () else raise (.mismatch (.enum e1 c1) (.enum e2 c2))
  | .param a, .param b => if a = b then return () else raise (.mismatch (.param a) (.param b))
  | .var r, t => if t = .var r then return () else unifyVar again r t
  | t, .var r => unifyVar again r t
  | a, b => raise (.mismatch a b)

def unifyStatic : Nat → StaticTerm → StaticTerm → M Unit
  | 0, _, _ => stuck
  | fuel + 1, s1, s2 => do
    let t2 ← staticRepr fuel s2
    let t1 ← staticRepr fuel s1
    if isArithmetic t1 || isArithmetic t2 then
      catching (unifyStaticPoly fuel s1 s2) fun polyError => do
        let ops ← factors fuel s1 s2 polyError
        unifyStatic fuel ops.1.1 ops.1.2
        unifyStatic fuel ops.2.1 ops.2.2
    else unifyAtoms (unifyStatic fuel) t1 t2

example : unifyStatic 9 (.mul (.var 0) (.const 16)) (.mul (.var 1) (.const 16)) [] =
    some (.ok (), [(0, .var 1)]) := by decide

end Takibi.Static
