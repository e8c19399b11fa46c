import Takibi.Range.Sound
import Takibi.Range.ValueFacts

/-! The facts of an expression. The recursion carries one type down: the facts of
a cast's operand are taken at the type of the outermost cast, not at its own. -/

namespace Takibi.Range
open Numeric Takibi.Types Syntax ValueFacts

/-! ## Facts of expressions -/

variable (tgt : Target)

def factsBase (t : IntTy) : Base where
  signedness := if t.signed then .signed else .unsigned
  bits := t.bits tgt
  width := by cases t <;> cases tgt <;> decide

def valueFactsBaseOfTy (t : NumTy) : Option Base := (canonTy t).map (factsBase tgt)

def foldWithinFactsBase (tbl : ConstTable) (base : Base) (e : Expr) : Option Native :=
  let limit := productLimitOfBaseBits base.isSigned base.bits
  foldedValueWithin tbl (if base.isSigned then -limit else 0) limit e

def mathematical (base : Base) (value : BitVec 64) : Integer :=
  match base.signedness with
  | .signed => ofSignedInt64 value
  | .unsigned => ofUnsignedInt64 value

def orUnknown (base : Base) (facts : Except InvalidArgument Facts) : Facts :=
  match facts with
  | .ok f => f
  | .error _ => unknown base

def foldFacts (tbl : ConstTable) (base : Base) (e : Expr) : Facts :=
  match foldWithinFactsBase tbl base e with
  | some value => orUnknown base (exact base (mathematical base (value.signExtend 64)))
  | none => unknown base

abbrev FactsResult := Except InvalidArgument (Option Facts)

/-- What is known of a name: a constant, or a local with the facts of its recorded
initializer and the values that the path excludes. -/
inductive VarFacts
  | constant
  | bound (source : Option FactsResult) (excluded : List Integer)

section Facts
variable (tgt : Target) (tbl : ConstTable)

/-- The facts at a type of base `base` that is not refined. The recursion passes
the type on as it is, to the operand of a cast too. -/
def plainFacts (var : String → VarFacts) (base : Base) : Expr → FactsResult
  | .intLit value => .ok (some (orUnknown base (exact base (mathematical base value))))
  | .binOp .mul left right => do
    match ← plainFacts var base left, ← plainFacts var base right with
    | some lhs, some rhs => return some ((← multiplyExact lhs rhs).getD (unknown base))
    | _, _ => return some (unknown base)
  | .cast _ (.intLit value) => do
    let facts ← exact base (castInteger base (mathematical base value))
    return some ((← castExact base facts).getD (unknown base))
  | .cast _ inner => do
    match ← plainFacts var base inner with
    | some facts => return some ((← castExact base facts).getD (unknown base))
    | none => return some (unknown base)
  | .var name =>
    match var name with
    | .bound (some source) excluded => do
      return (← source).map fun facts => excluded.foldl addExclusion facts
    | .bound none excluded => .ok (some (excluded.foldl addExclusion (unknown base)))
    | .constant => .ok (some (foldFacts tbl base (.var name)))
  | e => .ok (some (foldFacts tbl base e))

def exprFacts (var : String → VarFacts) (ty : NumTy) (e : Expr) : FactsResult :=
  match valueFactsBaseOfTy tgt ty with
  | none => .ok none
  | some base =>
    match ty with
    | .refinedInt lo hi _ =>
      .ok (some (orUnknown base (interval base (ofSignedInt64 (lo.signExtend 64))
        (ofSignedInt64 ((hi - 1).signExtend 64)))))
    | _ => plainFacts tbl var base e

structure Local where
  name : String
  source : Option (Expr × NumTy)
  excluded : List Integer

def localFacts : List Local → String → VarFacts
  | [], _ => .constant
  | l :: ls, name =>
    if l.name = name then
      .bound (l.source.map fun s => exprFacts tgt tbl (localFacts ls) s.2 s.1) l.excluded
    else localFacts ls name

variable (Γ : List Local)

def valueFactsOfExpr (ty : NumTy) (e : Expr) : FactsResult :=
  exprFacts tgt tbl (localFacts tgt tbl Γ) ty e

/-! The proofs that are recorded. -/

def tryDivisorNonzeroProof (ty : NumTy) (e : Expr) : Except InvalidArgument Bool := do
  match ← valueFactsOfExpr tgt tbl Γ ty e with
  | some facts => return excludes facts zero
  | none => return false

def tryArrayIndexProof (size : Native) (ty : NumTy) (e : Expr) : Except InvalidArgument Bool := do
  match ← valueFactsOfExpr tgt tbl Γ ty e with
  | some facts =>
    return compareInteger facts.interval.lo zero ≠ .lt ∧
      compareInteger facts.interval.hi (ofSignedInt64 (size.signExtend 64)) = .lt
  | none => return false

def tryRefinedCastProof (lo hi : Native) (sourceTy : NumTy) (targetBase : IntTy) (e : Expr) :
    Except InvalidArgument Bool := do
  let facts ← match ← valueFactsOfExpr tgt tbl Γ sourceTy e with
    | some facts => pure (some facts)
    | none => valueFactsOfExpr tgt tbl Γ (.int targetBase) e
  match facts with
  | some facts =>
    return compareInteger facts.interval.lo (ofSignedInt64 (lo.signExtend 64)) ≠ .lt ∧
      compareInteger facts.interval.hi (ofSignedInt64 (hi.signExtend 64)) = .lt
  | none => return false

end Facts

/-! ## Evaluation -/

def wrap (t : IntTy) (z : Int) : Int :=
  Machine.read t.signed (BitVec.ofInt (t.bits tgt) z)

def arith (t : IntTy) (op : BinOp) (x y : Int) : Option Int :=
  match op with
  | .add => some (wrap tgt t (x + y))
  | .sub => some (wrap tgt t (x - y))
  | .mul => some (wrap tgt t (x * y))
  | .div => if y = 0 then none else some (wrap tgt t (x.tdiv y))
  | _ => none

def castBase : Ty → Option IntTy
  | .int t | .refinedInt _ _ t => some t
  | _ => none

def Passes (ty : Ty) (z : Int) : Prop :=
  ∀ lo hi base, ty = .refinedInt lo hi base → lo.toInt ≤ z ∧ z < hi.toInt

abbrev Env := String → Option (IntTy × Int)

/-- What is not evaluated here: calls, loads and the operators that are not folded. -/
def other : Expr → Bool
  | .intLit _ | .var _ | .cast _ _ | .call "i32_min" [] => false
  | .binOp op _ _ => (checkedOp op).isNone
  | _ => true

/-- `e` has type `t` and evaluates to `z`: each operation at its own width, each
cast at its written type. A literal takes the type it is used at, and a call or a
load gives any value of its type. -/
inductive Eval (tgt : Target) (tbl : ConstTable) (decl : String → Option IntTy) (ρ : Env) :
    Expr → IntTy → Int → Prop
  | lit (n t) : Eval tgt tbl decl ρ (.intLit n) t (wrap tgt t n.toInt)
  | const {name n t} : ρ name = none → tbl name = some n → decl name = some t →
      Eval tgt tbl decl ρ (.var name) t (wrap tgt t n.toInt)
  | bound {name t z} : ρ name = some (t, z) → Eval tgt tbl decl ρ (.var name) t z
  | i32Min : Eval tgt tbl decl ρ (.call "i32_min" []) .i32 (-2147483648)
  | arith {op a b t x y z} : Eval tgt tbl decl ρ a t x → Eval tgt tbl decl ρ b t y →
      arith tgt t op x y = some z → Eval tgt tbl decl ρ (.binOp op a b) t z
  | castLit {ty n t} : castBase ty = some t → Passes ty (wrap tgt t n.toInt) →
      Eval tgt tbl decl ρ (.cast ty (.intLit n)) t (wrap tgt t n.toInt)
  | cast {ty e s t x} : (∀ n, e ≠ .intLit n) → castBase ty = some t →
      Eval tgt tbl decl ρ e s x → Passes ty (wrap tgt t x) →
      Eval tgt tbl decl ρ (.cast ty e) t (wrap tgt t x)
  | other {e t z} : other e → t.Holds tgt z → Eval tgt tbl decl ρ e t z

end Takibi.Range
