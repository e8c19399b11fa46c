import Takibi.Control.Prog
import Takibi.Flow.Narrow

/-! Executions of checked statements. A variable is a cell that keeps the type
recorded for its binding; a store through a pointer and a call may change cells
that no expression names. Every read of a variable carries the type that the
checker has for it there. -/

namespace Takibi.Flow
open Numeric Takibi.Types Syntax Range Control Function

/-! ## States -/

inductive Val
  | int (z : Int)
  | ptr (loc : Nat)
  | other
  deriving DecidableEq, Repr

def HasTy (tgt : Target) : Ty → Val → Prop
  | .int t, v | .multiple _ t, v => ∃ z, v = .int z ∧ t.Holds tgt z
  | .refinedInt lo hi t, v => ∃ z, v = .int z ∧ t.Holds tgt z ∧ lo.toInt ≤ z ∧ z < hi.toInt
  | _, _ => True

structure Cell (tgt : Target) where
  owner : String
  ty : Ty
  val : Val
  ok : HasTy tgt ty val

structure State (tgt : Target) where
  env : String → Option Nat
  cells : List (Cell tgt)

def State.look {tgt : Target} (s : State tgt) (x : String) : Option (Ty × Val) :=
  (s.env x).bind fun l => s.cells[l]?.map fun c => (c.ty, c.val)

/-! ## Steps -/

inductive Action
  | read (name : String) (ty : Ty)
  | effect (e : Expr)
  | test (e : Expr) (result : Bool)
  | bind (name : String) (ty : Ty) (init : Option Expr)

section Steps
variable {tgt : Target} (tbl : ConstTable) (s : State tgt)

/-- The cells an expression may write once its operands are evaluated: a pointer
store writes where the pointer points, a callee or an indexed store anywhere. -/
def touches : Expr → Nat → Prop
  | .assign (.var x) _, l => s.env x = some l
  | .assign (.deref (.var p)) _, l => ∃ ty, s.look p = some (ty, .ptr l)
  | .assign _ _, _ | .call _ _, _ => True
  | _, _ => False

structure Writes (w : Nat → Prop) (s t : State tgt) : Prop where
  env : t.env = s.env
  length : t.cells.length = s.cells.length
  cell : ∀ l c c', s.cells[l]? = some c → t.cells[l]? = some c' →
    c'.owner = c.owner ∧ c'.ty = c.ty ∧ (c'.val ≠ c.val → w l)

def constant (tgt : Target) (tbl : ConstTable) (t : IntTy) (e : Expr) : Option Int :=
  (constEval tgt tbl t e).map (Machine.read t.signed)

def operandValue (t : IntTy) : Expr → Option Int
  | .var x =>
    match s.look x with
    | some (_, .int z) => some z
    | some _ => none
    | none => constant tgt tbl t (.var x)
  | e => constant tgt tbl t e

def operandTy : Expr → Option IntTy
  | .var x => (s.look x).bind fun c => canon c.1
  | _ => none

def compareInts : BinOp → Int → Int → Option Bool
  | .lt, x, y => some (x < y)
  | .gt, x, y => some (y < x)
  | .le, x, y => some (x ≤ y)
  | .ge, x, y => some (y ≤ x)
  | .eq, x, y => some (x = y)
  | .ne, x, y => some (x ≠ y)
  | _, _, _ => none

/-- How a comparison of variables and constants comes out. Of any other condition
nothing is known. -/
def verdict : Expr → Option Bool
  | .binOp op l r => do
    let t ← operandTy s l <|> operandTy s r
    compareInts op (← operandValue tbl s t l) (← operandValue tbl s t r)
  | _ => none

/-- The steps of an execution. `visible` restricts what the writes of an
expression may be. No local has a constant's name. -/
def step (visible : Expr → State tgt → State tgt → Prop) : Action → State tgt → State tgt → Prop
  | .read _ _, s, t => t = s
  | .effect e, s, t => Writes (touches s e) s t ∧ visible e s t
  | .test e b, s, t => t = s ∧ ∀ b', verdict tbl s e = some b' → b = b'
  | .bind x ty init, s, t => tbl x = none ∧
      ∃ c : Cell tgt, c.owner = x ∧ c.ty = ty ∧
        (∀ y l, init = some (.addrOf (.var y)) → s.env y = some l → c.val = .ptr l) ∧
        t = ⟨update s.env x (some s.cells.length), s.cells ++ [c]⟩

def sem (visible : Expr → State tgt → State tgt → Prop) : Sem Action (State tgt) where
  step := step tbl visible
  leave s t := ⟨s.env, t.cells⟩

end Steps

/-! ## Checked programs -/

section Checked
variable (tgt : Target) (tbl : ConstTable) (resolveBound : Expr → Option Native) (τ : Typing)

mutual

/-- The evaluation of an expression, to the result `want` if one is given. The right
operand of `&&` and `||` is checked where the left one has decided nothing. -/
def evalExpr (Γ : TyEnv) (want : Option Bool) : Expr → Prog Action
  | .var x =>
    .seq (match Γ x with
      | some entry => .act (.read x entry.1)
      | none => .skip) (result want (.var x))
  | .binOp .and a b =>
    .choose (if want = some true then .stop else evalExpr Γ (some false) a)
      (.seq (evalExpr Γ (some true) a)
        (evalExpr (narrowFromCond tgt tbl resolveBound Γ a b.written) want b))
  | .binOp .or a b =>
    .choose (if want = some false then .stop else evalExpr Γ (some true) a)
      (.seq (evalExpr Γ (some false) a) (evalExpr (match negateCond a with
          | some neg => narrowFromCond tgt tbl resolveBound Γ neg b.written
          | none => Γ) want b))
  | .addrOf (.var x) => finish want (.addrOf (.var x)) .skip
  | .assign lhs rhs =>
    finish want (.assign lhs rhs) (.seq (match lhs with
      | .var _ => .skip
      | .index base idx => .seq (evalExpr Γ none base) (evalExpr Γ none idx)
      | .deref p => evalExpr Γ none p
      | .fieldGet b _ => evalExpr Γ none b
      | lhs => evalExpr Γ none lhs) (evalExpr Γ none rhs))
  | .binOp op a b =>
    finish want (.binOp op a b) (.seq (evalExpr Γ none a) (evalExpr Γ none b))
  | .call f args => finish want (.call f args) (evalExprs Γ args)
  | .structLit es => finish want (.structLit es) (evalExprs Γ es)
  | .tupleLit es => finish want (.tupleLit es) (evalExprs Γ es)
  | .variantCtor t c e => finish want (.variantCtor t c e) (evalExpr Γ none e)
  | .bnot e => finish want (.bnot e) (evalExpr Γ none e)
  | .deref e => finish want (.deref e) (evalExpr Γ none e)
  | .addrOf e => finish want (.addrOf e) (evalExpr Γ none e)
  | .cast t e => finish want (.cast t e) (evalExpr Γ none e)
  | .fieldGet e f => finish want (.fieldGet e f) (evalExpr Γ none e)
  | .unsafeExpr e => finish want (.unsafeExpr e) (evalExpr Γ none e)
  | .index base idx =>
    finish want (.index base idx) (.seq (evalExpr Γ none base) (evalExpr Γ none idx))
  | .sliceOf base lo hi =>
    finish want (.sliceOf base lo hi)
      (.seq (evalExpr Γ none base) (.seq (evalExpr Γ none lo) (evalExpr Γ none hi)))
  | e => result want e
where
  result (want : Option Bool) (e : Expr) : Prog Action :=
    match want with
    | some b => .act (.test e b)
    | none => .skip
  finish (want : Option Bool) (e : Expr) (operands : Prog Action) : Prog Action :=
    .seq operands (.seq (.act (.effect e)) (result want e))

def evalExprs (Γ : TyEnv) : List Expr → Prog Action
  | [] => .skip
  | e :: es => .seq (evalExpr Γ none e) (evalExprs Γ es)

end

def bindPayload (Γ : TyEnv) (disc : Expr) (pattern : Pattern) : Prog Action × TyEnv :=
  match pattern with
  | .armVariant _ _ (some (.payloadBind name isMut)) =>
    (.act (.bind name (τ.payload Γ disc pattern) none),
      update Γ name (some (τ.payload Γ disc pattern, isMut)))
  | _ => (.skip, Γ)

def bindAll (Γ₀ : TyEnv) (e : Expr) : Nat → List String → Prog Action
  | _, [] => .skip
  | i, n :: ns => .seq (.act (.bind n (τ.component Γ₀ e i) none)) (bindAll Γ₀ e (i + 1) ns)

mutual

def execStmt (Γ : TyEnv) : Stmt → Prog Action
  | .return none => .ret
  | .return (some e) => .seq (evalExpr tgt tbl resolveBound Γ none e) .ret
  | .expr e | .yield e => evalExpr tgt tbl resolveBound Γ none e
  | .block ss | .unsafeBlock ss => .scope (execStmts Γ ss)
  | .let isMut name ty init =>
    .seq (match init with
      | some e => evalExpr tgt tbl resolveBound Γ none e
      | none => .skip) (.act (.bind name (bindTy τ Γ isMut ty init) init))
  | .letTuple names e => .seq (evalExpr tgt tbl resolveBound Γ none e) (bindAll τ Γ e 0 names)
  | .if c yes no =>
    .choose (.seq (evalExpr tgt tbl resolveBound Γ (some true) c)
        (.scope (execStmts (narrowFromCond tgt tbl resolveBound Γ c (writtenNames yes)) yes)))
      (.seq (evalExpr tgt tbl resolveBound Γ (some false) c) (.scope (execStmts Γ no)))
  | .while c body =>
    let narrowed := narrowFromCond tgt tbl resolveBound Γ c []
    .loop (.choose (.seq (evalExpr tgt tbl resolveBound Γ (some true) c)
        (.scope (execLoop Γ (stillNarrowed Γ narrowed) narrowed body)))
      (.seq (evalExpr tgt tbl resolveBound Γ (some false) c) .brk))
  | .for name ty lo hi body =>
    let counter := τ.counter Γ ty lo hi
    .seq (evalExpr tgt tbl resolveBound Γ none lo) (.seq (evalExpr tgt tbl resolveBound Γ none hi)
      (.loop (.choose (.scope (.seq (.act (.bind name counter none))
        (execStmts (update Γ name (some (counter, false))) body))) .brk)))
  | .forEach name e body =>
    let element := τ.element Γ e
    .seq (evalExpr tgt tbl resolveBound Γ none e)
      (.loop (.choose (.scope (.seq (.act (.bind name element none))
        (execStmts (update Γ name (some (element, false))) body))) .brk))
  | .break => .brk
  | .continue => .cont
  | .staticAssert _ => .skip
  | .match disc arms =>
    .seq (evalExpr tgt tbl resolveBound Γ none disc) (.choices (execArms Γ disc arms))
  | .letMatch _ name ty disc arms =>
    let yielded := τ.yielded Γ ty disc arms
    let Γ' := update Γ name (some (yielded, true))
    .seq (.act (.bind name yielded none))
      (.seq (evalExpr tgt tbl resolveBound Γ' none disc) (.choices (execArms Γ' disc arms)))

def execStmts (Γ : TyEnv) : List Stmt → Prog Action
  | [] => .skip
  | s :: ss =>
    .seq (execStmt Γ s) (execStmts (inferStmt tgt tbl resolveBound τ (writtenNames ss) Γ s) ss)

def execLoop (Γ₀ : TyEnv) (still : String → Bool) (Γ : TyEnv) : List Stmt → Prog Action
  | [] => .skip
  | s :: ss =>
    let Γ' := invalidateBefore Γ₀ still Γ s.written
    .seq (execStmt Γ' s) (execLoop Γ₀ (fun name => still name && name ∉ s.written)
        (inferStmt tgt tbl resolveBound τ (writtenNames ss) Γ' s) ss)

def execArms (Γ : TyEnv) (disc : Expr) : List Arm → List (Prog Action)
  | [] => []
  | .mk pattern body :: arms =>
    let (bind, Γ') := bindPayload τ Γ disc pattern
    .scope (.seq bind (execStmts Γ' body)) :: execArms Γ disc arms

end

def execBody (Γ : TyEnv) (body : List Stmt) : Prog Action :=
  .scope (execStmts tgt tbl resolveBound τ Γ (rewriteStmts body))

end Checked
end Takibi.Flow
