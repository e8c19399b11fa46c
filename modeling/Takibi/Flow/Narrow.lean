import Takibi.Range.Rules
import Takibi.Syntax.Ast

/-! Flow narrowing: what a condition proves about the variables it compares, and
where the checker keeps it. A name that the guarded statements may write is not
narrowed at all; a `while` keeps its condition up to the first statement that may
write the name; the code after an early return keeps the negated condition. -/

namespace Takibi.Flow
open Numeric Takibi.Types Syntax Range Function

abbrev Entry := Ty × Bool
abbrev TyEnv := String → Option Entry

def canon : Ty → Option IntTy
  | .int t | .refinedInt _ _ t | .multiple _ t => some t
  | _ => none

def maxN (x y : Native) : Native := if y.toInt ≤ x.toInt then x else y
def minN (x y : Native) : Native := if x.toInt ≤ y.toInt then x else y

/-! ## Bounds -/

abbrev Bounds := Option Native × Option Native
abbrev BoundsMap := String → Option Bounds

def takeLo : Option Native → Option Native → Option Native
  | some x, some y => some (maxN x y)
  | some x, none => some x
  | none, b => b

def takeHi : Option Native → Option Native → Option Native
  | some x, some y => some (minN x y)
  | some x, none => some x
  | none, b => b

def updateBounds (name : String) (b : Bounds) (acc : BoundsMap) : BoundsMap :=
  let p := (acc name).getD (none, none)
  update acc name (some (takeLo b.1 p.1, takeHi b.2 p.2))

def constrainLeft : BinOp → Native × Native → Option Bounds
  | .ge, (c, _) => some (some c, none)
  | .gt, (c, _) => some (some (c + 1), none)
  | .le, (_, d) => some (none, some d)
  | .lt, (_, d) => some (none, some (d - 1))
  | .eq, (c, d) => some (some c, some d)
  | _, _ => none

def constrainRight : BinOp → Native × Native → Option Bounds
  | .ge, (_, d) => some (none, some d)
  | .gt, (_, d) => some (none, some (d - 1))
  | .le, (c, _) => some (some c, none)
  | .lt, (c, _) => some (some (c + 1), none)
  | .eq, (c, d) => some (some c, some d)
  | _, _ => none

section Checker
variable (tgt : Target) (tbl : ConstTable)

/-- The static range of a comparison operand. A constant folds at the type of the
variable it is compared with. -/
def operandRange (Γ : TyEnv) (against : String) (e : Expr) : Option (Native × Native) :=
  match ((Γ against).bind fun entry => canon entry.1).bind fun t => foldAtBase tgt tbl false t e with
  | some k => some (k, k + 1)
  | none =>
    match e with
    | .var m =>
      match Γ m with
      | some (.refinedInt a b _, _) => some (a, b)
      | _ => none
    | _ => none

def constrain (Γ : TyEnv) (rule : Native × Native → Option Bounds) (side other : Expr)
    (acc : BoundsMap) : BoundsMap :=
  match side with
  | .var n =>
    match (operandRange tgt tbl Γ n other).bind rule with
    | some b => updateBounds n b acc
    | none => acc
  | _ => acc

def collectBounds (Γ : TyEnv) : Expr → BoundsMap → BoundsMap
  | .binOp .and a b, acc => collectBounds Γ b (collectBounds Γ a acc)
  | .binOp op l r, acc =>
    constrain tgt tbl Γ (constrainRight op) r l (constrain tgt tbl Γ (constrainLeft op) l r acc)
  | _, acc => acc

/-! ## Narrowing -/

def withFloor (base : IntTy) (lo : Option Native) : Option Native :=
  lo <|> if base.signed then none else some 0

def narrowEntry : Entry → Bounds → Entry
  | (.refinedInt elo ehi base, m), (lo, hi) =>
    (.refinedInt (lo.elim elo fun lo => maxN lo elo) (hi.elim ehi fun hi => minN hi ehi) base, m)
  | (.int base, m), (lo, hi) =>
    if base.wire then (.int base, m)
    else
      match withFloor base lo, hi with
      | some lo, some hi => (.refinedInt lo hi base, m)
      | _, _ => (.int base, m)
  | entry, _ => entry

/-- The minimum lengths of slices that a condition proves; `resolveBound` is the
value of a constant operand. -/
def sliceLenMins (resolveBound : Expr → Option Native) :
    Expr → (String → Option Native) → String → Option Native
  | .binOp .and a b, acc => sliceLenMins resolveBound b (sliceLenMins resolveBound a acc)
  | .binOp .ge (.fieldGet (.var n) "len") e, acc => update n (resolveBound e) acc
  | .binOp .gt (.fieldGet (.var n) "len") e, acc => update n ((resolveBound e).map (· + 1)) acc
  | .binOp .le e (.fieldGet (.var n) "len"), acc => update n (resolveBound e) acc
  | .binOp .lt e (.fieldGet (.var n) "len"), acc => update n ((resolveBound e).map (· + 1)) acc
  | .binOp .eq (.fieldGet (.var n) "len") e, acc => update n (resolveBound e) acc
  | .binOp .eq e (.fieldGet (.var n) "len"), acc => update n (resolveBound e) acc
  | _, acc => acc
where
  update (n : String) (k : Option Native) (acc : String → Option Native) : String → Option Native :=
    match k with
    | some k => Function.update acc n (some (maxN ((acc n).getD 0) k))
    | none => acc

def narrowSlice : Entry → Native → Entry
  | (.slice el m access, isMut), k =>
    if m.toInt < k.toInt then (.slice el k access, isMut) else (.slice el m access, isMut)
  | entry, _ => entry

variable (resolveBound : Expr → Option Native)

def narrowFromCond (Γ : TyEnv) (cond : Expr) (killed : List String) : TyEnv := fun name =>
  if name ∈ killed then Γ name
  else
    let entry := match collectBounds tgt tbl Γ cond (fun _ => none) name with
      | some b => (Γ name).map (narrowEntry · b)
      | none => Γ name
    match sliceLenMins resolveBound cond (fun _ => none) name with
    | some k => entry.map (narrowSlice · k)
    | none => entry

end Checker

def negateCond : Expr → Option Expr
  | .binOp .and a b => do return .binOp .or (← negateCond a) (← negateCond b)
  | .binOp .or a b => do return .binOp .and (← negateCond a) (← negateCond b)
  | .binOp .lt a b => some (.binOp .ge a b)
  | .binOp .ge a b => some (.binOp .lt a b)
  | .binOp .le a b => some (.binOp .gt a b)
  | .binOp .gt a b => some (.binOp .le a b)
  | .binOp .eq a b => some (.binOp .ne a b)
  | .binOp .ne a b => some (.binOp .eq a b)
  | _ => none

mutual

def stmtAlwaysReturns : Stmt → Bool
  | .return _ => true
  | .if _ yes no => !no.isEmpty && stmtListAlwaysReturns yes && stmtListAlwaysReturns no
  | .block body | .unsafeBlock body => stmtListAlwaysReturns body
  | _ => false

def stmtListAlwaysReturns : List Stmt → Bool
  | [] => false
  | s :: ss => stmtAlwaysReturns s || stmtListAlwaysReturns ss

end

/-! ## Statements -/

/-- The types that inference gives to expressions and records for bindings: of
an initializer, a loop counter, a slice element, a tuple component, a payload and
a name defined by match arms. -/
structure Typing where
  expr : TyEnv → Expr → Ty
  counter : TyEnv → Option Ty → Expr → Expr → Ty
  element : TyEnv → Expr → Ty
  component : TyEnv → Expr → Nat → Ty
  payload : TyEnv → Expr → Pattern → Ty
  yielded : TyEnv → Option Ty → Expr → List Arm → Ty

/-- An immutable binding keeps what its initializer proved when the annotation is
only weaker. -/
def bindTy (τ : Typing) (Γ : TyEnv) (isMut : Bool) (ty : Option Ty) (init : Option Expr) : Ty :=
  match init, ty with
  | none, ty => ty.getD .void
  | some e, none => τ.expr Γ e
  | some e, some ty =>
    if isMut then ty
    else
      match ty, τ.expr Γ e with
      | .slice el m1 a, .slice _ m2 _ => if m1.toInt < m2.toInt then .slice el m2 a else ty
      | .int t, .refinedInt lo hi base => if t = base then .refinedInt lo hi base else ty
      | _, _ => ty

def bindComponents (τ : Typing) (Γ₀ : TyEnv) (e : Expr) : Nat → List String → TyEnv → TyEnv
  | _, [], Γ => Γ
  | i, n :: ns, Γ =>
    bindComponents τ Γ₀ e (i + 1) ns (update Γ n (some (τ.component Γ₀ e i, false)))

section Statements
variable (tgt : Target) (tbl : ConstTable) (resolveBound : Expr → Option Native) (τ : Typing)

def filterByFutureWrites (future : List String) (Γ env : TyEnv) : TyEnv := fun name =>
  if name ∈ future then (Γ name <|> env name) else env name

def inferStmt (future : List String) (Γ : TyEnv) : Stmt → TyEnv
  | .let isMut name ty init => update Γ name (some (bindTy τ Γ isMut ty init, isMut))
  | .letTuple names e => bindComponents τ Γ e 0 names Γ
  | .if cond yes no =>
    if stmtListAlwaysReturns yes then
      match negateCond cond with
      | some neg =>
        filterByFutureWrites future Γ (narrowFromCond tgt tbl resolveBound Γ neg (writtenNames no))
      | none => Γ
    else Γ
  | .letMatch isMut name ty disc arms =>
    update Γ name (some (τ.yielded Γ ty disc arms, isMut))
  | _ => Γ

def proof : Ty → Option (Native × Native) × Option Native
  | .refinedInt lo hi _ => (some (lo, hi), none)
  | .slice _ m _ => (none, some m)
  | _ => (none, none)

def stillNarrowed (Γ narrowed : TyEnv) (name : String) : Bool :=
  match Γ name, narrowed name with
  | some original, some entry => proof entry.1 ≠ proof original.1
  | _, _ => false

def invalidateBefore (Γ₀ : TyEnv) (still : String → Bool) (Γ : TyEnv) (written : List String) :
    TyEnv := fun name =>
  if still name ∧ name ∈ written then (Γ₀ name <|> Γ name) else Γ name

end Statements
end Takibi.Flow
