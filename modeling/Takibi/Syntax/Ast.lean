import Takibi.Types.Ty

/-! Abstract syntax of expressions and statements. -/

namespace Takibi.Syntax
open Takibi.Types

inductive BinOp
  | add | sub | mul | div | mod
  | lt | gt | le | ge | eq | ne
  | or | and | bor | bxor | band | shr | shl
  deriving DecidableEq, Repr

/-- An integer literal is its 64-bit pattern. -/
inductive Expr
  | intLit (value : BitVec 64)
  | boolLit (value : Bool)
  | stringLit (text : String)
  | byteSliceLit (text : String)
  | var (name : String)
  | viewLit (name : String)
  | call (name : String) (args : List Expr)
  | variantCtor (type case : String) (payload : Expr)
  | binOp (op : BinOp) (a b : Expr)
  | bnot (e : Expr)
  | deref (e : Expr)
  | addrOf (e : Expr)
  | cast (ty : Ty) (e : Expr)
  | fieldGet (e : Expr) (field : String)
  | structLit (es : List Expr)
  | tupleLit (es : List Expr)
  | index (base idx : Expr)
  | sliceOf (base lo hi : Expr)
  | unsafeExpr (e : Expr)
  | enumVariant (type case : String)
  | sizeOf (ty : Ty)
  | containsStableOwner (ty : Ty)
  | alignOf (ty : Ty)
  | offsetOf (ty : Ty) (field : String)
  | embedFile (path : String)
  | assign (lhs rhs : Expr)
  deriving Repr

inductive PayloadPattern
  | payloadBind (name : String) (isMut : Bool)
  | payloadIgnore
  deriving DecidableEq, Repr

inductive Pattern
  | armVariant (type case : String) (payload : Option PayloadPattern)
  | armWild
  | armMiss
  | armIntLit (lits : List Int)
  | armByteSliceLit (bytes : String)
  deriving DecidableEq, Repr

mutual

inductive Stmt
  | return (e : Option Expr)
  | expr (e : Expr)
  | yield (e : Expr)
  | block (ss : List Stmt)
  | unsafeBlock (ss : List Stmt)
  | let (isMut : Bool) (name : String) (ty : Option Ty) (init : Option Expr)
  | if (cond : Expr) (yes no : List Stmt)
  | while (cond : Expr) (body : List Stmt)
  | for (name : String) (ty : Option Ty) (lo hi : Expr) (body : List Stmt)
  | forEach (name : String) (e : Expr) (body : List Stmt)
  | letTuple (names : List String) (e : Expr)
  | break
  | continue
  | staticAssert (e : Expr)
  | match (disc : Expr) (arms : List Arm)
  | letMatch (isMut : Bool) (name : String) (ty : Option Ty) (disc : Expr) (arms : List Arm)

inductive Arm
  | mk (pattern : Pattern) (body : List Stmt)

end

def Pattern.binder : Pattern → Option String
  | .armVariant _ _ (some (.payloadBind name _)) => some name
  | _ => none

def Arm.pattern : Arm → Pattern
  | .mk pattern _ => pattern

def Arm.body : Arm → List Stmt
  | .mk _ body => body

/-! ## Match arms that yield a value -/

def rewriteBody (name : String) (stmts : List Stmt) : List Stmt :=
  match stmts.reverse with
  | .yield e :: rest => (.expr (.assign (.var name) e) :: rest).reverse
  | _ => stmts

def rewriteLetmatchArmBodies (name : String) (arms : List Arm) : List Arm :=
  arms.map fun arm => .mk arm.pattern (rewriteBody name arm.body)

mutual

def Stmt.rewrite : Stmt → Stmt
  | .block ss => .block (rewriteStmts ss)
  | .unsafeBlock ss => .unsafeBlock (rewriteStmts ss)
  | .if c t e => .if c (rewriteStmts t) (rewriteStmts e)
  | .while c b => .while c (rewriteStmts b)
  | .for n ty lo hi b => .for n ty lo hi (rewriteStmts b)
  | .forEach n e b => .forEach n e (rewriteStmts b)
  | .match d arms => .match d (rewriteArms arms)
  | .letMatch m n ty d arms => .letMatch m n ty d (rewriteLetmatchArmBodies n (rewriteArms arms))
  | s => s

def rewriteStmts : List Stmt → List Stmt
  | [] => []
  | s :: ss => s.rewrite :: rewriteStmts ss

def rewriteArms : List Arm → List Arm
  | [] => []
  | .mk pattern body :: arms => .mk pattern (rewriteStmts body) :: rewriteArms arms

end

/-! ## Written names -/

mutual

/-- The names an expression may write: assigned variables and arrays, and
variables whose address is taken in it. -/
def Expr.written : Expr → List String
  | .addrOf (.var n) => [n]
  | .addrOf e | .bnot e | .deref e | .cast _ e | .fieldGet e _ | .unsafeExpr e => e.written
  | .binOp _ a b => a.written ++ b.written
  | .call _ args | .structLit args | .tupleLit args => exprsWritten args
  | .variantCtor _ _ payload => payload.written
  | .index base idx => base.written ++ idx.written
  | .sliceOf base lo hi => base.written ++ lo.written ++ hi.written
  | .assign lhs rhs =>
    (match lhs with
      | .var n => [n]
      | .index (.var n) idx => n :: idx.written
      | .index base idx => base.written ++ idx.written
      | .deref p => p.written
      | .fieldGet b _ => b.written
      | lhs => lhs.written) ++ rhs.written
  | _ => []

def exprsWritten : List Expr → List String
  | [] => []
  | e :: es => e.written ++ exprsWritten es

end

mutual

def Stmt.written : Stmt → List String
  | .let _ n _ init =>
    n :: (match init with
      | some e => e.written
      | none => [])
  | .letTuple ns e => ns ++ e.written
  | .expr e | .return (some e) | .yield e | .staticAssert e => e.written
  | .return none | .break | .continue => []
  | .block ss | .unsafeBlock ss => writtenNames ss
  | .if c t e => c.written ++ writtenNames t ++ writtenNames e
  | .while c b => c.written ++ writtenNames b
  | .for n _ lo hi b => n :: (lo.written ++ hi.written ++ writtenNames b)
  | .forEach n e b => n :: (e.written ++ writtenNames b)
  | .match d arms => d.written ++ armsWritten arms
  | .letMatch _ n _ d arms => n :: (d.written ++ armsWritten arms)

def writtenNames : List Stmt → List String
  | [] => []
  | s :: ss => s.written ++ writtenNames ss

def Arm.written : Arm → List String
  | .mk pattern body => pattern.binder.toList ++ writtenNames body

def armsWritten : List Arm → List String
  | [] => []
  | a :: arms => a.written ++ armsWritten arms

end
end Takibi.Syntax
