import Takibi.Irq.MaskWalk

/-! Executions as far as the IRQ mask goes, what a state of the walk says of them, and the
discipline under which the walk follows them. -/

namespace Takibi.Irq
open Syntax Control Calls

/-! ## Executions -/

structure Daif where
  masked : Bool
  saved : List Bool
  deriving DecidableEq, Repr

/-- A restore with no save in sight leaves the mask alone. -/
def Daif.restore (s : Daif) : Daif :=
  match s.saved with
  | [] => s
  | b :: rest => ⟨b, rest⟩

section Executions
variable (ctx : Context)

/-- A call, where `enter` says how bodies run. Guards, and functions without a body, leave
the mask alone. -/
def callStep (enter : List Stmt → Daif → Daif → Prop) (site : String) (s t : Daif) : Prop :=
  match ctx.kind (ctx.target site) with
  | .noreturn => False
  | .save => t = ⟨s.masked, s.masked :: s.saved⟩
  | .mask => t = ⟨true, s.saved⟩
  | .unmask => t = ⟨false, s.saved⟩
  | .restore => t = s.restore
  | .guard => t = s
  | .ordinary =>
    match ctx.body (ctx.target site) with
    | some body => enter body s t
    | none => t = s

def sem : Nat → Sem String Daif
  | 0 => ⟨callStep ctx fun _ _ _ => False, fun _ t => t⟩
  | k + 1 => ⟨callStep ctx fun body s t =>
      Run (sem k) (execBody body) s .normal t ∨ Run (sem k) (execBody body) s .ret t, fun _ t => t⟩

end Executions

def Covers : MaskState → Daif → Prop
  | .dead, _ => False
  | .live current depth saved, s =>
    (s.masked = true → current = .masked) ∧ depth.val = s.saved.length ∧
      (s.saved.getLast? = some true → saved = .masked)

def Seen (visits : List (String × MaskState)) (site : String) (s : Daif) : Prop :=
  ∃ a, (site, a) ∈ visits ∧ Covers a s

/-! ## Nesting -/

/-- The number of open saves at a point, or that it is never passed. -/
inductive Level
  | dead
  | nested (depth : Nat)
  deriving DecidableEq, Repr

namespace Level

def join : Level → Level → Option Level
  | .dead, l => some l
  | l, .dead => some l
  | .nested d, .nested d' => if d = d' then some (.nested d) else none

def fits (l l' : Level) : Bool := l = .dead || l = l'

end Level

abbrev Signature := String → Nat → Option Level

section Discipline
variable (ctx : Context)

/-- A call that leaves the mask alone: to a guard, to a function without a body, or to one whose
summary gives every state back. -/
def inert (summaries : Summaries) (target : String) : Bool :=
  match ctx.kind target with
  | .guard => true
  | .ordinary =>
    match summaries target with
    | some outs => maskEntries.all fun entry => outs.lookup entry = some entry
    | none => (ctx.body target).isNone
  | _ => false

variable (I : String → Bool)

def callsAll (P : String → Bool) (es : List Expr) : Bool :=
  es.all fun
    | .call site _ => P site
    | _ => true

def callFree (e : Expr) : Bool := callsAll (fun _ => false) (parts true e)

/-- `I` are the functions that leave the mask alone. -/
def quiet (e : Expr) : Bool := callsAll (fun site => I (ctx.target site)) (parts true e)

def inOrder (lhs rhs : Expr) : Bool :=
  match lhs with
  | .deref _ | .fieldGet _ _ => true
  | .index base i => callFree base || callFree i && callFree rhs
  | lhs => callFree lhs

mutual

def still : Stmt → Bool
  | .return _ => false
  | .expr e | .letTuple _ e | .yield e | .let _ _ _ (some e) => quiet ctx I e
  | .block ss | .unsafeBlock ss => stillAll ss
  | .if cond yes no => quiet ctx I cond && stillAll yes && stillAll no
  | .while cond body =>
    quiet ctx I cond && stillAll body && !(cond matches .boolLit true && !hasBreak body)
  | .for _ _ lo hi body => quiet ctx I lo && quiet ctx I hi && stillAll body
  | .forEach _ e body => quiet ctx I e && stillAll body
  | .match disc arms | .letMatch _ _ _ disc arms => quiet ctx I disc && !arms.isEmpty && stillArms arms
  | .let _ _ _ none | .break | .continue | .staticAssert _ => true

def stillAll : List Stmt → Bool
  | [] => true
  | s :: ss => still s && stillAll ss

def stillArms : List Arm → Bool
  | [] => true
  | .mk _ body :: arms => stillAll body && stillArms arms

end

variable (sig : Signature)

def callLevel (target : String) : Level → Option Level
  | .dead => some .dead
  | .nested d =>
    match ctx.kind target with
    | .noreturn => some .dead
    | .save => if d < 3 then some (.nested (d + 1)) else none
    | .restore => some (.nested (d - 1))
    | .mask | .unmask | .guard => some (.nested d)
    | .ordinary => if (ctx.body target).isSome then sig target d else some (.nested d)

mutual

/-- The level after an expression. The right operand of `&&` and `||` makes only quiet calls,
and what is indexed or sliced makes none, unless its bounds (and the value assigned) make
none. -/
def exprLevel (l : Level) : Expr → Option Level
  | .call site args => (exprsLevel l args).bind (callLevel ctx sig (ctx.target site))
  | .variantCtor _ _ e | .bnot e | .deref e | .addrOf e | .cast _ e | .fieldGet e _
  | .unsafeExpr e => exprLevel l e
  | .binOp .and a b | .binOp .or a b =>
    if quiet ctx I b then (exprLevel l a).bind (exprLevel · b) else none
  | .binOp _ a b => (exprLevel l a).bind (exprLevel · b)
  | .structLit es | .tupleLit es => exprsLevel l es
  | .index base i =>
    if callFree base || callFree i then (exprLevel l base).bind (exprLevel · i) else none
  | .sliceOf base lo hi =>
    if callFree base || callFree lo && callFree hi then
      ((exprLevel l base).bind (exprLevel · lo)).bind (exprLevel · hi)
    else none
  | .assign lhs rhs =>
    if inOrder lhs rhs then (exprLevel l lhs).bind (exprLevel · rhs) else none
  | _ => some l

def exprsLevel (l : Level) : List Expr → Option Level
  | [] => some l
  | e :: es => (exprLevel l e).bind (exprsLevel · es)

end

def loopLevel (l after : Level) : Option Level := if after.fits l then some l else none

mutual

/-- The level after a statement of a function that returns at level `ret`. The calls in the
condition of a `while` are quiet, and then its body is still, or there are none. After a
`break` or `continue`, the statements to the end of the loop's body are still. -/
def stmtLevel (ret l : Level) : Stmt → Option Level
  | .return (some e) =>
    (exprLevel ctx I sig l e).bind fun l => if l.fits ret then some .dead else none
  | .return none => if l.fits ret then some .dead else none
  | .expr e | .letTuple _ e | .yield e | .let _ _ _ (some e) => exprLevel ctx I sig l e
  | .block ss | .unsafeBlock ss => stmtsLevel ret l ss
  | .if cond yes no =>
    (exprLevel ctx I sig l cond).bind fun l =>
      (stmtsLevel ret l yes).bind fun y => (stmtsLevel ret l no).bind y.join
  | .while cond body =>
    if callFree cond || quiet ctx I cond && stillAll ctx I body then
      (exprLevel ctx I sig l cond).bind fun l =>
        ((stmtsLevel ret l body).bind (loopLevel l)).map fun l =>
          if cond matches .boolLit true && !hasBreak body then .dead else l
    else none
  | .for _ _ lo hi body =>
    ((exprLevel ctx I sig l lo).bind (exprLevel ctx I sig · hi)).bind fun l =>
      (stmtsLevel ret l body).bind (loopLevel l)
  | .forEach _ e body =>
    (exprLevel ctx I sig l e).bind fun l => (stmtsLevel ret l body).bind (loopLevel l)
  | .match disc arms | .letMatch _ _ _ disc arms =>
    (exprLevel ctx I sig l disc).bind fun l => armsLevel ret l arms
  | .let _ _ _ none | .break | .continue | .staticAssert _ => some l

def stmtsLevel (ret l : Level) : List Stmt → Option Level
  | [] => some l
  | s :: ss =>
    if (jumps .brk s || jumps .cont s) && !stillAll ctx I ss then none
    else (stmtLevel ret l s).bind (stmtsLevel ret · ss)

def armsLevel (ret l : Level) : List Arm → Option Level
  | [] => some .dead
  | .mk _ body :: arms => (stmtsLevel ret l body).bind fun a => (armsLevel ret l arms).bind a.join

end

/-- Every body keeps to the discipline at the depths at which its signature allows it. -/
def Levelled : Prop :=
  ∀ p ∈ ctx.bodies, ∀ d ret, sig p.1 d = some ret →
    ∃ l, stmtsLevel ctx I sig ret (.nested d) p.2 = some l ∧ l.fits ret = true

end Discipline
end Takibi.Irq
