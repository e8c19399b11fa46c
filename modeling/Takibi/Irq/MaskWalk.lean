import Takibi.Calls.Exec
import Takibi.Control.Settle

/-! The flow of the IRQ mask through function bodies: a call that needs interrupts unmasked
is refused where they may be masked. -/

namespace Takibi.Irq
open Syntax Control Calls Function

/-! ## States -/

inductive Current
  | unmasked
  | masked
  deriving DecidableEq, Repr

instance : Fintype Current := ⟨{.unmasked, .masked}, fun c => by cases c <;> simp⟩

/-- `dead` is a point that is not reached. `current` may be masked, `depth` saves are open,
and the outermost of them saved `saved`. -/
inductive MaskState
  | dead
  | live (current : Current) (depth : Fin 4) (saved : Current)
  deriving DecidableEq, Repr

namespace Current

def join : Current → Current → Current
  | .unmasked, c => c
  | .masked, _ => .masked

end Current

namespace MaskState

def join : MaskState → MaskState → MaskState
  | .dead, b => b
  | a, .dead => a
  | .live c₁ d₁ s₁, .live c₂ d₂ s₂ => .live (c₁.join c₂) (max d₁ d₂) (s₁.join s₂)

def save : MaskState → MaskState
  | .dead => .dead
  | .live current depth saved =>
    if depth = 0 then .live current 1 current
    else .live current ⟨min 3 (depth.val + 1), by omega⟩ saved

def restore : MaskState → MaskState
  | .dead => .dead
  | .live current depth saved =>
    if depth = 0 then .live current depth saved
    else if depth = 1 then .live saved 0 saved
    else .live .masked (depth - 1) saved

def withCurrent (c : Current) : MaskState → MaskState
  | .dead => .dead
  | .live _ depth saved => .live c depth saved

def height : MaskState → Nat
  | .dead => 0
  | .live c d s => 1 + (if c = .masked then 1 else 0) + d.val + if s = .masked then 1 else 0

end MaskState

/-! ## Calls -/

def irqSave : String := "mrs_daif"
def irqMask : String := "msr_daifset_irq"
def irqUnmask : String := "msr_daifclr_irq"

/-- What the rule knows of functions; `bodies` are those that it follows, in key order. -/
structure Context where
  target : String → String
  requiresUnmasked : String → Bool
  indirectRequires : String → Bool
  noreturn : String → Bool
  primitives : String → Bool
  restorers : String → Bool
  guards : String → Bool
  bodies : List (String × List Stmt)
  nodup_keys : (bodies.map Prod.fst).Nodup

inductive CallKind
  | noreturn
  | save
  | mask
  | unmask
  | restore
  | guard
  | ordinary
  deriving DecidableEq, Repr

def Context.kind (ctx : Context) (target : String) : CallKind :=
  if ctx.noreturn target then .noreturn
  else if target = irqSave then .save
  else if target = irqMask ∨ ctx.primitives target then .mask
  else if target = irqUnmask then .unmask
  else if ctx.restorers target then .restore
  else if ctx.guards target then .guard
  else .ordinary

abbrev Summary := List (MaskState × MaskState)
abbrev Summaries := String → Option Summary

def maskEntries : List MaskState :=
  [.unmasked, .masked].flatMap fun current => (List.finRange 4).flatMap fun depth =>
    [.unmasked, .masked].map fun saved => .live current depth saved

section Walk
variable (ctx : Context)

def Context.body (key : String) : Option (List Stmt) := ctx.bodies.lookup key

variable (summaries : Summaries)

def maskTransfer (target : String) (state : MaskState) : MaskState :=
  if state = .dead then state
  else match ctx.kind target with
    | .noreturn => .dead
    | .save => state.save
    | .mask => state.withCurrent .masked
    | .unmask => state.withCurrent .unmasked
    | .restore => state.restore
    | .guard => state
    | .ordinary =>
      match summaries target with
      | some outs => (outs.lookup state).getD .dead
      | none => if (ctx.body target).isSome then .dead else state

/-! ## Bodies -/

mutual

def jumps (x : Exit) : Stmt → Bool
  | .break => x = .brk
  | .continue => x = .cont
  | .block ss | .unsafeBlock ss => anyJump x ss
  | .if _ yes no => anyJump x yes || anyJump x no
  | .match _ arms | .letMatch _ _ _ _ arms => armsJump x arms
  | _ => false

def anyJump (x : Exit) : List Stmt → Bool
  | [] => false
  | s :: ss => jumps x s || anyJump x ss

def armsJump (x : Exit) : List Arm → Bool
  | [] => false
  | .mk _ body :: arms => anyJump x body || armsJump x arms

end

variable (body : List Stmt)

def hasBreak : Bool := anyJump .brk body

structure Walk where
  state : MaskState
  returned : MaskState
  visits : List (String × MaskState)

lemma height_lt_join {a b : MaskState} (h : a.join b ≠ a) : a.height < (a.join b).height := by
  cases a with
  | dead =>
    cases b with
    | dead => exact absurd rfl h
    | live c d s => simp [MaskState.join, MaskState.height]
  | live c₁ d₁ s₁ =>
    cases b with
    | dead => exact absurd rfl h
    | live c₂ d₂ s₂ =>
      revert h
      revert c₁ d₁ s₁ c₂ d₂ s₂
      decide

lemma height_le (a : MaskState) : a.height ≤ 6 := by
  cases a with
  | dead => exact Nat.zero_le 6
  | live c d s =>
    revert c d s
    decide

def loop (body : Walk → Walk) (w : Walk) : Walk :=
  if _h : w.state.join (body w).state = w.state then
    { body w with state := w.state.join (body w).state }
  else loop body { body w with state := w.state.join (body w).state }
termination_by 6 - w.state.height
decreasing_by
  have hlt := height_lt_join _h
  have hle := height_le (w.state.join (body w).state)
  omega

mutual

def walkExpr (w : Walk) : Expr → Walk
  | .call site args =>
    let w := walkExprs w args
    { w with
      state := maskTransfer ctx summaries (ctx.target site) w.state
      visits := w.visits ++ [(site, w.state)] }
  | .variantCtor _ _ e | .bnot e | .deref e | .addrOf e | .cast _ e | .fieldGet e _
  | .unsafeExpr e => walkExpr w e
  | .binOp _ a b | .assign a b | .index a b => walkExpr (walkExpr w a) b
  | .structLit es | .tupleLit es => walkExprs w es
  | .sliceOf a b c => walkExpr (walkExpr (walkExpr w a) b) c
  | _ => w

def walkExprs (w : Walk) : List Expr → Walk
  | [] => w
  | e :: es => walkExprs (walkExpr w e) es

end

def walkReturn (w : Walk) : Walk := { w with state := .dead, returned := w.returned.join w.state }

mutual

/-- `break` and `continue` go on to the next statement. -/
def walkStmt (w : Walk) : Stmt → Walk
  | .return (some e) => walkReturn (walkExpr ctx summaries w e)
  | .return none => walkReturn w
  | .expr e | .letTuple _ e | .yield e | .let _ _ _ (some e) => walkExpr ctx summaries w e
  | .block ss | .unsafeBlock ss => walkStmts w ss
  | .if cond yes no =>
    let w := walkExpr ctx summaries w cond
    let y := walkStmts w yes
    let n := walkStmts { y with state := w.state } no
    { n with state := y.state.join n.state }
  | .while cond body =>
    match cond, hasBreak body with
    | .boolLit true, false => { loop (fun w => walkStmts w body) w with state := .dead }
    | cond, _ => loop (fun w => walkStmts w body) (walkExpr ctx summaries w cond)
  | .for _ _ lo hi body =>
    loop (fun w => walkStmts w body) (walkExpr ctx summaries (walkExpr ctx summaries w lo) hi)
  | .forEach _ e body => loop (fun w => walkStmts w body) (walkExpr ctx summaries w e)
  | .match disc arms | .letMatch _ _ _ disc arms =>
    let w := walkExpr ctx summaries w disc
    walkArms w.state { w with state := .dead } arms
  | .let _ _ _ none | .break | .continue | .staticAssert _ => w

def walkStmts (w : Walk) : List Stmt → Walk
  | [] => w
  | s :: ss => walkStmts (walkStmt w s) ss

def walkArms (state : MaskState) (w : Walk) : List Arm → Walk
  | [] => w
  | .mk _ body :: arms =>
    let arm := walkStmts { w with state := state } body
    walkArms state { arm with state := w.state.join arm.state } arms

end

variable (entry : MaskState)

def maskWalk : Walk :=
  walkStmts ctx summaries ⟨entry, .dead, []⟩ body

def maskResult : MaskState :=
  let w := maskWalk ctx summaries body entry
  w.state.join w.returned

def bodySummary : Summary :=
  maskEntries.map fun entry => (entry, maskResult ctx summaries body entry)

def refused : List String :=
  ((maskWalk ctx summaries body entry).visits.filter fun v =>
    v.2 matches .live .masked _ _ ∧
      (ctx.requiresUnmasked (ctx.target v.1) || ctx.indirectRequires v.1)).map Prod.fst

/-! ## Summaries of all bodies -/

def walkTargets : List String :=
  (bodyParts true false body).filterMap fun
    | .call site _ => some (ctx.target site)
    | _ => none

end Walk

structure Settling where
  summaries : Summaries
  clock : Nat
  changedAt : String → Option Nat
  walkedAt : String → Option Nat
  walkDeps : String → List String

section Rounds
variable (ctx : Context)

def isStale (st : Settling) (key : String) : Bool :=
  match st.walkedAt key with
  | none => true
  | some time => (st.walkDeps key).any fun target => (st.changedAt target).any (time < ·)

def settleBody (state : Settling × Bool) (p : String × List Stmt) : Settling × Bool :=
  let st := state.1
  if isStale st p.1 then
    let next := bodySummary ctx st.summaries p.2
    let walked : Settling := { st with
      clock := st.clock + 1
      walkedAt := update st.walkedAt p.1 (some (st.clock + 1))
      walkDeps := update st.walkDeps p.1 (walkTargets ctx p.2) }
    if st.summaries p.1 = some next then (walked, state.2)
    else ({ walked with
      summaries := update st.summaries p.1 (some next)
      clock := st.clock + 2
      changedAt := update st.changedAt p.1 (some (st.clock + 2)) }, true)
  else state

def settleRound (st : Settling) : Option Settling :=
  let (st, changed) := ctx.bodies.foldl (settleBody ctx) (st, false)
  if changed then some st else none

def maskSummaries : Option Settling :=
  settle (settleRound ctx) 1001 ⟨fun _ => none, 0, fun _ => none, fun _ => none, fun _ => []⟩

end Rounds
end Takibi.Irq
