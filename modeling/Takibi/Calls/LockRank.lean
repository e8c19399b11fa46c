import Takibi.Calls.Effects

/-! The lowest-ranked lock that a function may take, summarized over direct calls. -/

namespace Takibi.Calls
open Syntax Control List

structure Lock where
  rank : Nat
  label : String
  deriving DecidableEq, Repr

/-! ## Callees -/

section Callees
variable (prog : Program)

def lockTarget (site : String) : String :=
  if (prog.resolvedIndirectCallEffects site).isSome then "<indirect call>" else prog.target site

def addCallee (callees : List String) (key : String) : List String :=
  if key ∈ callees then callees else callees.orderedInsert (· ≤ ·) key

mutual

def exprCallees (callees : List String) : Expr → List String
  | .call site args => addCallee (exprsCallees callees args) (lockTarget prog site)
  | .variantCtor _ _ e | .bnot e | .deref e | .addrOf e | .cast _ e | .fieldGet e _
  | .unsafeExpr e => exprCallees callees e
  | .binOp _ a b | .assign a b | .index a b => exprCallees (exprCallees callees a) b
  | .structLit es | .tupleLit es => exprsCallees callees es
  | .sliceOf a b c => exprCallees (exprCallees (exprCallees callees a) b) c
  | _ => callees

def exprsCallees (callees : List String) : List Expr → List String
  | [] => callees
  | e :: es => exprsCallees (exprCallees callees e) es

end

mutual

def stmtCallees (callees : List String) : Stmt → List String
  | .return (some e) | .expr e | .letTuple _ e | .yield e | .let _ _ _ (some e) =>
    exprCallees prog callees e
  | .block ss | .unsafeBlock ss => bodyCallees callees ss
  | .if cond yes no => bodyCallees (bodyCallees (exprCallees prog callees cond) yes) no
  | .while e ss | .forEach _ e ss => bodyCallees (exprCallees prog callees e) ss
  | .for _ _ lo hi ss => bodyCallees (exprCallees prog (exprCallees prog callees lo) hi) ss
  | .match disc arms | .letMatch _ _ _ disc arms => armsCallees (exprCallees prog callees disc) arms
  | .return none | .let _ _ _ none | .break | .continue | .staticAssert _ => callees

def bodyCallees (callees : List String) : List Stmt → List String
  | [] => callees
  | s :: ss => bodyCallees (stmtCallees callees s) ss

def armsCallees (callees : List String) : List Arm → List String
  | [] => callees
  | .mk _ body :: arms => armsCallees (bodyCallees callees body) arms

end

def lockCallees : List (String × List String) :=
  prog.bodies.map fun p => (p.1, bodyCallees prog [] p.2)

end Callees

/-! ## Summaries -/

section Summaries
variable (declared : String → Option Lock)

def lowerLock (a b : Lock) : Lock := if a.rank < b.rank then a else b

def meetLock (found current : Option Lock) : Option Lock :=
  match found, current with
  | none, _ => current
  | some found, none => some found
  | some found, some old => some (lowerLock found old)

def lockSummary (summaries : String → Option Lock) (caller : String) (callees : List String) : Option Lock :=
  callees.foldl (fun current callee => meetLock (summaries callee) current) (declared caller)

def visitCaller (state : (String → Option Lock) × Bool) (p : String × List String) :
    (String → Option Lock) × Bool :=
  match lockSummary declared state.1 p.1 p.2, state.1 p.1 with
  | some found, old =>
    if old = some found then state else (Function.update state.1 p.1 (some found), true)
  | none, _ => state

def lockRound (callees : List (String × List String)) (summaries : String → Option Lock) :
    Option (String → Option Lock) :=
  let (summaries, changed) := callees.foldl (visitCaller declared) (summaries, false)
  if changed then some summaries else none

def lockAcquireSummaries (callees : List (String × List String)) (fuel : Nat) :
    Option (String → Option Lock) :=
  settle (lockRound declared callees) fuel declared

def checkLockOrder (summaries : String → Option Lock) (held : List Lock) (callee : String) :
    Except (Lock × Lock) Unit :=
  match summaries callee with
  | none => .ok ()
  | some acquired =>
    match held.find? fun h => acquired.rank < h.rank with
    | some h => .error (acquired, h)
    | none => .ok ()

end Summaries

/-! ## Callees are the calls that are written -/

variable {callees : List String}

section Written
variable (prog : Program)

def ownTarget : Expr → List String
  | .call site _ => [lockTarget prog site]
  | _ => []

def Targets (es : List Expr) (g : String) : Prop := ∃ x ∈ es, g ∈ ownTarget prog x

variable {prog} {g : String}

@[simp] lemma targets_nil : Targets prog [] g ↔ False := by simp [Targets]

@[simp] lemma targets_cons {e : Expr} {es : List Expr} :
    Targets prog (e :: es) g ↔ g ∈ ownTarget prog e ∨ Targets prog es g := by simp [Targets]

@[simp] lemma targets_append {es es' : List Expr} :
    Targets prog (es ++ es') g ↔ Targets prog es g ∨ Targets prog es' g := by
  simp [Targets, or_and_right, exists_or]

lemma mem_addCallee {key : String} : g ∈ addCallee callees key ↔ g ∈ callees ∨ g = key := by
  unfold addCallee
  split_ifs with h
  · exact ⟨.inl, fun hor => hor.elim id fun heq => heq ▸ h⟩
  · rw [mem_orderedInsert, or_comm]

mutual

theorem mem_exprCallees : ∀ (e : Expr) (callees : List String),
    g ∈ exprCallees prog callees e ↔
      g ∈ callees ∨ g ∈ ownTarget prog e ∨ Targets prog (below true e) g := by
  intro e callees
  cases e with
  | call site args =>
    rw [exprCallees, mem_addCallee, mem_exprsCallees args, ownTarget, mem_singleton, below,
      or_assoc, or_comm (b := g = lockTarget prog site)]
  | variantCtor _ _ e | bnot e | deref e | addrOf e | cast _ e | fieldGet e _ | unsafeExpr e =>
    change _ ↔ _ ∨ g ∈ ([] : List String) ∨ _
    rw [exprCallees, mem_exprCallees e, below, targets_cons]
    simp
  | binOp _ a b | assign a b | index a b =>
    change _ ↔ _ ∨ g ∈ ([] : List String) ∨ Targets prog (a :: below true a ++ b :: below true b) g
    rw [exprCallees, mem_exprCallees b, mem_exprCallees a]
    simp [or_assoc]
  | structLit es | tupleLit es =>
    change _ ↔ _ ∨ g ∈ ([] : List String) ∨ _
    rw [exprCallees, mem_exprsCallees es, below]
    simp
  | sliceOf a b c =>
    change _ ↔ _ ∨ g ∈ ([] : List String) ∨ Targets prog (a :: below true a ++
      b :: below true b ++ c :: below true c) g
    rw [exprCallees, mem_exprCallees c, mem_exprCallees b, mem_exprCallees a]
    simp [or_assoc]
  | _ =>
    change g ∈ callees ↔ g ∈ callees ∨ g ∈ ([] : List String) ∨ Targets prog [] g
    simp
termination_by structural e => e

theorem mem_exprsCallees : ∀ (es : List Expr) (callees : List String),
    g ∈ exprsCallees prog callees es ↔ g ∈ callees ∨ Targets prog (partsAll true es) g
  | [], callees => by simp [exprsCallees, partsAll]
  | e :: es, callees => by
    rw [exprsCallees, mem_exprsCallees es, mem_exprCallees e, partsAll]
    simp [or_assoc]
termination_by structural es => es

end

lemma mem_exprCallees_parts {e : Expr} :
    g ∈ exprCallees prog callees e ↔ g ∈ callees ∨ Targets prog (parts true e) g := by
  rw [mem_exprCallees, parts, targets_cons]

mutual

theorem mem_stmtCallees : ∀ (st : Stmt) (callees : List String),
    g ∈ stmtCallees prog callees st ↔ g ∈ callees ∨ Targets prog (stmtParts true false st) g
  | .return (some e), callees | .expr e, callees | .letTuple _ e, callees | .yield e, callees
  | .let _ _ _ (some e), callees => by rw [stmtCallees, mem_exprCallees_parts, stmtParts]
  | .return none, callees | .let _ _ _ none, callees | .staticAssert _, callees | .break, callees
  | .continue, callees => by simp [stmtCallees, stmtParts]
  | .block ss, callees | .unsafeBlock ss, callees => by
    rw [stmtCallees, mem_bodyCallees ss, stmtParts]
  | .if cond yes no, callees => by
    rw [stmtCallees, mem_bodyCallees no, mem_bodyCallees yes, mem_exprCallees_parts, stmtParts,
      targets_append, targets_append, or_assoc, or_assoc, or_assoc]
  | .while e body, callees | .forEach _ e body, callees => by
    rw [stmtCallees, mem_bodyCallees body, mem_exprCallees_parts, stmtParts, targets_append, or_assoc]
  | .for _ _ lo hi body, callees => by
    rw [stmtCallees, mem_bodyCallees body, mem_exprCallees_parts, mem_exprCallees_parts, stmtParts,
      targets_append, targets_append, or_assoc, or_assoc, or_assoc]
  | .match disc arms, callees | .letMatch _ _ _ disc arms, callees => by
    rw [stmtCallees, mem_armsCallees arms, mem_exprCallees_parts, stmtParts, targets_append, or_assoc]
termination_by structural st => st

theorem mem_bodyCallees : ∀ (ss : List Stmt) (callees : List String),
    g ∈ bodyCallees prog callees ss ↔ g ∈ callees ∨ Targets prog (bodyParts true false ss) g
  | [], callees => by simp [bodyCallees, bodyParts]
  | st :: ss, callees => by
    rw [bodyCallees, mem_bodyCallees ss, mem_stmtCallees st, bodyParts, targets_append, or_assoc]
termination_by structural ss => ss

theorem mem_armsCallees : ∀ (arms : List Arm) (callees : List String),
    g ∈ armsCallees prog callees arms ↔ g ∈ callees ∨ Targets prog (armsParts true false arms) g
  | [], callees => by simp [armsCallees, armsParts]
  | .mk _ body :: arms, callees => by
    rw [armsCallees, mem_armsCallees arms, mem_bodyCallees body, armsParts, targets_append, or_assoc]
termination_by structural arms => arms

end
end Written
end Takibi.Calls
