import Takibi.Calls.Exec
import Takibi.Control.Closure

/-! Effect summaries of function bodies, and the closing of an effect over the calls. -/

namespace Takibi.Calls
open Syntax Control List

/-! ## Programs -/

/-- What inference recorded of call sites and of the places where expressions start, and the functions of a
program in key order. -/
structure Program where
  name : String → String
  /-- A call and a variable are named by their sites, so that the same text at two places is two expressions.
  An index and the base it is taken from start at one place. -/
  locKey : Expr → String
  resolvedCallTargets : String → Option String
  resolvedIndirectCallEffects : String → Option (Option (List String))
  isAtomic : String → Bool
  isReservedFunctionName : String → Bool
  ioHandleAccesses : String → Bool
  declaredEffects : List (String × Option (List String))
  bodies : List (String × List Stmt)
  nodup_keys : (bodies.map Prod.fst).Nodup

namespace Program
variable (prog : Program) {e : Expr}

def target (site : String) : String := (prog.resolvedCallTargets site).getD (prog.name site)
def isCallable (key : String) : Bool := prog.declaredEffects.any (·.1 = key)

end Program

structure Summary where
  callees : Finset String
  directEffects : Finset String
  indirectEffects : Finset String
  containsUnsafe : Bool
  hasUnknownIndirectCall : Bool

namespace Summary

def empty : Summary := ⟨∅, ∅, ∅, false, false⟩

def addDirect (s : Summary) (eff : String) : Summary :=
  { s with directEffects := insert eff s.directEffects }

def markUnsafe (s : Summary) : Summary := { s with containsUnsafe := true }

end Summary

section Visit
variable (prog : Program)

def visitCall (s : Summary) (site : String) : Summary :=
  let name := prog.name site
  if name = "interrupt_wait" then s.addDirect "may_block"
  else if prog.isAtomic name then s.addDirect "requires_mmu"
  else if prog.isCallable (prog.target site) then
    { s with callees := insert (prog.target site) s.callees }
  else if prog.isReservedFunctionName name then s
  else match prog.resolvedIndirectCallEffects site with
    | some (some effects) => { s with indirectEffects := s.indirectEffects ∪ effects.toFinset }
    | some none | none => { s with hasUnknownIndirectCall := true }

def visitAccess (s : Summary) (e : Expr) : Summary :=
  if prog.ioHandleAccesses (prog.locKey e) then s.addDirect "requires_devices" else s

mutual

/-- The expressions below one, and its own call. The base of an index or a slice is not
visited. -/
def visitBelow (s : Summary) : Expr → Summary
  | .call site args => visitCall prog (visitExprs s args) site
  | .variantCtor _ _ e | .bnot e | .deref e | .addrOf e | .cast _ e | .fieldGet e _ =>
    visitBelow (visitAccess prog s e) e
  | .binOp _ a b | .assign a b =>
    let s := visitBelow (visitAccess prog s a) a
    visitBelow (visitAccess prog s b) b
  | .unsafeExpr e => visitBelow (visitAccess prog s.markUnsafe e) e
  | .structLit es | .tupleLit es => visitExprs s es
  | .index _ i => visitBelow (visitAccess prog s i) i
  | .sliceOf _ lo hi =>
    let s := visitBelow (visitAccess prog s lo) lo
    visitBelow (visitAccess prog s hi) hi
  | _ => s

def visitExprs (s : Summary) : List Expr → Summary
  | [] => s
  | e :: es => visitExprs (visitBelow (visitAccess prog s e) e) es

end

def visitExpr (s : Summary) (e : Expr) : Summary := visitBelow prog (visitAccess prog s e) e

mutual

def visitStmt (s : Summary) : Stmt → Summary
  | .return (some e) | .expr e | .letTuple _ e | .yield e | .let _ _ _ (some e) =>
    visitExpr prog s e
  | .block ss => visitStmts s ss
  | .unsafeBlock ss => visitStmts s.markUnsafe ss
  | .if cond yes no => visitStmts (visitStmts (visitExpr prog s cond) yes) no
  | .while cond body => visitStmts (visitExpr prog s cond) body
  | .for _ _ lo hi body => visitStmts (visitExpr prog (visitExpr prog s lo) hi) body
  | .forEach _ e body => visitStmts (visitExpr prog s e) body
  | .match disc arms | .letMatch _ _ _ disc arms => visitArms (visitExpr prog s disc) arms
  | .return none | .let _ _ _ none | .staticAssert _ | .break | .continue => s

def visitStmts (s : Summary) : List Stmt → Summary
  | [] => s
  | st :: ss => visitStmts (visitStmt s st) ss

def visitArms (s : Summary) : List Arm → Summary
  | [] => s
  | .mk _ body :: arms => visitArms (visitStmts s body) arms

end

def summarizeEffectBody (body : List Stmt) : Summary := visitStmts prog .empty body

/-! ## Closing an effect -/

def effectSummaries : List (String × Summary) :=
  prog.bodies.map fun p => (p.1, summarizeEffectBody prog p.2)

def explicitEffect (eff : String) : Finset String :=
  (prog.declaredEffects.filterMap fun p =>
    if p.2.any (eff ∈ ·) then some p.1 else none).toFinset

def directProperty (eff : String) (s : Summary) : Bool :=
  if eff = "unsafe" then s.containsUnsafe || "unsafe" ∈ s.indirectEffects
  else eff ∈ s.directEffects || eff ∈ s.indirectEffects

def closedEffect (eff : String) (fuel : Nat) : Option (Finset String) :=
  Closure.close (effectSummaries prog) Summary.callees (directProperty eff)
    (explicitEffect prog eff) fuel

end Visit

/-! ## What a body contributes -/

inductive Fact
  | callee (key : String)
  | direct (eff : String)
  | indirect (eff : String)
  | unsafety
  | unknown
  deriving DecidableEq, Repr

def Summary.Has (s : Summary) : Fact → Prop
  | .callee key => key ∈ s.callees
  | .direct eff => eff ∈ s.directEffects
  | .indirect eff => eff ∈ s.indirectEffects
  | .unsafety => s.containsUnsafe = true
  | .unknown => s.hasUnknownIndirectCall = true

section Facts
variable (prog : Program)

def callFacts (site : String) : List Fact :=
  if prog.name site = "interrupt_wait" then [.direct "may_block"]
  else if prog.isAtomic (prog.name site) then [.direct "requires_mmu"]
  else if prog.isCallable (prog.target site) then [.callee (prog.target site)]
  else if prog.isReservedFunctionName (prog.name site) then []
  else match prog.resolvedIndirectCallEffects site with
    | some (some effects) => effects.map .indirect
    | some none | none => [.unknown]

def ownFacts : Expr → List Fact
  | .call site _ => callFacts prog site
  | .unsafeExpr _ => [.unsafety]
  | _ => []

def facts (e : Expr) : List Fact :=
  (if prog.ioHandleAccesses (prog.locKey e) then [.direct "requires_devices"] else []) ++ ownFacts prog e

mutual

def hasUnsafeBlock : Stmt → Bool
  | .unsafeBlock _ => true
  | .block ss | .while _ ss | .for _ _ _ _ ss | .forEach _ _ ss => anyUnsafeBlock ss
  | .if _ yes no => anyUnsafeBlock yes || anyUnsafeBlock no
  | .match _ arms | .letMatch _ _ _ _ arms => armsUnsafeBlock arms
  | .return _ | .expr _ | .yield _ | .let _ _ _ _ | .letTuple _ _ | .break | .continue
  | .staticAssert _ => false

def anyUnsafeBlock : List Stmt → Bool
  | [] => false
  | s :: ss => hasUnsafeBlock s || anyUnsafeBlock ss

def armsUnsafeBlock : List Arm → Bool
  | [] => false
  | .mk _ body :: arms => anyUnsafeBlock body || armsUnsafeBlock arms

end

def Brings (es : List Expr) (φ : Fact) : Prop := ∃ x ∈ es, φ ∈ facts prog x

def BodyFact (all : Bool) (body : List Stmt) (φ : Fact) : Prop :=
  Brings prog (bodyParts all all body) φ ∨ φ = .unsafety ∧ anyUnsafeBlock body = true

end Facts

section Summaries
variable {prog : Program} {φ : Fact} {s : Summary}

@[simp] lemma brings_nil : Brings prog [] φ ↔ False := by simp [Brings]

@[simp] lemma brings_cons {es : List Expr} :
    Brings prog (e :: es) φ ↔ φ ∈ facts prog e ∨ Brings prog es φ := by simp [Brings]

@[simp] lemma brings_append {es es' : List Expr} :
    Brings prog (es ++ es') φ ↔ Brings prog es φ ∨ Brings prog es' φ := by
  simp [Brings, or_and_right, exists_or]

lemma has_empty : Summary.empty.Has φ ↔ False := by
  cases φ <;> simp [Summary.Has, Summary.empty]

lemma has_addDirect {eff : String} : (s.addDirect eff).Has φ ↔ s.Has φ ∨ φ = .direct eff := by
  cases φ <;> simp [Summary.Has, Summary.addDirect, or_comm]

lemma has_markUnsafe : s.markUnsafe.Has φ ↔ s.Has φ ∨ φ = .unsafety := by
  cases φ <;> simp [Summary.Has, Summary.markUnsafe]

lemma has_visitCall {site : String} : (visitCall prog s site).Has φ ↔ s.Has φ ∨ φ ∈ callFacts prog site := by
  unfold visitCall callFacts
  dsimp only
  split_ifs
  · rw [has_addDirect, mem_singleton]
  · rw [has_addDirect, mem_singleton]
  · cases φ <;> simp [Summary.Has, or_comm]
  · simp
  · split <;> cases φ <;> simp [Summary.Has]

lemma has_visitAccess : (visitAccess prog s e).Has φ ↔
      s.Has φ ∨ prog.ioHandleAccesses (prog.locKey e) = true ∧ φ = .direct "requires_devices" := by
  unfold visitAccess
  split_ifs with h
  · rw [has_addDirect]
    simp [h]
  · simp [h]

lemma mem_facts : φ ∈ facts prog e ↔
    (prog.ioHandleAccesses (prog.locKey e) = true ∧ φ = .direct "requires_devices") ∨ φ ∈ ownFacts prog e := by
  unfold facts
  split_ifs with h <;> simp [h]

mutual

theorem has_visitBelow : ∀ (e : Expr) (s : Summary), (visitBelow prog s e).Has φ ↔
    s.Has φ ∨ φ ∈ ownFacts prog e ∨ Brings prog (below false e) φ := by
  intro e s
  cases e with
  | call site args =>
    rw [ownFacts, visitBelow, has_visitCall, has_visitExprs args, below]
    tauto
  | variantCtor _ _ e | bnot e | deref e | addrOf e | cast _ e | fieldGet e _ =>
    change _ ↔ _ ∨ φ ∈ ([] : List Fact) ∨ _
    simp only [not_mem_nil, false_or]
    rw [visitBelow, has_visitBelow e, has_visitAccess, below, brings_cons, mem_facts]
    tauto
  | unsafeExpr e =>
    rw [ownFacts, visitBelow, has_visitBelow e, has_visitAccess, has_markUnsafe, below, brings_cons,
      mem_facts, mem_singleton]
    tauto
  | binOp _ a b | assign a b =>
    change _ ↔ _ ∨ φ ∈ ([] : List Fact) ∨ _
    simp only [not_mem_nil, false_or]
    rw [visitBelow, has_visitBelow b, has_visitAccess, has_visitBelow a, has_visitAccess,
      below, brings_append, brings_cons, brings_cons, mem_facts, mem_facts]
    tauto
  | structLit es | tupleLit es =>
    change _ ↔ _ ∨ φ ∈ ([] : List Fact) ∨ _
    simp only [not_mem_nil, false_or]
    rw [visitBelow, has_visitExprs es, below]
  | index _ i =>
    change _ ↔ _ ∨ φ ∈ ([] : List Fact) ∨ _
    simp only [not_mem_nil, false_or]
    rw [visitBelow, has_visitBelow i, has_visitAccess, below, brings_append, brings_cons, mem_facts]
    simp only [Bool.false_eq_true, ↓reduceIte, brings_nil]
    tauto
  | sliceOf _ lo hi =>
    change _ ↔ _ ∨ φ ∈ ([] : List Fact) ∨ _
    simp only [not_mem_nil, false_or]
    rw [visitBelow, has_visitBelow hi, has_visitAccess, has_visitBelow lo, has_visitAccess, below,
      brings_append, brings_append, brings_cons, brings_cons, mem_facts, mem_facts]
    simp only [Bool.false_eq_true, ↓reduceIte, brings_nil]
    tauto
  | _ =>
    change _ ↔ _ ∨ φ ∈ ([] : List Fact) ∨ _
    simp [visitBelow, below]
termination_by structural e => e

theorem has_visitExprs : ∀ (es : List Expr) (s : Summary), (visitExprs prog s es).Has φ ↔
    s.Has φ ∨ Brings prog (partsAll false es) φ
  | [], s => by simp [visitExprs, partsAll]
  | e :: es, s => by
    rw [visitExprs, has_visitExprs es, has_visitBelow e, has_visitAccess, partsAll, brings_append,
      brings_cons, mem_facts]
    tauto
termination_by structural es => es

end

lemma has_visitExpr : (visitExpr prog s e).Has φ ↔ s.Has φ ∨ Brings prog (parts false e) φ := by
  rw [visitExpr, has_visitBelow, has_visitAccess, parts, brings_cons, mem_facts]
  tauto

mutual

theorem has_visitStmt : ∀ (st : Stmt) (s : Summary), (visitStmt prog s st).Has φ ↔
    s.Has φ ∨ Brings prog (stmtParts false false st) φ ∨ φ = .unsafety ∧ hasUnsafeBlock st = true
  | .return (some e), s | .expr e, s | .letTuple _ e, s | .yield e, s | .let _ _ _ (some e), s => by
    rw [visitStmt, has_visitExpr, stmtParts, hasUnsafeBlock]
    simp
  | .return none, s | .let _ _ _ none, s | .staticAssert _, s | .break, s | .continue, s => by
    simp [visitStmt, stmtParts, hasUnsafeBlock]
  | .block ss, s => by rw [visitStmt, has_visitStmts ss, stmtParts, hasUnsafeBlock]
  | .unsafeBlock ss, s => by
    rw [visitStmt, has_visitStmts ss, has_markUnsafe, stmtParts, hasUnsafeBlock]
    tauto
  | .if cond yes no, s => by
    rw [visitStmt, has_visitStmts no, has_visitStmts yes, has_visitExpr, stmtParts, hasUnsafeBlock,
      brings_append, brings_append, Bool.or_eq_true]
    tauto
  | .while cond body, s | .forEach _ e body, s => by
    rw [visitStmt, has_visitStmts body, has_visitExpr, stmtParts, hasUnsafeBlock, brings_append]
    tauto
  | .for _ _ lo hi body, s => by
    rw [visitStmt, has_visitStmts body, has_visitExpr, has_visitExpr, stmtParts, hasUnsafeBlock,
      brings_append, brings_append]
    tauto
  | .match disc arms, s | .letMatch _ _ _ disc arms, s => by
    rw [visitStmt, has_visitArms arms, has_visitExpr, stmtParts, hasUnsafeBlock, brings_append]
    tauto
termination_by structural st => st

theorem has_visitStmts : ∀ (ss : List Stmt) (s : Summary), (visitStmts prog s ss).Has φ ↔
    s.Has φ ∨ Brings prog (bodyParts false false ss) φ ∨ φ = .unsafety ∧ anyUnsafeBlock ss = true
  | [], s => by simp [visitStmts, bodyParts, anyUnsafeBlock]
  | st :: ss, s => by
    rw [visitStmts, has_visitStmts ss, has_visitStmt st, bodyParts, brings_append, anyUnsafeBlock,
      Bool.or_eq_true]
    tauto
termination_by structural ss => ss

theorem has_visitArms : ∀ (arms : List Arm) (s : Summary), (visitArms prog s arms).Has φ ↔
    s.Has φ ∨ Brings prog (armsParts false false arms) φ ∨ φ = .unsafety ∧ armsUnsafeBlock arms = true
  | [], s => by simp [visitArms, armsParts, armsUnsafeBlock]
  | .mk _ body :: arms, s => by
    rw [visitArms, has_visitArms arms, has_visitStmts body, armsParts, brings_append,
      armsUnsafeBlock, Bool.or_eq_true]
    tauto
termination_by structural arms => arms

end

lemma has_summarizeEffectBody {body : List Stmt} :
    (summarizeEffectBody prog body).Has φ ↔ BodyFact prog false body φ := by
  rw [summarizeEffectBody, has_visitStmts, has_empty, false_or, BodyFact]

end Summaries

/-! ## Completeness -/

section Completeness
variable (prog : Program)

def CallsTo (f g : String) : Prop :=
  ∃ body, (f, body) ∈ prog.bodies ∧ BodyFact prog true body (.callee g)

def effectFact (eff : String) (φ : Fact) : Prop :=
  φ = .indirect eff ∨ if eff = "unsafe" then φ = .unsafety else φ = .direct eff

def HasEffect (eff f : String) : Prop :=
  (∃ effects, (f, some effects) ∈ prog.declaredEffects ∧ eff ∈ effects) ∨
    ∃ body φ, (f, body) ∈ prog.bodies ∧ effectFact eff φ ∧ BodyFact prog true body φ

variable (body : List Stmt)

/-- What the bases of indices and slices and the assertions of a body say, the visited part
of the body says too. -/
def Exposed : Prop :=
  ∀ φ, BodyFact prog true body φ → BodyFact prog false body φ

variable {prog} {eff f g : String} {φ : Fact}

lemma mem_explicitEffect : f ∈ explicitEffect prog eff ↔
      ∃ effects, (f, some effects) ∈ prog.declaredEffects ∧ eff ∈ effects := by
  simp only [explicitEffect, mem_toFinset, mem_filterMap]
  constructor
  · rintro ⟨⟨key, effects⟩, hp, h⟩
    split_ifs at h with heff
    cases h
    cases effects with
    | none => cases heff
    | some es => exact ⟨es, hp, by simpa using heff⟩
  · rintro ⟨effects, hp, heff⟩
    exact ⟨(f, some effects), hp, by simp [heff]⟩

lemma directProperty_iff {s : Summary} : directProperty eff s = true ↔ ∃ φ, effectFact eff φ ∧ s.Has φ := by
  unfold directProperty effectFact
  split_ifs with h
  · subst h
    simp [Summary.Has, or_and_right, exists_or, or_comm]
  · simp [Summary.Has, or_and_right, exists_or, or_comm]

lemma BodyFact.of_visited {body : List Stmt} (h : BodyFact prog false body φ) : BodyFact prog true body φ :=
  h.imp_left fun ⟨x, hx, hφ⟩ => ⟨x, bodyParts_subset body hx, hφ⟩

lemma has_summary_iff {body : List Stmt} (h : Exposed prog body) :
    (summarizeEffectBody prog body).Has φ ↔ BodyFact prog true body φ := by
  rw [has_summarizeEffectBody]
  exact ⟨.of_visited, h φ⟩

lemma mem_effectSummaries {s : Summary} : (f, s) ∈ effectSummaries prog ↔
    ∃ body, (f, body) ∈ prog.bodies ∧ s = summarizeEffectBody prog body := by
  simp only [effectSummaries, mem_map, Prod.mk.injEq, Prod.exists]
  constructor
  · rintro ⟨_, body, hp, rfl, rfl⟩
    exact ⟨body, hp, rfl⟩
  · rintro ⟨body, hp, rfl⟩
    exact ⟨f, body, hp, rfl, rfl⟩

lemma edge_iff_callsTo (h : ∀ p ∈ prog.bodies, Exposed prog p.2) :
    Closure.Edge (effectSummaries prog) Summary.callees f g ↔ CallsTo prog f g := by
  constructor
  · rintro ⟨s, hs, hg⟩
    obtain ⟨body, hp, rfl⟩ := mem_effectSummaries.mp hs
    exact ⟨body, hp, (has_summary_iff (h _ hp)).mp hg⟩
  · rintro ⟨body, hp, hg⟩
    exact ⟨_, mem_effectSummaries.mpr ⟨body, hp, rfl⟩, (has_summary_iff (h _ hp)).mpr hg⟩

lemma source_iff_hasEffect (h : ∀ p ∈ prog.bodies, Exposed prog p.2) :
    Closure.Source (effectSummaries prog) (directProperty eff) (explicitEffect prog eff) f ↔
      HasEffect prog eff f := by
  refine or_congr mem_explicitEffect ⟨?_, ?_⟩
  · rintro ⟨s, hs, hd⟩
    obtain ⟨body, hp, rfl⟩ := mem_effectSummaries.mp hs
    obtain ⟨φ, heff, hφ⟩ := directProperty_iff.mp hd
    exact ⟨body, φ, hp, heff, (has_summary_iff (h _ hp)).mp hφ⟩
  · rintro ⟨body, φ, hp, heff, hφ⟩
    refine ⟨_, mem_effectSummaries.mpr ⟨body, hp, rfl⟩, directProperty_iff.mpr ⟨φ, heff, ?_⟩⟩
    exact (has_summary_iff (h _ hp)).mpr hφ

/-- The closed set of an effect holds exactly the functions from which calls written anywhere
lead to one that has it, and no call that a run makes is left out. -/
theorem closedEffect_complete (prog : Program) (h : ∀ p ∈ prog.bodies, Exposed prog p.2) :
    (∀ eff, ∃ closed, closedEffect prog eff (prog.bodies.length + 1) = some closed ∧
      ∀ f, f ∈ closed ↔ ∃ g, Relation.ReflTransGen (CallsTo prog) f g ∧ HasEffect prog eff g) ∧
    ∀ p ∈ prog.bodies, ∀ (S : Type) (M : Sem String S) s site t, Reach M (execBody p.2) s site t →
        ∀ φ ∈ callFacts prog site, (summarizeEffectBody prog p.2).Has φ := by
  refine ⟨fun eff => ?_, fun p hp S M s site t hreach φ hφ => ?_⟩
  · obtain ⟨closed, hclosed⟩ := Closure.close_total (effectSummaries prog) Summary.callees
      (directProperty eff) (explicitEffect prog eff)
    rw [effectSummaries, length_map] at hclosed
    refine ⟨closed, hclosed, fun f => ?_⟩
    rw [Closure.mem_close hclosed]
    have hedge : Closure.Edge (effectSummaries prog) Summary.callees = CallsTo prog := by
      funext f g
      exact propext (edge_iff_callsTo h)
    refine exists_congr fun g => and_congr ?_ (source_iff_hasEffect h)
    change Relation.ReflTransGen (Closure.Edge (effectSummaries prog) _) f g ↔ _
    rw [hedge]
  · obtain ⟨args, hsite⟩ := isSite_execBody p.2 hreach.mem_acts
    refine (has_summary_iff (h p hp)).mpr (.inl ⟨_, hsite, ?_⟩)
    exact mem_append_right _ hφ

def blocking : Program where
  name := id
  resolvedCallTargets _ := none
  resolvedIndirectCallEffects _ := none
  isAtomic _ := false
  isReservedFunctionName _ := false
  locKey _ := ""
  ioHandleAccesses _ := false
  declaredEffects := [("f", none), ("g", some ["may_block"])]
  bodies := [("f", body)]
  nodup_keys := nodup_singleton "f"

lemma hasEffect_blocking : HasEffect (blocking body) "may_block" "g" :=
  .inl ⟨["may_block"], mem_cons_of_mem _ (mem_singleton.mpr rfl), mem_singleton.mpr rfl⟩

theorem closedEffect_complete_call :
    ∃ closed, closedEffect (blocking [.expr (.call "g" [])]) "may_block" 2 = some closed ∧
      "f" ∈ closed := by
  have hexposed : ∀ p ∈ (blocking [.expr (.call "g" [])]).bodies,
      Exposed (blocking [.expr (.call "g" [])]) p.2 := by
    intro p hp φ hφ
    obtain rfl := mem_singleton.mp hp
    exact hφ
  obtain ⟨closed, hclosed, hmem⟩ := (closedEffect_complete _ hexposed).1 "may_block"
  refine ⟨closed, hclosed, (hmem "f").mpr ⟨"g", .single ?_, hasEffect_blocking _⟩⟩
  exact ⟨_, mem_singleton.mpr rfl, .inl ⟨_, mem_singleton.mpr rfl, mem_singleton.mpr rfl⟩⟩

/-- `g().buf[0]`: the call is not in the summary. -/
theorem closedEffect_base :
    CallsTo (blocking [.expr (.index (.fieldGet (.call "g" []) "buf") (.intLit 0))]) "f" "g" ∧
    HasEffect (blocking [.expr (.index (.fieldGet (.call "g" []) "buf") (.intLit 0))])
      "may_block" "g" ∧
    closedEffect (blocking [.expr (.index (.fieldGet (.call "g" []) "buf") (.intLit 0))])
      "may_block" 2 = some {"g"} := by
  refine ⟨⟨_, mem_singleton.mpr rfl, .inl ⟨.call "g" [], ?_, mem_singleton.mpr rfl⟩⟩,
    hasEffect_blocking _, rfl⟩
  simp [bodyParts, stmtParts, parts, below]

end Completeness
end Takibi.Calls
