import Takibi.Control.Prog
import Takibi.Syntax.Ast

/-! The calls of a function body. The name in a call stands for its site; what is called
there is looked up by it. -/

namespace Takibi.Calls
open Syntax Control List

/-! ## Where calls are written -/

section Parts
variable (all : Bool)

mutual

/-- What is below an expression. Without `all`, not what an index or a slice is taken
from. -/
def below : Expr → List Expr
  | .variantCtor _ _ e | .bnot e | .deref e | .addrOf e | .cast _ e | .fieldGet e _
  | .unsafeExpr e => e :: below e
  | .binOp _ a b | .assign a b => a :: below a ++ b :: below b
  | .call _ es | .structLit es | .tupleLit es => partsAll es
  | .index base i => (if all then base :: below base else []) ++ i :: below i
  | .sliceOf base lo hi =>
    (if all then base :: below base else []) ++ lo :: below lo ++ hi :: below hi
  | _ => []

def partsAll : List Expr → List Expr
  | [] => []
  | e :: es => e :: below e ++ partsAll es

end

def parts (e : Expr) : List Expr := e :: below all e

variable (asserts : Bool)

mutual

/-- The expressions anywhere in a statement; only with `asserts` those of an assertion at
compile time. -/
def stmtParts : Stmt → List Expr
  | .return (some e) | .expr e | .yield e | .letTuple _ e | .let _ _ _ (some e) => parts all e
  | .staticAssert e => if asserts then parts all e else []
  | .block ss | .unsafeBlock ss => bodyParts ss
  | .if cond yes no => parts all cond ++ bodyParts yes ++ bodyParts no
  | .while cond body => parts all cond ++ bodyParts body
  | .for _ _ lo hi body => parts all lo ++ parts all hi ++ bodyParts body
  | .forEach _ e body => parts all e ++ bodyParts body
  | .match disc arms | .letMatch _ _ _ disc arms => parts all disc ++ armsParts arms
  | .return none | .let _ _ _ none | .break | .continue => []

def bodyParts : List Stmt → List Expr
  | [] => []
  | s :: ss => stmtParts s ++ bodyParts ss

def armsParts : List Arm → List Expr
  | [] => []
  | .mk _ body :: arms => bodyParts body ++ armsParts arms

end
end Parts

lemma append_subset_append {as as' bs bs' : List Expr} (ha : as ⊆ as') (hb : bs ⊆ bs') :
    as ++ bs ⊆ as' ++ bs' :=
  append_subset.mpr ⟨fun _ hx => mem_append_left _ (ha hx), fun _ hx => mem_append_right _ (hb hx)⟩

mutual

theorem below_subset : ∀ e : Expr, below false e ⊆ below true e := by
  intro e
  cases e with
  | variantCtor _ _ e | bnot e | deref e | addrOf e | cast _ e | fieldGet e _ | unsafeExpr e =>
    exact cons_subset_cons _ (below_subset e)
  | binOp _ a b | assign a b =>
    exact append_subset_append (cons_subset_cons _ (below_subset a))
        (cons_subset_cons _ (below_subset b))
  | call _ es | structLit es | tupleLit es => exact partsAll_subset es
  | index _ i =>
    exact append_subset_append (nil_subset _) (cons_subset_cons _ (below_subset i))
  | sliceOf _ lo hi =>
    exact append_subset_append
        (append_subset_append (nil_subset _) (cons_subset_cons _ (below_subset lo)))
        (cons_subset_cons _ (below_subset hi))
  | _ => exact nil_subset _
termination_by structural e => e

theorem partsAll_subset : ∀ es : List Expr, partsAll false es ⊆ partsAll true es
  | [] => nil_subset _
  | e :: es =>
    append_subset_append (cons_subset_cons _ (below_subset e)) (partsAll_subset es)
termination_by structural es => es

end

lemma parts_subset (e : Expr) : parts false e ⊆ parts true e :=
  cons_subset_cons _ (below_subset e)

mutual

theorem stmtParts_subset : ∀ st : Stmt, stmtParts false false st ⊆ stmtParts true true st
  | .return (some e) | .expr e | .yield e | .letTuple _ e | .let _ _ _ (some e) => parts_subset e
  | .staticAssert _ | .return none | .let _ _ _ none | .break | .continue => nil_subset _
  | .block ss | .unsafeBlock ss => bodyParts_subset ss
  | .if cond yes no =>
    append_subset_append (append_subset_append (parts_subset cond) (bodyParts_subset yes))
      (bodyParts_subset no)
  | .while e body | .forEach _ e body =>
    append_subset_append (parts_subset e) (bodyParts_subset body)
  | .for _ _ lo hi body =>
    append_subset_append (append_subset_append (parts_subset lo) (parts_subset hi))
      (bodyParts_subset body)
  | .match disc arms | .letMatch _ _ _ disc arms =>
    append_subset_append (parts_subset disc) (armsParts_subset arms)
termination_by structural st => st

theorem bodyParts_subset : ∀ ss : List Stmt, bodyParts false false ss ⊆ bodyParts true true ss
  | [] => nil_subset _
  | st :: ss => append_subset_append (stmtParts_subset st) (bodyParts_subset ss)
termination_by structural ss => ss

theorem armsParts_subset : ∀ arms : List Arm, armsParts false false arms ⊆ armsParts true true arms
  | [] => nil_subset _
  | .mk _ body :: arms => append_subset_append (bodyParts_subset body) (armsParts_subset arms)
termination_by structural arms => arms

end

/-! ## The order in which they are made -/

mutual

/-- An indexed or sliced base is evaluated after its bounds, and after the value that is
assigned to its element. -/
def evalCalls : Expr → Prog String
  | .call site args => .seq (evalCallsAll args) (.act site)
  | .variantCtor _ _ e | .unsafeExpr e | .fieldGet e _ | .addrOf e | .deref e | .bnot e
  | .cast _ e => evalCalls e
  | .binOp .and a b | .binOp .or a b => .seq (evalCalls a) (.choose .skip (evalCalls b))
  | .binOp _ a b => .seq (evalCalls a) (evalCalls b)
  | .structLit es | .tupleLit es => evalCallsAll es
  | .index base i => .seq (evalCalls i) (evalCalls base)
  | .sliceOf base lo hi => .seq (evalCalls lo) (.seq (evalCalls hi) (evalCalls base))
  | .assign lhs rhs =>
    match lhs with
    | .deref a | .fieldGet a _ => .seq (evalCalls a) (evalCalls rhs)
    | .index base i => .seq (evalCalls i) (.seq (evalCalls rhs) (evalCalls base))
    | _ => evalCalls rhs
  | _ => .skip

def evalCallsAll : List Expr → Prog String
  | [] => .skip
  | e :: es => .seq (evalCalls e) (evalCallsAll es)

end

mutual

/-- Conditions and subjects decide freely, except for `while (true)`. -/
def execCalls : Stmt → Prog String
  | .return (some e) => .seq (evalCalls e) .ret
  | .return none => .ret
  | .expr e | .yield e | .letTuple _ e | .let _ _ _ (some e) => evalCalls e
  | .let _ _ _ none | .staticAssert _ => .skip
  | .block ss | .unsafeBlock ss => execBody ss
  | .if cond yes no => .seq (evalCalls cond) (.choose (execBody yes) (execBody no))
  | .while (.boolLit true) body => .loop (execBody body)
  | .while cond body => .loop (.seq (evalCalls cond) (.choose (execBody body) .brk))
  | .for _ _ lo hi body =>
    .seq (evalCalls lo) (.seq (evalCalls hi) (.loop (.choose (execBody body) .brk)))
  | .forEach _ e body => .seq (evalCalls e) (.loop (.choose (execBody body) .brk))
  | .match disc arms | .letMatch _ _ _ disc arms => .seq (evalCalls disc) (.choices (execArms arms))
  | .break => .brk
  | .continue => .cont

def execBody : List Stmt → Prog String
  | [] => .skip
  | s :: ss => .seq (execCalls s) (execBody ss)

def execArms : List Arm → List (Prog String)
  | [] => []
  | .mk _ body :: arms => execBody body :: execArms arms

end

/-! ## Every call that is made is written -/

def IsSite (es : List Expr) (site : String) : Prop := ∃ args, .call site args ∈ es

section Written
variable {es es' : List Expr} {site : String} {asserts : Bool}

lemma IsSite.mono (h : IsSite es site) (hsub : es ⊆ es') : IsSite es' site := by
  obtain ⟨args, ha⟩ := h
  exact ⟨args, hsub ha⟩

lemma IsSite.inl (h : IsSite es site) : IsSite (es ++ es') site :=
  h.mono (subset_append_left ..)

lemma IsSite.inr (h : IsSite es' site) : IsSite (es ++ es') site :=
  h.mono (subset_append_right ..)

lemma IsSite.parts {e : Expr} (h : IsSite (below true e) site) : IsSite (parts true e) site :=
  h.mono fun _ hx => mem_cons_of_mem _ hx

mutual

theorem isSite_evalCalls : ∀ e : Expr, site ∈ (evalCalls e).acts → IsSite (parts true e) site := by
  intro e
  cases e with
  | call f args =>
    intro h
    rcases mem_append.mp h with h | h
    · exact .parts (isSite_evalCallsAll args h)
    · rw [mem_singleton.mp h]
      exact ⟨args, mem_cons_self ..⟩
  | variantCtor _ _ e | unsafeExpr e | fieldGet e _ | addrOf e | deref e | bnot e | cast _ e =>
    exact fun h => .parts (isSite_evalCalls e h)
  | binOp op a b =>
    intro h
    have hab : site ∈ (evalCalls a).acts ∨ site ∈ (evalCalls b).acts := by
      cases op <;> simpa [evalCalls, Prog.acts] using h
    rcases hab with h | h
    · exact .parts (isSite_evalCalls a h).inl
    · exact .parts (isSite_evalCalls b h).inr
  | structLit es | tupleLit es => exact fun h => .parts (isSite_evalCallsAll es h)
  | index base i =>
    intro h
    rcases mem_append.mp h with h | h
    · exact .parts (isSite_evalCalls i h).inr
    · exact .parts (isSite_evalCalls base h).inl
  | sliceOf base lo hi =>
    intro h
    simp only [evalCalls, Prog.acts, mem_append] at h
    rcases h with h | h | h
    · exact .parts (isSite_evalCalls lo h).inr.inl
    · exact .parts (isSite_evalCalls hi h).inr
    · exact .parts (isSite_evalCalls base h).inl.inl
  | assign lhs rhs =>
    intro h
    have hsides : site ∈ (evalCalls lhs).acts ∨ site ∈ (evalCalls rhs).acts := by
      cases lhs with
      | deref a | fieldGet a f => exact mem_append.mp h
      | index base i =>
        simp only [evalCalls, Prog.acts, mem_append] at h ⊢
        tauto
      | _ => exact .inr h
    rcases hsides with h | h
    · exact .parts (isSite_evalCalls lhs h).inl
    · exact .parts (isSite_evalCalls rhs h).inr
  | _ => exact nofun
termination_by structural e => e

theorem isSite_evalCallsAll : ∀ es : List Expr, site ∈ (evalCallsAll es).acts →
    IsSite (partsAll true es) site
  | [] => nofun
  | e :: es => fun h => by
    rcases mem_append.mp h with h | h
    · exact (isSite_evalCalls e h).inl
    · exact (isSite_evalCallsAll es h).inr
termination_by structural es => es

end

lemma mem_acts_while {cond : Expr} {body : List Stmt}
    (h : site ∈ (execCalls (.while cond body)).acts) :
    site ∈ (evalCalls cond).acts ∨ site ∈ (execBody body).acts := by
  cases cond with
  | boolLit b =>
    cases b with
    | true => exact .inr h
    | false => simpa [execCalls, Prog.acts] using h
  | _ => simpa [execCalls, Prog.acts] using h

mutual

theorem isSite_execCalls : ∀ st : Stmt, site ∈ (execCalls st).acts →
    IsSite (stmtParts true asserts st) site
  | .return none | .let _ _ _ none | .staticAssert _ | .break | .continue => nofun
  | .return (some e) => fun h => isSite_evalCalls e ((mem_append.mp h).resolve_right nofun)
  | .expr e | .yield e | .letTuple _ e | .let _ _ _ (some e) => fun h => isSite_evalCalls e h
  | .block ss | .unsafeBlock ss => fun h => isSite_execBody ss h
  | .if cond yes no => fun h => by
    simp only [execCalls, Prog.acts, mem_append] at h
    rcases h with h | h | h
    · exact (isSite_evalCalls cond h).inl.inl
    · exact (isSite_execBody yes h).inr.inl
    · exact (isSite_execBody no h).inr
  | .while cond body => fun h => by
    rcases mem_acts_while h with h | h
    · exact (isSite_evalCalls cond h).inl
    · exact (isSite_execBody body h).inr
  | .for _ _ lo hi body => fun h => by
    simp only [execCalls, Prog.acts, mem_append, append_nil] at h
    rcases h with h | h | h
    · exact (isSite_evalCalls lo h).inl.inl
    · exact (isSite_evalCalls hi h).inr.inl
    · exact (isSite_execBody body h).inr
  | .forEach _ e body => fun h => by
    simp only [execCalls, Prog.acts, mem_append, append_nil] at h
    rcases h with h | h
    · exact (isSite_evalCalls e h).inl
    · exact (isSite_execBody body h).inr
  | .match disc arms | .letMatch _ _ _ disc arms => fun h => by
    rcases mem_append.mp h with h | h
    · exact (isSite_evalCalls disc h).inl
    · obtain ⟨p, hp, h⟩ := Prog.mem_acts_choices.mp h
      exact (isSite_execArms arms p hp h).inr
termination_by structural st => st

theorem isSite_execBody : ∀ ss : List Stmt, site ∈ (execBody ss).acts →
    IsSite (bodyParts true asserts ss) site
  | [] => nofun
  | st :: ss => fun h => by
    rcases mem_append.mp h with h | h
    · exact (isSite_execCalls st h).inl
    · exact (isSite_execBody ss h).inr
termination_by structural ss => ss

theorem isSite_execArms : ∀ (arms : List Arm), ∀ p ∈ execArms arms, site ∈ p.acts →
    IsSite (armsParts true asserts arms) site
  | [] => nofun
  | .mk _ body :: arms => fun p hp h => by
    rcases mem_cons.mp hp with rfl | hp
    · exact (isSite_execBody body h).inl
    · exact (isSite_execArms arms p hp h).inr
termination_by structural arms => arms

end
end Written
end Takibi.Calls
