import Takibi.Irq.MaskRun

/-! Where statements jump to, and statements that the walk of the IRQ mask leaves in the state
in which it enters them. -/

namespace Takibi.Irq
open Syntax Control Calls Prog List Bool
variable {ctx : Context} {I : String → Bool} {S : Summaries}

/-! ## Jumps -/

section Jumps
variable {x : Exit}

mutual

theorem exits_evalCalls : ∀ e : Expr, (evalCalls e).exits = [] := by
  intro e
  cases e with
  | call _ args =>
    change (evalCallsAll args).exits ++ [] = []
    rw [exits_evalCallsAll args]
    rfl
  | variantCtor _ _ e | unsafeExpr e | fieldGet e _ | addrOf e | deref e | bnot e | cast _ e =>
    exact exits_evalCalls e
  | binOp op a b =>
    have ha := exits_evalCalls a
    have hb := exits_evalCalls b
    cases op <;> simp [evalCalls, exits, ha, hb]
  | structLit es | tupleLit es => exact exits_evalCallsAll es
  | index base i => simp [evalCalls, exits, exits_evalCalls base, exits_evalCalls i]
  | sliceOf base lo hi =>
    simp [evalCalls, exits, exits_evalCalls base, exits_evalCalls lo, exits_evalCalls hi]
  | assign lhs rhs =>
    have hrhs := exits_evalCalls rhs
    cases lhs with
    | deref a | fieldGet a f => simp [evalCalls, exits, hrhs, exits_evalCalls a]
    | index base i =>
      simp [evalCalls, exits, hrhs, exits_evalCalls base, exits_evalCalls i]
    | _ => exact hrhs
  | _ => rfl
termination_by structural e => e

theorem exits_evalCallsAll : ∀ es : List Expr, (evalCallsAll es).exits = []
  | [] => rfl
  | e :: es => by
    change (evalCalls e).exits ++ (evalCallsAll es).exits = []
    rw [exits_evalCalls e, exits_evalCallsAll es]
    rfl
termination_by structural es => es

end

lemma jump_notMem_loop (hx : x ≠ .ret) (p : Prog String) : x ∉ (Prog.loop p).exits := fun h =>
  hx (of_decide_eq_true (mem_filter.mp h).2)

mutual

theorem jump_notMem_exits (hx : x ≠ .ret) :
    ∀ st : Stmt, jumps x st = false → x ∉ (execCalls st).exits
  | .return none, _ => by simpa [execCalls, exits] using hx
  | .return (some e), _ => by simpa [execCalls, exits, exits_evalCalls e] using hx
  | .expr e, _ | .yield e, _ | .letTuple _ e, _ | .let _ _ _ (some e), _ => by
    simp [execCalls, exits_evalCalls e]
  | .let _ _ _ none, _ | .staticAssert _, _ => not_mem_nil
  | .block ss, h | .unsafeBlock ss, h => jump_notMem_body hx ss h
  | .if cond yes no, h => by
    obtain ⟨hy, hn⟩ := or_eq_false_iff.mp h
    have hyes := jump_notMem_body hx yes hy
    have hno := jump_notMem_body hx no hn
    simp [execCalls, exits, exits_evalCalls cond, hyes, hno]
  | .while cond body, _ => by
    cases cond with
    | boolLit b => cases b <;> exact jump_notMem_loop hx _
    | _ => exact jump_notMem_loop hx _
  | .for _ _ lo hi body, _ => by
    have hloop := jump_notMem_loop hx (.choose (execBody body) .brk)
    rw [execCalls, exits, exits, exits_evalCalls lo, exits_evalCalls hi]
    exact hloop
  | .forEach _ e body, _ => by
    have hloop := jump_notMem_loop hx (.choose (execBody body) .brk)
    rw [execCalls, exits, exits_evalCalls e]
    exact hloop
  | .match disc arms, h | .letMatch _ _ _ disc arms, h => by
    have harms := jump_notMem_arms hx arms h
    rw [execCalls, exits, exits_evalCalls disc]
    intro hmem
    obtain ⟨p, hp, hmem⟩ := mem_exits_choices.mp hmem
    exact harms p hp hmem
  | .break, h | .continue, h => by simpa [jumps, execCalls, exits] using h
termination_by structural st => st

theorem jump_notMem_body (hx : x ≠ .ret) :
    ∀ ss : List Stmt, anyJump x ss = false → x ∉ (execBody ss).exits
  | [], _ => not_mem_nil
  | st :: ss, h => by
    obtain ⟨hst, hss⟩ := or_eq_false_iff.mp h
    intro hmem
    rcases mem_append.mp hmem with hmem | hmem
    · exact jump_notMem_exits hx st hst hmem
    · exact jump_notMem_body hx ss hss hmem
termination_by structural ss => ss

theorem jump_notMem_arms (hx : x ≠ .ret) :
    ∀ arms : List Arm, armsJump x arms = false → ∀ p ∈ execArms arms, x ∉ p.exits
  | [], _, _, hp => absurd hp not_mem_nil
  | .mk _ body :: arms, h, p, hp => by
    obtain ⟨hbody, harms⟩ := or_eq_false_iff.mp h
    rcases mem_cons.mp hp with rfl | hp
    · exact jump_notMem_body hx body hbody
    · exact jump_notMem_arms hx arms harms p hp
termination_by structural arms => arms

end
end Jumps

/-! ## Loops of the walk -/

lemma loop_spec {body : Walk → Walk} (P : Walk → Prop)
    (hstep : ∀ u, P u → P { body u with state := u.state.join (body u).state })
    (w : Walk) (hw : P w) :
    ∃ u, P u ∧ u.state.join (body u).state = u.state ∧ loop body w = { body u with state := u.state } := by
  fun_induction loop body w with
  | case1 w hstay => exact ⟨w, hw, hstay, by rw [hstay]⟩
  | case2 w hmove ih => exact ih (hstep w hw)

lemma loop_still (f : Walk → Walk) (w : Walk) (hf : (f w).state = w.state) : (loop f w).state = w.state := by
  have hstay : w.state.join (f w).state = w.state := by rw [hf, join_self]
  rw [loop, dif_pos hstay]
  exact hstay

section Still

mutual

theorem walkStmt_still (hI : LeavesAlone ctx I S) :
    ∀ (st : Stmt) (w : Walk), still ctx I st = true → (walkStmt ctx S w st).state = w.state
  | .return _, _, h => by cases h
  | .expr e, w, h | .letTuple _ e, w, h | .yield e, w, h | .let _ _ _ (some e), w, h =>
    walkExpr_quiet hI e w h
  | .block ss, w, h | .unsafeBlock ss, w, h => walkStmts_still hI ss w h
  | .if cond yes no, w, h => by
    simp only [still, and_eq_true] at h
    obtain ⟨⟨hcond, hyes⟩, hno⟩ := h
    have hc := walkExpr_quiet hI cond w hcond
    simp only [walkStmt]
    rw [walkStmts_still hI yes _ hyes, walkStmts_still hI no _ hno, join_self, hc]
  | .while cond body, w, h => by
    simp only [still, and_eq_true] at h
    obtain ⟨⟨hcond, hbody⟩, hleft⟩ := h
    have hloop : ∀ w, (loop (fun w => walkStmts ctx S w body) w).state = w.state := fun w =>
      loop_still _ w (walkStmts_still hI body w hbody)
    have hc := walkExpr_quiet hI cond w hcond
    simp only [walkStmt]
    split
    · simp_all
    · rw [hloop, hc]
  | .for _ _ lo hi body, w, h => by
    simp only [still, and_eq_true] at h
    obtain ⟨⟨hlo, hhi⟩, hbody⟩ := h
    rw [walkStmt, loop_still _ _ (walkStmts_still hI body _ hbody), walkExpr_quiet hI hi _ hhi,
      walkExpr_quiet hI lo _ hlo]
  | .forEach _ e body, w, h => by
    obtain ⟨he, hbody⟩ := and_eq_true_iff.mp h
    rw [walkStmt, loop_still _ _ (walkStmts_still hI body _ hbody), walkExpr_quiet hI e _ he]
  | .match disc arms, w, h | .letMatch _ _ _ disc arms, w, h => by
    simp only [still, and_eq_true] at h
    obtain ⟨⟨hdisc, hne⟩, harms⟩ := h
    have hd := walkExpr_quiet hI disc w hdisc
    simp only [walkStmt]
    rw [walkArms_still hI arms _ _ harms (.inr ⟨rfl, by simpa using hne⟩), hd]
  | .let _ _ _ none, _, _ | .break, _, _ | .continue, _, _ | .staticAssert _, _, _ => rfl
termination_by structural st => st

theorem walkStmts_still (hI : LeavesAlone ctx I S) :
    ∀ (ss : List Stmt) (w : Walk), stillAll ctx I ss = true → (walkStmts ctx S w ss).state = w.state
  | [], _, _ => rfl
  | st :: ss, w, h => by
    obtain ⟨hst, hss⟩ := and_eq_true_iff.mp h
    rw [walkStmts, walkStmts_still hI ss _ hss, walkStmt_still hI st w hst]
termination_by structural ss => ss

theorem walkArms_still (hI : LeavesAlone ctx I S) :
    ∀ (arms : List Arm) (state : MaskState) (w : Walk), stillArms ctx I arms = true →
      w.state = state ∨ w.state = .dead ∧ arms ≠ [] → (walkArms ctx S state w arms).state = state
  | [], state, w, _, h => h.resolve_right fun h => h.2 rfl
  | .mk _ body :: arms, state, w, h, hw => by
    obtain ⟨hbody, harms⟩ := and_eq_true_iff.mp h
    have hstate := walkStmts_still hI body { w with state := state } hbody
    have hjoin : w.state.join (walkStmts ctx S { w with state := state } body).state = state := by
      rw [hstate]
      rcases hw with hw | ⟨hw, _⟩
      · rw [hw, join_self]
      · rw [hw]
        rfl
    exact walkArms_still hI arms state _ harms (.inl hjoin)
termination_by structural arms => arms

end
end Still
end Takibi.Irq
