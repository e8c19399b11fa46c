import Takibi.Irq.MaskStill

/-! The walk of the IRQ mask through statements: it follows every execution of a body that
keeps to the discipline. -/

namespace Takibi.Irq
open Syntax Control Calls Option List Bool
variable {ctx : Context} {I : String → Bool} {sig : Signature} {S : Summaries} {arms : List Arm}

def leaving (w : Walk) : Post Daif :=
  ⟨Covers w.state, Covers w.state, Covers w.state, Covers w.returned⟩

structure StmtOk (A : Prop) (M : Sem String Daif) (ret : Level) (w w' : Walk) (l' : Level)
    (p : Prog String) : Prop where
  level : HasLevel w'.state l'
  returned : HasLevel w'.returned ret
  visits : w.visits ⊆ w'.visits
  keeps : ∀ t, Covers w.returned t → Covers w'.returned t
  runs : A → ∀ s, Covers w.state s → WP M (Seen w'.visits) p (leaving w') s

variable (ctx I sig S) in
def StmtSpec (M : Sem String Daif) (st : Stmt) : Prop :=
  ∀ ret w l l', HasLevel w.state l → HasLevel w.returned ret →
    stmtLevel ctx I sig ret l st = some l' →
      StmtOk (LeavesAlone ctx I S) M ret w (walkStmt ctx S w st) l' (execCalls st)

variable (ctx I sig S) in
def BodySpec (M : Sem String Daif) (ss : List Stmt) : Prop :=
  ∀ ret w l l', HasLevel w.state l → HasLevel w.returned ret →
    stmtsLevel ctx I sig ret l ss = some l' →
      StmtOk (LeavesAlone ctx I S) M ret w (walkStmts ctx S w ss) l' (execBody ss)

section Statements
variable {A : Prop} {M : Sem String Daif} {w w₁ w₂ : Walk} {ret l l' l₁ l₂ : Level} {p q : Prog String}
  {e : Expr} {st : Stmt} {ss yes no body : List Stmt}

lemma ExprOk.stmtOk (h : ExprOk A M w w₁ l₁ p) (hret : HasLevel w.returned ret) : StmtOk A M ret w w₁ l₁ p := by
  refine ⟨h.level, h.returned ▸ hret, h.visits, fun t ht => h.returned ▸ ht, fun hA s hs => ?_⟩
  refine (h.runs hA s hs).mono fun x t ht => ?_
  cases x with
  | normal => exact ht
  | _ => exact ht.elim

lemma stmtOk_skip (hw : HasLevel w.state l) (hret : HasLevel w.returned ret) : StmtOk A M ret w w l .skip :=
  (exprOk_skip hw).stmtOk hret

lemma StmtOk.seq (hp : StmtOk A M ret w w₁ l₁ p) (hq : StmtOk A M ret w₁ w₂ l₂ q)
    (hjump : (A → w₂.state = w₁.state) ∨ .brk ∉ p.exits ∧ .cont ∉ p.exits) :
    StmtOk A M ret w w₂ l₂ (.seq p q) := by
  refine ⟨hq.level, hq.returned, List.Subset.trans hp.visits hq.visits,
    fun t ht => hq.keeps t (hp.keeps t ht), fun hA s hs => wp_seq ?_⟩
  have hrun := hp.runs hA s hs
  refine ⟨fun x t hr => ?_, fun a t hr => (hrun.safe a t hr).mono hq.visits⟩
  have hend := hrun.ends x t hr
  -- a jump of the first part ends in the state after the second one
  have hstate : Covers w₁.state t → x = .brk ∨ x = .cont → Covers w₂.state t := by
    rintro hcovers hx
    rcases hjump with hstay | ⟨hbrk, hcont⟩
    · rwa [hstay hA]
    · rcases hx with rfl | rfl
      · exact absurd (hr.mem_exits.resolve_left nofun) hbrk
      · exact absurd (hr.mem_exits.resolve_left nofun) hcont
  cases x with
  | normal => exact hq.runs hA t hend
  | brk => exact hstate hend (.inl rfl)
  | cont => exact hstate hend (.inr rfl)
  | ret => exact hq.keeps t hend

lemma ExprOk.seq_stmt (hp : ExprOk A M w w₁ l₁ p) (hq : StmtOk A M ret w₁ w₂ l₂ q)
    (hret : HasLevel w.returned ret) (hexits : p.exits = []) :
    StmtOk A M ret w w₂ l₂ (.seq p q) := by
  refine (hp.stmtOk hret).seq hq (.inr ?_)
  simp [hexits]

lemma stmtOk_return (hw : HasLevel w.state l) (hret : HasLevel w.returned ret)
    (hfits : l.fits ret = true) : StmtOk A M ret w (walkReturn w) .dead .ret := by
  have hstate := hw.fits hfits
  exact ⟨trivial, hret.join hstate, List.Subset.refl _, fun t ht => ht.join_left hret hstate,
    fun _ s hs => wp_ret (hs.join_right hret hstate)⟩

lemma stmtSpec_return (he : ExprSpec ctx I sig S M e) : StmtSpec ctx I sig S M (.return (some e)) := by
  intro ret w l l' hw hret h
  obtain ⟨l₁, h₁, h₂⟩ := bind_eq_some_iff.mp h
  have hval := he w l l₁ hw h₁
  split_ifs at h₂ with hfits
  cases h₂
  refine hval.seq_stmt (stmtOk_return hval.level ?_ hfits) hret (exits_evalCalls e)
  rwa [hval.returned]

lemma stmtSpec_expr (he : ExprSpec ctx I sig S M e) : StmtSpec ctx I sig S M (.expr e) :=
  fun _ w l l' hw hret h => (he w l l' hw h).stmtOk hret

lemma bodySpec_cons (hst : StmtSpec ctx I sig S M st)
    (hss : BodySpec ctx I sig S M ss) : BodySpec ctx I sig S M (st :: ss) := by
  intro ret w l l' hw hret h
  rw [stmtsLevel] at h
  split_ifs at h with hjump
  obtain ⟨l₁, h₁, h₂⟩ := bind_eq_some_iff.mp h
  have hfirst := hst ret w l l₁ hw hret h₁
  refine hfirst.seq (hss ret _ l₁ l' hfirst.level hfirst.returned h₂) ?_
  rw [and_eq_true, not_and_or, not_eq_true, or_eq_false_iff] at hjump
  rcases hjump with ⟨hbrk, hcont⟩ | hstill
  · exact .inr ⟨jump_notMem_exits (by decide) st hbrk, jump_notMem_exits (by decide) st hcont⟩
  · exact .inl fun hI => walkStmts_still hI ss _ (by simpa using hstill)

variable {cond : Expr}

lemma stmtSpec_if (hcond : ExprSpec ctx I sig S M cond) (hyes : BodySpec ctx I sig S M yes)
    (hno : BodySpec ctx I sig S M no) :
    StmtSpec ctx I sig S M (.if cond yes no) := by
  intro ret w l l' hw hret h
  obtain ⟨l₁, h₁, h⟩ := bind_eq_some_iff.mp h
  obtain ⟨y, hy, h⟩ := bind_eq_some_iff.mp h
  obtain ⟨n, hn, hjoin⟩ := bind_eq_some_iff.mp h
  obtain ⟨hyfits, hnfits⟩ := Level.fits_join hjoin
  have hc := hcond w l l₁ hw h₁
  have hok₁ := hyes ret _ l₁ y hc.level (hc.returned ▸ hret) hy
  set w₁ := walkExpr ctx S w cond with hw₁
  have hok₂ := hno ret { walkStmts ctx S w₁ yes with state := w₁.state } l₁ n hc.level
    hok₁.returned hn
  have hylevel := hok₁.level.fits hyfits
  have hnlevel := hok₂.level.fits hnfits
  refine hc.seq_stmt ⟨hylevel.join hnlevel, hok₂.returned, List.Subset.trans hok₁.visits hok₂.visits,
    fun t ht => hok₂.keeps t (hok₁.keeps t ht), fun hA s hs => wp_choose ?_ ?_⟩ hret
    (exits_evalCalls cond)
  · refine ((hok₁.runs hA s hs).mono_ok fun _ _ h => h.mono hok₂.visits).mono fun x t ht => ?_
    cases x with
    | ret => exact hok₂.keeps t ht
    | _ => exact ht.join_left hylevel hnlevel
  · refine (hok₂.runs hA s hs).mono fun x t ht => ?_
    cases x with
    | ret => exact ht
    | _ => exact ht.join_right hylevel hnlevel

/-! ## Loops -/

structure Extends (A : Prop) (ret l : Level) (w w' : Walk) : Prop where
  level : HasLevel w'.state l
  returned : HasLevel w'.returned ret
  visits : w.visits ⊆ w'.visits
  keeps : ∀ t, Covers w.returned t → Covers w'.returned t
  enters : A → ∀ t, Covers w.state t → Covers w'.state t

structure LoopOk (A : Prop) (M : Sem String Daif) (ret l : Level) (w w' : Walk) (p : Prog String) : Prop
    extends Extends A ret l w w' where
  body : A → ∀ s, Covers w'.state s → WP M (Seen w'.visits) p (leaving w') s

lemma Extends.refl (hw : HasLevel w.state l) (hret : HasLevel w.returned ret) : Extends A ret l w w :=
  ⟨hw, hret, List.Subset.refl _, fun _ ht => ht, fun _ _ ht => ht⟩

lemma Extends.step (h : Extends A ret l w w₁) (hok : StmtOk A M ret w₁ w₂ l₁ p)
    (hfits : l₁.fits l = true) :
    Extends A ret l w { w₂ with state := w₁.state.join w₂.state } := by
  have hjoin := hok.level.fits hfits
  exact ⟨h.level.join hjoin, hok.returned, List.Subset.trans h.visits hok.visits,
    fun t ht => hok.keeps t (h.keeps t ht), fun hA t ht => (h.enters hA t ht).join_left h.level hjoin⟩

lemma loopOk (hbody : BodySpec ctx I sig S M body) (hw : HasLevel w.state l)
    (hret : HasLevel w.returned ret)
    (h : (stmtsLevel ctx I sig ret l body).bind (loopLevel l) = some l') :
    l' = l ∧ LoopOk (LeavesAlone ctx I S) M ret l w (loop (fun w => walkStmts ctx S w body) w) (execBody body) := by
  obtain ⟨l₁, h₁, h₂⟩ := bind_eq_some_iff.mp h
  unfold loopLevel at h₂
  split_ifs at h₂ with hfits
  refine ⟨(some.inj h₂).symm, ?_⟩
  have hstep : ∀ u, Extends (LeavesAlone ctx I S) ret l w u → Extends (LeavesAlone ctx I S) ret l w
      { walkStmts ctx S u body with state := u.state.join (walkStmts ctx S u body).state } :=
    fun u hu => hu.step (hbody ret u l l₁ hu.level hu.returned h₁) hfits
  obtain ⟨u, hu, hstay, hloop⟩ := loop_spec (Extends (LeavesAlone ctx I S) ret l w) hstep w (.refl hw hret)
  have hok := hbody ret u l l₁ hu.level hu.returned h₁
  have hlast := hu.step hok hfits
  rw [hstay] at hlast
  rw [hloop]
  refine ⟨hlast, fun hA s hs => (hok.runs hA s hs).mono fun x t ht => ?_⟩
  cases x with
  | ret => exact ht
  | _ => exact hstay ▸ ht.join_right hu.level (hok.level.fits hfits)

section
variable (h : LoopOk A M ret l w w₁ p)
include h

lemma LoopOk.stmtOk (hq : A → ∀ s, Covers w₁.state s → WP M (Seen w₁.visits) q (leaving w₁) s) :
    StmtOk A M ret w w₁ l (.loop q) :=
  ⟨h.level, h.returned, h.visits, h.keeps, fun hA s hs => wp_loop (Covers w₁.state) (h.enters hA s hs) (hq hA)⟩

lemma LoopOk.optional : StmtOk A M ret w w₁ l (.loop (.choose p .brk)) :=
  h.stmtOk fun hA s hs => wp_choose (h.body hA s hs) (wp_brk hs)

lemma LoopOk.endless (hbrk : .brk ∉ p.exits) : StmtOk A M ret w { w₁ with state := .dead } .dead (.loop p) := by
  refine ⟨trivial, h.returned, h.visits, h.keeps, fun hA s hs => ?_⟩
  refine wp_loop (Covers w₁.state) (h.enters hA s hs) fun t ht => ?_
  refine ⟨fun x u hr => ?_, (h.body hA t ht).safe⟩
  have hend := (h.body hA t ht).ends x u hr
  cases x with
  | brk => exact absurd (hr.mem_exits.resolve_left nofun) hbrk
  | _ => exact hend

lemma LoopOk.while
    (hcond : A → ∀ s, Covers w₁.state s → WP M (Seen w₁.visits) q (passing (Covers w₁.state)) s) :
    StmtOk A M ret w w₁ l (.loop (.seq q (.choose p .brk))) := by
  refine h.stmtOk fun hA s hs => wp_seq ((hcond hA s hs).mono fun x t ht => ?_)
  cases x with
  | normal => exact wp_choose (h.body hA t ht) (wp_brk ht)
  | _ => exact ht.elim

end

lemma stmtSpec_for {k t} {lo hi : Expr} (hlo : ExprSpec ctx I sig S M lo)
    (hhi : ExprSpec ctx I sig S M hi) (hbody : BodySpec ctx I sig S M body) :
    StmtSpec ctx I sig S M (.for k t lo hi body) := by
  intro ret w l l' hw hret h
  obtain ⟨l₂, h₁₂, h₃⟩ := bind_eq_some_iff.mp h
  obtain ⟨l₁, h₁, h₂⟩ := bind_eq_some_iff.mp h₁₂
  have hfirst := hlo w l l₁ hw h₁
  have hsecond := hhi _ l₁ l₂ hfirst.level h₂
  have hret₁ : HasLevel (walkExpr ctx S w lo).returned ret := hfirst.returned ▸ hret
  obtain ⟨rfl, hloop⟩ := loopOk hbody hsecond.level (hsecond.returned ▸ hret₁) h₃
  exact hfirst.seq_stmt (hsecond.seq_stmt hloop.optional hret₁ (exits_evalCalls hi)) hret
    (exits_evalCalls lo)

lemma stmtSpec_forEach {x} (he : ExprSpec ctx I sig S M e) (hbody : BodySpec ctx I sig S M body) :
    StmtSpec ctx I sig S M (.forEach x e body) := by
  intro ret w l l' hw hret h
  obtain ⟨l₁, h₁, h₂⟩ := bind_eq_some_iff.mp h
  have hfirst := he w l l₁ hw h₁
  obtain ⟨rfl, hloop⟩ := loopOk hbody hfirst.level (hfirst.returned ▸ hret) h₂
  exact hfirst.seq_stmt hloop.optional hret (exits_evalCalls e)

lemma LoopOk.after (h : LoopOk A M ret l w₁ w₂ p) (hq : ExprOk A M w w₁ l₁ q)
    (hstate : A → w₁.state = w.state) : LoopOk A M ret l w w₂ p where
  __ := h
  visits := List.Subset.trans hq.visits h.visits
  keeps := fun t ht => h.keeps t (hq.returned ▸ ht)
  enters := fun hA t ht => h.enters hA t (hstate hA ▸ ht)

lemma walkStmt_while (h : cond ≠ .boolLit true) (w : Walk) : walkStmt ctx S w (.while cond body) =
      loop (fun w => walkStmts ctx S w body) (walkExpr ctx S w cond) := by
  simp only [walkStmt]
  split
  · exact absurd rfl h
  · rfl

lemma execCalls_while (h : cond ≠ .boolLit true) :
    execCalls (.while cond body) = .loop (.seq (evalCalls cond) (.choose (execBody body) .brk)) := by
  cases cond with
  | boolLit b =>
    cases b with
    | true => exact absurd rfl h
    | false => rfl
  | _ => rfl

lemma stmtSpec_while_true (hbody : BodySpec ctx I sig S M body) :
    StmtSpec ctx I sig S M (.while (.boolLit true) body) := by
  intro ret w l l' hw hret h
  obtain ⟨l₂, h₂, hl'⟩ := map_eq_some_iff.mp h
  obtain ⟨rfl, hloop⟩ := loopOk hbody hw hret h₂
  simp only [walkStmt]
  cases hb : hasBreak body with
  | false =>
    obtain rfl : .dead = l' := by simpa [hb] using hl'
    exact hloop.endless (jump_notMem_body (by decide) body hb)
  | true =>
    obtain rfl : l₂ = l' := by simpa [hb] using hl'
    exact hloop.stmtOk hloop.body

lemma stmtSpec_while (hcond : ExprSpec ctx I sig S M cond)
    (hbody : BodySpec ctx I sig S M body) : StmtSpec ctx I sig S M (.while cond body) := by
  by_cases htrue : cond = .boolLit true
  · rw [htrue]
    exact stmtSpec_while_true hbody
  · intro ret w l l' hw hret h
    rw [stmtLevel] at h
    case x_2 => exact htrue
    obtain ⟨hcase, h⟩ := ite_none_right_eq_some.mp h
    obtain ⟨l₁, h₁, h⟩ := bind_eq_some_iff.mp h
    obtain ⟨l₂, h₂, hl'⟩ := map_eq_some_iff.mp h
    have hc := hcond w l l₁ hw h₁
    obtain ⟨rfl, hloop⟩ := loopOk hbody hc.level (hc.returned ▸ hret) h₂
    obtain rfl : l₂ = l' := by
      rw [if_neg (by simp)] at hl'
      exact hl'
    rw [or_eq_true, and_eq_true] at hcase
    have hquiet : quiet ctx I cond = true := hcase.elim callsAll_of_none And.left
    have hstate := fun hI => walkExpr_quiet (S := S) hI cond w hquiet
    rw [walkStmt_while htrue, execCalls_while htrue]
    refine (hloop.after hc hstate).while fun hI s hs => ?_
    rcases hcase with hfree | ⟨-, hstill⟩
    · exact (hcond.callFree hfree hloop.level).runs hI s hs
    · have hstay := loop_still (fun w => walkStmts ctx S w body) (walkExpr ctx S w cond)
        (walkStmts_still hI body _ hstill)
      rw [hstay] at hs ⊢
      exact (hc.runs hI s (hstate hI ▸ hs)).mono_ok fun _ _ h => h.mono hloop.visits

/-! ## Arms -/

lemma Level.fits_trans {m : Level} (h : l.fits l' = true) (h' : l'.fits m = true) : l.fits m = true := by
  simp only [Level.fits, or_eq_true, decide_eq_true_eq] at h h' ⊢
  rcases h with h | rfl
  · exact .inl h
  · exact h'

structure ArmsOk (A : Prop) (M : Sem String Daif) (ret l : Level) (state : MaskState) (w w' : Walk)
    (ps : List (Prog String)) : Prop extends Extends A ret l w w' where
  runs : A → ∀ s, Covers state s → ∀ p ∈ ps, WP M (Seen w'.visits) p (leaving w') s

variable (ctx I sig S) in
def ArmsSpec (M : Sem String Daif) (arms : List Arm) : Prop :=
  ∀ ret state w l l' m, HasLevel state l → HasLevel w.state m → HasLevel w.returned ret →
    armsLevel ctx I sig ret l arms = some l' → l'.fits m = true →
      ArmsOk (LeavesAlone ctx I S) M ret m state w (walkArms ctx S state w arms) (execArms arms)

lemma armsSpec_cons {pat} (hbody : BodySpec ctx I sig S M body)
    (harms : ArmsSpec ctx I sig S M arms) : ArmsSpec ctx I sig S M (.mk pat body :: arms) := by
  intro ret state w l l' m hstate hw hret h hm
  obtain ⟨a, ha, h⟩ := bind_eq_some_iff.mp h
  obtain ⟨b, hb, hjoin⟩ := bind_eq_some_iff.mp h
  obtain ⟨hafits, hbfits⟩ := Level.fits_join hjoin
  have hok := hbody ret { w with state := state } l a hstate hret ha
  have hlevel := hok.level.fits (Level.fits_trans hafits hm)
  have hrest := harms ret state { walkStmts ctx S { w with state := state } body with
      state := w.state.join (walkStmts ctx S { w with state := state } body).state }
    l b m hstate (hw.join hlevel) hok.returned hb (Level.fits_trans hbfits hm)
  refine ⟨⟨hrest.level, hrest.returned, List.Subset.trans hok.visits hrest.visits,
    fun t ht => hrest.keeps t (hok.keeps t ht),
    fun hA t ht => hrest.enters hA t (ht.join_left hw hlevel)⟩, fun hA s hs p hp => ?_⟩
  rcases mem_cons.mp hp with rfl | hp
  · refine ((hok.runs hA s hs).mono_ok fun _ _ h => h.mono hrest.visits).mono fun x t ht => ?_
    cases x with
    | ret => exact hrest.keeps t ht
    | _ => exact hrest.enters hA t (ht.join_right hw hlevel)
  · exact hrest.runs hA s hs p hp

lemma stmtSpec_match {disc : Expr} (hdisc : ExprSpec ctx I sig S M disc)
    (harms : ArmsSpec ctx I sig S M arms) : StmtSpec ctx I sig S M (.match disc arms) := by
  intro ret w l l' hw hret h
  obtain ⟨l₁, h₁, h₂⟩ := bind_eq_some_iff.mp h
  have hd := hdisc w l l₁ hw h₁
  have hret₁ : HasLevel (walkExpr ctx S w disc).returned ret := hd.returned ▸ hret
  have hok := harms ret (walkExpr ctx S w disc).state { walkExpr ctx S w disc with state := .dead }
    l₁ l' l' hd.level trivial hret₁ h₂ (by simp [Level.fits])
  exact hd.seq_stmt ⟨hok.level, hok.returned, hok.visits, hok.keeps,
    fun hA s hs => wp_choices (hok.runs hA s hs)⟩ hret (exits_evalCalls disc)

mutual

theorem stmtSpec (hM : CallsOk ctx sig S M) (hR : Respects ctx sig S) :
    ∀ st : Stmt, StmtSpec ctx I sig S M st
  | .return (some e) => stmtSpec_return (exprSpec hM hR e)
  | .return none => fun ret w l l' hw hret h => by
    obtain ⟨hfits, rfl⟩ : l.fits ret = true ∧ .dead = l' := by simpa [stmtLevel] using h
    exact stmtOk_return hw hret hfits
  | .expr e | .letTuple _ e | .yield e | .let _ _ _ (some e) => stmtSpec_expr (exprSpec hM hR e)
  | .block ss | .unsafeBlock ss => bodySpec hM hR ss
  | .if cond yes no => stmtSpec_if (exprSpec hM hR cond) (bodySpec hM hR yes) (bodySpec hM hR no)
  | .while cond body => stmtSpec_while (exprSpec hM hR cond) (bodySpec hM hR body)
  | .for _ _ lo hi body =>
    stmtSpec_for (exprSpec hM hR lo) (exprSpec hM hR hi) (bodySpec hM hR body)
  | .forEach _ e body => stmtSpec_forEach (exprSpec hM hR e) (bodySpec hM hR body)
  | .match disc arms | .letMatch _ _ _ disc arms =>
    stmtSpec_match (exprSpec hM hR disc) (armsSpec hM hR arms)
  | .let _ _ _ none | .staticAssert _ => fun ret w l l' hw hret h => by
    cases h
    exact stmtOk_skip hw hret
  | .break => fun ret w l l' hw hret h => by
    cases h
    exact ⟨hw, hret, List.Subset.refl _, fun _ ht => ht, fun _ _ hs => wp_brk hs⟩
  | .continue => fun ret w l l' hw hret h => by
    cases h
    exact ⟨hw, hret, List.Subset.refl _, fun _ ht => ht, fun _ _ hs => wp_cont hs⟩
termination_by structural st => st

theorem bodySpec (hM : CallsOk ctx sig S M) (hR : Respects ctx sig S) :
    ∀ ss : List Stmt, BodySpec ctx I sig S M ss
  | [] => fun ret w l l' hw hret h => by
    cases h
    exact stmtOk_skip hw hret
  | st :: ss => bodySpec_cons (stmtSpec hM hR st) (bodySpec hM hR ss)
termination_by structural ss => ss

theorem armsSpec (hM : CallsOk ctx sig S M) (hR : Respects ctx sig S) :
    ∀ arms : List Arm, ArmsSpec ctx I sig S M arms
  | [] => fun _ _ _ _ _ _ _ hw hret _ _ =>
    ⟨.refl hw hret, fun _ _ _ _ hp => absurd hp not_mem_nil⟩
  | .mk _ body :: arms => armsSpec_cons (bodySpec hM hR body) (armsSpec hM hR arms)
termination_by structural arms => arms

end
end Statements
end Takibi.Irq
