import Takibi.Flow.Sound

/-! Statements: every read of a checked function body finds a value of the type the
checker has for it. -/

namespace Takibi.Flow
open Numeric Takibi.Types Syntax Range Control CellsKeep List Function Bool Option Set
variable {tgt : Target} {tbl : ConstTable} {resolveBound : Expr → Option Native} {τ : Typing}
  {C : List String}

/-! ## Branches that always return -/

section Returns
variable (tgt tbl resolveBound τ) in
mutual

theorem execStmt_returns (M : Sem Action (State tgt)) : ∀ (st : Stmt) (Γ : TyEnv)
    (s t : State tgt), stmtAlwaysReturns st = true →
    ¬ Run M (execStmt tgt tbl resolveBound τ Γ st) s .normal t
  | .return none, Γ, s, t, _ => by
    intro h
    rw [execStmt] at h
    cases h
  | .return (some e), Γ, s, t, _ => by
    intro h
    rw [execStmt] at h
    obtain ⟨u, -, h⟩ := h.of_seq
    cases h
  | .block ss, Γ, s, t, hr | .unsafeBlock ss, Γ, s, t, hr => by
    intro h
    rw [execStmt] at h
    obtain ⟨t', h⟩ := h.of_scope
    exact execStmts_returns M ss Γ s t' hr h
  | .if c yes no, Γ, s, t, hr => by
    intro h
    rw [execStmt] at h
    simp only [stmtAlwaysReturns, and_eq_true] at hr
    cases h with
    | left h =>
      obtain ⟨u, -, h⟩ := h.of_seq
      obtain ⟨t', h⟩ := h.of_scope
      exact execStmts_returns M yes _ _ t' hr.1.2 h
    | right h =>
      obtain ⟨u, -, h⟩ := h.of_seq
      obtain ⟨t', h⟩ := h.of_scope
      exact execStmts_returns M no _ _ t' hr.2 h
  | .expr _, _, _, _, hr | .yield _, _, _, _, hr | .let _ _ _ _, _, _, _, hr
  | .while _ _, _, _, _, hr | .for _ _ _ _ _, _, _, _, hr | .forEach _ _ _, _, _, _, hr
  | .letTuple _ _, _, _, _, hr | .break, _, _, _, hr | .continue, _, _, _, hr
  | .staticAssert _, _, _, _, hr | .match _ _, _, _, _, hr
  | .letMatch _ _ _ _ _, _, _, _, hr => by cases hr
termination_by structural st => st

theorem execStmts_returns (M : Sem Action (State tgt)) : ∀ (ss : List Stmt) (Γ : TyEnv)
    (s t : State tgt), stmtListAlwaysReturns ss = true →
    ¬ Run M (execStmts tgt tbl resolveBound τ Γ ss) s .normal t
  | [], _, _, _, hr => by cases hr
  | st :: ss, Γ, s, t, hr => by
    intro h
    rw [execStmts] at h
    rw [stmtListAlwaysReturns, or_eq_true] at hr
    obtain ⟨u, hst, hss⟩ := h.of_seq
    rcases hr with hr | hr
    · exact execStmt_returns M st Γ s u hr hst
    · exact execStmts_returns M ss _ u t hr hss
termination_by structural ss => ss

end
end Returns

/-! ## Exits -/

def passes (C : List String) (W : Set String) (s : State tgt) (R : State tgt → Prop) : Post (State tgt) where
  normal t := CellsKeep C W s t ∧ (∀ x, x ∉ W → t.env x = s.env x) ∧ R t
  brk := CellsKeep C W s
  cont := CellsKeep C W s
  ret := CellsKeep C W s

def stays (C : List String) (W : Set String) (s : State tgt) (R : State tgt → Prop) : Post (State tgt) where
  normal t := CellsKeep C W s t ∧ t.env = s.env ∧ R t
  brk t := CellsKeep C W s t ∧ t.env = s.env
  cont t := CellsKeep C W s t ∧ t.env = s.env
  ret t := CellsKeep C W s t ∧ t.env = s.env

section Exits
variable {W W' : Set String} {Γ : TyEnv} {s : State tgt} {p q : Prog Action}
  {R R' : State tgt → Prop}

lemma wp_stays_of_quiet (h : Runs tbl C p (quiet C W s R) s) : Runs tbl C p (stays C W s R) s := by
  refine h.mono fun x t ht => ?_
  cases x with
  | normal => exact ht
  | _ => exact ht.elim

lemma wp_passes_of_stays (h : Runs tbl C p (stays C W s R) s) : Runs tbl C p (passes C W s R) s := by
  refine h.mono fun x t ht => ?_
  cases x with
  | normal => exact ⟨ht.1, fun x _ => congrFun ht.2.1 x, ht.2.2⟩
  | _ => exact ht.1

lemma wp_passes_mono (h : Runs tbl C p (passes C W s R) s) (hW : W ⊆ W')
    (hR : ∀ t, CellsKeep C W s t → (∀ x, x ∉ W → t.env x = s.env x) → R t → R' t) :
    Runs tbl C p (passes C W' s R') s := by
  refine h.mono fun x t ht => ?_
  cases x with
  | normal =>
    exact ⟨ht.1.mono hW, fun y hy => ht.2.1 y fun hyW => hy (hW hyW), hR t ht.1 ht.2.1 ht.2.2⟩
  | _ => exact ht.mono hW

lemma wp_stays_mono (h : Runs tbl C p (stays C W s R) s) (hW : W ⊆ W')
    (hR : ∀ t, CellsKeep C W s t → t.env = s.env → R t → R' t) :
    Runs tbl C p (stays C W' s R') s := by
  refine h.mono fun x t ht => ?_
  cases x with
  | normal => exact ⟨ht.1.mono hW, ht.2.1, hR t ht.1 ht.2.1 ht.2.2⟩
  | _ => exact ⟨ht.1.mono hW, ht.2⟩

lemma wp_passes_seq (hp : Runs tbl C p (passes C W s R) s)
    (hq : ∀ t, CellsKeep C W s t → (∀ x, x ∉ W → t.env x = s.env x) → R t →
      Runs tbl C q (passes C W t R') t) :
    Runs tbl C (.seq p q) (passes C W s R') s := by
  refine wp_seq (hp.mono fun x t ht => ?_)
  cases x with
  | normal =>
    obtain ⟨hk, henv, hR⟩ := ht
    refine (hq t hk henv hR).mono fun y u hu => ?_
    cases y with
    | normal => exact ⟨hk.trans hu.1, fun x hx => (hu.2.1 x hx).trans (henv x hx), hu.2.2⟩
    | _ => exact hk.trans hu
  | _ => exact ht

lemma wp_stays_seq (hp : Runs tbl C p (stays C W s R) s)
    (hq : ∀ t, CellsKeep C W s t → t.env = s.env → R t → Runs tbl C q (stays C W t R') t) :
    Runs tbl C (.seq p q) (stays C W s R') s := by
  refine wp_seq (hp.mono fun x t ht => ?_)
  cases x with
  | normal =>
    obtain ⟨hk, henv, hR⟩ := ht
    refine (hq t hk henv hR).mono fun y u hu => ?_
    cases y with
    | normal => exact ⟨hk.trans hu.1, hu.2.1.trans henv, hu.2.2⟩
    | _ => exact ⟨hk.trans hu.1, hu.2.trans henv⟩
  | _ => exact ht

lemma wp_stays_scope (R' : State tgt → Prop)
    (h : Runs tbl C p (passes C W s R) s) (hR : ∀ t : State tgt, R t → R' ⟨s.env, t.cells⟩) :
    Runs tbl C (.scope p) (stays C W s R') s := by
  refine wp_scope (h.mono fun x t ht => ?_)
  cases x with
  | normal => exact ⟨ht.1, rfl, hR t ht.2.2⟩
  | _ => exact ⟨ht, rfl⟩

lemma wp_stays_loop (hR : ∀ t, CellsKeep C W s t → t.env = s.env → R t)
    (hbody : ∀ t, CellsKeep C W s t → t.env = s.env → Runs tbl C p (stays C W t fun _ => True) t) :
    Runs tbl C (.loop p) (stays C W s R) s := by
  refine wp_loop (fun t => CellsKeep C W s t ∧ t.env = s.env) ⟨refl W s, rfl⟩ ?_
  rintro t ⟨hk, henv⟩
  refine (hbody t hk henv).mono fun x u hu => ?_
  cases x with
  | normal => exact ⟨hk.trans hu.1, hu.2.1.trans henv⟩
  | brk =>
    have hu' := hk.trans hu.1
    exact ⟨hu', hu.2.trans henv, hR u hu' (hu.2.trans henv)⟩
  | _ => exact ⟨hk.trans hu.1, hu.2.trans henv⟩

lemma wp_passes_returns (h : Runs tbl C p (passes C W s R) s)
    (hr : ∀ t, ¬ Run (sem tbl (visible C)) p s .normal t) :
    Runs tbl C p (passes C W s fun _ => False) s := by
  refine ⟨fun x t ht => ?_, h.safe⟩
  have hx := h.ends x t ht
  cases x with
  | normal => exact (hr t ht).elim
  | _ => exact hx

/-! ## Bindings -/

lemma wp_bind (h : Inv tbl C Γ W s) (x : String) (ty : Ty) (isMut : Bool) (init : Option Expr) :
    Runs tbl C (.act (.bind x ty init))
      (passes C {x} s (Inv tbl C (update Γ x (some (ty, isMut))) W)) s := by
  refine wp_act trivial ?_
  rintro t ⟨hconst, c, ho, hty, -, rfl⟩
  have hk : CellsKeep C {x} s ⟨update s.env x (some s.cells.length), s.cells ++ [c]⟩ := by
    intro l c' hc'
    have hl := (List.getElem?_eq_some_iff.mp hc').1
    exact ⟨c', by rw [getElem?_append_left hl, hc'], rfl, rfl, fun hne => absurd rfl hne⟩
  have hfresh : (s.cells ++ [c])[s.cells.length]? = some c := by simp
  refine ⟨hk, fun y hy => update_of_ne hy .., fun y l hl => ?_, fun y entry hy => ?_⟩
  · dsimp only at hl ⊢
    by_cases hyx : y = x
    · subst hyx
      rw [update_self] at hl
      exact ⟨hconst, c, some.inj hl ▸ hfresh, ho⟩
    · rw [update_of_ne hyx] at hl
      obtain ⟨hconst', c', hc', ho'⟩ := h.bound y l hl
      obtain ⟨c'', hc'', ho'', -⟩ := hk l c' hc'
      exact ⟨hconst', c'', hc'', ho''.trans ho'⟩
  · by_cases hyx : y = x
    · subst hyx
      rw [update_self] at hy
      cases hy
      exact ⟨s.cells.length, c, update_self .., hfresh, ho, by rw [hty], hty ▸ c.ok, fun _ v hv => hty ▸ hv⟩
    · rw [update_of_ne hyx] at hy
      exact (h.entry y entry hy).keep hk (fun hyx' => absurd hyx' hyx) (update_of_ne hyx ..)

lemma wp_bindAll (Γ₀ : TyEnv) (e : Expr) (names : List String) : ∀ (i : Nat) (Γ : TyEnv)
    (s : State tgt), Inv tbl C Γ W s →
    Runs tbl C (bindAll τ Γ₀ e i names)
      (passes C {x | x ∈ names} s (Inv tbl C (bindComponents τ Γ₀ e i names Γ) W)) s := by
  induction names with
  | nil =>
    intro i Γ s h
    exact wp_skip ⟨refl _ s, fun _ _ => rfl, h⟩
  | cons n ns ih =>
    intro i Γ s h
    have hfirst := wp_bind h n (τ.component Γ₀ e i) false none
    refine wp_passes_seq (wp_passes_mono hfirst ?_ fun t _ _ ht => ht) fun t _ _ ht => ?_
    · rintro x rfl
      exact mem_cons_self ..
    · exact wp_passes_mono (ih (i + 1) _ t ht) (fun x hx => mem_cons_of_mem _ hx) fun _ _ _ hu => hu

end Exits

/-! ## Statements -/

def StmtSpec (tgt : Target) (tbl : ConstTable) (C : List String)
    (resolveBound : Expr → Option Native) (τ : Typing) (st : Stmt) : Prop :=
  ∀ (Γ : TyEnv) (future : List String) (V : Set String) (s : State tgt),
    Inv tbl C Γ ({x | x ∈ st.written} ∪ V) s → (∀ x ∈ V, x ∈ future) →
    (∀ g ∈ Stmt.guards st, Guard C g) →
    Runs tbl C (execStmt tgt tbl resolveBound τ Γ st) (passes C {x | x ∈ st.written} s
        (Inv tbl C (inferStmt tgt tbl resolveBound τ future Γ st) V)) s

def ListSpec (tgt : Target) (tbl : ConstTable) (C : List String)
    (resolveBound : Expr → Option Native) (τ : Typing) (ss : List Stmt) : Prop :=
  ∀ (Γ : TyEnv) (s : State tgt), Inv tbl C Γ {x | x ∈ writtenNames ss} s →
    (∀ g ∈ guards ss, Guard C g) →
    Runs tbl C (execStmts tgt tbl resolveBound τ Γ ss)
      (passes C {x | x ∈ writtenNames ss} s fun _ => True) s

def restrict (Γ : TyEnv) (still : String → Bool) : TyEnv := fun x =>
  if still x then Γ x else none

def LoopSpec (tgt : Target) (tbl : ConstTable) (C : List String)
    (resolveBound : Expr → Option Native) (τ : Typing) (ss : List Stmt) : Prop :=
  ∀ (Γ₀ : TyEnv) (still : String → Bool) (Γ : TyEnv) (s : State tgt),
    Inv tbl C Γ {x | x ∈ writtenNames ss ∧ still x = false} s →
    Inv tbl C (restrict Γ₀ still) {x | x ∈ writtenNames ss} s →
    (∀ x, still x = true → Γ₀ x ≠ none) → (∀ g ∈ guards ss, Guard C g) →
    Runs tbl C (execLoop tgt tbl resolveBound τ Γ₀ still Γ ss)
      (passes C {x | x ∈ writtenNames ss} s fun _ => True) s

def ArmsSpec (tgt : Target) (tbl : ConstTable) (C : List String)
    (resolveBound : Expr → Option Native) (τ : Typing) (arms : List Arm) : Prop :=
  ∀ (Γ : TyEnv) (disc : Expr) (s : State tgt), Inv tbl C Γ {x | x ∈ armsWritten arms} s →
    (∀ g ∈ armsGuards arms, Guard C g) →
    ∀ p ∈ execArms tgt tbl resolveBound τ Γ disc arms,
      Runs tbl C p (stays C {x | x ∈ armsWritten arms} s fun _ => True) s

section Statements
variable {W V : Set String} {Γ : TyEnv} {s : State tgt} {e c : Expr} {yes no body ss : List Stmt}
  {st : Stmt} {arms : List Arm} {future : List String}

lemma wp_eval (h : Inv tbl C Γ W s) (hV : ∀ x ∈ e.written, x ∈ V) (hVW : V ⊆ W)
    (hg : ∀ g ∈ Expr.guards e, Guard C g) :
    Runs tbl C (evalExpr tgt tbl resolveBound Γ none e) (stays C V s fun _ => True) s :=
  wp_stays_of_quiet ((evalSpec tgt tbl resolveBound C e).evaluates hV hVW hg s h)

lemma passes_inv (hi : Inv tbl C Γ ({x | x ∈ st.written} ∪ V) s) {p : Prog Action}
    (h : Runs tbl C p (stays C {x | x ∈ st.written} s fun _ => True) s) :
    Runs tbl C p (passes C {x | x ∈ st.written} s (Inv tbl C Γ V)) s := by
  refine wp_passes_of_stays (wp_stays_mono h (fun x hx => hx) fun t hk henv _ => ?_)
  exact (hi.keep hk subset_union_left henv).mono subset_union_right

lemma wp_block (hss : ListSpec tgt tbl C resolveBound τ ss) (hi : Inv tbl C Γ W s)
    (hV : ∀ x ∈ writtenNames ss, x ∈ V) (hVW : V ⊆ W) (hg : ∀ g ∈ guards ss, Guard C g) :
    Runs tbl C (.scope (execStmts tgt tbl resolveBound τ Γ ss)) (stays C V s fun _ => True) s := by
  have hin := hss Γ s (hi.mono fun x hx => hVW (hV x hx)) hg
  have hout := wp_stays_scope (fun _ => True) hin fun _ _ => trivial
  exact wp_stays_mono hout hV fun _ _ _ _ => trivial

lemma stmtSpec_block (hss : ListSpec tgt tbl C resolveBound τ ss)
    (he : ∀ Γ, execStmt tgt tbl resolveBound τ Γ st = .scope (execStmts tgt tbl resolveBound τ Γ ss))
    (hΓ : ∀ future Γ, inferStmt tgt tbl resolveBound τ future Γ st = Γ)
    (hwr : st.written = writtenNames ss) (hgu : Stmt.guards st = guards ss) :
    StmtSpec tgt tbl C resolveBound τ st := by
  intro Γ future V s hi _ hg
  rw [he, hΓ]
  refine passes_inv hi (wp_block hss hi ?_ subset_union_left (hgu ▸ hg))
  rw [hwr]
  exact fun x hx => hx

lemma stmtSpec_expr (he : ∀ Γ, execStmt tgt tbl resolveBound τ Γ st =
      evalExpr tgt tbl resolveBound Γ none e)
    (hΓ : ∀ future Γ, inferStmt tgt tbl resolveBound τ future Γ st = Γ)
    (hwr : st.written = e.written) (hgu : Stmt.guards st = Expr.guards e) :
    StmtSpec tgt tbl C resolveBound τ st := by
  intro Γ future V s hi _ hg
  rw [he, hΓ]
  refine passes_inv hi (wp_eval hi ?_ subset_union_left (hgu ▸ hg))
  rw [hwr]
  exact fun x hx => hx

lemma stmtSpec_return (e : Option Expr) : StmtSpec tgt tbl C resolveBound τ (.return e) := by
  intro Γ future V s hi _ hg
  refine passes_inv hi ?_
  cases e with
  | none => exact wp_ret ⟨refl _ s, rfl⟩
  | some e =>
    refine wp_stays_seq (wp_eval hi (fun x hx => hx) subset_union_left hg) fun t _ _ _ => ?_
    exact wp_ret ⟨refl _ t, rfl⟩

lemma stmtSpec_let (isMut : Bool) (name : String) (ty : Option Ty) (init : Option Expr) :
    StmtSpec tgt tbl C resolveBound τ (.let isMut name ty init) := by
  intro Γ future V s hi _ hg
  refine wp_passes_seq (R := Inv tbl C Γ V) (passes_inv hi ?_) fun t _ _ ht => ?_
  · cases init with
    | none => exact wp_stays_of_quiet (wp_quiet_skip trivial)
    | some e => exact wp_eval hi (fun x hx => mem_cons_of_mem _ hx) subset_union_left hg
  · refine wp_passes_mono (wp_bind ht name _ isMut init) ?_ fun _ _ _ hu => hu
    rintro x rfl
    exact mem_cons_self ..

lemma stmtSpec_letTuple (names : List String) (e : Expr) :
    StmtSpec tgt tbl C resolveBound τ (.letTuple names e) := by
  intro Γ future V s hi _ hg
  refine wp_passes_seq (R := Inv tbl C Γ V) (passes_inv hi ?_) fun t _ _ ht => ?_
  · exact wp_eval hi (fun x hx => mem_append_right names hx) subset_union_left hg
  · exact wp_passes_mono (wp_bindAll Γ e names 0 Γ t ht) (fun x hx => mem_append_left _ hx)
      fun _ _ _ hu => hu

lemma narrowFromCond_none {killed : List String} {x : String} (h : Γ x = none) :
    narrowFromCond tgt tbl resolveBound Γ c killed x = none := by
  rw [narrowFromCond, h]
  split_ifs
  · rfl
  · cases collectBounds tgt tbl Γ c (fun _ => none) x <;>
      cases sliceLenMins resolveBound c (fun _ => none) x <;> rfl

lemma Inv.filter {Γ' : TyEnv} {W' : Set String} (h : Inv tbl C Γ W s) (hVW : V ⊆ W)
    (h' : Inv tbl C Γ' W' s) (hV : ∀ x ∈ V, x ∈ future) (hnone : ∀ x, Γ x = none → Γ' x = none) :
    Inv tbl C (filterByFutureWrites future Γ Γ') V s := by
  refine ⟨h.bound, fun x entry hx => ?_⟩
  rw [filterByFutureWrites] at hx
  split_ifs at hx with hfut
  · cases hΓ : Γ x with
    | none =>
      rw [hΓ, hnone x hΓ] at hx
      cases hx
    | some old =>
      rw [hΓ] at hx
      exact (h.mono hVW).entry x entry (hΓ.trans hx)
  · obtain ⟨l, cell, hl, hcell, ho, hcanon, hty, hwiden⟩ := h'.entry x entry hx
    refine ⟨l, cell, hl, hcell, ho, hcanon, hty, fun hor => hwiden (.inl ?_)⟩
    exact hor.resolve_right fun hxV => hfut (hV x hxV)

lemma wp_cond (hi : Inv tbl C Γ W s) (hV : ∀ x ∈ c.written, x ∈ V) (hVW : V ⊆ W)
    (hg : Guard C c) (hgs : ∀ g ∈ Expr.guards c, Guard C g) (b : Bool) :
    Runs tbl C (evalExpr tgt tbl resolveBound Γ (some b) c)
      (stays C V s (Outcome tbl (some b) c)) s := by
  have h := evalSpec tgt tbl resolveBound C c Γ W s (some b) hi (fun x hx => hVW (hV x hx)) hgs
    fun _ => hg
  exact wp_stays_of_quiet (wp_quiet_mono h hV fun _ ht => ht)

lemma stmtSpec_if (hyes : ListSpec tgt tbl C resolveBound τ yes)
    (hno : ListSpec tgt tbl C resolveBound τ no) :
    StmtSpec tgt tbl C resolveBound τ (.if c yes no) := by
  intro Γ future V s hi hV hg
  have hgc : Guard C c := hg c (mem_cons_self ..)
  have hgcs : ∀ g ∈ Expr.guards c, Guard C g := fun g h =>
    hg g (mem_cons_of_mem _ (mem_append_left _ (mem_append_left _ h)))
  have hgyes : ∀ g ∈ guards yes, Guard C g := fun g h =>
    hg g (mem_cons_of_mem _ (mem_append_left _ (mem_append_right _ h)))
  have hgno : ∀ g ∈ guards no, Guard C g := fun g h =>
    hg g (mem_cons_of_mem _ (mem_append_right _ h))
  have hWc : ∀ x ∈ c.written, x ∈ {x | x ∈ (Stmt.if c yes no).written} := fun x hx =>
    mem_append_left _ (mem_append_left _ hx)
  have hWyes : {x | x ∈ writtenNames yes} ⊆ {x | x ∈ (Stmt.if c yes no).written} := fun x hx =>
    mem_append_left _ (mem_append_right _ hx)
  have hWno : {x | x ∈ writtenNames no} ⊆ {x | x ∈ (Stmt.if c yes no).written} := fun x hx =>
    mem_append_right _ hx
  rw [execStmt]
  refine wp_passes_of_stays (wp_choose ?_ ?_)
  · refine wp_stays_seq (wp_cond hi hWc subset_union_left hgc hgcs true) fun t hk henv hsat => ?_
    have hit := hi.keep hk subset_union_left henv
    have hbody := hyes _ t (hit.narrow resolveBound hsat hgc.1
      (hWyes.trans subset_union_left) fun x hx => hx) hgyes
    rw [inferStmt]
    split_ifs with hret
    · have hnever := wp_passes_returns hbody fun u =>
        execStmts_returns tgt tbl resolveBound τ _ yes _ t u hret
      exact wp_stays_mono (wp_stays_scope _ hnever fun _ hf => hf.elim) hWyes fun _ _ _ hf => hf
    · have hscope := wp_stays_scope (fun _ => True) hbody fun _ _ => trivial
      refine wp_stays_mono hscope hWyes fun u hku henvu _ => ?_
      exact (hit.keep hku (hWyes.trans subset_union_left) henvu).mono subset_union_right
  · refine wp_stays_seq (wp_cond hi hWc subset_union_left hgc hgcs false) fun t hk henv hout => ?_
    have hit := hi.keep hk subset_union_left henv
    have hscope := wp_block hno hit (fun x hx => hx) (hWno.trans subset_union_left) hgno
    refine wp_stays_mono hscope hWno fun u hku henvu _ => ?_
    have hiu := hit.keep hku (hWno.trans subset_union_left) henvu
    rw [inferStmt]
    split_ifs with hret
    · cases hneg : negateCond c with
      | none => exact hiu.mono subset_union_right
      | some neg =>
        have hC : ∀ x ∈ compared neg, x ∈ C := compared_negate hneg ▸ hgc.1
        have hnarrow := hit.narrow resolveBound (hout neg hneg) hC
          (hWno.trans subset_union_left) fun x hx => hx
        exact hiu.filter subset_union_right (hnarrow.keep hku (fun x hx => hx) henvu) hV
          fun x hx => narrowFromCond_none hx
    · exact hiu.mono subset_union_right

lemma hasTy_of_proof {a b : Ty} {v : Val} (hcanon : canon a = canon b) (hproof : proof a = proof b)
    (h : HasTy tgt a v) : HasTy tgt b v := by
  cases b with
  | int t | multiple k t =>
    cases a with
    | int t' | multiple k' t' =>
      cases hcanon
      exact h
    | refinedInt lo hi t' => cases hproof
    | _ => cases hcanon
  | refinedInt lo hi t =>
    cases a with
    | refinedInt lo' hi' t' =>
      cases hcanon
      cases hproof
      exact h
    | int t' | multiple k' t' => cases hproof
    | _ => cases hcanon
  | _ => trivial

lemma Inv.widen {Γ' : TyEnv} (h : Inv tbl C Γ W s) (h' : Inv tbl C Γ' ∅ s)
    (hnone : ∀ x, Γ x = none → Γ' x = none) :
    Inv tbl C Γ' {x | x ∈ W ∧ stillNarrowed Γ Γ' x = false} s := by
  refine ⟨h.bound, fun x entry hx => ?_⟩
  obtain ⟨l, cell, hl, hcell, ho, hcanon, hty, hwiden⟩ := h'.entry x entry hx
  refine ⟨l, cell, hl, hcell, ho, hcanon, hty, ?_⟩
  rintro (hxC | ⟨hxW, hstill⟩) v hv
  · exact hwiden (.inl hxC) v hv
  · cases hΓ : Γ x with
    | none =>
      rw [hnone x hΓ] at hx
      cases hx
    | some old =>
      obtain ⟨l', cell', hl', hcell', -, hcanon', -, hwiden'⟩ := h.entry x old hΓ
      obtain rfl : l = l' := some.inj (hl.symm.trans hl')
      obtain rfl : cell = cell' := some.inj (hcell.symm.trans hcell')
      have hproof : proof entry.1 = proof old.1 := by simpa [stillNarrowed, hΓ, hx] using hstill
      exact hasTy_of_proof (hcanon'.trans hcanon.symm) hproof.symm (hwiden' (.inr hxW) v hv)

lemma Inv.restrict (h : Inv tbl C Γ W s) (still : String → Bool) : Inv tbl C (restrict Γ still) W s := by
  refine ⟨h.bound, fun x entry hx => ?_⟩
  rw [Flow.restrict] at hx
  split_ifs at hx
  exact h.entry x entry hx

lemma stmtSpec_while (hbody : LoopSpec tgt tbl C resolveBound τ body) :
    StmtSpec tgt tbl C resolveBound τ (.while c body) := by
  intro Γ future V s hi _ hg
  have hgc : Guard C c := hg c (mem_cons_self ..)
  have hgcs : ∀ g ∈ Expr.guards c, Guard C g := fun g h =>
    hg g (mem_cons_of_mem _ (mem_append_left _ h))
  have hgbody : ∀ g ∈ guards body, Guard C g := fun g h =>
    hg g (mem_cons_of_mem _ (mem_append_right _ h))
  have hWc : ∀ x ∈ c.written, x ∈ {x | x ∈ (Stmt.while c body).written} := fun x hx =>
    mem_append_left _ hx
  have hWbody : {x | x ∈ writtenNames body} ⊆ {x | x ∈ (Stmt.while c body).written} := fun x hx =>
    mem_append_right _ hx
  refine passes_inv hi ?_
  rw [execStmt]
  refine wp_stays_loop (fun _ _ _ => trivial) fun t hk henv => ?_
  have hit := hi.keep hk subset_union_left henv
  refine wp_choose ?_ ?_
  · refine wp_stays_seq (wp_cond hit hWc subset_union_left hgc hgcs true) fun u hku henvu hsat => ?_
    have hiu := (hit.keep hku subset_union_left henvu).mono (hWbody.trans subset_union_left)
    have hnarrow : Inv tbl C (narrowFromCond tgt tbl resolveBound Γ c []) ∅ u :=
      hiu.narrow resolveBound hsat hgc.1 (empty_subset _) fun x hx => hx.elim
    have hstill : ∀ x, stillNarrowed Γ (narrowFromCond tgt tbl resolveBound Γ c []) x = true →
        Γ x ≠ none := by
      intro x hx hnone
      simp [stillNarrowed, hnone] at hx
    have hloop := hbody Γ _ _ u (hiu.widen hnarrow fun x hx => narrowFromCond_none hx)
      (hiu.restrict _) hstill hgbody
    have hscope := wp_stays_scope (fun _ => True) hloop fun _ _ => trivial
    exact wp_stays_mono hscope hWbody fun _ _ _ _ => trivial
  · refine wp_stays_seq (wp_cond hit hWc subset_union_left hgc hgcs false) fun u _ _ _ => ?_
    exact wp_brk ⟨refl _ u, rfl⟩

lemma loopSpec_cons (hst : StmtSpec tgt tbl C resolveBound τ st)
    (hss : LoopSpec tgt tbl C resolveBound τ ss) :
    LoopSpec tgt tbl C resolveBound τ (st :: ss) := by
  intro Γ₀ still Γ s hi hi₀ hsome hg
  have hWst : {x | x ∈ st.written} ⊆ {x | x ∈ writtenNames (st :: ss)} := fun x hx =>
    mem_append_left _ hx
  have hWss : {x | x ∈ writtenNames ss} ⊆ {x | x ∈ writtenNames (st :: ss)} := fun x hx =>
    mem_append_right _ hx
  -- the names that the rest may write and that are not narrowed any more
  let V : Set String := {x | x ∈ writtenNames ss ∧ (still x && decide (x ∉ st.written)) = false}
  have hhead : Inv tbl C (invalidateBefore Γ₀ still Γ st.written) ({x | x ∈ st.written} ∪ V) s := by
    refine ⟨hi.bound, fun x entry hx => ?_⟩
    rw [invalidateBefore] at hx
    split_ifs at hx with hcase
    · -- the statement writes `x`: it has the type it has outside the loop
      obtain ⟨old, hold⟩ := ne_none_iff_exists'.mp (hsome x hcase.1)
      rw [hold] at hx
      refine (hi₀.mono ?_).entry x entry ?_
      · exact union_subset hWst fun y hy => hWss hy.1
      · rw [Flow.restrict, if_pos hcase.1, hold]
        exact hx
    · obtain ⟨l, cell, hl, hcell, ho, hcanon, hty, hwiden⟩ := hi.entry x entry hx
      refine ⟨l, cell, hl, hcell, ho, hcanon, hty, fun hor => hwiden (hor.imp_right ?_)⟩
      rintro (hx | ⟨hx, hnot⟩)
      · exact ⟨hWst hx, eq_false_iff.mpr fun hs => hcase ⟨hs, hx⟩⟩
      · refine ⟨hWss hx, eq_false_iff.mpr fun hs => hcase ⟨hs, ?_⟩⟩
        simpa [hs] using hnot
  have hfirst := hst _ (writtenNames ss) V s hhead (fun x hx => hx.1)
    fun g h => hg g (mem_append_left _ h)
  rw [execLoop]
  refine wp_passes_seq (R := fun t => CellsKeep C {x | x ∈ st.written} s t ∧
      (∀ x, x ∉ {x | x ∈ st.written} → t.env x = s.env x) ∧
      Inv tbl C (inferStmt tgt tbl resolveBound τ (writtenNames ss)
        (invalidateBefore Γ₀ still Γ st.written) st) V t)
    (wp_passes_mono hfirst hWst fun t hk henv ht => ⟨hk, henv, ht⟩) ?_
  rintro t - - ⟨hk, henv, hit⟩
  have hi₁ : Inv tbl C (restrict Γ₀ fun x => still x && decide (x ∉ st.written))
      {x | x ∈ writtenNames ss} t := by
    refine ⟨hit.bound, fun x entry hx => ?_⟩
    rw [Flow.restrict] at hx
    split_ifs at hx with hcase
    simp only [and_eq_true, decide_eq_true_eq] at hcase
    have hold : EntryOk C {x | x ∈ writtenNames (st :: ss)} s x entry := by
      refine hi₀.entry x entry ?_
      rw [Flow.restrict, if_pos hcase.1]
      exact hx
    obtain ⟨l, cell, hl, hcell, ho, hcanon, hty, hwiden⟩ :=
      hold.keep hk (fun hx => absurd hx hcase.2) (henv x hcase.2)
    exact ⟨l, cell, hl, hcell, ho, hcanon, hty, fun hor => hwiden (hor.imp_right fun hx => hWss hx)⟩
  have hrest := hss Γ₀ _ _ t hit hi₁ (fun x hx => hsome x (and_eq_true_iff.mp hx).1)
    fun g h => hg g (mem_append_right _ h)
  exact wp_passes_mono hrest hWss fun _ _ _ _ => trivial

lemma listSpec_cons (hst : StmtSpec tgt tbl C resolveBound τ st)
    (hss : ListSpec tgt tbl C resolveBound τ ss) :
    ListSpec tgt tbl C resolveBound τ (st :: ss) := by
  intro Γ s hi hg
  have hWst : {x | x ∈ st.written} ⊆ {x | x ∈ writtenNames (st :: ss)} := fun x hx =>
    mem_append_left _ hx
  have hWss : {x | x ∈ writtenNames ss} ⊆ {x | x ∈ writtenNames (st :: ss)} := fun x hx =>
    mem_append_right _ hx
  have hfirst := hst Γ (writtenNames ss) {x | x ∈ writtenNames ss} s
    (hi.mono (union_subset hWst hWss)) (fun x hx => hx) fun g h => hg g (mem_append_left _ h)
  rw [execStmts]
  refine wp_passes_seq (wp_passes_mono hfirst hWst fun _ _ _ ht => ht) fun t _ _ ht => ?_
  have hrest := hss _ t ht fun g h => hg g (mem_append_right _ h)
  exact wp_passes_mono hrest hWss fun _ _ _ _ => trivial

section
variable (hss : ListSpec tgt tbl C resolveBound τ ss) (hi : Inv tbl C Γ W s) {name : String}
  (hname : name ∈ V) (hV : ∀ x ∈ writtenNames ss, x ∈ V) (hVW : V ⊆ W) (hg : ∀ g ∈ guards ss, Guard C g)
include hss hi hname hV hVW hg

lemma wp_bound_block (ty : Ty) (isMut : Bool) :
    Runs tbl C (.scope (.seq (.act (.bind name ty none))
      (execStmts tgt tbl resolveBound τ (update Γ name (some (ty, isMut))) ss)))
      (stays C V s fun _ => True) s := by
  refine wp_stays_scope (R := fun _ => True) _ ?_ fun _ _ => trivial
  have hbind := wp_bind (hi.mono hVW) name ty isMut none
  refine wp_passes_seq (wp_passes_mono hbind (singleton_subset_iff.mpr hname)
    fun _ _ _ ht => ht) fun t _ _ ht => ?_
  exact wp_passes_mono (hss _ t (ht.mono hV) hg) hV fun _ _ _ _ => trivial

lemma wp_counted_loop (ty : Ty) :
    Runs tbl C (.loop (.choose (.scope (.seq (.act (.bind name ty none))
      (execStmts tgt tbl resolveBound τ (update Γ name (some (ty, false))) ss))) .brk))
      (stays C V s fun _ => True) s := by
  refine wp_stays_loop (fun _ _ _ => trivial) fun t hk henv => wp_choose ?_ ?_
  · exact wp_bound_block hss (hi.keep hk hVW henv) hname hV hVW hg ty false
  · exact wp_brk ⟨refl _ t, rfl⟩

end

section
variable (hbody : ListSpec tgt tbl C resolveBound τ body)
include hbody

lemma stmtSpec_for (name : String) (ty : Option Ty) (lo hi : Expr) :
    StmtSpec tgt tbl C resolveBound τ (.for name ty lo hi body) := by
  intro Γ future V s hs _ hg
  refine passes_inv hs ?_
  rw [execStmt]
  refine wp_stays_seq (wp_eval hs (fun x hx => ?_) subset_union_left fun g h => hg g ?_)
    fun t hk henv _ => ?_
  · exact mem_cons_of_mem _ (mem_append_left _ (mem_append_left _ hx))
  · exact mem_append_left _ (mem_append_left _ h)
  have ht := hs.keep hk subset_union_left henv
  refine wp_stays_seq (wp_eval ht (fun x hx => ?_) subset_union_left fun g h => hg g ?_)
    fun u hku henvu _ => ?_
  · exact mem_cons_of_mem _ (mem_append_left _ (mem_append_right _ hx))
  · exact mem_append_left _ (mem_append_right _ h)
  have hu := ht.keep hku subset_union_left henvu
  refine wp_counted_loop hbody hu (mem_cons_self ..) (fun x hx => ?_) subset_union_left
    (fun g h => hg g (mem_append_right _ h)) _
  exact mem_cons_of_mem _ (mem_append_right _ hx)

lemma stmtSpec_forEach (name : String) (e : Expr) :
    StmtSpec tgt tbl C resolveBound τ (.forEach name e body) := by
  intro Γ future V s hi _ hg
  refine passes_inv hi ?_
  rw [execStmt]
  refine wp_stays_seq (wp_eval hi (fun x hx => ?_) subset_union_left fun g h => hg g ?_)
    fun t hk henv _ => ?_
  · exact mem_cons_of_mem _ (mem_append_left _ hx)
  · exact mem_append_left _ h
  have ht := hi.keep hk subset_union_left henv
  refine wp_counted_loop hbody ht (mem_cons_self ..) (fun x hx => ?_) subset_union_left
    (fun g h => hg g (mem_append_right _ h)) _
  exact mem_cons_of_mem _ (mem_append_right _ hx)

lemma wp_arm (hi : Inv tbl C Γ W s) {pattern : Pattern}
    (hV : ∀ x ∈ Arm.written (.mk pattern body), x ∈ V) (hVW : V ⊆ W)
    (hg : ∀ g ∈ guards body, Guard C g) (disc : Expr) :
    Runs tbl C (.scope (.seq (bindPayload τ Γ disc pattern).1
        (execStmts tgt tbl resolveBound τ (bindPayload τ Γ disc pattern).2 body)))
      (stays C V s fun _ => True) s := by
  have hVbody : ∀ x ∈ writtenNames body, x ∈ V := fun x hx => hV x (mem_append_right _ hx)
  have hplain : Runs tbl C (.scope (.seq .skip (execStmts tgt tbl resolveBound τ Γ body)))
      (stays C V s fun _ => True) s := by
    refine wp_stays_scope (R := fun _ => True) _ ?_ fun _ _ => trivial
    refine wp_passes_seq (R := Inv tbl C Γ V)
      (wp_skip ⟨refl V s, fun _ _ => rfl, hi.mono hVW⟩) fun t _ _ ht => ?_
    exact wp_passes_mono (hbody _ t (ht.mono hVbody) hg) hVbody fun _ _ _ _ => trivial
  cases pattern with
  | armVariant type case payload =>
    match payload with
    | some (.payloadBind name isMut) =>
      exact wp_bound_block hbody hi (hV name (mem_append_left _ (mem_cons_self ..)))
        hVbody hVW hg _ isMut
    | some .payloadIgnore => exact hplain
    | none => exact hplain
  | _ => exact hplain

lemma armsSpec_cons {pattern : Pattern} (harms : ArmsSpec tgt tbl C resolveBound τ arms) :
    ArmsSpec tgt tbl C resolveBound τ (.mk pattern body :: arms) := by
  intro Γ disc s hi hg p hp
  rw [execArms] at hp
  rcases mem_cons.mp hp with rfl | hp
  · exact wp_arm hbody hi (fun x hx => mem_append_left _ hx) (fun x hx => hx)
      (fun g h => hg g (mem_append_left _ h)) disc
  · have hW : {x | x ∈ armsWritten arms} ⊆ {x | x ∈ armsWritten (.mk pattern body :: arms)} :=
      fun x hx => mem_append_right _ hx
    have hrest := harms Γ disc s (hi.mono hW) (fun g h => hg g (mem_append_right _ h)) p hp
    exact wp_stays_mono hrest hW fun _ _ _ _ => trivial

end

section
variable (harms : ArmsSpec tgt tbl C resolveBound τ arms)
include harms

lemma wp_match (hi : Inv tbl C Γ W s) {disc : Expr}
    (hV : ∀ x ∈ disc.written ++ armsWritten arms, x ∈ V) (hVW : V ⊆ W)
    (hg : ∀ g ∈ Expr.guards disc ++ armsGuards arms, Guard C g) :
    Runs tbl C (.seq (evalExpr tgt tbl resolveBound Γ none disc)
        (.choices (execArms tgt tbl resolveBound τ Γ disc arms)))
      (stays C V s fun _ => True) s := by
  refine wp_stays_seq (wp_eval hi (fun x hx => hV x (mem_append_left _ hx)) hVW
    fun g h => hg g (mem_append_left _ h)) fun t hk henv _ => wp_choices fun p hp => ?_
  have hVarms : {x | x ∈ armsWritten arms} ⊆ V := fun x hx => hV x (mem_append_right _ hx)
  have harm := harms Γ disc t ((hi.keep hk hVW henv).mono (hVarms.trans hVW))
    (fun g h => hg g (mem_append_right _ h)) p hp
  exact wp_stays_mono harm hVarms fun _ _ _ _ => trivial

lemma stmtSpec_match (disc : Expr) : StmtSpec tgt tbl C resolveBound τ (.match disc arms) := by
  intro Γ future V s hi _ hg
  refine passes_inv hi ?_
  rw [execStmt]
  exact wp_match harms hi (fun x hx => hx) subset_union_left hg

lemma stmtSpec_letMatch (isMut : Bool) (name : String) (ty : Option Ty) (disc : Expr) :
    StmtSpec tgt tbl C resolveBound τ (.letMatch isMut name ty disc arms) := by
  intro Γ future V s hi _ hg
  have hname : {name} ⊆ {x | x ∈ (Stmt.letMatch isMut name ty disc arms).written} :=
    singleton_subset_iff.mpr (mem_cons_self ..)
  rw [execStmt]
  have hbind := wp_bind hi name (τ.yielded Γ ty disc arms) true none
  refine wp_passes_seq (wp_passes_mono hbind hname fun _ _ _ ht => ht) fun t _ _ ht => ?_
  have hmatch := wp_match harms ht (fun x hx => mem_cons_of_mem _ hx) subset_union_left hg
  refine wp_passes_mono (passes_inv ht hmatch) (fun x hx => hx) fun u _ _ hu => ?_
  -- the arms see the name as mutable, the code after them as declared
  refine ⟨hu.bound, fun x entry hx => ?_⟩
  rw [inferStmt] at hx
  by_cases hxn : x = name
  · subst hxn
    rw [update_self] at hx
    cases hx
    exact hu.entry x (τ.yielded Γ ty disc arms, true) (update_self ..)
  · rw [update_of_ne hxn] at hx
    exact hu.entry x entry (by rw [update_of_ne hxn]; exact hx)

end

variable (tgt tbl C resolveBound τ) in
mutual

theorem stmtSpec : ∀ st : Stmt, StmtSpec tgt tbl C resolveBound τ st
  | .return e => stmtSpec_return e
  | .expr _ | .yield _ => stmtSpec_expr (fun _ => rfl) (fun _ _ => rfl) rfl rfl
  | .block ss | .unsafeBlock ss =>
    stmtSpec_block (listSpec ss) (fun _ => rfl) (fun _ _ => rfl) rfl rfl
  | .let isMut name ty init => stmtSpec_let isMut name ty init
  | .letTuple names e => stmtSpec_letTuple names e
  | .if _ yes no => stmtSpec_if (listSpec yes) (listSpec no)
  | .while _ body => stmtSpec_while (loopSpec body)
  | .for name ty lo hi body => stmtSpec_for (listSpec body) name ty lo hi
  | .forEach name e body => stmtSpec_forEach (listSpec body) name e
  | .break => fun _ _ _ s hi _ _ => passes_inv hi (wp_brk ⟨refl _ s, rfl⟩)
  | .continue => fun _ _ _ s hi _ _ => passes_inv hi (wp_cont ⟨refl _ s, rfl⟩)
  | .staticAssert _ => fun _ _ _ s hi _ _ =>
    passes_inv hi (wp_skip ⟨refl _ s, rfl, trivial⟩)
  | .match disc arms => stmtSpec_match (armsSpec arms) disc
  | .letMatch isMut name ty disc arms => stmtSpec_letMatch (armsSpec arms) isMut name ty disc
termination_by structural st => st

theorem listSpec : ∀ ss : List Stmt, ListSpec tgt tbl C resolveBound τ ss
  | [] => fun _ s _ _ => wp_skip ⟨refl _ s, fun _ _ => rfl, trivial⟩
  | st :: ss => listSpec_cons (stmtSpec st) (listSpec ss)
termination_by structural ss => ss

theorem loopSpec : ∀ ss : List Stmt, LoopSpec tgt tbl C resolveBound τ ss
  | [] => fun _ _ _ s _ _ _ _ => wp_skip ⟨refl _ s, fun _ _ => rfl, trivial⟩
  | st :: ss => loopSpec_cons (stmtSpec st) (loopSpec ss)
termination_by structural ss => ss

theorem armsSpec : ∀ arms : List Arm, ArmsSpec tgt tbl C resolveBound τ arms
  | [] => fun _ _ _ _ _ _ hp => by cases hp
  | .mk _ body :: arms => armsSpec_cons (listSpec body) (armsSpec arms)
termination_by structural arms => arms

end
end Statements

/-! ## Function bodies -/

/-- A state at the start of a body: every variable in scope has a cell of its
declared type, and no constant's name. -/
structure Declared (tbl : ConstTable) (Γ : TyEnv) (s : State tgt) : Prop where
  bound : ∀ x l, s.env x = some l → tbl x = none ∧ ∃ c, s.cells[l]? = some c ∧ c.owner = x
  entry : ∀ x entry, Γ x = some entry →
    ∃ l c, s.env x = some l ∧ s.cells[l]? = some c ∧ c.owner = x ∧ c.ty = entry.1

lemma Declared.inv {Γ : TyEnv} {s : State tgt} (h : Declared tbl Γ s) (W : Set String) : Inv tbl C Γ W s := by
  refine ⟨h.bound, fun x entry hx => ?_⟩
  obtain ⟨l, c, hl, hc, ho, hty⟩ := h.entry x entry hx
  exact ⟨l, c, hl, hc, ho, by rw [hty], hty ▸ c.ok, fun _ v hv => hty ▸ hv⟩

def comparedNames (ss : List Stmt) : List String := (guards ss).flatMap compared

section Guarded

def pointers : Typing where
  expr _ _ := .ptr (.int .u32)
  counter _ _ _ _ := .void
  element _ _ := .void
  component _ _ _ := .void
  payload _ _ _ := .void
  yielded _ _ _ _ := .void

def scopeV : TyEnv := fun x => if x = "v" then some (.int .u32, true) else none

def cellV (z : Int) (h : IntTy.u32.Holds .bits64 z) : Cell .bits64 :=
  ⟨"v", .int .u32, .int z, z, rfl, h⟩

def startV : State .bits64 :=
  ⟨fun x => if x = "v" then some 0 else none, [cellV 3 (by decide)]⟩

def guardV : Expr := .binOp .lt (.var "v") (.intLit 8)

lemma declared_startV : Declared (fun _ => none) scopeV startV := by
  constructor
  · intro x l hl
    simp only [startV] at hl
    split_ifs at hl with hx
    cases hl
    exact ⟨rfl, _, rfl, hx.symm⟩
  · intro x entry hx
    rw [scopeV] at hx
    split_ifs at hx with hv
    cases hx
    exact ⟨0, _, by simp only [startV, if_pos hv], rfl, hv.symm, rfl⟩

lemma writes_self (w : Nat → Prop) (s : State tgt) : Writes w s s := by
  refine ⟨rfl, rfl, fun l c c' hc hc' => ?_⟩
  obtain rfl : c = c' := some.inj (hc.symm.trans hc')
  exact ⟨rfl, rfl, fun hne => absurd rfl hne⟩

lemma run_guardV (vis : Expr → State .bits64 → State .bits64 → Prop) {Γ : TyEnv}
    {s : State .bits64} {entry : Entry} (hΓ : Γ "v" = some entry) (hvis : vis guardV s s)
    (hlook : s.look "v" = some (.int .u32, .int 3)) :
    Run (sem (fun _ => none) vis)
      (evalExpr .bits64 (fun _ => none) (fun _ => none) Γ (some true) guardV) s .normal s := by
  have hvar : Run (sem (fun _ => none) vis)
      (evalExpr .bits64 (fun _ => none) (fun _ => none) Γ none (.var "v")) s .normal s := by
    rw [evalExpr, hΓ]
    exact .seq (.act rfl) .skip
  have hverdict : verdict (fun _ => none) s guardV = some true := by
    have hlit : constant .bits64 (fun _ => none) .u32 (.intLit 8#64) = some 8 := by decide
    simp [verdict, guardV, operandTy, operandValue, hlook, canon, hlit, compareInts]
  refine .seq (.seq hvar .skip) (.seq (.act ⟨writes_self _ s, hvis⟩) (.act ⟨rfl, ?_⟩))
  intro b hb
  exact some.inj (hverdict.symm.trans hb)

def aliased (z : Int) (h : IntTy.u32.Holds .bits64 z) : State .bits64 :=
  ⟨update startV.env "p" (some 1), [cellV z h, ⟨"p", .ptr (.int .u32), .ptr 0, trivial⟩]⟩

end Guarded
end Takibi.Flow
