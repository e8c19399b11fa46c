import Takibi.Flow.Bounds

/-! Narrowing over whole executions. Where every expression that writes a compared
variable names it, each read finds a value of the type the checker has there. -/

namespace Takibi.Flow
open Numeric Takibi.Types Syntax Range Control List Option
variable {tgt : Target} {tbl : ConstTable} {resolveBound : Expr → Option Native} {τ : Typing}
  {C : List String}

/-! ## Frames -/

def CellsKeep (C : List String) (W : Set String) (s t : State tgt) : Prop :=
  ∀ (l : Nat) (c : Cell tgt), s.cells[l]? = some c → ∃ c' : Cell tgt, t.cells[l]? = some c' ∧
    c'.owner = c.owner ∧ c'.ty = c.ty ∧ (c'.val ≠ c.val → c.owner ∈ C → c.owner ∈ W)

variable {x : String}

section Frames
variable {W W' : Set String} {Γ : TyEnv} {s t u : State tgt} {e l r : Expr} {op : BinOp}

lemma CellsKeep.refl (W : Set String) (s : State tgt) : CellsKeep C W s s :=
  fun _ c hc => ⟨c, hc, rfl, rfl, fun h => absurd rfl h⟩

lemma CellsKeep.mono (h : CellsKeep C W s t) (hW : W ⊆ W') : CellsKeep C W' s t := by
  intro l c hc
  obtain ⟨c', hc', ho, hty, hval⟩ := h l c hc
  exact ⟨c', hc', ho, hty, fun hne hC => hW (hval hne hC)⟩

lemma CellsKeep.trans (h : CellsKeep C W s t) (h' : CellsKeep C W t u) : CellsKeep C W s u := by
  intro l c hc
  obtain ⟨c₁, hc₁, ho₁, hty₁, hval₁⟩ := h l c hc
  obtain ⟨c₂, hc₂, ho₂, hty₂, hval₂⟩ := h' l c₁ hc₁
  refine ⟨c₂, hc₂, ho₂.trans ho₁, hty₂.trans hty₁, fun hne hC => ?_⟩
  by_cases heq : c₁.val = c.val
  · have hne' : c₂.val ≠ c₁.val := fun h => hne (h.trans heq)
    exact ho₁ ▸ hval₂ hne' (ho₁.symm ▸ hC)
  · exact hval₁ heq hC

lemma EntryOk.keep {entry : Entry} (h : EntryOk C W s x entry)
    (hk : CellsKeep C W' s t) (hW : x ∈ W' → x ∈ W) (henv : t.env x = s.env x) :
    EntryOk C W t x entry := by
  obtain ⟨l, c, hl, hc, ho, hcanon, hty, hwiden⟩ := h
  obtain ⟨c', hc', ho', hty', hval⟩ := hk l c hc
  refine ⟨l, c', henv.trans hl, hc', ho'.trans ho, by rw [hty', hcanon], ?_, ?_⟩
  · by_cases heq : c'.val = c.val
    · rw [heq]
      exact hty
    · refine hwiden ?_ _ (hty' ▸ c'.ok)
      by_cases hx : x ∈ C
      · exact .inr (hW (ho ▸ hval heq (ho.symm ▸ hx)))
      · exact .inl hx
  · rw [hty']
    exact hwiden

lemma Inv.keep (h : Inv tbl C Γ W s) (hk : CellsKeep C W' s t) (hW : W' ⊆ W)
    (henv : t.env = s.env) : Inv tbl C Γ W t := by
  refine ⟨fun x l hl => ?_, fun x entry hx => ?_⟩
  · obtain ⟨hconst, c, hc, ho⟩ := h.bound x l (henv ▸ hl)
    obtain ⟨c', hc', ho', -⟩ := hk l c hc
    exact ⟨hconst, c', hc', ho'.trans ho⟩
  · exact (h.entry x entry hx).keep hk (fun hx => hW hx) (congrFun henv x)

lemma look_keep (h : Inv tbl C Γ W s) (hk : CellsKeep C W' s t) (henv : t.env = s.env)
    (hC : x ∈ C) (hW : x ∉ W') : t.look x = s.look x := by
  rw [State.look, State.look, henv]
  cases hl : s.env x with
  | none => rfl
  | some l =>
    obtain ⟨-, c, hc, ho⟩ := h.bound x l hl
    obtain ⟨c', hc', -, hty, hval⟩ := hk l c hc
    have heq : c'.val = c.val := by
      by_contra hne
      exact hW (ho ▸ hval hne (ho.symm ▸ hC))
    simp only [bind_some, hc, hc', map_some, hty, heq]

lemma operand_congr (tbl : ConstTable) (h : ∀ x ∈ side e, t.look x = s.look x) :
    operandTy t e = operandTy s e ∧ ∀ ty, operandValue tbl t ty e = operandValue tbl s ty e := by
  cases e with
  | var x =>
    have hx := h x (mem_singleton.mpr rfl)
    exact ⟨by simp only [operandTy, hx], fun ty => by simp only [operandValue, hx]⟩
  | _ => exact ⟨rfl, fun _ => rfl⟩

lemma verdict_congr (h : ∀ x ∈ side l ++ side r, t.look x = s.look x) :
    verdict tbl t (.binOp op l r) = verdict tbl s (.binOp op l r) := by
  obtain ⟨hlty, hl⟩ := operand_congr tbl fun x hx => h x (mem_append_left _ hx)
  obtain ⟨hrty, hr⟩ := operand_congr tbl fun x hx => h x (mem_append_right _ hx)
  simp only [verdict, hlty, hl, hrty, hr]

lemma compared_binOp (hand : op ≠ .and) (hor : op ≠ .or) : compared (.binOp op l r) = side l ++ side r := by
  cases op <;> first | rfl | exact absurd rfl hand | exact absurd rfl hor

lemma sat_binOp (hand : op ≠ .and) (hor : op ≠ .or) :
    Sat tbl s (.binOp op l r) ↔ verdict tbl s (.binOp op l r) ≠ some false := by
  cases op <;> first | rfl | exact absurd rfl hand | exact absurd rfl hor

lemma Sat.congr (h : ∀ x ∈ compared e, t.look x = s.look x) (hs : Sat tbl s e) : Sat tbl t e := by
  fun_induction Sat tbl s e with
  | case1 a b iha ihb =>
    exact ⟨iha (fun x hx => h x (mem_append_left _ hx)) hs.1,
      ihb (fun x hx => h x (mem_append_right _ hx)) hs.2⟩
  | case2 a b => trivial
  | case3 e hand hor =>
    cases e with
    | binOp op l r =>
      have hor' : op ≠ .or := fun heq => hor l r (heq ▸ rfl)
      have hand' : op ≠ .and := fun heq => hand l r (heq ▸ rfl)
      rw [sat_binOp hand' hor', verdict_congr (compared_binOp hand' hor' ▸ h)]
      exact hs
    | _ => exact hs

end Frames

/-! ## Guards -/

mutual

/-- The conditions that narrow something in an expression: the left operands of `&&` and
`||`. -/
def Expr.guards : Expr → List Expr
  | .binOp .and a b | .binOp .or a b => a :: (Expr.guards a ++ Expr.guards b)
  | .binOp _ a b | .index a b | .assign a b => Expr.guards a ++ Expr.guards b
  | .sliceOf a b c => Expr.guards a ++ Expr.guards b ++ Expr.guards c
  | .call _ es | .structLit es | .tupleLit es => exprsGuards es
  | .variantCtor _ _ e | .bnot e | .deref e | .addrOf e | .cast _ e | .fieldGet e _
  | .unsafeExpr e => Expr.guards e
  | _ => []

def exprsGuards : List Expr → List Expr
  | [] => []
  | e :: es => Expr.guards e ++ exprsGuards es

end

mutual

def Stmt.guards : Stmt → List Expr
  | .return (some e) | .expr e | .yield e | .letTuple _ e => Expr.guards e
  | .let _ _ _ init =>
    match init with
    | some e => Expr.guards e
    | none => []
  | .return none | .break | .continue | .staticAssert _ => []
  | .block ss | .unsafeBlock ss => guards ss
  | .if c yes no => c :: (Expr.guards c ++ guards yes ++ guards no)
  | .while c body => c :: (Expr.guards c ++ guards body)
  | .for _ _ lo hi body => Expr.guards lo ++ Expr.guards hi ++ guards body
  | .forEach _ e body => Expr.guards e ++ guards body
  | .match d arms | .letMatch _ _ _ d arms => Expr.guards d ++ armsGuards arms

def guards : List Stmt → List Expr
  | [] => []
  | s :: ss => Stmt.guards s ++ guards ss

def armsGuards : List Arm → List Expr
  | [] => []
  | .mk _ body :: arms => guards body ++ armsGuards arms

end

/-- In a condition, an operand writes no variable that an operand before it compares. -/
def Steady : Expr → Prop
  | .binOp .and a b | .binOp .or a b =>
    Steady a ∧ Steady b ∧ ∀ x ∈ compared a, x ∉ b.written
  | _ => True

def visible (C : List String) (e : Expr) (s t : State tgt) : Prop :=
  ∀ (l : Nat) (c c' : Cell tgt), s.cells[l]? = some c → t.cells[l]? = some c' →
    c'.val ≠ c.val → c.owner ∈ C → c.owner ∈ e.written

def readOk : Action → State tgt → Prop
  | .read x ty, s => ∃ ty' v, s.look x = some (ty', v) ∧ HasTy tgt ty v
  | _, _ => True

def Guard (C : List String) (g : Expr) : Prop := (∀ x ∈ compared g, x ∈ C) ∧ Steady g

abbrev Runs (tbl : ConstTable) (C : List String) (p : Prog Action) (Q : Post (State tgt))
    (s : State tgt) : Prop :=
  WP (sem tbl (visible C)) readOk p Q s

/-! ## Expressions -/

def Outcome (tbl : ConstTable) (want : Option Bool) (e : Expr) (t : State tgt) : Prop :=
  match want with
  | none => True
  | some true => Sat tbl t e
  | some false => ∀ neg, negateCond e = some neg → Sat tbl t neg

def quiet (C : List String) (W : Set String) (s : State tgt) (R : State tgt → Prop) : Post (State tgt) where
  normal t := CellsKeep C W s t ∧ t.env = s.env ∧ R t
  brk _ := False
  cont _ := False
  ret _ := False

section Expressions
variable {W W' V : Set String} {Γ : TyEnv} {s t : State tgt} {p q : Prog Action} {a b c e : Expr} {op : BinOp}
  {want : Option Bool}
  {R R' : State tgt → Prop}

lemma wp_quiet_mono (h : Runs tbl C p (quiet C W s R) s) (hW : W ⊆ W')
    (hR : ∀ t, R t → R' t) : Runs tbl C p (quiet C W' s R') s := by
  refine h.mono fun x t ht => ?_
  cases x with
  | normal => exact ⟨ht.1.mono hW, ht.2.1, hR t ht.2.2⟩
  | _ => exact ht

lemma wp_quiet_seq (hp : Runs tbl C p (quiet C W s R) s)
    (hq : ∀ t, CellsKeep C W s t → t.env = s.env → R t → Runs tbl C q (quiet C W t R') t) :
    Runs tbl C (.seq p q) (quiet C W s R') s := by
  refine wp_seq (hp.mono fun x t ht => ?_)
  cases x with
  | normal =>
    obtain ⟨hk, henv, hR⟩ := ht
    refine (hq t hk henv hR).mono fun y u hu => ?_
    cases y with
    | normal => exact ⟨hk.trans hu.1, hu.2.1.trans henv, hu.2.2⟩
    | _ => exact hu
  | _ => exact ht

lemma wp_quiet_seq_of {R'' : State tgt → Prop} (hW : W' ⊆ W) (hp : Runs tbl C p (quiet C W s R) s)
    (hq : ∀ t, CellsKeep C W s t → t.env = s.env → R t → Runs tbl C q (quiet C W' t R') t)
    (hR : ∀ t u, CellsKeep C W s t → t.env = s.env → R t → CellsKeep C W' t u → u.env = t.env →
      R' u → R'' u) :
    Runs tbl C (.seq p q) (quiet C W s R'') s := by
  refine wp_quiet_seq hp fun t hk henv ht => (hq t hk henv ht).mono fun x u hu => ?_
  cases x with
  | normal => exact ⟨hu.1.mono hW, hu.2.1, hR t u hk henv ht hu.1 hu.2.1 hu.2.2⟩
  | _ => exact hu

lemma wp_quiet_skip (hR : R s) : Runs tbl C .skip (quiet C W s R) s :=
  wp_skip ⟨CellsKeep.refl W s, rfl, hR⟩

lemma wp_effect (hW : ∀ x ∈ e.written, x ∈ W) :
    Runs tbl C (.act (.effect e)) (quiet C W s fun _ => True) s := by
  refine wp_act trivial ?_
  rintro t ⟨hw, hvis⟩
  refine ⟨fun l c hc => ?_, hw.env, trivial⟩
  have hl : l < t.cells.length := hw.length ▸ (List.getElem?_eq_some_iff.mp hc).1
  have hc' := getElem?_eq_getElem hl
  obtain ⟨ho, hty, -⟩ := hw.cell l c _ hc hc'
  exact ⟨_, hc', ho, hty, fun hne hC => hW _ (hvis l c _ hc hc' hne hC)⟩

lemma compareInts_negate {op' : BinOp}
    (h : negateCond (.binOp op a b) = some (.binOp op' a b)) (hand : op ≠ .and) (hor : op ≠ .or)
    (x y : Int) : compareInts op' x y = (compareInts op x y).map not := by
  cases op <;> simp only [negateCond, some.injEq, Expr.binOp.injEq, and_true,
    reduceCtorEq] at h <;> first | exact absurd rfl hand | exact absurd rfl hor | skip
  all_goals
    subst h
    simp only [compareInts, map_some, some.injEq]
    by_cases hxy : x = y <;> grind

section
variable (hand : ∀ a b, e ≠ .binOp .and a b) (hor : ∀ a b, e ≠ .binOp .or a b)
include hand hor

lemma sat_negate {neg : Expr} (hneg : negateCond e = some neg)
    (hs : verdict tbl s e ≠ some true) : Sat tbl s neg := by
  cases e with
  | binOp op a b =>
    have hand' : op ≠ .and := fun heq => hand a b (heq ▸ rfl)
    have hor' : op ≠ .or := fun heq => hor a b (heq ▸ rfl)
    obtain ⟨op', rfl, hop'⟩ : ∃ op', neg = .binOp op' a b ∧ op' ≠ .and ∧ op' ≠ .or := by
      cases op <;> simp only [negateCond, some.injEq, reduceCtorEq] at hneg <;> first
        | exact absurd rfl hand'
        | exact absurd rfl hor'
        | exact ⟨_, hneg.symm, by decide, by decide⟩
    have hnot : verdict tbl s (.binOp op' a b) = (verdict tbl s (.binOp op a b)).map not := by
      simp only [verdict, bind_eq_bind, map_bind, Function.comp_def, compareInts_negate hneg hand' hor']
    rw [sat_binOp hop'.1 hop'.2, hnot]
    intro hfalse
    obtain ⟨r, hr, hnr⟩ := map_eq_some_iff.mp hfalse
    cases r with
    | true => exact hs hr
    | false => cases hnr
  | _ => cases hneg

lemma sat_of_verdict (hs : verdict tbl s e ≠ some false) : Sat tbl s e := by
  cases e with
  | binOp op a b =>
    exact (sat_binOp (fun heq => hand a b (heq ▸ rfl)) fun heq => hor a b (heq ▸ rfl)).mpr hs
  | _ => exact hs

lemma wp_result : Runs tbl C (evalExpr.result want e)
      (quiet C W s (Outcome tbl want e)) s := by
  cases want with
  | none => exact wp_quiet_skip trivial
  | some b =>
    refine wp_act trivial ?_
    rintro t ⟨rfl, hv⟩
    refine ⟨CellsKeep.refl W t, rfl, ?_⟩
    cases b with
    | true =>
      refine sat_of_verdict hand hor fun hfalse => ?_
      cases hv false hfalse
    | false =>
      refine fun neg hneg => sat_negate hand hor hneg fun htrue => ?_
      cases hv true htrue

lemma wp_finish (hW : ∀ x ∈ e.written, x ∈ W) (h : Runs tbl C p (quiet C W s fun _ => True) s) :
    Runs tbl C (evalExpr.finish want e p) (quiet C W s (Outcome tbl want e)) s := by
  refine wp_quiet_seq h fun t _ _ _ => ?_
  exact wp_quiet_seq (wp_effect hW) fun u _ _ _ => wp_result hand hor

end

def Evaluates (tgt : Target) (tbl : ConstTable) (C : List String) (Γ : TyEnv) (W : Set String)
    (p : Prog Action) (V : Set String) : Prop :=
  ∀ s : State tgt, Inv tbl C Γ W s → Runs tbl C p (quiet C V s fun _ => True) s

lemma Evaluates.seq (hp : Evaluates tgt tbl C Γ W p V)
    (hq : Evaluates tgt tbl C Γ W q V) (hV : V ⊆ W) :
    Evaluates tgt tbl C Γ W (.seq p q) V :=
  fun s hs => wp_quiet_seq (hp s hs) fun t hk henv _ => hq t (hs.keep hk hV henv)

lemma evaluates_skip : Evaluates tgt tbl C Γ W .skip V :=
  fun _ _ => wp_quiet_skip trivial

lemma Guard.right (hop : op = .and ∨ op = .or) (h : Guard C (.binOp op a b)) : Guard C b := by
  rcases hop with rfl | rfl <;> exact ⟨fun x hx => h.1 x (mem_append_right _ hx), h.2.2.1⟩

lemma Sat.after (hop : op = .and ∨ op = .or)
    (hg : Guard C (.binOp op a b)) (hc : compared c = compared a) (hi : Inv tbl C Γ W s)
    (hk : CellsKeep C {x | x ∈ b.written} s t) (henv : t.env = s.env) (hs : Sat tbl s c) :
    Sat tbl t c := by
  refine hs.congr fun x hx => ?_
  rw [hc] at hx
  rcases hop with rfl | rfl <;>
    exact look_keep hi hk henv (hg.1 x (mem_append_left _ hx)) (hg.2.2.2 x hx)

lemma compared_negate {neg : Expr} (h : negateCond e = some neg) : compared neg = compared e := by
  fun_induction negateCond e generalizing neg with
  | case1 a b iha ihb | case2 a b iha ihb =>
    obtain ⟨na, hna, h⟩ := bind_eq_some_iff.mp h
    obtain ⟨nb, hnb, h⟩ := bind_eq_some_iff.mp h
    cases h
    rw [compared, compared, iha hna, ihb hnb]
  | case9 e => cases h
  | _ => cases h; rfl

def EvalSpec (tgt : Target) (tbl : ConstTable) (C : List String)
    (resolveBound : Expr → Option Native) (e : Expr) : Prop :=
  ∀ (Γ : TyEnv) (W : Set String) (s : State tgt) (want : Option Bool), Inv tbl C Γ W s →
    (∀ x ∈ e.written, x ∈ W) → (∀ g ∈ Expr.guards e, Guard C g) → (want ≠ none → Guard C e) →
    Runs tbl C (evalExpr tgt tbl resolveBound Γ want e)
      (quiet C {x | x ∈ e.written} s (Outcome tbl want e)) s

section Specs

lemma EvalSpec.evaluates (h : EvalSpec tgt tbl C resolveBound e)
    (hV : ∀ x ∈ e.written, x ∈ V) (hVW : V ⊆ W) (hg : ∀ g ∈ Expr.guards e, Guard C g) :
    Evaluates tgt tbl C Γ W (evalExpr tgt tbl resolveBound Γ none e) V := by
  intro s hs
  have hwp := h Γ W s none hs (fun x hx => hVW (hV x hx)) hg fun hne => absurd rfl hne
  exact wp_quiet_mono hwp hV fun _ _ => trivial

lemma evalSpec_var (x : String) : EvalSpec tgt tbl C resolveBound (.var x) := by
  intro Γ W s want hi hW hg hw
  rw [evalExpr]
  refine wp_quiet_seq (R := fun _ => True) ?_ fun t _ _ _ => wp_result nofun nofun
  cases hx : Γ x with
  | none => exact wp_quiet_skip trivial
  | some entry =>
    obtain ⟨l, c, hl, hc, -, -, hty, -⟩ := hi.entry x entry hx
    have hlook : s.look x = some (c.ty, c.val) := by
      simp only [State.look, hl, hc, bind_some, map_some]
    refine wp_act ⟨c.ty, c.val, hlook, hty⟩ ?_
    rintro t rfl
    exact ⟨CellsKeep.refl _ _, rfl, trivial⟩

section
variable (hand : ∀ a b, e ≠ .binOp .and a b)
include hand

section
variable (hor : ∀ a b, e ≠ .binOp .or a b)
include hor

lemma evalSpec_leaf
    (he : ∀ Γ want, evalExpr tgt tbl resolveBound Γ want e = evalExpr.result want e) :
    EvalSpec tgt tbl C resolveBound e := by
  intro Γ W s want hi hW hg hw
  rw [he]
  exact wp_result hand hor

lemma evalSpec_node (operands : TyEnv → Prog Action)
    (he : ∀ Γ want, evalExpr tgt tbl resolveBound Γ want e = evalExpr.finish want e (operands Γ))
    (h : ∀ (Γ : TyEnv) (W : Set String), (∀ g ∈ Expr.guards e, Guard C g) → {x | x ∈ e.written} ⊆ W →
      Evaluates tgt tbl C Γ W (operands Γ) {x | x ∈ e.written}) :
    EvalSpec tgt tbl C resolveBound e := by
  intro Γ W s want hi hW hg hw
  rw [he]
  exact wp_finish hand hor (fun x hx => hx) (h Γ W hg hW s hi)

lemma evalSpec_unary
    (he : ∀ Γ want, evalExpr tgt tbl resolveBound Γ want e = evalExpr.finish want e (evalExpr tgt tbl resolveBound Γ none a))
    (ha : EvalSpec tgt tbl C resolveBound a) (hwr : ∀ x ∈ a.written, x ∈ e.written)
    (hgu : ∀ g ∈ Expr.guards a, g ∈ Expr.guards e) : EvalSpec tgt tbl C resolveBound e :=
  evalSpec_node hand hor _ he fun _ _ hg hW => ha.evaluates hwr hW fun g hgm => hg g (hgu g hgm)

lemma evalSpec_binary
    (he : ∀ Γ want, evalExpr tgt tbl resolveBound Γ want e =
      evalExpr.finish want e (.seq (evalExpr tgt tbl resolveBound Γ none a) (evalExpr tgt tbl resolveBound Γ none b)))
    (ha : EvalSpec tgt tbl C resolveBound a) (hb : EvalSpec tgt tbl C resolveBound b)
    (hwr : ∀ x ∈ a.written ++ b.written, x ∈ e.written)
    (hgu : ∀ g ∈ Expr.guards a ++ Expr.guards b, g ∈ Expr.guards e) :
    EvalSpec tgt tbl C resolveBound e := by
  refine evalSpec_node hand hor _ he fun _ _ hg hW => Evaluates.seq ?_ ?_ hW
  · exact ha.evaluates (fun x hx => hwr x (mem_append_left _ hx)) hW
      fun g hgm => hg g (hgu g (mem_append_left _ hgm))
  · exact hb.evaluates (fun x hx => hwr x (mem_append_right _ hx)) hW
      fun g hgm => hg g (hgu g (mem_append_right _ hgm))

end
end

lemma outcome_and_false {t : State tgt} : Outcome tbl (some false) (.binOp .and a b) t := by
  intro neg hneg
  obtain ⟨na, -, h⟩ := bind_eq_some_iff.mp hneg
  obtain ⟨nb, -, h⟩ := bind_eq_some_iff.mp h
  cases h
  trivial

lemma Guard.operands (hop : op = .and ∨ op = .or)
    (hg : ∀ g ∈ Expr.guards (.binOp op a b), Guard C g) :
    Guard C a ∧ (∀ g ∈ Expr.guards a, Guard C g) ∧ ∀ g ∈ Expr.guards b, Guard C g := by
  rcases hop with rfl | rfl <;>
    exact ⟨hg a (mem_cons_self ..), fun g h => hg g (mem_cons_of_mem _ (mem_append_left _ h)),
      fun g h => hg g (mem_cons_of_mem _ (mem_append_right _ h))⟩

section
variable (ha : EvalSpec tgt tbl C resolveBound a) (hb : EvalSpec tgt tbl C resolveBound b)
include ha hb

lemma evalSpec_logic (hop : op = .and ∨ op = .or) (go : Bool) (Γ' : TyEnv → TyEnv)
    (he : ∀ Γ want, evalExpr tgt tbl resolveBound Γ want (.binOp op a b) =
      .choose (if want = some go then .stop else evalExpr tgt tbl resolveBound Γ (some !go) a)
        (.seq (evalExpr tgt tbl resolveBound Γ (some go) a)
          (evalExpr tgt tbl resolveBound (Γ' Γ) want b)))
    (hscope : ∀ (Γ : TyEnv) (W : Set String) (t : State tgt), Inv tbl C Γ W t → Guard C a →
      (∀ x ∈ b.written, x ∈ W) → Outcome tbl (some go) a t → Inv tbl C (Γ' Γ) {x | x ∈ b.written} t)
    (hshort : ∀ t : State tgt, Outcome tbl (some !go) (.binOp op a b) t)
    (hboth : ∀ (Γ : TyEnv) (W : Set String) (t u : State tgt), Guard C (.binOp op a b) →
      Inv tbl C Γ W t → CellsKeep C {x | x ∈ b.written} t u → u.env = t.env →
      Outcome tbl (some go) a t → Outcome tbl (some go) b u →
      Outcome tbl (some go) (.binOp op a b) u) :
    EvalSpec tgt tbl C resolveBound (.binOp op a b) := by
  intro Γ W s want hi hW hg hw
  obtain ⟨hga, hgas, hgbs⟩ := Guard.operands hop hg
  have hWa : ∀ x ∈ a.written, x ∈ W := fun x hx => hW x (mem_append_left _ hx)
  have hWb : ∀ x ∈ b.written, x ∈ W := fun x hx => hW x (mem_append_right _ hx)
  have hleft : ∀ go, Runs tbl C (evalExpr tgt tbl resolveBound Γ (some go) a)
      (quiet C {x | x ∈ (Expr.binOp op a b).written} s (Outcome tbl (some go) a)) s := fun go =>
    wp_quiet_mono (ha Γ W s (some go) hi hWa hgas fun _ => hga) (fun x hx => mem_append_left _ hx)
      fun _ h => h
  -- only a result other than the short one depends on both operands
  have hwanted : ∀ t : State tgt, (want = some go → Outcome tbl (some go) (.binOp op a b) t) →
      Outcome tbl want (.binOp op a b) t := fun t h => by
    cases want with
    | none => trivial
    | some r =>
      by_cases hr : r = go
      · exact hr ▸ h (congrArg some hr)
      · rw [Bool.eq_not_of_ne hr]
        exact hshort t
  rw [he]
  refine wp_choose ?_ ?_
  · split_ifs with hwant
    · exact wp_stop
    · exact wp_quiet_mono (hleft !go) (fun x hx => hx) fun t _ => hwanted t fun h => absurd h hwant
  · refine wp_quiet_seq_of (fun x hx => mem_append_right _ hx) (hleft go) (fun t hk henv hsat =>
      hb _ {x | x ∈ b.written} t want (hscope Γ W t (hi.keep hk hW henv) hga hWb hsat)
        (fun x hx => hx) hgbs fun hne => (hw hne).right hop)
      fun t u hk henv hsat hku henvu hout => hwanted u ?_
    rintro rfl
    exact hboth Γ W t u (hw nofun) (hi.keep hk hW henv) hku henvu hsat hout

lemma evalSpec_and : EvalSpec tgt tbl C resolveBound (.binOp .and a b) := by
  refine evalSpec_logic ha hb (.inl rfl) true _ (fun _ _ => rfl) ?_ (fun _ => outcome_and_false) ?_
  · exact fun Γ W t hit hga hWb hsat => hit.narrow _ hsat hga.1 hWb fun x hx => hx
  · exact fun Γ W t u hg hit hk henv hsat hout => ⟨hsat.after (.inl rfl) hg rfl hit hk henv, hout⟩

lemma evalSpec_or : EvalSpec tgt tbl C resolveBound (.binOp .or a b) := by
  refine evalSpec_logic ha hb (.inr rfl) false (fun Γ => match negateCond a with
    | some neg => narrowFromCond tgt tbl resolveBound Γ neg b.written
    | none => Γ) (fun _ _ => rfl) ?_ (fun _ => trivial) ?_
  · intro Γ W t hit hga hWb hsat
    cases hneg : negateCond a with
    | none => exact hit.mono hWb
    | some neg =>
      refine hit.narrow _ (hsat neg hneg) ?_ hWb fun x hx => hx
      rw [compared_negate hneg]
      exact hga.1
  · intro Γ W t u hg hit hk henv hsat hout neg hneg
    obtain ⟨na, hna, h⟩ := bind_eq_some_iff.mp hneg
    obtain ⟨nb, hnb, h⟩ := bind_eq_some_iff.mp h
    cases h
    exact ⟨(hsat na hna).after (.inr rfl) hg (compared_negate hna) hit hk henv, hout nb hnb⟩

end

lemma evalExprs_evaluates {es : List Expr}
    (h : ∀ e ∈ es, EvalSpec tgt tbl C resolveBound e) (hV : ∀ x ∈ exprsWritten es, x ∈ V)
    (hVW : V ⊆ W) (hg : ∀ g ∈ exprsGuards es, Guard C g) :
    Evaluates tgt tbl C Γ W (evalExprs tgt tbl resolveBound Γ es) V := by
  induction es with
  | nil => exact evaluates_skip
  | cons e es ih =>
    have he := (h e (mem_cons_self ..)).evaluates (Γ := Γ)
      (fun x hx => hV x (mem_append_left _ hx)) hVW
      fun g hgm => hg g (mem_append_left _ hgm)
    refine he.seq (ih (fun e he => h e (mem_cons_of_mem _ he)) ?_ ?_) hVW
    · exact fun x hx => hV x (mem_append_right _ hx)
    · exact fun g hgm => hg g (mem_append_right _ hgm)

lemma evalSpec_assign {lhs rhs : Expr} (place : TyEnv → Prog Action)
    (he : ∀ Γ want, evalExpr tgt tbl resolveBound Γ want (.assign lhs rhs) =
      evalExpr.finish want (.assign lhs rhs)
        (.seq (place Γ) (evalExpr tgt tbl resolveBound Γ none rhs)))
    (hplace : ∀ (Γ : TyEnv) (W : Set String), (∀ g ∈ Expr.guards lhs, Guard C g) →
      {x | x ∈ (Expr.assign lhs rhs).written} ⊆ W →
      Evaluates tgt tbl C Γ W (place Γ) {x | x ∈ (Expr.assign lhs rhs).written})
    (hr : EvalSpec tgt tbl C resolveBound rhs) :
    EvalSpec tgt tbl C resolveBound (.assign lhs rhs) := by
  refine evalSpec_node nofun nofun _ he fun Γ W hg hW => Evaluates.seq ?_ ?_ hW
  · exact hplace Γ W (fun g hgm => hg g (mem_append_left _ hgm)) hW
  · refine hr.evaluates (fun x hx => ?_) hW fun g hgm => hg g (mem_append_right _ hgm)
    change x ∈ (Expr.assign lhs rhs).written
    unfold Expr.written
    exact mem_append_right _ hx

lemma written_assign_index {base idx rhs : Expr}
    (h : x ∈ base.written ++ idx.written) : x ∈ (Expr.assign (.index base idx) rhs).written := by
  cases base with
  | var n => exact mem_append_left _ (mem_cons_of_mem _ h)
  | _ => exact mem_append_left _ h

variable (tgt tbl C resolveBound) in
mutual

theorem evalSpec : ∀ e : Expr, EvalSpec tgt tbl C resolveBound e := by
  intro e
  cases e with
  | var x => exact evalSpec_var x
  | binOp op a b =>
    have ha := evalSpec a
    have hb := evalSpec b
    cases op with
    | and => exact evalSpec_and ha hb
    | or => exact evalSpec_or ha hb
    | _ => exact evalSpec_binary nofun nofun (fun _ _ => rfl) ha hb (fun _ h => h) fun _ h => h
  | assign lhs rhs =>
    have hr := evalSpec rhs
    have hl := evalSpec lhs
    cases lhs with
    | var x =>
      exact evalSpec_assign (fun _ => .skip) (fun _ _ => rfl) (fun _ _ _ _ => evaluates_skip) hr
    | deref p | fieldGet p f =>
      have hp := evalSpec p
      exact evalSpec_assign _ (fun _ _ => rfl) (fun Γ W hg hW =>
        hp.evaluates (fun x hx => mem_append_left _ hx) hW hg) hr
    | index base idx =>
      have hbase := evalSpec base
      have hidx := evalSpec idx
      refine evalSpec_assign _ (fun _ _ => rfl) (fun Γ W hg hW => Evaluates.seq ?_ ?_ hW) hr
      · exact hbase.evaluates (fun x hx => written_assign_index (mem_append_left _ hx)) hW
          fun g hgm => hg g (mem_append_left _ hgm)
      · exact hidx.evaluates (fun x hx => written_assign_index (mem_append_right _ hx)) hW
          fun g hgm => hg g (mem_append_right _ hgm)
    | _ =>
      exact evalSpec_assign _ (fun _ _ => rfl) (fun Γ W hg hW =>
        hl.evaluates (fun x hx => mem_append_left _ hx) hW hg) hr
  | bnot e | deref e | cast _ e | fieldGet e _ | unsafeExpr e | variantCtor _ _ e =>
    exact evalSpec_unary nofun nofun (fun _ _ => rfl) (evalSpec e) (fun _ h => h) fun _ h => h
  | addrOf e =>
    have he := evalSpec e
    cases e with
    | var x => exact evalSpec_node nofun nofun _ (fun _ _ => rfl) fun _ _ _ _ => evaluates_skip
    | _ => exact evalSpec_unary nofun nofun (fun _ _ => rfl) he (fun _ h => h) fun _ h => h
  | index a b =>
    exact evalSpec_binary nofun nofun (fun _ _ => rfl) (evalSpec a) (evalSpec b) (fun _ h => h)
        fun _ h => h
  | sliceOf a b c =>
    have ha := evalSpec a
    have hb := evalSpec b
    have hc := evalSpec c
    refine evalSpec_node nofun nofun _ (fun _ _ => rfl) fun Γ W hg hW =>
      Evaluates.seq ?_ (Evaluates.seq ?_ ?_ hW) hW
    · exact ha.evaluates (fun x hx => mem_append_left _ (mem_append_left _ hx)) hW
        fun g h => hg g (mem_append_left _ (mem_append_left _ h))
    · exact hb.evaluates (fun x hx => mem_append_left _ (mem_append_right _ hx)) hW
        fun g h => hg g (mem_append_left _ (mem_append_right _ h))
    · exact hc.evaluates (fun x hx => mem_append_right _ hx) hW
        fun g h => hg g (mem_append_right _ h)
  | call _ es | structLit es | tupleLit es =>
    exact evalSpec_node nofun nofun _ (fun _ _ => rfl) fun _ _ hg hW =>
        evalExprs_evaluates (evalSpecs es) (fun _ h => h) hW hg
  | _ => exact evalSpec_leaf nofun nofun fun _ _ => rfl
termination_by structural e => e

theorem evalSpecs : ∀ es : List Expr, ∀ e ∈ es, EvalSpec tgt tbl C resolveBound e
  | [] => nofun
  | e :: es => fun e' h =>
    (mem_cons.mp h).elim (fun heq => heq ▸ evalSpec e) (evalSpecs es e')
termination_by structural es => es

end
end Specs
end Expressions
end Takibi.Flow
