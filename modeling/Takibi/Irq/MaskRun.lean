import Takibi.Irq.MaskSound

/-! What a walk says of the executions of expressions and statements. -/

namespace Takibi.Irq
open Syntax Control Calls Option List Bool
variable {ctx : Context} {I : String → Bool} {sig : Signature} {S : Summaries}

/-! ## Calls that change nothing -/

section Quiet
variable {P : String → Bool} {es es' : List Expr} {w : Walk} {l : Level}

lemma callsAll_mono (h : callsAll P es' = true) (hsub : es ⊆ es') : callsAll P es = true :=
  all_eq_true.mpr fun e he => all_eq_true.mp h e (hsub he)

lemma callsAll_cons {e : Expr} (h : callsAll P (e :: es) = true) : callsAll P es = true :=
  callsAll_mono h (subset_cons_self ..)

lemma callsAll_append (h : callsAll P (es ++ es') = true) : callsAll P es = true ∧ callsAll P es' = true :=
  ⟨callsAll_mono h (subset_append_left ..), callsAll_mono h (subset_append_right ..)⟩

variable (ctx I S) in
def LeavesAlone : Prop := ∀ target, I target = true → ∀ a, maskTransfer ctx S target a = a

lemma maskTransfer_inert : LeavesAlone ctx (inert ctx S) S := by
  intro target h a
  cases a with
  | dead => exact maskTransfer_dead target
  | live c d σ =>
    rw [maskTransfer, if_neg (fun h => by cases h)]
    unfold inert at h
    cases hk : ctx.kind target with
    | guard => rfl
    | ordinary =>
      rw [hk] at h
      dsimp only at h ⊢
      cases hs : S target with
      | some outs =>
        rw [hs] at h
        have hsame := of_decide_eq_true (all_eq_true.mp h _ (mem_maskEntries c d σ))
        exact congrArg (Option.getD · .dead) hsame
      | none =>
        rw [hs] at h
        simp [isNone_iff_eq_none.mp h]
    | _ =>
      rw [hk] at h
      cases h

lemma callsAll_of_none (h : callsAll (fun _ => false) es = true) : callsAll P es = true := by
  refine all_eq_true.mpr fun e he => ?_
  have hfree := all_eq_true.mp h e he
  cases e with
  | call site args => cases hfree
  | _ => rfl

lemma inOrder_callFree {lhs rhs : Expr} (hl : callFree lhs = true) : inOrder lhs rhs = true := by
  cases lhs with
  | deref a => rfl
  | fieldGet a f => rfl
  | index base i =>
    have hbase : callFree base = true := (callsAll_append (callsAll_cons hl)).1
    simp [inOrder, hbase]
  | _ => exact hl

mutual

theorem walkExpr_quiet (hI : LeavesAlone ctx I S) : ∀ (e : Expr) (w : Walk),
    callsAll (fun site => I (ctx.target site)) (parts true e) = true →
      (walkExpr ctx S w e).state = w.state := by
  intro e w h
  cases e with
  | call site args =>
    have hsite : I (ctx.target site) = true := all_eq_true.mp h _ (mem_cons_self ..)
    have hargs := walkExprs_quiet hI args w (callsAll_cons h)
    change maskTransfer ctx S (ctx.target site) (walkExprs ctx S w args).state = w.state
    rw [hI _ hsite, hargs]
  | variantCtor _ _ e | bnot e | deref e | addrOf e | cast _ e | fieldGet e _ | unsafeExpr e =>
    exact walkExpr_quiet hI e w (callsAll_cons h)
  | binOp _ a b | assign a b | index a b =>
    obtain ⟨ha, hb⟩ := callsAll_append (callsAll_cons h)
    change (walkExpr ctx S (walkExpr ctx S w a) b).state = w.state
    rw [walkExpr_quiet hI b _ hb, walkExpr_quiet hI a w ha]
  | structLit es | tupleLit es => exact walkExprs_quiet hI es w (callsAll_cons h)
  | sliceOf a b c =>
    obtain ⟨hab, hc⟩ := callsAll_append (callsAll_cons h)
    obtain ⟨ha, hb⟩ := callsAll_append hab
    rw [walkExpr, walkExpr_quiet hI c _ hc, walkExpr_quiet hI b _ hb, walkExpr_quiet hI a w ha]
  | _ => rfl
termination_by structural e => e

theorem walkExprs_quiet (hI : LeavesAlone ctx I S) : ∀ (es : List Expr) (w : Walk),
    callsAll (fun site => I (ctx.target site)) (partsAll true es) = true →
      (walkExprs ctx S w es).state = w.state
  | [], _, _ => rfl
  | e :: es, w, h => by
    obtain ⟨he, hes⟩ := callsAll_append h
    rw [walkExprs, walkExprs_quiet hI es _ hes, walkExpr_quiet hI e w he]
termination_by structural es => es

end

variable (ctx I sig S) in
mutual

theorem walkExpr_callFree : ∀ (e : Expr) (w : Walk) (l : Level),
    callsAll (fun _ => false) (parts true e) = true →
      walkExpr ctx S w e = w ∧ exprLevel ctx I sig l e = some l := by
  intro e w l h
  cases e with
  | call site args =>
    cases all_eq_true.mp h _ (mem_cons_self ..)
  | variantCtor _ _ e | bnot e | deref e | addrOf e | cast _ e | fieldGet e _ | unsafeExpr e =>
    exact walkExpr_callFree e w l (callsAll_cons h)
  | binOp op a b =>
    obtain ⟨ha, hb⟩ := callsAll_append (callsAll_cons h)
    obtain ⟨hwa, hla⟩ := walkExpr_callFree a w l ha
    obtain ⟨hwb, hlb⟩ := walkExpr_callFree b w l hb
    have hquiet : quiet ctx I b = true := callsAll_of_none hb
    refine ⟨by rw [walkExpr, hwa, hwb], ?_⟩
    cases op <;> simp [exprLevel, hla, hlb, hquiet]
  | assign lhs rhs =>
    obtain ⟨ha, hb⟩ := callsAll_append (callsAll_cons h)
    obtain ⟨hwa, hla⟩ := walkExpr_callFree lhs w l ha
    obtain ⟨hwb, hlb⟩ := walkExpr_callFree rhs w l hb
    refine ⟨by rw [walkExpr, hwa, hwb], ?_⟩
    rw [exprLevel, if_pos (inOrder_callFree ha), hla]
    exact hlb
  | index a b =>
    obtain ⟨ha, hb⟩ := callsAll_append (callsAll_cons h)
    obtain ⟨hwa, hla⟩ := walkExpr_callFree a w l ha
    obtain ⟨hwb, hlb⟩ := walkExpr_callFree b w l hb
    refine ⟨by rw [walkExpr, hwa, hwb], ?_⟩
    have hfree : callFree a = true := ha
    simp [exprLevel, hla, hlb, hfree]
  | structLit es | tupleLit es => exact walkExprs_callFree es w l (callsAll_cons h)
  | sliceOf a b c =>
    obtain ⟨hab, hc⟩ := callsAll_append (callsAll_cons h)
    obtain ⟨ha, hb⟩ := callsAll_append hab
    obtain ⟨hwa, hla⟩ := walkExpr_callFree a w l ha
    obtain ⟨hwb, hlb⟩ := walkExpr_callFree b w l hb
    obtain ⟨hwc, hlc⟩ := walkExpr_callFree c w l hc
    have hfree : callFree a = true := ha
    exact ⟨by rw [walkExpr, hwa, hwb, hwc], by simp [exprLevel, hla, hlb, hlc, hfree]⟩
  | _ => exact ⟨rfl, rfl⟩
termination_by structural e => e

theorem walkExprs_callFree : ∀ (es : List Expr) (w : Walk) (l : Level),
    callsAll (fun _ => false) (partsAll true es) = true →
      walkExprs ctx S w es = w ∧ exprsLevel ctx I sig l es = some l
  | [], _, _, _ => ⟨rfl, rfl⟩
  | e :: es, w, l, h => by
    obtain ⟨he, hes⟩ := callsAll_append h
    obtain ⟨hwe, hle⟩ := walkExpr_callFree e w l he
    obtain ⟨hws, hls⟩ := walkExprs_callFree es w l hes
    exact ⟨by rw [walkExprs, hwe, hws], by simp [exprsLevel, hle, hls]⟩
termination_by structural es => es

end
end Quiet

/-! ## Expressions -/

def passing (R : Daif → Prop) : Post Daif := ⟨R, fun _ => False, fun _ => False, fun _ => False⟩

/-- The levels hold of any summaries, and what is said of runs under `A`. -/
structure ExprOk (A : Prop) (M : Sem String Daif) (w w' : Walk) (l' : Level) (p : Prog String) : Prop where
  level : HasLevel w'.state l'
  visits : w.visits ⊆ w'.visits
  returned : w'.returned = w.returned
  runs : A → ∀ s, Covers w.state s → WP M (Seen w'.visits) p (passing (Covers w'.state)) s

variable (ctx sig S) in
def CallsOk (M : Sem String Daif) : Prop :=
  ∀ site a s t l l', HasLevel a l → callLevel ctx sig (ctx.target site) l = some l' → Covers a s →
    M.step site s t → Covers (maskTransfer ctx S (ctx.target site) a) t

variable (ctx I sig S) in
def ExprSpec (M : Sem String Daif) (e : Expr) : Prop :=
  ∀ w l l', HasLevel w.state l → exprLevel ctx I sig l e = some l' →
    ExprOk (LeavesAlone ctx I S) M w (walkExpr ctx S w e) l' (evalCalls e)

section Expressions
variable {A : Prop} {M : Sem String Daif} {w w₁ w₂ : Walk} {l l' l₁ l₂ : Level} {p q : Prog String}
  {a b e : Expr}

lemma Seen.mono {visits visits' : List (String × MaskState)} {site : String} {s : Daif}
    (h : Seen visits site s) (hsub : visits ⊆ visits') : Seen visits' site s := by
  obtain ⟨a, ha, hs⟩ := h
  exact ⟨a, hsub ha, hs⟩

lemma exprOk_skip (h : HasLevel w.state l) : ExprOk A M w w l .skip :=
  ⟨h, List.Subset.refl _, rfl, fun _ _ hs => wp_skip hs⟩

lemma ExprOk.seq (hp : ExprOk A M w w₁ l₁ p) (hq : ExprOk A M w₁ w₂ l₂ q) : ExprOk A M w w₂ l₂ (.seq p q) := by
  refine ⟨hq.level, List.Subset.trans hp.visits hq.visits, hq.returned.trans hp.returned, fun hA s hs => ?_⟩
  refine wp_seq (((hp.runs hA s hs).mono_ok fun _ _ h => h.mono hq.visits).mono fun x t ht => ?_)
  cases x with
  | normal => exact hq.runs hA t ht
  | _ => exact ht.elim

lemma ExprOk.seq_optional (hp : ExprOk A M w w₁ l₁ p) (hq : ExprOk A M w₁ w₂ l₂ q)
    (hstate : A → w₂.state = w₁.state) : ExprOk A M w w₂ l₂ (.seq p (.choose .skip q)) := by
  refine hp.seq ⟨hq.level, hq.visits, hq.returned, fun hA s hs =>
    wp_choose (wp_skip ?_) (hq.runs hA s hs)⟩
  change Covers w₂.state s
  rwa [hstate hA]

lemma exprSpec_call {site : String} {args : List Expr} (hM : CallsOk ctx sig S M)
    (hR : Respects ctx sig S) (hargs : ExprOk A M w (walkExprs ctx S w args) l₁ (evalCallsAll args))
    (hl : callLevel ctx sig (ctx.target site) l₁ = some l') :
    ExprOk A M w (walkExpr ctx S w (.call site args)) l' (evalCalls (.call site args)) := by
  refine hargs.seq ⟨maskTransfer_hasLevel hR hargs.level hl, subset_append_left .., rfl,
    fun _ s hs => wp_act ?_ fun t ht => ?_⟩
  · exact ⟨_, mem_append_right _ (mem_singleton.mpr rfl), hs⟩
  · exact hM site _ s t l₁ l' hargs.level hl hs ht

lemma ExprSpec.callFree (he : ExprSpec ctx I sig S M e) (hfree : callFree e = true)
    (hw : HasLevel w.state l) : ExprOk (LeavesAlone ctx I S) M w w l (evalCalls e) := by
  obtain ⟨hwalk, hlevel⟩ := walkExpr_callFree ctx I sig S e w l hfree
  have h := he w l l hw hlevel
  rwa [hwalk] at h

lemma exprOk_assign_callFree (hb : ExprSpec ctx I sig S M b) (hfree : callFree a = true)
    (heval : evalCalls (.assign a b) = evalCalls b) (hw : HasLevel w.state l)
    (h : (exprLevel ctx I sig l a).bind (exprLevel ctx I sig · b) = some l') :
    ExprOk (LeavesAlone ctx I S) M w (walkExpr ctx S w (.assign a b)) l' (evalCalls (.assign a b)) := by
  obtain ⟨hwalk, hlevel⟩ := walkExpr_callFree ctx I sig S a w l hfree
  rw [hlevel] at h
  rw [walkExpr, hwalk, heval]
  exact hb w l l' hw h

section
variable (ha : ExprSpec ctx I sig S M a) (hb : ExprSpec ctx I sig S M b)
include ha hb

lemma exprSpec_seq (hw : HasLevel w.state l) (h : (exprLevel ctx I sig l a).bind (exprLevel ctx I sig · b) = some l') :
    ExprOk (LeavesAlone ctx I S) M w (walkExpr ctx S (walkExpr ctx S w a) b) l' (.seq (evalCalls a) (evalCalls b)) := by
  obtain ⟨l₁, h₁, h₂⟩ := bind_eq_some_iff.mp h
  have hfirst := ha w l l₁ hw h₁
  exact hfirst.seq (hb _ l₁ l' hfirst.level h₂)

lemma exprSpec_swap (hw : HasLevel w.state l) (h : (exprLevel ctx I sig l a).bind (exprLevel ctx I sig · b) = some l')
    (hfree : callFree a = true ∨ callFree b = true) :
    ExprOk (LeavesAlone ctx I S) M w (walkExpr ctx S (walkExpr ctx S w a) b) l' (.seq (evalCalls b) (evalCalls a)) := by
  obtain ⟨l₁, h₁, h₂⟩ := bind_eq_some_iff.mp h
  rcases hfree with hfree | hfree
  · obtain ⟨hwalk, hlevel⟩ := walkExpr_callFree ctx I sig S a w l hfree
    obtain rfl : l = l₁ := some.inj (hlevel.symm.trans h₁)
    rw [hwalk]
    have hfirst := hb w l l' hw h₂
    exact hfirst.seq (ha.callFree hfree hfirst.level)
  · obtain ⟨hwalk, hlevel⟩ := walkExpr_callFree ctx I sig S b (walkExpr ctx S w a) l₁ hfree
    obtain rfl : l₁ = l' := some.inj (hlevel.symm.trans h₂)
    rw [hwalk]
    exact (hb.callFree hfree hw).seq (ha w l l₁ hw h₁)

lemma exprSpec_logic (hw : HasLevel w.state l)
    (h : (if quiet ctx I b then (exprLevel ctx I sig l a).bind (exprLevel ctx I sig · b) else none) = some l') :
    ExprOk (LeavesAlone ctx I S) M w (walkExpr ctx S (walkExpr ctx S w a) b) l'
      (.seq (evalCalls a) (.choose .skip (evalCalls b))) := by
  split_ifs at h with hquiet
  obtain ⟨l₁, h₁, h₂⟩ := bind_eq_some_iff.mp h
  have hfirst := ha w l l₁ hw h₁
  exact hfirst.seq_optional (hb _ l₁ l' hfirst.level h₂) fun hI => walkExpr_quiet hI b _ hquiet

lemma exprSpec_binOp (op : BinOp) : ExprSpec ctx I sig S M (.binOp op a b) := by
  intro w l l' hw h
  cases op with
  | and | or => exact exprSpec_logic ha hb hw h
  | _ => exact exprSpec_seq ha hb hw h

lemma exprSpec_index : ExprSpec ctx I sig S M (.index a b) := by
  intro w l l' hw h
  rw [exprLevel] at h
  split_ifs at h with hfree
  exact exprSpec_swap ha hb hw h (or_eq_true_iff.mp hfree)

lemma exprSpec_rotate {c : Expr} (hc : ExprSpec ctx I sig S M c) (hw : HasLevel w.state l)
    (h : ((exprLevel ctx I sig l a).bind (exprLevel ctx I sig · b)).bind (exprLevel ctx I sig · c) = some l')
    (hfree : callFree a = true ∨ callFree b = true ∧ callFree c = true) :
    ExprOk (LeavesAlone ctx I S) M w (walkExpr ctx S (walkExpr ctx S (walkExpr ctx S w a) b) c) l'
      (.seq (evalCalls b) (.seq (evalCalls c) (evalCalls a))) := by
  obtain ⟨l₂, h₁₂, h₃⟩ := bind_eq_some_iff.mp h
  obtain ⟨l₁, h₁, h₂⟩ := bind_eq_some_iff.mp h₁₂
  rcases hfree with hfree | ⟨hfb, hfc⟩
  · obtain ⟨hwalk, hlevel⟩ := walkExpr_callFree ctx I sig S a w l hfree
    obtain rfl : l = l₁ := some.inj (hlevel.symm.trans h₁)
    rw [hwalk]
    have hfirst := hb w l l₂ hw h₂
    have hsecond := hc _ l₂ l' hfirst.level h₃
    exact hfirst.seq (hsecond.seq (ha.callFree hfree hsecond.level))
  · obtain ⟨hwb, hlb⟩ := walkExpr_callFree ctx I sig S b (walkExpr ctx S w a) l₁ hfb
    obtain ⟨hwc, hlc⟩ := walkExpr_callFree ctx I sig S c (walkExpr ctx S w a) l₁ hfc
    obtain rfl : l₁ = l₂ := some.inj (hlb.symm.trans h₂)
    obtain rfl : l₁ = l' := some.inj (hlc.symm.trans h₃)
    rw [hwb, hwc]
    exact (hb.callFree hfb hw).seq ((hc.callFree hfc hw).seq (ha w l l₁ hw h₁))

lemma exprSpec_sliceOf {c : Expr} (hc : ExprSpec ctx I sig S M c) : ExprSpec ctx I sig S M (.sliceOf a b c) := by
  intro w l l' hw h
  rw [exprLevel] at h
  split_ifs at h with hfree
  simp only [or_eq_true, and_eq_true] at hfree
  exact exprSpec_rotate ha hb hc hw h hfree

lemma exprSpec_assign (hindex : ∀ base i, a ≠ .index base i) : ExprSpec ctx I sig S M (.assign a b) := by
  intro w l l' hw h
  rw [exprLevel] at h
  split_ifs at h with horder
  cases a with
  | deref a | fieldGet a f => exact exprSpec_seq ha hb hw h
  | index base i => exact absurd rfl (hindex base i)
  | _ => exact exprOk_assign_callFree hb horder rfl hw h

end

lemma exprSpec_assign_index {base i : Expr} (hbase : ExprSpec ctx I sig S M base)
    (hi : ExprSpec ctx I sig S M i) (hb : ExprSpec ctx I sig S M b) :
    ExprSpec ctx I sig S M (.assign (.index base i) b) := by
  intro w l l' hw h
  rw [exprLevel] at h
  split_ifs at h with horder
  simp only [inOrder, or_eq_true, and_eq_true] at horder
  rw [exprLevel] at h
  split_ifs at h
  · exact exprSpec_rotate hbase hi hb hw h horder
  · cases h

mutual

theorem exprSpec (hM : CallsOk ctx sig S M) (hR : Respects ctx sig S) :
    ∀ e : Expr, ExprSpec ctx I sig S M e := by
  intro e
  cases e with
  | call site args =>
    intro w l l' hw h
    obtain ⟨l₁, h₁, h₂⟩ := bind_eq_some_iff.mp h
    exact exprSpec_call hM hR (exprsSpec hM hR args w l l₁ hw h₁) h₂
  | variantCtor _ _ e | bnot e | deref e | addrOf e | cast _ e | fieldGet e _ | unsafeExpr e =>
    exact exprSpec hM hR e
  | binOp op a b => exact exprSpec_binOp (exprSpec hM hR a) (exprSpec hM hR b) op
  | structLit es | tupleLit es => exact exprsSpec hM hR es
  | index a b => exact exprSpec_index (exprSpec hM hR a) (exprSpec hM hR b)
  | sliceOf a b c =>
    exact exprSpec_sliceOf (exprSpec hM hR a) (exprSpec hM hR b) (exprSpec hM hR c)
  | assign lhs rhs =>
    have hrhs := exprSpec hM hR rhs
    cases lhs with
    | index base i =>
      exact exprSpec_assign_index (exprSpec hM hR base) (exprSpec hM hR i) hrhs
    | _ => exact exprSpec_assign (exprSpec hM hR _) hrhs nofun
  | _ =>
    intro w l l' hw h
    cases h
    exact exprOk_skip hw
termination_by structural e => e

theorem exprsSpec (hM : CallsOk ctx sig S M) (hR : Respects ctx sig S) :
    ∀ (es : List Expr) (w : Walk) (l l' : Level), HasLevel w.state l →
      exprsLevel ctx I sig l es = some l' → ExprOk (LeavesAlone ctx I S) M w (walkExprs ctx S w es) l' (evalCallsAll es)
  | [], w, l, l', hw, h => by
    cases h
    exact exprOk_skip hw
  | e :: es, w, l, l', hw, h => by
    obtain ⟨l₁, h₁, h₂⟩ := bind_eq_some_iff.mp h
    have hfirst := exprSpec hM hR e w l l₁ hw h₁
    exact hfirst.seq (exprsSpec hM hR es _ l₁ l' hfirst.level h₂)
termination_by structural es => es

end
end Expressions
end Takibi.Irq
