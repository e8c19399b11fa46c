import Takibi.Irq.MaskBody

/-! Summaries that have settled are those that the bodies give. With them, a walk visits every
call in a state that covers the executions that reach it. -/

namespace Takibi.Irq
open Syntax Control Calls Function List Bool Option
variable {ctx : Context} {I : String → Bool} {sig : Signature} {S S' : Summaries} {body : List Stmt}

/-! ## Bodies by key -/

lemma Context.body_of_mem (ctx : Context) {p : String × List Stmt} (h : p ∈ ctx.bodies) :
    ctx.body p.1 = some p.2 := by
  obtain ⟨before, after, hsplit⟩ := append_of_mem h
  refine lookup_eq_some_iff.mpr ⟨before, after, hsplit, fun q hq => ?_⟩
  have hnodup := ctx.nodup_keys
  rw [hsplit, map_append, map_cons, nodup_append] at hnodup
  have hne := hnodup.2.2 q.1 (mem_map_of_mem hq) p.1 (mem_cons_self ..)
  exact bne_iff_ne.mpr hne.symm

lemma Context.mem_of_body {key : String} (h : ctx.body key = some body) : (key, body) ∈ ctx.bodies := by
  obtain ⟨before, after, hsplit, -⟩ := lookup_eq_some_iff.mp h
  rw [hsplit]
  exact mem_append_right _ (mem_cons_self ..)

/-! ## What a walk reads -/

variable (ctx S S') in
def Agree (es : List Expr) : Prop :=
  ∀ site args, .call site args ∈ es → S (ctx.target site) = S' (ctx.target site)

section Reads
variable {es es' : List Expr}

lemma Agree.mono (h : Agree ctx S S' es') (hsub : es ⊆ es') : Agree ctx S S' es :=
  fun site args hmem => h site args (hsub hmem)

lemma Agree.tail {e : Expr} (h : Agree ctx S S' (e :: es)) : Agree ctx S S' es :=
  h.mono (subset_cons_self ..)

lemma Agree.append (h : Agree ctx S S' (es ++ es')) : Agree ctx S S' es ∧ Agree ctx S S' es' :=
  ⟨h.mono (subset_append_left ..), h.mono (subset_append_right ..)⟩

lemma maskTransfer_congr {target : String} (h : S target = S' target) (a : MaskState) :
    maskTransfer ctx S target a = maskTransfer ctx S' target a := by
  rw [maskTransfer, maskTransfer, h]

mutual

theorem walkExpr_congr : ∀ (e : Expr) (w : Walk), Agree ctx S S' (parts true e) →
    walkExpr ctx S w e = walkExpr ctx S' w e := by
  intro e w h
  cases e with
  | call site args =>
    have hargs := walkExprs_congr args w h.tail
    have hsite := h site args (mem_cons_self ..)
    rw [walkExpr, walkExpr, hargs, maskTransfer_congr hsite]
  | variantCtor _ _ e | bnot e | deref e | addrOf e | cast _ e | fieldGet e _ | unsafeExpr e =>
    exact walkExpr_congr e w h.tail
  | binOp _ a b | assign a b | index a b =>
    obtain ⟨ha, hb⟩ := h.tail.append
    change walkExpr ctx S (walkExpr ctx S w a) b = walkExpr ctx S' (walkExpr ctx S' w a) b
    rw [walkExpr_congr a w ha, walkExpr_congr b _ hb]
  | structLit es | tupleLit es => exact walkExprs_congr es w h.tail
  | sliceOf a b c =>
    obtain ⟨hab, hc⟩ := h.tail.append
    obtain ⟨ha, hb⟩ := hab.append
    rw [walkExpr, walkExpr, walkExpr_congr a w ha, walkExpr_congr b _ hb, walkExpr_congr c _ hc]
  | _ => rfl
termination_by structural e => e

theorem walkExprs_congr : ∀ (es : List Expr) (w : Walk), Agree ctx S S' (partsAll true es) →
    walkExprs ctx S w es = walkExprs ctx S' w es
  | [], _, _ => rfl
  | e :: es, w, h => by
    obtain ⟨he, hes⟩ := h.append
    rw [walkExprs, walkExprs, walkExpr_congr e w he, walkExprs_congr es _ hes]
termination_by structural es => es

end

mutual

theorem walkStmt_congr : ∀ (st : Stmt) (w : Walk), Agree ctx S S' (stmtParts true false st) →
    walkStmt ctx S w st = walkStmt ctx S' w st
  | .return (some e), w, h => congrArg walkReturn (walkExpr_congr e w h)
  | .expr e, w, h | .letTuple _ e, w, h | .yield e, w, h | .let _ _ _ (some e), w, h =>
    walkExpr_congr e w h
  | .block ss, w, h | .unsafeBlock ss, w, h => walkStmts_congr ss w h
  | .if cond yes no, w, h => by
    obtain ⟨hcy, hn⟩ := h.append
    obtain ⟨hc, hy⟩ := hcy.append
    simp only [walkStmt]
    rw [walkExpr_congr cond w hc, walkStmts_congr yes _ hy, walkStmts_congr no _ hn]
  | .while cond body, w, h => by
    obtain ⟨hc, hb⟩ := h.append
    have hbody := funext fun w => walkStmts_congr body w hb
    have hcond := walkExpr_congr cond w hc
    simp only [walkStmt]
    rw [hbody]
    split
    · rfl
    · rw [hcond]
  | .for _ _ lo hi body, w, h => by
    obtain ⟨hlh, hb⟩ := h.append
    obtain ⟨hl, hh⟩ := hlh.append
    have hbody := funext fun w => walkStmts_congr body w hb
    rw [walkStmt, walkStmt, hbody, walkExpr_congr lo w hl, walkExpr_congr hi _ hh]
  | .forEach _ e body, w, h => by
    obtain ⟨he, hb⟩ := h.append
    have hbody := funext fun w => walkStmts_congr body w hb
    rw [walkStmt, walkStmt, hbody, walkExpr_congr e w he]
  | .match disc arms, w, h | .letMatch _ _ _ disc arms, w, h => by
    obtain ⟨hd, ha⟩ := h.append
    simp only [walkStmt]
    rw [walkExpr_congr disc w hd, walkArms_congr arms _ _ ha]
  | .return none, _, _ | .let _ _ _ none, _, _ | .break, _, _ | .continue, _, _
  | .staticAssert _, _, _ => rfl
termination_by structural st => st

theorem walkStmts_congr : ∀ (ss : List Stmt) (w : Walk), Agree ctx S S' (bodyParts true false ss) →
    walkStmts ctx S w ss = walkStmts ctx S' w ss
  | [], _, _ => rfl
  | st :: ss, w, h => by
    obtain ⟨hst, hss⟩ := h.append
    rw [walkStmts, walkStmts, walkStmt_congr st w hst, walkStmts_congr ss _ hss]
termination_by structural ss => ss

theorem walkArms_congr : ∀ (arms : List Arm) (state : MaskState) (w : Walk),
    Agree ctx S S' (armsParts true false arms) → walkArms ctx S state w arms = walkArms ctx S' state w arms
  | [], _, _, _ => rfl
  | .mk _ body :: arms, state, w, h => by
    obtain ⟨hb, ha⟩ := h.append
    simp only [walkArms]
    rw [walkStmts_congr body _ hb, walkArms_congr arms state _ ha]
termination_by structural arms => arms

end

lemma bodySummary_congr (h : ∀ target ∈ walkTargets ctx body, S target = S' target) :
    bodySummary ctx S body = bodySummary ctx S' body := by
  have hagree : Agree ctx S S' (bodyParts true false body) := fun site args hmem =>
    h _ (mem_filterMap.mpr ⟨_, hmem, rfl⟩)
  refine map_congr_left fun entry _ => ?_
  rw [maskResult, maskResult, maskWalk, maskWalk, walkStmts_congr body _ hagree]

end Reads

/-! ## Executions of bodies -/

section Bodies
variable {M : Sem String Daif} {body : List Stmt} {a : MaskState} {ret l : Level}

lemma maskWalk_ok (hM : CallsOk ctx sig S M) (hR : Respects ctx sig S) {d : Level}
    (ha : HasLevel a d) (h : stmtsLevel ctx I sig ret d body = some l) :
    StmtOk (LeavesAlone ctx I S) M ret ⟨a, .dead, []⟩ (maskWalk ctx S body a) l (execBody body) :=
  bodySpec hM hR body ret ⟨a, .dead, []⟩ d l ha trivial h

lemma callsOk_none : CallsOk ctx sig S ⟨fun _ _ _ => False, fun _ t => t⟩ :=
  fun _ _ _ _ _ _ _ _ _ h => h.elim

lemma maskResult_hasLevel (hlevels : Levelled ctx I sig) (hR : Respects ctx sig S) {f : String}
    {d : Nat} (hbody : ctx.body f = some body) (hsig : sig f d = some ret)
    (ha : HasLevel a (.nested d)) : HasLevel (maskResult ctx S body a) ret := by
  obtain ⟨l, hl, hfits⟩ := hlevels _ (Context.mem_of_body hbody) d ret hsig
  have hok := maskWalk_ok callsOk_none hR ha hl
  exact (hok.level.fits hfits).join hok.returned

lemma maskResult_covers (hlevels : Levelled ctx I sig) (hI : LeavesAlone ctx I S) (hM : CallsOk ctx sig S M)
    (hR : Respects ctx sig S) : EntersOk ctx sig S fun body s t =>
      Run M (execBody body) s .normal t ∨ Run M (execBody body) s .ret t := by
  intro f body d ret a s t hbody hsig ha hs hrun
  obtain ⟨l, hl, hfits⟩ := hlevels _ (Context.mem_of_body hbody) d ret hsig
  have hok := maskWalk_ok hM hR ha hl
  have hlevel := hok.level.fits hfits
  rcases hrun with hrun | hrun
  · exact ((hok.runs hI s hs).ends .normal t hrun).join_left hlevel hok.returned
  · exact ((hok.runs hI s hs).ends .ret t hrun).join_right hlevel hok.returned

lemma callsOk_sem (hlevels : Levelled ctx I sig) (hI : LeavesAlone ctx I S) (hS : Settled ctx S) (hR : Respects ctx sig S)
    (k : Nat) : CallsOk ctx sig S (sem ctx k) := by
  induction k with
  | zero =>
    have hnone : EntersOk ctx sig S fun _ _ _ => False := fun _ _ _ _ _ _ _ _ _ _ _ h => h.elim
    exact fun site a s t l l' ha hl hs hstep => maskTransfer_covers hS hR hnone ha hl hs hstep
  | succ k ih =>
    have henters := maskResult_covers hlevels hI ih hR
    exact fun site a s t l l' ha hl hs hstep => maskTransfer_covers hS hR henters ha hl hs hstep

end Bodies

/-! ## Settling -/

variable (ctx sig) in
structure Kept (st : Settling) : Prop where
  respects : Respects ctx sig st.summaries
  walked : ∀ key time, st.walkedAt key = some time → time ≤ st.clock ∧
    ∃ body S', ctx.body key = some body ∧ st.walkDeps key = walkTargets ctx body ∧
      st.summaries key = some (bodySummary ctx S' body) ∧
      ∀ target ∈ walkTargets ctx body, S' target = st.summaries target ∨
        ∃ c, st.changedAt target = some c ∧ time < c

variable {ps : List (String × List Stmt)}

section Settling
variable {st : Settling} {p : String × List Stmt} {changed : Bool}

lemma Kept.summary (h : Kept ctx sig st) (hp : p ∈ ctx.bodies) (hstale : isStale st p.1 = false) :
    st.summaries p.1 = some (bodySummary ctx st.summaries p.2) := by
  unfold isStale at hstale
  split at hstale
  · cases hstale
  · rename_i time htime
    obtain ⟨-, body, S', hbody, hdeps, hsum, hagree⟩ := h.walked p.1 time htime
    obtain rfl : body = p.2 := some.inj (hbody.symm.trans (ctx.body_of_mem hp))
    rw [hsum]
    refine congrArg some (bodySummary_congr fun target htarget => ?_)
    refine (hagree target htarget).resolve_right ?_
    rintro ⟨c, hc, hlt⟩
    rw [hdeps] at hstale
    have hfresh := any_eq_false.mp hstale target htarget
    simp [hc, hlt] at hfresh

lemma respects_update (hlevels : Levelled ctx I sig) (h : Respects ctx sig S) (hp : p ∈ ctx.bodies) :
    Respects ctx sig (update S p.1 (some (bodySummary ctx S p.2))) where
  followed f outs hf := by
    by_cases hfp : f = p.1
    · exact ⟨p.2, hfp ▸ ctx.body_of_mem hp⟩
    · rw [update_of_ne hfp] at hf
      exact h.followed f outs hf
  level f outs c d σ ret hf hsig := by
    by_cases hfp : f = p.1
    · subst hfp
      rw [update_self] at hf
      cases hf
      rw [bodySummary, lookup_map_mem _ (mem_maskEntries c d σ)]
      exact maskResult_hasLevel hlevels h (ctx.body_of_mem hp) hsig rfl
    · rw [update_of_ne hfp] at hf
      exact h.level f outs c d σ ret hf hsig

lemma Kept.walk {clock : Nat} {changedAt : String → Option Nat} (h : Kept ctx sig st)
    (hp : p ∈ ctx.bodies) (hR : Respects ctx sig S) (hclock : st.clock < clock)
    (hS : S p.1 = some (bodySummary ctx st.summaries p.2))
    (hother : ∀ key ≠ p.1, S key = st.summaries key ∧ changedAt key = st.changedAt key)
    (hself : S p.1 = st.summaries p.1 ∧ changedAt p.1 = st.changedAt p.1 ∨
      ∃ c, changedAt p.1 = some c ∧ st.clock + 1 < c) :
    Kept ctx sig ⟨S, clock, changedAt, update st.walkedAt p.1 (some (st.clock + 1)),
      update st.walkDeps p.1 (walkTargets ctx p.2)⟩ := by
  have hall : ∀ key, S key = st.summaries key ∧ changedAt key = st.changedAt key ∨
      ∃ c, changedAt key = some c ∧ st.clock + 1 < c := fun key => by
    obtain rfl | hkey := eq_or_ne key p.1
    · exact hself
    · exact .inl (hother key hkey)
  refine ⟨hR, fun key time htime => ?_⟩
  dsimp only at htime ⊢
  obtain rfl | hkey := eq_or_ne key p.1
  · rw [update_self] at htime ⊢
    cases htime
    exact ⟨hclock, p.2, st.summaries, ctx.body_of_mem hp, rfl, hS,
      fun target _ => (hall target).imp_left fun hsame => hsame.1.symm⟩
  · rw [update_of_ne hkey] at htime ⊢
    obtain ⟨htime', body, S', hbody, hdeps, hsum, hagree⟩ := h.walked key time htime
    refine ⟨by omega, body, S', hbody, hdeps, (hother key hkey).1.trans hsum, fun target hmem => ?_⟩
    obtain ⟨hsame, hchanged⟩ | ⟨c, hc, hlt⟩ := hall target
    · rw [hsame, hchanged]
      exact hagree target hmem
    · exact .inr ⟨c, hc, by omega⟩

lemma Kept.settleBody (hlevels : Levelled ctx I sig) (h : Kept ctx sig st) (hp : p ∈ ctx.bodies) :
    Kept ctx sig (settleBody ctx (st, changed) p).1 := by
  simp only [Irq.settleBody]
  split_ifs with hstale hsame
  · exact h.walk hp h.respects (Nat.lt_succ_self _) hsame (fun _ _ => ⟨rfl, rfl⟩) (.inl ⟨rfl, rfl⟩)
  · refine h.walk hp (respects_update hlevels h.respects hp) (by omega) (update_self ..)
      (fun key hkey => ⟨update_of_ne hkey .., update_of_ne hkey ..⟩) (.inr ⟨_, update_self .., by omega⟩)
  · exact h

lemma Kept.settleBody_unchanged (h : Kept ctx sig st) (hp : p ∈ ctx.bodies)
    (hend : (Irq.settleBody ctx (st, changed) p).2 = false) :
    changed = false ∧ (Irq.settleBody ctx (st, changed) p).1.summaries = st.summaries ∧
      st.summaries p.1 = some (bodySummary ctx st.summaries p.2) := by
  simp only [Irq.settleBody] at hend ⊢
  split_ifs at hend ⊢ with hstale hsame
  · exact ⟨hend, rfl, hsame⟩
  · exact ⟨hend, rfl, h.summary hp (eq_false_iff.mpr hstale)⟩

section
variable (hlevels : Levelled ctx I sig)
include hlevels

section
variable (h : Kept ctx sig st)
include h

lemma Kept.foldl (hps : ps ⊆ ctx.bodies) : Kept ctx sig (ps.foldl (Irq.settleBody ctx) (st, changed)).1 := by
  induction ps generalizing st changed with
  | nil => exact h
  | cons p ps ih =>
    obtain ⟨hp, hps⟩ := cons_subset.mp hps
    exact ih (h.settleBody hlevels hp) hps

lemma Kept.foldl_unchanged (hps : ps ⊆ ctx.bodies)
    (hend : (ps.foldl (Irq.settleBody ctx) (st, changed)).2 = false) :
    changed = false ∧ ∀ p ∈ ps, st.summaries p.1 = some (bodySummary ctx st.summaries p.2) := by
  induction ps generalizing st changed with
  | nil => exact ⟨hend, nofun⟩
  | cons p ps ih =>
    obtain ⟨hp, hps⟩ := cons_subset.mp hps
    obtain ⟨hfirst, hrest⟩ := ih (h.settleBody hlevels hp) hps hend
    obtain ⟨hchanged, hsame, hsum⟩ := h.settleBody_unchanged hp hfirst
    rw [hsame] at hrest
    exact ⟨hchanged, forall_mem_cons.mpr ⟨hsum, hrest⟩⟩

lemma Kept.settleRound {st' : Settling} (hround : settleRound ctx st = some st') : Kept ctx sig st' := by
  simp only [Irq.settleRound] at hround
  split_ifs at hround
  cases hround
  exact h.foldl hlevels (List.Subset.refl _)

lemma Kept.settled (hround : Irq.settleRound ctx st = none) : Settled ctx st.summaries := by
  simp only [Irq.settleRound] at hround
  split_ifs at hround with hchanged
  obtain ⟨-, hall⟩ := h.foldl_unchanged hlevels (List.Subset.refl _) (eq_false_iff.mpr hchanged)
  exact fun f body hbody => hall (f, body) (Context.mem_of_body hbody)

end

lemma maskSummaries_settled (h : maskSummaries ctx = some st) :
    Respects ctx sig st.summaries ∧ Settled ctx st.summaries := by
  have hstart : Kept ctx sig ⟨fun _ => none, 0, fun _ => none, fun _ => none, fun _ => []⟩ :=
    ⟨⟨nofun, nofun⟩, nofun⟩
  have hkept : Kept ctx sig st :=
    settle_invariant (fun _ _ hst hnext => hst.settleRound hlevels hnext) hstart h
  exact ⟨hkept.respects, hkept.settled hlevels (settle_stable h)⟩

end
end Settling

/-! ## Every call that an execution reaches -/

lemma mem_refused {entry a : MaskState} {site : String} {t : Daif}
    (hvisit : (site, a) ∈ (maskWalk ctx S body entry).visits) (ha : Covers a t)
    (hmasked : t.masked = true)
    (hrequires : (ctx.requiresUnmasked (ctx.target site) || ctx.indirectRequires site) = true) :
    site ∈ refused ctx S body entry := by
  refine mem_map.mpr ⟨(site, a), mem_filter.mpr ⟨hvisit, ?_⟩, rfl⟩
  cases a with
  | dead => exact ha.elim
  | live c d σ =>
    rw [ha.1 hmasked]
    simpa using hrequires

/-- A call that an execution reaches is visited in a state that covers the execution; where
interrupts are masked and the call needs them unmasked, it is refused. -/
theorem mask_walk_covers (ctx : Context) (sig : Signature) (st : Settling) (body : List Stmt)
    (entry : MaskState) (ret l : Level) (k : Nat) (s t : Daif) (site : String)
    (hst : maskSummaries ctx = some st) (hlevels : Levelled ctx (inert ctx st.summaries) sig)
    (hbody : stmtsLevel ctx (inert ctx st.summaries) sig ret (.nested s.saved.length) body = some l)
    (hentry : Covers entry s) (hreach : Reach (sem ctx k) (execBody body) s site t) :
    (∃ a, (site, a) ∈ (maskWalk ctx st.summaries body entry).visits ∧ Covers a t) ∧
      (t.masked = true →
        (ctx.requiresUnmasked (ctx.target site) || ctx.indirectRequires site) = true →
          site ∈ refused ctx st.summaries body entry) := by
  obtain ⟨hR, hS⟩ := maskSummaries_settled hlevels hst
  have hlevel : HasLevel entry (.nested s.saved.length) := by
    cases entry with
    | dead => exact hentry.elim
    | live c d σ => exact congrArg Level.nested hentry.2.1.symm
  have hok := maskWalk_ok (callsOk_sem hlevels maskTransfer_inert hS hR k) hR hlevel hbody
  obtain ⟨a, hvisit, ha⟩ := (hok.runs maskTransfer_inert s hentry).safe site t hreach
  exact ⟨⟨a, hvisit, ha⟩, mem_refused hvisit ha⟩

def call (name : String) : Stmt := .expr (.call name [])

/-- `hold` masks, `log` leaves the mask alone, `restore` restores, `halt` does not return, and
`needs` needs interrupts unmasked. -/
def board : Context where
  target := id
  requiresUnmasked f := f = "needs"
  indirectRequires _ := false
  noreturn f := f = "halt"
  primitives _ := false
  restorers f := f = "restore"
  guards _ := false
  bodies := [("hold", [call irqMask]), ("log", [call "put"])]
  nodup_keys := by decide

def boardSummaries : Settling := (maskSummaries board).get (by decide +kernel)

lemma boardSummaries_eq : maskSummaries board = some boardSummaries := (some_get _).symm

/-- `full && log(); while (c) { saved = mrs_daif(); hold(); restore(saved); } hold(); needs();` -/
def sections : List Stmt :=
  [.expr (.binOp .and (.var "full") (.call "log" [])),
    .while (.var "c") [call irqSave, call "hold", call "restore"], call "hold", call "needs"]

def sameLevel : Signature := fun _ d => some (.nested d)

lemma levelled_board (I : String → Bool) : Levelled board I sameLevel := by
  intro p hp d ret hret
  have hbody : p = ("hold", [call irqMask]) ∨ p = ("log", [call "put"]) := by simpa [board] using hp
  cases hret
  rcases hbody with rfl | rfl
  · exact ⟨.nested d, rfl, by simp [Level.fits]⟩
  · exact ⟨.nested d, rfl, by simp [Level.fits]⟩

lemma run_call {k : Nat} {name : String} {s t : Daif} (h : (sem board k).step name s t) :
    Run (sem board k) (execCalls (call name)) s .normal t :=
  .seq .skip (.act h)

lemma run_hold : Run (sem board 1) (execCalls (call "hold")) ⟨false, []⟩ .normal ⟨true, []⟩ :=
  run_call (.inl (.seq (run_call rfl) .skip))

lemma reach_sections : Reach (sem board 1) (execBody sections) ⟨false, []⟩ "needs" ⟨true, []⟩ :=
  .then (.seq .skip (.left .skip)) <| .then (.leave (.seq .skip (.right .brk))) (.then run_hold (.first (.then .skip .act)))

theorem mask_walk_covers_sections :
    "needs" ∈ refused board boardSummaries.summaries sections (.live .unmasked 0 .unmasked) :=
  (mask_walk_covers board sameLevel boardSummaries sections (.live .unmasked 0 .unmasked) .dead
    (.nested 0) 1 ⟨false, []⟩ ⟨true, []⟩ "needs" boardSummaries_eq (levelled_board _) (by decide +kernel)
    ⟨nofun, rfl, nofun⟩ reach_sections).2 rfl (by decide)

def guarded : List Stmt := [.expr (.binOp .or (.var "ok") (.call "halt" [])), call "poll"]

/-- `while (c) { if (x) { hold(); break; } msr_daifclr_irq(); } needs();` -/
def broken : List Stmt :=
  [.while (.var "c") [.if (.var "x") [call "hold", .break] [], call irqUnmask], call "needs"]

lemma reach_guarded : Reach (sem board 0) (execBody guarded) ⟨false, []⟩ "poll" ⟨false, []⟩ :=
  .then (.seq .skip (.left .skip)) (.first (.then .skip .act))

lemma reach_broken : Reach (sem board 1) (execBody broken) ⟨false, []⟩ "needs" ⟨true, []⟩ := by
  have hif : Run (sem board 1) (execBody [.if (.var "x") [call "hold", .break] [], call irqUnmask])
      ⟨false, []⟩ .brk ⟨true, []⟩ :=
    .seqExit (.seq .skip (.left (.seq run_hold (.seqExit .brk nofun)))) nofun
  exact .then (.leave (.seq .skip (.left hif))) (.first (.then .skip .act))

/-- A call after an operand that may not be evaluated is visited as if never reached, and what
holds at a break is lost. -/
theorem mask_walk_misses : maskSummaries board = some boardSummaries ∧
    (Reach (sem board 0) (execBody guarded) ⟨false, []⟩ "poll" ⟨false, []⟩ ∧
      ∀ v ∈ (maskWalk board boardSummaries.summaries guarded (.live .unmasked 0 .unmasked)).visits,
        v.1 = "poll" → v.2 = .dead) ∧
    Reach (sem board 1) (execBody broken) ⟨false, []⟩ "needs" ⟨true, []⟩ ∧
      (board.requiresUnmasked "needs" = true ∧
        refused board boardSummaries.summaries broken (.live .unmasked 0 .unmasked) = []) :=
  ⟨boardSummaries_eq, ⟨reach_guarded, by decide +kernel⟩, reach_broken, by decide, by decide +kernel⟩

end Takibi.Irq
