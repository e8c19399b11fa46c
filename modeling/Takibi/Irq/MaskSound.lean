import Takibi.Irq.MaskExec

/-! The walk of the IRQ mask follows every execution of a disciplined body. -/

namespace Takibi.Irq
open Syntax Control Calls Level List

/-! ## States and levels -/

def HasLevel : MaskState → Level → Prop
  | .dead, _ => True
  | .live _ depth _, l => l = .nested depth.val

section States
variable {a b : MaskState} {l l' : Level} {s : Daif}

lemma join_self (a : MaskState) : a.join a = a := by
  cases a with
  | dead => rfl
  | live c d σ => cases c <;> cases σ <;> simp [MaskState.join, Current.join]

lemma HasLevel.fits (h : HasLevel a l) (hl : l.fits l' = true) : HasLevel a l' := by
  cases a with
  | dead => trivial
  | live c d σ =>
    obtain rfl : l = .nested d.val := h
    rcases Bool.or_eq_true_iff.mp hl with h | h
    · cases of_decide_eq_true h
    · exact (of_decide_eq_true h).symm

lemma HasLevel.join (ha : HasLevel a l) (hb : HasLevel b l) : HasLevel (a.join b) l := by
  cases a with
  | dead => exact hb
  | live c d σ =>
    cases b with
    | dead => exact ha
    | live c' d' σ' =>
      obtain rfl : l = .nested d.val := ha
      obtain rfl : d = d' := Fin.val_injective (nested.inj hb)
      exact congrArg nested (by simp)

lemma Covers.join_left (h : Covers a s) (ha : HasLevel a l) (hb : HasLevel b l) : Covers (a.join b) s := by
  cases a with
  | dead => exact h.elim
  | live c d σ =>
    cases b with
    | dead => exact h
    | live c' d' σ' =>
      obtain rfl : l = .nested d.val := ha
      obtain rfl : d = d' := Fin.val_injective (nested.inj hb)
      refine ⟨fun hm => ?_, by simpa using h.2.1, fun hs => ?_⟩
      · rw [h.1 hm]; rfl
      · rw [h.2.2 hs]; rfl

lemma join_comm (a b : MaskState) : a.join b = b.join a := by
  cases a with
  | dead => cases b <;> rfl
  | live c d σ =>
    cases b with
    | dead => rfl
    | live c' d' σ' =>
      cases c <;> cases c' <;> cases σ <;> cases σ' <;>
        simp [MaskState.join, Current.join, max_comm]

lemma Covers.join_right (h : Covers b s) (ha : HasLevel a l) (hb : HasLevel b l) : Covers (a.join b) s :=
  join_comm b a ▸ h.join_left hb ha

lemma Level.fits_join {m : Level} (h : l.join l' = some m) : l.fits m = true ∧ l'.fits m = true := by
  cases l with
  | dead =>
    cases h
    simp [fits]
  | nested d =>
    cases l' with
    | dead =>
      cases h
      simp [fits]
    | nested d' =>
      simp only [join] at h
      split_ifs at h with hd
      cases h
      simp [fits, hd]

end States

/-! ## Calls -/

variable {s : Daif} {d : Nat}

section Transfer
variable (ctx : Context) (sig : Signature)

structure Respects (S : Summaries) : Prop where
  followed : ∀ f outs, S f = some outs → ∃ body, ctx.body f = some body
  level : ∀ f outs c d σ ret, S f = some outs → sig f d.val = some ret →
    HasLevel ((outs.lookup (.live c d σ)).getD .dead) ret

variable {ctx sig} {S : Summaries} {a : MaskState} {l l' : Level} {target : String}

lemma maskTransfer_dead (target : String) : maskTransfer ctx S target .dead = .dead := if_pos rfl

lemma save_hasLevel (h : HasLevel a (.nested d)) (hd : d < 3) : HasLevel a.save (.nested (d + 1)) := by
  cases a with
  | dead => trivial
  | live c depth σ =>
    obtain rfl : d = depth.val := nested.inj h
    simp only [MaskState.save]
    split_ifs with h0
    · rw [h0]
      rfl
    · have hmin : min 3 (depth.val + 1) = depth.val + 1 := min_eq_right (by omega)
      exact congrArg nested hmin.symm

lemma restore_hasLevel (h : HasLevel a (.nested d)) : HasLevel a.restore (.nested (d - 1)) := by
  cases a with
  | dead => trivial
  | live c depth σ =>
    obtain rfl : d = depth.val := nested.inj h
    fin_cases depth <;> rfl

lemma maskTransfer_hasLevel (hS : Respects ctx sig S) (ha : HasLevel a l)
    (hl : callLevel ctx sig target l = some l') : HasLevel (maskTransfer ctx S target a) l' := by
  cases a with
  | dead => trivial
  | live c d σ =>
    obtain rfl : l = .nested d.val := ha
    simp only [callLevel] at hl
    rw [maskTransfer, if_neg (by nofun)]
    cases hk : ctx.kind target with
    | noreturn => trivial
    | save =>
      rw [hk] at hl
      dsimp only at hl ⊢
      split_ifs at hl with hd
      cases hl
      exact save_hasLevel rfl hd
    | restore =>
      rw [hk] at hl
      cases hl
      exact restore_hasLevel rfl
    | mask | unmask | guard =>
      rw [hk] at hl
      cases hl
      exact rfl
    | ordinary =>
      rw [hk] at hl
      dsimp only at hl ⊢
      cases hs : S target with
      | some outs =>
        obtain ⟨body, hbody⟩ := hS.followed target outs hs
        rw [hbody] at hl
        exact hS.level target outs c d σ l' hs hl
      | none =>
        dsimp only
        split_ifs at hl ⊢
        · trivial
        · cases hl
          exact rfl

lemma Covers.save (h : Covers a s) (hl : HasLevel a (.nested d))
    (hd : d < 3) : Covers a.save ⟨s.masked, s.masked :: s.saved⟩ := by
  cases a with
  | dead => exact h.elim
  | live c depth σ =>
    obtain rfl : d = depth.val := nested.inj hl
    obtain ⟨hmask, hdepth, hlast⟩ := h
    simp only [MaskState.save]
    split_ifs with h0
    · have hnil : s.saved = [] := length_eq_zero_iff.mp (by rw [← hdepth, h0]; rfl)
      refine ⟨hmask, by rw [hnil]; rfl, fun hs => hmask ?_⟩
      rw [hnil] at hs
      exact Option.some.inj hs
    · have hne : s.saved ≠ [] := by
        intro hnil
        rw [hnil] at hdepth
        exact h0 (Fin.ext hdepth)
      refine ⟨hmask, ?_, fun hs => hlast ?_⟩
      · have hmin : min 3 (depth.val + 1) = depth.val + 1 := min_eq_right (by omega)
        exact hmin.trans (congrArg (· + 1) hdepth)
      · rwa [getLast?_cons_of_ne_nil hne] at hs

lemma Covers.restore (h : Covers a s) : Covers a.restore s.restore := by
  cases a with
  | dead => exact h.elim
  | live c depth σ =>
    obtain ⟨masked, saved⟩ := s
    obtain ⟨hmask, hdepth, hlast⟩ := h
    match saved with
    | [] =>
      obtain rfl : depth = 0 := Fin.ext hdepth
      exact ⟨hmask, rfl, hlast⟩
    | [b] =>
      obtain rfl : depth = 1 := Fin.ext hdepth
      refine ⟨fun hb => hlast ?_, rfl, nofun⟩
      exact congrArg some hb
    | b :: b' :: rest =>
      have h0 : depth ≠ 0 := by
        rintro rfl
        cases hdepth
      have h1 : depth ≠ 1 := by
        rintro rfl
        cases hdepth
      have hpred : (depth - 1).val = depth.val - 1 := Fin.val_sub_one_of_ne_zero h0
      simp only [MaskState.restore, if_neg h0, if_neg h1, Daif.restore]
      refine ⟨fun _ => rfl, ?_, fun hs => hlast ?_⟩
      · rw [hpred, hdepth]
        rfl
      · rwa [getLast?_cons_cons]

lemma Covers.withCurrent (m : Bool) {c : Current} (h : Covers a s)
    (hc : m = true → c = .masked) : Covers (a.withCurrent c) ⟨m, s.saved⟩ := by
  cases a with
  | dead => exact h.elim
  | live _ d σ => exact ⟨hc, h.2⟩

lemma lookup_map_mem {α β : Type*} [BEq α] [LawfulBEq α] {x : α} (g : α → β) {l : List α}
    (hx : x ∈ l) : (l.map fun e => (e, g e)).lookup x = some (g x) := by
  induction l with
  | nil => cases hx
  | cons y l ih =>
    rw [map_cons, lookup_cons]
    by_cases hxy : x = y
    · simp [hxy]
    · rw [beq_false_of_ne hxy]
      exact ih ((mem_cons.mp hx).resolve_left hxy)

lemma mem_maskEntries (c : Current) (d : Fin 4) (σ : Current) : .live c d σ ∈ maskEntries := by
  revert c d σ
  decide

variable (ctx S) in
def Settled : Prop := ∀ f body, ctx.body f = some body → S f = some (bodySummary ctx S body)

lemma Settled.maskTransfer_eq (hS : Settled ctx S) {body : List Stmt}
    (hk : ctx.kind target = .ordinary) (hbody : ctx.body target = some body) (hne : a ≠ .dead) :
    maskTransfer ctx S target a = maskResult ctx S body a := by
  rw [maskTransfer, if_neg hne, hk, hS target body hbody, bodySummary]
  cases a with
  | dead => exact absurd rfl hne
  | live c d σ =>
    dsimp only
    rw [lookup_map_mem _ (mem_maskEntries c d σ)]
    rfl

variable (ctx sig S) in
def EntersOk (enter : List Stmt → Daif → Daif → Prop) : Prop :=
  ∀ f body d ret a s t, ctx.body f = some body → sig f d = some ret → HasLevel a (.nested d) →
    Covers a s → enter body s t → Covers (maskResult ctx S body a) t

lemma maskTransfer_covers {enter : List Stmt → Daif → Daif → Prop} {site : String} {t : Daif}
    (hS : Settled ctx S) (hR : Respects ctx sig S) (henter : EntersOk ctx sig S enter)
    (ha : HasLevel a l) (hl : callLevel ctx sig (ctx.target site) l = some l') (hs : Covers a s)
    (hstep : callStep ctx enter site s t) : Covers (maskTransfer ctx S (ctx.target site) a) t := by
  cases a with
  | dead => exact hs.elim
  | live c d σ =>
    obtain rfl : l = .nested d.val := ha
    have hne : MaskState.live c d σ ≠ .dead := nofun
    simp only [callLevel] at hl
    simp only [callStep] at hstep
    cases hk : ctx.kind (ctx.target site) with
    | ordinary =>
      rw [hk] at hl hstep
      dsimp only at hl hstep
      cases hbody : ctx.body (ctx.target site) with
      | some body =>
        rw [hbody] at hl hstep
        rw [hS.maskTransfer_eq hk hbody hne]
        exact henter _ body d.val l' _ s t hbody hl rfl hs hstep
      | none =>
        rw [hbody] at hstep
        cases hstep
        rw [maskTransfer, if_neg hne, hk]
        cases hsum : S (ctx.target site) with
        | some outs =>
          obtain ⟨body, hb⟩ := hR.followed _ outs hsum
          rw [hbody] at hb
          cases hb
        | none => simpa [hbody] using hs
    | noreturn =>
      rw [hk] at hstep
      exact hstep.elim
    | save =>
      rw [hk] at hl hstep
      dsimp only at hl
      split_ifs at hl with hd
      rw [maskTransfer, if_neg hne, hk, hstep]
      exact hs.save rfl hd
    | restore =>
      rw [hk] at hstep
      rw [maskTransfer, if_neg hne, hk, hstep]
      exact hs.restore
    | mask =>
      rw [hk] at hstep
      rw [maskTransfer, if_neg hne, hk, hstep]
      exact hs.withCurrent true fun _ => rfl
    | unmask =>
      rw [hk] at hstep
      rw [maskTransfer, if_neg hne, hk, hstep]
      exact hs.withCurrent false nofun
    | guard =>
      rw [hk] at hstep
      rw [maskTransfer, if_neg hne, hk, hstep]
      exact hs

end Transfer
end Takibi.Irq
