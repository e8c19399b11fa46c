import Takibi.Flow.Exec
import Takibi.Range.Sound

/-! What a condition proves is true in a state where it came out true. -/

namespace Takibi.Flow
open Numeric Takibi.Types Syntax Range Option List
variable {tgt : Target} {tbl : ConstTable} {e : Expr} {ty : Ty} {z : Int} {b : Bounds}

/-! ## Comparisons -/

structure Between (b : Bounds) (z : Int) : Prop where
  lo : ∀ k, b.1 = some k → k.toInt ≤ z
  hi : ∀ k, b.2 = some k → z < k.toInt

lemma maxN_le {x y : Native} (hx : x.toInt ≤ z) (hy : y.toInt ≤ z) : (maxN x y).toInt ≤ z := by
  unfold maxN
  split_ifs
  · exact hx
  · exact hy

lemma lt_minN {x y : Native} (hx : z < x.toInt) (hy : z < y.toInt) : z < (minN x y).toInt := by
  unfold minN
  split_ifs
  · exact hx
  · exact hy

lemma between_take {p : Bounds} (hb : Between b z) (hp : Between p z) :
    Between (takeLo b.1 p.1, takeHi b.2 p.2) z := by
  obtain ⟨lo, hi⟩ := b
  obtain ⟨plo, phi⟩ := p
  constructor
  · intro k hk
    cases lo with
    | none => exact hp.lo k hk
    | some x =>
      cases plo with
      | none => exact hb.lo k hk
      | some y => exact some.inj hk ▸ maxN_le (hb.lo x rfl) (hp.lo y rfl)
  · intro k hk
    cases hi with
    | none => exact hp.hi k hk
    | some x =>
      cases phi with
      | none => exact hb.hi k hk
      | some y => exact some.inj hk ▸ lt_minN (hb.hi x rfl) (hp.hi y rfl)

lemma between_none (z : Int) : Between (none, none) z := ⟨nofun, nofun⟩

lemma toInt_succ {a b : Native} (h : a.toInt < b.toInt) : (a + 1).toInt = a.toInt + 1 := by
  have h1 := Native.lower a
  have h2 := Native.upper b
  rw [Native.toInt_add_of_fits, toInt_one]
  rw [toInt_one]
  constructor <;> omega

section Constrain
variable {op : BinOp} {c d : Native} {x y : Int}

lemma constrainLeft_sound (hc : c.toInt ≤ y) (hd : y < d.toInt)
    (h : constrainLeft op (c, d) = some b) (hcmp : compareInts op x y ≠ some false) :
    Between b x := by
  have hs := toInt_succ (hc.trans_lt hd)
  have hp := toInt_pred (hc.trans_lt hd)
  cases op <;> simp only [constrainLeft, reduceCtorEq, some.injEq] at h <;> subst h <;>
    simp only [compareInts, ne_eq, some.injEq, decide_eq_false_iff_not, not_not] at hcmp <;>
    constructor <;> intro k hk <;> simp only [reduceCtorEq, some.injEq] at hk <;>
    subst hk <;> omega

lemma constrainRight_sound (hc : c.toInt ≤ x) (hd : x < d.toInt)
    (h : constrainRight op (c, d) = some b) (hcmp : compareInts op x y ≠ some false) :
    Between b y := by
  have hs := toInt_succ (hc.trans_lt hd)
  have hp := toInt_pred (hc.trans_lt hd)
  cases op <;> simp only [constrainRight, reduceCtorEq, some.injEq] at h <;> subst h <;>
    simp only [compareInts, ne_eq, some.injEq, decide_eq_false_iff_not, not_not] at hcmp <;>
    constructor <;> intro k hk <;> simp only [reduceCtorEq, some.injEq] at hk <;>
    subst hk <;> omega

end Constrain

/-! ## Environments -/

/-- The type of `x` in the environment holds of its value. Where `x` may be written, or is
never compared, it is no stronger than the type of the cell. -/
def EntryOk (C : List String) (W : Set String) (s : State tgt) (x : String) (entry : Entry) : Prop :=
  ∃ l c, s.env x = some l ∧ s.cells[l]? = some c ∧ c.owner = x ∧ canon entry.1 = canon c.ty ∧
    HasTy tgt entry.1 c.val ∧ (x ∉ C ∨ x ∈ W → ∀ v, HasTy tgt c.ty v → HasTy tgt entry.1 v)

structure Inv (tbl : ConstTable) (C : List String) (Γ : TyEnv) (W : Set String) (s : State tgt) :
    Prop where
  bound : ∀ x l, s.env x = some l → tbl x = none ∧ ∃ c, s.cells[l]? = some c ∧ c.owner = x
  entry : ∀ x entry, Γ x = some entry → EntryOk C W s x entry

variable {rule : Native × Native → Option Bounds} {c : Expr} {v : Val}

section Env
variable {C : List String} {W W' : Set String} {Γ : TyEnv} {s : State tgt}

lemma Inv.mono (h : Inv tbl C Γ W s) (hW : W' ⊆ W) : Inv tbl C Γ W' s := by
  refine ⟨h.bound, fun x entry hx => ?_⟩
  obtain ⟨l, c, hl, hc, ho, hcanon, hty, hwiden⟩ := h.entry x entry hx
  exact ⟨l, c, hl, hc, ho, hcanon, hty, fun hor => hwiden (hor.imp_right fun hx => hW hx)⟩

variable {t : IntTy}

lemma hasTy_int (ht : canon ty = some t) (h : HasTy tgt ty v) : ∃ z, v = .int z := by
  cases ty <;> simp only [canon, reduceCtorEq] at ht
  all_goals
    obtain ⟨z, hv, -⟩ := h
    exact ⟨z, hv⟩

variable {entry : Entry}

lemma EntryOk.look {x : String} (h : EntryOk C W s x entry) (ht : canon entry.1 = some t) :
    ∃ ty z, s.look x = some (ty, .int z) ∧ canon ty = some t ∧ HasTy tgt entry.1 (.int z) := by
  obtain ⟨l, c, hl, hc, -, hcanon, hty, -⟩ := h
  obtain ⟨z, hv⟩ := hasTy_int ht hty
  refine ⟨c.ty, z, ?_, hcanon ▸ ht, hv ▸ hty⟩
  simp [State.look, hl, hc, hv]

variable {n : String}

section
variable (h : Inv tbl C Γ W s)
include h

lemma Inv.canon_look (hn : Γ n = some entry) (ht : canon entry.1 = some t)
    (hlook : s.look n = some (ty, v)) : canon ty = some t := by
  obtain ⟨ty', z, hlook', hty, -⟩ := (h.entry n entry hn).look ht
  rw [hlook] at hlook'
  rw [(Prod.mk.inj (some.inj hlook')).1, hty]

lemma Inv.look_of_const {x : String} {n : BitVec 64} (hx : tbl x = some n) : s.look x = none := by
  cases hl : s.env x with
  | none => simp [State.look, hl]
  | some l =>
    have hnone := (h.bound x l hl).1
    rw [hx] at hnone
    cases hnone

lemma operandValue_of_fold {k : Native} (hk : foldAtBase tgt tbl false t e = some k) :
    operandValue tbl s t e = some k.toInt ∧ operandTy s e = none := by
  obtain ⟨-, w, hw, hread⟩ := foldAtBase_spec hk
  have hconst : constant tgt tbl t e = some k.toInt := by rw [constant, hw, ← hread]; rfl
  cases e with
  | var x =>
    obtain ⟨n, hn, -⟩ := map_eq_some_iff.mp hw
    have hlook := h.look_of_const hn
    exact ⟨by simp only [operandValue, hlook, hconst], by simp only [operandTy, hlook]; rfl⟩
  | _ => exact ⟨hconst, rfl⟩

lemma operandRange_sound (hn : Γ n = some entry) (ht : canon entry.1 = some t)
    {c d : Native} (hr : operandRange tgt tbl Γ n e = some (c, d)) :
    ∃ y, c.toInt ≤ y ∧ y < d.toInt ∧ operandValue tbl s t e = some y ∧
      (operandTy s e = none ∨ ∀ t', operandValue tbl s t' e = some y) := by
  unfold operandRange at hr
  simp only [hn, ht, bind_some] at hr
  split at hr
  · rename_i k hk
    cases hr
    obtain ⟨hval, hty⟩ := operandValue_of_fold h hk
    have hsucc := (foldAtBase_spec hk).1
    exact ⟨_, le_rfl, by omega, hval, .inl hty⟩
  · cases e with
    | var m =>
      dsimp only at hr
      split at hr
      · rename_i a b base isMut hm
        cases hr
        obtain ⟨ty, z, hlook, -, hty⟩ := (h.entry m _ hm).look rfl
        obtain ⟨y, hy, -, hlo, hhi⟩ := hty
        cases hy
        have hval : ∀ t', operandValue tbl s t' (.var m) = some z := fun t' => by
          simp only [operandValue, hlook]
        exact ⟨z, hlo, hhi, hval t, .inr hval⟩
      · cases hr
    | _ => cases hr

end

def side : Expr → List String
  | .var n => [n]
  | _ => []

def compared : Expr → List String
  | .binOp .and a b | .binOp .or a b => compared a ++ compared b
  | .binOp _ l r => side l ++ side r
  | _ => []

/-- The condition did not come out false. A disjunction proves nothing. -/
def Sat (tbl : ConstTable) (s : State tgt) : Expr → Prop
  | .binOp .and a b => Sat tbl s a ∧ Sat tbl s b
  | .binOp .or _ _ => True
  | e => verdict tbl s e ≠ some false

def BoundsHold (Γ : TyEnv) (s : State tgt) (acc : BoundsMap) : Prop :=
  ∀ n entry t ty z b, Γ n = some entry → canon entry.1 = some t → s.look n = some (ty, .int z) →
    acc n = some b → Between b z

variable {acc : BoundsMap}

lemma BoundsHold.update (h : BoundsHold Γ s acc)

    (hb : ∀ entry t ty z, Γ n = some entry → canon entry.1 = some t → s.look n = some (ty, .int z) → Between b z) :
    BoundsHold Γ s (updateBounds n b acc) := by
  intro m entry t ty z b' hm ht hlook hb'
  rw [updateBounds] at hb'
  by_cases hmn : m = n
  · subst hmn
    rw [Function.update_self] at hb'
    refine some.inj hb' ▸ between_take (hb entry t ty z hm ht hlook) ?_
    cases hacc : acc m with
    | none => exact between_none z
    | some p => exact h m entry t ty z p hm ht hlook hacc
  · rw [Function.update_of_ne hmn] at hb'
    exact h m entry t ty z b' hm ht hlook hb'

lemma BoundsHold.constrain (h : BoundsHold Γ s acc) {side other : Expr}
    (hrule : ∀ n entry t ty z c d b, side = .var n → Γ n = some entry → canon entry.1 = some t →
      s.look n = some (ty, .int z) → operandRange tgt tbl Γ n other = some (c, d) → rule (c, d) = some b → Between b z) :
    BoundsHold Γ s (constrain tgt tbl Γ rule side other acc) := by
  cases side with
  | var n =>
    rw [Flow.constrain]
    split
    · rename_i b hb
      obtain ⟨⟨c, d⟩, hr, hb⟩ := bind_eq_some_iff.mp hb
      exact h.update fun entry t ty z hn ht hlook =>
        hrule n entry t ty z c d b rfl hn ht hlook hr hb
    · exact h
  | _ => exact h

lemma verdict_left {op : BinOp} {y : Int}
    (hlook : s.look n = some (ty, .int z)) (hty : canon ty = some t)
    (hy : operandValue tbl s t e = some y) :
    verdict tbl s (.binOp op (.var n) e) = compareInts op z y := by
  have hn : operandTy s (.var n) = some t := by simp only [operandTy, hlook, bind_some, hty]
  have hz : operandValue tbl s t (.var n) = some z := by simp only [operandValue, hlook]
  simp only [verdict, hn, hz, hy, bind_eq_bind, orElse_eq_orElse, orElse_eq_or, some_or, bind_some]

lemma verdict_right {op : BinOp} {y : Int}
    (hlook : s.look n = some (ty, .int z)) (hty : canon ty = some t)
    (hy : operandValue tbl s t e = some y)
    (he : operandTy s e = none ∨ ∀ t', operandValue tbl s t' e = some y) :
    verdict tbl s (.binOp op e (.var n)) = compareInts op y z := by
  have hn : operandTy s (.var n) = some t := by simp only [operandTy, hlook, bind_some, hty]
  have hz : ∀ t', operandValue tbl s t' (.var n) = some z := fun t' => by
    simp only [operandValue, hlook]
  simp only [verdict, hn, hz, bind_eq_bind, orElse_eq_orElse, orElse_eq_or]
  cases hte : operandTy s e with
  | none => simp only [none_or, bind_some, hy]
  | some t' =>
    have hy' : operandValue tbl s t' e = some y := by
      rcases he with he | he
      · rw [hte] at he
        cases he
      · exact he t'
    simp only [some_or, bind_some, hy']

lemma collectBounds_sound (h : Inv tbl C Γ W s) (hacc : BoundsHold Γ s acc)
    (hc : Sat tbl s c) :
    BoundsHold Γ s (collectBounds tgt tbl Γ c acc) := by
  fun_induction collectBounds tgt tbl Γ c acc with
  | case1 a b acc iha ihb => exact ihb (iha hacc hc.1) hc.2
  | case2 op l r acc hop =>
    -- a disjunction has no rule, any other operation its verdict
    have hv : op ≠ .or → verdict tbl s (.binOp op l r) ≠ some false := by
      intro hor
      cases op <;> first | exact hc | exact absurd rfl hor | exact (hop rfl).elim
    refine (hacc.constrain ?_).constrain ?_
    · rintro n entry t ty z c d b rfl hn ht hlook hr hb
      obtain ⟨y, hlo, hhi, hy, -⟩ := operandRange_sound h hn ht hr
      refine constrainLeft_sound hlo hhi hb ?_
      rw [← verdict_left hlook (h.canon_look hn ht hlook) hy]
      refine hv ?_
      rintro rfl
      cases hb
    · rintro n entry t ty z c d b rfl hn ht hlook hr hb
      obtain ⟨y, hlo, hhi, hy, he⟩ := operandRange_sound h hn ht hr
      refine constrainRight_sound hlo hhi hb ?_
      rw [← verdict_right hlook (h.canon_look hn ht hlook) hy he]
      refine hv ?_
      rintro rfl
      cases hb
  | case3 e acc h1 h2 => exact hacc

lemma constrain_of_notMem {other : Expr} (h : n ∉ side e) :
    constrain tgt tbl Γ rule e other acc n = acc n := by
  cases e with
  | var m =>
    have hne : n ≠ m := fun heq => h (heq ▸ mem_singleton.mpr rfl)
    cases hb : (operandRange tgt tbl Γ m other).bind rule with
    | none => simp only [constrain, hb]
    | some b => simp only [constrain, hb, updateBounds, Function.update_of_ne hne]
  | _ => rfl

lemma collectBounds_of_notMem (h : n ∉ compared c) : collectBounds tgt tbl Γ c acc n = acc n := by
  fun_induction collectBounds tgt tbl Γ c acc with
  | case1 a b acc iha ihb =>
    simp only [compared, mem_append, not_or] at h
    rw [ihb h.2, iha h.1]
  | case2 op l r acc hop =>
    by_cases hor : op = .or
    · subst hor
      have hskip : ∀ e other acc, constrain tgt tbl Γ (fun _ => none) e other acc = acc := by
        intro e other acc
        cases e with
        | var m => simp only [constrain, bind_fun_none]
        | _ => rfl
      have hl : constrainLeft .or = fun _ => none := rfl
      have hr : constrainRight .or = fun _ => none := rfl
      rw [hl, hr, hskip, hskip]
    · have hside : n ∉ side l ∧ n ∉ side r := by
        cases op <;> first
          | simpa only [compared, mem_append, not_or] using h
          | exact absurd rfl hor
          | exact (hop rfl).elim
      rw [constrain_of_notMem hside.2, constrain_of_notMem hside.1]
  | case3 e acc h1 h2 => rfl

/-! ## Narrowing -/

lemma narrowEntry_hasTy (h : HasTy tgt entry.1 v)
    (hb : ∀ t z, canon entry.1 = some t → v = .int z → Between b z) :
    HasTy tgt (narrowEntry entry b).1 v := by
  obtain ⟨lo, hi⟩ := b
  obtain ⟨ty, isMut⟩ := entry
  cases ty with
  | refinedInt elo ehi base =>
    obtain ⟨z, rfl, hz, hlo, hhi⟩ := h
    have hbetween := hb base z rfl rfl
    refine ⟨z, rfl, hz, ?_, ?_⟩
    · cases lo with
      | none => exact hlo
      | some k => exact maxN_le (hbetween.lo k rfl) hlo
    · cases hi with
      | none => exact hhi
      | some k => exact lt_minN (hbetween.hi k rfl) hhi
  | int base =>
    obtain ⟨z, rfl, hz⟩ := h
    have hbetween := hb base z rfl rfl
    -- an unsigned value is never negative
    have hlow : ∀ k, withFloor base lo = some k → k.toInt ≤ z := by
      intro k hk
      cases lo with
      | some k₀ => exact some.inj hk ▸ hbetween.lo k₀ rfl
      | none =>
        have hpos := hz.1
        cases hs : base.signed with
        | true => simp [withFloor, hs] at hk
        | false =>
          have hk0 : (0 : Native) = k := by simpa [withFloor, hs] using hk
          simpa [← hk0, Machine.least, hs] using hpos
    simp only [narrowEntry]
    split_ifs
    · exact ⟨z, rfl, hz⟩
    · split
      · rename_i _ k k' hlo
        exact ⟨z, rfl, hz, hlow k hlo, hbetween.hi k' rfl⟩
      · exact ⟨z, rfl, hz⟩
  | _ => exact h

lemma canon_narrowEntry (entry : Entry) (b : Bounds) : canon (narrowEntry entry b).1 = canon entry.1 := by
  obtain ⟨lo, hi⟩ := b
  obtain ⟨ty, isMut⟩ := entry
  cases ty with
  | int base =>
    simp only [narrowEntry]
    split_ifs
    · rfl
    · split <;> rfl
  | _ => rfl

lemma narrowSlice_eq (tgt : Target) (entry : Entry) (k : Native) :
    canon (narrowSlice entry k).1 = canon entry.1 ∧
      ∀ v, HasTy tgt (narrowSlice entry k).1 v ↔ HasTy tgt entry.1 v := by
  obtain ⟨ty, isMut⟩ := entry
  cases ty with
  | slice el m access =>
    rw [narrowSlice]
    split_ifs <;> exact ⟨rfl, fun _ => Iff.rfl⟩
  | _ => exact ⟨rfl, fun _ => Iff.rfl⟩

/-- The entry that the bounds give, before the slice lengths. -/
def boundsEntry (tgt : Target) (tbl : ConstTable) (Γ : TyEnv) (c : Expr) (x : String) :=
  match collectBounds tgt tbl Γ c (fun _ => none) x with
  | some b => (Γ x).map (narrowEntry · b)
  | none => Γ x

lemma Inv.narrow (h : Inv tbl C Γ W s) (resolveBound : Expr → Option Native)
    {killed : List String} (hs : Sat tbl s c) (hC : ∀ x ∈ compared c, x ∈ C) (hW : W' ⊆ W)
    (hk : ∀ x ∈ W', x ∈ killed) : Inv tbl C (narrowFromCond tgt tbl resolveBound Γ c killed) W' s := by
  have hbounds : BoundsHold Γ s (collectBounds tgt tbl Γ c fun _ => none) :=
    collectBounds_sound h (fun _ _ _ _ _ _ _ _ _ hb => by cases hb) hs
  refine ⟨h.bound, fun x entry hx => ?_⟩
  rw [narrowFromCond] at hx
  split_ifs at hx with hkilled
  · exact (h.mono hW).entry x entry hx
  have hnum : ∀ entry', boundsEntry tgt tbl Γ c x = some entry' → EntryOk C W' s x entry' := by
    intro entry' hx'
    cases hb : collectBounds tgt tbl Γ c (fun _ => none) x with
    | none =>
      rw [boundsEntry, hb] at hx'
      exact (h.mono hW).entry x entry' hx'
    | some b =>
      rw [boundsEntry, hb] at hx'
      obtain ⟨old, hold, rfl⟩ := map_eq_some_iff.mp hx'
      have hxC : x ∈ C := by
        by_contra hcontra
        have hnone : collectBounds tgt tbl Γ c (fun _ => none) x = none :=
          collectBounds_of_notMem fun hmem => hcontra (hC x hmem)
        rw [hb] at hnone
        cases hnone
      obtain ⟨l, cell, hl, hcell, ho, hcanon, hty, -⟩ := h.entry x old hold
      refine ⟨l, cell, hl, hcell, ho, (canon_narrowEntry old b).trans hcanon, ?_, ?_⟩
      · refine narrowEntry_hasTy hty fun t z ht hz => ?_
        refine hbounds x old t cell.ty z b hold ht ?_ hb
        simp only [State.look, hl, hcell, bind_some, map_some, hz]
      · rintro (hx | hx)
        · exact absurd hxC hx
        · exact absurd (hk x hx) hkilled
  cases hm : sliceLenMins resolveBound c (fun _ => none) x with
  | none =>
    rw [hm] at hx
    exact hnum entry hx
  | some k =>
    rw [hm] at hx
    obtain ⟨old, hold, rfl⟩ := map_eq_some_iff.mp hx
    obtain ⟨l, cell, hl, hcell, ho, hcanon, hty, hwiden⟩ := hnum old hold
    obtain ⟨hsc, hsty⟩ := narrowSlice_eq tgt old k
    exact ⟨l, cell, hl, hcell, ho, hsc.trans hcanon, (hsty _).mpr hty,
      fun hor v hv => (hsty v).mpr (hwiden hor v hv)⟩

end Env
end Takibi.Flow
