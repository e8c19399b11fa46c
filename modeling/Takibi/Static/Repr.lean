import Takibi.Effect.Mutable
import Takibi.Static.Term

/-! The representative of a static term, with the path compression that
shortens the links on the way. -/

namespace Takibi.Static
open Effect Mut Store Option

inductive UnifyError
  | mismatch (a b : StaticTerm)
  | globalArithmetic (name : String)
  | enumArithmetic (name case : String)
  deriving DecidableEq, Repr

abbrev M := Mut UnifyError Store

def staticRepr : Nat → StaticTerm → M StaticTerm
  | 0, _ => stuck
  | fuel + 1, .var r => do
    match (← get).find? r with
    | some t =>
      let t' ← staticRepr fuel t
      modify (link r t')
      return t'
    | none => return .var r
  | _ + 1, t => return t

/-! ## Compression -/

structure Compressed (st st' : Store) : Prop where
  unbound : ∀ r, st'.find? r = none ↔ st.find? r = none
  points : ∀ {u r}, Points st' u r → Relation.TransGen (Points st) u r
  models : ∀ {R : Type} [CommRing R] (v : Val R), v.Models st' ↔ v.Models st

lemma Compressed.refl (st : Store) : Compressed st st :=
  ⟨fun _ => Iff.rfl, fun h => .single h, fun _ => Iff.rfl⟩

lemma Compressed.trans {st₁ st₂ st₃ : Store} (h : Compressed st₁ st₂) (h' : Compressed st₂ st₃) :
    Compressed st₁ st₃ where
  unbound r := (h'.unbound r).trans (h.unbound r)
  points hp := by
    have hp' := h'.points hp
    clear hp
    induction hp' with
    | single hp => exact h.points hp
    | tail _ hp ih => exact ih.trans (h.points hp)
  models v := (h'.models v).trans (h.models v)

instance : Std.Refl Compressed := ⟨Compressed.refl⟩

instance : IsTrans Store Compressed := ⟨fun _ _ _ => Compressed.trans⟩

variable {st st' : Store}

lemma Compressed.acyclic (h : Compressed st st') (hst : Acyclic st) : Acyclic st' :=
  ⟨Subrelation.wf h.points hst.wf.transGen⟩

structure Represents (st : Store) (t t' : StaticTerm) (st' : Store) : Prop where
  compressed : Compressed st st'
  resolved : ∀ r, t' = .var r → st'.find? r = none
  below : ∀ u, Occurs u t' → Occurs u t ∨ ∃ w, Occurs w t ∧ Relation.TransGen (Points st) u w
  written : ∀ r, st'.find? r = st.find? r ∨ st'.find? r = some t'
  start : t' = t ∨ ∃ r, t = .var r ∧ st'.find? r = some t'

variable {t t' : StaticTerm}

lemma Represents.eval (h : Represents st t t' st') {R : Type} [CommRing R] {v : Val R}
    (hv : v.Models st) : v.eval t' = v.eval t := by
  rcases h.start with rfl | ⟨r, rfl, hr⟩
  · rfl
  · exact (((h.compressed.models v).mpr hv) r t' hr).symm

lemma Represents.self (h : ∀ r, t = .var r → st.find? r = none) : Represents st t t st :=
  ⟨.refl st, h, fun _ hu => Or.inl hu, fun _ => Or.inl rfl, Or.inl rfl⟩

lemma Represents.step {st₁ : Store} {r : Nat} (hr : st.find? r = some t)
    (h : Represents st t t' st₁) : Represents st (.var r) t' (st₁.link r t') := by
  have hr₁ : st₁.find? r ≠ none := fun hn => by
    rw [(h.compressed.unbound r).mp hn] at hr
    cases hr
  have hbelow : ∀ u, Occurs u t' → Relation.TransGen (Points st) u r := by
    intro u hu
    rcases h.below u hu with hu | ⟨w, hw, huw⟩
    · exact .single ⟨t, hr, hu⟩
    · exact huw.tail ⟨t, hr, hw⟩
  refine ⟨⟨fun r' => ?_, fun {u r'} hp => ?_, fun v => ⟨fun hv => ?_, fun hv => ?_⟩⟩,
    fun r' hr' => ?_, fun u hu => Or.inr ⟨r, rfl, hbelow u hu⟩, fun r' => ?_,
    Or.inr ⟨r, rfl, find?_link_self ..⟩⟩
  · by_cases hne : r' = r
    · subst hne
      simp [hr]
    · rw [find?_link_ne hne]
      exact h.compressed.unbound r'
  · by_cases hne : r' = r
    · subst hne
      obtain ⟨s, hs, hus⟩ := hp
      rw [find?_link_self, some.injEq] at hs
      exact hbelow u (hs ▸ hus)
    · obtain ⟨s, hs, hus⟩ := hp
      rw [find?_link_ne hne] at hs
      exact h.compressed.points ⟨s, hs, hus⟩
  · -- the shortened link and the links below it give the link that was there
    refine (h.compressed.models v).mp fun r' s hs => ?_
    by_cases hne : r' = r
    · subst hne
      rw [hv.link_eq]
      rcases h.written r' with hw | hw
      · rw [hw, hr, some.injEq] at hs
        subst hs
        rcases h.start with rfl | ⟨w, rfl, hw'⟩
        · rfl
        · by_cases hwr : w = r'
          · rw [hwr]
            exact hv.link_eq.symm
          · exact (hv w t' (by rw [find?_link_ne hwr, hw'])).symm
      · rw [hw, some.injEq] at hs
        rw [hs]
    · exact hv r' s (by rw [find?_link_ne hne, hs])
  · intro r' s hs
    by_cases hne : r' = r
    · subst hne
      rw [find?_link_self, some.injEq] at hs
      rw [← hs, h.eval hv]
      exact hv r' t hr
    · rw [find?_link_ne hne] at hs
      exact (h.compressed.models v).mpr hv r' s hs
  · have hnone := h.resolved r' hr'
    rw [find?_link_ne (by rintro rfl; exact hr₁ hnone), hnone]
  · by_cases hne : r' = r
    · exact Or.inr (hne ▸ find?_link_self ..)
    · rw [find?_link_ne hne]
      exact h.written r'

lemma staticRepr_spec {fuel : Nat} {res : Except UnifyError StaticTerm}
    (h : staticRepr fuel t st = some (res, st')) :
    ∃ t', res = .ok t' ∧ Represents st t t' st' := by
  induction fuel generalizing t st st' res with
  | zero => exact (stuck_eq.mp h).elim
  | succ fuel ih =>
    cases t with
    | var r =>
      unfold staticRepr at h
      cases hr : st.find? r with
      | none =>
        have h' : (pure (.var r) : M StaticTerm) st = some (res, st') := by
          simpa [bind, Mut.bind, Mut.get, hr] using h
        cases pure_eq.mp h'
        refine ⟨.var r, rfl, .self ?_⟩
        rintro r' ⟨⟩
        exact hr
      | some t =>
        have h' : (do let t' ← staticRepr fuel t; modify (link r t'); return t' :
            M StaticTerm) st = some (res, st') := by
          simpa [bind, Mut.bind, Mut.get, hr] using h
        cases res with
        | ok t' =>
          obtain ⟨t'', st₁, h₁, h₂⟩ := bind_ok.mp h'
          obtain ⟨_, st₂, h₃, h₄⟩ := bind_ok.mp h₂
          obtain ⟨_, rfl⟩ := Prod.mk.inj (modify_eq.mp h₃)
          obtain ⟨heq, rfl⟩ := Prod.mk.inj (pure_eq.mp h₄)
          obtain ⟨_, hres, hrep⟩ := ih h₁
          cases heq
          cases hres
          exact ⟨t', rfl, hrep.step hr⟩
        | error e =>
          rcases bind_error.mp h' with h₁ | ⟨t', st₁, h₁, h₂⟩
          · obtain ⟨_, hres, _⟩ := ih h₁
            cases hres
          · rcases bind_error.mp h₂ with h₃ | ⟨_, _, h₃, h₄⟩
            · cases (Prod.mk.inj (modify_eq.mp h₃)).1
            · cases (Prod.mk.inj (pure_eq.mp h₄)).1
    | _ =>
      cases pure_eq.mp h
      exact ⟨_, rfl, .self (by rintro r' ⟨⟩)⟩

lemma keeps_staticRepr (fuel : Nat) (t : StaticTerm) : Mut.Keeps Compressed (staticRepr fuel t) := by
  intro st res st' h
  obtain ⟨_, _, hrep⟩ := staticRepr_spec h
  exact hrep.compressed

lemma staticRepr_ok {fuel : Nat} (h : staticRepr fuel t st = some (.ok t', st')) :
    Represents st t t' st' := by
  obtain ⟨_, hres, hrep⟩ := staticRepr_spec h
  cases hres
  exact hrep

lemma staticRepr_le_succ (fuel : Nat) (t : StaticTerm) :
    Mut.Le (staticRepr fuel t) (staticRepr (fuel + 1) t) := by
  induction fuel generalizing t with
  | zero => exact stuck_le _
  | succ fuel ih =>
    cases t with
    | var r =>
      unfold staticRepr
      refine Mut.Le.bind (Mut.Le.refl _) fun s => ?_
      cases s.find? r with
      | none => exact Mut.Le.refl _
      | some t => exact (ih t).bind fun _ => Mut.Le.refl _
    | _ => exact Mut.Le.refl _

lemma staticRepr_mono {n m : Nat} (h : n ≤ m) (t : StaticTerm) :
    Mut.Le (staticRepr n t) (staticRepr m t) := by
  induction h with
  | refl => exact Mut.Le.refl _
  | step _ ih => exact ih.trans (staticRepr_le_succ _ t)

lemma staticRepr_terminates (hst : Acyclic st) (t : StaticTerm) :
    ∃ fuel t' st', staticRepr fuel t st = some (.ok t', st') := by
  have hvar : ∀ r, ∃ fuel t' st', staticRepr fuel (.var r) st = some (.ok t', st') := by
    intro r
    induction r using hst.wf.induction with
    | _ r ih =>
      cases hr : st.find? r with
      | none =>
        refine ⟨1, .var r, st, ?_⟩
        simp [staticRepr, bind, Mut.bind, Mut.get, hr]
      | some t =>
        obtain ⟨fuel, t', st', h⟩ : ∃ fuel t' st', staticRepr fuel t st = some (.ok t', st') := by
          cases t with
          | var u => exact ih u ⟨.var u, hr, rfl⟩
          | _ => exact ⟨1, _, _, rfl⟩
        refine ⟨fuel + 1, t', st'.link r t', ?_⟩
        simp [staticRepr, bind, Mut.bind, Mut.get, Mut.modify, hr, h]
  cases t with
  | var r => exact hvar r
  | _ => exact ⟨1, _, _, rfl⟩

end Takibi.Static
