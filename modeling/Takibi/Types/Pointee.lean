import Takibi.Types.Unify

/-! What a value behind a pointer is, and when two element types are the same
there. A place has one representation and one set of values; a writable pointer
to it has to know both. -/

namespace Takibi.Types
open Numeric List

/-! ## Representation and values -/

inductive Layout
  | bool
  | void
  | srcLoc
  | int (bits : Nat) (signed wire : Bool)
  | fn
  | pointer
  | slice
  | array (elem : Layout) (n : Native)
  | struct (name : String)
  | tuple (ls : List Layout)

mutual

def layout (tgt : Target) : Ty → Layout
  | .bool => .bool
  | .void => .void
  | .srcLoc => .srcLoc
  | .int t | .refinedInt _ _ t | .multiple _ t => .int (t.bits tgt) t.signed t.wire
  | .fn _ _ _ => .fn
  | .ptr _ | .alignedPtr _ _ | .ref _ | .refMut _ => .pointer
  | .io t => layout tgt t
  | .array t n => .array (layout tgt t) n
  | .struct s => .struct s
  | .tuple ts => .tuple (layoutAll tgt ts)
  | .slice _ _ _ => .slice

def layoutAll (tgt : Target) : List Ty → List Layout
  | [] => []
  | t :: ts => layout tgt t :: layoutAll tgt ts

end

inductive Val
  | bool (b : Bool)
  | unit
  | loc (n : Nat)
  | int (z : Int)
  | fn (f : Nat)
  | addr (a : Nat)
  | slice (a len : Nat)
  | agg (vs : List Val)

/-- The places of a program, each with its representation and the values it
keeps, its functions and its structures. -/
structure World where
  place : Nat → Option (Layout × Set Val)
  call : Nat → List Val → Set Val
  effects : Nat → Set String
  record : String → Set Val

def World.Exactly (W : World) (l : Layout) (S : Set Val) (a : Nat) : Prop :=
  W.place a = some (l, S)

def World.AtMost (W : World) (l : Layout) (S : Set Val) (a : Nat) : Prop :=
  ∃ S' ⊆ S, W.place a = some (l, S')

mutual

def valid (tgt : Target) (W : World) : Ty → Set Val
  | .bool => {v | ∃ b, v = .bool b}
  | .void => {.unit}
  | .srcLoc => {v | ∃ n, v = .loc n}
  | .int t => {v | ∃ z, v = .int z ∧ t.Holds tgt z}
  | .refinedInt lo hi t => {v | ∃ z, v = .int z ∧ t.Holds tgt z ∧ lo.toInt ≤ z ∧ z < hi.toInt}
  | .multiple n t => {v | ∃ z, v = .int z ∧ t.Holds tgt z ∧ n.toInt ∣ z}
  | .fn ps r eff =>
    {v | ∃ f, v = .fn f ∧ (∀ args ∈ validAll tgt W ps, W.call f args ⊆ valid tgt W r) ∧
      ∀ es ∈ eff, ∀ e ∈ W.effects f, allowed es e}
  | .ptr t => {v | ∃ a, v = .addr a ∧ W.Exactly (layout tgt t) (valid tgt W t) a}
  | .io t => valid tgt W t
  | .array t n =>
    {v | ∃ vs, v = .agg vs ∧ (vs.length : Int) = n.toInt ∧ ∀ u ∈ vs, u ∈ valid tgt W t}
  | .struct s => W.record s
  | .tuple ts => {v | ∃ vs ∈ validAll tgt W ts, v = .agg vs}
  | .slice t m access =>
    {v | ∃ a len, v = .slice a len ∧ m.toInt ≤ len ∧ ∀ i < len,
      match access with
      | .writable => W.Exactly (layout tgt t) (valid tgt W t) (a + i)
      | .readonly => W.AtMost (layout tgt t) (valid tgt W t) (a + i)}
  | .alignedPtr n t =>
    {v | ∃ a : Nat, v = .addr a ∧ n.toInt ∣ a ∧ W.Exactly (layout tgt t) (valid tgt W t) a}
  | .ref t => {v | ∃ a, v = .addr a ∧ W.AtMost (layout tgt t) (valid tgt W t) a}
  | .refMut t => {v | ∃ a, v = .addr a ∧ W.Exactly (layout tgt t) (valid tgt W t) a}

def validAll (tgt : Target) (W : World) : List Ty → Set (List Val)
  | [] => {[]}
  | t :: ts => {vs | ∃ v ∈ valid tgt W t, ∃ us ∈ validAll tgt W ts, vs = v :: us}

end

/-- The same representation and the same values, wherever the program runs. -/
def SamePlace (tgt : Target) (t1 t2 : Ty) : Prop :=
  layout tgt t1 = layout tgt t2 ∧ ∀ W, valid tgt W t1 = valid tgt W t2

/-! ## Unification in both directions -/

lemma ok_bind {ε α : Type} {x : Except ε Unit} {f : Unit → Except ε α} {a : α} :
    (x >>= f) = .ok a ↔ x = .ok () ∧ f () = .ok a := by
  cases x with
  | error e => exact ⟨nofun, fun h => nomatch h.1⟩
  | ok u => exact ⟨fun h => ⟨rfl, h⟩, fun h => h.2⟩

lemma ok_of_error_ite {ε : Type} {p : Prop} [Decidable p] {e : ε} {x : Except ε Unit}
    (h : (if p then .error e else x) = .ok ()) : ¬ p ∧ x = .ok () := by
  split_ifs at h with hp
  exact ⟨hp, h⟩

lemma unify_of_mutablePointee {t1 t2 : Ty} (h : unifyMutablePointee t1 t2 = .ok ()) :
    unify t1 t2 = .ok () := by
  rw [unifyMutablePointee] at h
  exact (ok_bind.mp h).1

lemma dvd_of_unifyMod {a r : Native} {e : UnifyError} (h : unifyMod a r e = .ok ()) : r.toInt ∣ a.toInt := by
  unfold unifyMod at h
  split_ifs at h with h0 hm
  have hz : a.toInt.tmod r.toInt = 0 := by
    rw [← BitVec.toInt_srem, not_not.mp hm]
    rfl
  exact Int.dvd_of_tmod_eq_zero hz

lemma allowed_of_unifyEffects {es1 es2 : List String}
    (h : unifyEffects (some es1) (some es2) = .ok ()) {e : String} (he : allowed es1 e) :
    allowed es2 e := by
  simp only [unifyEffects] at h
  split_ifs at h with hu
  have hmem : ∀ e ∈ es1, allowed es2 e := by
    intro e he
    by_contra hn
    have : e ∈ es1.filter fun eff => !allowed es2 eff :=
      mem_filter.mpr ⟨he, by simpa using hn⟩
    rw [hu] at this
    cases this
  unfold allowed at he
  simp only [Bool.or_eq_true, Bool.and_eq_true, contains_iff_mem, beq_iff_eq] at he
  rcases he with he | ⟨rfl, he⟩
  · exact hmem e he
  · have hb := hmem _ he
    unfold allowed at hb ⊢
    simp only [Bool.or_eq_true, Bool.and_eq_true, contains_iff_mem, beq_iff_eq] at hb ⊢
    rcases hb with hb | ⟨hb, -⟩
    · exact .inr ⟨trivial, hb⟩
    · exact absurd hb (by decide)

lemma same_effects {eff1 eff2 : Option (List String)} (h12 : unifyEffects eff1 eff2 = .ok ())
    (h21 : unifyEffects eff2 eff1 = .ok ()) (S : Set String) :
    (∀ es ∈ eff1, ∀ e ∈ S, allowed es e) ↔ ∀ es ∈ eff2, ∀ e ∈ S, allowed es e := by
  cases eff1 with
  | none =>
    cases eff2 with
    | none => exact Iff.rfl
    | some es => cases h12
  | some es1 =>
    cases eff2 with
    | none => cases h21
    | some es2 =>
      constructor
      · rintro h es ⟨⟩ e he
        exact allowed_of_unifyEffects h12 (h es1 rfl e he)
      · rintro h es ⟨⟩ e he
        exact allowed_of_unifyEffects h21 (h es2 rfl e he)

lemma forall₂_of_unifyAll {ts1 ts2 : List Ty} (hlen : ts1.length = ts2.length)
    (h : unifyAll ts1 ts2 = .ok ()) :
    List.Forall₂ (fun a b => unify a b = .ok ()) ts1 ts2 := by
  induction ts1 generalizing ts2 with
  | nil =>
    cases ts2 with
    | nil => exact .nil
    | cons b ts2 => cases hlen
  | cons a ts1 ih =>
    cases ts2 with
    | nil => cases hlen
    | cons b ts2 =>
      rw [unifyAll] at h
      obtain ⟨hab, hts⟩ := ok_bind.mp h
      exact .cons hab (ih (Nat.succ.inj hlen) hts)

lemma forall₂_of_unifyMutablePointees {ts1 ts2 : List Ty} (hlen : ts1.length = ts2.length)
    (h : unifyMutablePointees ts1 ts2 = .ok ()) :
    List.Forall₂ (fun a b => unify a b = .ok ()) ts1 ts2 := by
  induction ts1 generalizing ts2 with
  | nil =>
    cases ts2 with
    | nil => exact .nil
    | cons b ts2 => cases hlen
  | cons a ts1 ih =>
    cases ts2 with
    | nil => cases hlen
    | cons b ts2 =>
      rw [unifyMutablePointees] at h
      obtain ⟨hab, hts⟩ := ok_bind.mp h
      exact .cons (unify_of_mutablePointee hab) (ih (Nat.succ.inj hlen) hts)

/-- The pairs of heads with a rule of their own. -/
def Ty.alike : Ty → Ty → Bool
  | .bool, .bool | .void, .void | .srcLoc, .srcLoc | .int _, .int _ | .ptr _, .ptr _ | .io _, .io _
  | .array .., .array .. | .fn .., .fn .. | .refinedInt .., .refinedInt .. | .multiple .., .multiple ..
  | .multiple .., .int .usize | .slice .., .slice .. | .refinedInt .., .int _
  | .alignedPtr .., .alignedPtr .. | .alignedPtr .., .ptr _ | .ref _, .ref _ | .refMut _, .refMut _
  | .refMut _, .ref _ | .ref _, .ptr _ | .refMut _, .ptr _ | .tuple _, .tuple _
  | .struct _, .struct _ => true
  | _, _ => false

lemma alike_of_unify {t1 t2 : Ty} (h : unify t1 t2 = .ok ()) : t1.alike t2 = true := by
  rw [unify.eq_def] at h
  split at h
  all_goals first | rfl | cases h | split_ifs at h

lemma unify_ne_ok {t1 t2 : Ty} (hne : t1.alike t2 = false) : unify t1 t2 ≠ .ok () :=
  fun h => Bool.false_ne_true (hne.symm.trans (alike_of_unify h))

variable {tgt : Target}

mutual

theorem samePlace_of_unify : ∀ t1 t2 : Ty, unify t1 t2 = .ok () → unify t2 t1 = .ok () →
    SamePlace tgt t1 t2
  | .bool, t2, h12, _ => by
    cases t2 with
    | bool => exact ⟨rfl, fun _ => rfl⟩
    | _ => exact absurd h12 (unify_ne_ok rfl)
  | .void, t2, h12, _ => by
    cases t2 with
    | void => exact ⟨rfl, fun _ => rfl⟩
    | _ => exact absurd h12 (unify_ne_ok rfl)
  | .srcLoc, t2, h12, _ => by
    cases t2 with
    | srcLoc => exact ⟨rfl, fun _ => rfl⟩
    | _ => exact absurd h12 (unify_ne_ok rfl)
  | .int a, t2, h12, h21 => by
    cases t2 with
    | int b =>
      rw [unify] at h12
      split_ifs at h12 with hab
      subst hab
      exact ⟨rfl, fun _ => rfl⟩
    | multiple n b => cases a <;> exact absurd h12 (unify_ne_ok rfl)
    | refinedInt lo hi b =>
      rw [unify] at h12
      split_ifs at h12
    | _ => exact absurd h12 (unify_ne_ok rfl)
  | .refinedInt lo hi a, t2, h12, h21 => by
    cases t2 with
    | refinedInt lo2 hi2 b =>
      rw [unify] at h12 h21
      obtain ⟨hr12, hb⟩ := ok_of_error_ite h12
      obtain ⟨hr21, -⟩ := ok_of_error_ite h21
      rw [unify] at hb
      split_ifs at hb with hab
      subst hab
      obtain rfl : lo = lo2 := BitVec.toInt_inj.mp (by omega)
      obtain rfl : hi = hi2 := BitVec.toInt_inj.mp (by omega)
      exact ⟨rfl, fun _ => rfl⟩
    | int b =>
      rw [unify] at h21
      split_ifs at h21
    | _ => exact absurd h12 (unify_ne_ok rfl)
  | .multiple n a, t2, h12, h21 => by
    cases t2 with
    | multiple m b =>
      rw [unify] at h12 h21
      obtain ⟨hm12, hb⟩ := ok_bind.mp h12
      obtain ⟨hm21, -⟩ := ok_bind.mp h21
      rw [unify] at hb
      split_ifs at hb with hab
      subst hab
      refine ⟨rfl, fun W => ?_⟩
      have hdvd : ∀ z, n.toInt ∣ z ↔ m.toInt ∣ z := fun z =>
        ⟨(dvd_of_unifyMod hm12).trans, (dvd_of_unifyMod hm21).trans⟩
      simp only [valid, hdvd]
    | int b => cases b <;> exact absurd h21 (unify_ne_ok rfl)
    | _ => exact absurd h12 (unify_ne_ok rfl)
  | .fn ps r eff, t2, h12, h21 => by
    cases t2 with
    | fn ps2 r2 eff2 =>
      rw [unify] at h12 h21
      obtain ⟨hlen, h12⟩ := ok_of_error_ite h12
      obtain ⟨-, h21⟩ := ok_of_error_ite h21
      obtain ⟨hps12, h12⟩ := ok_bind.mp h12
      obtain ⟨hps21, h21⟩ := ok_bind.mp h21
      obtain ⟨hr12, he12⟩ := ok_bind.mp h12
      obtain ⟨hr21, he21⟩ := ok_bind.mp h21
      obtain ⟨-, hps⟩ := samePlaces_of_unify ps ps2
        (forall₂_of_unifyMutablePointees (not_not.mp hlen) hps12)
        (forall₂_of_unifyMutablePointees (not_not.mp hlen).symm hps21)
      obtain ⟨-, hr⟩ := samePlace_of_unify r r2 hr12 hr21
      refine ⟨rfl, fun W => ?_⟩
      simp only [valid, hps W, hr W, same_effects he12 he21]
    | _ => exact absurd h12 (unify_ne_ok rfl)
  | .ptr a, t2, h12, h21 => by
    cases t2 with
    | ptr b =>
      rw [unify] at h12 h21
      obtain ⟨hl, hv⟩ := samePlace_of_unify a b (unify_of_mutablePointee (ok_bind.mp h12).2)
        (unify_of_mutablePointee (ok_bind.mp h21).2)
      exact ⟨rfl, fun W => by simp only [valid, hl, hv W]⟩
    | _ => exact absurd h12 (unify_ne_ok rfl)
  | .io a, t2, h12, h21 => by
    cases t2 with
    | io b =>
      rw [unify] at h12 h21
      exact samePlace_of_unify a b h12 h21
    | _ => exact absurd h12 (unify_ne_ok rfl)
  | .array a n, t2, h12, h21 => by
    cases t2 with
    | array b m =>
      rw [unify] at h12 h21
      obtain ⟨hn, h12⟩ := ok_of_error_ite h12
      obtain ⟨-, h21⟩ := ok_of_error_ite h21
      obtain ⟨hl, hv⟩ := samePlace_of_unify a b (unify_of_mutablePointee h12)
        (unify_of_mutablePointee h21)
      rw [not_not.mp hn]
      exact ⟨by simp only [layout, hl], fun W => by simp only [valid, hv W]⟩
    | _ => exact absurd h12 (unify_ne_ok rfl)
  | .struct s, t2, h12, h21 => by
    cases t2 with
    | struct s2 =>
      rw [unify] at h12
      obtain ⟨hs, -⟩ := ok_of_error_ite h12
      rw [not_not.mp hs]
      exact ⟨rfl, fun _ => rfl⟩
    | _ => exact absurd h12 (unify_ne_ok rfl)
  | .tuple ts, t2, h12, h21 => by
    cases t2 with
    | tuple ts2 =>
      rw [unify] at h12 h21
      obtain ⟨hlen, h12⟩ := ok_of_error_ite h12
      obtain ⟨-, h21⟩ := ok_of_error_ite h21
      obtain ⟨hl, hv⟩ := samePlaces_of_unify ts ts2 (forall₂_of_unifyAll (not_not.mp hlen) h12)
        (forall₂_of_unifyAll (not_not.mp hlen).symm h21)
      exact ⟨by simp only [layout, hl], fun W => by simp only [valid, hv W]⟩
    | _ => exact absurd h12 (unify_ne_ok rfl)
  | .slice a m access, t2, h12, h21 => by
    cases t2 with
    | slice b m2 access2 =>
      rw [unify] at h12 h21
      obtain ⟨hm12, h12⟩ := ok_of_error_ite h12
      obtain ⟨hm21, h21⟩ := ok_of_error_ite h21
      obtain ⟨ha12, h12⟩ := ok_of_error_ite h12
      obtain ⟨ha21, h21⟩ := ok_of_error_ite h21
      obtain ⟨hl, hv⟩ := samePlace_of_unify a b (unify_of_mutablePointee h12)
        (unify_of_mutablePointee h21)
      obtain rfl : m = m2 := BitVec.toInt_inj.mp (by omega)
      obtain rfl : access = access2 := by cases access <;> cases access2 <;> simp_all
      exact ⟨rfl, fun W => by simp only [valid, hl, hv W]⟩
    | _ => exact absurd h12 (unify_ne_ok rfl)
  | .alignedPtr n a, t2, h12, h21 => by
    cases t2 with
    | alignedPtr m b =>
      rw [unify] at h12 h21
      obtain ⟨hm12, h12⟩ := ok_bind.mp h12
      obtain ⟨hm21, h21⟩ := ok_bind.mp h21
      obtain ⟨hl, hv⟩ := samePlace_of_unify a b (unify_of_mutablePointee (ok_bind.mp h12).2)
        (unify_of_mutablePointee (ok_bind.mp h21).2)
      have hdvd : ∀ z, n.toInt ∣ z ↔ m.toInt ∣ z := fun z =>
        ⟨(dvd_of_unifyMod hm12).trans, (dvd_of_unifyMod hm21).trans⟩
      exact ⟨rfl, fun W => by simp only [valid, hl, hv W, hdvd]⟩
    | ptr b => exact absurd h21 (unify_ne_ok rfl)
    | _ => exact absurd h12 (unify_ne_ok rfl)
  | .ref a, t2, h12, h21 => by
    cases t2 with
    | ref b =>
      rw [unify] at h12 h21
      obtain ⟨hl, hv⟩ := samePlace_of_unify a b (ok_bind.mp h12).2 (ok_bind.mp h21).2
      exact ⟨rfl, fun W => by simp only [valid, hl, hv W]⟩
    | ptr b => exact absurd h21 (unify_ne_ok rfl)
    | _ => exact absurd h12 (unify_ne_ok rfl)
  | .refMut a, t2, h12, h21 => by
    cases t2 with
    | refMut b =>
      rw [unify] at h12 h21
      obtain ⟨hl, hv⟩ := samePlace_of_unify a b (unify_of_mutablePointee (ok_bind.mp h12).2)
        (unify_of_mutablePointee (ok_bind.mp h21).2)
      exact ⟨rfl, fun W => by simp only [valid, hl, hv W]⟩
    | ref b => exact absurd h21 (unify_ne_ok rfl)
    | ptr b => exact absurd h21 (unify_ne_ok rfl)
    | _ => exact absurd h12 (unify_ne_ok rfl)

theorem samePlaces_of_unify : ∀ ts1 ts2 : List Ty,
    List.Forall₂ (fun a b => unify a b = .ok ()) ts1 ts2 →
    List.Forall₂ (fun a b => unify a b = .ok ()) ts2 ts1 →
    layoutAll tgt ts1 = layoutAll tgt ts2 ∧ ∀ W, validAll tgt W ts1 = validAll tgt W ts2
  | [], ts2, h12, _ => by
    cases h12
    exact ⟨rfl, fun _ => rfl⟩
  | a :: ts1, ts2, h12, h21 => by
    cases h12 with
    | cons hab hts12 =>
      cases h21 with
      | cons hba hts21 =>
        obtain ⟨hl, hv⟩ := samePlace_of_unify a _ hab hba
        obtain ⟨hls, hvs⟩ := samePlaces_of_unify ts1 _ hts12 hts21
        exact ⟨by simp only [layoutAll, hl, hls], fun W => by simp only [validAll, hv W, hvs W]⟩

end

/-! ## Writable pointers -/

/-- An actual and an expected type through which the same place can be written,
with their element types. -/
inductive WritablePair : Ty → Ty → Ty → Ty → Prop
  | ptr (a b) : WritablePair (.ptr a) (.ptr b) a b
  | refMut (a b) : WritablePair (.refMut a) (.refMut b) a b
  | refMutPtr (a b) : WritablePair (.refMut a) (.ptr b) a b
  | alignedPtr (n a b) : WritablePair (.alignedPtr n a) (.ptr b) a b
  | aligned (n m a b) : WritablePair (.alignedPtr n a) (.alignedPtr m b) a b
  | slice (n m a b) : WritablePair (.slice a n .writable) (.slice b m .writable) a b
  | array (n m a b) : WritablePair (.array a n) (.array b m) a b

lemma WritablePair.unify_pointee {T1 T2 t1 t2 : Ty} (hp : WritablePair T1 T2 t1 t2)
    (h : unify T1 T2 = .ok ()) : unify t1 t2 = .ok () := by
  cases hp <;> rw [unify] at h
  case refMutPtr => exact (ok_bind.mp h).2
  case aligned => exact unify_of_mutablePointee (ok_bind.mp (ok_bind.mp h).2).2
  case slice => exact unify_of_mutablePointee (ok_of_error_ite (ok_of_error_ite h).2).2
  case array => exact unify_of_mutablePointee (ok_of_error_ite h).2
  all_goals exact unify_of_mutablePointee (ok_bind.mp h).2

structure ProperRange (tgt : Target) (lo hi : Native) (base : IntTy) : Prop where
  nonempty : lo.toInt < hi.toInt
  lower : Machine.least base.signed (base.bits tgt) ≤ lo.toInt
  upper : hi.toInt ≤ Machine.limit base.signed (base.bits tgt)

structure Trivial (tgt : Target) (lo hi : Native) (base t : IntTy) : Prop where
  layout : layout tgt (.int base) = layout tgt (.int t)
  lower : lo.toInt = Machine.least t.signed (t.bits tgt)
  upper : hi.toInt = Machine.limit t.signed (t.bits tgt)

section Integer
variable {lo hi lo2 hi2 : Native} {base base2 t : IntTy}

lemma mem_valid_int {W : World} {z : Int} : Val.int z ∈ valid tgt W (.int t) ↔ t.Holds tgt z := by
  simp [valid]

lemma mem_valid_refinedInt {W : World} {z : Int} :
    Val.int z ∈ valid tgt W (.refinedInt lo hi base) ↔ base.Holds tgt z ∧ lo.toInt ≤ z ∧ z < hi.toInt := by
  simp [valid]

def World.empty : World := ⟨fun _ => none, fun _ _ => ∅, fun _ => ∅, fun _ => ∅⟩

lemma samePlace_refined_iff
    (h : unify (.refinedInt lo hi base) (.refinedInt lo2 hi2 base2) = .ok ())
    (hr2 : ProperRange tgt lo2 hi2 base2) :
    SamePlace tgt (.refinedInt lo hi base) (.refinedInt lo2 hi2 base2) ↔
      unify (.refinedInt lo2 hi2 base2) (.refinedInt lo hi base) = .ok () := by
  refine ⟨fun hs => ?_, samePlace_of_unify _ _ h⟩
  rw [unify] at h
  obtain ⟨hsub, hb⟩ := ok_of_error_ite h
  rw [unify] at hb
  split_ifs at hb with hbase
  subst hbase
  have hv := hs.2 World.empty
  have hne := hr2.nonempty
  have hlo := hr2.lower
  have hup := hr2.upper
  have hmem : ∀ z, lo2.toInt ≤ z → z < hi2.toInt → lo.toInt ≤ z ∧ z < hi.toInt := by
    intro z hz1 hz2
    have hz : Val.int z ∈ valid tgt World.empty (.refinedInt lo2 hi2 base) :=
      mem_valid_refinedInt.mpr ⟨⟨hlo.trans hz1, hz2.trans_le hup⟩, hz1, hz2⟩
    rw [← hv] at hz
    exact (mem_valid_refinedInt.mp hz).2
  have h1 := hmem lo2.toInt le_rfl hne
  have h2 := hmem (hi2.toInt - 1) (by omega) (by omega)
  rw [unify, if_neg (by omega), unify, if_pos rfl]

lemma samePlace_int_iff (hr : ProperRange tgt lo hi base) :
    SamePlace tgt (.refinedInt lo hi base) (.int t) ↔ Trivial tgt lo hi base t := by
  constructor
  · rintro ⟨hl, hv⟩
    have hl' : layout tgt (.int base) = layout tgt (.int t) := hl
    have hbits : base.bits tgt = t.bits tgt ∧ base.signed = t.signed := by
      simp only [layout, Layout.int.injEq] at hl'
      exact ⟨hl'.1, hl'.2.1⟩
    have hmem : ∀ z, t.Holds tgt z → lo.toInt ≤ z ∧ z < hi.toInt := fun z hz => by
      have hz' := mem_valid_int (W := World.empty).mpr hz
      rw [← hv World.empty] at hz'
      exact (mem_valid_refinedInt.mp hz').2
    have hlo := hr.lower
    have hup := hr.upper
    have hne := hr.nonempty
    rw [hbits.1, hbits.2] at hlo hup
    have h1 := hmem _ ⟨le_rfl, by omega⟩
    have h2 := hmem (Machine.limit t.signed (t.bits tgt) - 1) ⟨by omega, by omega⟩
    exact ⟨hl', by omega, by omega⟩
  · rintro ⟨hl, hlo, hhi⟩
    refine ⟨hl, fun W => ?_⟩
    have hbits : base.bits tgt = t.bits tgt ∧ base.signed = t.signed := by
      simp only [layout, Layout.int.injEq] at hl
      exact ⟨hl.1, hl.2.1⟩
    ext v
    simp only [valid, Set.mem_ofPred_eq, IntTy.Holds, Machine.Holds, hlo, hhi, hbits.1, hbits.2, and_self]

end Integer

/-- Element types behind a writable pointer that unify the other way too have one
representation and the same values. For a refined element that is necessary,
but for a range that is all of its target. -/
theorem pointee_invariant (tgt : Target) {T1 T2 t1 t2 : Ty} (hp : WritablePair T1 T2 t1 t2)
    (h : unify T1 T2 = .ok ()) :
    (unify t2 t1 = .ok () → SamePlace tgt t1 t2) ∧
    (∀ lo hi base, t1 = .refinedInt lo hi base → ProperRange tgt lo hi base →
      (∀ lo2 hi2 base2, t2 = .refinedInt lo2 hi2 base2 → ProperRange tgt lo2 hi2 base2) →
      (SamePlace tgt t1 t2 ↔
        unify t2 t1 = .ok () ∨ ∃ t, t2 = .int t ∧ Trivial tgt lo hi base t)) := by
  have h12 := hp.unify_pointee h
  refine ⟨samePlace_of_unify t1 t2 h12, ?_⟩
  rintro lo hi base rfl hr hr2
  cases t2 with
  | refinedInt lo2 hi2 base2 => simp [samePlace_refined_iff h12 (hr2 _ _ _ rfl)]
  | int t =>
    have herr : unify (.int t) (.refinedInt lo hi base) ≠ .ok () := by
      rw [unify]
      split_ifs <;> nofun
    simp [samePlace_int_iff hr, herr]
  | _ => simp [unify] at h12

/-- An aligned pointer to a byte given as its whole range, against a pointer to a byte. -/
theorem pointee_invariant_wholeByte :
    unify (.alignedPtr 8 (.refinedInt 0 256 .u8)) (.ptr (.int .u8)) = .ok () ∧
      SamePlace .bits32 (.refinedInt 0 256 .u8) (.int .u8) := by
  have h : unify (.alignedPtr 8 (.refinedInt 0 256 .u8)) (.ptr (.int .u8)) = .ok () := by
    simp [unify, unifyMutablePointee, unifyRefinedInt, requireWritablePointerEffectInvariance,
      functionEffectRows, containsMultiple, ok_bind]
  have hr : ProperRange .bits32 0 256 .u8 := ⟨by decide, by decide, by decide⟩
  refine ⟨h, ((pointee_invariant .bits32 (.alignedPtr 8 _ _) h).2 0 256 .u8 rfl hr ?_).mpr ?_⟩
  · rintro lo hi base ⟨⟩
  · exact .inr ⟨.u8, rfl, rfl, by decide, by decide⟩

/-- A pointer to a counter below eight goes where a pointer to any `u32`, or to a
byte, is expected: a store through it leaves a value the counter cannot have, or
writes one of its four bytes. -/
theorem pointee_covariant : (unify (.ptr (.refinedInt 0 8 .u32)) (.ptr (.int .u32)) = .ok () ∧
      ¬ SamePlace .bits32 (.refinedInt 0 8 .u32) (.int .u32)) ∧
    unify (.ptr (.refinedInt 0 8 .u32)) (.ptr (.int .u8)) = .ok () ∧
      layout .bits32 (.refinedInt 0 8 .u32) ≠ layout .bits32 (.int .u8) := by
  have hr : ProperRange .bits32 0 8 .u32 := ⟨by decide, by decide, by decide⟩
  refine ⟨⟨?_, fun h => ?_⟩, ?_, ?_⟩
  · simp [unify, unifyMutablePointee, unifyRefinedInt, requireWritablePointerEffectInvariance,
      functionEffectRows, containsMultiple, ok_bind]
  · have := ((samePlace_int_iff hr).mp h).upper
    revert this
    decide
  · simp [unify, unifyMutablePointee, unifyRefinedInt, requireWritablePointerEffectInvariance,
      functionEffectRows, containsMultiple, ok_bind]
  · simp [layout, IntTy.bits]

end Takibi.Types
