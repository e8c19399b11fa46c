import Takibi.Numeric.AssocMap
import Takibi.Numeric.Native

/-! Static terms, the store of their unification variables, and the integers
they stand for. A variable is named by the number `fresh_static` gave it; the
store holds the links, so a variable it does not hold is unbound. -/

namespace Takibi.Static
open Numeric

/-- A rigid parameter's display name is left out: it is read by printing only. -/
inductive StaticTerm
  | const (n : Native)
  | global (name : String)
  | enum (name case : String)
  | param (id : Nat)
  | var (id : Nat)
  | add (a b : StaticTerm)
  | sub (a b : StaticTerm)
  | mul (a b : StaticTerm)
  deriving DecidableEq, Repr

abbrev Store := List (Nat × StaticTerm)

namespace Store

abbrev find? (st : Store) (r : Nat) : Option StaticTerm := AssocMap.find? r st
def link (r : Nat) (t : StaticTerm) (st : Store) : Store := (r, t) :: st

@[simp] lemma find?_link_self (r : Nat) (t : StaticTerm) (st : Store) : (st.link r t).find? r = some t := by
  simp [link, find?, AssocMap.find?]

variable {r : Nat}

lemma find?_link_ne {r' : Nat} (h : r' ≠ r) (t : StaticTerm) (st : Store) :
    (st.link r t).find? r' = st.find? r' := by
  simp [link, find?, AssocMap.find?, h]

end Store

/-! ## Values -/

structure Val (R : Type) where
  param : Nat → R
  global : String → R
  enum : String → String → R
  var : Nat → R

namespace Val
variable {R S : Type} [CommRing R] [CommRing S]

def eval (v : Val R) : StaticTerm → R
  | .const n => (n.toInt : R)
  | .global name => v.global name
  | .enum name case => v.enum name case
  | .param id => v.param id
  | .var id => v.var id
  | .add a b => v.eval a + v.eval b
  | .sub a b => v.eval a - v.eval b
  | .mul a b => v.eval a * v.eval b

def map (f : R →+* S) (v : Val R) : Val S where
  param := fun i => f (v.param i)
  global := fun g => f (v.global g)
  enum := fun n c => f (v.enum n c)
  var := fun r => f (v.var r)

lemma eval_map (f : R →+* S) (v : Val R) (t : StaticTerm) : (v.map f).eval t = f (v.eval t) := by
  induction t with
  | const n => simp [eval]
  | add a b iha ihb => simp [eval, iha, ihb]
  | sub a b iha ihb => simp [eval, iha, ihb]
  | mul a b iha ihb => simp [eval, iha, ihb]
  | _ => rfl

def Models (v : Val R) (st : Store) : Prop := ∀ r t, st.find? r = some t → v.var r = v.eval t

lemma Models.map {v : Val R} {st : Store} (h : v.Models st) (f : R →+* S) : (v.map f).Models st := by
  intro r t ht
  rw [eval_map, ← h r t ht]
  rfl

lemma Models.of_link {v : Val R} {st : Store} {t : StaticTerm}
    (h : v.Models (st.link r t)) (hr : st.find? r = none) : v.Models st := by
  intro r' t' ht'
  have hne : r' ≠ r := by
    rintro rfl
    rw [hr] at ht'
    cases ht'
  exact h r' t' (by rw [Store.find?_link_ne hne, ht'])

lemma Models.link_eq {v : Val R} {st : Store} {t : StaticTerm}
    (h : v.Models (st.link r t)) : v.var r = v.eval t :=
  h r t (Store.find?_link_self r t st)

end Val

/-! ## The link graph -/

def Occurs (u : Nat) : StaticTerm → Prop
  | .var r => u = r
  | .add a b | .sub a b | .mul a b => Occurs u a ∨ Occurs u b
  | _ => False

def Points (st : Store) (u r : Nat) : Prop := ∃ t, st.find? r = some t ∧ Occurs u t

structure Acyclic (st : Store) : Prop where
  wf : WellFounded (Points st)

lemma acyclic_nil : Acyclic [] :=
  ⟨⟨fun r => ⟨r, fun u h => by simp [Points, AssocMap.find?] at h⟩⟩⟩

section Link
variable {st : Store} {r : Nat} {t : StaticTerm}

lemma Acyclic.link (h : Acyclic st)
    (ht : ∀ u, Occurs u t → u ≠ r ∧ st.find? u = none) : Acyclic (st.link r t) := by
  have hleaf : ∀ u, u ≠ r → st.find? u = none → Acc (Points (st.link r t)) u := by
    intro u hu hnone
    refine ⟨u, fun w hw => ?_⟩
    obtain ⟨s, hs, _⟩ := hw
    rw [Store.find?_link_ne hu, hnone] at hs
    cases hs
  have hr : Acc (Points (st.link r t)) r := by
    refine ⟨r, fun w hw => ?_⟩
    obtain ⟨s, hs, hws⟩ := hw
    rw [Store.find?_link_self, Option.some.injEq] at hs
    obtain ⟨hne, hnone⟩ := ht w (hs ▸ hws)
    exact hleaf w hne hnone
  refine ⟨⟨fun x => ?_⟩⟩
  induction x using h.wf.induction with
  | _ x ih =>
    by_cases hx : x = r
    · exact hx ▸ hr
    · refine ⟨x, fun w hw => ?_⟩
      obtain ⟨s, hs, hws⟩ := hw
      rw [Store.find?_link_ne hx] at hs
      exact ih w ⟨s, hs, hws⟩

end Link

/-! ## Assignments of the unbound variables -/

structure Val.Agree {R : Type} (st : Store) (v w : Val R) : Prop where
  param : v.param = w.param
  global : v.global = w.global
  enum : v.enum = w.enum
  var : ∀ r, st.find? r = none → v.var r = w.var r

section Assignments
variable {R : Type} [CommRing R] {st : Store}

lemma eval_congr {v w : Val R} (h : v.param = w.param ∧ v.global = w.global ∧ v.enum = w.enum)
    {t : StaticTerm} (hvar : ∀ u, Occurs u t → v.var u = w.var u) : v.eval t = w.eval t := by
  induction t with
  | const n => rfl
  | global name => exact congrFun h.2.1 name
  | enum name case => exact congrFun (congrFun h.2.2 name) case
  | param id => exact congrFun h.1 id
  | var id => exact hvar id rfl
  | add a b iha ihb | sub a b iha ihb | mul a b iha ihb =>
    simp only [Val.eval, iha fun u hu => hvar u (Or.inl hu), ihb fun u hu => hvar u (Or.inr hu)]

open Classical in
noncomputable def extendVar (hst : Acyclic st) (v : Val R) : Nat → R :=
  hst.wf.fix fun r below =>
    match st.find? r with
    | none => v.var r
    | some t => { v with var := fun u => if h : Points st u r then below u h else 0 }.eval t

section
variable (hst : Acyclic st)
include hst

lemma extendVar_of_none (v : Val R) (h : st.find? r = none) : extendVar hst v r = v.var r := by
  unfold extendVar
  rw [WellFounded.fix_eq]
  simp only [h]

lemma extendVar_of_some (v : Val R) {t : StaticTerm} (h : st.find? r = some t) :
    extendVar hst v r = ({ v with var := extendVar hst v } : Val R).eval t := by
  conv_lhs => unfold extendVar
  rw [WellFounded.fix_eq]
  simp only [h]
  apply eval_congr
  · exact ⟨rfl, rfl, rfl⟩
  · intro u hu
    exact dif_pos ⟨t, h, hu⟩

lemma Acyclic.exists_models (v : Val R) : ∃ w : Val R, w.Models st ∧ w.Agree st v :=
  ⟨{ v with var := extendVar hst v }, fun _ _ h => extendVar_of_some hst v h,
    ⟨rfl, rfl, rfl, fun _ h => extendVar_of_none hst v h⟩⟩

lemma Acyclic.var_eq {v w : Val R} (hv : v.Models st) (hw : w.Models st) (h : v.Agree st w)
    (r : Nat) : v.var r = w.var r := by
  induction r using hst.wf.induction with
  | _ r ih =>
    cases hr : st.find? r with
    | none => exact h.var r hr
    | some t =>
      rw [hv r t hr, hw r t hr]
      exact eval_congr ⟨h.param, h.global, h.enum⟩ fun u hu => ih u ⟨t, hr, hu⟩

lemma Acyclic.eval_eq {v w : Val R} (hv : v.Models st) (hw : w.Models st) (h : v.Agree st w)
    (t : StaticTerm) : v.eval t = w.eval t :=
  eval_congr ⟨h.param, h.global, h.enum⟩ fun u _ => hst.var_eq hv hw h u

end
end Assignments
end Takibi.Static
