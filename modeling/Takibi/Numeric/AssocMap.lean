import Mathlib.Tactic
import Mathlib.Order.Defs.LinearOrder

/-! Finite maps as association lists in key order, with a merge that may fail,
and the weighted sum of a map's values that linear terms denote. -/

namespace Takibi.Numeric.AssocMap
open Option List
variable {κ α : Type*} [LinearOrder κ]

def find? (k : κ) : List (κ × α) → Option α
  | [] => none
  | (k', a) :: m => if k = k' then some a else find? k m

def remove (k : κ) : List (κ × α) → List (κ × α)
  | [] => []
  | (k', a) :: m => if k = k' then m else (k', a) :: remove k m

/-- Insert a binding, joining it with one already there. The outer `none` of
the joining function aborts the operation, the inner one drops the binding. -/
def insertWithM (f : α → α → Option (Option α)) (k : κ) (a : α) :
    List (κ × α) → Option (List (κ × α))
  | [] => some [(k, a)]
  | (k', b) :: m =>
    if k < k' then some ((k, a) :: (k', b) :: m)
    else if k = k' then
      (f a b).map fun
        | none => m
        | some s => (k, s) :: m
    else (insertWithM f k a m).map ((k', b) :: ·)

def unionM (f : α → α → Option (Option α)) (xs ys : List (κ × α)) : Option (List (κ × α)) :=
  xs.foldrM (fun p m => insertWithM f p.1 p.2 m) ys

def mapM (f : α → Option α) : List (κ × α) → Option (List (κ × α))
  | [] => some []
  | (k, a) :: m => (f a).bind fun b => (mapM f m).map ((k, b) :: ·)

def weigh (w : α → Int) (ρ : κ → Int) : List (κ × α) → Int
  | [] => 0
  | (k, a) :: m => w a * ρ k + weigh w ρ m

variable {m : List (κ × α)} {ρ : κ → Int} {w : α → Int}

omit [LinearOrder κ] in
lemma weigh_nonneg (hw : ∀ p ∈ m, 0 ≤ w p.2) (hρ : ∀ k, 0 ≤ ρ k) : 0 ≤ weigh w ρ m := by
  induction m with
  | nil => exact le_rfl
  | cons p m ih =>
    have hp := mul_nonneg (hw p (mem_cons_self ..)) (hρ p.1)
    have hm := ih fun q hq => hw q (mem_cons_of_mem _ hq)
    exact add_nonneg hp hm

lemma weigh_remove {k : κ} {a : α} (h : find? k m = some a) :
    weigh w ρ m = w a * ρ k + weigh w ρ (remove k m) := by
  induction m with
  | nil => simp [find?] at h
  | cons p m ih =>
    obtain ⟨k', b⟩ := p
    unfold find? at h
    unfold remove
    split_ifs at h ⊢ with hk
    · rw [hk, ← some.inj h]
      rfl
    · simp only [weigh, ih h]
      ring

lemma remove_of_find?_none {k : κ} (h : find? k m = none) : remove k m = m := by
  induction m with
  | nil => rfl
  | cons p m ih =>
    obtain ⟨k', b⟩ := p
    unfold find? at h
    unfold remove
    split_ifs at h ⊢
    rw [ih h]

section Joining
variable {f : α → α → Option (Option α)} {w : α → Int} (ρ : κ → Int)
  (hf : ∀ {a b r}, f a b = some r → r.elim 0 w = w a + w b)

include hf

lemma weigh_insertWithM {k : κ} {a : α} {m m' : List (κ × α)}
    (h : insertWithM f k a m = some m') : weigh w ρ m' = w a * ρ k + weigh w ρ m := by
  induction m generalizing m' with
  | nil =>
    rw [insertWithM, some.injEq] at h
    rw [← h]
    rfl
  | cons p m ih =>
    obtain ⟨k', b⟩ := p
    unfold insertWithM at h
    split_ifs at h with hlt heq
    · rw [← some.inj h]
      rfl
    · obtain ⟨r, hr, rfl⟩ := map_eq_some_iff.mp h
      have hs := hf hr
      cases r with
      | none =>
        simp only [elim_none] at hs
        simp only [weigh, heq]
        linear_combination (ρ k') * hs
      | some s =>
        simp only [elim_some] at hs
        simp only [weigh, heq]
        linear_combination (ρ k') * hs
    · obtain ⟨r, hr, rfl⟩ := map_eq_some_iff.mp h
      simp only [weigh, ih hr]
      ring

lemma weigh_unionM {xs ys zs : List (κ × α)} (h : unionM f xs ys = some zs) :
    weigh w ρ zs = weigh w ρ xs + weigh w ρ ys := by
  induction xs generalizing zs with
  | nil =>
    rw [← some.inj h]
    simp only [weigh, zero_add]
  | cons p xs ih =>
    simp only [unionM, foldrM_cons, bind_eq_bind, bind_eq_some_iff] at h
    obtain ⟨m, hm, hz⟩ := h
    rw [weigh_insertWithM ρ hf hz, ih hm]
    simp only [weigh, add_assoc]

end Joining

omit [LinearOrder κ] in
lemma weigh_mapM {f : α → Option α} {c : Int}
    (hf : ∀ {a b}, f a = some b → w b = c * w a) {m m' : List (κ × α)} (h : mapM f m = some m') :
    weigh w ρ m' = c * weigh w ρ m := by
  induction m generalizing m' with
  | nil =>
    rw [← some.inj h]
    simp only [weigh, mul_zero]
  | cons p m ih =>
    simp only [mapM, bind_eq_some_iff, map_eq_some_iff] at h
    obtain ⟨b, hb, m₁, hm, rfl⟩ := h
    simp only [weigh, hf hb, ih hm]
    ring

end Takibi.Numeric.AssocMap
