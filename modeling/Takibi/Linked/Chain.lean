import Mathlib.Tactic

/-! Singly linked chains through the entries of a table of `N` links. A link of `N` or more ends the chain. -/

namespace Takibi.Linked
open Function List
variable {N : ℕ}

def Chain (next : Fin N → ℕ) : ℕ → List (Fin N) → ℕ → Prop
  | start, [], stop => start = stop ∧ N ≤ stop
  | start, i :: l, stop => start = i ∧ Chain next (next i) l stop

variable {next next' : Fin N → ℕ} {start stop stop' link : ℕ} {i : Fin N} {l l' : List (Fin N)}

lemma Chain.nil (h : N ≤ stop) : Chain next stop [] stop := ⟨rfl, h⟩

section
variable (h : Chain next start l stop)
include h

lemma Chain.congr (hsame : ∀ i ∈ l, next' i = next i) : Chain next' start l stop := by
  induction l generalizing start with
  | nil => exact h
  | cons i l ih =>
    obtain ⟨hi, hl⟩ := forall_mem_cons.mp hsame
    refine ⟨h.1, ?_⟩
    rw [hi]
    exact ih h.2 hl

lemma Chain.update (hi : i ∉ l) (link : ℕ) : Chain (update next i link) start l stop :=
  h.congr fun _ hj => update_of_ne (ne_of_mem_of_not_mem hj hi) ..

lemma Chain.unique (h' : Chain next start l' stop') : l = l' ∧ stop = stop' := by
  induction l generalizing start l' with
  | nil =>
    obtain ⟨rfl, hend⟩ := h
    cases l' with
    | nil => exact ⟨rfl, h'.1⟩
    | cons j l' => exact absurd (h'.1 ▸ j.isLt) (not_lt.mpr hend)
  | cons i l ih =>
    obtain ⟨rfl, hrest⟩ := h
    cases l' with
    | nil => exact absurd i.isLt (not_lt.mpr (h'.1 ▸ h'.2))
    | cons j l' =>
      obtain ⟨hij, hrest'⟩ := h'
      obtain rfl := Fin.ext hij
      obtain ⟨rfl, hstop⟩ := ih hrest hrest'
      exact ⟨rfl, hstop⟩

end

lemma Chain.of_append {a b : List (Fin N)} (h : Chain next start (a ++ i :: b) stop) :
    Chain next i (i :: b) stop := by
  induction a generalizing start with
  | nil => exact ⟨rfl, h.2⟩
  | cons j a ih => exact ih h.2

lemma Chain.nodup (h : Chain next start l stop) : l.Nodup := by
  induction l generalizing start with
  | nil => exact nodup_nil
  | cons i l ih =>
    refine nodup_cons.mpr ⟨fun hi => ?_, ih h.2⟩
    -- From the second visit on, the chain is the same again, and shorter.
    obtain ⟨a, b, rfl⟩ := append_of_mem hi
    have hagain : Chain next i (i :: (a ++ i :: b)) stop := ⟨rfl, h.2⟩
    have hlength := congrArg length (hagain.unique h.2.of_append).1
    simp only [length_cons, length_append] at hlength
    omega

lemma Chain.skip {a b : List (Fin N)} {j : Fin N} (h : Chain next start (a ++ i :: j :: b) stop) :
    Chain (Function.update next i (next j)) start (a ++ i :: b) stop := by
  have hnodup := h.nodup
  induction a generalizing start with
  | nil =>
    obtain ⟨hi, -⟩ := nodup_cons.mp hnodup
    obtain ⟨hstart, -, hrest⟩ := h
    refine ⟨hstart, ?_⟩
    rw [update_self]
    exact hrest.update (fun hb => hi (mem_cons_of_mem _ hb)) _
  | cons k a ih =>
    obtain ⟨hk, hnodup⟩ := nodup_cons.mp hnodup
    refine ⟨h.1, ?_⟩
    rw [update_of_ne (fun hki => hk (by simp [hki]))]
    exact ih h.2 hnodup

lemma Chain.length_le (h : Chain next start l stop) : l.length ≤ N := by
  simpa using h.nodup.length_le_card

end Takibi.Linked
