import Mathlib.Tactic

/-! Iteration until a round changes nothing. -/

namespace Takibi.Control
variable {α : Type*}

def settle (next : α → Option α) : Nat → α → Option α
  | 0, _ => none
  | n + 1, a =>
    match next a with
    | none => some a
    | some b => settle next n b

section Settle
variable {next : α → Option α} {a r : α} {n : Nat}

lemma settle_stable (h : settle next n a = some r) : next r = none := by
  induction n generalizing a with
  | zero => cases h
  | succ n ih =>
    unfold settle at h
    split at h
    · rename_i hnone
      cases h
      exact hnone
    · exact ih h

variable {P : α → Prop}

lemma settle_invariant (hstep : ∀ a b, P a → next a = some b → P b) (ha : P a)
    (h : settle next n a = some r) : P r := by
  induction n generalizing a with
  | zero => cases h
  | succ n ih =>
    unfold settle at h
    split at h
    · cases h
      exact ha
    · rename_i b hb
      exact ih (hstep a b ha hb) h

lemma settle_of_measure (μ : α → Nat) (hstep : ∀ a b, P a → next a = some b → P b ∧ μ b < μ a)
    (ha : P a) (hn : μ a < n) :
    ∃ r, settle next n a = some r := by
  induction n generalizing a with
  | zero => exact absurd hn (Nat.not_lt_zero _)
  | succ n ih =>
    unfold settle
    split
    · exact ⟨a, rfl⟩
    · rename_i b hb
      obtain ⟨hP, hμ⟩ := hstep a b ha hb
      exact ih hP (by omega)

lemma settle_of_counter (counter : α → Nat) (bound : Nat)
    (hstep : ∀ a b, next a = some b → counter a ≤ bound ∧ counter b = counter a + 1)
    (ha : counter a ≤ bound + 1) (hn : bound + 1 - counter a < n) :
    ∃ r, settle next n a = some r ∧ counter r ≤ bound + 1 := by
  have hround : ∀ a b, counter a ≤ bound + 1 → next a = some b →
      counter b ≤ bound + 1 ∧ bound + 1 - counter b < bound + 1 - counter a := by
    intro a b _ hb
    obtain ⟨_, _⟩ := hstep a b hb
    omega
  obtain ⟨r, hr⟩ := settle_of_measure (fun a => bound + 1 - counter a) hround ha hn
  exact ⟨r, hr, settle_invariant (P := fun a => counter a ≤ bound + 1) (fun a b hP hb => (hround a b hP hb).1) ha hr⟩

lemma settle_mono {m : Nat} (hle : n ≤ m) (h : settle next n a = some r) : settle next m a = some r := by
  induction n generalizing a m with
  | zero => cases h
  | succ n ih =>
    cases m with
    | zero => exact absurd hle (Nat.not_succ_le_zero n)
    | succ m =>
      unfold settle at h ⊢
      cases hnext : next a with
      | none => simpa only [hnext] using h
      | some b =>
        simp only [hnext] at h ⊢
        exact ih (Nat.le_of_succ_le_succ hle) h

lemma settle_of_iterate {f : α → α} (hf : ∀ a b, next a = some b → b = f a)
    (h : next (f^[n] a) = none) : ∃ r, settle next (n + 1) a = some r := by
  induction n generalizing a with
  | zero =>
    refine ⟨a, ?_⟩
    rw [settle, show next a = none from h]
  | succ n ih =>
    unfold settle
    split
    · exact ⟨a, rfl⟩
    · rename_i b hb
      rw [hf a b hb]
      exact ih h

lemma settle_never (hstep : ∀ a, P a → ∃ b, next a = some b ∧ P b) (ha : P a) (n : Nat) :
    settle next n a = none := by
  induction n generalizing a with
  | zero => rfl
  | succ n ih =>
    obtain ⟨b, hb, hP⟩ := hstep a ha
    rw [settle, hb]
    exact ih hP

end Settle
end Takibi.Control
