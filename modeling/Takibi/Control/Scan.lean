import Mathlib.Tactic

/-! Loops that ask for the next position at or after a cursor, work on it and go on behind it. -/

namespace Takibi.Control
variable {σ ρ : Type*}

def scan (next : σ → ℕ → Option ℕ) (body : ℕ → σ → Except ρ σ) : ℕ → ℕ → σ → Except ρ σ
  | 0, _, s => .ok s
  | fuel + 1, cursor, s =>
    match next s cursor with
    | none => .ok s
    | some position =>
      match body position s with
      | .error r => .error r
      | .ok s' => scan next body fuel (position + 1) s'

lemma scan_spec {next : σ → ℕ → Option ℕ} (body : ℕ → σ → Except ρ σ) (bound : ℕ)
    (Inv : ℕ → σ → Prop) (Left : ρ → Prop)
    (hnext : ∀ cursor s position, Inv cursor s → next s cursor = some position →
      cursor ≤ position ∧ position < bound)
    (hbody : ∀ cursor s position s', Inv cursor s → next s cursor = some position →
      body position s = .ok s' → Inv (position + 1) s')
    (hleft : ∀ cursor s position r, Inv cursor s → next s cursor = some position →
      body position s = .error r → Left r)
    (fuel cursor : ℕ) (s : σ) (h : Inv cursor s) (fuelled : bound < cursor + fuel) :
    (∀ s', scan next body fuel cursor s = .ok s' → ∃ cursor', Inv cursor' s' ∧ next s' cursor' = none) ∧
      ∀ r, scan next body fuel cursor s = .error r → Left r := by
  induction fuel generalizing cursor s with
  | zero =>
    refine ⟨fun s' left => ?_, fun r left => nomatch left⟩
    cases left
    refine ⟨cursor, h, Option.eq_none_iff_forall_not_mem.mpr fun position found => ?_⟩
    obtain ⟨_, _⟩ := hnext cursor s position h found
    omega
  | succ fuel ih =>
    unfold scan
    cases found : next s cursor with
    | none => exact ⟨fun s' left => by cases left; exact ⟨cursor, h, found⟩, fun r left => nomatch left⟩
    | some position =>
      obtain ⟨_, _⟩ := hnext cursor s position h found
      cases worked : body position s with
      | error r =>
        refine ⟨fun s' left => ?_, fun r' left => ?_⟩
        · simp [worked] at left
        · simp only [worked, Except.error.injEq] at left
          exact left ▸ hleft cursor s position r h found worked
      | ok s' =>
        simp only [worked]
        exact ih _ _ (hbody cursor s position s' h found worked) (by omega)

end Takibi.Control
