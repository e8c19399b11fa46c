import Mathlib.Tactic

/-! Computations on a mutable state that may raise. The writes made before an
exception stay. A run without a result (`none`) ran out of its fuel or failed
an assertion. -/

namespace Takibi.Effect
open Option
variable {ε σ α β : Type}

def Mut (ε σ α : Type) : Type := σ → Option (Except ε α × σ)

namespace Mut
variable (x : Mut ε σ α) {r : Except ε α × σ}

protected def bind (f : α → Mut ε σ β) : Mut ε σ β := fun s =>
  match x s with
  | none => none
  | some (.error e, s) => some (.error e, s)
  | some (.ok a, s) => f a s

instance : Monad (Mut ε σ) where
  pure a := fun s => some (.ok a, s)
  bind := Mut.bind

def stuck : Mut ε σ α := fun _ => none
def raise (e : ε) : Mut ε σ α := fun s => some (.error e, s)
def get : Mut ε σ σ := fun s => some (.ok s, s)
def modify (f : σ → σ) : Mut ε σ Unit := fun s => some (.ok (), f s)

def catching (h : ε → Mut ε σ α) : Mut ε σ α := fun s =>
  match x s with
  | some (.error e, s) => h e s
  | r => r

section Results
variable {x : Mut ε σ α} {f : α → Mut ε σ β} {s s' : σ} {b : β} {e : ε}

@[simp] lemma pure_eq {a : α} : (pure a : Mut ε σ α) s = some r ↔ r = (.ok a, s) := by
  change some (Except.ok a, s) = some r ↔ _
  rw [some.injEq, eq_comm]

@[simp] lemma stuck_eq : (stuck : Mut ε σ α) s = some r ↔ False := by
  simp [stuck]

@[simp] lemma raise_eq : (raise e : Mut ε σ α) s = some r ↔ r = (.error e, s) := by
  rw [raise, some.injEq, eq_comm]

@[simp] lemma modify_eq {g : σ → σ} {r : Except ε Unit × σ} :
    (modify g : Mut ε σ Unit) s = some r ↔ r = (.ok (), g s) := by
  rw [modify, some.injEq, eq_comm]

lemma bind_ok : (x >>= f) s = some (.ok b, s') ↔
    ∃ a s₁, x s = some (.ok a, s₁) ∧ f a s₁ = some (.ok b, s') := by
  change Mut.bind x f s = _ ↔ _
  unfold Mut.bind
  cases hx : x s with
  | none => simp
  | some r =>
    obtain ⟨res, s₁⟩ := r
    cases res <;> simp

lemma bind_error : (x >>= f) s = some (.error e, s') ↔
    x s = some (.error e, s') ∨ ∃ a s₁, x s = some (.ok a, s₁) ∧ f a s₁ = some (.error e, s') := by
  change Mut.bind x f s = _ ↔ _
  unfold Mut.bind
  cases hx : x s with
  | none => simp
  | some r =>
    obtain ⟨res, s₁⟩ := r
    cases res <;> simp

lemma bind_cases {r : Except ε β} : (x >>= f) s = some (r, s') ↔
    (∃ e, r = .error e ∧ x s = some (.error e, s')) ∨
      ∃ a s₁, x s = some (.ok a, s₁) ∧ f a s₁ = some (r, s') := by
  cases r with
  | ok b => simp [bind_ok]
  | error e => simp [bind_error]

lemma catching_cases {h : ε → Mut ε σ α} {r : Except ε α} : catching x h s = some (r, s') ↔
      (∃ a, r = .ok a ∧ x s = some (.ok a, s')) ∨
        ∃ e s₁, x s = some (.error e, s₁) ∧ h e s₁ = some (r, s') := by
  unfold catching
  cases hx : x s with
  | none => simp
  | some r₁ =>
    obtain ⟨res, s₁⟩ := r₁
    cases res <;> simp [eq_comm]

end Results

/-! ## What every outcome keeps -/

def Keeps (Q : σ → σ → Prop) (x : Mut ε σ α) : Prop :=
  ∀ ⦃s res s'⦄, x s = some (res, s') → Q s s'

section Keeps
variable {Q : σ → σ → Prop} [Std.Refl Q] [IsTrans σ Q] {x : Mut ε σ α} {f : α → Mut ε σ β}

omit [IsTrans σ Q] in
lemma keeps_pure (a : α) : Keeps Q (pure a : Mut ε σ α) := by
  intro s res s' h
  cases pure_eq.mp h
  exact Std.Refl.refl _

omit [IsTrans σ Q] in
lemma keeps_raise (e : ε) : Keeps Q (raise e : Mut ε σ α) := by
  intro s res s' h
  cases raise_eq.mp h
  exact Std.Refl.refl _

omit [Std.Refl Q] [IsTrans σ Q] in
lemma keeps_stuck : Keeps Q (stuck : Mut ε σ α) := fun _ _ _ h => (stuck_eq.mp h).elim

omit [Std.Refl Q] in
lemma Keeps.bind (hx : Keeps Q x) (hf : ∀ a, Keeps Q (f a)) : Keeps Q (x >>= f) := by
  intro s res s' h
  cases res with
  | ok b =>
    obtain ⟨a, s₁, h₁, h₂⟩ := bind_ok.mp h
    exact IsTrans.trans _ _ _ (hx h₁) (hf a h₂)
  | error e =>
    rcases bind_error.mp h with h | ⟨a, s₁, h₁, h₂⟩
    · exact hx h
    · exact IsTrans.trans _ _ _ (hx h₁) (hf a h₂)

end Keeps

/-! ## More fuel changes no result -/

def Le (x y : Mut ε σ α) : Prop := ∀ ⦃s r⦄, x s = some r → y s = some r

lemma Le.refl : Le x x := fun _ _ h => h

lemma Le.trans {x y z : Mut ε σ α} (h₁ : Le x y) (h₂ : Le y z) : Le x z := fun _ _ h => h₂ (h₁ h)

lemma stuck_le : Le stuck x := fun _ _ h => (stuck_eq.mp h).elim

lemma Le.bind {x y : Mut ε σ α} {f g : α → Mut ε σ β} (h : Le x y) (hf : ∀ a, Le (f a) (g a)) :
    Le (x >>= f) (y >>= g) := by
  intro s r hr
  obtain ⟨res, s'⟩ := r
  cases res with
  | ok b =>
    obtain ⟨a, s₁, h₁, h₂⟩ := bind_ok.mp hr
    exact bind_ok.mpr ⟨a, s₁, h h₁, hf a h₂⟩
  | error e =>
    rcases bind_error.mp hr with hr | ⟨a, s₁, h₁, h₂⟩
    · exact bind_error.mpr (Or.inl (h hr))
    · exact bind_error.mpr (Or.inr ⟨a, s₁, h h₁, hf a h₂⟩)

end Mut
end Takibi.Effect
