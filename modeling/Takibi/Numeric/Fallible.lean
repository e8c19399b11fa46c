import Mathlib.Tactic

/-! Searches and maps over lists whose step may fail: what a success says. -/

namespace Takibi.Numeric
open Option

lemma mem_of_mapM {α β : Type} {f : α → Option β} {xs : List α} {ys : List β}
    (h : xs.mapM f = some ys) {y : β} (hy : y ∈ ys) : ∃ x ∈ xs, f x = some y := by
  induction xs generalizing ys with
  | nil =>
    rw [← some.inj h] at hy
    simp at hy
  | cons x xs ih =>
    simp only [List.mapM_cons, bind_eq_bind, bind_eq_some_iff, pure_def, some.injEq] at h
    obtain ⟨y', hy', ys', hys, rfl⟩ := h
    rcases List.mem_cons.mp hy with rfl | hm
    · exact ⟨x, List.mem_cons_self .., hy'⟩
    · obtain ⟨z, hz, hf⟩ := ih hys hm
      exact ⟨z, List.mem_cons_of_mem _ hz, hf⟩

lemma anyM_eq_true {α : Type} {p : α → Option Bool} {xs : List α}
    (h : xs.anyM p = some true) : ∃ x ∈ xs, p x = some true := by
  induction xs with
  | nil => simp at h
  | cons x xs ih =>
    simp only [List.anyM_cons, bind_eq_bind, bind_eq_some_iff, pure_def] at h
    obtain ⟨b, hb, hr⟩ := h
    cases b with
    | true => exact ⟨x, List.mem_cons_self .., hb⟩
    | false =>
      obtain ⟨y, hy, hp⟩ := ih hr
      exact ⟨y, List.mem_cons_of_mem _ hy, hp⟩

lemma findSomeM?_eq_some {α β : Type} {p : α → Option (Option β)} {xs : List α} {b : β}
    (h : xs.findSomeM? p = some (some b)) : ∃ x ∈ xs, p x = some (some b) := by
  induction xs with
  | nil => simp [List.findSomeM?] at h
  | cons x xs ih =>
    simp only [List.findSomeM?, bind_eq_bind, bind_eq_some_iff] at h
    obtain ⟨r, hr, hb⟩ := h
    cases r with
    | none =>
      obtain ⟨y, hy, hp⟩ := ih hb
      exact ⟨y, List.mem_cons_of_mem _ hy, hp⟩
    | some c =>
      simp only [pure_def, some.injEq] at hb
      exact ⟨x, List.mem_cons_self .., hb ▸ hr⟩

lemma bind_eq_ok {ε α β : Type} {x : Except ε α} {f : α → Except ε β} {b : β} :
    (x >>= f) = .ok b ↔ ∃ a, x = .ok a ∧ f a = .ok b := by
  cases x with
  | error e => exact ⟨nofun, fun ⟨_, h, _⟩ => nomatch h⟩
  | ok a => exact ⟨fun h => ⟨a, rfl, h⟩, fun ⟨_, ha, h⟩ => by cases ha; exact h⟩

end Takibi.Numeric
