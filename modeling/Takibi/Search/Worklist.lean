import Mathlib.Logic.Relation
import Mathlib.Tactic

/-! Depth-first search with a worklist and a list of the nodes seen, in a graph
in which finitely many nodes have successors. -/

namespace Takibi.Search
open List

structure Graph (σ : Type) where
  next : σ → List σ
  inner : List σ
  next_of_notMem : ∀ n, n ∉ inner → next n = []

namespace Graph
variable {σ : Type} (g : Graph σ)

def Steps (n m : σ) : Prop := m ∈ g.next n

variable [DecidableEq σ]

def unseen (seen : List σ) : Nat := g.inner.countP fun n => decide (n ∉ seen)

lemma unseen_cons_le (n : σ) (seen : List σ) : g.unseen (n :: seen) ≤ g.unseen seen := by
  apply countP_mono_left
  intro m _ hm
  simp only [mem_cons, not_or, decide_eq_true_eq] at hm ⊢
  exact hm.2

lemma unseen_cons_lt {n : σ} {seen : List σ} (hn : n ∈ g.inner) (hs : n ∉ seen) :
    g.unseen (n :: seen) < g.unseen seen := by
  obtain ⟨before, after, hsplit⟩ := append_of_mem hn
  unfold unseen
  rw [hsplit, countP_append, countP_append, countP_cons_of_neg (by simp),
    countP_cons_of_pos (by simpa using hs)]
  have hle : ∀ l : List σ, l.countP (fun m => decide (m ∉ n :: seen)) ≤
      l.countP fun m => decide (m ∉ seen) := by
    intro l
    apply countP_mono_left
    intro m _ hm
    simp only [mem_cons, not_or, decide_eq_true_eq] at hm ⊢
    exact hm.2
  have hb := hle before
  have ha := hle after
  omega

def visit (hit : σ → Bool) : List σ → List σ → Bool
  | _, [] => false
  | seen, n :: rest =>
    if hit n then true
    else if n ∈ seen then visit hit seen rest
    else visit hit (n :: seen) (g.next n ++ rest)
termination_by seen work => (g.unseen seen, work.length)
decreasing_by
  · exact Prod.Lex.right _ (by simp)
  · rename_i hseen
    by_cases hn : n ∈ g.inner
    · exact Prod.Lex.left _ _ (g.unseen_cons_lt hn hseen)
    · -- a node without successors leaves a shorter worklist
      rw [g.next_of_notMem n hn, nil_append]
      rcases (g.unseen_cons_le n seen).lt_or_eq with hlt | heq
      · exact Prod.Lex.left _ _ hlt
      · rw [heq]
        exact Prod.Lex.right _ (by simp)

variable {g} {hit : σ → Bool}

lemma visit_sound {seen work : List σ} (h : g.visit hit seen work = true) :
    ∃ n ∈ work, ∃ m, Relation.ReflTransGen g.Steps n m ∧ hit m = true := by
  fun_induction Graph.visit with
  | case1 seen => simp at h
  | case2 seen n rest hn => exact ⟨n, mem_cons_self .., n, .refl, hn⟩
  | case3 seen n rest _ _ ih =>
    obtain ⟨k, hk, hpath⟩ := ih h
    exact ⟨k, mem_cons_of_mem _ hk, hpath⟩
  | case4 seen n rest _ _ ih =>
    obtain ⟨k, hk, m, hpath, hm⟩ := ih h
    rcases mem_append.mp hk with hk | hk
    · exact ⟨n, mem_cons_self .., m, .head hk hpath, hm⟩
    · exact ⟨k, mem_cons_of_mem _ hk, m, hpath, hm⟩

structure Frontier (g : Graph σ) (hit : σ → Bool) (seen work : List σ) : Prop where
  miss : ∀ n ∈ seen, hit n = false
  closed : ∀ n ∈ seen, ∀ m ∈ g.next n, m ∈ seen ∨ m ∈ work

lemma exists_closed_of_visit_eq_false {seen work : List σ} (hf : Frontier g hit seen work)
    (h : g.visit hit seen work = false) :
    ∃ all : List σ, seen ⊆ all ∧ work ⊆ all ∧ Frontier g hit all [] := by
  fun_induction Graph.visit with
  | case1 seen => exact ⟨seen, List.Subset.refl _, nil_subset _, hf⟩
  | case2 seen n rest hn => simp at h
  | case3 seen n rest _ hseen ih =>
    obtain ⟨all, hs, hw, hall⟩ := ih ⟨hf.miss, fun k hk m hm => by
      rcases hf.closed k hk m hm with hm | hm
      · exact Or.inl hm
      · rcases mem_cons.mp hm with rfl | hm
        · exact Or.inl hseen
        · exact Or.inr hm⟩ h
    exact ⟨all, hs, cons_subset.mpr ⟨hs hseen, hw⟩, hall⟩
  | case4 seen n rest hn _ ih =>
    obtain ⟨all, hs, hw, hall⟩ := ih ⟨fun k hk => by
      rcases mem_cons.mp hk with rfl | hk
      · simpa using hn
      · exact hf.miss k hk, fun k hk m hm => by
      rcases mem_cons.mp hk with rfl | hk
      · exact Or.inr (mem_append_left _ hm)
      · rcases hf.closed k hk m hm with hm | hm
        · exact Or.inl (mem_cons_of_mem _ hm)
        · rcases mem_cons.mp hm with rfl | hm
          · exact Or.inl (mem_cons_self ..)
          · exact Or.inr (mem_append_right _ hm)⟩ h
    obtain ⟨hmem, hs⟩ := cons_subset.mp hs
    exact ⟨all, hs, cons_subset.mpr ⟨hmem, (append_subset.mp hw).2⟩, hall⟩

omit [DecidableEq σ] in
lemma Frontier.not_hit {all : List σ} (h : Frontier g hit all []) {n m : σ} (hn : n ∈ all)
    (hpath : Relation.ReflTransGen g.Steps n m) : hit m = false := by
  have hm : m ∈ all := by
    induction hpath with
    | refl => exact hn
    | tail _ hstep ih =>
      rcases h.closed _ ih _ hstep with hm | hm
      · exact hm
      · simp at hm
  exact h.miss m hm

lemma visit_iff {work : List σ} : g.visit hit [] work = true ↔
      ∃ n ∈ work, ∃ m, Relation.ReflTransGen g.Steps n m ∧ hit m = true := by
  refine ⟨visit_sound, fun ⟨n, hn, m, hpath, hm⟩ => ?_⟩
  by_contra hfalse
  have hstart : Frontier g hit [] work := ⟨by simp, by simp⟩
  obtain ⟨all, -, hw, hall⟩ := exists_closed_of_visit_eq_false hstart (by simpa using hfalse)
  rw [hall.not_hit (hw hn) hpath] at hm
  simp at hm

end Graph
end Takibi.Search
