import Takibi.Page.FreeList

/-! What holds of the pool between operations, and what taking pages and giving them back does
to it. -/

namespace Takibi.Page
open Function Pool List

/-! ## Marks of a run -/

namespace Mark

def Free (m : Mark) : Prop := m.occupied = false ∧ m.owner = .unowned

instance (m : Mark) : Decidable m.Free := inferInstanceAs (Decidable (_ ∧ _))

def takenBy (tag : PageOwnerTag) (m : Mark) : Mark := ⟨true, tag, 0, m.physical⟩
def vacated (m : Mark) : Mark := ⟨false, .unowned, 0, m.physical⟩

lemma vacated_free (m : Mark) : m.vacated.Free := ⟨rfl, rfl⟩

lemma not_free_takenBy (tag : PageOwnerTag) (m : Mark) : ¬ (m.takenBy tag).Free := nofun

end Mark

def InRun (first count i : ℕ) : Prop := first ≤ i ∧ i < first + count

instance (first count i : ℕ) : Decidable (InRun first count i) := inferInstanceAs (Decidable (_ ∧ _))

def onRun (first count : ℕ) (f : Mark → Mark) (marks : ℕ → Mark) : ℕ → Mark := fun i =>
  if InRun first count i then f (marks i) else marks i

section Runs
variable {first count i : ℕ} {f : Mark → Mark} {marks : ℕ → Mark}

lemma onRun_of_mem (h : InRun first count i) : onRun first count f marks i = f (marks i) := if_pos h

lemma onRun_of_notMem (h : ¬ InRun first count i) : onRun first count f marks i = marks i :=
  if_neg h

lemma onRun_zero : onRun first 0 f marks = marks :=
  funext fun _ => if_neg fun h => by simp only [InRun] at h; omega

lemma inRun_succ : InRun first (count + 1) i ↔ InRun first count i ∨ i = first + count := by
  simp only [InRun]
  omega

lemma inRun_one : InRun first 1 i ↔ i = first := by
  simp only [InRun]
  omega

lemma onRun_succ : onRun first (count + 1) f marks =
    update (onRun first count f marks) (first + count) (f (marks (first + count))) := by
  funext i
  by_cases hi : i = first + count
  · rw [hi, update_self, onRun_of_mem (inRun_succ.mpr (.inr rfl))]
  · rw [update_of_ne hi]
    simp only [onRun, inRun_succ, hi, or_false]

lemma onRun_one : onRun first 1 f marks = update marks first (f (marks first)) := by
  rw [onRun_succ, onRun_zero, Nat.add_zero]

lemma onRun_last : onRun first count f marks (first + count) = marks (first + count) :=
  onRun_of_notMem fun h => by simp only [InRun] at h; omega

end Runs

/-! ## The invariant -/

def Listed (pool : Pool) : Prop :=
  ∃ l, OnList pool l ∧ ∀ i, i ∈ l ↔ i < pool.pageCount ∧ (pool.mark i).Free

structure Sound (pool : Pool) : Prop where
  geometry : Geometry pool
  listed : Listed pool
  placed : ∀ i < pool.pageCount, pool.placed i = true ↔ (pool.mark i).Free
  tagged : ∀ i < pool.pageCount, (pool.mark i).occupied = false →
    (pool.mark i).owner = .unowned ∨ (pool.mark i).owner = .unavailable
  counted : ∀ i < pool.pageCount, (pool.mark i).mapRefcount < 2 ^ 32

structure Reserves where
  total : ℕ
  byCpu : Cpu → ℕ
  active : Cpu → Bool
  overdrawn : Cpu → ℕ

def Pool.reserves (pool : Pool) : Reserves :=
  ⟨pool.reservedTotal, pool.reservedByCpu, pool.reserveActive, pool.reserveOverdrawn⟩

lemma Relinked.reserves {pool pool' : Pool} (h : Relinked pool pool') : pool'.reserves = pool.reserves := by
  rw [h.rest]
  rfl

lemma Relinked.placed {pool pool' : Pool} (h : Relinked pool pool') : pool'.placed = pool.placed := by
  rw [h.rest]

structure SameTables (pool pool' : Pool) : Prop where
  rest : pool' = { pool with
    nextGeneration := pool'.nextGeneration, runGeneration := pool'.runGeneration,
    doubleRemoveCount := pool'.doubleRemoveCount, reservedTotal := pool'.reservedTotal,
    reservedByCpu := pool'.reservedByCpu, reserveActive := pool'.reserveActive,
    reserveOverdrawn := pool'.reserveOverdrawn }

section Tables
variable {pool pool' : Pool} {l : List ℕ}

section
variable (h : SameTables pool pool')
include h

lemma SameTables.mark : pool'.mark = pool.mark := by
  rw [h.rest]
  rfl

lemma SameTables.layout : SameLayout pool pool' := by
  rw [h.rest]
  exact ⟨rfl, rfl, fun _ => rfl⟩

lemma SameTables.placed : pool'.placed = pool.placed := by
  rw [h.rest]

lemma SameTables.freeCount : pool'.freeCount = pool.freeCount := by
  rw [h.rest]

lemma SameTables.onList (hl : OnList pool l) : OnList pool' l := by
  rw [h.rest]
  exact ⟨hl.links, hl.count⟩

end

lemma Sound.same (hs : Sound pool) (h : SameTables pool pool') : Sound pool' where
  geometry := hs.geometry.same h.layout
  listed := by
    obtain ⟨l, hl, hmem⟩ := hs.listed
    refine ⟨l, h.onList hl, ?_⟩
    rw [h.mark, h.layout.pageCount]
    exact hmem
  placed := by
    rw [h.mark, h.layout.pageCount, h.placed]
    exact hs.placed
  tagged := by
    rw [h.mark, h.layout.pageCount]
    exact hs.tagged
  counted := by
    rw [h.mark, h.layout.pageCount]
    exact hs.counted

lemma reserveConsume_tables (pool : Pool) (cpu : Cpu) (count : ℕ) :
    SameTables pool (pool.reserveConsume cpu count) := by
  unfold reserveConsume
  split_ifs <;> exact ⟨rfl⟩

lemma reserveConsume_reserves (h : pool'.reserves = pool.reserves) (cpu : Cpu) (count : ℕ) :
    (pool'.reserveConsume cpu count).reserves = (pool.reserveConsume cpu count).reserves := by
  simp only [reserves, Reserves.mk.injEq] at h
  obtain ⟨htotal, hbyCpu, hactive, hoverdrawn⟩ := h
  unfold reserveConsume
  rw [hactive]
  by_cases hcpu : pool.reserveActive cpu = false
  · simp only [if_pos hcpu, reserves, htotal, hbyCpu, hactive, hoverdrawn]
  · simp only [if_neg hcpu, reserves, htotal, hbyCpu, hoverdrawn]

lemma countDoubleRemove_tables (pool : Pool) (n : ℕ) : SameTables pool (pool.countDoubleRemove n) := ⟨rfl⟩

end Tables

section Operations
variable {pool pool' : Pool} {l : List ℕ} {first count i : ℕ} {tag : PageOwnerTag}

variable {f : PageMeta → PageMeta}

lemma OnList.setMeta (h : OnList pool l)
    (hnext : ∀ m, (f m).nextFree = m.nextFree) (hprev : ∀ m, (f m).prevFree = m.prevFree) (i : ℕ) :
    OnList (pool.setMeta i f) l := by
  refine ⟨?_, h.count⟩
  rw [setMeta_next, setMeta_prev, hnext, hprev]
  exact h.links.congr (fun _ _ => congrFun (update_eq_self ..) _) fun _ _ =>
    congrFun (update_eq_self ..) _

lemma setMeta_layout (pool : Pool)
    (hf : ∀ m, (f m).physical = m.physical) (i : ℕ) : SameLayout pool (pool.setMeta i f) := by
  refine ⟨rfl, rfl, fun j => ?_⟩
  change (update pool.metas i _ j).physical = _
  by_cases hj : j = i
  · rw [hj, update_self, hf]
  · rw [update_of_ne hj]

lemma occupy_mark (m : PageMeta) : (occupy tag m).mark = m.mark.takenBy tag := rfl

lemma vacate_mark (m : PageMeta) : (vacate m).mark = m.mark.vacated := rfl

/-! ## Giving pages back -/

lemma Listed.releaseIndex (h : Listed pool) (hcap : pool.pageCount ≤ 0xFFFFFFFF)
    (hi : i < pool.pageCount) (htaken : ¬ (pool.mark i).Free) : Listed (pool.releaseIndex i) := by
  obtain ⟨l, hlist, hmem⟩ := h
  have hnew : i ∉ l := fun hil => htaken ((hmem i).mp hil).2
  have hvacated := hlist.setMeta (f := vacate) (fun _ => rfl) (fun _ => rfl) i
  have hrelinked := runtimeLinkHead_relinked (pool.setMeta i vacate) i
  refine ⟨i :: l, hvacated.linkHead hcap hi hnew, fun j => ?_⟩
  rw [Pool.releaseIndex, hrelinked.marks, hrelinked.pageCount, Pool.setMeta_mark, vacate_mark]
  by_cases hj : j = i
  · rw [hj, update_self]
    exact iff_of_true (mem_cons_self ..) ⟨hi, Mark.vacated_free _⟩
  · rw [update_of_ne hj, mem_cons, or_iff_right hj]
    exact hmem j

structure Released (pool pool' : Pool) (first count : ℕ) : Prop where
  layout : SameLayout pool pool'
  marks : pool'.mark = onRun first count Mark.vacated pool.mark
  placed : pool'.placed = pool.placed
  reserves : pool'.reserves = pool.reserves
  freeCount : pool'.freeCount = pool.freeCount + count

lemma releaseIndex_released (pool : Pool) (i : ℕ) : Released pool (pool.releaseIndex i) i 1 := by
  have hrelinked := runtimeLinkHead_relinked (pool.setMeta i vacate) i
  refine ⟨(setMeta_layout pool (f := vacate) (fun _ => rfl) i).trans hrelinked.layout, ?_, hrelinked.placed,
    hrelinked.reserves, rfl⟩
  rw [releaseIndex, hrelinked.marks, setMeta_mark, onRun_one]
  rfl

lemma Released.zero (pool : Pool) (first : ℕ) : Released pool pool first 0 :=
  ⟨.refl pool, onRun_zero.symm, rfl, rfl, rfl⟩

lemma Released.snoc {pool'' : Pool} (h : Released pool pool' first count)
    (h' : Released pool' pool'' (first + count) 1) : Released pool pool'' first (count + 1) := by
  refine ⟨h.layout.trans h'.layout, ?_, h'.placed.trans h.placed, h'.reserves.trans h.reserves, ?_⟩
  · rw [h'.marks, onRun_one, h.marks, onRun_last, onRun_succ]
  · rw [h'.freeCount, h.freeCount]
    omega

lemma Listed.runReleaseIndices (h : Listed pool) (hcap : pool.pageCount ≤ 0xFFFFFFFF)
    (hlt : ∀ k < count, first + k < pool.pageCount)
    (htaken : ∀ k < count, (pool.mark (first + k)).occupied = true) :
    Listed (pool.runReleaseIndices first count) ∧
      Released pool (pool.runReleaseIndices first count) first count := by
  induction count with
  | zero => exact ⟨h, .zero pool first⟩
  | succ count ih =>
    obtain ⟨hlisted, hreleased⟩ := ih (fun k hk => hlt k (by omega)) fun k hk => htaken k (by omega)
    set before := pool.runReleaseIndices first count with hbefore
    have hi : first + count < before.pageCount := by
      rw [hreleased.layout.pageCount]
      exact hlt count (by omega)
    have hmark : before.mark (first + count) = pool.mark (first + count) := by
      rw [hreleased.marks, onRun_last]
    have hoccupied : (before.mark (first + count)).occupied = true := by
      rw [hmark]
      exact htaken count (by omega)
    have hstep : pool.runReleaseIndices first (count + 1) = before.releaseIndex (first + count) := by
      have hoccupied' : (before.metas (first + count)).occupied = true := hoccupied
      rw [Pool.runReleaseIndices, ← hbefore, Pool.releaseRunIndex, if_pos hi, if_neg (by simp [hoccupied'])]
    rw [hstep]
    refine ⟨hlisted.releaseIndex ?_ hi fun hfree => ?_, hreleased.snoc (releaseIndex_released ..)⟩
    · rw [hreleased.layout.pageCount]
      exact hcap
    · rw [hfree.1] at hoccupied
      cases hoccupied

end Operations
end Takibi.Page
