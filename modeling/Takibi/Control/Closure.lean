import Takibi.Control.Settle

/-! Closing a property of the nodes of a finite graph under its edges, by rounds over the
nodes in a fixed order. Nodes carry data, which gives their edges and says whether they
have the property themselves. -/

namespace Takibi.Control.Closure
open List Finset
variable {κ α : Type*} [DecidableEq κ] (graph : List (κ × α)) (edges : α → Finset κ)
  (holds : α → Bool)

def visit (acc : Finset κ) (p : κ × α) : Finset κ :=
  if holds p.2 = true ∨ ∃ k ∈ edges p.2, k ∈ acc then insert p.1 acc else acc

def round (current : Finset κ) : Finset κ := graph.foldl (visit edges holds) current

def next (current : Finset κ) : Option (Finset κ) :=
  if round graph edges holds current = current then none
  else some (round graph edges holds current)

def close (seed : Finset κ) (fuel : Nat) : Option (Finset κ) :=
  settle (next graph edges holds) fuel seed

def Edge (k l : κ) : Prop := ∃ a, (k, a) ∈ graph ∧ l ∈ edges a
def Source (seed : Finset κ) (k : κ) : Prop := k ∈ seed ∨ ∃ a, (k, a) ∈ graph ∧ holds a = true

variable {graph edges holds} {seed current acc r : Finset κ} {k : κ} {ps : List (κ × α)}

lemma subset_visit (acc : Finset κ) (p : κ × α) : acc ⊆ visit edges holds acc p := by
  unfold visit
  split_ifs
  · exact subset_insert ..
  · exact Finset.Subset.refl acc

lemma subset_foldl (ps : List (κ × α)) : ∀ acc, acc ⊆ ps.foldl (visit edges holds) acc := by
  induction ps with
  | nil => exact fun acc => Finset.Subset.refl acc
  | cons p ps ih => exact fun acc => Finset.Subset.trans (subset_visit acc p) (ih _)

lemma subset_round (current : Finset κ) : current ⊆ round graph edges holds current :=
  subset_foldl graph current

lemma mem_foldl {a : α} (hp : (k, a) ∈ ps)
    (h : holds a = true ∨ ∃ l ∈ edges a, l ∈ current) : ∀ {acc}, current ⊆ acc →
    k ∈ ps.foldl (visit edges holds) acc := by
  induction ps with
  | nil => cases hp
  | cons p ps ih =>
    intro acc hacc
    rcases mem_cons.mp hp with rfl | hp
    · have hvisit : k ∈ visit edges holds acc (k, a) := by
        unfold visit
        rw [if_pos]
        · exact mem_insert_self ..
        · exact h.imp_right fun ⟨l, hl, hc⟩ => ⟨l, hl, hacc hc⟩
      exact subset_foldl ps _ hvisit
    · exact ih hp (Finset.Subset.trans hacc (subset_visit acc p))

lemma foldl_invariant {P : κ → Prop}
    (hstep : ∀ p ∈ ps, ∀ acc : Finset κ, (∀ k ∈ acc, P k) →
      (holds p.2 = true ∨ ∃ l ∈ edges p.2, l ∈ acc) → P p.1) :
    ∀ acc : Finset κ, (∀ k ∈ acc, P k) → ∀ k ∈ ps.foldl (visit edges holds) acc, P k := by
  induction ps with
  | nil => exact fun acc h => h
  | cons p ps ih =>
    intro acc hacc
    refine ih (fun q hq => hstep q (mem_cons_of_mem _ hq)) _ fun k hk => ?_
    unfold visit at hk
    split_ifs at hk with hp
    · rcases mem_insert.mp hk with rfl | hk
      · exact hstep p (mem_cons_self ..) acc hacc hp
      · exact hacc k hk
    · exact hacc k hk

lemma round_sound (h : ∀ k ∈ current, ∃ l, Relation.ReflTransGen (Edge graph edges) k l ∧
    Source graph holds seed l) :
    ∀ k ∈ round graph edges holds current, ∃ l, Relation.ReflTransGen (Edge graph edges) k l ∧
      Source graph holds seed l := by
  refine foldl_invariant (fun p hp acc hacc hcase => ?_) current h
  rcases hcase with hholds | ⟨l, hl, hmem⟩
  · exact ⟨p.1, .refl, .inr ⟨p.2, hp, hholds⟩⟩
  · obtain ⟨m, hlm, hm⟩ := hacc l hmem
    exact ⟨m, .head ⟨p.2, hp, hl⟩ hlm, hm⟩

lemma next_eq_some (h : next graph edges holds current = some r) :
    r = round graph edges holds current ∧ r ≠ current := by
  unfold next at h
  split_ifs at h with heq
  cases h
  exact ⟨rfl, heq⟩

lemma next_eq_none (h : next graph edges holds current = none) :
    round graph edges holds current = current := by
  unfold next at h
  split_ifs at h with heq
  exact heq

lemma round_subset (current : Finset κ) :
    round graph edges holds current ⊆ current ∪ (graph.map Prod.fst).toFinset := by
  intro k hk
  refine foldl_invariant (P := fun k => k ∈ current ∪ (graph.map Prod.fst).toFinset)
    (fun p hp _ _ _ => ?_) current (fun k hk => mem_union_left _ hk) k hk
  exact mem_union_right _ (mem_toFinset.mpr (mem_map_of_mem hp))

lemma close_total (graph : List (κ × α)) (edges : α → Finset κ) (holds : α → Bool)
    (seed : Finset κ) : ∃ r, close graph edges holds seed (graph.length + 1) = some r := by
  refine settle_of_measure (P := fun _ => True)
    (fun current => ((graph.map Prod.fst).toFinset \ current).card) ?_ trivial ?_
  · intro a b _ hab
    obtain ⟨rfl, hne⟩ := next_eq_some hab
    refine ⟨trivial, card_lt_card ?_⟩
    obtain ⟨k, hk, hka⟩ := exists_of_ssubset (lt_of_le_of_ne (subset_round a) hne.symm)
    have hkey : k ∈ (graph.map Prod.fst).toFinset :=
      (mem_union.mp (round_subset a hk)).resolve_left hka
    refine ssubset_iff_of_subset (sdiff_subset_sdiff (Finset.Subset.refl _)
      (subset_round a)) |>.mpr ⟨k, mem_sdiff.mpr ⟨hkey, hka⟩, fun hk' => ?_⟩
    exact (mem_sdiff.mp hk').2 hk
  · have hcard := (graph.map Prod.fst).toFinset_card_le
    have hsub := card_le_card (sdiff_subset (s := (graph.map Prod.fst).toFinset) (t := seed))
    rw [length_map] at hcard
    omega

lemma mem_close {fuel : Nat} (h : close graph edges holds seed fuel = some r) :
    k ∈ r ↔ ∃ l, Relation.ReflTransGen (Edge graph edges) k l ∧ Source graph holds seed l := by
  have hclosed := next_eq_none (settle_stable h)
  have hseed : seed ⊆ r := settle_invariant (P := fun c => seed ⊆ c)
    (fun a b ha hab => (next_eq_some hab).1 ▸ Finset.Subset.trans ha (subset_round a))
    (Finset.Subset.refl seed) h
  constructor
  · refine settle_invariant (P := fun c => ∀ k ∈ c, ∃ l, Relation.ReflTransGen (Edge graph edges)
      k l ∧ Source graph holds seed l) (fun a b ha hab => ?_) (fun k hk => ⟨k, .refl, .inl hk⟩) h k
    exact (next_eq_some hab).1 ▸ round_sound ha
  · rintro ⟨l, hkl, hl⟩
    -- along the path, from its end
    induction hkl using Relation.ReflTransGen.head_induction_on with
    | refl =>
      rcases hl with hl | ⟨a, ha, hholds⟩
      · exact hseed hl
      · rw [← hclosed]
        exact mem_foldl ha (.inl hholds) (Finset.Subset.refl r)
    | head hstep _ ih =>
      obtain ⟨a, ha, hedge⟩ := hstep
      rw [← hclosed]
      exact mem_foldl ha (.inr ⟨_, hedge, ih⟩) (Finset.Subset.refl r)

end Takibi.Control.Closure
