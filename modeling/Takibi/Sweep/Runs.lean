import Mathlib.Tactic
import Mathlib.Data.Finset.Sort

/-! Maximal runs of a predicate on the naturals, found by a sweep over the points at which it
may change. -/

namespace Takibi.Sweep
open List Nat
section Runs
variable (P : ℕ → Prop)

/-- `P` holds on all of `[a, b)`, which cannot be extended at either end. -/
structure IsRun (a b : ℕ) : Prop where
  lt : a < b
  holds : ∀ x, a ≤ x → x < b → P x
  left : ∀ x, x + 1 = a → ¬ P x
  right : ¬ P b

def ChangesAt (p : ℕ) (cs : List ℕ) : Prop := ∀ x, p ≤ x → x + 1 ∉ cs → (P (x + 1) ↔ P x)

def sweep [DecidablePred P] : List ℕ → Option ℕ → List (ℕ × ℕ)
  | [], _ => []
  | c :: cs, none => if P c then sweep cs (some c) else sweep cs none
  | c :: cs, some b => if P c then sweep cs (some b) else (b, c) :: sweep cs none

def OpenAt (p : ℕ) : Option ℕ → Prop
  | none => ¬ P p
  | some b => b ≤ p ∧ (∀ x, b ≤ x → x ≤ p → P x) ∧ ∀ x, x + 1 = b → ¬ P x

def start (p : ℕ) : Option ℕ → ℕ
  | none => p + 1
  | some b => b

end Runs

section Sweep
variable {P : ℕ → Prop} {p n a b c : ℕ} {cs : List ℕ} {o : Option ℕ}

lemma IsRun.eq_left (h : IsRun P a b) (hle : c ≤ a) (hholds : ∀ x, c ≤ x → x < a → P x) : a = c := by
  by_contra hne
  have hlast : P (a - 1) := hholds (a - 1) (by omega) (by omega)
  exact h.left (a - 1) (by omega) hlast

lemma IsRun.eq_right (h : IsRun P a b) (hlt : a < c) (hholds : ∀ x, a ≤ x → x < c → P x)
    (hc : ¬ P c) : b = c := by
  have hlt' := h.lt
  rcases lt_trichotomy b c with hbc | hbc | hbc
  · exact absurd (hholds b (by omega) hbc) h.right
  · exact hbc
  · exact absurd (h.holds c (by omega) hbc) hc

lemma ChangesAt.iff_of_lt (h : ChangesAt P p cs) (hcs : ∀ c ∈ cs, n ≤ c) {x : ℕ} (hp : p ≤ x)
    (hx : x < n) : P x ↔ P p := by
  induction x, hp using le_induction with
  | base => exact Iff.rfl
  | succ x hp ih =>
    have hnot : x + 1 ∉ cs := fun hmem => absurd (hcs _ hmem) (by omega)
    exact (h x hp hnot).trans (ih (by omega))

lemma ChangesAt.tail (h : ChangesAt P p (n :: cs)) (hp : p < n) : ChangesAt P n cs := by
  intro x hx hmem
  refine h x (by omega) fun hcons => ?_
  rcases mem_cons.mp hcons with heq | hcs
  · omega
  · exact hmem hcs

lemma ChangesAt.forall (h : ChangesAt P p []) {x : ℕ} (hp : p ≤ x) : P x ↔ P p :=
  h.iff_of_lt (by simp) hp (lt_succ_self x)

lemma OpenAt.extend (h : OpenAt P p o) (hchange : ChangesAt P p (n :: cs))
    (hsorted : (p :: n :: cs).Pairwise (· < ·)) {x : ℕ} (hp : p ≤ x) (hx : x < n) :
    OpenAt P x o := by
  have hcs : ∀ c ∈ n :: cs, n ≤ c := by
    intro c hc
    rcases mem_cons.mp hc with rfl | hc
    · exact le_rfl
    · exact (rel_of_pairwise_cons (pairwise_cons.mp hsorted).2 hc).le
  have hconst : ∀ y, p ≤ y → y < n → (P y ↔ P p) := fun y => hchange.iff_of_lt hcs
  cases o with
  | none => exact (hconst x hp hx).not.mpr h
  | some b =>
    obtain ⟨hb, hholds, hleft⟩ := h
    refine ⟨by omega, fun y hy hyx => ?_, hleft⟩
    by_cases hyp : y ≤ p
    · exact hholds y hy hyp
    · exact (hconst y (by omega) (by omega)).mpr (hholds p hb le_rfl)

lemma OpenAt.enter (h : OpenAt P p o) (hpn : p < n)
    (hbefore : ∀ x, p ≤ x → x < n → OpenAt P x o) (hn : P n) :
    OpenAt P n (some (o.getD n)) := by
  cases o with
  | none =>
    refine ⟨le_rfl, fun x hx hxn => ?_, fun x hx => hbefore x ?_ ?_⟩
    · rwa [le_antisymm hxn hx]
    all_goals
      have hxn : x + 1 = n := hx
      omega
  | some c =>
    obtain ⟨hc, -, hleft⟩ := h
    refine ⟨hc.trans hpn.le, fun x hx hxn => ?_, hleft⟩
    rcases hxn.lt_or_eq with hlt | rfl
    · exact (hbefore (max p x) (le_max_left ..) (max_lt hpn hlt)).2.1 x hx (le_max_right ..)
    · exact hn

lemma IsRun.skip (hrun : IsRun P a b) (hbefore : ∀ x, p ≤ x → x < n → ¬ P x) (ha : p + 1 ≤ a) : n ≤ a := by
  by_contra hlt
  exact hbefore a (by omega) (by omega) (hrun.holds a le_rfl hrun.lt)

lemma IsRun.ne_left (hrun : IsRun P a b) (hn : ¬ P n) : n ≠ a := by
  rintro rfl
  exact hn (hrun.holds n le_rfl hrun.lt)

lemma IsRun.first_iff (hcn : IsRun P c n) :
    IsRun P a b ∧ c ≤ a ↔ (a, b) = (c, n) ∨ IsRun P a b ∧ n + 1 ≤ a := by
  have hlt := hcn.lt
  constructor
  · rintro ⟨hrun, hca⟩
    by_cases han : a < n
    · obtain rfl := hrun.eq_left hca fun x hx hxa => hcn.holds x hx (by omega)
      obtain rfl := hrun.eq_right han hcn.holds hcn.right
      exact .inl rfl
    · have hne := hrun.ne_left hcn.right
      exact .inr ⟨hrun, by omega⟩
  · rintro (heq | ⟨hrun, hna⟩)
    · cases heq
      exact ⟨hcn, le_rfl⟩
    · exact ⟨hrun, by omega⟩

lemma mem_sweep [DecidablePred P] (hsorted : (p :: cs).Pairwise (· < ·))
    (hchange : ChangesAt P p cs) (hopen : OpenAt P p o) (a b : ℕ) :
    (a, b) ∈ sweep P cs o ↔ IsRun P a b ∧ start p o ≤ a := by
  induction cs generalizing p o with
  | nil =>
    refine iff_of_false not_mem_nil ?_
    rintro ⟨hrun, hstart⟩
    have hlt := hrun.lt
    cases o with
    | none =>
      have hle : p + 1 ≤ a := hstart
      exact hopen ((hchange.forall (by omega)).mp (hrun.holds a le_rfl hlt))
    | some c =>
      obtain ⟨hc, hholds, -⟩ := hopen
      have hle : c ≤ a := hstart
      refine hrun.right ?_
      by_cases hbp : b ≤ p
      · exact hholds b (by omega) hbp
      · exact (hchange.forall (by omega)).mpr (hholds p hc le_rfl)
  | cons n cs ih =>
    have hpn : p < n := (pairwise_cons.mp hsorted).1 n (mem_cons_self ..)
    have hsorted' := (pairwise_cons.mp hsorted).2
    have hchange' := hchange.tail hpn
    -- what is open just before `n`
    have hbefore := fun x (hp : p ≤ x) (hx : x < n) => hopen.extend hchange hsorted hp hx
    by_cases hn : P n
    · have hrest := ih hsorted' hchange' (hopen.enter hpn hbefore hn)
      cases o with
      | none =>
        rw [sweep, if_pos hn]
        refine hrest.trans (and_congr_right fun hrun => ⟨fun h => ?_, hrun.skip hbefore⟩)
        exact (succ_le_of_lt hpn).trans h
      | some c =>
        rw [sweep, if_pos hn]
        exact hrest
    · have hrest := ih hsorted' hchange' (show OpenAt P n none from hn)
      cases o with
      | none =>
        rw [sweep, if_neg hn]
        refine hrest.trans (and_congr_right fun hrun => ⟨fun h => ?_, fun h => ?_⟩)
        · exact (succ_le_of_lt hpn).trans ((le_succ n).trans h)
        · exact succ_le_of_lt (lt_of_le_of_ne (hrun.skip hbefore h) (hrun.ne_left hn))
      | some c =>
        have hholds : ∀ x, c ≤ x → x < n → P x := fun x hx hxn =>
          (hbefore (max p x) (le_max_left ..) (max_lt hpn hxn)).2.1 x hx (le_max_right ..)
        have hcn : IsRun P c n := ⟨hopen.1.trans_lt hpn, hholds, hopen.2.2, hn⟩
        rw [sweep, if_neg hn, mem_cons, hrest]
        exact hcn.first_iff.symm

lemma openAt_first [DecidablePred P] (hbelow : ∀ x < p, ¬ P x) :
    OpenAt P p (if P p then some p else none) := by
  split_ifs with hp
  · refine ⟨le_rfl, fun x hx hxp => ?_, fun x hx => hbelow x (by omega)⟩
    rwa [le_antisymm hxp hx]
  · exact hp

lemma sweep_first [DecidablePred P] : sweep P (p :: cs) none = sweep P cs (if P p then some p else none) := by
  rw [sweep]
  split_ifs <;> rfl

lemma mem_sweep_first [DecidablePred P] (hsorted : (p :: cs).Pairwise (· < ·))
    (hchange : ChangesAt P p cs) (hbelow : ∀ x < p, ¬ P x) (a b : ℕ) :
    (a, b) ∈ sweep P (p :: cs) none ↔ IsRun P a b := by
  rw [sweep_first, mem_sweep hsorted hchange (openAt_first hbelow)]
  refine and_iff_left_of_imp fun hrun => ?_
  have hle : p ≤ a := by
    by_contra hlt
    exact hbelow a (by omega) (hrun.holds a le_rfl hrun.lt)
  split_ifs with hp
  · exact hle
  · exact succ_le_of_lt (lt_of_le_of_ne hle (hrun.ne_left hp))

lemma length_sweep_le (P : ℕ → Prop) [DecidablePred P] (cs : List ℕ) (o : Option ℕ) :
    (sweep P cs o).length ≤ cs.length := by
  induction cs generalizing o with
  | nil => exact Nat.le_refl 0
  | cons n cs ih =>
    have hnone := ih none
    cases o with
    | none =>
      have hsome := ih (some n)
      simp only [sweep, length_cons]
      split_ifs <;> omega
    | some c =>
      have hsome := ih (some c)
      simp only [sweep, length_cons]
      split_ifs
      · omega
      · simp only [length_cons]
        omega

lemma pairwise_sweep [DecidablePred P] (hsorted : (p :: cs).Pairwise (· < ·))
    (hchange : ChangesAt P p cs) (hopen : OpenAt P p o) :
    (sweep P cs o).Pairwise fun I J => I.2 < J.1 := by
  induction cs generalizing p o with
  | nil => exact List.Pairwise.nil
  | cons n cs ih =>
    have hpn : p < n := (pairwise_cons.mp hsorted).1 n (mem_cons_self ..)
    have hsorted' := (pairwise_cons.mp hsorted).2
    have hchange' := hchange.tail hpn
    have hbefore := fun x (hp : p ≤ x) (hx : x < n) => hopen.extend hchange hsorted hp hx
    by_cases hn : P n
    · have hopen' := hopen.enter hpn hbefore hn
      cases o with
      | none | some c =>
        rw [sweep, if_pos hn]
        exact ih hsorted' hchange' hopen'
    · have hclosed : OpenAt P n none := hn
      cases o with
      | none =>
        rw [sweep, if_neg hn]
        exact ih hsorted' hchange' hclosed
      | some c =>
        rw [sweep, if_neg hn]
        refine pairwise_cons.mpr ⟨fun J hJ => ?_, ih hsorted' hchange' hclosed⟩
        exact ((mem_sweep hsorted' hchange' hclosed J.1 J.2).mp hJ).2

lemma pairwise_sweep_first [DecidablePred P] (hsorted : (p :: cs).Pairwise (· < ·))
    (hchange : ChangesAt P p cs) (hbelow : ∀ x < p, ¬ P x) :
    (sweep P (p :: cs) none).Pairwise fun I J => I.2 < J.1 := by
  rw [sweep_first]
  exact pairwise_sweep hsorted hchange (openAt_first hbelow)

end Sweep

/-! ## The points of a finite set -/

section Breaks
variable (E : Finset ℕ) {p n : ℕ}

def breaks (p : ℕ) : List ℕ := (E.filter (p < ·)).sort (· ≤ ·)

variable {E}

lemma mem_breaks : n ∈ breaks E p ↔ n ∈ E ∧ p < n := by
  rw [breaks, Finset.mem_sort, Finset.mem_filter]

lemma pairwise_breaks : (p :: breaks E p).Pairwise (· < ·) :=
  pairwise_cons.mpr ⟨fun _ h => (mem_breaks.mp h).2, (Finset.sortedLT_sort _).pairwise⟩

lemma length_breaks_lt (h : p ∈ E) : (breaks E p).length < E.card := by
  rw [breaks, Finset.length_sort]
  refine Finset.card_lt_card ⟨Finset.filter_subset .., fun hsub => ?_⟩
  exact lt_irrefl p (Finset.mem_filter.mp (hsub h)).2

lemma breaks_of_forall_le (h : ∀ m ∈ E, m ≤ p) : breaks E p = [] := by
  rw [breaks, Finset.filter_eq_empty_iff.mpr fun m hm => not_lt.mpr (h m hm)]
  exact Finset.sort_empty _

lemma breaks_eq_cons (hn : n ∈ E) (hp : p < n) (hnext : ∀ m ∈ E, p < m → n ≤ m) :
    breaks E p = n :: breaks E n := by
  have hfilter : E.filter (p < ·) = insert n (E.filter (n < ·)) := by
    ext m
    simp only [Finset.mem_filter, Finset.mem_insert]
    constructor
    · rintro ⟨hm, hpm⟩
      rcases (hnext m hm hpm).lt_or_eq with hlt | heq
      · exact .inr ⟨hm, hlt⟩
      · exact .inl heq.symm
    · rintro (rfl | ⟨hm, hlt⟩)
      · exact ⟨hn, hp⟩
      · exact ⟨hm, hp.trans hlt⟩
  have hleast : ∀ m ∈ E.filter (n < ·), n ≤ m := fun m hm => (Finset.mem_filter.mp hm).2.le
  have hfresh : n ∉ E.filter (n < ·) := fun h => lt_irrefl n (Finset.mem_filter.mp h).2
  rw [breaks, hfilter, Finset.sort_insert (· ≤ ·) hleast hfresh]
  rfl

end Breaks
end Takibi.Sweep
