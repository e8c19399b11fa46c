import Mathlib.Algebra.MvPolynomial.Eval
import Mathlib.Data.Finsupp.Multiset
import Mathlib.Data.List.Lex
import Mathlib.Data.List.Sort
import Mathlib.Tactic

/-! Sparse polynomials as sorted lists of monomials with coefficients. A
monomial is the sorted list of its factors, one entry for each power. -/

namespace Takibi.Numeric.SparsePoly
open List

abbrev Poly (κ R : Type*) := List (List κ × R)

section Value
variable {κ R S : Type*} [CommRing S]

def value (φ : R → S) (ρ : κ → S) (p : Poly κ R) : S :=
  (p.map fun q => φ q.2 * (q.1.map ρ).prod).sum

variable {φ : R → S} {ρ : κ → S}

@[simp] lemma value_nil : value φ ρ [] = 0 := rfl

@[simp] lemma value_cons (q : List κ × R) (p : Poly κ R) :
    value φ ρ (q :: p) = φ q.2 * (q.1.map ρ).prod + value φ ρ p := by
  simp [value]

lemma value_append (p q : Poly κ R) : value φ ρ (p ++ q) = value φ ρ p + value φ ρ q := by
  simp [value]

lemma value_filter_add (t : List κ × R → Bool) (p : Poly κ R) :
    value φ ρ p = value φ ρ (p.filter t) + value φ ρ (p.filter fun q => !t q) := by
  induction p with
  | nil => simp
  | cons q p ih =>
    cases hq : t q <;> simp only [filter_cons, hq, value_cons, ih, Bool.not_true,
      Bool.not_false, if_true, Bool.false_eq_true, if_false] <;> ring

lemma value_map_coeff {T : Type*} (g : R → T) {φ' : T → S} {p : Poly κ R} {c : S}
    (h : ∀ q ∈ p, φ' (g q.2) = c * φ q.2) :
    value φ' ρ (p.map fun q => (q.1, g q.2)) = c * value φ ρ p := by
  induction p with
  | nil => simp
  | cons q p ih =>
    rw [map_cons, value_cons, value_cons, h q (mem_cons_self ..), ih fun r hr => h r (mem_cons_of_mem _ hr)]
    ring

lemma value_congr {ρ' : κ → S} {p : Poly κ R} (h : ∀ q ∈ p, ∀ k ∈ q.1, ρ k = ρ' k) :
    value φ ρ p = value φ ρ' p := by
  induction p with
  | nil => rfl
  | cons q p ih =>
    rw [value_cons, value_cons, ih fun r hr => h r (mem_cons_of_mem _ hr),
      map_congr_left (h q (mem_cons_self ..))]

lemma map_value {T : Type*} [CommRing T] (f : S →+* T) (p : Poly κ R) :
    f (value φ ρ p) = value (f ∘ φ) (f ∘ ρ) p := by
  induction p with
  | nil => simp
  | cons q p ih =>
    simp only [value_cons, map_add, map_mul, ih, map_list_prod, map_map, Function.comp_apply]

end Value

variable {κ R : Type*} [LinearOrder κ] [CommRing R]

def addTerm (m : List κ) (c : R) : Poly κ R → Poly κ R
  | [] => [(m, c)]
  | (m', d) :: p =>
    if m < m' then (m, c) :: (m', d) :: p
    else if m = m' then (m', d + c) :: p
    else (m', d) :: addTerm m c p

variable [DecidableEq R] {m : List κ} {q : List κ × R}

def norm (p : Poly κ R) : Poly κ R :=
  (p.foldl (fun tbl q => addTerm q.1 q.2 tbl) []).filter fun q => q.2 ≠ 0

def neg (p : Poly κ R) : Poly κ R := p.map fun q => (q.1, -q.2)

def mul (p q : Poly κ R) : Poly κ R :=
  norm (p.flatMap fun a => q.map fun b => ((a.1 ++ b.1).insertionSort (· ≤ ·), a.2 * b.2))

section Ring
variable {S : Type*} [CommRing S] {φ : R →+* S} {ρ : κ → S}

omit [DecidableEq R] in
lemma value_addTerm (m : List κ) (c : R) (p : Poly κ R) :
    value φ ρ (addTerm m c p) = φ c * (m.map ρ).prod + value φ ρ p := by
  induction p with
  | nil => simp [addTerm]
  | cons q p ih =>
    unfold addTerm
    split_ifs with hlt heq
    · simp only [value_cons]
    · simp only [value_cons, map_add, heq]
      ring
    · simp only [value_cons, ih]
      ring

lemma value_norm (p : Poly κ R) : value φ ρ (norm p) = value φ ρ p := by
  have hfold : ∀ tbl : Poly κ R, value φ ρ (p.foldl (fun tbl q => addTerm q.1 q.2 tbl) tbl) =
      value φ ρ tbl + value φ ρ p := by
    induction p with
    | nil => simp
    | cons q p ih =>
      intro tbl
      rw [foldl_cons, ih, value_addTerm, value_cons]
      ring
  have hdrop : ∀ q : Poly κ R, value φ ρ (q.filter fun r => r.2 ≠ 0) = value φ ρ q := by
    intro q
    induction q with
    | nil => simp
    | cons r q ih =>
      by_cases hr : r.2 = 0
      · simpa [hr] using ih
      · simpa [hr] using ih
  rw [norm, hdrop, hfold, value_nil, zero_add]

omit [LinearOrder κ] [DecidableEq R] in
lemma value_neg (p : Poly κ R) : value φ ρ (neg p) = -value φ ρ p := by
  rw [neg, value_map_coeff (fun c : R => -c) (φ := φ) (c := -1) fun q _ => by simp, neg_one_mul]

lemma value_mul (p q : Poly κ R) : value φ ρ (mul p q) = value φ ρ p * value φ ρ q := by
  have hrow : ∀ a : List κ × R, value φ ρ (q.map fun b =>
      ((a.1 ++ b.1).insertionSort (· ≤ ·), a.2 * b.2)) = φ a.2 * (a.1.map ρ).prod * value φ ρ q := by
    intro a
    induction q with
    | nil => simp
    | cons b q ih =>
      have hsort := ((perm_insertionSort (· ≤ ·) (a.1 ++ b.1)).map ρ).prod_eq
      simp only [map_cons, value_cons, ih, hsort, map_append, prod_append, map_mul]
      ring
  rw [mul, value_norm]
  induction p with
  | nil => simp
  | cons a p ih =>
    rw [flatMap_cons, value_append, ih, hrow, value_cons]
    ring

end Ring

structure Normal (p : Poly κ R) : Prop where
  keys : p.Pairwise fun a b => a.1 < b.1
  sorted : ∀ q ∈ p, q.1.Pairwise (· ≤ ·)

section Normal

omit [DecidableEq R]

variable {p : Poly κ R}

lemma mem_addTerm {c : R} (h : q ∈ addTerm m c p) : q.1 = m ∨ ∃ r ∈ p, r.1 = q.1 := by
  induction p with
  | nil => simp_all [addTerm]
  | cons r p ih =>
    unfold addTerm at h
    split_ifs at h with hlt heq
    · rcases mem_cons.mp h with rfl | h
      · exact Or.inl rfl
      · exact Or.inr ⟨q, h, rfl⟩
    · rcases mem_cons.mp h with rfl | h
      · exact Or.inl heq.symm
      · exact Or.inr ⟨q, mem_cons_of_mem _ h, rfl⟩
    · rcases mem_cons.mp h with rfl | h
      · exact Or.inr ⟨r, mem_cons_self .., rfl⟩
      · rcases ih h with hm | ⟨s, hs, hq⟩
        · exact Or.inl hm
        · exact Or.inr ⟨s, mem_cons_of_mem _ hs, hq⟩

lemma addTerm_keys {c : R} (h : p.Pairwise fun a b => a.1 < b.1) :
    (addTerm m c p).Pairwise fun a b => a.1 < b.1 := by
  induction p with
  | nil => simp [addTerm]
  | cons r p ih =>
    have hr := pairwise_cons.mp h
    unfold addTerm
    split_ifs with hlt heq
    · refine pairwise_cons.mpr ⟨fun a ha => ?_, h⟩
      rcases mem_cons.mp ha with rfl | ha
      · exact hlt
      · exact hlt.trans (hr.1 a ha)
    · exact pairwise_cons.mpr ⟨hr.1, hr.2⟩
    · refine pairwise_cons.mpr ⟨fun a ha => ?_, ih hr.2⟩
      rcases mem_addTerm ha with hm | ⟨s, hs, hq⟩
      · rw [hm]
        exact lt_of_le_of_ne (not_lt.mp hlt) (Ne.symm heq)
      · rw [← hq]
        exact hr.1 s hs

lemma Normal.addTerm {c : R} (h : Normal p) (hm : m.Pairwise (· ≤ ·)) :
    Normal (SparsePoly.addTerm m c p) := by
  refine ⟨addTerm_keys h.keys, fun q hq => ?_⟩
  rcases mem_addTerm hq with hq | ⟨r, hr, hq⟩
  · rwa [hq]
  · rw [← hq]
    exact h.sorted r hr

lemma normal_norm [DecidableEq R] (h : ∀ q ∈ p, q.1.Pairwise (· ≤ ·)) : Normal (norm p) := by
  have hfold : ∀ tbl : Poly κ R, Normal tbl →
      Normal (p.foldl (fun tbl q => SparsePoly.addTerm q.1 q.2 tbl) tbl) := by
    induction p with
    | nil => exact fun tbl ht => ht
    | cons q p ih =>
      intro tbl ht
      exact ih (fun r hr => h r (mem_cons_of_mem _ hr)) _ (ht.addTerm (h q (mem_cons_self ..)))
  have hn := hfold [] ⟨List.Pairwise.nil, by simp⟩
  exact ⟨hn.keys.filter _, fun q hq => hn.sorted q (mem_of_mem_filter hq)⟩

lemma normal_mul [DecidableEq R] (p q : Poly κ R) : Normal (mul p q) := by
  refine normal_norm fun r hr => ?_
  obtain ⟨a, _, hr⟩ := mem_flatMap.mp hr
  obtain ⟨b, _, rfl⟩ := mem_map.mp hr
  exact pairwise_insertionSort (· ≤ ·) _

omit [CommRing R] in
lemma Normal.filter_key (h : Normal p) (hq : q ∈ p) : p.filter (fun r => decide (r.1 = q.1)) = [q] := by
  induction p with
  | nil => simp at hq
  | cons r p ih =>
    have hkeys := pairwise_cons.mp h.keys
    have hn : Normal p := ⟨hkeys.2, fun r hr => h.sorted r (mem_cons_of_mem _ hr)⟩
    rcases mem_cons.mp hq with rfl | hq
    · rw [filter_cons_of_pos (by simp), filter_eq_nil_iff.mpr]
      intro s hs
      simpa using (hkeys.1 s hs).ne'
    · rw [filter_cons_of_neg (by simpa using (hkeys.1 q hq).ne), ih hn hq]

end Normal

section Factors

def Over (F : κ → Prop) (p : Poly κ R) : Prop := ∀ q ∈ p, ∀ k ∈ q.1, F k

variable {F : κ → Prop} {p q : Poly κ R}

omit [LinearOrder κ] [CommRing R] [DecidableEq R] in
lemma Over.append (hp : Over F p) (hq : Over F q) : Over F (p ++ q) := by
  intro r hr
  rcases mem_append.mp hr with hr | hr
  · exact hp r hr
  · exact hq r hr

omit [LinearOrder κ] [DecidableEq R] in
lemma Over.neg (hp : Over F p) : Over F (neg p) := by
  intro r hr
  obtain ⟨r', hr', rfl⟩ := mem_map.mp hr
  exact hp r' hr'

lemma Over.norm (hp : Over F p) : Over F (norm p) := by
  have hfold : ∀ tbl : Poly κ R, Over F tbl → Over F (p.foldl (fun tbl q => addTerm q.1 q.2 tbl) tbl) := by
    induction p with
    | nil => exact fun tbl ht => ht
    | cons a p ih =>
      intro tbl ht
      refine ih (fun r hr => hp r (mem_cons_of_mem _ hr)) _ fun r hr => ?_
      rcases mem_addTerm hr with hr | ⟨s, hs, hr⟩
      · rw [hr]
        exact hp a (mem_cons_self ..)
      · rw [← hr]
        exact ht s hs
  exact fun r hr => hfold [] (fun r hr => by simp at hr) r (mem_of_mem_filter hr)

lemma Over.mul (hp : Over F p) (hq : Over F q) : Over F (mul p q) := by
  refine Over.norm fun r hr k hk => ?_
  obtain ⟨a, ha, hr⟩ := mem_flatMap.mp hr
  obtain ⟨b, hb, rfl⟩ := mem_map.mp hr
  rcases mem_append.mp ((mem_insertionSort (· ≤ ·)).mp hk) with hk | hk
  · exact hp a ha k hk
  · exact hq b hb k hk

end Factors

section Coefficients
open MvPolynomial
variable {σ S : Type*} [DecidableEq σ] [CommRing S] (e : κ → σ)

noncomputable def expo (m : List κ) : σ →₀ ℕ := Multiset.toFinsupp (m.map e : Multiset σ)

omit [LinearOrder κ] in
lemma prod_X (m : List κ) : (m.map fun k => (X (e k) : MvPolynomial σ S)).prod = monomial (expo e m) 1 := by
  induction m with
  | nil => simp [expo]
  | cons k m ih =>
    rw [map_cons, prod_cons, ih, X, monomial_mul, one_mul]
    congr 1
    rw [expo, expo, map_cons, ← Multiset.cons_coe, ← Multiset.singleton_add, map_add,
      Multiset.toFinsupp_singleton]

lemma expo_injOn (he : Function.Injective e) {m' : List κ} (hm : m.Pairwise (· ≤ ·))
    (hm' : m'.Pairwise (· ≤ ·)) (h : expo e m = expo e m') : m = m' := by
  have hperm := Multiset.coe_eq_coe.mp (Multiset.toFinsupp.injective h)
  exact ((map_perm_map_iff he).mp hperm).eq_of_pairwise
    (fun a b _ _ hab hba => le_antisymm hab hba) hm hm'

omit [LinearOrder κ] [CommRing R] [DecidableEq R] in
lemma coeff_value_cons (φ : R → S) (q : List κ × R) (p : Poly κ R) (s : σ →₀ ℕ) :
    coeff s (value (fun c => C (φ c)) (fun k => X (e k)) (q :: p)) =
      (if expo e q.1 = s then φ q.2 else 0) +
        coeff s (value (fun c => C (φ c)) (fun k => X (e k)) p) := by
  rw [value_cons, coeff_add, prod_X, C_mul_monomial, mul_one, coeff_monomial]

omit [LinearOrder κ] [CommRing R] [DecidableEq R] in
lemma coeff_value_of_forall_ne (φ : R → S) {p : Poly κ R} {s : σ →₀ ℕ}
    (h : ∀ q ∈ p, expo e q.1 ≠ s) :
    coeff s (value (fun c => C (φ c)) (fun k => X (e k)) p) = 0 := by
  induction p with
  | nil => simp
  | cons q p ih =>
    rw [coeff_value_cons, if_neg (h q (mem_cons_self ..)),
      ih fun r hr => h r (mem_cons_of_mem _ hr), add_zero]

omit [CommRing R] [DecidableEq R] in
lemma coeff_value_of_mem (he : Function.Injective e) (φ : R → S) {p : Poly κ R} (hp : Normal p)
    (hq : q ∈ p) :
    coeff (expo e q.1) (value (fun c => C (φ c)) (fun k => X (e k)) p) = φ q.2 := by
  induction p with
  | nil => simp at hq
  | cons r p ih =>
    have hkeys := pairwise_cons.mp hp.keys
    have hn : Normal p := ⟨hkeys.2, fun r hr => hp.sorted r (mem_cons_of_mem _ hr)⟩
    have hr := hp.sorted r (mem_cons_self ..)
    rw [coeff_value_cons]
    rcases mem_cons.mp hq with rfl | hq
    · rw [if_pos rfl, coeff_value_of_forall_ne, add_zero]
      intro s hs h
      exact (hkeys.1 s hs).ne' (expo_injOn e he (hn.sorted s hs) hr h)
    · rw [if_neg, ih hn hq, zero_add]
      intro h
      exact (hkeys.1 q hq).ne (expo_injOn e he hr (hn.sorted q hq) h)

end Coefficients
end Takibi.Numeric.SparsePoly
