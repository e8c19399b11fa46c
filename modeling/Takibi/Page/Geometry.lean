import Takibi.Page.Pool

/-! Page numbers and addresses: the extents cover the page numbers in order, and a page's
address follows from its place in its extent. -/

namespace Takibi.Page
open List Option

structure Geometry (pool : Pool) : Prop where
  count_le : pool.pageCount ≤ 0xFFFFFFFF
  aligned : ∀ e ∈ pool.extents, e.start % pageSize = 0 ∧ e.stop % pageSize = 0 ∧ e.start < e.stop
  apart : pool.extents.Pairwise fun e e' => e.stop ≤ e'.start
  within : ∀ e ∈ pool.extents, e.firstIndex + e.pages ≤ pool.pageCount
  physical : ∀ e ∈ pool.extents, ∀ k < e.pages,
    (pool.metas (e.firstIndex + k)).physical = e.start + k * pageSize
  covered : ∀ i < pool.pageCount, ∃ e ∈ pool.extents, ∃ k < e.pages, i = e.firstIndex + k

structure SameLayout (pool pool' : Pool) : Prop where
  pageCount : pool'.pageCount = pool.pageCount
  extents : pool'.extents = pool.extents
  physical : ∀ i, (pool'.metas i).physical = (pool.metas i).physical

section Layout
variable {pool pool' pool'' : Pool}

lemma SameLayout.refl (pool : Pool) : SameLayout pool pool := ⟨rfl, rfl, fun _ => rfl⟩

section
variable (h : SameLayout pool pool')
include h

lemma SameLayout.trans (h' : SameLayout pool' pool'') : SameLayout pool pool'' :=
  ⟨h'.pageCount.trans h.pageCount, h'.extents.trans h.extents,
    fun i => (h'.physical i).trans (h.physical i)⟩

lemma Geometry.same (hg : Geometry pool) : Geometry pool' where
  count_le := h.pageCount ▸ hg.count_le
  aligned := h.extents ▸ hg.aligned
  apart := h.extents ▸ hg.apart
  within := by
    rw [h.extents, h.pageCount]
    exact hg.within
  physical := by
    intro e he k hk
    rw [h.extents] at he
    rw [h.physical]
    exact hg.physical e he k hk
  covered := by
    rw [h.extents, h.pageCount]
    exact hg.covered

lemma SameLayout.extentOf (p : ℕ) : pool'.extentOf p = pool.extentOf p := by
  rw [Pool.extentOf, Pool.extentOf, h.extents]

lemma SameLayout.indexForPhysical (p : ℕ) : pool'.indexForPhysical p = pool.indexForPhysical p := by
  simp only [Pool.indexForPhysical, h.extentOf]

end
end Layout

section Addresses
variable {pool : Pool} {e e' : PageExtent} {p i k count : ℕ}

lemma PageExtent.pages_mul (h : e.start % pageSize = 0 ∧ e.stop % pageSize = 0 ∧ e.start < e.stop) :
    e.start + e.pages * pageSize = e.stop := by
  obtain ⟨hstart, hstop, hlt⟩ := h
  simp only [pageSize, PageExtent.pages] at *
  omega

lemma Geometry.extent_unique (hg : Geometry pool) (he : e ∈ pool.extents) (he' : e' ∈ pool.extents)
    (hp : e.start ≤ p ∧ p < e.stop) (hp' : e'.start ≤ p ∧ p < e'.stop) : e = e' := by
  by_contra hne
  have hsymm : pool.extents.Pairwise fun e e' => e.stop ≤ e'.start ∨ e'.stop ≤ e.start :=
    hg.apart.imp fun h => .inl h
  have : Std.Symm fun e e' : PageExtent => e.stop ≤ e'.start ∨ e'.stop ≤ e.start :=
    ⟨fun _ _ h => h.symm⟩
  have hapart := hsymm.forall he he' hne
  omega

lemma Geometry.extentOf_eq (hg : Geometry pool) (he : e ∈ pool.extents)
    (hp : e.start ≤ p ∧ p < e.stop) : pool.extentOf p = some e := by
  have hsome : (pool.extentOf p).isSome := by
    rw [Pool.extentOf, find?_isSome]
    exact ⟨e, he, by simpa using hp⟩
  obtain ⟨e', he'⟩ := isSome_iff_exists.mp hsome
  have hmem := mem_of_find?_eq_some he'
  have hin : e'.start ≤ p ∧ p < e'.stop := by simpa using find?_some he'
  rw [he', hg.extent_unique he hmem hp hin]

lemma mem_of_extentOf (h : pool.extentOf p = some e) : e ∈ pool.extents ∧ e.start ≤ p ∧ p < e.stop :=
  ⟨mem_of_find?_eq_some h, by simpa using find?_some h⟩

section
variable (hg : Geometry pool)
include hg

lemma Geometry.page_in_extent (he : e ∈ pool.extents) (hk : k < e.pages) :
    e.start ≤ e.start + k * pageSize ∧ e.start + k * pageSize + pageSize ≤ e.stop := by
  have hpages := PageExtent.pages_mul (hg.aligned e he)
  have hle : (k + 1) * pageSize ≤ e.pages * pageSize := Nat.mul_le_mul_right _ hk
  rw [Nat.add_mul] at hle
  omega

lemma Geometry.physical_aligned (hi : i < pool.pageCount) : (pool.metas i).physical % pageSize = 0 := by
  obtain ⟨e, he, k, hk, rfl⟩ := hg.covered i hi
  rw [hg.physical e he k hk, Nat.add_mul_mod_self_right]
  exact (hg.aligned e he).1

lemma Geometry.indexForPhysical_eq (he : e ∈ pool.extents) (hk : k < e.pages)
    (hp : p - p % pageSize = e.start + k * pageSize) :
    pool.indexForPhysical p = some (e.firstIndex + k) := by
  obtain ⟨hlo, hhi⟩ := hg.page_in_extent he hk
  have hpos : 0 < pageSize := by decide
  rw [Pool.indexForPhysical, hp, hg.extentOf_eq he ⟨hlo, by omega⟩, map_some,
    Nat.add_sub_cancel_left, Nat.mul_div_cancel _ hpos]

lemma Geometry.indexForPhysical_physical (hi : i < pool.pageCount) :
    pool.indexForPhysical (pool.metas i).physical = some i := by
  have haligned := hg.physical_aligned hi
  obtain ⟨e, he, k, hk, rfl⟩ := hg.covered i hi
  refine hg.indexForPhysical_eq he hk ?_
  rw [haligned, Nat.sub_zero]
  exact hg.physical e he k hk

lemma Geometry.of_indexForPhysical (h : pool.indexForPhysical p = some i) :
    i < pool.pageCount ∧ (pool.metas i).physical = p - p % pageSize := by
  rw [Pool.indexForPhysical] at h
  obtain ⟨e, hext, rfl⟩ := map_eq_some_iff.mp h
  obtain ⟨he, hlo, hhi⟩ := mem_of_extentOf hext
  have hal := hg.aligned e he
  have hwithin := hg.within e he
  have hpages := PageExtent.pages_mul hal
  have hmod : (p - p % pageSize) % pageSize = 0 := by
    simp only [pageSize]
    omega
  have hk : (p - p % pageSize - e.start) / pageSize < e.pages := by
    refine Nat.div_lt_of_lt_mul ?_
    rw [Nat.mul_comm]
    omega
  refine ⟨by omega, ?_⟩
  have hstart := hal.1
  rw [hg.physical e he _ hk]
  simp only [pageSize] at hstart hmod hlo ⊢
  omega

lemma Geometry.physical_inj {j : ℕ} (hi : i < pool.pageCount) (hj : j < pool.pageCount)
    (h : (pool.metas i).physical = (pool.metas j).physical) : i = j := by
  have hindex := hg.indexForPhysical_physical hi
  rw [h, hg.indexForPhysical_physical hj] at hindex
  exact (some.inj hindex).symm

end

def InExtent (pool : Pool) (first count : ℕ) : Prop :=
  0 < count ∧ ∃ e ∈ pool.extents, ∃ k, first = e.firstIndex + k ∧ k + count ≤ e.pages

lemma Geometry.inExtent_one (hg : Geometry pool) (hi : i < pool.pageCount) : InExtent pool i 1 := by
  obtain ⟨e, he, k, hk, rfl⟩ := hg.covered i hi
  exact ⟨one_pos, e, he, k, rfl, hk⟩

lemma InExtent.lt (h : InExtent pool i count) (hg : Geometry pool) (hk : k < count) :
    i + k < pool.pageCount := by
  obtain ⟨-, e, he, j, rfl, hj⟩ := h
  have hwithin := hg.within e he
  omega

lemma InExtent.split (h : InExtent pool i count) (hk : 0 < k ∧ k < count) :
    InExtent pool i k ∧ InExtent pool (i + k) (count - k) := by
  obtain ⟨-, e, he, j, rfl, hj⟩ := h
  exact ⟨⟨hk.1, e, he, j, rfl, by omega⟩, by omega, e, he, j + k, by omega, by omega⟩

lemma InExtent.physical_add (h : InExtent pool i count) (hg : Geometry pool) (hk : k < count) :
    (pool.metas (i + k)).physical = (pool.metas i).physical + k * pageSize := by
  obtain ⟨-, e, he, j, rfl, hj⟩ := h
  rw [Nat.add_assoc, hg.physical e he (j + k) (by omega), hg.physical e he j (by omega), Nat.add_mul,
    Nat.add_assoc]

lemma InExtent.framesAt (h : InExtent pool i count) (hg : Geometry pool) :
    pool.framesAt (pool.metas i).physical count = some i := by
  obtain ⟨hcount, e, he, k, rfl, hk⟩ := h
  have hlt : k < e.pages := by omega
  have hpos : 0 < pageSize := by decide
  obtain ⟨hlo, hhi⟩ := hg.page_in_extent he hlt
  rw [hg.physical e he k hlt, Pool.framesAt, hg.extentOf_eq he ⟨hlo, by omega⟩, bind_some]
  rw [Nat.add_sub_cancel_left, Nat.mul_div_cancel _ hpos, if_neg (by omega)]

lemma Geometry.inExtent_of_framesAt (hg : Geometry pool) {first : ℕ} (hi : i < pool.pageCount)
    (h : pool.framesAt (pool.metas i).physical count = some first) :
    first = i ∧ InExtent pool i count := by
  obtain ⟨e, he, k, hk, rfl⟩ := hg.covered i hi
  have hpos : 0 < pageSize := by decide
  obtain ⟨hlo, hhi⟩ := hg.page_in_extent he hk
  rw [hg.physical e he k hk, Pool.framesAt, hg.extentOf_eq he ⟨hlo, by omega⟩, bind_some,
    Nat.add_sub_cancel_left, Nat.mul_div_cancel _ hpos] at h
  dsimp only at h
  split_ifs at h with hcond
  refine ⟨(some.inj h).symm, by omega, e, he, k, rfl, by omega⟩

end Addresses
end Takibi.Page
