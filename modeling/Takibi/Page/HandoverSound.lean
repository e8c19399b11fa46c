import Takibi.Page.Custody
import Takibi.Page.Handover

/-! The hand-over: the entries of the tables agree with the extents, the state of the bootstrap
pages is carried to the entries of their pages, and what is left on the free list is memory that
nobody uses. -/

namespace Takibi.Page
open Function Boot Option Nat

/-! ## Rounding -/

structure Inside (usableRamStart : ℕ) (r : Region) (start stop : ℕ) : Prop where
  start_aligned : start % pageSize = 0
  stop_aligned : stop % pageSize = 0
  lt : start < stop
  base_le : r.base ≤ start
  usable_le : usableRamStart ≤ start
  stop_le : stop ≤ r.base + r.size
  stop_lt : stop < 2 ^ 64

lemma regionAligned_inside {usable : ℕ} {r : Region}
    (h : regionAlignedStart usable r < regionAlignedEnd r) :
    Inside usable r (regionAlignedStart usable r) (regionAlignedEnd r) := by
  have hstop : r.stop < 2 ^ 64 := mod_lt _ (Nat.two_pow_pos 64)
  have hstop_le : r.stop ≤ r.base + r.size := mod_le ..
  have hend : regionAlignedEnd r ≤ r.stop := sub_le ..
  have haligned : regionAlignedEnd r % pageSize = 0 := by
    simp only [regionAlignedEnd, pageSize]
    omega
  -- A start past the last page is never below the end.
  have hstart : regionAlignedStart usable r % pageSize = 0 ∧ r.base ≤ regionAlignedStart usable r ∧
      usable ≤ regionAlignedStart usable r := by
    simp only [regionAlignedStart, pageSize, usizeMax] at h haligned ⊢
    split_ifs at h ⊢ <;> omega
  exact ⟨hstart.1, haligned, h, hstart.2.1, hstart.2.2, hend.trans hstop_le, hend.trans_lt hstop⟩

/-! ## The regions -/

def Memory.Sorted (memory : Memory) : Prop :=
  ∀ i j r r', i < j → j < memory.regionCount → memory.regionAt i = .found r →
    memory.regionAt j = .found r' → r.base + r.size ≤ r'.base

variable {memory : Memory} {boot : Bootstrap} {plan : MetadataPlan} {metas : ℕ → PageMeta} {pool pool' : Pool}
  {n : ℕ}

variable {i base : ℕ}

lemma Memory.scanRegions_induct {σ : Type} {step : σ → Region → Option σ} {P : ℕ → σ → Prop}
    (bound : ℕ)
    (hstep : ∀ i s s' r, i < bound → P i s → memory.regionAt i = .found r → step s r = some s' → P (i + 1) s')
    {s s' : σ} (hbound : i + n ≤ bound) (h : memory.scanRegions step n i s = some s')
    (hs : P i s) : P (i + n) s' := by
  induction n generalizing i s with
  | zero =>
    cases h
    exact hs
  | succ n ih =>
    rw [Memory.scanRegions] at h
    cases hregion : memory.regionAt i with
    | invalid | outOfRange =>
      rw [hregion] at h
      cases h
    | found r =>
      rw [hregion] at h
      obtain ⟨s₁, hs₁, hrest⟩ := bind_eq_some_iff.mp h
      have hnext := hstep i s s₁ r (by omega) hs hregion hs₁
      have hdone := ih (by omega) hrest hnext
      rwa [Nat.add_right_comm, Nat.add_assoc] at hdone

section Fill
variable {t t' : Tables}

lemma fillPages_spec {stop physical : ℕ} (h : fillPages memory plan stop t physical = some t')
    (hstop : physical + n * pageSize = stop) (hindex : t.index ≤ plan.totalPages) :
    t'.extents = t.extents ∧ t'.index = t.index + n ∧ t'.index ≤ plan.totalPages ∧
      (∀ i < t.index, t'.metas i = t.metas i) ∧
      ∀ k < n, t'.metas (t.index + k) = freshMeta memory plan (physical + k * pageSize) := by
  induction n generalizing t physical with
  | zero =>
    rw [fillPages, if_neg (by omega)] at h
    cases h
    exact ⟨rfl, rfl, hindex, fun _ _ => rfl, nofun⟩
  | succ n ih =>
    have hpos : 0 < pageSize := by decide
    rw [Nat.add_mul] at hstop
    rw [fillPages, if_pos (by omega)] at h
    split_ifs at h with hfull
    obtain ⟨hextents, hindex', hle, hbefore, hpages⟩ := ih h (by omega) (by dsimp only; omega)
    dsimp only at hextents hindex' hle hbefore hpages
    refine ⟨hextents, by omega, hle, fun i hi => ?_, fun k hk => ?_⟩
    · rw [hbefore i (by omega), update_of_ne (by omega)]
    · cases k with
      | zero =>
        rw [Nat.add_zero, hbefore _ (by omega), update_self, Nat.zero_mul, Nat.add_zero]
      | succ k =>
        have hpage := hpages k (by omega)
        rw [Nat.add_right_comm, Nat.add_assoc] at hpage
        rw [hpage, Nat.add_mul, Nat.one_mul]
        congr 1
        omega

structure Laid (memory : Memory) (boot : Bootstrap) (plan : MetadataPlan) (done : ℕ) (t : Tables) :
    Prop where
  index_le : t.index ≤ plan.totalPages
  inside : ∀ e ∈ t.extents, ∃ j < done, ∃ r, memory.regionAt j = .found r ∧
    Inside boot.usableRamStart r e.start e.stop
  apart : t.extents.Pairwise fun e e' => e.stop ≤ e'.start
  within : ∀ e ∈ t.extents, e.firstIndex + e.pages ≤ t.index
  physical : ∀ e ∈ t.extents, ∀ k < e.pages, (t.metas (e.firstIndex + k)).physical = e.start + k * pageSize
  covered : ∀ i < t.index, ∃ e ∈ t.extents, ∃ k < e.pages, i = e.firstIndex + k
  fresh : ∀ i < t.index, t.metas i = freshMeta memory plan (t.metas i).physical

lemma freshMeta_physical (memory : Memory) (plan : MetadataPlan) (p : ℕ) :
    (freshMeta memory plan p).physical = p := by
  simp only [freshMeta]
  split_ifs <;> rfl

lemma Laid.fillRegion (hsorted : memory.Sorted) {r : Region} (hi : i < memory.regionCount)
    (hlaid : Laid memory boot plan i t) (hregion : memory.regionAt i = .found r)
    (h : fillRegion memory boot plan t r = some t') : Laid memory boot plan (i + 1) t' := by
  have hinside' : ∀ e ∈ t.extents, ∃ j < i + 1, ∃ r, memory.regionAt j = .found r ∧
      Inside boot.usableRamStart r e.start e.stop := fun e he => by
    obtain ⟨j, hj, hr⟩ := hlaid.inside e he
    exact ⟨j, by omega, hr⟩
  simp only [Page.fillRegion] at h
  set start := regionAlignedStart boot.usableRamStart r with hstart
  set stop := regionAlignedEnd r with hstop
  by_cases hlt : start < stop
  · rw [if_pos hlt] at h
    have hin := regionAligned_inside hlt
    set e : PageExtent := ⟨start, stop, t.index⟩ with he
    have hpages : start + e.pages * pageSize = stop :=
      PageExtent.pages_mul (e := e) ⟨hin.start_aligned, hin.stop_aligned, hlt⟩
    obtain ⟨hextents, hindex, hle, hbefore, hfresh⟩ := fillPages_spec h hpages hlaid.index_le
    dsimp only at hextents hindex hbefore hfresh
    have hmem : ∀ e' ∈ t'.extents, e' ∈ t.extents ∨ e' = e := fun e' he' => by
      rw [hextents] at he'
      simpa using he'
    refine ⟨hle, fun e' he' => ?_, ?_, fun e' he' => ?_, fun e' he' k hk => ?_, fun j hj => ?_,
      fun j hj => ?_⟩
    · obtain hold | rfl := hmem e' he'
      · exact hinside' e' hold
      · exact ⟨i, by omega, r, hregion, hin⟩
    · rw [hextents]
      refine List.pairwise_append.mpr ⟨hlaid.apart, List.pairwise_singleton .., fun e₀ he₀ e₁ he₁ => ?_⟩
      obtain rfl := List.mem_singleton.mp he₁
      obtain ⟨j, hj, r₀, hr₀, hin₀⟩ := hlaid.inside e₀ he₀
      exact (hin₀.stop_le.trans (hsorted j i r₀ r hj hi hr₀ hregion)).trans hin.base_le
    · rw [hindex]
      obtain hold | rfl := hmem e' he'
      · exact (hlaid.within e' hold).trans (Nat.le_add_right ..)
      · exact le_rfl
    · obtain hold | rfl := hmem e' he'
      · have hwithin := hlaid.within e' hold
        rw [hbefore _ (by omega)]
        exact hlaid.physical e' hold k hk
      · rw [hfresh k hk, freshMeta_physical]
    · rw [hextents]
      by_cases hold : j < t.index
      · obtain ⟨e', he', k, hk, rfl⟩ := hlaid.covered j hold
        exact ⟨e', List.mem_append_left _ he', k, hk, rfl⟩
      · exact ⟨e, List.mem_append_right _ (List.mem_singleton.mpr rfl), j - t.index, by omega,
          by change j = t.index + (j - t.index); omega⟩
    · by_cases hold : j < t.index
      · rw [hbefore j hold]
        exact hlaid.fresh j hold
      · obtain ⟨k, rfl⟩ := Nat.exists_eq_add_of_le (not_lt.mp hold)
        rw [hfresh k (by omega), freshMeta_physical]
  · -- A region without a whole page adds nothing.
    rw [if_neg hlt, fillPages, if_neg hlt] at h
    cases h
    exact { hlaid with inside := hinside' }

lemma laid_of_scan (hsorted : memory.Sorted)
    (h : memory.scanRegions (fillRegion memory boot plan) memory.regionCount 0 ⟨metas, [], 0⟩ = some t) :
    Laid memory boot plan memory.regionCount t := by
  have hempty : Laid memory boot plan 0 ⟨metas, [], 0⟩ :=
    ⟨zero_le _, nofun, List.Pairwise.nil, nofun, nofun, nofun, nofun⟩
  have hdone := Memory.scanRegions_induct (P := Laid memory boot plan) memory.regionCount
    (fun i s s' r hi hs hregion hstep => hs.fillRegion hsorted hi hregion hstep) (by omega) h hempty
  rwa [Nat.zero_add] at hdone

lemma Laid.geometry {done : ℕ} (hlaid : Laid memory boot plan done t)
    (hindex : t.index = plan.totalPages) (hcap : plan.totalPages ≤ 0xFFFFFFFF) :
    Geometry (tablesPool boot plan t) where
  count_le := hcap
  aligned e he := by
    obtain ⟨j, -, r, -, hin⟩ := hlaid.inside e he
    exact ⟨hin.start_aligned, hin.stop_aligned, hin.lt⟩
  apart := hlaid.apart
  within e he := (hlaid.within e he).trans hindex.le
  physical := hlaid.physical
  covered i hi := hlaid.covered i (hi.trans_eq hindex.symm)

end Fill

/-! ## The bootstrap pages -/

structure Migrated (boot : Bootstrap) (pool pool' : Pool) (n : ℕ) : Prop where
  rest : pool' = { pool with metas := pool'.metas }
  metas : ∀ i, pool'.metas i = pool.metas i ∨ ∃ j < n, (boot.metas j).occupied = true ∧
    pool.indexForPhysical (boot.address j) = some i ∧ (pool.metas i).owner = .unowned ∧
    pool'.metas i = migrate (pool.metas i) (boot.metas j)
  kept : ∀ j < n, (boot.metas j).occupied = true → ∃ i k, k < n ∧ (boot.metas k).occupied = true ∧
    pool.indexForPhysical (boot.address j) = some i ∧
    pool.indexForPhysical (boot.address k) = some i ∧
    pool'.metas i = migrate (pool.metas i) (boot.metas k)

lemma Migrated.layout (h : Migrated boot pool pool' n) : SameLayout pool pool' := by
  refine ⟨?_, ?_, fun i => ?_⟩
  · rw [h.rest]
  · rw [h.rest]
  · obtain hsame | ⟨j, -, -, -, -, hmigrated⟩ := h.metas i
    · rw [hsame]
    · rw [hmigrated]
      rfl

lemma migrate_migrate (m b b' : PageMeta) : migrate (migrate m b) b' = migrate m b' := rfl

lemma Migrated.step {pool'' : Pool} (h : Migrated boot pool pool' n)
    (hstep : migratePage boot pool' n = some pool'') : Migrated boot pool pool'' (n + 1) := by
  have hmetas := fun i => (h.metas i).imp_right (Exists.imp fun j => And.imp_left (lt_succ_of_lt (a := j)))
  rw [migratePage] at hstep
  by_cases hoccupied : (boot.metas n).occupied = true
  · rw [if_pos hoccupied, h.layout.indexForPhysical] at hstep
    cases hindex : pool.indexForPhysical (boot.address n) with
    | none =>
      rw [hindex] at hstep
      cases hstep
    | some index =>
      rw [hindex] at hstep
      dsimp only at hstep
      split_ifs at hstep with howner
      cases hstep
      rw [not_not] at howner
      -- The entry was as it was filled, or another bootstrap page was carried to it.
      have hentry : (pool.metas index).owner = .unowned ∧
          migrate (pool'.metas index) (boot.metas n) = migrate (pool.metas index) (boot.metas n) := by
        obtain hsame | ⟨j, -, -, -, hunowned, hmigrated⟩ := h.metas index
        · rw [hsame] at howner ⊢
          exact ⟨howner, rfl⟩
        · rw [hmigrated, migrate_migrate]
          exact ⟨hunowned, rfl⟩
      have hself : (pool'.setMeta index fun m => migrate m (boot.metas n)).metas index =
          migrate (pool.metas index) (boot.metas n) :=
        (update_self ..).trans hentry.2
      have hother : ∀ i ≠ index, (pool'.setMeta index fun m => migrate m (boot.metas n)).metas i =
          pool'.metas i := fun i hi => update_of_ne hi ..
      refine ⟨?_, fun i => ?_, fun j hj hj' => ?_⟩
      · rw [Pool.setMeta]
        conv_lhs => rw [h.rest]
      · by_cases hi : i = index
        · subst hi
          exact .inr ⟨n, by omega, hoccupied, hindex, hentry.1, hself⟩
        · rw [hother i hi]
          exact hmetas i
      · by_cases hn : j = n
        · subst hn
          exact ⟨index, j, by omega, hj', hindex, hindex, hself⟩
        · obtain ⟨i, k, hk, hkept⟩ := h.kept j (by omega) hj'
          by_cases hi : i = index
          · subst hi
            exact ⟨i, n, by omega, hoccupied, hkept.2.1, hindex, hself⟩
          · refine ⟨i, k, by omega, hkept.1, hkept.2.1, hkept.2.2.1, ?_⟩
            rw [hother i hi]
            exact hkept.2.2.2
  · rw [if_neg hoccupied] at hstep
    cases hstep
    refine ⟨h.rest, hmetas, fun j hj hj' => ?_⟩
    have hn : j ≠ n := fun hjn => hoccupied (hjn ▸ hj')
    obtain ⟨i, k, hk, hrest⟩ := h.kept j (by omega) hj'
    exact ⟨i, k, by omega, hrest⟩

lemma migrated_of_fold (h : (List.range n).foldlM (migratePage boot) pool = some pool') :
    Migrated boot pool pool' n := by
  induction n generalizing pool' with
  | zero =>
    cases h
    exact ⟨rfl, fun _ => .inl rfl, nofun⟩
  | succ n ih =>
    rw [List.range_succ, List.foldlM_append] at h
    obtain ⟨before, hbefore, hlast⟩ := bind_eq_some_iff.mp h
    rw [List.foldlM_cons] at hlast
    obtain ⟨after, hafter, hdone⟩ := bind_eq_some_iff.mp hlast
    cases hdone
    exact (ih hbefore).step hafter

lemma Bootstrap.address_inj (boot : Bootstrap) {j k : ℕ} (hj : j < bootstrapPageCount)
    (hk : k < bootstrapPageCount) (h : boot.address j = boot.address k) : j = k := by
  simp only [Bootstrap.address, bootstrapPageCount, pageSize] at *
  omega

lemma Bootstrap.address_aligned (boot : Bootstrap) (haligned : boot.usableRamStart % pageSize = 0)
    (j : ℕ) : boot.address j % pageSize = 0 := by
  simp only [Bootstrap.address, pageSize] at *
  omega

lemma Migrated.kept_own (h : Migrated boot pool pool' bootstrapPageCount) (hg : Geometry pool)
    (haligned : boot.usableRamStart % pageSize = 0) {j : ℕ} (hj : j < bootstrapPageCount)
    (hoccupied : (boot.metas j).occupied = true) :
    ∃ i < pool.pageCount, pool.indexForPhysical (boot.address j) = some i ∧
      (pool.metas i).physical = boot.address j ∧
      pool'.metas i = migrate (pool.metas i) (boot.metas j) := by
  obtain ⟨i, k, hk, -, hij, hik, hmigrated⟩ := h.kept j hj hoccupied
  obtain ⟨hi, hphysical⟩ := hg.of_indexForPhysical hij
  obtain ⟨-, hphysical'⟩ := hg.of_indexForPhysical hik
  rw [boot.address_aligned haligned, Nat.sub_zero] at hphysical hphysical'
  obtain rfl := boot.address_inj hj hk (hphysical.symm.trans hphysical')
  exact ⟨i, hi, hij, hphysical, hmigrated⟩

/-! ## The free list -/

def pushFree (pool : Pool) (index : ℕ) : Pool :=
  if (pool.metas index).occupied = false ∧ (pool.metas index).owner = .unowned then
    pool.runtimeLinkHead index
  else pool

lemma OnList.pushFree {l : List ℕ} (hl : OnList pool l) (hcap : pool.pageCount ≤ 0xFFFFFFFF)
    (hi : i < pool.pageCount) (hnew : i ∉ l) :
    Relinked pool (Page.pushFree pool i) ∧ ∃ l', OnList (Page.pushFree pool i) l' ∧
      ∀ j, j ∈ l' ↔ j ∈ l ∨ j = i ∧ (pool.mark j).Free := by
  by_cases hfree : (pool.mark i).Free
  · have hpush : Page.pushFree pool i = pool.runtimeLinkHead i := if_pos hfree
    rw [hpush]
    refine ⟨runtimeLinkHead_relinked pool i, i :: l, hl.linkHead hcap hi hnew, fun j => ?_⟩
    rw [List.mem_cons, or_comm, and_iff_left_of_imp fun hj => hj ▸ hfree]
  · have hskip : Page.pushFree pool i = pool := if_neg hfree
    rw [hskip]
    refine ⟨.refl pool, l, hl, fun j => (or_iff_left ?_).symm⟩
    rintro ⟨rfl, hj⟩
    exact hfree hj

lemma OnList.pushAll {l : List ℕ} (hl : OnList pool l) (is : List ℕ) (hcap : pool.pageCount ≤ 0xFFFFFFFF)
    (hlt : ∀ i ∈ is, i < pool.pageCount) (hnodup : is.Nodup) (hnew : ∀ i ∈ is, i ∉ l) :
    Relinked pool (is.foldl Page.pushFree pool) ∧ ∃ l', OnList (is.foldl Page.pushFree pool) l' ∧
      ∀ j, j ∈ l' ↔ j ∈ l ∨ j ∈ is ∧ (pool.mark j).Free := by
  induction is generalizing pool l with
  | nil => exact ⟨.refl pool, l, hl, fun j => by simp⟩
  | cons i is ih =>
    obtain ⟨hi, hnodup'⟩ := List.nodup_cons.mp hnodup
    obtain ⟨hpushed, l₁, hl₁, hmem₁⟩ := hl.pushFree hcap (hlt i (List.mem_cons_self ..)) (hnew i (List.mem_cons_self ..))
    have hnew' : ∀ j ∈ is, j ∉ l₁ := fun j hj hj₁ => by
      obtain hold | ⟨rfl, -⟩ := (hmem₁ j).mp hj₁
      · exact hnew j (List.mem_cons_of_mem _ hj) hold
      · exact hi hj
    rw [← hpushed.pageCount] at hcap hlt
    obtain ⟨hrest, l', hl', hmem⟩ := ih hl₁ hcap (fun j hj => hlt j (List.mem_cons_of_mem _ hj)) hnodup' hnew'
    refine ⟨hpushed.trans hrest, l', hl', fun j => ?_⟩
    rw [hmem, hmem₁, hpushed.marks, List.mem_cons, or_and_right]
    exact or_assoc

lemma runtimeFreelistRebuild_spec (hcap : pool.pageCount ≤ 0xFFFFFFFF) :
    Relinked pool pool.runtimeFreelistRebuild ∧ Listed pool.runtimeFreelistRebuild := by
  have hempty : OnList { pool with freeHead := pool.pageCount, freeCount := 0 } [] :=
    ⟨.nil .., rfl⟩
  have hcleared : Relinked pool { pool with freeHead := pool.pageCount, freeCount := 0 } := ⟨rfl, rfl⟩
  obtain ⟨hrelinked, l, hl, hmem⟩ := hempty.pushAll (List.range pool.pageCount).reverse hcap
    (fun i hi => by simpa using hi) (List.nodup_reverse.mpr List.nodup_range) fun _ _ => List.not_mem_nil
  refine ⟨hcleared.trans hrelinked, l, hl, fun j => ?_⟩
  have hmarks : pool.runtimeFreelistRebuild.mark = pool.mark := (hcleared.trans hrelinked).marks
  have hcount : pool.runtimeFreelistRebuild.pageCount = pool.pageCount :=
    (hcleared.trans hrelinked).pageCount
  rw [hmem, hmarks, hcount, List.mem_reverse, List.mem_range]
  simp only [List.not_mem_nil, false_or]
  rfl

/-! ## What is handed over -/

def Overlaps (base size base' size' : ℕ) : Prop :=
  ∃ x, (base ≤ x ∧ x < base + size) ∧ base' ≤ x ∧ x < base' + size'

lemma metadataSpan_spec {totalPages regionCount span : ℕ}
    (h : metadataSpan totalPages regionCount = some span) :
    totalPages ≤ 0xFFFFFFFF ∧ span % pageSize = 0 := by
  simp only [metadataSpan] at h
  split_ifs at h with htotal
  cases h
  exact ⟨by omega, mul_mod_left ..⟩

lemma placeMetadata_aligned {span remaining index : ℕ} (hspan : span % pageSize = 0)
    (h : placeMetadata memory boot span remaining index = some base) : base % pageSize = 0 := by
  induction remaining generalizing index with
  | zero => cases h
  | succ remaining ih =>
    rw [placeMetadata] at h
    cases hregion : memory.regionAt index with
    | invalid | outOfRange =>
      rw [hregion] at h
      cases h
    | found r =>
      rw [hregion] at h
      dsimp only at h
      split_ifs at h with hfits
      · cases h
        have hstop := (regionAligned_inside hfits.1).stop_aligned
        simp only [pageSize] at hspan hstop ⊢
        omega
      · exact ih h

lemma planMetadata_spec (h : planMetadata memory boot = some plan) :
    plan.totalPages ≤ 0xFFFFFFFF ∧ plan.base % pageSize = 0 ∧ plan.span % pageSize = 0 := by
  simp only [planMetadata, bind_eq_bind, pure_def] at h
  obtain ⟨totalPages, -, h⟩ := bind_eq_some_iff.mp h
  obtain ⟨span, hspan, h⟩ := bind_eq_some_iff.mp h
  obtain ⟨base, hbase, h⟩ := bind_eq_some_iff.mp h
  cases h
  obtain ⟨htotal, haligned⟩ := metadataSpan_spec hspan
  exact ⟨htotal, placeMetadata_aligned haligned hbase, haligned⟩

structure Handed (memory : Memory) (boot : Bootstrap) (plan : MetadataPlan) (pool : Pool) : Prop where
  geometry : Geometry pool
  listed : Listed pool
  inside : ∀ i < pool.pageCount, ∃ j < memory.regionCount, ∃ r, memory.regionAt j = .found r ∧
    r.base ≤ (pool.metas i).physical ∧ (pool.metas i).physical + pageSize ≤ r.base + r.size ∧
    boot.usableRamStart ≤ (pool.metas i).physical ∧ (pool.metas i).physical + pageSize < 2 ^ 64
  marks : ∀ i < pool.pageCount,
    pool.mark i = (freshMeta memory plan (pool.metas i).physical).mark ∨
      ∃ j < bootstrapPageCount, (boot.metas j).occupied = true ∧
        (freshMeta memory plan (pool.metas i).physical).owner = .unowned ∧
        pool.mark i = (migrate (freshMeta memory plan (pool.metas i).physical) (boot.metas j)).mark
  kept : boot.usableRamStart % pageSize = 0 → ∀ j < bootstrapPageCount,
    (boot.metas j).occupied = true → ∃ i < pool.pageCount, pool.indexForPhysical (boot.address j) = some i ∧
      (pool.metas i).physical = boot.address j ∧
      pool.mark i = (migrate (pool.metas i) (boot.metas j)).mark

lemma Handed.fillMetadata (hsorted : memory.Sorted) (hcap : plan.totalPages ≤ 0xFFFFFFFF)
    (h : fillMetadata memory boot plan metas = some pool) : Handed memory boot plan pool := by
  simp only [Page.fillMetadata, bind_eq_bind, pure_def] at h
  obtain ⟨t, hscan, h⟩ := bind_eq_some_iff.mp h
  split_ifs at h with hindex
  rw [not_not] at hindex
  obtain ⟨migrated, hfold, h⟩ := bind_eq_some_iff.mp h
  cases h
  have hlaid := laid_of_scan hsorted hscan
  have hgeometry := hlaid.geometry hindex hcap
  have hmigrated := migrated_of_fold hfold
  have hcap' : migrated.pageCount ≤ 0xFFFFFFFF := by
    rw [hmigrated.layout.pageCount]
    exact hcap
  obtain ⟨hrelinked, hlisted⟩ := runtimeFreelistRebuild_spec hcap'
  have hlayout := hmigrated.layout.trans hrelinked.layout
  have hmark : ∀ i, migrated.runtimeFreelistRebuild.mark i = (migrated.metas i).mark := fun i =>
    congrFun hrelinked.marks i
  have hfresh : ∀ i < t.index, t.metas i =
      freshMeta memory plan (migrated.runtimeFreelistRebuild.metas i).physical := fun i hi => by
    rw [hlayout.physical]
    exact hlaid.fresh i hi
  refine ⟨hgeometry.same hlayout, hlisted, fun i hi => ?_, fun i hi => ?_, fun haligned j hj hocc => ?_⟩
  · rw [hlayout.pageCount] at hi
    rw [hlayout.physical]
    obtain ⟨e, he, k, hk, rfl⟩ := hgeometry.covered i hi
    obtain ⟨j, hj, r, hr, hin⟩ := hlaid.inside e he
    obtain ⟨hlo, hhi⟩ := hgeometry.page_in_extent he hk
    rw [hgeometry.physical e he k hk]
    exact ⟨j, hj, r, hr, hin.base_le.trans hlo, hhi.trans hin.stop_le, hin.usable_le.trans hlo,
      hhi.trans_lt hin.stop_lt⟩
  · rw [hlayout.pageCount] at hi
    have hi' : i < t.index := hi.trans_eq hindex.symm
    rw [hmark, ← hfresh i hi']
    obtain hsame | ⟨j, hj, hocc, -, howner, hmeta⟩ := hmigrated.metas i
    · exact .inl (congrArg PageMeta.mark hsame)
    · exact .inr ⟨j, hj, hocc, howner, congrArg PageMeta.mark hmeta⟩
  · obtain ⟨i, hi, hij, hphysical, hmeta⟩ := hmigrated.kept_own hgeometry haligned hj hocc
    refine ⟨i, hi.trans_eq hlayout.pageCount.symm, ?_, ?_, ?_⟩
    · rw [hlayout.indexForPhysical]
      exact hij
    · rw [hlayout.physical]
      exact hphysical
    · have hsame : (migrated.runtimeFreelistRebuild.metas i).physical =
          ((tablesPool boot plan t).metas i).physical := hlayout.physical i
      rw [hmark, hmeta]
      simp only [migrate, PageMeta.mark, hsame]

lemma freshMeta_free {p : ℕ} (h : (freshMeta memory plan p).mark.Free) :
    memory.blobOverlaps p pageSize = false ∧ ¬ (plan.base ≤ p ∧ p < plan.base + plan.span) := by
  simp only [freshMeta] at h
  split_ifs at h with hblob hspan
  · cases h.2
  · cases h.1
  · exact ⟨Bool.of_not_eq_true hblob, hspan⟩

lemma freshMeta_tagged (p : ℕ) (h : (freshMeta memory plan p).mark.occupied = false) :
    (freshMeta memory plan p).mark.owner = .unowned ∨
      (freshMeta memory plan p).mark.owner = .unavailable := by
  simp only [freshMeta] at h ⊢
  split_ifs at h ⊢
  · exact .inr rfl
  · cases h
  · exact .inl rfl

lemma freshMeta_refs (p : ℕ) : (freshMeta memory plan p).mark.mapRefcount = 0 := by
  simp only [freshMeta]
  split_ifs <;> rfl

lemma Handed.mark (h : Handed memory boot plan pool) {P : Mark → Prop} (hi : i < pool.pageCount)
    (hfresh : P (freshMeta memory plan (pool.metas i).physical).mark)
    (hmigrated : ∀ m j, P (migrate m (boot.metas j)).mark) : P (pool.mark i) := by
  obtain hmark | ⟨j, -, -, -, hmark⟩ := h.marks i hi
  · rw [hmark]
    exact hfresh
  · rw [hmark]
    exact hmigrated _ j

lemma Handed.free (h : Handed memory boot plan pool) (hi : i < pool.pageCount) :
    (pool.mark i).Free → memory.blobOverlaps (pool.metas i).physical pageSize = false ∧
      ¬ (plan.base ≤ (pool.metas i).physical ∧ (pool.metas i).physical < plan.base + plan.span) :=
  h.mark (P := fun m => m.Free → _) hi freshMeta_free fun _ _ hfree => nomatch hfree.1

lemma Handed.tagged (h : Handed memory boot plan pool) (hi : i < pool.pageCount) :
    (pool.mark i).occupied = false → (pool.mark i).owner = .unowned ∨ (pool.mark i).owner = .unavailable :=
  h.mark (P := fun m => m.occupied = false → m.owner = _ ∨ m.owner = _) hi (freshMeta_tagged _)
    fun _ _ hoccupied => nomatch hoccupied

lemma blobOverlaps_of_overlaps {size : ℕ} (hsize : base + size < 2 ^ 64)
    (hblob : memory.dtb + memory.blobSize < 2 ^ 64)
    (h : Overlaps base size memory.dtb memory.blobSize) : memory.blobOverlaps base size = true := by
  obtain ⟨x, hx, hx'⟩ := h
  rw [Memory.blobOverlaps, if_neg (by simp only [usizeMax]; omega), Bool.and_eq_true, decide_eq_true_iff, decide_eq_true_iff]
  omega

lemma eq_of_overlaps {base' : ℕ} (h : base % pageSize = 0) (h' : base' % pageSize = 0)
    (hoverlaps : Overlaps base pageSize base' pageSize) : base = base' := by
  obtain ⟨x, hx, hx'⟩ := hoverlaps
  simp only [pageSize] at *
  omega

/-- After the hand-over a free page is whole memory of one region from the usable start on,
outside the blob, the tables and the bootstrap pages in use, which keep their owners and
references under new numbers; and page numbers and addresses determine each other. -/
theorem handover_safe (hsorted : memory.Sorted) (haligned : boot.usableRamStart % pageSize = 0)
    (hblob : memory.dtb + memory.blobSize < 2 ^ 64) (hplan : planMetadata memory boot = some plan)
    (hfill : fillMetadata memory boot plan metas = some pool) :
    (∃ l, OnList pool l ∧ ∀ i ∈ l, i < pool.pageCount ∧
      (∃ j < memory.regionCount, ∃ r, memory.regionAt j = .found r ∧
        r.base ≤ (pool.metas i).physical ∧ (pool.metas i).physical + pageSize ≤ r.base + r.size) ∧
      boot.usableRamStart ≤ (pool.metas i).physical ∧
      ¬ Overlaps (pool.metas i).physical pageSize memory.dtb memory.blobSize ∧
      ¬ Overlaps (pool.metas i).physical pageSize plan.base plan.span ∧
      ∀ j < bootstrapPageCount, (boot.metas j).occupied = true →
        ¬ Overlaps (pool.metas i).physical pageSize (boot.address j) pageSize) ∧
    (∀ i < pool.pageCount, ∀ j < pool.pageCount,
      (pool.metas i).physical = (pool.metas j).physical → i = j) ∧
    (∀ i p, pool.physicalForIndex i = some p → pool.indexForPhysical p = some i) ∧
    (∀ p i, p % pageSize = 0 → pool.indexForPhysical p = some i → pool.physicalForIndex i = some p) ∧
    ∀ j < bootstrapPageCount, (boot.metas j).occupied = true → ∃ i,
      pool.indexForPhysical (boot.address j) = some i ∧
      pool.physicalForIndex i = some (boot.address j) ∧ (pool.metas i).occupied = true ∧
      (pool.metas i).owner = (boot.metas j).owner ∧
      (pool.metas i).mapRefcount = (boot.metas j).mapRefcount := by
  obtain ⟨hcap, hbase, hspan⟩ := planMetadata_spec hplan
  have h := Handed.fillMetadata hsorted hcap hfill
  have hg := h.geometry
  refine ⟨?_, fun i hi j hj => hg.physical_inj hi hj, fun i p hp => ?_, fun p i hp hi => ?_,
    fun j hj hocc => ?_⟩
  · obtain ⟨l, hl, hmem⟩ := h.listed
    refine ⟨l, hl, fun i hi => ?_⟩
    obtain ⟨hlt, hfree⟩ := (hmem i).mp hi
    obtain ⟨j, hj, r, hr, hlo, hhi, husable, hend⟩ := h.inside i hlt
    obtain ⟨hnoblob, hnospan⟩ := h.free hlt hfree
    have hpage := hg.physical_aligned hlt
    refine ⟨hlt, ⟨j, hj, r, hr, hlo, hhi⟩, husable, fun hover => ?_, ?_, fun k hk hocc hover => ?_⟩
    · rw [blobOverlaps_of_overlaps hend hblob hover] at hnoblob
      cases hnoblob
    · rintro ⟨x, hx, hx'⟩
      apply hnospan
      simp only [pageSize] at hpage hbase hspan hx
      omega
    · obtain ⟨i', hi', -, hphysical, hmark⟩ := h.kept haligned k hk hocc
      have hsame := eq_of_overlaps hpage (boot.address_aligned haligned k) hover
      obtain rfl := hg.physical_inj hlt hi' (hsame.trans hphysical.symm)
      rw [hmark] at hfree
      cases hfree.1
  · obtain ⟨hi, hsome⟩ := ite_none_right_eq_some.mp hp
    cases hsome
    exact hg.indexForPhysical_physical hi
  · obtain ⟨hlt, hphysical⟩ := hg.of_indexForPhysical hi
    rw [hp, Nat.sub_zero] at hphysical
    rw [Pool.physicalForIndex, if_pos hlt, hphysical]
  · obtain ⟨i, hi, hindex, hphysical, hmark⟩ := h.kept haligned j hj hocc
    refine ⟨i, hindex, ?_, congrArg Mark.occupied hmark, congrArg Mark.owner hmark, congrArg Mark.mapRefcount hmark⟩
    rw [Pool.physicalForIndex, if_pos hi, hphysical]

def oneRegion (base size dtb blobSize : ℕ) : Memory :=
  ⟨fun i => if i = 0 then .found ⟨base, size⟩ else .outOfRange, 1, dtb, blobSize⟩

def secondInUse (usableRamStart : ℕ) : Bootstrap where
  usableRamStart := usableRamStart
  metas i := ⟨i = 1, .pageTable, 0, 0, 0, 0⟩
  runGeneration := 1
  doubleRemoveCount := 0
  counted _ := Nat.two_pow_pos 32

def blankMetas : ℕ → PageMeta := fun _ => ⟨false, .unowned, 0, 0, 0, 0⟩

lemma oneRegion_sorted {size dtb blobSize : ℕ} : (oneRegion base size dtb blobSize).Sorted := by
  intro i j r r' hij hj
  have hcount : j < 1 := hj
  omega

theorem handover_safe_oneRegion : ∃ pool,
    fillMetadata (oneRegion 0x10000 0x6000 0x1000 0x800) (secondInUse 0x10000) ⟨0x15000, 0x1000, 6⟩
      blankMetas = some pool ∧
    ∃ i, pool.indexForPhysical 0x11000 = some i ∧ pool.physicalForIndex i = some 0x11000 ∧
      (pool.metas i).occupied = true ∧ (pool.metas i).owner = .pageTable ∧
      (pool.metas i).mapRefcount = 0 := by
  have hsome : (fillMetadata (oneRegion 0x10000 0x6000 0x1000 0x800) (secondInUse 0x10000)
    ⟨0x15000, 0x1000, 6⟩ blankMetas).isSome = true := by decide +kernel
  obtain ⟨pool, hfill⟩ := isSome_iff_exists.mp hsome
  have hplan : planMetadata (oneRegion 0x10000 0x6000 0x1000 0x800) (secondInUse 0x10000) =
    some ⟨0x15000, 0x1000, 6⟩ := by decide +kernel
  have hsafe := handover_safe oneRegion_sorted (by decide) (by decide) hplan hfill
  exact ⟨pool, hfill, hsafe.2.2.2.2 1 (by decide) rfl⟩

lemma exists_on_list {p : ℕ} (hsorted : memory.Sorted)
    (hplan : planMetadata memory boot = some plan)
    (h : ((fillMetadata memory boot plan blankMetas).any fun pool =>
      i < pool.pageCount && (pool.metas i).occupied = false && (pool.metas i).owner = .unowned &&
        (pool.metas i).physical = p) = true) :
    ∃ pool l, fillMetadata memory boot plan blankMetas = some pool ∧ OnList pool l ∧ i ∈ l ∧
      (pool.metas i).physical = p := by
  cases hfill : fillMetadata memory boot plan blankMetas with
  | none =>
    rw [hfill] at h
    cases h
  | some pool =>
    rw [hfill, any_some] at h
    simp only [Bool.and_eq_true, decide_eq_true_iff] at h
    obtain ⟨⟨⟨hi, hoccupied⟩, howner⟩, hphysical⟩ := h
    obtain ⟨l, hl, hmem⟩ := (Handed.fillMetadata hsorted (planMetadata_spec hplan).1 hfill).listed
    exact ⟨pool, l, rfl, hl, (hmem i).mpr ⟨hi, hoccupied, howner⟩, hphysical⟩

/-- A usable start inside a page leaves half of a bootstrap page in use on the free list, and a
blob that ends at the end of the address space leaves its own pages there. -/
theorem handover_unsafe : (∃ plan pool l, (oneRegion 0x10000 0x6000 0x1000 0x800).Sorted ∧
      planMetadata (oneRegion 0x10000 0x6000 0x1000 0x800) (secondInUse 0x10800) = some plan ∧
      fillMetadata (oneRegion 0x10000 0x6000 0x1000 0x800) (secondInUse 0x10800) plan blankMetas =
        some pool ∧ OnList pool l ∧ ∃ i ∈ l, ((secondInUse 0x10800).metas 1).occupied = true ∧
        Overlaps (pool.metas i).physical pageSize ((secondInUse 0x10800).address 1) pageSize) ∧
    ∃ plan pool l, (oneRegion 0xFFFFFFFFFFFF8000 0x7000 0xFFFFFFFFFFFFC000 0x4000).Sorted ∧
      planMetadata (oneRegion 0xFFFFFFFFFFFF8000 0x7000 0xFFFFFFFFFFFFC000 0x4000)
        (secondInUse 0xFFFFFFFFFFFF8000) = some plan ∧
      fillMetadata (oneRegion 0xFFFFFFFFFFFF8000 0x7000 0xFFFFFFFFFFFFC000 0x4000)
        (secondInUse 0xFFFFFFFFFFFF8000) plan blankMetas = some pool ∧ OnList pool l ∧
      ∃ i ∈ l, Overlaps (pool.metas i).physical pageSize 0xFFFFFFFFFFFFC000 0x4000 := by
  constructor
  · have hplan : planMetadata (oneRegion 0x10000 0x6000 0x1000 0x800) (secondInUse 0x10800) =
      some ⟨0x15000, 0x1000, 5⟩ := by decide +kernel
    obtain ⟨pool, l, hfill, hl, hi, hphysical⟩ :=
      exists_on_list (i := 1) (p := 0x12000) oneRegion_sorted hplan (by decide +kernel)
    refine ⟨_, pool, l, oneRegion_sorted, hplan, hfill, hl, 1, hi, rfl, ?_⟩
    rw [hphysical]
    exact ⟨0x12000, by decide, by decide⟩
  · have hplan : planMetadata (oneRegion 0xFFFFFFFFFFFF8000 0x7000 0xFFFFFFFFFFFFC000 0x4000)
      (secondInUse 0xFFFFFFFFFFFF8000) = some ⟨0xFFFFFFFFFFFFE000, 0x1000, 7⟩ := by decide +kernel
    obtain ⟨pool, l, hfill, hl, hi, hphysical⟩ := exists_on_list (i := 4) (p := 0xFFFFFFFFFFFFC000)
      oneRegion_sorted hplan (by decide +kernel)
    refine ⟨_, pool, l, oneRegion_sorted, hplan, hfill, hl, 4, hi, ?_⟩
    rw [hphysical]
    exact ⟨0xFFFFFFFFFFFFC000, by decide, by decide⟩

lemma Handed.sound (h : Handed memory boot plan pool) : Sound (buildFrames pool) where
  geometry := h.geometry.same (show SameLayout pool _ from ⟨rfl, rfl, fun _ => rfl⟩)
  listed := by
    obtain ⟨l, hl, hmem⟩ := h.listed
    exact ⟨l, ⟨hl.links, hl.count⟩, hmem⟩
  placed i hi := by
    have hplaced : (buildFrames pool).placed i = true ↔
        (pool.mark i).occupied = false ∧ (pool.mark i).owner ≠ .unavailable := by
      simp [buildFrames, Pool.mark, PageMeta.mark]
    have hfree : ((buildFrames pool).mark i).Free ↔
        (pool.mark i).occupied = false ∧ (pool.mark i).owner = .unowned := Iff.rfl
    rw [hplaced, hfree]
    constructor
    · rintro ⟨hoccupied, howner⟩
      exact ⟨hoccupied, (h.tagged hi hoccupied).resolve_right howner⟩
    · rintro ⟨hoccupied, howner⟩
      refine ⟨hoccupied, ?_⟩
      rw [howner]
      exact PageOwnerTag.noConfusion
  tagged i hi := h.tagged hi
  counted i hi := by
    refine h.mark (P := fun m => m.mapRefcount < 2 ^ 32) hi ?_ fun _ j => boot.counted j
    rw [freshMeta_refs]
    exact Nat.two_pow_pos 32

lemma Handed.applyMemory (hsorted : memory.Sorted) (h : applyMemory memory boot metas = some pool) :
    ∃ plan pool₀, Handed memory boot plan pool₀ ∧ pool = buildFrames pool₀ := by
  simp only [Page.applyMemory, bind_eq_bind, pure_def] at h
  obtain ⟨plan, hplan, h⟩ := bind_eq_some_iff.mp h
  obtain ⟨pool₀, hfill, h⟩ := bind_eq_some_iff.mp h
  exact ⟨plan, pool₀, .fillMetadata hsorted (planMetadata_spec hplan).1 hfill, (some.inj h).symm⟩

/-- After any calls by holders that release what they hold: the list visits the free pages, the
pages of a holder are occupied and no other holder's, what is handed out is nobody's, and
releasing free pages is only counted. -/
theorem one_holder (hsorted : memory.Sorted) (happly : applyMemory memory boot metas = some pool)
    {holders : List Holder} (hholders : HoldersOk pool holders) {sys : System}
    (hrun : Relation.ReflTransGen Step ⟨pool, holders, fun _ => none⟩ sys) :
    (∃ l, OnList sys.pool l ∧ ∀ i, i ∈ l ↔ i < sys.pool.pageCount ∧
      (sys.pool.metas i).occupied = false ∧ (sys.pool.metas i).owner = .unowned) ∧
    (∀ h ∈ sys.holders, ∀ i, h.Has i → i < sys.pool.pageCount ∧ (sys.pool.metas i).occupied = true) ∧
    sys.holders.Pairwise Holder.Apart ∧
    (∀ cpu tag owner pool', sys.pool.pageAlloc cpu tag = (some owner, pool') →
      ∀ h ∈ sys.holders, ¬ h.Has owner.index) ∧
    (∀ cpu count tag owner pool', sys.pool.pageAllocContiguous cpu count tag = (some owner, pool') →
      ∀ h ∈ sys.holders, ∀ i, InRun owner.first owner.count i → ¬ h.Has i) ∧
    ∀ r : Release, r.AlreadyFree sys.pool → r.apply sys.pool = sys.pool.countDoubleRemove r.count := by
  obtain ⟨plan, pool₀, hhanded, rfl⟩ := Handed.applyMemory hsorted happly
  have hc : Consistent sys := Consistent.run ⟨hhanded.sound, hholders⟩ hrun
  refine ⟨hc.sound.listed, fun h hmem i hi => ?_, hc.holders.apart, ?_, ?_,
    fun r hr => hc.sound.releaseAgain hr⟩
  · have hok := hc.holders.each h hmem
    exact ⟨hok.lt hc.sound.geometry hi, hok.occupied i hi⟩
  · intro cpu tag owner pool' halloc h hmem
    obtain ⟨htook, -⟩ := hc.sound.pageAlloc_some halloc
    exact hc.holders.fresh htook hmem (inRun_one.mpr rfl)
  · intro cpu count tag owner pool' halloc h hmem i hi
    obtain ⟨htook, -⟩ := hc.sound.pageAllocContiguous_some halloc
    exact hc.holders.fresh htook hmem hi

lemma secondInUse_holders {usable : ℕ}
    (h : Handed memory (secondInUse usable) plan pool) : HoldersOk (buildFrames pool) [] := by
  refine ⟨nofun, List.Pairwise.nil, fun i hi _ => ?_⟩
  rw [List.countP_nil]
  exact h.mark (P := fun m => m.mapRefcount = 0) hi (freshMeta_refs _) fun _ _ => rfl

theorem one_holder_oneRegion : ∃ pool owner pool',
    applyMemory (oneRegion 0x10000 0x6000 0x1000 0x800) (secondInUse 0x10000) blankMetas = some pool ∧
    pool.pageAlloc 0 .userPage = (some owner, pool') ∧
    ∀ cpu tag owner' pool'', pool'.pageAlloc cpu tag = (some owner', pool'') →
      ¬ (Holder.ofPage owner).Has owner'.index := by
  have hany : ((applyMemory (oneRegion 0x10000 0x6000 0x1000 0x800) (secondInUse 0x10000)
    blankMetas).any fun pool => (pool.pageAlloc 0 .userPage).1.isSome) = true := by decide +kernel
  cases happly : applyMemory (oneRegion 0x10000 0x6000 0x1000 0x800) (secondInUse 0x10000) blankMetas with
  | none =>
    rw [happly] at hany
    cases hany
  | some pool =>
    rw [happly, any_some] at hany
    obtain ⟨owner, howner⟩ := isSome_iff_exists.mp hany
    have halloc : pool.pageAlloc 0 .userPage = (some owner, (pool.pageAlloc 0 .userPage).2) := by
      rw [← howner]
    have hholders : HoldersOk pool [] := by
      obtain ⟨plan, pool₀, hhanded, rfl⟩ := Handed.applyMemory oneRegion_sorted happly
      exact secondInUse_holders hhanded
    have hone := one_holder oneRegion_sorted happly hholders (.single (.alloc 0 .userPage halloc))
    refine ⟨pool, owner, _, rfl, halloc, fun cpu tag owner' pool'' h => ?_⟩
    exact hone.2.2.2.1 cpu tag owner' pool'' h _ (List.mem_cons_self ..)

end Takibi.Page
