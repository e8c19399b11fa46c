import Takibi.Page.Custody

/-! Pages that a CPU has reserved stay available to it, whatever the other CPUs take. -/

namespace Takibi.Page
open Function Finset Pool PageExtent List Option Nat

def ShareOk (active : Bool) (own overdrawn : ℕ) : Option Grant → Prop
  | none => active = false ∧ own = 0
  | some g => active = true ∧ own = g.reserved - g.allocated ∧
    overdrawn = (g.allocated - g.reserved) % 2 ^ 64

structure Reserved (sys : System) : Prop where
  total : sys.pool.reservedTotal = ∑ cpu, sys.pool.reservedByCpu cpu
  covered : sys.pool.reservedTotal ≤ sys.pool.freeCount
  shares : ∀ cpu, ShareOk (sys.pool.reserveActive cpu) (sys.pool.reservedByCpu cpu)
    (sys.pool.reserveOverdrawn cpu) (sys.grants cpu)

section Shares
variable {active : Cpu → Bool} {own overdrawn : Cpu → ℕ} {grants : Cpu → Option Grant}

lemma sum_update (f : Cpu → ℕ) (cpu : Cpu) (n : ℕ) : (∑ c, update f cpu n c) + f cpu = (∑ c, f c) + n := by
  have hsplit := add_sum_erase univ f (mem_univ cpu)
  have hsplit' := add_sum_erase univ (update f cpu n) (mem_univ cpu)
  have hrest : ∑ c ∈ univ.erase cpu, update f cpu n c = ∑ c ∈ univ.erase cpu, f c :=
    sum_congr rfl fun c hc => update_of_ne (ne_of_mem_erase hc) ..
  rw [update_self, hrest] at hsplit'
  omega

lemma shares_update (h : ∀ c, ShareOk (active c) (own c) (overdrawn c) (grants c)) {cpu : Cpu}
    {a : Bool} {n o : ℕ} {g : Option Grant} (hcpu : ShareOk a n o g) :
    ∀ c, ShareOk (update active cpu a c) (update own cpu n c) (update overdrawn cpu o c)
      (update grants cpu g c) := by
  intro c
  by_cases hc : c = cpu
  · subst hc
    simp only [update_self]
    exact hcpu
  · simp only [update_of_ne hc]
    exact h c

lemma ShareOk.consume {own overdrawn count : ℕ} {g : Grant} (h : ShareOk true own overdrawn (some g)) :
    ShareOk true (own - min count own)
      (if count > own then (overdrawn + (count - own)) % 2 ^ 64 else overdrawn)
      (some ⟨g.reserved, g.allocated + count⟩) := by
  obtain ⟨-, rfl, rfl⟩ := h
  refine ⟨rfl, ?_, ?_⟩
  · rw [min_comm, tsub_min, Nat.sub_sub]
  · dsimp only
    split_ifs with hover
    · rw [mod_add_mod]
      congr 1
      omega
    · congr 1
      omega

end Shares

variable {holders : List Holder}

section Reserved
variable {sys sys' : System} {pool : Pool} {cpu : Cpu} {count : ℕ}

section
variable (h : Reserved sys)
include h

lemma Reserved.own_le (cpu : Cpu) : sys.pool.reservedByCpu cpu ≤ sys.pool.reservedTotal := by
  rw [h.total]
  exact single_le_sum (fun _ _ => zero_le _) (mem_univ cpu)

lemma Reserved.admits_iff (cpu : Cpu) (count : ℕ) : sys.pool.reserveAdmits cpu count = true ↔
      sys.pool.reservedTotal + count ≤ sys.pool.freeCount + sys.pool.reservedByCpu cpu := by
  have hown := h.own_le cpu
  have hcovered := h.covered
  simp only [reserveAdmits]
  rw [if_neg (by omega), if_neg (by omega), decide_eq_true_iff]
  omega

lemma Reserved.same (hreserves : pool.reserves = sys.pool.reserves)
    (hcovered : sys.pool.reservedTotal ≤ pool.freeCount) :
    Reserved ⟨pool, holders, sys.grants⟩ := by
  simp only [reserves, Reserves.mk.injEq] at hreserves
  obtain ⟨htotal, hbyCpu, hactive, hoverdrawn⟩ := hreserves
  refine ⟨?_, ?_, ?_⟩
  · simp only [htotal, hbyCpu]
    exact h.total
  · simp only [htotal]
    exact hcovered
  · simp only [hactive, hbyCpu, hoverdrawn]
    exact h.shares

lemma Reserved.consume (hadmits : sys.pool.reserveAdmits cpu count = true)
    (hreserves : pool.reserves = (sys.pool.reserveConsume cpu count).reserves)
    (hcount : pool.freeCount + count = sys.pool.freeCount) :
    Reserved ⟨pool, holders, draw sys.grants cpu count⟩ := by
  have hroom := (h.admits_iff cpu count).mp hadmits
  have hcovered := h.covered
  have hshare := h.shares cpu
  cases hgrant : sys.grants cpu with
  | none =>
    rw [hgrant] at hshare
    obtain ⟨hactive, hzero⟩ := hshare
    have hdraw : draw sys.grants cpu count = sys.grants := by
      rw [draw, hgrant, map_none, ← hgrant]
      exact update_eq_self ..
    rw [reserveConsume, if_pos hactive] at hreserves
    rw [hdraw]
    exact h.same hreserves (by omega)
  | some g =>
    rw [hgrant] at hshare
    have hactive := hshare.1
    rw [hactive] at hshare
    rw [reserveConsume, if_neg (by simp [hactive])] at hreserves
    simp only [reserves, Reserves.mk.injEq] at hreserves
    obtain ⟨htotal, hbyCpu, hactive', hoverdrawn⟩ := hreserves
    refine ⟨?_, ?_, ?_⟩
    · have hsum := sum_update sys.pool.reservedByCpu cpu
        (sys.pool.reservedByCpu cpu - min count (sys.pool.reservedByCpu cpu))
      have htotal' := h.total
      simp only [htotal, hbyCpu]
      omega
    · simp only [htotal]
      omega
    · have hsame : sys.pool.reserveActive = update sys.pool.reserveActive cpu true := by
        rw [← hactive, update_eq_self]
      simp only [draw, hgrant, map_some, hactive', hbyCpu, hoverdrawn]
      rw [hsame]
      exact shares_update h.shares hshare.consume

lemma Reserved.reserve (hreserve : sys.pool.reserve cpu count = (true, pool)) :
    Reserved { sys with pool := pool, grants := update sys.grants cpu (some ⟨count, 0⟩) } := by
  rw [Pool.reserve] at hreserve
  split_ifs at hreserve with hroom
  · obtain ⟨hactive, hle, hfree⟩ := hroom
    obtain rfl := (Prod.mk.inj hreserve).2
    have hzero : sys.pool.reservedByCpu cpu = 0 := by
      have hshare := h.shares cpu
      rw [hactive] at hshare
      cases hgrant : sys.grants cpu with
      | none =>
        rw [hgrant] at hshare
        exact hshare.2
      | some g =>
        rw [hgrant] at hshare
        cases hshare.1
    refine ⟨?_, ?_, shares_update h.shares ?_⟩
    · have hsum := sum_update sys.pool.reservedByCpu cpu count
      have htotal := h.total
      dsimp only
      omega
    · dsimp only
      omega
    · exact ⟨rfl, rfl, by simp⟩
  · cases (Prod.mk.inj hreserve).1

lemma Reserved.release (cpu : Cpu) : Reserved { sys with
      pool := (sys.pool.reservationRelease cpu).2, grants := update sys.grants cpu none } := by
  have hown := h.own_le cpu
  refine ⟨?_, (sub_le ..).trans h.covered, shares_update h.shares ⟨rfl, rfl⟩⟩
  have hsum := sum_update sys.pool.reservedByCpu cpu 0
  have htotal := h.total
  simp only [reservationRelease]
  omega

end

lemma reserve_refused (h : sys.pool.reserve cpu count = (false, pool)) : pool = sys.pool := by
  rw [reserve] at h
  split_ifs at h
  · cases (Prod.mk.inj h).1
  · exact (Prod.mk.inj h).2.symm

lemma Reserved.step (h : Reserved sys) (hc : Consistent sys) (hstep : Step sys sys') : Reserved sys' := by
  obtain ⟨hs, hok⟩ := hc
  cases hstep with
  | alloc cpu tag heq =>
    obtain ⟨htook, -, hadmits, hreserves⟩ := hs.pageAlloc_some heq
    exact h.consume hadmits hreserves htook.freeCount
  | allocRefused cpu tag heq =>
    obtain ⟨rfl, -⟩ := hs.pageAlloc_none heq
    exact h
  | allocRun cpu count tag heq =>
    obtain ⟨htook, rfl, -, hadmits, hreserves⟩ := hs.pageAllocContiguous_some heq
    exact h.consume hadmits hreserves htook.freeCount
  | allocRunRefused cpu count tag heq =>
    obtain rfl := hs.pageAllocContiguous_none heq
    exact h
  | transfer hheld hkind | split hheld hkind hcount => exact h.same rfl h.covered
  | install hheld =>
    refine h.same ?_ ?_
    · rfl
    · exact h.covered
  | retain physical limit heq hindex =>
    obtain ⟨-, -, -, -, -, rfl⟩ := retain_spec hs.geometry heq hindex
    refine h.same ?_ ?_
    · rfl
    · exact h.covered
  | retainRefused physical limit heq hresult =>
    obtain rfl := retain_refused heq hresult
    exact h
  | release hheld hr =>
    have hreleased := hs.release (hok.perm hheld) hr
    exact h.same hreleased.reserves (h.covered.trans hreleased.freeCount)
  | releaseAgain hfree =>
    rw [hs.releaseAgain hfree]
    refine h.same ?_ ?_
    · rfl
    · exact h.covered
  | reserve cpu count heq => exact h.reserve heq
  | reserveRefused cpu count heq =>
    obtain rfl := reserve_refused heq
    exact h
  | reservationRelease cpu hgrant => exact h.release cpu

lemma Reserved.run (h : Reserved sys) (hc : Consistent sys)
    (hrun : Relation.ReflTransGen Step sys sys') : Reserved sys' := by
  induction hrun with
  | refl => exact h
  | tail hbefore hstep ih => exact ih.step (hc.run hbefore) hstep

lemma Reserved.available (h : Reserved sys) (hc : Consistent sys) {g : Grant}
    (hgrant : sys.grants cpu = some g) (hleft : g.allocated < g.reserved) :
    sys.pool.freeHead < sys.pool.pageCount ∧ sys.pool.reserveAdmits cpu 1 = true := by
  have hshare := h.shares cpu
  rw [hgrant] at hshare
  have hown : sys.pool.reservedByCpu cpu = g.reserved - g.allocated := hshare.2.1
  have hle := h.own_le cpu
  have hcovered := h.covered
  refine ⟨?_, (h.admits_iff cpu 1).mpr (by omega)⟩
  obtain ⟨l, hl, -⟩ := hc.sound.listed
  have hcount := hl.count
  cases l with
  | nil =>
    rw [length_nil] at hcount
    omega
  | cons i l =>
    have hhead : sys.pool.freeHead = i := hl.links.head_eq
    rw [hhead]
    exact hl.links.lt i (mem_cons_self ..)

structure Unreserved (sys : System) : Prop where
  total : sys.pool.reservedTotal = 0
  own : ∀ cpu, sys.pool.reservedByCpu cpu = 0
  active : ∀ cpu, sys.pool.reserveActive cpu = false
  grants : ∀ cpu, sys.grants cpu = none

lemma Unreserved.reserved (h : Unreserved sys) : Reserved sys := by
  refine ⟨?_, ?_, fun cpu => ?_⟩
  · rw [h.total]
    exact (sum_eq_zero fun cpu _ => h.own cpu).symm
  · rw [h.total]
    exact zero_le _
  · rw [h.grants cpu]
    exact ⟨h.active cpu, h.own cpu⟩

/-- After any calls the free pages cover the reservations, the sum of the CPUs' shares; a CPU with
pages left of its reservation is refused one only for its tag or for want of generations; and a
release returns, as a `usize`, the pages taken past the reservation. -/
theorem reservations_honoured (hc : Consistent sys) (hnone : Unreserved sys)
    (hrun : Relation.ReflTransGen Step sys sys') :
    sys'.pool.reservedTotal ≤ sys'.pool.freeCount ∧
      sys'.pool.reservedTotal = ∑ cpu, sys'.pool.reservedByCpu cpu ∧
      (∀ cpu g tag pool, sys'.grants cpu = some g → g.allocated < g.reserved →
        sys'.pool.pageAlloc cpu tag = (none, pool) →
          tag = .unowned ∨ tag = .unavailable ∨ sys'.pool.nextGeneration = 0) ∧
      ∀ cpu g, sys'.grants cpu = some g →
        (sys'.pool.reservationRelease cpu).1 = (g.allocated - g.reserved) % 2 ^ 64 := by
  have hc' := hc.run hrun
  have h := hnone.reserved.run hc hrun
  refine ⟨h.covered, h.total, ?_, ?_⟩
  · intro cpu g tag pool hgrant hleft hrefused
    obtain ⟨hhead, hadmits⟩ := h.available hc' hgrant hleft
    obtain ⟨-, hreason⟩ := hc'.sound.pageAlloc_none hrefused
    obtain htag | htag | hgeneration | hempty | hshare := hreason
    · exact .inl htag
    · exact .inr (.inl htag)
    · exact .inr (.inr hgeneration)
    · exact absurd hhead (not_lt.mpr hempty)
    · rw [hadmits] at hshare
      cases hshare
  · intro cpu g hgrant
    have hshare := h.shares cpu
    rw [hgrant] at hshare
    exact hshare.2.2

end Reserved

/-! ## The width of the counter -/

open scoped Smp

def onePage (page run overdrawn : ℕ) (active : Bool) : Pool where
  pageCount := 1
  metas := fun _ => ⟨false, .unowned, 0, 1, 1, pageSize⟩
  extents := [⟨pageSize, 2 * pageSize, 0⟩]
  placed := fun _ => true
  freeHead := 0
  freeCount := 1
  nextGeneration := page
  runGeneration := run
  doubleRemoveCount := 0
  reservedTotal := 0
  reservedByCpu := fun _ => 0
  reserveActive := update (fun _ => false) 0 active
  reserveOverdrawn := update (fun _ => 0) 0 overdrawn

def onePageTaken (page run overdrawn : ℕ) : Pool :=
  { onePage page run overdrawn true with
    metas := update (fun _ => ⟨false, .unowned, 0, 1, 1, pageSize⟩) 0
      ⟨true, .userPage, 0, 1, 1, pageSize⟩
    placed := fun i => !decide (i = 0)
    freeHead := 1
    freeCount := 0 }

lemma Step.trans_release {sys sys' : System} {h : Holder} {rest : List Holder} {r : Release}
    (hstep : Step sys sys') (hheld : sys'.holders.Perm (h :: rest)) (hr : h.Releases r) :
    Relation.ReflTransGen Step sys { sys' with pool := r.apply sys'.pool, holders := rest } :=
  (Relation.ReflTransGen.single hstep).tail (.release hheld hr)

section OnePage
variable {page run overdrawn : ℕ}

lemma onePage_sound (page run overdrawn : ℕ) (active : Bool) : Sound (onePage page run overdrawn active) where
  geometry := by
    refine ⟨by simp [onePage], ?_, pairwise_singleton .., ?_, ?_, ?_⟩
    · simp [onePage, pageSize]
    · simp [onePage, pageSize, pages]
    · intro e he k hk
      obtain rfl := List.mem_singleton.mp he
      simp only [pages, pageSize] at hk
      obtain rfl : k = 0 := by omega
      rfl
    · intro i hi
      obtain rfl := lt_one_iff.mp hi
      exact ⟨_, List.mem_singleton.mpr rfl, 0, by decide, rfl⟩
  listed := by
    refine ⟨[0], ⟨?_, rfl⟩, fun i => ?_⟩
    · exact ⟨⟨0, rfl, rfl, rfl, rfl⟩, List.nodup_singleton 0, fun i hi => by simp_all [onePage]⟩
    · rw [List.mem_singleton]
      exact ⟨fun hi => ⟨by rw [hi]; exact one_pos, rfl, rfl⟩, fun hi => lt_one_iff.mp hi.1⟩
  placed i _ := iff_of_true rfl ⟨rfl, rfl⟩
  tagged i _ _ := .inl rfl
  counted i _ := Nat.two_pow_pos 32

lemma onePage_alloc (hpage : page ≠ 0) :
    (onePage page run overdrawn true).pageAlloc 0 .userPage = (some ⟨0, pageSize, page⟩,
      onePageTaken (freelistGenerationAfter page) run ((overdrawn + 1) % 2 ^ 64)) := by
  simp [pageAlloc, pageAllocLocked, reserveAdmits, reserveConsume, popHead,
    setPrev, setMeta, setPlaced, physicalForIndex, ownerFromPlaces,
    framesTake, framesAt, extentOf, pages, pageSize, onePage, onePageTaken,
    occupy, hpage]

lemma onePageTaken_free (page run overdrawn generation : ℕ) :
    (onePageTaken page run overdrawn).pageFree ⟨0, pageSize, generation⟩ =
      onePage page run overdrawn true := by
  simp [pageFree, framesGive, framesAt, extentOf, pages, pageSize,
    setPlaced, setMeta, setNext, setPrev, releaseIndex,
    runtimeLinkHead, vacate, u32, onePage, onePageTaken]

lemma onePage_run (hrun : run ≠ 0) :
    (onePage page run overdrawn true).pageAllocContiguous 0 1 .userPage =
      (some ⟨0, pageSize, 1, run⟩,
        onePageTaken page (freelistGenerationAfter run) ((overdrawn + 1) % 2 ^ 64)) := by
  simp [pageAllocContiguous, allocContiguousLocked, claimHead, runClaim,
    runIsFree, unlinkRun, occupyRun, reserveAdmits, reserveConsume,
    setPrev, setNext, setAfter, setMeta, setFreeCount, setPlaced,
    runtimeUnlink, physicalForIndex, framesTake, framesAt, extentOf,
    pages, pageSize, usizeMax, onePage, onePageTaken, occupy, u32, hrun]

lemma onePageTaken_runFree (page run overdrawn generation : ℕ) :
    (onePageTaken page run overdrawn).pageRunFree ⟨0, pageSize, 1, generation⟩ =
      onePage page run overdrawn true := by
  simp [pageRunFree, runReleaseIndices, releaseRunIndex, framesGive,
    framesAt, extentOf, pages, pageSize, setPlaced, setMeta,
    setNext, setPrev, releaseIndex, runtimeLinkHead, vacate, u32, onePage,
    onePageTaken]

def pastReservation (page run allocated : ℕ) : System :=
  ⟨onePage page run (allocated % 2 ^ 64) true, [], update (fun _ => none) 0 (some ⟨0, allocated⟩)⟩

lemma draw_pastReservation (page run allocated : ℕ) :
    draw (pastReservation page run allocated).grants 0 1 =
      (pastReservation page run (allocated + 1)).grants := by
  simp [draw, pastReservation]

lemma pastReservation_alloc (run allocated : ℕ) (hpage : page ≠ 0) :
    Relation.ReflTransGen Step (pastReservation page run allocated)
      (pastReservation (freelistGenerationAfter page) run (allocated + 1)) := by
  have htake : Step (pastReservation page run allocated) _ := .alloc 0 .userPage (onePage_alloc hpage)
  have hgive := htake.trans_release (.refl _) (.page ⟨0, pageSize, page⟩)
  rw [Release.apply, onePageTaken_free, draw_pastReservation, mod_add_mod] at hgive
  exact hgive

lemma pastReservation_run (page allocated : ℕ) (hrun : run ≠ 0) :
    Relation.ReflTransGen Step (pastReservation page run allocated)
      (pastReservation page (freelistGenerationAfter run) (allocated + 1)) := by
  have htake : Step (pastReservation page run allocated) _ := .allocRun 0 1 .userPage (onePage_run hrun)
  have hgive := htake.trans_release (.refl _) (.run ⟨0, pageSize, 1, run⟩)
  rw [Release.apply, onePageTaken_runFree, draw_pastReservation, mod_add_mod] at hgive
  exact hgive

lemma pastReservation_allocs {allocated : ℕ} (h : allocated < usizeMax) :
    Relation.ReflTransGen Step (pastReservation 1 1 0) (pastReservation (allocated + 1) 1 allocated) := by
  induction allocated with
  | zero => exact .refl
  | succ allocated ih =>
    have hstep := pastReservation_alloc 1 allocated (succ_ne_zero allocated)
    rw [freelistGenerationAfter, if_neg (by omega)] at hstep
    exact (ih (by omega)).trans hstep

lemma onePage_unreserved (page run : ℕ) : Unreserved ⟨onePage page run 0 false, [], fun _ => none⟩ :=
  ⟨rfl, fun _ => rfl, fun cpu => by simp [onePage], fun _ => rfl⟩

lemma onePage_consistent (page run : ℕ) : Consistent ⟨onePage page run 0 false, [], fun _ => none⟩ :=
  ⟨onePage_sound .., nofun, List.Pairwise.nil, nofun⟩

lemma onePage_reserve (page run : ℕ) :
    Step ⟨onePage page run 0 false, [], fun _ => none⟩ (pastReservation page run 0) := by
  have hreserve : (onePage page run 0 false).reserve 0 0 = (true, onePage page run 0 true) := by
    simp [reserve, onePage]
  exact .reserve 0 0 hreserve

/-- The pool with its page reserved by CPU 0. -/
def onePageReserved : System :=
  ⟨{ onePage 1 1 0 true with reservedTotal := 1, reservedByCpu := update (fun _ => 0) 0 1 }, [],
    update (fun _ => none) 0 (some ⟨1, 0⟩)⟩

lemma onePageReserved_step : Step ⟨onePage 1 1 0 false, [], fun _ => none⟩ onePageReserved := by
  have hreserve : (onePage 1 1 0 false).reserve 0 1 = (true, onePageReserved.pool) := by
    simp [reserve, onePage, onePageReserved]
  exact .reserve 0 1 hreserve

/-- A CPU that reserved the one page is not refused it, and one that reserved none and took a page
returns one. -/
theorem reservations_honoured_onePage : Unreserved ⟨onePage 1 1 0 false, [], fun _ => none⟩ ∧
      (onePageReserved.pool.reservedTotal = 1 ∧
        ∀ pool, onePageReserved.pool.pageAlloc 0 .userPage ≠ (none, pool)) ∧
      ((pastReservation 2 1 1).pool.reservationRelease 0).1 = 1 := by
  have hreserved := reservations_honoured (onePage_consistent 1 1) (onePage_unreserved 1 1)
    (.single onePageReserved_step)
  have hrun := (pastReservation_alloc 1 0 one_ne_zero).head (onePage_reserve 1 1)
  have honoured := reservations_honoured (onePage_consistent 1 1) (onePage_unreserved 1 1) hrun
  refine ⟨onePage_unreserved 1 1, ⟨rfl, fun pool hrefused => ?_⟩, honoured.2.2.2 0 ⟨0, 1⟩ rfl⟩
  obtain htag | htag | hgeneration := hreserved.2.2.1 0 ⟨1, 0⟩ .userPage pool rfl one_pos hrefused
  · cases htag
  · cases htag
  · cases hgeneration

/-- A CPU takes 2^64 pages past its reservation, and the release returns none. -/
theorem overdrawn_wraps : ∃ sys : System,
    Relation.ReflTransGen Step ⟨onePage 1 1 0 false, [], fun _ => none⟩ sys ∧
      sys.grants 0 = some ⟨0, 2 ^ 64⟩ ∧ (sys.pool.reservationRelease 0).1 = 0 := by
  have hpages := @pastReservation_allocs (usizeMax - 1) (by decide)
  have hrun := pastReservation_run (usizeMax - 1 + 1) (usizeMax - 1) one_ne_zero
  have hrun' := pastReservation_run (usizeMax - 1 + 1) (usizeMax - 1 + 1) two_ne_zero
  refine ⟨_, ((hpages.trans hrun).trans hrun').head (onePage_reserve 1 1), ?_, ?_⟩
  · rfl
  · rfl

end OnePage
end Takibi.Page
