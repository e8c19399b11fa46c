import Takibi.Page.Give

/-! Pages that are handed out: a page from the head of the free list, and runs of pages found in
an extent. On a sound pool neither leaves a page occupied that has no owner. -/

namespace Takibi.Page
open Function Pool List Nat

structure Took (pool pool' : Pool) (first count : ℕ) (tag : PageOwnerTag) : Prop where
  sound : Sound pool'
  layout : SameLayout pool pool'
  inExtent : InExtent pool first count
  free : ∀ k < count, (pool.mark (first + k)).Free
  marks : pool'.mark = onRun first count (Mark.takenBy tag) pool.mark
  freeCount : pool'.freeCount + count = pool.freeCount

variable {e : PageExtent} {physical : ℕ}

section Taking
variable {pool pool' pool'' : Pool} {l : List ℕ} {first count i : ℕ} {tag : PageOwnerTag}

lemma Took.same (h : Took pool pool' first count tag) (hsame : SameTables pool' pool'') :
    Took pool pool'' first count tag where
  sound := h.sound.same hsame
  layout := h.layout.trans hsame.layout
  inExtent := h.inExtent
  free := h.free
  marks := hsame.mark.trans h.marks
  freeCount := by
    rw [hsame.freeCount]
    exact h.freeCount

lemma Took.of_same (hsame : SameTables pool pool') (h : Took pool' pool'' first count tag) :
    Took pool pool'' first count tag where
  sound := h.sound
  layout := hsame.layout.trans h.layout
  inExtent := by
    obtain ⟨hcount, e, he, k, hk⟩ := h.inExtent
    rw [hsame.layout.extents] at he
    exact ⟨hcount, e, he, k, hk⟩
  free := by
    rw [← hsame.mark]
    exact h.free
  marks := by
    rw [← hsame.mark]
    exact h.marks
  freeCount := by
    rw [← hsame.freeCount]
    exact h.freeCount

lemma Sound.took (hs : Sound pool) (hin : InExtent pool first count)
    (hfree : ∀ k < count, (pool.mark (first + k)).Free) (hlayout : SameLayout pool pool')
    (hmarks : pool'.mark = onRun first count (Mark.takenBy tag) pool.mark)
    (hplaced : pool'.placed = (pool.setPlaced first count false).placed)
    (hcount : pool'.freeCount + count = pool.freeCount) (hlist : ∃ l, OnList pool' l ∧
      ∀ j, j ∈ l ↔ (j < pool.pageCount ∧ (pool.mark j).Free) ∧ ¬ InRun first count j) :
    Took pool pool' first count tag := by
  have hlisted : Listed pool' := by
    obtain ⟨l, hl, hmem⟩ := hlist
    refine ⟨l, hl, fun j => ?_⟩
    rw [hmem, hlayout.pageCount, hmarks, and_assoc]
    by_cases hrun : InRun first count j
    · rw [onRun_of_mem hrun]
      exact and_congr_right fun _ => iff_of_false (fun h => h.2 hrun) (Mark.not_free_takenBy _ _)
    · rw [onRun_of_notMem hrun, and_iff_left hrun]
  exact ⟨hs.markRun hlayout hmarks hplaced hlisted fun _ => ⟨rfl, nofun, rfl⟩, hlayout, hin, hfree, hmarks, hcount⟩

lemma InExtent.framesTake (h : InExtent pool first count) (hg : Geometry pool)
    (hin : ∀ k < count, pool.placed (first + k) = true) :
    pool.framesTake (pool.metas first).physical count = some (pool.setPlaced first count false) := by
  rw [Pool.framesTake, h.framesAt hg, Option.bind_some, if_pos hin]

/-! ## A single page -/

lemma Sound.head (hs : Sound pool) (hhead : pool.freeHead < pool.pageCount) :
    (pool.mark pool.freeHead).Free ∧ ∃ l, OnList pool (pool.freeHead :: l) ∧
      ∀ j, j ∈ pool.freeHead :: l ↔ j < pool.pageCount ∧ (pool.mark j).Free := by
  obtain ⟨l, hl, hmem⟩ := hs.listed
  cases l with
  | nil =>
    rw [hl.links.head_eq] at hhead
    exact absurd hhead (lt_irrefl _)
  | cons i l =>
    have hi : pool.freeHead = i := hl.links.head_eq
    rw [hi]
    exact ⟨((hmem i).mp (mem_cons_self ..)).2, l, hl, hmem⟩

lemma Sound.popped (hs : Sound pool) {t : PageOwnerTag} (hhead : pool.freeHead < pool.pageCount) :
    Took pool ((pool.popHead.setMeta pool.freeHead (occupy t)).setPlaced pool.freeHead 1 false)
      pool.freeHead 1 t := by
  obtain ⟨hfree, l, hl, hmem⟩ := hs.head hhead
  obtain ⟨-, hpopped⟩ := hl.popHead hs.geometry.count_le
  have hrelinked := popHead_relinked pool
  have hlayout : SameLayout pool (pool.popHead.setMeta pool.freeHead (occupy t)) :=
    hrelinked.layout.trans (setMeta_layout pool.popHead (f := occupy t) (fun _ => rfl) _)
  have hmarked : OnList (pool.popHead.setMeta pool.freeHead (occupy t)) l :=
    hpopped.setMeta (f := occupy t) (fun _ => rfl) (fun _ => rfl) _
  have hcount : pool.popHead.freeCount + 1 = pool.freeCount := by
    rw [hpopped.count, hl.count]
    rfl
  refine hs.took (hs.geometry.inExtent_one hhead) ?_ (hlayout.trans (setPlaced_layout ..)) ?_ ?_ hcount
    ⟨l, ⟨hmarked.links, hmarked.count⟩, fun j => ?_⟩
  · intro k hk
    obtain rfl : k = 0 := by omega
    exact hfree
  · have hmark : (pool.popHead.metas pool.freeHead).mark = pool.mark pool.freeHead :=
      congrFun hrelinked.marks pool.freeHead
    rw [onRun_one, ← hmark, ← hrelinked.marks]
    exact setMeta_mark ..
  · exact setPlaced_placed hrelinked.placed
  · have hnodup := hl.links.nodup
    rw [← hmem, inRun_one, mem_cons]
    constructor
    · intro hj
      refine ⟨.inr hj, ?_⟩
      rintro rfl
      exact (nodup_cons.mp hnodup).1 hj
    · rintro ⟨hj | hj, hne⟩
      · exact absurd hj hne
      · exact hj

def PageRefused (pool : Pool) (cpu : Cpu) (tag : PageOwnerTag) : Prop :=
  tag = .unowned ∨ tag = .unavailable ∨ pool.nextGeneration = 0 ∨ pool.pageCount ≤ pool.freeHead ∨
    pool.reserveAdmits cpu 1 = false

lemma pageAlloc_refused {cpu : Cpu} (h : PageRefused pool cpu tag) :
    pool.pageAlloc cpu tag = (none, pool) := by
  unfold pageAlloc pageAllocLocked
  obtain h | h | h | h | h := h
  · rw [if_pos (.inl h)]
  · rw [if_pos (.inr h)]
  · simp only [if_pos h, ite_self]
  · simp only [ge_iff_le, if_pos h, ite_self]
  · simp only [if_pos h, ite_self]

lemma Sound.pageAlloc (hs : Sound pool) {cpu : Cpu} (h : ¬ PageRefused pool cpu tag) :
    ∃ pool', pool.pageAlloc cpu tag = (some ⟨pool.freeHead, (pool.metas pool.freeHead).physical,
        pool.nextGeneration⟩, pool') ∧
      Took pool pool' pool.freeHead 1 tag ∧ pool'.reserves = (pool.reserveConsume cpu 1).reserves := by
  simp only [PageRefused, not_or, not_le] at h
  obtain ⟨hunowned, hunavailable, hgeneration, hhead, hadmits⟩ := h
  have htables := reserveConsume_tables pool cpu 1
  set drawn := pool.reserveConsume cpu 1 with hdrawn
  have hs' : Sound drawn := hs.same htables
  have hhead_eq : drawn.freeHead = pool.freeHead := by rw [htables.rest]
  have hhead' : drawn.freeHead < drawn.pageCount := by
    rw [hhead_eq, htables.layout.pageCount]
    exact hhead
  have htook := hs'.popped (t := tag) hhead'
  set taken : Pool := { drawn.popHead.setMeta drawn.freeHead (occupy tag) with
    nextGeneration := freelistGenerationAfter pool.nextGeneration } with htaken
  have hoccupied : SameLayout drawn (drawn.popHead.setMeta drawn.freeHead (occupy tag)) :=
    (popHead_relinked drawn).layout.trans (setMeta_layout _ (f := occupy tag) (fun _ => rfl) _)
  have hlayout : SameLayout drawn taken := { hoccupied with }
  have hgeometry : Geometry taken := hs'.geometry.same hlayout
  have hlt : drawn.freeHead < taken.pageCount := by
    rw [hlayout.pageCount]
    exact hhead'
  have hplaced : ∀ k < 1, taken.placed (drawn.freeHead + k) = true := by
    intro k hk
    obtain rfl : k = 0 := by omega
    have hsame : taken.placed = drawn.placed := (popHead_relinked drawn).placed
    rw [hsame]
    exact (hs'.placed _ hhead').mpr (hs'.head hhead').1
  have hframes := (hgeometry.inExtent_one hlt).framesTake hgeometry hplaced
  have hphysical : (taken.metas drawn.freeHead).physical = (pool.metas pool.freeHead).physical := by
    rw [hlayout.physical, htables.layout.physical, hhead_eq]
  have hresult : Took drawn (taken.setPlaced drawn.freeHead 1 false) drawn.freeHead 1 tag :=
    htook.same ⟨rfl⟩
  rw [hhead_eq] at hresult
  refine ⟨taken.setPlaced pool.freeHead 1 false, ?_, .of_same htables hresult, ?_⟩
  · rw [Pool.pageAlloc, if_neg (not_or.mpr ⟨hunowned, hunavailable⟩)]
    simp only [pageAllocLocked]
    rw [if_neg hgeneration, if_neg (not_le.mpr hhead), if_neg hadmits, ← hhead_eq, ← hdrawn, ← htaken,
      physicalForIndex, if_pos hlt]
    dsimp only
    rw [ownerFromPlaces, hframes, hphysical, hhead_eq]
  · exact (popHead_relinked drawn).reserves

/-! ## A run -/

def outside (first count : ℕ) (l : List ℕ) : List ℕ := l.filter fun j => ¬ InRun first count j

lemma mem_outside : i ∈ outside first count l ↔ i ∈ l ∧ ¬ InRun first count i := by
  rw [outside, mem_filter, decide_eq_true_eq]

lemma outside_succ (hnodup : l.Nodup) :
    outside first (count + 1) l = (outside first count l).erase (first + count) := by
  have hinner : (outside first count l).Nodup := hnodup.filter _
  rw [hinner.erase_eq_filter, outside, outside, filter_filter]
  refine filter_congr fun j _ => ?_
  by_cases hj : j = first + count <;> simp [inRun_succ, hj]

lemma OnList.unlinkRun (hl : OnList pool l) (hcap : pool.pageCount ≤ 0xFFFFFFFF)
    (hon : ∀ k < count, first + k ∈ l) :
    (pool.unlinkRun first count).1 = count ∧ Relinked pool (pool.unlinkRun first count).2 ∧
      OnList (pool.unlinkRun first count).2 (outside first count l) ∧
      (outside first count l).length + count = l.length := by
  induction count with
  | zero =>
    have hall : outside first 0 l = l := filter_eq_self.mpr fun j _ => by simp [InRun]
    rw [hall]
    exact ⟨rfl, .refl pool, hl, rfl⟩
  | succ count ih =>
    obtain ⟨hunlinked, hrelinked, hl', hlength⟩ := ih fun k hk => hon k (by omega)
    set before := pool.unlinkRun first count with hbefore
    have hcap' : before.2.pageCount ≤ 0xFFFFFFFF := by
      rw [hrelinked.pageCount]
      exact hcap
    have hcandidate : first + count ∈ outside first count l :=
      mem_outside.mpr ⟨hon count (by omega), by simp only [InRun]; omega⟩
    obtain ⟨hone, hlist⟩ := hl'.unlink hcap' hcandidate
    have hstep : pool.unlinkRun first (count + 1) =
        (before.1 + 1, (before.2.runtimeUnlink (first + count)).2) := by
      rw [Pool.unlinkRun, ← hbefore]
      simp only [hone, if_true]
    have hlength' := length_erase_of_mem hcandidate
    have hpos := length_pos_of_mem hcandidate
    rw [hstep, outside_succ hl.links.nodup]
    exact ⟨congrArg (· + 1) hunlinked, hrelinked.trans (runtimeUnlink_relinked ..), hlist, by omega⟩

structure Occupied (pool pool' : Pool) (first count : ℕ) (tag : PageOwnerTag) : Prop where
  layout : SameLayout pool pool'
  marks : pool'.mark = onRun first count (Mark.takenBy tag) pool.mark
  onList : ∀ l, OnList pool l → OnList pool' l
  rest : pool' = { pool with metas := pool'.metas }

lemma occupyRun_occupied (tag : PageOwnerTag) (hlt : ∀ k < count, first + k < pool.pageCount) :
    Occupied pool (pool.occupyRun tag first count) first count tag := by
  induction count with
  | zero => exact ⟨.refl pool, onRun_zero.symm, fun _ h => h, rfl⟩
  | succ count ih =>
    have hih := ih fun k hk => hlt k (by omega)
    set before := pool.occupyRun tag first count with hbefore
    have hi : first + count < before.pageCount := by
      rw [hih.layout.pageCount]
      exact hlt count (by omega)
    have hstep : pool.occupyRun tag first (count + 1) = before.setMeta (first + count) (occupy tag) := by
      simp only [occupyRun, ← hbefore, if_pos hi]
    have hmark : before.mark (first + count) = pool.mark (first + count) := by
      rw [hih.marks, onRun_last]
    rw [hstep]
    refine ⟨hih.layout.trans (setMeta_layout _ (f := occupy tag) (fun _ => rfl) _), ?_,
      fun l hl => (hih.onList l hl).setMeta (f := occupy tag) (fun _ => rfl) (fun _ => rfl) _, ?_⟩
    · rw [setMeta_mark, occupy_mark, onRun_succ, ← hih.marks, ← hmark]
      rfl
    · have hrest := hih.rest
      rw [setMeta]
      conv_lhs => rw [hrest]

def RunGranted (pool : Pool) (count : ℕ) (tag : PageOwnerTag) (r : Option PageRunOwner × Pool) : Prop :=
  r = (none, pool) ∨ ∃ first pool',
    r = (some ⟨first, (pool.metas first).physical, count, pool.runGeneration⟩, pool') ∧
      Took pool pool' first count tag ∧ pool'.reserves = pool.reserves

lemma Sound.runIsFree_of_free (hs : Sound pool) (hin : InExtent pool first count)
    (hfree : ∀ k < count, (pool.mark (first + k)).Free) : pool.runIsFree first count = true := by
  refine all_eq_true.mpr fun k hk => ?_
  have hk' := mem_range.mp hk
  obtain ⟨hoccupied, howner⟩ : (pool.metas (first + k)).occupied = false ∧ (pool.metas (first + k)).owner = .unowned :=
    hfree k hk'
  have hlt := hin.lt hs.geometry hk'
  obtain ⟨-, e, he, j, rfl, hj⟩ := hin
  have hphysical : k ≠ 0 → (pool.metas (e.firstIndex + j + k)).physical =
      (pool.metas (e.firstIndex + j + k - 1)).physical + pageSize := by
    intro hpos
    rw [Nat.add_assoc, show e.firstIndex + (j + k) - 1 = e.firstIndex + (j + k - 1) by omega,
      hs.geometry.physical e he _ (by omega), hs.geometry.physical e he _ (by omega), pageSize]
    omega
  simp only [hoccupied, howner, Bool.and_eq_true, decide_eq_true_eq, Bool.or_eq_true]
  refine ⟨⟨⟨hlt, ?_⟩, ?_⟩, ?_⟩
  · simp
  · simp
  · by_cases hzero : k = 0
    · exact .inl hzero
    · exact .inr (hphysical hzero)

lemma Sound.runClaim_of_free (hs : Sound pool) (tag : PageOwnerTag) (hin : InExtent pool first count)
    (hfree : ∀ k < count, (pool.mark (first + k)).Free) :
    ∃ pool', pool.runClaim first (pool.metas first).physical count tag =
        (some ⟨first, (pool.metas first).physical, count, pool.runGeneration⟩, pool') ∧
      Took pool pool' first count tag ∧ pool'.reserves = pool.reserves := by
  have hlt : ∀ k < count, first + k < pool.pageCount := fun k hk => hin.lt hs.geometry hk
  have hframes := hin.framesTake hs.geometry fun k hk => (hs.placed _ (hlt k hk)).mpr (hfree k hk)
  obtain ⟨l, hl, hmem⟩ := hs.listed
  have hl' : OnList (pool.setPlaced first count false) l := ⟨hl.links, hl.count⟩
  obtain ⟨hunlinked, hrelinked, hlist, hlength⟩ :=
    hl'.unlinkRun hs.geometry.count_le fun k hk => (hmem _).mpr ⟨hlt k hk, hfree k hk⟩
  set cut := (pool.setPlaced first count false).unlinkRun first count with hcut
  have hlt' : ∀ k < count, first + k < cut.2.pageCount := by
    rw [hrelinked.pageCount]
    exact hlt
  have hoccupied := occupyRun_occupied tag hlt'
  set marked := cut.2.occupyRun tag first count with hmarked
  have hgeneration : marked.runGeneration = pool.runGeneration := by
    rw [hoccupied.rest, hrelinked.rest]
    rfl
  have hcount : marked.freeCount + count = pool.freeCount := by
    rw [(hoccupied.onList _ hlist).count, hl.count]
    exact hlength
  have htook : Took pool marked first count tag := by
    refine hs.took hin hfree ((setPlaced_layout ..).trans (hrelinked.layout.trans hoccupied.layout))
      ?_ ?_ hcount ⟨_, hoccupied.onList _ hlist, fun j => ?_⟩
    · rw [hoccupied.marks, hrelinked.marks]
      rfl
    · rw [hoccupied.rest]
      exact hrelinked.placed
    · rw [mem_outside, hmem]
  refine ⟨{ marked with runGeneration := freelistGenerationAfter marked.runGeneration }, ?_, htook.same ⟨rfl⟩, ?_⟩
  · rw [runClaim, if_neg (by rw [hs.runIsFree_of_free hin hfree]; decide), hframes]
    dsimp only
    rw [← hcut, ← hmarked, if_neg (not_not.mpr hunlinked), hgeneration]
  · have hreserves : marked.reserves = cut.2.reserves := by
      rw [hoccupied.rest]
      rfl
    exact hreserves.trans hrelinked.reserves

lemma Sound.runClaim (hs : Sound pool) (count : ℕ) (tag : PageOwnerTag) (hi : i < pool.pageCount) :
    RunGranted pool count tag (pool.runClaim i (pool.metas i).physical count tag) := by
  by_cases hrun : pool.runIsFree i count = false
  · rw [Pool.runClaim, if_pos hrun]
    exact .inl rfl
  cases hframes : pool.framesTake (pool.metas i).physical count with
  | none =>
    rw [Pool.runClaim, if_neg hrun, hframes]
    exact .inl rfl
  | some taken =>
    rw [framesTake] at hframes
    obtain ⟨first, hat, htaken⟩ := Option.bind_eq_some_iff.mp hframes
    obtain ⟨rfl, hin⟩ := hs.geometry.inExtent_of_framesAt hi hat
    obtain ⟨hplaced, -⟩ := Option.ite_none_right_eq_some.mp htaken
    obtain ⟨pool', hsome, htook, hreserves⟩ := hs.runClaim_of_free tag hin fun k hk =>
      (hs.placed _ (hin.lt hs.geometry hk)).mp (hplaced k hk)
    exact .inr ⟨first, pool', hsome, htook, hreserves⟩

lemma Geometry.page_at (hg : Geometry pool) (he : e ∈ pool.extents)
    (hle : e.start ≤ physical) (hlt : physical < e.stop) (haligned : physical % pageSize = 0) :
    e.firstIndex + (physical - e.start) / pageSize < pool.pageCount ∧
      (pool.metas (e.firstIndex + (physical - e.start) / pageSize)).physical = physical := by
  have hindex := hg.of_indexForPhysical (p := physical)
    (i := e.firstIndex + (physical - e.start) / pageSize) (by
      rw [indexForPhysical, haligned, Nat.sub_zero, hg.extentOf_eq he ⟨hle, hlt⟩]
      rfl)
  rw [haligned, Nat.sub_zero] at hindex
  exact hindex

lemma Sound.runScan (hs : Sound pool) (count : ℕ) (tag : PageOwnerTag) (he : e ∈ pool.extents) (physical : ℕ)
    (hle : e.start ≤ physical) (haligned : physical % pageSize = 0) :
    RunGranted pool count tag (runScan e count tag pool physical) := by
  -- The addresses that are left in the extent.
  induction hn : e.stop - physical using Nat.strong_induction_on generalizing physical with
  | _ n ih =>
    subst hn
    rw [Pool.runScan]
    by_cases hroom : 0 < count * pageSize ∧ physical < e.stop ∧ count * pageSize ≤ e.stop - physical
    · rw [dif_pos hroom]
      dsimp only
      obtain ⟨hi, hphysical⟩ := hs.geometry.page_at he hle hroom.2.1 haligned
      have hclaim := hs.runClaim count tag hi
      rw [hphysical] at hclaim
      obtain hnone | ⟨first, pool', hsome, htook⟩ := hclaim
      · rw [hnone]
        dsimp only
        split_ifs with hmax
        · exact .inl rfl
        · refine ih _ (by omega) _ (by omega) ?_ rfl
          rw [add_mul_mod_self_right]
          exact haligned
      · rw [hsome]
        exact .inr ⟨first, pool', rfl, htook⟩
    · rw [dif_neg hroom]
      exact .inl rfl

lemma runStart_spec (hcount : 0 < count)
    (h : runStart e (count * pageSize) = some physical) :
    e.start ≤ physical ∧ physical % pageSize = 0 := by
  have hpos : 0 < count * pageSize := Nat.mul_pos hcount (by decide)
  have hdiv := div_add_mod e.start (count * pageSize)
  have hmod := mod_lt e.start hpos
  -- The multiple of the run's size at or above the start.
  have hnext : e.start ≤ physical ∧ count * pageSize ∣ physical := by
    simp only [runStart] at h
    split_ifs at h with hskew hmax
    · cases h
      exact ⟨le_rfl, dvd_of_mod_eq_zero hskew⟩
    · cases h
      refine ⟨Nat.le_add_right .., e.start / (count * pageSize) + 1, ?_⟩
      rw [Nat.mul_add_one]
      omega
  exact ⟨hnext.1, mod_eq_zero_of_dvd ((Nat.dvd_mul_left pageSize count).trans hnext.2)⟩

lemma Sound.runSearch (hs : Sound pool) (hcount : 0 < count) {extents : List PageExtent}
    (hsub : ∀ e ∈ extents, e ∈ pool.extents) :
    RunGranted pool count tag (runSearch count tag extents pool) := by
  induction extents with
  | nil => exact .inl rfl
  | cons e extents ih =>
    have hrest := ih fun e' he' => hsub e' (mem_cons_of_mem _ he')
    rw [Pool.runSearch]
    cases hstart : runStart e (count * pageSize) with
    | none => exact hrest
    | some physical =>
      obtain ⟨hle, haligned⟩ := runStart_spec hcount hstart
      obtain hnone | ⟨first, pool', hsome, htook⟩ :=
        hs.runScan count tag (hsub e (mem_cons_self ..)) physical hle haligned
      · dsimp only
        rw [hnone]
        exact hrest
      · dsimp only
        rw [hsome]
        exact .inr ⟨first, pool', rfl, htook⟩

lemma Sound.claimHead (hs : Sound pool) (count : ℕ) (tag : PageOwnerTag) :
    RunGranted pool count tag (pool.claimHead count tag) := by
  unfold Pool.claimHead
  by_cases hhead : count = 1 ∧ pool.freeHead < pool.pageCount
  · rw [if_pos hhead, physicalForIndex, if_pos hhead.2]
    exact hs.runClaim count tag hhead.2
  · rw [if_neg hhead]
    exact .inl rfl

lemma Sound.allocContiguousLocked (hs : Sound pool) (count : ℕ) (tag : PageOwnerTag) :
    RunGranted pool count tag (pool.allocContiguousLocked count tag) := by
  unfold Pool.allocContiguousLocked
  by_cases hcount : count < 1
  · rw [if_pos hcount]
    exact .inl rfl
  rw [if_neg hcount]
  split_ifs with hgeneration htag hbytes
  · exact .inl rfl
  · exact .inl rfl
  · exact .inl rfl
  obtain hnone | ⟨first, pool', hsome, htook⟩ := hs.claimHead count tag
  · rw [hnone]
    exact hs.runSearch (by omega) fun e he => he
  · rw [hsome]
    exact .inr ⟨first, pool', rfl, htook⟩

lemma Sound.pageAllocContiguous (hs : Sound pool) (cpu : Cpu) (count : ℕ) (tag : PageOwnerTag) :
    pool.pageAllocContiguous cpu count tag = (none, pool) ∨
      pool.reserveAdmits cpu count = true ∧ ∃ first pool', pool.pageAllocContiguous cpu count tag =
          (some ⟨first, (pool.metas first).physical, count, pool.runGeneration⟩, pool') ∧
        Took pool pool' first count tag ∧
        pool'.reserves = (pool.reserveConsume cpu count).reserves := by
  unfold Pool.pageAllocContiguous
  by_cases hadmits : pool.reserveAdmits cpu count = false
  · rw [if_pos hadmits]
    exact .inl rfl
  rw [if_neg hadmits]
  obtain hnone | ⟨first, pool', hsome, htook, hreserves⟩ :=
    hs.allocContiguousLocked count tag
  · rw [hnone]
    exact .inl rfl
  · rw [hsome]
    refine .inr ⟨Bool.of_not_eq_false hadmits, first, _, rfl,
      htook.same (reserveConsume_tables ..), reserveConsume_reserves hreserves cpu count⟩

end Taking
end Takibi.Page
