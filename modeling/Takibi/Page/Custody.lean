import Takibi.Page.Holders

/-! No page has two holders: what one call does to the holders, and what holds after any number
of calls. -/

namespace Takibi.Page
open Function List

structure Consistent (sys : System) : Prop where
  sound : Sound sys.pool
  holders : HoldersOk sys.pool sys.holders

variable {count physical first : ℕ} {owner : PageOwner}

section Holders
variable {pool pool' : Pool} {h : Holder} {holders rest : List Holder} {i : ℕ} {tag : PageOwnerTag}

lemma InExtent.same (hin : InExtent pool first count)
    (hlayout : SameLayout pool pool') : InExtent pool' first count := by
  obtain ⟨hcount, e, he, k, hk⟩ := hin
  rw [← hlayout.extents] at he
  exact ⟨hcount, e, he, k, hk⟩

section
variable (hok : HolderOk pool h)
include hok

lemma HolderOk.frame (hlayout : SameLayout pool pool')
    (hsame : ∀ i, h.Has i → (pool'.mark i).occupied = (pool.mark i).occupied) :
    HolderOk pool' h where
  inExtent := hok.inExtent.same hlayout
  physical := by
    rw [hlayout.physical]
    exact hok.physical
  occupied i hi := (hsame i hi).trans (hok.occupied i hi)
  single := hok.single

lemma HolderOk.has_of_maps (hmaps : h.Maps i) : h.Has i := by
  obtain ⟨hkind, rfl⟩ := hmaps
  have hsingle := hok.single hkind
  exact ⟨le_rfl, by omega⟩

lemma HolderOk.maps_of_has (hkind : h.kind = .mapping) (hi : h.Has i) : h.Maps i := by
  have hsingle := hok.single hkind
  obtain ⟨hle, hlt⟩ := hi
  exact ⟨hkind, by omega⟩

lemma HolderOk.lt (hg : Geometry pool) (hi : h.Has i) : i < pool.pageCount := hok.inExtent.inRun_lt hg hi

end

lemma HoldersOk.perm (hok : HoldersOk pool holders) (hperm : holders.Perm rest) : HoldersOk pool rest where
  each h hmem := hok.each h (hperm.mem_iff.mpr hmem)
  apart := (hperm.pairwise_iff fun hapart => hapart.symm).mp hok.apart
  refs i hi hoccupied := by
    rw [hok.refs i hi hoccupied]
    exact hperm.countP_eq _

lemma countP_maps_eq_zero (hnone : ∀ h ∈ holders, ¬ h.Maps i) : (holders.countP fun h => h.Maps i) = 0 :=
  countP_eq_zero.mpr fun h hmem => by simpa using hnone h hmem

/-! ## One call -/

lemma HoldersOk.fresh (hok : HoldersOk pool holders)
    (htook : Took pool pool' first count tag) {h : Holder} (hmem : h ∈ holders) {i : ℕ}
    (hi : InRun first count i) : ¬ h.Has i := by
  intro hhas
  obtain ⟨k, hk, rfl⟩ := hi.exists_add
  have hoccupied := (hok.each h hmem).occupied _ hhas
  rw [(htook.free k hk).1] at hoccupied
  cases hoccupied

lemma HoldersOk.cons (hok : HoldersOk pool rest) (hh : HolderOk pool h) (hkind : h.kind ≠ .mapping)
    (halone : ∀ h' ∈ rest, ∀ i, h.Has i → ¬ h'.Has i) : HoldersOk pool (h :: rest) where
  each := forall_mem_cons.mpr ⟨hh, hok.each⟩
  apart := pairwise_cons.mpr ⟨fun h' hmem => .inl (halone h' hmem), hok.apart⟩
  refs i hi hoccupied := by
    have hnew : ¬ h.Maps i := fun hmaps => hkind hmaps.1
    rw [countP_cons_of_neg (by simpa using hnew)]
    exact hok.refs i hi hoccupied

lemma HoldersOk.took (hok : HoldersOk pool holders) (htook : Took pool pool' h.first h.count tag)
    (hphysical : h.physical = (pool.metas h.first).physical) (hkind : h.kind ≠ .mapping) :
    HoldersOk pool' (h :: holders) := by
  -- The pages that were held are not among those handed out.
  have hheld : ∀ h' ∈ holders, ∀ i, h.Has i → ¬ h'.Has i := fun h' hmem i hi => hok.fresh htook hmem hi
  refine .cons ⟨fun h' hmem => ?_, hok.apart, fun i hi hoccupied => ?_⟩ ⟨htook.inExtent.same htook.layout, ?_,
    fun i hi => ?_, fun hmaps => absurd hmaps hkind⟩ hkind hheld
  · refine (hok.each h' hmem).frame htook.layout fun i hi => ?_
    rw [htook.marks, onRun_of_notMem fun hrun => hheld h' hmem i hrun hi]
  · rw [htook.layout.pageCount] at hi
    rw [htook.marks] at hoccupied ⊢
    by_cases hrun : h.Has i
    · rw [onRun_of_mem hrun]
      refine (countP_maps_eq_zero fun h' hmem hmaps => ?_).symm
      exact hheld h' hmem i hrun ((hok.each h' hmem).has_of_maps hmaps)
    · rw [onRun_of_notMem hrun] at hoccupied ⊢
      exact hok.refs i hi hoccupied
  · rw [htook.layout.physical]
    exact hphysical
  · rw [htook.marks, onRun_of_mem hi]
    rfl

lemma HoldersOk.gave (hok : HoldersOk pool rest) (hgave : Gave pool pool' first count)
    (halone : ∀ h ∈ rest, ∀ i, InRun first count i → ¬ h.Has i) : HoldersOk pool' rest := by
  refine ⟨fun h hmem => ?_, hok.apart, fun i hi hoccupied => ?_⟩
  · refine (hok.each h hmem).frame hgave.layout fun i hi => ?_
    rw [hgave.marks, onRun_of_notMem fun hrun => halone h hmem i hrun hi]
  · rw [hgave.layout.pageCount] at hi
    rw [hgave.marks] at hoccupied ⊢
    by_cases hrun : InRun first count i
    · rw [onRun_of_mem hrun] at hoccupied
      cases hoccupied
    · rw [onRun_of_notMem hrun] at hoccupied ⊢
      exact hok.refs i hi hoccupied

section
variable (hok : HoldersOk pool (h :: rest)) (hkind : h.kind ≠ .mapping)
include hok hkind

lemma HoldersOk.alone : ∀ h' ∈ rest, ∀ i, h.Has i → ¬ h'.Has i := fun h' hmem =>
  ((pairwise_cons.mp hok.apart).1 h' hmem).resolve_right fun hmaps => hkind hmaps.1

lemma HoldersOk.drop : HoldersOk pool rest where
  each := (forall_mem_cons.mp hok.each).2
  apart := (pairwise_cons.mp hok.apart).2
  refs i hi hoccupied := by
    have hbefore : ¬ h.Maps i := fun hmaps => hkind hmaps.1
    rw [hok.refs i hi hoccupied, countP_cons_of_neg (by simpa using hbefore)]

lemma HoldersOk.transfer : HoldersOk pool ({ h with kind := .transferred } :: rest) := by
  have hh := hok.each h (mem_cons_self ..)
  exact (hok.drop hkind).cons ⟨hh.inExtent, hh.physical, hh.occupied, nofun⟩ nofun (hok.alone hkind)

end

lemma HoldersOk.split (hok : HoldersOk pool (h :: rest)) (hg : Geometry pool) (hkind : h.kind = .transferred)
    (hcount : 0 < count ∧ count < h.count) :
    HoldersOk pool ({ h with count := count } :: h.behind count :: rest) := by
  have hh := hok.each h (mem_cons_self ..)
  have hmapping : h.kind ≠ .mapping := by
    rw [hkind]
    nofun
  obtain ⟨hlower, hupper⟩ := hh.inExtent.split hcount
  have hbehind : ∀ i, (h.behind count).Has i → h.Has i := by
    intro i hi
    simp only [Holder.Has, Holder.behind, InRun] at hi ⊢
    omega
  have hbefore : ∀ i, InRun h.first count i → h.Has i := by
    intro i hi
    simp only [Holder.Has, InRun] at hi ⊢
    omega
  refine .cons (.cons (hok.drop hmapping) ⟨hupper, ?_, fun i hi => hh.occupied i (hbehind i hi), fun hmaps => ?_⟩
    hmapping fun h' hmem i hi => hok.alone hmapping h' hmem i (hbehind i hi)) ⟨hlower, hh.physical,
    fun i hi => hh.occupied i (hbefore i hi), fun hmaps => ?_⟩ hmapping fun h' hmem i hi => ?_
  · rw [Holder.behind, hh.inExtent.physical_add hg hcount.2, hh.physical]
  · exact absurd hmaps hmapping
  · exact absurd hmaps hmapping
  · obtain rfl | hmem := mem_cons.mp hmem
    · simp only [Holder.Has, Holder.behind, InRun] at hi ⊢
      omega
    · exact hok.alone hmapping h' hmem i (hbefore i hi)

/-! ## Mapping references -/

def Pool.setRefs (pool : Pool) (i r : ℕ) : Pool := pool.setMeta i fun m => { m with mapRefcount := r }

lemma setRefs_mark (pool : Pool) (i r j : ℕ) : (pool.setRefs i r).mark j =
    { pool.mark j with mapRefcount := if j = i then r else (pool.mark j).mapRefcount } := by
  rw [Pool.setRefs, Pool.setMeta_mark]
  by_cases hj : j = i
  · rw [hj, update_self, if_pos rfl]
    rfl
  · rw [update_of_ne hj, if_neg hj]

lemma setRefs_layout (pool : Pool) (i r : ℕ) : SameLayout pool (pool.setRefs i r) :=
  setMeta_layout pool (f := fun m => { m with mapRefcount := r }) (fun _ => rfl) i

lemma setRefs_occupied (pool : Pool) (i r j : ℕ) :
    ((pool.setRefs i r).mark j).occupied = (pool.mark j).occupied := by rw [setRefs_mark]

lemma Sound.setRefs (hs : Sound pool) {r : ℕ} (hr : r < 2 ^ 32) : Sound (pool.setRefs i r) where
  geometry := hs.geometry.same (setRefs_layout ..)
  listed := by
    obtain ⟨l, hl, hmem⟩ := hs.listed
    refine ⟨l, hl.setMeta (f := fun m => { m with mapRefcount := r }) (fun _ => rfl) (fun _ => rfl) i,
      fun j => ?_⟩
    rw [setRefs_mark]
    exact hmem j
  placed j hj := by
    rw [setRefs_mark]
    exact hs.placed j hj
  tagged j hj := by
    rw [setRefs_mark]
    exact hs.tagged j hj
  counted j hj := by
    rw [setRefs_mark]
    dsimp only
    split_ifs
    · exact hr
    · exact hs.counted j hj

lemma HoldersOk.setRefs (hok : HoldersOk pool holders) {r : ℕ}
    (heach : ∀ h ∈ rest, HolderOk pool h) (hapart : rest.Pairwise Holder.Apart)
    (hcount : r = rest.countP fun h => h.Maps i)
    (hsame : ∀ j ≠ i, (rest.countP fun h => h.Maps j) = holders.countP fun h => h.Maps j) :
    HoldersOk (pool.setRefs i r) rest where
  each h hmem := (heach h hmem).frame (setRefs_layout ..) fun j _ => setRefs_occupied ..
  apart := hapart
  refs j hj hoccupied := by
    rw [setRefs_mark] at hoccupied ⊢
    dsimp only
    split_ifs with hji
    · rw [hji]
      exact hcount
    · rw [hsame j hji]
      exact hok.refs j hj hoccupied

lemma HoldersOk.mapped (hok : HoldersOk pool holders) (hi : i < pool.pageCount)
    (hoccupied : (pool.mark i).occupied = true) (hrefs : (pool.mark i).mapRefcount ≠ 0) :
    ∀ h ∈ holders, h.Has i → h.kind = .mapping := by
  intro h hmem hhas
  have hpos : 0 < holders.countP fun h => h.Maps i := by
    rw [← hok.refs i hi hoccupied]
    exact Nat.pos_of_ne_zero hrefs
  obtain ⟨h₀, hmem₀, hmaps⟩ := countP_pos_iff.mp hpos
  have hmaps₀ : h₀.Maps i := by simpa using hmaps
  by_cases heq : h = h₀
  · rw [heq]
    exact hmaps₀.1
  · have : Std.Symm Holder.Apart := ⟨fun _ _ h => h.symm⟩
    obtain hdisjoint | hboth := hok.apart.forall hmem hmem₀ heq
    · exact absurd ((hok.each h₀ hmem₀).has_of_maps hmaps₀) (hdisjoint i hhas)
    · exact hboth.1

lemma HoldersOk.install (hok : HoldersOk pool (.ofPage owner :: rest)) :
    HoldersOk (pool.pageMappingInstall owner)
      (⟨owner.index, 1, owner.physical, .mapping⟩ :: rest) := by
  have howner := hok.each _ (mem_cons_self ..)
  have halone := hok.alone (by simp [Holder.ofPage])
  have hown : (Holder.ofPage owner).Has owner.index := inRun_one.mpr rfl
  have hrest : (rest.countP fun h => h.Maps owner.index) = 0 :=
    countP_maps_eq_zero fun h hmem hmaps => halone h hmem _ hown
      ((hok.each h (mem_cons_of_mem _ hmem)).has_of_maps hmaps)
  refine hok.setRefs (forall_mem_cons.mpr ⟨⟨howner.inExtent, howner.physical, howner.occupied, fun _ => rfl⟩,
    (forall_mem_cons.mp hok.each).2⟩) ?_ ?_ fun j hj => ?_
  · exact pairwise_cons.mpr ⟨fun h hmem => .inl (halone h hmem), (pairwise_cons.mp hok.apart).2⟩
  · rw [countP_cons_of_pos (by simp [Holder.Maps]), hrest]
  · rw [countP_cons_of_neg (by simpa [Holder.Maps] using Ne.symm hj),
      countP_cons_of_neg (by simp [Holder.Maps, Holder.ofPage])]

lemma retain_spec {limit : ℕ} (hg : Geometry pool)
    (h : pool.pageMappingRetainPhysical physical limit = (.retained, pool'))
    (hindex : pool.indexForPhysical physical = some i) :
    i < pool.pageCount ∧ physical = (pool.metas i).physical ∧ (pool.mark i).occupied = true ∧
      (pool.mark i).mapRefcount ≠ 0 ∧ (pool.mark i).mapRefcount < pageMapRefCeiling ∧
      pool' = pool.setRefs i ((pool.mark i).mapRefcount + 1) := by
  obtain ⟨hi, hphysical⟩ := hg.of_indexForPhysical hindex
  rw [Pool.pageMappingRetainPhysical] at h
  split_ifs at h with haligned
  · cases h
  rw [hindex] at h
  dsimp only at h
  split_ifs at h with hmapped hceiling
  · cases h
  · cases h
  · simp only [not_or, not_le, ge_iff_le] at hmapped hceiling
    obtain rfl := (Prod.mk.inj h).2
    rw [not_not] at haligned
    rw [haligned, Nat.sub_zero] at hphysical
    refine ⟨hi, hphysical.symm, Bool.of_not_eq_false hmapped.1, hmapped.2, hceiling.2, ?_⟩
    have hu32 : u32 ((pool.metas i).mapRefcount + 1) = (pool.metas i).mapRefcount + 1 :=
      u32_of_le le_rfl hceiling.2
    rw [hu32]
    rfl

lemma HoldersOk.retain (hok : HoldersOk pool holders) (hi : i < pool.pageCount)
    (hoccupied : (pool.mark i).occupied = true) (hrefs : (pool.mark i).mapRefcount ≠ 0)
    (hg : Geometry pool) :
    HoldersOk (pool.setRefs i ((pool.mark i).mapRefcount + 1))
      (⟨i, 1, (pool.metas i).physical, .mapping⟩ :: holders) := by
  refine hok.setRefs (forall_mem_cons.mpr ⟨⟨hg.inExtent_one hi, rfl, fun j hj => ?_, fun _ => rfl⟩, hok.each⟩) ?_ ?_
    fun j hj => ?_
  · obtain rfl := inRun_one.mp hj
    exact hoccupied
  · refine pairwise_cons.mpr ⟨fun h hmem => ?_, hok.apart⟩
    by_cases hhas : h.Has i
    · exact .inr ⟨rfl, hok.mapped hi hoccupied hrefs h hmem hhas⟩
    · refine .inl fun j hj => ?_
      obtain rfl := inRun_one.mp hj
      exact hhas
  · rw [countP_cons_of_pos (by simp [Holder.Maps]), hok.refs i hi hoccupied]
  · rw [countP_cons_of_neg (by simpa [Holder.Maps] using Ne.symm hj)]

end Holders

structure Relinquished (pool pool' : Pool) (rest : List Holder) : Prop where
  sound : Sound pool'
  holders : HoldersOk pool' rest
  reserves : pool'.reserves = pool.reserves
  freeCount : pool.freeCount ≤ pool'.freeCount

section Releases
variable {pool : Pool} {h : Holder} {rest : List Holder} {i : ℕ} {r : Release}

lemma Relinquished.mapping (hs : Sound pool)
    (hok : HoldersOk pool (⟨i, 1, physical, .mapping⟩ :: rest)) :
    Relinquished pool (pool.pageMappingReleasePhysical physical) rest := by
  have hholder := hok.each _ (mem_cons_self ..)
  have hhas : Holder.Has ⟨i, 1, physical, .mapping⟩ i := inRun_one.mpr rfl
  have hi := hholder.lt hs.geometry hhas
  have hoccupied := hholder.occupied i hhas
  have hphysical : physical = (pool.metas i).physical := hholder.physical
  have hrefs := hok.refs i hi hoccupied
  rw [countP_cons_of_pos (by simp [Holder.Maps])] at hrefs
  have hbound := hs.counted i hi
  set left := rest.countP fun h => h.Maps i with hleft
  have hrefs' : (pool.metas i).mapRefcount = left + 1 := hrefs
  have hsub : u32 (left + 1 - 1) = left := Nat.mod_eq_of_lt (by omega)
  have hleft_lt : left < 2 ^ 32 := by omega
  have hstep : pool.pageMappingReleasePhysical physical =
      if left = 0 then (pool.setRefs i left).transferredReleaseLocked i physical
      else pool.setRefs i left := by
    have hoccupied' : (pool.metas i).occupied = true := hoccupied
    rw [Pool.pageMappingReleasePhysical, hphysical,
      if_neg (not_not.mpr (hs.geometry.physical_aligned hi)), hs.geometry.indexForPhysical_physical hi]
    dsimp only
    rw [if_neg (by simp [hoccupied', hrefs']), hrefs', hsub]
    rfl
  have heach := (forall_mem_cons.mp hok.each).2
  have hsame : ∀ j ≠ i, (rest.countP fun h => h.Maps j) =
      (⟨i, 1, physical, .mapping⟩ :: rest : List Holder).countP fun h => h.Maps j := fun j hj => by
    rw [countP_cons_of_neg (by simpa [Holder.Maps] using Ne.symm hj)]
  have hdropped := hok.setRefs heach (pairwise_cons.mp hok.apart).2 hleft hsame
  rw [hstep]
  by_cases hlast : left = 0
  · -- Nobody else has the page: it goes back as one that is kept by its address.
    have hunmapped : ∀ h ∈ rest, ¬ h.Maps i := fun h hmem => by
      simpa using countP_eq_zero.mp (hleft.symm.trans hlast) h hmem
    have halone : ∀ h ∈ rest, ¬ h.Has i := fun h hmem hhas' =>
      hunmapped h hmem ((heach h hmem).maps_of_has
        (hok.mapped hi hoccupied (by omega) h (mem_cons_of_mem _ hmem) hhas') hhas')
    have hs' : Sound (pool.setRefs i left) := hs.setRefs hleft_lt
    have hoccupied' : ((pool.setRefs i left).mark i).occupied = true :=
      (setRefs_occupied ..).trans hoccupied
    have hphysical' : physical = ((pool.setRefs i left).metas i).physical :=
      hphysical.trans ((setRefs_layout ..).physical i).symm
    have hgave := hs'.giveBack (hs'.geometry.inExtent_one hi) fun k hk => by
      obtain rfl : k = 0 := by omega
      exact hoccupied'
    rw [if_pos hlast, hphysical', hs'.transferredReleaseLocked_eq hi hoccupied']
    refine ⟨hgave.sound, hdropped.gave hgave fun h hmem j hj => ?_, hgave.reserves,
      hgave.freeCount ▸ Nat.le_add_right ..⟩
    rw [inRun_one.mp hj]
    exact halone h hmem
  · rw [if_neg hlast]
    exact ⟨hs.setRefs hleft_lt, hdropped, rfl, le_rfl⟩

lemma Relinquished.of_gave {pool' : Pool} (hok : HoldersOk pool (h :: rest))
    (hgave : Gave pool pool' h.first h.count) (hkind : h.kind ≠ .mapping) :
    Relinquished pool pool' rest :=
  ⟨hgave.sound, (hok.drop hkind).gave hgave (hok.alone hkind), hgave.reserves,
    hgave.freeCount ▸ Nat.le_add_right ..⟩

lemma Sound.release (hs : Sound pool) (hok : HoldersOk pool (h :: rest)) (hr : h.Releases r) :
    Relinquished pool (r.apply pool) rest := by
  have hholder := hok.each h (mem_cons_self ..)
  have htaken : ∀ k < h.count, (pool.mark (h.first + k)).occupied = true := fun k hk =>
    hholder.occupied _ (inRun_add hk)
  have hgave := hs.giveBack hholder.inExtent htaken
  cases hr with
  | page owner =>
    have heq := hs.pageFree_eq (hholder.lt hs.geometry (inRun_one.mpr rfl)) hholder.physical
      (htaken 0 one_pos)
    rw [Release.apply, heq]
    exact .of_gave hok hgave (by simp [Holder.ofPage])
  | run owner =>
    rw [Release.apply, hs.pageRunFree_eq hholder.inExtent hholder.physical htaken]
    exact .of_gave hok hgave (by simp [Holder.ofRun])
  | mapping first physical => exact .mapping hs hok
  | transferred first physical =>
    have hphysical : physical = (pool.metas first).physical := hholder.physical
    have hfirst : first < pool.pageCount := hholder.lt hs.geometry (inRun_one.mpr rfl)
    rw [Release.apply, hphysical, hs.pageTransferredReleasePhysical_eq hfirst (htaken 0 one_pos)]
    exact .of_gave hok hgave (by simp)
  | transferredRun first count physical =>
    have hphysical : physical = (pool.metas first).physical := hholder.physical
    rw [Release.apply, hphysical, hs.pageRunTransferredReleasePhysical_eq hholder.inExtent htaken]
    exact .of_gave hok hgave (by simp)

lemma Sound.releaseAgain (hs : Sound pool) (hr : r.AlreadyFree pool) :
    r.apply pool = pool.countDoubleRemove r.count := by
  obtain ⟨first, hnames, hin, hfree⟩ := hr
  have hfirst : first < pool.pageCount := hin.lt hs.geometry (k := 0) hin.1
  cases r with
  | page owner => exact hs.pageFree_free hfirst hnames.2 (hfree 0 one_pos)
  | run owner =>
    obtain ⟨rfl, hphysical⟩ := hnames
    exact hs.pageRunFree_free hin hphysical hin.1 (hfree 0 hin.1)
  | mapping physical =>
    obtain rfl : physical = _ := hnames
    exact hs.pageMappingReleasePhysical_free hfirst (hfree 0 one_pos)
  | transferred physical =>
    obtain rfl : physical = _ := hnames
    exact hs.pageTransferredReleasePhysical_free hfirst (hfree 0 one_pos)
  | transferredRun physical count =>
    obtain rfl : physical = _ := hnames
    exact hs.pageRunTransferredReleasePhysical_free hin hfree

end Releases

/-! ## Runs of calls -/

section Runs
variable {sys sys' : System} {pool pool' : Pool} {holders : List Holder}

lemma HoldersOk.same (hok : HoldersOk pool holders) (hsame : SameTables pool pool') :
    HoldersOk pool' holders where
  each h hmem := (hok.each h hmem).frame hsame.layout fun i _ => by rw [hsame.mark]
  apart := hok.apart
  refs := by
    rw [hsame.mark, hsame.layout.pageCount]
    exact hok.refs

lemma reserve_tables (pool : Pool) (cpu : Cpu) (count : ℕ) : SameTables pool (pool.reserve cpu count).2 := by
  unfold Pool.reserve
  split_ifs <;> exact ⟨rfl⟩

lemma reservationRelease_tables (pool : Pool) (cpu : Cpu) :
    SameTables pool (pool.reservationRelease cpu).2 := ⟨rfl⟩

variable {tag : PageOwnerTag} {cpu : Cpu}

lemma Sound.pageAlloc_some (hs : Sound pool)
    (h : pool.pageAlloc cpu tag = (some owner, pool')) :
    Took pool pool' owner.index 1 tag ∧ owner.physical = (pool.metas owner.index).physical ∧
      pool.reserveAdmits cpu 1 = true ∧ pool'.reserves = (pool.reserveConsume cpu 1).reserves := by
  have hgranted : ¬ PageRefused pool cpu tag := fun hrefused => by
    rw [pageAlloc_refused hrefused] at h
    cases h
  obtain ⟨pool'', heq, htook, hreserves⟩ := hs.pageAlloc hgranted
  have hadmits : pool.reserveAdmits cpu 1 = true := by
    simp only [PageRefused, not_or] at hgranted
    exact Bool.of_not_eq_false hgranted.2.2.2.2
  rw [heq] at h
  obtain ⟨howner, rfl⟩ := Prod.mk.inj h
  cases howner
  exact ⟨htook, rfl, hadmits, hreserves⟩

lemma Sound.pageAlloc_none (hs : Sound pool) (h : pool.pageAlloc cpu tag = (none, pool')) :
    pool' = pool ∧ PageRefused pool cpu tag := by
  by_cases hrefused : PageRefused pool cpu tag
  · rw [pageAlloc_refused hrefused] at h
    exact ⟨(Prod.mk.inj h).2.symm, hrefused⟩
  · obtain ⟨pool'', heq, -⟩ := hs.pageAlloc hrefused
    rw [heq] at h
    cases h

lemma Sound.pageAllocContiguous_some (hs : Sound pool) {owner : PageRunOwner}
    (h : pool.pageAllocContiguous cpu count tag = (some owner, pool')) :
    Took pool pool' owner.first owner.count tag ∧ owner.count = count ∧
      owner.physical = (pool.metas owner.first).physical ∧ pool.reserveAdmits cpu count = true ∧
      pool'.reserves = (pool.reserveConsume cpu count).reserves := by
  obtain hnone | ⟨hadmits, first, pool'', heq, htook, hreserves⟩ := hs.pageAllocContiguous cpu count tag
  · rw [hnone] at h
    cases h
  · rw [heq] at h
    obtain ⟨howner, rfl⟩ := Prod.mk.inj h
    cases howner
    exact ⟨htook, rfl, rfl, hadmits, hreserves⟩

lemma Sound.pageAllocContiguous_none (hs : Sound pool)
    (h : pool.pageAllocContiguous cpu count tag = (none, pool')) : pool' = pool := by
  obtain hnone | ⟨-, first, pool'', heq, -⟩ := hs.pageAllocContiguous cpu count tag
  · rw [hnone] at h
    exact (Prod.mk.inj h).2.symm
  · rw [heq] at h
    cases h

lemma retain_refused {limit : ℕ} {result : PageMappingRetainResult}
    (h : pool.pageMappingRetainPhysical physical limit = (result, pool')) (hresult : result ≠ .retained) :
    pool' = pool := by
  rw [Pool.pageMappingRetainPhysical] at h
  split_ifs at h with haligned
  · exact (Prod.mk.inj h).2.symm
  cases hindex : pool.indexForPhysical physical with
  | none =>
    rw [hindex] at h
    exact (Prod.mk.inj h).2.symm
  | some index =>
    rw [hindex] at h
    dsimp only at h
    split_ifs at h
    · exact (Prod.mk.inj h).2.symm
    · exact (Prod.mk.inj h).2.symm
    · exact absurd (Prod.mk.inj h).1.symm hresult

lemma Consistent.step (hc : Consistent sys) (hstep : Step sys sys') : Consistent sys' := by
  obtain ⟨hs, hok⟩ := hc
  cases hstep with
  | alloc cpu tag h =>
    obtain ⟨htook, hphysical, -⟩ := hs.pageAlloc_some h
    exact ⟨htook.sound, hok.took htook hphysical (by simp [Holder.ofPage])⟩
  | allocRefused cpu tag h =>
    obtain ⟨rfl, -⟩ := hs.pageAlloc_none h
    exact ⟨hs, hok⟩
  | allocRun cpu count tag h =>
    obtain ⟨htook, -, hphysical, -⟩ := hs.pageAllocContiguous_some h
    exact ⟨htook.sound, hok.took htook hphysical (by simp [Holder.ofRun])⟩
  | allocRunRefused cpu count tag h =>
    obtain rfl := hs.pageAllocContiguous_none h
    exact ⟨hs, hok⟩
  | transfer hheld hkind => exact ⟨hs, (hok.perm hheld).transfer hkind⟩
  | split hheld hkind hcount => exact ⟨hs, (hok.perm hheld).split hs.geometry hkind hcount⟩
  | install hheld => exact ⟨hs.setRefs (by decide), (hok.perm hheld).install⟩
  | retain physical limit h hindex =>
    obtain ⟨hi, rfl, hoccupied, hrefs, hceiling, rfl⟩ := retain_spec hs.geometry h hindex
    refine ⟨hs.setRefs ?_, hok.retain hi hoccupied hrefs hs.geometry⟩
    simp only [pageMapRefCeiling] at hceiling
    omega
  | retainRefused physical limit h hresult =>
    obtain rfl := retain_refused h hresult
    exact ⟨hs, hok⟩
  | release hheld hr =>
    have hreleased := hs.release (hok.perm hheld) hr
    exact ⟨hreleased.sound, hreleased.holders⟩
  | releaseAgain hfree =>
    have hsame := countDoubleRemove_tables sys.pool
    rw [hs.releaseAgain hfree]
    exact ⟨hs.same (hsame _), hok.same (hsame _)⟩
  | reserve cpu count h | reserveRefused cpu count h =>
    have hsame := reserve_tables sys.pool cpu count
    rw [h] at hsame
    exact ⟨hs.same hsame, hok.same hsame⟩
  | reservationRelease cpu hgrant =>
    have hsame := reservationRelease_tables sys.pool cpu
    exact ⟨hs.same hsame, hok.same hsame⟩

lemma Consistent.run (hc : Consistent sys) (hrun : Relation.ReflTransGen Step sys sys') :
    Consistent sys' := by
  induction hrun with
  | refl => exact hc
  | tail _ hstep ih => exact ih.step hstep

end Runs
end Takibi.Page
