import Takibi.Page.Sound

/-! Pages that go back: every way of releasing pages that are taken puts their frames in their
places and the pages on the free list, and releasing pages that are free is counted and changes
nothing else. -/

namespace Takibi.Page
open Function Pool Option

structure Gave (pool pool' : Pool) (first count : ℕ) : Prop where
  sound : Sound pool'
  layout : SameLayout pool pool'
  marks : pool'.mark = onRun first count Mark.vacated pool.mark
  freeCount : pool'.freeCount = pool.freeCount + count
  reserves : pool'.reserves = pool.reserves

variable {owner : PageRunOwner} {k : ℕ}

section Giving
variable {pool pool' : Pool} {first count i : ℕ} {full : Bool}

lemma inRun_add (hk : k < count) : InRun first count (first + k) :=
  ⟨Nat.le_add_right .., Nat.add_lt_add_left hk _⟩

lemma InRun.exists_add (h : InRun first count i) : ∃ k < count, i = first + k := by
  obtain ⟨hle, hlt⟩ := h
  exact ⟨i - first, by omega, by omega⟩

lemma InExtent.inRun_lt (h : InExtent pool first count) (hg : Geometry pool)
    (hi : InRun first count i) : i < pool.pageCount := by
  obtain ⟨k, hk, rfl⟩ := hi.exists_add
  exact h.lt hg hk

lemma Sound.not_placed (hs : Sound pool) (hi : i < pool.pageCount)
    (hoccupied : (pool.mark i).occupied = true) : pool.placed i = false := by
  rw [← Bool.not_eq_true, hs.placed i hi]
  rintro ⟨hfree, -⟩
  rw [hoccupied] at hfree
  cases hfree

lemma setPlaced_layout (pool : Pool) (first count : ℕ) (full : Bool) :
    SameLayout pool (pool.setPlaced first count full) := ⟨rfl, rfl, fun _ => rfl⟩

lemma setPlaced_of_mem (h : InRun first count i) :
    (pool.setPlaced first count full).placed i = full := if_pos h

lemma setPlaced_of_notMem (h : ¬ InRun first count i) :
    (pool.setPlaced first count full).placed i = pool.placed i := if_neg h

lemma setPlaced_placed (h : pool'.placed = pool.placed) :
    (pool'.setPlaced first count full).placed = (pool.setPlaced first count full).placed := by
  simp only [setPlaced, h]

lemma Sound.markRun (hs : Sound pool) {f : Mark → Mark} (hlayout : SameLayout pool pool')
    (hmarks : pool'.mark = onRun first count f pool.mark)
    (hplaced : pool'.placed = (pool.setPlaced first count full).placed) (hlisted : Listed pool')
    (hf : ∀ m, (f m).occupied = !full ∧ (full = true → (f m).owner = .unowned) ∧ (f m).mapRefcount = 0) :
    Sound pool' := by
  refine ⟨hs.geometry.same hlayout, hlisted, ?_, ?_, ?_⟩
  all_goals
    intro i hi
    rw [hlayout.pageCount] at hi
    obtain ⟨hoccupied, howner, hrefs⟩ := hf (pool.mark i)
    rw [hmarks]
    by_cases hrun : InRun first count i
  · rw [hplaced, setPlaced_of_mem hrun, onRun_of_mem hrun, Mark.Free, hoccupied]
    simpa using howner
  · rw [hplaced, setPlaced_of_notMem hrun, onRun_of_notMem hrun]
    exact hs.placed i hi
  · rw [onRun_of_mem hrun, hoccupied]
    exact fun hfull => .inl (howner (by simpa using hfull))
  · rw [onRun_of_notMem hrun]
    exact hs.tagged i hi
  · rw [onRun_of_mem hrun, hrefs]
    exact Nat.two_pow_pos 32
  · rw [onRun_of_notMem hrun]
    exact hs.counted i hi

/-! ## Frames -/

section
variable (h : InExtent pool first count)
include h

lemma InExtent.extent_aligned (hg : Geometry pool) {e : PageExtent}
    (he : pool.extentOf (pool.metas first).physical = some e) :
    ((pool.metas first).physical - e.start) % pageSize = 0 := by
  have hlt : first < pool.pageCount := h.lt hg (k := 0) h.1
  have haligned := hg.physical_aligned hlt
  obtain ⟨hmem, hle, -⟩ := mem_of_extentOf he
  have hstart := (hg.aligned e hmem).1
  simp only [pageSize] at haligned hstart ⊢
  omega

lemma InExtent.framesGive (hg : Geometry pool)
    (hout : ∀ k < count, pool.placed (first + k) = false) :
    pool.framesGive (pool.metas first).physical count = some (pool.setPlaced first count true) := by
  have hframes := h.framesAt hg
  have hext : ∃ e, pool.extentOf (pool.metas first).physical = some e := by
    obtain ⟨e, he, -⟩ := bind_eq_some_iff.mp hframes
    exact ⟨e, he⟩
  obtain ⟨e, he⟩ := hext
  have haligned := h.extent_aligned hg he
  rw [Pool.framesGive, he, bind_some, if_neg (not_not.mpr haligned), hframes, bind_some, if_pos hout]

lemma InExtent.framesGive_none (hg : Geometry pool) (hk : k < count)
    (hin : pool.placed (first + k) = true) :
    pool.framesGive (pool.metas first).physical count = none := by
  have hframes := h.framesAt hg
  rw [Pool.framesGive]
  cases he : pool.extentOf (pool.metas first).physical with
  | none => rfl
  | some e =>
    have haligned := h.extent_aligned hg he
    rw [bind_some, if_neg (not_not.mpr haligned), hframes, bind_some, if_neg]
    intro hout
    rw [hout k hk] at hin
    cases hin

end

lemma Geometry.framesGive_one (hg : Geometry pool) (hi : i < pool.pageCount)
    (hout : pool.placed i = false) :
    pool.framesGive (pool.metas i).physical 1 = some (pool.setPlaced i 1 true) :=
  (hg.inExtent_one hi).framesGive hg fun k hk => by rwa [Nat.lt_one_iff.mp hk]

/-! ## What releasing does -/

def Pool.giveBack (pool : Pool) (first count : ℕ) : Pool :=
  (pool.setPlaced first count true).runReleaseIndices first count

lemma Sound.giveBack (hs : Sound pool) (hin : InExtent pool first count)
    (htaken : ∀ k < count, (pool.mark (first + k)).occupied = true) :
    Gave pool (pool.giveBack first count) first count := by
  have hlt : ∀ k < count, first + k < pool.pageCount := fun k hk => hin.lt hs.geometry hk
  obtain ⟨l, hl, hmem⟩ := hs.listed
  have hlisted : Listed (pool.setPlaced first count true) := ⟨l, ⟨hl.links, hl.count⟩, hmem⟩
  obtain ⟨hlisted', hreleased⟩ := hlisted.runReleaseIndices hs.geometry.count_le hlt htaken
  have hlayout := (setPlaced_layout pool first count true).trans hreleased.layout
  exact ⟨hs.markRun hlayout hreleased.marks hreleased.placed hlisted' fun _ => ⟨rfl, fun _ => rfl, rfl⟩, hlayout,
    hreleased.marks, hreleased.freeCount, hreleased.reserves⟩

lemma giveBack_one (hi : i < pool.pageCount) (htaken : (pool.mark i).occupied = true) :
    pool.giveBack i 1 = (pool.setPlaced i 1 true).releaseIndex i := by
  have hoccupied : ((pool.setPlaced i 1 true).metas i).occupied = true := htaken
  have hlt : i < (pool.setPlaced i 1 true).pageCount := hi
  rw [giveBack, runReleaseIndices, runReleaseIndices, releaseRunIndex,
    Nat.add_zero, if_pos hlt, if_neg (by simp [hoccupied])]

/-! ## The ways of releasing -/

section
variable (hs : Sound pool)
include hs

lemma Sound.pageFree_eq {owner : PageOwner} (hi : owner.index < pool.pageCount)
    (hphysical : owner.physical = (pool.metas owner.index).physical)
    (htaken : (pool.mark owner.index).occupied = true) :
    pool.pageFree owner = pool.giveBack owner.index 1 := by
  have hgive := hs.geometry.framesGive_one hi (hs.not_placed hi htaken)
  have hlt : ¬ owner.index ≥ (pool.setPlaced owner.index 1 true).pageCount := not_le.mpr hi
  have hoccupied : ((pool.setPlaced owner.index 1 true).metas owner.index).occupied = true := htaken
  rw [giveBack_one hi htaken, pageFree, hphysical, hgive]
  dsimp only
  rw [if_neg hlt, if_neg (by simp [hoccupied])]

lemma Sound.pageRunFree_eq (hin : InExtent pool owner.first owner.count)
    (hphysical : owner.physical = (pool.metas owner.first).physical)
    (htaken : ∀ k < owner.count, (pool.mark (owner.first + k)).occupied = true) :
    pool.pageRunFree owner = pool.giveBack owner.first owner.count := by
  have hgive := hin.framesGive hs.geometry fun k hk =>
    hs.not_placed (hin.lt hs.geometry hk) (htaken k hk)
  rw [pageRunFree, hphysical, hgive]
  rfl

lemma Sound.transferredReleaseLocked_eq (hi : i < pool.pageCount)
    (htaken : (pool.mark i).occupied = true) :
    pool.transferredReleaseLocked i (pool.metas i).physical = pool.giveBack i 1 := by
  have hgive := hs.geometry.framesGive_one hi (hs.not_placed hi htaken)
  have hoccupied : (pool.metas i).occupied = true := htaken
  rw [giveBack_one hi htaken, transferredReleaseLocked, if_neg (not_le.mpr hi),
    if_neg (by simp [hoccupied]), hgive]

lemma Sound.pageTransferredReleasePhysical_eq (hi : i < pool.pageCount)
    (htaken : (pool.mark i).occupied = true) :
    pool.pageTransferredReleasePhysical (pool.metas i).physical = pool.giveBack i 1 := by
  rw [pageTransferredReleasePhysical, if_neg (not_not.mpr (hs.geometry.physical_aligned hi)),
    hs.geometry.indexForPhysical_physical hi]
  exact hs.transferredReleaseLocked_eq hi htaken

lemma Sound.runReclaimFrames_eq (hlt : ∀ k < count, first + k < pool.pageCount)
    (hout : ∀ k < count, pool.placed (first + k) = false) :
    pool.runReclaimFrames first count = pool.setPlaced first count true := by
  induction count with
  | zero =>
    have hnone : pool.placed = fun i => if first ≤ i ∧ i < first + 0 then true else pool.placed i :=
      funext fun i => (if_neg (by omega)).symm
    rw [runReclaimFrames, setPlaced, ← hnone]
  | succ count ih =>
    have hi : first + count < pool.pageCount := hlt count (by omega)
    set given := pool.setPlaced first count true with hgiven
    have hlayout : SameLayout pool given := setPlaced_layout ..
    have hgeometry := hs.geometry.same hlayout
    have hgive := hgeometry.framesGive_one (i := first + count) hi (by
      rw [setPlaced_of_notMem (by simp only [InRun]; omega)]
      exact hout count (by omega))
    have hphysical : given.physicalForIndex (first + count) =
        some (given.metas (first + count)).physical := if_pos hi
    rw [runReclaimFrames, ih (fun k hk => hlt k (by omega)) fun k hk => hout k (by omega), hphysical]
    dsimp only
    rw [hgive, getD_some, hgiven]
    simp only [setPlaced, mk.injEq, true_and, and_true]
    funext i
    split_ifs <;> first | rfl | omega

lemma Sound.pageRunTransferredReleasePhysical_eq (hin : InExtent pool first count)
    (htaken : ∀ k < count, (pool.mark (first + k)).occupied = true) :
    pool.pageRunTransferredReleasePhysical (pool.metas first).physical count =
      pool.giveBack first count := by
  have hlt : ∀ k < count, first + k < pool.pageCount := fun k hk => hin.lt hs.geometry hk
  have hfirst : first < pool.pageCount := hlt 0 hin.1
  rw [pageRunTransferredReleasePhysical, if_neg (not_not.mpr (hs.geometry.physical_aligned hfirst)),
    hs.geometry.indexForPhysical_physical hfirst]
  dsimp only
  rw [hs.runReclaimFrames_eq hlt fun k hk => hs.not_placed (hlt k hk) (htaken k hk)]
  rfl

/-! ## Releasing what is free -/

lemma Sound.pageFree_free {owner : PageOwner} (hi : i < pool.pageCount)
    (hphysical : owner.physical = (pool.metas i).physical) (hfree : (pool.mark i).Free) :
    pool.pageFree owner = pool.countDoubleRemove 1 := by
  have hplaced := (hs.placed i hi).mpr hfree
  have hnone := (hs.geometry.inExtent_one hi).framesGive_none hs.geometry one_pos hplaced
  rw [pageFree, hphysical, hnone]

lemma Sound.pageRunFree_free (hin : InExtent pool owner.first owner.count)
    (hphysical : owner.physical = (pool.metas owner.first).physical) (hk : k < owner.count)
    (hfree : (pool.mark (owner.first + k)).Free) :
    pool.pageRunFree owner = pool.countDoubleRemove owner.count := by
  have hplaced := (hs.placed _ (hin.lt hs.geometry hk)).mpr hfree
  rw [pageRunFree, hphysical, hin.framesGive_none hs.geometry hk hplaced]

lemma Sound.pageTransferredReleasePhysical_free (hi : i < pool.pageCount)
    (hfree : (pool.mark i).Free) :
    pool.pageTransferredReleasePhysical (pool.metas i).physical = pool.countDoubleRemove 1 := by
  have hoccupied : (pool.metas i).occupied = false := hfree.1
  rw [pageTransferredReleasePhysical, if_neg (not_not.mpr (hs.geometry.physical_aligned hi)),
    hs.geometry.indexForPhysical_physical hi]
  dsimp only
  rw [transferredReleaseLocked, if_neg (not_le.mpr hi), if_pos hoccupied]

lemma Sound.pageMappingReleasePhysical_free (hi : i < pool.pageCount) (hfree : (pool.mark i).Free) :
    pool.pageMappingReleasePhysical (pool.metas i).physical = pool.countDoubleRemove 1 := by
  have hoccupied : (pool.metas i).occupied = false := hfree.1
  rw [pageMappingReleasePhysical, if_neg (not_not.mpr (hs.geometry.physical_aligned hi)),
    hs.geometry.indexForPhysical_physical hi]
  dsimp only
  rw [if_pos (.inl hoccupied)]

lemma Sound.runReclaimFrames_free (hlt : ∀ k < count, first + k < pool.pageCount)
    (hfree : ∀ k < count, (pool.mark (first + k)).Free) :
    pool.runReclaimFrames first count = pool := by
  induction count with
  | zero => rfl
  | succ count ih =>
    have hi : first + count < pool.pageCount := hlt count (by omega)
    have hplaced := (hs.placed _ hi).mpr (hfree count (by omega))
    have hnone := (hs.geometry.inExtent_one hi).framesGive_none hs.geometry one_pos hplaced
    have hphysical : pool.physicalForIndex (first + count) =
        some (pool.metas (first + count)).physical := if_pos hi
    rw [runReclaimFrames, ih (fun k hk => hlt k (by omega)) fun k hk => hfree k (by omega), hphysical]
    dsimp only
    rw [hnone]
    rfl

end

lemma runReleaseIndices_free (hlt : ∀ k < count, first + k < pool.pageCount)
    (hfree : ∀ k < count, (pool.mark (first + k)).Free) :
    pool.runReleaseIndices first count = pool.countDoubleRemove count := by
  induction count with
  | zero => rfl
  | succ count ih =>
    have hi : first + count < (pool.countDoubleRemove count).pageCount := hlt count (by omega)
    have hoccupied : ((pool.countDoubleRemove count).metas (first + count)).occupied = false :=
      (hfree count (by omega)).1
    rw [runReleaseIndices, ih (fun k hk => hlt k (by omega)) fun k hk => hfree k (by omega),
      releaseRunIndex, if_pos hi, if_pos hoccupied]
    rfl

lemma Sound.pageRunTransferredReleasePhysical_free (hs : Sound pool)
    (hin : InExtent pool first count) (hfree : ∀ k < count, (pool.mark (first + k)).Free) :
    pool.pageRunTransferredReleasePhysical (pool.metas first).physical count =
      pool.countDoubleRemove count := by
  have hlt : ∀ k < count, first + k < pool.pageCount := fun k hk => hin.lt hs.geometry hk
  have hfirst : first < pool.pageCount := hlt 0 hin.1
  rw [pageRunTransferredReleasePhysical,
    if_neg (not_not.mpr (hs.geometry.physical_aligned hfirst)),
    hs.geometry.indexForPhysical_physical hfirst]
  dsimp only
  rw [hs.runReclaimFrames_free hlt hfree, runReleaseIndices_free hlt hfree]

end Giving
end Takibi.Page
