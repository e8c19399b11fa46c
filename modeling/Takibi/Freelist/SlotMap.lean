import Takibi.Freelist.Core

/-! A slot pool on the allocator that records which allocation occupies each slot. -/

namespace Takibi.Freelist
open Function List Bool
variable {N : ℕ} {i : Fin N} {l : List (Fin N)}

/-! ## Stamped slots -/

structure Stamped (core : FreelistCore N) (stamp : Fin N → ℕ) (issued : List ℕ) : Prop where
  free : ∃ l, Free core l ∧ ∀ i, i ∈ l ↔ stamp i = 0
  sorted : issued.Pairwise (· < ·)
  positive : ∀ g ∈ issued, 0 < g
  below : core.nextGeneration ≠ 0 → ∀ g ∈ issued, g < core.nextGeneration
  bound : core.nextGeneration ≤ freelistLastGeneration
  ended : core.nextGeneration = 0 ↔ freelistLastGeneration ∈ issued
  stamped : ∀ i, stamp i ≠ 0 → stamp i ∈ issued

section Stamps
variable {core : FreelistCore N} {stamp : Fin N → ℕ} {issued : List ℕ}

lemma stamped_init (N : ℕ) : Stamped (.init : FreelistCore N) (fun _ => 0) [] := by
  obtain ⟨l, hl, hall⟩ := exists_free_init N
  exact ⟨⟨l, hl, fun i => iff_of_true (hall i) rfl⟩, List.Pairwise.nil, by simp, by simp,
    by simp [FreelistCore.init, freelistLastGeneration], by simp [FreelistCore.init], by simp⟩

section
variable (h : Stamped core stamp issued)
include h

lemma Stamped.remove (hi : stamp i ≠ 0) : Stamped (core.addIndex i) (update stamp i 0) issued := by
  obtain ⟨l, hl, hmem⟩ := h.free
  have hnew : i ∉ l := fun hin => hi ((hmem i).mp hin)
  have hnext : (core.addIndex i).nextGeneration = core.nextGeneration := by
    rw [FreelistCore.addIndex, dif_pos i.isLt]
  refine ⟨⟨i :: l, hl.addIndex hnew, fun j => ?_⟩, h.sorted, h.positive, ?_, ?_, ?_, fun j hj => ?_⟩
  · by_cases hji : j = i
    · simp [hji]
    · rw [mem_cons, update_of_ne hji, ← hmem]
      exact or_iff_right hji
  · rw [hnext]
    exact h.below
  · rw [hnext]
    exact h.bound
  · rw [hnext]
    exact h.ended
  · have hji : j ≠ i := fun hji => hj (by rw [hji, update_self])
    rw [update_of_ne hji] at hj ⊢
    exact h.stamped j hj

lemma Stamped.popped {core' : FreelistCore N}
    (hmem : ∀ j, j ∈ i :: l ↔ stamp j = 0) (hleft : core.nextGeneration ≠ 0)
    (hl : Free core (i :: l)) (hl' : Free core' l)
    (hnext : core'.nextGeneration = freelistGenerationAfter core.nextGeneration) :
    Stamped core' (update stamp i core.nextGeneration) (issued ++ [core.nextGeneration]) := by
  have hbelow := h.below hleft
  have hbound := h.bound
  have hnot : freelistLastGeneration ∉ issued := fun hin => hleft (h.ended.mpr hin)
  have hi : i ∉ l := (nodup_cons.mp hl.nodup).1
  unfold freelistGenerationAfter at hnext
  refine ⟨⟨l, hl', fun j => ?_⟩, ?_, ?_, fun hne g hg => ?_, ?_, ?_, fun j hj => ?_⟩
  · by_cases hji : j = i
    · rw [hji, update_self]
      exact iff_of_false hi hleft
    · rw [update_of_ne hji, ← hmem, mem_cons]
      exact (or_iff_right hji).symm
  · rw [pairwise_append]
    exact ⟨h.sorted, pairwise_singleton _ _, by simpa using hbelow⟩
  · simp only [mem_append, mem_singleton]
    rintro g (hg | rfl)
    · exact h.positive g hg
    · omega
  · have hle : g ≤ core.nextGeneration := by
      obtain hg | hg := mem_append.mp hg
      · exact (hbelow g hg).le
      · exact (mem_singleton.mp hg).le
    split_ifs at hnext
    · exact absurd hnext hne
    · omega
  · split_ifs at hnext <;> omega
  · rw [mem_append, mem_singleton]
    split_ifs at hnext with hlast
    · exact iff_of_true hnext (.inr hlast.symm)
    · refine iff_of_false (by omega) ?_
      rintro (hin | heq)
      · exact hnot hin
      · exact hlast heq.symm
  · by_cases hji : j = i
    · rw [hji, update_self]
      exact mem_append_right _ (mem_singleton_self _)
    · rw [update_of_ne hji] at hj ⊢
      exact mem_append_left _ (h.stamped j hj)

lemma Stamped.insert_cases : (core.insert = (.empty, core) ∧ ∀ i, stamp i ≠ 0) ∨
    (core.insert = (.exhausted, core) ∧ freelistLastGeneration ∈ issued) ∨
    ∃ i : Fin N, core.insert.1 = .popped ⟨i, core.nextGeneration⟩ ∧ stamp i = 0 ∧ core.nextGeneration ≠ 0 ∧
      core.nextGeneration ∉ issued ∧
      Stamped core.insert.2 (update stamp i core.nextGeneration) (issued ++ [core.nextGeneration]) := by
  obtain ⟨l, hl, hmem⟩ := h.free
  have hinsert := hl.insert
  cases l with
  | nil => exact .inl ⟨hinsert, fun i hi => not_mem_nil ((hmem i).mpr hi)⟩
  | cons i l =>
    dsimp only at hinsert
    split_ifs at hinsert with hleft
    · exact .inr (.inl ⟨hinsert, h.ended.mp hleft⟩)
    · obtain ⟨hpop, hl', hnext⟩ := hinsert
      refine .inr (.inr ⟨i, hpop, (hmem i).mp (mem_cons_self ..), hleft, fun hin => ?_,
        h.popped hmem hleft hl hl' hnext⟩)
      exact lt_irrefl _ (h.below hleft _ hin)

end
end Stamps

/-! ## The pool -/

structure SlotMap (N : ℕ) where
  core : FreelistCore N
  occupantGeneration : Fin N → ℕ
  doubleRemoveCount : ℕ

def slotmapInit : SlotMap N := { core := .init, occupantGeneration := fun _ => 0, doubleRemoveCount := 0 }

variable (map : SlotMap N)

def slotmapInsert : FreelistPopResult × SlotMap N :=
  match map.core.insert with
  | (.empty, core) => (.empty, { map with core })
  | (.exhausted, core) => (.exhausted, { map with core })
  | (.popped owner, core) =>
    (.popped owner, if h : owner.index < N then
      { map with core, occupantGeneration := update map.occupantGeneration ⟨owner.index, h⟩ owner.generation }
    else { map with core })

def slotmapRemove (owner : FreelistOwner) : SlotMap N :=
  if h : owner.index < N then
    if map.occupantGeneration ⟨owner.index, h⟩ = 0 then
      { map with doubleRemoveCount := (map.doubleRemoveCount + 1) % 2 ^ 64 }
    else
      { map with
        occupantGeneration := update map.occupantGeneration ⟨owner.index, h⟩ 0
        core := map.core.remove owner }
  else map

def slotmapMatches (index generation : ℕ) : Bool :=
  if generation = 0 then false
  else if h : index < N then map.occupantGeneration ⟨index, h⟩ = generation
  else false

def slotmapLiveCount : ℕ :=
  (finRange N).foldl (fun live i => if map.occupantGeneration i ≠ 0 then live + 1 else live) 0

lemma slotmapInsert_fst : (slotmapInsert map).1 = map.core.insert.1 := by
  unfold slotmapInsert
  split <;> simp_all

/-! ## Histories -/

inductive SlotCall
  | insert
  | remove (owner : FreelistOwner)

inductive SlotEvent
  | inserted (result : FreelistPopResult)
  | removed (owner : FreelistOwner)

/-- The calls made so far stand beside the pool with their answers, oldest first. -/
def SlotCall.step : SlotMap N × List SlotEvent → SlotCall → SlotMap N × List SlotEvent
  | (map, events), .insert => ((slotmapInsert map).2, events ++ [.inserted (slotmapInsert map).1])
  | (map, events), .remove owner => (slotmapRemove map owner, events ++ [.removed owner])

def slotmapRun (N : ℕ) (calls : List SlotCall) : SlotMap N × List SlotEvent :=
  calls.foldl SlotCall.step (slotmapInit, [])

def issued (events : List SlotEvent) : List ℕ :=
  events.filterMap fun
    | .inserted (.popped owner) => some owner.generation
    | _ => none

def noteOccupant (index : ℕ) (occupant : Option ℕ) : SlotEvent → Option ℕ
  | .inserted (.popped owner) => if owner.index = index then some owner.generation else occupant
  | .inserted _ => occupant
  | .removed owner => if owner.index = index then none else occupant

/-- What the last insert into a slot issued, unless the slot was removed since. -/
def occupant (events : List SlotEvent) (index : ℕ) : Option ℕ := events.foldl (noteOccupant index) none
def ofStamp (stamp : ℕ) : Option ℕ := if stamp = 0 then none else some stamp

structure Tracks (map : SlotMap N) (events : List SlotEvent) : Prop where
  stamps : Stamped map.core map.occupantGeneration (issued events)
  occupied : ∀ i : Fin N, occupant events i = ofStamp (map.occupantGeneration i)
  outside : ∀ index, N ≤ index → occupant events index = none

section Tracks
variable {map : SlotMap N} {events : List SlotEvent}

lemma occupant_append (events : List SlotEvent) (e : SlotEvent) (index : ℕ) :
    occupant (events ++ [e]) index = noteOccupant index (occupant events index) e := by
  rw [occupant, foldl_append]
  rfl

section
variable (h : Tracks map events)
include h

lemma Tracks.idle {e : SlotEvent} (hissued : issued (events ++ [e]) = issued events)
    (hnote : ∀ index, noteOccupant index (occupant events index) e = occupant events index)
    (count : ℕ) :
    Tracks { map with doubleRemoveCount := count } (events ++ [e]) := by
  refine ⟨?_, fun i => ?_, fun index hindex => ?_⟩
  · rw [hissued]
    exact h.stamps
  · rw [occupant_append, hnote, h.occupied]
  · rw [occupant_append, hnote, h.outside index hindex]

lemma Tracks.set {e : SlotEvent} {core : FreelistCore N} {g : ℕ}
    (hstamps : Stamped core (update map.occupantGeneration i g) (issued (events ++ [e])))
    (hnote : ∀ index occupant, noteOccupant index occupant e = if i.val = index then ofStamp g else occupant) :
    Tracks { map with core, occupantGeneration := update map.occupantGeneration i g } (events ++ [e]) := by
  refine ⟨hstamps, fun j => ?_, fun index hindex => ?_⟩
  · dsimp only
    rw [occupant_append, hnote]
    by_cases hji : j = i
    · rw [if_pos (congrArg Fin.val hji.symm), hji, update_self]
    · rw [if_neg (fun hij => hji (Fin.ext hij.symm)), update_of_ne hji, h.occupied]
  · rw [occupant_append, hnote, if_neg (by omega), h.outside index hindex]

lemma Tracks.insert : Tracks (slotmapInsert map).2 (events ++ [.inserted (slotmapInsert map).1]) := by
  unfold slotmapInsert
  obtain ⟨hempty, -⟩ | ⟨hended, -⟩ | ⟨i, hpop, -, hleft, -, hstamps⟩ := h.stamps.insert_cases
  · rw [hempty]
    exact h.idle (by simp [issued]) (fun _ => rfl) _
  · rw [hended]
    exact h.idle (by simp [issued]) (fun _ => rfl) _
  · rw [show map.core.insert = (.popped ⟨i, map.core.nextGeneration⟩, map.core.insert.2) from Prod.ext hpop rfl]
    dsimp only
    rw [dif_pos i.isLt]
    refine h.set ?_ fun index occupant => ?_
    · simpa [issued] using hstamps
    · rw [ofStamp, if_neg hleft]
      rfl

lemma Tracks.remove (owner : FreelistOwner) :
    Tracks (slotmapRemove map owner) (events ++ [.removed owner]) := by
  have hissued : issued (events ++ [.removed owner]) = issued events := by simp [issued]
  unfold slotmapRemove
  split_ifs with hindex hfree
  · refine h.idle hissued (fun index => ?_) _
    -- The slot has no occupant to lose.
    have hnone : occupant events owner.index = none := (h.occupied ⟨owner.index, hindex⟩).trans (if_pos hfree)
    change (if owner.index = index then none else occupant events index) = _
    split_ifs with hsame
    · rw [← hsame, hnone]
    · rfl
  · refine h.set (i := ⟨owner.index, hindex⟩) ?_ fun index occupant => rfl
    rw [hissued]
    exact h.stamps.remove hfree
  · refine h.idle hissued (fun index => ?_) _
    change (if owner.index = index then none else occupant events index) = _
    split_ifs with hsame
    · rw [← hsame, h.outside _ (not_lt.mp hindex)]
    · rfl

end

lemma tracks_run (N : ℕ) (calls : List SlotCall) : Tracks (slotmapRun N calls).1 (slotmapRun N calls).2 := by
  induction calls using reverseRecOn with
  | nil => exact ⟨stamped_init N, fun i => rfl, fun index _ => rfl⟩
  | append_singleton calls call ih =>
    rw [slotmapRun, foldl_append]
    cases call with
    | insert => exact ih.insert
    | remove owner => exact ih.remove owner

lemma ofStamp_eq_some {stamp generation : ℕ} :
    ofStamp stamp = some generation ↔ generation ≠ 0 ∧ stamp = generation := by
  unfold ofStamp
  split_ifs with hzero
  · exact iff_of_false (fun hnone => nomatch hnone) fun h => h.1 (h.2.symm.trans hzero)
  · rw [Option.some_inj]
    exact ⟨fun h => ⟨h ▸ hzero, h⟩, And.right⟩

lemma Tracks.matches_iff (h : Tracks map events) (index generation : ℕ) :
    slotmapMatches map index generation = true ↔ occupant events index = some generation := by
  unfold slotmapMatches
  by_cases hindex : index < N
  · rw [h.occupied ⟨index, hindex⟩, ofStamp_eq_some, dif_pos hindex]
    by_cases hzero : generation = 0
    · rw [if_pos hzero]
      exact iff_of_false false_ne_true fun hne => hne.1 hzero
    · rw [if_neg hzero, decide_eq_true_eq, and_iff_right hzero]
  · rw [h.outside index (not_lt.mp hindex), dif_neg hindex, ite_self]
    exact iff_of_false false_ne_true fun hnone => nomatch hnone

lemma slotmapLiveCount_eq (map : SlotMap N) :
    slotmapLiveCount map = (finRange N).countP fun i => map.occupantGeneration i ≠ 0 := by
  have hfold : ∀ (l : List (Fin N)) (live : ℕ),
      l.foldl (fun live i => if map.occupantGeneration i ≠ 0 then live + 1 else live) live =
        live + l.countP fun i => map.occupantGeneration i ≠ 0 := by
    intro l
    induction l with
    | nil => exact fun _ => rfl
    | cons i l ih =>
      intro live
      rw [foldl_cons, ih, countP_cons]
      by_cases hfree : map.occupantGeneration i = 0
      · simp [hfree]
      · simp [hfree]
        omega
  rw [slotmapLiveCount, hfold, Nat.zero_add]

lemma liveCount_eq_sub (hnodup : l.Nodup)
    (hmem : ∀ i, i ∈ l ↔ map.occupantGeneration i = 0) : slotmapLiveCount map = N - l.length := by
  have hperm : l.Perm ((finRange N).filter fun i => map.occupantGeneration i = 0) :=
    (perm_ext_iff_of_nodup hnodup ((nodup_finRange N).filter _)).mpr fun i => by simp [hmem]
  have hsplit := length_eq_countP_add_countP (l := finRange N) fun i =>
    decide (map.occupantGeneration i = 0)
  rw [length_finRange, countP_eq_length_filter, ← hperm.length_eq] at hsplit
  rw [slotmapLiveCount_eq]
  simp only [ne_eq, decide_not, decide_eq_true_eq] at hsplit ⊢
  omega

end Tracks

/-- The answer of an insert: a free slot under a new generation, as long as there are both. -/
def insertAnswer (free : List (Fin N)) (issued : List ℕ) : FreelistPopResult :=
  match free with
  | [] => .empty
  | i :: _ => if freelistLastGeneration ∈ issued then .exhausted else .popped ⟨i, map.core.nextGeneration⟩

/-- After any calls, the chain visits each free slot once and no other; generations only rise and end; a slot
matches what was last inserted and not removed; a second removal is only counted. -/
theorem slotmap_exclusive (N : ℕ) (calls : List SlotCall) : let map := (slotmapRun N calls).1
    let events := (slotmapRun N calls).2
    (∃ l, Free map.core l ∧ l.Nodup ∧ (∀ i, i ∈ l ↔ map.occupantGeneration i = 0) ∧
      slotmapLiveCount map = N - l.length ∧ (slotmapInsert map).1 = insertAnswer map l (issued events)) ∧
    (issued events).Pairwise (· < ·) ∧
    (∀ index generation, slotmapMatches map index generation = true ↔ occupant events index = some generation) ∧
    ∀ owner, occupant events owner.index = none →
      ∃ count, slotmapRemove map owner = { map with doubleRemoveCount := count } := by
  intro map events
  have h : Tracks map events := tracks_run N calls
  obtain ⟨l, hl, hmem⟩ := h.stamps.free
  refine ⟨⟨l, hl, hl.nodup, hmem, liveCount_eq_sub hl.nodup hmem, ?_⟩, h.stamps.sorted, h.matches_iff, ?_⟩
  · have hinsert := hl.insert
    rw [slotmapInsert_fst]
    cases l with
    | nil => rw [hinsert, insertAnswer]
    | cons i l =>
      have hended := h.stamps.ended
      dsimp only [insertAnswer] at hinsert ⊢
      split_ifs at hinsert with hleft
      · rw [hinsert, if_pos (hended.mp hleft)]
      · rw [hinsert.1, if_neg (fun hin => hleft (hended.mpr hin))]
  · intro owner hnone
    unfold slotmapRemove
    split_ifs with hindex hfree
    · exact ⟨_, rfl⟩
    · have hoccupied := h.occupied ⟨owner.index, hindex⟩
      rw [hnone, ofStamp, if_neg hfree] at hoccupied
      cases hoccupied
    · exact ⟨_, rfl⟩

end Takibi.Freelist
