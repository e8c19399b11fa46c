import Takibi.Boot.MemoryMap
import Takibi.Sweep.Runs

/-! The regions of a memory map are the maximal runs of RAM that no reservation touches. -/

namespace Takibi.Boot
open Sweep MemoryMap List Boot.Region

/-! ## What is usable -/

def Region.Contains (r : Region) (x : ℕ) : Prop := r.base ≤ x ∧ x < r.base + r.size

instance (r : Region) (x : ℕ) : Decidable (r.Contains x) := inferInstanceAs (Decidable (_ ∧ _))

def reservations (map : MemoryMap) : List Region := map.headers ++ map.trees

def Usable (map : MemoryMap) (x : ℕ) : Prop :=
  (∃ r ∈ map.raws, r.Contains x) ∧ ¬ ∃ r ∈ reservations map, r.Contains x

instance (map : MemoryMap) : DecidablePred (Usable map) := fun _ =>
  inferInstanceAs (Decidable (_ ∧ ¬ _))

def ends (rs : List Region) : Finset ℕ := (rs.flatMap fun r => [r.base, r.base + r.size]).toFinset

section Ends
variable {rs rs' : List Region} {r : Region} {x : ℕ}

lemma mem_ends : x ∈ ends rs ↔ ∃ r ∈ rs, x = r.base ∨ x = r.base + r.size := by
  simp [ends]

lemma ends_append : ends (rs ++ rs') = ends rs ∪ ends rs' := by
  simp [ends]

lemma card_ends_le (rs : List Region) : (ends rs).card ≤ rs.length * 2 := by
  refine (toFinset_card_le _).trans ?_
  simp [length_flatMap]

lemma contains_succ (hx : x + 1 ∉ ends rs) (hr : r ∈ rs) : r.Contains (x + 1) ↔ r.Contains x := by
  have hbase : x + 1 ≠ r.base := fun h => hx (mem_ends.mpr ⟨r, hr, .inl h⟩)
  have hstop : x + 1 ≠ r.base + r.size := fun h => hx (mem_ends.mpr ⟨r, hr, .inr h⟩)
  simp only [Region.Contains]
  omega

lemma exists_contains_succ (hx : x + 1 ∉ ends rs) : (∃ r ∈ rs, r.Contains (x + 1)) ↔ ∃ r ∈ rs, r.Contains x :=
  exists_congr fun _ => and_congr_right fun hr => contains_succ hx hr

end Ends

section Map
variable (map : MemoryMap)

lemma bounded_raws : ∀ r ∈ map.raws, r.base + r.size < 2 ^ 64 :=
  (forall_mem_append.mp map.bounded).1

lemma bounded_reservations : ∀ r ∈ reservations map, r.base + r.size < 2 ^ 64 :=
  (forall_mem_append.mp map.bounded).2

def mapEnds : Finset ℕ := ends (map.raws ++ reservations map)

lemma usable_changesAt (p : ℕ) : ChangesAt (Usable map) p (breaks (mapEnds map) p) := by
  intro x hp hx
  have hends : x + 1 ∉ mapEnds map := fun h => hx (mem_breaks.mpr ⟨h, by omega⟩)
  rw [mapEnds, ends_append, Finset.mem_union, not_or] at hends
  exact and_congr (exists_contains_succ hends.1) (not_congr (exists_contains_succ hends.2))

lemma card_mapEnds_le : (mapEnds map).card ≤ (map.raws.length + map.reservationCount) * 2 := by
  refine (card_ends_le _).trans (le_of_eq ?_)
  simp [reservations, reservationCount]

end Map

/-! ## The loops over regions -/

section Visits
variable {rs : List Region} {regionAt : ℕ → RegionResult} {σ : Type} (visit : σ → Region → σ)

lemma visitRegions_append (before : List Region)
    (hat : ∀ i, regionAt i = entryAt (before ++ rs) i) (s : σ) :
    visitRegions regionAt visit rs.length before.length s = some (rs.foldl visit s) := by
  induction rs generalizing before s with
  | nil => rfl
  | cons r rs ih =>
    have hfound : regionAt before.length = .found r := by
      rw [hat, entryAt, getElem?_append_right le_rfl, Nat.sub_self]
      rfl
    have hrest := ih (before ++ [r]) (by simpa using hat) (visit s r)
    rw [length_append] at hrest
    rw [length_cons, visitRegions, hfound]
    exact hrest

lemma visitRegions_eq (hat : ∀ i, regionAt i = entryAt rs i) (s : σ) :
    visitRegions regionAt visit rs.length 0 s = some (rs.foldl visit s) :=
  visitRegions_append visit [] hat s

variable (map : MemoryMap)

lemma anyReservationAt_eq (i : ℕ) : map.anyReservationAt i = entryAt (reservations map) i := by
  rw [anyReservationAt, reservations]
  split_ifs with hi
  · rw [headerReservationAt, entryAt, entryAt, getElem?_append_left hi]
  · rw [treeReservationAt, entryAt, entryAt, getElem?_append_right (not_lt.mp hi)]

lemma visit_raws (s : σ) :
    visitRegions map.rawRegionAt visit map.raws.length 0 s = some (map.raws.foldl visit s) :=
  visitRegions_eq visit (fun _ => rfl) s

lemma visit_reservations (s : σ) :
    visitRegions map.anyReservationAt visit map.reservationCount 0 s =
      some ((reservations map).foldl visit s) := by
  have hlength : map.reservationCount = (reservations map).length := by
    simp [reservationCount, reservations]
  rw [hlength]
  exact visitRegions_eq visit (anyReservationAt_eq map) s

end Visits

def IsLeastOf (E : Finset ℕ) : Option ℕ → Prop
  | none => E = ∅
  | some n => n ∈ E ∧ ∀ m ∈ E, n ≤ m

section Least
variable {E : Finset ℕ} {found : Option ℕ} {x cursor : ℕ}

lemma IsLeastOf.lower (h : IsLeastOf E found) : IsLeastOf (insert x E) (lower found x) := by
  unfold Boot.lower
  cases found with
  | none =>
    rw [h]
    simp [IsLeastOf]
  | some n =>
    obtain ⟨hn, hleast⟩ := h
    split_ifs with hx
    · have hlt : x < n := by simpa using hx
      refine ⟨Finset.mem_insert_self .., fun m hm => ?_⟩
      rcases Finset.mem_insert.mp hm with rfl | hm
      · exact le_rfl
      · exact hlt.le.trans (hleast m hm)
    · have hle : n ≤ x := by simpa using hx
      refine ⟨Finset.mem_insert_of_mem hn, fun m hm => ?_⟩
      rcases Finset.mem_insert.mp hm with rfl | hm
      · exact hle
      · exact hleast m hm

lemma IsLeastOf.above (h : IsLeastOf (E.filter (cursor < ·)) found) :
    IsLeastOf ((insert x E).filter (cursor < ·)) (above cursor found x) := by
  unfold Boot.above
  rw [Finset.filter_insert]
  split_ifs
  · exact h.lower
  · exact h

end Least

/-! ## One look around -/

variable {r : Region}

section Look
variable {rs : List Region} {cursor : ℕ} {l : Look} {E : Finset ℕ}

lemma stop_eq (h : r.base + r.size < 2 ^ 64) : r.stop = r.base + r.size :=
  Nat.mod_eq_of_lt h

lemma look_inside (cursor : ℕ) (l : Look) (hrs : ∀ r ∈ rs, r.base + r.size < 2 ^ 64) :
    (rs.foldl (look cursor) l).inside = true ↔ l.inside = true ∨ ∃ r ∈ rs, r.Contains cursor := by
  induction rs generalizing l with
  | nil => simp
  | cons r rs ih =>
    obtain ⟨hr, hrs⟩ := forall_mem_cons.mp hrs
    rw [foldl_cons, ih _ hrs, exists_mem_cons_iff, ← or_assoc]
    refine or_congr_left ?_
    simp [look, stop_eq hr, Region.Contains]

lemma look_next (l : Look) (hrs : ∀ r ∈ rs, r.base + r.size < 2 ^ 64)
    (hl : IsLeastOf (E.filter (cursor < ·)) l.next) :
    IsLeastOf ((E ∪ ends rs).filter (cursor < ·)) (rs.foldl (look cursor) l).next := by
  induction rs generalizing l E with
  | nil => simpa [ends] using hl
  | cons r rs ih =>
    obtain ⟨hr, hrs⟩ := forall_mem_cons.mp hrs
    have hnext : IsLeastOf ((insert (r.base + r.size) (insert r.base E)).filter (cursor < ·))
        (look cursor l r).next := by
      rw [look, stop_eq hr]
      exact hl.above.above
    have hends : E ∪ ends (r :: rs) = insert (r.base + r.size) (insert r.base E) ∪ ends rs := by
      ext x
      simpa [ends] using or_left_comm
    rw [hends]
    exact ih _ hrs hnext

end Look

section LookAround
variable (map : MemoryMap) (cursor : ℕ)

def lookRaws : Look := map.raws.foldl (look cursor) ⟨false, none⟩

def lookReservations : Look :=
  (reservations map).foldl (look cursor) ⟨false, (lookRaws map cursor).next⟩

lemma usable_iff : ((lookRaws map cursor).inside && !(lookReservations map cursor).inside) =
      decide (Usable map cursor) := by
  have hraws := look_inside cursor ⟨false, none⟩ (bounded_raws map)
  have hreserved := look_inside cursor ⟨false, (lookRaws map cursor).next⟩
    (bounded_reservations map)
  rw [Bool.eq_iff_iff, Bool.and_eq_true, Bool.not_eq_true', ← Bool.not_eq_true, lookRaws, hraws,
    lookReservations, hreserved]
  simp [Usable]

lemma lookReservations_next :
    IsLeastOf ((mapEnds map).filter (cursor < ·)) (lookReservations map cursor).next := by
  have hstart : IsLeastOf ((∅ : Finset ℕ).filter (cursor < ·)) none := rfl
  have hraws := look_next ⟨false, none⟩ (bounded_raws map) hstart
  rw [Finset.empty_union] at hraws
  rw [mapEnds, ends_append]
  exact look_next ⟨false, (lookRaws map cursor).next⟩ (bounded_reservations map) hraws

lemma breaks_eq : breaks (mapEnds map) cursor =
      match (lookReservations map cursor).next with
      | none => []
      | some next => next :: breaks (mapEnds map) next := by
  have hleast := lookReservations_next map cursor
  cases hnext : (lookReservations map cursor).next with
  | none =>
    rw [hnext] at hleast
    refine breaks_of_forall_le fun m hm => not_lt.mp fun hlt => ?_
    exact absurd (Finset.mem_filter.mpr ⟨hm, hlt⟩) (hleast ▸ Finset.notMem_empty m)
  | some next =>
    rw [hnext] at hleast
    obtain ⟨hmem, hle⟩ := hleast
    obtain ⟨hmem, hlt⟩ := Finset.mem_filter.mp hmem
    exact breaks_eq_cons hmem hlt fun m hm hm' => hle m (Finset.mem_filter.mpr ⟨hm, hm'⟩)

end LookAround

/-! ## The sweep -/

def regionOf (I : ℕ × ℕ) : Region := ⟨I.1, I.2 - I.1⟩

variable {cursor : ℕ}

section Sweeping
variable (map : MemoryMap)

lemma not_usable_of_last (h : (lookReservations map cursor).next = none) : ¬ Usable map cursor := by
  rintro ⟨⟨r, hr, hcontains⟩, -⟩
  have hleast := lookReservations_next map cursor
  rw [h] at hleast
  have hend : r.base + r.size ∈ (mapEnds map).filter (cursor < ·) := by
    refine Finset.mem_filter.mpr ⟨mem_ends.mpr ⟨r, ?_, .inr rfl⟩, hcontains.2⟩
    exact mem_append_left _ hr
  exact absurd hend (hleast ▸ Finset.notMem_empty _)

lemma sweepRegions_succ (wanted steps cursor i : ℕ) (o : Option ℕ) :
    map.sweepRegions wanted (steps + 1) cursor i o =
      match turn wanted cursor i (decide (Usable map cursor)) o with
      | .inl result => result
      | .inr (i, o) =>
        match (lookReservations map cursor).next with
        | none => finish wanted cursor i o
        | some next => map.sweepRegions wanted steps next i o := by
  rw [sweepRegions, visit_raws]
  dsimp only
  rw [visit_reservations]
  dsimp only
  rw [← usable_iff]
  rfl

lemma entryAt_cons (r : Region) (rs : List Region) {wanted i : ℕ} (hi : i < wanted) :
    entryAt (r :: rs) (wanted - i) = entryAt rs (wanted - (i + 1)) := by
  have hsub : wanted - i = wanted - (i + 1) + 1 := by omega
  rw [entryAt, hsub, getElem?_cons_succ]
  rfl

lemma sweepRegions_eq {wanted steps i : ℕ} {o : Option ℕ} (hi : i ≤ wanted)
    (hsteps : (breaks (mapEnds map) cursor).length < steps) :
    map.sweepRegions wanted steps cursor i o =
      entryAt ((sweep (Usable map) (cursor :: breaks (mapEnds map) cursor) o).map regionOf)
        (wanted - i) := by
  induction steps generalizing cursor i o with
  | zero => exact absurd hsteps (Nat.not_lt_zero _)
  | succ steps ih =>
    -- after the turn at the cursor, in whichever state it leaves
    have hrest : ∀ i o, i ≤ wanted → (¬ Usable map cursor → o = none) →
        (match (lookReservations map cursor).next with
          | none => finish wanted cursor i o
          | some next => map.sweepRegions wanted steps next i o) =
        entryAt ((sweep (Usable map) (breaks (mapEnds map) cursor) o).map regionOf)
          (wanted - i) := by
      intro i o hi ho
      have hbreaks := breaks_eq map cursor
      cases hnext : (lookReservations map cursor).next with
      | none =>
        rw [hnext] at hbreaks
        rw [ho (not_usable_of_last map hnext), hbreaks]
        rfl
      | some next =>
        rw [hnext] at hbreaks
        rw [hbreaks] at hsteps ⊢
        exact ih hi (Nat.lt_of_succ_lt_succ hsteps)
    rw [sweepRegions_succ]
    by_cases husable : Usable map cursor
    · cases o with
      | none =>
        rw [sweep, if_pos husable, decide_eq_true husable]
        exact hrest i (some cursor) hi fun h => absurd husable h
      | some base =>
        rw [sweep, if_pos husable, decide_eq_true husable]
        exact hrest i (some base) hi fun h => absurd husable h
    · cases o with
      | none =>
        rw [sweep, if_neg husable, decide_eq_false husable]
        exact hrest i none hi fun _ => rfl
      | some base =>
        rw [sweep, if_neg husable, decide_eq_false husable, turn]
        by_cases hwanted : i = wanted
        · rw [if_pos hwanted, hwanted, Nat.sub_self]
          rfl
        · have hlt : i < wanted := lt_of_le_of_ne hi hwanted
          rw [if_neg hwanted, map_cons, entryAt_cons _ _ hlt]
          exact hrest (i + 1) none hlt fun _ => rfl

/-! ## All regions -/

lemma lowest_isLeastOf (rs : List Region) (E : Finset ℕ) (found : Option ℕ)
    (h : IsLeastOf E found) :
    IsLeastOf (E ∪ (rs.map base).toFinset)
      (rs.foldl (fun found r => lower found r.base) found) := by
  induction rs generalizing E found with
  | nil => simpa using h
  | cons r rs ih =>
    have hunion : E ∪ ((r :: rs).map base).toFinset = insert r.base E ∪ (rs.map base).toFinset := by
      ext x
      simp
    rw [hunion]
    exact ih _ _ h.lower

lemma exists_lowest (hraw : map.raws ≠ []) : ∃ cursor,
    map.raws.foldl (fun found r => lower found r.base) none = some cursor ∧
      (∃ r ∈ map.raws, r.base = cursor) ∧ ∀ r ∈ map.raws, cursor ≤ r.base := by
  have hleast := lowest_isLeastOf map.raws ∅ none rfl
  rw [Finset.empty_union] at hleast
  cases hfound : map.raws.foldl (fun found r => lower found r.base) none with
  | none =>
    rw [hfound] at hleast
    have hnil : map.raws.map base = [] := toFinset_eq_empty_iff _ |>.mp hleast
    exact absurd (map_eq_nil_iff.mp hnil) hraw
  | some cursor =>
    rw [hfound] at hleast
    obtain ⟨hmem, hle⟩ := hleast
    refine ⟨cursor, rfl, by simpa using hmem, fun r hr => hle _ ?_⟩
    exact mem_toFinset.mpr (mem_map_of_mem hr)

variable {map}

lemma regionAt_eq
    (hcursor : map.raws.foldl (fun found r => lower found r.base) none = some cursor)
    (hmem : cursor ∈ mapEnds map) (wanted : ℕ) :
    map.regionAt wanted = entryAt
      ((sweep (Usable map) (cursor :: breaks (mapEnds map) cursor) none).map regionOf) wanted := by
  have hfew := map.few
  have hsteps : (breaks (mapEnds map) cursor).length <
      (map.raws.length + map.reservationCount) * 2 + 1 := by
    have hlt := length_breaks_lt hmem
    have hle := card_mapEnds_le map
    omega
  have hcounts : ¬ map.headers.length > usizeMax - map.trees.length := by
    rw [usizeMax]
    omega
  have hraws : ¬ map.raws.length > 0x7FFFFFFFFFFFFFFF - map.reservationCount := by
    rw [reservationCount]
    omega
  rw [regionAt, if_neg hcounts, if_neg hraws, visit_raws, hcursor]
  exact sweepRegions_eq map (Nat.zero_le wanted) hsteps

variable (map) in
/-- The regions are the maximal runs of usable memory, in order; no two of them touch. -/
structure IsMap (regions : List Region) : Prop where
  lookup : ∀ i, map.regionAt i = entryAt regions i
  runs : ∀ a b, (∃ r ∈ regions, r.base = a ∧ r.base + r.size = b) ↔ IsRun (Usable map) a b
  ordered : regions.Pairwise fun r r' => r.base + r.size < r'.base
  length_lt : regions.length < usizeMax

lemma exists_isMap (hraw : map.raws ≠ []) : ∃ regions, IsMap map regions := by
  obtain ⟨cursor, hcursor, ⟨r, hr, hbase⟩, hlow⟩ := exists_lowest map hraw
  have hmem : cursor ∈ mapEnds map :=
    mem_ends.mpr ⟨r, mem_append_left _ hr, .inl hbase.symm⟩
  have hbelow : ∀ x < cursor, ¬ Usable map x := by
    rintro x hx ⟨⟨r, hr, hcontains⟩, -⟩
    have hle := hlow r hr
    have hge := hcontains.1
    omega
  have hsorted : (cursor :: breaks (mapEnds map) cursor).Pairwise (· < ·) := pairwise_breaks
  have hchange := usable_changesAt map cursor
  have hruns := mem_sweep_first hsorted hchange hbelow
  have hlt : ∀ I ∈ sweep (Usable map) (cursor :: breaks (mapEnds map) cursor) none, I.1 < I.2 :=
    fun I hI => ((hruns I.1 I.2).mp hI).lt
  refine ⟨_, regionAt_eq hcursor hmem, fun a b => ?_, ?_, ?_⟩
  · rw [← hruns]
    constructor
    · rintro ⟨r, hr, rfl, rfl⟩
      obtain ⟨I, hI, rfl⟩ := mem_map.mp hr
      have hI' := hlt I hI
      have hstop : (regionOf I).base + (regionOf I).size = I.2 := by
        simp only [regionOf]
        omega
      rwa [hstop]
    · intro hI
      have hI' := hlt _ hI
      refine ⟨_, mem_map_of_mem hI, rfl, ?_⟩
      simp only [regionOf]
      omega
  · refine pairwise_map.mpr ?_
    refine (pairwise_sweep_first hsorted hchange hbelow).imp_of_mem fun {I J} hI _ h => ?_
    have hI' := hlt I hI
    simp only [regionOf]
    omega
  · have hle := length_sweep_le (Usable map) (cursor :: breaks (mapEnds map) cursor) none
    have hends := length_breaks_lt hmem
    have hcard := card_mapEnds_le map
    have hfew := map.few
    rw [reservationCount] at hcard
    rw [length_map, usizeMax]
    rw [length_cons] at hle
    omega

end Sweeping

/-! ## Their number and total size -/

section Totals
variable {map : MemoryMap} {regions : List Region}

section
variable (h : IsMap map regions)
include h

lemma IsMap.isRun (hr : r ∈ regions) : IsRun (Usable map) r.base (r.base + r.size) :=
  (h.runs _ _).mp ⟨r, hr, rfl, rfl⟩

lemma IsMap.regionAt_lt {i : ℕ} (hi : i < regions.length) : map.regionAt i = .found regions[i] := by
  rw [h.lookup, entryAt, getElem?_eq_getElem hi]

lemma IsMap.regionAt_length : map.regionAt regions.length = .outOfRange := by
  rw [h.lookup, entryAt, getElem?_eq_none le_rfl]

lemma IsMap.countRegions_eq {remaining i : ℕ} (hi : i ≤ regions.length)
    (hremaining : regions.length < remaining + i) :
    map.countRegions remaining i = regions.length := by
  induction remaining generalizing i with
  | zero => omega
  | succ remaining ih =>
    rcases hi.lt_or_eq with hlt | rfl
    · have hsize : regions[i].size ≠ 0 := by
        have hrun := (h.isRun (getElem_mem hlt)).lt
        omega
      rw [countRegions, h.regionAt_lt hlt]
      dsimp only
      rw [if_neg hsize]
      exact ih hlt (by omega)
    · rw [countRegions, h.regionAt_length]

end

lemma sum_size_le {rs : List Region} {lo hi : ℕ} (hle : lo ≤ hi)
    (hrs : rs.Pairwise fun r r' => r.base + r.size < r'.base)
    (hbounds : ∀ r ∈ rs, lo ≤ r.base ∧ r.base + r.size ≤ hi) :
    lo + (rs.map size).sum ≤ hi := by
  induction rs generalizing lo with
  | nil => simpa using hle
  | cons r rs ih =>
    obtain ⟨hfirst, hrest⟩ := pairwise_cons.mp hrs
    obtain ⟨⟨hlo, hstop⟩, htail⟩ := forall_mem_cons.mp hbounds
    have hsum := ih hstop hrest fun r' hr' => ⟨(hfirst r' hr').le, (htail r' hr').2⟩
    rw [map_cons, sum_cons]
    omega

lemma IsMap.stop_le (h : IsMap map regions) (hr : r ∈ regions) : r.base + r.size ≤ usizeMax := by
  have hrun := h.isRun hr
  have hlt := hrun.lt
  obtain ⟨⟨raw, hraw, hcontains⟩, -⟩ := hrun.holds (r.base + r.size - 1) (by omega) (by omega)
  have hbounded := bounded_raws map raw hraw
  have hstop := hcontains.2
  rw [usizeMax]
  omega

lemma IsMap.sum_le (h : IsMap map regions) : (regions.map size).sum ≤ usizeMax := by
  have hsum := sum_size_le (Nat.zero_le usizeMax) h.ordered
    fun r hr => ⟨Nat.zero_le r.base, h.stop_le hr⟩
  rwa [Nat.zero_add] at hsum

lemma IsMap.sumRegions_eq (h : IsMap map regions) {remaining i total : ℕ}
    (hi : i ≤ regions.length) (hremaining : regions.length < remaining + i)
    (htotal : total + ((regions.drop i).map size).sum = (regions.map size).sum) :
    map.sumRegions remaining i total = (regions.map size).sum := by
  induction remaining generalizing i total with
  | zero => omega
  | succ remaining ih =>
    rcases hi.lt_or_eq with hlt | rfl
    · have hle := h.sum_le
      rw [drop_eq_getElem_cons hlt, map_cons, sum_cons] at htotal
      rw [sumRegions, h.regionAt_lt hlt]
      dsimp only
      rw [if_neg (by omega)]
      exact ih hlt (by omega) (by omega)
    · rw [sumRegions, h.regionAt_length]
      simpa using htotal

/-- The regions of a map are the maximal intervals of RAM without the reservations, in order
and with gaps between them; then every index is out of range. Their number and total size are
those counted. -/
theorem memory_regions (map : MemoryMap) (hraw : map.raws ≠ []) : ∃ regions : List Region,
      (∀ i, map.regionAt i = (regions[i]?).elim .outOfRange .found) ∧
      (∀ a b, (∃ r ∈ regions, r.base = a ∧ r.base + r.size = b) ↔ IsRun (Usable map) a b) ∧
      regions.Pairwise (fun r r' => r.base + r.size < r'.base) ∧
      map.regionCount = regions.length ∧ map.totalSize = (regions.map size).sum := by
  obtain ⟨regions, h⟩ := exists_isMap hraw
  have hlength := h.length_lt
  refine ⟨regions, fun i => ?_, h.runs, h.ordered, ?_, ?_⟩
  · rw [h.lookup, entryAt]
    cases regions[i]? <;> rfl
  · exact h.countRegions_eq (Nat.zero_le _) (by omega)
  · exact h.sumRegions_eq (Nat.zero_le _) (by omega) (by simp)

def twoBanks : MemoryMap where
  raws := [⟨0x2000, 0x2000⟩, ⟨0x1000, 0x2000⟩]
  headers := [⟨0x1800, 0x400⟩]
  trees := [⟨0x8000, 0x1000⟩]
  bounded := by decide
  few := by decide

theorem memory_regions_twoBanks : ∃ regions : List Region,
    (∀ i, twoBanks.regionAt i = (regions[i]?).elim .outOfRange .found) ∧
      twoBanks.regionCount = regions.length :=
  have ⟨regions, hlookup, _, _, hcount, _⟩ := memory_regions twoBanks (by decide)
  ⟨regions, hlookup, hcount⟩

example : [0, 1, 2].map twoBanks.regionAt =
    [.found ⟨0x1000, 0x800⟩, .found ⟨0x1C00, 0x2400⟩, .outOfRange] := by
  decide

end Totals
end Takibi.Boot
