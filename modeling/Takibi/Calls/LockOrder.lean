import Takibi.Calls.LockRank

/-! The rounds of lock summaries: ranks only fall, so that they come to rest at the lowest
ranks; labels come to rest with them where those of one rank agree. -/

namespace Takibi.Calls
open Syntax Control List Function Nat

/-! ## Ranks -/

def rankOf : Option Lock → WithTop ℕ
  | none => ⊤
  | some l => l.rank

section Ranks
variable {declared : String → Option Lock} {m m' : String → Option Lock} {f c : String}
  {cs : List String} {a b : Option Lock} {l : Lock}

lemma rankOf_eq_top : rankOf a = ⊤ ↔ a = none := by
  cases a with
  | none => simp [rankOf]
  | some l => simp [rankOf]

lemma rankOf_meetLock (a b : Option Lock) : rankOf (meetLock a b) = min (rankOf a) (rankOf b) := by
  cases a with
  | none => simp [meetLock, rankOf]
  | some x =>
    cases b with
    | none => simp [meetLock, rankOf]
    | some y =>
      simp only [meetLock, lowerLock, rankOf]
      split_ifs with h
      · exact (min_eq_left (by exact_mod_cast h.le)).symm
      · exact (min_eq_right (by exact_mod_cast not_lt.mp h)).symm

lemma meetLock_eq (a b : Option Lock) : meetLock a b = a ∨ meetLock a b = b := by
  cases a with
  | none => exact .inr rfl
  | some x =>
    cases b with
    | none => exact .inl rfl
    | some y =>
      simp only [meetLock, lowerLock]
      split_ifs
      · exact .inl rfl
      · exact .inr rfl

lemma foldl_meet_le (cs : List String) : ∀ start : Option Lock,
    rankOf (cs.foldl (fun current callee => meetLock (m callee) current) start) ≤ rankOf start ∧
      ∀ c ∈ cs, rankOf (cs.foldl (fun current callee => meetLock (m callee) current) start) ≤
        rankOf (m c) := by
  induction cs with
  | nil => exact fun start => ⟨le_rfl, nofun⟩
  | cons d cs ih =>
    intro start
    obtain ⟨hstart, hcs⟩ := ih (meetLock (m d) start)
    rw [rankOf_meetLock] at hstart
    refine ⟨hstart.trans (min_le_right ..), fun c hc => ?_⟩
    rcases mem_cons.mp hc with rfl | hc
    · exact hstart.trans (min_le_left ..)
    · exact hcs c hc

lemma foldl_meet_from (cs : List String) : ∀ start : Option Lock,
    cs.foldl (fun current callee => meetLock (m callee) current) start = start ∨
      ∃ c ∈ cs, cs.foldl (fun current callee => meetLock (m callee) current) start = m c := by
  induction cs with
  | nil => exact fun start => .inl rfl
  | cons d cs ih =>
    intro start
    rcases ih (meetLock (m d) start) with h | ⟨c, hc, h⟩
    · rcases meetLock_eq (m d) start with hd | hs
      · exact .inr ⟨d, mem_cons_self .., h.trans hd⟩
      · exact .inl (h.trans hs)
    · exact .inr ⟨c, mem_cons_of_mem _ hc, h⟩

lemma lockSummary_from (declared m : String → Option Lock) (f : String) (cs : List String) :
    lockSummary declared m f cs = declared f ∨ ∃ c ∈ cs, lockSummary declared m f cs = m c :=
  foldl_meet_from cs (declared f)

lemma lockSummary_le_declared :
    rankOf (lockSummary declared m f cs) ≤ rankOf (declared f) := (foldl_meet_le cs _).1

lemma lockSummary_le_callee (hc : c ∈ cs) :
    rankOf (lockSummary declared m f cs) ≤ rankOf (m c) := (foldl_meet_le cs _).2 c hc

lemma lockSummary_mono (h : ∀ c, rankOf (m' c) ≤ rankOf (m c)) :
    rankOf (lockSummary declared m' f cs) ≤ rankOf (lockSummary declared m f cs) := by
  rcases lockSummary_from declared m f cs with heq | ⟨c, hc, heq⟩
  · rw [heq]
    exact lockSummary_le_declared
  · rw [heq]
    exact (lockSummary_le_callee hc).trans (h c)

lemma lockSummary_congr (h : ∀ c ∈ cs, m' c = m c) :
    lockSummary declared m' f cs = lockSummary declared m f cs := by
  refine foldl_ext _ _ _ fun current callee hc => ?_
  rw [h callee hc]

end Ranks

/-! ## One caller -/

section Revise
variable (declared : String → Option Lock) (graph : List (String × List String))

def Direct (f g : String) : Prop := ∃ cs, (f, cs) ∈ graph ∧ g ∈ cs

def revise (m : String → Option Lock) (p : String × List String) : String → Option Lock :=
  update m p.1 ((lockSummary declared m p.1 p.2).or (m p.1))

/-- Every summary is a lock that some reachable function takes, none is below what a visit
gives, and none is above the function's own. -/
structure Falling (m : String → Option Lock) : Prop where
  taken : ∀ f l, m f = some l → ∃ g, Relation.ReflTransGen (Direct graph) f g ∧ declared g = some l
  falls : ∀ p ∈ graph, rankOf (lockSummary declared m p.1 p.2) ≤ rankOf (m p.1)
  own : ∀ f, rankOf (m f) ≤ rankOf (declared f)

variable {declared graph} {m : String → Option Lock} {p : String × List String} {f : String}

lemma falling_declared : Falling declared graph declared :=
  ⟨fun f _ h => ⟨f, .refl, h⟩, fun _ _ => lockSummary_le_declared, fun _ => le_rfl⟩

lemma revise_ne (h : f ≠ p.1) : revise declared m p f = m f := update_of_ne h ..

section
variable (h : Falling declared graph m)
include h

lemma Falling.revise_self (hp : p ∈ graph) : revise declared m p p.1 = lockSummary declared m p.1 p.2 := by
  have hfalls := h.falls p hp
  rw [revise, update_self]
  cases hs : lockSummary declared m p.1 p.2 with
  | some found => rfl
  | none =>
    rw [hs] at hfalls
    exact rankOf_eq_top.mp (top_le_iff.mp hfalls)

lemma Falling.revise_le (hp : p ∈ graph) (f : String) : rankOf (revise declared m p f) ≤ rankOf (m f) := by
  by_cases hf : f = p.1
  · rw [hf, h.revise_self hp]
    exact h.falls p hp
  · rw [revise_ne hf]

lemma Falling.revise (hkeys : (graph.map Prod.fst).Nodup) (hp : p ∈ graph) :
    Falling declared graph (revise declared m p) := by
  refine ⟨fun f l hl => ?_, fun q hq => ?_, fun f => (h.revise_le hp f).trans (h.own f)⟩
  · by_cases hf : f = p.1
    · rw [hf, h.revise_self hp] at hl
      rcases lockSummary_from declared m p.1 p.2 with heq | ⟨c, hc, heq⟩
      · exact ⟨f, .refl, by rw [hf, ← heq, hl]⟩
      · obtain ⟨g, hg, hlock⟩ := h.taken c l (heq.symm.trans hl)
        exact ⟨g, .head ⟨p.2, hf ▸ hp, hc⟩ hg, hlock⟩
    · rw [revise_ne hf] at hl
      exact h.taken f l hl
  · refine (lockSummary_mono (h.revise_le hp)).trans ?_
    by_cases hq' : q.1 = p.1
    · obtain rfl := inj_on_of_nodup_map hkeys hq hp hq'
      rw [h.revise_self hp]
    · rw [revise_ne hq']
      exact h.falls q hq

end
end Revise

/-! ## Rounds -/

section Rounds
variable {declared : String → Option Lock} {graph : List (String × List String)}
  {m r : String → Option Lock} {p : String × List String} {changed : Bool}

lemma visitCaller_cases (declared m : String → Option Lock) (changed : Bool) (p : String × List String) :
    (revise declared m p = m ∧ visitCaller declared (m, changed) p = (m, changed)) ∨
      (revise declared m p ≠ m ∧ visitCaller declared (m, changed) p = (revise declared m p, true)) := by
  unfold visitCaller revise
  cases hs : lockSummary declared m p.1 p.2 with
  | none => exact .inl ⟨update_eq_self .., rfl⟩
  | some found =>
    rw [Option.some_or]
    by_cases hold : m p.1 = some found
    · refine .inl ⟨?_, if_pos hold⟩
      rw [← hold, update_eq_self]
    · refine .inr ⟨fun heq => ?_, if_neg hold⟩
      have hat := congrFun heq p.1
      rw [update_self] at hat
      exact hold hat.symm

lemma foldl_visitCaller_fst (ps : List (String × List String)) :
    ∀ m changed, (ps.foldl (visitCaller declared) (m, changed)).1 = ps.foldl (revise declared) m := by
  induction ps with
  | nil => exact fun m changed => rfl
  | cons p ps ih =>
    intro m changed
    rw [foldl_cons, foldl_cons]
    rcases visitCaller_cases declared m changed p with ⟨hsame, hvisit⟩ | ⟨-, hvisit⟩
    · rw [hvisit, hsame, ih]
    · rw [hvisit, ih]

lemma foldl_visitCaller_snd (declared : String → Option Lock) (ps : List (String × List String)) :
    ∀ m changed,
    (ps.foldl (visitCaller declared) (m, changed)).2 = false ↔
      changed = false ∧ ∀ p ∈ ps, revise declared m p = m := by
  induction ps with
  | nil => simp
  | cons p ps ih =>
    intro m changed
    rw [foldl_cons]
    rcases visitCaller_cases declared m changed p with ⟨hsame, hvisit⟩ | ⟨hne, hvisit⟩
    · rw [hvisit, ih]
      simp [hsame]
    · rw [hvisit, ih]
      simp [hne]

lemma lockRound_eq_none : lockRound declared graph m = none ↔ ∀ p ∈ graph, revise declared m p = m := by
  have hsnd := foldl_visitCaller_snd declared graph m false
  unfold lockRound
  dsimp only
  split_ifs with h
  · simp only [false_iff]
    intro hall
    rw [hsnd.mpr ⟨rfl, hall⟩] at h
    cases h
  · exact ⟨fun _ => (hsnd.mp (Bool.eq_false_iff.mpr h)).2, fun _ => rfl⟩

lemma lockRound_eq_some (h : lockRound declared graph m = some r) : r = graph.foldl (revise declared) m := by
  unfold lockRound at h
  dsimp only at h
  split_ifs at h
  cases h
  exact foldl_visitCaller_fst graph m false

lemma Falling.foldl (hkeys : (graph.map Prod.fst).Nodup) {ps : List (String × List String)}
    (hps : ps ⊆ graph) : ∀ {m}, Falling declared graph m →
    Falling declared graph (ps.foldl (Calls.revise declared) m) := by
  induction ps with
  | nil => exact fun h => h
  | cons p ps ih =>
    intro m h
    exact ih (fun q hq => hps (mem_cons_of_mem _ hq)) (h.revise hkeys (hps (mem_cons_self ..)))

structure IsLowest (reaches : String → Prop) (declared : String → Option Lock)
    (summary : Option Lock) : Prop where
  taken : ∀ l, summary = some l → ∃ g, reaches g ∧ declared g = some l
  lowest : ∀ g l, reaches g → declared g = some l → ∃ l', summary = some l' ∧ l'.rank ≤ l.rank

lemma rankOf_le_some {a : Option Lock} {l : Lock} (h : rankOf a ≤ rankOf (some l)) :
    ∃ l', a = some l' ∧ l'.rank ≤ l.rank := by
  cases a with
  | none => exact absurd (top_le_iff.mp h) (by simp [rankOf])
  | some l' => exact ⟨l', rfl, by simpa [rankOf] using h⟩

lemma IsLowest.unique {reaches : String → Prop} {a b : Option Lock} (ha : IsLowest reaches declared a)
    (hb : IsLowest reaches declared b)
    (hlabel : ∀ l l', IsLowest reaches declared (some l) → IsLowest reaches declared (some l') → l.label = l'.label) :
    a = b := by
  cases a with
  | none =>
    cases b with
    | none => rfl
    | some l =>
      obtain ⟨g, hg, hl⟩ := hb.taken l rfl
      obtain ⟨_, hnone, -⟩ := ha.lowest g l hg hl
      cases hnone
  | some l =>
    obtain ⟨g, hg, hl⟩ := ha.taken l rfl
    obtain ⟨l', rfl, hle⟩ := hb.lowest g l hg hl
    obtain ⟨g', hg', hl'⟩ := hb.taken l' rfl
    obtain ⟨_, hsome, hle'⟩ := ha.lowest g' l' hg' hl'
    cases hsome
    have hrank : l.rank = l'.rank := le_antisymm hle' hle
    have hname := hlabel l l' ha hb
    cases l
    cases l'
    simp_all

lemma Falling.isLowest (h : Falling declared graph m)
    (hrest : ∀ p ∈ graph, Calls.revise declared m p = m) (f : String) :
    IsLowest (Relation.ReflTransGen (Direct graph) f) declared (m f) := by
  refine ⟨h.taken f, fun g l hreach hl => rankOf_le_some ?_⟩
  rw [← hl]
  induction hreach using Relation.ReflTransGen.head_induction_on with
  | refl => exact h.own g
  | head hstep _ ih =>
    obtain ⟨cs, hp, hc⟩ := hstep
    refine le_trans ?_ ih
    rw [← hrest _ hp, h.revise_self hp, hrest _ hp]
    exact lockSummary_le_callee hc

lemma lockAcquireSummaries_lowest (hkeys : (graph.map Prod.fst).Nodup) {fuel : Nat}
    (h : lockAcquireSummaries declared graph fuel = some r) (f : String) :
    IsLowest (Relation.ReflTransGen (Direct graph) f) declared (r f) := by
  have hinv : Falling declared graph r := settle_invariant
    (fun a b ha hab => lockRound_eq_some hab ▸ ha.foldl hkeys (List.Subset.refl graph))
    falling_declared h
  exact hinv.isLowest (lockRound_eq_none.mp (settle_stable h)) f

end Rounds

/-! ## Coming to rest -/

section Rest
variable (declared : String → Option Lock) (graph : List (String × List String))

def visits : ℕ → String → Option Lock
  | 0 => declared
  | t + 1 =>
    match graph[t % graph.length]? with
    | some p => revise declared (visits t) p
    | none => visits t

/-- The locks of the lowest rank that `f` reaches have one label. -/
def Agree (f : String) : Prop :=
  ∀ l l', IsLowest (Relation.ReflTransGen (Direct graph) f) declared (some l) →
    IsLowest (Relation.ReflTransGen (Direct graph) f) declared (some l') → l.label = l'.label

def Rests (f : String) : Prop := ∃ T, ∀ t ≥ T, visits declared graph t f = visits declared graph T f

variable {declared graph} {f : String} {cs : List String} {t : ℕ}

variable (declared graph) in
lemma visits_succ (t : ℕ) :
    (∃ p ∈ graph, visits declared graph (t + 1) = revise declared (visits declared graph t) p ∧
      graph[t % graph.length]? = some p) ∨
    visits declared graph (t + 1) = visits declared graph t := by
  rw [visits]
  cases hp : graph[t % graph.length]? with
  | none => exact .inr rfl
  | some p => exact .inl ⟨p, mem_of_getElem? hp, rfl, rfl⟩

lemma visits_of_notKey (hf : ∀ cs, (f, cs) ∉ graph) (t : ℕ) : visits declared graph t f = declared f := by
  induction t with
  | zero => rfl
  | succ t ih =>
    rcases visits_succ declared graph t with ⟨p, hp, hrev, -⟩ | hsame
    · rw [hrev, revise_ne, ih]
      rintro rfl
      exact hf p.2 hp
    · rw [hsame, ih]

lemma rests_list (h : ∀ c ∈ cs, Rests declared graph c) :
    ∃ T, ∀ c ∈ cs, ∀ t ≥ T, visits declared graph t c = visits declared graph T c := by
  induction cs with
  | nil => exact ⟨0, nofun⟩
  | cons d cs ih =>
    obtain ⟨T, hT⟩ := ih fun c hc => h c (mem_cons_of_mem _ hc)
    obtain ⟨U, hU⟩ := h d (mem_cons_self ..)
    refine ⟨max T U, fun c hc t ht => ?_⟩
    have hTt : T ≤ t := le_trans (le_max_left ..) ht
    have hUt : U ≤ t := le_trans (le_max_right ..) ht
    rcases mem_cons.mp hc with rfl | hc
    · rw [hU t hUt, hU _ (le_max_right ..)]
    · rw [hT c hc t hTt, hT c hc _ (le_max_left ..)]

variable (declared) in
lemma visits_mod {n i : ℕ} {p : String × List String} (hp : graph[i]? = some p) :
    visits declared graph (n * graph.length + i + 1) =
      revise declared (visits declared graph (n * graph.length + i)) p := by
  obtain ⟨hi, -⟩ := List.getElem?_eq_some_iff.mp hp
  rw [visits, mul_add_mod_of_lt hi, hp]

section
variable (hkeys : (graph.map Prod.fst).Nodup)
include hkeys

variable (declared) in
lemma falling_visits (t : ℕ) : Falling declared graph (visits declared graph t) := by
  induction t with
  | zero => exact falling_declared
  | succ t ih =>
    rcases visits_succ declared graph t with ⟨p, hp, hrev, -⟩ | hsame
    · rw [hrev]
      exact ih.revise hkeys hp
    · rw [hsame]
      exact ih

lemma rankOf_visits_antitone (f : String) : Antitone fun t => rankOf (visits declared graph t f) := by
  refine antitone_nat_of_succ_le fun t => ?_
  rcases visits_succ declared graph t with ⟨p, hp, hrev, -⟩ | hsame
  · rw [hrev]
    exact (falling_visits declared hkeys t).revise_le hp f
  · rw [hsame]

variable (declared) in
lemma rankOf_visits_rests (f : String) :
    ∃ T, ∀ t ≥ T, rankOf (visits declared graph t f) = rankOf (visits declared graph T f) := by
  obtain ⟨_, ⟨T, rfl⟩, hmin⟩ := wellFounded_lt.has_min
    (Set.range fun t => rankOf (visits declared graph t f)) ⟨_, 0, rfl⟩
  refine ⟨T, fun t ht => le_antisymm (rankOf_visits_antitone hkeys f ht) ?_⟩
  exact not_lt.mp (hmin _ ⟨t, rfl⟩)

variable (declared) in
lemma visits_le_reachable {g : String} (hreach : Relation.ReflTransGen (Direct graph) f g) :
    ∃ T, ∀ t ≥ T, rankOf (visits declared graph t f) ≤ rankOf (declared g) := by
  induction hreach using Relation.ReflTransGen.head_induction_on with
  | refl => exact ⟨0, fun t _ => (falling_visits declared hkeys t).own g⟩
  | @head f c hstep _ ih =>
    obtain ⟨T, hT⟩ := ih
    obtain ⟨cs, hp, hc⟩ := hstep
    obtain ⟨i, hi⟩ := getElem?_of_mem hp
    obtain ⟨hlt, -⟩ := List.getElem?_eq_some_iff.mp hi
    have hle : T ≤ T * graph.length := Nat.le_mul_of_pos_right T (by omega)
    -- the first visit of `f` after the rank of `c` has come down
    refine ⟨T * graph.length + i + 1, fun t ht => (rankOf_visits_antitone hkeys f ht).trans ?_⟩
    dsimp only
    rw [visits_mod declared hi, (falling_visits declared hkeys _).revise_self hp]
    exact (lockSummary_le_callee hc).trans (hT _ (by omega))

variable (declared) in
lemma visits_isLowest (f : String) : ∃ T, ∀ t ≥ T,
    IsLowest (Relation.ReflTransGen (Direct graph) f) declared (visits declared graph t f) := by
  obtain ⟨T, hT⟩ := rankOf_visits_rests declared hkeys f
  refine ⟨T, fun t ht => ⟨(falling_visits declared hkeys t).taken f, fun g l hg hl => rankOf_le_some ?_⟩⟩
  obtain ⟨U, hU⟩ := visits_le_reachable declared hkeys hg
  rw [hT t ht, ← hT _ (le_max_left T U), ← hl]
  exact hU _ (le_max_right T U)

lemma rests_of_agree (h : Agree declared graph f) : Rests declared graph f := by
  obtain ⟨T, hT⟩ := visits_isLowest declared hkeys f
  refine ⟨T, fun t ht => ?_⟩
  exact (hT t ht).unique (hT T le_rfl) h

lemma rests_of_callees (hp : (f, cs) ∈ graph)
    (h : ∀ c ∈ cs, Rests declared graph c) : Rests declared graph f := by
  obtain ⟨T, hT⟩ := rests_list h
  obtain ⟨j, hj, hget⟩ := mem_iff_getElem.mp hp
  have hvisit : ∀ t ≥ T, ∀ p, graph[t % graph.length]? = some p → p.1 = f →
      visits declared graph (t + 1) f = lockSummary declared (visits declared graph T) f cs := by
    intro t ht p hmod hpf
    have hmem := mem_of_getElem? hmod
    obtain rfl := inj_on_of_nodup_map hkeys hmem hp hpf
    have hself := (falling_visits declared hkeys t).revise_self hmem
    rw [visits, hmod]
    exact hself.trans (lockSummary_congr fun c hc => hT c hc t ht)
  have hstart : T * graph.length + j ≥ T := by
    have hpos : 1 ≤ graph.length := by omega
    have hmul := mul_le_mul_left T hpos
    omega
  have hmod : graph[(T * graph.length + j) % graph.length]? = some (f, cs) := by
    rw [mul_add_mod_of_lt hj, getElem?_eq_getElem hj, hget]
  have hval : ∀ t ≥ T * graph.length + j + 1,
      visits declared graph t f = lockSummary declared (visits declared graph T) f cs := by
    intro t ht
    induction t, ht using le_induction with
    | base => exact hvisit _ hstart _ hmod rfl
    | succ t ht ih =>
      rcases visits_succ declared graph t with ⟨p, -, hrev, hget'⟩ | hsame
      · by_cases hpf : p.1 = f
        · exact hvisit t (by omega) p hget' hpf
        · rw [hrev, revise_ne (Ne.symm hpf), ih]
      · rw [hsame, ih]
  exact ⟨_, fun t ht => (hval t ht).trans (hval _ le_rfl).symm⟩

open scoped Classical in
lemma rests_all (h : ∀ f, Relation.TransGen (Direct graph) f f → Agree declared graph f) (f : String) :
    Rests declared graph f := by
  induction hn : ((graph.map Prod.fst).toFinset.filter
      fun g => Relation.ReflTransGen (Direct graph) f g).card using Nat.strong_induction_on
    generalizing f with
  | _ n ih =>
    by_cases hcycle : Relation.TransGen (Direct graph) f f
    · exact rests_of_agree hkeys (h f hcycle)
    · by_cases hkey : ∃ cs, (f, cs) ∈ graph
      · obtain ⟨cs, hp⟩ := hkey
        refine rests_of_callees hkeys hp fun c hc => ih _ ?_ c rfl
        have hstep : Direct graph f c := ⟨cs, hp, hc⟩
        rw [← hn]
        have hsub : ∀ g, Relation.ReflTransGen (Direct graph) c g →
            Relation.ReflTransGen (Direct graph) f g := fun g hg => .head hstep hg
        refine Finset.card_lt_card ((Finset.ssubset_iff_of_subset
          (Finset.monotone_filter_right _ fun g _ => hsub g)).mpr ⟨f, ?_, fun hf => ?_⟩)
        · exact Finset.mem_filter.mpr ⟨mem_toFinset.mpr (mem_map_of_mem hp), .refl⟩
        · exact hcycle (.head' hstep (Finset.mem_filter.mp hf).2)
      · exact ⟨0, fun t _ => visits_of_notKey (not_exists.mp hkey) t⟩

end

variable (declared) in
lemma foldl_take_visits (n i : ℕ) (hi : i ≤ graph.length) :
    (graph.take i).foldl (revise declared) (visits declared graph (n * graph.length)) =
      visits declared graph (n * graph.length + i) := by
  induction i with
  | zero => rfl
  | succ i ih =>
    have hget : graph[i]? = some graph[i] := getElem?_eq_getElem hi
    rw [take_add_one, hget, foldl_append, ih (le_of_succ_le hi), ← Nat.add_assoc, visits_mod declared hget]
    rfl

lemma iterate_round (n : ℕ) : (graph.foldl (revise declared))^[n] declared =
    visits declared graph (n * graph.length) := by
  induction n with
  | zero => rw [Nat.zero_mul]; rfl
  | succ n ih =>
    have hround := foldl_take_visits declared n graph.length le_rfl
    rw [iterate_succ_apply', ih, succ_mul, ← hround, take_length]

lemma lockRound_rests (h : ∀ f, Rests declared graph f) :
    ∃ n, lockRound declared graph (visits declared graph (n * graph.length)) = none := by
  obtain ⟨T, hT⟩ := rests_list fun c (_ : c ∈ graph.map Prod.fst) => h c
  have hconst : ∀ t ≥ T, visits declared graph t = visits declared graph T := by
    intro t ht
    funext f
    by_cases hf : f ∈ graph.map Prod.fst
    · exact hT f hf t ht
    · have hnot : ∀ cs, (f, cs) ∉ graph := fun cs hp => hf (mem_map_of_mem hp)
      rw [visits_of_notKey hnot, visits_of_notKey hnot]
  refine ⟨T, lockRound_eq_none.mpr fun p hp => ?_⟩
  obtain ⟨i, hi⟩ := getElem?_of_mem hp
  obtain ⟨hlt, -⟩ := List.getElem?_eq_some_iff.mp hi
  have hle : T ≤ T * graph.length := Nat.le_mul_of_pos_right T (by omega)
  have hstep := visits_mod declared (n := T) hi
  rw [hconst _ (by omega), hconst (T * graph.length + i) (by omega)] at hstep
  rw [hconst _ hle]
  exact hstep.symm

lemma lockAcquireSummaries_stops (hkeys : (graph.map Prod.fst).Nodup)
    (h : ∀ f, Relation.TransGen (Direct graph) f f → Agree declared graph f) :
    ∃ fuel r, lockAcquireSummaries declared graph fuel = some r := by
  obtain ⟨n, hn⟩ := lockRound_rests (rests_all hkeys h)
  rw [← iterate_round] at hn
  exact ⟨n + 1, settle_of_iterate (fun _ _ hab => lockRound_eq_some hab) hn⟩

end Rest

/-! ## The check at a call -/

section Check
variable {prog : Program} {declared : String → Option Lock}

lemma checkLockOrder_iff {r : String → Option Lock} {held : List Lock} {f : String}
    {reaches : String → Prop} (h : IsLowest reaches declared (r f)) :
    checkLockOrder r held f = .ok () ↔
      ∀ g l, reaches g → declared g = some l → ∀ lock ∈ held, lock.rank ≤ l.rank := by
  unfold checkLockOrder
  cases hs : r f with
  | none =>
    refine ⟨fun _ g l hg hl => ?_, fun _ => rfl⟩
    obtain ⟨l', hl', -⟩ := h.lowest g l hg hl
    rw [hs] at hl'
    cases hl'
  | some acquired =>
    dsimp only
    obtain ⟨g₀, hg₀, hl₀⟩ := h.taken acquired hs
    cases hfind : held.find? fun lock => acquired.rank < lock.rank with
    | some lock =>
      simp only [reduceCtorEq, false_iff]
      intro hall
      have hlt := find?_some hfind
      have hle := hall g₀ acquired hg₀ hl₀ lock (mem_of_find?_eq_some hfind)
      simp only [decide_eq_true_eq] at hlt
      omega
    | none =>
      simp only [true_iff]
      intro g l hg hl lock hlock
      obtain ⟨l', hl', hle⟩ := h.lowest g l hg hl
      obtain rfl : acquired = l' := Option.some.inj (hs.symm.trans hl')
      have hnot := find?_eq_none.mp hfind lock hlock
      simp only [decide_eq_true_eq] at hnot
      omega

variable (prog) in
def DirectCall (f g : String) : Prop :=
  ∃ body, (f, body) ∈ prog.bodies ∧ Targets prog (bodyParts true false body) g

lemma direct_lockCallees : Direct (lockCallees prog) = DirectCall prog := by
  funext f g
  refine propext ⟨?_, ?_⟩
  · rintro ⟨cs, hp, hg⟩
    obtain ⟨⟨_, body⟩, hbody, heq⟩ := mem_map.mp hp
    cases heq
    exact ⟨body, hbody, ((mem_bodyCallees body []).mp hg).resolve_left not_mem_nil⟩
  · rintro ⟨body, hbody, hg⟩
    exact ⟨_, mem_map_of_mem hbody, (mem_bodyCallees body []).mpr (.inr hg)⟩

lemma nodup_lockCallees : ((lockCallees prog).map Prod.fst).Nodup := by
  have hfst : (lockCallees prog).map Prod.fst = prog.bodies.map Prod.fst := by
    rw [lockCallees, map_map]
    rfl
  rw [hfst]
  exact prog.nodup_keys

/-- Where the locks of the lowest rank that a recursive function reaches have one label, the
summaries come to rest at the lowest rank over everything reachable, which is what the check
at a call sees. -/
theorem lock_rank_summaries (prog : Program) (declared : String → Option Lock)
    (h : ∀ f, Relation.TransGen (DirectCall prog) f f → ∀ l l',
      IsLowest (Relation.ReflTransGen (DirectCall prog) f) declared (some l) →
      IsLowest (Relation.ReflTransGen (DirectCall prog) f) declared (some l') → l.label = l'.label) :
    ∃ fuel r, lockAcquireSummaries declared (lockCallees prog) fuel = some r ∧
      (∀ f, IsLowest (Relation.ReflTransGen (DirectCall prog) f) declared (r f)) ∧
      ∀ held f, checkLockOrder r held f = .ok () ↔
        ∀ g l, Relation.ReflTransGen (DirectCall prog) f g → declared g = some l →
          ∀ lock ∈ held, lock.rank ≤ l.rank := by
  have hlowest : ∀ fuel r, lockAcquireSummaries declared (lockCallees prog) fuel = some r →
      ∀ f, IsLowest (Relation.ReflTransGen (Direct (lockCallees prog)) f) declared (r f) :=
    fun fuel r hr f => lockAcquireSummaries_lowest nodup_lockCallees hr f
  rw [direct_lockCallees] at hlowest
  have hagree : ∀ f, Relation.TransGen (Direct (lockCallees prog)) f f →
      Agree declared (lockCallees prog) f := by
    unfold Agree
    rwa [direct_lockCallees]
  obtain ⟨fuel, r, hr⟩ := lockAcquireSummaries_stops nodup_lockCallees hagree
  exact ⟨fuel, r, hr, hlowest fuel r hr, fun held f => checkLockOrder_iff (hlowest fuel r hr f)⟩

def ring : Program where
  name := id
  resolvedCallTargets _ := none
  resolvedIndirectCallEffects _ := none
  isAtomic _ := false
  isReservedFunctionName _ := false
  locKey _ := ""
  ioHandleAccesses _ := false
  declaredEffects := []
  bodies := [("f", [.expr (.call "g" []), .expr (.call "x" [])]),
    ("g", [.expr (.call "k" []), .expr (.call "y" [])]),
    ("k", [.expr (.call "f" []), .expr (.call "z" [])])]
  nodup_keys := by decide

def ringLocks (x y z : String) : String → Option Lock
  | "x" => some ⟨1, x⟩
  | "y" => some ⟨1, y⟩
  | "z" => some ⟨1, z⟩
  | _ => none

lemma lockCallees_ring : lockCallees ring = [("f", ["g", "x"]), ("g", ["k", "y"]), ("k", ["f", "z"])] := by
  decide

def ringRanks : String → Option Lock
  | "x" => some ⟨1, "pool"⟩
  | "y" => some ⟨5, "tx"⟩
  | "z" => some ⟨5, "rx"⟩
  | _ => none

lemma ringRanks_low {f : String} {l : Lock} (h : ringRanks f = some l) (hl : l.rank ≤ 1) : l = ⟨1, "pool"⟩ := by
  unfold ringRanks at h
  split at h
  all_goals cases h
  · rfl
  all_goals cases hl; contradiction

lemma ring_direct {f g : String} : DirectCall ring f g ↔
    f = "f" ∧ g ∈ ["g", "x"] ∨ f = "g" ∧ g ∈ ["k", "y"] ∨ f = "k" ∧ g ∈ ["f", "z"] := by
  rw [← direct_lockCallees, lockCallees_ring, Direct]
  simp only [mem_cons, Prod.mk.injEq, not_mem_nil, or_false]
  grind

lemma ring_reaches_x {f : String} (h : Relation.TransGen (DirectCall ring) f f) :
    Relation.ReflTransGen (DirectCall ring) f "x" := by
  have hf : Relation.ReflTransGen (DirectCall ring) "f" "x" := .single (ring_direct.mpr (by simp))
  have hk : Relation.ReflTransGen (DirectCall ring) "k" "x" := .head (ring_direct.mpr (by simp)) hf
  obtain ⟨_, hstep, -⟩ := Relation.TransGen.head'_iff.mp h
  rcases ring_direct.mp hstep with ⟨rfl, -⟩ | ⟨rfl, -⟩ | ⟨rfl, -⟩
  · exact hf
  · exact .head (ring_direct.mpr (by simp)) hk
  · exact hk

/-- The locks of rank 5 have two labels. -/
theorem lock_rank_summaries_ring :
    ∃ fuel r, lockAcquireSummaries ringRanks (lockCallees ring) fuel = some r ∧ r "f" = some ⟨1, "pool"⟩ := by
  have hlow : ∀ f l, Relation.ReflTransGen (DirectCall ring) f "x" →
      IsLowest (Relation.ReflTransGen (DirectCall ring) f) ringRanks (some l) → l = ⟨1, "pool"⟩ := by
    intro f l hx hl
    obtain ⟨g, -, hg⟩ := hl.taken l rfl
    obtain ⟨_, hsame, hle⟩ := hl.lowest "x" _ hx rfl
    cases hsame
    exact ringRanks_low hg hle
  obtain ⟨fuel, r, hr, hlowest, -⟩ := lock_rank_summaries ring ringRanks fun f hf l l' hl hl' => by
    rw [hlow f l (ring_reaches_x hf) hl, hlow f l' (ring_reaches_x hf) hl']
  have hx : Relation.ReflTransGen (DirectCall ring) "f" "x" := .single (ring_direct.mpr (by simp))
  obtain ⟨l, hl, -⟩ := (hlowest "f").lowest "x" _ hx rfl
  exact ⟨fuel, r, hr, hl.trans (congrArg some (hlow "f" l hx (hl ▸ hlowest "f")))⟩

structure Turning (m : String → Option Lock) : Prop where
  leaves : m "x" = some ⟨1, "X"⟩ ∧ m "y" = some ⟨1, "Y"⟩ ∧ m "z" = some ⟨1, "Z"⟩
  labels : (m "f" = none ∧ m "g" = none ∧ m "k" = none) ∨
    (m "f" = some ⟨1, "X"⟩ ∧ m "g" = some ⟨1, "Y"⟩ ∧ m "k" = some ⟨1, "X"⟩) ∨
    (m "f" = some ⟨1, "Y"⟩ ∧ m "g" = some ⟨1, "X"⟩ ∧ m "k" = some ⟨1, "Y"⟩)

lemma Turning.next {m : String → Option Lock} (h : Turning m) :
    ∃ b, lockRound (ringLocks "X" "Y" "Z") (lockCallees ring) m = some b ∧ Turning b := by
  obtain ⟨⟨hx, hy, hz⟩, hlabels⟩ := h
  rw [lockCallees_ring]
  -- each of the three follows the next one, which has just taken the other label
  rcases hlabels with ⟨hf, hg, hk⟩ | ⟨hf, hg, hk⟩ | ⟨hf, hg, hk⟩
  all_goals
    simp [lockRound, visitCaller, lockSummary, meetLock, lowerLock, ringLocks, hx, hy, hz, hf, hg, hk]
    exact ⟨by simp [hx, hy, hz], by simp⟩

/-- Three locks of one rank with different names: the rounds never end. -/
theorem lock_rank_turns :
    ¬∃ fuel, lockAcquireSummaries (ringLocks "X" "Y" "Z") (lockCallees ring) fuel ≠ none := by
  rintro ⟨fuel, hstops⟩
  refine hstops (settle_never (P := Turning) (fun m hm => hm.next) ⟨⟨rfl, rfl, rfl⟩, .inl ?_⟩ fuel)
  exact ⟨rfl, rfl, rfl⟩

end Check
end Takibi.Calls
