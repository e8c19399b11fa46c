import Takibi.Init.Coverage

/-! The coverage walk on constants: leaf constants are small enough that no
difference overflows, and the walk is then exact. -/

namespace Takibi.Init
open Numeric List

/-! ## Checked arithmetic inside the edge -/

def Inside (z : Int) : Prop := -edge.toInt ≤ z ∧ z ≤ edge.toInt

lemma edge_toInt : edge.toInt = 4611686018427387903 := by decide

lemma limit_toInt : limit.toInt = 1152921504606846976 := by decide

lemma neg_edge_toInt : (-edge).toInt = -4611686018427387903 := by decide

lemma Inside.fits {z : Int} (h : Inside z) : Native.Fits z := by
  unfold Inside at h
  rw [edge_toInt] at h
  constructor <;> omega

lemma chk_of_inside {v : Native} (h : Inside v.toInt) : chk v = some v := by
  unfold Inside at h
  rw [edge_toInt] at h
  rw [chk, if_neg]
  rw [edge_toInt, neg_edge_toInt]
  omega

lemma chkAdd_of_inside {a b : Native} (h : Inside (a.toInt + b.toInt)) : chkAdd a b = some (a + b) := by
  have hs := Native.toInt_add_of_fits h.fits
  unfold chkAdd
  rw [if_neg, chk_of_inside (hs ▸ h)]
  rw [hs]
  omega

lemma chkMul_of_inside {a b : Native} (h : Inside (a.toInt * b.toInt)) : chkMul a b = some (a * b) := by
  have hp := Native.toInt_mul_of_fits h.fits
  unfold chkMul
  simp only
  split_ifs with hz hw
  · rcases hz with rfl | rfl <;> simp
  · exfalso
    rw [not_or] at hz
    have hb0 : b.toInt ≠ 0 := fun hb => hz.2 (BitVec.toInt_inj.mp (by simpa using hb))
    have hmin : ∀ {x y : Native}, x.toInt * y.toInt = a.toInt * b.toInt →
        ¬(x = Native.minInt ∧ y = -1) := by
      rintro x y hxy ⟨rfl, rfl⟩
      have hy : (-1 : Native).toInt = -1 := by decide
      rw [Native.minInt_toInt, hy] at hxy
      unfold Inside at h
      rw [edge_toInt] at h
      omega
    rcases hw with hq | hw | hw
    · refine hq (BitVec.toInt_inj.mp ?_)
      rw [BitVec.toInt_sdiv_of_ne_or_ne, hp, Int.mul_tdiv_cancel _ hb0]
      left
      intro hmin
      have hm : (BitVec.intMin 63).toInt = -4611686018427387904 := by decide
      have := congrArg BitVec.toInt hmin
      unfold Inside at h
      rw [edge_toInt, ← hp, this, hm] at h
      omega
    · exact hmin rfl hw
    · exact hmin (mul_comm ..) hw
  · exact chk_of_inside (hp ▸ h)

variable {κ : Type} [LinearOrder κ]

/-! ## Constant terms -/

def Leaf (c : Native) : Prop := -limit.toInt ≤ c.toInt ∧ c.toInt ≤ limit.toInt

instance (c : Native) : Decidable (Leaf c) := inferInstanceAs (Decidable (_ ∧ _))

namespace Lin

omit [LinearOrder κ] in
lemma scale_neg_const {y : Native} (hy : Inside y.toInt) :
    ∃ z, scale (-1) (const y : Lin κ) = some (const z) ∧ z.toInt = -y.toInt := by
  have h1 : (-1 : Native).toInt = -1 := by decide
  have hin : Inside ((-1 : Native).toInt * y.toInt) := by
    rw [h1]
    unfold Inside at hy ⊢
    constructor <;> omega
  refine ⟨-1 * y, ?_, ?_⟩
  · rw [scale, if_neg (by decide), const, chkMul_of_inside hin]
    rfl
  · rw [Native.toInt_mul_of_fits hin.fits, h1, neg_one_mul]

lemma sub_const {x y : Native} (hy : Inside y.toInt) (h : Inside (x.toInt - y.toInt)) :
    ∃ z, sub (const x : Lin κ) (const y) = some (const z) ∧ z.toInt = x.toInt - y.toInt := by
  obtain ⟨s, hs, hsv⟩ := scale_neg_const (κ := κ) hy
  have hsum : x.toInt + s.toInt = x.toInt - y.toInt := by rw [hsv, sub_eq_add_neg]
  refine ⟨x + s, ?_, ?_⟩
  · rw [sub, hs]
    simp [add, const, AssocMap.unionM, chkAdd_of_inside (hsum ▸ h)]
  · rw [Native.toInt_add_of_fits (hsum ▸ h.fits), hsum]

end Lin

lemma entails_const (c : Native) : entails (noFacts : Facts κ) (.const c) = decide (0 ≤ c.toInt) := by
  unfold entails
  rw [entailsGo.eq_def]
  by_cases hc : 0 ≤ c.toInt <;> simp [Lin.const, noFacts, hc]

section Leaves
variable {x y : Native}

lemma Leaf.inside (h : Leaf x) : Inside x.toInt := by
  unfold Leaf at h
  rw [limit_toInt] at h
  unfold Inside
  rw [edge_toInt]
  constructor <;> omega

lemma Leaf.inside_sub (hx : Leaf x) (hy : Leaf y) : Inside (x.toInt - y.toInt) := by
  unfold Leaf at hx hy
  rw [limit_toInt] at hx hy
  unfold Inside
  rw [edge_toInt]
  constructor <;> omega

lemma geM_const (hx : Leaf x) (hy : Leaf y) :
    geM (noFacts : Facts κ) (.const x) (.const y) = some (decide (y.toInt ≤ x.toInt)) := by
  obtain ⟨z, hz, hv⟩ := Lin.sub_const (κ := κ) hy.inside (hx.inside_sub hy)
  simp [geM, hz, entails_const, hv]

lemma advanced_const (hx : Leaf x) (hy : Leaf y) (h : y.toInt < x.toInt) :
    ∃ d e, Lin.sub (.const x : Lin κ) (.const y) = some d ∧
      Lin.sub d (.const 1) = some e ∧ entails noFacts e = true := by
  obtain ⟨z, hz, hv⟩ := Lin.sub_const (κ := κ) hy.inside (hx.inside_sub hy)
  have h1 : (1 : Native).toInt = 1 := by decide
  have hin := hx.inside_sub hy
  unfold Inside at hin
  rw [edge_toInt] at hin
  obtain ⟨e, he, hev⟩ := Lin.sub_const (κ := κ) (x := z) (y := 1)
    (by rw [h1]; unfold Inside; rw [edge_toInt]; decide)
    (by rw [hv, h1]; unfold Inside; rw [edge_toInt]; constructor <;> omega)
  refine ⟨_, _, hz, he, ?_⟩
  rw [entails_const, hev, hv, h1]
  simpa using by omega

end Leaves

/-! ## The walk -/

abbrev ConstInterval := Native × Native

namespace ConstInterval
variable (iv : ConstInterval)

def toInterval : Interval κ := (.const iv.1, .const iv.2)
def Leaves : Prop := Leaf iv.1 ∧ Leaf iv.2

instance (iv : ConstInterval) : Decidable iv.Leaves := inferInstanceAs (Decidable (_ ∧ _))

def Has (k : Int) : Prop := iv.1.toInt ≤ k ∧ k < iv.2.toInt

end ConstInterval

open ConstInterval

omit [LinearOrder κ] in
lemma const_inj {x y : Native} : (Lin.const x : Lin κ) = Lin.const y ↔ x.toInt = y.toInt := by
  rw [BitVec.toInt_inj]
  exact ⟨fun h => congrArg Lin.c h, fun h => h ▸ rfl⟩

variable {ivs pool : List ConstInterval} {b cur : Native}

lemma reaches_const (hivs : ∀ iv ∈ ivs, iv.Leaves) (hb : Leaf b) (hcur : Leaf cur) :
    reaches (noFacts : Facts κ) (ivs.map toInterval) (.const b) (.const cur) =
      some (ivs.any fun iv => decide (iv.1.toInt ≤ cur.toInt) && decide (b.toInt ≤ iv.2.toInt)) := by
  unfold reaches
  induction ivs with
  | nil => rfl
  | cons iv ivs ih =>
    have hiv := hivs iv (mem_cons_self ..)
    have ih := ih fun iv' h' => hivs iv' (mem_cons_of_mem _ h')
    rw [map_cons, anyM_cons, toInterval, geM_const hcur hiv.1, geM_const hiv.2 hb, ih]
    by_cases hlo : iv.1.toInt ≤ cur.toInt <;> by_cases hhi : b.toInt ≤ iv.2.toInt <;>
      simp [hlo, hhi]

def stepConst (cur : Native) (pool : List ConstInterval) : Option Native :=
  (pool.find? fun iv => decide (iv.1.toInt ≤ cur.toInt) && decide (cur.toInt < iv.2.toInt)).map
    Prod.snd

lemma step_const (hpool : ∀ iv ∈ pool, iv.Leaves) (hcur : Leaf cur) :
    step (noFacts : Facts κ) (.const cur) (pool.map toInterval) =
      some ((stepConst cur pool).map Lin.const) := by
  unfold step stepConst
  induction pool with
  | nil => rfl
  | cons iv pool ih =>
    have hiv := hpool iv (mem_cons_self ..)
    have ih := ih fun iv' h' => hpool iv' (mem_cons_of_mem _ h')
    rw [map_cons, findSomeM?, toInterval, geM_const hcur hiv.1, geM_const hiv.2 hcur, ih]
    by_cases hlo : iv.1.toInt ≤ cur.toInt
    · rcases lt_trichotomy cur.toInt iv.2.toInt with hlt | heq | hgt
      · simp [hlo, hlt.le, const_inj, hlt.ne', hlt]
      · simp [heq, const_inj]
      · simp [hlo, hgt.not_ge, hgt.le]
    · simp [hlo]

omit [LinearOrder κ] in
lemma filter_const [DecidableEq κ] (hi : Native) (pool : List ConstInterval) :
    (pool.map toInterval).filter (fun iv : Interval κ => decide (iv.2 ≠ .const hi)) =
      (pool.filter fun iv => decide (iv.2 ≠ hi)).map toInterval := by
  rw [filter_map]
  congr 1
  refine filter_congr fun iv _ => ?_
  simp [toInterval, const_inj, BitVec.toInt_inj]

structure WalkInv (ivs : List ConstInterval) (a : Int) (cur : Native) (pool : List ConstInterval) :
    Prop where
  leaf : Leaf cur
  le : a ≤ cur.toInt
  covered : ∀ k, a ≤ k → k < cur.toInt → ∃ iv ∈ ivs, iv.Has k
  pool_subset : pool ⊆ ivs
  mem_pool : ∀ iv ∈ ivs, cur.toInt < iv.2.toInt → iv ∈ pool

section Walk
variable {a : Int} {hi : Native}

lemma stepConst_eq_some (h : stepConst cur pool = some hi) :
    ∃ iv ∈ pool, iv.2 = hi ∧ iv.1.toInt ≤ cur.toInt ∧ cur.toInt < hi.toInt := by
  obtain ⟨iv, hiv, rfl⟩ := Option.map_eq_some_iff.mp h
  have hprop := find?_some hiv
  simp only [Bool.and_eq_true, decide_eq_true_eq] at hprop
  exact ⟨iv, mem_of_find?_eq_some hiv, rfl, hprop⟩

lemma stepConst_eq_none (h : stepConst cur pool = none) {iv : ConstInterval} (hiv : iv ∈ pool) :
    ¬ iv.Has cur.toInt := by
  have hprop := find?_eq_none.mp (Option.map_eq_none_iff.mp h) iv hiv
  simpa [Has] using hprop

lemma WalkInv.step (h : WalkInv ivs a cur pool) (hivs : ∀ iv ∈ ivs, iv.Leaves)
    (hstep : stepConst cur pool = some hi) :
    WalkInv ivs a hi (pool.filter fun iv => decide (iv.2 ≠ hi)) := by
  obtain ⟨iv, hiv, rfl, hlo, hlt⟩ := stepConst_eq_some hstep
  refine ⟨(hivs iv (h.pool_subset hiv)).2, h.le.trans hlt.le, fun k hk hkhi => ?_,
    fun iv' h' => h.pool_subset (mem_of_mem_filter h'), fun iv' h' hlt' => ?_⟩
  · rcases lt_or_ge k cur.toInt with hkc | hkc
    · exact h.covered k hk hkc
    · exact ⟨iv, h.pool_subset hiv, hlo.trans hkc, hkhi⟩
  · refine mem_filter.mpr ⟨h.mem_pool iv' h' (hlt.trans hlt'), ?_⟩
    simp only [ne_eq, decide_eq_true_eq]
    rintro heq
    exact absurd (heq ▸ hlt') (lt_irrefl _)

lemma stepConst_length (hstep : stepConst cur pool = some hi) :
    (pool.filter fun iv => decide (iv.2 ≠ hi)).length < pool.length := by
  obtain ⟨iv, hiv, rfl, -⟩ := stepConst_eq_some hstep
  exact length_filter_lt_length_iff_exists.mpr ⟨iv, hiv, by simp⟩

def Answers (ivs : List ConstInterval) (a b : Int) : Option (Lin κ) → Prop
  | none => ∀ k, a ≤ k → k < b → ∃ iv ∈ ivs, iv.Has k
  | some p => ∃ c : Native, p = .const c ∧ IsLeast {k | a ≤ k ∧ k < b ∧ ¬ ∃ iv ∈ ivs, iv.Has k} c.toInt

lemma WalkInv.stuck (h : WalkInv ivs a cur pool) (hb : cur.toInt < b.toInt)
    (hstep : stepConst cur pool = none) :
    IsLeast {k | a ≤ k ∧ k < b.toInt ∧ ¬ ∃ iv ∈ ivs, iv.Has k} cur.toInt := by
  refine ⟨⟨h.le, hb, fun ⟨iv, hiv, hhas⟩ => ?_⟩, fun k ⟨hk, _, hnot⟩ => ?_⟩
  · exact stepConst_eq_none hstep (h.mem_pool iv hiv hhas.2) hhas
  · by_contra hlt
    exact hnot (h.covered k hk (not_le.mp hlt))

lemma walk_const (hivs : ∀ iv ∈ ivs, iv.Leaves) (hb : Leaf b) {fuel : Nat}
    (h : WalkInv ivs a cur pool) (hfuel : pool.length < fuel) :
    ∃ r, walk (noFacts : Facts κ) (ivs.map toInterval) (.const b) fuel (.const cur) (.const cur)
      (pool.map toInterval) = some r ∧ Answers ivs a b.toInt r := by
  induction fuel generalizing cur pool with
  | zero => exact absurd hfuel (Nat.not_lt_zero _)
  | succ fuel ih =>
    unfold walk
    rw [geM_const h.leaf hb]
    by_cases hdone : b.toInt ≤ cur.toInt
    · refine ⟨none, by simp [hdone], fun k hk hkb => h.covered k hk (hkb.trans_le hdone)⟩
    simp only [hdone, decide_false, Option.bind_eq_bind, Option.bind_some, Bool.false_eq_true, if_false]
    rw [reaches_const hivs hb h.leaf, step_const (fun iv hiv => hivs iv (h.pool_subset hiv)) h.leaf]
    cases hreach : ivs.any fun iv =>
        decide (iv.1.toInt ≤ cur.toInt) && decide (b.toInt ≤ iv.2.toInt) with
    | true =>
      refine ⟨none, by simp, fun k hk hkb => ?_⟩
      obtain ⟨iv, hiv, hends⟩ := any_eq_true.mp hreach
      simp only [Bool.and_eq_true, decide_eq_true_eq] at hends
      rcases lt_or_ge k cur.toInt with hkc | hkc
      · exact h.covered k hk hkc
      · exact ⟨iv, hiv, hends.1.trans hkc, hkb.trans_le hends.2⟩
    | false =>
      cases hstep : stepConst cur pool with
      | none => exact ⟨some (.const cur), by simp, cur, rfl, h.stuck (not_le.mp hdone) hstep⟩
      | some hi =>
        obtain ⟨iv, hiv, rfl, -, hlt⟩ := stepConst_eq_some hstep
        obtain ⟨d, e, hd, he, hadv⟩ := advanced_const (κ := κ) (hivs iv (h.pool_subset hiv)).2
          h.leaf hlt
        have hlen := stepConst_length hstep
        obtain ⟨r, hr, hans⟩ := ih (h.step hivs hstep) (by omega)
        refine ⟨r, ?_, hans⟩
        simp only [Option.map_some, Option.bind_some, Bool.false_eq_true, if_false, hd, he, hadv,
          if_true, filter_const, hr]

end Walk

lemma uncovered_plain (ivs : List (Interval κ)) (goal : Interval κ) :
    uncovered [] (noFacts : Facts κ) ivs goal =
      (walk noFacts ivs goal.2 (ivs.length + 1) goal.1 goal.1 ivs).getD (some goal.1) := by
  have hmap : ivs.mapM (fun iv : Interval κ => (some iv : Option (Interval κ))) = some ivs := by
    simpa using mapM_pure (m := Option) (f := id) (l := ivs)
  simp [uncovered, uncoveredM, normalizeFacts, normalize, noFacts, hmap]

lemma uncovered_const (hivs : ∀ iv ∈ ivs, iv.Leaves) {goal : ConstInterval} (hgoal : goal.Leaves) :
    Answers ivs goal.1.toInt goal.2.toInt
      (uncovered [] (noFacts : Facts κ) (ivs.map toInterval) goal.toInterval) := by
  have hstart : WalkInv ivs goal.1.toInt goal.1 ivs :=
    ⟨hgoal.1, le_rfl, fun k hk hlt => absurd hk (not_le.mpr hlt), List.Subset.refl _, fun _ h _ => h⟩
  obtain ⟨r, hr, hans⟩ := walk_const (κ := κ) hivs hgoal.2 hstart (Nat.lt_succ_self _)
  rw [uncovered_plain, length_map, toInterval, hr, Option.getD_some]
  exact hans

/-- On constants that leaves may have, with no equalities and no facts, the walk
is exact: it answers `none` for the goals that the intervals cover, and
otherwise the least point of the goal that no interval has. -/
theorem uncovered_const_exact (ivs : List ConstInterval) (goal : ConstInterval)
    (hivs : ∀ iv ∈ ivs, iv.Leaves) (hgoal : goal.Leaves) :
    (uncovered [] (noFacts : Facts κ) (ivs.map toInterval) goal.toInterval = none ↔
      ∀ k, goal.Has k → ∃ iv ∈ ivs, iv.Has k) ∧
    ∀ p, uncovered [] (noFacts : Facts κ) (ivs.map toInterval) goal.toInterval = some p →
      ∃ c : Native, p = .const c ∧ IsLeast {k | goal.Has k ∧ ¬ ∃ iv ∈ ivs, iv.Has k} c.toInt := by
  have hans := uncovered_const (κ := κ) hivs hgoal
  have hset : {k | goal.Has k ∧ ¬ ∃ iv ∈ ivs, iv.Has k} =
      {k | goal.1.toInt ≤ k ∧ k < goal.2.toInt ∧ ¬ ∃ iv ∈ ivs, iv.Has k} :=
    Set.ext fun k => and_assoc
  rw [hset]
  cases hr : uncovered [] (noFacts : Facts κ) (ivs.map toInterval) goal.toInterval with
  | none =>
    rw [hr] at hans
    exact ⟨⟨fun _ k hk => hans k hk.1 hk.2, fun _ => rfl⟩, nofun⟩
  | some p =>
    rw [hr] at hans
    obtain ⟨c, hp, hleast⟩ := hans
    refine ⟨⟨nofun, fun hall => ?_⟩, fun q hq => ⟨c, Option.some.inj hq ▸ hp, hleast⟩⟩
    obtain ⟨hlo, hhi, hnot⟩ := hleast.1
    exact absurd (hall c.toInt ⟨hlo, hhi⟩) hnot

theorem uncovered_const_exact_seven :
    uncovered [] (noFacts : Facts Nat) (([(0, 4), (2, 7)] : List ConstInterval).map toInterval)
        (toInterval (1, 9)) = some (.const 7) ∧
      IsLeast {k | ConstInterval.Has (1, 9) k ∧
        ¬ ∃ iv ∈ ([(0, 4), (2, 7)] : List ConstInterval), iv.Has k} 7 := by
  have hrun : uncovered [] (noFacts : Facts Nat)
      (([(0, 4), (2, 7)] : List ConstInterval).map toInterval) (toInterval (1, 9)) =
        some (.const 7) := by decide
  have hleaves : ∀ iv ∈ ([(0, 4), (2, 7)] : List ConstInterval), iv.Leaves := by
    intro iv hiv
    simp only [mem_cons, not_mem_nil, or_false] at hiv
    rcases hiv with rfl | rfl <;> exact ⟨by decide, by decide⟩
  refine ⟨hrun, ?_⟩
  obtain ⟨c, hc, hleast⟩ := (uncovered_const_exact (κ := Nat) [(0, 4), (2, 7)] (1, 9)
    hleaves ⟨by decide, by decide⟩).2 _ hrun
  have hseven : c.toInt = 7 := (const_inj.mp hc).symm
  exact hseven ▸ hleast

end Takibi.Init
