import Takibi.Layout.Decls
import Takibi.Layout.Serial

/-! The layout in exact arithmetic, and where the native one refines it. -/

namespace Takibi.Layout
open Numeric Takibi.Types TypeExpr Option Decl Decls Nat

/-- Native arithmetic is exact below this. -/
def nativeLimit : ℕ := 2 ^ 62

def placedItems (isPacked : Bool) (items : List (ℕ × ℕ)) : List (ℕ × ℕ) :=
  items.map fun p => (p.1, if isPacked then 1 else p.2)

def maxAlign (start : ℕ) (items : List (ℕ × ℕ)) : ℕ := items.foldl (fun m p => max m p.2) start

def structAlign (isPacked : Bool) (alignOpt : Option Native) (items : List (ℕ × ℕ)) : ℕ :=
  (alignOpt.map fun n => n.toInt.toNat).getD (if isPacked then 1 else maxAlign 1 (placedItems isPacked items))

def structExtent (isPacked : Bool) (alignOpt : Option Native) (items : List (ℕ × ℕ)) : Option (ℕ × ℕ) :=
  let fields := placedItems isPacked items
  let align := structAlign isPacked alignOpt items
  if Serial.Within nativeLimit 0 fields ∧ 1 ≤ align ∧ Serial.finish 0 fields + align ≤ nativeLimit then
    some (Serial.alignUp (Serial.finish 0 fields) align, align)
  else none

def tupleExtent (items : List (ℕ × ℕ)) : Option (ℕ × ℕ) := structExtent false none items

def arrayExtent (p : ℕ × ℕ) (n : Native) : Option (ℕ × ℕ) :=
  if 0 ≤ n.toInt ∧ p.1 * n.toInt.toNat < nativeLimit then some (p.1 * n.toInt.toNat, p.2) else none

def nativeExtent (p : Native × Native) : ℕ × ℕ := (p.1.toInt.toNat, p.2.toInt.toNat)

variable {cases : List (String × Option TypeExpr)} {q : ℕ × ℕ} {p : Native × Native}

section Extent
variable (D : Decls) (tgt : Target)

mutual

/-- Size and alignment in exact arithmetic, where every array length is nonnegative, every
declared alignment positive, and no native sum or product on the way wraps. -/
def extent (ty : TypeExpr) : Option (ℕ × ℕ) :=
  match ty with
  | .bool => some (1, 1)
  | .srcLoc => some (4, 4)
  | .int t => some (nativeExtent (primitiveSizeAlign tgt t))
  | .wrapped _ t => extent t
  | .pointer _ _ | .fn => some (nativeExtent (ptrSizeAlign tgt))
  | .array elem n => do arrayExtent (← extent elem) n
  | .slice _ => some (nativeExtent (sliceLayout tgt))
  | .tuple ts => do tupleExtent (← extents ts)
  | .place arg =>
    if isView D arg.body then tupleExtent [(4, 4)]
    else do tupleExtent [(4, 4), ← extent arg.body]
  | .variant name =>
    match _h : D.find name with
    | some (.variant cases) => do
      tupleExtent ((4, 4) :: (← extents ((variant cases).types.filter (!isView D ·))))
    | _ => none
  | .named name =>
    match _h : D.find name with
    | some (.enum underlying) => extent underlying
    | some (.variant cases) => do
      tupleExtent ((4, 4) :: (← extents ((variant cases).types.filter (!isView D ·))))
    | some (.struct info) => do
      structExtent info.isPacked info.alignOpt (← extents (info.fields.map (·.2)))
    | _ => none
  | _ => none
termination_by (ty.height D.rank, sizeOf ty)
decreasing_by
  · simp_wf; simp only [height]; right; omega
  · simp_wf; simp only [height]; right; omega
  · simp_wf; simp only [height]; right; omega
  · have := sizeOf_body arg
    simp_wf
    simp only [height, height_body]; right; omega
  · have := D.acyclic _ _ _h
    have := heights_filter_le D.rank (!isView D ·) (variant cases).types
    simp_wf; simp only [height] at *; left; omega
  · have := D.acyclic _ _ _h
    simp_wf; simp only [height, heights, types] at *; left; omega
  · have := D.acyclic _ _ _h
    have := heights_filter_le D.rank (!isView D ·) (variant cases).types
    simp_wf; simp only [height] at *; left; omega
  · have := D.acyclic _ _ _h
    simp_wf; simp only [height, types] at *; left; omega

def extents (ts : List TypeExpr) : Option (List (ℕ × ℕ)) :=
  match ts with
  | [] => some []
  | t :: ts => do return (← extent t) :: (← extents ts)
termination_by (heights D.rank ts, sizeOf ts)
decreasing_by
  all_goals simp_wf
  all_goals simp only [heights, Prod.lex_def]
  all_goals omega

end

section Named
variable {D tgt} {name : String}

lemma extent_enum {u : TypeExpr} (hd : D.find name = some (.enum u)) :
    extent D tgt (.named name) = extent D tgt u := by
  rw [extent]
  split <;> simp_all

lemma extent_struct {info : StructInfo} (hd : D.find name = some (.struct info)) :
    extent D tgt (.named name) = (do
      structExtent info.isPacked info.alignOpt (← extents D tgt (info.fields.map (·.2)))) := by
  rw [extent]
  split <;> simp_all

lemma extent_variant {ty : TypeExpr} (hty : ty = .named name ∨ ty = .variant name)
    (hd : D.find name = some (.variant cases)) :
    extent D tgt ty = (do
      tupleExtent ((4, 4) ::
        (← extents D tgt ((variant cases).types.filter (!isView D ·))))) := by
  obtain rfl | rfl := hty
  all_goals
    rw [extent]
    split <;> simp_all

end Named
end Extent

/-! ## Native arithmetic below the limit -/

structure Denotes (p : Native × Native) (q : ℕ × ℕ) : Prop where
  size : p.1.toInt = q.1
  align : p.2.toInt = q.2
  align_pos : 1 ≤ q.2

lemma structExtent_eq {isPacked : Bool} {alignOpt : Option Native} {items : List (ℕ × ℕ)}
    (h : structExtent isPacked alignOpt items = some q) :
    q = (Serial.alignUp (Serial.finish 0 (placedItems isPacked items)) q.2, q.2) ∧
      q.2 = structAlign isPacked alignOpt items ∧ 1 ≤ q.2 ∧
      Serial.Within nativeLimit 0 (placedItems isPacked items) ∧
      Serial.finish 0 (placedItems isPacked items) + q.2 ≤ nativeLimit := by
  unfold structExtent at h
  dsimp only at h
  split_ifs at h with hfits
  cases h
  exact ⟨rfl, rfl, hfits.2.1, hfits.1, hfits.2.2⟩

lemma arrayExtent_eq {n : Native} {r : ℕ × ℕ} (h : arrayExtent q n = some r) :
    0 ≤ n.toInt ∧ r = (q.1 * n.toInt.toNat, q.2) ∧ r.1 < nativeLimit := by
  unfold arrayExtent at h
  split_ifs at h with hn
  cases h
  exact ⟨hn.1, rfl, hn.2⟩

section Walk
variable {offset a : Native} {n k : ℕ}

lemma alignUp_toInt (hn : offset.toInt = n) (hk : a.toInt = k) (hfits : n + k ≤ nativeLimit) :
    (alignUp offset a).toInt = Serial.alignUp n k := by
  unfold alignUp Serial.alignUp
  unfold nativeLimit at hfits
  rw [hk]
  by_cases h1 : k ≤ 1
  · rw [if_pos (by exact_mod_cast h1), if_pos h1, hn]
  · rw [if_neg (by exact_mod_cast h1), if_neg h1]
    have hpred : (a - 1).toInt = k - 1 := by
      have hone : (1 : Native).toInt = 1 := by decide
      rw [Native.toInt_sub_of_fits] <;> rw [hk, hone]
      constructor <;> omega
    have hsum : (offset + a - 1).toInt = ((n + k - 1 : ℕ) : Int) := by
      rw [BitVec.sub_eq_add_neg, BitVec.add_assoc, ← BitVec.sub_eq_add_neg, Native.toInt_add_of_fits] <;>
        rw [hn, hpred]
      · omega
      · constructor <;> omega
    have hdiv : ((offset + a - 1).sdiv a).toInt = (((n + k - 1) / k : ℕ) : Int) := by
      have hne : a ≠ -1#63 := by
        intro ha
        rw [ha] at hk
        have : (-1#63 : BitVec 63).toInt = -1 := by decide
        omega
      rw [BitVec.toInt_sdiv_of_ne_or_ne _ _ (.inr hne), hsum, hk]
      exact_mod_cast rfl
    have hle : (n + k - 1) / k * k ≤ n + k - 1 := div_mul_le_self _ _
    rw [Native.toInt_mul_of_fits] <;> rw [hdiv, hk]
    · push_cast
      rfl
    · have : (((n + k - 1) / k : ℕ) : Int) * k = (((n + k - 1) / k * k : ℕ) : Int) := by push_cast; rfl
      rw [this]
      constructor <;> omega

lemma maxNative_toInt {b : Native} {m : ℕ} (hk : a.toInt = k) (hm : b.toInt = m) :
    (maxNative a b).toInt = (max k m : ℕ) := by
  unfold maxNative
  rw [hk, hm]
  split_ifs <;> omega

lemma fieldAlign_toInt (isPacked : Bool) (hk : a.toInt = k) :
    (fieldAlign isPacked a).toInt = (if isPacked then 1 else k : ℕ) := by
  unfold fieldAlign
  cases isPacked
  · exact hk
  · rfl

variable {isPacked : Bool}

lemma place_denotes (hpq : Denotes p q) (ho : offset.toInt = n)
    (hfits : n + (if isPacked then 1 else q.2) ≤ nativeLimit)
    (hend : Serial.alignUp n (if isPacked then 1 else q.2) + q.1 < nativeLimit) :
    (alignUp offset (fieldAlign isPacked p.2)).toInt = Serial.alignUp n (if isPacked then 1 else q.2) ∧
      (alignUp offset (fieldAlign isPacked p.2) + p.1).toInt =
        ((Serial.alignUp n (if isPacked then 1 else q.2) + q.1 : ℕ) : Int) := by
  have halign := alignUp_toInt ho (fieldAlign_toInt isPacked hpq.align) hfits
  refine ⟨halign, ?_⟩
  unfold nativeLimit at hend
  rw [Native.toInt_add_of_fits] <;> rw [halign, hpq.size]
  · push_cast
    rfl
  · constructor <;> omega

variable {fs : List (Native × Native)} {items : List (ℕ × ℕ)}

@[simp] lemma placedItems_cons (q : ℕ × ℕ) : placedItems isPacked (q :: items) =
      (q.1, if isPacked then 1 else q.2) :: placedItems isPacked items := rfl

lemma walk_denotes (alignOpt : Option Native) (hfs : List.Forall₂ Denotes fs items)
    {start m : ℕ} (ho : offset.toInt = start) (hm : a.toInt = m)
    (hin : Serial.Within nativeLimit start (placedItems isPacked items)) :
    ∃ off' max', walk isPacked alignOpt offset a fs = walk isPacked alignOpt off' max' [] ∧
      off'.toInt = Serial.finish start (placedItems isPacked items) ∧
      max'.toInt = maxAlign m (placedItems isPacked items) := by
  induction hfs generalizing offset a start m with
  | nil => exact ⟨offset, a, rfl, ho, hm⟩
  | cons hpq _ ih =>
    obtain ⟨hfits, hend, hin⟩ := hin
    have hstep := place_denotes hpq ho hfits hend
    exact ih hstep.2 (maxNative_toInt hm (fieldAlign_toInt isPacked hpq.align)) hin

lemma walkOffsets_denote (hfs : List.Forall₂ Denotes fs items) {start : ℕ}
    (ho : offset.toInt = start) (hin : Serial.Within nativeLimit start (placedItems isPacked items)) :
    (walkOffsets isPacked offset fs).map (·.toInt) =
      (Serial.offsets start (placedItems isPacked items)).map Nat.cast := by
  induction hfs generalizing offset start with
  | nil => rfl
  | cons hpq _ ih =>
    obtain ⟨hfits, hend, hin⟩ := hin
    have hstep := place_denotes hpq ho hfits hend
    rw [walkOffsets, placedItems_cons, Serial.offsets, List.map_cons, List.map_cons, hstep.1,
      ih hstep.2 hin]

lemma walk_of_structExtent {alignOpt : Option Native}
    (hfs : List.Forall₂ Denotes fs items) (h : structExtent isPacked alignOpt items = some q) :
    Denotes (walk isPacked alignOpt 0 1 fs) q := by
  obtain ⟨hq, halign, hpos, hin, hfin⟩ := structExtent_eq h
  have hzero : (0 : Native).toInt = (0 : ℕ) := rfl
  have hone : (1 : Native).toInt = (1 : ℕ) := rfl
  obtain ⟨off', max', hwalk, hoff, hmax⟩ := walk_denotes alignOpt hfs hzero hone hin
  have hstruct : (alignOpt.getD (if isPacked then 1 else max')).toInt = q.2 := by
    rw [halign, structAlign] at hpos ⊢
    cases alignOpt with
    | none =>
      cases isPacked
      · exact hmax
      · rfl
    | some n =>
      simp only [map_some, getD_some] at hpos ⊢
      omega
  rw [hwalk, walk, hq]
  exact ⟨alignUp_toInt hoff hstruct hfin, hstruct, hpos⟩

end Walk

/-! ## The layout refines the exact one -/

section Refines
variable {D : Decls} {tgt : Target}

lemma denotes_primitive (t : IntTy) :
    Denotes (primitiveSizeAlign tgt t) (nativeExtent (primitiveSizeAlign tgt t)) := by
  cases t <;> cases tgt <;> constructor <;> decide

lemma denotes_pointer : Denotes (ptrSizeAlign tgt) (nativeExtent (ptrSizeAlign tgt)) := by
  cases tgt <;> constructor <;> decide

lemma denotes_slice : Denotes (sliceLayout tgt) (nativeExtent (sliceLayout tgt)) := by
  cases tgt <;> constructor <;> decide

lemma denotes_tag : Denotes (4, 4) (4, 4) := by constructor <;> decide

lemma denotes_array {r : ℕ × ℕ} (hpq : Denotes p q) {n : Native}
    (h : arrayExtent q n = some r) : Denotes (p.1 * n, p.2) r := by
  obtain ⟨hn, rfl, hsize⟩ := arrayExtent_eq h
  unfold nativeLimit at hsize
  refine ⟨?_, hpq.align, hpq.align_pos⟩
  have hcast : (q.1 : Int) * n.toInt = ((q.1 * n.toInt.toNat : ℕ) : Int) := by
    push_cast
    rw [Int.toNat_of_nonneg hn]
  rw [Native.toInt_mul_of_fits] <;> rw [hpq.size, hcast]
  constructor <;> omega

def Above (D : Decls) (seen : List String) (h : Nat) : Prop := ∀ s ∈ seen, h ≤ D.rank s

variable {seen : List String}

lemma Above.mono {h h' : Nat} (ha : Above D seen h) (hle : h' ≤ h) :
    Above D seen h' := fun s hs => hle.trans (ha s hs)

variable {name : String}

lemma Above.notMem (ha : Above D seen (D.rank name + 1)) : name ∉ seen := fun hs => by
  have := ha name hs
  omega

lemma Above.cons (ha : Above D seen (D.rank name + 1)) {h : Nat} (hle : h ≤ D.rank name) :
    Above D (name :: seen) h := by
  intro s hs
  rcases List.mem_cons.mp hs with rfl | hs
  · exact hle
  · have := ha s hs
    omega

def LaidOut (D : Decls) (tgt : Target) (ty : TypeExpr) : Prop :=
  ∀ q, extent D tgt ty = some q → ∀ seen, Above D seen (ty.height D.rank) →
    ∃ p, sizeAlignOfType D tgt seen ty = .ok p ∧ Denotes p q

lemma sizeAlignsOfTypes_denotes {ts : List TypeExpr} (hts : ∀ t ∈ ts, LaidOut D tgt t)
    {qs : List (ℕ × ℕ)} (h : extents D tgt ts = some qs)
    (ha : ∀ t ∈ ts, Above D seen (t.height D.rank)) :
    ∃ fs, sizeAlignsOfTypes D tgt seen ts = .ok fs ∧ List.Forall₂ Denotes fs qs := by
  induction ts generalizing qs with
  | nil =>
    rw [extents] at h
    rw [sizeAlignsOfTypes, ← some.inj h]
    exact ⟨[], rfl, .nil⟩
  | cons t ts ih =>
    simp only [extents, bind_eq_bind, bind_eq_some_iff, pure_def, some.injEq] at h
    obtain ⟨q, hq, qs, hqs, rfl⟩ := h
    obtain ⟨p, hp, hpq⟩ := hts t (List.mem_cons_self ..) q hq seen (ha t (List.mem_cons_self ..))
    obtain ⟨fs, hfs, hall⟩ := ih (fun u hu => hts u (List.mem_cons_of_mem _ hu)) hqs
      (fun u hu => ha u (List.mem_cons_of_mem _ hu))
    exact ⟨p :: fs, by rw [sizeAlignsOfTypes, hp, hfs]; rfl, .cons hpq hall⟩

lemma variantFields_denote (hts : ∀ t ∈ (variant cases).types, LaidOut D tgt t)
    (h : (do tupleExtent ((4, 4) :: (← extents D tgt ((variant cases).types.filter (!isView D ·))))) = some q)
    (ha : ∀ t ∈ (variant cases).types, Above D seen (t.height D.rank)) :
    ∃ fs, sizeAlignsOfTypes D tgt seen ((variant cases).types.filter (!isView D ·)) = .ok fs ∧
      Denotes (tupleLayout ((4, 4) :: fs)) q := by
  simp only [bind_eq_bind, bind_eq_some_iff] at h
  obtain ⟨qs, hqs, hq⟩ := h
  obtain ⟨fs, hfs, hall⟩ := sizeAlignsOfTypes_denotes
    (fun t ht => hts t (List.mem_of_mem_filter ht)) hqs
    (fun t ht => ha t (List.mem_of_mem_filter ht))
  exact ⟨fs, hfs, walk_of_structExtent (.cons denotes_tag hall) hq⟩

lemma laidOut_variant {ty : TypeExpr}
    (hty : ty = .named name ∨ ty = .variant name) (hd : D.find name = some (.variant cases))
    (ih : ∀ t, D.Below t ty → LaidOut D tgt t) : LaidOut D tgt ty := by
  intro q h seen ha
  have hheight : ty.height D.rank = D.rank name + 1 := by
    obtain rfl | rfl := hty <;> rw [height]
  rw [hheight] at ha
  have hparts : ∀ t ∈ (variant cases).types, LaidOut D tgt t := fun t ht => by
    obtain rfl | rfl := hty
    · exact ih t (below_named hd ht)
    · exact ih t (below_variant hd ht)
  rw [extent_variant hty hd] at h
  obtain ⟨fs, hfs, hden⟩ := variantFields_denote hparts h fun t ht =>
    ha.mono ((height_of_mem hd ht).trans (le_succ _))
  exact ⟨_, by rw [sizeAlignOfType_variant hty hd, hfs]; rfl, hden⟩

lemma laidOut_struct {info : StructInfo} (hd : D.find name = some (.struct info))
    (ih : ∀ t, D.Below t (.named name) → LaidOut D tgt t) : LaidOut D tgt (.named name) := by
  intro q h seen ha
  rw [height] at ha
  rw [extent_struct hd] at h
  simp only [bind_eq_bind, bind_eq_some_iff] at h
  obtain ⟨qs, hqs, hq⟩ := h
  obtain ⟨fs, hfs, hall⟩ := sizeAlignsOfTypes_denotes (fun t ht => ih t (below_named hd ht))
    hqs (fun t ht => ha.cons (height_of_mem hd ht))
  rw [types] at hfs
  refine ⟨_, ?_, walk_of_structExtent hall hq⟩
  rw [sizeAlignOfType_struct hd, if_neg ha.notMem, hfs]
  rfl

lemma laidOut (ty : TypeExpr) : LaidOut D tgt ty := by
  induction ty using D.induction with
  | _ ty ih =>
  cases ty with
  | void | view | kind => intro q h; simp [extent] at h
  | bool | srcLoc =>
    intro q h seen _
    rw [extent] at h
    rw [sizeAlignOfType, ← some.inj h]
    exact ⟨_, rfl, by constructor <;> decide⟩
  | int t =>
    intro q h seen _
    rw [extent] at h
    rw [sizeAlignOfType, ← some.inj h]
    exact ⟨_, rfl, denotes_primitive t⟩
  | pointer | fn =>
    intro q h seen _
    rw [extent] at h
    rw [sizeAlignOfType, ← some.inj h]
    exact ⟨_, rfl, denotes_pointer⟩
  | slice =>
    intro q h seen _
    rw [extent] at h
    rw [sizeAlignOfType, ← some.inj h]
    exact ⟨_, rfl, denotes_slice⟩
  | wrapped w t =>
    intro q h seen ha
    rw [extent] at h
    rw [height] at ha
    rw [sizeAlignOfType]
    exact ih t (below_wrapped w t) q h seen ha
  | array elem n =>
    intro q h seen ha
    simp only [extent, bind_eq_bind, bind_eq_some_iff] at h
    obtain ⟨q', hq', hn⟩ := h
    rw [height] at ha
    obtain ⟨p, hp, hpq⟩ := ih elem (below_array elem n) q' hq' seen ha
    exact ⟨(p.1 * n, p.2), by rw [sizeAlignOfType, hp]; rfl, denotes_array hpq hn⟩
  | tuple ts =>
    intro q h seen ha
    simp only [extent, bind_eq_bind, bind_eq_some_iff] at h
    obtain ⟨qs, hqs, hq⟩ := h
    rw [height] at ha
    obtain ⟨fs, hfs, hall⟩ := sizeAlignsOfTypes_denotes (fun t ht => ih t (below_tuple ht))
      hqs (fun t ht => ha.mono (height_le_heights D.rank ht))
    exact ⟨tupleLayout fs, by rw [sizeAlignOfType, hfs]; rfl, walk_of_structExtent hall hq⟩
  | place arg =>
    intro q h seen ha
    rw [extent] at h
    rw [height, ← height_body] at ha
    rw [sizeAlignOfType]
    split_ifs at h ⊢
    · exact ⟨_, rfl, walk_of_structExtent (.cons denotes_tag .nil) h⟩
    · simp only [bind_eq_bind, bind_eq_some_iff] at h
      obtain ⟨q', hq', hq⟩ := h
      obtain ⟨p, hp, hpq⟩ := ih arg.body (below_place arg) q' hq' seen ha
      exact ⟨_, by rw [hp]; rfl, walk_of_structExtent (.cons denotes_tag (.cons hpq .nil)) hq⟩
  | variant name =>
    cases hd : D.find name with
    | some d =>
      cases d with
      | variant cases => exact laidOut_variant (.inr rfl) hd ih
      | _ => intro q h; rw [extent] at h; split at h <;> simp_all
    | none => intro q h; rw [extent] at h; split at h <;> simp_all
  | named name =>
    cases hd : D.find name with
    | some d =>
      cases d with
      | variant cases => exact laidOut_variant (.inl rfl) hd ih
      | struct info => exact laidOut_struct hd ih
      | enum u =>
        intro q h seen ha
        have hu : u ∈ (enum u).types := List.mem_singleton_self u
        rw [extent_enum hd] at h
        rw [height] at ha
        rw [sizeAlignOfType_enum hd]
        exact ih u (below_named hd hu) q h seen (ha.mono ((height_of_mem hd hu).trans (le_succ _)))
      | view => intro q h; rw [extent] at h; split at h <;> simp_all
    | none => intro q h; rw [extent] at h; split at h <;> simp_all

end Refines
end Takibi.Layout
