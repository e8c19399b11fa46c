import Takibi.Layout.Extent
import Takibi.Numeric.Fallible

/-! The three layout computations agree where no size leaves the native range. -/

namespace Takibi.Layout
open Numeric Takibi.Types Option Serial Decls

/-! ## The checker's sizes are the layout's -/

variable {fields : List (String × TypeExpr)} {fs : List (Native × Native)} {n : Native}

variable {name : String} {items : List (ℕ × ℕ)} {info : StructInfo}

section Const
variable {D : Decls} {tgt : Target}

lemma constTypeSize_struct (hd : D.find name = some (.struct ⟨fields, true, none⟩)) :
    constTypeSize D (.named name) = constSum D (some 0) (fields.map (·.2)) := by
  rw [constTypeSize]
  split <;> simp_all

lemma constTypeSize_named (h : constTypeSize D (.named name) = some n) :
    ∃ fields, D.find name = some (.struct ⟨fields, true, none⟩) ∧
      constSum D (some 0) (fields.map (·.2)) = some n := by
  rw [constTypeSize] at h
  split at h
  · exact ⟨_, ‹_›, h⟩
  · cases h

lemma addSize_eq {x y : Option Native} (h : addSize x y = some n) :
    ∃ a b, x = some a ∧ y = some b ∧ n = a + b := by
  unfold addSize at h
  split at h
  · exact ⟨_, _, rfl, rfl, (some.inj h).symm⟩
  · cases h

lemma constSum_none (ts : List TypeExpr) : constSum D none ts = none := by
  induction ts with
  | nil => rw [constSum]
  | cons t ts ih => rw [constSum, addSize]; exacts [ih, fun _ _ h => by cases h]

variable {ts : List TypeExpr}

lemma constSum_cons {acc : Option Native} {t : TypeExpr} (h : constSum D acc (t :: ts) = some n) :
    ∃ a b, acc = some a ∧ constTypeSize D t = some b ∧ constSum D (some (a + b)) ts = some n := by
  rw [constSum] at h
  cases hs : addSize acc (constTypeSize D t) with
  | none =>
    rw [hs, constSum_none] at h
    cases h
  | some s =>
    obtain ⟨a, b, ha, hb, rfl⟩ := addSize_eq hs
    exact ⟨a, b, ha, hb, hs ▸ h⟩

@[simp] lemma alignUp_one (n : Native) : alignUp n 1 = n := rfl

@[simp] lemma fieldAlign_packed (a : Native) : fieldAlign true a = 1 := rfl

def SizedAs (D : Decls) (tgt : Target) (ty : TypeExpr) : Prop :=
  ∀ n, constTypeSize D ty = some n → ∀ seen, Above D seen (ty.height D.rank) →
    ∃ a, sizeAlignOfType D tgt seen ty = .ok (n, a)

variable {seen : List String}

lemma constSum_walk (hts : ∀ t ∈ ts, SizedAs D tgt t) {a : Native}
    (h : constSum D (some a) ts = some n) (ha : ∀ t ∈ ts, Above D seen (t.height D.rank)) :
    ∃ fs, sizeAlignsOfTypes D tgt seen ts = .ok fs ∧ ∀ m, walk true none a m fs = (n, 1) := by
  induction ts generalizing a with
  | nil =>
    rw [constSum, some.injEq] at h
    subst h
    exact ⟨[], by rw [sizeAlignsOfTypes], fun m => rfl⟩
  | cons t ts ih =>
    obtain ⟨a', b, ha', hb, hrest⟩ := constSum_cons h
    cases ha'
    obtain ⟨al, hal⟩ := hts t (List.mem_cons_self ..) b hb seen (ha t (List.mem_cons_self ..))
    obtain ⟨fs, hfs, hwalk⟩ := ih (fun u hu => hts u (List.mem_cons_of_mem _ hu)) hrest
      (fun u hu => ha u (List.mem_cons_of_mem _ hu))
    exact ⟨(b, al) :: fs, by rw [sizeAlignsOfTypes, hal, hfs]; rfl, fun m => by
      rw [walk, fieldAlign_packed, alignUp_one, hwalk]⟩

lemma sizedAs (ty : TypeExpr) : SizedAs D tgt ty := by
  induction ty using D.induction with
  | _ ty ih =>
  intro n h seen ha
  cases ty with
  | bool =>
    rw [constTypeSize, some.injEq] at h
    exact ⟨1, by rw [sizeAlignOfType, ← h]⟩
  | srcLoc =>
    rw [constTypeSize, some.injEq] at h
    exact ⟨4, by rw [sizeAlignOfType, ← h]⟩
  | int t =>
    rw [constTypeSize] at h
    refine ⟨n, ?_⟩
    rw [sizeAlignOfType]
    cases t <;> simp only [intSize, some.injEq, reduceCtorEq] at h <;> subst h <;> rfl
  | wrapped w t =>
    cases w with
    | singleton =>
      rw [constTypeSize] at h
      rw [TypeExpr.height] at ha
      rw [sizeAlignOfType]
      exact ih t (below_wrapped _ t) n h seen ha
    | _ => simp [constTypeSize] at h
  | array elem k =>
    rw [constTypeSize] at h
    obtain ⟨s, hs, rfl⟩ := map_eq_some_iff.mp h
    rw [TypeExpr.height] at ha
    obtain ⟨a, hsa⟩ := ih elem (below_array elem k) s hs seen ha
    exact ⟨a, by rw [sizeAlignOfType, hsa]; rfl⟩
  | named name =>
    obtain ⟨fields, hd, hsum⟩ := constTypeSize_named h
    rw [TypeExpr.height] at ha
    obtain ⟨fs, hfs, hwalk⟩ := constSum_walk (fun t ht => ih t (below_named hd ht)) hsum
      (fun t ht => ha.cons (height_of_mem hd ht))
    refine ⟨1, ?_⟩
    rw [Decl.types] at hfs
    rw [sizeAlignOfType_struct hd, if_neg ha.notMem, hfs]
    exact congrArg _ (hwalk 1)
  | _ => simp [constTypeSize] at h

def walkOffset (fields : List (String × TypeExpr)) (offsets : List Native) (field : String) : Option Native :=
  ((fields.map (·.1)).zip offsets).lookup field

lemma sizeAlignsOfTypes_cons {t : TypeExpr} (h : sizeAlignsOfTypes D tgt seen (t :: ts) = .ok fs) :
    ∃ p fs', sizeAlignOfType D tgt seen t = .ok p ∧ sizeAlignsOfTypes D tgt seen ts = .ok fs' ∧
      fs = p :: fs' := by
  rw [sizeAlignsOfTypes] at h
  obtain ⟨p, hp, h⟩ := bind_eq_ok.mp h
  obtain ⟨fs', hfs', h⟩ := bind_eq_ok.mp h
  cases h
  exact ⟨p, fs', hp, hfs', rfl⟩

lemma offsetGo_walk {field : String} {o : Native}
    (h : offsetGo D field fields = some o) (ha : ∀ f ∈ fields, Above D seen (f.2.height D.rank))
    (hfs : sizeAlignsOfTypes D tgt seen (fields.map (·.2)) = .ok fs) (start : Native) :
    walkOffset fields (walkOffsets true start fs) field = some (start + o) := by
  induction fields generalizing o fs start with
  | nil => cases h
  | cons f rest ih =>
    obtain ⟨p, fs', hp, hfs', rfl⟩ := sizeAlignsOfTypes_cons hfs
    rw [offsetGo] at h
    rw [walkOffset, walkOffsets, fieldAlign_packed, alignUp_one]
    simp only [List.map_cons, List.zip_cons_cons, List.lookup_cons]
    split_ifs at h with hname
    · cases h
      rw [hname, beq_self_eq_true]
      simp
    · obtain ⟨a, b, hsize, hb, rfl⟩ := addSize_eq h
      have hsized : SizedAs D tgt f.2 := sizedAs f.2
      obtain ⟨al, hal⟩ := hsized a hsize seen (ha f (List.mem_cons_self ..))
      obtain rfl : p = (a, al) := by
        rw [hp] at hal
        exact Except.ok.inj hal
      have hne : (field == f.1) = false := beq_false_of_ne (Ne.symm hname)
      rw [hne, ← BitVec.add_assoc]
      exact ih hb (fun g hg => ha g (List.mem_cons_of_mem _ hg)) hfs' (start + a)

end Const

/-! ## The recount -/

inductive Decls.Part (D : Decls) : TypeExpr → TypeExpr → Prop
  | element (t : TypeExpr) (n : Native) : D.Part t (.array t n)
  | inner (w : Wrapper) (t : TypeExpr) : D.Part t (.wrapped w t)
  | field {name : String} {info : StructInfo} {f : String × TypeExpr} :
    D.find name = some (.struct info) → f ∈ info.fields → D.Part f.2 (.named name)

/-- A value of `ty` has one of `part` in it. -/
def Decls.Holds (D : Decls) (ty part : TypeExpr) : Prop := Relation.ReflTransGen D.Part part ty

section Overlay
variable {D : Decls} {tgt : Target}

def Recounted (D : Decls) (tgt : Target) (ty : TypeExpr) : Prop :=
  ¬ D.Holds ty .srcLoc → ∀ n, constTypeSize D ty = some n → ∀ q, extent D tgt ty = some q →
    ∃ t, overlaySizeSmt D ty = some t ∧ t.denote = q.1

lemma overlaySizeSmt_struct (hd : D.find name = some (.struct ⟨fields, true, none⟩)) :
    overlaySizeSmt D (.named name) = (overlayParts D (fields.map (·.2))).map .sum := by
  rw [overlaySizeSmt]
  split <;> simp_all

lemma overlayParts_denote {ts : List TypeExpr} (hts : ∀ t ∈ ts, Recounted D tgt t)
    (hplain : ∀ t ∈ ts, ¬ D.Holds t .srcLoc) {a : Native} (h : constSum D (some a) ts = some n)
    {qs : List (ℕ × ℕ)} (hqs : extents D tgt ts = some qs) (start : ℕ) :
    ∃ parts, overlayParts D ts = some parts ∧
      start + SmtSize.denotes parts = finish start (placedItems true qs) := by
  induction ts generalizing a qs start with
  | nil =>
    rw [extents, some.injEq] at hqs
    subst hqs
    exact ⟨[], by rw [overlayParts], by simp [SmtSize.denotes, placedItems, finish]⟩
  | cons t ts ih =>
    obtain ⟨a', b, -, hb, hrest⟩ := constSum_cons h
    simp only [extents, bind_eq_bind, bind_eq_some_iff, pure_def, some.injEq] at hqs
    obtain ⟨q, hq, qs', hqs', rfl⟩ := hqs
    obtain ⟨e, he, hden⟩ := hts t (List.mem_cons_self ..) (hplain t (List.mem_cons_self ..)) b hb q hq
    obtain ⟨parts, hparts, hsum⟩ := ih (fun u hu => hts u (List.mem_cons_of_mem _ hu))
      (fun u hu => hplain u (List.mem_cons_of_mem _ hu)) hrest hqs' (start + q.1)
    refine ⟨e :: parts, by simp [overlayParts, he, hparts], ?_⟩
    rw [placedItems_cons, Serial.finish, if_pos rfl, Serial.alignUp_one, ← hsum, SmtSize.denotes, hden]
    push_cast
    ring

lemma recounted (ty : TypeExpr) : Recounted D tgt ty := by
  induction ty using D.induction with
  | _ ty ih =>
  intro hplain n h q hq
  cases ty with
  | bool =>
    rw [extent, some.injEq] at hq
    exact ⟨.lit 1, by rw [overlaySizeSmt], by rw [← hq]; rfl⟩
  | srcLoc => exact (hplain .refl).elim
  | int t =>
    rw [constTypeSize] at h
    rw [extent, some.injEq] at hq
    refine ⟨.lit n.toNat, by rw [overlaySizeSmt, h]; rfl, ?_⟩
    rw [← hq]
    cases t <;> simp only [intSize, some.injEq, reduceCtorEq] at h <;> subst h <;> rfl
  | wrapped w t =>
    cases w with
    | singleton =>
      rw [constTypeSize] at h
      rw [extent] at hq
      rw [overlaySizeSmt]
      exact ih t (below_wrapped _ t) (fun hloc => hplain (hloc.tail (.inner _ t))) n h q hq
    | _ => simp [constTypeSize] at h
  | array elem k =>
    rw [constTypeSize] at h
    obtain ⟨s, hs, -⟩ := map_eq_some_iff.mp h
    simp only [extent, bind_eq_bind, bind_eq_some_iff] at hq
    obtain ⟨q', hq', hk⟩ := hq
    obtain ⟨e, he, hden⟩ := ih elem (below_array elem k) (fun hloc => hplain (hloc.tail (.element elem k))) s hs q' hq'
    refine ⟨.mul k e, by rw [overlaySizeSmt, he]; rfl, ?_⟩
    obtain ⟨hnn, rfl, -⟩ := arrayExtent_eq hk
    rw [SmtSize.denote, hden]
    push_cast
    rw [Int.toNat_of_nonneg hnn, mul_comm]
  | named name =>
    obtain ⟨fields, hd, hsum⟩ := constTypeSize_named h
    rw [extent_struct hd] at hq
    simp only [bind_eq_bind, bind_eq_some_iff] at hq
    obtain ⟨qs, hqs, hq⟩ := hq
    obtain ⟨parts, hparts, hden⟩ := overlayParts_denote (fun t ht => ih t (below_named hd ht))
      (fun t ht => by
        obtain ⟨f, hf, rfl⟩ := List.mem_map.mp ht
        exact fun hloc => hplain (hloc.tail (.field hd hf))) hsum hqs 0
    refine ⟨.sum parts, ?_, ?_⟩
    · rw [Decl.types] at hparts
      rw [overlaySizeSmt_struct hd, hparts]
      rfl
    · obtain ⟨hsize, halign, -⟩ := structExtent_eq hq
      obtain ⟨hsize, halign⟩ : q.1 = finish 0 (placedItems true qs) ∧ q.2 = 1 := by
        rw [halign] at hsize
        exact ⟨congrArg Prod.fst hsize, halign⟩
      rw [SmtSize.denote, hsize]
      exact_mod_cast hden
  | _ => simp [constTypeSize] at h

lemma overlayParts_some {ts : List TypeExpr} {parts : List SmtSize} (h : overlayParts D ts = some parts) :
    ∀ t ∈ ts, ∃ e, overlaySizeSmt D t = some e := by
  induction ts generalizing parts with
  | nil => exact fun t ht => (List.not_mem_nil ht).elim
  | cons u us ih =>
    rw [overlayParts] at h
    simp only [bind_eq_bind, bind_eq_some_iff] at h
    obtain ⟨e, he, parts', hparts, -⟩ := h
    intro t ht
    rcases List.mem_cons.mp ht with rfl | ht
    · exact ⟨e, he⟩
    · exact ih hparts t ht

lemma not_holds_of_recount (ty : TypeExpr) : ∀ e, overlaySizeSmt D ty = some e → ¬ D.Holds ty .srcLoc := by
  induction ty using D.induction with
  | _ ty ih =>
  intro e h hloc
  rcases Relation.ReflTransGen.cases_tail hloc with rfl | ⟨part, hpart, hstep⟩
  · simp [overlaySizeSmt] at h
  cases hstep with
  | element _ n =>
    rw [overlaySizeSmt] at h
    obtain ⟨e', he, -⟩ := map_eq_some_iff.mp h
    exact ih part (below_array part n) e' he hpart
  | inner w _ =>
    cases w with
    | singleton =>
      rw [overlaySizeSmt] at h
      exact ih part (below_wrapped _ part) e h hpart
    | _ => simp [overlaySizeSmt] at h
  | @field name info f hd hf =>
    rw [overlaySizeSmt] at h
    split at h
    · rename_i fields hd'
      obtain ⟨parts, hparts, -⟩ := map_eq_some_iff.mp h
      cases hd.symm.trans hd'
      have hf' : f.2 ∈ (Decl.struct ⟨fields, true, none⟩).types := List.mem_map_of_mem hf
      obtain ⟨e', he⟩ := overlayParts_some hparts f.2 hf'
      exact ih f.2 (below_named hd hf') e' he hpart
    · cases h

end Overlay

/-! ## The layouts agree -/

section Agree
variable {D : Decls} {tgt : Target} {ty : TypeExpr} {q : ℕ × ℕ}

lemma above_nil (h : Nat) : Above D [] h := fun _ hs => nomatch hs

def placedFields (info : StructInfo) (fs : List (Native × Native)) : List (Int × Int) :=
  ((walkOffsets info.isPacked 0 fs).map (·.toInt)).zip (fs.map (·.1.toInt))

lemma placedFields_eq (hfs : List.Forall₂ Denotes fs items)
    (hin : Within nativeLimit 0 (placedItems info.isPacked items)) :
    placedFields info fs = (placed 0 (placedItems info.isPacked items)).map
      fun p => ((p.1 : Int), (p.2.1 : Int)) := by
  have hzero : (0 : Native).toInt = (0 : ℕ) := rfl
  have hsizes : fs.map (·.1.toInt) = (placedItems info.isPacked items).map fun p => (p.1 : Int) := by
    clear hin
    induction hfs with
    | nil => rfl
    | cons hpq _ ih => rw [placedItems_cons, List.map_cons, List.map_cons, ih, hpq.size]
  rw [placedFields, walkOffsets_denote hfs hzero hin, hsizes, placed, List.zip_map]
  rfl

lemma structExtent_dvd {isPacked : Bool} {alignOpt : Option Native}
    (h : structExtent isPacked alignOpt items = some q) : q.2 ∣ q.1 := by
  obtain ⟨hq, -, hpos, -⟩ := structExtent_eq h
  rw [hq]
  exact dvd_alignUp hpos

lemma extent_dvd (ty : TypeExpr) : ∀ q, extent D tgt ty = some q → q.2 ∣ q.1 := by
  induction ty using D.induction with
  | _ ty ih =>
  intro q h
  cases ty with
  | void | view | kind => simp [extent] at h
  | bool | srcLoc =>
    rw [extent, some.injEq] at h
    rw [← h]
  | int t =>
    rw [extent, some.injEq] at h
    rw [← h]
    cases t <;> cases tgt <;> decide
  | pointer | fn | slice =>
    rw [extent, some.injEq] at h
    rw [← h]
    cases tgt <;> decide
  | wrapped w t =>
    rw [extent] at h
    exact ih t (below_wrapped w t) q h
  | array elem n =>
    simp only [extent, bind_eq_bind, bind_eq_some_iff] at h
    obtain ⟨q', hq', hn⟩ := h
    obtain ⟨-, rfl, -⟩ := arrayExtent_eq hn
    exact dvd_mul_of_dvd_left (ih elem (below_array elem n) q' hq') _
  | tuple ts =>
    simp only [extent, bind_eq_bind, bind_eq_some_iff] at h
    obtain ⟨qs, -, hq⟩ := h
    exact structExtent_dvd hq
  | place arg =>
    rw [extent] at h
    split_ifs at h
    · exact structExtent_dvd h
    · simp only [bind_eq_bind, bind_eq_some_iff] at h
      obtain ⟨q', -, hq⟩ := h
      exact structExtent_dvd hq
  | variant name =>
    rw [extent] at h
    split at h
    · simp only [bind_eq_bind, bind_eq_some_iff] at h
      obtain ⟨qs, -, hq⟩ := h
      exact structExtent_dvd hq
    · cases h
  | named name =>
    rw [extent] at h
    split at h
    · rename_i u hd
      exact ih u (below_named hd (List.mem_singleton_self u)) q h
    · simp only [bind_eq_bind, bind_eq_some_iff] at h
      obtain ⟨qs, -, hq⟩ := h
      exact structExtent_dvd hq
    · simp only [bind_eq_bind, bind_eq_some_iff] at h
      obtain ⟨qs, -, hq⟩ := h
      exact structExtent_dvd hq
    · cases h

/-- The checker's offsets are the walk's, no two fields share a byte, and none reaches past
the end. -/
theorem struct_layout {n a : Native} (hd : D.find name = some (.struct info))
    (hq : extent D tgt (.named name) = some q) (hp : sizeAlignOfType D tgt [] (.named name) = .ok (n, a)) :
    ∃ fs, sizeAlignsOfTypes D tgt [name] (info.fields.map (·.2)) = .ok fs ∧
      (∀ field o, constFieldOffset D name field = some o →
        walkOffset info.fields (walkOffsets info.isPacked 0 fs) field = some o) ∧
      (placedFields info fs).Pairwise (fun p r => p.1 + p.2 ≤ r.1) ∧
      ∀ p ∈ placedFields info fs, 0 ≤ p.1 ∧ p.1 + p.2 ≤ n.toInt := by
  rw [extent_struct hd] at hq
  simp only [bind_eq_bind, bind_eq_some_iff] at hq
  obtain ⟨qs, hqs, hq⟩ := hq
  have habove : ∀ t ∈ (Decl.struct info).types, Above D [name] (t.height D.rank) := fun t ht =>
    (above_nil (D.rank name + 1)).cons (height_of_mem hd ht)
  obtain ⟨fs, hfs, hall⟩ := sizeAlignsOfTypes_denotes (fun t _ => laidOut t) hqs habove
  have hden := walk_of_structExtent hall hq
  obtain ⟨hsize, -, -, hin, -⟩ := structExtent_eq hq
  have hplaced := placedFields_eq hall hin
  refine ⟨fs, hfs, ?_, ?_, ?_⟩
  · intro field o ho
    unfold constFieldOffset at ho
    rw [hd] at ho
    split at ho
    · rename_i fields heq
      cases heq
      rw [offsetGo_walk ho (fun f hf => habove f.2 (List.mem_map_of_mem hf)) hfs 0]
      simp
    · cases ho
  · rw [hplaced, List.pairwise_map]
    refine (placed_ordered 0 _).imp fun {p r} h => ?_
    change (p.1 : Int) + (p.2.1 : Int) ≤ (r.1 : Int)
    exact_mod_cast h
  · intro p hp'
    rw [hplaced] at hp'
    obtain ⟨r, hr, rfl⟩ := List.mem_map.mp hp'
    have hfin : finish 0 (placedItems info.isPacked qs) ≤ q.1 := by
      rw [hsize]
      exact le_alignUp _ _
    have hn : n = (walk info.isPacked info.alignOpt 0 1 fs).1 := by
      rw [sizeAlignOfType_struct hd, if_neg List.not_mem_nil, hfs] at hp
      exact (congrArg Prod.fst (Except.ok.inj hp)).symm
    constructor
    · positivity
    · rw [hn, hden.size]
      change (r.1 : Int) + (r.2.1 : Int) ≤ (q.1 : Int)
      exact_mod_cast (placed_inside hr).2.trans hfin

/-- Where the layout has a size in exact arithmetic too, the checker's size is the layout's, the
recount says the same exactly if no source location is inside, sizes are multiples of alignments,
and the fields of a struct lie apart and inside it. -/
theorem layouts_agree (hexact : ∀ p, sizeAlignOfType D tgt [] ty = .ok p → ∃ q, extent D tgt ty = some q) :
    (∀ n, constTypeSize D ty = some n →
      (∃ a, sizeAlignOfType D tgt [] ty = .ok (n, a)) ∧
        ((∃ t, overlaySizeSmt D ty = some t ∧ t.denote = n.toInt) ↔ ¬ D.Holds ty .srcLoc)) ∧
    (∀ n a, sizeAlignOfType D tgt [] ty = .ok (n, a) → 0 < a.toInt ∧ a.toInt ∣ n.toInt) ∧
    ∀ name info n a, ty = .named name → D.find name = some (.struct info) →
      sizeAlignOfType D tgt [] ty = .ok (n, a) →
      ∃ fs, sizeAlignsOfTypes D tgt [name] (info.fields.map (·.2)) = .ok fs ∧
        (∀ field o, constFieldOffset D name field = some o →
          walkOffset info.fields (walkOffsets info.isPacked 0 fs) field = some o) ∧
        (placedFields info fs).Pairwise (fun p r => p.1 + p.2 ≤ r.1) ∧
        ∀ p ∈ placedFields info fs, 0 ≤ p.1 ∧ p.1 + p.2 ≤ n.toInt := by
  have hden : ∀ p, sizeAlignOfType D tgt [] ty = .ok p → ∃ q, extent D tgt ty = some q ∧ Denotes p q := by
    intro p hp
    obtain ⟨q, hq⟩ := hexact p hp
    obtain ⟨p', hp', hpq⟩ := laidOut ty q hq [] (above_nil _)
    cases hp.symm.trans hp'
    exact ⟨q, hq, hpq⟩
  refine ⟨fun n hn => ?_, fun n a hp => ?_, ?_⟩
  · obtain ⟨a, hp⟩ := sizedAs ty n hn [] (above_nil _)
    obtain ⟨q, hq, hpq⟩ := hden _ hp
    refine ⟨⟨a, hp⟩, fun ⟨t, ht, _⟩ => not_holds_of_recount ty t ht, fun hplain => ?_⟩
    obtain ⟨t, ht, hdenote⟩ := recounted ty hplain n hn q hq
    exact ⟨t, ht, hdenote.trans hpq.size.symm⟩
  · obtain ⟨q, hq, hpq⟩ := hden _ hp
    have hpos := hpq.align_pos
    constructor
    · rw [hpq.align]
      exact_mod_cast hpos
    · rw [hpq.align, hpq.size]
      exact_mod_cast extent_dvd ty q hq
  · rintro name info n a rfl hd hp
    obtain ⟨q, hq⟩ := hexact _ hp
    exact struct_layout hd hq hp

end Agree

def headerInfo : StructInfo :=
  ⟨[("kind", .int .u16), ("bytes", .array (.int .u8) 4)], true, none⟩

def wrappedInfo : StructInfo :=
  ⟨[("words", .array (.int .u64) 1152921504606846976), ("last", .int .u8)], true, none⟩

def traceInfo : StructInfo := ⟨[("at", .srcLoc)], true, none⟩

def exampleDecls : Decls where
  find name :=
    if name = "Header" then some (.struct headerInfo)
    else if name = "Wrapped" then some (.struct wrappedInfo)
    else if name = "Trace" then some (.struct traceInfo) else none
  rank _ := 0
  acyclic name d h := by
    split_ifs at h <;> cases h <;> simp [Decl.types, headerInfo, wrappedInfo, traceInfo, TypeExpr.heights,
      TypeExpr.height]

lemma extent_header : extent exampleDecls .bits64 (.named "Header") = some (6, 1) := by
  have hd : exampleDecls.find "Header" = some (.struct headerInfo) := rfl
  rw [extent_struct hd]
  simp only [headerInfo, List.map_cons, List.map_nil, extents, extent]
  decide

lemma not_holds_int {D : Decls} (t : IntTy) : ¬ D.Holds (.int t) .srcLoc := by
  intro h
  rcases Relation.ReflTransGen.cases_tail h with heq | ⟨_, -, hstep⟩
  · cases heq
  · cases hstep

lemma header_plain : ¬ exampleDecls.Holds (.named "Header") .srcLoc := by
  intro h
  rcases Relation.ReflTransGen.cases_tail h with heq | ⟨part, hpart, hstep⟩
  · cases heq
  cases hstep with
  | @field _ info f hd hf =>
    obtain rfl : headerInfo = info := by
      change some (Decl.struct headerInfo) = _ at hd
      cases hd
      rfl
    simp only [headerInfo, List.mem_cons, List.not_mem_nil, or_false] at hf
    rcases hf with rfl | rfl
    · exact not_holds_int .u16 hpart
    · rcases Relation.ReflTransGen.cases_tail hpart with heq | ⟨_, hbyte, hstep⟩
      · cases heq
      · cases hstep
        exact not_holds_int .u8 hbyte

theorem layouts_agree_header :
    ∃ t, overlaySizeSmt exampleDecls (.named "Header") = some t ∧ t.denote = 6 := by
  have hd : exampleDecls.find "Header" = some (.struct headerInfo) := rfl
  have hsize : constTypeSize exampleDecls (.named "Header") = some 6 := by
    rw [constTypeSize_struct hd]
    simp only [List.map_cons, List.map_nil, constSum, constTypeSize]
    decide
  have hagree := @layouts_agree exampleDecls .bits64 (.named "Header") fun _ _ => ⟨_, extent_header⟩
  exact (hagree.1 6 hsize).2.mpr header_plain

/-- A length of `2^60` words wraps to size 0 where the recount has `2^63`, the field
after it starts at offset 0, and a source location has a size but no recount. -/
theorem layouts_disagree :
    (constTypeSize exampleDecls (.array (.int .u64) 1152921504606846976) = some 0 ∧
      ∃ t, overlaySizeSmt exampleDecls (.array (.int .u64) 1152921504606846976) = some t ∧
        t.denote = 2 ^ 63) ∧
    constFieldOffset exampleDecls "Wrapped" "last" = some 0 ∧
    constTypeSize exampleDecls .srcLoc = some 4 ∧ overlaySizeSmt exampleDecls .srcLoc = none := by
  refine ⟨⟨?_, .mul 1152921504606846976 (.lit 8), ?_, ?_⟩, ?_, ?_, ?_⟩
  · simp only [constTypeSize]
    decide
  · simp only [overlaySizeSmt]
    rfl
  · decide
  · have hd : exampleDecls.find "Wrapped" = some (.struct wrappedInfo) := rfl
    simp only [constFieldOffset, hd, wrappedInfo, offsetGo, constTypeSize]
    decide
  · rw [constTypeSize]
  · simp [overlaySizeSmt]

end Takibi.Layout
