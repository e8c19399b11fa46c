import Mathlib.Tactic

/-! Doubly linked lists through the indices of a table: a segment is a part of such a list, and
a list is the segment from the head to the end. -/

namespace Takibi.Linked
open Function List
section Segments
variable (next prev : ℕ → ℕ)

/-- From `first` on, the links visit the indices of the list, the last of which is `last`;
`before` and `after` are the links at the two ends. -/
def Seg : (before first : ℕ) → List ℕ → (last after : ℕ) → Prop
  | before, first, [], last, after => first = after ∧ last = before
  | before, first, i :: l, last, after => first = i ∧ prev i = before ∧ Seg i (next i) l last after

variable {next prev} {next' prev' : ℕ → ℕ} {l l' : List ℕ} {b f z a i x : ℕ}

lemma seg_append :
    Seg next prev b f (l ++ l') z a ↔ ∃ m x, Seg next prev b f l m x ∧ Seg next prev m x l' z a := by
  induction l generalizing b f with
  | nil =>
    constructor
    · exact fun h => ⟨b, f, ⟨rfl, rfl⟩, h⟩
    · rintro ⟨m, x, ⟨rfl, rfl⟩, h⟩
      exact h
  | cons i l ih =>
    simp only [cons_append, Seg, ih]
    constructor
    · rintro ⟨hf, hp, m, x, h, h'⟩
      exact ⟨m, x, ⟨hf, hp, h⟩, h'⟩
    · rintro ⟨m, x, ⟨hf, hp, h⟩, h'⟩
      exact ⟨hf, hp, m, x, h, h'⟩

section
variable (h : Seg next prev b f l z a)
include h

lemma Seg.congr (hn : ∀ i ∈ l, next' i = next i) (hp : ∀ i ∈ l, prev' i = prev i) :
    Seg next' prev' b f l z a := by
  induction l generalizing b f with
  | nil => exact h
  | cons i l ih =>
    obtain ⟨hf, hprev, hrest⟩ := h
    obtain ⟨hni, hn⟩ := forall_mem_cons.mp hn
    obtain ⟨hpi, hp⟩ := forall_mem_cons.mp hp
    refine ⟨hf, hpi.trans hprev, ?_⟩
    rw [hni]
    exact ih hrest hn hp

lemma Seg.last_mem (hne : l ≠ []) : z ∈ l ∧ next z = a := by
  induction l generalizing b f with
  | nil => exact absurd rfl hne
  | cons i l ih =>
    obtain ⟨-, -, hrest⟩ := h
    cases l with
    | nil =>
      obtain ⟨hnext, rfl⟩ := hrest
      exact ⟨mem_cons_self .., hnext⟩
    | cons j l =>
      obtain ⟨hmem, hnext⟩ := ih hrest (cons_ne_nil _ _)
      exact ⟨mem_cons_of_mem _ hmem, hnext⟩

lemma Seg.first_mem (hne : l ≠ []) : f ∈ l ∧ prev f = b := by
  cases l with
  | nil => exact absurd rfl hne
  | cons i l =>
    obtain ⟨rfl, hprev, -⟩ := h
    exact ⟨mem_cons_self .., hprev⟩

lemma Seg.set_after (hnodup : l.Nodup) (hne : l ≠ []) (a' : ℕ) : Seg (update next z a') prev b f l z a' := by
  induction l generalizing b f with
  | nil => exact absurd rfl hne
  | cons i l ih =>
    obtain ⟨hf, hprev, hrest⟩ := h
    obtain ⟨hi, hnodup⟩ := nodup_cons.mp hnodup
    refine ⟨hf, hprev, ?_⟩
    cases l with
    | nil =>
      obtain ⟨-, rfl⟩ := hrest
      exact ⟨update_self .., rfl⟩
    | cons j l =>
      have hz := (hrest.last_mem (cons_ne_nil _ _)).1
      have hiz : i ≠ z := fun h => hi (h ▸ hz)
      rw [update_of_ne hiz]
      exact ih hrest hnodup (cons_ne_nil _ _)

lemma Seg.set_before (hnodup : l.Nodup) (hne : l ≠ []) (b' : ℕ) : Seg next (update prev f b') b' f l z a := by
  cases l with
  | nil => exact absurd rfl hne
  | cons i l =>
    obtain ⟨rfl, -, hrest⟩ := h
    obtain ⟨hi, -⟩ := nodup_cons.mp hnodup
    refine ⟨rfl, update_self .., hrest.congr (fun _ _ => rfl) fun j hj => ?_⟩
    exact update_of_ne (fun hji : j = f => hi (hji ▸ hj)) ..

end
end Segments

structure IsList (e head : ℕ) (next prev : ℕ → ℕ) (l : List ℕ) : Prop where
  seg : ∃ z, Seg next prev e head l z e
  nodup : l.Nodup
  lt : ∀ i ∈ l, i < e

section Lists
variable {e head : ℕ} {next prev next' prev' : ℕ → ℕ} {l l₁ l₂ : List ℕ} {i : ℕ}

lemma IsList.nil (e : ℕ) (next prev : ℕ → ℕ) : IsList e e next prev [] :=
  ⟨⟨e, rfl, rfl⟩, nodup_nil, fun _ h => absurd h not_mem_nil⟩

section
variable (h : IsList e head next prev l)
include h

lemma IsList.congr (hn : ∀ i ∈ l, next' i = next i) (hp : ∀ i ∈ l, prev' i = prev i) :
    IsList e head next' prev' l := by
  obtain ⟨z, hseg⟩ := h.seg
  exact ⟨⟨z, hseg.congr hn hp⟩, h.nodup, h.lt⟩

lemma IsList.head_eq : head = l.head?.getD e := by
  obtain ⟨z, hseg⟩ := h.seg
  cases l with
  | nil => exact hseg.1
  | cons i l => exact hseg.1

lemma IsList.head_lt_iff : head < e ↔ l ≠ [] := by
  rw [h.head_eq]
  cases l with
  | nil => simp
  | cons i l => simpa using h.lt i (mem_cons_self ..)

lemma IsList.push (hi : i < e) (hnew : i ∉ l) : IsList e i (update next i head)
      (if head < e then update (update prev i e) head i else update prev i e) (i :: l) := by
  obtain ⟨z, hseg⟩ := h.seg
  refine ⟨?_, nodup_cons.mpr ⟨hnew, h.nodup⟩, forall_mem_cons.mpr ⟨hi, h.lt⟩⟩
  have hne : ∀ j ∈ l, j ≠ i := fun j hj h => hnew (h ▸ hj)
  -- the links of the old list, with those of the new index put in
  have hold : Seg (update next i head) (update prev i e) e head l z e :=
    hseg.congr (fun j hj => update_of_ne (hne j hj) ..) fun j hj => update_of_ne (hne j hj) ..
  cases hl : l with
  | nil =>
    have hhead := h.head_eq
    rw [hl] at hhead
    have hhead' : head = e := hhead
    rw [if_neg (by omega)]
    exact ⟨i, rfl, update_self .., (update_self ..).trans hhead', rfl⟩
  | cons j l' =>
    rw [← hl]
    have hlne : l ≠ [] := hl ▸ cons_ne_nil _ _
    have hlt := h.head_lt_iff.mpr hlne
    have hmem := (hseg.first_mem hlne).1
    rw [if_pos hlt]
    refine ⟨z, rfl, ?_, ?_⟩
    · rw [update_of_ne (hne head hmem).symm, update_self]
    · rw [update_self]
      exact hold.set_before h.nodup hlne i

end

lemma IsList.pop (h : IsList e head next prev (i :: l)) : head = i ∧ IsList e (next i) next
      (if next i < e then update prev (next i) e else prev) l := by
  obtain ⟨z, rfl, -, hseg⟩ := h.seg
  obtain ⟨hi, hnodup⟩ := nodup_cons.mp h.nodup
  have hlt := (forall_mem_cons.mp h.lt).2
  refine ⟨rfl, ?_, hnodup, hlt⟩
  cases hl : l with
  | nil =>
    rw [hl] at hseg
    rw [if_neg (by rw [hseg.1]; omega)]
    exact ⟨e, hseg.1, rfl⟩
  | cons j l' =>
    rw [← hl]
    have hlne : l ≠ [] := hl ▸ cons_ne_nil _ _
    have hfirst := (hseg.first_mem hlne).1
    rw [if_pos (hlt _ hfirst)]
    exact ⟨z, hseg.set_before hnodup hlne e⟩

lemma Seg.last_lt {m : ℕ} (h : Seg next prev e head l m i) (hm : m < e) : m ∈ l := by
  refine (h.last_mem ?_).1
  rintro rfl
  rw [h.2] at hm
  omega

lemma Seg.first_lt {y z : ℕ} (h : Seg next prev i y l z e) (hy : y < e) : y ∈ l := by
  refine (h.first_mem ?_).1
  rintro rfl
  rw [h.1] at hy
  omega

structure Neighbours (e head : ℕ) (next prev : ℕ → ℕ) (i : ℕ) : Prop where
  before : prev i < e → next (prev i) = i
  first : ¬ prev i < e → head = i
  after : next i < e → prev (next i) = i

section
variable (h : IsList e head next prev l)
include h

lemma IsList.neighbours (hi : i ∈ l) : Neighbours e head next prev i := by
  obtain ⟨z, hseg⟩ := h.seg
  obtain ⟨l₁, l₂, rfl⟩ := append_of_mem hi
  obtain ⟨m, x, h₁, rfl, hprev, h₂⟩ := seg_append.mp hseg
  have hlt : ∀ j ∈ l₁, j < e := fun j hj => h.lt j (mem_append_left _ hj)
  refine ⟨fun hlt' => ?_, fun hge => ?_, fun hlt' => ?_⟩
  · rw [hprev] at hlt' ⊢
    exact (h₁.last_mem (ne_nil_of_mem (h₁.last_lt hlt'))).2
  · cases l₁ with
    | nil => exact h₁.1
    | cons j l₁ =>
      have hmem := (h₁.last_mem (cons_ne_nil _ _)).1
      rw [hprev] at hge
      exact absurd (hlt m hmem) hge
  · exact (h₂.first_mem (ne_nil_of_mem (h₂.first_lt hlt'))).2

lemma IsList.prev_le (hi : i ∈ l) : prev i ≤ e := by
  obtain ⟨z, hseg⟩ := h.seg
  obtain ⟨l₁, l₂, rfl⟩ := append_of_mem hi
  obtain ⟨m, x, h₁, rfl, rfl, -⟩ := seg_append.mp hseg
  cases l₁ with
  | nil => exact h₁.2.le
  | cons j l₁ =>
    have hmem := (h₁.last_mem (cons_ne_nil _ _)).1
    exact (h.lt _ (mem_append_left _ hmem)).le

lemma IsList.next_le (hi : i ∈ l) : next i ≤ e := by
  obtain ⟨z, hseg⟩ := h.seg
  obtain ⟨l₁, l₂, rfl⟩ := append_of_mem hi
  obtain ⟨m, x, -, rfl, -, h₂⟩ := seg_append.mp hseg
  cases l₂ with
  | nil => exact h₂.1.le
  | cons j l₂ =>
    have hmem := (h₂.first_mem (cons_ne_nil _ _)).1
    exact (h.lt _ (mem_append_right _ (mem_cons_of_mem _ hmem))).le

end

lemma Seg.unlink_before {m y : ℕ} (h : Seg next prev e head l m i) (hnodup : l.Nodup)
    (hlt : ∀ j ∈ l, j < e) :
    Seg (if m < e then update next m y else next) prev e (if m < e then head else y) l m y := by
  cases l with
  | nil =>
    obtain ⟨-, rfl⟩ := h
    rw [if_neg (lt_irrefl m), if_neg (lt_irrefl m)]
    exact ⟨rfl, rfl⟩
  | cons j l =>
    have hmem := (h.last_mem (cons_ne_nil _ _)).1
    rw [if_pos (hlt m hmem), if_pos (hlt m hmem)]
    exact h.set_after hnodup (cons_ne_nil _ _) y

lemma Seg.unlink_after {m y z : ℕ} (h : Seg next prev i y l z e) (hnodup : l.Nodup)
    (hlt : ∀ j ∈ l, j < e) :
    ∃ z, Seg next (if y < e then update prev y m else prev) m y l z e := by
  cases l with
  | nil =>
    obtain ⟨rfl, -⟩ := h
    exact ⟨m, rfl, rfl⟩
  | cons j l =>
    have hmem := (h.first_mem (cons_ne_nil _ _)).1
    rw [if_pos (hlt y hmem)]
    exact ⟨z, h.set_before hnodup (cons_ne_nil _ _) m⟩

lemma IsList.unlink (h : IsList e head next prev (l₁ ++ i :: l₂)) :
    IsList e (if prev i < e then head else next i)
      (if prev i < e then update next (prev i) (next i) else next)
      (if next i < e then update prev (next i) (prev i) else prev) (l₁ ++ l₂) := by
  obtain ⟨z, hseg⟩ := h.seg
  obtain ⟨m, x, h₁, rfl, rfl, h₂⟩ := seg_append.mp hseg
  obtain ⟨hnodup₁, hnodup, hdisjoint⟩ := nodup_append.mp h.nodup
  have hnodup₂ := (nodup_cons.mp hnodup).2
  have hlt₁ : ∀ j ∈ l₁, j < e := fun j hj => h.lt j (mem_append_left _ hj)
  have hlt₂ : ∀ j ∈ l₂, j < e := fun j hj =>
    h.lt j (mem_append_right _ (mem_cons_of_mem _ hj))
  have hne : ∀ j ∈ l₁, ∀ k ∈ l₂, j ≠ k := fun j hj k hk =>
    hdisjoint j hj k (mem_cons_of_mem _ hk)
  have hbefore := h₁.unlink_before (y := next x) hnodup₁ hlt₁
  obtain ⟨z', hafter⟩ := h₂.unlink_after (m := prev x) hnodup₂ hlt₂
  refine ⟨⟨z', seg_append.mpr ⟨prev x, next x, hbefore.congr (fun _ _ => rfl) fun j hj => ?_,
    hafter.congr (fun j hj => ?_) fun _ _ => rfl⟩⟩, ?_, ?_⟩
  · split_ifs with hy
    · exact update_of_ne (hne j hj _ (h₂.first_lt hy)) ..
    · rfl
  · split_ifs with hm
    · exact update_of_ne (hne _ (h₁.last_lt hm) j hj).symm ..
    · rfl
  · exact nodup_append.mpr ⟨hnodup₁, hnodup₂, hne⟩
  · intro j hj
    rcases mem_append.mp hj with hj | hj
    · exact hlt₁ j hj
    · exact hlt₂ j hj

end Lists
end Takibi.Linked
