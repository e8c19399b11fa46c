import Mathlib.Logic.Relation
import Mathlib.Tactic

/-! Depth-first walks that work on a node after its successors. A node that is being visited counts as
available, so a cycle is cut where it was entered. Every step may fail, and what was done until then stays. -/

namespace Takibi.Search.PostOrder
open Relation List Nat
variable {α β ε : Type} {roots : List α}

structure Walk (α β : Type) where
  visited : List α := []
  inProgress : List α := []
  order : List (α × β) := []
  worked : List α := []

structure Hooks (ε α β : Type) where
  arrive : α → Except ε Unit
  next : α → Except ε (List α)
  work : α → Except ε β

abbrev Outcome (ε α β : Type) := Except (ε × Walk α β) (Walk α β)

def each (visit : α → Walk α β → Option (Outcome ε α β)) : List α → Walk α β → Option (Outcome ε α β)
  | [], w => some (.ok w)
  | a :: l, w =>
    match visit a w with
    | none => none
    | some (.error failed) => some (.error failed)
    | some (.ok w') => each visit l w'

section
variable [DecidableEq α] (h : Hooks ε α β)

def finish (a : α) (w : Walk α β) : Outcome ε α β :=
  match h.work a with
  | .error e => .error (e, { w with worked := a :: w.worked })
  | .ok b => .ok {
      visited := a :: w.visited
      inProgress := w.inProgress.erase a
      order := (a, b) :: w.order
      worked := a :: w.worked }

def visit : ℕ → α → Walk α β → Option (Outcome ε α β)
  | 0, _, _ => none
  | fuel + 1, a, w =>
    match h.arrive a with
    | .error e => some (.error (e, w))
    | .ok () =>
      if a ∈ w.visited ∨ a ∈ w.inProgress then some (.ok w)
      else
        match h.next a with
        | .error e => some (.error (e, { w with inProgress := a :: w.inProgress }))
        | .ok l =>
          match each (visit fuel) l { w with inProgress := a :: w.inProgress } with
          | none => none
          | some (.error failed) => some (.error failed)
          | some (.ok w') => some (finish h a w')

end

/-! ## What a walk keeps -/

section Graph
variable (h : Hooks ε α β)

def Edge (a b : α) : Prop := ∃ l, h.next a = .ok l ∧ b ∈ l
abbrev Reach : α → α → Prop := ReflTransGen (Edge h)
def Refused (a : α) (e : ε) : Prop := h.arrive a = .error e ∨ h.next a = .error e ∨ h.work a = .error e

/-- Latest first: a node comes after its successors, save for those that lead back to it. -/
def Ordered : List α → Prop
  | [] => True
  | a :: l => (∀ b, Edge h a b → ¬ Reach h b a → b ∈ l) ∧ Ordered l

structure Ok (w : Walk α β) : Prop where
  worked : w.worked = w.visited
  names : w.order.map Prod.fst = w.visited
  results : ∀ p ∈ w.order, h.work p.1 = .ok p.2
  nodup : w.visited.Nodup
  apart : ∀ a ∈ w.inProgress, a ∉ w.visited
  closed : ∀ a ∈ w.visited, ∀ b, Edge h a b → b ∈ w.visited ∨ b ∈ w.inProgress
  ordered : Ordered h w.visited
  accepted : ∀ a ∈ w.visited, ∀ e, ¬ Refused h a e

structure Extends (l : List α) (w w' : Walk α β) : Prop where
  ok : Ok h w'
  inProgress : w'.inProgress = w.inProgress
  grows : w.visited ⊆ w'.visited
  marked : ∀ a ∈ l, a ∈ w'.visited ∨ a ∈ w.inProgress
  reached : ∀ x ∈ w'.visited, x ∈ w.visited ∨ ∃ a ∈ l, Reach h a x

structure Halted (l : List α) (w : Walk α β) (e : ε) (w' : Walk α β) : Prop where
  nodup : w'.worked.Nodup
  ordered : Ordered h w'.worked
  reached : ∀ x ∈ w'.worked, x ∈ w.visited ∨ ∃ a ∈ l, Reach h a x
  refused : ∃ a ∈ l, ∃ x, Reach h a x ∧ Refused h x e

def Sound (l : List α) (w : Walk α β) : Outcome ε α β → Prop
  | .ok w' => Extends h l w w'
  | .error (e, w') => Halted h l w e w'

variable {h} {a b : α} {l newer older : List α} {w w' : Walk α β} {r : Outcome ε α β} {e : ε}

lemma Ordered.of_append (ho : Ordered h (newer ++ a :: older)) (hedge : Edge h a b)
    (hback : ¬ Reach h b a) : b ∈ older := by
  induction newer with
  | nil => exact ho.1 b hedge hback
  | cons x newer ih => exact ih ho.2

lemma Ordered.of_acyclic (acyclic : ∀ x, ¬ TransGen (Edge h) x x) (ho : Ordered h (newer ++ a :: older))
    (hpath : TransGen (Edge h) a b) : b ∈ older := by
  have hback : ∀ {x y}, Edge h x y → ¬ Reach h y x := fun hedge hreach => acyclic _ (.head' hedge hreach)
  induction hpath with
  | single hedge => exact ho.of_append hedge (hback hedge)
  | tail _ hedge ih =>
    -- The node before the last is in `older`, and what it uses is behind it there.
    obtain ⟨before, after, rfl⟩ := append_of_mem ih
    rw [← cons_append, ← append_assoc] at ho
    exact mem_append_right _ (mem_cons_of_mem _ (ho.of_append hedge (hback hedge)))

lemma Halted.widen {k : List α} (hh : Halted h l w' e w) {v : Walk α β}
    (hvisited : ∀ x ∈ w'.visited, x ∈ v.visited ∨ ∃ a ∈ k, Reach h a x)
    (hl : ∀ a ∈ l, ∃ b ∈ k, Reach h b a) : Halted h k v e w := by
  have hreach : ∀ {x}, (∃ a ∈ l, Reach h a x) → ∃ b ∈ k, Reach h b x := by
    rintro x ⟨a, ha, hx⟩
    obtain ⟨b, hb, hba⟩ := hl a ha
    exact ⟨b, hb, hba.trans hx⟩
  refine ⟨hh.nodup, hh.ordered, fun x hx => ?_, ?_⟩
  · exact (hh.reached x hx).elim (hvisited x) fun hfound => .inr (hreach hfound)
  · obtain ⟨a, ha, x, hx, hrefused⟩ := hh.refused
    obtain ⟨b, hb, hbx⟩ := hreach ⟨a, ha, hx⟩
    exact ⟨b, hb, x, hbx, hrefused⟩

lemma Ok.halted (hw : Ok h w) {v : Walk α β} (hv : v.worked = w.worked) (ha : a ∈ l)
    (hrefused : Refused h a e) : Halted h l w e v :=
  ⟨by rw [hv, hw.worked]; exact hw.nodup, by rw [hv, hw.worked]; exact hw.ordered,
    fun x hx => .inl (hw.worked ▸ hv ▸ hx), a, ha, a, .refl, hrefused⟩

lemma Ok.start (hw : Ok h w) (hnew : a ∉ w.visited) : Ok h { w with inProgress := a :: w.inProgress } where
  __ := hw
  apart := forall_mem_cons.mpr ⟨hnew, hw.apart⟩
  closed x hx b hb := (hw.closed x hx b hb).imp_right (mem_cons_of_mem _)

lemma each_sound {visit : α → Walk α β → Option (Outcome ε α β)}
    (hvisit : ∀ a w r, Ok h w → (∀ p ∈ w.inProgress, Reach h p a) → visit a w = some r → Sound h [a] w r)
    (hw : Ok h w) (hstack : ∀ p ∈ w.inProgress, ∀ a ∈ l, Reach h p a)
    (hr : each visit l w = some r) : Sound h l w r := by
  induction l generalizing w with
  | nil =>
    cases hr
    exact ⟨hw, rfl, List.Subset.refl _, forall_mem_nil _, fun x hx => .inl hx⟩
  | cons a l ih =>
    rw [each] at hr
    have hfirst : ∀ r', visit a w = some r' → Sound h [a] w r' := fun r' =>
      hvisit a w r' hw fun p hp => hstack p hp a (mem_cons_self ..)
    have hhead : ∀ x, (∃ y ∈ [a], Reach h y x) → ∃ y ∈ a :: l, Reach h y x := by
      rintro x ⟨y, hy, hx⟩
      exact ⟨y, mem_cons.mpr (.inl (mem_singleton.mp hy)), hx⟩
    split at hr
    · cases hr
    · next e w' hone =>
      cases hr
      exact (hfirst _ hone).widen (fun x hx => .inl hx) fun y hy => hhead y ⟨y, hy, .refl⟩
    · next w' hone =>
      have hext : Extends h [a] w w' := hfirst _ hone
      have hrest := ih hext.ok (fun p hp b hb => hstack p (hext.inProgress ▸ hp) b (mem_cons_of_mem _ hb)) hr
      have hreached : ∀ x ∈ w'.visited, x ∈ w.visited ∨ ∃ y ∈ a :: l, Reach h y x :=
        fun x hx => (hext.reached x hx).imp_right (hhead x)
      cases r with
      | error failed =>
        exact Halted.widen hrest hreached fun y hy => ⟨y, mem_cons_of_mem _ hy, .refl⟩
      | ok w'' =>
        have hext' : Extends h l w' w'' := hrest
        refine ⟨hext'.ok, hext'.inProgress.trans hext.inProgress, List.Subset.trans hext.grows hext'.grows, ?_,
          fun x hx => ?_⟩
        · refine forall_mem_cons.mpr ⟨?_, fun b hb => ?_⟩
          · exact (hext.marked a (mem_singleton_self a)).imp_left fun ha => hext'.grows ha
          · exact hext.inProgress ▸ hext'.marked b hb
        · rcases hext'.reached x hx with hx | ⟨y, hy, hyx⟩
          · exact hreached x hx
          · exact .inr ⟨y, mem_cons_of_mem _ hy, hyx⟩

variable [DecidableEq α]

lemma finish_sound {l' : List α} (hnext : h.next a = .ok l') (harrive : h.arrive a = .ok ())
    (hnew : a ∉ w.visited) (hstack : ∀ p ∈ w.inProgress, Reach h p a)
    (hext : Extends h l' { w with inProgress := a :: w.inProgress } w') (hopen : a ∉ w.inProgress) :
    Sound h [a] w (finish h a w') := by
  have hedge : ∀ b, Edge h a b ↔ b ∈ l' := by
    refine fun b => ⟨?_, fun hb => ⟨l', hnext, hb⟩⟩
    rintro ⟨k, hk, hb⟩
    rw [hnext] at hk
    exact Except.ok.inj hk ▸ hb
  have hfresh : a ∉ w'.visited := hext.ok.apart a (hext.inProgress ▸ mem_cons_self ..)
  -- A successor that is still being visited leads back to the node.
  have hbehind : ∀ b, Edge h a b → ¬ Reach h b a → b ∈ w'.visited := by
    intro b hb hback
    rcases hext.marked b ((hedge b).mp hb) with hdone | hcurrent
    · exact hdone
    · rcases mem_cons.mp hcurrent with rfl | hcurrent
      · exact absurd .refl hback
      · exact absurd (hstack b hcurrent) hback
  have hreached : ∀ x ∈ a :: w'.visited, x ∈ w.visited ∨ ∃ y ∈ [a], Reach h y x := by
    refine forall_mem_cons.mpr ⟨.inr ⟨a, mem_singleton_self a, .refl⟩, fun x hx => ?_⟩
    rcases hext.reached x hx with hx | ⟨b, hb, hbx⟩
    · exact .inl hx
    · exact .inr ⟨a, mem_singleton_self a, .head ((hedge b).mpr hb) hbx⟩
  unfold finish
  cases hwork : h.work a with
  | error e =>
    refine ⟨?_, ?_, ?_, a, mem_singleton_self a, a, .refl, .inr (.inr hwork)⟩
    all_goals dsimp only; rw [hext.ok.worked]
    · exact nodup_cons.mpr ⟨hfresh, hext.ok.nodup⟩
    · exact ⟨hbehind, hext.ok.ordered⟩
    · exact hreached
  | ok b =>
    have herase : w'.inProgress.erase a = w.inProgress := by rw [hext.inProgress, erase_cons_head]
    refine ⟨⟨?_, ?_, ?_, ?_, ?_, ?_, ?_, ?_⟩, herase, ?_, ?_, hreached⟩
    · exact congrArg (a :: ·) hext.ok.worked
    · exact congrArg (a :: ·) hext.ok.names
    · exact forall_mem_cons.mpr ⟨hwork, hext.ok.results⟩
    · exact nodup_cons.mpr ⟨hfresh, hext.ok.nodup⟩
    · intro x hx
      dsimp only at hx ⊢
      rw [herase] at hx
      refine not_mem_cons_of_ne_of_not_mem (fun hxa => hopen (hxa ▸ hx)) ?_
      exact hext.ok.apart x (hext.inProgress ▸ mem_cons_of_mem _ hx)
    · have hmark : ∀ c, c ∈ w'.visited ∨ c ∈ a :: w.inProgress → c ∈ a :: w'.visited ∨ c ∈ w.inProgress := by
        rintro c (hc | hc)
        · exact .inl (mem_cons_of_mem _ hc)
        · exact (mem_cons.mp hc).imp (fun hca => mem_cons.mpr (.inl hca)) id
      dsimp only
      rw [herase]
      refine forall_mem_cons.mpr ⟨fun c hc => hmark c (hext.marked c ((hedge c).mp hc)), fun x hx c hc => ?_⟩
      have hclosed := hext.ok.closed x hx c hc
      rw [hext.inProgress] at hclosed
      exact hmark c hclosed
    · exact ⟨hbehind, hext.ok.ordered⟩
    · refine forall_mem_cons.mpr ⟨?_, hext.ok.accepted⟩
      rintro e (he | he | he)
      · rw [harrive] at he
        cases he
      · rw [hnext] at he
        cases he
      · rw [hwork] at he
        cases he
    · exact fun x hx => mem_cons_of_mem _ (hext.grows hx)
    · intro x hx
      exact .inl (mem_singleton.mp hx ▸ mem_cons_self ..)

lemma visit_sound (fuel : ℕ) : ∀ a (w : Walk α β) r, Ok h w → (∀ p ∈ w.inProgress, Reach h p a) →
    visit h fuel a w = some r → Sound h [a] w r := by
  induction fuel with
  | zero => exact fun a w r _ _ hr => nomatch hr
  | succ fuel ih =>
    intro a w r hw hstack hr
    have hmem := mem_singleton_self a
    rw [visit] at hr
    split at hr
    · next e harrive =>
      cases hr
      exact hw.halted rfl hmem (.inl harrive)
    · next harrive =>
      split_ifs at hr with hmark
      · cases hr
        refine ⟨hw, rfl, List.Subset.refl _, fun x hx => ?_, fun x hx => .inl hx⟩
        exact mem_singleton.mp hx ▸ hmark
      · obtain ⟨hnew, hopen⟩ := not_or.mp hmark
        split at hr
        · next e hnext =>
          cases hr
          exact hw.halted rfl hmem (.inr (.inl hnext))
        · next l' hnext =>
          have heach : ∀ r', each (visit h fuel) l' { w with inProgress := a :: w.inProgress } = some r' →
              Sound h l' { w with inProgress := a :: w.inProgress } r' := by
            refine fun r' => each_sound ih (hw.start hnew) fun p hp b hb => ?_
            rcases mem_cons.mp hp with rfl | hp
            · exact .single ⟨l', hnext, hb⟩
            · exact (hstack p hp).tail ⟨l', hnext, hb⟩
          split at hr
          · cases hr
          · next e w' hl =>
            cases hr
            exact (heach _ hl).widen (fun x hx => .inl hx) fun b hb => ⟨a, hmem, .single ⟨l', hnext, hb⟩⟩
          · next w' hl =>
            cases hr
            exact finish_sound hnext harrive hnew hstack (heach _ hl) hopen

/-! ## Termination -/

def unmarked (nodes : Finset α) (w : Walk α β) : ℕ :=
  {a ∈ nodes | ¬ (a ∈ w.visited ∨ a ∈ w.inProgress)}.card

variable {nodes : Finset α}

lemma Extends.unmarked_le (hext : Extends h l w w') : unmarked nodes w' ≤ unmarked nodes w := by
  refine Finset.card_le_card (Finset.monotone_filter_right _ fun a _ hmark => ?_)
  rw [hext.inProgress] at hmark
  exact fun hm => hmark (hm.imp_left fun ha => hext.grows ha)

lemma unmarked_start (ha : a ∈ nodes) (hmark : ¬ (a ∈ w.visited ∨ a ∈ w.inProgress)) :
    unmarked nodes { w with inProgress := a :: w.inProgress } < unmarked nodes w := by
  refine Finset.card_lt_card (Finset.ssubset_iff_of_subset ?_ |>.mpr ⟨a, ?_, ?_⟩)
  · refine Finset.monotone_filter_right _ fun b _ hb hm => hb ?_
    exact hm.imp_right (mem_cons_of_mem _)
  · exact Finset.mem_filter.mpr ⟨ha, hmark⟩
  · simp

lemma each_total {visit : α → Walk α β → Option (Outcome ε α β)} {bound : ℕ}
    (hvisit : ∀ a w r, Ok h w → (∀ p ∈ w.inProgress, Reach h p a) → visit a w = some r → Sound h [a] w r)
    (htotal : ∀ a w, Ok h w → (∀ p ∈ w.inProgress, Reach h p a) → a ∈ nodes → unmarked nodes w < bound →
      ∃ r, visit a w = some r)
    (hw : Ok h w) (hstack : ∀ p ∈ w.inProgress, ∀ a ∈ l, Reach h p a) (hl : ∀ a ∈ l, a ∈ nodes)
    (hbound : unmarked nodes w < bound) : ∃ r, each visit l w = some r := by
  induction l generalizing w with
  | nil => exact ⟨_, rfl⟩
  | cons a l ih =>
    have hfirst : ∀ p ∈ w.inProgress, Reach h p a := fun p hp => hstack p hp a (mem_cons_self ..)
    obtain ⟨r, hr⟩ := htotal a w hw hfirst (hl a (mem_cons_self ..)) hbound
    rw [each, hr]
    cases r with
    | error failed => exact ⟨_, rfl⟩
    | ok w' =>
      have hext : Extends h [a] w w' := hvisit a w _ hw hfirst hr
      refine ih hext.ok (fun p hp b hb => ?_) (fun b hb => hl b (mem_cons_of_mem _ hb))
        (hext.unmarked_le.trans_lt hbound)
      exact hstack p (hext.inProgress ▸ hp) b (mem_cons_of_mem _ hb)

lemma visit_total (closed : ∀ a ∈ nodes, ∀ b, Edge h a b → b ∈ nodes) (fuel : ℕ) :
    ∀ a (w : Walk α β), Ok h w → (∀ p ∈ w.inProgress, Reach h p a) → a ∈ nodes → unmarked nodes w < fuel →
      ∃ r, visit h fuel a w = some r := by
  induction fuel with
  | zero => exact fun a w _ _ _ hbound => absurd hbound (not_lt_zero _)
  | succ fuel ih =>
    intro a w hw hstack ha hbound
    rw [visit]
    cases harrive : h.arrive a with
    | error e => exact ⟨_, rfl⟩
    | ok _ =>
      dsimp only
      split_ifs with hmark
      · exact ⟨_, rfl⟩
      · cases hnext : h.next a with
        | error e => exact ⟨_, rfl⟩
        | ok l =>
          have hedge : ∀ b ∈ l, Edge h a b := fun b hb => ⟨l, hnext, hb⟩
          have hopen : ∀ p ∈ a :: w.inProgress, ∀ b ∈ l, Reach h p b := by
            refine forall_mem_cons.mpr ⟨fun b hb => .single (hedge b hb), fun p hp b hb => ?_⟩
            exact (hstack p hp).tail (hedge b hb)
          obtain ⟨r, hr⟩ := each_total (visit_sound fuel) ih (hw.start fun hnew => hmark (.inl hnew)) hopen
            (fun b hb => closed a ha b (hedge b hb))
            (Nat.lt_of_lt_of_le (unmarked_start ha hmark) (le_of_lt_succ hbound))
          dsimp only
          rw [hr]
          rcases r with ⟨e, w'⟩ | w' <;> exact ⟨_, rfl⟩

/-! ## A walk from its roots -/

omit [DecidableEq α] in
lemma each_mono {f g : α → Walk α β → Option (Outcome ε α β)}
    (hfg : ∀ a w r, f a w = some r → g a w = some r) (hr : each f l w = some r) : each g l w = some r := by
  induction l generalizing w with
  | nil => exact hr
  | cons a l ih =>
    rw [each] at hr ⊢
    split at hr
    · cases hr
    · next hone => rwa [hfg _ _ _ hone]
    · next hone =>
      rw [hfg _ _ _ hone]
      exact ih hr

lemma visit_succ (fuel : ℕ) : ∀ a (w : Walk α β) r, visit h fuel a w = some r → visit h (fuel + 1) a w = some r := by
  induction fuel with
  | zero => exact fun a w r hr => nomatch hr
  | succ fuel ih =>
    intro a w r hr
    rw [visit] at hr ⊢
    split at hr
    · exact hr
    · split_ifs at hr ⊢
      · exact hr
      · split at hr
        · exact hr
        · split at hr
          · cases hr
          · next hl => rwa [each_mono ih hl]
          · next hl => rwa [each_mono ih hl]

lemma visit_mono {fuel fuel' : ℕ} (hle : fuel ≤ fuel') (hr : visit h fuel a w = some r) :
    visit h fuel' a w = some r := by
  induction hle with
  | refl => exact hr
  | step _ ih => exact visit_succ _ _ _ _ ih

omit [DecidableEq α] in
lemma Ok.empty : Ok h ({} : Walk α β) where
  worked := rfl
  names := rfl
  results := forall_mem_nil _
  nodup := nodup_nil
  apart := forall_mem_nil _
  closed := forall_mem_nil _
  ordered := trivial
  accepted := forall_mem_nil _

lemma walk_settles (nodes : Finset α) (hroots : ∀ a ∈ roots, a ∈ nodes)
    (closed : ∀ a ∈ nodes, ∀ b, Edge h a b → b ∈ nodes) :
    ∃ r, (∀ fuel, nodes.card < fuel → each (visit h fuel) roots {} = some r) ∧
      Sound h roots ({} : Walk α β) r := by
  have hcard : unmarked nodes ({} : Walk α β) < nodes.card + 1 := lt_succ_of_le (Finset.card_filter_le ..)
  obtain ⟨r, hr⟩ := each_total (visit_sound _) (visit_total closed _) Ok.empty (forall_mem_nil _) hroots hcard
  exact ⟨r, fun fuel hfuel => each_mono (fun a w r' => visit_mono hfuel) hr,
    each_sound (visit_sound _) Ok.empty (forall_mem_nil _) hr⟩

omit [DecidableEq α] in
lemma Extends.mem_iff (hext : Extends h roots ({} : Walk α β) w) :
    b ∈ w.visited ↔ ∃ a ∈ roots, Reach h a b := by
  refine ⟨fun hb => (hext.reached b hb).resolve_left (not_mem_nil), ?_⟩
  rintro ⟨a, ha, hpath⟩
  induction hpath with
  | refl => exact (hext.marked a ha).resolve_right not_mem_nil
  | tail _ hedge ih =>
    refine (hext.ok.closed _ ih _ hedge).resolve_right ?_
    rw [hext.inProgress]
    exact not_mem_nil

end Graph
end Takibi.Search.PostOrder
