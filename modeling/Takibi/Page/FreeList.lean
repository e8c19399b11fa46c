import Takibi.Page.Geometry
import Takibi.Linked.Links

/-! The links of the free list: what pushing, popping and unlinking a page do to them, and
that they touch nothing else. -/

namespace Takibi.Page
open Linked Function Pool List

structure Mark where
  occupied : Bool
  owner : PageOwnerTag
  mapRefcount : ℕ
  physical : ℕ

def PageMeta.mark (m : PageMeta) : Mark := ⟨m.occupied, m.owner, m.mapRefcount, m.physical⟩

namespace Pool
variable (pool : Pool)

def next : ℕ → ℕ := PageMeta.nextFree ∘ pool.metas
def prev : ℕ → ℕ := PageMeta.prevFree ∘ pool.metas
def mark : ℕ → Mark := PageMeta.mark ∘ pool.metas

variable (i : ℕ) (f : PageMeta → PageMeta)

@[simp] lemma setMeta_next :
    (pool.setMeta i f).next = update pool.next i (f (pool.metas i)).nextFree := comp_update ..

@[simp] lemma setMeta_prev :
    (pool.setMeta i f).prev = update pool.prev i (f (pool.metas i)).prevFree := comp_update ..

@[simp] lemma setMeta_mark :
    (pool.setMeta i f).mark = update pool.mark i (f (pool.metas i)).mark := comp_update ..

section Writes
variable (i v : ℕ)

@[simp] lemma setNext_next : (pool.setNext i v).next = update pool.next i (u32 v) := comp_update ..

@[simp] lemma setNext_prev : (pool.setNext i v).prev = pool.prev := by
  rw [setNext, setMeta_prev]
  exact update_eq_self ..

@[simp] lemma setNext_mark : (pool.setNext i v).mark = pool.mark := by
  rw [setNext, setMeta_mark]
  exact update_eq_self ..

@[simp] lemma setPrev_next : (pool.setPrev i v).next = pool.next := by
  unfold setPrev
  split_ifs
  · rw [setMeta_next]
    exact update_eq_self ..
  · rfl

@[simp] lemma setPrev_prev : (pool.setPrev i v).prev =
    if i < pool.pageCount then update pool.prev i (u32 v) else pool.prev := by
  unfold setPrev
  split_ifs
  · exact comp_update ..
  · rfl

@[simp] lemma setPrev_mark : (pool.setPrev i v).mark = pool.mark := by
  unfold setPrev
  split_ifs
  · rw [setMeta_mark]
    exact update_eq_self ..
  · rfl

@[simp] lemma setAfter_next : (pool.setAfter i v).next =
    if i < pool.pageCount then update pool.next i (u32 v) else pool.next := by
  unfold setAfter
  split_ifs
  · exact setNext_next ..
  · rfl

@[simp] lemma setAfter_prev : (pool.setAfter i v).prev = pool.prev := by
  unfold setAfter
  split_ifs
  · exact setNext_prev ..
  · rfl

@[simp] lemma setAfter_mark : (pool.setAfter i v).mark = pool.mark := by
  unfold setAfter
  split_ifs
  · exact setNext_mark ..
  · rfl

@[simp] lemma setNext_pageCount : (pool.setNext i v).pageCount = pool.pageCount := rfl

@[simp] lemma setPrev_pageCount : (pool.setPrev i v).pageCount = pool.pageCount := by
  unfold setPrev
  split_ifs <;> rfl

@[simp] lemma setAfter_pageCount : (pool.setAfter i v).pageCount = pool.pageCount := by
  unfold setAfter
  split_ifs <;> rfl

@[simp] lemma setNext_freeHead : (pool.setNext i v).freeHead = pool.freeHead := rfl

@[simp] lemma setPrev_freeHead : (pool.setPrev i v).freeHead = pool.freeHead := by
  unfold setPrev
  split_ifs <;> rfl

@[simp] lemma setAfter_freeHead :
    (pool.setAfter i v).freeHead = if i < pool.pageCount then pool.freeHead else v := by
  unfold setAfter
  split_ifs <;> rfl

@[simp] lemma setFreeCount_next : (pool.setFreeCount v).next = pool.next := rfl

@[simp] lemma setFreeCount_prev : (pool.setFreeCount v).prev = pool.prev := rfl

@[simp] lemma setFreeCount_freeHead : (pool.setFreeCount v).freeHead = pool.freeHead := rfl

end Writes
end Pool

structure OnList (pool : Pool) (l : List ℕ) : Prop where
  links : IsList pool.pageCount pool.freeHead pool.next pool.prev l
  count : pool.freeCount = l.length

structure Relinked (pool pool' : Pool) : Prop where
  marks : pool'.mark = pool.mark
  rest : pool' =
    { pool with metas := pool'.metas, freeHead := pool'.freeHead, freeCount := pool'.freeCount }

section Relinked
variable {pool pool' pool'' : Pool}

lemma Relinked.refl (pool : Pool) : Relinked pool pool := ⟨rfl, rfl⟩

lemma Relinked.trans (h : Relinked pool pool') (h' : Relinked pool' pool'') : Relinked pool pool'' := by
  refine ⟨h'.marks.trans h.marks, ?_⟩
  have hrest := h'.rest
  rw [h.rest] at hrest
  exact hrest

lemma Relinked.pageCount (h : Relinked pool pool') : pool'.pageCount = pool.pageCount := by
  rw [h.rest]

lemma Relinked.layout (h : Relinked pool pool') : SameLayout pool pool' where
  pageCount := h.pageCount
  extents := by rw [h.rest]
  physical i := congrArg Mark.physical (congrFun h.marks i)

end Relinked

lemma u32_of_le {n cap : ℕ} (hcap : cap ≤ 0xFFFFFFFF) (h : n ≤ cap) : u32 n = n :=
  Nat.mod_eq_of_lt (by omega)

section Operations
variable {pool pool' : Pool} {l : List ℕ} {i : ℕ}

lemma Relinked.setNext (h : Relinked pool pool') (i v : ℕ) : Relinked pool (pool'.setNext i v) :=
  h.trans ⟨pool'.setNext_mark i v, rfl⟩

lemma Relinked.setPrev (h : Relinked pool pool') (i v : ℕ) : Relinked pool (pool'.setPrev i v) := by
  refine h.trans ⟨pool'.setPrev_mark i v, ?_⟩
  unfold Pool.setPrev
  split_ifs <;> rfl

lemma Relinked.setAfter (h : Relinked pool pool') (i v : ℕ) : Relinked pool (pool'.setAfter i v) := by
  refine h.trans ⟨pool'.setAfter_mark i v, ?_⟩
  unfold Pool.setAfter
  split_ifs <;> rfl

lemma OnList.head_le (h : OnList pool l) : pool.freeHead ≤ pool.pageCount := by
  rw [h.links.head_eq]
  cases l with
  | nil => exact le_rfl
  | cons j l => exact (h.links.lt j (mem_cons_self ..)).le

/-! ## Pushing -/

lemma runtimeLinkHead_relinked (pool : Pool) (i : ℕ) : Relinked pool (pool.runtimeLinkHead i) :=
  (((Relinked.refl pool).setNext i _).setPrev i _).setPrev pool.freeHead i |>.trans ⟨rfl, rfl⟩

lemma OnList.linkHead (h : OnList pool l) (hcap : pool.pageCount ≤ 0xFFFFFFFF)
    (hi : i < pool.pageCount) (hnew : i ∉ l) : OnList (pool.runtimeLinkHead i) (i :: l) := by
  refine ⟨?_, congrArg (· + 1) h.count⟩
  have hnext : (pool.runtimeLinkHead i).next = update pool.next i pool.freeHead := by
    change (setPrev _ _ _).next = _
    simp [u32_of_le hcap h.head_le]
  have hprev : (pool.runtimeLinkHead i).prev = if pool.freeHead < pool.pageCount then
      update (update pool.prev i pool.pageCount) pool.freeHead i
      else update pool.prev i pool.pageCount := by
    change (setPrev _ _ _).prev = _
    simp [hi, u32_of_le hcap hi.le, u32_of_le hcap le_rfl]
  rw [(runtimeLinkHead_relinked pool i).pageCount, hnext, hprev]
  exact h.links.push hi hnew

/-! ## Popping -/

lemma popHead_relinked (pool : Pool) : Relinked pool pool.popHead := by
  have hpopped : Relinked pool { pool with
      freeHead := (pool.metas pool.freeHead).nextFree, freeCount := pool.freeCount - 1 } :=
    ⟨rfl, rfl⟩
  exact hpopped.setPrev _ _

lemma OnList.popHead (h : OnList pool (i :: l)) (hcap : pool.pageCount ≤ 0xFFFFFFFF) :
    pool.freeHead = i ∧ OnList pool.popHead l := by
  obtain ⟨rfl, hpop⟩ := h.links.pop
  have hnext : pool.popHead.next = pool.next := setPrev_next ..
  have hprev : pool.popHead.prev = if pool.next pool.freeHead < pool.pageCount then
      update pool.prev (pool.next pool.freeHead) pool.pageCount else pool.prev := by
    refine (setPrev_prev ..).trans ?_
    rw [u32_of_le hcap le_rfl]
    rfl
  have hhead : pool.popHead.freeHead = pool.next pool.freeHead := by
    simp only [popHead, setPrev]
    split_ifs <;> rfl
  have hcount : pool.popHead.freeCount = pool.freeCount - 1 := by
    simp only [popHead, setPrev]
    split_ifs <;> rfl
  refine ⟨rfl, ?_, ?_⟩
  · rw [(popHead_relinked pool).pageCount, hhead, hnext, hprev]
    exact hpop
  · rw [hcount, h.count]
    rfl

/-! ## Unlinking -/

lemma runtimeUnlink_relinked (pool : Pool) (i : ℕ) : Relinked pool (pool.runtimeUnlink i).2 := by
  have hcut := ((((Relinked.refl pool).setAfter (pool.metas i).prevFree
    (pool.metas i).nextFree).setPrev (pool.metas i).nextFree (pool.metas i).prevFree).setNext i
    pool.pageCount).setPrev i pool.pageCount
  simp only [runtimeUnlink]
  split_ifs
  · exact .refl pool
  · exact .refl pool
  · exact .refl pool
  · exact .refl pool
  · exact hcut.trans ⟨rfl, rfl⟩

lemma OnList.runtimeUnlink_eq (h : OnList pool l) (hi : i ∈ l) :
    pool.runtimeUnlink i = (true, (((((pool.setAfter (pool.prev i) (pool.next i)).setPrev
      (pool.next i) (pool.prev i)).setNext i pool.pageCount).setPrev i pool.pageCount).setFreeCount
      (pool.freeCount - 1))) := by
  have hn := h.links.neighbours hi
  simp only [runtimeUnlink]
  rw [if_neg (not_le.mpr (h.links.lt i hi)), if_neg, if_neg, if_neg]
  · rfl
  · exact fun hc => hc.2 (hn.after hc.1)
  · exact fun hc => hc.2 (hn.first hc.1)
  · exact fun hc => hc.2 (hn.before hc.1)

lemma OnList.unlink (h : OnList pool l) (hcap : pool.pageCount ≤ 0xFFFFFFFF) (hi : i ∈ l) :
    (pool.runtimeUnlink i).1 = true ∧ OnList (pool.runtimeUnlink i).2 (l.erase i) := by
  have hrelinked := runtimeUnlink_relinked pool i
  have heq := h.runtimeUnlink_eq hi
  obtain ⟨l₁, l₂, rfl⟩ := append_of_mem hi
  have hsplit := nodup_append.mp h.links.nodup
  have hi₁ : i ∉ l₁ := fun hmem => hsplit.2.2 i hmem i (mem_cons_self ..) rfl
  have hi₂ : i ∉ l₂ := (nodup_cons.mp hsplit.2.1).1
  have herase : (l₁ ++ i :: l₂).erase i = l₁ ++ l₂ := by
    rw [erase_append_right _ hi₁, erase_cons_head]
  have hnext_le : pool.next i ≤ pool.pageCount := h.links.next_le hi
  have hprev_le : pool.prev i ≤ pool.pageCount := h.links.prev_le hi
  rw [herase]
  refine ⟨by rw [heq], ?_, ?_⟩
  · have hlist := h.links.unlink
    have hhead : (pool.runtimeUnlink i).2.freeHead =
        if pool.prev i < pool.pageCount then pool.freeHead else pool.next i := by
      simp [heq]
    have hnext : (pool.runtimeUnlink i).2.next =
        update (if pool.prev i < pool.pageCount then update pool.next (pool.prev i) (pool.next i)
          else pool.next) i pool.pageCount := by
      simp [heq, u32_of_le hcap hnext_le, u32_of_le hcap le_rfl]
    have hprev : (pool.runtimeUnlink i).2.prev =
        update (if pool.next i < pool.pageCount then update pool.prev (pool.next i) (pool.prev i)
          else pool.prev) i pool.pageCount := by
      simp [heq, h.links.lt i hi, u32_of_le hcap hprev_le, u32_of_le hcap le_rfl]
    rw [hrelinked.pageCount, hhead, hnext, hprev]
    refine hlist.congr (fun j hj => update_of_ne ?_ ..) fun j hj => update_of_ne ?_ ..
    all_goals
      rintro rfl
      exact (mem_append.mp hj).elim hi₁ hi₂
  · have hcount := h.count
    rw [length_append, length_cons] at hcount
    rw [heq, length_append]
    change pool.freeCount - 1 = _
    omega

end Operations
end Takibi.Page
