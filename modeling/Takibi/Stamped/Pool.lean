import Mathlib.Tactic

/-! A pool whose records are named by their address and the generation of their occupancy, and reference
counts over such names. A name outlives its record: the pool refuses it once the address is vacated or given
to another record. -/

namespace Takibi.Stamped
open Function List Option

structure Handle where
  slot : ℕ
  generation : ℕ
  deriving DecidableEq, Repr

variable {α : Type*}

structure Pool (α : Type*) where
  generation : ℕ → ℕ
  occupant : ℕ → Option α
  retires : Handle → ℕ
  occupied_pos : ∀ slot, (occupant slot).isSome → 0 < generation slot
  retires_eq : ∀ h : Handle, retires h =
    if 0 < h.generation ∧ (h.generation < generation h.slot ∨
      (h.generation = generation h.slot ∧ (occupant h.slot).isNone)) then 1 else 0

namespace Pool

def empty : Pool α where
  generation _ := 0
  occupant _ := none
  retires _ := 0
  occupied_pos := by simp
  retires_eq h := by rw [if_neg (by simp; omega)]

section Operations
variable (pool : Pool α) (h : Handle)

def find : Option α :=
  if pool.generation h.slot = h.generation then pool.occupant h.slot else none

def Minted : Prop := 0 < h.generation ∧ h.generation ≤ pool.generation h.slot

instance (h : Handle) : Decidable (pool.Minted h) := inferInstanceAs (Decidable (_ ∧ _))

def alloc (slot : ℕ) (v : α) : Option (Handle × Pool α) :=
  if vacant : pool.occupant slot = none then
    some (⟨slot, pool.generation slot + 1⟩,
      { generation := update pool.generation slot (pool.generation slot + 1)
        occupant := update pool.occupant slot (some v)
        retires := pool.retires
        occupied_pos := fun other => by
          by_cases same : other = slot
          · simp [same]
          · simpa [same] using pool.occupied_pos other
        retires_eq := fun h => by
          rw [pool.retires_eq h]
          by_cases same : h.slot = slot
          · simp only [same, update_self, vacant, isNone_none, and_true]
            congr 1
            simp
            omega
          · simp [same] })
  else none

def modify (f : α → α) : Pool α where
  generation := pool.generation
  occupant := update pool.occupant h.slot
    (if pool.generation h.slot = h.generation then (pool.occupant h.slot).map f else pool.occupant h.slot)
  retires := pool.retires
  occupied_pos slot := by
    by_cases same : slot = h.slot
    · subst same
      have := pool.occupied_pos h.slot
      simp only [update_self]
      split <;> simpa using this
    · simpa [same] using pool.occupied_pos slot
  retires_eq other := by
    rw [pool.retires_eq other]
    by_cases same : other.slot = h.slot
    · have kept : (if pool.generation h.slot = h.generation then (pool.occupant h.slot).map f
          else pool.occupant h.slot).isNone = (pool.occupant h.slot).isNone := by split <;> simp
      simp only [same, update_self, kept]
    · simp [same]

def retire : Pool α :=
  if live : (pool.find h).isSome then
    { generation := pool.generation
      occupant := update pool.occupant h.slot none
      retires := update pool.retires h (pool.retires h + 1)
      occupied_pos := fun slot => by
        by_cases same : slot = h.slot
        · simp [same]
        · simpa [same] using pool.occupied_pos slot
      retires_eq := fun other => by
        have stamp : pool.generation h.slot = h.generation := by
          by_contra stale
          simp [find, stale] at live
        have occupied : (pool.occupant h.slot).isSome := by simpa [find, stamp] using live
        have positive := pool.occupied_pos _ occupied
        by_cases same : other = h
        · subst same
          have filled : (pool.occupant other.slot).isNone = false := by
            cases hv : pool.occupant other.slot <;> simp [hv] at occupied ⊢
          simp only [update_self, isNone_none, and_true]
          rw [pool.retires_eq other, if_neg (by simp [filled, stamp]), if_pos (by omega)]
        · rw [update_of_ne same, pool.retires_eq other]
          by_cases slot : other.slot = h.slot
          · have stale : other.generation ≠ pool.generation h.slot := fun eq =>
              same (by cases other; cases h; simp_all)
            simp [slot, stale]
          · simp [slot] }
  else pool

end Operations

variable {pool pool' : Pool α} {h h' : Handle} {v : α}

lemma find_minted (hv : pool.find h = some v) : pool.Minted h := by
  unfold find at hv
  split at hv
  case isTrue stamp =>
    have := pool.occupied_pos h.slot (by simp [hv])
    exact ⟨by omega, by omega⟩
  case isFalse => cases hv

lemma retires_of_find (hv : pool.find h = some v) : pool.retires h = 0 := by
  unfold find at hv
  split at hv
  case isTrue stamp => simp [pool.retires_eq, hv, stamp]
  case isFalse => cases hv

lemma retires_of_minted (minted : pool.Minted h) (gone : pool.find h = none) : pool.retires h = 1 := by
  obtain ⟨positive, le⟩ := minted
  rw [pool.retires_eq, if_pos]
  refine ⟨positive, le.lt_or_eq.imp_right fun eq => ⟨eq, ?_⟩⟩
  simpa [find, eq] using gone

@[simp] lemma find_empty : (empty : Pool α).find h = none := ite_self none

lemma minted_empty : ¬(empty : Pool α).Minted h := fun minted => by
  have := minted.1.trans_le minted.2
  simp [empty] at this

lemma alloc_eq_some {slot : ℕ} (hv : pool.alloc slot v = some (h, pool')) :
    h = ⟨slot, pool.generation slot + 1⟩ ∧ pool.occupant slot = none ∧
      pool'.generation = update pool.generation slot (pool.generation slot + 1) ∧
      pool'.occupant = update pool.occupant slot (some v) := by
  unfold alloc at hv
  split at hv
  case isTrue vacant =>
    cases hv
    exact ⟨rfl, vacant, rfl, rfl⟩
  case isFalse => cases hv

section Alloc
variable {slot : ℕ} (hv : pool.alloc slot v = some (h, pool'))
include hv

lemma find_before_alloc : pool.find h = none := by
  obtain ⟨rfl, -, -, -⟩ := alloc_eq_some hv
  simp [find]

lemma not_minted_before_alloc : ¬pool.Minted h := by
  obtain ⟨rfl, -, -, -⟩ := alloc_eq_some hv
  exact fun minted => absurd minted.2 (by simp)

lemma find_alloc_self : pool'.find h = some v := by
  obtain ⟨rfl, -, generation, occupant⟩ := alloc_eq_some hv
  simp [find, generation, occupant]

lemma find_alloc_of_ne (ne : h' ≠ h) : pool'.find h' = pool.find h' := by
  obtain ⟨rfl, vacant, generation, occupant⟩ := alloc_eq_some hv
  unfold find
  rw [generation, occupant]
  by_cases same : h'.slot = slot
  · have stale : pool.generation slot + 1 ≠ h'.generation := fun eq => ne (by cases h'; simp_all)
    simp [same, stale, vacant]
  · simp [same]

lemma minted_alloc : pool'.Minted h' ↔ pool.Minted h' ∨ h' = h := by
  obtain ⟨rfl, -, generation, -⟩ := alloc_eq_some hv
  unfold Minted
  rw [generation]
  obtain ⟨slot', generation'⟩ := h'
  by_cases same : slot' = slot
  · subst same
    simp
    omega
  · simp [same]

end Alloc

variable (f : α → α)

@[simp] lemma find_modify_self : (pool.modify h f).find h = (pool.find h).map f := by
  unfold find modify
  split <;> simp_all

lemma find_modify_of_ne (ne : h' ≠ h) : (pool.modify h f).find h' = pool.find h' := by
  unfold find modify
  by_cases same : h'.slot = h.slot
  · by_cases stamp : pool.generation h.slot = h'.generation
    · have stale : pool.generation h.slot ≠ h.generation := fun eq => ne (by cases h; cases h'; simp_all)
      simp [same, stale]
    · simp [same, stamp]
  · simp [same]

lemma find_modify : (pool.modify h f).find h' = if h' = h then (pool.find h').map f else pool.find h' := by
  split
  case isTrue same => rw [same, find_modify_self]
  case isFalse ne => exact find_modify_of_ne f ne

lemma find_retire : (pool.retire h).find h' = if h' = h then none else pool.find h' := by
  unfold retire
  split
  case isTrue live =>
    by_cases same : h' = h
    · simp [same, find]
    · rw [if_neg same]
      unfold find
      by_cases slot : h'.slot = h.slot
      · have stamp : pool.generation h.slot = h.generation := by
          by_contra stale
          simp [find, stale] at live
        have stale : pool.generation h.slot ≠ h'.generation := fun eq =>
          same (by cases h; cases h'; simp_all)
        simp [slot, stale]
      · simp [slot]
  case isFalse gone =>
    by_cases same : h' = h
    · rw [if_pos same, same]
      simpa using gone
    · rw [if_neg same]

@[simp] lemma minted_retire : (pool.retire h).Minted h' ↔ pool.Minted h' := by
  unfold retire
  split <;> exact Iff.rfl

end Pool

structure Counted (refs : α → ℕ) (pool : Pool α) (names : List Handle) : Prop where
  count : ∀ h v, pool.find h = some v → refs v = names.count h
  live : ∀ h ∈ names, ∃ v, pool.find h = some v

namespace Counted
open Pool
variable {refs : α → ℕ} {pool pool' : Pool α} {names names' : List Handle} {h : Handle} {v : α}

lemma empty : Counted refs (Pool.empty : Pool α) [] := ⟨by simp, by simp⟩

lemma perm (counted : Counted refs pool names) (perm : names.Perm names') : Counted refs pool names' where
  count h v hv := (counted.count h v hv).trans (perm.count_eq h)
  live h mem := counted.live h (perm.mem_iff.mpr mem)

lemma retain (counted : Counted refs pool names) (hv : pool.find h = some v) {f : α → α}
    (hf : refs (f v) = refs v + 1) : Counted refs (pool.modify h f) (h :: names) := by
  constructor
  · intro other w hw
    rw [find_modify] at hw
    split at hw
    case isTrue same =>
      subst same
      rw [hv] at hw
      cases hw
      rw [hf, counted.count _ v hv, count_cons_self]
    case isFalse ne =>
      rw [counted.count _ w hw, count_cons_of_ne (Ne.symm ne)]
  · intro other mem
    rw [find_modify]
    split
    case isTrue same => exact ⟨f v, by rw [same, hv]; rfl⟩
    case isFalse ne => exact counted.live other ((mem_cons.mp mem).resolve_left ne)

lemma release (counted : Counted refs pool (h :: names)) (hv : pool.find h = some v) (mem : h ∈ names)
    {f : α → α} (hf : refs (f v) = refs v - 1) : Counted refs (pool.modify h f) names := by
  constructor
  · intro other w hw
    rw [find_modify] at hw
    split at hw
    case isTrue same =>
      subst same
      rw [hv] at hw
      cases hw
      have := counted.count _ v hv
      rw [count_cons_self] at this
      omega
    case isFalse ne =>
      rw [counted.count _ w hw, count_cons_of_ne (Ne.symm ne)]
  · intro other memOther
    rw [find_modify]
    split
    case isTrue same => exact ⟨f v, by rw [same, hv]; rfl⟩
    case isFalse => exact counted.live other (mem_cons_of_mem _ memOther)

lemma retire (counted : Counted refs pool names) (unnamed : h ∉ names) :
    Counted refs (pool.retire h) names := by
  constructor
  · intro other w hw
    rw [find_retire] at hw
    split at hw
    case isTrue => cases hw
    case isFalse => exact counted.count _ w hw
  · intro other mem
    have ne : other ≠ h := fun same => unnamed (same ▸ mem)
    rw [find_retire, if_neg ne]
    exact counted.live other mem

lemma retire_last (counted : Counted refs pool (h :: names)) (unnamed : h ∉ names)
    (gone : ∀ h', pool'.find h' = if h' = h then none else pool.find h') : Counted refs pool' names := by
  constructor
  · intro other w hw
    rw [gone] at hw
    split at hw
    case isTrue => cases hw
    case isFalse ne => rw [counted.count _ w hw, count_cons_of_ne (Ne.symm ne)]
  · intro other mem
    have ne : other ≠ h := fun same => unnamed (same ▸ mem)
    rw [gone, if_neg ne]
    exact counted.live other (mem_cons_of_mem _ mem)

lemma not_mem_of_alloc (counted : Counted refs pool names) {slot : ℕ}
    (hv : pool.alloc slot v = some (h, pool')) : h ∉ names := fun mem => by
  obtain ⟨w, hw⟩ := counted.live h mem
  rw [find_before_alloc hv] at hw
  cases hw

lemma alloc (counted : Counted refs pool names) {slot : ℕ}
    (hv : pool.alloc slot v = some (h, pool')) (zero : refs v = 0) : Counted refs pool' names := by
  have fresh := counted.not_mem_of_alloc hv
  constructor
  · intro other w hw
    by_cases same : other = h
    · subst same
      rw [find_alloc_self hv] at hw
      cases hw
      rw [zero, count_eq_zero_of_not_mem fresh]
    · rw [find_alloc_of_ne hv same] at hw
      exact counted.count _ w hw
  · intro other mem
    have ne : other ≠ h := fun same => fresh (same ▸ mem)
    rw [find_alloc_of_ne hv ne]
    exact counted.live other mem

end Counted
end Takibi.Stamped
