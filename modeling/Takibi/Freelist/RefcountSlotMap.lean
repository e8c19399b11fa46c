import Takibi.Freelist.SlotMap

/-! A slot pool on the allocator whose slots have any number of holders, the last of which frees the slot. -/

namespace Takibi.Freelist
open Function List
variable {N : ℕ}

structure RefcountSlotMap (N : ℕ) where
  core : FreelistCore N
  generation : Fin N → ℕ
  refcount : Fin N → ℕ
  doubleReleaseCount : ℕ

inductive RefcountAllocResult
  | full
  | exhausted
  | allocated (index generation : ℕ)
  deriving DecidableEq, Repr

inductive RefcountRetainResult
  | invalid
  | overflow
  | ok
  deriving DecidableEq, Repr

inductive RefcountReleaseResult
  | invalid
  | stillHeld
  | freed
  deriving DecidableEq, Repr

def refcountPoolInit : RefcountSlotMap N :=
  { core := .init, generation := fun _ => 0, refcount := fun _ => 0, doubleReleaseCount := 0 }

variable (pool : RefcountSlotMap N)

def refcountPoolAlloc : RefcountAllocResult × RefcountSlotMap N :=
  match pool.core.insert with
  | (.empty, core) => (.full, { pool with core })
  | (.exhausted, core) => (.exhausted, { pool with core })
  | (.popped owner, core) =>
    if h : owner.index < N then
      (.allocated owner.index owner.generation, { pool with
          core
          generation := update pool.generation ⟨owner.index, h⟩ owner.generation
          refcount := update pool.refcount ⟨owner.index, h⟩ 0 })
    else (.full, { pool with core })

variable (index generation : ℕ)

def refcountPoolAbandon : Bool × RefcountSlotMap N :=
  if h : index < N then
    if pool.generation ⟨index, h⟩ ≠ generation ∨ generation = 0 ∨ pool.refcount ⟨index, h⟩ ≠ 0 then (false, pool)
    else (true, { pool with
      generation := update pool.generation ⟨index, h⟩ 0
      core := pool.core.remove ⟨index, generation⟩ })
  else (false, pool)

def refcountPoolRetain (index generation limit : ℕ) : RefcountRetainResult × RefcountSlotMap N :=
  if h : index < N then
    if pool.generation ⟨index, h⟩ ≠ generation ∨ generation = 0 then (.invalid, pool)
    else if pool.refcount ⟨index, h⟩ ≥ limit then (.overflow, pool)
    else (.ok, { pool with refcount := update pool.refcount ⟨index, h⟩ (pool.refcount ⟨index, h⟩ + 1) })
  else (.invalid, pool)

def refcountPoolRelease : RefcountReleaseResult × RefcountSlotMap N :=
  if h : index < N then
    if pool.generation ⟨index, h⟩ ≠ generation ∨ generation = 0 then (.invalid, pool)
    else if pool.refcount ⟨index, h⟩ = 0 then
      (.invalid, { pool with doubleReleaseCount := (pool.doubleReleaseCount + 1) % 2 ^ 64 })
    else
      let next := pool.refcount ⟨index, h⟩ - 1
      let counted := { pool with refcount := update pool.refcount ⟨index, h⟩ next }
      if next = 0 then
        (.freed, { counted with
          generation := update pool.generation ⟨index, h⟩ 0
          core := pool.core.remove ⟨index, generation⟩ })
      else (.stillHeld, counted)
  else (.invalid, pool)

def refcountPoolMatches : Bool :=
  if generation = 0 then false
  else if h : index < N then pool.generation ⟨index, h⟩ = generation
  else false

def refcountPoolCount : ℕ :=
  if h : generation ≠ 0 ∧ index < N then
    if pool.generation ⟨index, h.2⟩ = generation then pool.refcount ⟨index, h.2⟩ else 0
  else 0

/-! ## Histories -/

inductive RefcountCall
  | alloc
  | abandon (index generation : ℕ)
  | retain (index generation limit : ℕ)
  | release (index generation : ℕ)

inductive RefcountEvent
  | alloc (result : RefcountAllocResult)
  | abandon (index generation : ℕ) (given : Bool)
  | retain (index generation limit : ℕ) (result : RefcountRetainResult)
  | release (index generation : ℕ) (result : RefcountReleaseResult)
  deriving DecidableEq

def RefcountCall.answer : RefcountCall → RefcountEvent × RefcountSlotMap N
  | alloc => (refcountPoolAlloc pool).map .alloc id
  | abandon index generation => (refcountPoolAbandon pool index generation).map (.abandon index generation) id
  | retain index generation limit =>
    (refcountPoolRetain pool index generation limit).map (.retain index generation limit) id
  | release index generation => (refcountPoolRelease pool index generation).map (.release index generation) id

def refcountStep (s : RefcountSlotMap N × List RefcountEvent) (call : RefcountCall) :
    RefcountSlotMap N × List RefcountEvent := ((call.answer s.1).2, s.2 ++ [(call.answer s.1).1])

def refcountRun (N : ℕ) (calls : List RefcountCall) : RefcountSlotMap N × List RefcountEvent :=
  calls.foldl refcountStep (refcountPoolInit, [])

structure Account where
  allocated : Bool := false
  retains : ℕ := 0
  releases : ℕ := 0
  returns : ℕ := 0
  limit : ℕ := 0

def RefcountEvent.about : RefcountEvent → Option (ℕ × ℕ)
  | alloc (.allocated index generation) => some (index, generation)
  | abandon index generation true => some (index, generation)
  | retain index generation _ .ok => some (index, generation)
  | release index generation .stillHeld => some (index, generation)
  | release index generation .freed => some (index, generation)
  | _ => none

def Account.note (a : Account) : RefcountEvent → Account
  | .alloc _ => { a with allocated := true }
  | .abandon _ _ _ => { a with returns := a.returns + 1 }
  | .retain _ _ limit _ => { a with retains := a.retains + 1, limit := max a.limit limit }
  | .release _ _ .freed => { a with releases := a.releases + 1, returns := a.returns + 1 }
  | .release _ _ _ => { a with releases := a.releases + 1 }

def account (events : List RefcountEvent) (index generation : ℕ) : Account :=
  (events.filter fun e => e.about = some (index, generation)).foldl Account.note {}

def issuedBy (events : List RefcountEvent) : List ℕ :=
  events.filterMap fun
    | .alloc (.allocated _ g) => some g
    | _ => none

/-! ## The books -/

/-- The account of a generation at a slot, where `stamp` is the slot's and `count` its holders: the allocation
is in the slot, has left it once, or was never made. -/
inductive Booked (stamp count generation : ℕ) (a : Account) : Prop
  | held (hne : generation ≠ 0) (hstamp : stamp = generation) (hallocated : a.allocated = true)
      (hretains : a.retains = a.releases + count) (hreturns : a.returns = 0) (hlimit : count ≤ a.limit)
  | left (hstamp : generation = 0 ∨ stamp ≠ generation) (hallocated : a.allocated = true)
      (hretains : a.retains = a.releases) (hreturns : a.returns = 1)
  | unknown (hstamp : generation = 0 ∨ stamp ≠ generation) (hempty : a = {})

structure Books (pool : RefcountSlotMap N) (events : List RefcountEvent) : Prop where
  stamps : Stamped pool.core pool.generation (issuedBy events)
  booked : ∀ (i : Fin N) g, Booked (pool.generation i) (pool.refcount i) g (account events i g)
  outside : ∀ index, N ≤ index → ∀ g, account events index g = {}
  issued : ∀ index g, (account events index g).allocated = true → g ∈ issuedBy events

section Books
variable {pool : RefcountSlotMap N} {events : List RefcountEvent} {e : RefcountEvent} {i : Fin N} {g : ℕ}

lemma account_append (events : List RefcountEvent) (e : RefcountEvent) (index g : ℕ) :
    account (events ++ [e]) index g =
      if e.about = some (index, g) then (account events index g).note e else account events index g := by
  rw [account, filter_append, foldl_append, filter_singleton]
  by_cases habout : e.about = some (index, g)
  · simp [habout, account]
  · simp [habout, account]

section
variable (h : Books pool events)
include h

lemma Books.idle (hissued : issuedBy (events ++ [e]) = issuedBy events)
    (habout : e.about = none) (count : ℕ) :
    Books { pool with doubleReleaseCount := count } (events ++ [e]) := by
  have hsame : ∀ index g, account (events ++ [e]) index g = account events index g := fun index g => by
    rw [account_append, habout, if_neg (fun hnone => nomatch hnone)]
  refine ⟨?_, fun i g => ?_, fun index hindex g => ?_, fun index g hg => ?_⟩
  · rw [hissued]
    exact h.stamps
  · rw [hsame]
    exact h.booked i g
  · rw [hsame, h.outside index hindex]
  · rw [hissued]
    exact h.issued index g (hsame index g ▸ hg)

lemma Books.set {core : FreelistCore N} {stamp count : ℕ}
    (habout : e.about = some (i.val, g))
    (hstamps : Stamped core (update pool.generation i stamp) (issuedBy (events ++ [e])))
    (hissued : issuedBy events ⊆ issuedBy (events ++ [e])) (hg : g ∈ issuedBy (events ++ [e]))
    (hown : Booked stamp count g ((account events i g).note e))
    (hstamp : ∀ g' ≠ g, g' = 0 ∨ pool.generation i ≠ g' ∧ stamp ≠ g') :
    Books { pool with core, generation := update pool.generation i stamp, refcount := update pool.refcount i count }
      (events ++ [e]) := by
  have hself : account (events ++ [e]) i g = (account events i g).note e := by rw [account_append, if_pos habout]
  have hother : ∀ index g', ¬(i.val = index ∧ g = g') →
      account (events ++ [e]) index g' = account events index g' := by
    intro index g' hne
    rw [account_append, habout, if_neg (by simpa using hne)]
  refine ⟨hstamps, fun j g' => ?_, fun index hindex g' => ?_, fun index g' hallocated => ?_⟩
  · dsimp only
    by_cases hji : j = i
    · subst hji
      rw [update_self, update_self]
      by_cases hgg : g' = g
      · rw [hgg, hself]
        exact hown
      · -- Neither before nor now is the other generation in the slot.
        rw [hother _ _ (fun hsame => hgg hsame.2.symm)]
        have hafter := (hstamp g' hgg).imp_right And.right
        cases h.booked j g' with
        | held hne hin => exact absurd hin ((hstamp g' hgg).resolve_left hne).1
        | left _ hallocated hretains hreturns => exact .left hafter hallocated hretains hreturns
        | unknown _ hempty => exact .unknown hafter hempty
    · rw [update_of_ne hji, update_of_ne hji, hother _ _ fun hsame => hji (Fin.ext hsame.1.symm)]
      exact h.booked j g'
  · rw [hother _ _ fun hsame => by omega, h.outside index hindex]
  · by_cases hsame : i.val = index ∧ g = g'
    · exact hsame.2 ▸ hg
    · rw [hother _ _ hsame] at hallocated
      exact hissued (h.issued index g' hallocated)

lemma Books.alloc : Books (refcountPoolAlloc pool).2 (events ++ [.alloc (refcountPoolAlloc pool).1]) := by
  unfold refcountPoolAlloc
  obtain ⟨hempty, -⟩ | ⟨hended, -⟩ | ⟨i, hpop, hfree, hleft, hnew, hstamps⟩ := h.stamps.insert_cases
  · rw [hempty]
    exact h.idle (by simp [issuedBy]) rfl _
  · rw [hended]
    exact h.idle (by simp [issuedBy]) rfl _
  · rw [show pool.core.insert = (.popped ⟨i, pool.core.nextGeneration⟩, pool.core.insert.2) from Prod.ext hpop rfl]
    dsimp only
    rw [dif_pos i.isLt]
    have hissued : issuedBy (events ++ [.alloc (.allocated i pool.core.nextGeneration)]) =
        issuedBy events ++ [pool.core.nextGeneration] := by simp [issuedBy]
    refine h.set (g := pool.core.nextGeneration) rfl (by rw [hissued]; exact hstamps) (by simp [hissued])
      (by simp [hissued]) ?_ fun g' hne => ?_
    · -- The generation is new, so the account is empty until now.
      cases h.booked i pool.core.nextGeneration with
      | held _ _ hallocated | left _ hallocated => exact absurd (h.issued _ _ hallocated) hnew
      | unknown _ hempty =>
        rw [hempty]
        exact .held hleft rfl rfl rfl rfl le_rfl
    · rw [hfree]
      exact or_iff_not_imp_left.mpr fun hzero => ⟨Ne.symm hzero, hne.symm⟩

structure InSlot (pool : RefcountSlotMap N) (i : Fin N) (g : ℕ) : Prop where
  ne : g ≠ 0
  stamp : pool.generation i = g

lemma Books.own (hin : InSlot pool i g) : (account events i g).allocated = true ∧
      (account events i g).retains = (account events i g).releases + pool.refcount i ∧
      (account events i g).returns = 0 ∧ pool.refcount i ≤ (account events i g).limit := by
  cases h.booked i g with
  | held _ _ hallocated hretains hreturns hlimit => exact ⟨hallocated, hretains, hreturns, hlimit⟩
  | left hstamp | unknown hstamp => exact absurd hin.stamp (hstamp.resolve_left hin.ne)

end

section InSlot
variable {count : ℕ} (hissued : issuedBy (events ++ [e]) = issuedBy events)
  (habout : e.about = some (i.val, g))

include hissued habout

lemma Books.hold (h : Books pool events) (hin : InSlot pool i g)
    (hown : Booked g count g ((account events i g).note e)) :
    Books { pool with refcount := update pool.refcount i count } (events ++ [e]) := by
  have hsame : update pool.generation i g = pool.generation := by rw [← hin.stamp, update_eq_self]
  have hstamps : Stamped pool.core (update pool.generation i g) (issuedBy (events ++ [e])) := by
    rw [hsame, hissued]
    exact h.stamps
  have hset := h.set habout hstamps (by rw [hissued]; exact fun _ hx => hx)
    (by rw [hissued]; exact hin.stamp ▸ h.stamps.stamped i (hin.stamp ▸ hin.ne)) hown
    fun g' hne => .inr ⟨hin.stamp ▸ hne.symm, hne.symm⟩
  rwa [hsame] at hset

lemma Books.leave (h : Books pool events) (hin : InSlot pool i g)
    (hown : Booked 0 count g ((account events i g).note e)) :
    Books { pool with
      core := pool.core.addIndex i, generation := update pool.generation i 0,
      refcount := update pool.refcount i count } (events ++ [e]) := by
  refine h.set habout ?_ (by rw [hissued]; exact fun _ hx => hx) ?_ hown fun g' hne =>
    or_iff_not_imp_left.mpr fun hzero => ⟨hin.stamp ▸ hne.symm, Ne.symm hzero⟩
  · rw [hissued]
    exact h.stamps.remove (hin.stamp ▸ hin.ne)
  · rw [hissued]
    exact hin.stamp ▸ h.stamps.stamped i (hin.stamp ▸ hin.ne)

end InSlot

lemma Books.abandon (h : Books pool events) (index g : ℕ) :
    Books (refcountPoolAbandon pool index g).2 (events ++ [.abandon index g (refcountPoolAbandon pool index g).1]) := by
  have hissued : ∀ given, issuedBy (events ++ [.abandon index g given]) = issuedBy events := by simp [issuedBy]
  unfold refcountPoolAbandon
  split_ifs with hindex hrefused
  · exact h.idle (hissued _) rfl _
  · simp only [not_or, not_not] at hrefused
    obtain ⟨hstamp, hne, hzero⟩ := hrefused
    have hin : InSlot pool ⟨index, hindex⟩ g := ⟨hne, hstamp⟩
    obtain ⟨hallocated, hretains, hreturns, -⟩ := h.own hin
    have hown : Booked 0 0 g ((account events index g).note (.abandon index g true)) :=
      .left (.inr (Ne.symm hne)) hallocated (by rw [hzero] at hretains; exact hretains) (congrArg (· + 1) hreturns)
    have hleave := h.leave (hissued true) rfl hin hown
    rwa [show update pool.refcount ⟨index, hindex⟩ 0 = pool.refcount by rw [← hzero, update_eq_self]] at hleave
  · exact h.idle (hissued _) rfl _

lemma Books.retain (h : Books pool events) (index g limit : ℕ) :
    Books (refcountPoolRetain pool index g limit).2
      (events ++ [.retain index g limit (refcountPoolRetain pool index g limit).1]) := by
  have hissued : ∀ result, issuedBy (events ++ [.retain index g limit result]) = issuedBy events := by simp [issuedBy]
  unfold refcountPoolRetain
  split_ifs with hindex hrefused hfull
  · exact h.idle (hissued _) rfl _
  · exact h.idle (hissued _) rfl _
  · rw [not_or, not_not] at hrefused
    have hin : InSlot pool ⟨index, hindex⟩ g := ⟨hrefused.2, hrefused.1⟩
    obtain ⟨hallocated, hretains, hreturns, -⟩ := h.own hin
    refine h.hold (hissued .ok) rfl hin (.held hin.ne rfl hallocated ?_ hreturns ?_)
    · exact congrArg (· + 1) hretains
    · exact le_max_of_le_right (not_le.mp hfull)
  · exact h.idle (hissued _) rfl _

lemma Books.release (h : Books pool events) (index g : ℕ) :
    Books (refcountPoolRelease pool index g).2
      (events ++ [.release index g (refcountPoolRelease pool index g).1]) := by
  have hissued : ∀ result, issuedBy (events ++ [.release index g result]) = issuedBy events := by simp [issuedBy]
  unfold refcountPoolRelease
  dsimp only
  split_ifs with hindex hrefused hzero hlast
  · exact h.idle (hissued _) rfl _
  · exact h.idle (hissued _) rfl _
  · rw [not_or, not_not] at hrefused
    have hin : InSlot pool ⟨index, hindex⟩ g := ⟨hrefused.2, hrefused.1⟩
    obtain ⟨hallocated, hretains, hreturns, -⟩ := h.own hin
    refine h.leave (hissued .freed) rfl hin (.left (.inr hin.ne.symm) hallocated ?_ (congrArg (· + 1) hreturns))
    exact hretains.trans (congrArg (_ + ·) (by omega))
  · rw [not_or, not_not] at hrefused
    have hin : InSlot pool ⟨index, hindex⟩ g := ⟨hrefused.2, hrefused.1⟩
    obtain ⟨hallocated, hretains, hreturns, hlimit⟩ := h.own hin
    refine h.hold (hissued .stillHeld) rfl hin (.held hin.ne rfl hallocated ?_ hreturns ((Nat.sub_le _ 1).trans hlimit))
    refine hretains.trans ?_
    change _ = (account events (⟨index, hindex⟩ : Fin N) g).releases + 1 + _
    omega
  · exact h.idle (hissued _) rfl _

lemma books_run (N : ℕ) (calls : List RefcountCall) : Books (refcountRun N calls).1 (refcountRun N calls).2 := by
  induction calls using reverseRecOn with
  | nil =>
    exact ⟨stamped_init N, fun i g => .unknown (eq_or_ne g 0 |>.imp_right Ne.symm) rfl, fun _ _ _ => rfl,
      fun _ _ h => nomatch h⟩
  | append_singleton calls call ih =>
    rw [refcountRun, foldl_append]
    cases call with
    | alloc => exact ih.alloc
    | abandon index g => exact ih.abandon index g
    | retain index g limit => exact ih.retain index g limit
    | release index g => exact ih.release index g

/-! ## Calls on a pool with its books -/

lemma matches_iff_inSlot (index g : ℕ) :
    refcountPoolMatches pool index g = true ↔ ∃ h : index < N, InSlot pool ⟨index, h⟩ g := by
  unfold refcountPoolMatches
  split_ifs with hzero hindex
  · exact iff_of_false id fun ⟨_, hin⟩ => hin.ne hzero
  · rw [decide_eq_true_eq]
    exact ⟨fun hstamp => ⟨hindex, hzero, hstamp⟩, fun ⟨_, hin⟩ => hin.stamp⟩
  · exact iff_of_false id fun ⟨hlt, _⟩ => hindex hlt

lemma not_inSlot {index : ℕ} (hstale : refcountPoolMatches pool index g = false) (hindex : index < N) :
    pool.generation ⟨index, hindex⟩ ≠ g ∨ g = 0 := by
  by_contra hin
  rw [not_or, not_not] at hin
  have hmatches : refcountPoolMatches pool index g = true := (matches_iff_inSlot index g).mpr ⟨hindex, hin.2, hin.1⟩
  exact absurd hmatches (hstale ▸ Bool.false_ne_true)

lemma refcountPoolCount_inSlot (hin : InSlot pool i g) : refcountPoolCount pool i g = pool.refcount i := by
  rw [refcountPoolCount, dif_pos ⟨hin.ne, i.isLt⟩, if_pos hin.stamp]

lemma refcountPoolCount_stale {index : ℕ} (hstale : refcountPoolMatches pool index g = false) :
    refcountPoolCount pool index g = 0 := by
  unfold refcountPoolCount
  split_ifs with hlt hstamp
  · exact absurd hstamp ((not_inSlot hstale hlt.2).resolve_right hlt.1)
  all_goals rfl

structure Refuses (pool : RefcountSlotMap N) (index g : ℕ) : Prop where
  abandon : refcountPoolAbandon pool index g = (false, pool)
  release : refcountPoolRelease pool index g = (.invalid, pool)
  retain : ∀ limit, refcountPoolRetain pool index g limit = (.invalid, pool)

lemma refuses_of_stale {index : ℕ} (hstale : refcountPoolMatches pool index g = false) :
    Refuses pool index g := by
  by_cases hindex : index < N
  · have hout := not_inSlot hstale hindex
    refine ⟨?_, ?_, fun limit => ?_⟩
    · rw [refcountPoolAbandon, dif_pos hindex, if_pos (hout.imp_right Or.inl)]
    · rw [refcountPoolRelease, dif_pos hindex, if_pos hout]
    · rw [refcountPoolRetain, dif_pos hindex, if_pos hout]
  · exact ⟨dif_neg hindex, dif_neg hindex, fun limit => dif_neg hindex⟩

structure Exact (pool : RefcountSlotMap N) (index g : ℕ) (a : Account) : Prop where
  holders : a.retains = a.releases + refcountPoolCount pool index g
  returns : a.returns = if a.allocated = true ∧ refcountPoolMatches pool index g = false then 1 else 0
  limit : refcountPoolCount pool index g ≤ a.limit

lemma Books.exact (h : Books pool events) (index g : ℕ) : Exact pool index g (account events index g) := by
  cases hmatches : refcountPoolMatches pool index g with
  | true =>
    obtain ⟨hindex, hin⟩ := (matches_iff_inSlot index g).mp hmatches
    obtain ⟨-, hretains, hreturns, hlimit⟩ := h.own hin
    have hcount : refcountPoolCount pool index g = pool.refcount ⟨index, hindex⟩ := refcountPoolCount_inSlot hin
    exact ⟨hcount ▸ hretains, by simpa [hmatches] using hreturns, hcount ▸ hlimit⟩
  | false =>
    have hcount := refcountPoolCount_stale hmatches
    by_cases hindex : index < N
    · cases h.booked ⟨index, hindex⟩ g with
      | held hne hstamp => exact absurd hstamp ((not_inSlot hmatches hindex).resolve_right hne)
      | left _ hallocated hretains hreturns =>
        exact ⟨hcount ▸ hretains, by simpa [hmatches, hallocated] using hreturns, hcount ▸ Nat.zero_le _⟩
      | unknown _ hempty =>
        rw [hempty]
        exact ⟨by rw [hcount], rfl, hcount.le⟩
    · rw [h.outside index (not_lt.mp hindex)]
      exact ⟨by rw [hcount], rfl, hcount.le⟩

end Books

def Listed (core : FreelistCore N) (indices : List ℕ) : Prop := ∃ l, Free core l ∧ l.map Fin.val = indices

structure Frees (pool : RefcountSlotMap N) (l : List ℕ) (index g : ℕ) : Prop where
  release : (refcountPoolRelease pool index g).1 = .freed ↔ refcountPoolCount pool index g = 1
  released : Listed (refcountPoolRelease pool index g).2.core
    (if (refcountPoolRelease pool index g).1 = .freed then index :: l else l)
  abandon : (refcountPoolAbandon pool index g).1 = true ↔
    refcountPoolMatches pool index g = true ∧ refcountPoolCount pool index g = 0
  abandoned : Listed (refcountPoolAbandon pool index g).2.core
    (if (refcountPoolAbandon pool index g).1 = true then index :: l else l)

lemma frees {pool : RefcountSlotMap N} {l : List (Fin N)} (hl : Free pool.core l)
    (hmem : ∀ i, i ∈ l ↔ pool.generation i = 0) (index g : ℕ) : Frees pool (l.map Fin.val) index g := by
  have hsame : Listed pool.core (l.map Fin.val) := ⟨l, hl, rfl⟩
  cases hmatches : refcountPoolMatches pool index g with
  | false =>
    obtain ⟨habandon, hrelease, -⟩ := refuses_of_stale hmatches
    have hcount := refcountPoolCount_stale hmatches
    constructor
    · simp [hrelease, hcount]
    · simpa [hrelease] using hsame
    · simp [habandon, hmatches]
    · simpa [habandon] using hsame
  | true =>
    obtain ⟨hindex, hin⟩ := (matches_iff_inSlot index g).mp hmatches
    have hcount : refcountPoolCount pool index g = pool.refcount ⟨index, hindex⟩ := refcountPoolCount_inSlot hin
    have hnew : ⟨index, hindex⟩ ∉ l := fun hfree => hin.ne (hin.stamp.symm.trans ((hmem _).mp hfree))
    have hback : Listed (pool.core.addIndex index) (index :: l.map Fin.val) := ⟨_, hl.addIndex hnew, rfl⟩
    have hmatch : ¬(pool.generation ⟨index, hindex⟩ ≠ g ∨ g = 0) := not_or.mpr ⟨not_not.mpr hin.stamp, hin.ne⟩
    have hrelease : ((refcountPoolRelease pool index g).1 = .freed ↔ pool.refcount ⟨index, hindex⟩ = 1) ∧
        Listed (refcountPoolRelease pool index g).2.core
          (if (refcountPoolRelease pool index g).1 = .freed then index :: l.map Fin.val else l.map Fin.val) := by
      rw [refcountPoolRelease, dif_pos hindex, if_neg hmatch]
      by_cases hzero : pool.refcount ⟨index, hindex⟩ = 0
      · simpa [hzero] using hsame
      · rw [if_neg hzero]
        dsimp only
        by_cases hlast : pool.refcount ⟨index, hindex⟩ - 1 = 0
        · rw [if_pos hlast, if_pos rfl]
          exact ⟨iff_of_true rfl (by omega), hback⟩
        · rw [if_neg hlast, if_neg (fun hfalse => nomatch hfalse)]
          exact ⟨iff_of_false (fun hfalse => nomatch hfalse) (by omega), hsame⟩
    have habandon : ((refcountPoolAbandon pool index g).1 = true ↔ pool.refcount ⟨index, hindex⟩ = 0) ∧
        Listed (refcountPoolAbandon pool index g).2.core
          (if (refcountPoolAbandon pool index g).1 = true then index :: l.map Fin.val else l.map Fin.val) := by
      rw [refcountPoolAbandon, dif_pos hindex]
      by_cases hzero : pool.refcount ⟨index, hindex⟩ = 0
      · rw [if_neg (by simp [hin.stamp, hin.ne, hzero]), if_pos rfl]
        exact ⟨iff_of_true rfl hzero, hback⟩
      · rw [if_pos (.inr (.inr hzero)), if_neg Bool.false_ne_true]
        exact ⟨iff_of_false Bool.false_ne_true hzero, hsame⟩
    refine ⟨hcount ▸ hrelease.1, hrelease.2, ?_, habandon.2⟩
    rw [hcount, habandon.1, hmatches, eq_self, true_and]

/-- After any calls, an allocation has as many holders as it was retained without being released,
at most the largest limit that admitted one; its slot goes back to the chain once, at the release
of the last holder or when it is abandoned without one; and no call under another name changes
anything. -/
theorem refcount_exact (N : ℕ) (calls : List RefcountCall) : let pool := (refcountRun N calls).1
    let events := (refcountRun N calls).2
    (∀ index g, Exact pool index g (account events index g)) ∧
    (∃ l, Listed pool.core l ∧ l.Nodup ∧ (∀ i : Fin N, i.val ∈ l ↔ pool.generation i = 0) ∧
      ∀ index g, Frees pool l index g) ∧
    ∀ index g, refcountPoolMatches pool index g = false → Refuses pool index g := by
  intro pool events
  have h : Books pool events := books_run N calls
  obtain ⟨l, hl, hmem⟩ := h.stamps.free
  refine ⟨h.exact, ⟨l.map Fin.val, ⟨l, hl, rfl⟩, hl.nodup.map Fin.val_injective, fun i => ?_, frees hl hmem⟩,
    fun index g => refuses_of_stale⟩
  rw [mem_map_of_injective Fin.val_injective, hmem]

end Takibi.Freelist
