import Takibi.Linked.Chain
import Takibi.Control.Settle

/-! The index-linked free-slot allocator: `N` slots whose free ones are chained through an array of links. -/

namespace Takibi.Freelist
open Linked Control Function List Option Nat

def freelistLastGeneration : ℕ := 0xFFFFFFFFFFFFFFFF

/-- The counter after issuing a generation; zero is none left. -/
def freelistGenerationAfter (generation : ℕ) : ℕ :=
  if generation = freelistLastGeneration then 0 else generation + 1

structure FreelistCore (N : ℕ) where
  nextFree : Fin N → ℕ
  freeHead : ℕ
  nextGeneration : ℕ

structure FreelistOwner where
  index : ℕ
  generation : ℕ
  deriving DecidableEq, Repr

inductive FreelistPopResult
  | empty
  | exhausted
  | popped (owner : FreelistOwner)
  deriving DecidableEq, Repr

variable {N : ℕ}

namespace FreelistCore
variable (core : FreelistCore N)

def init : FreelistCore N := { nextFree := fun i => i + 1, freeHead := 0, nextGeneration := 1 }

def addIndex (index : ℕ) : FreelistCore N :=
  if h : index < N then
    { core with nextFree := update core.nextFree ⟨index, h⟩ core.freeHead, freeHead := index }
  else core

def insertBegin : Option ℕ := if core.freeHead < N then some core.freeHead else none

def insertCommit (head : ℕ) : FreelistPopResult × FreelistCore N :=
  if core.nextGeneration = 0 then (.exhausted, core)
  else if h : head < N then
    (.popped ⟨head, core.nextGeneration⟩, { core with
      freeHead := core.nextFree ⟨head, h⟩
      nextGeneration := freelistGenerationAfter core.nextGeneration })
  else (.empty, core)

def insert : FreelistPopResult × FreelistCore N :=
  match core.insertBegin with
  | none => (.empty, core)
  | some head => core.insertCommit head

def remove (owner : FreelistOwner) : FreelistCore N := core.addIndex owner.index

end FreelistCore

/-! ## The list under allocation and release -/

variable (core : FreelistCore N)

def Free (l : List (Fin N)) : Prop := Chain core.nextFree core.freeHead l N

section Allocation
variable {core : FreelistCore N} {l : List (Fin N)}

lemma free_init : Free (.init : FreelistCore N) (finRange N) := by
  -- From slot `k` on, the slots are those of the range behind the first `k`.
  have hfrom : ∀ k ≤ N, Chain (fun i : Fin N => i.val + 1) k ((finRange N).drop k) N := by
    intro k hk
    induction hk using decreasingInduction with
    | self =>
      rw [drop_of_length_le (by simp)]
      exact .nil le_rfl
    | of_succ k hk ih =>
      rw [drop_eq_getElem_cons (by simpa using hk)]
      exact ⟨by simp, by simpa using ih⟩
  exact hfrom 0 (zero_le N)

lemma exists_free_init (N : ℕ) : ∃ l, Free (.init : FreelistCore N) l ∧ ∀ i, i ∈ l :=
  ⟨_, free_init, mem_finRange⟩

lemma Free.addIndex (h : Free core l) {i : Fin N} (hi : i ∉ l) : Free (core.addIndex i) (i :: l) := by
  rw [FreelistCore.addIndex, dif_pos i.isLt]
  refine ⟨rfl, ?_⟩
  dsimp only
  rw [update_self]
  exact h.update hi _

lemma Free.insert (h : Free core l) : match l with
    | [] => core.insert = (.empty, core)
    | i :: l =>
      if core.nextGeneration = 0 then core.insert = (.exhausted, core)
      else core.insert.1 = .popped ⟨i, core.nextGeneration⟩ ∧ Free core.insert.2 l ∧
        core.insert.2.nextGeneration = freelistGenerationAfter core.nextGeneration := by
  cases l with
  | nil =>
    have hempty : core.insertBegin = none := if_neg (not_lt.mpr h.1.ge)
    dsimp only
    rw [FreelistCore.insert, hempty]
  | cons i l =>
    have hhead : core.insertBegin = some i.val := by
      rw [FreelistCore.insertBegin, h.1, if_pos i.isLt]
    dsimp only
    rw [FreelistCore.insert, hhead]
    dsimp only
    rw [FreelistCore.insertCommit, dif_pos i.isLt]
    split_ifs
    · rfl
    · exact ⟨rfl, h.2, rfl⟩

end Allocation

/-! ## Taking a range off the list -/

def InRange (first count i : ℕ) : Prop := first ≤ i ∧ i - first < count

instance (first count i : ℕ) : Decidable (InRange first count i) := inferInstanceAs (Decidable (_ ∧ _))

variable (first count : ℕ)

def kept (l : List (Fin N)) : List (Fin N) := l.filter fun i : Fin N => ¬ InRange first count i

structure HeadLoop (N : ℕ) where
  core : FreelistCore N
  unlinked : ℕ := 0
  walking : Bool := true
  headSteps : ℕ := 0

structure WalkLoop (N : ℕ) where
  core : FreelistCore N
  unlinked : ℕ
  prev : ℕ
  steps : ℕ := 0

def headRound (s : HeadLoop N) : Option (HeadLoop N) :=
  if s.walking ∧ s.headSteps ≤ N then
    if h : s.core.freeHead < N ∧ InRange first count s.core.freeHead then
      some { s with
        headSteps := s.headSteps + 1
        core := { s.core with freeHead := s.core.nextFree ⟨s.core.freeHead, h.1⟩ }
        unlinked := s.unlinked + 1 }
    else some { s with headSteps := s.headSteps + 1, walking := false }
  else none

def walkRound (s : WalkLoop N) : Option (WalkLoop N) :=
  if h : s.prev < N ∧ s.steps ≤ N then
    let next := s.core.nextFree ⟨s.prev, h.1⟩
    if h' : next < N ∧ InRange first count next then
      some { s with
        steps := s.steps + 1
        core := { s.core with
          nextFree := update s.core.nextFree ⟨s.prev, h.1⟩ (s.core.nextFree ⟨next, h'.1⟩) }
        unlinked := s.unlinked + 1 }
    else some { s with steps := s.steps + 1, prev := next }
  else none

structure Unlinked (N : ℕ) where
  core : FreelistCore N
  unlinked : ℕ
  rounds : ℕ

def FreelistCore.unlinkRange (first count fuel : ℕ) : Option (Unlinked N) := do
  let heads ← settle (headRound first count) fuel { core := core }
  let walk ← settle (walkRound first count) fuel
    { core := heads.core, unlinked := heads.unlinked, prev := heads.core.freeHead }
  pure ⟨walk.core, walk.unlinked, heads.headSteps + walk.steps⟩

/-! ## The rounds of the loops -/

lemma headRound_counts (s s' : HeadLoop N) (h : headRound first count s = some s') :
    s.headSteps ≤ N ∧ s'.headSteps = s.headSteps + 1 := by
  unfold headRound at h
  split_ifs at h with hguard
  all_goals
    cases h
    exact ⟨hguard.2, rfl⟩

lemma walkRound_counts (s s' : WalkLoop N) (h : walkRound first count s = some s') :
    s.steps ≤ N ∧ s'.steps = s.steps + 1 := by
  unfold walkRound at h
  dsimp only at h
  split_ifs at h with hguard
  all_goals
    cases h
    exact ⟨hguard.2, rfl⟩

/-! ## The loops on a chain -/

section Chains
variable {before : FreelistCore N} {l : List (Fin N)} {first count stop fuel : ℕ}

lemma kept_cons_of_inRange {i : Fin N} (h : InRange first count i) :
    kept first count (i :: l) = kept first count l := filter_cons_of_neg (by simpa using h)

lemma kept_cons_of_not {i : Fin N} (h : ¬ InRange first count i) :
    kept first count (i :: l) = i :: kept first count l := filter_cons_of_pos (by simpa using h)

structure Heads (first count : ℕ) (before : FreelistCore N) (stop : ℕ) (s : HeadLoop N)
    (gone rest : List (Fin N)) : Prop where
  links : s.core.nextFree = before.nextFree
  generation : s.core.nextGeneration = before.nextGeneration
  chain : Chain before.nextFree s.core.freeHead rest stop
  taken : ∀ i ∈ gone, InRange first count i
  unlinked : s.unlinked = gone.length
  steps : s.headSteps = gone.length + if s.walking then 0 else 1
  kept : s.walking = false → ∀ i ∈ rest.head?, ¬ InRange first count i

lemma Heads.step {s s' : HeadLoop N} {gone rest : List (Fin N)}
    (h : Heads first count before stop s gone rest) (hround : headRound first count s = some s') :
    ∃ gone' rest', gone' ++ rest' = gone ++ rest ∧ Heads first count before stop s' gone' rest' := by
  unfold headRound at hround
  split_ifs at hround with hguard htake
  · cases hround
    cases rest with
    | nil => exact absurd htake.1 (not_lt.mpr (h.chain.1 ▸ h.chain.2))
    | cons i rest =>
      have hindex : (⟨s.core.freeHead, htake.1⟩ : Fin N) = i := Fin.ext h.chain.1
      refine ⟨gone ++ [i], rest, by simp, h.links, h.generation, ?_, ?_, ?_, ?_, ?_⟩
      · dsimp only
        rw [h.links, hindex]
        exact h.chain.2
      · refine forall_mem_append.mpr ⟨h.taken, forall_mem_singleton.mpr ?_⟩
        exact hindex ▸ htake.2
      · dsimp only
        rw [h.unlinked, length_append, length_singleton]
      · dsimp only
        rw [h.steps, length_append, length_singleton]
        omega
      · dsimp only
        rw [hguard.1]
        exact fun hfalse => nomatch hfalse
  · cases hround
    refine ⟨gone, rest, rfl, h.links, h.generation, h.chain, h.taken, h.unlinked, ?_, fun _ i hi hrange => ?_⟩
    · dsimp only
      rw [h.steps, hguard.1]
      rfl
    · cases rest with
      | nil => cases hi
      | cons j rest =>
        obtain rfl := some.inj hi
        refine htake ?_
        rw [h.chain.1]
        exact ⟨j.isLt, hrange⟩

structure Walks (first count : ℕ) (before : FreelistCore N) (l : List (Fin N)) (stop taken : ℕ) (s : WalkLoop N)
    (front back : List (Fin N)) : Prop where
  freeHead : s.core.freeHead = before.freeHead
  generation : s.core.nextGeneration = before.nextGeneration
  chain : Chain s.core.nextFree before.freeHead (front ++ back) stop
  prev : Chain s.core.nextFree s.prev back stop
  kept : front ++ kept first count back = kept first count l
  head : ∀ i ∈ back.head?, ¬ InRange first count i
  unlinked : s.unlinked + (front.length + back.length) = taken + l.length
  steps : s.steps + taken = front.length + s.unlinked
  same : ∀ i ∉ Freelist.kept first count l, s.core.nextFree i = before.nextFree i

lemma Walks.step {s s' : WalkLoop N} {front back : List (Fin N)} {taken : ℕ}
    (h : Walks first count before l stop taken s front back) (hround : walkRound first count s = some s') :
    ∃ front' back', Walks first count before l stop taken s' front' back' := by
  unfold walkRound at hround
  split_ifs at hround with hguard
  cases back with
  | nil => exact absurd hguard.1 (not_lt.mpr (h.prev.1 ▸ h.prev.2))
  | cons i back =>
    have hi : ¬ InRange first count i := h.head i rfl
    obtain ⟨i, _⟩ := i
    obtain rfl : s.prev = i := h.prev.1
    set i : Fin N := ⟨s.prev, hguard.1⟩
    have hkept := h.kept
    have hlength := h.unlinked
    rw [kept_cons_of_not hi] at hkept
    rw [length_cons] at hlength
    dsimp only at hround
    split_ifs at hround with htake
    · cases hround
      cases back with
      | nil => exact absurd htake.1 (not_lt.mpr (h.prev.2.1 ▸ h.prev.2.2))
      | cons j back =>
        have hj : (⟨s.core.nextFree i, htake.1⟩ : Fin N) = j := Fin.ext h.prev.2.1
        have hrange : InRange first count j := hj ▸ htake.2
        have hprev : Chain s.core.nextFree s.prev ([] ++ i :: j :: back) stop := h.prev
        rw [kept_cons_of_inRange hrange] at hkept
        rw [length_cons] at hlength
        refine ⟨front, i :: back, h.freeHead, h.generation, ?_, ?_, ?_, h.head, ?_, ?_, fun k hk => ?_⟩
        · dsimp only
          rw [hj]
          exact h.chain.skip
        · dsimp only
          rw [hj]
          exact hprev.skip
        · rw [kept_cons_of_not hi]
          exact hkept
        · dsimp only
          rw [length_cons]
          omega
        · have hsteps := h.steps
          dsimp only
          omega
        · dsimp only
          rw [update_of_ne, h.same k hk]
          rintro rfl
          exact hk (hkept ▸ mem_append_right _ (mem_cons_self ..))
    · cases hround
      refine ⟨front ++ [i], back, h.freeHead, h.generation, ?_, h.prev.2, ?_, fun k hk hrange => ?_, ?_, ?_, h.same⟩
      · rw [append_assoc]
        exact h.chain
      · rw [append_assoc]
        exact hkept
      · cases back with
        | nil => cases hk
        | cons j back =>
          obtain rfl := some.inj hk
          refine htake ?_
          rw [h.prev.2.1]
          exact ⟨j.isLt, hrange⟩
      · dsimp only
        rw [length_append, length_singleton]
        omega
      · have hsteps := h.steps
        dsimp only
        rw [length_append, length_singleton]
        omega

lemma headLoop_chain {r : HeadLoop N} (hchain : Chain before.nextFree before.freeHead l stop)
    (hr : settle (headRound first count) fuel { core := before } = some r) :
    ∃ gone rest, gone ++ rest = l ∧ Heads first count before stop r gone rest ∧ r.walking = false := by
  have hstart : Heads first count before stop { core := before } [] l :=
    ⟨rfl, rfl, hchain, forall_mem_nil _, rfl, rfl, fun hfalse => nomatch hfalse⟩
  have hinv : ∃ gone rest, gone ++ rest = l ∧ Heads first count before stop r gone rest := by
    refine settle_invariant (P := fun s => ∃ gone rest, gone ++ rest = l ∧ Heads first count before stop s gone rest)
      ?_ ⟨[], l, rfl, hstart⟩ hr
    rintro a b ⟨gone, rest, rfl, ha⟩ hb
    obtain ⟨gone', rest', hsame, hb⟩ := ha.step hb
    exact ⟨gone', rest', hsame, hb⟩
  obtain ⟨gone, rest, hl, hheads⟩ := hinv
  refine ⟨gone, rest, hl, hheads, ?_⟩
  have hstable := settle_stable hr
  have hlength : gone.length ≤ N := by
    have hle := hchain.length_le
    rw [← hl, length_append] at hle
    omega
  by_contra hwalking
  rw [Bool.not_eq_false] at hwalking
  have hsteps : r.headSteps ≤ N := by
    rw [hheads.steps, hwalking]
    exact hlength
  rw [headRound, if_pos ⟨hwalking, hsteps⟩] at hstable
  split_ifs at hstable

lemma walkLoop_chain {r : WalkLoop N} {taken : ℕ} (hchain : Chain before.nextFree before.freeHead l stop)
    (hhead : ∀ i ∈ l.head?, ¬ InRange first count i)
    (hr : settle (walkRound first count) fuel { core := before, unlinked := taken, prev := before.freeHead } = some r) :
    Walks first count before l stop taken r (kept first count l) [] := by
  have hstart : Walks first count before l stop taken
      { core := before, unlinked := taken, prev := before.freeHead } [] l :=
    ⟨rfl, rfl, hchain, hchain, rfl, hhead, by simp, by simp, fun _ _ => rfl⟩
  have hinv : ∃ front back, Walks first count before l stop taken r front back :=
    settle_invariant (P := fun s => ∃ front back, Walks first count before l stop taken s front back)
      (fun a b ⟨_, _, ha⟩ hb => ha.step hb) ⟨[], l, hstart⟩ hr
  obtain ⟨front, back, hwalks⟩ := hinv
  have hstable := settle_stable hr
  have hkept := hwalks.kept
  cases back with
  | nil =>
    rw [kept, filter_nil, append_nil] at hkept
    rwa [← hkept]
  | cons i back =>
    -- The rounds left are as many as the entries left, so the bound does not end the loop here.
    have hlength := hchain.length_le
    have hunlinked := hwalks.unlinked
    have hcount := hwalks.steps
    rw [length_cons] at hunlinked
    have hguard : r.prev < N ∧ r.steps ≤ N := ⟨hwalks.prev.1 ▸ i.isLt, by omega⟩
    rw [walkRound, dif_pos hguard] at hstable
    dsimp only at hstable
    split_ifs at hstable

end Chains

lemma unlinkRange_settles (first count : ℕ) :
    ∃ out, (∀ fuel, N + 1 < fuel → core.unlinkRange first count fuel = some out) ∧ out.rounds ≤ 2 * N + 2 := by
  obtain ⟨heads, hheads, hheadSteps⟩ := settle_of_counter (n := N + 2) HeadLoop.headSteps N
    (headRound_counts first count) (a := { core := core }) (zero_le _) (by simp)
  obtain ⟨walk, hwalk, hsteps⟩ := settle_of_counter (n := N + 2) WalkLoop.steps N (walkRound_counts first count)
    (a := { core := heads.core, unlinked := heads.unlinked, prev := heads.core.freeHead }) (zero_le _) (by simp)
  refine ⟨⟨walk.core, walk.unlinked, heads.headSteps + walk.steps⟩, fun fuel hfuel => ?_, ?_⟩
  · rw [FreelistCore.unlinkRange, settle_mono hfuel hheads, bind_eq_bind, bind_some,
      settle_mono hfuel hwalk]
    rfl
  · dsimp only
    omega

structure Filtered (first count : ℕ) (core : FreelistCore N) (out : Unlinked N) (l : List (Fin N)) (stop : ℕ) : Prop where
  chain : Chain out.core.nextFree out.core.freeHead (kept first count l) stop
  unlinked : out.unlinked = (l.filter fun i : Fin N => InRange first count i).length
  generation : out.core.nextGeneration = core.nextGeneration
  same : ∀ i ∉ kept first count l, out.core.nextFree i = core.nextFree i

lemma unlinkRange_chain {core : FreelistCore N} {first count stop : ℕ} {out : Unlinked N} {l : List (Fin N)}
    (hout : core.unlinkRange first count fuel = some out) (hchain : Chain core.nextFree core.freeHead l stop) :
    Filtered first count core out l stop := by
  rw [FreelistCore.unlinkRange, bind_eq_bind] at hout
  obtain ⟨heads, hheads, hout⟩ := bind_eq_some_iff.mp hout
  obtain ⟨walk, hwalk, hout⟩ := bind_eq_some_iff.mp hout
  cases hout
  obtain ⟨gone, rest, rfl, hfront, hstopped⟩ := headLoop_chain hchain hheads
  have hrest : Chain heads.core.nextFree heads.core.freeHead rest stop := by
    rw [hfront.links]
    exact hfront.chain
  have hwalks := walkLoop_chain hrest (hfront.kept hstopped) hwalk
  have hgone : kept first count gone = [] := by
    rw [kept, filter_eq_nil_iff]
    intro i hi
    simpa using hfront.taken i hi
  have hkept : kept first count (gone ++ rest) = kept first count rest := by
    rw [kept, filter_append]
    exact congrArg (· ++ kept first count rest) hgone
  refine ⟨?_, ?_, hwalks.generation.trans hfront.generation, fun i hi => ?_⟩
  · have hfinal := hwalks.chain
    rwa [append_nil, ← hwalks.freeHead, ← hkept] at hfinal
  · have hsplit := length_eq_length_filter_add (l := gone ++ rest) fun i => decide (InRange first count i)
    have hcounted := hwalks.unlinked
    have hstay : ((gone ++ rest).filter fun i : Fin N => !decide (InRange first count i)).length =
        (kept first count rest).length := by
      rw [← hkept, kept]
      simp only [decide_not]
    rw [length_append, hstay] at hsplit
    rw [length_nil, hfront.unlinked] at hcounted
    dsimp only
    omega
  · rw [hkept] at hi
    rw [hwalks.same i hi, hfront.links]

theorem unlinkRange_filters (core : FreelistCore N) (first count : ℕ) :
    ∃ out, (∀ fuel, N + 1 < fuel → core.unlinkRange first count fuel = some out) ∧ out.rounds ≤ 2 * N + 2 ∧
      ∀ (l : List (Fin N)) (stop : ℕ), Chain core.nextFree core.freeHead l stop →
        Chain out.core.nextFree out.core.freeHead (kept first count l) stop ∧
        out.unlinked = (l.filter fun i : Fin N => InRange first count i).length ∧
        out.core.nextGeneration = core.nextGeneration ∧
        ∀ i ∉ kept first count l, out.core.nextFree i = core.nextFree i := by
  obtain ⟨out, hout, hrounds⟩ := unlinkRange_settles core first count
  refine ⟨out, hout, hrounds, fun l stop hchain => ?_⟩
  have hfiltered := unlinkRange_chain (hout (N + 2) (by omega)) hchain
  exact ⟨hfiltered.chain, hfiltered.unlinked, hfiltered.generation, hfiltered.same⟩

end Takibi.Freelist
