import Takibi.Search.Worklist
import Takibi.Static.Poly

/-! The order graph of run-time bounds: `<` and `≤` edges between local values,
lengths, counts and normalized statics, and the search that proves a relation. -/

namespace Takibi.Order
open Search Static List Option

inductive Facet
  | value
  | length
  | count
  deriving DecidableEq, Repr

inductive Node
  | local (id : Nat) (name : String) (facet : Facet)
  | static (key : StaticPoly)
  deriving DecidableEq

inductive WhereCmp
  | lt
  | le
  deriving DecidableEq, Repr

variable {ν : Type}

abbrev Edge (ν : Type) := ν × Bool × ν
abbrev Facts (ν : Type) := List (Edge ν)

def add (a : ν) (cmp : WhereCmp) (b : ν) (facts : Facts ν) : Facts ν :=
  (a, decide (cmp = .lt), b) :: facts

section Search
variable [DecidableEq ν] (facts : Facts ν)

def successors (n : ν × Bool) : List (ν × Bool) :=
  facts.filterMap fun e => if e.1 = n.1 then some (e.2.2, n.2 || e.2.1) else none

def graph : Graph (ν × Bool) where
  next := successors facts
  inner := facts.flatMap fun e => [(e.1, false), (e.1, true)]
  next_of_notMem := by
    rintro ⟨n, strict⟩ hn
    refine filterMap_eq_nil_iff.mpr fun e he => if_neg fun heq => hn ?_
    refine mem_flatMap.mpr ⟨e, he, ?_⟩
    cases strict <;> simp [heq]

def proves (a : ν) (cmp : WhereCmp) (b : ν) : Bool :=
  (graph facts).visit (fun n => decide (n.1 = b) && (decide (cmp = .le) || n.2)) [] [(a, false)]

/-! ## Paths of the graph -/

def Leads (a b : ν) : Prop := ∃ strict, (a, strict, b) ∈ facts

omit [DecidableEq ν] in
abbrev Reaches : ν → ν → Prop := Relation.ReflTransGen (Leads facts)

omit [DecidableEq ν] in
def ReachesStrictly (a b : ν) : Prop :=
  ∃ c d, Reaches facts a c ∧ (c, true, d) ∈ facts ∧ Reaches facts d b

lemma graph_steps_iff {facts : Facts ν} {n m : ν × Bool} :
    (graph facts).Steps n m ↔ ∃ strict, (n.1, strict, m.1) ∈ facts ∧ m.2 = (n.2 || strict) := by
  obtain ⟨m, s⟩ := m
  simp only [Graph.Steps, graph, successors, mem_filterMap, ite_none_right_eq_some,
    some.injEq, Prod.mk.injEq]
  constructor
  · rintro ⟨⟨x, strict, y⟩, he, rfl, rfl, rfl⟩
    exact ⟨strict, he, rfl⟩
  · rintro ⟨strict, he, rfl⟩
    exact ⟨_, he, rfl, rfl, rfl⟩

variable {facts} {a b : ν}

lemma reaches_of_steps {n : ν × Bool} (h : Relation.ReflTransGen (graph facts).Steps (a, false) n) :
    Reaches facts a n.1 ∧ (n.2 = true → ReachesStrictly facts a n.1) := by
  induction h with
  | refl => exact ⟨.refl, nofun⟩
  | @tail k m _ hstep ih =>
    obtain ⟨strict, he, hm⟩ := graph_steps_iff.mp hstep
    refine ⟨ih.1.tail ⟨strict, he⟩, fun hs => ?_⟩
    rw [hm, Bool.or_eq_true] at hs
    rcases hs with hs | rfl
    · obtain ⟨c, d, hac, hcd, hdk⟩ := ih.2 hs
      exact ⟨c, d, hac, hcd, hdk.tail ⟨strict, he⟩⟩
    · exact ⟨k.1, m.1, ih.1, he, .refl⟩

lemma steps_of_reaches {s : Bool} (h : Reaches facts a b) :
    ∃ s', Relation.ReflTransGen (graph facts).Steps (a, s) (b, s') ∧ (s = true → s' = true) := by
  induction h with
  | refl => exact ⟨s, .refl, id⟩
  | @tail k m _ hstep ih =>
    obtain ⟨s', hpath, hs⟩ := ih
    obtain ⟨strict, he⟩ := hstep
    refine ⟨s' || strict, hpath.tail (graph_steps_iff.mpr ⟨strict, he, rfl⟩), fun h => ?_⟩
    rw [hs h, Bool.true_or]

lemma steps_of_reachesStrictly (h : ReachesStrictly facts a b) :
    Relation.ReflTransGen (graph facts).Steps (a, false) (b, true) := by
  obtain ⟨c, d, hac, hcd, hdb⟩ := h
  obtain ⟨s, hpath, -⟩ := steps_of_reaches (s := false) hac
  have hedge : (graph facts).Steps (c, s) (d, true) :=
    graph_steps_iff.mpr ⟨true, hcd, (Bool.or_true s).symm⟩
  obtain ⟨s', hrest, hs⟩ := steps_of_reaches (s := true) hdb
  exact (hpath.tail hedge).trans (hs rfl ▸ hrest)

lemma proves_le_iff : proves facts a .le b = true ↔ Reaches facts a b := by
  rw [proves, Graph.visit_iff]
  constructor
  · rintro ⟨n, hn, m, hpath, hhit⟩
    obtain rfl := mem_singleton.mp hn
    simp only [decide_true, Bool.true_or, Bool.and_true, decide_eq_true_eq] at hhit
    exact hhit ▸ (reaches_of_steps hpath).1
  · intro h
    obtain ⟨s, hpath, -⟩ := steps_of_reaches (s := false) h
    exact ⟨(a, false), mem_singleton_self _, (b, s), hpath, by simp⟩

lemma proves_lt_iff : proves facts a .lt b = true ↔ ReachesStrictly facts a b := by
  rw [proves, Graph.visit_iff]
  constructor
  · rintro ⟨n, hn, m, hpath, hhit⟩
    obtain rfl := mem_singleton.mp hn
    simp only [reduceCtorEq, decide_false, Bool.false_or, Bool.and_eq_true, decide_eq_true_eq] at hhit
    exact hhit.1 ▸ (reaches_of_steps hpath).2 hhit.2
  · intro h
    exact ⟨(a, false), mem_singleton_self _, (b, true), steps_of_reachesStrictly h, by simp⟩

end Search

/-! ## Valuations -/

def WhereCmp.Holds : WhereCmp → Int → Int → Prop
  | .lt, x, y => x < y
  | .le, x, y => x ≤ y

instance (cmp : WhereCmp) (x y : Int) : Decidable (cmp.Holds x y) :=
  match cmp with
  | .lt => inferInstanceAs (Decidable (x < y))
  | .le => inferInstanceAs (Decidable (x ≤ y))

def Facts.Holds (facts : Facts ν) (v : ν → Int) : Prop :=
  ∀ e ∈ facts, if e.2.1 then v e.1 < v e.2.2 else v e.1 ≤ v e.2.2

section Holds
variable {facts : Facts ν} {v : ν → Int} {a b : ν}

lemma Facts.Holds.add {cmp : WhereCmp} (h : facts.Holds v) (hab : cmp.Holds (v a) (v b)) :
    (add a cmp b facts).Holds v := by
  refine forall_mem_cons.mpr ⟨?_, h⟩
  cases cmp with
  | lt => exact hab
  | le => exact hab

lemma Facts.Holds.reaches (h : facts.Holds v) (hab : Reaches facts a b) : v a ≤ v b := by
  induction hab with
  | refl => exact le_rfl
  | tail _ hstep ih =>
    obtain ⟨strict, he⟩ := hstep
    have hedge := h _ he
    cases strict with
    | true => exact ih.trans (le_of_lt (by simpa using hedge))
    | false => exact ih.trans (by simpa using hedge)

lemma Facts.Holds.reachesStrictly (h : facts.Holds v) (hab : ReachesStrictly facts a b) : v a < v b := by
  obtain ⟨c, d, hac, hcd, hdb⟩ := hab
  have hedge := h _ hcd
  simp only [if_true] at hedge
  exact ((h.reaches hac).trans_lt hedge).trans_le (h.reaches hdb)

lemma Facts.Holds.proves [DecidableEq ν] (h : facts.Holds v) {cmp : WhereCmp}
    (hp : Order.proves facts a cmp b = true) : cmp.Holds (v a) (v b) := by
  cases cmp with
  | lt => exact h.reachesStrictly (proves_lt_iff.mp hp)
  | le => exact h.reaches (proves_le_iff.mp hp)

end Holds

/-- The search terminates and decides reachability in the order graph, cycles
included; what it answers holds of all values of the nodes that satisfy the facts. -/
theorem proves_exact (facts : Facts Node) (a b : Node) :
    (proves facts a .le b = true ↔ Reaches facts a b) ∧
    (proves facts a .lt b = true ↔ ReachesStrictly facts a b) ∧
    ∀ cmp, proves facts a cmp b = true → ∀ v : Node → Int, facts.Holds v → cmp.Holds (v a) (v b) :=
  ⟨proves_le_iff, proves_lt_iff, fun _ hp _ hv => hv.proves hp⟩

end Takibi.Order
