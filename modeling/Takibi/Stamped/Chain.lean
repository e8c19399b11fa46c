import Takibi.Stamped.Pool

/-! Chains of records in a stamped pool. A record names the next one, and a name that the pool refuses ends the
chain. -/

namespace Takibi.Stamped
open List Option

def Handle.null : Handle := ⟨0, 0⟩

namespace Pool
variable {α : Type*} {pool pool' : Pool α} {h h' : Handle} {v : α}

/-- An address of 0 names nothing, whatever its generation. -/
def look (pool : Pool α) (h : Handle) : Option α := if h.slot = 0 then none else pool.find h

lemma look_eq_some : pool.look h = some v ↔ h.slot ≠ 0 ∧ pool.find h = some v := ite_none_left_eq_some

@[simp] lemma look_null : pool.look .null = none := rfl

lemma look_congr (same : pool'.find h = pool.find h) : pool'.look h = pool.look h := by rw [look, look, same]

lemma look_modify_of_ne (f : α → α) (ne : h' ≠ h) : (pool.modify h f).look h' = pool.look h' :=
  look_congr (find_modify_of_ne f ne)

lemma look_modify_self {f : α → α} (found : pool.look h = some v) : (pool.modify h f).look h = some (f v) := by
  obtain ⟨nonzero, found⟩ := look_eq_some.mp found
  exact look_eq_some.mpr ⟨nonzero, by rw [find_modify_self, found]; rfl⟩

lemma exists_find_of_modify {f : α → α} (found : (pool.modify h f).find h' = some v) : ∃ w, pool.find h' = some w := by
  rw [find_modify] at found
  split at found
  · exact (map_eq_some_iff.mp found).imp fun _ => And.left
  · exact ⟨v, found⟩

end Pool

open Pool
section Walk
variable {α : Type*} (next : α → Handle) (pool : Pool α)

/-- The name of the record at position `i` of the chain from `h` on. -/
def nth : Handle → ℕ → Option Handle
  | h, 0 => if (pool.look h).isSome then some h else none
  | h, i + 1 => (pool.look h).bind fun v => nth (next v) i

def walk : ℕ → Handle → List α
  | 0, _ => []
  | fuel + 1, h =>
    match pool.look h with
    | none => []
    | some v => v :: walk fuel (next v)

def Chain : Handle → List (Handle × α) → Prop
  | head, [] => head = .null
  | head, link :: links => head = link.1 ∧ pool.look link.1 = some link.2 ∧ Chain (next link.2) links

/-- The chains have no record in common, and the pool has no other record. -/
structure Laid (chains : List (Handle × List (Handle × α))) : Prop where
  chain : ∀ c ∈ chains, Chain next pool c.1 c.2
  apart : (chains.flatMap fun c => c.2.map Prod.fst).Nodup
  covers : ∀ h v, pool.find h = some v → h ∈ chains.flatMap fun c => c.2.map Prod.fst

end Walk

variable {α : Type*} {next : α → Handle} {pool pool' : Pool α} {head h h' : Handle} {v w : α}
  {links before after : List (Handle × α)}

namespace Chain

section
variable (chain : Chain next pool head links)
include chain

lemma congr (same : ∀ link ∈ links, pool'.look link.1 = pool.look link.1) : Chain next pool' head links := by
  induction links generalizing head with
  | nil => exact chain
  | cons link links ih =>
    obtain ⟨rfl, found, rest⟩ := chain
    obtain ⟨here, there⟩ := forall_mem_cons.mp same
    exact ⟨rfl, here.trans found, ih rest there⟩

lemma look_eq {link : Handle × α} (mem : link ∈ links) : pool.look link.1 = some link.2 := by
  induction links generalizing head with
  | nil => cases mem
  | cons first links ih =>
    obtain ⟨-, found, rest⟩ := chain
    rcases mem_cons.mp mem with rfl | mem
    · exact found
    · exact ih rest mem

lemma nth_eq (i : ℕ) : nth next pool head i = links[i]?.map Prod.fst := by
  induction links generalizing head i with
  | nil =>
    obtain rfl : head = .null := chain
    cases i <;> rfl
  | cons link links ih =>
    obtain ⟨rfl, found, rest⟩ := chain
    cases i with
    | zero => simp [nth, found]
    | succ i =>
      rw [nth, found, bind_some, getElem?_cons_succ]
      exact ih rest i

lemma walk_eq {fuel : ℕ} (enough : links.length ≤ fuel) : walk next pool fuel head = links.map Prod.snd := by
  induction links generalizing head fuel with
  | nil =>
    obtain rfl : head = .null := chain
    cases fuel <;> rfl
  | cons link links ih =>
    obtain ⟨rfl, found, rest⟩ := chain
    cases fuel with
    | zero => cases enough
    | succ fuel =>
      rw [walk, found, map_cons]
      exact congrArg _ (ih rest (Nat.le_of_succ_le_succ enough))

end

lemma tail (chain : Chain next pool head (before ++ (h, v) :: after)) : Chain next pool (next v) after := by
  induction before generalizing head with
  | nil => exact chain.2.2
  | cons link before ih => exact ih chain.2.2

lemma modify {f : α → α} (chain : Chain next pool head (before ++ (h, v) :: after)) (kept : next (f v) = next v)
    (apart : ((before ++ (h, v) :: after).map Prod.fst).Nodup) :
    Chain next (pool.modify h f) head (before ++ (h, f v) :: after) := by
  rw [map_append, map_cons, nodup_middle, nodup_cons, ← map_append] at apart
  have other : ∀ link ∈ before ++ after, (pool.modify h f).look link.1 = pool.look link.1 := fun link mem =>
    look_modify_of_ne f fun same => apart.1 (mem_map.mpr ⟨link, mem, same⟩)
  replace apart := apart.1
  induction before generalizing head with
  | nil =>
    obtain ⟨rfl, found, rest⟩ := chain
    refine ⟨rfl, look_modify_self found, ?_⟩
    dsimp only
    rw [kept]
    exact rest.congr other
  | cons link before ih =>
    obtain ⟨rfl, found, rest⟩ := chain
    obtain ⟨here, there⟩ := forall_mem_cons.mp other
    exact ⟨rfl, here.trans found, ih rest there fun mem => apart (mem_cons_of_mem _ mem)⟩

/-- A new record goes behind the last one, which then names it. -/
lemma extend (chain : Chain next pool head (before ++ [(h, v)]))
    (other : ∀ link ∈ before, pool'.look link.1 = pool.look link.1)
    (last : pool'.look h = some w) (names : next w = h') {new : α} (found : pool'.look h' = some new)
    (stop : next new = .null) : Chain next pool' head (before ++ [(h, w), (h', new)]) := by
  induction before generalizing head with
  | nil => exact ⟨chain.1, last, names, found, stop⟩
  | cons link before ih =>
    obtain ⟨rfl, known, rest⟩ := chain
    obtain ⟨here, there⟩ := forall_mem_cons.mp other
    exact ⟨rfl, here.trans known, ih rest there⟩

end Chain

namespace Laid
variable {chains chains' : List (Handle × List (Handle × α))}

lemma perm (laid : Laid next pool chains) (same : chains.Perm chains') : Laid next pool chains' where
  chain c mem := laid.chain c (same.mem_iff.mpr mem)
  apart := (same.flatMap_right _).nodup_iff.mp laid.apart
  covers h v found := (same.flatMap_right _).mem_iff.mp (laid.covers h v found)

lemma empty : Laid next (Pool.empty : Pool α) [] :=
  ⟨fun _ mem => (by cases mem), nodup_nil, fun h v found => by cases find_empty.symm.trans found⟩

section
variable (laid : Laid next pool ((head, links) :: chains))
include laid

lemma first : Chain next pool head links := laid.chain _ mem_cons_self

lemma nodup : (links.map Prod.fst).Nodup := (nodup_append.mp laid.apart).1

lemma ne_of_other {c : Handle × List (Handle × α)} (mem : c ∈ chains) {link : Handle × α} (inside : link ∈ c.2)
    (here : h ∈ links.map Prod.fst) : link.1 ≠ h := by
  have there : link.1 ∈ chains.flatMap fun c => c.2.map Prod.fst :=
    mem_flatMap.mpr ⟨c, mem, mem_map_of_mem inside⟩
  exact fun same => (nodup_append.mp laid.apart).2.2 h here _ there same.symm

/-- One chain changes, and the records of the others stay as they are. -/
lemma replace {head' : Handle} {links' : List (Handle × α)} (chain : Chain next pool' head' links')
    (others : ∀ c ∈ chains, ∀ link ∈ c.2, pool'.look link.1 = pool.look link.1)
    (apart : ((links'.map Prod.fst) ++ chains.flatMap fun c => c.2.map Prod.fst).Nodup)
    (covers : ∀ h v, pool'.find h = some v → h ∈ links'.map Prod.fst ∨ h ∈ chains.flatMap fun c => c.2.map Prod.fst) :
    Laid next pool' ((head', links') :: chains) where
  chain c mem := by
    rcases mem_cons.mp mem with rfl | mem
    · exact chain
    · exact (laid.chain c (mem_cons_of_mem _ mem)).congr (others c mem)
  apart := apart
  covers h v found := mem_append.mpr (covers h v found)

lemma covered (found : pool.find h = some v) :
    h ∈ links.map Prod.fst ∨ h ∈ chains.flatMap fun c => c.2.map Prod.fst :=
  mem_append.mp (laid.covers h v found)

end

lemma modify {f : α → α} (laid : Laid next pool ((head, before ++ (h, v) :: after) :: chains))
    (kept : next (f v) = next v) :
    Laid next (pool.modify h f) ((head, before ++ (h, f v) :: after) :: chains) := by
  have here : h ∈ (before ++ (h, v) :: after).map Prod.fst := by simp
  have same : (before ++ (h, f v) :: after).map Prod.fst = (before ++ (h, v) :: after).map Prod.fst := by simp
  refine laid.replace (laid.first.modify kept laid.nodup)
    (fun c mem link inside => look_modify_of_ne f (laid.ne_of_other mem inside here)) (same ▸ laid.apart) ?_
  intro h' w found
  obtain ⟨v', live⟩ := exists_find_of_modify found
  rw [same]
  exact laid.covered live

section Alloc
variable {slot : ℕ} {new : α} (granted : pool.alloc slot new = some (h', pool')) (nonzero : slot ≠ 0)
  (stop : next new = .null)
include granted

lemma look_alloc_self (nonzero : slot ≠ 0) : pool'.look h' = some new := by
  obtain ⟨rfl, -⟩ := alloc_eq_some granted
  exact look_eq_some.mpr ⟨nonzero, find_alloc_self granted⟩

lemma look_of_live (live : pool.look h = some v) : h ≠ h' ∧ pool'.look h = pool.look h := by
  have ne : h ≠ h' := by
    rintro rfl
    cases (find_before_alloc granted).symm.trans (look_eq_some.mp live).2
  exact ⟨ne, look_congr (find_alloc_of_ne granted ne)⟩

lemma fresh_notMem (laid : Laid next pool chains) : h' ∉ chains.flatMap fun c => c.2.map Prod.fst := by
  intro mem
  obtain ⟨c, memc, inside⟩ := mem_flatMap.mp mem
  obtain ⟨link, memlink, rfl⟩ := mem_map.mp inside
  exact (look_of_live granted ((laid.chain c memc).look_eq memlink)).1 rfl

include nonzero stop

lemma begin (laid : Laid next pool ((head, []) :: chains)) : Laid next pool' ((h', [(h', new)]) :: chains) := by
  have fresh := fresh_notMem granted laid
  refine laid.replace ⟨rfl, look_alloc_self granted nonzero, stop⟩ (fun c mem link inside => ?_) ?_ fun h v found => ?_
  · exact (look_of_live granted ((laid.chain c (mem_cons_of_mem _ mem)).look_eq inside)).2
  · exact nodup_cons.mpr ⟨fresh, laid.apart⟩
  · by_cases same : h = h'
    · exact .inl (by simp [same])
    · exact .inr ((laid.covered (find_alloc_of_ne granted same ▸ found)).resolve_left (by simp))

lemma append {f : α → α} (laid : Laid next pool ((head, before ++ [(h, v)]) :: chains)) (names : next (f v) = h') :
    Laid next (pool'.modify h f) ((head, before ++ [(h, f v), (h', new)]) :: chains) := by
  have apart := laid.nodup
  rw [map_append, map_singleton, nodup_append] at apart
  have known := laid.first.look_eq (show (h, v) ∈ before ++ [(h, v)] by simp)
  obtain ⟨ne, kept⟩ := look_of_live granted known
  have here : h ∈ (before ++ [(h, v)]).map Prod.fst := by simp
  have others : ∀ c ∈ (head, before ++ [(h, v)]) :: chains, ∀ link ∈ c.2, link.1 ≠ h →
      (pool'.modify h f).look link.1 = pool.look link.1 := fun c mem link inside other =>
    (look_modify_of_ne f other).trans (look_of_live granted ((laid.chain c mem).look_eq inside)).2
  have chain : Chain next (pool'.modify h f) head (before ++ [(h, f v), (h', new)]) := by
    refine laid.first.extend (fun link mem => ?_) (look_modify_self (kept.trans known)) names ?_ stop
    · refine others _ mem_cons_self link (mem_append_left _ mem) fun same => ?_
      exact apart.2.2 link.1 (mem_map_of_mem mem) h (mem_singleton.mpr rfl) same
    · rw [look_modify_of_ne f ne.symm]
      exact look_alloc_self granted nonzero
  have all : ((before ++ [(h, f v), (h', new)]).map Prod.fst).Perm (h' :: (before ++ [(h, v)]).map Prod.fst) := by
    have swap : (before.map Prod.fst ++ [h] ++ [h']).Perm ([h'] ++ (before.map Prod.fst ++ [h])) := perm_append_comm
    simpa using swap
  refine laid.replace chain
    (fun c mem link inside => others c (mem_cons_of_mem _ mem) link inside (laid.ne_of_other mem inside here)) ?_ ?_
  · refine (all.append_right _).nodup_iff.mpr (nodup_cons.mpr ⟨fresh_notMem granted laid, laid.apart⟩)
  · intro h'' w found
    rw [all.mem_iff, mem_cons]
    by_cases same : h'' = h'
    · exact .inl (.inl same)
    · obtain ⟨v', live⟩ := exists_find_of_modify found
      rw [find_alloc_of_ne granted same] at live
      exact (laid.covered live).imp_left .inr

end Alloc

lemma retire {link : Handle × α} (laid : Laid next pool ((head, link :: links) :: chains)) :
    Laid next (pool.retire link.1) ((next link.2, links) :: chains) := by
  obtain ⟨-, -, rest⟩ := laid.first
  obtain ⟨fresh, apart⟩ := nodup_cons.mp laid.apart
  have other : ∀ h ≠ link.1, (pool.retire link.1).find h = pool.find h := fun h ne => by
    rw [find_retire, if_neg ne]
  refine laid.replace (rest.congr fun l mem => ?_) (fun c mem l inside => ?_) apart fun h v live => ?_
  · exact look_congr (other _ fun same => fresh (mem_append_left _ (same ▸ mem_map_of_mem mem)))
  · exact look_congr (other _ (laid.ne_of_other mem inside (by simp)))
  · rw [find_retire] at live
    split at live
    · cases live
    · rename_i ne
      exact (laid.covered live).imp_left fun mem => (mem_cons.mp mem).resolve_left ne

lemma drop (laid : Laid next pool ((.null, []) :: chains)) : Laid next pool chains :=
  ⟨fun c mem => laid.chain c (mem_cons_of_mem _ mem), laid.apart, laid.covers⟩

lemma null (laid : Laid next pool chains) : Laid next pool ((.null, []) :: chains) where
  chain c mem := by
    rcases mem_cons.mp mem with rfl | mem
    · rfl
    · exact laid.chain c mem
  apart := laid.apart
  covers := laid.covers

end Laid
end Takibi.Stamped
