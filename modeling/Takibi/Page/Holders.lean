import Takibi.Page.Take

/-! The allocator among its callers: who holds which pages, and what each of them may do. A
holder is a `PageOwner`, a `PageRunOwner`, a reference that a page table entry keeps, or pages
that a coarser owner keeps by their address. -/

namespace Takibi.Page
open Function

inductive HolderKind
  | page (generation : ℕ)
  | run (generation : ℕ)
  | mapping
  | transferred
  deriving DecidableEq, Repr

structure Holder where
  first : ℕ
  count : ℕ
  physical : ℕ
  kind : HolderKind
  deriving DecidableEq, Repr

namespace Holder

def ofPage (owner : PageOwner) : Holder := ⟨owner.index, 1, owner.physical, .page owner.generation⟩

def ofRun (owner : PageRunOwner) : Holder :=
  ⟨owner.first, owner.count, owner.physical, .run owner.generation⟩

/-- What is left of the pages behind the first `count`. -/
def behind (h : Holder) (count : ℕ) : Holder :=
  ⟨h.first + count, h.count - count, h.physical + count * pageSize, h.kind⟩

def Has (h : Holder) (i : ℕ) : Prop := InRun h.first h.count i

instance (h : Holder) (i : ℕ) : Decidable (h.Has i) := inferInstanceAs (Decidable (InRun ..))

def Maps (h : Holder) (i : ℕ) : Prop := h.kind = .mapping ∧ h.first = i

instance (h : Holder) (i : ℕ) : Decidable (h.Maps i) := inferInstanceAs (Decidable (_ ∧ _))

def Apart (h h' : Holder) : Prop :=
  (∀ i, h.Has i → ¬ h'.Has i) ∨ h.kind = .mapping ∧ h'.kind = .mapping

lemma Apart.symm {h h' : Holder} (hapart : h.Apart h') : h'.Apart h := by
  obtain hdisjoint | ⟨hmaps, hmaps'⟩ := hapart
  · exact .inl fun i hi' hi => hdisjoint i hi hi'
  · exact .inr ⟨hmaps', hmaps⟩

end Holder

inductive Release
  | page (owner : PageOwner)
  | run (owner : PageRunOwner)
  | mapping (physical : ℕ)
  | transferred (physical : ℕ)
  | transferredRun (physical count : ℕ)

namespace Release

def apply (pool : Pool) : Release → Pool
  | page owner => pool.pageFree owner
  | run owner => pool.pageRunFree owner
  | mapping physical => pool.pageMappingReleasePhysical physical
  | transferred physical => pool.pageTransferredReleasePhysical physical
  | transferredRun physical count => pool.pageRunTransferredReleasePhysical physical count

def count : Release → ℕ
  | run owner => owner.count
  | transferredRun _ count => count
  | _ => 1

def Names (pool : Pool) (first : ℕ) : Release → Prop
  | page owner => owner.index = first ∧ owner.physical = (pool.metas first).physical
  | run owner => owner.first = first ∧ owner.physical = (pool.metas first).physical
  | mapping physical | transferred physical | transferredRun physical _ =>
    physical = (pool.metas first).physical

def AlreadyFree (pool : Pool) (r : Release) : Prop :=
  ∃ first, r.Names pool first ∧ InExtent pool first r.count ∧ ∀ k < r.count, (pool.mark (first + k)).Free

end Release

inductive Holder.Releases : Holder → Release → Prop
  | page (owner : PageOwner) : (Holder.ofPage owner).Releases (.page owner)
  | run (owner : PageRunOwner) : (Holder.ofRun owner).Releases (.run owner)
  | mapping (first physical : ℕ) : Holder.Releases ⟨first, 1, physical, .mapping⟩ (.mapping physical)
  | transferred (first physical : ℕ) :
    Holder.Releases ⟨first, 1, physical, .transferred⟩ (.transferred physical)
  | transferredRun (first count physical : ℕ) :
    Holder.Releases ⟨first, count, physical, .transferred⟩ (.transferredRun physical count)

/-- A reservation that a CPU holds: its size, and the pages that the CPU took since. -/
structure Grant where
  reserved : ℕ
  allocated : ℕ
  deriving DecidableEq, Repr

structure System where
  pool : Pool
  holders : List Holder
  grants : Cpu → Option Grant

def draw (grants : Cpu → Option Grant) (cpu : Cpu) (count : ℕ) : Cpu → Option Grant :=
  update grants cpu ((grants cpu).map fun g => { g with allocated := g.allocated + count })

inductive Step : System → System → Prop
  | alloc {sys : System} (cpu : Cpu) (tag : PageOwnerTag) {owner : PageOwner} {pool : Pool}
      (h : sys.pool.pageAlloc cpu tag = (some owner, pool)) :
    Step sys ⟨pool, .ofPage owner :: sys.holders, draw sys.grants cpu 1⟩
  | allocRefused {sys : System} (cpu : Cpu) (tag : PageOwnerTag) {pool : Pool}
      (h : sys.pool.pageAlloc cpu tag = (none, pool)) :
    Step sys { sys with pool := pool }
  | allocRun {sys : System} (cpu : Cpu) (count : ℕ) (tag : PageOwnerTag) {owner : PageRunOwner}
      {pool : Pool} (h : sys.pool.pageAllocContiguous cpu count tag = (some owner, pool)) :
    Step sys ⟨pool, .ofRun owner :: sys.holders, draw sys.grants cpu count⟩
  | allocRunRefused {sys : System} (cpu : Cpu) (count : ℕ) (tag : PageOwnerTag) {pool : Pool}
      (h : sys.pool.pageAllocContiguous cpu count tag = (none, pool)) :
    Step sys { sys with pool := pool }
  -- `page_owner_transfer_index` and `page_run_into_region`: the pool is not asked.
  | transfer {sys : System} {h : Holder} {rest : List Holder} (hheld : sys.holders.Perm (h :: rest))
      (hkind : h.kind ≠ .mapping) :
    Step sys { sys with holders := { h with kind := .transferred } :: rest }
  -- Pages that are kept by their address can go back in parts.
  | split {sys : System} {h : Holder} {rest : List Holder} {count : ℕ}
      (hheld : sys.holders.Perm (h :: rest)) (hkind : h.kind = .transferred)
      (hcount : 0 < count ∧ count < h.count) :
    Step sys { sys with holders := { h with count := count } :: h.behind count :: rest }
  | install {sys : System} {owner : PageOwner} {rest : List Holder}
      (hheld : sys.holders.Perm (.ofPage owner :: rest)) :
    Step sys { sys with
      pool := sys.pool.pageMappingInstall owner
      holders := ⟨owner.index, 1, owner.physical, .mapping⟩ :: rest }
  | retain {sys : System} (physical limit : ℕ) {index : ℕ} {pool : Pool}
      (h : sys.pool.pageMappingRetainPhysical physical limit = (.retained, pool))
      (hindex : sys.pool.indexForPhysical physical = some index) :
    Step sys { sys with pool := pool, holders := ⟨index, 1, physical, .mapping⟩ :: sys.holders }
  | retainRefused {sys : System} (physical limit : ℕ) {result : PageMappingRetainResult} {pool : Pool}
      (h : sys.pool.pageMappingRetainPhysical physical limit = (result, pool))
      (hresult : result ≠ .retained) :
    Step sys { sys with pool := pool }
  | release {sys : System} {h : Holder} {rest : List Holder} {r : Release}
      (hheld : sys.holders.Perm (h :: rest)) (hr : h.Releases r) :
    Step sys { sys with pool := r.apply sys.pool, holders := rest }
  | releaseAgain {sys : System} {r : Release} (hfree : r.AlreadyFree sys.pool) :
    Step sys { sys with pool := r.apply sys.pool }
  | reserve {sys : System} (cpu : Cpu) (count : ℕ) {pool : Pool}
      (h : sys.pool.reserve cpu count = (true, pool)) :
    Step sys { sys with pool := pool, grants := update sys.grants cpu (some ⟨count, 0⟩) }
  | reserveRefused {sys : System} (cpu : Cpu) (count : ℕ) {pool : Pool}
      (h : sys.pool.reserve cpu count = (false, pool)) :
    Step sys { sys with pool := pool }
  | reservationRelease {sys : System} (cpu : Cpu) {g : Grant} (hgrant : sys.grants cpu = some g) :
    Step sys { sys with
      pool := (sys.pool.reservationRelease cpu).2, grants := update sys.grants cpu none }

structure HolderOk (pool : Pool) (h : Holder) : Prop where
  inExtent : InExtent pool h.first h.count
  physical : h.physical = (pool.metas h.first).physical
  occupied : ∀ i, h.Has i → (pool.mark i).occupied = true
  single : h.kind = .mapping → h.count = 1

structure HoldersOk (pool : Pool) (holders : List Holder) : Prop where
  each : ∀ h ∈ holders, HolderOk pool h
  apart : holders.Pairwise Holder.Apart
  refs : ∀ i < pool.pageCount, (pool.mark i).occupied = true →
    (pool.mark i).mapRefcount = holders.countP fun h => h.Maps i

end Takibi.Page
