import Takibi.Fd.Slots
import Takibi.Stamped.Chain

/-! The blocks of the tables in their pool. A table names its first block and a block names the next one; the
chains of the tables are what these links spell. -/

namespace Takibi.Fd
open Stamped Pool List Option FdState Function

lemma fdSlotIndex_lt (fd : ℕ) : fd % fdBlockSlots < fdBlockSlots := Nat.mod_lt _ (by decide)

structure LinkedBlock extends FdBlock where
  next : Handle

def LinkedBlock.fresh : LinkedBlock := ⟨.fresh, .null⟩

structure Blocks where
  pool : Pool LinkedBlock
  fdSlotTotal : ℕ

namespace Blocks

/-- `place` is the slot the pool grants; no record is at address 0. -/
def fdBlockAlloc (place : Option ℕ) (blocks : Blocks) : Option (Handle × Blocks) :=
  (place.filter (· ≠ 0)).bind fun slot =>
    (blocks.pool.alloc slot .fresh).map fun granted => (granted.1, ⟨granted.2, blocks.fdSlotTotal + fdBlockSlots⟩)

def fdBlockFree (h : Handle) (blocks : Blocks) : Blocks :=
  if (blocks.pool.find h).isSome then
    ⟨blocks.pool.retire h,
      if fdBlockSlots ≤ blocks.fdSlotTotal then blocks.fdSlotTotal - fdBlockSlots else blocks.fdSlotTotal⟩
  else blocks

/-- The loop of `fd_block_ensure` at block `i`, with `ahead` blocks to go. `places i` is granted for block `i`. -/
def ensureFrom (places : ℕ → Option ℕ) : ℕ → ℕ → Handle → Blocks → Option Handle × Blocks
  | _, 0, h, blocks => (some h, blocks)
  | i, ahead + 1, h, blocks =>
    match blocks.pool.look h with
    | none => (some h, blocks)
    | some block =>
      if (blocks.pool.look block.next).isSome then ensureFrom places (i + 1) ahead block.next blocks
      else
        match blocks.fdBlockAlloc (places (i + 1)) with
        | none => (none, blocks)
        | some (h', grown) =>
          ensureFrom places (i + 1) ahead h'
            { grown with pool := grown.pool.modify h fun block => { block with next := h' } }

def releaseFrom : ℕ → Handle → Blocks → Blocks
  | 0, _, blocks => blocks
  | fuel + 1, h, blocks =>
    match blocks.pool.look h with
    | none => blocks
    | some block => releaseFrom fuel block.next (blocks.fdBlockFree h)

end Blocks

/-- `heads` has the first block of every table there is, and `undos` those of the detached chains. -/
structure Links where
  blocks : Blocks
  heads : ℕ → Option Handle
  undos : List Handle

namespace Links
variable (links : Links) (process fd : ℕ)

def boot : Links := ⟨⟨.empty, 0⟩, fun _ => none, []⟩

def fdBlockLookup : Option Handle :=
  (links.heads process).bind fun head => nth LinkedBlock.next links.blocks.pool head (fd / fdBlockSlots)

def entryAt : Option FdEntry :=
  (links.fdBlockLookup process fd).bind fun h => (links.blocks.pool.look h).map fun block =>
    block.slot.get ⟨fd % fdBlockSlots, fdSlotIndex_lt fd⟩

def setEntry (entry : FdEntry) : Links :=
  match links.fdBlockLookup process fd with
  | none => links
  | some h => { links with blocks.pool := links.blocks.pool.modify h fun block =>
      { block with slot := block.slot.set (fd % fdBlockSlots) entry (fdSlotIndex_lt fd) } }

/-- What a scan of the table sees. A chain has no more blocks than there are slots. -/
def entries (process : ℕ) : List FdEntry :=
  (links.heads process).elim [] fun head =>
    chainEntries ((walk LinkedBlock.next links.blocks.pool links.blocks.fdSlotTotal head).map LinkedBlock.toFdBlock)

def fdBlockEnsure (places : ℕ → Option ℕ) : Option Handle × Links :=
  match links.heads process with
  | none => (none, links)
  | some head =>
    if (links.blocks.pool.look head).isSome then
      let (found, blocks) := links.blocks.ensureFrom places 0 (fd / fdBlockSlots) head
      (found, { links with blocks })
    else
      match links.blocks.fdBlockAlloc (places 0) with
      | none => (none, links)
      | some (h, blocks) =>
        let (found, blocks) := blocks.ensureFrom places 0 (fd / fdBlockSlots) h
        (found, { links with blocks, heads := update links.heads process (some h) })

def contextEnsure (process : ℕ) (granted : Bool) : Links :=
  if (links.heads process).isNone ∧ granted then { links with heads := update links.heads process (some .null) }
  else links

def contextRelease (process : ℕ) : Links :=
  match links.heads process with
  | none => links
  | some head =>
    { links with
      blocks := links.blocks.releaseFrom links.blocks.fdSlotTotal head
      heads := update links.heads process none }

def cloneDetach (process : ℕ) : Links :=
  match links.heads process with
  | none => links
  | some head => { links with heads := update links.heads process (some .null), undos := head :: links.undos }

def cloneUndoFinish (index : ℕ) : Links :=
  match links.undos[index]? with
  | none => links
  | some head =>
    { links with
      blocks := links.blocks.releaseFrom links.blocks.fdSlotTotal head
      undos := links.undos.eraseIdx index }

end Links

/-! ## One chain among the others -/

abbrev LinkedChain := Handle × List (Handle × LinkedBlock)

def LinkedChain.view (c : LinkedChain) : Handle × List FdBlock := (c.1, c.2.map fun link => link.2.toFdBlock)

structure Placed (blocks : Blocks) (chains : List LinkedChain) : Prop extends
    Laid LinkedBlock.next blocks.pool chains where
  total : blocks.fdSlotTotal = fdBlockSlots * (chains.map fun c => c.2.length).sum

namespace Placed
variable {blocks blocks' : Blocks} {chains chains' : List LinkedChain} {head h h' : Handle} {v : LinkedBlock}
  {links before after : List (Handle × LinkedBlock)}

lemma perm (placed : Placed blocks chains) (same : chains.Perm chains') : Placed blocks chains' :=
  ⟨placed.toLaid.perm same, placed.total.trans (by rw [(same.map _).sum_eq])⟩

lemma null (placed : Placed blocks chains) : Placed blocks ((.null, []) :: chains) :=
  ⟨placed.toLaid.null, placed.total.trans (by simp)⟩

lemma length_le (placed : Placed blocks ((head, links) :: chains)) : links.length ≤ blocks.fdSlotTotal := by
  have total := placed.total
  simp only [map_cons, sum_cons, fdBlockSlots] at total
  omega

lemma modify {f : LinkedBlock → LinkedBlock} (placed : Placed blocks ((head, before ++ (h, v) :: after) :: chains))
    (kept : (f v).next = v.next) :
    Placed { blocks with pool := blocks.pool.modify h f } ((head, before ++ (h, f v) :: after) :: chains) :=
  ⟨placed.toLaid.modify kept, placed.total.trans (by simp)⟩

lemma fdBlockAlloc_eq_some {place : Option ℕ} (granted : blocks.fdBlockAlloc place = some (h, blocks')) :
    ∃ slot ≠ 0, blocks.pool.alloc slot .fresh = some (h, blocks'.pool) ∧
      blocks'.fdSlotTotal = blocks.fdSlotTotal + fdBlockSlots := by
  obtain ⟨slot, place, granted⟩ := bind_eq_some_iff.mp granted
  obtain ⟨⟨h', pool⟩, given, same⟩ := map_eq_some_iff.mp granted
  cases same
  exact ⟨slot, by simpa using (filter_eq_some_iff.mp place).2, given, rfl⟩

lemma begin {place : Option ℕ} (placed : Placed blocks ((head, []) :: chains))
    (granted : blocks.fdBlockAlloc place = some (h, blocks')) :
    Placed blocks' ((h, [(h, .fresh)]) :: chains) := by
  obtain ⟨slot, nonzero, granted, total⟩ := fdBlockAlloc_eq_some granted
  refine ⟨placed.toLaid.begin granted nonzero rfl, ?_⟩
  rw [total, placed.total]
  simp only [map_cons, sum_cons, length_cons, length_nil]
  ring

lemma append {place : Option ℕ} (placed : Placed blocks ((head, before ++ [(h, v)]) :: chains))
    (granted : blocks.fdBlockAlloc place = some (h', blocks')) :
    Placed { blocks' with pool := blocks'.pool.modify h fun block => { block with next := h' } }
      ((head, before ++ [(h, { v with next := h' }), (h', .fresh)]) :: chains) := by
  obtain ⟨slot, nonzero, granted, total⟩ := fdBlockAlloc_eq_some granted
  refine ⟨placed.toLaid.append granted nonzero rfl rfl, ?_⟩
  dsimp only
  rw [total, placed.total]
  simp only [map_cons, sum_cons, length_append, length_cons, length_nil]
  ring

/-- As many blocks are made as the pool grants, up to those that are missing. -/
lemma ensureFrom (places : ℕ → Option ℕ) (i ahead : ℕ)
    (placed : Placed blocks ((head, before ++ (h, v) :: after) :: chains)) :
    ∃ links made, Placed (blocks.ensureFrom places i ahead h).2 ((head, links) :: chains) ∧
      LinkedChain.view (head, links) = (head, (before ++ (h, v) :: after).map (·.2.toFdBlock) ++ replicate made .fresh) ∧
      made ≤ ahead - after.length ∧
      ((blocks.ensureFrom places i ahead h).1.isSome ↔ made = ahead - after.length) ∧
      ∀ h', (blocks.ensureFrom places i ahead h).1 = some h' →
        links[before.length + ahead]?.map Prod.fst = some h' := by
  induction ahead generalizing i blocks before h v after with
  | zero => exact ⟨_, 0, placed, by simp [LinkedChain.view], by simp, by simp [Blocks.ensureFrom],
      fun h' found => by simpa [Blocks.ensureFrom] using found⟩
  | succ ahead ih =>
    have known := placed.first.look_eq (show (h, v) ∈ before ++ (h, v) :: after by simp)
    have rest := placed.first.tail
    cases after with
    | nil =>
      obtain rest : v.next = .null := rest
      rw [Blocks.ensureFrom, known]
      dsimp only
      rw [rest, look_null, if_neg (by simp)]
      cases granted : blocks.fdBlockAlloc (places (i + 1)) with
      | none => exact ⟨_, 0, placed, by simp [LinkedChain.view], by simp, by simp, fun h' found => by cases found⟩
      | some pair =>
        obtain ⟨h', blocks'⟩ := pair
        have grown := placed.append granted
        rw [append_cons] at grown
        obtain ⟨links, made, placed', view, le, all, target⟩ := ih (i + 1) grown
        refine ⟨links, made + 1, placed', ?_, by simpa using le, by simpa using all, fun h'' found => ?_⟩
        · rw [view]
          simp [replicate_succ, LinkedBlock.fresh]
        · rw [← target h'' found]
          congr 2
          simp
          omega
    | cons link after =>
      obtain ⟨h₂, v₂⟩ := link
      obtain ⟨names, found, -⟩ := rest
      rw [Blocks.ensureFrom, known]
      dsimp only at names found ⊢
      rw [names, found, isSome_some, if_pos rfl]
      rw [append_cons] at placed
      obtain ⟨links, made, placed', view, le, all, target⟩ := ih (i + 1) placed
      refine ⟨links, made, placed', ?_, by simpa using le, by simpa using all, fun h'' found => ?_⟩
      · rw [view]
        simp
      · rw [← target h'' found]
        congr 2
        simp
        omega

lemma fdBlockFree {link : Handle × LinkedBlock} (placed : Placed blocks ((head, link :: links) :: chains)) :
    Placed (blocks.fdBlockFree link.1) ((link.2.next, links) :: chains) := by
  obtain ⟨-, found, -⟩ := placed.first
  have total := placed.total
  simp only [map_cons, sum_cons, length_cons] at total
  have room : fdBlockSlots ≤ blocks.fdSlotTotal := total ▸ Nat.le_mul_of_pos_right _ (by omega)
  rw [Blocks.fdBlockFree, (look_eq_some.mp found).2, isSome_some, if_pos rfl, if_pos room]
  refine ⟨placed.toLaid.retire, ?_⟩
  simp only [map_cons, sum_cons, fdBlockSlots] at total ⊢
  omega

lemma releaseFrom {fuel : ℕ} (placed : Placed blocks ((head, links) :: chains)) (enough : links.length ≤ fuel) :
    Placed (blocks.releaseFrom fuel head) chains := by
  induction links generalizing head blocks fuel with
  | nil =>
    obtain rfl : head = .null := placed.first
    have dropped : Placed blocks chains := ⟨placed.toLaid.drop, placed.total.trans (by simp)⟩
    cases fuel <;> exact dropped
  | cons link links ih =>
    cases fuel with
    | zero => cases enough
    | succ fuel =>
      obtain ⟨rfl, found, -⟩ := placed.first
      rw [Blocks.releaseFrom, found]
      exact ih placed.fdBlockFree (Nat.le_of_succ_le_succ enough)

end Placed
end Takibi.Fd
