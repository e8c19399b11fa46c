import Takibi.Fd.Blocks

/-! The tables over chains of blocks are what the tables over linked blocks compute: whatever the links do, the
chains they spell move as the tables' own operations move them. -/

namespace Takibi.Fd
open Stamped Pool List Option FdState Function

section Contexts
variable {contexts contexts' : AList fun _ : ℕ => ProcessFdContext} {process : ℕ} {ctx : ProcessFdContext}

lemma entries_perm (same : ∀ process, contexts'.lookup process = contexts.lookup process) :
    contexts'.entries.Perm contexts.entries :=
  List.lookup_ext contexts'.nodupKeys contexts.nodupKeys fun process ctx => by
    rw [show contexts'.entries.dlookup process = contexts.entries.dlookup process from same process]

lemma entries_erase_perm (same : ∀ p ≠ process, contexts'.lookup p = contexts.lookup p) :
    (contexts'.erase process).entries.Perm (contexts.erase process).entries := by
  refine entries_perm fun p => ?_
  by_cases eq : p = process
  · rw [eq, AList.lookup_erase, AList.lookup_erase]
  · rw [AList.lookup_erase_ne eq, AList.lookup_erase_ne eq, same p eq]

lemma entries_perm_cons (found : contexts.lookup process = some ctx) :
    contexts.entries.Perm (⟨process, ctx⟩ :: (contexts.erase process).entries) := by
  rw [← AList.entries_insert_of_notMem (by simp [AList.mem_erase])]
  refine entries_perm fun p => ?_
  by_cases same : p = process
  · rw [same, found, AList.lookup_insert]
  · rw [AList.lookup_insert_ne same, AList.lookup_erase_ne same]

end Contexts

lemma zip_perm_cons {α β : Type*} {as : List α} {bs : List β} {a : α} {b : β} {i : ℕ} (here : as[i]? = some a)
    (there : bs[i]? = some b) : (as.zip bs).Perm ((a, b) :: (as.eraseIdx i).zip (bs.eraseIdx i)) := by
  induction i generalizing as bs with
  | zero =>
    obtain ⟨as, rfl⟩ := head?_eq_some_iff.mp (head?_eq_getElem?.trans here)
    obtain ⟨bs, rfl⟩ := head?_eq_some_iff.mp (head?_eq_getElem?.trans there)
    exact .rfl
  | succ i ih =>
    cases as with
    | nil => cases here
    | cons a' as =>
      cases bs with
      | nil => cases there
      | cons b' bs => exact ((ih here there).cons _).trans (.swap _ _ _)

namespace FdState

def dropContext (s : FdState) (process : ℕ) : FdState := { s with contexts := s.contexts.erase process }

/-- The chains of the tables and the detached ones, each with the name of its first block. -/
def chains (s : FdState) (links : Links) : List (Handle × List FdBlock) :=
  (s.contexts.entries.map fun entry => ((links.heads entry.1).getD .null, entry.2.blocks)) ++
    links.undos.zip (s.undos.map (·.blocks))

variable {s s' : FdState} {links : Links} {process : ℕ} {ctx : ProcessFdContext}

lemma chains_perm_cons (found : s.contexts.lookup process = some ctx) :
    (s.chains links).Perm (((links.heads process).getD .null, ctx.blocks) :: (s.dropContext process).chains links) :=
  ((entries_perm_cons found).map _).append_right _

lemma chains_absent (gone : s.contexts.lookup process = none) :
    (s.chains links).Perm ((s.dropContext process).chains links) := by
  have same : s.contexts.entries.Perm (s.contexts.erase process).entries := by
    refine entries_perm fun p => ?_
    by_cases eq : p = process
    · rw [eq, gone, AList.lookup_erase]
    · rw [AList.lookup_erase_ne eq]
  exact (same.map _).append_right _

lemma chains_dropContext (lookups : ∀ p ≠ process, s'.contexts.lookup p = s.contexts.lookup p)
    (undos : s'.undos = s.undos) (blocks : Blocks) (first : Option Handle) :
    ((s.dropContext process).chains links).Perm
      ((s'.dropContext process).chains ⟨blocks, update links.heads process first, links.undos⟩) := by
  simp only [chains, dropContext, undos]
  refine .append_right _ (.symm (((entries_erase_perm lookups).map _).trans (.of_eq (map_congr_left fun entry mem => ?_))))
  have ne : entry.1 ≠ process := (AList.mem_erase.mp (mem_keys_of_mem mem)).1
  rw [update_of_ne ne]

lemma chains_detach (s : FdState) (links : Links) (undo : UnifiedFdCloneUndo) (head : Handle) :
    (({ s with undos := undo :: s.undos } : FdState).chains { links with undos := head :: links.undos }).Perm
      ((head, undo.blocks) :: s.chains links) := perm_middle

lemma chains_finish {undo : UnifiedFdCloneUndo} {head : Handle} {index : ℕ} (here : links.undos[index]? = some head)
    (there : s.undos[index]? = some undo) :
    (s.chains links).Perm ((head, undo.blocks) ::
      ({ s with undos := s.undos.eraseIdx index } : FdState).chains
        { links with undos := links.undos.eraseIdx index }) := by
  have found : (s.undos.map (·.blocks))[index]? = some undo.blocks := by rw [getElem?_map, there]; rfl
  refine ((zip_perm_cons here found).append_left _).trans ?_
  simp only [chains, eraseIdx_map]
  exact perm_middle

lemma fdBlockEnsure_succ {made : ℕ} (missing : ℕ) (room : s.shared.room = made + 1)
    (found : s.contexts.lookup process = some ctx) :
    ∃ s', fdBlockEnsure process (missing + 1) s = fdBlockEnsure process missing s' ∧ s'.shared.room = made ∧
      s'.contexts = s.contexts.insert process ctx.appendBlock ∧ s'.undos = s.undos := by
  rw [fdBlockEnsure, Shared.fdBlockAlloc, if_neg (by omega)]
  refine ⟨_, rfl, ?_⟩
  rw [appendBlock]
  dsimp only
  rw [found]
  exact ⟨by simp [setContext, room], rfl, rfl⟩

/-- What `fd_block_ensure` leaves, where the pool grants `made` of the `missing` blocks. -/
lemma fdBlockEnsure_made {made missing : ℕ} (le : made ≤ missing) (room : s.shared.room = made)
    (found : s.contexts.lookup process = some ctx) :
    (fdBlockEnsure process missing s).1 = decide (made = missing) ∧
      (fdBlockEnsure process missing s).2.contexts.lookup process =
        some { ctx with blocks := ctx.blocks ++ replicate made .fresh } ∧
      (fdBlockEnsure process missing s).2.undos = s.undos := by
  induction missing generalizing made s ctx with
  | zero =>
    obtain rfl := Nat.le_zero.mp le
    exact ⟨rfl, by rw [replicate_zero, append_nil]; exact found, rfl⟩
  | succ missing ih =>
    cases made with
    | zero =>
      rw [fdBlockEnsure, Shared.fdBlockAlloc, if_pos room]
      exact ⟨rfl, by rw [replicate_zero, append_nil]; exact found, rfl⟩
    | succ made =>
      obtain ⟨s', step, room, contexts, undos⟩ := fdBlockEnsure_succ missing room found
      have grown : s'.contexts.lookup process = some ctx.appendBlock := contexts ▸ AList.lookup_insert _
      obtain ⟨answer, lookup, kept⟩ := ih (Nat.le_of_succ_le_succ le) room grown
      rw [step]
      refine ⟨answer.trans (by simp), lookup.trans ?_, kept.trans undos⟩
      simp [ProcessFdContext.appendBlock, replicate_succ]

end FdState

structure Represents (links : Links) (s : FdState) : Prop where
  placed : ∃ chains, Placed links.blocks chains ∧ (chains.map LinkedChain.view).Perm (s.chains links)
  heads : ∀ process, (links.heads process).isSome ↔ process ∈ s.contexts
  undos : links.undos.length = s.undos.length

namespace Represents
variable {links : Links} {s s' : FdState} {process fd : ℕ} {ctx ctx' : ProcessFdContext} {entry : FdEntry}
  {blocks : Blocks} {head h : Handle} {l : List (Handle × LinkedBlock)} {chains : List LinkedChain}

lemma boot (pages : ℕ) : Represents .boot (FdState.boot pages) :=
  ⟨⟨[], ⟨.empty, rfl⟩, .rfl⟩, fun _ => by simp [Links.boot, FdState.boot], rfl⟩

lemma fdBlockLookup_eq (named : links.heads process = some head) (placed : Placed links.blocks ((head, l) :: chains)) :
    links.fdBlockLookup process fd = l[fd / fdBlockSlots]?.map Prod.fst := by
  rw [Links.fdBlockLookup, named, bind_some]
  exact placed.first.nth_eq _

section
variable (rep : Represents links s)
include rep

lemma with_shared (shared : Shared) : Represents links { s with shared } := ⟨rep.placed, rep.heads, rep.undos⟩

lemma split {ofHead : List FdBlock} {rest : List (Handle × List FdBlock)}
    (focus : (s.chains links).Perm ((head, ofHead) :: rest)) :
    ∃ l chains, Placed links.blocks ((head, l) :: chains) ∧ l.map (·.2.toFdBlock) = ofHead ∧
      (chains.map LinkedChain.view).Perm rest := by
  obtain ⟨chains, placed, same⟩ := rep.placed
  obtain ⟨⟨head', l⟩, mem, view⟩ := mem_map.mp ((same.trans focus).mem_iff.mpr mem_cons_self)
  obtain ⟨rfl, rfl⟩ := Prod.mk.inj view
  obtain ⟨before, after, rfl⟩ := append_of_mem mem
  have swap : (before ++ (head', l) :: after).Perm ((head', l) :: (before ++ after)) := perm_middle
  exact ⟨l, before ++ after, placed.perm swap, rfl, Perm.cons_inv (((swap.map _).symm.trans same).trans focus)⟩

lemma absent (none : s.contexts.lookup process = none) : links.heads process = Option.none := by
  rw [← not_isSome_iff_eq_none, rep.heads]
  exact AList.lookup_eq_none.mp none

lemma table (found : s.contexts.lookup process = some ctx) :
    ∃ head l chains, links.heads process = some head ∧ Placed links.blocks ((head, l) :: chains) ∧
      l.map (·.2.toFdBlock) = ctx.blocks ∧
      (chains.map LinkedChain.view).Perm ((s.dropContext process).chains links) := by
  obtain ⟨head, named⟩ := isSome_iff_exists.mp ((rep.heads process).mpr (AList.lookup_isSome.mp (by simp [found])))
  have focus : (s.chains links).Perm _ := chains_perm_cons found
  rw [named] at focus
  obtain ⟨l, chains, placed, view, others⟩ := rep.split focus
  exact ⟨head, l, chains, named, placed, view, others⟩

lemma heads_update {first : Option Handle} (lookups : ∀ p ≠ process, s'.contexts.lookup p = s.contexts.lookup p)
    (same : first.isSome = (s'.contexts.lookup process).isSome) (p : ℕ) :
    (update links.heads process first p).isSome ↔ p ∈ s'.contexts := by
  rw [← AList.lookup_isSome]
  by_cases eq : p = process
  · rw [eq, update_self, same]
  · rw [update_of_ne eq, rep.heads, ← AList.lookup_isSome, lookups p eq]

section
variable (others : (chains.map LinkedChain.view).Perm ((s.dropContext process).chains links))
  (lookups : ∀ p ≠ process, s'.contexts.lookup p = s.contexts.lookup p) (undos : s'.undos = s.undos)
include others lookups undos

lemma put (placed : Placed blocks ((h, l) :: chains)) (view : l.map (·.2.toFdBlock) = ctx'.blocks)
    (found : s'.contexts.lookup process = some ctx') :
    Represents ⟨blocks, update links.heads process (some h), links.undos⟩ s' where
  placed := by
    refine ⟨_, placed, (Perm.cons _ others).trans (.trans ?_ (chains_perm_cons found).symm)⟩
    dsimp only [LinkedChain.view]
    rw [view, update_self, getD_some]
    exact (chains_dropContext lookups undos _ _).cons _
  heads := rep.heads_update lookups (by rw [found]; rfl)
  undos := rep.undos.trans (congrArg length undos.symm)

/-- A table whose chain starts where it did. -/
lemma put_kept (named : links.heads process = some head) (placed : Placed blocks ((head, l) :: chains))
    (view : l.map (·.2.toFdBlock) = ctx'.blocks) (found : s'.contexts.lookup process = some ctx') :
    Represents { links with blocks } s' := by
  have := rep.put others lookups undos placed view found
  rwa [← named, update_eq_self] at this

lemma remove (placed : Placed blocks chains) (gone : s'.contexts.lookup process = none) :
    Represents ⟨blocks, update links.heads process none, links.undos⟩ s' where
  placed := by
    exact ⟨_, placed, others.trans ((chains_dropContext lookups undos _ _).trans (chains_absent gone).symm)⟩
  heads := rep.heads_update lookups (by rw [gone]; rfl)
  undos := rep.undos.trans (congrArg length undos.symm)

end

lemma entryAt_eq : links.entryAt process fd = s.entryAt process fd := by
  rw [Links.entryAt, FdState.entryAt]
  cases found : s.contexts.lookup process with
  | none => rw [Links.fdBlockLookup, rep.absent found]; rfl
  | some ctx =>
    obtain ⟨head, l, chains, named, placed, view, -⟩ := rep.table found
    rw [fdBlockLookup_eq named placed, bind_some, ProcessFdContext.entryAt, ← view, getElem?_map]
    cases at? : l[fd / fdBlockSlots]? with
    | none => rfl
    | some link =>
      rw [map_some, bind_some, placed.first.look_eq (mem_of_getElem? at?)]
      rfl

/-- What the scans of a table see. -/
lemma entries_eq (found : s.contexts.lookup process = some ctx) : links.entries process = ctx.entries := by
  obtain ⟨head, l, chains, named, placed, view, -⟩ := rep.table found
  rw [Links.entries, named, elim_some, placed.first.walk_eq placed.length_le, ProcessFdContext.entries, ← view, List.map_map]
  rfl

lemma setEntry : Represents (links.setEntry process fd entry) (s.setEntry process fd entry) := by
  rw [Links.setEntry, FdState.setEntry]
  cases found : s.contexts.lookup process with
  | none => rw [Links.fdBlockLookup, rep.absent found]; exact rep
  | some ctx =>
    obtain ⟨head, l, chains, named, placed, view, others⟩ := rep.table found
    rw [fdBlockLookup_eq named placed]
    have lookups : ∀ p ≠ process, (s.setContext process (ctx.setEntry fd entry)).contexts.lookup p =
        s.contexts.lookup p := fun p ne => lookup_setContext_of_ne ne _
    have found' : (s.setContext process (ctx.setEntry fd entry)).contexts.lookup process = some _ :=
      AList.lookup_insert _
    cases at? : l[fd / fdBlockSlots]? with
    | none =>
      refine rep.put_kept others lookups rfl named placed (view.trans (modify_eq_self ?_).symm) found'
      rw [← view, length_map]
      exact getElem?_eq_none_iff.mp at?
    | some link =>
      obtain ⟨lt, rfl⟩ := List.getElem?_eq_some_iff.mp at?
      have parts : l = l.take (fd / fdBlockSlots) ++ l[fd / fdBlockSlots] :: l.drop (fd / fdBlockSlots + 1) := by
        rw [← drop_eq_getElem_cons lt, take_append_drop]
      rw [parts] at placed
      refine rep.put_kept others lookups rfl named (placed.modify rfl) ?_ found'
      rw [ProcessFdContext.setEntry, modify_eq_take_cons_drop (by rw [← view, length_map]; exact lt)]
      simp [← view, map_take, map_drop]

lemma contextEnsure (granted : Bool) :
    Represents (links.contextEnsure process granted) (s.unifiedFdContextEnsure process granted) := by
  rw [Links.contextEnsure, FdState.unifiedFdContextEnsure]
  cases found : s.contexts.lookup process with
  | some ctx =>
    obtain ⟨head, -, -, named, -⟩ := rep.table found
    rw [named, if_neg (by simp)]
    exact rep
  | none =>
    rw [rep.absent found]
    cases granted with
    | false => exact rep
    | true =>
      obtain ⟨chains, placed, same⟩ := rep.placed
      exact rep.put (same.trans (chains_absent found)) (fun p ne => lookup_setContext_of_ne ne _) rfl placed.null rfl
        (AList.lookup_insert _)

lemma contextRelease : Represents (links.contextRelease process) (s.unifiedFdContextRelease process) := by
  rw [Links.contextRelease, FdState.unifiedFdContextRelease]
  cases found : s.contexts.lookup process with
  | none => rw [rep.absent found]; exact rep
  | some ctx =>
    obtain ⟨head, l, chains, named, placed, -, others⟩ := rep.table found
    rw [named]
    exact rep.remove others (fun p ne => AList.lookup_erase_ne ne) rfl (placed.releaseFrom placed.length_le)
      (AList.lookup_erase _ _)

lemma cloneDetach (installs : ℕ) :
    Represents (links.cloneDetach process) (s.unifiedFdCloneDetach process installs) := by
  rw [Links.cloneDetach, FdState.unifiedFdCloneDetach]
  cases found : s.contexts.lookup process with
  | none => rw [rep.absent found]; exact rep
  | some ctx =>
    obtain ⟨head, l, chains, named, placed, view, others⟩ := rep.table found
    rw [named]
    have lookups : ∀ p ≠ process, (s.setContext process { ctx with blocks := [] }).contexts.lookup p =
        s.contexts.lookup p := fun p ne => lookup_setContext_of_ne ne _
    have emptied : (s.setContext process { ctx with blocks := [] }).contexts.lookup process = some _ :=
      AList.lookup_insert _
    -- The table keeps an empty chain, and its blocks stand first among the detached ones.
    have detached := chains_detach (s.setContext process { ctx with blocks := [] })
      ⟨links.blocks, update links.heads process (some .null), links.undos⟩ ⟨ctx.blocks, installs⟩ head
    have rest := others.trans (chains_dropContext lookups rfl links.blocks (some .null))
    have focus : ((s.setContext process { ctx with blocks := [] }).chains
        ⟨links.blocks, update links.heads process (some .null), links.undos⟩).Perm
        ((.null, []) :: chains.map LinkedChain.view) := by
      refine (chains_perm_cons emptied).trans ?_
      dsimp only
      rw [update_self]
      exact rest.symm.cons _
    refine ⟨⟨_, placed.null, .trans ?_ (detached.trans (focus.cons _)).symm⟩,
      rep.heads_update lookups (by rw [emptied]; rfl), congrArg (· + 1) rep.undos⟩
    rw [← view]
    exact .swap _ _ _

lemma cloneUndoFinish (index : ℕ) :
    Represents (links.cloneUndoFinish index) (s.unifiedFdCloneUndoFinish index) := by
  rw [Links.cloneUndoFinish, FdState.unifiedFdCloneUndoFinish]
  cases here : links.undos[index]? with
  | none =>
    have there : s.undos[index]? = none := by
      rw [getElem?_eq_none_iff, ← rep.undos]
      exact getElem?_eq_none_iff.mp here
    rw [there]
    exact rep
  | some head =>
    have lt : index < s.undos.length := rep.undos ▸ (List.getElem?_eq_some_iff.mp here).1
    have there := List.getElem?_eq_getElem lt
    rw [there]
    obtain ⟨l, chains, placed, -, others⟩ := rep.split (chains_finish here there)
    refine ⟨⟨chains, placed.releaseFrom placed.length_le, others⟩, rep.heads, ?_⟩
    simp [length_eraseIdx, rep.undos]

lemma grown {made missing : ℕ} (found : s.contexts.lookup process = some ctx)
    (others : (chains.map LinkedChain.view).Perm ((s.dropContext process).chains links))
    (placed : Placed blocks ((h, l) :: chains)) (view : l.map (·.2.toFdBlock) = ctx.blocks ++ replicate made .fresh)
    (le : made ≤ missing) :
    Represents ⟨blocks, update links.heads process (some h), links.undos⟩
      (FdState.fdBlockEnsure process missing { s with shared := { s.shared with room := made } }).2 := by
  obtain ⟨-, lookup, undos⟩ := fdBlockEnsure_made (s := { s with shared := { s.shared with room := made } }) le rfl found
  exact rep.put others (fun p ne => lookup_fdBlockEnsure_of_ne ne missing) undos placed view lookup

/-- `fd_block_ensure` makes what the chain lacks, as far as the pool grants it, and answers with the block that
a lookup finds from then on. -/
lemma fdBlockEnsure (places : ℕ → Option ℕ) (found : s.contexts.lookup process = some ctx) :
    ∃ made ≤ fd / fdBlockSlots + 1 - ctx.blocks.length,
      Represents (links.fdBlockEnsure process fd places).2
        (FdState.fdBlockEnsure process (fd / fdBlockSlots + 1 - ctx.blocks.length)
          { s with shared := { s.shared with room := made } }).2 ∧
      ((links.fdBlockEnsure process fd places).1.isSome ↔ made = fd / fdBlockSlots + 1 - ctx.blocks.length) ∧
      ∀ h, (links.fdBlockEnsure process fd places).1 = some h →
        (links.fdBlockEnsure process fd places).2.fdBlockLookup process fd = some h := by
  obtain ⟨head, l, chains, named, placed, view, others⟩ := rep.table found
  rw [← view, length_map, Links.fdBlockEnsure, named]
  dsimp only
  cases l with
  | nil =>
    obtain rfl : head = .null := placed.first
    rw [look_null, if_neg (by simp)]
    cases granted : links.blocks.fdBlockAlloc (places 0) with
    | none => exact ⟨0, Nat.zero_le _, rep.with_shared _, by simp, fun h same => by cases same⟩
    | some pair =>
      obtain ⟨h, blocks⟩ := pair
      have started : Placed blocks ((h, [] ++ (h, .fresh) :: []) :: chains) := placed.begin granted
      obtain ⟨l, made, placed, grown, le, all, target⟩ := started.ensureFrom places 0 (fd / fdBlockSlots)
      refine ⟨made + 1, by simpa using le, ?_, by simpa using all, fun h' same => ?_⟩
      · refine rep.grown found others placed ?_ (by simpa using le)
        rw [← view]
        exact (Prod.mk.inj grown).2.trans (by simp [LinkedBlock.fresh, replicate_succ])
      · refine (fdBlockLookup_eq (update_self _ _ _) placed).trans ?_
        rw [← target h' same]
        simp
  | cons link after =>
    obtain ⟨rfl, known, -⟩ := placed.first
    rw [known, isSome_some, if_pos rfl]
    have started : Placed links.blocks ((link.1, [] ++ (link.1, link.2) :: after) :: chains) := placed
    obtain ⟨l, made, placed, grown, le, all, target⟩ := started.ensureFrom places 0 (fd / fdBlockSlots)
    have le : made ≤ fd / fdBlockSlots + 1 - (after.length + 1) := by simpa using le
    refine ⟨made, le, ?_, by simpa using all, fun h' answer => ?_⟩
    · have := rep.grown found others placed ((Prod.mk.inj grown).2.trans (by rw [← view]; rfl)) le
      rwa [← named, update_eq_self] at this
    · refine Eq.trans (fdBlockLookup_eq (show _ = some link.1 from named) placed) ?_
      rw [← target h' answer]
      simp

end
end Represents

inductive BlockEvent
  | contextEnsure (process : ℕ) (granted : Bool)
  | contextRelease (process : ℕ)
  | ensure (process fd : ℕ) (places : ℕ → Option ℕ)
  | store (process fd : ℕ) (entry : FdEntry)
  | cloneDetach (child installs : ℕ)
  | cloneUndoFinish (index : ℕ)

def Links.step (links : Links) : BlockEvent → Links
  | .contextEnsure process granted => links.contextEnsure process granted
  | .contextRelease process => links.contextRelease process
  | .ensure process fd places => (links.fdBlockEnsure process fd places).2
  | .store process fd entry => links.setEntry process fd entry
  | .cloneDetach child _ => links.cloneDetach child
  | .cloneUndoFinish index => links.cloneUndoFinish index

/-- The same events on the tables, where `room` is what the pool grants. -/
inductive FdState.Moves : FdState → BlockEvent → FdState → Prop
  | contextEnsure {s process granted} : Moves s (.contextEnsure process granted) (s.unifiedFdContextEnsure process granted)
  | contextRelease {s process} : Moves s (.contextRelease process) (s.unifiedFdContextRelease process)
  | ensureAbsent {s process fd places} (absent : s.contexts.lookup process = none) :
      Moves s (.ensure process fd places) s
  | ensure {s process fd places ctx} (found : s.contexts.lookup process = some ctx) (room : ℕ) :
      Moves s (.ensure process fd places)
        (FdState.fdBlockEnsure process (fd / fdBlockSlots + 1 - ctx.blocks.length)
          { s with shared := { s.shared with room } }).2
  | store {s process fd entry} : Moves s (.store process fd entry) (s.setEntry process fd entry)
  | cloneDetach {s child installs} : Moves s (.cloneDetach child installs) (s.unifiedFdCloneDetach child installs)
  | cloneUndoFinish {s index} : Moves s (.cloneUndoFinish index) (s.unifiedFdCloneUndoFinish index)

inductive FdState.Moved : FdState → List BlockEvent → FdState → Prop
  | nil {s} : Moved s [] s
  | cons {s s' s'' event events} : FdState.Moves s event s' → Moved s' events s'' → Moved s (event :: events) s''

lemma Represents.step {links : Links} {s : FdState} (rep : Represents links s) (event : BlockEvent) :
    ∃ s', s.Moves event s' ∧ Represents (links.step event) s' := by
  cases event with
  | contextEnsure process granted => exact ⟨_, .contextEnsure, rep.contextEnsure granted⟩
  | contextRelease process => exact ⟨_, .contextRelease, rep.contextRelease⟩
  | ensure process fd places =>
    cases found : s.contexts.lookup process with
    | none =>
      refine ⟨s, .ensureAbsent found, ?_⟩
      rw [Links.step, Links.fdBlockEnsure, rep.absent found]
      exact rep
    | some ctx =>
      obtain ⟨made, -, rep, -⟩ := rep.fdBlockEnsure places found
      exact ⟨_, .ensure found made, rep⟩
  | store process fd entry => exact ⟨_, .store, rep.setEntry⟩
  | cloneDetach child installs => exact ⟨_, .cloneDetach, rep.cloneDetach installs⟩
  | cloneUndoFinish index => exact ⟨_, .cloneUndoFinish, rep.cloneUndoFinish index⟩

lemma Represents.run {links : Links} {s : FdState} (rep : Represents links s) (events : List BlockEvent) :
    ∃ s', s.Moved events s' ∧ Represents (events.foldl Links.step links) s' := by
  induction events generalizing links s with
  | nil => exact ⟨s, .nil, rep⟩
  | cons event events ih =>
    obtain ⟨s', moves, rep⟩ := rep.step event
    obtain ⟨s'', moved, rep⟩ := ih rep
    exact ⟨s'', .cons moves moved, rep⟩

/-- Whatever happens to the linked blocks from boot on, the tables over chains take the same run, and every
lookup and every scan of a table sees the same slots in both. -/
theorem blocks_refine_tables (pages : ℕ) (events : List BlockEvent) :
    ∃ s, (FdState.boot pages).Moved events s ∧
      (∀ process fd, (events.foldl Links.step .boot).entryAt process fd = s.entryAt process fd) ∧
      ∀ process ctx, s.contexts.lookup process = some ctx →
        (events.foldl Links.step .boot).entries process = ctx.entries := by
  obtain ⟨s, moved, rep⟩ := (Represents.boot pages).run events
  exact ⟨s, moved, fun process fd => rep.entryAt_eq, fun process ctx found => rep.entries_eq found⟩
end Takibi.Fd
