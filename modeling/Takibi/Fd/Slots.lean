import Takibi.Fd.Ledger

/-! The slots of all tables as one list, and how the operations on one table change it. -/

namespace Takibi.Fd
open Stamped Control List ProcessFdContext Option Nat
section Chain
variable {blocks : List FdBlock}

@[simp] lemma chainEntries_nil : chainEntries [] = [] := rfl

@[simp] lemma chainEntries_cons (block : FdBlock) :
    chainEntries (block :: blocks) = block.slot.toList ++ chainEntries blocks := rfl

lemma chainEntries_append (blocks' : List FdBlock) :
    chainEntries (blocks ++ blocks') = chainEntries blocks ++ chainEntries blocks' := flatMap_append

lemma chainEntries_fresh : chainEntries [FdBlock.fresh] = replicate fdBlockSlots .unused := rfl

lemma length_chainEntries : (chainEntries blocks).length = fdBlockSlots * blocks.length := by
  induction blocks with
  | nil => rfl
  | cons block blocks ih =>
    rw [chainEntries_cons, length_append, ih, Vector.length_toList, length_cons, mul_succ, Nat.add_comm]

lemma chainEntries_getElem? (fd : ℕ) : (blocks[fd / fdBlockSlots]?.map fun block =>
      block.slot.get ⟨fd % fdBlockSlots, mod_lt _ (by decide)⟩) = (chainEntries blocks)[fd]? := by
  induction blocks generalizing fd with
  | nil => simp
  | cons block blocks ih =>
    rw [chainEntries_cons]
    by_cases here : fd < fdBlockSlots
    · rw [getElem?_append_left (by simpa using here)]
      simp [div_eq_of_lt here, mod_eq_of_lt here, Vector.get, here]
    · obtain ⟨fd, rfl⟩ := Nat.exists_eq_add_of_le' (Nat.not_lt.mp here)
      rw [getElem?_append_right (by simp)]
      simpa [add_div_right _ (show 0 < fdBlockSlots by decide)] using ih fd

lemma chainEntries_modify (fd : ℕ) (entry : FdEntry) :
    chainEntries (blocks.modify (fd / fdBlockSlots) fun block =>
      ⟨block.slot.set (fd % fdBlockSlots) entry (mod_lt _ (by decide))⟩) =
      (chainEntries blocks).set fd entry := by
  induction blocks generalizing fd with
  | nil => simp
  | cons block blocks ih =>
    rw [chainEntries_cons]
    by_cases here : fd < fdBlockSlots
    · rw [set_append_left _ _ (by simpa using here)]
      simp [div_eq_of_lt here, mod_eq_of_lt here, Vector.toList_set]
    · obtain ⟨fd, rfl⟩ := Nat.exists_eq_add_of_le' (Nat.not_lt.mp here)
      rw [set_append_right _ _ (by simp)]
      simpa [add_div_right _ (show 0 < fdBlockSlots by decide)] using ih fd

end Chain

namespace ProcessFdContext
variable {ctx : ProcessFdContext} {fd : ℕ} {entry : FdEntry}

lemma entryAt_eq : ctx.entryAt fd = ctx.entries[fd]? := chainEntries_getElem? fd

lemma entries_setEntry : (ctx.setEntry fd entry).entries = ctx.entries.set fd entry := chainEntries_modify fd entry

lemma entries_appendBlock : ctx.appendBlock.entries = ctx.entries ++ replicate fdBlockSlots .unused := by
  rw [entries, appendBlock, chainEntries_append, chainEntries_fresh]
  rfl

end ProcessFdContext

namespace FdState

def slots (s : FdState) : List FdEntry :=
  (s.contexts.entries.flatMap fun entry => entry.2.entries) ++ s.undos.flatMap fun undo => chainEntries undo.blocks

variable {s : FdState} {process fd : ℕ} {ctx : ProcessFdContext} {entry : FdEntry}

lemma slots_setContext_new (absent : s.contexts.lookup process = none) :
    (s.setContext process ctx).slots = ctx.entries ++ s.slots := by
  rw [slots, setContext, AList.entries_insert_of_notMem (AList.lookup_eq_none.mp absent)]
  simp [slots]

lemma slots_focus (found : s.contexts.lookup process = some ctx) :
    ∃ rest, s.slots.Perm (ctx.entries ++ rest) ∧
      (∀ ctx', (s.setContext process ctx').slots.Perm (ctx'.entries ++ rest)) ∧
      ({ s with contexts := s.contexts.erase process } : FdState).slots = rest := by
  have mem : process ∈ s.contexts.entries.keys := AList.mem_keys.mp (by
    rw [← AList.lookup_isSome, found]
    rfl)
  obtain ⟨ctx', before, after, -, split, erased⟩ := exists_of_kerase mem
  have same : ctx' = ctx := by
    have := (AList.mem_lookup_iff (s := s.contexts) (a := process) (b := ctx')).mpr (by simp [split])
    exact some.inj (this.symm.trans found)
  subst same
  have herase : (s.contexts.erase process).entries = before ++ after := erased
  refine ⟨_, ?_, fun ctx' => ?_, rfl⟩
  · simp only [slots, herase]
    rw [split]
    simp only [flatMap_append, flatMap_cons, append_assoc]
    exact perm_append_comm_assoc _ _ _
  · simp only [slots, setContext, AList.insert, kinsert, erased, flatMap_append, flatMap_cons, append_assoc]
    rw [herase, flatMap_append, append_assoc]

lemma slots_entry (found : s.entryAt process fd = some entry) :
    ∃ rest, s.slots.Perm (entry :: rest) ∧
      ∀ entry', (s.setEntry process fd entry').slots.Perm (entry' :: rest) := by
  obtain ⟨ctx, table, placed⟩ := bind_eq_some_iff.mp found
  obtain ⟨rest, before, after, -⟩ := slots_focus table
  rw [entryAt_eq] at placed
  obtain ⟨lt, rfl⟩ := List.getElem?_eq_some_iff.mp placed
  refine ⟨ctx.entries.eraseIdx fd ++ rest, ?_, fun entry' => ?_⟩
  · exact before.trans ((getElem_cons_eraseIdx_perm lt).symm.append_right rest)
  · rw [setEntry, table]
    refine (after _).trans ?_
    rw [entries_setEntry]
    exact (set_perm_cons_eraseIdx lt entry').append_right rest

@[simp] lemma setEntry_shared : (s.setEntry process fd entry).shared = s.shared := by
  unfold setEntry
  split <;> rfl

@[simp] lemma appendBlock_shared : (s.appendBlock process).shared = s.shared := by
  unfold appendBlock
  split <;> rfl

variable (shared : Shared)

lemma slots_setEntry_with_shared :
    (({ s with shared } : FdState).setEntry process fd entry).slots = (s.setEntry process fd entry).slots := by
  unfold setEntry
  dsimp only
  split <;> rfl

lemma lookup_setEntry (found : s.contexts.lookup process = some ctx) :
    (s.setEntry process fd entry).contexts.lookup process = some (ctx.setEntry fd entry) := by
  rw [setEntry, found]
  exact AList.lookup_insert _

section Other
variable {other : ℕ} (ne : other ≠ process)
include ne

lemma lookup_setContext_of_ne (ctx : ProcessFdContext) :
    (s.setContext process ctx).contexts.lookup other = s.contexts.lookup other :=
  AList.lookup_insert_ne ne

lemma lookup_setEntry_of_ne :
    (s.setEntry process fd entry).contexts.lookup other = s.contexts.lookup other := by
  unfold setEntry
  split
  · rfl
  · exact lookup_setContext_of_ne ne _

lemma lookup_fdBlockEnsure_of_ne (missing : ℕ) :
    (fdBlockEnsure process missing s).2.contexts.lookup other = s.contexts.lookup other := by
  induction missing generalizing s with
  | zero => rfl
  | succ missing ih =>
    unfold fdBlockEnsure
    split
    · rfl
    · rw [ih]
      unfold appendBlock
      split
      · rfl
      · exact lookup_setContext_of_ne ne _

lemma lookup_installEntry_of_ne (h : Handle) (kind : UnifiedFdKind) :
    (s.installEntry process fd h kind).2.contexts.lookup other = s.contexts.lookup other := by
  unfold installEntry
  split
  · rfl
  split
  · rfl
  split
  · rfl
  · rfl
  · exact lookup_setEntry_of_ne ne

lemma lookup_unifiedFdInstall_of_ne (fd : ℕ) (h : Handle) :
    (s.unifiedFdInstall process fd h).2.contexts.lookup other = s.contexts.lookup other := by
  unfold unifiedFdInstall
  split
  · rfl
  case h_2 ctx found =>
  split
  · rfl
  split
  · rfl
  have ensured := lookup_fdBlockEnsure_of_ne (s := s) ne (fd / fdBlockSlots + 1 - ctx.blocks.length)
  split
  case h_1 s' eq =>
    rw [eq] at ensured
    exact ensured
  case h_2 s' eq =>
    rw [eq] at ensured
    rw [lookup_installEntry_of_ne ne]
    exact ensured

lemma lookup_unifiedFdSetCloseOnExec_of_ne (fd : ℕ) (value : Bool) :
    (s.unifiedFdSetCloseOnExec process fd value).2.contexts.lookup other = s.contexts.lookup other := by
  unfold unifiedFdSetCloseOnExec
  split
  · rfl
  split
  · exact lookup_setEntry_of_ne ne
  · rfl

end Other

/-! ### Scans -/

section Scan
variable {entries : List FdEntry} {start base : ℕ}

lemma nextOpen_eq_some (found : nextOpen start base entries = some fd) :
    start ≤ fd ∧ base ≤ fd ∧ fd < base + entries.length ∧
      ∀ entry, entries[fd - base]? = some entry → entry.kind ≠ .empty := by
  induction entries generalizing base with
  | nil => cases found
  | cons entry entries ih =>
    unfold nextOpen at found
    split at found
    case isTrue hit =>
      cases found
      refine ⟨hit.1, le_rfl, by simp, fun entry' placed => ?_⟩
      simp at placed
      exact placed ▸ hit.2
    case isFalse =>
      obtain ⟨above, past, below, used⟩ := ih found
      rw [length_cons]
      refine ⟨above, by omega, by omega, ?_⟩
      obtain ⟨k, rfl⟩ := Nat.exists_eq_add_of_le past
      rw [show base + 1 + k - base = k + 1 by omega, getElem?_cons_succ]
      simpa using used

lemma nextOpen_le (found : nextOpen start base entries = some fd) {k : ℕ} (above : start ≤ base + k)
    (placed : entries[k]? = some entry) (used : entry.kind ≠ .empty) : fd ≤ base + k := by
  induction entries generalizing base k with
  | nil => cases placed
  | cons head entries ih =>
    unfold nextOpen at found
    split at found
    case isTrue =>
      cases found
      exact Nat.le_add_right ..
    case isFalse miss =>
      cases k with
      | zero =>
        cases placed
        exact absurd ⟨above, used⟩ miss
      | succ k =>
        have := ih found (by omega) placed
        omega

lemma nextOpen_eq_none (none : nextOpen start base entries = none) {k : ℕ} (above : start ≤ base + k)
    (placed : entries[k]? = some entry) : entry.kind = .empty := by
  induction entries generalizing base k with
  | nil => cases placed
  | cons head entries ih =>
    unfold nextOpen at none
    split at none
    case isTrue => cases none
    case isFalse miss =>
      cases k with
      | zero =>
        cases placed
        by_contra used
        exact miss ⟨above, used⟩
      | succ k => exact ih none (by omega) placed

lemma allocScan_spec (limit first base : ℕ) (entries : List FdEntry) :
    ∃ fd, IsLeast {fd | first ≤ fd ∧ base ≤ fd ∧
        ∀ entry, entries[fd - base]? = some entry → entry.kind = .empty} fd ∧
      allocScan limit first base entries = if fd < limit then .allocated fd else .full := by
  induction entries generalizing base with
  | nil =>
    refine ⟨max first base, ⟨⟨le_max_left .., le_max_right .., nofun⟩, fun fd h => max_le h.1 h.2.1⟩, ?_⟩
    have : (if base < first then first else base) = max first base := by
      rw [max_def]
      split_ifs <;> omega
    simp only [allocScan, this]
    split_ifs <;> first | rfl | omega
  | cons head entries ih =>
    unfold allocScan
    obtain ⟨fd, ⟨⟨above, past, vacant⟩, least⟩, result⟩ := ih (base + 1)
    -- the slots behind the head are the same set of descriptors, seen from the next base
    have shift : ∀ fd, base + 1 ≤ fd → (head :: entries)[fd - base]? = entries[fd - (base + 1)]? := by
      intro fd past
      rw [show fd - base = fd - (base + 1) + 1 by omega, getElem?_cons_succ]
    by_cases hit : first ≤ base ∧ head.kind = .empty
    · refine ⟨base, ⟨⟨hit.1, le_rfl, fun entry placed => ?_⟩, fun fd h => h.2.1⟩, ?_⟩
      · simp at placed
        exact placed ▸ hit.2
      · rw [if_pos hit]
        split_ifs <;> first | rfl | omega
    · refine ⟨fd, ⟨⟨above, by omega, fun entry placed => vacant entry (shift fd past ▸ placed)⟩, ?_⟩, ?_⟩
      · rintro fd' ⟨above', past', vacant'⟩
        have ne : fd' ≠ base := by
          rintro rfl
          exact hit ⟨above', vacant' head (by simp)⟩
        exact least ⟨above', by omega, fun entry placed => vacant' entry (shift fd' (by omega) ▸ placed)⟩
      · rw [if_neg hit, result]
        split_ifs <;> first | rfl | omega

end Scan

lemma unifiedFdNextOpen_eq_some {start : ℕ} (table : s.contexts.lookup process = some ctx)
    (found : s.unifiedFdNextOpen process start = some fd) :
    start ≤ fd ∧ fd < ctx.entries.length ∧ ∃ entry, s.entryAt process fd = some entry ∧ entry.kind ≠ .empty := by
  rw [unifiedFdNextOpen, table] at found
  obtain ⟨above, -, below, used⟩ := nextOpen_eq_some found
  rw [Nat.zero_add] at below
  refine ⟨above, below, ctx.entries[fd], ?_, used _ (getElem?_eq_getElem below)⟩
  rw [entryAt, table, bind_some, entryAt_eq, getElem?_eq_getElem below]

end FdState
end Takibi.Fd
