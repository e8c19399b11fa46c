import Takibi.Fd.Slots

/-! Descriptor references are exact in every run: each operation keeps the ledger between the shared records
and the slots. -/

namespace Takibi.Fd
open Stamped Control FdState List Ledger ProcessFdContext Option

/-- The ledger holds between the shared records and all slots. The call in progress owes the pipe ends `owed`
and has not installed the objects `fresh`. -/
def Exact (s : FdState) (owed : List PipeEnd) (fresh : List Handle) : Prop := Ledger s.shared s.slots owed fresh

namespace Exact
variable {s s' : FdState} {owed : List PipeEnd} {fresh : List Handle} {process fd : ℕ} {ctx : ProcessFdContext}
  {entry : FdEntry} {h : Handle} {object : SharedObject}

section
variable (isExact : Exact s owed fresh)
include isExact

lemma setEntry (found : s.entryAt process fd = some entry) {entry' : FdEntry}
    (kind : entry'.kind = entry.kind) (handle : entry'.handle = entry.handle) :
    Exact (s.setEntry process fd entry') owed fresh := by
  obtain ⟨rest, before, after⟩ := slots_entry found
  have same : names (entry :: rest) = names (entry' :: rest) := by
    by_cases unused : entry.kind = .empty
    · rw [names_cons_empty unused, names_cons_empty (kind.trans unused)]
    · rw [names_cons_used unused, names_cons_used (kind ▸ unused), handle]
  have moved : Ledger s.shared (entry' :: rest) owed fresh :=
    (perm isExact before).congr (same ▸ List.Perm.refl _) rfl
  unfold Exact
  rw [setEntry_shared]
  exact moved.perm (after entry').symm

lemma setCloseOnExec (process fd : ℕ) (value : Bool) :
    Exact (s.unifiedFdSetCloseOnExec process fd value).2 owed fresh := by
  unfold unifiedFdSetCloseOnExec
  split
  case h_1 => exact isExact
  case h_2 entry found =>
    split
    · exact isExact.setEntry found rfl rfl
    · exact isExact

variable {shared : Shared}

lemma appendBlock (granted : s.shared.fdBlockAlloc = some shared)
    (found : s.contexts.lookup process = some ctx) :
    Exact ({ s with shared }.appendBlock process) owed fresh ∧
      ({ s with shared }.appendBlock process).contexts.lookup process = some ctx.appendBlock := by
  have grown : ({ s with shared } : FdState).appendBlock process =
      ({ s with shared } : FdState).setContext process ctx.appendBlock := by
    simp only [FdState.appendBlock, found]
  rw [grown]
  obtain ⟨rest, before, after, -⟩ := slots_focus found
  refine ⟨?_, AList.lookup_insert _⟩
  refine ((perm isExact before).blockAlloc granted).perm (.trans ?_ (after ctx.appendBlock).symm)
  rw [entries_appendBlock, append_assoc, append_assoc]
  exact perm_append_comm.append_left _

lemma blockEnsure (found : s.contexts.lookup process = some ctx) (missing : ℕ) :
    Exact (fdBlockEnsure process missing s).2 owed fresh ∧
      (fdBlockEnsure process missing s).2.shared.objects = s.shared.objects := by
  induction missing generalizing s ctx with
  | zero => exact ⟨isExact, rfl⟩
  | succ missing ih =>
    unfold fdBlockEnsure
    cases granted : s.shared.fdBlockAlloc with
    | none => exact ⟨isExact, rfl⟩
    | some shared =>
      obtain ⟨grown, found'⟩ := isExact.appendBlock granted found
      obtain ⟨kept, objects⟩ := ih grown found'
      refine ⟨kept, objects.trans ?_⟩
      rw [appendBlock_shared]
      unfold Shared.fdBlockAlloc at granted
      split at granted
      · cases granted
      · cases granted
        rfl

end

structure Installed (s : FdState) (owed : List PipeEnd) (fresh : List Handle) (h : Handle)
    (result : UnifiedFdInstallResult × FdState) : Prop where
  ok : result.1 = .ok → Exact result.2 owed (fresh.filter (· ≠ h))
  refused : result.1 ≠ .ok → Exact result.2 owed fresh ∧ result.2.shared.objects = s.shared.objects
  bounded : result.1 ≠ .refOverflow

lemma Installed.refuse (isExact : Exact s' owed fresh) (objects : s'.shared.objects = s.shared.objects)
    {result : UnifiedFdInstallResult} (refused : result ≠ .ok) (bounded : result ≠ .refOverflow) :
    Installed s owed fresh h (result, s') where
  ok ok := absurd ok refused
  refused _ := ⟨isExact, objects⟩
  bounded := bounded

lemma Installed.isExact {result : UnifiedFdInstallResult × FdState} (installed : Installed s owed fresh h result) :
    Exact result.2 owed fresh := by
  by_cases ok : result.1 = .ok
  · exact mono (installed.ok ok) (fun _ mem => (mem_filter.mp mem).1)
  · exact (installed.refused ok).1

section
variable (isExact : Exact s owed fresh)
include isExact

lemma installEntry (process fd : ℕ) (live : s.shared.objects.find h = some object) :
    Installed s owed fresh h (s.installEntry process fd h object.kind) := by
  unfold FdState.installEntry
  split
  case h_1 => exact .refuse isExact rfl nofun nofun
  case h_2 entry found =>
    split_ifs with wrong
    · exact .refuse isExact rfl nofun nofun
    · obtain ⟨unused, used⟩ := not_or.mp wrong
      obtain ⟨rest, before, after⟩ := slots_entry found
      obtain ⟨shared, retained, ledger⟩ := (perm isExact before).retain (not_not.mp unused) live
        ⟨object.kind, false, h.slot, h.generation⟩ used rfl
      rw [retained]
      refine ⟨fun _ => ?_, fun refused => absurd rfl refused, nofun⟩
      unfold Exact
      dsimp only
      rw [setEntry_shared, slots_setEntry_with_shared]
      exact ledger.perm (after _).symm

lemma install (process fd : ℕ) (h : Handle) : Installed s owed fresh h (s.unifiedFdInstall process fd h) := by
  unfold unifiedFdInstall
  split
  case h_1 => exact .refuse isExact rfl nofun nofun
  case h_2 ctx found =>
    split_ifs
    · exact .refuse isExact rfl nofun nofun
    split
    case h_1 => exact .refuse isExact rfl nofun nofun
    case h_2 object live =>
      obtain ⟨ensured, objects⟩ := isExact.blockEnsure found (fd / fdBlockSlots + 1 - ctx.blocks.length)
      split
      case h_1 s' eq =>
        rw [eq] at ensured objects
        exact .refuse ensured objects nofun nofun
      case h_2 s' eq =>
        rw [eq] at ensured objects
        have installed := ensured.installEntry process fd (objects ▸ live)
        exact ⟨installed.ok, fun refused => ⟨(installed.refused refused).1,
          (installed.refused refused).2.trans objects⟩, installed.bounded⟩

lemma duplicate (process oldFd newFd : ℕ) :
    Exact (s.unifiedFdDuplicate process oldFd newFd).2 owed fresh := by
  unfold unifiedFdDuplicate
  split_ifs
  · exact isExact
  split
  case h_1 => exact isExact
  case h_2 entry found =>
    split_ifs
    · exact isExact
    · exact (isExact.install process newFd entry.handle).isExact

lemma close_used (found : s.entryAt process fd = some entry) (used : entry.kind ≠ .empty) :
    ∃ shared, s.unifiedFdClose process fd = (.ok, { s with shared }.setEntry process fd .unused) ∧
      Exact ({ s with shared }.setEntry process fd .unused) owed fresh := by
  obtain ⟨rest, before, after⟩ := slots_entry found
  have ledger := perm isExact before
  have live : (s.shared.objects.find entry.handle).isSome := by
    have mem : entry.handle ∈ names (entry :: rest) := names_cons_used used ▸ mem_cons_self
    obtain ⟨object, live⟩ := ledger.counted.live _ mem
    rw [live]
    rfl
  obtain ⟨result, shared, released, valid, kept⟩ := ledger.release used .unused rfl
  refine ⟨shared, ?_, ?_⟩
  · unfold unifiedFdClose
    rw [found]
    simp only [if_pos (And.intro used live), released]
  · unfold Exact
    rw [setEntry_shared, slots_setEntry_with_shared]
    exact kept.perm (after _).symm

lemma close (process fd : ℕ) : Exact (s.unifiedFdClose process fd).2 owed fresh := by
  cases found : s.entryAt process fd with
  | none =>
    unfold unifiedFdClose
    rw [found]
    exact isExact
  | some entry =>
    by_cases used : entry.kind = .empty
    · unfold unifiedFdClose
      rw [found]
      simp only [used, ne_eq, not_true_eq_false, false_and, if_false]
      exact isExact
    · obtain ⟨shared, closed, kept⟩ := isExact.close_used found used
      rw [closed]
      exact kept

end

lemma create (process fd : ℕ) (object : SharedObject) (isExact : Exact s (object.pipeEnd.toList ++ owed) [])
    (place : Option ℕ) :
    ((s.unifiedObjectCreate process fd object place).1 = .ok →
        Exact (s.unifiedObjectCreate process fd object place).2 owed []) ∧
      ((s.unifiedObjectCreate process fd object place).1 ≠ .ok →
        Exact (s.unifiedObjectCreate process fd object place).2 (object.pipeEnd.toList ++ owed) []) := by
  unfold unifiedObjectCreate
  have unmade : ∀ result shared, s.shared.unifiedObjectAllocFirst object place = (result, shared) →
      (∀ handle, result ≠ .allocated handle) → shared = s.shared := by
    intro result shared made refused
    unfold Shared.unifiedObjectAllocFirst at made
    split_ifs at made
    · cases made
      rfl
    · split at made
      · cases made
        rfl
      · cases made
        exact absurd rfl (refused _)
  split
  case h_1 shared made =>
    rw [unmade _ _ made nofun]
    exact ⟨nofun, fun _ => isExact⟩
  case h_2 shared made =>
    rw [unmade _ _ made nofun]
    exact ⟨nofun, fun _ => isExact⟩
  case h_3 handle shared made =>
    obtain ⟨ledger, live, unnamed⟩ := allocFirst isExact made
    have started : Exact { s with shared } owed [handle] := ledger
    have installed := started.install process fd handle
    -- an object that was not installed has no slot naming it, since its count is still 0
    have freed : ∀ result s', unifiedFdInstall { s with shared } process fd handle = (result, s') →
        result ≠ .ok →
        Exact { s' with shared := s'.shared.unifiedObjectFree handle } (object.pipeEnd.toList ++ owed) [] := by
      intro result s' eq refused
      rw [eq] at installed
      obtain ⟨kept, objects⟩ := installed.refused refused
      have live' : s'.shared.objects.find handle = some { object with refs := 0 } := objects ▸ live
      have none : handle ∉ names s'.slots := by
        rw [← count_eq_zero, ← kept.counted.count _ _ live']
      have goes := objectFree kept live' none
      exact goes
    split
    case h_1 s' eq =>
      rw [eq] at installed
      refine ⟨fun _ => ?_, fun refused => absurd rfl refused⟩
      simpa using installed.ok rfl
    case h_2 s' eq => exact ⟨nofun, fun _ => freed _ _ eq nofun⟩
    case h_3 result s' notOk notFull eq => exact ⟨nofun, fun _ => freed _ _ eq notOk⟩

lemma create_plain (isExact : Exact s owed []) (process fd : ℕ) (plain : object.pipeEnd = none)
    (place : Option ℕ) :
    Exact (s.unifiedObjectCreate process fd object place).2 owed [] := by
  have nothing : Exact s (object.pipeEnd.toList ++ owed) [] := by rwa [plain]
  have created := create process fd object nothing place
  by_cases ok : (s.unifiedObjectCreate process fd object place).1 = .ok
  · exact created.1 ok
  · simpa [plain] using created.2 ok

lemma terminalStdioOpen (isExact : Exact s owed []) (place : Option ℕ) :
    Exact (s.unifiedTerminalStdioOpen process place).2 owed [] := by
  have created := isExact.create_plain process 0 (show (SharedObject.mk .terminal ⟨0, 0⟩ 0).pipeEnd = none from rfl)
    place
  unfold unifiedTerminalStdioOpen
  split
  case h_1 s₁ eq =>
    rw [eq] at created
    have first := created.duplicate process 0 1
    split
    case h_1 s₂ eq =>
      rw [eq] at first
      have second := first.duplicate process 0 2
      split
      case h_1 s₃ eq =>
        rw [eq] at second
        exact second
      case h_2 result s₃ _ eq =>
        rw [eq] at second
        exact (second.close process 1).close process 0
    case h_2 result s₂ _ eq =>
      rw [eq] at first
      exact first.close process 0
  case h_2 => exact created

lemma pipeEndClose {e : PipeEnd} (isExact : Exact s (e :: owed) fresh) : Exact (s.pipeEndClose e) owed fresh := by
  have closed := Ledger.pipeEndClose isExact (e := e) mem_cons_self
  rw [erase_cons_head] at closed
  exact closed

lemma pipeEndCreate {e : PipeEnd} (isExact : Exact s (e :: owed) []) (process fd : ℕ) (place : Option ℕ) :
    ((s.unifiedPipeEndCreate process fd e place).1 = .ok →
        Exact (s.unifiedPipeEndCreate process fd e place).2 owed []) ∧
      ((s.unifiedPipeEndCreate process fd e place).1 ≠ .ok →
        Exact (s.unifiedPipeEndCreate process fd e place).2 (e :: owed) []) := by
  have isEnd : (⟨if e.reader then .pipeRead else .pipeWrite, e.pipe, 0⟩ : SharedObject).pipeEnd = some e := by
    obtain ⟨pipe, reader⟩ := e
    cases reader <;> simp [SharedObject.pipeEnd]
  have given : Exact s
      ((⟨if e.reader then .pipeRead else .pipeWrite, e.pipe, 0⟩ : SharedObject).pipeEnd.toList ++ owed) [] := by
    rwa [isEnd]
  have created := create process fd _ given place
  rw [isEnd] at created
  exact created

lemma pipe2Write {pipe : Handle} (isExact : Exact s [⟨pipe, false⟩] []) (readFd : ℕ) (place : Option ℕ)
    (cloexec fault : Bool) : Exact (s.pipe2Write process readFd pipe place cloexec fault).2 [] [] := by
  have giveUp : ∀ {s}, Exact s [⟨pipe, false⟩] [] →
      Exact ((s.unifiedFdClose process readFd).2.pipeEndClose ⟨pipe, false⟩) [] [] :=
    fun isExact => (isExact.close process readFd).pipeEndClose
  unfold FdState.pipe2Write
  split
  case h_1 => exact giveUp isExact
  case h_2 writeFd _ =>
    have created := isExact.pipeEndCreate process writeFd place
    split
    case h_1 s' eq =>
      rw [eq] at created
      exact giveUp (created.2 nofun)
    case h_2 s' eq =>
      rw [eq] at created
      exact giveUp (created.2 nofun)
    case h_3 s' eq =>
      rw [eq] at created
      have made := created.1 rfl
      have marked : Exact (if cloexec then
          ((s'.unifiedFdSetCloseOnExec process readFd true).2.unifiedFdSetCloseOnExec process writeFd true).2
          else s') [] [] := by
        split
        · exact (made.setCloseOnExec process readFd true).setCloseOnExec process writeFd true
        · exact made
      dsimp only
      split
      · exact (marked.close process readFd).close process writeFd
      · exact marked

lemma pipe2 (isExact : Exact s [] []) (pipePlace readPlace writePlace : Option ℕ) (cloexec fault : Bool) :
    Exact (s.syscallPipe2 process pipePlace readPlace writePlace cloexec fault).2 [] [] := by
  unfold syscallPipe2
  split
  case h_1 => exact isExact
  case h_2 pipe pipes made =>
    obtain ⟨slot, -, made⟩ := bind_eq_some_iff.mp made
    have both : Exact { s with shared := { s.shared with pipes } } [⟨pipe, true⟩, ⟨pipe, false⟩] [] :=
      { isExact with ends := isExact.ends.make made }
    dsimp only
    split
    case h_1 => exact both.pipeEndClose.pipeEndClose
    case h_2 readFd _ =>
      have created := both.pipeEndCreate process readFd readPlace
      split
      case h_1 s' eq =>
        rw [eq] at created
        exact (created.2 nofun).pipeEndClose.pipeEndClose
      case h_2 s' eq =>
        rw [eq] at created
        exact (created.2 nofun).pipeEndClose.pipeEndClose
      case h_3 s' eq =>
        rw [eq] at created
        exact (created.1 rfl).pipe2Write readFd writePlace cloexec fault

/-! ### Sweeps over one table -/

lemma sweep (isExact : Exact s owed fresh) (Q : FdEntry → Prop) (body : ℕ → FdState → Except FdState FdState)
    (table : s.contexts.lookup process = some ctx)
    (hbody : ∀ s fd entry, Exact s owed fresh → s.entryAt process fd = some entry → entry.kind ≠ .empty →
      (∃ shared, body fd s = .ok ({ s with shared }.setEntry process fd .unused) ∧
        Exact ({ s with shared }.setEntry process fd .unused) owed fresh) ∨ (body fd s = .ok s ∧ Q entry)) :
    ∃ s' ctx', scan (·.unifiedFdNextOpen process) body (ctx.entries.length + 1) 0 s = .ok s' ∧
      Exact s' owed fresh ∧ s'.contexts.lookup process = some ctx' ∧
      ∀ entry ∈ ctx'.entries, entry.kind = .empty ∨ Q entry := by
  let Swept (cursor : ℕ) (s' : FdState) : Prop :=
    Exact s' owed fresh ∧ ∃ ctx', s'.contexts.lookup process = some ctx' ∧
      ctx'.entries.length = ctx.entries.length ∧
      ∀ k < cursor, ∀ entry, ctx'.entries[k]? = some entry → entry.kind = .empty ∨ Q entry
  have worked : ∀ cursor s' position, Swept cursor s' → s'.unifiedFdNextOpen process cursor = some position →
      ∃ s'', body position s' = .ok s'' ∧ Swept (position + 1) s'' := by
    rintro cursor s' position ⟨isExact, ctx', table, length, swept⟩ found
    obtain ⟨above, below, entry, here, used⟩ := unifiedFdNextOpen_eq_some table found
    -- the slots between the cursor and the position are unused
    have passed : ∀ k < position, ∀ entry, ctx'.entries[k]? = some entry → entry.kind = .empty ∨ Q entry := by
      intro k lt entry placed
      by_cases old : k < cursor
      · exact swept k old entry placed
      · left
        rw [unifiedFdNextOpen, table] at found
        by_contra used
        have := nextOpen_le found (by omega) placed used
        omega
    rcases hbody s' position entry isExact here used with ⟨shared, closed, kept⟩ | ⟨skipped, q⟩
    · refine ⟨_, closed, kept, ctx'.setEntry position .unused, lookup_setEntry table, ?_, ?_⟩
      · rw [entries_setEntry, length_set, length]
      · intro k lt entry placed
        rw [entries_setEntry] at placed
        by_cases same : position = k
        · subst same
          rw [getElem?_set_self below] at placed
          cases placed
          exact .inl rfl
        · rw [getElem?_set_ne same] at placed
          exact passed k (by omega) entry placed
    · refine ⟨_, skipped, isExact, ctx', table, length, fun k lt entry' placed => ?_⟩
      rcases Nat.lt_succ_iff_lt_or_eq.mp lt with lt | rfl
      · exact passed k lt entry' placed
      · rw [FdState.entryAt, table, bind_some, entryAt_eq, placed] at here
        cases here
        exact .inr q
  have scanned := scan_spec body ctx.entries.length Swept (fun _ => False)
    (fun cursor s' position inv found => by
      obtain ⟨-, ctx', table, length, -⟩ := inv
      obtain ⟨above, below, -⟩ := unifiedFdNextOpen_eq_some table found
      exact ⟨above, length ▸ below⟩)
    (fun cursor s' position s'' inv found eq => by
      obtain ⟨_, eq', inv'⟩ := worked cursor s' position inv found
      cases eq.symm.trans eq'
      exact inv')
    (fun cursor s' position r inv found eq => by
      obtain ⟨_, eq', -⟩ := worked cursor s' position inv found
      cases eq.symm.trans eq')
    (ctx.entries.length + 1) 0 s
    ⟨isExact, ctx, table, rfl, fun k lt => absurd lt (Nat.not_lt_zero k)⟩ (by omega)
  cases result : scan (·.unifiedFdNextOpen process) body (ctx.entries.length + 1) 0 s with
  | error r => exact (scanned.2 r result).elim
  | ok s' =>
    obtain ⟨cursor, ⟨isExact, ctx', table, -, swept⟩, none⟩ := scanned.1 s' result
    refine ⟨s', ctx', rfl, isExact, table, fun entry mem => ?_⟩
    obtain ⟨k, placed⟩ := getElem?_of_mem mem
    by_cases old : k < cursor
    · exact swept k old entry placed
    · rw [unifiedFdNextOpen, table] at none
      exact .inl (nextOpen_eq_none none (by omega) placed)

lemma closeExec (isExact : Exact s owed fresh) :
    Exact (s.unifiedFdCloseExecDescriptors process) owed fresh ∧
      ∀ ctx, (s.unifiedFdCloseExecDescriptors process).contexts.lookup process = some ctx →
        ∀ entry ∈ ctx.entries, entry.kind = .empty ∨ entry.closeOnExec = false := by
  unfold unifiedFdCloseExecDescriptors slotCount
  cases table : s.contexts.lookup process with
  | none =>
    have nothing : s.unifiedFdNextOpen process 0 = none := by rw [unifiedFdNextOpen, table]
    simp only [scan, nothing]
    refine ⟨isExact, fun ctx table' => ?_⟩
    cases table.symm.trans table'
  | some ctx =>
    obtain ⟨s', ctx', scanned, kept, table', swept⟩ := isExact.sweep (fun entry => entry.closeOnExec = false)
      (fun fd s =>
        .ok (if s.unifiedFdCloseOnExec process fd then (s.unifiedFdClose process fd).2 else s)) table
      (by
        intro s fd entry isExact here used
        have marked : s.unifiedFdCloseOnExec process fd = entry.closeOnExec := by
          rw [unifiedFdCloseOnExec, here]
          rfl
        cases mark : entry.closeOnExec with
        | true =>
          obtain ⟨shared, closed, kept⟩ := isExact.close_used here used
          exact .inl ⟨shared, by simp [marked, mark, closed], kept⟩
        | false => exact .inr ⟨by simp [marked, mark], rfl⟩)
    simp only [scanned]
    refine ⟨kept, fun ctx'' table'' => ?_⟩
    cases table'.symm.trans table''
    exact swept

lemma destroy (isExact : Exact s owed fresh) : Exact (s.unifiedFdDestroy process).2 owed fresh ∧
      ∀ ctx, (s.unifiedFdDestroy process).2.contexts.lookup process = some ctx →
        ∀ entry ∈ ctx.entries, entry.kind = .empty := by
  unfold unifiedFdDestroy
  cases table : s.contexts.lookup process with
  | none => exact ⟨isExact, fun ctx table' => nomatch table.symm.trans table'⟩
  | some ctx =>
    obtain ⟨s', ctx', scanned, kept, table', swept⟩ := isExact.sweep (fun _ => False)
      (FdState.destroyBody process) table
      (by
        intro s fd entry isExact here used
        obtain ⟨shared, closed, kept⟩ := isExact.close_used here used
        exact .inl ⟨shared, by simp [FdState.destroyBody, closed], kept⟩)
    simp only [scanned]
    refine ⟨kept, fun ctx'' table'' entry mem => ?_⟩
    cases table'.symm.trans table''
    exact (swept entry mem).resolve_right id

/-! ### Storage -/

variable {shared : Shared} {slots : List FdEntry} {blocks : List FdBlock}

lemma blocksRelease
    (ledger : Ledger shared (chainEntries blocks ++ slots) owed fresh)
    (unused : ∀ entry ∈ chainEntries blocks, entry.kind = .empty) :
    Ledger (Shared.fdBlocksRelease blocks shared) slots owed fresh := by
  induction blocks generalizing shared with
  | nil => exact ledger
  | cons block blocks ih =>
    rw [chainEntries_cons] at unused ledger
    rw [append_assoc] at ledger
    exact ih (ledger.blockFree (fun entry mem => unused entry (mem_append_left _ mem)) (by simp))
      fun entry mem => unused entry (mem_append_right _ mem)

section
variable (isExact : Exact s owed fresh)
include isExact

lemma contextRelease
    (closed : ∀ ctx, s.contexts.lookup process = some ctx → ∀ entry ∈ ctx.entries, entry.kind = .empty) :
    Exact (s.unifiedFdContextRelease process) owed fresh := by
  unfold unifiedFdContextRelease
  split
  case h_1 => exact isExact
  case h_2 ctx table =>
    obtain ⟨rest, before, -, erased⟩ := slots_focus table
    have released := blocksRelease (perm isExact before) (closed ctx table)
    rw [← erased] at released
    exact released

lemma contextEnsure (granted : Bool) : Exact (s.unifiedFdContextEnsure process granted) owed fresh := by
  unfold unifiedFdContextEnsure
  split
  case h_1 => exact isExact
  case h_2 absent =>
    split
    · unfold Exact
      rw [slots_setContext_new absent]
      exact isExact
    · exact isExact

lemma setLimits (table : s.contexts.lookup process = some ctx) (soft hard : ℕ) :
    Exact (s.setContext process { ctx with fdLimitSoft := soft, fdLimitHard := hard }) owed fresh := by
  obtain ⟨rest, before, after, -⟩ := slots_focus table
  exact (perm isExact before).perm (after { ctx with fdLimitSoft := soft, fdLimitHard := hard }).symm

lemma limitConfigure (soft hard : ℕ) :
    Exact (s.unifiedProcessFdLimitConfigure process soft hard).2 owed fresh := by
  unfold unifiedProcessFdLimitConfigure
  split
  · exact isExact
  split
  · exact isExact
  split
  case h_1 => exact isExact
  case h_2 ctx table => exact isExact.setLimits table soft hard

/-! ### Clones -/

lemma detach (child installs : ℕ) : Exact (s.unifiedFdCloneDetach child installs) owed fresh := by
  unfold unifiedFdCloneDetach
  split
  case h_1 => exact isExact
  case h_2 ctx table =>
    obtain ⟨rest, before, after, -⟩ := slots_focus table
    refine (perm isExact before).perm ?_
    have emptied : (s.setContext child { ctx with blocks := [] }).slots.Perm rest := after _
    -- the chain moves from the table to the detached chains
    calc ctx.entries ++ rest
      _ |>.Perm (ctx.entries ++ (s.setContext child { ctx with blocks := [] }).slots) :=
        emptied.symm.append_left _
      _ |>.Perm _ := by
        simp only [FdState.slots, flatMap_cons]
        exact perm_append_comm_assoc _ _ _

end

lemma cloneCopy (isExact : Exact s [] []) {parent child : ℕ} (apart : parent ≠ child) {fault : Option ℕ}
    {installs : ℕ} {result : Except (FdState × ℕ) (FdState × ℕ)}
    (copied : FdState.cloneCopy parent child fault fd (s, installs) = result) :
    (∀ s' installs', result = .ok (s', installs') →
      Exact s' [] [] ∧ s'.contexts.lookup parent = s.contexts.lookup parent) ∧
    ∀ s' installs', result = .error (s', installs') → Exact s' [] [] := by
  subst copied
  unfold FdState.cloneCopy
  split
  case h_1 => exact ⟨nofun, fun s' installs' eq => by cases eq; exact isExact⟩
  case h_2 entry _ =>
    split
    · exact ⟨nofun, fun s' installs' eq => by cases eq; exact isExact⟩
    have installed := isExact.install child fd entry.handle
    have same := lookup_unifiedFdInstall_of_ne (s := s) apart fd entry.handle
    split
    case h_1 s₁ eq =>
      rw [eq] at installed same
      have kept := installed.isExact
      split
      · have marked := kept.setCloseOnExec child fd true
        have same' := lookup_unifiedFdSetCloseOnExec_of_ne (s := s₁) apart fd true
        split
        case h_1 s₂ eq =>
          rw [eq] at marked
          exact ⟨nofun, fun s' installs' eq => by cases eq; exact marked⟩
        case h_2 s₂ eq =>
          rw [eq] at marked same'
          exact ⟨fun s' installs' eq => by cases eq; exact ⟨marked, same'.trans same⟩, nofun⟩
      · exact ⟨fun s' installs' eq => by cases eq; exact ⟨kept, same⟩, nofun⟩
    case h_2 result s₁ _ eq =>
      rw [eq] at installed
      exact ⟨nofun, fun s' installs' eq => by cases eq; exact installed.isExact⟩

lemma clone (isExact : Exact s [] []) (parent child : ℕ) (fault : Option ℕ) :
    Exact (s.unifiedFdCloneRun parent child fault).2 [] [] := by
  unfold unifiedFdCloneRun
  split
  · exact isExact
  rename_i apart
  split
  case h_2 => exact isExact
  case h_1 parentCtx childCtx parentTable childTable =>
    split
    · exact isExact
    split
    case h_1 => exact isExact
    case h_2 s₁ validated =>
      -- the validation pass changes nothing
      have same : s₁ = s := by
        have valid : ∀ fd s s', cloneValid parent fd s = .ok s' → s' = s := by
          intro fd s s' eq
          unfold cloneValid at eq
          split at eq
          · cases eq
          split at eq
          · cases eq
          split_ifs at eq
          cases eq
          rfl
        obtain ⟨_, same, -⟩ := (scan_spec (cloneValid parent) parentCtx.entries.length (fun _ s' => s' = s) (fun _ => True)
          (fun cursor s' position inv found => by
            subst inv
            obtain ⟨above, below, -⟩ := unifiedFdNextOpen_eq_some parentTable found
            exact ⟨above, below⟩)
          (fun cursor s' position s'' inv found eq => (valid _ _ _ eq).trans inv)
          (fun _ _ _ _ _ _ _ => trivial) (parentCtx.entries.length + 1) 0 s rfl (by omega)).1 s₁ validated
        exact same
      subst same
      have limits := isExact.setLimits childTable parentCtx.fdLimitSoft parentCtx.fdLimitHard
      have parentTable' := (lookup_setContext_of_ne (s := s₁) apart
        { childCtx with fdLimitSoft := parentCtx.fdLimitSoft, fdLimitHard := parentCtx.fdLimitHard }).trans parentTable
      have scanned := scan_spec (FdState.cloneCopy parent child fault) parentCtx.entries.length
        (fun _ (progress : FdState × ℕ) => Exact progress.1 [] [] ∧
          progress.1.contexts.lookup parent = some parentCtx)
        (fun (progress : FdState × ℕ) => Exact progress.1 [] [])
        (fun cursor progress position inv found => by
          obtain ⟨above, below, -⟩ := unifiedFdNextOpen_eq_some inv.2 found
          exact ⟨above, below⟩)
        (fun cursor progress position progress' inv found eq => by
          obtain ⟨kept, table⟩ := (inv.1.cloneCopy apart eq).1 _ _ rfl
          exact ⟨kept, table.trans inv.2⟩)
        (fun cursor progress position progress' inv found eq => (inv.1.cloneCopy apart eq).2 _ _ rfl)
        (parentCtx.entries.length + 1) 0 (_, 0) ⟨limits, parentTable'⟩ (by omega)
      dsimp only
      split
      case h_1 s₂ installs eq => exact (scanned.2 _ eq).detach child installs
      case h_2 s₂ installs eq =>
        obtain ⟨_, inv, -⟩ := scanned.1 _ eq
        exact inv.1

lemma undoEntry (ledger : Ledger shared (entry :: slots) owed fresh) :
    Ledger (FdState.undoEntry shared entry) (.unused :: slots) owed fresh := by
  unfold FdState.undoEntry
  by_cases used : entry.kind = .empty
  · rw [if_neg (by simp [used])]
    refine ledger.congr ?_ rfl
    rw [names_cons_empty used, names_cons_empty rfl]
  · have mem : entry.handle ∈ names (entry :: slots) := names_cons_used used ▸ mem_cons_self
    obtain ⟨object, live⟩ := ledger.counted.live _ mem
    obtain ⟨result, shared', released, -, kept⟩ := ledger.release used .unused rfl
    rw [if_pos ⟨used, by rw [live]; rfl⟩, released]
    exact kept

lemma undoEntries {entries slots : List FdEntry}
    (ledger : Ledger shared (entries ++ slots) owed fresh) :
    Ledger (entries.foldl FdState.undoEntry shared) (replicate entries.length .unused ++ slots) owed fresh := by
  induction entries generalizing shared slots with
  | nil => exact ledger
  | cons entry entries ih =>
    have undone := (undoEntry ledger).perm perm_middle.symm
    refine (ih undone).perm ?_
    rw [length_cons, replicate_succ, cons_append]
    exact perm_middle

lemma undoBlocks
    (ledger : Ledger shared (chainEntries blocks ++ slots) owed fresh) :
    Ledger (blocks.foldl FdState.undoBlock shared) slots owed fresh := by
  induction blocks generalizing shared with
  | nil => exact ledger
  | cons block blocks ih =>
    rw [chainEntries_cons, append_assoc] at ledger
    refine ih ((undoEntries ledger).blockFree (fun entry mem => ?_) (by simp))
    rw [eq_of_mem_replicate mem]
    rfl

lemma undoFinish (isExact : Exact s owed fresh) (index : ℕ) :
    Exact (s.unifiedFdCloneUndoFinish index) owed fresh := by
  unfold unifiedFdCloneUndoFinish
  split
  case h_1 => exact isExact
  case h_2 undo found =>
    obtain ⟨lt, rfl⟩ := List.getElem?_eq_some_iff.mp found
    refine undoBlocks (perm isExact ?_)
    have moved := (getElem_cons_eraseIdx_perm lt).symm.flatMap_right fun undo => chainEntries undo.blocks
    rw [FdState.slots, FdState.slots]
    refine (moved.append_left _).trans ?_
    rw [flatMap_cons]
    exact perm_append_comm_assoc _ _ _

end Exact
end Takibi.Fd
